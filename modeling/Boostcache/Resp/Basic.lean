import Boostcache.Cpp.Memory
import Mathlib.Data.List.Infix

/-!
This module contains the RESP wire format: multi-bulk requests as a client sends them and the
replies a client understands, with a decoder for the latter.
-/

namespace Resp

open Cpp

def crlf : ByteString := [cr, lf]

def decimal (n : Nat) : ByteString :=
  if n < 10 then
    [UInt8.ofNat (48 + n)]
  else
    decimal (n / 10) ++ [UInt8.ofNat (48 + n % 10)]

def isDigit (c : UInt8) : Bool :=
  48 ≤ c.toNat && c.toNat ≤ 57

def value (digits : ByteString) : Nat :=
  digits.foldl (fun v c => v * 10 + (c.toNat - 48)) 0

def block (data : ByteString) : ByteString :=
  literal "$" ++ decimal data.length ++ crlf ++ data ++ crlf

def request (arguments : List ByteString) : ByteString :=
  literal "*" ++ decimal arguments.length ++ crlf ++ arguments.flatMap block

inductive Reply where
  | status (line : ByteString)
  | error (line : ByteString)
  | integer (line : ByteString)
  | bulk (data : ByteString)
  | nil
  deriving DecidableEq, Repr

namespace Reply

def encode : Reply → ByteString
  | status line => literal "+" ++ line ++ crlf
  | error line => literal "-" ++ line ++ crlf
  | integer line => literal ":" ++ line ++ crlf
  | bulk data => block data
  | nil => literal "$-1" ++ crlf

def WellFormed : Reply → Prop
  | status line | error line | integer line => ¬ crlf <:+: line
  | bulk _ | nil => True

end Reply

def takeLine : ByteString → Option (ByteString × ByteString)
  | c :: d :: s =>
    if c = cr ∧ d = lf then
      some ([], s)
    else
      (takeLine (d :: s)).map (fun (line, rest) => (c :: line, rest))
  | _ => none

def takeBulk (n : Nat) (s : ByteString) : Option (Reply × ByteString) :=
  if (s.drop n).take 2 = crlf then
    some (.bulk (s.take n), s.drop (n + 2))
  else
    none

def decodeLine (c : UInt8) (line rest : ByteString) : Option (Reply × ByteString) :=
  if [c] = literal "+" then
    some (.status line, rest)
  else if [c] = literal "-" then
    some (.error line, rest)
  else if [c] = literal ":" then
    some (.integer line, rest)
  else if [c] = literal "$" then
    if line = literal "-1" then
      some (.nil, rest)
    else if line ≠ [] ∧ line.all isDigit then
      takeBulk (value line) rest
    else
      none
  else
    none

def decode : ByteString → Option (Reply × ByteString)
  | [] => none
  | c :: s =>
    match takeLine s with
    | none => none
    | some (line, rest) => decodeLine c line rest

def decodeMany : Nat → ByteString → Option (List Reply × ByteString)
  | 0, s => some ([], s)
  | n + 1, s =>
    match decode s with
    | none => none
    | some (reply, rest) =>
      (decodeMany n rest).map (fun (replies, rest) => (reply :: replies, rest))

/--
`s` is exactly one reply: whatever follows it on the wire, a decoder that starts at `s` consumes
`s` and nothing else.
-/
def IsReply (s : ByteString) (reply : Reply) : Prop :=
  ∀ rest, decode (s ++ rest) = some (reply, rest)

end Resp
