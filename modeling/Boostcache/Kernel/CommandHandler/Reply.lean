import Boostcache.Kernel.CommandHandler.Impl
import Boostcache.Resp.Lemmas

/-!
The replies of `kernel/commandhandler.{h,cpp}` and what a client decodes them to.
-/

open Cpp Resp

namespace CommandHandler

def replyFalse : ByteString := literal ":0\r\n"
def replyTrue : ByteString := literal ":1\r\n"
def replyNil : ByteString := literal "$-1\r\n"
def replyOk : ByteString := literal "+OK\r\n"
def replyError : ByteString := literal "-ERR\r\n"

def toReplyString (string : ByteString) : ByteString :=
  literal "$" ++ decimal string.length ++ literal "\r\n" ++ string ++ literal "\r\n"

def toErrorReplyString (string : ByteString) : ByteString :=
  literal "-ERR " ++ string ++ literal "\r\n"

def toInlineReplyString (string : ByteString) : ByteString :=
  literal "+" ++ string ++ literal "\r\n"

theorem isReply_false : IsReply replyFalse (.integer (literal "0")) := by
  apply isReply_encode (.integer (literal "0"))
  apply not_infix_of_not_mem
  decide

theorem isReply_true : IsReply replyTrue (.integer (literal "1")) := by
  apply isReply_encode (.integer (literal "1"))
  apply not_infix_of_not_mem
  decide

theorem isReply_nil : IsReply replyNil .nil := by
  apply isReply_encode .nil
  trivial

theorem isReply_ok : IsReply replyOk (.status (literal "OK")) := by
  apply isReply_encode (.status (literal "OK"))
  apply not_infix_of_not_mem
  decide

theorem isReply_error : IsReply replyError (.error (literal "ERR")) := by
  apply isReply_encode (.error (literal "ERR"))
  apply not_infix_of_not_mem
  decide

theorem isReply_toReplyString (string : ByteString)
    : IsReply (toReplyString string) (.bulk string) := by
  apply isReply_encode (.bulk string)
  trivial

theorem isReply_toInlineReplyString {string : ByteString} (h : ¬ crlf <:+: string)
    : IsReply (toInlineReplyString string) (.status string) := by
  apply isReply_encode (.status string) h

end CommandHandler
