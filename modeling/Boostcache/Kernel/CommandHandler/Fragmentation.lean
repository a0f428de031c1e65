import Boostcache.Kernel.CommandHandler.Run

/-!
Multi-bulk requests on a connection that cuts what is sent into reads as it likes: a request on its
own, requests that are sent back to back and requests with empty arguments.
-/

open Cpp Resp

namespace CommandHandler

theorem feedAll_request {arguments : Arguments} (hne : arguments ≠ [])
    (hlength : arguments.length ≤ 2 ^ 31 - 1)
    (harguments : ∀ argument ∈ arguments, argument ≠ [] ∧ argument.length ≤ 2 ^ 31 - 3)
    {reads : List ByteString} (hreads : ∀ read ∈ reads, read ≠ [])
    (hflatten : reads.flatten = request arguments)
    : feedAll fresh reads
        =
      {
        outputs := List.replicate (reads.length - 1) (true, []) ++ [(false, [arguments])]
        final := .ok fresh
      } := by
  apply run_request ⟨hne, hlength, ?_⟩ ?_ hreads hflatten
  . intro argument hmem
    apply (harguments argument hmem).2
  . intro argument hmem
    apply (harguments argument hmem).1

theorem feedAll_request_hget
    : feedAll fresh [literal "*2\r", literal "\n$4\r\nHG", literal "ET\r\n$3\r\n\r\n$\r", literal "\n"]
        =
      {
        outputs :=
          [(true, []), (true, []), (true, []), (false, [[literal "HGET", literal "\r\n$"]])]
        final := .ok fresh
      } := by
  apply @feedAll_request [literal "HGET", literal "\r\n$"]
  . decide
  . decide
  . decide
  . decide
  . decide +kernel

section BackToBack

/--
The reads can be grouped such that each group is one request, i.e. no read holds the end of one
request and the beginning of the next one.
-/
def Aligned (requests : List Arguments) (reads : List ByteString) : Prop :=
  ∃ groups : List (List ByteString), groups.flatten = reads ∧ groups.map List.flatten = requests.map request

theorem executed_run_append {reads : List ByteString} {outputs : List Answer} {h h' : CommandHandler}
    (hrun : feedAll h reads = { outputs := outputs, final := .ok h' }) (more : List ByteString)
    : executed (feedAll h (reads ++ more))
        =
      outputs.flatMap (·.2) ++ executed (feedAll h' more) := by
  unfold feedAll at hrun ⊢
  rw [Machine.run_append hrun]
  simp [executed]

theorem executed_groups {requests : List Arguments} {groups : List (List ByteString)}
    (h : ∀ arguments ∈ requests, Encodable arguments)
    (hne : ∀ arguments ∈ requests, ∀ argument ∈ arguments, argument ≠ [])
    (hreads : ∀ read ∈ groups.flatten, read ≠ [])
    (hgroups : groups.map List.flatten = requests.map request)
    : executed (feedAll fresh groups.flatten) = requests := by
  induction requests generalizing groups with
  | nil =>
    rw [List.map_nil, List.map_eq_nil_iff] at hgroups
    rw [hgroups]
    rfl
  | cons arguments requests ih =>
    cases groups with
    | nil => contradiction
    | cons group groups =>
      rw [List.map_cons, List.map_cons] at hgroups
      injection hgroups with hgroup hgroups
      rw [List.flatten_cons] at hreads ⊢
      have hrun := run_request (h arguments (by simp)) (hne arguments (by simp))
        (fun read hread => hreads read (List.mem_append_left _ hread)) hgroup
      rw [executed_run_append hrun, ih]
      . simp
      . intro a ha
        apply h a (List.mem_cons_of_mem _ ha)
      . intro a ha
        apply hne a (List.mem_cons_of_mem _ ha)
      . intro read hread
        apply hreads read (List.mem_append_right _ hread)
      . assumption

theorem length_of_executed_star {s : ByteString} {arguments : Arguments}
    (h : executed (feedAll fresh [star :: s]) = [arguments])
    : arguments ≠ [] ∧ arguments.length ≤ 2 ^ 31 - 1 := by
  rcases executed_star_eq_singleton.mp h with ⟨number, last, rest, hscan⟩
  unfold scanRequest at hscan
  split at hscan
  . contradiction
  . next line next hsplit =>
    dsimp only at hscan
    split_ifs at hscan with hnumber
    injection hscan with _ hscan
    have hlength := scanArguments_length hscan
    have hlt := lineInt_lt line.tail
    rw [List.length_nil, Nat.zero_add] at hlength
    rw [ne_eq, ← List.length_eq_zero_iff]
    omega

theorem not_executed_request {arguments : Arguments}
    (h : ¬ (arguments ≠ [] ∧ arguments.length ≤ 2 ^ 31 - 1))
    : executed (feedAll fresh [request arguments]) ≠ [arguments] := by
  intro hexecuted
  rw [request_eq, List.cons_append] at hexecuted
  apply h (length_of_executed_star hexecuted)

-- One way to cut requests is not to cut at all, and a read executes at most one request.
theorem length_le_one {requests : List Arguments}
    (h : ∀ reads : List ByteString, (∀ read ∈ reads, read ≠ [])
      → reads.flatten = requests.flatMap request → executed (feedAll fresh reads) = requests)
    : requests.length ≤ 1 := by
  by_cases hnil : requests = []
  . simp [hnil]
  . have hstream : requests.flatMap request ≠ [] := by
      rcases List.exists_cons_of_ne_nil hnil with ⟨arguments, requests, rfl⟩
      simp [request_eq]
    rw [← h [requests.flatMap request] (by simpa using hstream) (by simp)]
    apply length_executed_le

theorem executed_of_length_le_one {requests : List Arguments} (hlength : requests.length ≤ 1)
    (hencodable : ∀ arguments ∈ requests, Encodable arguments)
    (hne : ∀ arguments ∈ requests, ∀ argument ∈ arguments, argument ≠ []) {reads : List ByteString}
    (hreads : ∀ read ∈ reads, read ≠ []) (hflatten : reads.flatten = requests.flatMap request)
    : executed (feedAll fresh reads) = requests := by
  cases requests with
  | nil =>
    cases reads with
    | nil => rfl
    | cons read reads =>
      have hread := hreads read (by simp)
      simp [hread] at hflatten
  | cons arguments requests =>
    have hnil : requests = [] := by
      rw [← List.length_eq_zero_iff]
      simpa using hlength
    subst hnil
    have hmem : arguments ∈ [arguments] := by simp
    rw [run_request (hencodable arguments hmem) (hne arguments hmem) hreads (by simpa using hflatten)]
    simp [executed]

-- A read that completes a request is given up as a whole, so the reads have to be aligned.
theorem executed_stream {requests : List Arguments}
    (harguments : ∀ arguments ∈ requests, ∀ argument ∈ arguments,
      argument ≠ [] ∧ argument.length ≤ 2 ^ 31 - 3)
    : (∀ reads : List ByteString, (∀ read ∈ reads, read ≠ []) → Aligned requests reads
        → (∀ arguments ∈ requests, arguments ≠ [] ∧ arguments.length ≤ 2 ^ 31 - 1)
        → executed (feedAll fresh reads) = requests)
      ∧
      ((∀ reads : List ByteString, (∀ read ∈ reads, read ≠ [])
          → reads.flatten = requests.flatMap request → executed (feedAll fresh reads) = requests)
        ↔
        requests.length ≤ 1
          ∧ ∀ arguments ∈ requests, arguments ≠ [] ∧ arguments.length ≤ 2 ^ 31 - 1) := by
  have hencodable {arguments : Arguments} (hmem : arguments ∈ requests)
      (h : arguments ≠ [] ∧ arguments.length ≤ 2 ^ 31 - 1) : Encodable arguments :=
    ⟨h.1, h.2, fun argument ha => (harguments arguments hmem argument ha).2⟩
  have hne {arguments : Arguments} (hmem : arguments ∈ requests)
      : ∀ argument ∈ arguments, argument ≠ [] :=
    fun argument ha => (harguments arguments hmem argument ha).1
  constructor
  . intro reads hreads haligned hrequests
    rcases haligned with ⟨groups, rfl, hgroups⟩
    exact executed_groups (fun a ha => hencodable ha (hrequests a ha)) (fun a ha => hne ha) hreads
      hgroups
  . constructor
    . intro h
      have hlength := length_le_one h
      refine ⟨hlength, ?_⟩
      intro arguments hmem
      apply Decidable.byContradiction
      intro hnot
      apply not_executed_request hnot
      have hsingle : requests = [arguments] := by
        match requests, hlength, hmem with
        | [a], _, hmem => rw [List.mem_singleton.mp hmem]
      rw [hsingle] at h
      apply h [request arguments] (by simp [request_eq]) (by simp)
    . intro h reads hreads hflatten
      rcases h with ⟨hlength, hrequests⟩
      exact executed_of_length_le_one hlength (fun a ha => hencodable ha (hrequests a ha))
        (fun a ha => hne ha) hreads hflatten

theorem executed_stream_ping
    : Aligned [[literal "PING"], [literal "PING"]]
        [literal "*1\r\n$4\r\n", literal "PING\r\n", literal "*1\r\n$4\r\nPING\r\n"]
      ∧
      executed (feedAll fresh
        [literal "*1\r\n$4\r\n", literal "PING\r\n", literal "*1\r\n$4\r\nPING\r\n"])
        =
      [[literal "PING"], [literal "PING"]] := by
  have haligned : Aligned [[literal "PING"], [literal "PING"]]
      [literal "*1\r\n$4\r\n", literal "PING\r\n", literal "*1\r\n$4\r\nPING\r\n"] :=
    ⟨[[literal "*1\r\n$4\r\n", literal "PING\r\n"], [literal "*1\r\n$4\r\nPING\r\n"]],
      rfl, by decide +kernel⟩
  exact ⟨haligned, (executed_stream (by decide)).1 _ (by decide) haligned (by decide)⟩

theorem executed_stream_one_read
    : ¬ ∀ requests : List Arguments,
        (∀ arguments ∈ requests, arguments ≠ [] ∧ ∀ argument ∈ arguments,
          argument ≠ [] ∧ argument.length ≤ 2 ^ 31 - 3)
          → ∀ reads : List ByteString, (∀ read ∈ reads, read ≠ [])
          → reads.flatten = requests.flatMap request
          → executed (feedAll fresh reads) = requests := by
  intro h
  have := h [[literal "PING"], [literal "PING"]] (by decide)
    [literal "*1\r\n$4\r\nPING\r\n*1\r\n$4\r\nPING\r\n"] (by decide) (by decide +kernel)
  exact absurd this (by decide +kernel)

end BackToBack

section EmptyArguments

/--
The request up to and including the line that announces its first empty argument, `number` is
the number of all its arguments.
-/
def upToEmpty (number : Nat) (arguments : Arguments) : ByteString :=
  header number ++ (arguments.flatMap block ++ (dollar :: (decimal 0 ++ [cr]) ++ [lf]))

theorem request_eq_upToEmpty (before after : Arguments)
    : request (before ++ [] :: after)
        =
      upToEmpty (before ++ [] :: after).length before ++ ([cr, lf] ++ after.flatMap block) := by
  simp [request_eq_header, upToEmpty, block_eq]

variable {before after : Arguments}

theorem waits_of_prefix_line {s : ByteString} (hpref : s <+: dollar :: (decimal 0 ++ [cr]) ++ [lf])
    (hproper : s ≠ dollar :: (decimal 0 ++ [cr]) ++ [lf]) (left : Nat) (saved : Arguments)
    (last : Int)
    : (scanArguments (left + 1) saved last s).Waits := by
  have hlf : lf ∉ s := by
    intro hlf
    have hline := lf_not_mem_line (show dollar ≠ lf by decide) 0
    rcases prefix_append_cons hpref hline hlf with ⟨u, rfl, hu⟩
    rw [List.prefix_nil.mp hu] at hproper
    contradiction
  unfold scanArguments
  rw [scanBlock_eq_noLine.mpr hlf]
  exact ⟨_, _, _, _, rfl⟩

theorem step_of_prefix_upToEmpty (h : Encodable (before ++ [] :: after))
    (hne : ∀ argument ∈ before, argument ≠ []) (b : ByteString) (hb : b ≠ [])
    (hpref : b <+: upToEmpty (before ++ [] :: after).length before)
    (hproper : b ≠ upToEmpty (before ++ [] :: after).length before)
    : ∃ h, step fresh b = .ok (h, true, []) ∧ Pending b h := by
  have hlength := h.length_le
  apply step_of_prefix h.ne_nil (by omega) _ b hb hpref hproper
  intro s hs hs'
  have := scanArguments_of_prefix hne
    (fun a ha => h.argument_length_le a (List.mem_append_left _ ha))
    (fun u hu hu' => waits_of_prefix_line hu hu' after.length) hs hs' [] (-1)
  simpa using this

theorem step_upToEmpty (h : Encodable (before ++ [] :: after))
    (hne : ∀ argument ∈ before, argument ≠ []) (z : ByteString)
    : step fresh (upToEmpty (before ++ [] :: after).length before ++ z) = .ok (fresh, true, []) := by
  have hlength := h.length_le
  rcases scanArguments_blocks hne
    (fun a ha => h.argument_length_le a (List.mem_append_left _ ha)) [] (-1) (after.length + 1)
    (dollar :: (decimal 0 ++ [cr]) ++ lf :: z) with ⟨last, hscan⟩
  have hrejected : scanArguments (after.length + 1) ([] ++ before) last
      (dollar :: (decimal 0 ++ [cr]) ++ lf :: z) = .rejected := by
    unfold scanArguments
    rw [scanBlock_block_nil]
  rw [hrejected] at hscan
  have hrequest := scanRequest_request (by omega) h.ne_nil
    (before.flatMap block ++ (dollar :: (decimal 0 ++ [cr]) ++ lf :: z))
  rw [List.length_append, List.length_cons, hscan] at hrequest
  have happend : upToEmpty (before ++ [] :: after).length before ++ z
      = star :: ((decimal (before.length + (after.length + 1)) ++ [cr])
          ++ lf :: (before.flatMap block ++ (dollar :: (decimal 0 ++ [cr]) ++ lf :: z))) := by
    simp [upToEmpty, header]
  rw [happend]
  apply step_rejected hrequest

-- Behind the request that was rejected, the line with the length of the next argument is an inline
-- command.
theorem step_length_line (n : Nat)
    : step fresh (dollar :: (decimal n ++ [cr]) ++ [lf])
        =
      .ok (fresh, false, [[dollar :: decimal n]]) := by
  have hspace : space ∉ dollar :: decimal n := by
    simp only [List.mem_cons, not_or]
    exact ⟨by decide, not_mem_of_isDigit (decimal_digits n) (by decide)⟩
  have hstar : (dollar :: (decimal n ++ [cr])).head? ≠ some star := by
    rw [List.head?_cons]
    decide
  have hline := lf_not_mem_line (show dollar ≠ lf by decide) n
  have hfeed := feedAndParseCommand_line hline (by simp) hstar []
  rw [← List.cons_append, trimCr_append_cr, words_of_not_mem hspace, if_neg (by simp)] at hfeed
  apply step_of_feed hfeed

theorem step_crlf : step fresh [cr, lf] = .ok (fresh, true, []) := by
  have hfeed := feedAndParseCommand_line (show lf ∉ [cr] by decide) (by simp) (by decide) []
  have hwords : (words (trimCr [cr])).head? = some [] := by decide +kernel
  rw [if_pos hwords] at hfeed
  apply step_of_feed hfeed

theorem executed_cons {h h' : CommandHandler} {read : ByteString} {needMore : Bool}
    {vectors : List Arguments} (hstep : step h read = .ok (h', needMore, vectors))
    (reads : List ByteString)
    : executed (feedAll h (read :: reads)) = vectors ++ executed (feedAll h' reads) := by
  unfold executed feedAll
  rw [Machine.run_cons_ok hstep]
  rfl

theorem exists_read {reads : List ByteString} (hreads : ∀ read ∈ reads, read ≠ []) {c : UInt8}
    {s : ByteString} (hflatten : reads.flatten = c :: s)
    : ∃ read reads', reads = (c :: read) :: reads' ∧ read ++ reads'.flatten = s := by
  cases reads with
  | nil => contradiction
  | cons read reads =>
    cases read with
    | nil =>
      have := hreads [] (by simp)
      contradiction
    | cons d read =>
      injection hflatten with hc hs
      exact ⟨read, reads, by rw [hc], hs⟩

-- The handler looks at the byte in front of the buffer, so nothing is known from there on.
theorem executed_lf {reads : List ByteString} (hreads : ∀ read ∈ reads, read ≠ [])
    {rest : ByteString} (hflatten : reads.flatten = lf :: rest)
    : executed (feedAll fresh reads) = [] := by
  rcases exists_read hreads hflatten with ⟨read, reads', rfl, -⟩
  have hstep : step fresh (lf :: read) = .error .outOfRange := by
    unfold step
    rw [feedAndParseCommand_lf]
    rfl
  unfold executed feedAll
  rw [Machine.run_cons_error hstep]
  rfl

theorem executed_flatten_nil {reads : List ByteString} (hreads : ∀ read ∈ reads, read ≠ [])
    (hflatten : reads.flatten = [])
    : executed (feedAll fresh reads) = [] := by
  cases reads with
  | nil => rfl
  | cons read reads =>
    rw [List.flatten_eq_nil_iff] at hflatten
    exact absurd (hflatten read (by simp)) (hreads read (by simp))

theorem executed_crlf {reads : List ByteString} (hreads : ∀ read ∈ reads, read ≠ [])
    (hflatten : reads.flatten = [cr, lf])
    : executed (feedAll fresh reads) = [] := by
  rcases exists_read hreads hflatten with ⟨read, reads', rfl, hrest⟩
  have hreads' : ∀ read ∈ reads', read ≠ [] :=
    fun r hr => hreads r (List.mem_cons_of_mem _ hr)
  cases read with
  | nil =>
    have hfeed := feedAndParseCommand_no_lf (show lf ∉ [cr] by decide) (by decide)
    rw [executed_cons (step_of_feed hfeed)]
    apply executed_lf hreads' hrest
  | cons c read =>
    injection hrest with hc hrest
    rcases List.append_eq_nil_iff.mp hrest with ⟨rfl, hnil⟩
    rw [hc, executed_cons step_crlf]
    apply executed_flatten_nil hreads' hnil

theorem executed_of_suffix_crlf {reads : List ByteString} (hreads : ∀ read ∈ reads, read ≠ [])
    (hsuffix : reads.flatten <:+ [cr, lf])
    : executed (feedAll fresh reads) = [] := by
  rw [List.suffix_cons_iff, List.suffix_cons_iff, List.suffix_nil] at hsuffix
  rcases hsuffix with hflatten | hflatten | hflatten
  . apply executed_crlf hreads hflatten
  . apply executed_lf hreads hflatten
  . apply executed_flatten_nil hreads hflatten

theorem executed_empty_last (h : Encodable (before ++ [[]]))
    (hne : ∀ argument ∈ before, argument ≠ []) {reads : List ByteString}
    (hreads : ∀ read ∈ reads, read ≠ []) (hflatten : reads.flatten = request (before ++ [[]]))
    : executed (feedAll fresh reads) = [] := by
  rw [request_eq_upToEmpty, List.flatMap_nil, List.append_nil] at hflatten
  rcases Machine.run_until resumable (step_of_prefix_upToEmpty h hne) (step_upToEmpty h hne) hreads
    List.nil_prefix (by simp [upToEmpty, header]) hflatten (fun y => rfl)
    with ⟨init, last, rest, rfl, hlast, hrun⟩
  have hrest : rest.flatten <:+ [cr, lf] := by
    rcases hlast with ⟨w, hw⟩
    rw [List.flatten_append, List.flatten_cons, ← List.append_assoc, ← List.nil_append init.flatten,
      ← hw, List.append_assoc, List.append_cancel_left_eq] at hflatten
    exact ⟨w, hflatten⟩
  have hnil := executed_of_suffix_crlf
    (fun r hr => hreads r (List.mem_append_right _ (List.mem_cons_of_mem _ hr))) hrest
  unfold executed feedAll at hnil ⊢
  rw [hrun, List.flatMap_append, List.flatMap_cons, hnil]
  simp

theorem mem_executed_empty {argument : ByteString} (h : Encodable (before ++ [] :: argument :: after))
    (hne : ∀ argument ∈ before, argument ≠ [])
    : ∃ reads : List ByteString, (∀ read ∈ reads, read ≠ [])
        ∧ reads.flatten = request (before ++ [] :: argument :: after)
        ∧ [dollar :: decimal argument.length] ∈ executed (feedAll fresh reads) := by
  have hstep := step_upToEmpty h hne []
  rw [List.append_nil] at hstep
  refine ⟨[upToEmpty (before ++ [] :: argument :: after).length before, [cr, lf],
    dollar :: (decimal argument.length ++ [cr]) ++ [lf],
    argument ++ [cr, lf] ++ after.flatMap block], ?_, ?_, ?_⟩
  . intro read hread
    simp only [List.mem_cons, List.not_mem_nil, or_false] at hread
    rcases hread with rfl | rfl | rfl | rfl <;> simp [upToEmpty, header]
  . rw [request_eq_upToEmpty, List.flatMap_cons, block_eq]
    simp
  . rw [executed_cons hstep, executed_cons step_crlf, executed_cons (step_length_line _)]
    simp

theorem executed_request {arguments : Arguments} (hne : arguments ≠ [])
    (hlength : arguments.length ≤ 2 ^ 31 - 1)
    (harguments : ∀ argument ∈ arguments, argument.length ≤ 2 ^ 31 - 3)
    : (∀ reads : List ByteString, (∀ read ∈ reads, read ≠ []) → reads.flatten = request arguments
        → ∀ vector ∈ executed (feedAll fresh reads), vector = arguments)
        ↔
      ∀ argument ∈ arguments.dropLast, argument ≠ [] := by
  have h : Encodable arguments := ⟨hne, hlength, harguments⟩
  by_cases hempty : [] ∈ arguments
  . rcases List.eq_append_cons_of_mem hempty with ⟨before, after, rfl, hbefore⟩
    have hbefore : ∀ argument ∈ before, argument ≠ [] := by
      intro argument hmem heq
      apply hbefore (heq ▸ hmem)
    cases after with
    | nil =>
      constructor
      . intro _ argument hmem
        rw [List.dropLast_concat] at hmem
        apply hbefore argument hmem
      . intro _ reads hreads hflatten vector hvector
        rw [executed_empty_last h hbefore hreads hflatten] at hvector
        contradiction
    | cons argument after =>
      constructor
      . intro hall
        rcases mem_executed_empty h hbefore with ⟨reads, hreads, hflatten, hmem⟩
        have hlengths := congrArg List.length (hall reads hreads hflatten _ hmem)
        simp at hlengths
        omega
      . intro hall
        have := hall [] (by simp)
        contradiction
  . have hnonempty : ∀ argument ∈ arguments, argument ≠ [] := by
      intro argument hmem heq
      apply hempty (heq ▸ hmem)
    constructor
    . intro _ argument hmem
      apply hnonempty argument (List.mem_of_mem_dropLast hmem)
    . intro _ reads hreads hflatten vector hvector
      rw [run_request h hnonempty hreads hflatten] at hvector
      simpa [executed] using hvector

theorem executed_request_set
    : (∀ argument ∈ [literal "HSET", literal "\r\nPING\r\n", []].dropLast, argument ≠ [])
      ∧
      ∀ reads : List ByteString, (∀ read ∈ reads, read ≠ [])
        → reads.flatten = request [literal "HSET", literal "\r\nPING\r\n", []]
        → ∀ vector ∈ executed (feedAll fresh reads),
          vector = [literal "HSET", literal "\r\nPING\r\n", []] := by
  constructor
  . decide
  . apply (executed_request (by decide) (by decide) (by decide)).mpr
    decide

theorem executed_request_empty_key
    : ¬ ∀ arguments : Arguments, arguments ≠ [] → arguments.length ≤ 2 ^ 31 - 1
        → (∀ argument ∈ arguments, argument.length ≤ 2 ^ 31 - 3)
        → ∀ reads : List ByteString, (∀ read ∈ reads, read ≠ [])
        → reads.flatten = request arguments
        → ∀ vector ∈ executed (feedAll fresh reads), vector = arguments := by
  intro h
  have := h [literal "HSET", [], literal "COMMANDS"] (by decide) (by decide) (by decide)
    [literal "*3\r\n$4\r\nHSET\r\n$0\r\n\r\n$8\r\n", literal "COMMANDS\r\n"] (by decide)
    (by decide +kernel) [literal "COMMANDS"] (by decide +kernel)
  exact absurd this (by decide)

end EmptyArguments

end CommandHandler
