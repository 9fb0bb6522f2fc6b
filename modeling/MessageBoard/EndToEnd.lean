import MessageBoard.PublishRead
import MessageBoard.RmbTerminal
import MessageBoard.ServerLog

/-!
# From the keyboards to the screens

Any number of users, each at the terminal of a client, and any number of message servers.  The network
may lose datagrams, repeat them, deliver them late, and to anybody: `requests` and `replies` have what
was ever sent, and any of it may arrive anywhere at any time.  Between servers whole lines arrive, in any
order and any number of times.

* `request_of_order` — what a client sends is a text that was typed, or a request;
* `inv_run` — every message of every server, and every text on its way, was typed;
* `printed_was_typed` — **what is printed on a screen was typed at a terminal.**
-/

namespace MessageBoard

open CText CScan ScanStream Run Transducer ReplyWindow MessageLineCodec PublishRead ServerLog

namespace EndToEnd

/-! ### The system -/

structure Sys where
  boards : ℕ → Board
  terminals : ℕ → Rmb.Terminal
  /-- The datagrams of clients. -/
  requests : List Text
  /-- The datagrams of servers. -/
  replies : List Text
  /-- The lines that servers wrote to their peers, behind `SMESSAGES`. -/
  lines : List Text
  /-- What `handle_incoming_messages` printed at a client. -/
  screens : ℕ → List Text

inductive Action where
  | client (i : ℕ) (w : Rmb.Wakeup)
  | server (j : ℕ) (input : Input)

/-- What arrives was sent. -/
def Sys.arrives (sys : Sys) : Action → Bool
  | .client _ (.ready (some (some datagram)) _) => decide (datagram ∈ sys.replies)
  | .client _ _ => true
  | .server _ (.datagram _ datagram) => decide (datagram ∈ sys.requests)
  | .server _ (.line info) => decide (info ∈ sys.lines)
  | .server _ .sgetMessages => true

/-- The text that a turn of a client prints. -/
def printed (c : Rmb.Client) : Rmb.Wakeup → Text
  | .ready (some received) _ =>
      (Rmb.handleIncomingMessages c.statics (c.msgNum % 2 ^ 32) received).elim [] Rmb.Incoming.stdout
  | _ => []

/-- The lines of a text that is written to a peer, without its code. -/
def peerLines (text : Text) : List Text := (tokens (· == newline) text).drop 1

/-- A server answers: a client gets a datagram, peers get lines. -/
def Sys.answered (sys : Sys) (j : ℕ) (b : Board) (o : Output) : Input → Sys
  | .sgetMessages =>
      { sys with
        boards := Function.update sys.boards j b
        lines := sys.lines ++ o.reply.toList.flatMap peerLines }
  | _ =>
      { sys with
        boards := Function.update sys.boards j b
        replies := sys.replies ++ o.reply.toList
        lines := sys.lines ++ o.shared.toList.flatMap peerLines }

variable (inetAton : Text → Bool)

def step (sys : Sys) (a : Action) : Option Sys :=
  if sys.arrives a then
    match a with
    | .client i w =>
        (Rmb.terminalTurn inetAton (sys.terminals i) w).map fun r =>
          { sys with
            terminals := Function.update sys.terminals i r.1
            requests := sys.requests ++ r.2.map Prod.snd
            screens := Function.update sys.screens i
              (sys.screens i ++ [printed (sys.terminals i).client w]) }
    | .server j input =>
        (serve (sys.boards j) input).map fun r => sys.answered j r.1 r.2 input
  else none

/-- Nothing was sent.  Each user has text at hand, and each client its first list of servers. -/
def start (capacity : ℕ → ℕ) (hcap : ∀ j, 0 < capacity j) (overflow : ℕ → Bool)
    (servers : ℕ → List Server) (rand : ℕ → ℕ) (stdin : ℕ → Text) : Sys where
  boards := fun j => ⟨0, .createMatrix (capacity j) (hcap j) (overflow j)⟩
  terminals := fun i => ⟨.start (servers i) (rand i), stdin i⟩
  requests := []
  replies := []
  lines := []
  screens := fun _ => []

/-! ### What users type -/

/-- A line of some user asks to publish the text. -/
def Typed (stdin : ℕ → Text) (text : Text) : Prop :=
  ∃ i, Rmb.Order.publish text ∈ Rmb.orders (inputLines (stdin i))

/-- A text that goes whole through a datagram, a line and a reply. -/
structure Sendable (text : Text) : Prop where
  ne_nil : text ≠ []
  length_le : text.length ≤ 140
  newline_free : newline ∉ text
  nul_free : nul ∉ text
  not_space : ∀ b ∈ text.head?, b ≠ space

/-- The text behind a command. -/
theorem scanCommand_text (s : Text) :
    (scanCommand s).2.length ≤ 140 ∧ ∀ b ∈ (scanCommand s).2.head?, b ≠ space := by
  by_cases hw : (s.dropWhile isSpace).takeWhile (fun b => !isSpace b) = []
  · have hscan : scanCommand s = ([], []) := by
      simp [scanCommand, commandFormat, scan, Directive.read, hw]
    simp [hscan]
  · rw [scanCommand_word rfl hw]
    dsimp only
    split
    · refine ⟨List.length_take_le _ _, ?_⟩
      intro b hb
      have hstop := stops_dropWhile (· == space) ((s.dropWhile isSpace).drop
        ((s.dropWhile isSpace).takeWhile fun b => !isSpace b).length) b
      rw [Option.mem_def, List.head?_take, if_neg (by decide), List.head?_takeWhile] at hb
      have hhead := hstop (Option.filter_eq_some_iff.mp hb).1
      simpa using hhead
    · simp

theorem cstr_prefix (s : Text) : cstr s <+: s := List.takeWhile_prefix _

theorem sendable_textOf {line : Text} (hne : Rmb.textOf line ≠ []) : Sendable (Rmb.textOf line) := by
  obtain ⟨hlen, hspace⟩ := scanCommand_text line
  have hstart : Rmb.textOf line <+: (scanCommand line).2 := cstr_prefix _
  refine ⟨hne, le_trans hstart.length_le hlen, ?_, ?_, ?_⟩
  · exact fun hmem => newline_not_mem_scanCommand line (hstart.subset hmem)
  · intro hmem
    have := List.mem_takeWhile_imp hmem
    simp at this
  · intro b hb
    apply hspace b
    obtain ⟨rest, hrest⟩ := hstart
    rw [← hrest, List.head?_append]
    rw [Option.mem_def] at hb ⊢
    rw [hb]
    rfl

/-- An order is that of a line. -/
theorem mem_orders {o : Rmb.Order} {lines : List Text} (h : o ∈ Rmb.orders lines) :
    ∃ line answer, o = Rmb.orderOf (Rmb.opOf line) (Rmb.textOf line) answer := by
  obtain ⟨n, hn⟩ : ∃ n, n = lines.length := ⟨_, rfl⟩
  induction n using Nat.strong_induction_on generalizing lines with
  | _ n ih =>
    cases lines with
    | nil => simp [Rmb.orders] at h
    | cons line lines =>
      rw [Rmb.orders_cons] at h
      have hfirst : ∃ answer, (Rmb.takeOrder line lines).1
          = Rmb.orderOf (Rmb.opOf line) (Rmb.textOf line) answer := by
        rw [Rmb.takeOrder]
        split
        · exact ⟨_, rfl⟩
        · exact ⟨_, rfl⟩
      have hshorter : (Rmb.takeOrder line lines).2.length ≤ lines.length := by
        rw [Rmb.takeOrder]
        split
        · simp
        · exact le_rfl
      rcases List.mem_cons.mp h with rfl | h
      · exact ⟨line, hfirst⟩
      · rw [List.length_cons] at hn
        exact ih _ (by omega) h rfl

/-- A text that is published has a line of its own. -/
theorem Typed.sendable {stdin : ℕ → Text} {text : Text} (h : Typed stdin text) : Sendable text := by
  obtain ⟨i, hmem⟩ := h
  obtain ⟨line, answer, heq⟩ := mem_orders hmem
  obtain ⟨rfl, hne⟩ := Rmb.orderOf_publish heq.symm
  exact sendable_textOf hne

/-- What a client sends to servers. -/
inductive Request (stdin : ℕ → Text) : Text → Prop where
  | publish {text : Text} (htyped : Typed stdin text) :
      Request stdin (ascii "PUBLISH" ++ space :: text ++ [nul])
  | getMessages {num : ℕ} (hnum : num < 2 ^ 31) :
      Request stdin (ascii "GET_MESSAGES" ++ space :: decimal num ++ [nul])

/-- **What a client sends** is a text that was typed, or a request. -/
theorem request_of_order {stdin : ℕ → Text} {i : ℕ} {o : Rmb.Order} {datagram : Text}
    (ho : o ∈ Rmb.orders (inputLines (stdin i))) (h : datagram ∈ o.datagrams) :
    Request stdin datagram := by
  cases o with
  | publish text =>
    rw [Rmb.Order.datagrams] at h
    split at h
    · rcases List.mem_cons.mp h with rfl | h
      · exact .publish ⟨i, ho⟩
      · rw [List.mem_singleton.mp h]
        exact .getMessages (by decide)
    · simp at h
  | latest num =>
    obtain ⟨line, answer, heq⟩ := mem_orders ho
    rw [List.mem_singleton.mp h]
    exact .getMessages (Rmb.orderOf_latest heq.symm).2
  | exit => simp [Rmb.Order.datagrams] at h
  | other => simp [Rmb.Order.datagrams] at h

/-! ### What servers read -/

/-- A server reads the two fields of a command. -/
theorem commandOf_sent {op text : Text} (hop : op ≠ []) (hword : ∀ b ∈ op, isSpace b = false)
    (hnul : nul ∉ op) (hshort : op.length < stringSize) (hlen : text.length ≤ 140) (hnl : newline ∉ text)
    (hnul' : nul ∉ text) (hspace : ∀ b ∈ text.head?, b ≠ space) :
    commandOf (op ++ space :: text ++ [nul]) = (op, text) := by
  have hfree : nul ∉ op ++ space :: text := by
    rw [List.mem_append, List.mem_cons, not_or, not_or]
    exact ⟨hnul, by decide, hnul'⟩
  have htake : (op ++ space :: text ++ [nul]).take responseSize = op ++ space :: text ++ [nul] := by
    have hfits := length_command_lt hshort hlen
    apply List.take_of_length_le
    rw [List.length_append, List.length_singleton]
    omega
  rw [commandOf, htake, cstr_append_nul hfree, scanCommand_eq hop hword hnl hspace,
    List.take_of_length_le hlen]

/-- **What a server reads** of a request: a text that was typed, or a number. -/
theorem command_of_request {stdin : ℕ → Text} {datagram : Text} (h : Request stdin datagram)
    (sent : Bool) :
    (∃ text, Typed stdin text ∧ (Input.datagram sent datagram).command = .publish text)
      ∨ ∃ num, (Input.datagram sent datagram).command = .read sent num := by
  cases h with
  | @publish text htyped =>
    have hsend := htyped.sendable
    have hcommand := @commandOf_sent (ascii "PUBLISH") text (by decide) (by decide +kernel)
      (by decide +kernel) (by decide) hsend.length_le hsend.newline_free hsend.nul_free hsend.not_space
    refine Or.inl ⟨text, htyped, ?_⟩
    rw [Input.command, hcommand, if_pos rfl]
  | @getMessages num hnum =>
    have hshort : (decimal num).length ≤ 140 := by
      have := length_decimal_le (n := num) (k := 9) (by omega)
      omega
    have hhead : ∀ d ∈ (decimal num).head?, d ≠ space := by
      intro d hd heq
      subst heq
      exact not_mem_decimal (b := space) (by decide) num (List.mem_of_mem_head? hd)
    have hcommand := @commandOf_sent (ascii "GET_MESSAGES") (decimal num) (by decide)
      (by decide +kernel) (by decide +kernel) (by decide) hshort (not_mem_decimal (by decide) num)
      (not_mem_decimal (by decide) num) hhead
    refine Or.inr ⟨atoi (decimal num), ?_⟩
    rw [Input.command, hcommand, if_neg (show ascii "GET_MESSAGES" ≠ ascii "PUBLISH" by decide), if_pos rfl]

/-- A message with a text that was typed. -/
def Carries (stdin : ℕ → Text) (m : Message) : Prop := Typed stdin m.content

/-- **What a server reads** of a line: the text of its message. -/
theorem command_of_line {stdin : ℕ → Text} {m : Message} (h : Carries stdin m) :
    (∃ lc, (Input.line (clockLine m)).command = .record lc m.content)
      ∨ (Input.line (clockLine m)).command = .other 1 := by
  have hsend := Typed.sendable h
  have hfree : nul ∉ clockLine m := by
    rw [clockLine, getString, List.mem_append, List.mem_cons, not_or, not_or]
    exact ⟨not_mem_decimalInt (by decide) (by decide) _, by decide, hsend.nul_free⟩
  rw [Input.command, cstr_eq_self hfree,
    readLine_clockLine hsend.ne_nil hsend.length_le hsend.newline_free]
  by_cases hfits : (clockText m).length < 6
  · rw [if_pos hfits]
    exact Or.inl ⟨_, rfl⟩
  · rw [if_neg hfits]
    exact Or.inr rfl

/-! ### What servers write -/

theorem newline_not_mem_clockLine {m : Message} (h : newline ∉ m.content) :
    newline ∉ clockLine m := by
  rw [clockLine, getString, List.mem_append, List.mem_cons, not_or, not_or]
  exact ⟨not_mem_decimalInt (by decide) (by decide) _, by decide, h⟩

/-- **The lines of a text for peers** are those of its messages. -/
theorem peerLines_eq {xs : List Message} (hxs : ∀ m ∈ xs, newline ∉ m.content) (rest : Text)
    (hrest : rest = [] ∨ rest = [newline]) :
    peerLines (smessageCode ++ newline :: xs.flatMap (line .withLc) ++ rest) = xs.map clockLine := by
  have hlines : smessageCode ++ newline :: xs.flatMap (line .withLc)
      = linesText (smessageCode :: xs.map clockLine) := by
    rw [linesText_cons, linesText, List.flatMap_map]
    rfl
  have htokens : tokens (· == newline) (linesText (smessageCode :: xs.map clockLine))
      = smessageCode :: xs.map clockLine := by
    apply tokens_linesText
    · intro l hl
      rcases List.mem_cons.mp hl with rfl | hl
      · decide
      · obtain ⟨m, -, rfl⟩ := List.mem_map.mp hl
        simp [clockLine]
    · intro l hl
      rcases List.mem_cons.mp hl with rfl | hl
      · decide
      · obtain ⟨m, hm, rfl⟩ := List.mem_map.mp hl
        exact newline_not_mem_clockLine (hxs m hm)
  rw [peerLines, hlines]
  rcases hrest with rfl | rfl
  · rw [List.append_nil, htokens]
    rfl
  · rw [tokens_concat_delim (by decide), htokens]
    rfl

/-! ### What clients print -/

/-- A heading, and below it texts that were typed. -/
def Shows (stdin : ℕ → Text) (out : Text) : Prop :=
  out = [] ∨ ∃ (num : ℕ) (texts : List Text), out = Rmb.heading num ++ texts.flatMap Rmb.printedLine
    ∧ ∀ t ∈ texts, Typed stdin t

/-- The datagram of a server. -/
def Reply (stdin : ℕ → Text) (datagram : Text) : Prop :=
  ∃ texts : List Text, (∀ t ∈ texts, Typed stdin t) ∧ datagram = Rmb.reply texts

/-- **What a reply prints** are its texts. -/
theorem shows_reply {stdin : ℕ → Text} {datagram : Text} (h : Reply stdin datagram)
    {st : Rmb.Statics} {num : ℕ} {i : Rmb.Incoming}
    (hi : Rmb.handleIncomingMessages st num (some datagram) = some i) : Shows stdin i.stdout := by
  obtain ⟨texts, htyped, rfl⟩ := h
  have hsend := fun t ht => (htyped t ht).sendable
  have hfree : nul ∉ linesText texts := nul_not_mem_linesText fun t ht => (hsend t ht).nul_free
  have hdrop : (Rmb.reply texts).drop 9 = linesText texts := rfl
  cases hbuffer : (Rmb.reserve st num).responseBuffer with
  | none => simp [Rmb.handleIncomingMessages, hbuffer] at hi
  | some size =>
    simp only [Rmb.handleIncomingMessages, hbuffer, List.drop_take, hdrop] at hi
    obtain ⟨text, -, hi⟩ := Option.bind_eq_some_iff.mp hi
    split at hi
    · simp at hi
    · split at hi
      · split at hi
        · obtain ⟨messages, hmessages, rfl⟩ := Option.map_eq_some_iff.mp hi
          obtain rfl := Rmb.textIn_take_eq_some hfree hmessages
          refine Or.inr ⟨num, texts, ?_, htyped⟩
          rw [tokens_linesText (fun t ht => (hsend t ht).ne_nil) fun t ht => (hsend t ht).newline_free]
        · exact Or.inl (by rw [← Option.some.inj hi])
      · exact Or.inl (by rw [← Option.some.inj hi])

/-! ### Any run -/

/-- Everything in the system was typed.  There is room for `n` more messages at a server. -/
structure Inv (stdin : ℕ → Text) (capacity : ℕ → ℕ) (n : ℕ) (sys : Sys) : Prop where
  terminals : ∀ i, ∃ l, Rmb.OnLines 0 (sys.terminals i) l
    ∧ Rmb.orders l.2 ⊆ Rmb.orders (inputLines (stdin i))
  requests : ∀ d ∈ sys.requests, Request stdin d
  boards : ∀ j, ∃ (s : ServerLog.Server (capacity j)) (history : List Message),
    Keeps n (sys.boards j) s history ∧ ∀ m ∈ history, Carries stdin m
  replies : ∀ d ∈ sys.replies, Reply stdin d
  lines : ∀ l ∈ sys.lines, ∃ m, Carries stdin m ∧ l = clockLine m
  screens : ∀ i, ∀ out ∈ sys.screens i, Shows stdin out

section Servers

variable {stdin : ℕ → Text} {c n : ℕ} {s : ServerLog.Server c} {history : List Message} {b : Board}

/-- The log has messages of the history. -/
theorem mem_of_mem_log (h : Keeps n b s history) {m : Message} (hm : m ∈ s.log.entries) :
    m ∈ history := by
  rw [h.log_eq] at hm
  exact List.mem_of_mem_drop hm

/-- The texts that a command brings were typed. -/
def Allowed (stdin : ℕ → Text) (command : Command) : Prop := ∀ t ∈ command.text, Typed stdin t

theorem take_sendable {text : Text} (h : Typed stdin text) : text.take 140 = text :=
  List.take_of_length_le h.sendable.length_le

/-- **A reply to a client** has texts that were typed. -/
theorem reply_of_answer (h : Keeps n b s history) (hcarries : ∀ m ∈ history, Carries stdin m)
    {command : Command} (hread : command ≠ .history) :
    ∀ d ∈ (answer s command).2.reply.toList, Reply stdin d := by
  intro d hd
  cases command with
  | history => exact absurd rfl hread
  | read sent num =>
    rw [answer] at hd
    by_cases hnone : num = 0 ∨ sent = false
    · rcases hnone with hnum | rfl
      · simp [hnum] at hd
      · split at hd <;> simp at hd
    · obtain ⟨hnum, hsent⟩ := not_or.mp hnone
      rw [if_neg hnum, if_pos (by simpa using hsent)] at hd
      rw [List.mem_singleton.mp hd]
      refine ⟨(s.log.latest (if num < 0 then c else num.toNat)).map Message.content, ?_, ?_⟩
      · intro t ht
        obtain ⟨m, hm, rfl⟩ := List.mem_map.mp ht
        exact hcarries m (mem_of_mem_log h (List.mem_of_mem_drop hm))
      · rw [replyOf, Rmb.reply, linesText, List.flatMap_map]
        rfl
  | publish text => simp [answer] at hd
  | record lc text => simp [answer] at hd
  | other err => simp [answer] at hd

/-- **The lines for peers** have texts that were typed. -/
theorem lines_of_answer {command : Command} (hallowed : Allowed stdin command) :
    ∀ l ∈ (answer s command).2.shared.toList.flatMap peerLines,
      ∃ m, Carries stdin m ∧ l = clockLine m := by
  intro l hl
  cases command with
  | publish text =>
    have htyped : Carries stdin (made s.clock text) := hallowed _ rfl
    have hone : peerLines (smessageCode ++ newline :: line .withLc (made s.clock text))
        = [clockLine (made s.clock text)] := by
      have hlines := @peerLines_eq [made s.clock text]
        (by simpa using htyped.sendable.newline_free) [] (Or.inl rfl)
      rw [List.flatMap_singleton, List.append_nil] at hlines
      exact hlines
    have hshared : (answer s (.publish text)).2.shared.toList.flatMap peerLines
        = peerLines (smessageCode ++ newline :: line .withLc (made s.clock text)) :=
      List.flatMap_singleton _ _
    rw [hshared, hone, List.mem_singleton] at hl
    exact ⟨_, htyped, hl⟩
  | read sent num =>
    rw [answer] at hl
    split at hl
    · simp at hl
    · split at hl <;> simp at hl
  | record lc text => simp [answer] at hl
  | history => simp [answer] at hl
  | other err => simp [answer] at hl

/-- The lines of an answer to `SGET_MESSAGES`. -/
theorem lines_of_history (h : Keeps n b s history) (hcarries : ∀ m ∈ history, Carries stdin m) :
    ∀ l ∈ (answer s .history).2.reply.toList.flatMap peerLines,
      ∃ m, Carries stdin m ∧ l = clockLine m := by
  intro l hl
  have hentries := fun m hm => hcarries m (mem_of_mem_log h hm)
  have hlines : (answer s .history).2.reply.toList.flatMap peerLines = s.log.entries.map clockLine :=
    (List.flatMap_singleton _ _).trans (peerLines_eq
      (fun m hm => Typed.sendable (hentries m hm) |>.newline_free) [newline] (Or.inr rfl))
  rw [hlines] at hl
  obtain ⟨m, hm, rfl⟩ := List.mem_map.mp hl
  exact ⟨m, hentries m hm, rfl⟩

end Servers

variable {stdin : ℕ → Text} {capacity : ℕ → ℕ} {n : ℕ} {sys : Sys}

/-- **What a server is asked**: texts that were typed, and only a peer asks for everything. -/
theorem allowed_of_arrives (hinv : Inv stdin capacity n sys) {j : ℕ} {input : Input}
    (harrives : sys.arrives (.server j input) = true) :
    Allowed stdin input.command ∧ (input ≠ .sgetMessages → input.command ≠ .history) := by
  cases input with
  | datagram sent d =>
    rcases command_of_request (hinv.requests d (of_decide_eq_true harrives)) sent with
      ⟨text, htyped, hcommand⟩ | ⟨num, hcommand⟩
    · rw [hcommand]
      refine ⟨?_, by simp⟩
      intro t ht
      obtain rfl : text.take 140 = t := Option.some.inj ht
      rw [take_sendable htyped]
      exact htyped
    · rw [hcommand]
      exact ⟨by simp [Allowed, Command.text], by simp⟩
  | line info =>
    obtain ⟨m, hm, rfl⟩ := hinv.lines info (of_decide_eq_true harrives)
    rcases command_of_line hm with ⟨lc, hcommand⟩ | hcommand
    · rw [hcommand]
      refine ⟨?_, by simp⟩
      intro t ht
      obtain rfl : m.content.take 140 = t := Option.some.inj ht
      rw [take_sendable hm]
      exact hm
    · rw [hcommand]
      exact ⟨by simp [Allowed, Command.text], by simp⟩
  | sgetMessages => exact ⟨by simp [Allowed, Command.text, Input.command], fun h => absurd rfl h⟩

/-- **A server takes an input.** -/
theorem inv_server (hinv : Inv stdin capacity (n + 1) sys) {j : ℕ} {input : Input} {b' : Board}
    {o : Output} (harrives : sys.arrives (.server j input) = true)
    (hserve : serve (sys.boards j) input = some (b', o)) :
    Inv stdin capacity n (sys.answered j b' o input) := by
  obtain ⟨s, history, hkeeps, hcarries⟩ := hinv.boards j
  obtain ⟨rfl, new, hkeeps', hnew⟩ := serve_keeps hkeeps hserve
  have hallowed := allowed_of_arrives hinv harrives
  have hcarries' : ∀ m ∈ history ++ new, Carries stdin m := by
    intro m hm
    rcases List.mem_append.mp hm with hm | hm
    · exact hcarries m hm
    · apply hallowed.1
      have hcontent := List.mem_map_of_mem (f := Message.content) hm
      rw [hnew] at hcontent
      simpa using hcontent
  have hboards : ∀ t, ∃ (s : ServerLog.Server (capacity t)) (history : List Message),
      Keeps n (Function.update sys.boards j b' t) s history ∧ ∀ m ∈ history, Carries stdin m := by
    intro t
    by_cases ht : t = j
    · subst ht
      rw [Function.update_self]
      exact ⟨_, _, hkeeps', hcarries'⟩
    · rw [Function.update_of_ne ht]
      obtain ⟨s', history', hkeeps'', hcarries''⟩ := hinv.boards t
      exact ⟨s', history', hkeeps''.pred, hcarries''⟩
  have hlines : ∀ {new : List Text}, (∀ l ∈ new, ∃ m, Carries stdin m ∧ l = clockLine m) →
      ∀ l ∈ sys.lines ++ new, ∃ m, Carries stdin m ∧ l = clockLine m := by
    intro new hnew l hl
    rcases List.mem_append.mp hl with hl | hl
    · exact hinv.lines l hl
    · exact hnew l hl
  have hreplies : input ≠ .sgetMessages →
      ∀ d ∈ sys.replies ++ (answer s input.command).2.reply.toList, Reply stdin d := by
    intro hne d hd
    rcases List.mem_append.mp hd with hd | hd
    · exact hinv.replies d hd
    · exact reply_of_answer hkeeps hcarries (hallowed.2 hne) d hd
  cases input with
  | datagram sent d =>
    exact ⟨hinv.terminals, hinv.requests, hboards, hreplies (by simp),
      hlines (lines_of_answer hallowed.1), hinv.screens⟩
  | line info =>
    exact ⟨hinv.terminals, hinv.requests, hboards, hreplies (by simp),
      hlines (lines_of_answer hallowed.1), hinv.screens⟩
  | sgetMessages =>
    exact ⟨hinv.terminals, hinv.requests, hboards, hinv.replies,
      hlines (lines_of_history hkeeps hcarries), hinv.screens⟩

/-- **What a turn prints.** -/
theorem shows_printed (hinv : Inv stdin capacity n sys) {i : ℕ} {w : Rmb.Wakeup}
    (harrives : sys.arrives (.client i w) = true) (c : Rmb.Client) : Shows stdin (printed c w) := by
  cases w with
  | ready incoming typed =>
    cases incoming with
    | none => exact Or.inl rfl
    | some received =>
      cases received with
      | none =>
        refine Or.inl ?_
        cases hbuffer : (Rmb.reserve c.statics (c.msgNum % 2 ^ 32)).responseBuffer with
        | none =>
          simp only [printed, Rmb.handleIncomingMessages]
          rw [hbuffer]
          rfl
        | some size =>
          simp only [printed, Rmb.handleIncomingMessages]
          rw [hbuffer]
          rfl
      | some datagram =>
        rw [printed]
        cases hi : Rmb.handleIncomingMessages c.statics (c.msgNum % 2 ^ 32) (some datagram) with
        | none => exact Or.inl rfl
        | some i => exact shows_reply (hinv.replies datagram (of_decide_eq_true harrives)) hi
  | search rand fetched => exact Or.inl rfl
  | selectError => exact Or.inl rfl
  | timer => exact Or.inl rfl

/-- **A client takes a turn.** -/
theorem inv_client {inetAton : Text → Bool} (hinv : Inv stdin capacity (n + 1) sys) {i : ℕ}
    {w : Rmb.Wakeup} {t' : Rmb.Terminal} {out : List (Server × Text)}
    (harrives : sys.arrives (.client i w) = true)
    (hturn : Rmb.terminalTurn inetAton (sys.terminals i) w = some (t', out)) :
    Inv stdin capacity n { sys with
      terminals := Function.update sys.terminals i t'
      requests := sys.requests ++ out.map Prod.snd
      screens := Function.update sys.screens i
        (sys.screens i ++ [printed (sys.terminals i).client w]) } := by
  obtain ⟨l, honlines, horders⟩ := hinv.terminals i
  obtain ⟨l', hline, honlines'⟩ := Rmb.terminal_simulates 0 _ _ _ _ _ honlines hturn
  obtain ⟨done, hdone, hsub, -⟩ := Rmb.sentFor_lineTurn hline
  refine ⟨?_, ?_, ?_, hinv.replies, hinv.lines, ?_⟩
  · intro t
    by_cases ht : t = i
    · subst ht
      dsimp only
      rw [Function.update_self]
      refine ⟨l', honlines', fun o ho => horders ?_⟩
      rw [hdone]
      exact List.mem_append_right _ ho
    · dsimp only
      rw [Function.update_of_ne ht]
      exact hinv.terminals t
  · intro d hd
    rcases List.mem_append.mp hd with hd | hd
    · exact hinv.requests d hd
    · obtain ⟨o, ho, hmem⟩ := List.mem_flatMap.mp (hsub.subset hd)
      refine request_of_order (horders ?_) hmem
      rw [hdone]
      exact List.mem_append_left _ ho
  · intro j
    obtain ⟨s, history, hkeeps, hcarries⟩ := hinv.boards j
    exact ⟨s, history, hkeeps.pred, hcarries⟩
  · intro t out hout
    by_cases ht : t = i
    · subst ht
      dsimp only at hout
      rw [Function.update_self] at hout
      rcases List.mem_append.mp hout with hout | hout
      · exact hinv.screens t out hout
      · rw [List.mem_singleton.mp hout]
        exact shows_printed hinv harrives _
    · dsimp only at hout
      rw [Function.update_of_ne ht] at hout
      exact hinv.screens t out hout

theorem inv_start {capacity : ℕ → ℕ} (hcap : ∀ j, 0 < capacity j) (hint : ∀ j, capacity j < 2 ^ 31)
    (overflow : ℕ → Bool) (servers : ℕ → List Server) (rand : ℕ → ℕ) (stdin : ℕ → Text)
    (hn : n < 2 ^ 31) : Inv stdin capacity n (start capacity hcap overflow servers rand stdin) where
  terminals := fun i => ⟨_, ⟨rfl, Or.inl rfl⟩, fun _ ho => ho⟩
  requests := by simp [start]
  boards := fun j => ⟨_, [], keeps_start (hcap j) (hint j) (overflow j) hn, by simp⟩
  replies := by simp [start]
  lines := by simp [start]
  screens := by simp [start]

variable {inetAton : Text → Bool}

theorem inv_step {a : Action} {sys' : Sys} (hinv : Inv stdin capacity (n + 1) sys)
    (h : step inetAton sys a = some sys') : Inv stdin capacity n sys' := by
  cases a with
  | client i w =>
    simp only [step] at h
    split at h
    · rename_i harrives
      obtain ⟨⟨t', out⟩, hturn, rfl⟩ := Option.map_eq_some_iff.mp h
      exact inv_client hinv harrives hturn
    · simp at h
  | server j input =>
    simp only [step] at h
    split at h
    · rename_i harrives
      obtain ⟨⟨b', o⟩, hserve, rfl⟩ := Option.map_eq_some_iff.mp h
      exact inv_server hinv harrives hserve
    · simp at h

/-- **Any run**: a step takes one unit of the room. -/
theorem inv_run {acts : List Action} {sys' : Sys} (hinv : Inv stdin capacity (n + acts.length) sys)
    (hrun : run (step inetAton) sys acts = some sys') : Inv stdin capacity n sys' := by
  induction acts generalizing sys with
  | nil => exact Option.some.inj hrun ▸ hinv
  | cons a acts ih =>
    rw [run_cons] at hrun
    obtain ⟨sys₁, hstep, hrest⟩ := Option.bind_eq_some_iff.mp hrun
    rw [List.length_cons, ← Nat.add_assoc] at hinv
    exact ih (inv_step hinv hstep) hrest

/-- **What is printed on a screen was typed at a terminal**: below a heading there are only texts of lines
that some user typed to publish them; and a server keeps nothing else.  This holds for any number of
clients and servers, and whatever the network loses, repeats, delays or delivers to others. -/
theorem printed_was_typed (hcap : ∀ j, 0 < capacity j) (hint : ∀ j, capacity j < 2 ^ 31)
    (overflow : ℕ → Bool) (servers : ℕ → List Server) (rand : ℕ → ℕ) (stdin : ℕ → Text)
    {acts : List Action} (hfew : acts.length < 2 ^ 31)
    (hrun : run (step inetAton) (start capacity hcap overflow servers rand stdin) acts = some sys) :
    (∀ i, ∀ out ∈ sys.screens i, Shows stdin out)
      ∧ ∀ j, ∃ history, (sys.boards j).msgMatrix.Holds history
        ∧ ∀ m ∈ history, Typed stdin m.content := by
  have hstart := inv_start (n := 0 + acts.length) hcap hint overflow servers rand stdin (by omega)
  have hinv := inv_run hstart hrun
  refine ⟨hinv.screens, fun j => ?_⟩
  obtain ⟨s, history, hkeeps, hcarries⟩ := hinv.boards j
  exact ⟨history, hkeeps.holds, hcarries⟩

/-! ### A run -/

/-- One user publishes, another one reads. -/
def typedBy : ℕ → Text
  | 0 => ascii "publish hi\n"
  | _ => ascii "show_latest_messages 5\n"

/-- What was sent to one server reaches the other one as a line, and is read there. -/
def publishedAndRead : List Action :=
  [.client 0 (.ready none (some (true, true))), .server 0 (.datagram true (ascii "PUBLISH hi" ++ [nul])),
    .server 1 (.line (ascii "0;hi")), .client 1 (.ready none (some (true, true))),
    .server 1 (.datagram true (ascii "GET_MESSAGES 5" ++ [nul])),
    .client 1 (.ready (some (some (ascii "MESSAGES\nhi\n"))) none)]

theorem printed_was_typed_publishedAndRead : ∃ sys out,
    run (step fun _ => true) (start (fun _ => 4) (fun _ => by decide) (fun _ => false)
      (fun _ => [Rmb.host 1]) (fun _ => 0) typedBy) publishedAndRead = some sys
      ∧ out ∈ sys.screens 1 ∧ out ≠ [] ∧ Shows typedBy out := by
  have hscreen : (run (step fun _ => true) (start (fun _ => 4) (fun _ => by decide) (fun _ => false)
      (fun _ => [Rmb.host 1]) (fun _ => 0) typedBy) publishedAndRead).map (fun sys => sys.screens 1)
      = some [[], Rmb.heading 5 ++ Rmb.printedLine (ascii "hi")] := by decide +kernel
  obtain ⟨sys, hrun, heq⟩ := Option.map_eq_some_iff.mp hscreen
  have hout : Rmb.heading 5 ++ Rmb.printedLine (ascii "hi") ∈ sys.screens 1 := by
    rw [heq]
    simp
  exact ⟨sys, _, hrun, hout, by decide +kernel, (printed_was_typed (fun _ => by decide)
    (fun _ => by decide) (fun _ => false) (fun _ => [Rmb.host 1]) (fun _ => 0) typedBy (by decide)
    hrun).1 1 _ hout⟩

end EndToEnd

end MessageBoard
