import MessageBoard.Lib.BoundedLog
import MessageBoard.Lib.Transducer
import MessageBoard.MessageLineCodec
import MessageBoard.ReplyBuffers

/-!
# A message server is a bounded log

What a message server is for: it keeps the newest messages, gives clients the last ones they ask for
and a peer all of them, and hands every new one on.  `Server` and `answer` say so, without a matrix, a
counter or a buffer; `serve` is the code, for any datagrams, lines of peers and requests of peers.
Where a buffer of the code is overrun it has no meaning, and `serve` is refused.

* `publish_answer`, `read_answer`, `history_answer` — what the code answers, and what the log does;
* `serve_simulates`, `serve_refines` — **any run of the code is a run of the log**, answer by answer;
* `reads_history` — **what a client reads** are the last of all texts that reached the server.
-/

namespace MessageBoard

open CText CScan BoundedLog Transducer ReplyWindow MessageLineCodec

namespace ServerLog

/-! ### The code -/

/-- What reaches the functions of `msgserv/message`: a datagram of a client, a line behind `SMESSAGES`
and a request of a peer. -/
inductive Input where
  /-- `sent` says whether `sendto` of the reply succeeds. -/
  | datagram (sent : Bool) (datagram : Text)
  | line (info : Text)
  | sgetMessages

/-- The returned code, the text for the client or peer that asked, and the text for every peer. -/
structure Output where
  err : ℕ
  reply : Option Text
  shared : Option Text
  deriving DecidableEq

/-- One input.  The main loop shares the last message when `handle_client_comms` returned 2. -/
def serve (b : Board) : Input → Option (Board × Output)
  | .datagram sent datagram =>
      (handleClientCommsIn sent b datagram).map fun r =>
        (r.board, ⟨r.err, r.reply, if r.err = 2 then shareLastMessage r.board else none⟩)
  | .line info =>
      (parseMessage b (cstr info)).map fun r =>
        (r.1, ⟨if r.2.isSome then 0 else 1, none, none⟩)
  | .sgetMessages =>
      (getFirstNMessagesIn b.msgMatrix (toInt32 b.msgMatrix.getCapacity) .withLc).map fun _ =>
        (b, ⟨0, some (handleSgetMessages b), none⟩)

/-! ### The log -/

/-- What an input asks for. -/
inductive Command where
  | publish (text : Text)
  | read (sent : Bool) (num : ℤ)
  | record (lc : ℕ) (text : Text)
  | history
  /-- A datagram or a line that is not understood, with the code it returns. -/
  | other (err : ℕ)

def Input.command : Input → Command
  | .datagram sent bytes =>
      if (commandOf bytes).1 = ascii "PUBLISH" then .publish (commandOf bytes).2
      else if (commandOf bytes).1 = ascii "GET_MESSAGES" then .read sent (atoi (commandOf bytes).2)
      else .other 0
  | .line info =>
      match readLine (cstr info) with
      | some (lc, text) => .record lc text
      | none => .other 1
  | .sgetMessages => .history

/-- A clock, and the newest messages. -/
structure Server (capacity : ℕ) where
  clock : ℕ
  log : Log Message capacity

variable {capacity : ℕ}

def Server.start : Server capacity := ⟨0, .empty⟩

/-- A message, with a text of at most 140 bytes. -/
def made (lc : ℕ) (text : Text) : Message := ⟨lc, text.take 140⟩

def Server.store (s : Server capacity) (lc : ℕ) (text : Text) : Server capacity :=
  ⟨(lc + 1) % 2 ^ 64, s.log.push (made lc text)⟩

/-- What a peer is sent: the messages with their clocks, one a line. -/
def forPeers (xs : List Message) : Text :=
  smessageCode ++ newline :: xs.flatMap (line .withLc) ++ [newline]

/-- **What a message server does.**  A negative number asks for everything; a reply that is not sent is an
error. -/
def answer (s : Server capacity) : Command → Server capacity × Output
  | .publish text => (s.store s.clock text, ⟨2, none, some (smessageCode ++ newline
      :: line .withLc (made s.clock text))⟩)
  | .read sent num =>
      (s, if num = 0 then ⟨1, none, none⟩
        else if sent then
          ⟨0, some (replyOf (s.log.latest (if num < 0 then capacity else num.toNat))), none⟩
        else ⟨1, none, none⟩)
  | .record lc text => (s.store (max s.clock lc) text, ⟨0, none, none⟩)
  | .history => (s, ⟨0, some (forPeers s.log.entries), none⟩)
  | .other err => (s, ⟨err, none, none⟩)

/-- The log as a machine that refuses nothing. -/
def answerInput (s : Server capacity) (a : Input) : Option (Server capacity × Output) :=
  some (answer s a.command)

/-! ### The board of a log -/

/-- The matrix has a history, with room for `n` more messages in the counter; the log is what the
history leaves. -/
structure Keeps (n : ℕ) (b : Board) (s : Server capacity) (history : List Message) : Prop where
  holds : b.msgMatrix.Holds history
  capacity_eq : b.msgMatrix.getCapacity = capacity
  capacity_lt : capacity < 2 ^ 31
  short : ∀ x ∈ history, x.content.length ≤ 140
  length_lt : history.length + n < 2 ^ 31
  clock_eq : s.clock = b.gLc
  log_eq : s.log = Log.ofHistory capacity history

variable {n : ℕ} {b : Board} {s : Server capacity} {history : List Message}

/-- With less room. -/
theorem Keeps.pred (h : Keeps (n + 1) b s history) : Keeps n b s history :=
  { h with length_lt := by have := h.length_lt; omega }

/-- An input that stores nothing. -/
theorem Keeps.nothing (h : Keeps (n + 1) b s history) : Keeps n b s (history ++ []) := by
  rw [List.append_nil]
  exact h.pred

/-- **A message is added.** -/
theorem Keeps.store (h : Keeps (n + 1) b s history) {lc lc' : ℕ} (hlc : lc' = lc) (text : Text) :
    Keeps n (b.add lc text).1 (s.store lc' text) (history ++ [made lc text]) where
  holds := h.holds.add (made lc text)
  capacity_eq := h.capacity_eq
  capacity_lt := h.capacity_lt
  short := by
    intro x hx
    rcases List.mem_append.mp hx with hx | hx
    · exact h.short x hx
    · rw [List.mem_singleton.mp hx]
      exact List.length_take_le _ _
  length_lt := by
    have := h.length_lt
    rw [List.length_append, List.length_singleton]
    omega
  clock_eq := by rw [hlc]; rfl
  log_eq := by rw [hlc, Server.store, h.log_eq, Log.push_ofHistory]

/-- The last messages of the history are the latest entries of the log. -/
theorem Keeps.latest (h : Keeps n b s history) (m : ℕ) :
    lastOf (min m (min capacity history.length)) history = s.log.latest m := by
  rw [h.log_eq, Log.latest_ofHistory, lastOf]

theorem Keeps.entries (h : Keeps n b s history) :
    lastOf (min capacity history.length) history = s.log.entries := by
  rw [h.log_eq, Log.ofHistory, lastOf]
  congr 1
  omega

/-! ### A publication -/

/-- **A publication** is stored, and its line is shared. -/
theorem publish_answer (h : Keeps (n + 1) b s history) (text : Text) :
    shareLastMessage (handlePublish b text) = (answer s (.publish text)).2.shared
      ∧ Keeps n (handlePublish b text) (answer s (.publish text)).1 (history ++ [made b.gLc text]) := by
  refine ⟨?_, h.store h.clock_eq text⟩
  have hlast : lastMessage (handlePublish b text) = some (made b.gLc text) := lastMessage_add b _ _
  rw [shareLastMessage_of_last hlast (List.length_take_le _ _), answer, h.clock_eq, line]
  simp

/-! ### A request for the last messages -/

/-- A number as `uint_fast32_t` takes it. -/
theorem unsigned_atoi (text : Text) :
    (((atoi text) % 2 ^ 64).toNat = 0 ↔ atoi text = 0)
      ∧ ∀ {k : ℕ}, k < 2 ^ 31 → min ((atoi text) % 2 ^ 64).toNat k
        = min (if atoi text < 0 then k else (atoi text).toNat) k := by
  have hrange : -2 ^ 31 ≤ atoi text ∧ atoi text < 2 ^ 31 := by
    rw [atoi, Int.bmod_def]
    omega
  refine ⟨by omega, fun hk => ?_⟩
  split <;> omega

/-- The number that `handle_get_messages` asks for. -/
theorem clampNum_atoi (h : Keeps n b s history) (text : Text) :
    clampNum b ((atoi text) % 2 ^ 64).toNat
      = min (if atoi text < 0 then capacity else (atoi text).toNat) (min capacity history.length) := by
  have hcap := h.capacity_lt
  rw [clampNum_eq, h.capacity_eq, h.holds.size_eq, (unsigned_atoi text).2 (by omega)]
  split <;> omega

/-- The reply has the last messages, where the code writes it. -/
theorem reply_last (sent : Bool) (h : Keeps n b s history) {k : ℕ} (hk : k ≤ min capacity history.length)
    (hpos : history ≠ [] → 0 < k) : (getFirstNMessages b.msgMatrix k .withoutLc).elim
      (sendReply sent (messageCode ++ [newline])) (fun toAppend =>
        sendReply sent ((messageCode ++ newline :: toAppend).take (stringSize * (k + 1) - 1)))
      = sendReply sent (replyOf (lastOf k history)) := by
  have hcap := h.capacity_lt
  have hlength := h.length_lt
  by_cases hnil : history = []
  · subst hnil
    rw [getFirstNMessages_empty h.holds, lastOf, List.drop_nil]
    rfl
  · have hkpos := hpos hnil
    have htext := getFirstNMessages_holds h.holds (by rw [h.capacity_eq]; omega) (by omega) hnil
      .withoutLc (n := k) hkpos (by rw [h.capacity_eq]; omega)
    have hlast : ∀ x ∈ lastOf k history, x.content.length ≤ 140 :=
      fun x hx => h.short x (mem_of_mem_lastOf hx)
    obtain ⟨hle, -⟩ := length_lines hlast
    rw [length_lastOf (by omega)] at hle
    rw [htext, historyText_of_fits hlast hle]
    simp only [replyOf, Option.elim_some]
    rw [List.take_of_length_le]
    have hcode : messageCode.length = 8 := rfl
    rw [List.length_append, List.length_cons, hcode]
    simp only [stringSize] at hle ⊢
    omega

/-- **A request for the last messages**, where the code answers it. -/
theorem read_answer {sent : Bool} (h : Keeps n b s history) {text : Text} {r : ℕ × Option Text}
    (hr : handleGetMessagesIn sent b text = some r) :
    (⟨r.1, r.2, none⟩ : Output) = (answer s (.read sent (atoi text))).2 := by
  have hzero := (unsigned_atoi text).1
  rw [answer]
  by_cases hnum : atoi text = 0
  · rw [handleGetMessagesIn_refused sent b (by omega), Option.some.injEq] at hr
    rw [← hr, if_pos hnum]
  · have hpos : ¬(atoi text % 2 ^ 64).toNat < 1 := by omega
    simp only [handleGetMessagesIn] at hr
    rw [if_neg hpos] at hr
    obtain ⟨first, -, rfl⟩ := Option.map_eq_some_iff.mp hr
    obtain ⟨k, hk⟩ : ∃ k, k = clampNum b (atoi text % 2 ^ 64).toNat := ⟨_, rfl⟩
    have hclamp := hk.trans (clampNum_atoi h text)
    have hcap := h.capacity_lt
    have hcpos : 0 < capacity := by
      rw [← h.capacity_eq]
      exact b.msgMatrix.capacity_pos
    have hint : toInt32 k = k := toInt32_of_lt (by omega)
    have hanswer : handleGetMessages sent b text = (getFirstNMessages b.msgMatrix k .withoutLc).elim
        (sendReply sent (messageCode ++ [newline])) fun toAppend =>
          sendReply sent ((messageCode ++ newline :: toAppend).take (stringSize * (k + 1) - 1)) := by
      simp only [handleGetMessages]
      rw [if_neg hpos, ← hint, hk, clampNum]
      generalize getFirstNMessages b.msgMatrix _ .withoutLc = first
      cases first <;> rfl
    have hlast : history ≠ [] → 0 < k := by
      intro hne
      have hlength := List.length_pos_iff.mpr hne
      rw [hclamp]
      split <;> omega
    rw [hanswer, reply_last sent h (by omega) hlast, if_neg hnum, ← h.latest, ← hclamp]
    cases sent <;> rfl

/-! ### A request of a peer -/

/-- **A request of a peer**, where the code answers it. -/
theorem history_answer (h : Keeps n b s history) {first : Option Text}
    (hfirst : getFirstNMessagesIn b.msgMatrix (toInt32 b.msgMatrix.getCapacity) .withLc = some first) :
    some (handleSgetMessages b) = (answer s .history).2.reply := by
  have hint : toInt32 b.msgMatrix.getCapacity = b.msgMatrix.getCapacity := by
    rw [h.capacity_eq]
    exact toInt32_of_lt h.capacity_lt
  have hcap := h.capacity_eq
  have hcpos := b.msgMatrix.capacity_pos
  have hcode : smessageCode.length = 9 := rfl
  rw [hint] at hfirst
  simp only [handleSgetMessages, hint, answer, forPeers]
  rw [← h.entries]
  by_cases hnil : history = []
  · subst hnil
    rw [getFirstNMessages_empty h.holds, lastOf, List.drop_nil]
    dsimp only
    rw [List.take_of_length_le]
    · simp
    · rw [List.length_append, hcode, stringSize]
      simp only [List.length_cons, List.length_nil]
      omega
  · have hlt := h.capacity_lt
    have hbelow := h.length_lt
    have htext := getFirstNMessages_holds h.holds (by rw [hcap]; omega) (by omega) hnil .withLc
      (n := b.msgMatrix.getCapacity) hcpos le_rfl
    have hlast : ∀ x ∈ lastOf b.msgMatrix.getCapacity history, x.content.length ≤ 140 :=
      fun x hx => h.short x (mem_of_mem_lastOf hx)
    rw [getFirstNMessagesIn, htext] at hfirst
    simp only at hfirst
    split at hfirst
    · rename_i hroom
      have hbound : (historyText b.msgMatrix.getCapacity .withLc
          (lastOf b.msgMatrix.getCapacity history)).length < stringSize * b.msgMatrix.getCapacity := by
        exact_mod_cast hroom.2
      have hlines := (ReplyBuffers.length_historyText_lt_iff hlast).mp hbound
      have hwindow : lastOf (min capacity history.length) history
          = lastOf b.msgMatrix.getCapacity history := by
        rw [hcap, lastOf, lastOf]
        congr 1
        omega
      rw [htext, historyText_of_fits hlast hlines.le, hwindow]
      dsimp only
      rw [List.take_of_length_le]
      rw [List.length_append, List.length_append, List.length_cons, List.length_singleton, hcode]
      simp only [stringSize] at hlines ⊢
      omega
    · simp at hfirst

/-! ### Any run -/

/-- What `handle_client_comms` does with a datagram, by its first word. -/
theorem handleClientCommsIn_cases {sent : Bool} {datagram : Text} {r : ClientResult}
    (h : handleClientCommsIn sent b datagram = some r) :
    ((commandOf datagram).1 = ascii "PUBLISH"
        ∧ r = ⟨handlePublish b (commandOf datagram).2, 2, none⟩)
      ∨ ((commandOf datagram).1 = ascii "GET_MESSAGES"
        ∧ ∃ q, handleGetMessagesIn sent b (commandOf datagram).2 = some q ∧ r = ⟨b, q.1, q.2⟩)
      ∨ ((commandOf datagram).1 ≠ ascii "PUBLISH" ∧ (commandOf datagram).1 ≠ ascii "GET_MESSAGES"
        ∧ r = ⟨b, 0, none⟩) := by
  obtain ⟨r', hcomms, hin⟩ := Option.bind_eq_some_iff.mp h
  have hcommand : scanCommand (cstr (datagram.take responseSize)) = commandOf datagram := rfl
  simp only [handleClientComms, hcommand] at hcomms
  split at hcomms
  · simp at hcomms
  · split at hcomms
    · simp at hcomms
    · by_cases hpublish : (commandOf datagram).1 = ascii "PUBLISH"
      · rw [if_pos hpublish, Option.some.injEq] at hcomms
        rw [if_neg (by rw [hpublish]; decide), Option.some.injEq] at hin
        exact Or.inl ⟨hpublish, hin ▸ hcomms.symm⟩
      · rw [if_neg hpublish] at hcomms
        by_cases hget : (commandOf datagram).1 = ascii "GET_MESSAGES"
        · rw [if_pos hget, Option.some.injEq] at hcomms
          rw [if_pos hget] at hin
          obtain ⟨q, hq, rfl⟩ := Option.map_eq_some_iff.mp hin
          exact Or.inr (Or.inl ⟨hget, q, hq, by rw [eq_of_handleGetMessagesIn hq, hcomms]⟩)
        · rw [if_neg hget, Option.some.injEq] at hcomms
          rw [if_neg hget, Option.some.injEq] at hin
          exact Or.inr (Or.inr ⟨hpublish, hget, hin ▸ hcomms.symm⟩)

/-- The text that a command stores, cut at 140 bytes. -/
def Command.text : Command → Option Text
  | .publish text => some (text.take 140)
  | .record _ text => some (text.take 140)
  | _ => none

/-- A datagram of a client. -/
theorem datagram_keeps {sent : Bool} {bytes : Text} {r : ClientResult}
    (h : Keeps (n + 1) b s history) (hcomms : handleClientCommsIn sent b bytes = some r) :
    (⟨r.err, r.reply, if r.err = 2 then shareLastMessage r.board else none⟩ : Output)
        = (answer s (Input.datagram sent bytes).command).2
      ∧ ∃ new, Keeps n r.board (answer s (Input.datagram sent bytes).command).1 (history ++ new)
        ∧ new.map Message.content = (Input.datagram sent bytes).command.text.toList := by
  rcases handleClientCommsIn_cases hcomms with ⟨hop, rfl⟩ | ⟨hop, q, hq, rfl⟩ | ⟨hop, hop', rfl⟩
  · obtain ⟨hshared, hkeeps⟩ := publish_answer h (commandOf bytes).2
    have hcommand : (Input.datagram sent bytes).command = .publish (commandOf bytes).2 := by
      rw [Input.command, if_pos hop]
    rw [hcommand]
    refine ⟨?_, _, hkeeps, rfl⟩
    simp only [if_true, hshared]
    rfl
  · have hcode : q.1 ≠ 2 := by
      have hread := congrArg Output.err (read_answer h hq)
      rw [answer] at hread
      intro htwo
      rw [htwo] at hread
      dsimp only at hread
      split at hread
      · simp at hread
      · split at hread <;> simp at hread
    have hcommand : (Input.datagram sent bytes).command = .read sent (atoi (commandOf bytes).2) := by
      rw [Input.command, if_neg (by rw [hop]; decide), if_pos hop]
    rw [hcommand]
    refine ⟨?_, [], h.nothing, rfl⟩
    rw [if_neg hcode]
    exact read_answer h hq
  · have hcommand : (Input.datagram sent bytes).command = .other 0 := by
      rw [Input.command, if_neg hop, if_neg hop']
    rw [hcommand]
    exact ⟨rfl, [], h.nothing, rfl⟩

/-- A line of a peer. -/
theorem line_keeps {info : Text} {r : Board × Option Message} (h : Keeps (n + 1) b s history)
    (hparse : parseMessage b (cstr info) = some r) :
    (⟨if r.2.isSome then 0 else 1, none, none⟩ : Output) = (answer s (Input.line info).command).2
      ∧ ∃ new, Keeps n r.1 (answer s (Input.line info).command).1 (history ++ new)
        ∧ new.map Message.content = (Input.line info).command.text.toList := by
  have hfits : ((cstr info).takeWhile (· != semicolon)).length < 6 := by
    by_contra hover
    rw [parseMessage_overrun b (by omega)] at hparse
    simp at hparse
  rw [parseMessage_eq b hfits, Option.some.injEq] at hparse
  rw [Input.command]
  cases hread : readLine (cstr info) with
  | none =>
    rw [hread] at hparse
    subst hparse
    exact ⟨rfl, [], h.nothing, rfl⟩
  | some fields =>
    obtain ⟨lc, text⟩ := fields
    rw [hread] at hparse
    subst hparse
    exact ⟨rfl, _, h.store (by rw [h.clock_eq]) text, rfl⟩

/-- **One input**: the code answers what the log answers, and its history grows by what the input
stores. -/
theorem serve_keeps {a : Input} {b' : Board} {o : Output} (h : Keeps (n + 1) b s history)
    (hstep : serve b a = some (b', o)) :
    o = (answer s a.command).2
      ∧ ∃ new, Keeps n b' (answer s a.command).1 (history ++ new)
        ∧ new.map Message.content = a.command.text.toList := by
  cases a with
  | datagram sent bytes =>
    obtain ⟨r, hcomms, heq⟩ := Option.map_eq_some_iff.mp hstep
    obtain ⟨rfl, rfl⟩ := Prod.mk.inj heq
    exact datagram_keeps h hcomms
  | line info =>
    obtain ⟨r, hparse, heq⟩ := Option.map_eq_some_iff.mp hstep
    obtain ⟨rfl, rfl⟩ := Prod.mk.inj heq
    exact line_keeps h hparse
  | sgetMessages =>
    obtain ⟨first, hfirst, heq⟩ := Option.map_eq_some_iff.mp hstep
    obtain ⟨rfl, rfl⟩ := Prod.mk.inj heq
    rw [Input.command, history_answer h hfirst]
    exact ⟨rfl, [], h.nothing, rfl⟩

/-- The board keeps a history that leaves the log. -/
def Represents (n : ℕ) (b : Board) (s : Server capacity) : Prop := ∃ history, Keeps n b s history

/-- **Every input**: the code does what the log does, and answers the same. -/
theorem serve_simulates : Simulates serve (@answerInput capacity) Represents := by
  rintro n b s a b' o ⟨history, h⟩ hstep
  obtain ⟨rfl, new, hkeeps, -⟩ := serve_keeps h hstep
  exact ⟨_, rfl, _, hkeeps⟩

variable {inputs : List Input} {outputs : List Output}

/-- A server that has just started. -/
theorem keeps_start (hcap : 0 < capacity) (hint : capacity < 2 ^ 31) (overflow : Bool)
    (hn : n < 2 ^ 31) :
    Keeps n ⟨0, .createMatrix capacity hcap overflow⟩ (.start : Server capacity) [] where
  holds := Matrix.holds_create capacity hcap overflow
  capacity_eq := rfl
  capacity_lt := hint
  short := by simp
  length_lt := by simpa using hn
  clock_eq := rfl
  log_eq := Log.ofHistory_nil.symm

/-- **Any run of the code is a run of the log**: every reply and everything shared is what the log
answers, and at the end the matrix keeps the messages of the log. -/
theorem serve_refines (hcap : 0 < capacity) (hint : capacity < 2 ^ 31) (overflow : Bool)
    (hfew : inputs.length < 2 ^ 31)
    (hrun : respond serve ⟨0, .createMatrix capacity hcap overflow⟩ inputs = some (b, outputs)) :
    ∃ s : Server capacity, respond answerInput .start inputs = some (s, outputs)
      ∧ Represents 0 b s :=
  respond_simulates serve_simulates ⟨[], keeps_start hcap hint overflow (by omega)⟩ hrun

/-! ### What a client reads -/

/-- The texts that the inputs bring. -/
def texts (inputs : List Input) : List Text := inputs.flatMap fun a => a.command.text.toList

/-- A command adds its text to the history. -/
theorem answer_text {xs : List Message} (hs : s.log = Log.ofHistory capacity xs) (c : Command) :
    ∃ ys : List Message, (answer s c).1.log = Log.ofHistory capacity (xs ++ ys)
      ∧ ys.map Message.content = c.text.toList := by
  have hstored : ∀ lc text, (s.store lc text).log = Log.ofHistory capacity (xs ++ [made lc text]) :=
    fun lc text => by rw [Server.store, hs, Log.push_ofHistory]
  cases c with
  | publish text => exact ⟨_, hstored s.clock text, rfl⟩
  | record lc text => exact ⟨_, hstored (max s.clock lc) text, rfl⟩
  | read sent num => exact ⟨[], by rw [List.append_nil]; exact hs, rfl⟩
  | history => exact ⟨[], by rw [List.append_nil]; exact hs, rfl⟩
  | other err => exact ⟨[], by rw [List.append_nil]; exact hs, rfl⟩

/-- The entries of the log are the last texts that the inputs brought. -/
theorem answerInput_texts {s s' : Server capacity} {xs : List Message}
    (hs : s.log = Log.ofHistory capacity xs)
    (hrun : respond answerInput s inputs = some (s', outputs)) :
    ∃ ys : List Message, s'.log = Log.ofHistory capacity (xs ++ ys)
      ∧ ys.map Message.content = texts inputs := by
  induction inputs generalizing s xs outputs with
  | nil =>
    obtain ⟨rfl, -⟩ := Prod.mk.inj (Option.some.inj hrun)
    exact ⟨[], by rw [List.append_nil, hs], rfl⟩
  | cons a inputs ih =>
    obtain ⟨s₁, o, os, hstep, hrest, -⟩ := respond_cons_eq_some.mp hrun
    obtain rfl : (answer s a.command).1 = s₁ := congrArg Prod.fst (Option.some.inj hstep)
    obtain ⟨ys, hlog, hys⟩ := answer_text hs a.command
    obtain ⟨zs, hlog', hzs⟩ := ih hlog hrest
    refine ⟨ys ++ zs, by rw [hlog', List.append_assoc], ?_⟩
    rw [List.map_append, hys, hzs]
    rfl

/-- The last `n` of the texts, as many as a matrix keeps. -/
def readable (capacity n : ℕ) (ts : List Text) : List Text :=
  ts.drop (ts.length - min n (min capacity ts.length))

/-- What the log answers to a request, by the texts of its messages. -/
theorem answer_read {xs : List Message} (hs : s.log = Log.ofHistory capacity xs) {num : ℤ}
    (sent : Bool) (hnum : num ≠ 0) : (answer s (.read sent num)).2
      = if sent then ⟨0, some (messageCode ++ newline
        :: linesText (readable capacity (if num < 0 then capacity else num.toNat)
          (xs.map Message.content))), none⟩
      else ⟨1, none, none⟩ := by
  rw [answer, if_neg hnum, hs, Log.latest_ofHistory, readable, List.length_map, ← List.map_drop,
    replyOf, linesText, List.flatMap_map]
  rfl

/-- Three texts, the second from a peer, and a matrix of two slots. -/
def twoSlots : List Input :=
  [.datagram true (ascii "PUBLISH one"), .line (ascii "7;two"), .datagram true (ascii "hello"), .sgetMessages,
    .datagram true (ascii "PUBLISH three")]

theorem serve_refines_twoSlots : ∃ b outputs,
    respond serve ⟨0, .createMatrix 2 (by decide) false⟩ twoSlots = some (b, outputs)
      ∧ ∃ s : Server 2, respond answerInput .start twoSlots = some (s, outputs)
        ∧ Represents 0 b s := by
  obtain ⟨⟨b, outputs⟩, hrun⟩ := Option.isSome_iff_exists.mp
    (show (respond serve ⟨0, .createMatrix 2 (by decide) false⟩ twoSlots).isSome = true by
      decide +kernel)
  exact ⟨b, outputs, hrun, serve_refines (by decide) (by decide) false (by decide) hrun⟩

end ServerLog

end MessageBoard
