import MessageBoard.Replica
import MessageBoard.TcpLines

/-!
# Replication: what a peer stores of a text a server sent

A server shares one message (`share_last_message`) or its history (`handle_sget_messages`); the peer
reads the text in pieces of 140 bytes and should store exactly the contents sent, in order.

* `shareLastMessage_eq`, `handleSgetMessages_eq` — the texts the two functions write;
* `stores_iff` — what a message line behind stale text is stored as;
* `round_trip_iff` — **exactly when the peer stores what was sent**: no newline of a line opens a
  piece, and what a line leaves in `to_hold` does not change the content of the next one.
-/

namespace MessageBoard

open CText CScan LineStream Pieces Run TcpLoop TcpFraming TcpLines

namespace ReplicationRoundTrip

/-! ### What is sent -/

/-- The messages two servers can exchange line by line. -/
structure Sendable (m : Message) : Prop where
  lc_lt : m.lc < 100000
  ne_nil : m.content ≠ []
  length_le : m.content.length ≤ 140
  newline_free : newline ∉ m.content
  nul_free : nul ∉ m.content

instance (m : Message) : Decidable (Sendable m) :=
  decidable_of_iff (m.lc < 100000 ∧ m.content ≠ [] ∧ m.content.length ≤ 140
      ∧ newline ∉ m.content ∧ nul ∉ m.content)
    ⟨fun h => ⟨h.1, h.2.1, h.2.2.1, h.2.2.2.1, h.2.2.2.2⟩,
      fun h => ⟨h.lc_lt, h.ne_nil, h.length_le, h.newline_free, h.nul_free⟩⟩

/-- A text a server sends: one message to every peer, or the history to a peer that asked. -/
inductive Sent where
  | share (m : Message)
  | history (ms : List Message)
  deriving DecidableEq, Repr

def Sent.messages : Sent → List Message
  | share m => [m]
  | history ms => ms

/-- The history ends in a blank line. -/
def Sent.blank : Sent → Bool
  | share _ => false
  | history _ => true

def Sent.lines (s : Sent) : List Text := smessageCode :: s.messages.map clockLine

def Sent.text (s : Sent) : Text := linesText s.lines ++ if s.blank then [newline] else []

/-- The clock line of a message, without truncations. -/
theorem isLine_clockLine {m : Message} (h : Sendable m) : IsLine (clockLine m) := by
  have hlc := h.lc_lt
  have hdigits := length_decimal_le (n := m.lc) (k := 4) (by omega)
  have hlen := h.length_le
  rw [clockLine_of_lt (by omega)]
  have hfree {b : Byte} (hdigit : isDigit b = false) (hsemi : b ≠ semicolon) (hb : b ∉ m.content) :
      b ∉ decimal m.lc ++ semicolon :: m.content := by
    rw [List.mem_append, List.mem_cons, not_or, not_or]
    exact ⟨not_mem_decimal hdigit m.lc, hsemi, hb⟩
  refine ⟨by simp, ?_, ?_, ?_⟩
  · exact beq_of_not_mem (hfree (by decide) (by decide) h.newline_free)
  · exact beq_of_not_mem (hfree (by decide) (by decide) h.nul_free)
  · rw [List.length_append, List.length_cons, lineBound]
    omega

theorem length_smessageCode : smessageCode.length = 9 := rfl

theorem isLine_smessageCode : IsLine smessageCode where
  ne_nil := by simp [smessageCode, ascii]
  free := by simp [smessageCode, ascii, isNewline, newline]
  nulFree := by simp [smessageCode, ascii, isNul, nul]
  short := by decide

theorem isLine_lines {s : Sent} (h : ∀ m ∈ s.messages, Sendable m) :
    ∀ line ∈ s.lines, IsLine line := by
  intro line hline
  rcases List.mem_cons.mp hline with rfl | hline
  · exact isLine_smessageCode
  · obtain ⟨m, hm, rfl⟩ := List.mem_map.mp hline
    exact isLine_clockLine (h m hm)

theorem text_share (m : Message) :
    (Sent.share m).text = smessageCode ++ newline :: (clockLine m ++ [newline]) := by
  rw [Sent.text, Sent.lines, Sent.messages, List.map_singleton, linesText, List.flatMap_cons,
    List.flatMap_singleton]
  show (smessageCode ++ [newline] ++ (clockLine m ++ [newline])) ++ [] = _
  rw [List.append_nil, List.append_assoc, List.singleton_append]

/-- **`share_last_message`** writes the text of the last message. -/
theorem shareLastMessage_eq {b : Board} {xs : List Message} {m : Message} (hm : Sendable m)
    (hb : b.msgMatrix.Holds (xs ++ [m])) : shareLastMessage b = some (Sent.share m).text := by
  have hlast : b.msgMatrix.getElement (b.msgMatrix.getSize - 1) = some m := by
    have hcap := b.msgMatrix.capacity_pos
    have hlen : (xs ++ [m]).length = xs.length + 1 := by simp
    have hi : b.msgMatrix.getSize - 1 = xs.length := by rw [hb.size_eq, hlen, Nat.add_sub_cancel]
    rw [hi, hb.window xs.length (by omega) (by rw [hlen, Matrix.getCapacity]; omega)]
    simp
  rw [shareLastMessage_of_last hlast hm.length_le, text_share, List.append_assoc, List.cons_append]

/-- The messages a matrix still has are rendered as their clock lines. -/
theorem historyText_eq {ms : List Message} (hms : ∀ m ∈ ms, Sendable m) {n : ℕ} (hn : 2 ≤ n) :
    historyText n .withLc ms = linesText (ms.map clockLine) := by
  rw [linesText, List.flatMap_map, historyText]
  apply List.flatMap_congr
  intro m hm
  have hshort := (isLine_clockLine (hms m hm)).short
  rw [lineBound] at hshort
  have hlen : (clockLine m ++ [newline]).length ≤ stringSize * 2 - 1 := by
    rw [List.length_append, List.length_singleton, stringSize]
    omega
  rw [messageLine, List.take_of_length_le hlen, List.take_of_length_le]
  calc (clockLine m ++ [newline]).length ≤ stringSize * 2 := by omega
    _ ≤ stringSize * n := Nat.mul_le_mul_left _ hn

theorem text_history (ms : List Message) : (Sent.history ms).text
    = smessageCode ++ newline :: linesText (ms.map clockLine) ++ [newline] := by
  rw [Sent.text, Sent.lines, Sent.messages, linesText, linesText, List.flatMap_cons]
  show (smessageCode ++ [newline] ++ _) ++ [newline] = _
  rw [List.append_assoc smessageCode, List.singleton_append]

/-- **`handle_sget_messages`** writes the text of the messages the matrix still has, when the text
fits its buffer. -/
theorem handleSgetMessages_eq {b : Board} {xs ms : List Message} (hb : b.msgMatrix.Holds xs)
    (hms : ms = xs.drop (xs.length - b.msgMatrix.getCapacity)) (hne : ms ≠ [])
    (hsend : ∀ m ∈ ms, Sendable m) (hk : xs.length < 2 ^ 31) (hcap : 2 ≤ b.msgMatrix.getCapacity)
    (hcap' : b.msgMatrix.getCapacity < 2 ^ 31)
    (hfits : (Sent.history ms).text.length ≤ stringSize * (b.msgMatrix.getCapacity + 1) - 1) :
    handleSgetMessages b = (Sent.history ms).text := by
  have hxs : xs ≠ [] := by
    rintro rfl
    exact hne (by simp [hms])
  have htext : getFirstNMessages b.msgMatrix b.msgMatrix.getCapacity .withLc
      = some (linesText (ms.map clockLine)) := by
    rw [← historyText_eq hsend hcap]
    rcases Nat.le_total xs.length b.msgMatrix.getCapacity with hle | hle
    · rw [hms, Nat.sub_eq_zero_of_le hle, List.drop_zero]
      exact getFirstNMessages_all hb .withLc hxs hle hcap'
    · rw [hms]
      exact getFirstNMessages_last hb .withLc b.msgMatrix.capacity_pos hle le_rfl hk
  simp only [handleSgetMessages, toInt32_of_lt hcap', htext]
  rw [← text_history, List.take_of_length_le hfits]

/-- What a server shares of a publication. -/
theorem shareLastMessage_publish {r r' : Replica} {datagram : Text} {id : ℕ} {m : Message}
    (h : r.publish datagram id = some (r', m)) (hm : Sendable m) :
    shareLastMessage r'.board = some (Sent.share m).text := by
  have hkept := (Replica.publish_eq_some h).kept_eq
  have hholds := r'.holds
  rw [hkept, List.map_append, List.map_singleton] at hholds
  exact shareLastMessage_eq hm hholds

/-- What a server answers. -/
theorem handleSgetMessages_recent (r : Replica) (hne : r.recent ≠ [])
    (hsend : ∀ c ∈ r.recent, Sendable c.message) (hk : r.kept.length < 2 ^ 31)
    (hcap : 2 ≤ r.board.msgMatrix.getCapacity) (hcap' : r.board.msgMatrix.getCapacity < 2 ^ 31)
    (hfits : (Sent.history (r.recent.map Copy.message)).text.length
      ≤ stringSize * (r.board.msgMatrix.getCapacity + 1) - 1) :
    handleSgetMessages r.board = (Sent.history (r.recent.map Copy.message)).text := by
  refine handleSgetMessages_eq r.holds ?_ (by simpa using hne) ?_ ?_ hcap hcap' hfits
  · rw [Replica.recent, List.map_drop, List.length_map]
  · intro m hm
    obtain ⟨c, hc, rfl⟩ := List.mem_map.mp hm
    exact hsend c hc
  · rwa [List.length_map]

/-! ### The peer -/

/-- The peer stores exactly the contents sent, in order. -/
def RoundTrip (written : ℕ → Bool) (b : Board) (s : Sent) : Prop :=
  ∃ c, serverTreatCommunications written b (pieces recvSize s.text) false = some c
    ∧ c.board.msgMatrix = b.msgMatrix.addAll c.stored
    ∧ c.stored.map Message.content = s.messages.map Message.content

theorem dispatch_sms (written : ℕ → Bool) {c : Conn} (hc : c.smsState = true) (text : Text) :
    dispatch written c text = (parseMessage c.board text).map fun r =>
      { c with board := r.1, stored := c.stored ++ r.2.toList } := by
  rw [dispatch, if_pos hc]

/-- Once message lines are expected, they stay expected and the descriptor stays open. -/
theorem dispatch_keeps (written : ℕ → Bool) (c : Conn) (text : Text) (c' : Conn)
    (hc : c.smsState = true ∧ c.isOpen = true) (h : dispatch written c text = some c') :
    c'.smsState = true ∧ c'.isOpen = true := by
  rw [dispatch_sms written hc.1] at h
  obtain ⟨r, _, rfl⟩ := Option.map_eq_some_iff.mp h
  exact hc

/-- What a call reports as stored is what it added to the matrix. -/
theorem dispatch_stored (written : ℕ → Bool) (b : Board) (c : Conn) (text : Text) (c' : Conn)
    (hc : c.board.msgMatrix = b.msgMatrix.addAll c.stored) (h : dispatch written c text = some c') :
    c'.board.msgMatrix = b.msgMatrix.addAll c'.stored := by
  rw [dispatch] at h
  split at h
  · obtain ⟨r, hr, rfl⟩ := Option.map_eq_some_iff.mp h
    rcases parseMessage_cases hr with rfl | ⟨m, hm, hadd⟩
    · simpa using hc
    · simp only [hm, hadd, hc, Option.toList_some]
      rw [Matrix.addAll_append]
      rfl
  · split at h
    · rw [← Option.some.inj h]
      exact hc
    · split at h
      · rw [← Option.some.inj h]
        exact hc
      · rwa [← Option.some.inj h]

/-- A dispatched text adds at most one message. -/
theorem dispatch_adds (written : ℕ → Bool) {c c' : Conn} {text : Text}
    (h : dispatch written c text = some c') :
    ∃ more, c'.stored = c.stored ++ more ∧ more.length ≤ 1 ∧ (c.smsState = false → more = []) := by
  rw [dispatch] at h
  split at h
  · rename_i hsms
    obtain ⟨r, _, rfl⟩ := Option.map_eq_some_iff.mp h
    refine ⟨r.2.toList, rfl, ?_, by simp [hsms]⟩
    cases r.2 <;> simp
  · split at h
    · rw [← Option.some.inj h]
      exact ⟨[], by simp, by simp, fun _ => rfl⟩
    · split at h
      · rw [← Option.some.inj h]
        exact ⟨[], by simp, by simp, fun _ => rfl⟩
      · rw [← Option.some.inj h]
        exact ⟨[], by simp, by simp, fun _ => rfl⟩

theorem run_adds (written : ℕ → Bool) {c c' : Conn} {texts : List Text}
    (h : run (dispatch written) c texts = some c') :
    ∃ more, c'.stored = c.stored ++ more ∧ more.length ≤ texts.length := by
  induction texts generalizing c with
  | nil => exact ⟨[], by simp [Option.some.inj h], le_rfl⟩
  | cons text texts ih =>
    rw [run_cons] at h
    obtain ⟨c₁, h₁, hrest⟩ := Option.bind_eq_some_iff.mp h
    obtain ⟨first, hfirst, hone, _⟩ := dispatch_adds written h₁
    obtain ⟨more, hmore, hlen⟩ := ih hrest
    refine ⟨first ++ more, by rw [hmore, hfirst, List.append_assoc], ?_⟩
    rw [List.length_append, List.length_cons]
    omega

/-- The text that makes message lines expected stores nothing itself. -/
theorem run_adds_fewer (written : ℕ → Bool) {c c' : Conn} {texts : List Text}
    (hc : c.smsState = false) (hne : texts ≠ [])
    (h : run (dispatch written) c texts = some c') :
    ∃ more, c'.stored = c.stored ++ more ∧ more.length < texts.length := by
  obtain ⟨text, texts, rfl⟩ := List.exists_cons_of_ne_nil hne
  rw [run_cons] at h
  obtain ⟨c₁, h₁, hrest⟩ := Option.bind_eq_some_iff.mp h
  obtain ⟨first, hfirst, _, hnil⟩ := dispatch_adds written h₁
  obtain ⟨more, hmore, hlen⟩ := run_adds written hrest
  refine ⟨more, ?_, ?_⟩
  · rw [hmore, hfirst, hnil hc, List.append_nil]
  · rw [List.length_cons]
    omega

/-! ### A line behind stale text -/

/-- The content of a message line survives the stale text in front of it.  Stale text with a `;`
becomes part of the content; without one it becomes part of the clock, which has five bytes. -/
def harmless (stale : Text) (m : Message) : Bool :=
  if semicolon ∈ stale then
    ((stale.dropWhile (· != semicolon)).tail ++ clockLine m).take (stringSize - 1) == m.content
  else stale.length + (decimal m.lc).length ≤ 5

/-- Every message line keeps its content. -/
def keepsContents : ℕ → Text → List Message → Bool
  | _, _, [] => true
  | off, stale, m :: ms =>
      harmless stale m
        && keepsContents (off + (clockLine m).length + 1) (leftover off stale (clockLine m)) ms

/-- Stale text is the beginning of a message line, cut either before or behind its `;`. -/
theorem stale_cases {m : Message} (hm : Sendable m) {stale : Text} (h : stale <+: clockLine m) :
    (semicolon ∉ stale ∧ stale <+: decimal m.lc)
      ∨ ∃ p, p <+: m.content ∧ stale = decimal m.lc ++ semicolon :: p := by
  have hlc := hm.lc_lt
  rw [clockLine_of_lt (by omega)] at h
  obtain ⟨t, ht⟩ := h
  rcases List.append_eq_append_iff.mp ht with ⟨d, hd, _⟩ | ⟨p, hp, hsplit⟩
  · have hpre : stale <+: decimal m.lc := ⟨d, hd.symm⟩
    exact Or.inl ⟨fun hs => semicolon_not_mem_decimal m.lc (hpre.subset hs), hpre⟩
  · cases p with
    | nil =>
      rw [List.append_nil] at hp
      rw [hp]
      exact Or.inl ⟨semicolon_not_mem_decimal m.lc, List.prefix_refl _⟩
    | cons b p =>
      rw [List.cons_append, List.cons.injEq] at hsplit
      exact Or.inr ⟨p, ⟨t, hsplit.2.symm⟩, by rw [hp, ← hsplit.1]⟩

theorem length_decimal_lt {m : Message} (hm : Sendable m) : (decimal m.lc).length < 6 := by
  have hlc := hm.lc_lt
  have := length_decimal_le (n := m.lc) (k := 4) (by omega)
  omega

theorem newline_not_mem_clockLine {m : Message} (hm : Sendable m) : newline ∉ clockLine m := by
  intro h
  exact absurd ((isLine_clockLine hm).free newline h) (by decide)

/-- A message line is stored with its content. -/
def Stores (b : Board) (text content : Text) : Prop :=
  ∃ b' x, parseMessage b text = some (b', some x) ∧ x.content = content

theorem stores_clock_iff (b : Board) {a r content : Text} (ha : a ≠ []) (hsemi : semicolon ∉ a)
    (hlen : a.length < 6) (hr : r ≠ []) (hnl : newline ∉ r) :
    Stores b (a ++ semicolon :: r) content ↔ r.take (stringSize - 1) = content := by
  have hstored (lc : ℕ) : (b.add lc (r.take 140)).2.content = r.take (stringSize - 1) := by
    show (r.take 140).take 140 = r.take 140
    rw [List.take_take, Nat.min_self]
  rw [Stores, parseMessage_clock b ha hsemi hlen hr hnl]
  constructor
  · rintro ⟨b', x, heq, hx⟩
    simp only [Option.some.injEq, Prod.mk.injEq] at heq
    rw [← hx, ← heq.2, hstored]
  · intro h
    exact ⟨_, _, rfl, by rw [hstored, h]⟩

/-- **What a message line behind stale text is stored as.** -/
theorem stores_iff (b : Board) {m₀ m : Message} (hm₀ : Sendable m₀) (hm : Sendable m) {stale : Text}
    (h : stale <+: clockLine m₀) :
    Stores b (stale ++ clockLine m) m.content ↔ harmless stale m = true := by
  have hlc := hm.lc_lt
  rcases stale_cases hm₀ h with ⟨hsemi, hpre⟩ | ⟨p, hp, rfl⟩
  · have hline : stale ++ clockLine m = (stale ++ decimal m.lc) ++ semicolon :: m.content := by
      rw [clockLine_of_lt (by omega), List.append_assoc]
    have hfree : semicolon ∉ stale ++ decimal m.lc := by
      rw [List.mem_append, not_or]
      exact ⟨hsemi, semicolon_not_mem_decimal m.lc⟩
    rw [harmless, if_neg hsemi, hline, decide_eq_true_iff]
    rcases Nat.lt_or_ge (stale ++ decimal m.lc).length 6 with hlt | hge
    · rw [stores_clock_iff b (by simp [decimal_ne_nil]) hfree hlt hm.ne_nil hm.newline_free,
        List.take_of_length_le (show m.content.length ≤ stringSize - 1 from hm.length_le)]
      rw [List.length_append] at hlt
      simp only [true_iff]
      omega
    · have hover : parseMessage b ((stale ++ decimal m.lc) ++ semicolon :: m.content) = none := by
        apply parseMessage_overrun
        rwa [takeWhile_run (bne_of_not_mem hfree) (stops_cons (by simp) _)]
      rw [List.length_append] at hge
      constructor
      · rintro ⟨b', x, heq, _⟩
        rw [hover] at heq
        simp at heq
      · intro hle
        omega
  · have hdrop : (decimal m₀.lc ++ semicolon :: p).dropWhile (· != semicolon) = semicolon :: p := by
      rw [List.dropWhile_append_of_pos (bne_of_not_mem (semicolon_not_mem_decimal m₀.lc))]
      simp
    have hnl : newline ∉ p ++ clockLine m := by
      rw [List.mem_append, not_or]
      exact ⟨fun h => hm₀.newline_free (hp.subset h), newline_not_mem_clockLine hm⟩
    rw [harmless, if_pos (by simp), hdrop, List.append_assoc, List.cons_append,
      stores_clock_iff b (decimal_ne_nil _) (semicolon_not_mem_decimal _) (length_decimal_lt hm₀)
        (by simp [(isLine_clockLine hm).ne_nil]) hnl, List.tail_cons, beq_iff_eq]

/-! ### All the lines -/

/-- Stale text before the line at offset `off`: it is there only when the line opens a piece, and it
is the beginning of an earlier line. -/
structure StaleAt (off : ℕ) (stale : Text) : Prop where
  opens : stale ≠ [] → off % recvSize = 0
  begins : stale = [] ∨ ∃ m, Sendable m ∧ stale <+: clockLine m

theorem StaleAt.leftover {off : ℕ} {stale : Text} (h : StaleAt off stale) {m : Message}
    (hm : Sendable m) :
    StaleAt (off + (clockLine m).length + 1) (leftover off stale (clockLine m)) := by
  have hshort := (isLine_clockLine hm).short
  rw [lineBound] at hshort
  rw [TcpLines.leftover]
  split
  · rename_i hlast
    rw [recvSize] at hlast
    refine ⟨fun _ => by rw [recvSize]; omega, ?_⟩
    by_cases hstale : stale = []
    · rw [hstale, List.nil_append]
      exact Or.inr ⟨m, hm, List.take_prefix _ _⟩
    · have hopens := h.opens hstale
      rw [recvSize] at hopens
      have hzero : (clockLine m).length - (recvSize - 1) = 0 := by
        rw [recvSize]
        omega
      rw [hzero, List.take_zero, List.append_nil]
      exact h.begins
  · exact ⟨fun h => absurd rfl h, Or.inl rfl⟩

theorem StaleAt.stores_iff {off : ℕ} {stale : Text} (h : StaleAt off stale) (b : Board)
    {m : Message} (hm : Sendable m) :
    Stores b (stale ++ clockLine m) m.content ↔ harmless stale m = true := by
  rcases h.begins with rfl | ⟨m₀, hm₀, hpre⟩
  · exact ReplicationRoundTrip.stores_iff b hm hm (List.nil_prefix)
  · exact ReplicationRoundTrip.stores_iff b hm₀ hm hpre

theorem length_dispatched (off : ℕ) (stale : Text) (lines : List Text) :
    (dispatched off stale lines).length = lines.length := by
  induction lines generalizing off stale with
  | nil => rfl
  | cons line lines ih => rw [dispatched, List.length_cons, List.length_cons, ih]

/-- **Line after line**, the contents are stored if and only if each survives its stale text. -/
theorem run_stores_iff (written : ℕ → Bool) {ms : List Message} (hms : ∀ m ∈ ms, Sendable m)
    {off : ℕ} {stale : Text} (hstale : StaleAt off stale) {c : Conn} (hc : c.smsState = true) :
    (∃ c', run (dispatch written) c (dispatched off stale (ms.map clockLine)) = some c'
        ∧ c'.stored.map Message.content = c.stored.map Message.content ++ ms.map Message.content)
      ↔ keepsContents off stale ms = true := by
  induction ms generalizing off stale c with
  | nil => simp [dispatched, keepsContents]
  | cons m ms ih =>
    have hm := hms m (by simp)
    have hnext := hstale.leftover hm
    have hrest := fun c (hc : Conn.smsState c = true) => ih (fun m hm => hms m (by simp [hm])) hnext hc
    rw [keepsContents, Bool.and_eq_true, ← hstale.stores_iff c.board hm]
    simp only [List.map_cons, dispatched, run_cons, dispatch_sms written hc]
    constructor
    · rintro ⟨c', hrun, hcontents⟩
      obtain ⟨c₁, h₁, hrun⟩ := Option.bind_eq_some_iff.mp hrun
      obtain ⟨⟨b₁, stored⟩, hparse, rfl⟩ := Option.map_eq_some_iff.mp h₁
      obtain ⟨more, hmore, hlen⟩ := run_adds written hrun
      rw [length_dispatched, List.length_map] at hlen
      simp only at hmore
      rw [hmore] at hcontents
      simp only [List.map_append, List.append_assoc, List.append_cancel_left_eq] at hcontents
      cases stored with
      | none =>
        have hcount := congrArg List.length hcontents
        simp only [Option.toList_none, List.map_nil, List.nil_append, List.length_map,
          List.length_cons] at hcount
        omega
      | some x =>
        simp only [Option.toList_some, List.map_cons, List.map_nil, List.cons_append,
          List.nil_append, List.cons.injEq] at hcontents
        refine ⟨⟨b₁, x, hparse, hcontents.1⟩,
          (hrest { c with board := b₁, stored := c.stored ++ [x] } hc).mp ⟨c', hrun, ?_⟩⟩
        rw [hmore, List.map_append, hcontents.2]
        rfl
    · rintro ⟨⟨b₁, x, hparse, hx⟩, hkeeps⟩
      obtain ⟨c', hrun, hcontents⟩ :=
        (hrest { c with board := b₁, stored := c.stored ++ [x] } hc).mpr hkeeps
      refine ⟨c', ?_, ?_⟩
      · rw [hparse, Option.map_some, Option.bind_some]
        exact hrun
      · rw [hcontents]
        simp [hx]

/-! ### The whole text -/

theorem length_closed_le {chunk x : Text} (hz : ∀ b ∈ chunk, isNul b = false)
    (hx : x ∈ closedFrom isNewline [] chunk) : x.length ≤ chunk.length := by
  apply @length_token_le _ isNewline isNul
  rw [cstrBy_eq_self hz, tokens_eq]
  exact List.mem_append_left _ hx

theorem length_open_le {chunk : Text} (hz : ∀ b ∈ chunk, isNul b = false) :
    (openFrom isNewline [] chunk).length ≤ chunk.length := by
  by_cases hopen : openFrom isNewline [] chunk = []
  · rw [hopen]
    exact Nat.zero_le _
  · apply @length_token_le _ isNewline isNul
    rw [cstrBy_eq_self hz, tokens_eq, pending_of_ne_nil hopen]
    simp

/-- The first piece of a text is dispatched as its complete lines. -/
theorem tokenLoop_first {chunk : Text} (hc : chunk ≠ []) (hz : ∀ b ∈ chunk, isNul b = false)
    (hlen : chunk.length ≤ recvSize) :
    tokenLoop record (messageEnd isNewline chunk) [] (tokens isNewline (cstrBy isNul chunk)) []
      = some (heldBy isNewline [] chunk, closedFrom isNewline [] chunk) := by
  have hglued : glued isNewline [] chunk = closedFrom isNewline [] chunk := glueHead_nil_left _
  rw [recvSize] at hlen
  have hopen := length_open_le hz
  have hheld : (heldBy isNewline [] chunk).length < responseSize := by
    rw [responseSize, heldBy]
    rcases closedFrom isNewline [] chunk with _ | ⟨x, _ | ⟨y, ys⟩⟩
    · show (openFrom isNewline [] chunk).length < 512
      omega
    · show (if _ then [] else openFrom isNewline [] chunk).length < 512
      split
      · exact Nat.zero_lt_succ _
      · omega
    · show (openFrom isNewline [] chunk).length < 512
      omega
  rw [tokenLoop_piece hc hz (by rw [stringSize]; omega) ?_ hheld, hglued]
  intro x hx
  rw [hglued] at hx
  have := length_closed_le hz hx
  rw [stringSize]
  omega

theorem serverTreat_open (written : ℕ → Bool) (b : Board) (recvs : List Text) :
    serverTreatCommunications written b recvs false
      = (recvLoop isNewline isNul (dispatch written) Conn.isOpen [] recvs (Conn.start b)).map
        Prod.snd := by
  rw [serverTreatCommunications]
  congr 1
  funext r
  simp

/-- **A call that receives a whole text** dispatches the recorded texts, whatever becomes of writes:
its first line is the one that makes message lines expected, so nothing is ever written. -/
theorem serverTreat_eq (written : ℕ → Bool) (b : Board) {body : Text}
    (hz : ∀ b ∈ body, isNul b = false) :
    serverTreatCommunications written b (pieces recvSize (smessageCode ++ newline :: body)) false
      = (frames isNewline isNul [] (pieces recvSize (smessageCode ++ newline :: body))).bind
          fun r => run (dispatch written) (Conn.start b) r.2 := by
  have hcut : (smessageCode ++ newline :: body).take recvSize
      = smessageCode ++ newline :: body.take 130 := by
    rw [List.take_append, length_smessageCode, List.take_of_length_le (by decide)]
    rfl
  have hpiece := pieces_eq (n := recvSize) (by decide) (s := smessageCode ++ newline :: body) (by simp)
  rw [hcut] at hpiece
  have hchunk : ∀ b ∈ smessageCode ++ newline :: body.take 130, isNul b = false := by
    intro c hc
    rcases List.mem_append.mp hc with hc | hc
    · exact isLine_smessageCode.nulFree c hc
    · rcases List.mem_cons.mp hc with rfl | hc
      · rfl
      · exact hz c (List.mem_of_mem_take hc)
  have hlen : (smessageCode ++ newline :: body.take 130).length ≤ recvSize := by
    rw [← hcut]
    exact List.length_take_le _ _
  have hclosed : closedFrom isNewline [] (smessageCode ++ newline :: body.take 130)
      = smessageCode :: closedFrom isNewline [] (body.take 130) := by
    rw [closedFrom_append, closedFrom_free isLine_smessageCode.free,
      openFrom_free isLine_smessageCode.free, List.nil_append, List.nil_append,
      closedFrom_cons_delim isNewline_newline, pending_of_ne_nil isLine_smessageCode.ne_nil]
    rfl
  have hfirst := tokenLoop_first (by simp) hchunk hlen
  have hstart : dispatch written (Conn.start b) smessageCode
      = some { Conn.start b with smsState := true } := rfl
  rw [serverTreat_open, hpiece, recvLoop_cons_eq (show (Conn.start b).isOpen = true from rfl),
    Option.map_bind]
  · simp [Function.comp_def, Option.map_map]
  · intro held out c htok hrun
    rw [hfirst, hclosed, Option.some.injEq, Prod.mk.injEq] at htok
    rw [← htok.2, run_cons, hstart, Option.bind_some] at hrun
    exact recvLoop_eq_frames isNewline isNul (dispatch_keeps written) (fun _ h => h.2) held _
      (run_invariant (dispatch_keeps written) ⟨rfl, rfl⟩ hrun)

/-- The text behind the first line. -/
def Sent.body (s : Sent) : Text :=
  linesText (s.messages.map clockLine) ++ if s.blank then [newline] else []

theorem text_eq (s : Sent) : s.text = smessageCode ++ newline :: s.body := by
  rw [Sent.text, Sent.lines, linesText, List.flatMap_cons, List.append_assoc, List.append_assoc,
    List.singleton_append]
  rfl

theorem nulFree_body {s : Sent} (hs : ∀ m ∈ s.messages, Sendable m) :
    ∀ b ∈ s.body, isNul b = false := by
  intro b hb
  rcases List.mem_append.mp hb with hb | hb
  · obtain ⟨line, hline, hb⟩ := List.mem_flatMap.mp hb
    obtain ⟨m, hm, rfl⟩ := List.mem_map.mp hline
    exact nulFree_newline (isLine_clockLine (hs m hm)).nulFree b hb
  · split at hb
    · rw [List.mem_singleton.mp hb]
      rfl
    · simp at hb

/-- A lost newline loses a message: fewer texts are dispatched than lines were sent. -/
theorem not_roundTrip_of_edge (written : ℕ → Bool) (b : Board) {s : Sent} (hne : s.messages ≠ [])
    (hs : ∀ m ∈ s.messages, Sendable m) (hedge : offEdge 0 s.lines = false) :
    ¬ RoundTrip written b s := by
  rintro ⟨c, hrun, _, hcontents⟩
  have hlt := closings_lt_of_edge (isLine_lines hs) hedge s.blank
  rw [text_eq, serverTreat_eq written b (nulFree_body hs), ← text_eq] at hrun
  obtain ⟨⟨held, out⟩, hframes, hrun⟩ := Option.bind_eq_some_iff.mp hrun
  have hnul : ∀ chunk ∈ pieces recvSize s.text, ∀ b ∈ chunk, isNul b = false := by
    intro chunk hchunk b hb
    have hmem : b ∈ (pieces recvSize s.text).flatten := List.mem_flatten.mpr ⟨chunk, hchunk, hb⟩
    rw [flatten_pieces, text_eq] at hmem
    rcases List.mem_append.mp hmem with hmem | hmem
    · exact isLine_smessageCode.nulFree b hmem
    · rcases List.mem_cons.mp hmem with rfl | hmem
      · rfl
      · exact nulFree_body hs b hmem
  have hcount := length_frames (fun _ => ne_nil_of_mem_pieces) hnul hframes
  rw [← Sent.text, ← hcount, Sent.lines, List.length_cons, List.length_map] at hlt
  have hstored := congrArg List.length hcontents
  rw [List.length_map, List.length_map] at hstored
  have hpos := List.length_pos_iff.mpr hne
  by_cases hout : out = []
  · subst hout
    rw [run_nil, Option.some.injEq] at hrun
    rw [← hrun] at hstored
    simp only [Conn.start, List.length_nil] at hstored
    omega
  · obtain ⟨more, hmore, hfew⟩ := run_adds_fewer written (c := Conn.start b) rfl hout hrun
    rw [hmore, Conn.start, List.nil_append] at hstored
    omega

/-- **Exactly when the peer stores what was sent**: no newline of a message line opens a piece, and
the content of every line survives what the lines before it left in `to_hold`. -/
theorem round_trip_iff (written : ℕ → Bool) (b : Board) {s : Sent} (hne : s.messages ≠ [])
    (hs : ∀ m ∈ s.messages, Sendable m) :
    RoundTrip written b s ↔ offEdge 10 (s.messages.map clockLine) = true
      ∧ keepsContents 10 [] s.messages = true := by
  have hlines : offEdge 0 s.lines = offEdge 10 (s.messages.map clockLine) := rfl
  have htexts : dispatched 0 [] s.lines
      = smessageCode :: dispatched 10 [] (s.messages.map clockLine) := rfl
  rw [← hlines]
  cases hedge : offEdge 0 s.lines with
  | false => simp [not_roundTrip_of_edge written b hne hs hedge]
  | true =>
    obtain ⟨held, hframes⟩ := frames_lines (isLine_lines hs) hedge s.blank
    have hstart : dispatch written (Conn.start b) smessageCode
        = some { Conn.start b with smsState := true } := rfl
    have hstale : StaleAt 10 [] := ⟨fun h => absurd rfl h, Or.inl rfl⟩
    rw [← Sent.text, htexts] at hframes
    rw [← run_stores_iff written hs hstale (c := { Conn.start b with smsState := true }) rfl,
      RoundTrip, text_eq, serverTreat_eq written b (nulFree_body hs), ← text_eq, hframes,
      Option.bind_some, run_cons, hstart, Option.bind_some]
    constructor
    · rintro ⟨c, hrun, _, hcontents⟩
      exact ⟨rfl, c, hrun, hcontents⟩
    · rintro ⟨_, c, hrun, hcontents⟩
      exact ⟨c, hrun, run_invariant (dispatch_stored written b) rfl hrun, hcontents⟩

/-- Two messages that are stored as sent. -/
theorem round_trip_iff_two : RoundTrip (fun _ => true) ⟨0, .createMatrix 5 (by decide) false⟩
    (.history [⟨7, ascii "hello"⟩, ⟨8, ascii "a;b"⟩]) :=
  (round_trip_iff _ _ (by decide) (by decide)).mpr (by decide)

/-- **A message whose newline is the 141st byte is lost.** -/
theorem round_trip_lost :
    Sendable ⟨0, List.replicate 128 97⟩
      ∧ ∀ written b, ¬ RoundTrip written b (.share ⟨0, List.replicate 128 97⟩) := by
  have hm : Sendable ⟨0, List.replicate 128 97⟩ := by
    refine ⟨?_, ?_, ?_, ?_, ?_⟩ <;> simp [newline, nul]
  have hlen : (clockLine ⟨0, List.replicate 128 97⟩).length = 130 := by
    rw [clockLine_of_lt (by simp), List.length_append, List.length_cons, List.length_replicate]
    rfl
  refine ⟨hm, fun written b => not_roundTrip_of_edge written b (by simp [Sent.messages]) ?_ ?_⟩
  · simpa [Sent.messages] using hm
  · simp only [Sent.lines, Sent.messages, List.map_cons, offEdge, hlen, length_smessageCode]
    rfl

end ReplicationRoundTrip

end MessageBoard
