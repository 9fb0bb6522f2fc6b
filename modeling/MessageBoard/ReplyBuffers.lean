import MessageBoard.ClockIncrease
import MessageBoard.ReplyWindow

/-!
# The buffers of a reply

`get_first_n_messages` collects lines in `STRING_SIZE * n` bytes with a bound for `strncat` that is not
the space left, and `handle_sget_messages` writes as many bytes as `snprintf` says it would have
printed.  The boards are those of any run of datagrams and lines, and a capacity is an `int`.

* `Kept.add` — the messages stored in a run, with their lengths and clocks;
* `fits_withoutLc_iff`, `fits_withLc_iff` — when the lines of one call fit;
* `within_iff` — **one board**;
* `buffers_kept_iff` — **no buffer is overrun exactly if the last message is not full, and the lines
  with their clocks are not too long.**
-/

namespace MessageBoard

open CText CScan Run ReplyWindow ClockIncrease

namespace ReplyBuffers

/-! ### Reachable boards -/

/-- A board, and all the messages stored so far. -/
structure State where
  board : Board
  history : List Message

/-- A datagram that publishes, or a line of a peer. -/
def step (s : State) : Op → Option State
  | .publish inputBuffer =>
      let board := handlePublish s.board inputBuffer
      some ⟨board, s.history ++ (lastMessage board).toList⟩
  | .line info =>
      (parseMessage s.board info).map fun r => ⟨r.1, s.history ++ r.2.toList⟩

def start (capacity : ℕ) (hcap : 0 < capacity) (overflow : Bool) : State :=
  ⟨⟨0, .createMatrix capacity hcap overflow⟩, []⟩

/-- The matrix has the history; while the clocks are small they increase. -/
structure Kept (capacity : ℕ) (s : State) : Prop where
  holds : s.board.msgMatrix.Holds s.history
  capacity_eq : s.board.msgMatrix.getCapacity = capacity
  short : ∀ x ∈ s.history, x.content.length ≤ 140
  ahead : (∀ x ∈ s.history, x.lc < 100000) →
    (s.history.map Message.lc).Pairwise (· < ·) ∧ ∀ x ∈ s.history, x.lc < s.board.gLc

theorem kept_start (capacity : ℕ) (hcap : 0 < capacity) (overflow : Bool) :
    Kept capacity (start capacity hcap overflow) where
  holds := Matrix.holds_create capacity hcap overflow
  capacity_eq := rfl
  short := by simp [start]
  ahead := by simp [start]

/-- **One message**, under a clock that is not behind. -/
theorem Kept.add {capacity : ℕ} {s : State} (h : Kept capacity s) {gLc : ℕ} (hle : s.board.gLc ≤ gLc)
    (src : Text) :
    Kept capacity ⟨(s.board.add gLc src).1, s.history ++ [(s.board.add gLc src).2]⟩ where
  holds := h.holds.add _
  capacity_eq := h.capacity_eq
  short := by
    intro x hx
    rcases List.mem_append.mp hx with hx | hx
    · exact h.short x hx
    · rw [List.mem_singleton.mp hx]
      exact List.length_take_le _ _
  ahead := by
    intro hsmall
    obtain ⟨hincreasing, hbelow⟩ := h.ahead fun x hx => hsmall x (List.mem_append_left _ hx)
    have hnew : gLc < 100000 := hsmall (s.board.add gLc src).2 (by simp)
    have hnext : (s.board.add gLc src).1.gLc = gLc + 1 := Nat.mod_eq_of_lt (by omega)
    constructor
    · rw [List.map_append, List.pairwise_append]
      refine ⟨hincreasing, List.pairwise_singleton _ _, ?_⟩
      rintro a ha b hb
      obtain ⟨x, hx, rfl⟩ := List.mem_map.mp ha
      rw [List.map_singleton, List.mem_singleton] at hb
      rw [hb]
      exact lt_of_lt_of_le (hbelow x hx) hle
    · intro x hx
      show x.lc < (s.board.add gLc src).1.gLc
      rw [hnext]
      rcases List.mem_append.mp hx with hx | hx
      · have := hbelow x hx
        omega
      · rw [List.mem_singleton.mp hx]
        exact Nat.lt_succ_self gLc

/-- A step stores a message, or nothing. -/
theorem kept_step {capacity : ℕ} (s : State) (op : Op) (s' : State) (hs : Kept capacity s)
    (h : step s op = some s') : Kept capacity s' := by
  cases op with
  | publish inputBuffer =>
    rw [step, handlePublish, lastMessage_add] at h
    rw [← Option.some.inj h]
    exact hs.add le_rfl inputBuffer
  | line info =>
    rw [step, parseMessage] at h
    split at h
    · simp at h
    · split at h
      · simp only [ite_lt_eq_max] at h
        rw [← Option.some.inj h]
        exact hs.add (le_max_left _ _) _
      · rw [← Option.some.inj h]
        simpa using hs

/-- **Increasing clocks below a bound** are no more than the bound. -/
theorem length_le_of_pairwise_lt {l : List ℕ} {n : ℕ} (h : l.Pairwise (· < ·)) (hn : ∀ x ∈ l, x < n) :
    l.length ≤ n := by
  have hnodup : l.Nodup := h.imp fun hlt => hlt.ne
  have hsub := List.subperm_of_subset hnodup fun x hx => List.mem_range.mpr (hn x hx)
  exact hsub.length_le.trans (List.length_range).le

theorem Kept.length_le {capacity : ℕ} {s : State} (h : Kept capacity s)
    (hsmall : ∀ x ∈ s.history, x.lc < 100000) : s.history.length ≤ 100000 := by
  have hclocks : ∀ lc ∈ s.history.map Message.lc, lc < 100000 := by
    intro lc hlc
    obtain ⟨x, hx, rfl⟩ := List.mem_map.mp hlc
    exact hsmall x hx
  have hlength := length_le_of_pairwise_lt (h.ahead hsmall).1 hclocks
  rwa [List.length_map] at hlength

/-! ### The buffers -/

/-- `get_first_n_messages` keeps to its buffer: `STRING_SIZE * n` is an `int`, and the text and its
NUL fit. -/
def Fits (m : Matrix Message) (n : ℤ) (mode : Mode) : Prop :=
  ∀ text, getFirstNMessages m n mode = some text →
    stringSize * n < 2 ^ 31 ∧ text.length + 1 ≤ stringSize * n

/-- `nbytes`: what `snprintf` returns to `handle_sget_messages`. -/
def nbytes (b : Board) : ℕ :=
  match getFirstNMessages b.msgMatrix (toInt32 b.msgMatrix.getCapacity) .withLc with
  | none => (smessageCode ++ [newline, newline]).length
  | some text => (smessageCode ++ newline :: text ++ [newline]).length

/-- No buffer is overrun: not for any request of a client, not for a peer that asks for the history,
and the loop that answers it writes no more than `response_buffer` has. -/
structure Within (b : Board) : Prop where
  get : ∀ inputBuffer, 1 ≤ ((atoi inputBuffer) % 2 ^ 64).toNat →
    Fits b.msgMatrix (toInt32 (clampNum b ((atoi inputBuffer) % 2 ^ 64).toNat)) .withoutLc
  sget : Fits b.msgMatrix (toInt32 b.msgMatrix.getCapacity) .withLc
  count : nbytes b ≤ (handleSgetMessages b).length

/-- The digits of the clock, a semicolon, the content and a newline. -/
def lineSize (x : Message) : ℕ := (decimal x.lc).length + x.content.length + 2

/-- The last message is not full; and the last messages, as many as the capacity, have no more digits
than their contents leave room for. -/
def Roomy (capacity : ℕ) (history : List Message) : Prop :=
  history = [] ∨ (∀ x ∈ history.getLast?, x.content.length < 140) ∧ stringSize * capacity < 2 ^ 31
    ∧ ((lastOf capacity history).map lineSize).sum < stringSize * capacity

/-! ### One board -/

/-- The bound of `strncat` keeps no text below the size of the buffer. -/
theorem length_historyText_lt_iff {n : ℕ} {mode : Mode} {xs : List Message}
    (hxs : ∀ x ∈ xs, x.content.length ≤ 140) : (historyText n mode xs).length < stringSize * n
      ↔ (xs.flatMap (line mode)).length < stringSize * n := by
  constructor
  · intro hlt
    have hsame : historyText n mode xs = xs.flatMap (line mode) := by
      apply List.flatMap_congr
      intro x hx
      have hcut : ((messageLine mode x).take (stringSize * n)).length ≤ (historyText n mode xs).length := by
        have hmem : (messageLine mode x).take (stringSize * n)
            ∈ xs.map fun x => (messageLine mode x).take (stringSize * n) :=
          List.mem_map.mpr ⟨x, hx, rfl⟩
        rw [historyText, List.flatMap_def]
        exact (List.sublist_flatten_of_mem hmem).length_le
      rw [List.length_take] at hcut
      rw [messageLine_eq mode (hxs x hx)] at hcut ⊢
      exact List.take_of_length_le (by omega)
    rwa [hsame] at hlt
  · intro hlt
    rwa [historyText_of_fits hxs hlt.le]

theorem length_lines_withLc {xs : List Message} (hxs : ∀ x ∈ xs, x.lc < 100000) :
    (xs.flatMap (line .withLc)).length = (xs.map lineSize).sum := by
  rw [List.length_flatMap]
  congr 1
  apply List.map_congr_left
  intro x hx
  have hlc := hxs x hx
  rw [line, clockLine_of_lt (by omega), lineSize, List.length_append, List.length_append,
    List.length_cons, List.length_singleton]
  omega

section Board

variable {m : Matrix Message} {history : List Message}

/-- Nothing is collected of an empty history. -/
theorem fits_of_empty (h : m.Holds []) (n : ℤ) (mode : Mode) : Fits m n mode := by
  intro text htext
  rw [getFirstNMessages_empty h] at htext
  exact absurd htext (Option.some_ne_none text).symm

/-- **The lines of a reply to a client** fit if the last message is not full. -/
theorem fits_withoutLc (h : m.Holds history) (hcap : m.getCapacity < 2 ^ 31)
    (hshort : ∀ x ∈ history, x.content.length ≤ 140) (hk : history.length ≤ 100000)
    (hlast : ∀ x ∈ history.getLast?, x.content.length < 140) {n : ℕ} (hn : n ≤ history.length)
    (hnc : n ≤ m.getCapacity) (hpos : history ≠ [] → 1 ≤ n) : Fits m n .withoutLc := by
  by_cases hne : history = []
  · subst hne
    exact fits_of_empty h n .withoutLc
  · intro text htext
    have hone := hpos hne
    rw [getFirstNMessages_holds h (by omega) (by omega) hne .withoutLc hone hnc] at htext
    have hwindow : ∀ x ∈ lastOf n history, x.content.length ≤ 140 :=
      fun x hx => hshort x (mem_of_mem_lastOf hx)
    obtain ⟨-, hlt⟩ := length_lines hwindow
    rw [length_lastOf hn] at hlt
    have hmem : history.getLast hne ∈ lastOf n history := by
      have hdrop : lastOf n history ≠ [] := by
        rw [← List.length_pos_iff, length_lastOf hn]
        omega
      have hsame : (lastOf n history).getLast hdrop = history.getLast hne := List.getLast_drop hdrop
      exact hsame ▸ List.getLast_mem hdrop
    have hfits := (length_historyText_lt_iff hwindow).mpr
      (hlt.mpr ⟨_, hmem, hlast _ (List.getLast?_eq_getLast_of_ne_nil hne)⟩)
    rw [Option.some.inj htext] at hfits
    rw [stringSize] at hfits ⊢
    omega

/-- A request for one message. -/
theorem last_of_fits (h : m.Holds history) (hcap : m.getCapacity < 2 ^ 31)
    (hshort : ∀ x ∈ history, x.content.length ≤ 140) (hk : history.length ≤ 100000)
    (hfits : Fits m (1 : ℕ) .withoutLc) : ∀ x ∈ history.getLast?, x.content.length < 140 := by
  intro x hx
  obtain ⟨before, rfl⟩ := List.getLast?_eq_some_iff.mp hx
  have hmcap : 1 ≤ m.getCapacity := m.capacity_pos
  have hone : lastOf 1 (before ++ [x]) = [x] := by
    rw [lastOf, List.length_append, List.length_singleton, Nat.add_sub_cancel, List.drop_left]
  have htext := getFirstNMessages_holds h (by omega) (by omega) (by simp) .withoutLc le_rfl hmcap
  rw [hone] at htext
  obtain ⟨-, hroom⟩ := hfits _ htext
  have hlt : (historyText 1 .withoutLc [x]).length < stringSize * 1 := by
    rw [stringSize] at hroom ⊢
    omega
  rw [length_historyText_lt_iff (by simpa using hshort x (by simp)), List.flatMap_singleton, line,
    getString, List.length_append, List.length_singleton, stringSize] at hlt
  omega

/-- **The lines of a reply to a peer**, with their clocks. -/
theorem fits_withLc_iff (h : m.Holds history) (hcap : m.getCapacity < 2 ^ 31)
    (hshort : ∀ x ∈ history, x.content.length ≤ 140) (hk : history.length ≤ 100000)
    (hsmall : ∀ x ∈ history, x.lc < 100000) (hne : history ≠ []) : Fits m m.getCapacity .withLc
      ↔ stringSize * m.getCapacity < 2 ^ 31
        ∧ ((lastOf m.getCapacity history).map lineSize).sum < stringSize * m.getCapacity := by
  have hmcap : 1 ≤ m.getCapacity := m.capacity_pos
  have htext := getFirstNMessages_holds h (by omega) (by omega) hne .withLc hmcap le_rfl
  have hwindow : ∀ x ∈ lastOf m.getCapacity history, x.content.length ≤ 140 :=
    fun x hx => hshort x (mem_of_mem_lastOf hx)
  have hlength := @length_historyText_lt_iff m.getCapacity .withLc _ hwindow
  have hfits : Fits m m.getCapacity .withLc ↔ (stringSize * (m.getCapacity : ℤ) < 2 ^ 31
      ∧ ((historyText m.getCapacity .withLc (lastOf m.getCapacity history)).length : ℤ) + 1
        ≤ stringSize * m.getCapacity) := by
    constructor
    · exact fun hfits => hfits _ htext
    · intro hroom text htext'
      rw [htext, Option.some.injEq] at htext'
      exact htext' ▸ hroom
  rw [hfits, ← length_lines_withLc fun x hx => hsmall x (mem_of_mem_lastOf hx), ← hlength]
  norm_cast

end Board

/-- The text of the answer is stored whole if its lines fit. -/
theorem count_of_fits {b : Board} (h : Fits b.msgMatrix (toInt32 b.msgMatrix.getCapacity) .withLc)
    (hcap : b.msgMatrix.getCapacity < 2 ^ 31) : nbytes b ≤ (handleSgetMessages b).length := by
  have hcode : smessageCode.length = 9 := rfl
  have hint := toInt32_of_lt hcap
  rw [nbytes, handleSgetMessages]
  cases htext : getFirstNMessages b.msgMatrix (toInt32 b.msgMatrix.getCapacity) .withLc with
  | none =>
    dsimp only
    rw [List.length_take, List.length_append, hcode, stringSize]
    simp only [List.length_cons, List.length_nil]
    omega
  | some text =>
    obtain ⟨-, hroom⟩ := h text htext
    rw [hint] at hroom
    dsimp only
    rw [List.length_take, List.length_append, List.length_append, List.length_cons,
      List.length_singleton, hcode]
    simp only [stringSize] at hroom ⊢
    omega

/-- **One board**: no buffer is overrun exactly if there is room. -/
theorem within_iff {capacity : ℕ} {s : State} (h : Kept capacity s) (hcap : capacity < 2 ^ 31)
    (hsmall : ∀ x ∈ s.history, x.lc < 100000) : Within s.board ↔ Roomy capacity s.history := by
  have hk := h.length_le hsmall
  have hmcap : s.board.msgMatrix.getCapacity < 2 ^ 31 := by rwa [h.capacity_eq]
  have hint : toInt32 s.board.msgMatrix.getCapacity = s.board.msgMatrix.getCapacity :=
    toInt32_of_lt hmcap
  have hpos : 1 ≤ s.board.msgMatrix.getCapacity := s.board.msgMatrix.capacity_pos
  have hclamp (num : ℕ) := clampNum_eq s.board num
  simp only [h.holds.size_eq] at hclamp
  have hsget (hne : s.history ≠ []) := fits_withLc_iff h.holds hmcap h.short hk hsmall hne
  rw [h.capacity_eq] at hsget
  constructor
  · intro hwithin
    by_cases hne : s.history = []
    · exact Or.inl hne
    · have hlength := List.length_pos_iff.mpr hne
      have hnum : ((atoi (ascii "1")) % 2 ^ 64).toNat = 1 := by decide +kernel
      have hone : clampNum s.board 1 = 1 := by
        rw [hclamp]
        omega
      have hget := hwithin.get (ascii "1") hnum.ge
      rw [hnum, hone] at hget
      have hfits := hwithin.sget
      rw [hint, h.capacity_eq] at hfits
      exact Or.inr ⟨last_of_fits h.holds hmcap h.short hk hget, (hsget hne).mp hfits⟩
  · intro hroomy
    have hlast : ∀ x ∈ s.history.getLast?, x.content.length < 140 := by
      rcases hroomy with hnil | hroom
      · simp [hnil]
      · exact hroom.1
    have hfits : Fits s.board.msgMatrix (toInt32 s.board.msgMatrix.getCapacity) .withLc := by
      by_cases hne : s.history = []
      · exact fits_of_empty (hne ▸ h.holds) _ .withLc
      · rw [hint, h.capacity_eq]
        exact (hsget hne).mpr (hroomy.resolve_left hne).2
    refine ⟨?_, hfits, count_of_fits hfits hmcap⟩
    intro inputBuffer hone
    obtain ⟨num, hnum⟩ : ∃ num, ((atoi inputBuffer) % 2 ^ 64).toNat = num := ⟨_, rfl⟩
    rw [hnum] at hone ⊢
    have hnumClamp := hclamp num
    rw [toInt32_of_lt (by omega)]
    apply fits_withoutLc h.holds hmcap h.short hk hlast (by omega) (by omega)
    intro hne
    have := List.length_pos_iff.mpr hne
    omega

/-! ### Runs -/

/-- **In every state of every run** whose clocks have five digits, for a capacity that `main` can
pass: no buffer is overrun exactly if there is room. -/
theorem buffers_kept_iff {capacity : ℕ} (hcap : 0 < capacity) (hint : capacity < 2 ^ 31)
    (overflow : Bool) {ops : List Op} {s : State}
    (hrun : run step (start capacity hcap overflow) ops = some s)
    (hsmall : ∀ x ∈ s.history, x.lc < 100000) :
    Within s.board ↔ Roomy capacity s.history :=
  within_iff (run_invariant kept_step (kept_start capacity hcap overflow) hrun) hint hsmall

/-- A message of a client and one of a peer. -/
theorem buffers_kept_iff_two : ∃ s,
    run step (start 2 (by decide) true) [.publish (ascii "hi"), .line (ascii "7;b")] = some s
      ∧ (Within s.board ↔ Roomy 2 s.history) := by
  have hall : (run step (start 2 (by decide) true) [.publish (ascii "hi"), .line (ascii "7;b")]).any
      (fun s => decide (∀ x ∈ s.history, x.lc < 100000)) = true := by
    decide +kernel
  obtain ⟨s, hs, hsmall⟩ := (Option.any_eq_true _ _).mp hall
  exact ⟨s, hs, buffers_kept_iff (by decide) (by decide) true hs (of_decide_eq_true hsmall)⟩

/-- **One full message**: with its newline it leaves no byte for the NUL. -/
theorem full_message_overruns :
    ¬∀ (capacity : ℕ) (hcap : 0 < capacity) (overflow : Bool) (ops : List Op) (s : State),
      capacity < 2 ^ 31 → run step (start capacity hcap overflow) ops = some s →
      (∀ x ∈ s.history, x.lc < 100000) → Within s.board := by
  intro h
  have hwithin := h 1 (by decide) false [.publish (List.replicate 140 97)]
    ⟨handlePublish ⟨0, .createMatrix 1 (by decide) false⟩ (List.replicate 140 97),
      [⟨0, List.replicate 140 97⟩]⟩ (by decide) rfl (by decide)
  have hfits := hwithin.get (ascii "1") (by decide +kernel) (List.replicate 140 97 ++ [newline])
    (by decide +kernel)
  exact absurd hfits.2 (by decide +kernel)

end ReplyBuffers

end MessageBoard
