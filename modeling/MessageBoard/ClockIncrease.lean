import MessageBoard.Lib.Run
import MessageBoard.MsgservMessage

/-!
# The clock of one server under any input

`handle_publish` and `parse_message` in any order, over lines of any bytes.  `stored` records the
clocks of the messages stored so far.

* `step_cases` — what a step stores, and where it leaves the clock;
* `increasing_step`, `wrapped_step` — one step that keeps the clock ahead, and one after which it
  never is again;
* `clock_increases_iff` — **the clock runs ahead exactly as long as no message is stored under the
  largest clock**, which a line of clock -1 does at once.
-/

namespace MessageBoard

open CText CScan Run

namespace ClockIncrease

/-- The largest value of the counter. -/
def lcMax : ℕ := 2 ^ 64 - 1

structure State where
  board : Board
  stored : List ℕ

inductive Op where
  | publish (inputBuffer : Text)
  | line (info : Text)
  deriving DecidableEq, Repr

def step (s : State) : Op → Option State
  | .publish inputBuffer =>
      let board := handlePublish s.board inputBuffer
      some ⟨board, s.stored ++ ((lastMessage board).map Message.lc).toList⟩
  | .line info =>
      (parseMessage s.board info).map fun r => ⟨r.1, s.stored ++ (r.2.map Message.lc).toList⟩

/-- A server that has just started. -/
def start (capacity : ℕ) (hcap : 0 < capacity) (overflow : Bool) : State :=
  ⟨⟨0, .createMatrix capacity hcap overflow⟩, []⟩

/-- The clocks increase, and `g_lc` is ahead of them. -/
def Increasing (s : State) : Prop :=
  s.stored.Pairwise (· < ·) ∧ ∀ lc ∈ s.stored, lc < s.board.gLc

instance (s : State) : Decidable (Increasing s) :=
  inferInstanceAs (Decidable (s.stored.Pairwise (· < ·) ∧ ∀ lc ∈ s.stored, lc < s.board.gLc))

/-- The clock of a line that is accepted. -/
def lineClock (info : Text) : Option ℤ :=
  match scan lineFormat info with
  | [.text lcBuffer, .text _] => some (atoi lcBuffer)
  | _ => none

/-- Nothing is stored under the largest clock: `g_lc` has not reached it, and the line does not
say -1. -/
def Fits (s : State) : Op → Prop
  | .publish _ => s.board.gLc ≠ lcMax
  | .line info => ∀ lc ∈ lineClock info, lc ≠ -1 ∧ s.board.gLc ≠ lcMax

instance (s : State) (op : Op) : Decidable (Fits s op) :=
  match op with
  | .publish _ => inferInstanceAs (Decidable (s.board.gLc ≠ lcMax))
  | .line info =>
      inferInstanceAs (Decidable (∀ lc ∈ lineClock info, lc ≠ -1 ∧ s.board.gLc ≠ lcMax))

/-! ### One step -/

/-- The clock of a line as `mess_lc` holds it. -/
theorem messLc_eq_lcMax (s : Text) : ((atoi s) % 2 ^ 64).toNat = lcMax ↔ atoi s = -1 := by
  have hlo : -(2 ^ 31) ≤ atoi s := by
    have := Int.le_bmod (x := strtol s) (m := 2 ^ 32) (by decide)
    rw [atoi]
    omega
  have hhi : atoi s < 2 ^ 31 := by
    have := Int.bmod_lt (x := strtol s) (m := 2 ^ 32) (by decide)
    rw [atoi]
    omega
  rw [lcMax]
  omega

/-- The larger clock is the largest one exactly if one of the two is. -/
theorem fits_line_iff {s : State} {info lcBuffer : Text} (hs : s.board.gLc < 2 ^ 64)
    (hclock : lineClock info = some (atoi lcBuffer)) :
    Fits s (.line info) ↔ max s.board.gLc ((atoi lcBuffer) % 2 ^ 64).toNat ≠ lcMax := by
  have hmax := messLc_eq_lcMax lcBuffer
  have hle : ((atoi lcBuffer) % 2 ^ 64).toNat ≤ lcMax := by
    rw [lcMax]
    omega
  have hle' : s.board.gLc ≤ lcMax := by
    rw [lcMax]
    omega
  show (∀ lc ∈ lineClock info, lc ≠ -1 ∧ s.board.gLc ≠ lcMax) ↔ _
  rw [hclock]
  simp only [Option.mem_some_iff, forall_eq', ne_eq, ← hmax]
  omega

/-- A message is stored under a clock that is not behind `g_lc`. -/
structure StoredUnder (s s' : State) (c : ℕ) : Prop where
  le : s.board.gLc ≤ c
  lt : c < 2 ^ 64
  gLc_eq : s'.board.gLc = (c + 1) % 2 ^ 64
  stored_eq : s'.stored = s.stored ++ [c]

/-- **What a step does**: it stores a message, under the largest clock exactly if it does not fit,
or it does nothing. -/
theorem step_cases {s s' : State} {op : Op} (hs : s.board.gLc < 2 ^ 64) (h : step s op = some s') :
    (∃ c, StoredUnder s s' c ∧ (Fits s op ↔ c ≠ lcMax)) ∨ (s' = s ∧ Fits s op) := by
  cases op with
  | publish inputBuffer =>
    left
    refine ⟨s.board.gLc, ⟨le_rfl, hs, ?_, ?_⟩, Iff.rfl⟩
    · rw [← Option.some.inj h]
      rfl
    · rw [← Option.some.inj h, handlePublish, lastMessage_add]
      rfl
  | line info =>
    rw [step, parseMessage] at h
    split at h
    · simp at h
    · split at h
      · rename_i lcBuffer msg hscan
        have hclock : lineClock info = some (atoi lcBuffer) := by rw [lineClock, hscan]
        have hlt : ((atoi lcBuffer) % 2 ^ 64).toNat < 2 ^ 64 := by omega
        left
        refine ⟨max s.board.gLc ((atoi lcBuffer) % 2 ^ 64).toNat, ?_, fits_line_iff hs hclock⟩
        simp only [ite_lt_eq_max] at h
        obtain rfl := Option.some.inj h
        exact ⟨le_max_left _ _, max_lt hs hlt, rfl, rfl⟩
      · rename_i hscan
        right
        have hclock : lineClock info = none := by
          rw [lineClock]
          split
          · rename_i lcBuffer msg heq
            exact absurd heq (hscan lcBuffer msg)
          · rfl
        constructor
        · rw [← Option.some.inj h]
          simp
        · show ∀ lc ∈ lineClock info, lc ≠ -1 ∧ s.board.gLc ≠ lcMax
          rw [hclock]
          simp

/-- The counter has 64 bits. -/
theorem gLc_lt_step {s s' : State} {op : Op} (hs : s.board.gLc < 2 ^ 64)
    (h : step s op = some s') : s'.board.gLc < 2 ^ 64 := by
  obtain ⟨c, hstored, -⟩ | ⟨rfl, -⟩ := step_cases hs h
  · rw [hstored.gLc_eq]
    omega
  · exact hs

/-- **A step that fits** keeps the clock ahead. -/
theorem increasing_step {s s' : State} {op : Op} (hs : s.board.gLc < 2 ^ 64) (hinc : Increasing s)
    (hfits : Fits s op) (h : step s op = some s') : Increasing s' := by
  obtain ⟨c, hstored, hiff⟩ | ⟨rfl, -⟩ := step_cases hs h
  · have hne := hiff.mp hfits
    have hle := hstored.le
    have hlt := hstored.lt
    have hnext : s'.board.gLc = c + 1 := by
      rw [hstored.gLc_eq, Nat.mod_eq_of_lt]
      rw [lcMax] at hne
      omega
    constructor
    · rw [hstored.stored_eq, List.pairwise_append]
      refine ⟨hinc.1, List.pairwise_singleton _ c, ?_⟩
      intro a ha b hb
      rw [List.mem_singleton.mp hb]
      exact lt_of_lt_of_le (hinc.2 a ha) hle
    · intro lc hlc
      rw [hnext]
      rw [hstored.stored_eq, List.mem_append, List.mem_singleton] at hlc
      rcases hlc with hlc | rfl
      · have := hinc.2 lc hlc
        omega
      · exact Nat.lt_succ_self lc
  · exact hinc

/-- A message stored under the largest clock. -/
def Wrapped (s : State) : Prop := lcMax ∈ s.stored ∧ s.board.gLc < 2 ^ 64

theorem Wrapped.not_increasing {s : State} (h : Wrapped s) : ¬Increasing s := by
  intro hinc
  have hahead := hinc.2 lcMax h.1
  have hlt := h.2
  rw [lcMax] at hahead
  omega

/-- **A step that does not fit** stores under the largest clock. -/
theorem wrapped_of_not_fits {s s' : State} {op : Op} (hs : s.board.gLc < 2 ^ 64)
    (hno : ¬Fits s op) (h : step s op = some s') : Wrapped s' := by
  obtain ⟨c, hstored, hiff⟩ | ⟨-, hfits⟩ := step_cases hs h
  · have hc : c = lcMax := by
      by_contra hne
      exact hno (hiff.mpr hne)
    exact ⟨by rw [hstored.stored_eq, hc]; simp, gLc_lt_step hs h⟩
  · exact absurd hfits hno

theorem wrapped_step (s : State) (op : Op) (s' : State) (hw : Wrapped s)
    (h : step s op = some s') : Wrapped s' := by
  refine ⟨?_, gLc_lt_step hw.2 h⟩
  obtain ⟨c, hstored, -⟩ | ⟨rfl, -⟩ := step_cases hw.2 h
  · rw [hstored.stored_eq]
    exact List.mem_append_left _ hw.1
  · exact hw.1

/-! ### Runs -/

/-- From a state with the clock ahead. -/
theorem increasing_run_iff {s s' : State} {ops : List Op} (hs : s.board.gLc < 2 ^ 64)
    (hinc : Increasing s) (h : run step s ops = some s') :
    Increasing s' ↔ Meets step Fits s ops := by
  induction ops generalizing s with
  | nil =>
    rw [← Option.some.inj h]
    exact iff_of_true hinc trivial
  | cons op ops ih =>
    rw [run_cons] at h
    obtain ⟨s₁, h₁, hrest⟩ := Option.bind_eq_some_iff.mp h
    by_cases hfits : Fits s op
    · rw [ih (gLc_lt_step hs h₁) (increasing_step hs hinc hfits h₁) hrest]
      constructor
      · intro hmeets
        refine ⟨hfits, ?_⟩
        intro s₂ h₂
        rw [h₁] at h₂
        exact Option.some.inj h₂ ▸ hmeets
      · exact fun hmeets => hmeets.2 s₁ h₁
    · have hwrapped := run_invariant wrapped_step (wrapped_of_not_fits hs hfits h₁) hrest
      exact iff_of_false hwrapped.not_increasing fun hmeets => hfits hmeets.1

/-- Only a clock that overruns its buffer ends a run. -/
theorem step_exists (s : State) (op : Op)
    (h : ∀ info, op = .line info → (info.takeWhile (· != semicolon)).length ≤ 5) :
    ∃ s', step s op = some s' := by
  cases op with
  | publish inputBuffer => exact ⟨_, rfl⟩
  | line info =>
    have hclock := h info rfl
    rw [step, parseMessage, if_neg (by omega)]
    split
    · exact ⟨_, rfl⟩
    · exact ⟨_, rfl⟩

/-- **The clock runs ahead exactly as long as nothing is stored under the largest clock**, over
lines of any bytes whose clock fits its buffer. -/
theorem clock_increases_iff (capacity : ℕ) (hcap : 0 < capacity) (overflow : Bool) (ops : List Op)
    (hlines : ∀ info, Op.line info ∈ ops → (info.takeWhile (· != semicolon)).length ≤ 5) :
    ∃ s, run step (start capacity hcap overflow) ops = some s
      ∧ (Increasing s ↔ Meets step Fits (start capacity hcap overflow) ops) := by
  have hops : ∀ op ∈ ops, ∀ info, op = .line info → (info.takeWhile (· != semicolon)).length ≤ 5 :=
    fun op hop info heq => hlines info (heq ▸ hop)
  obtain ⟨s, hrun⟩ := run_exists step_exists (start capacity hcap overflow) hops
  have hinc : Increasing (start capacity hcap overflow) := by simp [Increasing, start]
  exact ⟨s, hrun,
    increasing_run_iff (s := start capacity hcap overflow) (Nat.two_pow_pos 64) hinc hrun⟩

/-- A client publishes, and a peer sends two lines. -/
def someOps : List Op := [.publish (ascii "a"), .line (ascii "7;b"), .line (ascii "-2;c")]

theorem clock_increases_iff_some :
    ∃ s, run step (start 2 (by omega) false) someOps = some s
      ∧ (Increasing s ↔ Meets step Fits (start 2 (by omega) false) someOps) := by
  apply clock_increases_iff
  intro info hmem
  simp only [someOps, List.mem_cons, reduceCtorEq, Op.line.injEq, List.not_mem_nil, or_false,
    false_or] at hmem
  rcases hmem with rfl | rfl
  · decide
  · decide

/-- **A line of clock -1**: it is stored under the largest clock, and `g_lc` is zero. -/
theorem clock_wraps : ∃ s, run step (start 2 (by omega) false) [.line (ascii "-1;x")] = some s
    ∧ s.stored = [lcMax] ∧ s.board.gLc = 0 ∧ ¬Increasing s := by
  have hrun : (run step (start 2 (by omega) false) [.line (ascii "-1;x")]).any
      (fun s => decide (s.stored = [lcMax] ∧ s.board.gLc = 0 ∧ ¬Increasing s)) = true := by
    decide +kernel
  obtain ⟨s, hs, hwrap⟩ := (Option.any_eq_true _ _).mp hrun
  exact ⟨s, hs, of_decide_eq_true hwrap⟩

end ClockIncrease

end MessageBoard
