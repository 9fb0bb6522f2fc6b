import MessageBoard.Lib.Run
import MessageBoard.RmbMessage

/-!
# Whether the selected server has answered

The calls that set the two flags of the test, in any order, with a record of what they should tell:
`outstanding` from a request until it is answered, cancelled or given up, and `ticked` once the timer
went off since.  A datagram that overruns a buffer of the client is no event.

* `sound_step`, `not_exact_step` — what keeps the flags true to the record, and what breaks it at once;
* `exact_iff` — **the flags tell the truth exactly as long as no test begins while
  `last_test_server` is left from an earlier one**, and no tick counts for a test nobody asked for.
-/

namespace MessageBoard

open CText CScan Run

namespace AnswerTest

open Rmb

inductive Event where
  | ask
  | cancel
  /-- A datagram for `handle_incoming_messages`, which last asked for `num` messages. -/
  | datagram (num : ℕ) (bytes : Text)
  | tick
  deriving DecidableEq, Repr

structure State where
  statics : Statics
  outstanding : Bool
  ticked : Bool
  deriving DecidableEq, Repr

/-- Whether what is received of the datagram is a reply, where `handle_incoming_messages` returns. -/
def isReply (st : Statics) (num : ℕ) (bytes : Text) : Option Bool :=
  (handleIncomingMessages st num (some bytes)).map fun _ =>
    scanOp (cstr (bytes.take (reserve st num).sizeToAlloc)) == messageCode

def step (s : State) : Event → Option State
  | .ask => some ⟨askServerTest s.statics, true, s.outstanding && s.ticked⟩
  | .cancel => some ⟨cancelServerTest s.statics, false, s.ticked⟩
  | .datagram num bytes =>
      (handleIncomingMessages s.statics num (some bytes)).map fun i =>
        ⟨i.statics, s.outstanding && isReply s.statics num bytes != some true, s.ticked⟩
  | .tick =>
      let r := execServerTest s.statics
      some ⟨r.2, s.outstanding && r.1 != 1, true⟩

/-- Before the first request. -/
def start (responseBuffer : Option ℕ) (testingWithResults : Bool) : State :=
  ⟨⟨responseBuffer, false, false, testingWithResults⟩, false, false⟩

/-- A tick gives the server up exactly if a test is outstanding since an earlier tick. -/
def Exact (s : State) : Prop :=
  (execServerTest s.statics).1 = 1 ↔ s.outstanding = true ∧ s.ticked = true

instance (s : State) : Decidable (Exact s) :=
  inferInstanceAs (Decidable (_ ↔ _))

/-- A test begins with `last_test_server` cleared, and a tick with `test_server` set is one of an
outstanding test. -/
def Clean (s : State) : Event → Prop
  | .ask => s.outstanding = true ∨ s.statics.lastTestServer = false
  | .cancel => True
  | .datagram num bytes =>
      isReply s.statics num bytes ≠ some false ∨ s.outstanding = true
        ∨ s.statics.lastTestServer = false
  | .tick => s.outstanding = true ∨ s.statics.testServer = false

/-- The flags are true to the record. -/
structure Sound (s : State) : Prop where
  outstanding : s.outstanding = true →
    s.statics.testServer = true ∧ s.statics.lastTestServer = s.ticked
  idle : s.outstanding = false → ¬(s.statics.testServer = true ∧ s.statics.lastTestServer = true)

theorem Sound.exact {s : State} (h : Sound s) : Exact s := by
  rw [Exact, execServerTest_eq_one_iff]
  cases hout : s.outstanding with
  | true =>
    obtain ⟨htest, hlast⟩ := h.outstanding hout
    rw [htest, hlast]
  | false =>
    have hidle := h.idle hout
    simpa using hidle

/-! ### What an event does to the flags -/

/-- **A datagram** sets `_test_server` exactly if it is no reply. -/
theorem flags_handleIncomingMessages {st : Statics} {num : ℕ} {bytes : Text} {i : Incoming}
    (h : handleIncomingMessages st num (some bytes) = some i) :
    isReply st num bytes = some (!i.statics.testServer) ∧ i.statics.lastTestServer = st.lastTestServer := by
  have hlast : (reserve st num).lastTestServer = st.lastTestServer := by
    rw [reserve]
    split <;> rfl
  rw [isReply, h, Option.map_some]
  simp only [handleIncomingMessages] at h
  split at h
  · simp at h
  · rename_i hnone
    simp at hnone
  · rename_i size datagram hsize hsome
    obtain rfl : bytes = datagram := Option.some.inj hsome
    obtain ⟨text, htext, h⟩ := Option.bind_eq_some_iff.mp h
    rw [Statics.sizeToAlloc, hsize, Option.getD_some, ← textIn_eq_some htext]
    split at h
    · simp at h
    · split at h
      · rename_i hop
        split at h
        · obtain ⟨messages, -, rfl⟩ := Option.map_eq_some_iff.mp h
          exact ⟨by simp [hop], hlast⟩
        · rw [← Option.some.inj h]
          exact ⟨by simp [hop], hlast⟩
      · rename_i hop
        rw [← Option.some.inj h]
        exact ⟨by simp [hop], hlast⟩

/-- **A clean event** keeps the flags true to the record. -/
theorem sound_step (s : State) (e : Event) (s' : State) (hs : Sound s) (hclean : Clean s e)
    (h : step s e = some s') : Sound s' := by
  obtain ⟨hout, hidle⟩ := hs
  cases e with
  | ask =>
    rw [← Option.some.inj h]
    refine ⟨fun _ => ⟨rfl, ?_⟩, fun hno => Bool.noConfusion hno⟩
    show s.statics.lastTestServer = (s.outstanding && s.ticked)
    cases hcase : s.outstanding with
    | true => rw [(hout hcase).2, Bool.true_and]
    | false =>
      rw [Bool.false_and]
      exact hclean.resolve_left (by simp [hcase])
  | cancel =>
    rw [← Option.some.inj h]
    exact ⟨fun hno => Bool.noConfusion hno, fun _ hboth => Bool.noConfusion hboth.1⟩
  | datagram num bytes =>
    obtain ⟨i, hi, rfl⟩ := Option.map_eq_some_iff.mp h
    obtain ⟨hreply, hlast⟩ := flags_handleIncomingMessages hi
    simp only [Clean, hreply] at hclean ⊢
    constructor
    · intro hstill
      obtain ⟨hcase, hnot⟩ := Bool.and_eq_true_iff.mp hstill
      exact ⟨by simpa using hnot, hlast.trans (hout hcase).2⟩
    · intro hno hboth
      dsimp only at hno hboth
      rw [hlast] at hboth
      rcases hclean with hyes | hcase | hleft
      · simp [hboth.1] at hyes
      · simp [hcase, hboth.1] at hno
      · simp [hleft] at hboth
  | tick =>
    rw [← Option.some.inj h]
    cases hcase : s.outstanding with
    | true =>
      obtain ⟨htest, hlast⟩ := hout hcase
      cases hticked : s.ticked with
      | true =>
        rw [execServerTest_second htest (hlast.trans hticked)]
        exact ⟨fun hno => by simp at hno, fun _ hboth => Bool.noConfusion hboth.1⟩
      | false =>
        rw [execServerTest_first htest (hlast.trans hticked)]
        exact ⟨fun _ => ⟨htest, rfl⟩, fun hno => by simp at hno⟩
    | false =>
      have htest : s.statics.testServer = false := hclean.resolve_left (by simp [hcase])
      rw [execServerTest_idle htest]
      exact ⟨fun hno => by simp at hno, fun _ hboth => Bool.noConfusion hboth.1⟩

/-- **Any other event** leaves the flags of a test that has passed its first tick, when there is none. -/
theorem not_exact_step (s : State) (e : Event) (hs : Sound s) (hno : ¬Clean s e) :
    ∃ s', step s e = some s' ∧ ¬Exact s' := by
  obtain ⟨-, hidle⟩ := hs
  cases e with
  | ask =>
    obtain ⟨hcase, hleft⟩ := not_or.mp hno
    refine ⟨_, rfl, ?_⟩
    rw [Exact, execServerTest_eq_one_iff]
    show ¬(true = true ∧ s.statics.lastTestServer = true ↔ true = true ∧ (s.outstanding && s.ticked) = true)
    simp only [Bool.not_eq_true, Bool.not_eq_false] at hcase hleft
    simp [hcase, hleft]
  | cancel => exact absurd trivial hno
  | datagram num bytes =>
    obtain ⟨hreply, hrest⟩ := not_or.mp hno
    obtain ⟨hcase, hleft⟩ := not_or.mp hrest
    obtain ⟨i, hi, -⟩ := Option.map_eq_some_iff.mp (not_not.mp hreply)
    obtain ⟨htest, hlast⟩ := flags_handleIncomingMessages hi
    rw [not_not.mp hreply, Option.some.injEq] at htest
    simp only [Bool.not_eq_true, Bool.not_eq_false] at hcase hleft
    refine ⟨_, by rw [step, hi, Option.map_some], ?_⟩
    rw [Exact, execServerTest_eq_one_iff]
    dsimp only
    rw [hlast]
    have hset : i.statics.testServer = true := by simpa using htest.symm
    simp [hset, hcase, hleft]
  | tick =>
    obtain ⟨hcase, htest⟩ := not_or.mp hno
    simp only [Bool.not_eq_true, Bool.not_eq_false] at hcase htest
    have hleft : s.statics.lastTestServer = false := by
      cases hlast : s.statics.lastTestServer with
      | true => exact absurd ⟨htest, hlast⟩ (hidle hcase)
      | false => rfl
    refine ⟨_, rfl, ?_⟩
    rw [Exact, execServerTest_eq_one_iff]
    dsimp only
    rw [execServerTest_first htest hleft]
    simp [htest, hcase]

/-- **The answer test is exact, exactly as long as every event is clean.** -/
theorem exact_iff (responseBuffer : Option ℕ) (testingWithResults : Bool) (events : List Event) :
    Always step Exact (start responseBuffer testingWithResults) events
      ↔ Meets step Clean (start responseBuffer testingWithResults) events := by
  have hsound : Sound (start responseBuffer testingWithResults) :=
    ⟨fun hno => Bool.noConfusion hno, fun _ hboth => Bool.noConfusion hboth.1⟩
  exact always_iff_meets_of_taken (fun _ => Sound.exact) sound_step not_exact_step hsound

/-- A request whose first tick goes by before it is answered, and another one. -/
def askedAgain : List Event := [.ask, .tick, .datagram 1 (ascii "MESSAGES"), .ask]

/-- **The server is given up at the first tick** of the second request. -/
theorem given_up_at_once : ∃ s, run step (start none true) askedAgain = some s
    ∧ (execServerTest s.statics).1 = 1 ∧ s.outstanding = true ∧ s.ticked = false ∧ ¬Exact s := by
  have hrun : (run step (start none true) askedAgain).any (fun s =>
      decide ((execServerTest s.statics).1 = 1 ∧ s.outstanding = true ∧ s.ticked = false ∧ ¬Exact s))
        = true := by
    decide +kernel
  obtain ⟨s, hs, hgiven⟩ := (Option.any_eq_true _ _).mp hrun
  exact ⟨s, hs, of_decide_eq_true hgiven⟩

end AnswerTest

end MessageBoard
