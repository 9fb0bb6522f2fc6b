import MessageBoard.Lib.Run

/-!
# Ledgers of what is obtained and closed

A ledger has what was obtained and what was closed, in order.  `settle` keeps what is open: nothing
that is open is obtained, and nothing else is closed.

* `mem_run_settle_iff` — what is open was obtained, and not closed since;
* `closedOnce_iff` — everything is closed exactly once if and only if nothing is open at the end.
-/

namespace MessageBoard.Ledger

open Run

inductive Event (α : Type) where
  | obtained (a : α)
  | closed (a : α)
  deriving DecidableEq

variable {α : Type}

/-- It was obtained, and not closed since. -/
def Outstanding (log : List (Event α)) (a : α) : Prop :=
  ∃ before after, log = before ++ .obtained a :: after ∧ .closed a ∉ after

variable [DecidableEq α]

/-- What is open after one more event. -/
def settle (opened : List α) : Event α → Option (List α)
  | .obtained a => if a ∈ opened then none else some (a :: opened)
  | .closed a => if a ∈ opened then some (opened.filter (· ≠ a)) else none

/-- Whatever is obtained is closed exactly once before it is obtained again. -/
def ClosedOnce (log : List (Event α)) : Prop :=
  ∀ before a after, log = before ++ .obtained a :: after →
    (after.takeWhile (· ≠ .obtained a)).count (.closed a) = 1

variable {opened opened' : List α} {a b : α}

theorem settle_obtained (h : a ∉ opened) : settle opened (.obtained a) = some (a :: opened) :=
  if_neg h

theorem settle_closed (h : a ∈ opened) :
    settle opened (.closed a) = some (opened.filter (· ≠ a)) :=
  if_pos h

/-- What one event opens or closes. -/
theorem mem_settle_iff {e : Event α} (h : settle opened e = some opened') :
    b ∈ opened' ↔ e = .obtained b ∨ b ∈ opened ∧ e ≠ .closed b := by
  cases e with
  | obtained a =>
    rw [settle] at h
    split at h
    · simp at h
    · rw [← Option.some.inj h, List.mem_cons, Event.obtained.injEq]
      simp [@eq_comm _ b]
  | closed a =>
    rw [settle] at h
    split at h
    · have hne : Event.closed a ≠ Event.closed b ↔ b ≠ a := by
        rw [ne_eq, Event.closed.injEq]
        exact not_congr eq_comm
      rw [← Option.some.inj h, List.mem_filter, hne]
      simp
    · simp at h

omit [DecidableEq α] in
theorem outstanding_concat {log : List (Event α)} {e : Event α} :
    Outstanding (log ++ [e]) b ↔ e = .obtained b ∨ Outstanding log b ∧ e ≠ .closed b := by
  constructor
  · rintro ⟨before, after, heq, hopen⟩
    rcases List.eq_nil_or_concat after with rfl | ⟨after, e', rfl⟩
    · exact Or.inl (List.singleton_inj.mp (List.append_inj' heq rfl).2)
    · rw [List.concat_eq_append, ← List.cons_append, ← List.append_assoc] at heq
      obtain ⟨hlog, he⟩ := List.append_inj' heq rfl
      rw [List.concat_eq_append, List.mem_append, not_or, List.mem_singleton] at hopen
      refine Or.inr ⟨⟨before, after, hlog, hopen.1⟩, ?_⟩
      exact fun hclosed => hopen.2 (hclosed.symm.trans (List.singleton_inj.mp he))
  · rintro (rfl | ⟨⟨before, after, rfl, hopen⟩, he⟩)
    · exact ⟨log, [], rfl, by simp⟩
    · refine ⟨before, after ++ [e], by simp, ?_⟩
      simp [hopen, Ne.symm he]

/-- **What is open was obtained, and not closed since.** -/
theorem mem_run_settle_iff {log : List (Event α)} (h : run settle [] log = some opened) :
    b ∈ opened ↔ Outstanding log b := by
  apply run_induction (P := fun log opened => b ∈ opened ↔ Outstanding log b) _ _ h
  · simp [Outstanding]
  · intro log opened e opened' _ ih hstep
    rw [mem_settle_iff hstep, outstanding_concat, ih]

/-! ### Closing once -/

/-- What is not open is not closed before it is obtained again. -/
theorem count_of_not_open {log : List (Event α)} (h : run settle opened log = some opened')
    (ha : a ∉ opened) : (log.takeWhile (· ≠ .obtained a)).count (.closed a) = 0 := by
  induction log generalizing opened with
  | nil => rfl
  | cons e log ih =>
    rw [run_cons] at h
    obtain ⟨opened₁, hstep, hrest⟩ := Option.bind_eq_some_iff.mp h
    by_cases he : e = .obtained a
    · simp [he]
    · have hclosed : e ≠ .closed a := by
        rintro rfl
        rw [settle, if_neg ha] at hstep
        simp at hstep
      have ha₁ : a ∉ opened₁ := by
        rw [mem_settle_iff hstep]
        simp [he, ha]
      rw [List.takeWhile_cons_of_pos (by simpa using he), List.count_cons_of_ne hclosed,
        ih hrest ha₁]

/-- What is open at first and not at the end is closed once. -/
theorem count_of_open {log : List (Event α)} (h : run settle opened log = some opened')
    (ha : a ∈ opened) (hend : a ∉ opened') :
    (log.takeWhile (· ≠ .obtained a)).count (.closed a) = 1 := by
  induction log generalizing opened with
  | nil => exact absurd (Option.some.inj h ▸ ha) hend
  | cons e log ih =>
    rw [run_cons] at h
    obtain ⟨opened₁, hstep, hrest⟩ := Option.bind_eq_some_iff.mp h
    have he : e ≠ .obtained a := by
      rintro rfl
      rw [settle, if_pos ha] at hstep
      simp at hstep
    rw [List.takeWhile_cons_of_pos (by simpa using he)]
    by_cases hclosed : e = .closed a
    · have ha₁ : a ∉ opened₁ := by
        rw [mem_settle_iff hstep]
        simp [hclosed]
      rw [hclosed, List.count_cons_self, count_of_not_open hrest ha₁]
    · have ha₁ : a ∈ opened₁ := (mem_settle_iff hstep).mpr (Or.inr ⟨ha, hclosed⟩)
      rw [List.count_cons_of_ne hclosed, ih hrest ha₁]

/-- **Everything is closed exactly once** if and only if nothing is open at the end. -/
theorem closedOnce_iff {log : List (Event α)} (h : run settle [] log = some opened) :
    ClosedOnce log ↔ opened = [] := by
  constructor
  · intro honce
    apply List.eq_nil_iff_forall_not_mem.mpr
    intro a ha
    obtain ⟨before, after, heq, hopen⟩ := (mem_run_settle_iff h).mp ha
    have hcount := honce before a after heq
    rw [List.count_eq_zero_of_not_mem fun hmem => hopen ((List.takeWhile_subset _) hmem)] at hcount
    omega
  · rintro rfl before a after rfl
    rw [run_append] at h
    obtain ⟨opened₁, -, hrest⟩ := Option.bind_eq_some_iff.mp h
    rw [run_cons] at hrest
    obtain ⟨opened₂, hstep, hrest⟩ := Option.bind_eq_some_iff.mp hrest
    exact count_of_open hrest ((mem_settle_iff hstep).mpr (Or.inl rfl)) (by simp)

end MessageBoard.Ledger
