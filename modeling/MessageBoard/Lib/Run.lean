import Mathlib

/-!
# Runs of a step that may be refused

A step `σ → ι → Option σ` takes one input and is refused with `none`.  `run` takes a list of inputs
in order and is refused with its first refused input.

* `run_append` — running two lists is running one after the other;
* `run_isSome_iff` — a run is one in which no input is refused;
* `run_invariant` — what every step preserves, a run preserves;
* `run_invariant_of_meets` — the same for the runs whose steps meet a condition;
* `always_append` — the states of two lists, one after the other;
* `always_iff_meets` — a condition whose failure shows at once is exact;
* `run_induction` — the same for a property of the inputs so far and the state.
-/

namespace MessageBoard.Run

variable {σ τ ι : Type} {step : σ → ι → Option σ}

/-- Take the inputs in order. -/
def run (step : σ → ι → Option σ) : σ → List ι → Option σ
  | s, [] => some s
  | s, a :: as => (step s a).bind fun s => run step s as

@[simp] theorem run_nil (s : σ) : run step s [] = some s := rfl

theorem run_cons (s : σ) (a : ι) (as : List ι) :
    run step s (a :: as) = (step s a).bind fun s => run step s as := rfl

theorem run_singleton (s : σ) (a : ι) : run step s [a] = step s a := by
  rw [run_cons]
  cases step s a <;> rfl

/-- **Running two lists is running one after the other.** -/
theorem run_append (s : σ) (as bs : List ι) :
    run step s (as ++ bs) = (run step s as).bind fun s => run step s bs := by
  induction as generalizing s with
  | nil => rfl
  | cons a as ih =>
    rw [List.cons_append, run_cons, run_cons, Option.bind_assoc]
    congr 1
    funext s'
    exact ih s'

theorem run_concat_eq_some {s s' : σ} {as : List ι} {a : ι} :
    run step s (as ++ [a]) = some s' ↔ ∃ s₁, run step s as = some s₁ ∧ step s₁ a = some s' := by
  rw [run_append, Option.bind_eq_some_iff]
  simp only [run_singleton]

/-- **A run is one in which no input is refused.** -/
theorem run_isSome_iff {s : σ} {as : List ι} : (run step s as).isSome ↔
    ∀ bs a cs s', as = bs ++ a :: cs → run step s bs = some s' → (step s' a).isSome := by
  induction as generalizing s with
  | nil => simp
  | cons a as ih =>
    rw [run_cons]
    constructor
    · intro h bs b cs s' heq hrun
      cases hstep : step s a with
      | none => simp [hstep] at h
      | some s₁ =>
        rw [hstep, Option.bind_some] at h
        cases bs with
        | nil =>
          obtain ⟨rfl, -⟩ := List.cons.inj heq
          rw [← Option.some.inj hrun, hstep]
          rfl
        | cons c bs =>
          obtain ⟨rfl, hrest⟩ := List.cons.inj heq
          rw [run_cons, hstep, Option.bind_some] at hrun
          exact ih.mp h bs b cs s' hrest hrun
    · intro h
      obtain ⟨s₁, hstep⟩ := Option.isSome_iff_exists.mp (h [] a as s rfl rfl)
      rw [hstep, Option.bind_some]
      apply ih.mpr
      intro bs b cs s' heq hrun
      apply h (a :: bs) b cs s' (by rw [heq, List.cons_append])
      rw [run_cons, hstep]
      exact hrun

/-- **Inputs that are never refused** make a run. -/
theorem run_exists {C : ι → Prop} (hstep : ∀ s a, C a → ∃ s', step s a = some s') (s : σ)
    {as : List ι} (h : ∀ a ∈ as, C a) : ∃ s', run step s as = some s' := by
  induction as generalizing s with
  | nil => exact ⟨s, rfl⟩
  | cons a as ih =>
    obtain ⟨s₁, h₁⟩ := hstep s a (h a (by simp))
    obtain ⟨s', hrest⟩ := ih s₁ fun b hb => h b (by simp [hb])
    refine ⟨s', ?_⟩
    rw [run_cons, h₁]
    exact hrest

/-- **What every step preserves, a run preserves.** -/
theorem run_invariant {P : σ → Prop} (hstep : ∀ s a s', P s → step s a = some s' → P s')
    {s s' : σ} {as : List ι} (hs : P s) (hrun : run step s as = some s') : P s' := by
  induction as generalizing s with
  | nil => rwa [← Option.some.inj hrun]
  | cons a as ih =>
    rw [run_cons] at hrun
    obtain ⟨s₁, h₁, hrest⟩ := Option.bind_eq_some_iff.mp hrun
    exact ih (hstep s a s₁ hs h₁) hrest

/-- Every step of a run meets a condition on the state before it and the input. -/
def Meets (step : σ → ι → Option σ) (C : σ → ι → Prop) : σ → List ι → Prop
  | _, [] => True
  | s, a :: as => C s a ∧ ∀ s', step s a = some s' → Meets step C s' as

/-- A run can be taken step by step to see whether its steps meet a condition. -/
instance Meets.decidable {C : σ → ι → Prop} [∀ s a, Decidable (C s a)] :
    (s : σ) → (as : List ι) → Decidable (Meets step C s as)
  | _, [] => isTrue trivial
  | s, a :: as =>
      match h : step s a with
      | none => decidable_of_iff (C s a) (by simp [Meets, h])
      | some s' =>
          haveI : Decidable (Meets step C s' as) := Meets.decidable s' as
          decidable_of_iff (C s a ∧ Meets step C s' as) (by simp [Meets, h])

/-- A condition on the inputs alone. -/
theorem meets_of_forall {C : ι → Prop} {as : List ι} (h : ∀ a ∈ as, C a) (s : σ) :
    Meets step (fun _ a => C a) s as := by
  induction as generalizing s with
  | nil => trivial
  | cons a as ih => exact ⟨h a (by simp), fun s' _ => ih (fun b hb => h b (by simp [hb])) s'⟩

/-- **What every step that meets the condition preserves, a run of such steps preserves.** -/
theorem run_invariant_of_meets {P : σ → Prop} {C : σ → ι → Prop}
    (hstep : ∀ s a s', P s → C s a → step s a = some s' → P s') {s s' : σ} {as : List ι} (hs : P s)
    (hmeets : Meets step C s as) (hrun : run step s as = some s') : P s' := by
  induction as generalizing s with
  | nil => rwa [← Option.some.inj hrun]
  | cons a as ih =>
    rw [run_cons] at hrun
    obtain ⟨s₁, h₁, hrest⟩ := Option.bind_eq_some_iff.mp hrun
    exact ih (hstep s a s₁ hs hmeets.1 h₁) (hmeets.2 s₁ h₁) hrest

/-- A condition that implies another one where the invariant holds. -/
theorem meets_mono_of_invariant {I : σ → Prop} {C D : σ → ι → Prop}
    (hI : ∀ s a s', I s → step s a = some s' → I s') (himp : ∀ s a, I s → C s a → D s a) {s : σ}
    {as : List ι} (hs : I s) (h : Meets step C s as) : Meets step D s as := by
  induction as generalizing s with
  | nil => trivial
  | cons a as ih => exact ⟨himp s a hs h.1, fun s' hstep => ih (hI s a s' hs hstep) (h.2 s' hstep)⟩

/-- The same over the steps that are taken. -/
theorem meets_mono_of_run {I : σ → Prop} {C D : σ → ι → Prop}
    (hI : ∀ s a s', I s → step s a = some s' → I s')
    (himp : ∀ s a s', I s → step s a = some s' → C s a → D s a) {s s' : σ} {as : List ι}
    (hs : I s) (hrun : run step s as = some s') (h : Meets step C s as) : Meets step D s as := by
  induction as generalizing s with
  | nil => trivial
  | cons a as ih =>
    rw [run_cons] at hrun
    obtain ⟨s₁, h₁, hrest⟩ := Option.bind_eq_some_iff.mp hrun
    refine ⟨himp s a s₁ hs h₁ h.1, ?_⟩
    intro s₂ h₂
    have heq : s₁ = s₂ := Option.some.inj (h₁.symm.trans h₂)
    exact heq ▸ ih (hI s a s₁ hs h₁) hrest (h.2 s₁ h₁)

/-- Conditions that agree where the invariant holds are met by the same runs. -/
theorem meets_iff_of_invariant {I : σ → Prop} {C D : σ → ι → Prop}
    (hI : ∀ s a s', I s → step s a = some s' → I s') (hiff : ∀ s a, I s → (C s a ↔ D s a)) {s : σ}
    {as : List ι} (hs : I s) : Meets step C s as ↔ Meets step D s as := by
  constructor
  · exact meets_mono_of_invariant hI (fun s a hi => (hiff s a hi).mp) hs
  · exact meets_mono_of_invariant hI (fun s a hi => (hiff s a hi).mpr) hs

/-- Every state of a run has a property, the first and the last one included. -/
def Always (step : σ → ι → Option σ) (P : σ → Prop) : σ → List ι → Prop
  | s, [] => P s
  | s, a :: as => P s ∧ ∀ s', step s a = some s' → Always step P s' as

theorem always_iff {P : σ → Prop} {s : σ} {as : List ι} :
    Always step P s as ↔ ∀ bs s', bs <+: as → run step s bs = some s' → P s' := by
  induction as generalizing s with
  | nil =>
    constructor
    · intro h bs s' hbs hrun
      rw [List.prefix_nil.mp hbs] at hrun
      exact Option.some.inj hrun ▸ h
    · exact fun h => h [] s List.prefix_rfl rfl
  | cons a as ih =>
    constructor
    · rintro ⟨hs, hrest⟩ bs s' hbs hrun
      cases bs with
      | nil => exact Option.some.inj hrun ▸ hs
      | cons b bs =>
        obtain ⟨rfl, htail⟩ := List.cons_prefix_cons.mp hbs
        rw [run_cons] at hrun
        obtain ⟨s₁, h₁, hrun⟩ := Option.bind_eq_some_iff.mp hrun
        exact ih.mp (hrest s₁ h₁) bs s' htail hrun
    · intro h
      refine ⟨h [] s (List.nil_prefix) rfl, fun s₁ h₁ => ih.mpr ?_⟩
      intro bs s' hbs hrun
      apply h (a :: bs) s' (List.cons_prefix_cons.mpr ⟨rfl, hbs⟩)
      rw [run_cons, h₁]
      exact hrun

theorem Always.first {P : σ → Prop} {s : σ} {as : List ι} (h : Always step P s as) : P s := by
  cases as with
  | nil => exact h
  | cons a as => exact h.1

theorem Always.last {P : σ → Prop} {s s' : σ} {as : List ι} (h : Always step P s as)
    (hrun : run step s as = some s') : P s' :=
  always_iff.mp h as s' List.prefix_rfl hrun

/-- **The states of two lists** are those of the one, and those of the other from its end on. -/
theorem always_append {P : σ → Prop} {s : σ} {as bs : List ι} :
    Always step P s (as ++ bs)
      ↔ Always step P s as ∧ ∀ s', run step s as = some s' → Always step P s' bs := by
  induction as generalizing s with
  | nil =>
    constructor
    · exact fun h => ⟨h.first, fun s' hs' => Option.some.inj hs' ▸ h⟩
    · exact fun h => h.2 s rfl
  | cons a as ih =>
    simp only [List.cons_append, Always, run_cons, ih, and_assoc]
    apply and_congr_right
    intro _
    constructor
    · intro h
      refine ⟨fun s₁ h₁ => (h s₁ h₁).1, ?_⟩
      intro s' hrun
      obtain ⟨s₁, h₁, hrest⟩ := Option.bind_eq_some_iff.mp hrun
      exact (h s₁ h₁).2 s' hrest
    · intro h s₁ h₁
      refine ⟨h.1 s₁ h₁, fun s' hrest => h.2 s' ?_⟩
      rw [h₁]
      exact hrest

/-- **A condition whose failure shows at once is exact**: every state has the property exactly if
every step meets the condition. -/
theorem always_iff_meets {P I : σ → Prop} {C : σ → ι → Prop} (hP : ∀ s, I s → P s)
    (hkeep : ∀ s a s', I s → C s a → step s a = some s' → I s')
    (hbreak : ∀ s a s', I s → ¬C s a → step s a = some s' → ¬P s') {s s' : σ} {as : List ι}
    (hs : I s) (hrun : run step s as = some s') : Always step P s as ↔ Meets step C s as := by
  induction as generalizing s with
  | nil => exact iff_of_true (hP s hs) trivial
  | cons a as ih =>
    rw [run_cons] at hrun
    obtain ⟨s₁, h₁, hrest⟩ := Option.bind_eq_some_iff.mp hrun
    have honly : ∀ {Q : σ → Prop}, (∀ s₂, step s a = some s₂ → Q s₂) ↔ Q s₁ := by
      intro Q
      constructor
      · exact fun h => h s₁ h₁
      · intro h s₂ h₂
        rw [h₁] at h₂
        exact Option.some.inj h₂ ▸ h
    rw [Always, Meets, honly, honly]
    by_cases hC : C s a
    · rw [ih (hkeep s a s₁ hs hC h₁) hrest, and_iff_right (hP s hs), and_iff_right hC]
    · refine iff_of_false (fun h => hbreak s a s₁ hs hC h₁ ?_) fun h => hC h.1
      exact always_iff.mp h.2 [] s₁ (List.nil_prefix) rfl

/-- The same of inputs that need not be a run, where every step that fails the condition can be taken. -/
theorem always_iff_meets_of_taken {P I : σ → Prop} {C : σ → ι → Prop} (hP : ∀ s, I s → P s)
    (hkeep : ∀ s a s', I s → C s a → step s a = some s' → I s')
    (hbreak : ∀ s a, I s → ¬C s a → ∃ s', step s a = some s' ∧ ¬P s') {s : σ} {as : List ι}
    (hs : I s) : Always step P s as ↔ Meets step C s as := by
  induction as generalizing s with
  | nil => exact iff_of_true (hP s hs) trivial
  | cons a as ih =>
    rw [Always, Meets, and_iff_right (hP s hs)]
    by_cases hC : C s a
    · rw [and_iff_right hC]
      exact forall₂_congr fun s₁ h₁ => ih (hkeep s a s₁ hs hC h₁)
    · obtain ⟨s₁, h₁, hnot⟩ := hbreak s a hs hC
      exact iff_of_false (fun h => hnot (h s₁ h₁).first) fun h => hC h.1

/-- **Induction over a run**, with the inputs taken so far. -/
theorem run_induction {P : List ι → σ → Prop} {s₀ : σ} (hinit : P [] s₀)
    (hstep : ∀ as s a s', run step s₀ as = some s → P as s → step s a = some s' → P (as ++ [a]) s')
    {as : List ι} {s : σ} (hrun : run step s₀ as = some s) : P as s := by
  induction as using List.reverseRecOn generalizing s with
  | nil =>
    rw [← Option.some.inj hrun]
    exact hinit
  | append_singleton as a ih =>
    obtain ⟨s₁, h₁, ha⟩ := run_concat_eq_some.mp hrun
    exact hstep as s₁ a s h₁ (ih h₁) ha

end MessageBoard.Run
