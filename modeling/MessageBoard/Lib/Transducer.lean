import Mathlib

/-!
# Machines that answer

A step `σ → ι → Option (σ × ο)` takes one input, answers it, and is refused with `none`.  `respond`
takes a list of inputs in order and collects the answers.

* `respond_append` — two lists of inputs are answered one after the other;
* `respond_invariant` — what every step preserves and what it says of its answer hold of a whole run;
* `SimulatesBy` — a machine whose steps another one matches, as long as its budget of inputs lasts;
* `respond_simulatesBy` — **a matched machine answers in step** over any inputs within the budget;
* `Simulates`, `respond_simulates` — the same where the answers are equal.
-/

namespace MessageBoard.Transducer

variable {σ τ ι ο : Type}

/-- Take the inputs in order, and collect the answers. -/
def respond (step : σ → ι → Option (σ × ο)) : σ → List ι → Option (σ × List ο)
  | s, [] => some (s, [])
  | s, a :: as =>
      (step s a).bind fun r => (respond step r.1 as).map fun q => (q.1, r.2 :: q.2)

variable {step : σ → ι → Option (σ × ο)}

theorem respond_cons (s : σ) (a : ι) (as : List ι) : respond step s (a :: as)
    = (step s a).bind fun r => (respond step r.1 as).map fun q => (q.1, r.2 :: q.2) := rfl

/-- A run that starts with an input is a step and a run. -/
theorem respond_cons_eq_some {s s' : σ} {a : ι} {as : List ι} {os : List ο} :
    respond step s (a :: as) = some (s', os)
      ↔ ∃ s₁ o os', step s a = some (s₁, o) ∧ respond step s₁ as = some (s', os') ∧ os = o :: os' := by
  rw [respond_cons, Option.bind_eq_some_iff]
  constructor
  · rintro ⟨⟨s₁, o⟩, hstep, hrest⟩
    obtain ⟨⟨s₂, os'⟩, hrun, heq⟩ := Option.map_eq_some_iff.mp hrest
    obtain ⟨rfl, rfl⟩ := Prod.mk.inj heq
    exact ⟨s₁, o, os', hstep, hrun, rfl⟩
  · rintro ⟨s₁, o, os', hstep, hrun, rfl⟩
    exact ⟨(s₁, o), hstep, by rw [hrun]; rfl⟩

/-- **Two lists of inputs are answered one after the other.** -/
theorem respond_append {s s' : σ} {as bs : List ι} {os : List ο} :
    respond step s (as ++ bs) = some (s', os)
      ↔ ∃ s₁ os₁ os₂, respond step s as = some (s₁, os₁) ∧ respond step s₁ bs = some (s', os₂)
        ∧ os = os₁ ++ os₂ := by
  induction as generalizing s os with
  | nil =>
    constructor
    · exact fun h => ⟨s, [], os, rfl, h, rfl⟩
    · rintro ⟨s₁, os₁, os₂, h₁, h₂, rfl⟩
      obtain ⟨rfl, rfl⟩ := Prod.mk.inj (Option.some.inj h₁)
      exact h₂
  | cons a as ih =>
    rw [List.cons_append, respond_cons_eq_some]
    constructor
    · rintro ⟨s₀, o, os', hstep, hrun, rfl⟩
      obtain ⟨s₁, os₁, os₂, h₁, h₂, rfl⟩ := ih.mp hrun
      exact ⟨s₁, o :: os₁, os₂, respond_cons_eq_some.mpr ⟨s₀, o, os₁, hstep, h₁, rfl⟩, h₂, rfl⟩
    · rintro ⟨s₁, os₁, os₂, h₁, h₂, rfl⟩
      obtain ⟨s₀, o, os', hstep, hrun, rfl⟩ := respond_cons_eq_some.mp h₁
      exact ⟨s₀, o, os' ++ os₂, hstep, ih.mpr ⟨s₁, os', os₂, hrun, h₂, rfl⟩, rfl⟩

/-- **What every step preserves**, a run preserves; and what it says of its answer, a run says of all
its answers. -/
theorem respond_invariant {P : σ → Prop} {Q : ο → Prop}
    (hstep : ∀ s a s' o, P s → step s a = some (s', o) → P s' ∧ Q o) {s s' : σ} {as : List ι}
    {os : List ο} (hs : P s) (h : respond step s as = some (s', os)) : P s' ∧ ∀ o ∈ os, Q o := by
  induction as generalizing s os with
  | nil =>
    obtain ⟨rfl, rfl⟩ := Prod.mk.inj (Option.some.inj h)
    exact ⟨hs, by simp⟩
  | cons a as ih =>
    obtain ⟨s₁, o, os', hfirst, hrun, rfl⟩ := respond_cons_eq_some.mp h
    obtain ⟨hs₁, ho⟩ := hstep s a s₁ o hs hfirst
    obtain ⟨hs', hos⟩ := ih hs₁ hrun
    exact ⟨hs', List.forall_mem_cons.mpr ⟨ho, hos⟩⟩

/-! ### Simulation -/

section Simulation

variable {ο' : Type} {step' : τ → ι → Option (τ × ο')}

/-- A step is matched by one from every pair of related states, and the answers are related.  The
relation may depend on how many more inputs there may be. -/
def SimulatesBy (step : σ → ι → Option (σ × ο)) (step' : τ → ι → Option (τ × ο'))
    (R : ℕ → σ → τ → Prop) (Q : ο → ο' → Prop) : Prop :=
  ∀ n s t a s' o, R (n + 1) s t → step s a = some (s', o) →
    ∃ t' o', step' t a = some (t', o') ∧ R n s' t' ∧ Q o o'

/-- **A matched machine answers in step**, over any inputs within the budget. -/
theorem respond_simulatesBy {R : ℕ → σ → τ → Prop} {Q : ο → ο' → Prop}
    (h : SimulatesBy step step' R Q) {n : ℕ} {s s' : σ} {t : τ} {as : List ι} {os : List ο}
    (hR : R (n + as.length) s t) (hrun : respond step s as = some (s', os)) :
    ∃ t' os', respond step' t as = some (t', os') ∧ R n s' t' ∧ List.Forall₂ Q os os' := by
  induction as generalizing s t os with
  | nil =>
    obtain ⟨rfl, rfl⟩ := Prod.mk.inj (Option.some.inj hrun)
    exact ⟨t, [], rfl, hR, .nil⟩
  | cons a as ih =>
    obtain ⟨s₁, o, os₁, hstep, hrest, rfl⟩ := respond_cons_eq_some.mp hrun
    rw [List.length_cons, ← Nat.add_assoc] at hR
    obtain ⟨t₁, o', hstep', hR₁, ho⟩ := h _ s t a s₁ o hR hstep
    obtain ⟨t', os', hrest', hR', hos⟩ := ih hR₁ hrest
    exact ⟨t', o' :: os', respond_cons_eq_some.mpr ⟨t₁, o', os', hstep', hrest', rfl⟩, hR',
      .cons ho hos⟩

end Simulation

/-- A step is matched by one with the same answer from every pair of related states.  The relation may
depend on how many more inputs there may be. -/
def Simulates (step : σ → ι → Option (σ × ο)) (step' : τ → ι → Option (τ × ο))
    (R : ℕ → σ → τ → Prop) : Prop :=
  ∀ n s t a s' o, R (n + 1) s t → step s a = some (s', o) →
    ∃ t', step' t a = some (t', o) ∧ R n s' t'

/-- **A matched machine is answered alike**, over any inputs within the budget. -/
theorem respond_simulates {step' : τ → ι → Option (τ × ο)} {R : ℕ → σ → τ → Prop}
    (h : Simulates step step' R) {n : ℕ} {s s' : σ} {t : τ} {as : List ι} {os : List ο}
    (hR : R (n + as.length) s t) (hrun : respond step s as = some (s', os)) :
    ∃ t', respond step' t as = some (t', os) ∧ R n s' t' := by
  have hby : SimulatesBy step step' R Eq := by
    intro n s t a s' o hR hstep
    obtain ⟨t', hstep', hR'⟩ := h n s t a s' o hR hstep
    exact ⟨t', o, hstep', hR', rfl⟩
  obtain ⟨t', os', hrun', hR', hos⟩ := respond_simulatesBy hby hR hrun
  rw [List.forall₂_eq_eq_eq] at hos
  exact ⟨t', hos ▸ hrun', hR'⟩

end MessageBoard.Transducer
