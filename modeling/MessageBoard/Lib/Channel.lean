import Mathlib

/-!
# Ordered channels on one wire

Packets in flight are kept in one list, oldest first; a channel is the packets that satisfy a
predicate.  `receive p` takes the oldest packet of the channel `p` and leaves the others.

* `receive_eq_some` — what is taken is the head of the channel;
* `filter_receive` — a channel without the packet taken is unchanged;
* `total_receive` — a sum over the wire loses the weight of the packet.
-/

namespace MessageBoard.Channel

variable {α : Type}

/-- The oldest packet of a channel, and the wire without it. -/
def receive (p : α → Bool) : List α → Option (α × List α)
  | [] => none
  | x :: wire =>
      if p x then some (x, wire) else (receive p wire).map fun r => (r.1, x :: r.2)

theorem receive_perm {p : α → Bool} {wire rest : List α} {x : α}
    (h : receive p wire = some (x, rest)) : p x = true ∧ wire.Perm (x :: rest) := by
  induction wire generalizing rest with
  | nil => simp [receive] at h
  | cons y wire ih =>
    rw [receive] at h
    split at h
    · rename_i hy
      rw [Option.some.injEq, Prod.mk.injEq] at h
      obtain ⟨rfl, rfl⟩ := h
      exact ⟨hy, List.Perm.refl _⟩
    · obtain ⟨r, hr, heq⟩ := Option.map_eq_some_iff.mp h
      rw [Prod.mk.injEq] at heq
      obtain ⟨rfl, rfl⟩ := heq
      obtain ⟨hx, hperm⟩ := ih hr
      exact ⟨hx, (hperm.cons y).trans (List.Perm.swap _ _ _)⟩

/-- **What is taken is the head of the channel.** -/
theorem receive_eq_some {p : α → Bool} {wire rest : List α} {x : α}
    (h : receive p wire = some (x, rest)) : wire.filter p = x :: rest.filter p := by
  induction wire generalizing rest with
  | nil => simp [receive] at h
  | cons y wire ih =>
    rw [receive] at h
    split at h
    · rename_i hy
      rw [Option.some.injEq, Prod.mk.injEq] at h
      obtain ⟨rfl, rfl⟩ := h
      rw [List.filter_cons_of_pos hy]
    · rename_i hy
      obtain ⟨r, hr, heq⟩ := Option.map_eq_some_iff.mp h
      rw [Prod.mk.injEq] at heq
      obtain ⟨rfl, rfl⟩ := heq
      rw [List.filter_cons_of_neg hy, List.filter_cons_of_neg hy, ih hr]

/-- **A channel without the packet taken is unchanged.** -/
theorem filter_receive {p q : α → Bool} {wire rest : List α} {x : α}
    (h : receive p wire = some (x, rest)) (hx : q x = false) :
    rest.filter q = wire.filter q := by
  induction wire generalizing rest with
  | nil => simp [receive] at h
  | cons y wire ih =>
    rw [receive] at h
    split at h
    · rw [Option.some.injEq, Prod.mk.injEq] at h
      obtain ⟨rfl, rfl⟩ := h
      rw [List.filter_cons_of_neg (by simp [hx])]
    · obtain ⟨r, hr, heq⟩ := Option.map_eq_some_iff.mp h
      rw [Prod.mk.injEq] at heq
      obtain ⟨rfl, rfl⟩ := heq
      rw [List.filter_cons, List.filter_cons, ih hr]

theorem mem_of_receive {p : α → Bool} {wire rest : List α} {x : α}
    (h : receive p wire = some (x, rest)) : x ∈ wire ∧ rest ⊆ wire := by
  have hperm := (receive_perm h).2
  exact ⟨hperm.mem_iff.mpr (by simp), fun y hy => hperm.mem_iff.mpr (by simp [hy])⟩

/-! ### Sums over the wire -/

/-- The weights of the packets in flight, added up. -/
def total (w : α → ℕ) (wire : List α) : ℕ := (wire.map w).sum

@[simp] theorem total_nil (w : α → ℕ) : total w [] = 0 := rfl

@[simp] theorem total_singleton (w : α → ℕ) (x : α) : total w [x] = w x := by simp [total]

theorem total_append (w : α → ℕ) (wire wire' : List α) :
    total w (wire ++ wire') = total w wire + total w wire' := by
  rw [total, List.map_append, List.sum_append]
  rfl

/-- **A sum over the wire loses the weight of the packet taken.** -/
theorem total_receive (w : α → ℕ) {p : α → Bool} {wire rest : List α} {x : α}
    (h : receive p wire = some (x, rest)) : total w wire = w x + total w rest := by
  rw [total, ((receive_perm h).2.map w).sum_eq, List.map_cons, List.sum_cons]
  rfl

theorem total_eq_zero {w : α → ℕ} {wire : List α} (h : ∀ x ∈ wire, w x = 0) :
    total w wire = 0 := by
  rw [total, List.sum_eq_zero_iff]
  intro n hn
  obtain ⟨x, hx, rfl⟩ := List.mem_map.mp hn
  exact h x hx

end MessageBoard.Channel
