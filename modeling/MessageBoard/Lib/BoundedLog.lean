import Mathlib

/-!
# A log that keeps its newest entries

A log has at most `capacity` entries, oldest first.  `push` puts an entry at the end and drops the
oldest one if there are too many; `latest n` are the last `n` entries.

* `ofHistory` — the log after a history of pushes, `push_ofHistory` — **pushing extends the history**;
* `latest_ofHistory` — **what a reader sees of a history**.
-/

namespace MessageBoard.BoundedLog

/-- At most so many entries, oldest first. -/
structure Log (α : Type) (capacity : ℕ) where
  entries : List α
  length_le : entries.length ≤ capacity

variable {α : Type} {capacity : ℕ}

namespace Log

@[ext] theorem ext {l l' : Log α capacity} (h : l.entries = l'.entries) : l = l' := by
  cases l
  cases l'
  simpa using h

/-- Nothing was pushed. -/
def empty : Log α capacity := ⟨[], Nat.zero_le _⟩

/-- An entry at the end, and the oldest one is dropped if there are too many. -/
def push (l : Log α capacity) (x : α) : Log α capacity where
  entries := (l.entries ++ [x]).drop (l.entries.length + 1 - capacity)
  length_le := by
    rw [List.length_drop, List.length_append, List.length_singleton]
    omega

/-- The last `n` entries, or all if there are fewer. -/
def latest (l : Log α capacity) (n : ℕ) : List α := l.entries.drop (l.entries.length - n)

/-- What a history leaves. -/
def ofHistory (capacity : ℕ) (xs : List α) : Log α capacity where
  entries := xs.drop (xs.length - capacity)
  length_le := by
    rw [List.length_drop]
    omega

theorem ofHistory_nil : (ofHistory capacity [] : Log α capacity) = empty := by
  ext1
  exact List.drop_nil

theorem length_ofHistory (xs : List α) :
    (ofHistory capacity xs).entries.length = min capacity xs.length := by
  rw [ofHistory, List.length_drop]
  omega

/-- **Pushing extends the history.** -/
theorem push_ofHistory (xs : List α) (x : α) :
    (ofHistory capacity xs).push x = ofHistory capacity (xs ++ [x]) := by
  ext1
  have hlen := @length_ofHistory _ capacity xs
  simp only [push, hlen]
  simp only [ofHistory, List.length_append, List.length_singleton]
  rw [← List.drop_append_of_le_length (by omega), List.drop_drop]
  congr 1
  omega

/-- **What a reader sees of a history.** -/
theorem latest_ofHistory (n : ℕ) (xs : List α) :
    (ofHistory capacity xs).latest n = xs.drop (xs.length - min n (min capacity xs.length)) := by
  rw [latest, length_ofHistory, ofHistory, List.drop_drop]
  congr 1
  omega

end Log

end MessageBoard.BoundedLog
