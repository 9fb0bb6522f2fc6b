import Mathlib

/-!
# `util_matrix`: the ring of stored items

The matrix is an array of `capacity` slots with a counter `size` that is never reduced modulo the
capacity: slot `index % capacity` is the slot of `index`.  The structure carries that the array has
`capacity` slots and that there is at least one, so every access is in range.

* `Holds m xs` — the refinement: the matrix is what adding `xs` one by one leaves, so it shows the
  last `capacity` items of the history `xs` and nothing else;
* `holds_create`, `Holds.add` — the empty matrix holds the empty history and `addElement` at index
  `getSize` extends it.
-/

namespace MessageBoard

/-- `struct _matrix`.  An empty slot is `none`. -/
structure Matrix (α : Type) where
  array : List (Option α)
  size : ℕ
  capacity : ℕ
  overflow : Bool
  length_array : array.length = capacity
  capacity_pos : 0 < capacity
  deriving DecidableEq

namespace Matrix

variable {α : Type}

def getOverflow (m : Matrix α) : Bool := m.overflow

def getCapacity (m : Matrix α) : ℕ := m.capacity

def getSize (m : Matrix α) : ℕ := m.size

/-- The slot of an index exists. -/
theorem slot_lt (m : Matrix α) (index : ℕ) : index % m.capacity < m.array.length := by
  rw [m.length_array]
  exact Nat.mod_lt index m.capacity_pos

def getElement (m : Matrix α) (index : ℕ) : Option α :=
  m.array.get ⟨index % m.capacity, m.slot_lt index⟩

/-- `add_element`: an occupied slot is freed and sets `overflow`; the counter always grows. -/
def addElement (m : Matrix α) (index : ℕ) (toAdd : α) : Matrix α where
  array := m.array.set (index % m.capacity) (some toAdd)
  size := m.size + 1
  capacity := m.capacity
  overflow := if (m.getElement index).isSome then true else m.overflow
  length_array := by rw [List.length_set, m.length_array]
  capacity_pos := m.capacity_pos

/-- `create_matrix`.  The source leaves `overflow` unset, so its first value is a parameter. -/
def createMatrix (capacity : ℕ) (h : 0 < capacity) (overflow : Bool) : Matrix α where
  array := List.replicate capacity none
  size := 0
  capacity := capacity
  overflow := overflow
  length_array := List.length_replicate
  capacity_pos := h

@[simp] theorem getSize_addElement (m : Matrix α) (i : ℕ) (x : α) :
    (m.addElement i x).getSize = m.getSize + 1 := rfl

@[simp] theorem getCapacity_addElement (m : Matrix α) (i : ℕ) (x : α) :
    (m.addElement i x).getCapacity = m.getCapacity := rfl

@[simp] theorem getSize_createMatrix (c : ℕ) (h : 0 < c) (o : Bool) :
    (createMatrix c h o : Matrix α).getSize = 0 := rfl

@[simp] theorem getCapacity_createMatrix (c : ℕ) (h : 0 < c) (o : Bool) :
    (createMatrix c h o : Matrix α).getCapacity = c := rfl

theorem getElement_mod (m : Matrix α) (i : ℕ) : m.getElement (i % m.getCapacity) = m.getElement i := by
  simp only [getElement, getCapacity, Nat.mod_mod]

@[simp] theorem getElement_createMatrix (c : ℕ) (h : 0 < c) (o : Bool) (i : ℕ) :
    (createMatrix c h o : Matrix α).getElement i = none := by
  simp [getElement, createMatrix]

/-- Reading after a write: the written slot shows the new item, every other slot is unchanged. -/
theorem getElement_addElement (m : Matrix α) (i j : ℕ) (x : α) :
    (m.addElement i x).getElement j
      = if i % m.getCapacity = j % m.getCapacity then some x else m.getElement j := by
  have hj : j % m.capacity < (m.array.set (i % m.capacity) (some x)).length := by
    rw [List.length_set]
    exact m.slot_lt j
  show (m.array.set (i % m.capacity) (some x)).get ⟨j % m.capacity, hj⟩ = _
  rw [List.get_eq_getElem, List.getElem_set]
  rfl

/-! ### The history a matrix holds -/

/-- The matrix is what adding the items of `xs`, oldest first, leaves: it counts them all, shows the
last `capacity` of them at their indices, and has no other item. -/
structure Holds (m : Matrix α) (xs : List α) : Prop where
  size_eq : m.getSize = xs.length
  window : ∀ i (h : i < xs.length), xs.length ≤ i + m.getCapacity → m.getElement i = some xs[i]
  unwritten : ∀ i, xs.length ≤ i → i < m.getCapacity → m.getElement i = none
  overflowed : m.getCapacity < xs.length → m.getOverflow = true

theorem holds_create (c : ℕ) (h : 0 < c) (o : Bool) : Holds (createMatrix c h o : Matrix α) [] where
  size_eq := rfl
  window := by intro i hi; simp at hi
  unwritten := by intro i _ _; exact getElement_createMatrix c h o i
  overflowed := by intro hc; simp at hc

/-- Two indices less than a capacity apart use different slots. -/
theorem mod_ne_of_near {c i k : ℕ} (hik : i < k) (hki : k < i + c) : k % c ≠ i % c := by
  intro h
  have hdvd : c ∣ k - i := (Nat.modEq_iff_dvd' hik.le).mp h.symm
  have := Nat.le_of_dvd (by omega) hdvd
  omega

/-- **Refinement step.**  `addElement` at index `getSize` extends the history by one item. -/
theorem Holds.add {m : Matrix α} {xs : List α} (h : Holds m xs) (x : α) :
    Holds (m.addElement m.getSize x) (xs ++ [x]) where
  size_eq := by rw [getSize_addElement, h.size_eq, List.length_append, List.length_singleton]
  window := by
    intro i hi hwin
    rw [List.length_append, List.length_singleton] at hi hwin
    rw [getCapacity_addElement] at hwin
    rw [getElement_addElement, h.size_eq]
    by_cases hlast : i = xs.length
    · subst hlast
      simp
    · have hlt : i < xs.length := by omega
      rw [if_neg (mod_ne_of_near hlt (by omega)), h.window i hlt (by omega),
        List.getElem_append_left hlt]
  unwritten := by
    intro i hi hc
    rw [List.length_append, List.length_singleton] at hi
    rw [getCapacity_addElement] at hc
    rw [getElement_addElement, h.size_eq, if_neg, h.unwritten i (by omega) hc]
    rw [Nat.mod_eq_of_lt hc, Nat.mod_eq_of_lt (by omega)]
    omega
  overflowed := by
    intro hc
    rw [List.length_append, List.length_singleton, getCapacity_addElement] at hc
    show (if (m.getElement m.getSize).isSome then true else m.overflow) = true
    by_cases hfull : m.getCapacity < xs.length
    · rw [show m.overflow = true from h.overflowed hfull]
      simp
    · have hcap := m.capacity_pos
      have hpos : 0 < xs.length := by
        rw [getCapacity] at hc
        omega
      have heq : xs.length = m.getCapacity := by omega
      have hslot : m.getElement m.getSize = m.getElement 0 := by
        rw [← getElement_mod, h.size_eq, heq, Nat.mod_self]
      rw [hslot, h.window 0 hpos (by omega)]
      rfl

/-- Adding several items in order. -/
def addAll (m : Matrix α) (xs : List α) : Matrix α := xs.foldl (fun m x => m.addElement m.getSize x) m

theorem addAll_append (m : Matrix α) (xs ys : List α) :
    m.addAll (xs ++ ys) = (m.addAll xs).addAll ys := List.foldl_append

@[simp] theorem getSize_addAll (m : Matrix α) (xs : List α) :
    (m.addAll xs).getSize = m.getSize + xs.length := by
  induction xs generalizing m with
  | nil => rfl
  | cons x xs ih =>
    show ((m.addElement m.getSize x).addAll xs).getSize = _
    rw [ih, getSize_addElement, List.length_cons]
    omega

@[simp] theorem getCapacity_addAll (m : Matrix α) (xs : List α) :
    (m.addAll xs).getCapacity = m.getCapacity := by
  induction xs generalizing m with
  | nil => rfl
  | cons x xs ih => exact ih (m.addElement m.getSize x)

theorem Holds.addAll {m : Matrix α} {xs : List α} (h : Holds m xs) (ys : List α) :
    Holds (m.addAll ys) (xs ++ ys) := by
  induction ys generalizing m xs with
  | nil => rwa [List.append_nil]
  | cons y ys ih =>
    have hstep := ih (h.add y)
    rwa [List.append_assoc, List.singleton_append] at hstep

end Matrix

end MessageBoard
