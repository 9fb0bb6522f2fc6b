import MessageBoard.UtilMatrix

/-!
# The matrix owns its items

`add_element` passes the item it overwrites to `free_item`, and `free_matrix` passes every slot.
`Owned` keeps what was passed beside the matrix.  The counter has its 64 bits here.

* `addWord_eq` — the 64-bit counter is the unbounded one up to `2 ^ 64` additions;
* `History.add` — one addition: the item that leaves the window is the one passed;
* `items_array` — what the slots hold at the end is the window;
* `ring_owns` — **the last `c` items are shown, the others are passed in order, and all are passed
  once.**
-/

namespace MessageBoard

namespace Matrix

variable {α : Type}

/-- `add_element` with the `size_t` it counts in. -/
def addWord (m : Matrix α) (index : ℕ) (toAdd : α) : Matrix α :=
  { m.addElement (index % 2 ^ 64) toAdd with size := (m.size + 1) % 2 ^ 64 }

/-- A matrix, and what was passed to `free_item` so far, the `NULL`s included. -/
structure Owned (α : Type) where
  matrix : Matrix α
  passed : List (Option α)
  deriving DecidableEq

/-- `add_element` at index `get_size`: an occupied slot is passed to `free_item`. -/
def Owned.add (s : Owned α) (toAdd : α) : Owned α where
  matrix := s.matrix.addWord s.matrix.getSize toAdd
  passed :=
    match s.matrix.getElement s.matrix.getSize with
    | none => s.passed
    | some old => s.passed ++ [some old]

/-- `free_matrix`: every slot is passed, the empty ones too. -/
def Owned.freeMatrix (s : Owned α) : List (Option α) := s.passed ++ s.matrix.array

def Owned.create (capacity : ℕ) (h : 0 < capacity) (overflow : Bool) : Owned α :=
  ⟨createMatrix capacity h overflow, []⟩

def Owned.addAll (s : Owned α) (xs : List α) : Owned α := xs.foldl Owned.add s

/-- The items among what was passed. -/
def items (passed : List (Option α)) : List α := passed.filterMap id

/-! ### One addition -/

theorem addWord_eq {m : Matrix α} (h : m.getSize + 1 < 2 ^ 64) (x : α) :
    m.addWord m.getSize x = m.addElement m.getSize x := by
  have hindex : m.getSize % 2 ^ 64 = m.getSize := Nat.mod_eq_of_lt (by omega)
  have hsize : (m.size + 1) % 2 ^ 64 = m.size + 1 := Nat.mod_eq_of_lt h
  rw [addWord, hindex, hsize]
  rfl

/-- The state after the history `xs`: the items before the window were passed, in order. -/
structure History (s : Owned α) (capacity : ℕ) (xs : List α) : Prop where
  capacity_eq : s.matrix.getCapacity = capacity
  holds : s.matrix.Holds xs
  passed_eq : s.passed = (xs.take (xs.length - capacity)).map some

theorem history_create (c : ℕ) (h : 0 < c) (overflow : Bool) :
    History (Owned.create c h overflow : Owned α) c [] where
  capacity_eq := rfl
  holds := holds_create c h overflow
  passed_eq := by rw [List.take_nil]; rfl

/-- The slot that is written next: empty before the first wrap, and then the oldest item shown. -/
theorem Holds.next_slot {m : Matrix α} {xs : List α} (h : m.Holds xs) :
    (xs.length < m.getCapacity → m.getElement m.getSize = none)
      ∧ ∀ hlt : xs.length - m.getCapacity < xs.length,
          m.getCapacity ≤ xs.length → m.getElement m.getSize = some xs[xs.length - m.getCapacity] := by
  constructor
  · intro hlt
    rw [h.size_eq]
    exact h.unwritten xs.length le_rfl hlt
  · intro hlt hle
    have hslot : m.getElement xs.length = m.getElement (xs.length - m.getCapacity) := by
      rw [← getElement_mod, ← getElement_mod m (xs.length - _), Nat.mod_eq_sub_mod hle]
    rw [h.size_eq, hslot, h.window _ hlt (by omega)]

/-- **One addition.**  Once the matrix is full, the item that leaves the window is passed. -/
theorem History.add {s : Owned α} {c : ℕ} {xs : List α} (h : History s c xs)
    (hk : xs.length + 1 < 2 ^ 64) (x : α) : History (s.add x) c (xs ++ [x]) := by
  have hsize := h.holds.size_eq
  have hmatrix : (s.add x).matrix = s.matrix.addElement s.matrix.getSize x := addWord_eq (by omega) x
  obtain ⟨hempty, hfull⟩ := h.holds.next_slot
  rw [h.capacity_eq] at hempty hfull
  have hcpos : 0 < c := h.capacity_eq ▸ s.matrix.capacity_pos
  refine ⟨by rw [hmatrix, getCapacity_addElement, h.capacity_eq], hmatrix ▸ h.holds.add x, ?_⟩
  rw [List.length_append, List.length_singleton]
  rcases Nat.lt_or_ge xs.length c with hlt | hge
  · have hpassed : (s.add x).passed = s.passed := by rw [Owned.add, hempty hlt]
    rw [hpassed, h.passed_eq, Nat.sub_eq_zero_of_le hlt.le, Nat.sub_eq_zero_of_le hlt]
    rfl
  · have hold : xs.length - c < xs.length := by omega
    have hpassed : (s.add x).passed = s.passed ++ [some xs[xs.length - c]] := by
      rw [Owned.add, hfull hold hge]
    have htake : (xs ++ [x]).take (xs.length + 1 - c)
        = xs.take (xs.length - c) ++ [xs[xs.length - c]] := by
      rw [List.take_append_of_le_length (by omega), Nat.sub_add_comm hge,
        List.take_succ_eq_append_getElem hold]
    rw [hpassed, h.passed_eq, htake, List.map_append]
    rfl

/-- **All additions**, as long as the counter does not overflow. -/
theorem History.addAll {s : Owned α} {c : ℕ} {xs : List α} (h : History s c xs) {ys : List α}
    (hk : xs.length + ys.length < 2 ^ 64) : History (s.addAll ys) c (xs ++ ys) := by
  induction ys generalizing s xs with
  | nil => rwa [List.append_nil]
  | cons y ys ih =>
    rw [List.length_cons] at hk
    have hrest := ih (h.add (by omega) y) (by
      rw [List.length_append, List.length_singleton]
      omega)
    rwa [List.append_assoc, List.singleton_append] at hrest

/-! ### The slots -/

/-- A slot is read at its own index. -/
theorem getElem_array (m : Matrix α) {j : ℕ} (hj : j < m.array.length) :
    m.array[j] = m.getElement j := by
  have hlt : j < m.capacity := m.length_array ▸ hj
  simp only [getElement, List.get_eq_getElem, Nat.mod_eq_of_lt hlt]

/-- Before the first wrap: the history, and empty slots. -/
theorem Holds.array_eq {m : Matrix α} {xs : List α} (h : m.Holds xs)
    (hle : xs.length ≤ m.getCapacity) :
    m.array = xs.map some ++ List.replicate (m.getCapacity - xs.length) none := by
  apply List.ext_getElem
  · rw [List.length_append, List.length_map, List.length_replicate, m.length_array, getCapacity] at *
    omega
  · intro j hj hj'
    have hcap : j < m.getCapacity := by
      rw [m.length_array] at hj
      exact hj
    rw [getElem_array]
    by_cases hlt : j < xs.length
    · rw [h.window j hlt (by omega), List.getElem_append_left (by rwa [List.length_map]),
        List.getElem_map]
    · rw [h.unwritten j (by omega) hcap, List.getElem_append_right (by rw [List.length_map]; omega),
        List.getElem_replicate]

/-- From then on: the window, which starts at the slot written next. -/
theorem Holds.array_rotate {m : Matrix α} {xs : List α} (h : m.Holds xs)
    (hle : m.getCapacity ≤ xs.length) :
    m.array.rotate xs.length = (xs.drop (xs.length - m.getCapacity)).map some := by
  have hlen : m.array.length = m.getCapacity := m.length_array
  apply List.ext_getElem
  · rw [List.length_rotate, List.length_map, List.length_drop, hlen]
    omega
  · intro j hj hj'
    rw [List.length_rotate, hlen] at hj
    have hlt : xs.length - m.getCapacity + j < xs.length := by omega
    have hslot : (j + xs.length) % m.getCapacity = (xs.length - m.getCapacity + j) % m.getCapacity := by
      rw [Nat.mod_eq_sub_mod (show m.getCapacity ≤ j + xs.length by omega)]
      congr 1
      omega
    rw [List.getElem_rotate, getElem_array, hlen, hslot, getElement_mod, h.window _ hlt (by omega),
      List.getElem_map, List.getElem_drop]

theorem items_map_some (xs : List α) : items (xs.map some) = xs := by
  rw [items, List.filterMap_map]
  exact List.filterMap_some

/-- **What the slots hold is the window.** -/
theorem Holds.items_array {m : Matrix α} {xs : List α} (h : m.Holds xs) :
    (items m.array).Perm (xs.drop (xs.length - m.getCapacity)) := by
  rcases Nat.le_total xs.length m.getCapacity with hle | hge
  · have hnone : items (List.replicate (m.getCapacity - xs.length) (none : Option α)) = [] := by
      rw [items, List.filterMap_eq_nil_iff]
      intro a ha
      exact List.eq_of_mem_replicate ha
    have hitems : items m.array = xs := by
      rw [h.array_eq hle, items, List.filterMap_append]
      exact (congrArg₂ _ (items_map_some xs) hnone).trans (List.append_nil xs)
    rw [hitems, Nat.sub_eq_zero_of_le hle, List.drop_zero]
  · have hrotated := (List.rotate_perm m.array xs.length).symm.filterMap id
    rw [h.array_rotate hge] at hrotated
    exact hrotated.trans (List.Perm.of_eq (items_map_some _))

/-! ### From the first addition to the end -/

/-- **The matrix owns its items.**  After the additions `xs` it counts them all, shows the last `c`
at their indices, has no item in the slots not yet written, and has passed the others, in order and
once.  `free_matrix` then leaves no item out and passes none twice. -/
theorem ring_owns (c : ℕ) (hc : 0 < c) (overflow : Bool) {xs : List α} (hk : xs.length < 2 ^ 64)
    (hdistinct : xs.Nodup) {s : Owned α} (hs : (Owned.create c hc overflow).addAll xs = s) :
    s.matrix.getSize = xs.length
      ∧ (∀ i (h : i < xs.length), xs.length ≤ i + c → s.matrix.getElement i = some xs[i])
      ∧ (∀ i, xs.length ≤ i → i < c → s.matrix.getElement i = none)
      ∧ s.passed = (xs.take (xs.length - c)).map some ∧ s.passed.Nodup
      ∧ (items s.freeMatrix).Perm xs ∧ (items s.freeMatrix).Nodup := by
  have hhist : History s c xs := by
    have hcount : ([] : List α).length + xs.length < 2 ^ 64 := by rwa [List.length_nil, Nat.zero_add]
    have hall := (history_create c hc overflow).addAll hcount
    rwa [List.nil_append, hs] at hall
  have hperm : (items s.freeMatrix).Perm xs := by
    have hpassed : items s.passed = xs.take (xs.length - c) := by
      rw [hhist.passed_eq, items_map_some]
    have harray := hhist.holds.items_array
    rw [hhist.capacity_eq] at harray
    rw [Owned.freeMatrix, items, List.filterMap_append]
    show (items s.passed ++ items s.matrix.array).Perm xs
    rw [hpassed]
    exact (harray.append_left _).trans (List.Perm.of_eq (List.take_append_drop _ _))
  refine ⟨hhist.holds.size_eq, ?_, ?_, hhist.passed_eq, ?_, hperm, hperm.nodup_iff.mpr hdistinct⟩
  · intro i hi hwin
    exact hhist.holds.window i hi (by rwa [hhist.capacity_eq])
  · intro i hi hci
    exact hhist.holds.unwritten i hi (by rwa [hhist.capacity_eq])
  · rw [hhist.passed_eq]
    exact (hdistinct.sublist (List.take_sublist _ _)).map (Option.some_injective α)

/-- Five items in a matrix of three. -/
theorem ring_owns_five :
    ((Owned.create 3 (by decide) false).addAll [10, 11, 12, 13, 14]).passed
        = ([10, 11, 12, 13, 14].take (5 - 3)).map some
      ∧ (items ((Owned.create 3 (by decide) false).addAll [10, 11, 12, 13, 14]).freeMatrix).Perm
        [10, 11, 12, 13, 14] := by
  have howns := @ring_owns ℕ 3 (by decide) false [10, 11, 12, 13, 14] (by decide) (by decide) _ rfl
  exact ⟨howns.2.2.2.1, howns.2.2.2.2.2.1⟩

end Matrix

end MessageBoard
