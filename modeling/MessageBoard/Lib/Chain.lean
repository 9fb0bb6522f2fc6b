import Mathlib

/-!
# Chains of cells in a memory

A memory is a list of cells, which is read by address; a cell that was freed is `none`.  Each cell has
an item and the address of the next one.  `Chained memory p cells q` says that the cells, each with its
address, are met in this order from the pointer `p` on, and that `q` follows them.

* `chained_append` — a chain is one part of it and then the other;
* `Chained.congr` — what is written elsewhere leaves a chain as it is;
* `Chained.unique`, `Chained.nodup` — a chain that ends is determined by its first pointer, and meets no
  address twice;
* `Chained.length_le` — it is no longer than the memory;
* `Chained.redirect` — **one write** changes an item or what follows it: this inserts, removes, joins.
-/

namespace MessageBoard.Chain

variable {α : Type}

structure Cell (α : Type) where
  item : α
  next : Option ℕ
  deriving DecidableEq

/-- Memory by address. -/
abbrev Memory (α : Type) := List (Option (Cell α))

def read (memory : Memory α) (a : ℕ) : Option (Cell α) := memory[a]?.join

def write (memory : Memory α) (a : ℕ) (cell : Cell α) : Memory α := memory.set a (some cell)

def free (memory : Memory α) (a : ℕ) : Memory α := memory.set a none

/-- The address is one that the allocator may choose: a freed one, or the next. -/
def alloc (memory : Memory α) (a : ℕ) (cell : Cell α) : Option (Memory α) :=
  if a = memory.length then some (memory ++ [some cell])
  else if (memory[a]?.any Option.isNone) = true then some (write memory a cell)
  else none

/-- The cells from `p` up to `q`. -/
def Chained (memory : Memory α) : Option ℕ → List (ℕ × α) → Option ℕ → Prop
  | p, [], q => p = q
  | p, (a, x) :: cells, q =>
      p = some a ∧ ∃ next, read memory a = some ⟨x, next⟩ ∧ Chained memory next cells q

def addresses (cells : List (ℕ × α)) : List ℕ := cells.map Prod.fst

def items (cells : List (ℕ × α)) : List α := cells.map Prod.snd

/-! ### Memory -/

theorem lt_of_read {memory : Memory α} {a : ℕ} {cell : Cell α} (h : read memory a = some cell) :
    a < memory.length := by
  by_contra hlt
  rw [read, List.getElem?_eq_none (by omega)] at h
  simp at h

theorem read_set_of_ne {memory : Memory α} {a b : ℕ} (hne : b ≠ a) (cell : Option (Cell α)) :
    read (memory.set a cell) b = read memory b := by
  rw [read, List.getElem?_set_ne hne.symm, read]

theorem read_write_self {memory : Memory α} {a : ℕ} {old : Cell α} (h : read memory a = some old)
    (cell : Cell α) : read (write memory a cell) a = some cell := by
  rw [read, write, List.getElem?_set_self (lt_of_read h)]
  rfl

theorem read_write_of_ne {memory : Memory α} {a b : ℕ} (hne : b ≠ a) (cell : Cell α) :
    read (write memory a cell) b = read memory b := read_set_of_ne hne _

theorem read_free_of_ne {memory : Memory α} {a b : ℕ} (hne : b ≠ a) :
    read (free memory a) b = read memory b := read_set_of_ne hne _

/-- An allocation takes an address that nothing is stored at, and changes no other. -/
theorem read_alloc {memory memory' : Memory α} {a : ℕ} {cell : Cell α}
    (h : alloc memory a cell = some memory') : read memory a = none
      ∧ read memory' a = some cell ∧ ∀ b, b ≠ a → read memory' b = read memory b := by
  rw [alloc] at h
  split at h
  · rename_i hlen
    obtain rfl := Option.some.inj h
    refine ⟨by rw [read, List.getElem?_eq_none hlen.ge]; rfl, ?_, fun b hne => ?_⟩
    · rw [read, List.getElem?_append_right hlen.ge, hlen, Nat.sub_self]
      rfl
    · rcases Nat.lt_or_ge b memory.length with hlt | hge
      · rw [read, List.getElem?_append_left hlt, read]
      · rw [read, List.getElem?_append_right hge, List.getElem?_eq_none (by
          rw [List.length_singleton]
          omega), read, List.getElem?_eq_none hge]
  · split at h
    · rename_i hfree
      obtain rfl := Option.some.inj h
      obtain ⟨slot, hslot, hnone⟩ := (Option.any_eq_true _ _).mp hfree
      obtain ⟨hlt, -⟩ := List.getElem?_eq_some_iff.mp hslot
      refine ⟨?_, ?_, fun b hne => read_write_of_ne hne cell⟩
      · rw [read, hslot, Option.isNone_iff_eq_none.mp hnone]
        rfl
      · rw [read, write, List.getElem?_set_self hlt]
        rfl
    · simp at h

/-! ### Chains -/

@[simp] theorem addresses_append (xs ys : List (ℕ × α)) :
    addresses (xs ++ ys) = addresses xs ++ addresses ys := List.map_append

@[simp] theorem addresses_cons (c : ℕ × α) (cells : List (ℕ × α)) :
    addresses (c :: cells) = c.1 :: addresses cells := rfl

@[simp] theorem addresses_nil : addresses ([] : List (ℕ × α)) = [] := rfl

@[simp] theorem items_append (xs ys : List (ℕ × α)) : items (xs ++ ys) = items xs ++ items ys :=
  List.map_append

@[simp] theorem items_cons (c : ℕ × α) (cells : List (ℕ × α)) :
    items (c :: cells) = c.2 :: items cells := rfl

@[simp] theorem items_nil : items ([] : List (ℕ × α)) = [] := rfl

variable {memory memory' : Memory α} {p q r : Option ℕ} {cells : List (ℕ × α)}

/-- **A chain is one part of it and then the other.** -/
theorem chained_append {xs ys : List (ℕ × α)} : Chained memory p (xs ++ ys) q
    ↔ ∃ r, Chained memory p xs r ∧ Chained memory r ys q := by
  induction xs generalizing p with
  | nil => simp [Chained]
  | cons c xs ih =>
    rw [List.cons_append, Chained]
    constructor
    · rintro ⟨hp, next, hread, hrest⟩
      obtain ⟨r, hxs, hys⟩ := ih.mp hrest
      exact ⟨r, ⟨hp, next, hread, hxs⟩, hys⟩
    · rintro ⟨r, ⟨hp, next, hread, hxs⟩, hys⟩
      exact ⟨hp, next, hread, ih.mpr ⟨r, hxs, hys⟩⟩

/-- What is stored at the address of a cell. -/
theorem Chained.read_mem (h : Chained memory p cells q) {a : ℕ} {x : α} (hmem : (a, x) ∈ cells) :
    ∃ next, read memory a = some ⟨x, next⟩ := by
  obtain ⟨xs, ys, rfl⟩ := List.append_of_mem hmem
  obtain ⟨r, -, -, next, hread, -⟩ := chained_append.mp h
  exact ⟨next, hread⟩

theorem Chained.read_address (h : Chained memory p cells q) {a : ℕ} (ha : a ∈ addresses cells) :
    ∃ cell, read memory a = some cell := by
  obtain ⟨⟨b, x⟩, hmem, rfl⟩ := List.mem_map.mp ha
  obtain ⟨next, hread⟩ := h.read_mem hmem
  exact ⟨_, hread⟩

/-- Nothing is stored at an address that is not in use. -/
theorem Chained.not_mem_of_read (h : Chained memory p cells q) {a : ℕ} (ha : read memory a = none) :
    a ∉ addresses cells := by
  intro hmem
  obtain ⟨cell, hread⟩ := h.read_address hmem
  rw [ha] at hread
  simp at hread

/-- **What is written elsewhere** leaves a chain as it is. -/
theorem Chained.congr (h : Chained memory p cells q)
    (hread : ∀ a ∈ addresses cells, read memory' a = read memory a) : Chained memory' p cells q := by
  induction cells generalizing p with
  | nil => exact h
  | cons c cells ih =>
    obtain ⟨hp, next, hc, hrest⟩ := h
    exact ⟨hp, next, by rw [hread _ List.mem_cons_self, hc],
      ih hrest fun a ha => hread a (List.mem_cons_of_mem _ ha)⟩

/-- **A chain that ends** is determined by its first pointer. -/
theorem Chained.unique {cells' : List (ℕ × α)} (h : Chained memory p cells none)
    (h' : Chained memory p cells' none) : cells = cells' := by
  induction cells generalizing p cells' with
  | nil =>
    cases cells' with
    | nil => rfl
    | cons c cells' => exact absurd (h.symm.trans h'.1) (by simp)
  | cons c cells ih =>
    cases cells' with
    | nil => exact absurd (h'.symm.trans h.1) (by simp)
    | cons c' cells' =>
      obtain ⟨hp, next, hread, hrest⟩ := h
      obtain ⟨hp', next', hread', hrest'⟩ := h'
      have ha : c.1 = c'.1 := Option.some.inj (hp.symm.trans hp')
      rw [ha, hread', Option.some.injEq, Cell.mk.injEq] at hread
      obtain ⟨hx, rfl⟩ := hread
      rw [ih hrest hrest', Prod.ext ha hx.symm]

/-- It meets no address twice. -/
theorem Chained.nodup (h : Chained memory p cells none) : (addresses cells).Nodup := by
  induction cells generalizing p with
  | nil => exact List.nodup_nil
  | cons c cells ih =>
    obtain ⟨hp, next, hread, hrest⟩ := h
    refine List.nodup_cons.mpr ⟨fun hmem => ?_, ih hrest⟩
    obtain ⟨⟨a, x⟩, hc, hsame⟩ := List.mem_map.mp hmem
    obtain ⟨xs, ys, rfl⟩ := List.append_of_mem hc
    obtain ⟨r, -, htail⟩ := chained_append.mp hrest
    have hsecond : r = p := by rw [htail.1, hp, ← hsame]
    have hfirst : Chained memory p (c :: (xs ++ (a, x) :: ys)) none := ⟨hp, next, hread, hrest⟩
    have heq := hfirst.unique (hsecond ▸ htail)
    have hlen := congrArg List.length heq
    simp only [List.length_cons, List.length_append] at hlen
    omega

/-- It is no longer than the memory. -/
theorem Chained.length_le (h : Chained memory p cells none) : cells.length ≤ memory.length := by
  have hsub : addresses cells ⊆ List.range memory.length := by
    intro a ha
    obtain ⟨cell, hread⟩ := h.read_address ha
    exact List.mem_range.mpr (lt_of_read hread)
  have hle := (h.nodup.subperm hsub).length_le
  rwa [addresses, List.length_map, List.length_range] at hle

theorem Chained.not_mem_tail {a : ℕ} {x : α} (h : Chained memory p ((a, x) :: cells) none) :
    a ∉ addresses cells := (List.nodup_cons.mp h.nodup).1

/-- The address of a cell is not met in front of it, and not behind it. -/
theorem Chained.not_mem {xs ys : List (ℕ × α)} {a : ℕ} {x : α}
    (h : Chained memory p (xs ++ (a, x) :: ys) none) : a ∉ addresses xs ∧ a ∉ addresses ys := by
  have hnodup := h.nodup
  rw [addresses_append, addresses_cons, List.nodup_append] at hnodup
  obtain ⟨-, hcons, hdisjoint⟩ := hnodup
  exact ⟨fun hmem => hdisjoint a hmem a List.mem_cons_self rfl, (List.nodup_cons.mp hcons).1⟩

/-- **One write** at a cell: it has the new item, and is followed by what the new pointer leads to. -/
theorem Chained.redirect {xs ys zs : List (ℕ × α)} {a : ℕ} {x : α}
    (h : Chained memory p (xs ++ (a, x) :: ys) none) (x' : α) (hzs : Chained memory q zs r)
    (ha : a ∉ addresses zs) : Chained (write memory a ⟨x', q⟩) p (xs ++ (a, x') :: zs) r := by
  obtain ⟨s, hxs, hs, next, hread, -⟩ := chained_append.mp h
  have hframe : ∀ l : List (ℕ × α), a ∉ addresses l →
      ∀ b ∈ addresses l, read (write memory a ⟨x', q⟩) b = read memory b :=
    fun l hl b hb => read_write_of_ne (ne_of_mem_of_not_mem hb hl) _
  exact chained_append.mpr ⟨s, hxs.congr (hframe xs h.not_mem.1), hs, q, read_write_self hread _,
    hzs.congr (hframe zs ha)⟩

/-- A new cell in front. -/
theorem Chained.push (h : Chained memory p cells q) {a : ℕ} {x : α} {old : Cell α}
    (hread : read memory a = some old) (ha : a ∉ addresses cells) :
    Chained (write memory a ⟨x, p⟩) (some a) ((a, x) :: cells) q :=
  ⟨rfl, p, read_write_self hread _,
    h.congr fun _ hb => read_write_of_ne (ne_of_mem_of_not_mem hb ha) _⟩

/-- A cell that is freed belongs to no other chain. -/
theorem Chained.free (h : Chained memory p cells q) {a : ℕ} (ha : a ∉ addresses cells) :
    Chained (free memory a) p cells q :=
  h.congr fun _ hb => read_free_of_ne (ne_of_mem_of_not_mem hb ha)

end MessageBoard.Chain
