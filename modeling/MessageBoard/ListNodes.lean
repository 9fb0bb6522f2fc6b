import MessageBoard.Lib.Chain

/-!
# `util_list`: the nodes in memory

The size of a list is a field beside the pointer to its head, and every operation changes links and
size on its own.  An access to memory that holds no node has no meaning.

* `Listed` — the nodes from the head on, as many as the size says;
* `Listed.pushItem`, `Listed.removeHead`, `Listed.removeNextNode` — these operations keep it, and leave
  the rest of the memory alone;
* `mergeLists_nodes` — `merge_lists` puts one chain in front of the other;
* `merge_lists_iff` — **the sizes agree afterwards** only if there was nothing to merge.
-/

namespace MessageBoard

open Chain

/-- `struct _stack`. -/
structure Stack where
  size : ℕ
  head : Option ℕ
  deriving DecidableEq

/-- `struct _node` is a cell; an item is stored in it. -/
abbrev Nodes (α : Type) := Memory α

namespace ListNodes

variable {α : Type}

/-! ### The operations -/

def createList : Stack := ⟨0, none⟩

/-- `push_node_to_list`. -/
def pushNode (memory : Nodes α) (l : Stack) (gotNode : ℕ) : Option (Nodes α × Stack) :=
  (read memory gotNode).map fun node =>
    (write memory gotNode { node with next := l.head }, ⟨l.size + 1, some gotNode⟩)

/-- `push_item_to_list`, with the address that `malloc` returns. -/
def pushItem (memory : Nodes α) (l : Stack) (newNode : ℕ) (newItem : α) : Option (Nodes α × Stack) :=
  (alloc memory newNode ⟨newItem, none⟩).bind fun memory => pushNode memory l newNode

/-- `size--` for a `size_t`. -/
def decrement (size : ℕ) : ℕ := if size = 0 then 2 ^ 64 - 1 else size - 1

/-- `remove_head`. -/
def removeHead (memory : Nodes α) (l : Stack) : Option (Nodes α × Stack) :=
  match l.head with
  | none => some (memory, l)
  | some auxNode =>
      (read memory auxNode).map fun node => (free memory auxNode, ⟨decrement l.size, node.next⟩)

/-- `remove_next_node` for a node of the list. -/
def removeNextNode (memory : Nodes α) (l : Stack) (curNode : ℕ) : Option (Nodes α × Stack) :=
  (read memory curNode).bind fun cur =>
    match cur.next with
    | none => some (memory, l)
    | some auxNode =>
        (read memory auxNode).map fun node =>
          (free (write memory curNode { cur with next := node.next }) auxNode,
            { l with size := decrement l.size })

/-- The item of a node is changed. -/
def setItem (memory : Nodes α) (gotNode : ℕ) (newItem : α) : Option (Nodes α) :=
  (read memory gotNode).map fun node => write memory gotNode { node with item := newItem }

/-- `free_connected_nodes`, at most so many turns. -/
def freeConnectedNodes : ℕ → Nodes α → Option ℕ → Option (Nodes α)
  | _, memory, none => some memory
  | 0, _, some _ => none
  | turns + 1, memory, some gotNode =>
      (read memory gotNode).bind fun node =>
        freeConnectedNodes turns (free memory gotNode) node.next

/-- `free_list`.  A walk of more turns than the memory has cells never ends. -/
def freeList (memory : Nodes α) (l : Stack) : Option (Nodes α) :=
  freeConnectedNodes memory.length memory l.head

/-- `while (aux_node->next)`, at most so many turns. -/
def lastNode (memory : Nodes α) : ℕ → ℕ → Option ℕ
  | 0, _ => none
  | turns + 1, auxNode =>
      (read memory auxNode).bind fun node =>
        match node.next with
        | none => some auxNode
        | some next => lastNode memory turns next

/-- The loop of `merge_lists`, and the link behind it. -/
def linkLast (memory : Nodes α) (auxNode finalHead : ℕ) : Option (Nodes α) :=
  (lastNode memory memory.length auxNode).bind fun auxNode =>
    (read memory auxNode).map fun node => write memory auxNode { node with next := some finalHead }

/-- `merge_lists`: the memory and both lists. -/
def mergeLists (memory : Nodes α) (listA listB : Stack) : Option (Nodes α × Stack × Stack) :=
  let finalSize := listA.size + listB.size
  match listA.head, listB.head with
  | none, head => some (memory, { listA with head := head }, { listB with head := none })
  | some _, none => some (memory, listA, listB)
  | some headA, some headB =>
      if listA.size < listB.size then
        (linkLast memory headA headB).map fun memory =>
          (memory, ⟨finalSize, some headA⟩, { listB with head := none })
      else
        (linkLast memory headB headA).map fun memory =>
          (memory, { listA with head := some headB }, ⟨finalSize, none⟩)

/-! ### Lists in memory -/

/-- The nodes from the head on are these, and the size says how many they are. -/
structure Listed (memory : Nodes α) (l : Stack) (nodes : List (ℕ × α)) : Prop where
  chained : Chained memory l.head nodes none
  sized : l.size = nodes.length

/-- An operation turns one list of nodes into another: it takes only cells that were free, and changes
none that is in neither list. -/
structure Confined (memory memory' : Nodes α) (nodes nodes' : List (ℕ × α)) : Prop where
  fresh : ∀ a ∈ addresses nodes', a ∈ addresses nodes ∨ read memory a = none
  untouched : ∀ a, a ∉ addresses nodes → a ∉ addresses nodes' → read memory' a = read memory a

variable {memory memory' : Nodes α} {l l' : Stack} {nodes : List (ℕ × α)}

theorem listed_createList : Listed memory createList [] := ⟨rfl, rfl⟩

theorem confined_refl (memory : Nodes α) (nodes : List (ℕ × α)) : Confined memory memory nodes nodes :=
  ⟨fun _ ha => Or.inl ha, fun _ _ _ => rfl⟩

/-- **A list at other addresses** is as it was, and still at other addresses. -/
theorem Listed.frame {other nodes' : List (ℕ × α)} (h : Listed memory l other)
    (hconfined : Confined memory memory' nodes nodes')
    (hdisjoint : (addresses other).Disjoint (addresses nodes)) :
    Listed memory' l other ∧ (addresses other).Disjoint (addresses nodes') := by
  have hother : ∀ a ∈ addresses other, a ∉ addresses nodes' := by
    intro a ha hmem
    rcases hconfined.fresh a hmem with hold | hnone
    · exact hdisjoint ha hold
    · exact h.chained.not_mem_of_read hnone ha
  exact ⟨⟨h.chained.congr fun a ha => hconfined.untouched a (fun hmem => hdisjoint ha hmem)
    (hother a ha), h.sized⟩, fun a ha hmem => hother a ha hmem⟩

/-- **`push_item_to_list`** adds a node in front, at an address that was free. -/
theorem Listed.pushItem (h : Listed memory l nodes) {a : ℕ} {x : α}
    (hpush : pushItem memory l a x = some (memory', l')) :
    Listed memory' l' ((a, x) :: nodes) ∧ Confined memory memory' nodes ((a, x) :: nodes) := by
  obtain ⟨fresh, halloc, hnode⟩ := Option.bind_eq_some_iff.mp hpush
  obtain ⟨hnone, hread, hother⟩ := read_alloc halloc
  obtain ⟨node, hsame, heq⟩ := Option.map_eq_some_iff.mp hnode
  obtain ⟨rfl, rfl⟩ := Prod.mk.inj heq
  rw [hread, Option.some.injEq] at hsame
  subst hsame
  have hmem : a ∉ addresses nodes := h.chained.not_mem_of_read hnone
  have hchain := h.chained.congr fun b hb => hother b (ne_of_mem_of_not_mem hb hmem)
  refine ⟨⟨hchain.push hread hmem, by rw [List.length_cons, h.sized]⟩, fun b hb => ?_, fun b _ hb => ?_⟩
  · rcases List.mem_cons.mp hb with rfl | hb
    · exact Or.inr hnone
    · exact Or.inl hb
  · rw [addresses_cons, List.mem_cons, not_or] at hb
    rw [read_write_of_ne hb.1, hother b hb.1]

/-- There is room for a node behind the last cell. -/
theorem pushItem_isSome (memory : Nodes α) (l : Stack) (x : α) :
    (pushItem memory l memory.length x).isSome = true := by
  obtain ⟨fresh, halloc⟩ : ∃ fresh, alloc memory memory.length ⟨x, none⟩ = some fresh :=
    ⟨_, if_pos rfl⟩
  rw [pushItem, halloc, Option.bind_some, pushNode, (read_alloc halloc).2.1]
  rfl

theorem decrement_succ (n : ℕ) : decrement (n + 1) = n := by
  rw [decrement, if_neg (Nat.succ_ne_zero n), Nat.add_sub_cancel]

/-- **`remove_head`** removes the first node. -/
theorem Listed.removeHead {a : ℕ} {x : α} (h : Listed memory l ((a, x) :: nodes)) :
    ∃ memory' l', removeHead memory l = some (memory', l') ∧ Listed memory' l' nodes
      ∧ Confined memory memory' ((a, x) :: nodes) nodes := by
  obtain ⟨hhead, next, hread, hrest⟩ := h.chained
  have hmem : a ∉ addresses nodes := h.chained.not_mem_tail
  refine ⟨free memory a, ⟨decrement l.size, next⟩, ?_, ⟨hrest.free hmem, ?_⟩,
    fun b hb => Or.inl (List.mem_cons_of_mem _ hb), fun b hb _ => ?_⟩
  · rw [ListNodes.removeHead, hhead]
    simp only [hread, Option.map_some]
  · rw [h.sized, List.length_cons, decrement_succ]
  · rw [addresses_cons, List.mem_cons, not_or] at hb
    exact read_free_of_ne hb.1

/-- **`remove_next_node`** removes the node behind another one. -/
theorem Listed.removeNextNode {xs ys : List (ℕ × α)} {a b : ℕ} {x y : α}
    (h : Listed memory l (xs ++ (b, y) :: (a, x) :: ys)) :
    ∃ memory' l', removeNextNode memory l b = some (memory', l')
      ∧ Listed memory' l' (xs ++ (b, y) :: ys)
      ∧ Confined memory memory' (xs ++ (b, y) :: (a, x) :: ys) (xs ++ (b, y) :: ys) := by
  obtain ⟨s, -, -, next, hreadB, hnext, next', hreadA, hrest⟩ := chained_append.mp h.chained
  have hb := h.chained.not_mem
  rw [addresses_cons, List.mem_cons, not_or] at hb
  have ha : a ∉ addresses (xs ++ [(b, y)]) ∧ a ∉ addresses ys :=
    Chained.not_mem (x := x) (by rw [List.append_assoc]; exact h.chained)
  have hlinked := h.chained.redirect y hrest hb.2.2
  have hfree : a ∉ addresses (xs ++ (b, y) :: ys) := by
    rw [List.append_cons, addresses_append, List.mem_append, not_or]
    exact ha
  refine ⟨free (write memory b ⟨y, next'⟩) a, { l with size := decrement l.size }, ?_,
    ⟨hlinked.free hfree, ?_⟩, fun c hc => Or.inl ?_, fun c hc _ => ?_⟩
  · rw [ListNodes.removeNextNode, hreadB, Option.bind_some, hnext]
    simp only [hreadA, Option.map_some]
  · show decrement l.size = _
    rw [h.sized]
    simp only [List.length_append, List.length_cons]
    exact decrement_succ _
  · simp only [addresses_append, addresses_cons, List.mem_append, List.mem_cons] at hc ⊢
    tauto
  · simp only [addresses_append, addresses_cons, List.mem_append, List.mem_cons, not_or] at hc
    rw [read_free_of_ne hc.2.2.1, read_write_of_ne hc.2.1]

/-- A new item for a node. -/
theorem Listed.setItem {xs ys : List (ℕ × α)} {a : ℕ} {x : α}
    (h : Listed memory l (xs ++ (a, x) :: ys)) (x' : α) :
    ∃ memory', setItem memory a x' = some memory' ∧ Listed memory' l (xs ++ (a, x') :: ys)
      ∧ Confined memory memory' (xs ++ (a, x) :: ys) (xs ++ (a, x') :: ys) := by
  obtain ⟨s, -, -, next, hread, hrest⟩ := chained_append.mp h.chained
  refine ⟨_, by rw [ListNodes.setItem, hread]; rfl,
    ⟨h.chained.redirect x' hrest h.chained.not_mem.2, ?_⟩, fun b hb => Or.inl ?_, fun b hb _ => ?_⟩
  · rw [h.sized, List.length_append, List.length_append, List.length_cons, List.length_cons]
  · rwa [addresses_append, addresses_cons] at hb ⊢
  · simp only [addresses_append, addresses_cons, List.mem_append, List.mem_cons, not_or] at hb
    exact read_write_of_ne hb.2.1 _

/-- `free_connected_nodes` goes through all nodes. -/
theorem freeConnectedNodes_chained {p : Option ℕ} (h : Chained memory p nodes none) {turns : ℕ}
    (hturns : nodes.length ≤ turns) : ∃ memory', freeConnectedNodes turns memory p = some memory'
      ∧ Confined memory memory' nodes [] := by
  induction nodes generalizing memory p turns with
  | nil =>
    obtain rfl : p = none := h
    exact ⟨memory, by cases turns <;> rfl, confined_refl memory []⟩
  | cons c nodes ih =>
    obtain ⟨a, x⟩ := c
    have hmem : a ∉ addresses nodes := h.not_mem_tail
    obtain ⟨rfl, next, hread, hrest⟩ := h
    cases turns with
    | zero => simp at hturns
    | succ turns =>
      obtain ⟨memory', hfree, hconfined⟩ := ih (hrest.free hmem) (by simpa using hturns)
      refine ⟨memory', by rw [freeConnectedNodes, hread]; exact hfree, fun b hb => by simp at hb,
        fun b hb hnil => ?_⟩
      rw [addresses_cons, List.mem_cons, not_or] at hb
      rw [hconfined.untouched b hb.2 hnil, read_free_of_ne hb.1]

/-- **`free_list`** frees the nodes of the list, and nothing else. -/
theorem Listed.freeList (h : Listed memory l nodes) : ∃ memory', freeList memory l = some memory'
    ∧ Confined memory memory' nodes [] :=
  freeConnectedNodes_chained h.chained h.chained.length_le

/-! ### `merge_lists` -/

/-- The walk ends at the last node. -/
theorem lastNode_chained {xs : List (ℕ × α)} {a p : ℕ} {x : α}
    (h : Chained memory (some p) (xs ++ [(a, x)]) none) {turns : ℕ} (hturns : xs.length < turns) :
    lastNode memory turns p = some a := by
  induction xs generalizing p turns with
  | nil =>
    obtain ⟨hp, next, hread, hnext⟩ := h
    obtain rfl := Option.some.inj hp
    obtain rfl : next = none := hnext
    cases turns with
    | zero => simp at hturns
    | succ turns => rw [lastNode, hread]; rfl
  | cons c xs ih =>
    obtain ⟨hp, next, hread, hrest⟩ := h
    obtain rfl := Option.some.inj hp
    cases turns with
    | zero => simp at hturns
    | succ turns =>
      obtain ⟨q, rfl⟩ : ∃ q, next = some q := by
        cases next with
        | some q => exact ⟨q, rfl⟩
        | none => cases xs <;> exact absurd hrest.1 (by simp)
      rw [lastNode, hread]
      exact ih hrest (by simpa using hturns)

/-- A chain is hung behind the last node of another. -/
theorem linkLast_chained {xs ys : List (ℕ × α)} {p q : ℕ} (hxs : Chained memory (some p) xs none)
    (hys : Chained memory (some q) ys none) (hdisjoint : (addresses xs).Disjoint (addresses ys)) :
    ∃ memory', linkLast memory p q = some memory' ∧ Chained memory' (some p) (xs ++ ys) none := by
  rcases List.eq_nil_or_concat xs with rfl | ⟨front, ⟨a, x⟩, rfl⟩
  · exact absurd hxs (by simp [Chained])
  · rw [List.concat_eq_append] at hxs hdisjoint ⊢
    have hlen := hxs.length_le
    rw [List.length_append, List.length_singleton] at hlen
    obtain ⟨next, hread⟩ := hxs.read_mem (a := a) (x := x) (by simp)
    have hlast : a ∉ addresses ys := hdisjoint (by simp)
    refine ⟨_, by rw [linkLast, lastNode_chained hxs (by omega), Option.bind_some, hread]; rfl, ?_⟩
    rw [List.append_assoc, List.singleton_append]
    exact hxs.redirect x hys hlast

/-- The list has the nodes of both, each chain in its order, and as many as its size says; nothing is
left of the other one. -/
def Merged (nodesA nodesB : List (ℕ × α)) (memory : Nodes α) (listA listB : Stack) : Prop :=
  ∃ nodes, Listed memory listA nodes ∧ nodes.Perm (nodesA ++ nodesB) ∧ nodesA.Sublist nodes
    ∧ nodesB.Sublist nodes ∧ Listed memory listB []

section Merge

variable {listA listB : Stack} {nodesA nodesB : List (ℕ × α)}

theorem head_isSome (h : Listed memory l nodes) (hne : nodes ≠ []) : ∃ p, l.head = some p := by
  cases nodes with
  | nil => contradiction
  | cons c nodes => exact ⟨_, h.chained.1⟩

/-- **One chain is put in front of the other**; a size is changed in the list that is empty afterwards,
or in the one that was the shorter. -/
theorem mergeLists_nodes (hA : Listed memory listA nodesA) (hB : Listed memory listB nodesB)
    (hdisjoint : (addresses nodesA).Disjoint (addresses nodesB)) :
    ∃ memory' listA' listB' nodes, mergeLists memory listA listB = some (memory', listA', listB')
      ∧ Chained memory' listA'.head nodes none ∧ listB'.head = none
      ∧ (nodes = nodesA ++ nodesB ∨ nodes = nodesB ++ nodesA)
      ∧ (nodesB = [] → listA'.size = nodesA.length ∧ listB'.size = 0)
      ∧ (nodesB ≠ [] → listA'.size = nodesA.length ∨ listB'.size = nodesB.length) := by
  have hsizeA := hA.sized
  have hsizeB := hB.sized
  rcases eq_or_ne nodesA [] with rfl | hneA
  · have hheadA : listA.head = none := hA.chained
    refine ⟨memory, { listA with head := listB.head }, { listB with head := none }, nodesB, ?_,
      hB.chained, rfl, Or.inl rfl, ?_, fun _ => Or.inl hsizeA⟩
    · rw [mergeLists, hheadA]
    · rintro rfl
      exact ⟨hsizeA, hsizeB⟩
  · obtain ⟨p, hp⟩ := head_isSome hA hneA
    rcases eq_or_ne nodesB [] with rfl | hneB
    · have hheadB : listB.head = none := hB.chained
      refine ⟨memory, listA, listB, nodesA, by rw [mergeLists, hp, hheadB], hA.chained, hheadB,
        Or.inr rfl, fun _ => ⟨hsizeA, hsizeB⟩, fun h => absurd rfl h⟩
    · obtain ⟨q, hq⟩ := head_isSome hB hneB
      have hchainA : Chained memory (some p) nodesA none := hp ▸ hA.chained
      have hchainB : Chained memory (some q) nodesB none := hq ▸ hB.chained
      by_cases hlt : listA.size < listB.size
      · obtain ⟨memory', hlink, hchain⟩ := linkLast_chained hchainA hchainB hdisjoint
        refine ⟨memory', ⟨listA.size + listB.size, some p⟩, { listB with head := none },
          nodesA ++ nodesB, ?_, hchain, rfl, Or.inl rfl, fun h => absurd h hneB,
          fun _ => Or.inr hsizeB⟩
        simp only [mergeLists, hp, hq]
        rw [if_pos hlt, hlink]
        rfl
      · obtain ⟨memory', hlink, hchain⟩ := linkLast_chained hchainB hchainA hdisjoint.symm
        refine ⟨memory', { listA with head := some q }, ⟨listA.size + listB.size, none⟩,
          nodesB ++ nodesA, ?_, hchain, rfl, Or.inr rfl, fun h => absurd h hneB,
          fun _ => Or.inl hsizeA⟩
        simp only [mergeLists, hp, hq]
        rw [if_neg hlt, hlink]
        rfl

/-- **No node is lost, but the sizes agree afterwards** only if the second list is empty. -/
theorem merge_lists_iff (hA : Listed memory listA nodesA) (hB : Listed memory listB nodesB)
    (hdisjoint : (addresses nodesA).Disjoint (addresses nodesB)) :
    (∃ memory' listA' listB', mergeLists memory listA listB = some (memory', listA', listB')
      ∧ Merged nodesA nodesB memory' listA' listB') ↔ nodesB = [] := by
  obtain ⟨memory', listA', listB', nodes, hmerge, hchain, hnone, hnodes, hempty, hsize⟩ :=
    mergeLists_nodes hA hB hdisjoint
  have hperm : nodes.Perm (nodesA ++ nodesB) := by
    rcases hnodes with rfl | rfl
    · exact List.Perm.refl _
    · exact List.perm_append_comm
  constructor
  · rintro ⟨memory'', listA'', listB'', hmerge', nodes', hlisted, -, -, -, hlistedB⟩
    rw [hmerge, Option.some.injEq, Prod.mk.injEq, Prod.mk.injEq] at hmerge'
    obtain ⟨rfl, rfl, rfl⟩ := hmerge'
    by_contra hne
    have hpos := List.length_pos_iff.mpr hne
    have hlen := hperm.length_eq
    rw [hlisted.chained.unique hchain] at hlisted
    have hsizeA := hlisted.sized
    have hsizeB := hlistedB.sized
    rw [List.length_append] at hlen
    rw [List.length_nil] at hsizeB
    rcases hsize hne with h | h <;> omega
  · intro hnil
    obtain ⟨hsizeA, hsizeB⟩ := hempty hnil
    subst hnil
    have hlen := hperm.length_eq
    have hsame : nodes = nodesA := by simpa using hnodes
    refine ⟨memory', listA', listB', hmerge, nodes, ⟨hchain, by rw [hsizeA, hsame]⟩, hperm,
      by rw [hsame], List.nil_sublist _, ⟨hnone, hsizeB⟩⟩

theorem listed_one : Listed ([some ⟨7, none⟩] : Nodes ℕ) ⟨1, some 0⟩ [(0, 7)] :=
  ⟨⟨rfl, none, rfl, rfl⟩, rfl⟩

/-- Three nodes in the memory of two lists, the second of two. -/
def threeNodes : Nodes ℕ := [some ⟨7, none⟩, some ⟨8, some 2⟩, some ⟨9, none⟩]

/-- A list and an empty one, and two lists with nodes. -/
theorem merge_lists_iff_nodes : (∃ memory' listA' listB',
    mergeLists [some ⟨7, none⟩] ⟨1, some 0⟩ createList = some (memory', listA', listB')
      ∧ Merged [(0, 7)] [] memory' listA' listB')
    ∧ ¬∃ memory' listA' listB',
      mergeLists threeNodes ⟨1, some 0⟩ ⟨2, some 1⟩ = some (memory', listA', listB')
        ∧ Merged [(0, 7)] [(1, 8), (2, 9)] memory' listA' listB' := by
  have hfirst : Listed threeNodes ⟨1, some 0⟩ [(0, 7)] := ⟨⟨rfl, none, rfl, rfl⟩, rfl⟩
  have hsecond : Listed threeNodes ⟨2, some 1⟩ [(1, 8), (2, 9)] :=
    ⟨⟨rfl, some 2, rfl, rfl, none, rfl, rfl⟩, rfl⟩
  constructor
  · exact (merge_lists_iff listed_one listed_createList (List.disjoint_nil_right _)).mpr rfl
  · intro hmerged
    have hnil := (merge_lists_iff hfirst hsecond (by simp [addresses, List.Disjoint])).mp hmerged
    simp at hnil

/-- **An empty list and a list of one node**: the node is moved, but not the size. -/
theorem size_left_behind : ¬∀ (memory : Nodes ℕ) (listA listB : Stack) (nodesA nodesB : List (ℕ × ℕ)),
    Listed memory listA nodesA → Listed memory listB nodesB →
    (addresses nodesA).Disjoint (addresses nodesB) →
    ∃ memory' listA' listB', mergeLists memory listA listB = some (memory', listA', listB')
      ∧ Merged nodesA nodesB memory' listA' listB' := by
  intro h
  have hmerge : mergeLists [some ⟨7, none⟩] createList ⟨1, some 0⟩
      = some ([some ⟨7, none⟩], ⟨0, some 0⟩, ⟨1, none⟩) := rfl
  obtain ⟨memory', listA', listB', heq, nodes, -, -, -, -, hlisted⟩ :=
    h [some ⟨7, none⟩] createList ⟨1, some 0⟩ [] [(0, 7)] listed_createList listed_one
      (List.disjoint_nil_left _)
  rw [hmerge, Option.some.injEq, Prod.mk.injEq, Prod.mk.injEq] at heq
  obtain ⟨-, -, rfl⟩ := heq
  exact absurd hlisted.sized (by decide)

end Merge

end ListNodes

end MessageBoard
