import Mathlib

/-!
# `util_list`: the linked list

The nodes from the head on, with the size that every operation keeps up, and `for_each_element`,
whose action may change the item and what it is given besides.
-/

namespace MessageBoard

/-- `struct _stack`. -/
structure LinkedList (α : Type) where
  size : ℕ
  nodes : List α
  sized : size = nodes.length

namespace LinkedList

variable {α : Type}

def createList : LinkedList α := ⟨0, [], rfl⟩

/-- `push_item_to_list`: the new node is the head. -/
def pushItem (l : LinkedList α) (item : α) : LinkedList α :=
  ⟨l.size + 1, item :: l.nodes, by rw [l.sized, List.length_cons]⟩

@[simp] theorem nodes_createList : (createList : LinkedList α).nodes = [] := rfl

@[simp] theorem nodes_pushItem (l : LinkedList α) (item : α) :
    (l.pushItem item).nodes = item :: l.nodes := rfl

/-- The nodes say everything. -/
theorem ext_nodes {l l' : LinkedList α} (h : l.nodes = l'.nodes) : l = l' := by
  obtain ⟨size, nodes, sized⟩ := l
  obtain ⟨size', nodes', sized'⟩ := l'
  obtain rfl : nodes = nodes' := h
  rw [mk.injEq]
  exact ⟨sized.trans sized'.symm, rfl⟩

end LinkedList

/-! ### `for_each_element` -/

section ForEach

variable {α σ : Type}

def forEachElement (action : α → σ → Option (α × σ)) : List α → σ → Option (List α × σ)
  | [], s => some ([], s)
  | item :: rest, s =>
      (action item s).bind fun r =>
        (forEachElement action rest r.2).map fun q => (r.1 :: q.1, q.2)

/-- A loop over an item and the rest: the call on the item, and a loop over the rest. -/
theorem forEachElement_cons {action : α → σ → Option (α × σ)} {item : α} {rest : List α} {s : σ}
    {r : List α × σ} (h : forEachElement action (item :: rest) s = some r) :
    ∃ q r', action item s = some q ∧ forEachElement action rest q.2 = some r'
      ∧ r = (q.1 :: r'.1, r'.2) := by
  obtain ⟨q, hq, hrest⟩ := Option.bind_eq_some_iff.mp h
  obtain ⟨r', hr', rfl⟩ := Option.map_eq_some_iff.mp hrest
  exact ⟨q, r', hq, hr', rfl⟩

/-- Every call of the action has a property of its item and of what it is given. -/
def EachCall (action : α → σ → Option (α × σ)) (P : α → σ → Prop) : List α → σ → Prop
  | [], _ => True
  | item :: rest, s => P item s ∧ ∀ r, action item s = some r → EachCall action P rest r.2

end ForEach

end MessageBoard
