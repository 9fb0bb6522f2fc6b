import MessageBoard.ClientLists

/-!
# How a client selects a server

The list of the message servers and the banned list lie in one memory.  The calls that make, shorten
and change them are taken in any order here, with any addresses that `malloc` may return; the search
block of the main loop is such a sequence.

* `step_refines`, `run_refines` — the lists in memory do what the lists of servers do;
* `searchLoop_kept` — **the inner loop of the search block ends** before the list does;
* `selection_in_range` — the size is the number of nodes in every state, and what rests on that.
-/

namespace MessageBoard

open CText Chain ListNodes ClientLists Run

namespace ServerSelection

/-! ### The two lists -/

/-- The lists of `main`, and the memory of their nodes. -/
structure Lists where
  memory : Nodes Server
  msgservers : Stack
  banservers : Stack

inductive Call where
  /-- A list is freed, and a new one made with the addresses that `malloc` returns. -/
  | parseServers (idServInfo : Text) (newNodes : List ℕ)
  | remAwolServer (awolServer : Server)
  | banServer (serverToBan : Server) (hs : Rmb.PortsFit serverToBan) (newNode : ℕ)
  | isBanned (serverToCheck : Server)

def step (w : Lists) : Call → Option Lists
  | .parseServers idServInfo newNodes =>
      (freeList w.memory w.msgservers).bind fun memory =>
        (ClientLists.parseServers memory idServInfo newNodes).map fun r =>
          { w with memory := r.1, msgservers := r.2 }
  | .remAwolServer awolServer =>
      (remAwolServer w.memory w.msgservers awolServer).map fun r =>
        { w with memory := r.1, msgservers := r.2 }
  | .banServer serverToBan _ newNode =>
      (banServer w.memory w.banservers newNode serverToBan).map fun r =>
        { w with memory := r.1, banservers := r.2 }
  | .isBanned serverToCheck =>
      (isBanned w.memory w.banservers serverToCheck).map fun r => { w with memory := r.2 }

/-- Both lists are empty; what else is in memory does not matter. -/
def start (memory : Nodes Server) : Lists := ⟨memory, createList, createList⟩

/-- Both lists are listed, at different addresses. -/
structure Kept (w : Lists) (servers banned : List (ℕ × Server)) : Prop where
  listed : Listed w.memory w.msgservers servers
  bannedListed : Listed w.memory w.banservers banned
  separate : (addresses servers).Disjoint (addresses banned)

theorem kept_start (memory : Nodes Server) : Kept (start memory) [] [] :=
  ⟨listed_createList, listed_createList, List.disjoint_nil_left _⟩

/-! ### Refinement -/

/-- The calls on the servers of the two lists. -/
def abstractStep (lists : List Server × List Server) : Call → Option (List Server × List Server)
  | .parseServers idServInfo _ => (Rmb.parseServers idServInfo).map fun l => (l.nodes, lists.2)
  | .remAwolServer awolServer => some (Rmb.remAwolServer lists.1 awolServer, lists.2)
  | .banServer serverToBan _ _ => some (lists.1, Rmb.banServer lists.2 serverToBan)
  | .isBanned serverToCheck => some (lists.1, (Rmb.isBanned lists.2 serverToCheck).2)

variable {w w' : Lists} {servers banned : List (ℕ × Server)}

/-- **One call** in memory is the call on the servers. -/
theorem step_refines (h : Kept w servers banned) {call : Call} (hstep : step w call = some w') :
    ∃ servers' banned', Kept w' servers' banned'
      ∧ abstractStep (items servers, items banned) call = some (items servers', items banned') := by
  cases call with
  | parseServers idServInfo newNodes =>
    obtain ⟨fresh, hfree, hparse⟩ := Option.bind_eq_some_iff.mp hstep
    obtain ⟨⟨memory', l'⟩, hcall, rfl⟩ := Option.map_eq_some_iff.mp hparse
    obtain ⟨memory, hfreed, hconfined⟩ := h.listed.freeList
    rw [hfree, Option.some.injEq] at hfreed
    subst hfreed
    obtain ⟨hbanned, -⟩ := h.bannedListed.frame hconfined h.separate.symm
    obtain ⟨servers', parsed, hlisted, hparsed, hitems, hframe⟩ := parseServers_listed hcall
    obtain ⟨hbanned', hdisjoint⟩ := hframe _ _ hbanned
    refine ⟨servers', banned, ⟨hlisted, hbanned', hdisjoint.symm⟩, ?_⟩
    rw [abstractStep, hparsed, hitems]
    rfl
  | remAwolServer awolServer =>
    obtain ⟨⟨memory', l'⟩, hcall, rfl⟩ := Option.map_eq_some_iff.mp hstep
    obtain ⟨memory, l, servers', heq, hlisted, hconfined, hnodes⟩ := remAwolServer_listed h.listed awolServer
    rw [hcall, Option.some.injEq, Prod.mk.injEq] at heq
    obtain ⟨rfl, rfl⟩ := heq
    obtain ⟨hbanned, hdisjoint⟩ := h.bannedListed.frame hconfined h.separate.symm
    exact ⟨servers', banned, ⟨hlisted, hbanned, hdisjoint.symm⟩, by
      rw [abstractStep, items_remAwolServer hnodes]⟩
  | banServer serverToBan hs newNode =>
    obtain ⟨⟨memory', l'⟩, hcall, rfl⟩ := Option.map_eq_some_iff.mp hstep
    obtain ⟨banned', hlisted, hconfined, hnodes⟩ := banServer_listed h.bannedListed hs hcall
    obtain ⟨hservers, hdisjoint⟩ := h.listed.frame hconfined h.separate
    exact ⟨servers, banned', ⟨hservers, hlisted, hdisjoint⟩, by
      rw [abstractStep, items_banServer hnodes]⟩
  | isBanned serverToCheck =>
    obtain ⟨⟨answer, memory'⟩, hcall, rfl⟩ := Option.map_eq_some_iff.mp hstep
    obtain ⟨answer', memory, banned', heq, hlisted, hconfined, hnodes⟩ := isBanned_listed h.bannedListed serverToCheck
    rw [hcall, Option.some.injEq, Prod.mk.injEq] at heq
    obtain ⟨rfl, rfl⟩ := heq
    obtain ⟨hservers, hdisjoint⟩ := h.listed.frame hconfined h.separate
    exact ⟨servers, banned', ⟨hservers, hlisted, hdisjoint⟩, by
      rw [abstractStep, items_isBanned hnodes]⟩

/-- **Any calls** in memory are the calls on the servers. -/
theorem run_refines (h : Kept w servers banned) {calls : List Call} (hrun : run step w calls = some w') :
    ∃ servers' banned', Kept w' servers' banned'
      ∧ run abstractStep (items servers, items banned) calls = some (items servers', items banned') := by
  induction calls generalizing w servers banned with
  | nil =>
    obtain rfl := Option.some.inj hrun
    exact ⟨servers, banned, h, rfl⟩
  | cons call calls ih =>
    obtain ⟨w₁, hstep, hrest⟩ := Option.bind_eq_some_iff.mp hrun
    obtain ⟨servers₁, banned₁, hkept, habstract⟩ := step_refines h hstep
    obtain ⟨servers', banned', hkept', hrun'⟩ := ih hkept hrest
    exact ⟨servers', banned', hkept', by rw [run_cons, habstract]; exact hrun'⟩

/-! ### The search block -/

/-- What the condition of the `while` looks at: the server selected, and whether it is banned. -/
def test (w : Lists) (rand : ℕ) : Option (Lists × Option ℕ × Bool) :=
  (selectServer w.memory w.msgservers rand).bind fun selServer =>
    match selServer with
    | none => some (w, none, false)
    | some node =>
        (read w.memory node).bind fun cell =>
          (isBanned w.memory w.banservers cell.item).map fun r =>
            ({ w with memory := r.2 }, some node, r.1)

/-- `select_server` and the inner `while`, with at most so many calls of `rem_awol_server`: the server
found, and how many calls there were. -/
def searchLoop (rand : ℕ → ℕ) : ℕ → Lists → Option (Lists × Option ℕ × ℕ)
  | 0, w =>
      (test w (rand 0)).bind fun t => if t.2.2 then none else some (t.1, t.2.1, 0)
  | turns + 1, w =>
      (test w (rand (turns + 1))).bind fun t =>
        match t.2 with
        | (some node, true) =>
            (read t.1.memory node).bind fun cell =>
              (step t.1 (.remAwolServer cell.item)).bind fun w =>
                (searchLoop rand turns w).map fun r => (r.1, r.2.1, r.2.2 + 1)
        | (selServer, _) => some (t.1, selServer, 0)

/-- What a test finds: nothing in an empty list, and otherwise a server of the list. -/
theorem test_kept (h : Kept w servers banned) (rand : ℕ) : ∃ w' sel answer banned',
    test w rand = some (w', sel, answer) ∧ Kept w' servers banned'
      ∧ (servers = [] ∧ sel = none ∧ answer = false ∧ banned' = banned
        ∨ ∃ a x, servers[rand % servers.length]? = some (a, x) ∧ sel = some a
          ∧ Rmb.isBanned (items banned) x = (answer, items banned')) := by
  rw [test, selectServer_listed h.listed rand, Option.bind_some]
  cases hnode : servers[rand % servers.length]? with
  | none =>
    have hnil : servers = [] := by
      by_contra hne
      have hlt := Nat.mod_lt rand (List.length_pos_iff.mpr hne)
      rw [List.getElem?_eq_none_iff] at hnode
      omega
    exact ⟨w, none, false, banned, rfl, h, Or.inl ⟨hnil, rfl, rfl, rfl⟩⟩
  | some node =>
    obtain ⟨a, x⟩ := node
    obtain ⟨next, hread⟩ := h.listed.chained.read_mem (List.mem_of_getElem? hnode)
    obtain ⟨answer, memory', banned', hcall, hlisted, hconfined, hnodes⟩ :=
      isBanned_listed h.bannedListed x
    obtain ⟨hservers, hdisjoint⟩ := h.listed.frame hconfined h.separate
    refine ⟨{ w with memory := memory' }, some a, answer, banned', ?_, ⟨hservers, hlisted, hdisjoint⟩,
      Or.inr ⟨a, x, rfl, rfl, items_isBanned hnodes⟩⟩
    simp only [Option.map_some, hread, Option.bind_some, hcall]

/-- **A server of the list is removed**: exactly one node, and the others stay in order. -/
theorem remAwolServer_mem (h : Kept w servers banned) {s : Server} (hs : s ∈ items servers) :
    ∃ w' xs node ys, servers = xs ++ node :: ys ∧ step w (.remAwolServer s) = some w'
      ∧ Kept w' (xs ++ ys) banned ∧ items (xs ++ ys) = Rmb.remAwolServer (items servers) s := by
  obtain ⟨memory', l', servers', hcall, hlisted, hconfined, hnodes⟩ := remAwolServer_listed h.listed s
  obtain ⟨hbanned, hdisjoint⟩ := h.bannedListed.frame hconfined h.separate.symm
  have hitems := items_remAwolServer hnodes
  rcases hnodes with ⟨habsent, -⟩ | ⟨xs, a, x, ys, hfirst, rfl⟩
  · have hdifferent := absent_items habsent s hs
    rw [differentServers_self] at hdifferent
    exact Bool.noConfusion hdifferent
  · exact ⟨_, xs, (a, x), ys, hfirst.nodes_eq, by rw [step, hcall]; rfl,
      ⟨hlisted, hbanned, hdisjoint.symm⟩, hitems⟩

/-- **The inner loop ends** after no more calls of `rem_awol_server` than there are nodes, and with what
the search on the servers finds. -/
theorem searchLoop_kept (rand : ℕ → ℕ) {turns : ℕ} (hturns : servers.length ≤ turns)
    (h : Kept w servers banned) : ∃ w' sel removed servers' banned',
    searchLoop rand turns w = some (w', sel, removed) ∧ Kept w' servers' banned'
      ∧ servers'.Sublist servers ∧ servers'.length + removed = servers.length
      ∧ ∃ found, Rmb.searchLoop rand (turns + 1) (items servers) (items banned)
          = (found.map Prod.snd, items servers', items banned')
        ∧ found.map Prod.fst = sel ∧ ∀ node, found = some node → node ∈ servers' := by
  induction turns generalizing w servers banned with
  | zero =>
    have hnil : servers = [] := List.length_eq_zero_iff.mp (by omega)
    subst hnil
    obtain ⟨w', sel, answer, banned', htest, hkept, ⟨-, rfl, rfl, rfl⟩ | ⟨a, x, hnode, -⟩⟩ :=
      test_kept h (rand 0)
    · exact ⟨w', none, 0, [], banned', by rw [searchLoop, htest]; rfl, hkept, List.Sublist.refl _, rfl,
        none, rfl, rfl, by simp⟩
    · simp at hnode
  | succ turns ih =>
    obtain ⟨w₁, sel, answer, banned₁, htest, hkept, hsel⟩ := test_kept h (rand (turns + 1))
    rw [searchLoop, htest, Option.bind_some, Rmb.searchLoop, items_selectServer]
    rcases hsel with ⟨rfl, rfl, rfl, rfl⟩ | ⟨a, x, hnode, rfl, hanswer⟩
    · exact ⟨w₁, none, 0, [], banned₁, rfl, hkept, List.Sublist.refl _, rfl, none, rfl, rfl, by simp⟩
    · have hmem := List.mem_of_getElem? hnode
      rw [hnode]
      simp only [Option.map_some, hanswer]
      cases answer with
      | false => exact ⟨w₁, some a, 0, servers, banned₁, rfl, hkept, List.Sublist.refl _, rfl,
          some (a, x), rfl, rfl, by simpa using hmem⟩
      | true =>
        obtain ⟨next, hread⟩ := hkept.listed.chained.read_mem hmem
        have hx : x ∈ items servers := List.mem_map_of_mem (f := Prod.snd) hmem
        obtain ⟨w₂, xs, node, ys, rfl, hstep, hkept₂, hitems⟩ := remAwolServer_mem hkept hx
        simp only [List.length_append, List.length_cons] at hturns
        obtain ⟨w', sel, removed, servers', banned', hloop, hkept', hsub, hlen, found, hsearch, hsame,
          hfound⟩ := ih (by rw [List.length_append]; omega) hkept₂
        refine ⟨w', sel, removed + 1, servers', banned', ?_, hkept',
          hsub.trans ((List.sublist_cons_self node ys).append_left xs), ?_, found, ?_, hsame, hfound⟩
        · simp only [hread, Option.bind_some, hstep, hloop, Option.map_some]
        · rw [List.length_append] at hlen
          rw [List.length_append, List.length_cons]
          omega
        · rw [if_pos rfl, ← hitems]
          exact hsearch

/-! ### Any run -/

/-- What the size of a list is needed for: a server is selected from any list but the empty one, one that
is removed takes one node with it, and the inner loop of the search block ends. -/
structure InRange (w : Lists) (servers : List (ℕ × Server)) : Prop where
  listed : Listed w.memory w.msgservers servers
  selected : ∀ rand, ∃ sel, selectServer w.memory w.msgservers rand = some sel
    ∧ (sel = none ↔ servers = []) ∧ ∀ a, sel = some a → a ∈ addresses servers
  removed : ∀ s ∈ items servers, ∃ w' xs node ys, servers = xs ++ node :: ys
    ∧ step w (.remAwolServer s) = some w' ∧ Listed w'.memory w'.msgservers (xs ++ ys)
  ends : ∀ rand turns, servers.length ≤ turns → ∃ w' sel removed servers',
    searchLoop rand turns w = some (w', sel, removed) ∧ removed ≤ servers.length
      ∧ Listed w'.memory w'.msgservers servers' ∧ servers'.Sublist servers
      ∧ servers'.length + removed = servers.length

/-- **The size is the number of nodes** after any calls, so the selection is in range and the search
ends. -/
theorem selection_in_range {memory : Nodes Server} {calls : List Call}
    (hrun : run step (start memory) calls = some w) : ∃ servers, InRange w servers := by
  obtain ⟨servers, banned, hkept, -⟩ := run_refines (kept_start memory) hrun
  refine ⟨servers, hkept.listed, fun rand => ?_, fun s hs => ?_, fun rand turns hturns => ?_⟩
  · refine ⟨_, selectServer_listed hkept.listed rand, ?_, fun a ha => ?_⟩
    · rw [Option.map_eq_none_iff, List.getElem?_eq_none_iff]
      constructor
      · intro hle
        by_contra hne
        exact absurd (Nat.mod_lt rand (List.length_pos_iff.mpr hne)) (by omega)
      · rintro rfl
        exact Nat.zero_le _
    · obtain ⟨node, hnode, rfl⟩ := Option.map_eq_some_iff.mp ha
      exact List.mem_map_of_mem (List.mem_of_getElem? hnode)
  · obtain ⟨w', xs, node, ys, heq, hstep, hkept', -⟩ := remAwolServer_mem hkept hs
    exact ⟨w', xs, node, ys, heq, hstep, hkept'.listed⟩
  · obtain ⟨w', sel, removed, servers', banned', hloop, hkept', hsub, hlen, -⟩ :=
      searchLoop_kept rand hturns hkept
    exact ⟨w', sel, removed, servers', hloop, by omega, hkept'.listed, hsub, hlen⟩

theorem selection_in_range_two : ∃ w, run step (start []) [.parseServers
    (ascii "SERVERS\na;1.1.1.1;1;2\nb;2.2.2.2;3;4\n") [0, 1], .isBanned (Rmb.host 1)] = some w
      ∧ ∃ servers, InRange w servers := by
  obtain ⟨w, hw⟩ := Option.isSome_iff_exists.mp (show (run step (start []) [.parseServers
    (ascii "SERVERS\na;1.1.1.1;1;2\nb;2.2.2.2;3;4\n") [0, 1], .isBanned (Rmb.host 1)]).isSome = true by
      decide +kernel)
  exact ⟨w, hw, selection_in_range hw⟩

end ServerSelection

end MessageBoard
