import MessageBoard.ListNodes
import MessageBoard.RmbIdentity
import MessageBoard.SearchBlock

/-!
# The lists of a client in memory

`rem_awol_server` and `is_server_in_list` walk a list with a pointer to a node and one to the node
behind it, and what is found there is removed or changed in place.  A server is stored in its node, so
the address of the node stands for the pointer to the server.  A ban time is an integer here.

* `search_listed` — **the walk finds the first server that is the same**, with the node in front of it;
* `selectServer_listed` — `rand` modulo the size never steps past the last node;
* `remAwolServer_listed`, `banServer_listed`, `isBanned_listed`, `parseServers_listed` — what the calls
  make of the nodes, and that they do the same to the servers as the functions on lists.
-/

namespace MessageBoard

open CText CScan Chain ListNodes

namespace ClientLists

/-! ### The calls -/

/-- The loop over `aux_node` and `next_node`, at most so many turns: both, where `next_node` passes. -/
def walk (memory : Nodes Server) (same : Server → Bool) : ℕ → ℕ → Option ℕ → Option (Option (ℕ × ℕ))
  | _, _, none => some none
  | 0, _, some _ => none
  | turns + 1, auxNode, some nextNode =>
      (read memory nextNode).bind fun node =>
        if same node.item then some (some (auxNode, nextNode))
        else walk memory same turns nextNode node.next

/-- The search that `rem_awol_server` and `is_server_in_list` have in common: the head is looked at
first.  The node in front of the one found is there unless that is the head. -/
def search (memory : Nodes Server) (same : Server → Bool) (l : Stack) :
    Option (Option (Option ℕ × ℕ)) :=
  match l.head with
  | none => some none
  | some head =>
      (read memory head).bind fun node =>
        if same node.item then some (some (none, head))
        else
          (walk memory same memory.length head node.next).map fun found =>
            found.map fun pair => (some pair.1, pair.2)

/-- `rem_awol_server`. -/
def remAwolServer (memory : Nodes Server) (serverList : Stack) (awolServer : Server) :
    Option (Nodes Server × Stack) :=
  (search memory (fun s => !differentServers s awolServer) serverList).bind fun found =>
    match found with
    | none => some (memory, serverList)
    | some (none, _) => removeHead memory serverList
    | some (some auxNode, _) => removeNextNode memory serverList auxNode

/-- `is_server_in_list`. -/
def isServerInList (memory : Nodes Server) (listOfBanned : Stack) (serverToCheck : Server) :
    Option (Option ℕ) :=
  (search memory (fun s => !differentServers s serverToCheck) listOfBanned).map fun found =>
    found.map Prod.snd

/-- `ban_server`, with the address that `malloc` returns for a new node. -/
def banServer (memory : Nodes Server) (listOfBanned : Stack) (newNode : ℕ) (serverToBan : Server) :
    Option (Nodes Server × Stack) :=
  let memServer := Rmb.setBanTime serverToBan.copy Rmb.serverBanTime
  (isServerInList memory listOfBanned memServer).bind fun found =>
    match found with
    | none => pushItem memory listOfBanned newNode memServer
    | some serverToUpdate =>
        (read memory serverToUpdate).bind fun node =>
          if node.item.fd < 0 then
            (setItem memory serverToUpdate (Rmb.setBanTime node.item Rmb.serverBanTime)).map fun memory =>
              (memory, listOfBanned)
          else some (memory, listOfBanned)

/-- `is_banned`: the answer and the memory. -/
def isBanned (memory : Nodes Server) (listOfBanned : Stack) (serverToCheck : Server) :
    Option (Bool × Nodes Server) :=
  (isServerInList memory listOfBanned serverToCheck).bind fun found =>
    match found with
    | none => some (false, memory)
    | some serverToUpdate =>
        (read memory serverToUpdate).bind fun node =>
          (setItem memory serverToUpdate (Rmb.setBanTime node.item (node.item.fd - 1))).map fun memory =>
            (decide (0 ≤ node.item.fd - 1), memory)

/-- `i` times `get_next_node`, and the node is looked at: a null pointer is not. -/
def advance (memory : Nodes Server) : ℕ → ℕ → Option ℕ
  | 0, node => (read memory node).map fun _ => node
  | i + 1, node => (read memory node).bind fun cell => cell.next.bind (advance memory i)

/-- `select_server`: the node of the server, or `NULL`.  There is no remainder modulo zero. -/
def selectServer (memory : Nodes Server) (serverList : Stack) (rand : ℕ) : Option (Option ℕ) :=
  match serverList.head with
  | none => some none
  | some head =>
      if serverList.size = 0 then none
      else (advance memory (rand % serverList.size) head).map some

/-- The loop of `parse_servers`, with the addresses that `malloc` returns. -/
def parseLines (memory : Nodes Server) (msgservList : Stack) :
    List Text → List ℕ → Option (Nodes Server × Stack)
  | [], _ => some (memory, msgservList)
  | separatedInfo :: rest, newNodes =>
      let fields := scan serverFormat separatedInfo
      if Rmb.overruns fields then none
      else
        match fields with
        | [.text name, .text ipAddr, .num udpPort, .num tcpPort] =>
            newNodes.head?.bind fun newNode =>
              (pushItem memory msgservList newNode
                { Server.new name ipAddr udpPort tcpPort with fd := -2, connected := false }).bind fun r =>
                  parseLines r.1 r.2 rest newNodes.tail
        | _ => some (memory, msgservList)

/-- `parse_servers`. -/
def parseServers (memory : Nodes Server) (idServInfo : Text) (newNodes : List ℕ) :
    Option (Nodes Server × Stack) :=
  parseLines memory createList ((tokens (· == newline) idServInfo).drop 1) newNodes

/-! ### The search -/

variable {memory memory' : Nodes Server} {l l' : Stack} {nodes : List (ℕ × Server)}

/-- Where a search stops: at the first node that passes, if there is one. -/
inductive FirstOf (same : Server → Bool) (nodes : List (ℕ × Server)) : Option (Option ℕ × ℕ) → Prop
  | none (h : ∀ node ∈ nodes, same node.2 = false) : FirstOf same nodes none
  | some {xs ys : List (ℕ × Server)} {a : ℕ} {x : Server} (hnodes : nodes = xs ++ (a, x) :: ys)
      (hfront : ∀ node ∈ xs, same node.2 = false) (hsame : same x = true) :
      FirstOf same nodes (some (xs.getLast?.map Prod.fst, a))

/-- The walk over the nodes behind another one. -/
theorem walk_chained (same : Server → Bool) {p : Option ℕ} (h : Chained memory p nodes none) {turns : ℕ}
    (hturns : nodes.length ≤ turns) (b : ℕ) {y : Server} (hy : same y = false) :
    ∃ found, walk memory same turns b p = some found
      ∧ FirstOf same ((b, y) :: nodes) (found.map fun pair => (some pair.1, pair.2)) := by
  induction nodes generalizing p turns b y with
  | nil =>
    obtain rfl : p = none := h
    refine ⟨none, by cases turns <;> rfl, FirstOf.none ?_⟩
    simpa using hy
  | cons c nodes ih =>
    obtain ⟨a, x⟩ := c
    obtain ⟨rfl, next, hread, hrest⟩ := h
    cases turns with
    | zero => simp at hturns
    | succ turns =>
      rw [walk, hread, Option.bind_some]
      cases hx : same x with
      | true =>
        have hnodes : (b, y) :: (a, x) :: nodes = [(b, y)] ++ (a, x) :: nodes := rfl
        exact ⟨_, rfl, FirstOf.some hnodes (by simpa using hy) hx⟩
      | false =>
        obtain ⟨found, hwalk, hfirst⟩ := ih hrest (by simpa using hturns) a hx
        refine ⟨found, hwalk, ?_⟩
        generalize found.map (fun pair => (some pair.1, pair.2)) = r at hfirst
        cases hfirst with
        | none hall => exact FirstOf.none (List.forall_mem_cons.mpr ⟨hy, hall⟩)
        | @some xs ys a' x' hnodes hfront hsame =>
          have hcons : ((b, y) :: (a, x) :: nodes) = ((b, y) :: xs) ++ (a', x') :: ys := by
            rw [hnodes, List.cons_append]
          cases xs with
          | nil =>
            -- the head passes, which was looked at before
            obtain ⟨heq, -⟩ := List.cons.inj hnodes
            rw [← (Prod.mk.inj heq).2, hx] at hsame
            exact Bool.noConfusion hsame
          | cons d xs =>
            have hlast : (((b, y) :: d :: xs).getLast?.map Prod.fst) = ((d :: xs).getLast?.map Prod.fst) :=
              rfl
            rw [← hlast]
            exact FirstOf.some hcons (List.forall_mem_cons.mpr ⟨hy, hfront⟩) hsame

/-- **The search finds the first server that passes**, with the node in front of it. -/
theorem search_listed (same : Server → Bool) (h : Listed memory l nodes) :
    ∃ found, search memory same l = some found ∧ FirstOf same nodes found := by
  have hchain := h.chained
  have hlen := h.chained.length_le
  rw [search]
  cases nodes with
  | nil =>
    rw [show l.head = none from hchain]
    exact ⟨none, rfl, FirstOf.none (by simp)⟩
  | cons c nodes =>
    obtain ⟨a, x⟩ := c
    obtain ⟨hhead, next, hread, hrest⟩ := hchain
    rw [hhead]
    simp only [hread, Option.bind_some]
    cases hx : same x with
    | true =>
      have hnodes : (a, x) :: nodes = [] ++ (a, x) :: nodes := rfl
      exact ⟨_, rfl, FirstOf.some hnodes (by simp) hx⟩
    | false =>
      have hturns : nodes.length ≤ memory.length := by
        rw [List.length_cons] at hlen
        omega
      obtain ⟨found, hwalk, hfirst⟩ := walk_chained same hrest hturns a hx
      rw [if_neg Bool.false_ne_true, hwalk]
      exact ⟨_, rfl, hfirst⟩

/-- No node has the same server. -/
def Absent (s : Server) (nodes : List (ℕ × Server)) : Prop :=
  ∀ node ∈ nodes, differentServers node.2 s = true

/-- The first node with the same server. -/
structure First (s : Server) (nodes xs : List (ℕ × Server)) (a : ℕ) (x : Server)
    (ys : List (ℕ × Server)) : Prop where
  nodes_eq : nodes = xs ++ (a, x) :: ys
  front : Absent s xs
  same : differentServers x s = false

/-- What `rem_awol_server` leaves: every node but the first with the server. -/
def Removed (s : Server) (nodes nodes' : List (ℕ × Server)) : Prop :=
  Absent s nodes ∧ nodes' = nodes ∨ ∃ xs a x ys, First s nodes xs a x ys ∧ nodes' = xs ++ ys

/-- What `is_banned` leaves and answers: the ban time of the first node with the server is reduced. -/
def Tested (s : Server) (nodes nodes' : List (ℕ × Server)) (answer : Bool) : Prop :=
  Absent s nodes ∧ nodes' = nodes ∧ answer = false
    ∨ ∃ xs a x ys, First s nodes xs a x ys
      ∧ nodes' = xs ++ (a, Rmb.setBanTime x (x.fd - 1)) :: ys ∧ answer = decide (0 ≤ x.fd - 1)

/-- What `ban_server` leaves: a new node, or a ban that has run out and is renewed. -/
def Renewed (newNode : ℕ) (s : Server) (nodes nodes' : List (ℕ × Server)) : Prop :=
  Absent s nodes ∧ nodes' = (newNode, Rmb.setBanTime s.copy Rmb.serverBanTime) :: nodes
    ∨ ∃ xs b x ys, First s nodes xs b x ys
      ∧ nodes' = xs ++ (b, if x.fd < 0 then Rmb.setBanTime x Rmb.serverBanTime else x) :: ys

theorem search_server (h : Listed memory l nodes) (s : Server) :
    (Absent s nodes ∧ search memory (fun t => !differentServers t s) l = some none)
      ∨ ∃ xs a x ys, First s nodes xs a x ys ∧ search memory (fun t => !differentServers t s) l
        = some (some (xs.getLast?.map Prod.fst, a)) := by
  obtain ⟨found, hsearch, hfirst⟩ := search_listed (fun t => !differentServers t s) h
  cases hfirst with
  | none hall => exact Or.inl ⟨fun node hnode => by simpa using hall node hnode, hsearch⟩
  | some hnodes hfront hsame =>
    exact Or.inr ⟨_, _, _, _,
      ⟨hnodes, fun node hnode => by simpa using hfront node hnode, by simpa using hsame⟩, hsearch⟩

theorem isServerInList_listed (h : Listed memory l nodes) (s : Server) :
    (Absent s nodes ∧ isServerInList memory l s = some none)
      ∨ ∃ xs a x ys, First s nodes xs a x ys ∧ isServerInList memory l s = some (some a) := by
  rcases search_server h s with ⟨habsent, hsearch⟩ | ⟨xs, a, x, ys, hfirst, hsearch⟩
  · exact Or.inl ⟨habsent, by rw [isServerInList, hsearch]; rfl⟩
  · exact Or.inr ⟨xs, a, x, ys, hfirst, by rw [isServerInList, hsearch]; rfl⟩

/-! ### The servers in the nodes -/

theorem absent_items {s : Server} (h : Absent s nodes) : ∀ t ∈ items nodes, differentServers t s = true := by
  intro t ht
  obtain ⟨node, hnode, rfl⟩ := List.mem_map.mp ht
  exact h node hnode

theorem remAwolServer_of_absent {servers : List Server} {s : Server}
    (h : ∀ t ∈ servers, differentServers t s = true) : Rmb.remAwolServer servers s = servers := by
  induction servers with
  | nil => rfl
  | cons t servers ih =>
    rw [Rmb.remAwolServer, if_pos (h t List.mem_cons_self),
      ih fun u hu => h u (List.mem_cons_of_mem t hu)]

theorem remAwolServer_first {front rest : List Server} {s x : Server}
    (h : ∀ t ∈ front, differentServers t s = true) (hx : differentServers x s = false) :
    Rmb.remAwolServer (front ++ x :: rest) s = front ++ rest := by
  induction front with
  | nil => rw [List.nil_append, Rmb.remAwolServer, hx, if_neg Bool.false_ne_true, List.nil_append]
  | cons t front ih =>
    rw [List.cons_append, Rmb.remAwolServer, if_pos (h t List.mem_cons_self),
      ih fun u hu => h u (List.mem_cons_of_mem t hu), List.cons_append]

theorem isBanned_of_absent {banned : List Server} {s : Server}
    (h : ∀ t ∈ banned, differentServers t s = true) : Rmb.isBanned banned s = (false, banned) := by
  induction banned with
  | nil => rfl
  | cons t banned ih =>
    rw [Rmb.isBanned, if_pos (h t List.mem_cons_self), ih fun u hu => h u (List.mem_cons_of_mem t hu)]

theorem isBanned_first {front rest : List Server} {s x : Server}
    (h : ∀ t ∈ front, differentServers t s = true) (hx : differentServers x s = false) :
    Rmb.isBanned (front ++ x :: rest) s
      = (decide (0 ≤ x.fd - 1), front ++ Rmb.setBanTime x (x.fd - 1) :: rest) := by
  induction front with
  | nil => rw [List.nil_append, Rmb.isBanned, hx, if_neg Bool.false_ne_true, List.nil_append]
  | cons t front ih =>
    rw [List.cons_append, Rmb.isBanned, if_pos (h t List.mem_cons_self),
      ih fun u hu => h u (List.mem_cons_of_mem t hu), List.cons_append]

theorem renewBan_first {front rest : List Server} {s x : Server}
    (h : ∀ t ∈ front, differentServers t s = true) (hx : differentServers x s = false) :
    Rmb.renewBan (front ++ x :: rest) s
      = front ++ (if x.fd < 0 then Rmb.setBanTime x Rmb.serverBanTime else x) :: rest := by
  induction front with
  | nil => rw [List.nil_append, Rmb.renewBan, hx, if_neg Bool.false_ne_true, List.nil_append]
  | cons t front ih =>
    rw [List.cons_append, Rmb.renewBan, if_pos (h t List.mem_cons_self),
      ih fun u hu => h u (List.mem_cons_of_mem t hu), List.cons_append]

/-! ### What the calls do to a list -/

/-- **`rem_awol_server`** removes the first node with the server, from any position. -/
theorem remAwolServer_listed (h : Listed memory l nodes) (s : Server) :
    ∃ memory' l' nodes', remAwolServer memory l s = some (memory', l') ∧ Listed memory' l' nodes'
      ∧ Confined memory memory' nodes nodes' ∧ Removed s nodes nodes' := by
  rcases search_server h s with ⟨habsent, hsearch⟩ | ⟨xs, a, x, ys, hfirst, hsearch⟩
  · exact ⟨memory, l, nodes, by rw [remAwolServer, hsearch]; rfl, h, confined_refl memory nodes,
      Or.inl ⟨habsent, rfl⟩⟩
  · rw [remAwolServer, hsearch, Option.bind_some]
    have hnodes := hfirst.nodes_eq
    rcases List.eq_nil_or_concat xs with rfl | ⟨front, ⟨b, y⟩, rfl⟩
    · subst hnodes
      obtain ⟨memory', l', hremove, hlisted, hconfined⟩ := h.removeHead
      exact ⟨memory', l', ys, hremove, hlisted, hconfined, Or.inr ⟨_, _, _, _, hfirst, rfl⟩⟩
    · rw [List.concat_eq_append] at hfirst hnodes ⊢
      rw [List.append_assoc, List.singleton_append] at hnodes
      subst hnodes
      obtain ⟨memory', l', hremove, hlisted, hconfined⟩ := h.removeNextNode
      refine ⟨memory', l', front ++ (b, y) :: ys, ?_, hlisted, hconfined,
        Or.inr ⟨_, _, _, _, hfirst, by rw [List.append_assoc, List.singleton_append]⟩⟩
      rw [List.getLast?_append_of_ne_nil front (by simp), List.getLast?_singleton]
      exact hremove

/-- What it does to the servers. -/
theorem items_remAwolServer {nodes' : List (ℕ × Server)} {s : Server} (h : Removed s nodes nodes') :
    items nodes' = Rmb.remAwolServer (items nodes) s := by
  rcases h with ⟨habsent, rfl⟩ | ⟨xs, a, x, ys, ⟨rfl, hfront, hsame⟩, rfl⟩
  · rw [remAwolServer_of_absent (absent_items habsent)]
  · rw [items_append, items_append, items_cons, remAwolServer_first (absent_items hfront) hsame]

/-- **`is_banned`** changes at most the first node with the server. -/
theorem isBanned_listed (h : Listed memory l nodes) (s : Server) :
    ∃ answer memory' nodes', isBanned memory l s = some (answer, memory') ∧ Listed memory' l nodes'
      ∧ Confined memory memory' nodes nodes' ∧ Tested s nodes nodes' answer := by
  rcases isServerInList_listed h s with ⟨habsent, hsearch⟩ | ⟨xs, a, x, ys, hfirst, hsearch⟩
  · exact ⟨false, memory, nodes, by rw [isBanned, hsearch]; rfl, h, confined_refl memory nodes,
      Or.inl ⟨habsent, rfl, rfl⟩⟩
  · have hnodes := hfirst.nodes_eq
    subst hnodes
    obtain ⟨next, hread⟩ := h.chained.read_mem (a := a) (x := x) (by simp)
    obtain ⟨memory', hset, hlisted, hconfined⟩ := h.setItem (Rmb.setBanTime x (x.fd - 1))
    refine ⟨_, memory', _, ?_, hlisted, hconfined, Or.inr ⟨_, _, _, _, hfirst, rfl, rfl⟩⟩
    rw [isBanned, hsearch, Option.bind_some]
    simp only [hread, Option.bind_some, hset, Option.map_some]

theorem items_isBanned {nodes' : List (ℕ × Server)} {s : Server} {answer : Bool}
    (h : Tested s nodes nodes' answer) :
    Rmb.isBanned (items nodes) s = (answer, items nodes') := by
  rcases h with ⟨habsent, rfl, rfl⟩ | ⟨xs, a, x, ys, ⟨rfl, hfront, hsame⟩, rfl, rfl⟩
  · exact isBanned_of_absent (absent_items habsent)
  · rw [items_append, items_append, items_cons, items_cons, isBanned_first (absent_items hfront) hsame]

/-- **`ban_server`** adds a node for a server that has none, and changes at most the first node with
the server. -/
theorem banServer_listed (h : Listed memory l nodes) {a : ℕ} {s : Server} (hs : Rmb.PortsFit s)
    (hcall : banServer memory l a s = some (memory', l')) :
    ∃ nodes', Listed memory' l' nodes' ∧ Confined memory memory' nodes nodes'
      ∧ Renewed a s nodes nodes' := by
  have hcopy : ∀ t : Server, differentServers t (Rmb.setBanTime s.copy Rmb.serverBanTime)
      = differentServers t s := by
    intro t
    rw [differentServers_comm, differentServers_comm t s]
    exact Rmb.differentServers_copy hs t
  have hfind : isServerInList memory l (Rmb.setBanTime s.copy Rmb.serverBanTime)
      = isServerInList memory l s := by
    simp only [isServerInList, hcopy]
  simp only [banServer, hfind] at hcall
  rcases isServerInList_listed h s with ⟨habsent, hsearch⟩ | ⟨xs, b, x, ys, hfirst, hsearch⟩
  · rw [hsearch, Option.bind_some] at hcall
    obtain ⟨hlisted, hconfined⟩ := h.pushItem hcall
    exact ⟨_, hlisted, hconfined, Or.inl ⟨habsent, rfl⟩⟩
  · have hnodes := hfirst.nodes_eq
    subst hnodes
    obtain ⟨next, hread⟩ := h.chained.read_mem (a := b) (x := x) (by simp)
    rw [hsearch, Option.bind_some] at hcall
    simp only [hread, Option.bind_some] at hcall
    by_cases hover : x.fd < 0
    · obtain ⟨fresh, hset, hlisted, hconfined⟩ := h.setItem (Rmb.setBanTime x Rmb.serverBanTime)
      rw [if_pos hover, hset, Option.map_some, Option.some.injEq, Prod.mk.injEq] at hcall
      obtain ⟨rfl, rfl⟩ := hcall
      exact ⟨_, hlisted, hconfined, Or.inr ⟨_, _, _, _, hfirst, by rw [if_pos hover]⟩⟩
    · rw [if_neg hover, Option.some.injEq, Prod.mk.injEq] at hcall
      obtain ⟨rfl, rfl⟩ := hcall
      exact ⟨_, h, confined_refl _ _, Or.inr ⟨_, _, _, _, hfirst, by rw [if_neg hover]⟩⟩

/-- It is never stuck if `malloc` returns the address behind the last cell. -/
theorem banServer_isSome (h : Listed memory l nodes) (s : Server) :
    (banServer memory l memory.length s).isSome = true := by
  rcases isServerInList_listed h (Rmb.setBanTime s.copy Rmb.serverBanTime) with
    ⟨-, hsearch⟩ | ⟨xs, b, x, ys, hfirst, hsearch⟩
  · simp only [banServer, hsearch, Option.bind_some]
    exact pushItem_isSome memory l _
  · have hnodes := hfirst.nodes_eq
    subst hnodes
    obtain ⟨next, hread⟩ := h.chained.read_mem (a := b) (x := x) (by simp)
    obtain ⟨fresh, hset, -⟩ := h.setItem (Rmb.setBanTime x Rmb.serverBanTime)
    simp only [banServer, hsearch, Option.bind_some, hread, hset]
    split <;> rfl

theorem items_banServer {nodes' : List (ℕ × Server)} {a : ℕ} {s : Server}
    (h : Renewed a s nodes nodes') :
    items nodes' = Rmb.banServer (items nodes) s := by
  rcases h with ⟨habsent, rfl⟩ | ⟨xs, b, x, ys, ⟨rfl, hfront, hsame⟩, rfl⟩
  · have hnone : Rmb.isServerInList (items nodes) s = none := by
      rw [Rmb.isServerInList, List.find?_eq_none]
      intro t ht
      simp [absent_items habsent t ht]
    rw [Rmb.banServer, hnone]
    rfl
  · have hfound : Rmb.isServerInList (items xs ++ x :: items ys) s = some x := by
      rw [Rmb.isServerInList, List.find?_append, List.find?_eq_none.mpr, List.find?_cons_of_pos]
      · rfl
      · simp [hsame]
      · intro t ht
        simp [absent_items hfront t ht]
    rw [items_append, items_append, items_cons, items_cons, Rmb.banServer, hfound]
    exact (renewBan_first (absent_items hfront) hsame).symm

/-! ### Selection -/

/-- Fewer steps than there are nodes lead to a node. -/
theorem advance_chained {p i : ℕ} (h : Chained memory (some p) nodes none) {node : ℕ × Server}
    (hnode : nodes[i]? = some node) : advance memory i p = some node.1 := by
  induction nodes generalizing p i with
  | nil => simp at hnode
  | cons c nodes ih =>
    obtain ⟨hp, next, hread, hrest⟩ := h
    obtain rfl := Option.some.inj hp
    cases i with
    | zero =>
      rw [List.getElem?_cons_zero, Option.some.injEq] at hnode
      rw [advance, hread, ← hnode]
      rfl
    | succ i =>
      rw [List.getElem?_cons_succ] at hnode
      cases nodes with
      | nil => simp at hnode
      | cons d nodes =>
        obtain rfl : next = some d.1 := hrest.1
        rw [advance, hread, Option.bind_some, Option.bind_some]
        exact ih hrest hnode

/-- **`select_server`** takes the node at `rand() % size`, whatever `rand` is. -/
theorem selectServer_listed (h : Listed memory l nodes) (rand : ℕ) :
    selectServer memory l rand = some ((nodes[rand % nodes.length]?).map Prod.fst) := by
  cases nodes with
  | nil =>
    rw [selectServer, show l.head = none from h.chained]
    rfl
  | cons c nodes =>
    obtain ⟨node, hnode⟩ : ∃ node, (c :: nodes)[rand % (c :: nodes).length]? = some node :=
      ⟨_, List.getElem?_eq_getElem (Nat.mod_lt rand (by simp))⟩
    have hchain : Chained memory (some c.1) (c :: nodes) none := h.chained.1 ▸ h.chained
    have hsize : (c :: nodes).length ≠ 0 := by simp
    rw [selectServer, h.chained.1]
    simp only [h.sized, if_neg hsize, advance_chained hchain hnode, hnode, Option.map_some]

/-- What it does with the servers. -/
theorem items_selectServer (nodes : List (ℕ × Server)) (rand : ℕ) :
    Rmb.selectServer rand (items nodes) = (nodes[rand % nodes.length]?).map Prod.snd := by
  rw [Rmb.selectServer]
  cases nodes with
  | nil => rfl
  | cons c nodes =>
    rw [if_neg (by simp), items, List.length_map, List.getElem?_map]

/-! ### The lines of the id server -/

theorem parseLines_listed {lines : List Text} {newNodes : List ℕ} {msgservList : LinkedList Server}
    (h : Listed memory l nodes) (hitems : items nodes = msgservList.nodes)
    (hcall : parseLines memory l lines newNodes = some (memory', l')) :
    ∃ nodes' parsed, Listed memory' l' nodes' ∧ Rmb.parseLines msgservList lines = some parsed
      ∧ items nodes' = parsed.nodes ∧ ∀ (l₂ : Stack) (other : List (ℕ × Server)), Listed memory l₂ other →
        (addresses other).Disjoint (addresses nodes) →
        Listed memory' l₂ other ∧ (addresses other).Disjoint (addresses nodes') := by
  induction lines generalizing memory l nodes newNodes msgservList with
  | nil =>
    obtain ⟨rfl, rfl⟩ := Prod.mk.inj (Option.some.inj hcall)
    exact ⟨nodes, msgservList, h, rfl, hitems, fun _ _ hother hdisjoint => ⟨hother, hdisjoint⟩⟩
  | cons line lines ih =>
    cases hover : Rmb.overruns (scan serverFormat line) with
    | true => simp [parseLines, hover] at hcall
    | false =>
      by_cases hwhole : ∃ name ipAddr udpPort tcpPort,
          scan serverFormat line = [.text name, .text ipAddr, .num udpPort, .num tcpPort]
      · obtain ⟨name, ipAddr, udpPort, tcpPort, hscan⟩ := hwhole
        rw [hscan] at hover
        rw [parseLines, hscan, if_neg (by simp [hover])] at hcall
        obtain ⟨newNode, -, hrest⟩ := Option.bind_eq_some_iff.mp hcall
        obtain ⟨r, hpush, hlines⟩ := Option.bind_eq_some_iff.mp hrest
        obtain ⟨hlisted, hconfined⟩ := h.pushItem hpush
        have hpushed : items ((newNode, { Server.new name ipAddr udpPort tcpPort with
              fd := -2, connected := false }) :: nodes)
            = (msgservList.pushItem { Server.new name ipAddr udpPort tcpPort with
              fd := -2, connected := false }).nodes := by
          rw [items_cons, hitems, LinkedList.nodes_pushItem]
        obtain ⟨nodes', parsed, hlisted', hparse, hitems', hframe⟩ := ih hlisted hpushed hlines
        refine ⟨nodes', parsed, hlisted', ?_, hitems', fun l₂ other hother hdisjoint => ?_⟩
        · rw [Rmb.parseLines, hscan, if_neg (by simp [hover])]
          exact hparse
        · obtain ⟨hother', hdisjoint'⟩ := hother.frame hconfined hdisjoint
          exact hframe l₂ other hother' hdisjoint'
      · -- a line that is not whole ends both loops
        have hmemory : parseLines memory l (line :: lines) newNodes = some (memory, l) := by
          rw [parseLines, if_neg (by simp [hover])]
          split
          · exact absurd ⟨_, _, _, _, by assumption⟩ hwhole
          · rfl
        have hservers : Rmb.parseLines msgservList (line :: lines) = some msgservList := by
          rw [Rmb.parseLines, if_neg (by simp [hover])]
          split
          · exact absurd ⟨_, _, _, _, by assumption⟩ hwhole
          · rfl
        rw [hmemory] at hcall
        obtain ⟨rfl, rfl⟩ := Prod.mk.inj (Option.some.inj hcall)
        exact ⟨nodes, msgservList, h, hservers, hitems,
          fun _ _ hother hdisjoint => ⟨hother, hdisjoint⟩⟩

/-- **`parse_servers`** makes a list of its own, with the servers of the lines. -/
theorem parseServers_listed {idServInfo : Text} {newNodes : List ℕ}
    (hcall : parseServers memory idServInfo newNodes = some (memory', l')) :
    ∃ nodes' parsed, Listed memory' l' nodes' ∧ Rmb.parseServers idServInfo = some parsed
      ∧ items nodes' = parsed.nodes ∧ ∀ (l₂ : Stack) (other : List (ℕ × Server)), Listed memory l₂ other →
        Listed memory' l₂ other ∧ (addresses other).Disjoint (addresses nodes') := by
  have hempty : Listed memory createList ([] : List (ℕ × Server)) := listed_createList
  have hitems : items ([] : List (ℕ × Server)) = LinkedList.createList.nodes := rfl
  obtain ⟨nodes', parsed, hlisted, hparse, hitems, hframe⟩ := parseLines_listed hempty hitems hcall
  exact ⟨nodes', parsed, hlisted, hparse, hitems,
    fun l₂ other hother => hframe l₂ other hother (List.disjoint_nil_right _)⟩

end ClientLists

end MessageBoard
