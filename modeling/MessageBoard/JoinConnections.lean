import MessageBoard.JoinRace
import MessageBoard.MsgservMain

/-!
# Connections between servers that join

`connect` gives an entry of the list its descriptor, `tcp_new_comm` puts an entry of its own at the
head; the two are never compared.  `outbound` and `inbound` count the entries whose open descriptor
leads to a given server, `writesTo` the writes of `share_last_message`.

* `writesTo_eq` — a message is written to a server once for each of these entries;
* `Once` — the loop comes to a server once, and a connection is accepted once;
* `entriesTo_le` — a server has at most one entry of each kind for another, and at most one unless
  each of the two was listed to the other;
* `two_entries_on_race` — when both register first, each ends with two.
-/

namespace MessageBoard

open CText Run Channel

namespace JoinRace

variable {n : ℕ} {σ : Type}

/-! ### Entries that lead to a server -/

/-- The descriptor of the entry leads to `j`. -/
def leads (rows : List (ℤ × Fin n)) (j : Fin n) (e : Server) : Bool := decide ((e.fd, j) ∈ rows)

def Node.outbound (node : Node n) (j : Fin n) : ℕ := node.msgsrvList.countP (leads node.opened j)

def Node.inbound (node : Node n) (j : Fin n) : ℕ := node.msgsrvList.countP (leads node.accepted j)

/-- The entries of `i` with an open descriptor that leads to `j`. -/
def entriesTo (net : Net σ n) (i j : Fin n) : ℕ :=
  (net.nodes i).msgsrvList.countP fun e =>
    leads (net.nodes i).opened j e || leads (net.nodes i).accepted j e

/-- What the calls of `send_to_server` share: the open descriptors, and those written to. -/
structure Sharing where
  opened : List ℤ
  written : List ℤ

/-- `send_to_server` where the kernel refuses no write: an entry that keeps its descriptor was written
to. -/
def shareWith (e : Server) (st : Sharing) : Option (Server × Sharing) :=
  (sendToServer (fun _ => true) e st.opened).map fun r =>
    (r.1, ⟨r.2, if r.1.fd = e.fd then st.written ++ [e.fd] else st.written⟩)

def Node.descriptors (node : Node n) : List ℤ := (node.opened ++ node.accepted).map Prod.fst

/-- The descriptors that `share_last_message` writes to: `for_each_element` over the list. -/
def Node.writtenTo (node : Node n) : List ℤ :=
  (forEachElement shareWith node.msgsrvList ⟨node.descriptors, []⟩).elim [] fun q => q.2.written

/-- How often `share_last_message` at `i` writes to `j`. -/
def writesTo (net : Net σ n) (i j : Fin n) : ℕ :=
  (net.nodes i).writtenTo.countP fun fd =>
    decide ((fd, j) ∈ (net.nodes i).opened) || decide ((fd, j) ∈ (net.nodes i).accepted)

/-- The list that `i` read has `j`. -/
def Heard (hosts : Fin n → Server) (net : Net σ n) (i j : Fin n) : Prop :=
  (hosts j).address ∈ (net.nodes i).heard

/-- The connections to `j` that were opened. -/
def Node.rows (node : Node n) (j : Fin n) : ℕ := node.opened.countP fun row => row.2 = j

/-- An entry with an open descriptor is written to, and one without gets -1. -/
theorem shareWith_eq (e : Server) (st : Sharing) : ∃ e', shareWith e st
    = some (e', ⟨st.opened,
      if e.fd ∈ st.opened ∨ e.fd = -1 then st.written ++ [e.fd] else st.written⟩) := by
  rw [shareWith, sendToServer]
  by_cases hopen : e.fd ∈ st.opened
  · rw [if_pos ⟨hopen, rfl⟩, if_pos (Or.inl hopen)]
    exact ⟨e, by simp⟩
  · have hclosed : closeFd e.fd st.opened = st.opened := by
      rw [closeFd]
      split
      · rfl
      · rw [List.filter_eq_self]
        intro fd hfd
        have hne : fd ≠ e.fd := fun heq => hopen (heq ▸ hfd)
        simpa using hne
    rw [if_neg fun h => hopen h.1, hclosed]
    exact ⟨closeCommunication e, by simp [closeCommunication, hopen, eq_comm]⟩

/-- **`for_each_element`** writes to the open descriptors of the list, entry after entry. -/
theorem forEachElement_shareWith (l : List Server) (opened written : List ℤ) :
    ∃ q, forEachElement shareWith l ⟨opened, written⟩ = some q ∧ q.2.written
      = written ++ (l.filter fun e => decide (e.fd ∈ opened ∨ e.fd = -1)).map Server.fd := by
  induction l generalizing written with
  | nil => exact ⟨_, rfl, by simp⟩
  | cons e l ih =>
    obtain ⟨e', he'⟩ := shareWith_eq e ⟨opened, written⟩
    obtain ⟨q, hq, hwritten⟩ := ih (if e.fd ∈ opened ∨ e.fd = -1 then written ++ [e.fd] else written)
    refine ⟨(e' :: q.1, q.2), ?_, ?_⟩
    · rw [forEachElement, he', Option.bind_some, hq, Option.map_some]
    · rw [hwritten, List.filter_cons]
      by_cases h : e.fd ∈ opened ∨ e.fd = -1
      · rw [if_pos h, if_pos (decide_eq_true h), List.map_cons, List.append_assoc,
          List.singleton_append]
      · rw [if_neg h, if_neg (by simpa using h)]

/-- **A message is written to a server once for each entry that leads to it.** -/
theorem writesTo_eq (net : Net σ n) (i j : Fin n) : writesTo net i j = entriesTo net i j := by
  obtain ⟨q, hq, hwritten⟩ := forEachElement_shareWith (net.nodes i).msgsrvList
    (net.nodes i).descriptors []
  rw [writesTo, Node.writtenTo, hq, Option.elim_some, hwritten, List.nil_append, List.countP_map,
    List.countP_filter, entriesTo]
  apply List.countP_congr
  intro e _
  have hopen : (e.fd, j) ∈ (net.nodes i).opened ∨ (e.fd, j) ∈ (net.nodes i).accepted →
      e.fd ∈ (net.nodes i).descriptors :=
    fun hmem => List.mem_map.mpr ⟨_, List.mem_append.mpr hmem, rfl⟩
  simp only [Function.comp_apply, leads, Bool.and_eq_true, Bool.or_eq_true, decide_eq_true_eq]
  exact ⟨fun h => h.1, fun h => ⟨h, Or.inl (hopen h)⟩⟩

theorem countP_or_le {α : Type} (p q : α → Bool) (l : List α) :
    l.countP (fun a => p a || q a) ≤ l.countP p + l.countP q := by
  induction l with
  | nil => simp
  | cons a l ih =>
    rw [List.countP_cons, List.countP_cons, List.countP_cons]
    cases p a <;> cases q a <;> simp <;> omega

theorem entriesTo_le_add (net : Net σ n) (i j : Fin n) :
    entriesTo net i j ≤ (net.nodes i).outbound j + (net.nodes i).inbound j :=
  countP_or_le _ _ _

/-- A new descriptor changes nothing for the entries that are there. -/
theorem countP_leads_cons {rows : List (ℤ × Fin n)} {row : ℤ × Fin n} {l : List Server}
    (hfresh : ∀ e ∈ l, e.fd ≠ row.1) (j : Fin n) :
    l.countP (leads (row :: rows) j) = l.countP (leads rows j) := by
  apply List.countP_congr
  intro e he
  have hne : (e.fd, j) ≠ row := fun heq => hfresh e he (by rw [← heq])
  simp [leads, hne]

theorem countP_leads_nil (l : List Server) (j : Fin n) : l.countP (leads [] j) = 0 := by
  rw [List.countP_eq_zero]
  simp [leads]

theorem leads_eq_false_of_fd {rows : List (ℤ × Fin n)} {e : Server}
    (h : ∀ row ∈ rows, row.1 ≠ e.fd) (j : Fin n) : leads rows j e = false := by
  rw [leads, decide_eq_false_iff_not]
  exact fun hmem => h _ hmem rfl

/-- A descriptor to another server does not lead to `j`. -/
theorem leads_cons_eq_false {rows : List (ℤ × Fin n)} {row : ℤ × Fin n} {e : Server}
    (h : ∀ old ∈ rows, old.1 ≠ e.fd) {j : Fin n} (hj : row.2 ≠ j) :
    leads (row :: rows) j e = false := by
  rw [leads, decide_eq_false_iff_not]
  intro hmem
  rcases List.mem_cons.mp hmem with heq | hmem
  · exact hj (by rw [← heq])
  · exact h _ hmem rfl

/-! ### What holds in every run -/

/-- A list read from the reply has no address twice. -/
def NoRepeats (reply : Text) : Prop :=
  reply.length < responseSize → ∀ l, parseServers (some reply) [] = some (0, l) →
    (l.map Server.address).Nodup

/-- The id server lists each server once. -/
def ListsOnce (ids : IdServer σ) : Prop :=
  ∀ s d reply, (ids.handle s d).2 = some reply → NoRepeats reply

/-- The list was not received. -/
def Stage.Early : Stage → Prop
  | .idle => True
  | .registered => True
  | .asked => True
  | _ => False

section Invariant

variable (hosts : Fin n → Server)

structure NodeOnce (node : Node n) : Prop where
  replies : ∀ reply ∈ node.replies, NoRepeats reply
  early : node.stage.Early → node.msgsrvList = [] ∧ node.opened = [] ∧ node.accepted = []
  positive : (∀ row ∈ node.opened, 0 < row.1) ∧ ∀ row ∈ node.accepted, 0 < row.1
  /-- A server that was listed is connected to, or ahead, or passed. -/
  rows : ∀ j, node.rows j + (node.ahead.map Server.address).count (hosts j).address
    ≤ if (hosts j).address ∈ node.heard then 1 else 0
  outbound : ∀ j, node.outbound j ≤ node.rows j

structure Once (net : Net σ n) : Prop where
  node : ∀ i, NodeOnce hosts (net.nodes i)
  /-- A connection is accepted once. -/
  inbound : ∀ i j, (net.nodes i).inbound j + net.pending.count (j, i) ≤ (net.nodes j).rows i

end Invariant

variable {ids : IdServer σ} {hosts : Fin n → Server} {net net' : Net σ n}

theorem once_start (s : σ) : Once hosts (start s : Net σ n) where
  node := fun i => ⟨by simp [start], by simp [start, Node.msgsrvList], by simp [start],
    by simp [start, Node.rows], by simp [start, Node.outbound, Node.msgsrvList]⟩
  inbound := by simp [start, Node.inbound, Node.msgsrvList]

/-- A step that changes one server, and no connection. -/
theorem Once.put {i : Fin n} {node : Node n} (honce : Once hosts net) (hnode : NodeOnce hosts node)
    (hin : ∀ j, node.inbound j = (net.nodes i).inbound j)
    (hrows : ∀ j, node.rows j = (net.nodes i).rows j) : Once hosts (net.put i node) := by
  constructor
  · intro t
    by_cases h : t = i
    · simpa [h] using hnode
    · simpa [h] using honce.node t
  · intro t j
    have hin' : ((net.put i node).nodes t).inbound j = (net.nodes t).inbound j := by
      by_cases h : t = i <;> simp [h, hin]
    have hrows' : ((net.put i node).nodes j).rows t = (net.nodes j).rows t := by
      by_cases h : j = i <;> simp [h, hrows]
    rw [hin', hrows']
    exact honce.inbound t j

theorem Once.send (honce : Once hosts net) (i : Fin n) (text : Text) : Once hosts (net.send i text) :=
  ⟨honce.node, honce.inbound⟩

/-- A step of `handle_join` that leaves the list and the connections alone. -/
theorem NodeOnce.setStage {node : Node n} (hnode : NodeOnce hosts node) (stage : Stage)
    (hstage : stage.Early → node.stage.Early) (attempt : ℕ) {replies : List Text}
    (hreplies : replies ⊆ node.replies) :
    NodeOnce hosts { node with stage := stage, attempt := attempt, replies := replies } :=
  ⟨fun r hr => hnode.replies r (hreplies hr), fun h => hnode.early (hstage h), hnode.positive,
    hnode.rows, hnode.outbound⟩

/-- The id server answers, whatever it is asked. -/
theorem Once.handled (hlists : ListsOnce ids) (honce : Once hosts net) (d : Datagram n)
    (rest : List (Datagram n)) : Once hosts (net.handled ids d rest) := by
  have htaken : Once hosts
      { net with idServer := (ids.handle net.idServer d.text).1, datagrams := rest } :=
    ⟨honce.node, honce.inbound⟩
  cases hreply : (ids.handle net.idServer d.text).2 with
  | none =>
    rw [handled_of_not (Or.inl hreply)]
    exact htaken
  | some reply =>
    by_cases hsocket : d.socket = (net.nodes d.src).attempt
    · rw [handled_of_reply hreply hsocket]
      obtain ⟨hreplies, hearly, hpositive, hrows, hout⟩ := honce.node d.src
      refine htaken.put ⟨?_, hearly, hpositive, hrows, hout⟩ (fun _ => rfl) fun _ => rfl
      intro r hr
      rcases List.mem_append.mp hr with hr | hr
      · exact hreplies r hr
      · rw [List.mem_singleton.mp hr]
        exact hlists _ _ _ hreply
    · rw [handled_of_not (Or.inr hsocket)]
      exact htaken

/-- **The list is read**: every server is ahead at most once. -/
theorem NodeOnce.listed {node : Node n} {reply : Text} {rest : List Text} {servers : List Server}
    (hnode : NodeOnce hosts node) (hstage : node.stage = .asked)
    (hreplies : node.replies = reply :: rest) (hfits : reply.length < responseSize)
    (hparse : parseServers (some reply) node.msgsrvList = some (0, servers)) :
    NodeOnce hosts { node with
      stage := .walking false, walked := [], ahead := servers, replies := rest
      heard := servers.map Server.address } := by
  obtain ⟨hlist, hopened, haccepted⟩ := hnode.early (by simp [hstage, Stage.Early])
  rw [hlist] at hparse
  have hnodup := hnode.replies reply (by simp [hreplies]) hfits servers hparse
  refine ⟨fun r hr => hnode.replies r (by simp [hreplies, hr]), by simp [Stage.Early],
    hnode.positive, ?_, ?_⟩
  · intro j
    rw [Node.rows]
    simp only [hopened, List.countP_nil, Nat.zero_add]
    by_cases hmem : (hosts j).address ∈ servers.map Server.address
    · rw [if_pos hmem, List.count_eq_one_of_mem hnodup hmem]
    · rw [if_neg hmem, List.count_eq_zero_of_not_mem hmem]
  · intro j
    simp [Node.outbound, Node.msgsrvList, Node.rows, hopened, leads]

/-! ### One turn of the loop -/

/-- What a turn does to the entry: it is left alone and nothing is connected, or it gets a
descriptor, the socket's only if the connection opened. -/
theorem visit_cases {i : Fin n} {o : Outcome} {e e' : Server} {sent sent' : Bool}
    (hjoin : joinToOldServer (hosts i) o e sent = some (e', sent')) :
    (e' = e ∧ connection hosts i o e = none)
      ∨ ((e'.fd = -1 ∨ Opens (hosts i) o e ∧ e'.fd = o.socketFd) ∧ e'.address = e.address) := by
  rcases joinToOldServer_cases hjoin with ⟨heq, hpass⟩ | ⟨hdiff, hfd, hentry⟩
  · left
    refine ⟨heq, ?_⟩
    rw [connection, if_neg]
    intro hopens
    rcases hpass with hsame | hne
    · exact absurd hopens.1 (by simp [hsame])
    · exact hne hopens.2.1
  · right
    rcases hentry with rfl | ⟨hopens, rfl⟩
    · exact ⟨Or.inl rfl, rfl⟩
    · exact ⟨Or.inr ⟨⟨hdiff, hfd, hopens⟩, rfl⟩, rfl⟩

/-- What is known of the connection of a turn. -/
theorem of_connection {i : Fin n} {o : Outcome} {e : Server} {row : ℤ × Fin n}
    (h : connection hosts i o e = some row) :
    Opens (hosts i) o e ∧ row.1 = o.socketFd ∧ (hosts row.2).address = e.address := by
  rw [connection] at h
  split at h
  · rename_i hopens
    obtain ⟨j, hj, rfl⟩ := Option.map_eq_some_iff.mp h
    have haddr := List.find?_some hj
    exact ⟨hopens, rfl, by simpa using haddr⟩
  · simp at h

theorem countP_split {p : Server → Bool} (l₁ l₂ : List Server) (e : Server) :
    (l₁ ++ e :: l₂).countP p = l₁.countP p + (if p e then 1 else 0) + l₂.countP p := by
  rw [List.countP_append, List.countP_cons]
  omega

/-- The connections to `j` that a turn opens. -/
def opensTo (row : Option (ℤ × Fin n)) (j : Fin n) : ℕ := row.toList.countP fun r => r.2 = j

section Visit

variable {i : Fin n} {node : Node n} {o : Outcome} {sent sent' : Bool} {e e' : Server}
  {rest : List Server}

/-- The turn opens a connection only to the address of its entry. -/
theorem opensTo_le (j : Fin n) :
    opensTo (connection hosts i o e) j ≤ if e.address = (hosts j).address then 1 else 0 := by
  cases hconn : connection hosts i o e with
  | none => simp [opensTo]
  | some row =>
    by_cases hj : row.2 = j
    · have haddr := (of_connection hconn).2.2
      rw [hj] at haddr
      simp [opensTo, hj, haddr]
    · simp [opensTo, hj]

theorem rows_visited (j : Fin n) :
    ((connection hosts i o e).toList ++ node.opened).countP (fun row => row.2 = j)
      = opensTo (connection hosts i o e) j + node.rows j := by
  rw [List.countP_append]
  rfl

/-- The descriptor of a new connection is not in use. -/
theorem fresh_of_connection (hfresh : Opens (hosts i) o e → Fresh node o.socketFd)
    {row : ℤ × Fin n} (h : connection hosts i o e = some row) : Fresh node row.1 := by
  obtain ⟨hopens, hfd, -⟩ := of_connection h
  rw [hfd]
  exact hfresh hopens

/-- The entries of the list lead where they led. -/
theorem countP_leads_visited (hfresh : Opens (hosts i) o e → Fresh node o.socketFd)
    {l : List Server} (hl : l ⊆ node.msgsrvList) (j : Fin n) :
    l.countP (leads ((connection hosts i o e).toList ++ node.opened) j)
      = l.countP (leads node.opened j) := by
  cases hconn : connection hosts i o e with
  | none => rfl
  | some row => exact countP_leads_cons (fun e₁ h₁ =>
      (fresh_of_connection hfresh hconn).2.1 e₁ (hl h₁)) j

/-- The entry of the turn leads where the connection was opened, or where it led before. -/
theorem leads_visited_le (hnode : NodeOnce hosts node)
    (hfresh : Opens (hosts i) o e → Fresh node o.socketFd)
    (hjoin : joinToOldServer (hosts i) o e sent = some (e', sent')) (j : Fin n) :
    (if leads ((connection hosts i o e).toList ++ node.opened) j e' then 1 else 0)
      ≤ opensTo (connection hosts i o e) j + if leads node.opened j e then 1 else 0 := by
  rcases visit_cases hjoin with ⟨rfl, hnone⟩ | ⟨hfd, -⟩
  · simp [hnone]
  · have hold : ∀ row ∈ node.opened, row.1 ≠ e'.fd := by
      intro row hrow
      rcases hfd with hfd | ⟨hopens, hfd⟩
      · have := hnode.positive.1 row hrow
        omega
      · rw [hfd]
        exact (hfresh hopens).2.2.1 row hrow
    cases hconn : connection hosts i o e with
    | none =>
      have hfalse := leads_eq_false_of_fd hold j
      simp [hfalse]
    | some row =>
      by_cases hj : row.2 = j
      · have : opensTo (some row) j = 1 := by simp [opensTo, hj]
        rw [this]
        split <;> omega
      · have hfalse : leads (row :: node.opened) j e' = false := leads_cons_eq_false hold hj
        simp [hfalse]

theorem leads_accepted_visited_le (hnode : NodeOnce hosts node)
    (hfresh : Opens (hosts i) o e → Fresh node o.socketFd)
    (hjoin : joinToOldServer (hosts i) o e sent = some (e', sent')) (j : Fin n) :
    (if leads node.accepted j e' then 1 else 0) ≤ if leads node.accepted j e then 1 else 0 := by
  rcases visit_cases hjoin with ⟨rfl, -⟩ | ⟨hfd, -⟩
  · exact le_rfl
  · have hfalse : leads node.accepted j e' = false := by
      apply leads_eq_false_of_fd
      intro row hrow
      rcases hfd with hfd | ⟨hopens, hfd⟩
      · have := hnode.positive.2 row hrow
        omega
      · rw [hfd]
        exact (hfresh hopens).2.2.2 row hrow
    simp [hfalse]

/-- **One turn of the loop** opens at most the connection to its entry. -/
theorem NodeOnce.visited (hnode : NodeOnce hosts node) (hahead : node.ahead = e :: rest)
    (hfresh : Opens (hosts i) o e → Fresh node o.socketFd)
    (hjoin : joinToOldServer (hosts i) o e sent = some (e', sent')) :
    NodeOnce hosts { node with
      stage := .walking sent', walked := node.walked ++ [e'], ahead := rest
      opened := (connection hosts i o e).toList ++ node.opened } := by
  have hlist : node.msgsrvList = node.walked ++ e :: rest := by rw [Node.msgsrvList, hahead]
  refine ⟨hnode.replies, by simp [Stage.Early], ⟨?_, hnode.positive.2⟩,
    ?_, ?_⟩
  · intro row hrow
    rcases List.mem_append.mp hrow with hrow | hrow
    · exact (fresh_of_connection hfresh (Option.mem_toList.mp hrow)).1
    · exact hnode.positive.1 row hrow
  · intro j
    have hrows := hnode.rows j
    have hopens := @opensTo_le n hosts i o e j
    rw [hahead, List.map_cons, List.count_cons] at hrows
    rw [Node.rows, rows_visited]
    simp only [beq_iff_eq] at hrows ⊢
    omega
  · intro j
    have hout := hnode.outbound j
    have hentry := leads_visited_le hnode hfresh hjoin j
    rw [Node.outbound, hlist, countP_split] at hout
    rw [Node.outbound, Node.rows, rows_visited, Node.msgsrvList, List.append_assoc,
      List.singleton_append, countP_split, countP_leads_visited hfresh (by simp [hlist]),
      countP_leads_visited hfresh (by rw [hlist]; simp)]
    dsimp only
    omega

theorem inbound_visited_le (hnode : NodeOnce hosts node) (hahead : node.ahead = e :: rest)
    (hfresh : Opens (hosts i) o e → Fresh node o.socketFd)
    (hjoin : joinToOldServer (hosts i) o e sent = some (e', sent')) (j : Fin n) :
    (node.walked ++ [e'] ++ rest).countP (leads node.accepted j) ≤ node.inbound j := by
  have hentry := leads_accepted_visited_le hnode hfresh hjoin j
  rw [Node.inbound, Node.msgsrvList, hahead, countP_split, List.append_assoc,
    List.singleton_append, countP_split]
  omega

end Visit

theorem Once.visited {i : Fin n} {o : Outcome} {sent sent' : Bool} {e e' : Server}
    {rest : List Server} (honce : Once hosts net) (hahead : (net.nodes i).ahead = e :: rest)
    (hfresh : Opens (hosts i) o e → Fresh (net.nodes i) o.socketFd)
    (hjoin : joinToOldServer (hosts i) o e sent = some (e', sent')) :
    Once hosts (net.visited i sent' e' rest (connection hosts i o e)) := by
  have hnodes : ∀ t, (net.visited i sent' e' rest (connection hosts i o e)).nodes t
      = if t = i then { net.nodes i with
          stage := .walking sent', walked := (net.nodes i).walked ++ [e'], ahead := rest
          opened := (connection hosts i o e).toList ++ (net.nodes i).opened } else net.nodes t := by
    intro t
    by_cases h : t = i <;> simp [Net.visited, Net.put, h]
  constructor
  · intro t
    rw [hnodes]
    split
    · exact (honce.node i).visited hahead hfresh hjoin
    · exact honce.node t
  · intro t j
    have hin : ((net.visited i sent' e' rest (connection hosts i o e)).nodes t).inbound j
        ≤ (net.nodes t).inbound j := by
      rw [hnodes]
      split
      · rename_i ht
        rw [ht]
        exact inbound_visited_le (honce.node i) hahead hfresh hjoin j
      · exact le_rfl
    have hpending : (net.visited i sent' e' rest (connection hosts i o e)).pending.count (j, t)
        = net.pending.count (j, t) + if j = i then opensTo (connection hosts i o e) t else 0 := by
      rw [Net.visited, List.count_append]
      congr 1
      cases connection hosts i o e with
      | none => simp [opensTo]
      | some row =>
        by_cases hj : i = j
        · by_cases ht : row.2 = t <;> simp [opensTo, hj, ht]
        · simp [hj, Ne.symm hj]
    have hrows : ((net.visited i sent' e' rest (connection hosts i o e)).nodes j).rows t
        = (net.nodes j).rows t + if j = i then opensTo (connection hosts i o e) t else 0 := by
      rw [hnodes]
      split
      · rename_i hj
        rw [Node.rows, rows_visited, hj, Nat.add_comm]
      · rfl
    have hinv := honce.inbound t j
    omega

section Accept

variable {node : Node n} {client : Fin n} {fd : ℤ} {ip : Text} {port : ℕ}

/-- The entry of a connection that is accepted leads to no server that was connected to. -/
theorem NodeOnce.accept (hnode : NodeOnce hosts node) (hstage : node.stage = .joined)
    (hfresh : Fresh node fd) :
    NodeOnce hosts { node with
      walked := (tcpNewComm (some (fd, ip, port)) node.walked).2
      accepted := (fd, client) :: node.accepted } := by
  obtain ⟨hpos, -, hopened, -⟩ := hfresh
  obtain ⟨hreplies, -, hpositive, hheard, hout⟩ := hnode
  refine ⟨hreplies, by simp [hstage, Stage.Early], ⟨hpositive.1, ?_⟩, hheard, ?_⟩
  · intro row hrow
    rcases List.mem_cons.mp hrow with rfl | hrow
    · exact hpos
    · exact hpositive.2 row hrow
  · intro j
    rw [Node.outbound, Node.msgsrvList, tcpNewComm, List.cons_append, List.countP_cons,
      leads_eq_false_of_fd hopened]
    exact hout j

/-- It leads to its client only. -/
theorem inbound_accept_le (hfresh : Fresh node fd) (j : Fin n) :
    Node.inbound { node with
      walked := (tcpNewComm (some (fd, ip, port)) node.walked).2
      accepted := (fd, client) :: node.accepted } j
      ≤ node.inbound j + if j = client then 1 else 0 := by
  obtain ⟨-, hlist, -, haccepted⟩ := hfresh
  have hcons : node.msgsrvList.countP (leads ((fd, client) :: node.accepted) j) = node.inbound j :=
    countP_leads_cons hlist j
  rw [Node.inbound, Node.msgsrvList, tcpNewComm, List.cons_append, List.countP_cons]
  change node.msgsrvList.countP _ + _ ≤ _
  rw [hcons]
  by_cases hj : j = client
  · rw [if_pos hj]
    split <;> omega
  · rw [leads_cons_eq_false haccepted (Ne.symm hj), if_neg hj]
    exact le_rfl

end Accept

/-- **A connection is accepted once**, under an entry of its own. -/
theorem Once.accept {client server : Fin n} {fd : ℤ} {ip : Text} {port : ℕ}
    (honce : Once hosts net) (hstage : (net.nodes server).stage = .joined)
    (hpending : (client, server) ∈ net.pending) (hfresh : Fresh (net.nodes server) fd) :
    Once hosts (net.accept client server fd ip port) := by
  have hnodes : ∀ t, (net.accept client server fd ip port).nodes t
      = if t = server then { net.nodes server with
          walked := (tcpNewComm (some (fd, ip, port)) (net.nodes server).walked).2
          accepted := (fd, client) :: (net.nodes server).accepted } else net.nodes t := by
    intro t
    by_cases h : t = server <;> simp [Net.accept, Net.put, h]
  have hrows : ∀ t j, ((net.accept client server fd ip port).nodes t).rows j
      = (net.nodes t).rows j := by
    intro t j
    rw [hnodes]
    split
    · rename_i ht
      rw [ht]
      rfl
    · rfl
  constructor
  · intro t
    rw [hnodes]
    split
    · exact (honce.node server).accept hstage hfresh
    · exact honce.node t
  · intro t j
    have hinv := honce.inbound t j
    have herase : (net.accept client server fd ip port).pending = net.pending.erase (client, server) :=
      rfl
    rw [hrows, hnodes, herase]
    split
    · rename_i ht
      subst ht
      refine (Nat.add_le_add_right (inbound_accept_le hfresh j) _).trans ?_
      by_cases hj : j = client
      · -- the connection was pending, and is no more
        subst hj
        have hcount := List.count_pos_iff.mpr hpending
        rw [List.count_erase_self, if_pos rfl]
        omega
      · rw [List.count_erase_of_ne (by simp [hj]), if_neg hj]
        exact hinv
    · rename_i ht
      rw [List.count_erase_of_ne (by simp [ht])]
      exact hinv

/-- **What a step preserves.** -/
theorem once_step {a : Action n} (hlists : ListsOnce ids) (honce : Once hosts net)
    (h : step ids hosts net a = some net') : Once hosts net' := by
  cases stepped_of_step h with
  | @register i hstage =>
    have hnode := (honce.node i).setStage .registered (by simp [hstage, Stage.Early])
      ((net.nodes i).attempt + 1) (List.nil_subset _)
    exact (honce.put hnode (fun _ => rfl) fun _ => rfl).send _ _
  | @ask i hstage =>
    have hnode := (honce.node i).setStage .asked (by simp [hstage, Stage.Early])
      (net.nodes i).attempt (List.Subset.refl _)
    exact (honce.put hnode (fun _ => rfl) fun _ => rfl).send _ _
  | updateReg hstage => exact honce.send _ _
  | handled hrecv => exact honce.handled hlists _ _
  | @listed i _ _ servers hstage hreplies hfits hparse =>
    obtain ⟨hlist, -, haccepted⟩ := (honce.node i).early (by simp [hstage, Stage.Early])
    refine honce.put ((honce.node i).listed hstage hreplies hfits hparse) ?_ fun _ => rfl
    intro j
    rw [Node.inbound, Node.inbound, haccepted]
    dsimp only
    rw [haccepted, countP_leads_nil, countP_leads_nil]
  | @refused i _ hstage =>
    have hnode := (honce.node i).setStage .idle (by simp [hstage, Stage.Early])
      (net.nodes i).attempt (List.Subset.refl _)
    exact honce.put hnode (fun _ => rfl) fun _ => rfl
  | @failed i _ _ hstage =>
    have hnode := (honce.node i).setStage .failed (by simp [Stage.Early])
      (net.nodes i).attempt (List.Subset.refl _)
    exact honce.put hnode (fun _ => rfl) fun _ => rfl
  | visited hstage hahead hfresh hjoin => exact honce.visited hahead hfresh hjoin
  | @finish i sent hstage hahead =>
    have hnode := (honce.node i).setStage .joined (by simp [Stage.Early])
      (net.nodes i).attempt (List.Subset.refl _)
    exact honce.put hnode (fun _ => rfl) fun _ => rfl
  | accept hstage hpending hfresh => exact honce.accept hstage hpending hfresh

theorem once_run {as : List (Action n)} {s : σ} (hlists : ListsOnce ids)
    (hrun : run (step ids hosts) (start s) as = some net) : Once hosts net :=
  run_invariant (fun _ _ _ honce h => once_step hlists honce h) (once_start s) hrun

/-- A server that was not listed is not connected to. -/
theorem Once.rows_le (honce : Once hosts net) (i j : Fin n) :
    (net.nodes i).rows j ≤ if (hosts j).address ∈ (net.nodes i).heard then 1 else 0 :=
  (Nat.le_add_right _ _).trans ((honce.node i).rows j)

/-- **At most one entry of each kind leads to another server.** -/
theorem entriesTo_le {as : List (Action n)} {s : σ} (hlists : ListsOnce ids)
    (hrun : run (step ids hosts) (start s) as = some net) (i j : Fin n) :
    (net.nodes i).outbound j ≤ 1 ∧ (net.nodes i).inbound j ≤ 1 ∧ entriesTo net i j ≤ 2
      ∧ (entriesTo net i j = 2 → Heard hosts net i j ∧ Heard hosts net j i)
      ∧ writesTo net i j = entriesTo net i j := by
  have honce := once_run hlists hrun
  have hadd := entriesTo_le_add net i j
  have hin := honce.inbound i j
  have hout := (honce.node i).outbound j
  have hij := honce.rows_le i j
  have hji := honce.rows_le j i
  refine ⟨?_, ?_, ?_, ?_, writesTo_eq net i j⟩
  · split at hij <;> omega
  · split at hji <;> omega
  · split at hij <;> split at hji <;> omega
  · intro htwo
    constructor
    · by_contra hnot
      rw [if_neg (show (hosts j).address ∉ (net.nodes i).heard from hnot)] at hij
      split at hji <;> omega
    · by_contra hnot
      rw [if_neg (show (hosts i).address ∉ (net.nodes j).heard from hnot)] at hji
      split at hij <;> omega

/-- The assumption on the id server can be met. -/
theorem Registry.listsOnce : ListsOnce Registry.idServer := by
  intro r datagram reply hreply hfits l hparse
  change (Registry.handle r datagram).2 = some reply at hreply
  rw [Registry.handle] at hreply
  split at hreply
  · obtain rfl := Option.some.inj hreply
    rw [parseServers_serversText r.plain hfits, Option.some.injEq, Prod.mk.injEq] at hparse
    rw [← hparse.2, List.append_nil, List.map_reverse, List.nodup_reverse, List.map_map]
    exact r.once
  · simp at hreply

/-- Two servers that register before one of them asks. -/
theorem entriesTo_le_race : ∃ net, run (step Registry.idServer twoHosts) (start .empty) race
    = some net ∧ entriesTo net 0 1 ≤ 2 := by
  have hrace : (run (step Registry.idServer twoHosts) (start .empty) race).isSome = true := by
    decide +kernel
  obtain ⟨net, hrun⟩ := Option.isSome_iff_exists.mp hrace
  exact ⟨net, hrun, (entriesTo_le Registry.listsOnce hrun 0 1).2.2.1⟩

/-- **Two entries for one server**: both have joined, and each has connected to the other. -/
theorem two_entries_on_race : ListsOnce Registry.idServer
    ∧ ∃ net, run (step Registry.idServer twoHosts) (start .empty) race = some net
      ∧ entriesTo net 0 1 = 2 ∧ entriesTo net 1 0 = 2 ∧ writesTo net 0 1 = 2 := by
  have hrace : (run (step Registry.idServer twoHosts) (start .empty) race).any (fun net =>
      entriesTo net 0 1 == 2 && entriesTo net 1 0 == 2 && writesTo net 0 1 == 2) = true := by
    decide +kernel
  obtain ⟨net, hrun, hand⟩ := (Option.any_eq_true _ _).mp hrace
  rw [Bool.and_eq_true, Bool.and_eq_true, beq_iff_eq, beq_iff_eq, beq_iff_eq] at hand
  exact ⟨Registry.listsOnce, net, hrun, hand.1.1, hand.1.2, hand.2⟩

end JoinRace

end MessageBoard
