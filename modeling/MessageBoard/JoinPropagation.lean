import MessageBoard.Lib.Channel
import MessageBoard.Lib.Run
import MessageBoard.Replica

/-!
# How messages reach the servers that join

Servers join, accept each other, publish and answer, over ordered channels of whole frames.  A join
is one step: the id server lists every registered server, the new one connects to each of them and
asks the first for its messages; the other ends accept at any later time.  `pubs` records to whom a
publication was written, and `replies` what the reply to a server's `SGET_MESSAGES` held.

* `conserved_run` — a publication is stored or on its way to a server exactly as often as it was
  published there, written to it by its server, and contained in the reply to it;
* `stored_iff` — **which messages a server has** once nothing is in flight.
-/

namespace MessageBoard

open CText Run Channel

namespace JoinPropagation

inductive Frame where
  | sgetMessages
  | smessages (copies : List Copy)
  deriving DecidableEq, Repr

/-- A frame on the connection of two servers. -/
structure Packet where
  src : ℕ
  dst : ℕ
  frame : Frame
  deriving DecidableEq, Repr

/-- A message server: its board, its open connections (the head is the newest), and whether
`handle_join` returned. -/
structure Node where
  replica : Replica
  msgsrvList : List ℕ
  isJoinComplete : Bool

/-- A publication: its server, its text, and the connections `share_last_message` wrote it to. -/
structure Pub where
  server : ℕ
  content : Text
  sharedWith : List ℕ
  deriving DecidableEq, Repr

structure Net where
  nodes : ℕ → Node
  /-- The entries of the id server. -/
  registered : List ℕ
  wire : List Packet
  /-- Connections `(client, server)` that the server has not accepted. -/
  pending : List (ℕ × ℕ)
  pubs : List Pub
  replies : ℕ → List (List ℕ)

inductive Action where
  /-- `handle_join`, with the list in the order the new server walks it. -/
  | join (s : ℕ) (listed : List ℕ)
  /-- `tcp_new_comm` at `s` for a connection of `client`. -/
  | accept (client s : ℕ)
  /-- A client's datagram, and the main loop shares the message. -/
  | publish (s : ℕ) (datagram : Text)
  /-- `server_treat_communications` at `dst` for the oldest frame of `src`. -/
  | deliver (src dst : ℕ)
  deriving DecidableEq, Repr

/-- The capacity is not exceeded. -/
def HasRoom (r : Replica) : Prop := r.kept.length ≤ r.board.msgMatrix.getCapacity

instance (r : Replica) : Decidable (HasRoom r) :=
  inferInstanceAs (Decidable (r.kept.length ≤ r.board.msgMatrix.getCapacity))

def inRoom (r : Replica) : Option Replica := if HasRoom r then some r else none

/-- One line of a frame. -/
def storeInRoom (r : Replica) (copy : Copy) : Option Replica := (r.storeLine copy).bind inRoom

/-- `join_to_old_servers`: the listed servers that differ from the host. -/
def joinToOldServers (host : ℕ) (listed : List ℕ) : List ℕ := listed.filter (· != host)

/-- `SGET_MESSAGES` is sent once, to the first server connected to. -/
def sendInitialComm (host : ℕ) (olds : List ℕ) : List Packet :=
  olds.head?.toList.map fun s => ⟨host, s, .sgetMessages⟩

/-- `share_last_message`: `send_to_server` for every entry of the list. -/
def shareWith (s : ℕ) (msgsrvList : List ℕ) (copy : Copy) : List Packet :=
  msgsrvList.map fun d => ⟨s, d, .smessages [copy]⟩

def Frame.copies : Frame → List Copy
  | .sgetMessages => []
  | .smessages copies => copies

/-- The publications a peer stores of a frame: a line without a text is not stored. -/
def Frame.ids (f : Frame) : List ℕ :=
  (f.copies.filter fun c => c.message.content != []).map Copy.id

def onChannel (src dst : ℕ) (p : Packet) : Bool := p.src == src && p.dst == dst

/-- `handle_join` of `s`, which connects to `olds`. -/
def Net.join (net : Net) (s : ℕ) (olds : List ℕ) : Net :=
  { net with
    nodes := Function.update net.nodes s
      { net.nodes s with msgsrvList := olds, isJoinComplete := true }
    registered := s :: net.registered
    wire := net.wire ++ sendInitialComm s olds
    pending := net.pending ++ olds.map fun old => (s, old) }

/-- `tcp_new_comm`. -/
def Net.accept (net : Net) (client s : ℕ) : Net :=
  { net with
    nodes := Function.update net.nodes s
      { net.nodes s with msgsrvList := client :: (net.nodes s).msgsrvList }
    pending := net.pending.erase (client, s) }

/-- The message `m` is stored at `s`, which leaves `r`, and shared. -/
def Net.publish (net : Net) (s : ℕ) (r : Replica) (m : Message) : Net :=
  { net with
    nodes := Function.update net.nodes s { net.nodes s with replica := r }
    wire := net.wire ++ shareWith s (net.nodes s).msgsrvList ⟨m, net.pubs.length⟩
    pubs := net.pubs ++ [⟨s, m.content, (net.nodes s).msgsrvList⟩] }

/-- `dst` answers `src`. -/
def Net.answer (net : Net) (src dst : ℕ) (wire : List Packet) : Net :=
  let reply := Frame.smessages (net.nodes dst).replica.recent
  { net with
    wire := wire ++ [⟨dst, src, reply⟩]
    replies := Function.update net.replies src (net.replies src ++ [reply.ids]) }

/-- `dst` stored a frame, which leaves `r`.  Nothing is forwarded. -/
def Net.store (net : Net) (dst : ℕ) (r : Replica) (wire : List Packet) : Net :=
  { net with
    nodes := Function.update net.nodes dst { net.nodes dst with replica := r }
    wire := wire }

def step (net : Net) : Action → Option Net
  | .join s listed =>
      if (net.nodes s).isJoinComplete = false ∧ listed.Perm (s :: net.registered) then
        some (net.join s (joinToOldServers s listed))
      else none
  | .accept client s =>
      if (client, s) ∈ net.pending then some (net.accept client s) else none
  | .publish s datagram =>
      if (net.nodes s).isJoinComplete then
        ((net.nodes s).replica.publish datagram net.pubs.length).bind fun r =>
          (inRoom r.1).map fun replica => net.publish s replica r.2
      else none
  | .deliver src dst =>
      if src ∈ (net.nodes dst).msgsrvList then
        (receive (onChannel src dst) net.wire).bind fun r =>
          match r.1.frame with
          | .sgetMessages => some (net.answer src dst r.2)
          | .smessages copies => (run storeInRoom (net.nodes dst).replica copies).map fun replica =>
              net.store dst replica r.2
      else none

/-- No server has joined. -/
def start (capacity : ℕ → ℕ) (hcap : ∀ s, 0 < capacity s) (overflow : ℕ → Bool) : Net where
  nodes := fun s => ⟨.start (capacity s) (hcap s) (overflow s), [], false⟩
  registered := []
  wire := []
  pending := []
  pubs := []
  replies := fun _ => []

/-- The messages in the matrix of a server. -/
def stored (net : Net) (s : ℕ) : List Copy := (net.nodes s).replica.recent

/-- No frame is in flight and no connection waits to be accepted. -/
def Quiet (net : Net) : Prop := net.wire = [] ∧ net.pending = []

/-! ### What a step changes at a server -/

section Nodes

variable (net : Net) (s t client : ℕ) (olds : List ℕ) (r : Replica) (m : Message) (wire : List Packet)

@[simp] theorem replica_join : ((net.join s olds).nodes t).replica = (net.nodes t).replica := by
  by_cases h : t = s <;> simp [Net.join, h]

@[simp] theorem msgsrvList_join : ((net.join s olds).nodes t).msgsrvList
    = if t = s then olds else (net.nodes t).msgsrvList := by
  by_cases h : t = s <;> simp [Net.join, h]

@[simp] theorem isJoinComplete_join : ((net.join s olds).nodes t).isJoinComplete
    = if t = s then true else (net.nodes t).isJoinComplete := by
  by_cases h : t = s <;> simp [Net.join, h]

@[simp] theorem replica_accept :
    ((net.accept client s).nodes t).replica = (net.nodes t).replica := by
  by_cases h : t = s <;> simp [Net.accept, h]

@[simp] theorem msgsrvList_accept : ((net.accept client s).nodes t).msgsrvList
    = if t = s then client :: (net.nodes t).msgsrvList else (net.nodes t).msgsrvList := by
  by_cases h : t = s <;> simp [Net.accept, h]

@[simp] theorem isJoinComplete_accept :
    ((net.accept client s).nodes t).isJoinComplete = (net.nodes t).isJoinComplete := by
  by_cases h : t = s <;> simp [Net.accept, h]

@[simp] theorem replica_publish : ((net.publish s r m).nodes t).replica
    = if t = s then r else (net.nodes t).replica := by
  by_cases h : t = s <;> simp [Net.publish, h]

@[simp] theorem msgsrvList_publish :
    ((net.publish s r m).nodes t).msgsrvList = (net.nodes t).msgsrvList := by
  by_cases h : t = s <;> simp [Net.publish, h]

@[simp] theorem isJoinComplete_publish :
    ((net.publish s r m).nodes t).isJoinComplete = (net.nodes t).isJoinComplete := by
  by_cases h : t = s <;> simp [Net.publish, h]

@[simp] theorem replica_store : ((net.store s r wire).nodes t).replica
    = if t = s then r else (net.nodes t).replica := by
  by_cases h : t = s <;> simp [Net.store, h]

@[simp] theorem msgsrvList_store :
    ((net.store s r wire).nodes t).msgsrvList = (net.nodes t).msgsrvList := by
  by_cases h : t = s <;> simp [Net.store, h]

@[simp] theorem isJoinComplete_store :
    ((net.store s r wire).nodes t).isJoinComplete = (net.nodes t).isJoinComplete := by
  by_cases h : t = s <;> simp [Net.store, h]

@[simp] theorem nodes_answer (src dst : ℕ) : (net.answer src dst wire).nodes = net.nodes := rfl

theorem replies_answer (src dst : ℕ) : (net.answer src dst wire).replies t
    = if t = src then net.replies t ++ [(Frame.smessages (net.nodes dst).replica.recent).ids]
      else net.replies t := by
  by_cases h : t = src <;> simp [Net.answer, h]

end Nodes

/-! ### What a step can do -/

theorem hasRoom_of_inRoom {r r' : Replica} (h : inRoom r = some r') : r' = r ∧ HasRoom r := by
  rw [inRoom] at h
  split at h
  · rename_i hroom
    exact ⟨(Option.some.inj h).symm, hroom⟩
  · simp at h

theorem ends_of_receive {src dst : ℕ} {wire rest : List Packet} {p : Packet}
    (h : receive (onChannel src dst) wire = some (p, rest)) : p.src = src ∧ p.dst = dst := by
  have := (receive_perm h).1
  simpa only [onChannel, Bool.and_eq_true, beq_iff_eq] using this

/-- What a step can do. -/
inductive Stepped (net : Net) : Net → Prop where
  | join {s : ℕ} {listed : List ℕ} (hnew : (net.nodes s).isJoinComplete = false)
      (hlisted : listed.Perm (s :: net.registered)) :
      Stepped net (net.join s (joinToOldServers s listed))
  | accept {client s : ℕ} (hpending : (client, s) ∈ net.pending) :
      Stepped net (net.accept client s)
  | publish {s : ℕ} {r : Replica} {m : Message} (hjoined : (net.nodes s).isJoinComplete = true)
      (hpub : Replica.PublishedAs (net.nodes s).replica r net.pubs.length m) (hroom : HasRoom r) :
      Stepped net (net.publish s r m)
  | answer {src dst : ℕ} {p : Packet} {rest : List Packet}
      (hrecv : receive (onChannel src dst) net.wire = some (p, rest))
      (hframe : p.frame = .sgetMessages) : Stepped net (net.answer src dst rest)
  | store {src dst : ℕ} {p : Packet} {rest : List Packet} {copies : List Copy} {r : Replica}
      (hrecv : receive (onChannel src dst) net.wire = some (p, rest))
      (hframe : p.frame = .smessages copies)
      (hrun : run storeInRoom (net.nodes dst).replica copies = some r) :
      Stepped net (net.store dst r rest)

/-- **Every step does one of these.** -/
theorem stepped_of_step {net net' : Net} {a : Action} (h : step net a = some net') :
    Stepped net net' := by
  cases a with
  | join s listed =>
    rw [step] at h
    split at h
    · rename_i hand
      exact Option.some.inj h ▸ .join hand.1 hand.2
    · simp at h
  | accept client s =>
    rw [step] at h
    split at h
    · rename_i hmem
      exact Option.some.inj h ▸ .accept hmem
    · simp at h
  | publish s datagram =>
    rw [step] at h
    split at h
    · rename_i hjoined
      obtain ⟨⟨r, m⟩, hpub, hmap⟩ := Option.bind_eq_some_iff.mp h
      obtain ⟨r', hroom, rfl⟩ := Option.map_eq_some_iff.mp hmap
      obtain ⟨rfl, hroom⟩ := hasRoom_of_inRoom hroom
      exact .publish hjoined (Replica.publish_eq_some hpub) hroom
    · simp at h
  | deliver src dst =>
    rw [step] at h
    split at h
    · obtain ⟨⟨p, rest⟩, hrecv, htreat⟩ := Option.bind_eq_some_iff.mp h
      cases hframe : p.frame with
      | sgetMessages =>
        simp only [hframe, Option.some.injEq] at htreat
        exact htreat ▸ .answer hrecv hframe
      | smessages copies =>
        simp only [hframe] at htreat
        obtain ⟨r, hrun, rfl⟩ := Option.map_eq_some_iff.mp htreat
        exact .store hrecv hframe hrun
    · simp at h

/-! ### Counting the copies of a publication -/

def keptCount (net : Net) (s id : ℕ) : ℕ := ((net.nodes s).replica.kept.map Copy.id).count id

/-- The copies of a publication a packet brings to a server. -/
def Packet.carries (s id : ℕ) (p : Packet) : ℕ := if p.dst = s then p.frame.ids.count id else 0

def inFlight (net : Net) (s id : ℕ) : ℕ := total (Packet.carries s id) net.wire

/-- How often a publication with a text was written to a server by its own server.  One without a text is
written all the same, as a line that no peer stores, and does not count. -/
def Pub.sharedTo (p : Pub) (s : ℕ) : ℕ := if p.content = [] then 0 else p.sharedWith.count s

/-- The copies that a publication makes at a server at once or on its way there. -/
def published (pubs : List Pub) (s id : ℕ) : ℕ :=
  match pubs[id]? with
  | none => 0
  | some p => (if p.server = s then 1 else 0) + p.sharedTo s

/-- The publications in the replies to a server; the lines without a text do not count. -/
def answered (net : Net) (s : ℕ) : List ℕ := (net.replies s).flatten

/-- A copy has the text of its publication. -/
def Genuine (pubs : List Pub) (c : Copy) : Prop :=
  ∃ p, pubs[c.id]? = some p ∧ c.message.content = p.content ∧ Replica.OneLine p.content

structure Inv (net : Net) : Prop where
  room : ∀ s, HasRoom (net.nodes s).replica
  kept : ∀ s, ∀ c ∈ (net.nodes s).replica.kept, Genuine net.pubs c
  wire : ∀ p ∈ net.wire, ∀ c ∈ p.frame.copies, Genuine net.pubs c
  answers : ∀ s, ∀ id ∈ answered net s, id < net.pubs.length
  conserved : ∀ s id, keptCount net s id + inFlight net s id
    = published net.pubs s id + (answered net s).count id

theorem inv_start (capacity : ℕ → ℕ) (hcap : ∀ s, 0 < capacity s) (overflow : ℕ → Bool) :
    Inv (start capacity hcap overflow) where
  room := fun s => Nat.zero_le _
  kept := by simp [start, Replica.start]
  wire := by simp [start]
  answers := by simp [start, answered]
  conserved := by
    intro s id
    simp [keptCount, inFlight, published, answered, start, Replica.start]

theorem Genuine.lt {pubs : List Pub} {c : Copy} (h : Genuine pubs c) : c.id < pubs.length := by
  obtain ⟨p, hp, _⟩ := h
  exact (List.getElem?_eq_some_iff.mp hp).1

theorem Genuine.append {pubs : List Pub} {c : Copy} (h : Genuine pubs c) (more : List Pub) :
    Genuine (pubs ++ more) c := by
  obtain ⟨p, hp, hline⟩ := h
  exact ⟨p, by rw [List.getElem?_append_left (List.getElem?_eq_some_iff.mp hp).1, hp], hline⟩

/-! ### What a server stores of a frame -/

/-- **A frame is stored line by line**, except for the lines without a text. -/
theorem run_storeInRoom {r r' : Replica} {copies : List Copy}
    (hline : ∀ c ∈ copies, Replica.OneLine c.message.content)
    (h : run storeInRoom r copies = some r') :
    ∃ new, r'.kept = r.kept ++ new
      ∧ new.map (fun c => (c.id, c.message.content))
        = (copies.filter fun c => c.message.content != []).map fun c => (c.id, c.message.content) := by
  induction copies generalizing r with
  | nil =>
    rw [run_nil, Option.some.injEq] at h
    exact ⟨[], by rw [h, List.append_nil], rfl⟩
  | cons c copies ih =>
    rw [run_cons] at h
    obtain ⟨r₁, h₁, hrest⟩ := Option.bind_eq_some_iff.mp h
    obtain ⟨new, hkept, hnew⟩ := ih (fun d hd => hline d (by simp [hd])) hrest
    obtain ⟨r₂, hstore, hroom⟩ := Option.bind_eq_some_iff.mp h₁
    obtain ⟨rfl, -⟩ := hasRoom_of_inRoom hroom
    rcases Replica.storeLine_content (hline c (by simp)) hstore with ⟨hempty, rfl⟩ | ⟨hne, lc, heq⟩
    · exact ⟨new, hkept, by rw [hnew, List.filter_cons_of_neg (by simp [hempty])]⟩
    · refine ⟨⟨⟨lc, c.message.content⟩, c.id⟩ :: new, ?_, ?_⟩
      · rw [hkept, heq, List.append_assoc, List.singleton_append]
      · rw [List.filter_cons_of_pos (by simp [hne]), List.map_cons, List.map_cons, hnew]

/-- A frame is only stored where there is room. -/
theorem hasRoom_run {r r' : Replica} {copies : List Copy} (hr : HasRoom r)
    (h : run storeInRoom r copies = some r') : HasRoom r' := by
  refine run_invariant (P := HasRoom) ?_ hr h
  intro r₁ c r₂ _ h₁
  obtain ⟨r₃, _, hroom⟩ := Option.bind_eq_some_iff.mp h₁
  obtain ⟨rfl, hroom⟩ := hasRoom_of_inRoom hroom
  exact hroom

/-! ### One step -/

/-- A step that stores nothing and at most sends requests keeps the invariant. -/
theorem Inv.of_requests {net net' : Net} (hinv : Inv net)
    (hnodes : ∀ s, (net'.nodes s).replica = (net.nodes s).replica) {requests : List Packet}
    (hwire : net'.wire = net.wire ++ requests) (hreq : ∀ p ∈ requests, p.frame = .sgetMessages)
    (hpubs : net'.pubs = net.pubs) (hreplies : net'.replies = net.replies) : Inv net' where
  room := by
    intro s
    rw [hnodes]
    exact hinv.room s
  kept := by
    intro s
    rw [hnodes, hpubs]
    exact hinv.kept s
  wire := by
    intro p hp c hc
    rw [hwire] at hp
    rw [hpubs]
    rcases List.mem_append.mp hp with hp | hp
    · exact hinv.wire p hp c hc
    · rw [hreq p hp, Frame.copies] at hc
      simp at hc
  answers := by
    intro s
    rw [answered, hreplies, hpubs]
    exact hinv.answers s
  conserved := by
    intro s id
    have hzero : total (Packet.carries s id) requests = 0 := by
      apply total_eq_zero
      intro p hp
      rw [Packet.carries, hreq p hp]
      simp [Frame.ids, Frame.copies]
    have hold := hinv.conserved s id
    rw [keptCount, inFlight, answered] at hold ⊢
    rw [hnodes, hwire, hpubs, hreplies, total_append, hzero, Nat.add_zero, hold]

theorem inv_join {net : Net} (hinv : Inv net) (s : ℕ) (olds : List ℕ) : Inv (net.join s olds) := by
  refine hinv.of_requests (fun t => replica_join net s t olds) rfl ?_ rfl rfl
  intro p hp
  obtain ⟨d, _, rfl⟩ := List.mem_map.mp hp
  rfl

theorem inv_accept {net : Net} (hinv : Inv net) (client s : ℕ) : Inv (net.accept client s) :=
  hinv.of_requests (fun t => replica_accept net s t client) (List.append_nil _).symm (by simp) rfl rfl

/-- What sharing a message puts on the wire. -/
theorem total_shareWith (s t id : ℕ) (msgsrvList : List ℕ) (copy : Copy) :
    total (Packet.carries t id) (shareWith s msgsrvList copy)
      = if copy.id = id ∧ copy.message.content ≠ [] then msgsrvList.count t else 0 := by
  induction msgsrvList with
  | nil => simp [shareWith]
  | cons d msgsrvList ih =>
    have hhead : Packet.carries t id ⟨s, d, .smessages [copy]⟩
        = if copy.id = id ∧ copy.message.content ≠ [] then (if d = t then 1 else 0) else 0 := by
      rw [Packet.carries, Frame.ids, Frame.copies]
      by_cases hempty : copy.message.content = []
      · simp [hempty]
      · by_cases hid : copy.id = id
        · simp [hempty, hid]
        · simp [hempty, hid]
    have hcons := total_append (Packet.carries t id) [⟨s, d, .smessages [copy]⟩]
      (shareWith s msgsrvList copy)
    rw [total_singleton, ih, hhead, List.singleton_append] at hcons
    rw [shareWith, List.map_cons]
    rw [shareWith] at hcons
    rw [hcons, List.count_cons]
    by_cases hd : d = t
    · split <;> simp [hd, Nat.add_comm]
    · split <;> simp [hd]

theorem published_append (pubs : List Pub) (p : Pub) (s id : ℕ) :
    published (pubs ++ [p]) s id
      = published pubs s id
        + if id = pubs.length then (if p.server = s then 1 else 0) + p.sharedTo s else 0 := by
  rcases lt_trichotomy id pubs.length with hlt | rfl | hgt
  · rw [published, published, List.getElem?_append_left hlt, if_neg (by omega), Nat.add_zero]
  · rw [published, published, List.getElem?_concat_length, List.getElem?_eq_none (by omega),
      if_pos rfl, Nat.zero_add]
  · rw [published, published, List.getElem?_eq_none (by simp; omega),
      List.getElem?_eq_none (by omega), if_neg (by omega)]

theorem keptCount_publish {net : Net} {s : ℕ} {r : Replica} {m : Message}
    (hkept : r.kept = (net.nodes s).replica.kept ++ [⟨m, net.pubs.length⟩]) (t id : ℕ) :
    keptCount (net.publish s r m) t id
      = keptCount net t id + if id = net.pubs.length ∧ s = t then 1 else 0 := by
  rw [keptCount, keptCount, replica_publish]
  by_cases ht : t = s
  · subst ht
    rw [if_pos rfl, hkept, List.map_append, List.count_append, List.map_singleton,
      List.count_singleton]
    by_cases hid : id = net.pubs.length
    · simp [hid]
    · simp [hid, Ne.symm hid]
  · rw [if_neg ht, if_neg (fun hand => ht hand.2.symm), Nat.add_zero]

/-- The message counts once where it was published, and for every connection it is written to. -/
theorem conserved_publish {net : Net} {s : ℕ} {r : Replica} {m : Message}
    (hkept : r.kept = (net.nodes s).replica.kept ++ [⟨m, net.pubs.length⟩]) {t id : ℕ}
    (hold : keptCount net t id + inFlight net t id
      = published net.pubs t id + (answered net t).count id) :
    keptCount (net.publish s r m) t id + inFlight (net.publish s r m) t id
      = published (net.publish s r m).pubs t id + (answered (net.publish s r m) t).count id := by
  show keptCount (net.publish s r m) t id
    + total (Packet.carries t id) (net.wire ++ shareWith s _ ⟨m, net.pubs.length⟩)
    = published (net.pubs ++ [_]) t id + (answered net t).count id
  rw [keptCount_publish hkept, total_append, total_shareWith, published_append, Pub.sharedTo]
  rw [inFlight] at hold
  by_cases hid : id = net.pubs.length
  · by_cases hempty : m.content = []
    · simp only [hid, hempty, true_and, if_true, ne_eq, not_true_eq_false, and_false,
        if_false] at hold ⊢
      omega
    · simp only [hid, hempty, true_and, if_true, ne_eq, not_false_eq_true, and_true,
        if_false] at hold ⊢
      omega
  · have hid' : ¬net.pubs.length = id := fun heq => hid heq.symm
    simp only [hid, hid', false_and, if_false, Nat.add_zero]
    exact hold

theorem inv_publish {net : Net} {s : ℕ} {r : Replica} {m : Message} (hinv : Inv net)
    (hpub : Replica.PublishedAs (net.nodes s).replica r net.pubs.length m) (hroom : HasRoom r) :
    Inv (net.publish s r m) := by
  obtain ⟨_, _, hkept, hline⟩ := hpub
  have hgenuine : Genuine (net.pubs ++ [⟨s, m.content, (net.nodes s).msgsrvList⟩])
      ⟨m, net.pubs.length⟩ := ⟨_, List.getElem?_concat_length, rfl, hline⟩
  constructor
  · intro t
    rw [replica_publish]
    split
    · exact hroom
    · exact hinv.room t
  · intro t c hc
    rw [replica_publish] at hc
    split at hc
    · rw [hkept, List.mem_append, List.mem_singleton] at hc
      rcases hc with hc | rfl
      · exact (hinv.kept s c hc).append _
      · exact hgenuine
    · exact (hinv.kept t c hc).append _
  · intro p hp c hc
    rcases List.mem_append.mp hp with hp | hp
    · exact (hinv.wire p hp c hc).append _
    · obtain ⟨d, _, rfl⟩ := List.mem_map.mp hp
      rw [Frame.copies, List.mem_singleton] at hc
      rw [hc]
      exact hgenuine
  · intro t id hid
    have := hinv.answers t id hid
    rw [Net.publish, List.length_append, List.length_singleton]
    omega
  · intro t id
    exact conserved_publish hkept (hinv.conserved t id)

theorem Genuine.of_eq {pubs : List Pub} {c d : Copy} (h : Genuine pubs d) (hid : c.id = d.id)
    (hcontent : c.message.content = d.message.content) : Genuine pubs c := by
  obtain ⟨p, hp, heq, hline⟩ := h
  exact ⟨p, by rw [hid, hp], by rw [hcontent, heq], hline⟩

theorem Genuine.oneLine {pubs : List Pub} {c : Copy} (h : Genuine pubs c) :
    Replica.OneLine c.message.content := by
  obtain ⟨p, _, heq, hline⟩ := h
  exact heq ▸ hline

/-- A request is answered with the messages the matrix still has. -/
theorem inv_answer {net : Net} {src dst : ℕ} {p : Packet} {rest : List Packet} (hinv : Inv net)
    (hrecv : receive (onChannel src dst) net.wire = some (p, rest))
    (hframe : p.frame = .sgetMessages) : Inv (net.answer src dst rest) := by
  have hsub := (mem_of_receive hrecv).2
  have hrecent : ∀ c ∈ (net.nodes dst).replica.recent, Genuine net.pubs c :=
    fun c hc => hinv.kept dst c (Replica.mem_kept_of_mem_recent hc)
  constructor
  · exact hinv.room
  · exact hinv.kept
  · intro q hq c hc
    rcases List.mem_append.mp hq with hq | hq
    · exact hinv.wire q (hsub hq) c hc
    · rw [List.mem_singleton.mp hq] at hc
      exact hrecent c hc
  · intro t id hid
    rw [answered, replies_answer] at hid
    split at hid
    · rw [List.flatten_append, List.flatten_singleton, List.mem_append] at hid
      rcases hid with hid | hid
      · exact hinv.answers t id hid
      · obtain ⟨c, hc, rfl⟩ := List.mem_map.mp hid
        exact (hrecent c (List.mem_of_mem_filter hc)).lt
    · exact hinv.answers t id hid
  · intro t id
    have hold := hinv.conserved t id
    have hzero : Packet.carries t id p = 0 := by
      rw [Packet.carries, hframe]
      simp [Frame.ids, Frame.copies]
    rw [inFlight, total_receive (Packet.carries t id) hrecv, hzero, Nat.zero_add] at hold
    show keptCount net t id
        + total (Packet.carries t id) (rest ++ [⟨dst, src, .smessages (net.nodes dst).replica.recent⟩])
      = published net.pubs t id + (answered (net.answer src dst rest) t).count id
    rw [total_append, total_singleton, Packet.carries, answered, replies_answer]
    rw [answered] at hold
    dsimp only
    by_cases ht : t = src
    · subst ht
      rw [if_pos rfl, if_pos rfl, List.flatten_append, List.flatten_singleton, List.count_append]
      omega
    · rw [if_neg ht, if_neg (Ne.symm ht)]
      omega

theorem keptCount_store {net : Net} {dst : ℕ} {r : Replica} {new : List Copy}
    (hkept : r.kept = (net.nodes dst).replica.kept ++ new) (rest : List Packet) (t id : ℕ) :
    keptCount (net.store dst r rest) t id
      = keptCount net t id + if t = dst then (new.map Copy.id).count id else 0 := by
  rw [keptCount, keptCount, replica_store]
  by_cases ht : t = dst
  · subst ht
    rw [if_pos rfl, if_pos rfl, hkept, List.map_append, List.count_append]
  · rw [if_neg ht, if_neg ht, Nat.add_zero]

/-- A frame with messages is stored. -/
theorem inv_store {net : Net} {src dst : ℕ} {p : Packet} {rest : List Packet} {copies : List Copy}
    {r : Replica} (hinv : Inv net) (hrecv : receive (onChannel src dst) net.wire = some (p, rest))
    (hframe : p.frame = .smessages copies)
    (hrun : run storeInRoom (net.nodes dst).replica copies = some r) :
    Inv (net.store dst r rest) := by
  obtain ⟨hmem, hsub⟩ := mem_of_receive hrecv
  have hgenuine : ∀ c ∈ copies, Genuine net.pubs c := by
    intro c hc
    refine hinv.wire p hmem c ?_
    rwa [hframe]
  obtain ⟨new, hkept, hnew⟩ := run_storeInRoom (fun c hc => (hgenuine c hc).oneLine) hrun
  have hids : new.map Copy.id = (Frame.smessages copies).ids := by
    have := congrArg (List.map Prod.fst) hnew
    rwa [List.map_map, List.map_map] at this
  constructor
  · intro t
    rw [replica_store]
    split
    · exact hasRoom_run (hinv.room dst) hrun
    · exact hinv.room t
  · intro t c hc
    rw [replica_store] at hc
    split at hc
    · rw [hkept] at hc
      rcases List.mem_append.mp hc with hc | hc
      · exact hinv.kept dst c hc
      · have hpair : (c.id, c.message.content) ∈ new.map fun c => (c.id, c.message.content) :=
          List.mem_map_of_mem hc
        rw [hnew] at hpair
        obtain ⟨d, hd, heq⟩ := List.mem_map.mp hpair
        rw [Prod.mk.injEq] at heq
        exact (hgenuine d (List.mem_of_mem_filter hd)).of_eq heq.1.symm heq.2.symm
    · exact hinv.kept t c hc
  · exact fun q hq c hc => hinv.wire q (hsub hq) c hc
  · exact hinv.answers
  · intro t id
    have hold := hinv.conserved t id
    rw [inFlight, total_receive (Packet.carries t id) hrecv, Packet.carries,
      (ends_of_receive hrecv).2, hframe] at hold
    show keptCount (net.store dst r rest) t id + total (Packet.carries t id) rest
      = published net.pubs t id + (answered net t).count id
    rw [keptCount_store hkept, hids]
    by_cases ht : t = dst
    · subst ht
      rw [if_pos rfl] at hold ⊢
      omega
    · rw [if_neg (Ne.symm ht)] at hold
      rw [if_neg ht]
      omega

/-- **Every step keeps the invariant.** -/
theorem inv_step (net : Net) (a : Action) (net' : Net) (hinv : Inv net)
    (h : step net a = some net') : Inv net' := by
  cases stepped_of_step h with
  | join _ _ => exact inv_join hinv _ _
  | accept _ => exact inv_accept hinv _ _
  | publish _ hpub hroom => exact inv_publish hinv hpub hroom
  | answer hrecv hframe => exact inv_answer hinv hrecv hframe
  | store hrecv hframe hrun => exact inv_store hinv hrecv hframe hrun

section Reachable

variable {capacity : ℕ → ℕ} {hcap : ∀ s, 0 < capacity s} {overflow : ℕ → Bool}
  {acts : List Action} {net : Net}

theorem inv_run (h : run step (start capacity hcap overflow) acts = some net) : Inv net :=
  run_invariant inv_step (inv_start capacity hcap overflow) h

/-- **The copies of a publication at a server and on their way to it** are those that its server made
and those in the replies. -/
theorem conserved_run (h : run step (start capacity hcap overflow) acts = some net) (s id : ℕ) :
    keptCount net s id + inFlight net s id = published net.pubs s id + (answered net s).count id :=
  (inv_run h).conserved s id

/-- Within the capacity a matrix has all it was given. -/
theorem stored_eq (h : run step (start capacity hcap overflow) acts = some net) (s : ℕ) :
    stored net s = (net.nodes s).replica.kept := by
  have hroom := (inv_run h).room s
  rw [HasRoom] at hroom
  rw [stored, Replica.recent, Nat.sub_eq_zero_of_le hroom, List.drop_zero]

/-! ### Which messages a server has -/

/-- **Which messages a server has.**  Once nothing is in flight, a server stores a message with its
text if it was published there, if its server had the connection to it when it was published, or if
the reply to its `SGET_MESSAGES` had it; a message without a text stays at its server. -/
theorem stored_iff (h : run step (start capacity hcap overflow) acts = some net) (hquiet : Quiet net)
    {s id : ℕ} {p : Pub} (hp : net.pubs[id]? = some p) :
    (∃ lc, ⟨⟨lc, p.content⟩, id⟩ ∈ stored net s)
      ↔ p.server = s ∨ p.content ≠ [] ∧ s ∈ p.sharedWith ∨ id ∈ answered net s := by
  have hinv := inv_run h
  have hconserved := hinv.conserved s id
  have hnone : inFlight net s id = 0 := by rw [inFlight, hquiet.1, total_nil]
  have hkept : (∃ lc, ⟨⟨lc, p.content⟩, id⟩ ∈ stored net s) ↔ 0 < keptCount net s id := by
    rw [stored_eq h, keptCount, List.count_pos_iff, List.mem_map]
    constructor
    · intro ⟨lc, hmem⟩
      exact ⟨_, hmem, rfl⟩
    · intro ⟨c, hmem, hid⟩
      obtain ⟨q, hq, hcontent, _⟩ := hinv.kept s c hmem
      rw [hid, hp, Option.some.injEq] at hq
      refine ⟨c.message.lc, ?_⟩
      rw [hq, ← hcontent, ← hid]
      exact hmem
  have hserver : (0 < if p.server = s then 1 else 0) ↔ p.server = s := by
    by_cases heq : p.server = s
    · simp [heq]
    · simp [heq]
  rw [hnone, Nat.add_zero, published, hp] at hconserved
  rw [hkept, hconserved, Nat.add_pos_iff_pos_or_pos, Nat.add_pos_iff_pos_or_pos, or_assoc,
    List.count_pos_iff, Pub.sharedTo, hserver]
  by_cases hempty : p.content = []
  · simp [hempty]
  · simp [hempty]

end Reachable

/-- Server 1 publishes after server 2 has connected to it and before it has accepted; server 0, which
server 2 asks, learns the message after its reply. -/
def acceptedLate : List Action :=
  [.join 0 [0], .join 1 [0, 1], .accept 1 0, .deliver 1 0, .deliver 0 1, .join 2 [0, 1, 2],
    .publish 1 (ascii "PUBLISH hello"), .accept 2 0, .deliver 2 0, .deliver 0 2, .accept 2 1,
    .deliver 1 0]

theorem stored_iff_acceptedLate :
    ∃ net, run step (start (fun _ => 4) (fun _ => by decide) fun _ => false) acceptedLate = some net
      ∧ ((∃ lc, ⟨⟨lc, ascii "hello"⟩, 0⟩ ∈ stored net 0)
        ↔ 1 = 0 ∨ ascii "hello" ≠ [] ∧ 0 ∈ [0] ∨ 0 ∈ answered net 0) := by
  have hnet : (run step (start (fun _ => 4) (fun _ => by decide) fun _ => false) acceptedLate).map
      (fun net => (net.wire, net.pending, net.pubs)) = some ([], [], [⟨1, ascii "hello", [0]⟩]) := by
    rfl
  obtain ⟨net, hrun, heq⟩ := Option.map_eq_some_iff.mp hnet
  simp only [Prod.mk.injEq] at heq
  exact ⟨net, hrun, stored_iff hrun ⟨heq.1, heq.2.1⟩ (p := ⟨1, ascii "hello", [0]⟩) (by
    rw [heq.2.2]
    rfl)⟩

/-- **A message can be lost** to a server that joins. -/
theorem lost_on_join :
    ∃ net p, run step (start (fun _ => 4) (fun _ => by decide) fun _ => false) acceptedLate = some net
      ∧ Quiet net ∧ (net.nodes 2).isJoinComplete = true ∧ net.pubs[0]? = some p
      ∧ ¬∃ lc, ⟨⟨lc, p.content⟩, 0⟩ ∈ stored net 2 := by
  have hnet : (run step (start (fun _ => 4) (fun _ => by decide) fun _ => false) acceptedLate).map
      (fun net => (net.wire, net.pending, net.pubs, (net.nodes 2).isJoinComplete, stored net 2))
      = some ([], [], [⟨1, ascii "hello", [0]⟩], true, []) := by rfl
  obtain ⟨net, hrun, heq⟩ := Option.map_eq_some_iff.mp hnet
  simp only [Prod.mk.injEq] at heq
  obtain ⟨hwire, hpending, hpubs, hjoined, hstored⟩ := heq
  refine ⟨net, ⟨1, ascii "hello", [0]⟩, hrun, ⟨hwire, hpending⟩, hjoined, by rw [hpubs]; rfl, ?_⟩
  simp [hstored]

end JoinPropagation

end MessageBoard
