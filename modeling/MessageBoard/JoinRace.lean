import MessageBoard.Lib.Channel
import MessageBoard.MsgservIdentity

/-!
# Joins that race

Any number of servers join at the same time.  Each registers, asks for the list, walks it and
connects; the id server handles one datagram at a time, the datagrams of a socket in their order.
The id server and what it does with a datagram are a parameter; a call of `handle_join` that got no
list may be repeated, on a new socket.

* `stepped_of_step` — what a step can do;
* `KeepsEntries` — what is assumed of the id server;
* `Registry.keepsEntries` — an id server in the format of the source is one.
-/

namespace MessageBoard

open CText Run Channel

namespace JoinRace

/-- What tells two servers apart. -/
abbrev Address := Text × ℕ × ℕ

/-- An id server: what it does with a datagram, and the entries of a state. -/
structure IdServer (σ : Type) where
  handle : σ → Text → σ × Option Text
  entries : σ → List Address

/-- How far `handle_join` is. -/
inductive Stage where
  | idle
  /-- `reg_server` returned. -/
  | registered
  /-- `get_servers` sent its request. -/
  | asked
  /-- In the loop of `join_to_old_servers`, with `is_comm_sent`. -/
  | walking (isCommSent : Bool)
  | joined
  /-- A fatal error in the loop. -/
  | failed
  deriving DecidableEq, Repr

variable {n : ℕ}

structure Node (n : ℕ) where
  stage : Stage
  /-- The calls of `reg_server` so far; each makes a new socket. -/
  attempt : ℕ
  /-- The entries of `msgsrv_list` before `aux_node`. -/
  walked : List Server
  /-- The entries from `aux_node` on. -/
  ahead : List Server
  /-- Descriptors that `connect` opened, with the server at the other end. -/
  opened : List (ℤ × Fin n)
  /-- Descriptors that `accept` returned, with the server at the other end. -/
  accepted : List (ℤ × Fin n)
  /-- Replies that wait on the socket. -/
  replies : List Text
  /-- The entries of the id server whenever it answered this socket or an earlier one. -/
  answered : List (List Address)
  /-- The addresses of the list read. -/
  heard : List Address
  deriving DecidableEq

/-- `msgsrv_list`. -/
def Node.msgsrvList (node : Node n) : List Server := node.walked ++ node.ahead

structure Datagram (n : ℕ) where
  src : Fin n
  socket : ℕ
  text : Text
  deriving DecidableEq

structure Net (σ : Type) (n : ℕ) where
  idServer : σ
  nodes : Fin n → Node n
  /-- Datagrams on their way to the id server. -/
  datagrams : List (Datagram n)
  /-- Connections `(client, server)` that the server has not accepted. -/
  pending : List (Fin n × Fin n)

inductive Action (n : ℕ) where
  /-- `reg_server`. -/
  | register (i : Fin n)
  /-- `get_servers` up to its `sendto`. -/
  | ask (i : Fin n)
  /-- `update_reg`, after a time without a reply or at the timer. -/
  | updateReg (i : Fin n)
  /-- The id server takes the oldest datagram of a socket. -/
  | handle (i : Fin n) (socket : ℕ)
  /-- `recvfrom` returns a reply, and `parse_servers` reads it. -/
  | receive (i : Fin n)
  /-- `get_servers` returns without a reply. -/
  | giveUp (i : Fin n)
  /-- One turn of the loop of `join_to_old_servers`. -/
  | visit (i : Fin n) (o : Outcome)
  /-- The end of that loop. -/
  | finish (i : Fin n)
  /-- `tcp_new_comm` at `server` for a connection of `client`. -/
  | accept (client server : Fin n) (fd : ℤ) (ip : Text) (port : ℕ)

/-- Connections succeed. -/
def Action.Connects : Action n → Prop
  | .visit _ o => o.opens = true
  | _ => True

instance : DecidablePred (Action.Connects (n := n)) := fun a =>
  match a with
  | .visit _ o => inferInstanceAs (Decidable (o.opens = true))
  | .register _ | .ask _ | .updateReg _ | .handle _ _ | .receive _ | .giveUp _ | .finish _
  | .accept _ _ _ _ _ => isTrue trivial

/-- The kernel returns a descriptor that is not in use. -/
def Fresh (node : Node n) (fd : ℤ) : Prop :=
  0 < fd ∧ (∀ e ∈ node.msgsrvList, e.fd ≠ fd) ∧ (∀ row ∈ node.opened, row.1 ≠ fd)
    ∧ ∀ row ∈ node.accepted, row.1 ≠ fd

instance (node : Node n) (fd : ℤ) : Decidable (Fresh node fd) :=
  inferInstanceAs (Decidable (0 < fd ∧ (∀ e ∈ node.msgsrvList, e.fd ≠ fd)
    ∧ (∀ row ∈ node.opened, row.1 ≠ fd) ∧ ∀ row ∈ node.accepted, row.1 ≠ fd))

def onSocket (i : Fin n) (socket : ℕ) (d : Datagram n) : Bool := d.src == i && d.socket == socket

variable {σ : Type}

def Net.put (net : Net σ n) (i : Fin n) (node : Node n) : Net σ n :=
  { net with nodes := Function.update net.nodes i node }

def Net.send (net : Net σ n) (i : Fin n) (text : Text) : Net σ n :=
  { net with datagrams := net.datagrams ++ [⟨i, (net.nodes i).attempt, text⟩] }

/-- `reg_server`, on a new socket. -/
def Net.register (net : Net σ n) (i : Fin n) (text : Text) : Net σ n :=
  let node := net.nodes i
  (net.put i { node with stage := .registered, attempt := node.attempt + 1, replies := [] }).send i text

def Net.ask (net : Net σ n) (i : Fin n) : Net σ n :=
  (net.put i { net.nodes i with stage := .asked }).send i getServers

/-- The id server handles a datagram, and its reply goes to the socket; nobody reads a socket that
has been replaced. -/
def Net.handled (ids : IdServer σ) (net : Net σ n) (d : Datagram n) (rest : List (Datagram n)) :
    Net σ n :=
  let r := ids.handle net.idServer d.text
  let net' := { net with idServer := r.1, datagrams := rest }
  let node := net.nodes d.src
  match r.2 with
  | none => net'
  | some reply =>
      if d.socket = node.attempt then
        net'.put d.src { node with
          replies := node.replies ++ [reply]
          answered := node.answered ++ [ids.entries net.idServer] }
      else net'

/-- The list is read. -/
def Net.listed (net : Net σ n) (i : Fin n) (rest : List Text) (servers : List Server) : Net σ n :=
  net.put i { net.nodes i with
    stage := .walking false, walked := [], ahead := servers, replies := rest
    heard := servers.map Server.address }

/-- `handle_join` returns without a list. -/
def Net.refused (net : Net σ n) (i : Fin n) : Net σ n :=
  net.put i { net.nodes i with stage := .idle }

/-- The server that listens at the address of an entry. -/
def peerOf (hosts : Fin n → Server) (e : Server) : Option (Fin n) :=
  (List.finRange n).find? fun j => (hosts j).address = e.address

/-- The turn of the loop leaves the entry `e`; a connection to `peer` was opened. -/
def Net.visited (net : Net σ n) (i : Fin n) (sent : Bool) (e : Server) (rest : List Server)
    (connection : Option (ℤ × Fin n)) : Net σ n :=
  let node := net.nodes i
  { net.put i { node with
      stage := .walking sent, walked := node.walked ++ [e], ahead := rest
      opened := connection.toList ++ node.opened } with
    pending := net.pending ++ connection.toList.map fun row => (i, row.2) }

def Net.setStage (net : Net σ n) (i : Fin n) (stage : Stage) : Net σ n :=
  net.put i { net.nodes i with stage := stage }

/-- `tcp_new_comm`. -/
def Net.accept (net : Net σ n) (client server : Fin n) (fd : ℤ) (ip : Text) (port : ℕ) : Net σ n :=
  let node := net.nodes server
  { net.put server { node with
      walked := (tcpNewComm (some (fd, ip, port)) node.walked).2
      accepted := (fd, client) :: node.accepted } with
    pending := net.pending.erase (client, server) }

/-- One turn opens a connection. -/
def Opens (host : Server) (o : Outcome) (e : Server) : Prop :=
  differentServers e host = true ∧ e.fd = -2 ∧ o.opens = true

instance (host : Server) (o : Outcome) (e : Server) : Decidable (Opens host o e) :=
  inferInstanceAs (Decidable (differentServers e host = true ∧ e.fd = -2 ∧ o.opens = true))

/-- The connection that one turn opens. -/
def connection (hosts : Fin n → Server) (i : Fin n) (o : Outcome) (e : Server) :
    Option (ℤ × Fin n) :=
  if Opens (hosts i) o e then (peerOf hosts e).map fun j => (o.socketFd, j) else none

/-- The replies that are received fit the buffer; a descriptor that the kernel returns is new. -/
def step (ids : IdServer σ) (hosts : Fin n → Server) (net : Net σ n) : Action n → Option (Net σ n)
  | .register i =>
      if (net.nodes i).stage = .idle then some (net.register i (regMessage (hosts i))) else none
  | .ask i => if (net.nodes i).stage = .registered then some (net.ask i) else none
  | .updateReg i =>
      if (net.nodes i).stage = .asked ∨ (net.nodes i).stage = .joined then
        some (net.send i (MessageBoard.updateReg (hosts i)))
      else none
  | .handle i socket =>
      (receive (onSocket i socket) net.datagrams).map fun r => net.handled ids r.1 r.2
  | .receive i =>
      match (net.nodes i).stage, (net.nodes i).replies with
      | .asked, reply :: rest =>
          if reply.length < responseSize then
            (parseServers (some reply) (net.nodes i).msgsrvList).map fun r =>
              if r.1 = 0 then net.listed i rest r.2 else net.refused i
          else none
      | _, _ => none
  | .giveUp i => if (net.nodes i).stage = .asked then some (net.refused i) else none
  | .visit i o =>
      match (net.nodes i).stage, (net.nodes i).ahead with
      | .walking sent, e :: rest =>
          if Opens (hosts i) o e → Fresh (net.nodes i) o.socketFd then
            match joinToOldServer (hosts i) o e sent with
            | none => some (net.setStage i .failed)
            | some (e', sent') =>
                some (net.visited i sent' e' rest (connection hosts i o e))
          else none
      | _, _ => none
  | .finish i =>
      match (net.nodes i).stage, (net.nodes i).ahead with
      | .walking _, [] => some (net.setStage i .joined)
      | _, _ => none
  | .accept client server fd ip port =>
      if (net.nodes server).stage = .joined ∧ (client, server) ∈ net.pending
          ∧ Fresh (net.nodes server) fd then
        some (net.accept client server fd ip port)
      else none

/-- Nobody has called `handle_join`; the id server may have entries of others. -/
def start (s : σ) : Net σ n where
  idServer := s
  nodes := fun _ => ⟨.idle, 0, [], [], [], [], [], [], []⟩
  datagrams := []
  pending := []

/-- `i` has opened a connection to `j`. -/
def Opened (net : Net σ n) (i j : Fin n) : Prop := ∃ row ∈ (net.nodes i).opened, row.2 = j

instance (net : Net σ n) (i j : Fin n) : Decidable (Opened net i j) :=
  inferInstanceAs (Decidable (∃ row ∈ (net.nodes i).opened, row.2 = j))

/-! ### What a step changes -/

section Fields

variable (net : Net σ n) (i t : Fin n) (node : Node n) (text : Text)

@[simp] theorem nodes_put :
    (net.put i node).nodes t = if t = i then node else net.nodes t := by
  by_cases h : t = i <;> simp [Net.put, h]

@[simp] theorem idServer_put : (net.put i node).idServer = net.idServer := rfl

@[simp] theorem datagrams_put : (net.put i node).datagrams = net.datagrams := rfl

@[simp] theorem pending_put : (net.put i node).pending = net.pending := rfl

@[simp] theorem nodes_send : (net.send i text).nodes = net.nodes := rfl

@[simp] theorem idServer_send : (net.send i text).idServer = net.idServer := rfl

@[simp] theorem pending_send : (net.send i text).pending = net.pending := rfl

theorem datagrams_send : (net.send i text).datagrams
    = net.datagrams ++ [⟨i, (net.nodes i).attempt, text⟩] := rfl

end Fields

/-- What a step can do. -/
inductive Stepped (ids : IdServer σ) (hosts : Fin n → Server) (net : Net σ n) :
    Action n → Net σ n → Prop where
  | register {i : Fin n} (hstage : (net.nodes i).stage = .idle) :
      Stepped ids hosts net (.register i) (net.register i (regMessage (hosts i)))
  | ask {i : Fin n} (hstage : (net.nodes i).stage = .registered) :
      Stepped ids hosts net (.ask i) (net.ask i)
  | updateReg {i : Fin n} (hstage : (net.nodes i).stage = .asked ∨ (net.nodes i).stage = .joined) :
      Stepped ids hosts net (.updateReg i) (net.send i (MessageBoard.updateReg (hosts i)))
  | handled {i : Fin n} {socket : ℕ} {d : Datagram n} {rest : List (Datagram n)}
      (hrecv : receive (onSocket i socket) net.datagrams = some (d, rest)) :
      Stepped ids hosts net (.handle i socket) (net.handled ids d rest)
  | listed {i : Fin n} {reply : Text} {rest : List Text} {servers : List Server}
      (hstage : (net.nodes i).stage = .asked) (hreplies : (net.nodes i).replies = reply :: rest)
      (hfits : reply.length < responseSize)
      (hparse : parseServers (some reply) (net.nodes i).msgsrvList = some (0, servers)) :
      Stepped ids hosts net (.receive i) (net.listed i rest servers)
  | refused {i : Fin n} {a : Action n} (hstage : (net.nodes i).stage = .asked) :
      Stepped ids hosts net a (net.refused i)
  | failed {i : Fin n} {o : Outcome} {sent : Bool} (hstage : (net.nodes i).stage = .walking sent) :
      Stepped ids hosts net (.visit i o) (net.setStage i .failed)
  | visited {i : Fin n} {o : Outcome} {sent sent' : Bool} {e e' : Server} {rest : List Server}
      (hstage : (net.nodes i).stage = .walking sent) (hahead : (net.nodes i).ahead = e :: rest)
      (hfresh : Opens (hosts i) o e → Fresh (net.nodes i) o.socketFd)
      (hjoin : joinToOldServer (hosts i) o e sent = some (e', sent')) :
      Stepped ids hosts net (.visit i o) (net.visited i sent' e' rest (connection hosts i o e))
  | finish {i : Fin n} {sent : Bool} (hstage : (net.nodes i).stage = .walking sent)
      (hahead : (net.nodes i).ahead = []) :
      Stepped ids hosts net (.finish i) (net.setStage i .joined)
  | accept {client server : Fin n} {fd : ℤ} {ip : Text} {port : ℕ}
      (hstage : (net.nodes server).stage = .joined) (hpending : (client, server) ∈ net.pending)
      (hfresh : Fresh (net.nodes server) fd) :
      Stepped ids hosts net (.accept client server fd ip port) (net.accept client server fd ip port)

theorem stepped_of_receive {ids : IdServer σ} {hosts : Fin n → Server} {net net' : Net σ n}
    {i : Fin n} (h : step ids hosts net (.receive i) = some net') :
    Stepped ids hosts net (.receive i) net' := by
  rw [step] at h
  split at h
  · rename_i reply rest hstage hreplies
    split at h
    · rename_i hfits
      obtain ⟨⟨code, servers⟩, hparse, hmap⟩ := Option.map_eq_some_iff.mp h
      dsimp only at hmap
      split at hmap
      · rename_i hcode
        subst hcode hmap
        exact .listed hstage hreplies hfits hparse
      · exact hmap ▸ .refused hstage
    · simp at h
  · simp at h

theorem stepped_of_visit {ids : IdServer σ} {hosts : Fin n → Server} {net net' : Net σ n}
    {i : Fin n} {o : Outcome} (h : step ids hosts net (.visit i o) = some net') :
    Stepped ids hosts net (.visit i o) net' := by
  rw [step] at h
  split at h
  · rename_i sent e rest hstage hahead
    split at h
    · rename_i hfresh
      split at h
      · exact Option.some.inj h ▸ .failed hstage
      · rename_i e' sent' hjoin
        exact Option.some.inj h ▸ .visited hstage hahead hfresh hjoin
    · simp at h
  · simp at h

/-- **Every step does one of these.** -/
theorem stepped_of_step {ids : IdServer σ} {hosts : Fin n → Server} {net net' : Net σ n}
    {a : Action n} (h : step ids hosts net a = some net') : Stepped ids hosts net a net' := by
  cases a with
  | register i =>
    rw [step] at h
    split at h
    · rename_i hstage
      exact Option.some.inj h ▸ .register hstage
    · simp at h
  | ask i =>
    rw [step] at h
    split at h
    · rename_i hstage
      exact Option.some.inj h ▸ .ask hstage
    · simp at h
  | updateReg i =>
    rw [step] at h
    split at h
    · rename_i hstage
      exact Option.some.inj h ▸ .updateReg hstage
    · simp at h
  | handle i socket =>
    obtain ⟨⟨d, rest⟩, hrecv, rfl⟩ := Option.map_eq_some_iff.mp h
    exact .handled hrecv
  | receive i => exact stepped_of_receive h
  | giveUp i =>
    rw [step] at h
    split at h
    · rename_i hstage
      exact Option.some.inj h ▸ .refused hstage
    · simp at h
  | visit i o => exact stepped_of_visit h
  | finish i =>
    rw [step] at h
    split at h
    · rename_i sent hstage hahead
      exact Option.some.inj h ▸ .finish hstage hahead
    · simp at h
  | accept client server fd ip port =>
    rw [step] at h
    split at h
    · rename_i hand
      exact Option.some.inj h ▸ .accept hand.1 hand.2.1 hand.2.2
    · simp at h

section Handled

variable {ids : IdServer σ} {net : Net σ n}

/-- The id server answers a socket that is in use. -/
theorem handled_of_reply {d : Datagram n} {rest : List (Datagram n)} {reply : Text}
    (hreply : (ids.handle net.idServer d.text).2 = some reply)
    (hsocket : d.socket = (net.nodes d.src).attempt) :
    net.handled ids d rest
      = ({ net with idServer := (ids.handle net.idServer d.text).1, datagrams := rest } : Net σ n).put
          d.src { net.nodes d.src with
            replies := (net.nodes d.src).replies ++ [reply]
            answered := (net.nodes d.src).answered ++ [ids.entries net.idServer] } := by
  simp only [Net.handled, hreply, if_pos hsocket]

/-- A datagram that changes no server. -/
theorem handled_of_not {d : Datagram n} {rest : List (Datagram n)}
    (h : (ids.handle net.idServer d.text).2 = none ∨ d.socket ≠ (net.nodes d.src).attempt) :
    net.handled ids d rest
      = { net with idServer := (ids.handle net.idServer d.text).1, datagrams := rest } := by
  rcases h with hnone | hne
  · simp only [Net.handled, hnone]
  · cases hreply : (ids.handle net.idServer d.text).2 with
    | none => simp only [Net.handled, hreply]
    | some reply => simp only [Net.handled, hreply, if_neg hne]

end Handled

/-! ### The id server -/

/-- A reply that fits the buffer is read as a list with all these entries. -/
def Lists (reply : Text) (entries : List Address) : Prop :=
  reply.length < responseSize → ∃ l, parseServers (some reply) [] = some (0, l)
    ∧ ∀ a ∈ entries, a ∈ l.map Server.address

/-- The id server keeps its entries, enters a server that registers, and lists its entries. -/
structure KeepsEntries (ids : IdServer σ) (hosts : Fin n → Server) : Prop where
  keeps : ∀ s d, ∀ a ∈ ids.entries s, a ∈ ids.entries (ids.handle s d).1
  enters : ∀ s d i, cstr d = cstr (regMessage (hosts i)) →
    (hosts i).address ∈ ids.entries (ids.handle s d).1 ∧ (ids.handle s d).2 = none
  lists : ∀ s d, cstr d = request →
    ∃ reply, (ids.handle s d).2 = some reply ∧ Lists reply (ids.entries s)

theorem cstr_append_nul_eq (s : Text) : cstr (s ++ [nul]) = cstr s := by
  induction s with
  | nil => rfl
  | cons b s ih =>
    rw [List.cons_append, cstr, cstrBy, List.takeWhile_cons, cstr, cstrBy, List.takeWhile_cons]
    split
    · exact congrArg (b :: ·) ih
    · rfl

theorem cstr_regMessage_ne (host : Server) : cstr (regMessage host) ≠ request := by
  intro h
  have hhead := congrArg List.head? h
  revert hhead
  show some (82 : UInt8) = some 71 → False
  decide

/-! ### An id server in the format of the source -/

/-- Entries that can be read back, each address once. -/
structure Registry where
  servers : List Server
  plain : ∀ s ∈ servers, PlainServer s
  once : (servers.map Server.address).Nodup

namespace Registry

def empty : Registry := ⟨[], by simp, by simp⟩

/-- A new address is entered. -/
def enter (r : Registry) (s : Server) : Registry :=
  if h : PlainServer s ∧ s.address ∉ r.servers.map Server.address then
    ⟨s :: r.servers, List.forall_mem_cons.mpr ⟨h.1, r.plain⟩, List.nodup_cons.mpr ⟨h.2, r.once⟩⟩
  else r

def addresses (r : Registry) : List Address := r.servers.map Server.address

theorem addresses_enter (r : Registry) {s : Server} (hs : PlainServer s) :
    s.address ∈ (r.enter s).addresses ∧ ∀ a ∈ r.addresses, a ∈ (r.enter s).addresses := by
  rw [enter]
  split
  · rw [addresses, List.map_cons]
    exact ⟨List.mem_cons_self, fun a ha => List.mem_cons_of_mem _ ha⟩
  · rename_i hnot
    refine ⟨?_, fun a ha => ha⟩
    by_contra hmem
    exact hnot ⟨hs, hmem⟩

/-- The server a registration names. -/
def registered (text : Text) : Option Server :=
  if text.take 4 = ascii "REG " then parseServer (text.drop 4) else none

def handle (r : Registry) (datagram : Text) : Registry × Option Text :=
  if cstr datagram = request then (r, some (serversText r.servers))
  else ((registered (cstr datagram)).elim r r.enter, none)

theorem registered_regMessage {host : Server} (h : PlainServer host) :
    registered (regMessage host) = some (listed host) := by
  have htake : (regMessage host).take 4 = ascii "REG " := rfl
  rw [registered, if_pos htake, ← parseServer_serverLine h]
  rfl

theorem cstr_regMessage {host : Server} (h : PlainServer host) :
    cstr (regMessage host) = regMessage host := by
  apply cstr_eq_self
  have hline : nul ∉ serverLine host :=
    not_mem_serverLine h.1.2.2.2.2 h.2.1.2.2.2.2 (by decide) (by decide)
  intro hmem
  rcases List.mem_append.mp hmem with hmem | hmem
  · exact absurd hmem (by decide)
  · rcases List.mem_cons.mp hmem with hmem | hmem
    · exact absurd hmem (by decide)
    · exact hline hmem

/-- An entry that was entered is kept. -/
theorem addresses_handle (r : Registry) (datagram : Text) :
    ∀ a ∈ r.addresses, a ∈ (r.handle datagram).1.addresses := by
  intro a ha
  rw [handle]
  split
  · exact ha
  · cases registered (cstr datagram) with
    | none => exact ha
    | some s =>
      show a ∈ (r.enter s).addresses
      rw [enter]
      split
      · exact List.mem_cons_of_mem _ ha
      · exact ha

def idServer : IdServer Registry := ⟨handle, addresses⟩

theorem lists_serversText (r : Registry) : Lists (serversText r.servers) r.addresses := by
  intro hfits
  refine ⟨_, parseServers_serversText r.plain hfits [], ?_⟩
  intro a ha
  obtain ⟨s, hs, rfl⟩ := List.mem_map.mp ha
  rw [List.append_nil, List.mem_map]
  exact ⟨listed s, by simpa using ⟨s, hs, rfl⟩, address_listed s⟩

/-- **The assumptions on the id server can be met.** -/
theorem keepsEntries {hosts : Fin n → Server} (hplain : ∀ i, PlainServer (hosts i)) :
    KeepsEntries idServer hosts where
  keeps := addresses_handle
  enters := by
    intro r datagram i h
    have hne : cstr datagram ≠ request := by
      rw [h]
      exact cstr_regMessage_ne (hosts i)
    have hlisted : PlainServer (listed (hosts i)) := hplain i
    show (hosts i).address ∈ (handle r datagram).1.addresses ∧ (handle r datagram).2 = none
    rw [handle, if_neg hne, h, cstr_regMessage (hplain i), registered_regMessage (hplain i)]
    exact ⟨(addresses_enter r hlisted).1, rfl⟩
  lists := by
    intro r datagram h
    refine ⟨serversText r.servers, ?_, lists_serversText r⟩
    show (handle r datagram).2 = _
    rw [handle, if_pos h]

end Registry

/-- Two servers on one machine. -/
def twoHosts (i : Fin 2) : Server :=
  .new (ascii "server") (ascii "127.0.0.1") (9000 + i) (10000 + i)

/-- Both register before one asks for the list. -/
def race : List (Action 2) :=
  let connected : Outcome := ⟨3, true, true, true⟩
  [.register 0, .register 1, .handle 0 1, .handle 1 1, .ask 0, .ask 1, .handle 0 1, .handle 1 1,
    .receive 0, .receive 1, .visit 0 connected, .visit 0 connected, .visit 1 connected,
    .visit 1 connected, .finish 0, .finish 1, .accept 0 1 4 (ascii "127.0.0.1") 40000,
    .accept 1 0 4 (ascii "127.0.0.1") 40001]

end JoinRace

end MessageBoard
