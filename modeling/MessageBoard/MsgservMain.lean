import MessageBoard.MsgservIdentity
import MessageBoard.MsgservMessage
import MessageBoard.UtilList

/-!
# `msgserv/main`: the processing loop of a message server

One turn of the loop, up to `for_each_element` and with it.  What the calls of the kernel return is
an input: the kernel returns descriptors that are not in use, and a write to a closed one fails.
`opened` has the open descriptors of the connections.  A turn that breaks out of the loop reaches no
`for_each_element`, and is no turn here.

* `isBad`, `removeBadServers` — which entries should be purged, and which are.
-/

namespace MessageBoard

open CText

/-! ### Descriptors -/

/-- `close_fd`. -/
def closeFd (fd : ℤ) (opened : List ℤ) : List ℤ :=
  if fd = -1 then opened else opened.filter (· ≠ fd)

/-- `free_server`. -/
def freeServer (s : Server) (opened : List ℤ) : List ℤ :=
  if 0 < s.fd then closeFd s.fd opened else opened

/-- `close_communication`, and what `send_to_server` does after an error. -/
def closeCommunication (s : Server) : Server := { s with fd := -1, connected := false }

/-! ### The purge -/

/-- What `remove_bad_servers` asks of an entry. -/
def isBad (host s : Server) : Bool := s.fd == -1 || !differentServers s host

/-- The loop of `remove_bad_servers` from `aux_node` on, which is not looked at itself: the entries
that stay and those that are freed. -/
def removeNextServers (host : Server) : List Server → List Server × List Server
  | [] => ([], [])
  | [s] => ([s], [])
  | s :: next :: rest =>
      if isBad host next then
        let r := removeNextServers host rest
        (s :: r.1, next :: r.2)
      else
        let r := removeNextServers host (next :: rest)
        (s :: r.1, r.2)

/-- `remove_bad_servers`. -/
def removeBadServers (host : Server) : List Server → List Server × List Server
  | [] => ([], [])
  | s :: rest =>
      if isBad host s then
        let r := removeNextServers host rest
        (r.1, s :: r.2)
      else removeNextServers host (s :: rest)

/-! ### The state of the loop -/

/-- The list of servers and the open descriptors. -/
structure Peers where
  msgsrvList : List Server
  opened : List ℤ
  deriving DecidableEq

structure MsgservLoop where
  board : Board
  peers : Peers
  isJoinComplete : Bool
  gExit : Bool
  deriving DecidableEq

/-- What the calls of `handle_join` return; `outcome k` is the connection attempt at the `k`-th entry
of the list. -/
structure Join where
  registered : Bool
  received : Option Text
  outcome : ℕ → Outcome

/-- A line of the operator. -/
inductive Line where
  | join (j : Join)
  | exit
  | other

/-- What `recv` and `write` return for one entry. -/
structure Reading where
  recvs : List Text
  peerClosed : Bool
  written : ℕ → Bool

/-- What the calls of one turn return. -/
structure Turn where
  accepted : Option (ℤ × Text × ℕ)
  line : Option Line
  datagram : Option Text
  /-- `sendto` of the reply succeeds. -/
  sent : Bool
  /-- The writes of `share_last_message` to a descriptor succeed. -/
  writes : ℤ → Bool
  /-- `FD_ISSET`, and what is read. -/
  reading : ℤ → Option Reading

/-! ### The stages of a turn -/

/-- The purge. -/
def Peers.purge (host : Server) (p : Peers) : Peers :=
  let r := removeBadServers host p.msgsrvList
  ⟨r.1, r.2.foldl (fun opened s => freeServer s opened) p.opened⟩

/-- The kernel's choice of a descriptor. -/
def Fresh (fd : ℤ) (opened : List ℤ) : Prop := 0 ≤ fd ∧ fd ∉ opened

instance (fd : ℤ) (opened : List ℤ) : Decidable (Fresh fd opened) :=
  inferInstanceAs (Decidable (0 ≤ fd ∧ fd ∉ opened))

/-- `tcp_new_comm`. -/
def Peers.accept (accepted : Option (ℤ × Text × ℕ)) (p : Peers) : Option Peers :=
  match accepted with
  | none => some p
  | some conn =>
      if Fresh conn.1 p.opened then
        some ⟨(tcpNewComm (some conn) p.msgsrvList).2, conn.1 :: p.opened⟩
      else none

/-- The descriptors after a connection attempt: `connect_to_old_server` closes its socket when
`connect` fails, and only then. -/
def Outcome.leaves (o : Outcome) (opened : List ℤ) : List ℤ :=
  if o.resolved && !o.connected then opened else o.socketFd :: opened

/-- An entry that `join_to_old_servers` connects to. -/
def isDue (host s : Server) : Bool := differentServers s host && s.fd == -2

/-- `join_to_old_servers` from the `k`-th entry on: the entries, the descriptors, and whether there
was no fatal error. -/
def joinToOldServers (host : Server) (outcome : ℕ → Outcome) :
    ℕ → Bool → List Server → List ℤ → Option (List Server × List ℤ × Bool)
  | _, _, [], opened => some ([], opened, true)
  | k, isCommSent, s :: rest, opened =>
      match joinToOldServer host (outcome k) s isCommSent with
      | none => some (s :: rest, opened, false)
      | some (s', isCommSent) =>
          if isDue host s then
            if Fresh (outcome k).socketFd opened then
              (joinToOldServers host outcome (k + 1) isCommSent rest
                ((outcome k).leaves opened)).map fun r => (s' :: r.1, r.2)
            else none
          else
            (joinToOldServers host outcome (k + 1) isCommSent rest opened).map fun r =>
              (s' :: r.1, r.2)

/-- `handle_join`: the returned code and the peers. -/
def handleJoin (host : Server) (j : Join) (p : Peers) : Option (ℕ × Peers) :=
  if !j.registered then some (1, p)
  else
    (parseServers j.received p.msgsrvList).bind fun r =>
      if r.1 ≠ 0 then some (2, ⟨r.2, p.opened⟩)
      else
        (joinToOldServers host j.outcome 0 false r.2 p.opened).map fun q =>
          (if q.2.2 then 0 else 3, ⟨q.1, q.2.1⟩)

/-- A line of the operator: the peers, `is_join_complete` and `g_exit`. -/
def handleLine (host : Server) (line : Option Line) (isJoinComplete : Bool) (p : Peers) :
    Option (Peers × Bool × Bool) :=
  match line with
  | some (.join j) =>
      if isJoinComplete then some (p, true, false)
      else (handleJoin host j p).map fun r => (r.2, r.1 == 0, false)
  | some .exit => some (p, isJoinComplete, true)
  | some .other => some (p, isJoinComplete, false)
  | none => some (p, isJoinComplete, false)

/-- `send_to_server`. -/
def sendToServer (writes : ℤ → Bool) (s : Server) (opened : List ℤ) : Option (Server × List ℤ) :=
  if s.fd ∈ opened ∧ writes s.fd = true then some (s, opened)
  else some (closeCommunication s, closeFd s.fd opened)

/-- A datagram for the UDP socket: when it publishes, the message is shared. -/
def handleDatagram (t : Turn) (b : Board) (p : Peers) : Option (Board × Peers) :=
  match t.datagram with
  | none => some (b, p)
  | some datagram =>
      (handleClientComms t.sent b datagram).bind fun r =>
        if r.err = 2 then
          (forEachElement (sendToServer t.writes) p.msgsrvList p.opened).map fun q =>
            (r.board, ⟨q.1, q.2⟩)
        else some (r.board, p)

/-- What the calls of `server_treat_communications` share. -/
structure Treated where
  board : Board
  opened : List ℤ

/-- `server_treat_communications`. -/
def treatServer (reading : ℤ → Option Reading) (s : Server) (st : Treated) :
    Option (Server × Treated) :=
  match reading s.fd with
  | none => some (s, st)
  | some r =>
      (serverTreatCommunications r.written st.board r.recvs r.peerClosed).map fun c =>
        if c.isOpen then (s, ⟨c.board, st.opened⟩)
        else (closeCommunication s, ⟨c.board, closeFd s.fd st.opened⟩)

/-! ### A turn -/

/-- A turn up to `for_each_element`.  The sockets of the server are polled once it has joined. -/
def beforeTreat (host : Server) (s : MsgservLoop) (t : Turn) : Option MsgservLoop :=
  if s.gExit then none
  else
    ((s.peers.purge host).accept (if s.isJoinComplete then t.accepted else none)).bind fun p =>
      (handleLine host t.line s.isJoinComplete p).bind fun l =>
        (if s.isJoinComplete then handleDatagram t s.board l.1 else some (s.board, l.1)).map fun d =>
          ⟨d.1, d.2, l.2.1, l.2.2⟩

/-- One turn of the loop. -/
def turn (host : Server) (s : MsgservLoop) (t : Turn) : Option MsgservLoop :=
  (beforeTreat host s t).bind fun s =>
    (forEachElement (treatServer t.reading) s.peers.msgsrvList
      ⟨s.board, s.peers.opened⟩).map fun r => { s with board := r.2.board, peers := ⟨r.1, r.2.opened⟩ }

/-- The loop is entered: in daemon mode after `handle_join`. -/
def MsgservLoop.start (host : Server) (board : Board) (daemonMode : Option Join) :
    Option MsgservLoop :=
  match daemonMode with
  | none => some ⟨board, ⟨[], []⟩, false, false⟩
  | some j => (handleJoin host j ⟨[], []⟩).map fun r => ⟨board, r.2, r.1 == 0, false⟩

end MessageBoard
