import MessageBoard.Lib.Ledger
import MessageBoard.PolledDescriptors

/-!
# Who owns the descriptor of a peer

The calls of the loop that return a list of servers, with the descriptors each obtains and closes.
A run of the server is a list of such calls, from the first `handle_join` to the end of the loop,
and then `free_list`.

* `Traced` — a stage makes its calls, and they lead where the stage does;
* `traced_turn` — a turn keeps its descriptors exactly if its join does;
* `kept_iff` — **every descriptor has its entry or is closed, and is closed exactly once, if and only
  if every join finds an address for each entry, and its first connection sends the request.**
-/

namespace MessageBoard

open CText Run Ledger

namespace DescriptorOwnership

open PolledDescriptors

/-! ### The calls -/

/-- A call that has returned: what it obtained and closed, and the list it leaves. -/
structure Call where
  events : List (Event ℤ)
  msgsrvList : List Server

def eventsOf (calls : List Call) : List (Event ℤ) := calls.flatMap Call.events

/-- `close_fd`: `close` fails on a negative number. -/
def closeFdEvents (fd : ℤ) : List (Event ℤ) := if fd < 0 then [] else [.closed fd]

/-- `free_server`. -/
def freeServerEvents (s : Server) : List (Event ℤ) := if 0 < s.fd then closeFdEvents s.fd else []

/-- `connect_to_old_server`, once it has a socket. -/
def connectEvents (o : Outcome) : List (Event ℤ) :=
  .obtained o.socketFd :: if o.resolved && !o.connected then closeFdEvents o.socketFd else []

/-- `send_to_server`. -/
def sendEvents (writes : ℤ → Bool) (s : Server) (opened : List ℤ) : List (Event ℤ) :=
  if s.fd ∈ opened ∧ writes s.fd = true then [] else closeFdEvents s.fd

/-- `server_treat_communications`: once `close_communication` was called, the entry has no descriptor
that could be closed again. -/
def treatEvents (reading : ℤ → Option Reading) (s : Server) (st : Treated) : List (Event ℤ) :=
  (reading s.fd).elim [] fun r =>
    (serverTreatCommunications r.written st.board r.recvs r.peerClosed).elim [] fun c =>
      if c.isOpen then [] else closeFdEvents s.fd

/-- `remove_bad_servers`. -/
def purgeCall (host : Server) (p : Peers) : Call :=
  ⟨(removeBadServers host p.msgsrvList).2.flatMap freeServerEvents,
    (removeBadServers host p.msgsrvList).1⟩

/-- `tcp_new_comm`. -/
def acceptCalls (accepted : Option (ℤ × Text × ℕ)) (p : Peers) : List Call :=
  accepted.toList.map fun conn =>
    ⟨[.obtained conn.1], (tcpNewComm (some conn) p.msgsrvList).2⟩

/-- The calls of `join_to_old_servers`: the entries before are done. -/
def connectCalls (host : Server) (outcome : ℕ → Outcome) :
    List Server → ℕ → Bool → List Server → List Call
  | _, _, _, [] => []
  | before, k, isCommSent, s :: rest =>
      (joinToOldServer host (outcome k) s isCommSent).elim [] fun r =>
        ⟨if isDue host s then connectEvents (outcome k) else [], before ++ r.1 :: rest⟩ ::
          connectCalls host outcome (before ++ [r.1]) (k + 1) r.2 rest

/-- The calls of `handle_join`. -/
def joinCalls (host : Server) (j : Join) (p : Peers) : List Call :=
  if !j.registered then []
  else
    (parseServers j.received p.msgsrvList).elim [] fun r =>
      ⟨[], r.2⟩ :: if r.1 ≠ 0 then [] else connectCalls host j.outcome [] 0 false r.2

def lineCalls (host : Server) (line : Option Line) (isJoinComplete : Bool) (p : Peers) : List Call :=
  match line with
  | some (.join j) => if isJoinComplete then [] else joinCalls host j p
  | _ => []

/-- The calls of `for_each_element`: the entries before are done. -/
def forEachCalls {σ : Type} (action : Server → σ → Option (Server × σ))
    (events : Server → σ → List (Event ℤ)) : List Server → List Server → σ → List Call
  | _, [], _ => []
  | before, s :: rest, st =>
      (action s st).elim [] fun r =>
        ⟨events s st, before ++ r.1 :: rest⟩ ::
          forEachCalls action events (before ++ [r.1]) rest r.2

/-- The calls of `share_last_message`, when the datagram publishes. -/
def datagramCalls (t : Turn) (b : Board) (p : Peers) : List Call :=
  (t.datagram.bind (handleClientComms t.sent b)).elim [] fun r =>
    if r.err = 2 then
      forEachCalls (sendToServer t.writes) (sendEvents t.writes) [] p.msgsrvList p.opened
    else []

/-- The calls of one turn. -/
def turnCalls (host : Server) (s : MsgservLoop) (t : Turn) : List Call :=
  let accepted := if s.isJoinComplete then t.accepted else none
  purgeCall host s.peers :: acceptCalls accepted (s.peers.purge host) ++
    (((s.peers.purge host).accept accepted).elim [] fun p =>
      lineCalls host t.line s.isJoinComplete p ++
        (handleLine host t.line s.isJoinComplete p).elim [] fun l =>
          (if s.isJoinComplete then datagramCalls t s.board l.1 else []) ++
            (if s.isJoinComplete then handleDatagram t s.board l.1 else some (s.board, l.1)).elim []
              fun d => forEachCalls (treatServer t.reading) (treatEvents t.reading) [] d.2.msgsrvList
                ⟨d.1, d.2.opened⟩)

/-- The calls of the loop. -/
def loopCalls (host : Server) : MsgservLoop → List Turn → List Call
  | _, [] => []
  | s, t :: ts => turnCalls host s t ++ (turn host s t).elim [] fun s => loopCalls host s ts

/-- The calls before the loop: in daemon mode it is `handle_join`. -/
def startCalls (host : Server) (daemonMode : Option Join) : List Call :=
  daemonMode.elim [] fun j => joinCalls host j ⟨[], []⟩

/-- How the loop ends: by `g_exit`, because `select` or `accept` fails, or because `read` fails. -/
inductive LoopEnd where
  | exit
  | failed
  | unread (accepted : Option (ℤ × Text × ℕ))

/-- The calls of the turn that breaks out of the loop. -/
def endCalls (host : Server) (s : MsgservLoop) : LoopEnd → List Call
  | .exit => []
  | .failed => [purgeCall host s.peers]
  | .unread accepted =>
      purgeCall host s.peers ::
        acceptCalls (if s.isJoinComplete then accepted else none) (s.peers.purge host)

/-- The peers after it. -/
def endPeers (host : Server) (s : MsgservLoop) : LoopEnd → Option Peers
  | .exit => some s.peers
  | .failed => some (s.peers.purge host)
  | .unread accepted => (s.peers.purge host).accept (if s.isJoinComplete then accepted else none)

/-- The calls of the program, from `main` to the end of its loop. -/
def programCalls (host : Server) (daemonMode : Option Join) (s₀ : MsgservLoop) (ts : List Turn)
    (s : MsgservLoop) (e : LoopEnd) : List Call :=
  startCalls host daemonMode ++ (loopCalls host s₀ ts ++ endCalls host s e)

/-- `free_list`. -/
def freeList (l : List Server) : List (Event ℤ) := l.flatMap freeServerEvents

/-! ### What is asked of them -/

/-- A descriptor that was obtained, and not closed since, is that of exactly one entry. -/
def Accounted (log : List (Event ℤ)) (l : List Server) : Prop :=
  ∀ fd, Outstanding log fd → l.countP (fun s => s.fd == fd) = 1

/-- **Every descriptor has its entry or is closed** whenever a call has returned, and `free_list` has
closed each of them once. -/
structure Kept (calls : List Call) (l : List Server) : Prop where
  accounted : ∀ before c, before ++ [c] <+: calls →
    Accounted (eventsOf (before ++ [c])) c.msgsrvList
  closedOnce : ClosedOnce (eventsOf calls ++ freeList l)

/-! ### Which joins lose a descriptor -/

/-- The connection attempts of `join_to_old_servers` from the `k`-th entry on: a socket that cannot be
created ends them. -/
def attempts (host : Server) (outcome : ℕ → Outcome) : ℕ → List Server → List Outcome
  | _, [] => []
  | k, s :: rest =>
      if isDue host s then
        if (outcome k).socketFd = -1 then [] else outcome k :: attempts host outcome (k + 1) rest
      else attempts host outcome (k + 1) rest

/-- `getaddrinfo` finds an address at every attempt, and the first that connects sends the request for
the messages. -/
def NoneLost (os : List Outcome) : Prop :=
  (∀ o ∈ os, o.resolved = true) ∧ ∀ o, os.find? Outcome.connected = some o → o.sent = true

def JoinKeeps (host : Server) (j : Join) (p : Peers) : Prop :=
  j.registered = true → ∀ l, parseServers j.received p.msgsrvList = some (0, l) →
    NoneLost (attempts host j.outcome 0 l)

def LineKeeps (host : Server) (line : Option Line) (isJoinComplete : Bool) (p : Peers) : Prop :=
  match line with
  | some (.join j) => isJoinComplete = false → JoinKeeps host j p
  | _ => True

/-- The join of a turn loses no descriptor. -/
def TurnKeeps (host : Server) (s : MsgservLoop) (t : Turn) : Prop :=
  ∀ p, (s.peers.purge host).accept (if s.isJoinComplete then t.accepted else none) = some p →
    LineKeeps host t.line s.isJoinComplete p

def StartKeeps (host : Server) (daemonMode : Option Join) : Prop :=
  ∀ j, daemonMode = some j → JoinKeeps host j ⟨[], []⟩

/-! ### Where the calls lead -/

/-- The peers after a call: what is open was obtained, or open before. -/
def call (p : Peers) (c : Call) : Option Peers :=
  (run settle p.opened c.events).map fun opened => ⟨c.msgsrvList, opened⟩

/-- Every open descriptor has an entry. -/
def Covered (p : Peers) : Prop := ∀ fd ∈ p.opened, ∃ s ∈ p.msgsrvList, s.fd = fd

/-- A stage from `p` to `p'` makes these calls, and keeps what is covered exactly if `C` holds. -/
structure Traced (host : Server) (p : Peers) (calls : List Call) (p' : Peers) (C : Prop) : Prop where
  owned : Always call (fun q => Owned host q.msgsrvList q.opened) p calls
  run : run call p calls = some p'
  covered : Covered p → (Always call Covered p calls ↔ C)

variable {host : Server} {l : List Server} {opened : List ℤ} {p p' : Peers} {calls : List Call}
  {C : Prop}

theorem Traced.owned_last (h : Traced host p calls p' C) : Owned host p'.msgsrvList p'.opened :=
  h.owned.last h.run

theorem Traced.nil (hown : Owned host p.msgsrvList p.opened) : Traced host p [] p True :=
  ⟨hown, rfl, fun hcov => iff_of_true hcov trivial⟩

theorem Traced.congr {D : Prop} (h : Traced host p calls p' C) (hiff : C ↔ D) :
    Traced host p calls p' D :=
  ⟨h.owned, h.run, fun hcov => (h.covered hcov).trans hiff⟩

/-- **A call, and the calls after it.** -/
theorem Traced.cons (hown : Owned host p.msgsrvList p.opened) {c : Call} {p₁ : Peers} {D : Prop}
    (hcall : call p c = some p₁) (hcov : Covered p → (Covered p₁ ↔ C))
    (h : Traced host p₁ calls p' D) : Traced host p (c :: calls) p' (C ∧ D) where
  owned := by
    refine ⟨hown, fun q hq => ?_⟩
    rw [hcall] at hq
    exact Option.some.inj hq ▸ h.owned
  run := by
    rw [run_cons, hcall]
    exact h.run
  covered := by
    intro hp
    rw [Always, hcall, and_iff_right hp]
    constructor
    · intro hall
      have hrest := hall p₁ rfl
      have hp₁ := hrest.first
      exact ⟨(hcov hp).mp hp₁, (h.covered hp₁).mp hrest⟩
    · rintro ⟨hC, hD⟩ q hq
      exact Option.some.inj hq ▸ (h.covered ((hcov hp).mpr hC)).mpr hD

/-- A call that keeps what is covered. -/
theorem Traced.cons_keeps (hown : Owned host p.msgsrvList p.opened) {c : Call} {p₁ : Peers}
    (hcall : call p c = some p₁) (hcov : Covered p → Covered p₁) (h : Traced host p₁ calls p' C) :
    Traced host p (c :: calls) p' C :=
  (Traced.cons hown hcall (fun hp => iff_of_true (hcov hp) trivial) h).congr (Iff.of_eq (true_and C))

/-- **One stage after another.** -/
theorem Traced.append {p₁ : Peers} {calls' : List Call} {D : Prop} (h : Traced host p calls p₁ C)
    (h' : Traced host p₁ calls' p' D) : Traced host p (calls ++ calls') p' (C ∧ D) where
  owned := by
    refine always_append.mpr ⟨h.owned, fun q hq => ?_⟩
    rw [h.run] at hq
    exact Option.some.inj hq ▸ h'.owned
  run := by
    rw [run_append, h.run]
    exact h'.run
  covered := by
    intro hp
    rw [always_append, h.covered hp]
    apply and_congr_right
    intro hC
    have hp₁ : Covered p₁ := ((h.covered hp).mpr hC).last h.run
    rw [h.run, ← h'.covered hp₁]
    exact ⟨fun hall => hall p₁ rfl, fun hall q hq => Option.some.inj hq ▸ hall⟩

/-! ### One entry of the list -/

theorem owned_perm {l' : List Server} (h : Owned host l opened) (hperm : l.Perm l') :
    Owned host l' opened where
  fds := fun s hs => h.fds s (hperm.mem_iff.mpr hs)
  opened := h.opened
  distinct := by
    apply h.distinct.perm hperm
    intro s t hst heq
    have hneg := hst heq.symm
    omega
  host := fun s hs => h.host s (hperm.mem_iff.mpr hs)

theorem owned_middle {before rest : List Server} {s : Server} :
    Owned host (before ++ s :: rest) opened ↔ Owned host (s :: (before ++ rest)) opened :=
  ⟨fun h => owned_perm h List.perm_middle, fun h => owned_perm h List.perm_middle.symm⟩

theorem covered_middle {before rest : List Server} {s : Server} :
    Covered ⟨before ++ s :: rest, opened⟩ ↔ Covered ⟨s :: (before ++ rest), opened⟩ := by
  have hperm : (before ++ s :: rest).Perm (s :: (before ++ rest)) := List.perm_middle
  simp only [Covered, hperm.mem_iff]

/-- An entry without a descriptor covers none. -/
theorem covered_cons_neg {s : Server} (hs : s.fd < 0) (hopened : ∀ fd ∈ opened, 0 ≤ fd) :
    Covered ⟨s :: l, opened⟩ ↔ Covered ⟨l, opened⟩ := by
  apply forall₂_congr
  intro fd hfd
  have hpos := hopened fd hfd
  have hne : s.fd ≠ fd := by omega
  simp [hne]

theorem covered_connected {s : Server} :
    Covered ⟨l, opened⟩ → Covered ⟨s :: l, s.fd :: opened⟩ := by
  intro hcov fd hfd
  rcases List.mem_cons.mp hfd with rfl | hfd
  · exact ⟨s, by simp, rfl⟩
  · obtain ⟨t, ht, heq⟩ := hcov fd hfd
    exact ⟨t, List.mem_cons_of_mem s ht, heq⟩

/-- An entry whose descriptor is closed covers none. -/
theorem covered_close {s : Server} (hopened : ∀ fd ∈ opened, 0 ≤ fd)
    (hcov : Covered ⟨s :: l, opened⟩) :
    Covered ⟨closeCommunication s :: l, closeFd s.fd opened⟩ := by
  intro fd hfd
  have hne : s.fd ≠ fd := by
    rintro rfl
    have hpos := hopened s.fd (mem_closeFd hfd)
    rw [closeFd, if_neg (by omega)] at hfd
    simp at hfd
  obtain ⟨t, ht, heq⟩ := hcov fd (mem_closeFd hfd)
  rcases List.mem_cons.mp ht with rfl | ht
  · exact absurd heq hne
  · exact ⟨t, List.mem_cons_of_mem _ ht, heq⟩

/-- A descriptor that no entry has is not covered. -/
theorem not_covered_of_fresh (hown : Owned host l opened) {fd : ℤ} (hfresh : Fresh fd opened) :
    ¬Covered ⟨l, fd :: opened⟩ := by
  intro hcov
  obtain ⟨s, hs, heq⟩ := hcov fd (by simp)
  exact hown.ne_of_fresh hfresh hs heq.symm

/-! ### What the events open and close -/

theorem settle_closeFd {s : Server} (hown : Owned host (s :: l) opened) :
    run settle opened (closeFdEvents s.fd) = some (closeFd s.fd opened) := by
  rw [closeFdEvents, closeFd]
  by_cases hneg : s.fd < 0
  · have hfilter : opened.filter (· ≠ s.fd) = opened := by
      apply List.filter_eq_self.mpr
      intro fd hfd
      have hpos := hown.opened fd hfd
      have hne : fd ≠ s.fd := by omega
      simpa using hne
    rw [if_pos hneg, hfilter, ite_self]
    rfl
  · have hmem : s.fd ∈ opened := by
      rcases hown.fd_cases List.mem_cons_self with hfd | hfd | ⟨-, hfd⟩
      · omega
      · omega
      · exact hfd
    rw [if_neg hneg, if_neg (by omega), run_singleton, settle_closed hmem]

theorem settle_connect {o : Outcome} (hfresh : Fresh o.socketFd opened) :
    run settle opened (connectEvents o) = some (o.leaves opened) := by
  obtain ⟨hpos, hnot⟩ := hfresh
  rw [connectEvents, run_cons, settle_obtained hnot, Option.bind_some, Outcome.leaves]
  split
  · have hfilter : opened.filter (· ≠ o.socketFd) = opened := by
      apply List.filter_eq_self.mpr
      intro fd hfd
      have hne : fd ≠ o.socketFd := fun heq => hnot (heq ▸ hfd)
      simpa using hne
    rw [closeFdEvents, if_neg (by omega), run_singleton, settle_closed (by simp),
      List.filter_cons_of_neg (by simp), hfilter]
  · rfl

/-! ### The stages of a turn -/

theorem mem_removeNextServers {s : Server} (hs : s ∈ l) :
    s ∈ (removeNextServers host l).1 ∨ s ∈ (removeNextServers host l).2 := by
  fun_induction removeNextServers host l with
  | case1 => simp at hs
  | case2 t => exact Or.inl hs
  | case3 t next rest hbad r ih =>
    simp only [List.mem_cons] at hs ⊢
    rcases hs with rfl | rfl | hs
    · exact Or.inl (Or.inl rfl)
    · exact Or.inr (Or.inl rfl)
    · exact (ih hs).imp Or.inr Or.inr
  | case4 t next rest hgood r ih =>
    rcases List.mem_cons.mp hs with rfl | hs
    · exact Or.inl List.mem_cons_self
    · exact (ih hs).imp_left (List.mem_cons_of_mem t)

theorem mem_removeBadServers {s : Server} (hs : s ∈ l) :
    s ∈ (removeBadServers host l).1 ∨ s ∈ (removeBadServers host l).2 := by
  cases l with
  | nil => simp at hs
  | cons t rest =>
    rw [removeBadServers]
    split
    · rcases List.mem_cons.mp hs with rfl | hs
      · exact Or.inr List.mem_cons_self
      · exact (mem_removeNextServers hs).imp_right (List.mem_cons_of_mem t)
    · exact mem_removeNextServers hs

/-- **The purge** frees entries without descriptors. -/
theorem traced_purge (hown : Owned host p.msgsrvList p.opened) :
    Traced host p [purgeCall host p] (p.purge host) True := by
  have hfreed : ∀ s ∈ (removeBadServers host p.msgsrvList).2, s.fd < 0 := by
    intro s hs
    obtain ⟨hbad, hmem⟩ := isBad_of_mem_freed hs
    exact hown.neg_of_isBad hmem hbad
  have hevents : (purgeCall host p).events = [] := by
    apply List.flatMap_eq_nil_iff.mpr
    intro s hs
    have hneg := hfreed s hs
    rw [freeServerEvents, if_neg (by omega)]
  have hcall : call p (purgeCall host p) = some (p.purge host) := by
    rw [call, hevents, purge_eq hown]
    rfl
  have hkept : Owned host (p.purge host).msgsrvList (p.purge host).opened := by
    rw [purge_eq hown]
    exact hown.sublist (removeBadServers_sublist host p.msgsrvList)
  refine Traced.cons_keeps hown hcall ?_ (Traced.nil hkept)
  rw [purge_eq hown]
  intro hcov fd hfd
  obtain ⟨s, hs, rfl⟩ := hcov fd hfd
  rcases mem_removeBadServers hs with hmem | hmem
  · exact ⟨s, hmem, rfl⟩
  · have hneg := hfreed s hmem
    have hpos := hown.opened s.fd hfd
    omega

/-- **An accepted connection** has an entry of its own. -/
theorem traced_accept (hhost : host.udpPort ≠ 0) {accepted : Option (ℤ × Text × ℕ)}
    (hown : Owned host p.msgsrvList p.opened) (h : p.accept accepted = some p') :
    Traced host p (acceptCalls accepted p) p' True := by
  cases accepted with
  | none => exact Option.some.inj h ▸ Traced.nil hown
  | some conn =>
    rw [Peers.accept] at h
    split at h
    · rename_i hfresh
      rw [← Option.some.inj h]
      have hcall : call p ⟨[.obtained conn.1], (tcpNewComm (some conn) p.msgsrvList).2⟩
          = some ⟨(tcpNewComm (some conn) p.msgsrvList).2, conn.1 :: p.opened⟩ := by
        rw [call, run_singleton, settle_obtained hfresh.2]
        rfl
      have hnew : Owned host (tcpNewComm (some conn) p.msgsrvList).2 (conn.1 :: p.opened) :=
        Owned.cons_fresh hown hfresh (different_of_udpPort hhost rfl)
      exact Traced.cons_keeps hown hcall covered_connected (Traced.nil hnew)
    · simp at h

/-- What is obtained and closed by an action on an entry, which closes its descriptor or does
nothing. -/
def Records {σ : Type} (action : Server → σ → Option (Server × σ)) (op : σ → List ℤ)
    (events : Server → σ → List (Event ℤ)) : Prop :=
  ∀ s st r, action s st = some r → r.1 = s ∧ op r.2 = op st ∧ events s st = []
    ∨ r.1 = closeCommunication s ∧ op r.2 = closeFd s.fd (op st) ∧ events s st = closeFdEvents s.fd

theorem records_send (writes : ℤ → Bool) : Records (sendToServer writes) id (sendEvents writes) := by
  intro s opened r h
  rw [sendToServer] at h
  rw [sendEvents]
  split at h
  · rename_i hsent
    rw [← Option.some.inj h, if_pos hsent]
    exact Or.inl ⟨rfl, rfl, rfl⟩
  · rename_i hfails
    rw [← Option.some.inj h, if_neg hfails]
    exact Or.inr ⟨rfl, rfl, rfl⟩

theorem records_treat (reading : ℤ → Option Reading) :
    Records (treatServer reading) Treated.opened (treatEvents reading) := by
  intro s st r h
  rw [treatServer] at h
  rw [treatEvents]
  split at h
  · rename_i hset
    rw [← Option.some.inj h, hset]
    exact Or.inl ⟨rfl, rfl, rfl⟩
  · rename_i read hset
    obtain ⟨c, hc, hr⟩ := Option.map_eq_some_iff.mp h
    rw [hset, Option.elim_some, hc, Option.elim_some]
    split at hr
    · rename_i hopen
      rw [← hr, if_pos hopen]
      exact Or.inl ⟨rfl, rfl, rfl⟩
    · rename_i hclosed
      rw [← hr, if_neg hclosed]
      exact Or.inr ⟨rfl, rfl, rfl⟩

/-- **A loop that closes**: an entry whose descriptor is closed loses it. -/
theorem traced_forEach {σ : Type} {action : Server → σ → Option (Server × σ)} {op : σ → List ℤ}
    {events : Server → σ → List (Event ℤ)} (hrec : Records action op events) (before : List Server)
    {st : σ} {r : List Server × σ} (hown : Owned host (before ++ l) (op st))
    (h : forEachElement action l st = some r) :
    Traced host ⟨before ++ l, op st⟩ (forEachCalls action events before l st)
      ⟨before ++ r.1, op r.2⟩ True := by
  induction l generalizing before st r with
  | nil =>
    rw [← Option.some.inj h]
    exact Traced.nil hown
  | cons s rest ih =>
    obtain ⟨q, r', hq, hr', rfl⟩ := forEachElement_cons h
    rw [forEachCalls, hq, Option.elim_some]
    have hfront := owned_middle.mp hown
    have hcall : call ⟨before ++ s :: rest, op st⟩ ⟨events s st, before ++ q.1 :: rest⟩
          = some ⟨before ++ q.1 :: rest, op q.2⟩
        ∧ Owned host (before ++ q.1 :: rest) (op q.2)
        ∧ (Covered ⟨before ++ s :: rest, op st⟩ → Covered ⟨before ++ q.1 :: rest, op q.2⟩) := by
      rcases hrec s st q hq with ⟨hs, hop, hevents⟩ | ⟨hs, hop, hevents⟩
      · rw [call, hevents, hs, hop]
        exact ⟨rfl, hown, id⟩
      · rw [call, hevents, hs, hop, settle_closeFd hfront]
        refine ⟨rfl, owned_middle.mpr (hfront.close.cons_neg (Or.inl rfl)), ?_⟩
        intro hcov
        exact covered_middle.mpr (covered_close hfront.opened (covered_middle.mp hcov))
    obtain ⟨hcall, hown₁, hcov₁⟩ := hcall
    have hrest := ih (before ++ [q.1]) (by rwa [← List.append_cons]) hr'
    rw [← List.append_cons, ← List.append_cons] at hrest
    exact Traced.cons_keeps hown hcall hcov₁ hrest

/-! ### Connections to old servers -/

/-- No attempt loses its socket, from one on at which `is_comm_sent` is known. -/
def NoneLostFrom (isCommSent : Bool) (os : List Outcome) : Prop :=
  (∀ o ∈ os, o.resolved = true)
    ∧ (isCommSent = false → ∀ o, os.find? Outcome.connected = some o → o.sent = true)

theorem noneLostFrom_nil (isCommSent : Bool) : NoneLostFrom isCommSent [] := by
  simp [NoneLostFrom]

/-- **The next attempt** keeps its socket, and so do those after it. -/
theorem noneLostFrom_cons {s : Server} (hdue : isDue host s = true) {o : Outcome}
    {isCommSent : Bool} {r : Server × Bool} (h : joinToOldServer host o s isCommSent = some r)
    (os : List Outcome) :
    NoneLostFrom isCommSent (o :: os) ↔ ¬Outcome.Loses o isCommSent ∧ NoneLostFrom r.2 os := by
  rw [NoneLostFrom, List.forall_mem_cons]
  rcases (attempt_cases hdue h).2 with ⟨hres, hconn, hsent, rfl⟩ | ⟨hres, hconn, rfl⟩ | ⟨hloses, -⟩
  · have hkeeps : ¬Outcome.Loses o isCommSent := by
      rw [Outcome.Loses, hres, hconn]
      cases isCommSent <;> simp_all
    rw [and_iff_right hres, and_iff_right hkeeps, List.find?_cons_of_pos hconn, NoneLostFrom]
    apply and_congr_right
    intro _
    refine iff_of_true ?_ fun hfalse => Bool.noConfusion hfalse
    rintro rfl q hq
    exact Option.some.inj hq ▸ hsent
  · have hkeeps : ¬Outcome.Loses o isCommSent := by simp [Outcome.Loses, hres, hconn]
    rw [and_iff_right hres, and_iff_right hkeeps, List.find?_cons_of_neg (by simp [hconn]),
      NoneLostFrom]
  · apply iff_of_false
    · rintro ⟨⟨hres, -⟩, hsent⟩
      rcases hloses with hlost | ⟨hconn, hfirst, hunsent⟩
      · exact Bool.noConfusion (hres.symm.trans hlost)
      · rw [hsent hfirst o (List.find?_cons_of_pos hconn)] at hunsent
        exact Bool.noConfusion hunsent
    · exact fun hkeeps => hkeeps.1 hloses

/-- The entry of an attempt gets the socket, or none. -/
theorem owned_attempt {s : Server} (hown : Owned host (s :: l) opened) (hdue : isDue host s = true)
    {o : Outcome} (hfresh : Fresh o.socketFd opened) {isCommSent : Bool} {r : Server × Bool}
    (h : joinToOldServer host o s isCommSent = some r) :
    Owned host (r.1 :: l) (o.leaves opened) := by
  have hdiff : differentServers s host = true := (Bool.and_eq_true_iff.mp hdue).1
  rcases (attempt_cases hdue h).2 with ⟨hres, hconn, -, rfl⟩ | ⟨-, -, rfl⟩ | ⟨-, hs⟩
  · have hleaves : o.leaves opened = o.socketFd :: opened := by
      rw [Outcome.leaves, if_neg (by simp [hconn])]
    rw [hleaves]
    exact @Owned.cons_fresh host l opened hown.tail { s with fd := o.socketFd } hfresh hdiff
  · exact (hown.tail.leaves hfresh).cons_neg (Or.inl rfl)
  · rw [hs]
    exact (hown.tail.leaves hfresh).cons_neg (Or.inl rfl)

/-- **An attempt** keeps every descriptor exactly if it does not lose its socket. -/
theorem covered_attempt {s : Server} (hown : Owned host (s :: l) opened)
    (hdue : isDue host s = true) {o : Outcome} (hfresh : Fresh o.socketFd opened)
    {isCommSent : Bool} {r : Server × Bool} (h : joinToOldServer host o s isCommSent = some r)
    (hcov : Covered ⟨s :: l, opened⟩) :
    Covered ⟨r.1 :: l, o.leaves opened⟩ ↔ ¬Outcome.Loses o isCommSent := by
  have hmark : s.fd = -2 := by simpa using (Bool.and_eq_true_iff.mp hdue).2
  have hrest : Covered ⟨l, opened⟩ := (covered_cons_neg (by omega) hown.opened).mp hcov
  have hopened := (hown.tail.leaves hfresh).opened
  rcases (attempt_cases hdue h).2 with ⟨hres, hconn, hsent, rfl⟩ | ⟨hres, hconn, rfl⟩ | ⟨hloses, hs⟩
  · have hleaves : o.leaves opened = o.socketFd :: opened := by
      rw [Outcome.leaves, if_neg (by simp [hconn])]
    rw [hleaves]
    apply iff_of_true
    · exact @covered_connected l opened { s with fd := o.socketFd } hrest
    · rw [Outcome.Loses, hres, hconn]
      cases isCommSent <;> simp_all
  · rw [covered_cons_neg (show (-1 : ℤ) < 0 by decide) hopened]
    have hleaves : o.leaves opened = opened := by
      rw [Outcome.leaves, if_pos (by simp [hres, hconn])]
    rw [hleaves]
    exact iff_of_true hrest (by simp [Outcome.Loses, hres, hconn])
  · rw [hs, covered_cons_neg (show (-1 : ℤ) < 0 by decide) hopened]
    have hleaves : o.leaves opened = o.socketFd :: opened := by
      rw [Outcome.leaves, if_neg]
      rcases hloses with hres | ⟨hconn, -, -⟩
      · simp [hres]
      · simp [hconn]
    rw [hleaves]
    exact iff_of_false (not_covered_of_fresh hown.tail hfresh) fun hkeeps => hkeeps hloses

/-- **The loop of connections** keeps every descriptor exactly if no attempt loses its socket. -/
theorem traced_connect {outcome : ℕ → Outcome} (before : List Server) {k : ℕ} {isCommSent : Bool}
    {r : List Server × List ℤ × Bool} (hown : Owned host (before ++ l) opened)
    (h : joinToOldServers host outcome k isCommSent l opened = some r) :
    Traced host ⟨before ++ l, opened⟩ (connectCalls host outcome before k isCommSent l)
      ⟨before ++ r.1, r.2.1⟩ (NoneLostFrom isCommSent (attempts host outcome k l)) := by
  induction l generalizing before k isCommSent opened r with
  | nil =>
    rw [← Option.some.inj h]
    exact (Traced.nil hown).congr (iff_of_true trivial (noneLostFrom_nil isCommSent))
  | cons s rest ih =>
    rw [joinToOldServers] at h
    rw [connectCalls, attempts]
    split at h
    · rename_i hjoin
      obtain ⟨hdue, -⟩ := joinToOldServer_eq_none hjoin
      rw [hjoin, Option.elim_none, if_pos hdue, if_pos (socketFd_of_fatal hjoin), ← Option.some.inj h]
      exact (Traced.nil hown).congr (iff_of_true trivial (noneLostFrom_nil isCommSent))
    · rename_i s' isCommSent' hjoin
      rw [hjoin, Option.elim_some]
      have hfront := owned_middle.mp hown
      split at h
      · rename_i hdue
        split at h
        · rename_i hfresh
          obtain ⟨r', hr', rfl⟩ := Option.map_eq_some_iff.mp h
          have hown₁ := owned_middle.mpr (owned_attempt hfront hdue hfresh hjoin)
          have hcall : call ⟨before ++ s :: rest, opened⟩
              ⟨connectEvents (outcome k), before ++ s' :: rest⟩
                = some ⟨before ++ s' :: rest, (outcome k).leaves opened⟩ := by
            rw [call, settle_connect hfresh]
            rfl
          have hrest := ih (before ++ [s']) (by rwa [← List.append_cons]) hr'
          rw [← List.append_cons, ← List.append_cons] at hrest
          rw [if_pos hdue, if_pos hdue, if_neg (attempt_cases hdue hjoin).1]
          refine (Traced.cons hown hcall ?_ hrest).congr (noneLostFrom_cons hdue hjoin _).symm
          rw [covered_middle, covered_middle]
          exact covered_attempt hfront hdue hfresh hjoin
        · simp at h
      · rename_i hdue
        obtain ⟨r', hr', rfl⟩ := Option.map_eq_some_iff.mp h
        have hskip := joinToOldServer_of_not_due (by simpa using hdue) (outcome k) isCommSent
        obtain ⟨rfl, rfl⟩ := Prod.mk.inj (Option.some.inj (hskip.symm.trans hjoin))
        have hrest := ih (before ++ [s]) (by rwa [← List.append_cons]) hr'
        rw [← List.append_cons, ← List.append_cons] at hrest
        rw [if_neg hdue, if_neg hdue]
        exact Traced.cons_keeps hown rfl id hrest

theorem noneLost_iff (os : List Outcome) : NoneLostFrom false os ↔ NoneLost os := by
  rw [NoneLostFrom, NoneLost]
  exact and_congr_right fun _ => ⟨fun h => h rfl, fun h _ => h⟩

/-! ### A turn -/

/-- Entries that are read have no descriptor. -/
theorem covered_append_neg {new : List Server} (hnew : ∀ s ∈ new, s.fd < 0)
    (hopened : ∀ fd ∈ opened, 0 ≤ fd) : Covered ⟨new ++ l, opened⟩ ↔ Covered ⟨l, opened⟩ := by
  induction new with
  | nil => rfl
  | cons s new ih =>
    rw [List.cons_append, covered_cons_neg (hnew s (by simp)) hopened]
    exact ih fun t ht => hnew t (by simp [ht])

theorem joinKeeps_iff {j : Join} (hreg : j.registered = true) {code : ℕ} {l' : List Server}
    (hparse : parseServers j.received p.msgsrvList = some (code, l')) :
    JoinKeeps host j p ↔ (code = 0 → NoneLost (attempts host j.outcome 0 l')) := by
  simp only [JoinKeeps, hparse, Option.some.injEq, Prod.mk.injEq]
  constructor
  · exact fun hall hcode => hall hreg l' ⟨hcode, rfl⟩
  · rintro hnone - l ⟨hcode, rfl⟩
    exact hnone hcode

theorem traced_join {j : Join} {r : ℕ × Peers} (hown : Owned host p.msgsrvList p.opened)
    (h : handleJoin host j p = some r) :
    Traced host p (joinCalls host j p) r.2 (JoinKeeps host j p) := by
  rw [handleJoin] at h
  rw [joinCalls]
  split at h
  · rename_i hreg
    have hnot : j.registered = false := by simpa using hreg
    rw [if_pos hreg, ← Option.some.inj h]
    exact (Traced.nil hown).congr (by simp [JoinKeeps, hnot])
  · rename_i hreg
    obtain ⟨⟨code, l'⟩, hparse, h⟩ := Option.bind_eq_some_iff.mp h
    obtain ⟨new, hnew, hl', -⟩ := parseServers_eq hparse
    have hread := owned_parseServers hown hparse
    have hcov : Covered p → Covered ⟨l', p.opened⟩ := by
      rw [hl']
      apply (covered_append_neg (fun s hs => ?_) hown.opened).mpr
      have hmark := hnew s hs
      omega
    rw [if_neg hreg, hparse, Option.elim_some, joinKeeps_iff (by simpa using hreg) hparse]
    split at h
    · rename_i hcode
      rw [← Option.some.inj h, if_pos hcode]
      exact (Traced.cons_keeps hown rfl hcov (Traced.nil hread)).congr
        (iff_of_true trivial fun hzero => absurd hzero hcode)
    · rename_i hcode
      obtain ⟨q, hq, hr⟩ := Option.map_eq_some_iff.mp h
      rw [← hr, if_neg hcode]
      have hconnect := traced_connect [] hread hq
      refine (Traced.cons_keeps hown rfl hcov hconnect).congr ((noneLost_iff _).trans ?_)
      exact ⟨fun hnone _ => hnone, fun hnone => hnone (by simpa using hcode)⟩

theorem traced_line {line : Option Line} {isJoinComplete : Bool} {r : Peers × Bool × Bool}
    (hown : Owned host p.msgsrvList p.opened)
    (h : handleLine host line isJoinComplete p = some r) :
    Traced host p (lineCalls host line isJoinComplete p) r.1
      (LineKeeps host line isJoinComplete p) := by
  obtain _ | ⟨j⟩ | _ | _ := line
  · exact Option.some.inj h ▸ Traced.nil hown
  · rw [handleLine] at h
    rw [lineCalls, LineKeeps]
    split at h
    · rename_i hjoin
      rw [if_pos hjoin, ← Option.some.inj h]
      exact (Traced.nil hown).congr (by simp [hjoin])
    · rename_i hjoin
      obtain ⟨q, hq, hr⟩ := Option.map_eq_some_iff.mp h
      rw [if_neg hjoin, ← hr]
      refine (traced_join hown hq).congr ?_
      exact ⟨fun hkeeps _ => hkeeps, fun hkeeps => hkeeps (by simpa using hjoin)⟩
  · exact Option.some.inj h ▸ Traced.nil hown
  · exact Option.some.inj h ▸ Traced.nil hown

theorem traced_datagram {t : Turn} {b : Board} {r : Board × Peers}
    (hown : Owned host p.msgsrvList p.opened) (h : handleDatagram t b p = some r) :
    Traced host p (datagramCalls t b p) r.2 True := by
  rw [handleDatagram] at h
  rw [datagramCalls]
  split at h
  · rename_i hnone
    rw [hnone, ← Option.some.inj h]
    exact Traced.nil hown
  · rename_i datagram hsome
    obtain ⟨c, hc, h⟩ := Option.bind_eq_some_iff.mp h
    rw [hsome, Option.bind_some, hc, Option.elim_some]
    split at h
    · rename_i herr
      obtain ⟨q, hq, hr⟩ := Option.map_eq_some_iff.mp h
      rw [if_pos herr, ← hr]
      exact traced_forEach (records_send t.writes) [] hown hq
    · rename_i herr
      rw [if_neg herr, ← Option.some.inj h]
      exact Traced.nil hown

/-- **A turn** keeps every descriptor exactly if its join does. -/
theorem traced_turn (hhost : host.udpPort ≠ 0) {s s' : MsgservLoop} {t : Turn}
    (hown : Owned host s.peers.msgsrvList s.peers.opened) (h : turn host s t = some s') :
    Traced host s.peers (turnCalls host s t) s'.peers (TurnKeeps host s t) := by
  obtain ⟨s₁, h₁, h⟩ := Option.bind_eq_some_iff.mp h
  obtain ⟨r, hr, rfl⟩ := Option.map_eq_some_iff.mp h
  obtain ⟨p, l, d, hp, hl, hd, hboard, hpeers⟩ := beforeTreat_cases h₁
  have hpurge := traced_purge hown
  have haccept := traced_accept hhost hpurge.owned_last hp
  have hline := traced_line haccept.owned_last hl
  have hdatagram : Traced host l.1 (if s.isJoinComplete then datagramCalls t s.board l.1 else [])
      d.2 True := by
    split at hd
    · rename_i hjoin
      rw [if_pos hjoin]
      exact traced_datagram hline.owned_last hd
    · rename_i hjoin
      rw [if_neg hjoin, ← Option.some.inj hd]
      exact Traced.nil hline.owned_last
  rw [hboard, hpeers] at hr
  have htreat := traced_forEach (records_treat t.reading) [] hdatagram.owned_last hr
  have hcalls : turnCalls host s t = [purgeCall host s.peers] ++
      (acceptCalls (if s.isJoinComplete then t.accepted else none) (s.peers.purge host) ++
        (lineCalls host t.line s.isJoinComplete p ++
          ((if s.isJoinComplete then datagramCalls t s.board l.1 else []) ++
            forEachCalls (treatServer t.reading) (treatEvents t.reading) [] d.2.msgsrvList
              ⟨d.1, d.2.opened⟩))) := by
    simp only [turnCalls, hp, hl, hd, Option.elim_some, List.cons_append, List.nil_append]
  rw [hcalls]
  refine (hpurge.append (haccept.append (hline.append (hdatagram.append htreat)))).congr ?_
  simp only [true_and, and_true, TurnKeeps, hp, Option.some.injEq, forall_eq']

/-- **The loop** keeps every descriptor exactly if every turn does. -/
theorem traced_loop (hhost : host.udpPort ≠ 0) {s s' : MsgservLoop} {ts : List Turn}
    (hown : Owned host s.peers.msgsrvList s.peers.opened) (h : run (turn host) s ts = some s') :
    Traced host s.peers (loopCalls host s ts) s'.peers (Meets (turn host) (TurnKeeps host) s ts) := by
  induction ts generalizing s with
  | nil => exact Option.some.inj h ▸ Traced.nil hown
  | cons t ts ih =>
    rw [run_cons] at h
    obtain ⟨s₁, h₁, hrest⟩ := Option.bind_eq_some_iff.mp h
    have hturn := traced_turn hhost hown h₁
    rw [loopCalls, h₁, Option.elim_some]
    refine (hturn.append (ih hturn.owned_last hrest)).congr (and_congr_right fun _ => ?_)
    rw [h₁]
    exact ⟨fun hmeets q hq => Option.some.inj hq ▸ hmeets, fun hmeets => hmeets s₁ rfl⟩

theorem traced_start {board : Board} {daemonMode : Option Join} {s : MsgservLoop}
    (h : MsgservLoop.start host board daemonMode = some s) :
    Traced host ⟨[], []⟩ (startCalls host daemonMode) s.peers (StartKeeps host daemonMode) := by
  cases daemonMode with
  | none =>
    rw [← Option.some.inj h]
    exact (Traced.nil (Owned.nil host)).congr (by simp [StartKeeps])
  | some j =>
    obtain ⟨r, hr, rfl⟩ := Option.map_eq_some_iff.mp h
    exact (traced_join (Owned.nil host) hr).congr (by simp [StartKeeps])

theorem traced_end (hhost : host.udpPort ≠ 0) {s : MsgservLoop} {e : LoopEnd}
    (hown : Owned host s.peers.msgsrvList s.peers.opened) (h : endPeers host s e = some p) :
    Traced host s.peers (endCalls host s e) p True := by
  cases e with
  | exit => exact Option.some.inj h ▸ Traced.nil hown
  | failed => exact Option.some.inj h ▸ traced_purge hown
  | unread accepted =>
    have hpurge := traced_purge hown
    exact (hpurge.append (traced_accept hhost hpurge.owned_last h)).congr (Iff.of_eq (and_self True))

/-! ### The ledger of a run -/

theorem run_eventsOf (h : run call p calls = some p') :
    run settle p.opened (eventsOf calls) = some p'.opened := by
  induction calls generalizing p with
  | nil =>
    rw [← Option.some.inj h]
    rfl
  | cons c calls ih =>
    rw [run_cons] at h
    obtain ⟨p₁, h₁, hrest⟩ := Option.bind_eq_some_iff.mp h
    obtain ⟨opened, hopened, rfl⟩ := Option.map_eq_some_iff.mp h₁
    rw [eventsOf, List.flatMap_cons, run_append, hopened]
    exact ih hrest

theorem list_of_call {c : Call} (h : run call p (calls ++ [c]) = some p') :
    p'.msgsrvList = c.msgsrvList := by
  obtain ⟨p₁, -, hc⟩ := run_concat_eq_some.mp h
  obtain ⟨opened, -, rfl⟩ := Option.map_eq_some_iff.mp hc
  rfl

/-- Two entries do not have one descriptor. -/
theorem countP_le_one (h : l.Pairwise fun s t => s.fd = t.fd → s.fd < 0) {fd : ℤ} (hpos : 0 ≤ fd) :
    l.countP (fun s => s.fd == fd) ≤ 1 := by
  induction l with
  | nil => simp
  | cons s rest ih =>
    obtain ⟨hs, hrest⟩ := List.pairwise_cons.mp h
    rw [List.countP_cons]
    split
    · rename_i heq
      have hfd : s.fd = fd := by simpa using heq
      have hzero : rest.countP (fun t => t.fd == fd) = 0 := by
        apply List.countP_eq_zero.mpr
        intro t ht hsame
        have htfd : t.fd = fd := by simpa using hsame
        have hneg := hs t ht (hfd.trans htfd.symm)
        omega
      omega
    · exact ih hrest

/-- **What is covered has one entry.** -/
theorem accounted_iff (hown : Owned host p.msgsrvList p.opened) {log : List (Event ℤ)}
    (hlog : run settle [] log = some p.opened) : Accounted log p.msgsrvList ↔ Covered p := by
  apply forall_congr'
  intro fd
  rw [← mem_run_settle_iff hlog]
  apply forall_congr'
  intro hfd
  have hle := countP_le_one hown.distinct (hown.opened fd hfd)
  have hcount : p.msgsrvList.countP (fun s => s.fd == fd) = 1
      ↔ 0 < p.msgsrvList.countP (fun s => s.fd == fd) := by omega
  rw [hcount, List.countP_pos_iff]
  simp

/-- **Whenever a call has returned.** -/
theorem accounted_iff_always {C : Prop} (h : Traced host ⟨[], []⟩ calls p C) :
    (∀ before c, before ++ [c] <+: calls → Accounted (eventsOf (before ++ [c])) c.msgsrvList)
      ↔ Always call Covered ⟨[], []⟩ calls := by
  have hstate {before : List Call} {c : Call} {q : Peers} (hpre : before ++ [c] <+: calls)
      (hq : run call ⟨[], []⟩ (before ++ [c]) = some q) :
      Accounted (eventsOf (before ++ [c])) c.msgsrvList ↔ Covered q := by
    have hown := always_iff.mp h.owned (before ++ [c]) q hpre hq
    rw [← list_of_call hq]
    exact accounted_iff hown (run_eventsOf hq)
  rw [always_iff]
  constructor
  · intro hall bs q hbs hq
    rcases List.eq_nil_or_concat bs with rfl | ⟨before, c, rfl⟩
    · rw [← Option.some.inj hq]
      intro fd hfd
      simp at hfd
    · rw [List.concat_eq_append] at hbs hq
      exact (hstate hbs hq).mp (hall before c hbs)
  · intro hall before c hpre
    obtain ⟨rest, hcalls⟩ := hpre
    have hrun := h.run
    rw [← hcalls, run_append] at hrun
    obtain ⟨q, hq, -⟩ := Option.bind_eq_some_iff.mp hrun
    exact (hstate ⟨rest, hcalls⟩ hq).mpr (hall (before ++ [c]) q ⟨rest, hcalls⟩ hq)

/-- `free_list` closes the descriptor of every entry, if none is 0. -/
theorem settle_freeList (hown : Owned host l opened) (hstdin : 0 ∉ opened) :
    ∃ opened', run settle opened (freeList l) = some opened'
      ∧ ∀ fd ∈ opened', fd ∈ opened ∧ ∀ s ∈ l, s.fd ≠ fd := by
  induction l generalizing opened with
  | nil => exact ⟨opened, rfl, by simp⟩
  | cons s rest ih =>
    have hne : s.fd ≠ 0 := by
      intro hzero
      rcases hown.fd_cases List.mem_cons_self with hfd | hfd | ⟨-, hfd⟩
      · omega
      · omega
      · exact hstdin (hzero ▸ hfd)
    have hfree : freeServerEvents s = closeFdEvents s.fd := by
      rw [freeServerEvents, ite_eq_left_iff]
      intro hle
      rw [closeFdEvents, if_pos (by omega)]
    obtain ⟨opened', hrest, hleft⟩ := ih hown.close fun hmem => hstdin (mem_closeFd hmem)
    refine ⟨opened', ?_, ?_⟩
    · rw [freeList, List.flatMap_cons, hfree, run_append, settle_closeFd hown]
      exact hrest
    · intro fd hfd
      obtain ⟨hmem, hother⟩ := hleft fd hfd
      refine ⟨mem_closeFd hmem, List.forall_mem_cons.mpr ⟨?_, hother⟩⟩
      rintro rfl
      have hpos := hown.opened s.fd (mem_closeFd hmem)
      rw [closeFd, if_neg (by omega)] at hmem
      simp at hmem

theorem traced_program (hhost : host.udpPort ≠ 0) {board : Board} {daemonMode : Option Join}
    {s₀ s : MsgservLoop} (hstart : MsgservLoop.start host board daemonMode = some s₀)
    {ts : List Turn} (hrun : run (turn host) s₀ ts = some s) {e : LoopEnd}
    (hend : endPeers host s e = some p) :
    Traced host ⟨[], []⟩ (programCalls host daemonMode s₀ ts s e) p
      (StartKeeps host daemonMode ∧ Meets (turn host) (TurnKeeps host) s₀ ts) := by
  have hstart' := traced_start hstart
  have hloop := traced_loop hhost hstart'.owned_last hrun
  have hend' := traced_end hhost hloop.owned_last hend
  refine (hstart'.append (hloop.append hend')).congr (and_congr_right fun _ => ?_)
  exact Iff.of_eq (and_true _)

/-- **Every descriptor has its entry or is closed**, in every state and exactly once in the end, if
and only if no join loses one.  The program does not start without a UDP port, and descriptor 0 is in
use from the start. -/
theorem kept_iff (hhost : host.udpPort ≠ 0) {board : Board} {daemonMode : Option Join}
    {s₀ s : MsgservLoop} (hstart : MsgservLoop.start host board daemonMode = some s₀)
    {ts : List Turn} (hrun : run (turn host) s₀ ts = some s) {e : LoopEnd}
    (hend : endPeers host s e = some p)
    (hstdin : Event.obtained 0 ∉ eventsOf (programCalls host daemonMode s₀ ts s e)) :
    Kept (programCalls host daemonMode s₀ ts s e) p.msgsrvList
      ↔ StartKeeps host daemonMode ∧ Meets (turn host) (TurnKeeps host) s₀ ts := by
  have htraced := traced_program hhost hstart hrun hend
  have hempty : Covered ⟨[], []⟩ := fun fd hfd => absurd hfd (by simp)
  rw [← htraced.covered hempty, ← accounted_iff_always htraced]
  refine ⟨Kept.accounted, fun haccounted => ⟨haccounted, ?_⟩⟩
  have hcov : Covered p := ((accounted_iff_always htraced).mp haccounted).last htraced.run
  have hlog : run settle [] (eventsOf (programCalls host daemonMode s₀ ts s e)) = some p.opened :=
    run_eventsOf htraced.run
  have hzero : (0 : ℤ) ∉ p.opened := by
    rw [mem_run_settle_iff hlog]
    rintro ⟨before, after, heq, -⟩
    rw [heq] at hstdin
    simp at hstdin
  obtain ⟨opened, hfree, hleft⟩ := settle_freeList htraced.owned_last hzero
  have hall : run settle [] (eventsOf (programCalls host daemonMode s₀ ts s e)
      ++ freeList p.msgsrvList) = some opened := by
    rw [run_append, hlog]
    exact hfree
  apply (closedOnce_iff hall).mpr
  apply List.eq_nil_iff_forall_not_mem.mpr
  intro fd hfd
  obtain ⟨hmem, hother⟩ := hleft fd hfd
  obtain ⟨t, ht, heq⟩ := hcov fd hmem
  exact hother t ht heq

def oldServer : Server := .new (ascii "old") (ascii "peer.lan") 9000 10000

/-- The id server lists one server, and the first socket is descriptor 7. -/
def joinOld (resolved : Bool) : Join where
  registered := true
  received := some (serversText [oldServer])
  outcome := fun _ => ⟨7, resolved, resolved, resolved⟩

/-- A server connects, and the one that was joined closes its connection. -/
def acceptTurn : Turn where
  accepted := some (8, ascii "10.0.0.3", 40000)
  line := none
  datagram := none
  sent := true
  writes := fun _ => true
  reading := fun fd => if fd = 7 then some ⟨[], true, fun _ => true⟩ else none

theorem kept_iff_accept : ∃ s₀ s p,
    MsgservLoop.start boardHost emptyBoard (some (joinOld true)) = some s₀
      ∧ run (turn boardHost) s₀ [acceptTurn] = some s ∧ endPeers boardHost s .exit = some p
      ∧ eventsOf (programCalls boardHost (some (joinOld true)) s₀ [acceptTurn] s .exit)
        = [.obtained 7, .obtained 8, .closed 7]
      ∧ Kept (programCalls boardHost (some (joinOld true)) s₀ [acceptTurn] s .exit) p.msgsrvList := by
  have hall : (MsgservLoop.start boardHost emptyBoard (some (joinOld true))).any (fun s₀ =>
      (run (turn boardHost) s₀ [acceptTurn]).any fun s => decide
        (eventsOf (programCalls boardHost (some (joinOld true)) s₀ [acceptTurn] s .exit)
          = [.obtained 7, .obtained 8, .closed 7])) = true := by
    decide +kernel
  obtain ⟨s₀, hstart, hloop⟩ := (Option.any_eq_true _ _).mp hall
  obtain ⟨s, hrun, hlog⟩ := (Option.any_eq_true _ _).mp hloop
  have hevents := of_decide_eq_true hlog
  refine ⟨s₀, s, s.peers, hstart, hrun, rfl, hevents, ?_⟩
  apply (kept_iff (by decide) hstart hrun rfl (by rw [hevents]; decide)).mpr
  constructor
  · intro j hj
    have hplain : ∀ s ∈ [oldServer], PlainServer s := by decide
    have hparse := parseServers_serversText hplain (by decide) []
    have hdue : isDue boardHost (listed oldServer) = true := by decide
    rw [← Option.some.inj hj, joinKeeps_iff rfl hparse]
    simp [NoneLost, attempts, joinOld, hdue]
  · exact ⟨fun p hp => trivial, fun s' hs' => trivial⟩

/-- **A server whose name is not resolved**: its socket is closed by nobody. -/
theorem not_kept_unresolved : ∃ s,
    MsgservLoop.start boardHost emptyBoard (some (joinOld false)) = some s
      ∧ eventsOf (programCalls boardHost (some (joinOld false)) s [] s .exit) = [.obtained 7]
      ∧ s.peers.msgsrvList.map Server.fd = [-1]
      ∧ ¬Kept (programCalls boardHost (some (joinOld false)) s [] s .exit) s.peers.msgsrvList := by
  have hall : (MsgservLoop.start boardHost emptyBoard (some (joinOld false))).any (fun s => decide
      (eventsOf (programCalls boardHost (some (joinOld false)) s [] s .exit) = [.obtained 7]
        ∧ s.peers.msgsrvList.map Server.fd = [-1])) = true := by
    decide +kernel
  obtain ⟨s, hstart, hend⟩ := (Option.any_eq_true _ _).mp hall
  obtain ⟨hevents, hfds⟩ := of_decide_eq_true hend
  refine ⟨s, hstart, hevents, hfds, ?_⟩
  intro hkept
  obtain ⟨t, hlist, hfd⟩ := List.map_eq_singleton_iff.mp hfds
  have honce := hkept.closedOnce
  have hfree : freeList [t] = [] := by
    rw [freeList, List.flatMap_singleton, freeServerEvents, if_neg (by omega)]
  rw [hevents, hlist, hfree] at honce
  have hcount := honce [] 7 [] rfl
  simp at hcount

end DescriptorOwnership

end MessageBoard
