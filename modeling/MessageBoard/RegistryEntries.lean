import MessageBoard.IdservReply

/-!
# What is in the registry

The loop of `main` that looks for a server of the same fields only leaves itself, and the timer of
`time.NewTimer` fires once.  So a server that registers again is entered again, and what is registered
after the wipe stays.

* `contents_nodup_iff` — **the registry holds each server once** exactly if no server is received that
  it holds already;
* `listed_run` — what the handlers write are servers that `main` took;
* `replies_fresh` — **no stale server is served** in a run whose servers keep registering.
-/

namespace MessageBoard

open CText Run

namespace Idserv

variable {grow : ℕ → ℕ} {sys sys' : Sys}

/-! ### Duplicates -/

/-- No two entries have the same fields. -/
def EachOnce (sys : Sys) : Prop := (contents sys.heap sys.servers).Nodup

/-- The server received, if one is, is not in the registry. -/
def NewServer (sys : Sys) (a : Action) : Prop :=
  a = .addServer → ∀ serverToAdd ∈ sys.serverRecv.head?, serverToAdd ∉ contents sys.heap sys.servers

instance (sys : Sys) (a : Action) : Decidable (NewServer sys a) :=
  inferInstanceAs (Decidable (a = .addServer → ∀ serverToAdd ∈ sys.serverRecv.head?,
    serverToAdd ∉ contents sys.heap sys.servers))

/-- A registration is appended in any case. -/
theorem contents_addServer (grow : ℕ → ℕ) (hin : InArray sys.heap sys.servers)
    (serverToAdd : Server) (rest : List Server) :
    contents (sys.addServer grow serverToAdd rest).heap (sys.addServer grow serverToAdd rest).servers
      = contents sys.heap sys.servers ++ [serverToAdd] :=
  (contents_append hin serverToAdd).2

theorem eachOnce_step {a : Action} (hin : InArray sys.heap sys.servers) (honce : EachOnce sys)
    (h : step grow sys a = some sys') : EachOnce sys' ↔ NewServer sys a := by
  have hsame : contents sys'.heap sys'.servers = contents sys.heap sys.servers → a ≠ .addServer →
      (EachOnce sys' ↔ NewServer sys a) := by
    intro heq hne
    rw [EachOnce, heq]
    exact iff_of_true honce fun ha => absurd ha hne
  cases stepped_of_step h with
  | @readFromUDP _ _ command hread =>
    apply hsame _ (by simp)
    cases command <;> rfl
  | sendServer hsending => exact hsame rfl (by simp)
  | timer hmain =>
    refine iff_of_true ?_ fun ha => by simp at ha
    rw [EachOnce, Sys.wipe, contents, List.take_zero]
    exact List.nodup_nil
  | @addServer serverToAdd rest hmain hrecv =>
    rw [EachOnce, contents_addServer grow hin, List.nodup_append_comm, List.singleton_append,
      List.nodup_cons]
    rw [EachOnce] at honce
    rw [and_iff_left honce]
    simp [NewServer, hrecv]
  | ask hmain hasking => exact hsame rfl (by simp)
  | reply hmain hwaiting => exact hsame rfl (by simp)
  | handOver hasking hwaiting => exact hsame rfl (by simp)
  | writeLine hwriting => exact hsame rfl (by simp)

/-- **The registry holds each server once, exactly if no server is received that it holds already.** -/
theorem contents_nodup_iff {as : List Action} (hrun : run (step grow) start as = some sys) :
    Always (step grow) EachOnce start as ↔ Meets (step grow) NewServer start as := by
  refine always_iff_meets (I := fun s => InArray s.heap s.servers ∧ EachOnce s) (fun s hs => hs.2)
    ?_ ?_ ⟨⟨by decide, by decide⟩, List.nodup_nil⟩ hrun
  · intro s a s' hs hnew h
    exact ⟨inArray_step hs.1 h, (eachOnce_step hs.1 hs.2 h).mpr hnew⟩
  · intro s a s' hs hold h honce
    exact hold ((eachOnce_step hs.1 hs.2 h).mp honce)

/-- Two servers register. -/
def twoServers : List Action :=
  [.readFromUDP (ascii "REG a;10.0.0.1;9000;10000" ++ [13, newline]), .sendServer 0, .addServer,
    .readFromUDP (ascii "REG b;10.0.0.1;9000;10000" ++ [13, newline]), .sendServer 1, .addServer]

theorem contents_nodup_two : ∃ sys, run (step id) start twoServers = some sys
    ∧ Always (step id) EachOnce start twoServers := by
  have hrun : (run (step id) start twoServers).isSome = true := by decide +kernel
  obtain ⟨sys, hsys⟩ := Option.isSome_iff_exists.mp hrun
  exact ⟨sys, hsys, (contents_nodup_iff hsys).mpr (by decide +kernel)⟩

/-- One server registers, and again. -/
def registeredAgain : List Action :=
  [.readFromUDP (ascii "REG a;10.0.0.1;9000;10000" ++ [13, newline]), .sendServer 0, .addServer,
    .readFromUDP (ascii "REG a;10.0.0.1;9000;10000" ++ [13, newline]), .sendServer 1, .addServer]

/-- **The search does not keep it from being entered again.** -/
theorem not_eachOnce_again : ¬∀ as sys, run (step id) start as = some sys → EachOnce sys := by
  intro h
  have hrun : (run (step id) start registeredAgain).any (fun sys =>
      decide (contents sys.heap sys.servers = [⟨ascii "a", ascii "10.0.0.1", 9000, 10000⟩,
        ⟨ascii "a", ascii "10.0.0.1", 9000, 10000⟩])) = true := by
    decide +kernel
  obtain ⟨sys, hsys, htwice⟩ := (Option.any_eq_true _ _).mp hrun
  have honce := h registeredAgain sys hsys
  rw [decide_eq_true_eq] at htwice
  rw [EachOnce, htwice] at honce
  simp at honce

/-! ### Runs in time -/

/-- `time.Minute`, in nanoseconds. -/
def minute : ℕ := 60 * 10 ^ 9

/-- The state with the time since the start and what has happened until then. -/
structure Timed where
  sys : Sys
  now : ℕ
  /-- The registrations that were read, with their times. -/
  registered : List (ℕ × Server)
  /-- The servers that `main` took since the wipe, or since the start. -/
  taken : List Server
  /-- Those it took before the wipe. -/
  wiped : List Server
  /-- The handlers that were writing when the wipe came. -/
  begun : List ℕ
  /-- The servers a handler has written. -/
  written : ℕ → List Server
  /-- The replies sent, with their times and servers. -/
  replies : List (ℕ × List Server)

def Handler.isWriting : Handler → Bool
  | .writing _ _ _ => true
  | _ => false

/-- The element that the next turn of a handler writes; `none` if it sends its reply. -/
def nextElement (sys : Sys) : Handler → Option Server
  | .writing servers k _ =>
      if k < servers.len then some ((array sys.heap servers).getD k ⟨[], [], 0, 0⟩) else none
  | _ => none

/-- What an action adds to the record. -/
def Timed.note (ts : Timed) (t : ℕ) (sys : Sys) : Action → Timed
  | .readFromUDP datagram => { ts with
      sys := sys
      now := t
      registered := ((register ts.sys.buf datagram).map fun srv => (t, srv)).toList ++ ts.registered }
  | .addServer => { ts with
      sys := sys
      now := t
      taken := ts.sys.serverRecv.head?.toList ++ ts.taken }
  | .timer => { ts with
      sys := sys
      now := t
      taken := []
      wiped := ts.taken ++ ts.wiped
      begun := (List.range ts.sys.handlers.length).filter fun h =>
        (ts.sys.handlers[h]?).any Handler.isWriting }
  | .writeLine h =>
      match (ts.sys.handlers[h]?).bind (nextElement ts.sys) with
      | some srv => { ts with
          sys := sys
          now := t
          written := Function.update ts.written h (ts.written h ++ [srv]) }
      | none => { ts with
          sys := sys
          now := t
          replies := (t, ts.written h) :: ts.replies }
  | _ => { ts with sys := sys, now := t }

/-- Time does not go back, and the timer fires after a minute. -/
def timedStep (grow : ℕ → ℕ) (ts : Timed) (a : ℕ × Action) : Option Timed :=
  if ts.now ≤ a.1 ∧ (a.2 = .timer → minute ≤ a.1) then
    (step grow ts.sys a.2).map fun sys => ts.note a.1 sys a.2
  else none

def timedStart : Timed := ⟨start, 0, [], [], [], [], fun _ => [], []⟩

/-- The servers a handler may find in its slice: those taken since the wipe, unless it was writing
when the wipe came. -/
def Timed.pool (ts : Timed) (h : ℕ) : List Server :=
  if h ∈ ts.begun then ts.taken ++ ts.wiped else ts.taken

/-- A registration of `srv` was read in the two minutes before `t`. -/
def Timed.RecentAt (ts : Timed) (t : ℕ) (srv : Server) : Prop :=
  ∃ r, (r, srv) ∈ ts.registered ∧ r ≤ t ∧ t ≤ r + 2 * minute

instance (ts : Timed) (t : ℕ) (srv : Server) : Decidable (ts.RecentAt t srv) :=
  decidable_of_iff (∃ r ∈ ts.registered, r.2 = srv ∧ r.1 ≤ t ∧ t ≤ r.1 + 2 * minute) (by
    simp only [Timed.RecentAt, Prod.exists]
    constructor
    · rintro ⟨r, x, hr, rfl, hle⟩
      exact ⟨r, hr, hle⟩
    · rintro ⟨r, hr, hle⟩
      exact ⟨r, srv, hr, rfl, hle⟩)

/-- The handler that sends its reply. -/
def replier (sys : Sys) : Action → Option ℕ
  | .writeLine h => if (sys.handlers[h]?).bind (nextElement sys) = none then some h else none
  | _ => none

/-- When a reply is sent, the servers taken have registered in the last two minutes. -/
def KeepRegistering (ts : Timed) (a : ℕ × Action) : Prop :=
  ∀ h ∈ replier ts.sys a.2, ∀ srv ∈ ts.pool h, ts.RecentAt a.1 srv

instance (ts : Timed) (a : ℕ × Action) : Decidable (KeepRegistering ts a) :=
  inferInstanceAs (Decidable (∀ h ∈ replier ts.sys a.2, ∀ srv ∈ ts.pool h, ts.RecentAt a.1 srv))

/-- **Every server of a reply was registered in the two minutes before it.** -/
def NoStale (ts : Timed) : Prop := ∀ r ∈ ts.replies, ∀ srv ∈ r.2, ts.RecentAt r.1 srv

/-! ### What the handlers write -/

/-- A slice that `main` has sent keeps its place, and an element that changes is the new server. -/
theorem contents_append_subset (grow : ℕ → ℕ) {heap : List (List Server)} {v : Slice}
    (hv : InArray heap v) (s : Slice) (srv : Server) : InArray (append grow heap s srv).1 v
      ∧ ∀ x ∈ contents (append grow heap s srv).1 v, x ∈ contents heap v ∨ x = srv := by
  rw [append]
  split
  · by_cases harr : v.arr = s.arr
    · have hset : array (heap.set s.arr ((array heap s).set s.len srv)) v
          = (array heap v).set s.len srv := by
        obtain ⟨arr, len⟩ := v
        subst harr
        exact array_set_self hv.1 _ _
      refine ⟨⟨by simpa using hv.1, by rw [hset, List.length_set]; exact hv.2⟩, ?_⟩
      intro x hx
      rw [contents, hset, List.take_set] at hx
      exact List.mem_or_eq_of_mem_set hx
    · have hsame : array (heap.set s.arr ((array heap s).set s.len srv)) v = array heap v := by
        simp [array, List.getElem?_set_ne (Ne.symm harr)]
      refine ⟨⟨by simpa using hv.1, by rw [hsame]; exact hv.2⟩, ?_⟩
      intro x hx
      rw [contents, hsame] at hx
      exact Or.inl hx
  · have hsame : ∀ a, array (heap ++ [a]) v = array heap v := by
      intro a
      simp [array, List.getElem?_append_left hv.1]
    refine ⟨⟨by simpa using Nat.lt_succ_of_lt hv.1, by rw [hsame]; exact hv.2⟩, ?_⟩
    intro x hx
    rw [contents, hsame] at hx
    exact Or.inl hx

/-- What is written, or may still be, lies in the pool of the handler, and is the text of its reply. -/
def Listed (ts : Timed) (h : ℕ) : Option Handler → Prop
  | some (.writing v _ buffer) => InArray ts.sys.heap v
      ∧ (∀ srv ∈ contents ts.sys.heap v, srv ∈ ts.pool h) ∧ (∀ srv ∈ ts.written h, srv ∈ ts.pool h)
      ∧ buffer = reply (ts.written h)
  | some (.done datagram) => datagram = reply (ts.written h)
  | _ => ts.written h = []

structure Recorded (ts : Timed) : Prop where
  inArray : InArray ts.sys.heap ts.sys.servers
  taken : ∀ srv ∈ contents ts.sys.heap ts.sys.servers, srv ∈ ts.taken
  listed : ∀ h, Listed ts h ts.sys.handlers[h]?
  times : ∀ r ∈ ts.registered, r.1 ≤ ts.now

variable {ts ts' : Timed}

theorem Timed.taken_subset_pool (ts : Timed) (h : ℕ) : ∀ srv ∈ ts.taken, srv ∈ ts.pool h := by
  intro srv hsrv
  rw [Timed.pool]
  split
  · exact List.mem_append_left _ hsrv
  · exact hsrv

/-- An action that leaves the handler `h` and what it has written alone. -/
theorem Listed.mono {h : ℕ} {handler : Option Handler} (hlisted : Listed ts h handler)
    (hwritten : ts'.written h = ts.written h) (hpool : ∀ srv ∈ ts.pool h, srv ∈ ts'.pool h)
    (hheap : ∀ v, InArray ts.sys.heap v → InArray ts'.sys.heap v
      ∧ ∀ srv ∈ contents ts'.sys.heap v, srv ∈ contents ts.sys.heap v ∨ srv ∈ ts'.pool h) :
    Listed ts' h handler := by
  match handler, hlisted with
  | some (.writing v k buffer), ⟨hv, hcontents, hwrote, htext⟩ =>
    refine ⟨(hheap v hv).1, ?_, ?_, by rw [hwritten]; exact htext⟩
    · intro srv hsrv
      rcases (hheap v hv).2 srv hsrv with hold | hnew
      · exact hpool srv (hcontents srv hold)
      · exact hnew
    · intro srv hsrv
      rw [hwritten] at hsrv
      exact hpool srv (hwrote srv hsrv)
  | some (.done datagram), htext => exact (show datagram = _ by rw [hwritten]; exact htext)
  | some .asking, hnil => exact (show _ = _ by rw [hwritten]; exact hnil)
  | some .waiting, hnil => exact (show _ = _ by rw [hwritten]; exact hnil)
  | none, hnil => exact (show _ = _ by rw [hwritten]; exact hnil)

theorem timedStep_cases {a : ℕ × Action} (h : timedStep grow ts a = some ts') : ts.now ≤ a.1
    ∧ ∃ sys, step grow ts.sys a.2 = some sys ∧ ts' = ts.note a.1 sys a.2 := by
  rw [timedStep] at h
  split at h
  · rename_i hnow
    obtain ⟨sys, hsys, hts⟩ := Option.map_eq_some_iff.mp h
    exact ⟨hnow.1, sys, hsys, hts.symm⟩
  · simp at h

theorem recorded_start : Recorded timedStart where
  inArray := ⟨by decide, by decide⟩
  taken := by simp [timedStart, start, contents, Slice.nil]
  listed := fun h => rfl
  times := by simp [timedStart]

/-- One handler moves on. -/
theorem listed_set {handlers : List Handler} {i : ℕ} {x y : Handler} (hi : handlers[i]? = some x)
    (hy : Listed ts i (some y)) (hother : ∀ h, h ≠ i → Listed ts h handlers[h]?) :
    ∀ h, Listed ts h (handlers.set i y)[h]? := by
  intro h
  by_cases heq : h = i
  · rw [heq, List.getElem?_set_self (List.getElem?_eq_some_iff.mp hi).1]
    exact hy
  · rw [List.getElem?_set_ne (Ne.symm heq)]
    exact hother h heq

/-- An action that changes neither the arrays nor the record. -/
theorem Recorded.same {sys : Sys} {t : ℕ} (hrec : Recorded ts) (hheap : sys.heap = ts.sys.heap) :
    ∀ h, Listed { ts with sys := sys, now := t } h ts.sys.handlers[h]? := fun h =>
  (hrec.listed h).mono rfl (fun _ hs => hs) fun v hv => by
    show InArray sys.heap v ∧ ∀ srv ∈ contents sys.heap v, _
    rw [hheap]
    exact ⟨hv, fun _ hs => Or.inl hs⟩

theorem nextElement_writing {servers : Slice} {k : ℕ} (hv : InArray sys.heap servers)
    (hk : k < servers.len) (buffer : Text) : ∃ srv ∈ contents sys.heap servers,
      nextElement sys (.writing servers k buffer) = some srv
        ∧ lineAt sys.heap servers k = serverLine srv ++ [newline] := by
  have hlt : k < (array sys.heap servers).length := hk.trans_le hv.2
  refine ⟨(array sys.heap servers)[k], ?_, ?_, ?_⟩
  · rw [contents, List.mem_take_iff_getElem]
    exact ⟨k, by omega, rfl⟩
  · rw [nextElement, if_pos hk, List.getD_eq_getElem _ _ hlt]
  · rw [lineAt, List.getD_eq_getElem _ _ hlt]

section Actions

variable {t : ℕ}

theorem Recorded.times_le (hrec : Recorded ts) (hnow : ts.now ≤ t) :
    ∀ r ∈ ts.registered, r.1 ≤ t :=
  fun r hr => (hrec.times r hr).trans hnow

theorem Recorded.readFromUDP (hrec : Recorded ts) (hnow : ts.now ≤ t) (datagram buf : Text)
    (command : Command) (hin : InArray (ts.sys.dispatch buf command).heap
      (ts.sys.dispatch buf command).servers) :
    Recorded (ts.note t (ts.sys.dispatch buf command) (.readFromUDP datagram)) := by
  have hheap : (ts.sys.dispatch buf command).heap = ts.sys.heap := by cases command <;> rfl
  have hservers : (ts.sys.dispatch buf command).servers = ts.sys.servers := by cases command <;> rfl
  refine ⟨hin, ?_, ?_, ?_⟩
  · intro srv hsrv
    apply hrec.taken srv
    simpa only [Timed.note, hheap, hservers] using hsrv
  · intro i
    have hold := hrec.same (t := t) hheap i
    show Listed _ i (ts.sys.dispatch buf command).handlers[i]?
    rw [handlers_dispatch]
    by_cases hi : i < ts.sys.handlers.length
    · rw [List.getElem?_append_left hi]
      exact hold
    · -- a handler that starts has written nothing
      rw [List.getElem?_eq_none (Nat.le_of_not_lt hi)] at hold
      have hnil : ts.written i = [] := hold
      rw [List.getElem?_append_right (Nat.le_of_not_lt hi)]
      by_cases hreq : command = .serverRequest
      · rw [if_pos hreq]
        cases i - ts.sys.handlers.length <;> exact hnil
      · rw [if_neg hreq]
        exact hnil
  · intro r hr
    rcases List.mem_append.mp hr with hnew | hold
    · obtain ⟨srv, -, rfl⟩ := Option.map_eq_some_iff.mp (Option.mem_toList.mp hnew)
      exact le_rfl
    · exact hrec.times_le hnow r hold

/-- The wipe leaves the arrays as they are, and a handler that is writing goes on. -/
theorem Recorded.timer (hrec : Recorded ts) (hnow : ts.now ≤ t)
    (hin : InArray ts.sys.wipe.heap ts.sys.wipe.servers) :
    Recorded (ts.note t ts.sys.wipe .timer) := by
  refine ⟨hin, ?_, ?_, hrec.times_le hnow⟩
  · intro srv hsrv
    simp [Timed.note, Sys.wipe, contents] at hsrv
  · intro i
    have hold := hrec.listed i
    show Listed _ i ts.sys.handlers[i]?
    cases hi : ts.sys.handlers[i]? with
    | none =>
      rw [hi] at hold
      exact hold
    | some handler =>
      rw [hi] at hold
      cases handler with
      | writing v k buffer =>
        have hbegun : i ∈ (ts.note t ts.sys.wipe .timer).begun := by
          have hlt := (List.getElem?_eq_some_iff.mp hi).1
          simp only [Timed.note, List.mem_filter, List.mem_range]
          exact ⟨hlt, by rw [hi]; rfl⟩
        refine hold.mono rfl ?_ fun v hv => ⟨hv, fun _ hs => Or.inl hs⟩
        intro srv hsrv
        rw [Timed.pool, if_pos hbegun]
        apply List.mem_append_right
        rw [Timed.pool] at hsrv
        split at hsrv
        · exact hsrv
        · exact List.mem_append_left _ hsrv
      | done datagram => exact hold
      | asking => exact hold
      | waiting => exact hold

/-- A server that is taken is in every pool. -/
theorem mem_pool_addServer {serverToAdd : Server} {rest : List Server}
    (hrecv : ts.sys.serverRecv = serverToAdd :: rest) (i : ℕ) {srv : Server}
    (hsrv : srv ∈ ts.pool i ∨ srv = serverToAdd) : srv ∈ (ts.note t sys .addServer).pool i := by
  show srv ∈ if i ∈ ts.begun then (ts.sys.serverRecv.head?.toList ++ ts.taken) ++ ts.wiped
    else ts.sys.serverRecv.head?.toList ++ ts.taken
  rw [hrecv]
  rw [Timed.pool] at hsrv
  by_cases hbegun : i ∈ ts.begun
  · rw [if_pos hbegun] at hsrv ⊢
    simpa [or_comm, or_assoc, or_left_comm] using hsrv
  · rw [if_neg hbegun] at hsrv ⊢
    simpa [or_comm] using hsrv

theorem Recorded.addServer (hrec : Recorded ts) (hnow : ts.now ≤ t) {serverToAdd : Server}
    {rest : List Server} (hrecv : ts.sys.serverRecv = serverToAdd :: rest)
    (hin : InArray (ts.sys.addServer grow serverToAdd rest).heap
      (ts.sys.addServer grow serverToAdd rest).servers) :
    Recorded (ts.note t (ts.sys.addServer grow serverToAdd rest) .addServer) := by
  refine ⟨hin, ?_, ?_, hrec.times_le hnow⟩
  · intro srv hsrv
    have hsrv' : srv ∈ contents ts.sys.heap ts.sys.servers ++ [serverToAdd] := by
      rw [← contents_addServer grow hrec.inArray serverToAdd rest]
      exact hsrv
    show srv ∈ ts.sys.serverRecv.head?.toList ++ ts.taken
    rw [hrecv]
    rcases List.mem_append.mp hsrv' with hold | hnew
    · exact List.mem_append_right _ (hrec.taken srv hold)
    · exact List.mem_append_left _ hnew
  · intro i
    refine (hrec.listed i).mono rfl (fun srv hsrv => mem_pool_addServer hrecv i (Or.inl hsrv)) ?_
    intro v hv
    obtain ⟨hv', hsub⟩ := contents_append_subset grow hv ts.sys.servers serverToAdd
    refine ⟨hv', fun srv hsrv => (hsub srv hsrv).imp_right fun heq => ?_⟩
    exact mem_pool_addServer hrecv i (Or.inr heq)

theorem Recorded.ask (hrec : Recorded ts) (hnow : ts.now ≤ t) {i : ℕ}
    (hasking : ts.sys.handlers[i]? = some .asking)
    (hin : InArray (ts.sys.ask i).heap (ts.sys.ask i).servers) :
    Recorded (ts.note t (ts.sys.ask i) (.ask i)) := by
  refine ⟨hin, hrec.taken, listed_set hasking ?_ fun h _ => hrec.same rfl h, hrec.times_le hnow⟩
  have hnil := hrec.listed i
  rw [hasking] at hnil
  exact hnil

/-- A handler that is given the registry may write what `main` has taken. -/
theorem Recorded.reply (hrec : Recorded ts) (hnow : ts.now ≤ t) {i : ℕ}
    (hwaiting : ts.sys.handlers[i]? = some .waiting)
    (hin : InArray (ts.sys.reply i).heap (ts.sys.reply i).servers) :
    Recorded (ts.note t (ts.sys.reply i) (.reply i)) := by
  refine ⟨hin, hrec.taken, listed_set hwaiting ?_ fun h _ => hrec.same rfl h, hrec.times_le hnow⟩
  have hnil : ts.written i = [] := by
    have hlisted := hrec.listed i
    rwa [hwaiting] at hlisted
  refine ⟨hrec.inArray, fun srv hsrv => ts.taken_subset_pool i srv (hrec.taken srv hsrv), ?_, ?_⟩
  · simp [Timed.note, hnil]
  · show _ = Idserv.reply (ts.written i)
    rw [hnil, reply_nil]

/-- Two handlers that meet have written nothing. -/
theorem Recorded.handOver (hrec : Recorded ts) (hnow : ts.now ≤ t) {sender receiver : ℕ}
    (hasking : ts.sys.handlers[sender]? = some .asking)
    (hwaiting : ts.sys.handlers[receiver]? = some .waiting)
    (hin : InArray (ts.sys.handOver sender receiver).heap (ts.sys.handOver sender receiver).servers) :
    Recorded (ts.note t (ts.sys.handOver sender receiver) (.handOver sender receiver)) := by
  have hne : sender ≠ receiver := by
    rintro rfl
    rw [hasking] at hwaiting
    simp at hwaiting
  have hsender : ts.written sender = [] := by
    have hnil := hrec.listed sender
    rwa [hasking] at hnil
  have hreceiver : ts.written receiver = [] := by
    have hnil := hrec.listed receiver
    rwa [hwaiting] at hnil
  have hset : (ts.sys.handlers.set receiver
      (.writing Slice.nil 0 (ascii "SERVERS" ++ [newline])))[sender]? = some .asking :=
    (List.getElem?_set_ne hne.symm).trans hasking
  refine ⟨hin, hrec.taken, listed_set hset hsender ?_, hrec.times_le hnow⟩
  intro h _
  refine listed_set hwaiting ?_ (fun h _ => hrec.same rfl h) h
  refine ⟨⟨Nat.zero_lt_of_lt hrec.inArray.1, Nat.zero_le _⟩, ?_, ?_, ?_⟩
  · simp [contents, Slice.nil]
  · simp [hreceiver]
  · show _ = Idserv.reply (ts.written receiver)
    rw [hreceiver, reply_nil]

/-- A handler with elements left writes one of its slice, and another one sends its reply. -/
theorem Recorded.writeLine (hrec : Recorded ts) (hnow : ts.now ≤ t) {i k : ℕ} {servers : Slice}
    {buffer : Text} (hwriting : ts.sys.handlers[i]? = some (.writing servers k buffer))
    {handler : Handler} (hhandler : handler = if k < servers.len then
      .writing servers (k + 1) (buffer ++ lineAt ts.sys.heap servers k) else .done buffer) :
    Recorded (ts.note t (ts.sys.setHandler i handler) (.writeLine i)) := by
  have hold := hrec.listed i
  rw [hwriting] at hold
  obtain ⟨hv, hcontents, hwrote, htext⟩ := hold
  by_cases hk : k < servers.len
  · obtain ⟨srv, hsrv, hnext, hline⟩ := nextElement_writing hv hk buffer
    have hnote : ts.note t (ts.sys.setHandler i handler) (.writeLine i) = { ts with
        sys := ts.sys.setHandler i handler
        now := t
        written := Function.update ts.written i (ts.written i ++ [srv]) } := by
      simp only [Timed.note, hwriting, Option.bind_some, hnext]
    rw [hnote, hhandler, if_pos hk]
    refine ⟨hrec.inArray, hrec.taken, listed_set hwriting ?_ ?_, hrec.times_le hnow⟩
    · refine ⟨hv, hcontents, ?_, ?_⟩
      · intro x hx
        simp only [Function.update_self, List.mem_append, List.mem_singleton] at hx
        rcases hx with hx | rfl
        · exact hwrote x hx
        · exact hcontents x hsrv
      · simp only [Function.update_self]
        rw [reply_concat, htext, hline]
    · intro h hne
      exact (hrec.listed h).mono (Function.update_of_ne hne _ _) (fun _ hs => hs)
        fun v hv => ⟨hv, fun _ hs => Or.inl hs⟩
  · have hnext : nextElement ts.sys (.writing servers k buffer) = none := if_neg hk
    have hnote : ts.note t (ts.sys.setHandler i handler) (.writeLine i) = { ts with
        sys := ts.sys.setHandler i handler
        now := t
        replies := (t, ts.written i) :: ts.replies } := by
      simp only [Timed.note, hwriting, Option.bind_some, hnext]
    rw [hnote, hhandler, if_neg hk]
    refine ⟨hrec.inArray, hrec.taken, listed_set hwriting htext ?_, hrec.times_le hnow⟩
    intro h _
    exact (hrec.listed h).mono rfl (fun _ hs => hs) fun v hv => ⟨hv, fun _ hs => Or.inl hs⟩

end Actions

theorem recorded_step {a : ℕ × Action} (hrec : Recorded ts) (h : timedStep grow ts a = some ts') :
    Recorded ts' := by
  obtain ⟨t, a⟩ := a
  obtain ⟨hnow, sys, hstep, rfl⟩ := timedStep_cases h
  have hin := inArray_step hrec.inArray hstep
  cases stepped_of_step hstep with
  | readFromUDP hread => exact hrec.readFromUDP hnow _ _ _ hin
  | sendServer hsending => exact ⟨hin, hrec.taken, hrec.same rfl, hrec.times_le hnow⟩
  | timer hmain => exact hrec.timer hnow hin
  | addServer hmain hrecv => exact hrec.addServer hnow hrecv hin
  | ask hmain hasking => exact hrec.ask hnow hasking hin
  | reply hmain hwaiting => exact hrec.reply hnow hwaiting hin
  | handOver hasking hwaiting => exact hrec.handOver hnow hasking hwaiting hin
  | writeLine hwriting => exact hrec.writeLine hnow hwriting rfl

/-- **What the handlers write are servers that `main` took.** -/
theorem recorded_run {as : List (ℕ × Action)} (hrun : run (timedStep grow) timedStart as = some ts) :
    Recorded ts :=
  run_invariant (fun _ _ _ hrec h => recorded_step hrec h) recorded_start hrun

/-! ### Stale servers -/

theorem registered_note {t : ℕ} {a : Action} :
    ∀ r ∈ ts.registered, r ∈ (ts.note t sys a).registered := by
  intro r hr
  cases a with
  | readFromUDP datagram => exact List.mem_append_right _ hr
  | writeLine h =>
    rw [Timed.note]
    split <;> exact hr
  | _ => exact hr

/-- A reply is sent by a handler that has reached the end of its slice. -/
theorem replies_note {t : ℕ} {a : Action} {r : ℕ × List Server}
    (hr : r ∈ (ts.note t sys a).replies) : r ∈ ts.replies ∨ ∃ h, a = .writeLine h
      ∧ h ∈ replier ts.sys a ∧ r = (t, ts.written h) := by
  cases a with
  | writeLine h =>
    rw [Timed.note] at hr
    split at hr
    · exact Or.inl hr
    · rename_i hnone
      rcases List.mem_cons.mp hr with rfl | hr
      · exact Or.inr ⟨h, rfl, if_pos hnone, rfl⟩
      · exact Or.inl hr
  | _ => exact Or.inl hr

theorem noStale_step {a : ℕ × Action} (hrec : Recorded ts) (hfresh : NoStale ts)
    (hkeep : KeepRegistering ts a) (h : timedStep grow ts a = some ts') : NoStale ts' := by
  obtain ⟨t, a⟩ := a
  obtain ⟨-, sys, hstep, rfl⟩ := timedStep_cases h
  intro r hr srv hsrv
  have hrecent : ts.RecentAt r.1 srv := by
    rcases replies_note hr with hold | ⟨i, rfl, hend, rfl⟩
    · exact hfresh r hold srv hsrv
    · apply hkeep i hend
      cases stepped_of_step hstep with
      | writeLine hwriting =>
        have hlisted := hrec.listed i
        rw [hwriting] at hlisted
        exact hlisted.2.2.1 srv hsrv
  obtain ⟨u, hu, hle, hrest⟩ := hrecent
  exact ⟨u, registered_note _ hu, hle, hrest⟩

/-- **No stale server is served in a run whose servers keep registering.** -/
theorem replies_fresh {as : List (ℕ × Action)} (hrun : run (timedStep grow) timedStart as = some ts)
    (hkeep : Meets (timedStep grow) KeepRegistering timedStart as) : NoStale ts := by
  have hboth := run_invariant_of_meets (P := fun s => Recorded s ∧ NoStale s)
    (fun s a s' hs hc h => ⟨recorded_step hs.1 h, noStale_step hs.1 hs.2 hc h⟩)
    ⟨recorded_start, fun r hr => absurd hr (by simp [timedStart])⟩ hkeep hrun
  exact hboth.2

/-- After the wipe the server `a` registers, and a request follows at the time `t`. -/
def afterWipe (t : ℕ) : List (ℕ × Action) :=
  [(minute, .timer), (minute + 1, .readFromUDP (ascii "REG a;10.0.0.1;9000;10000" ++ [13, newline])),
    (minute + 1, .sendServer 0), (minute + 1, .addServer),
    (t, .readFromUDP (ascii "GET_SERVERS" ++ [nul])), (t, .ask 0), (t, .reply 0), (t, .writeLine 0),
    (t, .writeLine 0)]

theorem replies_fresh_after_wipe : ∃ ts, run (timedStep id) timedStart (afterWipe (3 * minute))
      = some ts ∧ ts.replies = [(3 * minute, [⟨ascii "a", ascii "10.0.0.1", 9000, 10000⟩])]
    ∧ NoStale ts := by
  have hrun : (run (timedStep id) timedStart (afterWipe (3 * minute))).any (fun ts => decide
      (ts.replies = [(3 * minute, [⟨ascii "a", ascii "10.0.0.1", 9000, 10000⟩])])) = true := by
    decide +kernel
  obtain ⟨ts, hts, hreplies⟩ := (Option.any_eq_true _ _).mp hrun
  exact ⟨ts, hts, of_decide_eq_true hreplies, replies_fresh hts (by decide +kernel)⟩

/-- **Ten minutes after the start the reply lists what registered in the second minute.** -/
theorem not_noStale_after_wipe : ¬∀ as ts, run (timedStep id) timedStart as = some ts → NoStale ts := by
  intro h
  have hrun : (run (timedStep id) timedStart (afterWipe (10 * minute))).any (fun ts => decide
      (ts.replies = [(10 * minute, [⟨ascii "a", ascii "10.0.0.1", 9000, 10000⟩])]
        ∧ ¬ts.RecentAt (10 * minute) ⟨ascii "a", ascii "10.0.0.1", 9000, 10000⟩)) = true := by
    decide +kernel
  obtain ⟨ts, hts, hstale⟩ := (Option.any_eq_true _ _).mp hrun
  obtain ⟨hreplies, hold⟩ := of_decide_eq_true hstale
  have hfresh := h _ ts hts
  rw [NoStale, hreplies] at hfresh
  exact hold (hfresh _ (List.mem_singleton_self _) _ (List.mem_singleton_self _))

end Idserv

end MessageBoard
