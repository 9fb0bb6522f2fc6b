import MessageBoard.IdservMain
import MessageBoard.Lib.Run

/-!
# The goroutines of the identity server

`main`, `handleUDPConn`, and any number of `handleRegistrations` and `handleServerRequests`.  A step is
one rendezvous or one action of a goroutine.  Arrays live in `heap`, and a slice is an array and a
length, so the handlers read the arrays that `main` goes on writing to; the growth of an array in
`append` belongs to the runtime and is a parameter.

* `waiting_eq` — exactly one handler waits while `main` replies, and none otherwise;
* `received_from_main_iff` — **a handler gets what `main` sends** unless two handlers meet;
* `no_deadlock` — **`main` can always reply, and whoever is served ends.**
-/

namespace MessageBoard

open CText Run

namespace Idserv

/-- A slice; its capacity is the length of its array. -/
structure Slice where
  arr : ℕ
  len : ℕ
  deriving DecidableEq, Repr

/-- `nil`.  The array 0 has no elements. -/
def Slice.nil : Slice := ⟨0, 0⟩

/-- Where `main` is: at its `select`, or at `askForServers <- servers`. -/
inductive MainAt where
  | select
  | replying
  deriving DecidableEq, Repr

/-- A `handleRegistrations` that sends to `serverRecv`, or has returned. -/
inductive Registrar where
  | sending (newServer : Server)
  | done
  deriving DecidableEq, Repr

inductive Handler where
  /-- At `askForServers <- nil`. -/
  | asking
  /-- At `servers := <-askForServers`. -/
  | waiting
  /-- In the loop over the slice, before its element `k`. -/
  | writing (servers : Slice) (k : ℕ) (buffer : Text)
  /-- The datagram was given to `WriteToUDP`. -/
  | done (datagram : Text)
  deriving DecidableEq, Repr

/-- Who sends to `askForServers`. -/
inductive Sender where
  | main
  | handler (h : ℕ)
  deriving DecidableEq, Repr

/-- A value a handler received: `servers` is the variable of `main` at that moment. -/
structure Receipt where
  handler : ℕ
  value : Slice
  sender : Sender
  servers : Slice
  deriving DecidableEq, Repr

structure Sys where
  heap : List (List Server)
  servers : Slice
  serverRecv : List Server
  main : MainAt
  timerFired : Bool
  buf : Text
  registrars : List Registrar
  handlers : List Handler
  /-- The receipts, newest first. -/
  received : List Receipt
  deriving DecidableEq

inductive Action where
  | readFromUDP (datagram : Text)
  /-- A registrar sends to `serverRecv`. -/
  | sendServer (r : ℕ)
  /-- `<-timer.C` -/
  | timer
  /-- `serverToAdd := <-serverRecv` -/
  | addServer
  /-- `<-askForServers` in the `select`, from the handler `h`. -/
  | ask (h : ℕ)
  /-- `askForServers <- servers`, to the handler `h`. -/
  | reply (h : ℕ)
  /-- A handler's `askForServers <- nil`, to another handler. -/
  | handOver (sender receiver : ℕ)
  /-- One turn of the loop of a handler, or its end. -/
  | writeLine (h : ℕ)
  deriving DecidableEq, Repr

/-- `make(chan server, 10)`. -/
def recvCapacity : ℕ := 10

def array (heap : List (List Server)) (s : Slice) : List Server := heap.getD s.arr []

/-- The elements of a slice. -/
def contents (heap : List (List Server)) (s : Slice) : List Server := (array heap s).take s.len

/-- `append`: in place if there is room, else in a new array with `grow` elements to spare. -/
def append (grow : ℕ → ℕ) (heap : List (List Server)) (s : Slice) (srv : Server) :
    List (List Server) × Slice :=
  if s.len < (array heap s).length then
    (heap.set s.arr ((array heap s).set s.len srv), { s with len := s.len + 1 })
  else
    (heap ++ [contents heap s ++ srv :: List.replicate (grow s.len) ⟨[], [], 0, 0⟩],
      ⟨heap.length, s.len + 1⟩)

/-- The goroutine that handles a datagram is started. -/
def Sys.dispatch (sys : Sys) (buf : Text) : Command → Sys
  | .registration data => { sys with
      buf := buf
      registrars := sys.registrars ++ [(handleRegistrations data).elim .done .sending] }
  | .serverRequest => { sys with buf := buf, handlers := sys.handlers ++ [.asking] }
  | .unknown => { sys with buf := buf }

/-- A handler receives a value and starts its buffer. -/
def Sys.serve (sys : Sys) (h : ℕ) (value : Slice) (sender : Sender) : Sys :=
  { sys with
    handlers := sys.handlers.set h (.writing value 0 (ascii "SERVERS" ++ [newline]))
    received := ⟨h, value, sender, sys.servers⟩ :: sys.received }

/-- A registrar's server is in the buffer of `serverRecv`. -/
def Sys.sendServer (sys : Sys) (r : ℕ) (newServer : Server) : Sys :=
  { sys with
    registrars := sys.registrars.set r .done
    serverRecv := sys.serverRecv ++ [newServer] }

/-- `servers = servers[:0]`. -/
def Sys.wipe (sys : Sys) : Sys :=
  { sys with servers := { sys.servers with len := 0 }, timerFired := true }

/-- `main` takes a server.  The search for one of the same fields only leaves its own loop. -/
def Sys.addServer (grow : ℕ → ℕ) (sys : Sys) (serverToAdd : Server) (rest : List Server) : Sys :=
  let r := append grow sys.heap sys.servers serverToAdd
  { sys with heap := r.1, servers := r.2, serverRecv := rest }

def Sys.ask (sys : Sys) (h : ℕ) : Sys :=
  { sys with main := .replying, handlers := sys.handlers.set h .waiting }

def Sys.reply (sys : Sys) (h : ℕ) : Sys := { sys.serve h sys.servers .main with main := .select }

/-- The handler `sender` meets the handler `receiver`. -/
def Sys.handOver (sys : Sys) (sender receiver : ℕ) : Sys :=
  let served := sys.serve receiver .nil (.handler sender)
  { served with handlers := served.handlers.set sender .waiting }

def Sys.setHandler (sys : Sys) (h : ℕ) (handler : Handler) : Sys :=
  { sys with handlers := sys.handlers.set h handler }

/-- The line of the element `k`, as it is in the array now. -/
def lineAt (heap : List (List Server)) (servers : Slice) (k : ℕ) : Text :=
  serverLine ((array heap servers).getD k ⟨[], [], 0, 0⟩) ++ [newline]

def step (grow : ℕ → ℕ) (sys : Sys) : Action → Option Sys
  | .readFromUDP datagram =>
      (handleUDPConn sys.buf datagram).map fun r => sys.dispatch r.1 r.2
  | .sendServer r =>
      match sys.registrars[r]? with
      | some (.sending newServer) =>
          if sys.serverRecv.length < recvCapacity then some (sys.sendServer r newServer) else none
      | _ => none
  | .timer => if sys.main = .select ∧ sys.timerFired = false then some sys.wipe else none
  | .addServer =>
      match sys.main, sys.serverRecv with
      | .select, serverToAdd :: rest => some (sys.addServer grow serverToAdd rest)
      | _, _ => none
  | .ask h =>
      if sys.main = .select ∧ sys.handlers[h]? = some .asking then some (sys.ask h) else none
  | .reply h =>
      if sys.main = .replying ∧ sys.handlers[h]? = some .waiting then some (sys.reply h) else none
  | .handOver sender receiver =>
      if sys.handlers[sender]? = some .asking ∧ sys.handlers[receiver]? = some .waiting then
        some (sys.handOver sender receiver)
      else none
  | .writeLine h =>
      match sys.handlers[h]? with
      | some (.writing servers k buffer) =>
          some (sys.setHandler h (if k < servers.len then
            .writing servers (k + 1) (buffer ++ lineAt sys.heap servers k) else .done buffer))
      | _ => none

/-- The loop of `main` begins. -/
def start : Sys where
  heap := [[]]
  servers := .nil
  serverRecv := []
  main := .select
  timerFired := false
  buf := List.replicate bufSize nul
  registrars := []
  handlers := []
  received := []

/-! ### What a step can do -/

inductive Stepped (grow : ℕ → ℕ) (sys : Sys) : Action → Sys → Prop where
  | readFromUDP {datagram buf : Text} {command : Command}
      (hread : handleUDPConn sys.buf datagram = some (buf, command)) :
      Stepped grow sys (.readFromUDP datagram) (sys.dispatch buf command)
  | sendServer {r : ℕ} {newServer : Server}
      (hsending : sys.registrars[r]? = some (.sending newServer)) :
      Stepped grow sys (.sendServer r) (sys.sendServer r newServer)
  | timer (hmain : sys.main = .select) : Stepped grow sys .timer sys.wipe
  | addServer {serverToAdd : Server} {rest : List Server} (hmain : sys.main = .select)
      (hrecv : sys.serverRecv = serverToAdd :: rest) :
      Stepped grow sys .addServer (sys.addServer grow serverToAdd rest)
  | ask {h : ℕ} (hmain : sys.main = .select) (hasking : sys.handlers[h]? = some .asking) :
      Stepped grow sys (.ask h) (sys.ask h)
  | reply {h : ℕ} (hmain : sys.main = .replying) (hwaiting : sys.handlers[h]? = some .waiting) :
      Stepped grow sys (.reply h) (sys.reply h)
  | handOver {sender receiver : ℕ} (hasking : sys.handlers[sender]? = some .asking)
      (hwaiting : sys.handlers[receiver]? = some .waiting) :
      Stepped grow sys (.handOver sender receiver) (sys.handOver sender receiver)
  | writeLine {h : ℕ} {servers : Slice} {k : ℕ} {buffer : Text}
      (hwriting : sys.handlers[h]? = some (.writing servers k buffer)) :
      Stepped grow sys (.writeLine h) (sys.setHandler h (if k < servers.len then
        .writing servers (k + 1) (buffer ++ lineAt sys.heap servers k) else .done buffer))

variable {grow : ℕ → ℕ} {sys sys' : Sys}

/-- **Every step does one of these.** -/
theorem stepped_of_step {a : Action} (h : step grow sys a = some sys') : Stepped grow sys a sys' := by
  cases a with
  | readFromUDP datagram =>
    obtain ⟨⟨buf, command⟩, hread, rfl⟩ := Option.map_eq_some_iff.mp h
    exact .readFromUDP hread
  | sendServer r =>
    rw [step] at h
    split at h
    · rename_i newServer hsending
      split at h
      · exact Option.some.inj h ▸ .sendServer hsending
      · simp at h
    · simp at h
  | timer =>
    rw [step] at h
    split at h
    · rename_i hand
      exact Option.some.inj h ▸ .timer hand.1
    · simp at h
  | addServer =>
    rw [step] at h
    split at h
    · rename_i serverToAdd rest hmain hrecv
      exact Option.some.inj h ▸ .addServer hmain hrecv
    · simp at h
  | ask i =>
    rw [step] at h
    split at h
    · rename_i hand
      exact Option.some.inj h ▸ .ask hand.1 hand.2
    · simp at h
  | reply i =>
    rw [step] at h
    split at h
    · rename_i hand
      exact Option.some.inj h ▸ .reply hand.1 hand.2
    · simp at h
  | handOver sender receiver =>
    rw [step] at h
    split at h
    · rename_i hand
      exact Option.some.inj h ▸ .handOver hand.1 hand.2
    · simp at h
  | writeLine i =>
    rw [step] at h
    split at h
    · rename_i servers k buffer hwriting
      exact Option.some.inj h ▸ .writeLine hwriting
    · simp at h

/-- The goroutines of a datagram are new ones. -/
theorem handlers_dispatch (buf : Text) (command : Command) : (sys.dispatch buf command).handlers
    = sys.handlers ++ if command = .serverRequest then [.asking] else [] := by
  cases command <;> simp [Sys.dispatch]

theorem main_dispatch (buf : Text) (command : Command) :
    (sys.dispatch buf command).main = sys.main := by
  cases command <;> rfl

theorem received_dispatch (buf : Text) (command : Command) :
    (sys.dispatch buf command).received = sys.received := by
  cases command <;> rfl

/-! ### Who waits -/

def Handler.isWaiting : Handler → Bool
  | .waiting => true
  | _ => false

/-- The handlers at their receive. -/
def Sys.waiting (sys : Sys) : ℕ := sys.handlers.countP Handler.isWaiting

/-- One goroutine moves on. -/
theorem countP_set_some {α : Type} {p : α → Bool} {l : List α} {i : ℕ} {a b : α}
    (h : l[i]? = some a) : (l.set i b).countP p + (if p a then 1 else 0)
      = l.countP p + if p b then 1 else 0 := by
  obtain ⟨hi, rfl⟩ := List.getElem?_eq_some_iff.mp h
  rw [List.countP_set hi]
  by_cases ha : p l[i] = true
  · have := List.countP_pos_iff.mpr ⟨l[i], List.getElem_mem hi, ha⟩
    rw [if_pos ha]
    omega
  · rw [if_neg ha, Nat.sub_zero, Nat.add_zero]

/-- Exactly one handler waits while `main` replies, and none otherwise. -/
def Waits (sys : Sys) : Prop := sys.waiting = if sys.main = .replying then 1 else 0

/-- **Every rendezvous keeps the count**: of two handlers that meet, one waits before and the other
after. -/
theorem waits_step {a : Action} (hwaits : Waits sys) (h : step grow sys a = some sys') :
    Waits sys' := by
  rw [Waits, Sys.waiting] at hwaits
  rw [Waits, Sys.waiting]
  cases stepped_of_step h with
  | @readFromUDP datagram buf command hread =>
    rw [handlers_dispatch, main_dispatch, List.countP_append, hwaits]
    by_cases hreq : command = .serverRequest <;> simp [hreq, Handler.isWaiting]
  | sendServer hsending => exact hwaits
  | timer hmain => exact hwaits
  | addServer hmain hrecv => exact hwaits
  | ask hmain hasking =>
    have hset := countP_set_some (p := Handler.isWaiting) (b := .waiting) hasking
    rw [hmain] at hwaits
    simp only [Handler.isWaiting] at hset
    simpa [Sys.ask, hwaits] using hset
  | @reply i hmain hwaiting =>
    have hset := countP_set_some (p := Handler.isWaiting)
      (b := .writing sys.servers 0 (ascii "SERVERS" ++ [newline])) hwaiting
    rw [hmain] at hwaits
    simp only [Handler.isWaiting] at hset
    simpa [Sys.reply, Sys.serve, hwaits] using hset
  | @handOver sender receiver hasking hwaiting =>
    have hne : receiver ≠ sender := by
      rintro rfl
      rw [hasking] at hwaiting
      simp at hwaiting
    have hserved := countP_set_some (p := Handler.isWaiting)
      (b := .writing .nil 0 (ascii "SERVERS" ++ [newline])) hwaiting
    have hasking' : (sys.handlers.set receiver (.writing .nil 0 (ascii "SERVERS" ++ [newline])))[sender]?
        = some .asking := by
      rw [List.getElem?_set_ne hne, hasking]
    have hset := countP_set_some (p := Handler.isWaiting) (b := .waiting) hasking'
    simp only [Handler.isWaiting, Bool.false_eq_true, if_true, if_false] at hserved hset
    refine Eq.trans ?_ hwaits
    simp only [Sys.handOver, Sys.serve]
    omega
  | @writeLine i servers k buffer hwriting =>
    have hset := countP_set_some (p := Handler.isWaiting) (b := if k < servers.len then
      .writing servers (k + 1) (buffer ++ lineAt sys.heap servers k) else .done buffer) hwriting
    have hnot : (if k < servers.len then Handler.writing servers (k + 1)
        (buffer ++ lineAt sys.heap servers k) else .done buffer).isWaiting = false := by
      split <;> rfl
    rw [hnot] at hset
    simp only [Handler.isWaiting, Bool.false_eq_true, if_false] at hset
    refine Eq.trans ?_ hwaits
    simp only [Sys.setHandler]
    omega

theorem waits_start : Waits start := rfl

theorem waits_run {as : List Action} (hrun : run (step grow) start as = some sys) : Waits sys :=
  run_invariant (fun _ _ _ hwaits h => waits_step hwaits h) waits_start hrun

/-! ### Handlers that have been served -/

/-- The turns a served handler has before it. -/
def Handler.left : Handler → ℕ
  | .writing servers k _ => servers.len - k + 1
  | _ => 0

def Handler.IsServed : Handler → Prop
  | .writing _ _ _ => True
  | .done _ => True
  | _ => False

/-- The handler `h` has been served and has `m` turns before it. -/
def ServedWith (sys : Sys) (h m : ℕ) : Prop :=
  ∃ handler, sys.handlers[h]? = some handler ∧ handler.IsServed ∧ handler.left = m

/-- The other goroutines leave a served handler alone. -/
theorem served_step_ne {a : Action} {i : ℕ} {handler : Handler}
    (hi : sys.handlers[i]? = some handler) (his : handler.IsServed)
    (h : step grow sys a = some sys') (hne : a ≠ .writeLine i) :
    sys'.handlers[i]? = some handler := by
  have hlt := (List.getElem?_eq_some_iff.mp hi).1
  have hother : ∀ {j : ℕ} {x : Handler}, sys.handlers[j]? = some x → ¬x.IsServed → j ≠ i := by
    intro j x hj hx heq
    rw [heq, hi] at hj
    exact hx (Option.some.inj hj ▸ his)
  cases stepped_of_step h with
  | readFromUDP hread =>
    rw [handlers_dispatch, List.getElem?_append_left hlt]
    exact hi
  | sendServer hsending => exact hi
  | timer hmain => exact hi
  | addServer hmain hrecv => exact hi
  | ask hmain hasking =>
    rw [Sys.ask, List.getElem?_set_ne (hother hasking (by simp [Handler.IsServed]))]
    exact hi
  | reply hmain hwaiting =>
    rw [Sys.reply, Sys.serve, List.getElem?_set_ne (hother hwaiting (by simp [Handler.IsServed]))]
    exact hi
  | handOver hasking hwaiting =>
    rw [Sys.handOver, Sys.serve, List.getElem?_set_ne (hother hasking (by simp [Handler.IsServed])),
      List.getElem?_set_ne (hother hwaiting (by simp [Handler.IsServed]))]
    exact hi
  | @writeLine j servers k buffer hwriting =>
    rw [Sys.setHandler, List.getElem?_set_ne fun heq => hne (by rw [heq])]
    exact hi

/-- A turn of a handler. -/
theorem handlers_writeLine {i : ℕ} {servers : Slice} {k : ℕ} {buffer : Text}
    (hi : sys.handlers[i]? = some (.writing servers k buffer))
    (h : step grow sys (.writeLine i) = some sys') :
    sys'.handlers[i]? = some (if k < servers.len then
        .writing servers (k + 1) (buffer ++ lineAt sys.heap servers k) else .done buffer)
      ∧ sys'.heap = sys.heap ∧ sys'.servers = sys.servers := by
  have hlt := (List.getElem?_eq_some_iff.mp hi).1
  simp only [step, hi, Option.some.injEq] at h
  subst h
  exact ⟨List.getElem?_set_self hlt, rfl, rfl⟩

theorem servedWith_step {a : Action} {i m : ℕ} (hserved : ServedWith sys i m)
    (h : step grow sys a = some sys') :
    ∃ m', ServedWith sys' i m' ∧ m' + (if a = .writeLine i then 1 else 0) = m := by
  obtain ⟨handler, hi, his, hleft⟩ := hserved
  by_cases ha : a = .writeLine i
  · subst ha
    cases handler with
    | asking => exact absurd his (by simp [Handler.IsServed])
    | waiting => exact absurd his (by simp [Handler.IsServed])
    | done datagram => simp [step, hi] at h
    | writing servers k buffer =>
      refine ⟨m - 1, ⟨_, (handlers_writeLine hi h).1, ?_, ?_⟩, ?_⟩
      · split <;> trivial
      · simp only [Handler.left] at hleft
        split <;> simp only [Handler.left] <;> omega
      · simp only [Handler.left] at hleft
        rw [if_pos rfl]
        omega
  · exact ⟨m, ⟨handler, served_step_ne hi his h ha, his, hleft⟩, by simp [ha]⟩

/-- **A served handler needs only its own turns**, whatever the others do. -/
theorem servedWith_run {as : List Action} {i m : ℕ} (hserved : ServedWith sys i m)
    (hrun : run (step grow) sys as = some sys') :
    ∃ m', ServedWith sys' i m' ∧ m' + as.count (.writeLine i) = m := by
  induction as generalizing sys m with
  | nil =>
    rw [run_nil, Option.some.injEq] at hrun
    exact ⟨m, hrun ▸ hserved, rfl⟩
  | cons a as ih =>
    rw [run_cons] at hrun
    obtain ⟨s₁, h₁, hrest⟩ := Option.bind_eq_some_iff.mp hrun
    obtain ⟨m₁, hserved₁, hm₁⟩ := servedWith_step hserved h₁
    obtain ⟨m', hserved', hm'⟩ := ih hserved₁ hrest
    refine ⟨m', hserved', ?_⟩
    rw [List.count_cons]
    simp only [beq_iff_eq]
    omega

/-- Its next turn can be taken at once, and after the last one it has sent its datagram. -/
theorem ServedWith.turn {i m : ℕ} (hserved : ServedWith sys i m) :
    (m ≠ 0 → (step grow sys (.writeLine i)).isSome = true)
      ∧ (m = 0 → ∃ datagram, sys.handlers[i]? = some (.done datagram)) := by
  obtain ⟨handler, hi, his, hleft⟩ := hserved
  cases handler with
  | asking => exact absurd his (by simp [Handler.IsServed])
  | waiting => exact absurd his (by simp [Handler.IsServed])
  | writing servers k buffer =>
    simp only [Handler.left] at hleft
    refine ⟨?_, fun hm => by omega⟩
    intro _
    simp [step, hi]
  | done datagram =>
    refine ⟨fun hm => absurd hleft.symm ?_, fun _ => ⟨datagram, hi⟩⟩
    simpa [Handler.left] using hm

/-- **`main` is never stuck at its send, and whoever is served ends.** -/
theorem no_deadlock {as : List Action} (hrun : run (step grow) start as = some sys) :
    (sys.main = .replying → sys.waiting = 1 ∧ ∃ i, (step grow sys (.reply i)).isSome = true)
      ∧ (sys.main = .select → sys.waiting = 0)
      ∧ ∀ i m, ServedWith sys i m → ∀ as' sys', run (step grow) sys as' = some sys' →
        ∃ m', ServedWith sys' i m' ∧ m' + as'.count (.writeLine i) = m
          ∧ (m' ≠ 0 → (step grow sys' (.writeLine i)).isSome = true)
          ∧ (m' = 0 → ∃ datagram, sys'.handlers[i]? = some (.done datagram)) := by
  have hwaits := waits_run hrun
  rw [Waits] at hwaits
  refine ⟨?_, ?_, ?_⟩
  · intro hmain
    rw [hmain, if_pos rfl] at hwaits
    refine ⟨hwaits, ?_⟩
    have hpos : 0 < sys.handlers.countP Handler.isWaiting := by
      rw [Sys.waiting] at hwaits
      omega
    obtain ⟨handler, hmem, hwaiting⟩ := List.countP_pos_iff.mp hpos
    obtain ⟨i, hi⟩ := List.getElem?_of_mem hmem
    have heq : handler = .waiting := by
      cases handler with
      | waiting => rfl
      | asking => simp [Handler.isWaiting] at hwaiting
      | writing => simp [Handler.isWaiting] at hwaiting
      | done => simp [Handler.isWaiting] at hwaiting
    subst heq
    exact ⟨i, by simp [step, hmain, hi]⟩
  · intro hmain
    rw [hmain] at hwaits
    simpa using hwaits
  · intro i m hserved as' sys' hrun'
    obtain ⟨m', hserved', hm'⟩ := servedWith_run hserved hrun'
    exact ⟨m', hserved', hm', hserved'.turn⟩

/-- A registration and two requests; the first handler is served by the second. -/
def crossing : List Action :=
  [.readFromUDP (ascii "REG a;10.0.0.1;9000;10000" ++ [13, newline]), .sendServer 0, .addServer,
    .readFromUDP (ascii "GET_SERVERS" ++ [nul]), .readFromUDP (ascii "GET_SERVERS" ++ [nul]), .ask 0,
    .handOver 1 0, .reply 1, .writeLine 0]

theorem no_deadlock_crossing : ∃ sys, run (step id) start crossing = some sys
    ∧ sys.main = .select ∧ sys.waiting = 0 := by
  have hrun : (run (step id) start crossing).any (fun sys => sys.main == .select) = true := by
    decide +kernel
  obtain ⟨sys, hsys, hmain⟩ := (Option.any_eq_true _ _).mp hrun
  rw [beq_iff_eq] at hmain
  exact ⟨sys, hsys, hmain, (no_deadlock hsys).2.1 hmain⟩

/-! ### What a handler receives -/

/-- A value that `main` sent: its variable `servers` at a moment at which the handler waited. -/
def FromMain (grow : ℕ → ℕ) (as : List Action) (r : Receipt) : Prop :=
  r.sender = .main ∧ ∃ as₁ as₂ s₁, as = as₁ ++ .reply r.handler :: as₂
    ∧ run (step grow) start as₁ = some s₁ ∧ s₁.handlers[r.handler]? = some .waiting
    ∧ r.value = s₁.servers

theorem FromMain.append {as : List Action} {r : Receipt} (h : FromMain grow as r) (a : Action) :
    FromMain grow (as ++ [a]) r := by
  obtain ⟨hsender, as₁, as₂, s₁, rfl, hrest⟩ := h
  exact ⟨hsender, as₁, as₂ ++ [a], s₁, by simp, hrest⟩

/-- Where the receipts of a run come from. -/
def Receipts (grow : ℕ → ℕ) (as : List Action) (sys : Sys) : Prop :=
  (∀ r ∈ sys.received, FromMain grow as r
      ∨ ∃ sender, r.sender = .handler sender ∧ .handOver sender r.handler ∈ as)
    ∧ ∀ sender receiver, .handOver sender receiver ∈ as →
        ∃ r ∈ sys.received, r.sender = .handler sender

/-- A step in which no handler receives anything. -/
theorem Receipts.append {as : List Action} (hreceipts : Receipts grow as sys)
    (hsame : sys'.received = sys.received) {a : Action}
    (ha : ∀ sender receiver, a ≠ .handOver sender receiver) : Receipts grow (as ++ [a]) sys' := by
  obtain ⟨hfrom, hto⟩ := hreceipts
  constructor
  · intro r hr
    rw [hsame] at hr
    rcases hfrom r hr with hmain | ⟨sender, hs, hmem⟩
    · exact Or.inl (hmain.append a)
    · exact Or.inr ⟨sender, hs, List.mem_append_left _ hmem⟩
  · intro sender receiver hmem
    rw [hsame]
    rcases List.mem_append.mp hmem with hmem | hmem
    · exact hto sender receiver hmem
    · exact absurd (List.mem_singleton.mp hmem).symm (ha sender receiver)

theorem receipts_step {as : List Action} {a : Action}
    (hrun : run (step grow) start as = some sys) (hreceipts : Receipts grow as sys)
    (h : step grow sys a = some sys') : Receipts grow (as ++ [a]) sys' := by
  cases stepped_of_step h with
  | readFromUDP hread => exact hreceipts.append (received_dispatch _ _) (by simp)
  | sendServer hsending => exact hreceipts.append rfl (by simp)
  | timer hmain => exact hreceipts.append rfl (by simp)
  | addServer hmain hrecv => exact hreceipts.append rfl (by simp)
  | ask hmain hasking => exact hreceipts.append rfl (by simp)
  | writeLine hwriting => exact hreceipts.append rfl (by simp)
  | @reply i hmain hwaiting =>
    obtain ⟨hfrom, hto⟩ := hreceipts
    constructor
    · intro r hr
      rcases List.mem_cons.mp hr with rfl | hr
      · exact Or.inl ⟨rfl, as, [], sys, rfl, hrun, hwaiting, rfl⟩
      · rcases hfrom r hr with hmain | ⟨sender, hs, hmem⟩
        · exact Or.inl (hmain.append _)
        · exact Or.inr ⟨sender, hs, List.mem_append_left _ hmem⟩
    · intro sender receiver hmem
      obtain ⟨r, hr, hs⟩ := hto sender receiver (by simpa using hmem)
      exact ⟨r, List.mem_cons_of_mem _ hr, hs⟩
  | @handOver sender receiver hasking hwaiting =>
    obtain ⟨hfrom, hto⟩ := hreceipts
    constructor
    · intro r hr
      rcases List.mem_cons.mp hr with rfl | hr
      · exact Or.inr ⟨sender, rfl, by simp⟩
      · rcases hfrom r hr with hmain | ⟨sender', hs, hmem⟩
        · exact Or.inl (hmain.append _)
        · exact Or.inr ⟨sender', hs, List.mem_append_left _ hmem⟩
    · intro sender' receiver' hmem
      rcases List.mem_append.mp hmem with hmem | hmem
      · obtain ⟨r, hr, hs⟩ := hto sender' receiver' hmem
        exact ⟨r, List.mem_cons_of_mem _ hr, hs⟩
      · obtain ⟨rfl, -⟩ := Action.handOver.inj (List.mem_singleton.mp hmem)
        exact ⟨_, List.mem_cons_self, rfl⟩

theorem receipts_run {as : List Action} (hrun : run (step grow) start as = some sys) :
    Receipts grow as sys :=
  run_induction (P := Receipts grow) ⟨by simp [start], by simp⟩
    (fun _ _ _ _ hrun hreceipts h => receipts_step hrun hreceipts h) hrun

/-- **Every handler gets the servers of `main`**, exactly if no handler's request meets a handler that
waits. -/
theorem received_from_main_iff {as : List Action} (hrun : run (step grow) start as = some sys) :
    (∀ r ∈ sys.received, FromMain grow as r)
      ↔ ∀ sender receiver, .handOver sender receiver ∉ as := by
  obtain ⟨hfrom, hto⟩ := receipts_run hrun
  constructor
  · intro hall sender receiver hmem
    obtain ⟨r, hr, hs⟩ := hto sender receiver hmem
    rw [(hall r hr).1] at hs
    exact Sender.noConfusion hs
  · intro hnone r hr
    rcases hfrom r hr with hmain | ⟨sender, -, hmem⟩
    · exact hmain
    · exact absurd hmem (hnone sender r.handler)

/-- One request after the other. -/
def inTurn : List Action :=
  [.readFromUDP (ascii "GET_SERVERS" ++ [nul]), .readFromUDP (ascii "GET_SERVERS" ++ [nul]), .ask 1,
    .reply 1, .ask 0, .reply 0]

theorem received_from_main_in_turn : ∃ sys, run (step id) start inTurn = some sys
    ∧ sys.received.length = 2 ∧ ∀ r ∈ sys.received, r.sender = .main := by
  have hrun : (run (step id) start inTurn).any (fun sys => sys.received.length == 2) = true := by
    decide +kernel
  obtain ⟨sys, hsys, hlen⟩ := (Option.any_eq_true _ _).mp hrun
  exact ⟨sys, hsys, by simpa using hlen, fun r hr =>
    ((received_from_main_iff hsys).mpr (by simp [inTurn]) r hr).1⟩

/-- The request of the second handler is what the first one receives, so it sends an empty list. -/
theorem received_crossing : ∃ sys, run (step id) start crossing = some sys
    ∧ (∃ r ∈ sys.received, r.value = .nil ∧ r.sender = .handler 1 ∧ ¬FromMain id crossing r)
    ∧ sys.handlers[0]? = some (.done (ascii "SERVERS" ++ [newline]))
    ∧ (contents sys.heap sys.servers).length = 1 := by
  have hrun : (run (step id) start crossing).any (fun sys =>
      decide (⟨0, .nil, .handler 1, ⟨1, 1⟩⟩ ∈ sys.received)
        && decide (sys.handlers[0]? = some (.done (ascii "SERVERS" ++ [newline])))
        && (contents sys.heap sys.servers).length == 1) = true := by
    decide +kernel
  obtain ⟨sys, hsys, hand⟩ := (Option.any_eq_true _ _).mp hrun
  rw [Bool.and_eq_true, Bool.and_eq_true, decide_eq_true_eq, decide_eq_true_eq, beq_iff_eq] at hand
  refine ⟨sys, hsys, ⟨_, hand.1.1, rfl, rfl, ?_⟩, hand.1.2, hand.2⟩
  intro hmain
  exact Sender.noConfusion hmain.1

end Idserv

end MessageBoard
