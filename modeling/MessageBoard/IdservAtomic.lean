import MessageBoard.RegistryEntries

/-!
# The identity server as one registry

`Registry` is what the goroutines are for: a list to which servers are added, which is emptied once, and
which answers a request at a single moment.  The goroutines share arrays instead, and a handler reads
its slice while `main` goes on.

* `effects` — the moments at which a step of the goroutines acts on the registry;
* `refines_step` — a step keeps the list, and what each handler has still to write;
* `replies_atomic` — **every reply is the registry at the moment `main` answered**, unless after the wipe
  `main` writes over an element that a handler has still to read.
-/

namespace MessageBoard

open CText Run

namespace Idserv

/-! ### The registry -/

structure Registry where
  entries : List Server
  /-- The list that each handler was answered with. -/
  answers : ℕ → Option (List Server)

inductive Effect where
  | add (srv : Server)
  | wipe
  /-- The handler is answered with the list. -/
  | answer (h : ℕ)
  /-- Another handler answers it, with no servers. -/
  | answerNil (h : ℕ)
  deriving DecidableEq

def Registry.empty : Registry := ⟨[], fun _ => none⟩

def Registry.apply (r : Registry) : Effect → Registry
  | .add srv => { r with entries := r.entries ++ [srv] }
  | .wipe => { r with entries := [] }
  | .answer h => { r with answers := Function.update r.answers h (some r.entries) }
  | .answerNil h => { r with answers := Function.update r.answers h (some []) }

/-- What a step of the goroutines does to the registry. -/
def effect (sys : Sys) : Action → Option Effect
  | .addServer => sys.serverRecv.head?.map .add
  | .timer => some .wipe
  | .reply h => some (.answer h)
  | .handOver _ receiver => some (.answerNil receiver)
  | _ => none

/-- What a run of them does. -/
def effects (grow : ℕ → ℕ) : Sys → List Action → List Effect
  | _, [] => []
  | sys, a :: as =>
      (effect sys a).toList ++ ((step grow sys a).map fun sys => effects grow sys as).getD []

/-- The registry after a run from the start. -/
def registry (grow : ℕ → ℕ) (as : List Action) : Registry :=
  (effects grow start as).foldl Registry.apply .empty

/-- A handler has still to read the element that comes next in the list of `main`. -/
def Handler.awaits (servers : Slice) : Handler → Bool
  | .writing v k _ => v.arr == servers.arr && decide (k ≤ servers.len) && decide (servers.len < v.len)
  | _ => false

/-- After the wipe `main` writes over no element that a handler has still to read. -/
def Undisturbed (sys : Sys) (a : Action) : Prop :=
  a = .addServer → sys.timerFired = true →
    ∀ handler ∈ sys.handlers, handler.awaits sys.servers = false

instance (sys : Sys) (a : Action) : Decidable (Undisturbed sys a) :=
  inferInstanceAs (Decidable (a = .addServer → sys.timerFired = true →
    ∀ handler ∈ sys.handlers, handler.awaits sys.servers = false))

/-! ### The refinement -/

/-- What a handler has written, and the elements it has still to read, are what it was answered. -/
def Answered (heap : List (List Server)) (answer : Option (List Server)) : Handler → Prop
  | .writing v k buffer => InArray heap v ∧ k ≤ v.len
      ∧ ∃ l, answer = some l ∧ buffer = reply (l.take k) ∧ l.drop k = (contents heap v).drop k
  | .done datagram => ∃ l, answer = some l ∧ datagram = reply l
  | .asking => True
  | .waiting => True

structure Refines (sys : Sys) (r : Registry) : Prop where
  inArray : InArray sys.heap sys.servers
  entries : contents sys.heap sys.servers = r.entries
  answered : ∀ h handler, sys.handlers[h]? = some handler → Answered sys.heap (r.answers h) handler
  /-- Until the wipe `main` writes behind every slice it has sent. -/
  behind : sys.timerFired = false → ∀ v k buffer, .writing v k buffer ∈ sys.handlers →
    v.arr = sys.servers.arr → v.len ≤ sys.servers.len

variable {grow : ℕ → ℕ} {sys sys' : Sys} {r : Registry}

theorem refines_start : Refines start .empty where
  inArray := ⟨by decide, by decide⟩
  entries := by simp [start, contents, Slice.nil, Registry.empty]
  answered := by simp [start]
  behind := by simp [start]

/-! ### What a handler has still to read -/

/-- The next element, as it stands in the array. -/
theorem drop_contents {heap : List (List Server)} {v : Slice} (hv : InArray heap v) {k : ℕ}
    (hk : k < v.len) : ∃ srv, (contents heap v).drop k = srv :: (contents heap v).drop (k + 1)
      ∧ lineAt heap v k = serverLine srv ++ [newline] := by
  have hlt : k < (contents heap v).length := by rwa [length_contents hv]
  have harray : k < (array heap v).length := hk.trans_le hv.2
  refine ⟨(contents heap v)[k], List.drop_eq_getElem_cons hlt, ?_⟩
  rw [lineAt, List.getD_eq_getElem _ _ harray]
  simp only [contents, List.getElem_take]

/-- `append` leaves the elements from `k` on alone, unless it writes over one of them. -/
theorem drop_contents_append (grow : ℕ → ℕ) {heap : List (List Server)} {v s : Slice}
    (hv : InArray heap v) {k : ℕ} (hk : v.arr = s.arr → v.len ≤ s.len ∨ s.len < k) (srv : Server) :
    (contents (append grow heap s srv).1 v).drop k = (contents heap v).drop k := by
  by_cases hbehind : v.arr = s.arr → v.len ≤ s.len
  · rw [contents_append_of_le hv.1 hbehind]
  · obtain ⟨harr, hlen⟩ := Classical.not_imp.mp hbehind
    have hread : s.len < k := (hk harr).resolve_left hlen
    rw [append]
    split
    · have hset : array (heap.set s.arr ((array heap s).set s.len srv)) v
          = (array heap v).set s.len srv := by
        obtain ⟨arr, len⟩ := v
        subst harr
        exact array_set_self hv.1 _ _
      rw [contents, hset, List.take_set, List.drop_set_of_lt hread, contents]
    · simp [contents, array, List.getElem?_append_left hv.1]

/-- `main` appends a server, and the handler has nothing to read there. -/
theorem Answered.append {heap : List (List Server)} {answer : Option (List Server)} {handler : Handler}
    (h : Answered heap answer handler) {s : Slice} (srv : Server)
    (hread : ∀ v k buffer, handler = .writing v k buffer → v.arr = s.arr →
      v.len ≤ s.len ∨ s.len < k) :
    Answered (append grow heap s srv).1 answer handler := by
  cases handler with
  | writing v k buffer =>
    obtain ⟨hin, hk, l, hl, htext, hdrop⟩ := h
    refine ⟨(contents_append_subset grow hin s srv).1, hk, l, hl, htext, ?_⟩
    rw [hdrop, drop_contents_append grow hin (hread v k buffer rfl) srv]
  | done datagram => exact h
  | asking => trivial
  | waiting => trivial

/-! ### One step -/

/-- One handler moves on, and its answer may change with it. -/
theorem answered_set {heap : List (List Server)} {handlers : List Handler}
    {answers : ℕ → Option (List Server)}
    (h : ∀ i handler, handlers[i]? = some handler → Answered heap (answers i) handler) (i : ℕ)
    {new : Handler} {answers' : ℕ → Option (List Server)} (hnew : Answered heap (answers' i) new)
    (hsame : ∀ j, j ≠ i → answers' j = answers j) :
    ∀ j handler, (handlers.set i new)[j]? = some handler → Answered heap (answers' j) handler := by
  intro j handler hj
  by_cases heq : j = i
  · subst heq
    obtain ⟨hlt, -⟩ := List.getElem?_eq_some_iff.mp hj
    rw [List.getElem?_set_self (by simpa using hlt), Option.some.injEq] at hj
    exact hj ▸ hnew
  · rw [List.getElem?_set_ne (Ne.symm heq)] at hj
    rw [hsame j heq]
    exact h j handler hj

/-- A handler that does not start to write leaves what is written where it is. -/
theorem mem_set_writing {handlers : List Handler} {i : ℕ} {new : Handler} {v : Slice} {k : ℕ}
    {buffer : Text} (hmem : .writing v k buffer ∈ handlers.set i new)
    (hnew : ∀ k' buffer', new ≠ .writing v k' buffer') : .writing v k buffer ∈ handlers :=
  (List.mem_or_eq_of_mem_set hmem).resolve_right fun heq => hnew k buffer heq.symm

theorem Refines.readFromUDP (h : Refines sys r) (buf : Text) (command : Command) :
    Refines (sys.dispatch buf command) r := by
  have hwriting : ∀ v k buffer, .writing v k buffer ∈ (sys.dispatch buf command).handlers →
      .writing v k buffer ∈ sys.handlers := by
    intro v k buffer hmem
    rw [handlers_dispatch] at hmem
    rcases List.mem_append.mp hmem with hold | hnew
    · exact hold
    · split at hnew
      · simp at hnew
      · simp at hnew
  refine ⟨?_, ?_, ?_, ?_⟩
  · cases command <;> exact h.inArray
  · cases command <;> exact h.entries
  · intro i handler hi
    have hheap : (sys.dispatch buf command).heap = sys.heap := by cases command <;> rfl
    rw [handlers_dispatch] at hi
    rw [hheap]
    by_cases hlt : i < sys.handlers.length
    · rw [List.getElem?_append_left hlt] at hi
      exact h.answered i handler hi
    · rw [List.getElem?_append_right (Nat.le_of_not_lt hlt)] at hi
      split at hi
      · rw [List.mem_singleton.mp (List.mem_of_getElem? hi)]
        trivial
      · simp at hi
  · intro hfired v k buffer hmem
    have hold := h.behind (by cases command <;> exact hfired) v k buffer (hwriting v k buffer hmem)
    cases command <;> exact hold

theorem Refines.addServer (h : Refines sys r) {serverToAdd : Server} {rest : List Server}
    (hundisturbed : sys.timerFired = true → ∀ handler ∈ sys.handlers, handler.awaits sys.servers = false) :
    Refines (sys.addServer grow serverToAdd rest) (r.apply (.add serverToAdd)) := by
  obtain ⟨hin, hcontents⟩ := @contents_append grow sys.heap sys.servers h.inArray serverToAdd
  refine ⟨hin, ?_, ?_, ?_⟩
  · exact hcontents.trans (congrArg (· ++ [serverToAdd]) h.entries)
  · intro i handler hi
    refine (h.answered i handler hi).append serverToAdd ?_
    rintro v k buffer rfl harr
    have hmem := List.mem_of_getElem? hi
    cases hfired : sys.timerFired with
    | false => exact Or.inl (h.behind hfired v k buffer hmem harr)
    | true =>
      have hawaits := hundisturbed hfired _ hmem
      simp only [Handler.awaits, harr, beq_self_eq_true, Bool.true_and, Bool.and_eq_false_iff,
        decide_eq_false_iff_not] at hawaits
      omega
  · intro hfired v k buffer hmem harr
    obtain ⟨i, hi⟩ := List.getElem?_of_mem hmem
    obtain ⟨hv, -⟩ := h.answered i _ hi
    obtain ⟨-, hplace⟩ := @length_append_heap grow sys.heap sys.servers serverToAdd
    rcases hplace with ⟨hsame, hlen⟩ | hnew
    · have hold := h.behind hfired v k buffer hmem (harr.trans hsame)
      show v.len ≤ (append grow sys.heap sys.servers serverToAdd).2.len
      omega
    · have hlt := hv.1
      have heq : v.arr = sys.heap.length := harr.trans hnew
      omega

/-- `main` answers a handler with its list. -/
theorem Refines.reply (h : Refines sys r) {i : ℕ} : Refines (sys.reply i) (r.apply (.answer i)) := by
  have hlist : Answered sys.heap (some r.entries)
      (.writing sys.servers 0 (ascii "SERVERS" ++ [newline])) :=
    ⟨h.inArray, Nat.zero_le _, r.entries, rfl, reply_nil.symm, h.entries.symm⟩
  refine ⟨h.inArray, h.entries, answered_set h.answered i ?_ fun j hj => Function.update_of_ne hj _ _, ?_⟩
  · simp only [Registry.apply, Function.update_self]
    exact hlist
  · intro hfired v k buffer hmem harr
    rcases List.mem_or_eq_of_mem_set hmem with hold | hnew
    · exact h.behind hfired v k buffer hold harr
    · rw [(Handler.writing.inj hnew).1]
      exact le_rfl

/-- Two handlers meet. -/
theorem Refines.handOver (h : Refines sys r) {sender receiver : ℕ} :
    Refines (sys.handOver sender receiver) (r.apply (.answerNil receiver)) := by
  have hnil : Answered sys.heap (some [])
      (.writing .nil 0 (ascii "SERVERS" ++ [newline])) :=
    ⟨⟨Nat.zero_lt_of_lt h.inArray.1, Nat.zero_le _⟩, le_rfl, [], rfl, reply_nil.symm,
      by simp [contents, Slice.nil]⟩
  refine ⟨h.inArray, h.entries, ?_, ?_⟩
  · refine answered_set (answered_set h.answered receiver ?_ fun j hj => Function.update_of_ne hj _ _)
      sender trivial fun _ _ => rfl
    simp only [Registry.apply, Function.update_self]
    exact hnil
  · intro hfired v k buffer hmem harr
    have hserved := mem_set_writing hmem (by simp)
    rcases List.mem_or_eq_of_mem_set hserved with hold | hnew
    · exact h.behind hfired v k buffer hold harr
    · rw [(Handler.writing.inj hnew).1]
      exact Nat.zero_le _

theorem Refines.writeLine (h : Refines sys r) {i k : ℕ} {servers : Slice} {buffer : Text}
    (hwriting : sys.handlers[i]? = some (.writing servers k buffer)) :
    Refines (sys.setHandler i (if k < servers.len then
      .writing servers (k + 1) (buffer ++ lineAt sys.heap servers k) else .done buffer)) r := by
  obtain ⟨hin, hk, l, hl, htext, hdrop⟩ := h.answered i _ hwriting
  have hlength : l.length - k = servers.len - k := by
    rw [← List.length_drop, hdrop, List.length_drop, length_contents hin]
  refine ⟨h.inArray, h.entries, answered_set h.answered i ?_ fun _ _ => rfl, ?_⟩
  · split
    · rename_i hlt
      obtain ⟨srv, hnext, hline⟩ := drop_contents hin hlt
      rw [hnext] at hdrop
      have hkl : k < l.length := by omega
      obtain ⟨hhead, htail⟩ := List.cons.inj ((List.drop_eq_getElem_cons hkl).symm.trans hdrop)
      refine ⟨hin, hlt, l, hl, ?_, htail⟩
      rw [hline, htext, ← reply_concat, ← hhead, List.take_concat_get' l k hkl]
    · rename_i hend
      exact ⟨l, hl, by rw [htext, List.take_of_length_le (by omega)]⟩
  · intro hfired v k' buffer' hmem harr
    rcases List.mem_or_eq_of_mem_set hmem with hold | hnew
    · exact h.behind hfired v k' buffer' hold harr
    · split at hnew
      · rw [(Handler.writing.inj hnew).1] at harr ⊢
        exact h.behind hfired servers k buffer (List.mem_of_getElem? hwriting) harr
      · simp at hnew

/-- **Every step of the goroutines** acts on the registry as `effect` says. -/
theorem refines_step {a : Action} (h : Refines sys r) (hundisturbed : Undisturbed sys a)
    (hstep : step grow sys a = some sys') :
    Refines sys' ((effect sys a).toList.foldl Registry.apply r) := by
  cases stepped_of_step hstep with
  | readFromUDP hread => exact h.readFromUDP _ _
  | sendServer hsending => exact ⟨h.inArray, h.entries, h.answered, h.behind⟩
  | timer hmain =>
    refine ⟨⟨h.inArray.1, Nat.zero_le _⟩, by simp [Sys.wipe, contents, effect, Registry.apply],
      h.answered, ?_⟩
    intro hfired
    simp [Sys.wipe] at hfired
  | addServer hmain hrecv =>
    rw [effect, hrecv]
    exact h.addServer (hundisturbed rfl)
  | @ask i hmain hasking =>
    refine ⟨h.inArray, h.entries, answered_set h.answered i trivial fun _ _ => rfl, ?_⟩
    intro hfired v k buffer hmem harr
    exact h.behind hfired v k buffer (mem_set_writing hmem (by simp)) harr
  | reply hmain hwaiting => exact h.reply
  | handOver hasking hwaiting => exact h.handOver
  | writeLine hwriting => exact h.writeLine hwriting

theorem effects_cons (sys : Sys) {sys' : Sys} {a : Action} (hstep : step grow sys a = some sys')
    (as : List Action) :
    effects grow sys (a :: as) = (effect sys a).toList ++ effects grow sys' as := by
  rw [effects, hstep]
  rfl

theorem refines_run {as : List Action} (h : Refines sys r) (hmeets : Meets (step grow) Undisturbed sys as)
    (hrun : run (step grow) sys as = some sys') :
    Refines sys' ((effects grow sys as).foldl Registry.apply r) := by
  induction as generalizing sys r with
  | nil =>
    rw [run_nil, Option.some.injEq] at hrun
    exact hrun ▸ h
  | cons a as ih =>
    rw [run_cons] at hrun
    obtain ⟨sys₁, hstep, hrest⟩ := Option.bind_eq_some_iff.mp hrun
    rw [effects_cons sys hstep, List.foldl_append]
    exact ih (refines_step h hmeets.1 hstep) (hmeets.2 sys₁ hstep) hrest

/-- **The identity server is one registry**: its list is that of the registry, and every reply is the
text of the list that the registry had when the handler was answered. -/
theorem replies_atomic {as : List Action} (hrun : run (step grow) start as = some sys)
    (hmeets : Meets (step grow) Undisturbed start as) :
    contents sys.heap sys.servers = (registry grow as).entries
      ∧ ∀ h datagram, sys.handlers[h]? = some (.done datagram) →
        ∃ l, (registry grow as).answers h = some l ∧ datagram = reply l := by
  have hrefines : Refines sys (registry grow as) := refines_run refines_start hmeets hrun
  exact ⟨hrefines.entries, fun h datagram hdone => hrefines.answered h _ hdone⟩

/-! ### Two replies -/

def serverA : Server := ⟨ascii "a", ascii "10.0.0.1", 9000, 10000⟩

def serverB : Server := ⟨ascii "b", ascii "10.0.0.2", 9000, 10000⟩

/-- The datagram that registers a server. -/
def registration (srv : Server) : Text := ascii "REG " ++ serverLine srv ++ [13, newline]

/-- The servers `a` and `b` register, and two requests come; the first is answered before `b` is taken,
and the wipe comes while both are written. -/
def answeredTwice : List Action :=
  [.readFromUDP (registration serverA), .readFromUDP (registration serverB), .sendServer 0,
    .sendServer 1, .addServer, .readFromUDP (ascii "GET_SERVERS" ++ [nul]),
    .readFromUDP (ascii "GET_SERVERS" ++ [nul]), .ask 0, .reply 0, .addServer, .ask 1, .reply 1,
    .writeLine 1, .timer, .writeLine 0, .writeLine 1, .writeLine 0, .writeLine 1]

theorem replies_atomic_twice : (registry id answeredTwice).answers 0 = some [serverA]
    ∧ (registry id answeredTwice).answers 1 = some [serverA, serverB]
    ∧ ∃ sys, run (step id) start answeredTwice = some sys
      ∧ contents sys.heap sys.servers = (registry id answeredTwice).entries
      ∧ ∀ h datagram, sys.handlers[h]? = some (.done datagram) →
        ∃ l, (registry id answeredTwice).answers h = some l ∧ datagram = reply l := by
  have hrun : (run (step id) start answeredTwice).isSome = true := by decide +kernel
  obtain ⟨sys, hsys⟩ := Option.isSome_iff_exists.mp hrun
  exact ⟨by decide +kernel, by decide +kernel, sys, hsys, replies_atomic hsys (by decide +kernel)⟩

/-- Two more servers are taken after the wipe, while a handler has one of its two still to read: it
writes `a` and then the second of the new ones, a list that there never was. -/
example : (run (step id) start [.readFromUDP (registration serverA),
    .readFromUDP (registration serverB), .sendServer 0, .sendServer 1, .addServer, .addServer,
    .readFromUDP (ascii "GET_SERVERS" ++ [nul]), .ask 0, .reply 0, .writeLine 0, .timer,
    .readFromUDP (registration serverB), .readFromUDP (registration serverA), .sendServer 2,
    .sendServer 3, .addServer, .addServer, .writeLine 0, .writeLine 0]).map (fun sys => sys.handlers[0]?)
      = some (some (.done (reply [serverA, serverA]))) := by decide +kernel

end Idserv

end MessageBoard
