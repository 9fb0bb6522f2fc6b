import MessageBoard.IdservRun

/-!
# What a reply of the identity server lists

A handler reads the array of the slice it received while `main` goes on appending to it.  Until the
timer fires, `main` writes only behind the elements of a slice it has sent.

* `contents_append`, `contents_append_of_le` — what `append` does to a slice and to older ones;
* `reply_lists` — **a server that `main` has taken is in every reply it makes afterwards**, as long as
  the timer does not fire;
* `registration_overtaken` — a request may be answered before an earlier registration is taken.
-/

namespace MessageBoard

open CText Run

namespace Idserv

variable {grow : ℕ → ℕ} {sys sys' : Sys}

/-! ### Slices -/

/-- The slice lies in its array. -/
def InArray (heap : List (List Server)) (s : Slice) : Prop :=
  s.arr < heap.length ∧ s.len ≤ (array heap s).length

theorem length_contents {heap : List (List Server)} {s : Slice} (hs : InArray heap s) :
    (contents heap s).length = s.len := by
  rw [contents, List.length_take, Nat.min_eq_left hs.2]

theorem array_set_self {heap : List (List Server)} {s : Slice} (hs : s.arr < heap.length)
    (a : List Server) (len : ℕ) : array (heap.set s.arr a) ⟨s.arr, len⟩ = a := by
  simp [array, hs]

theorem array_concat (heap : List (List Server)) (a : List Server) (len : ℕ) :
    array (heap ++ [a]) ⟨heap.length, len⟩ = a := by
  simp [array]

/-- **`append` adds one element.** -/
theorem contents_append {heap : List (List Server)} {s : Slice} (hs : InArray heap s) (srv : Server) :
    InArray (append grow heap s srv).1 (append grow heap s srv).2
      ∧ contents (append grow heap s srv).1 (append grow heap s srv).2
        = contents heap s ++ [srv] := by
  rw [append]
  split
  · rename_i hroom
    refine ⟨⟨by simpa using hs.1, ?_⟩, ?_⟩
    · rw [array_set_self hs.1, List.length_set]
      exact hroom
    · rw [contents, array_set_self hs.1, contents, List.take_add_one, List.take_set_of_le (le_refl _)]
      simp [hroom]
  · have hlen := length_contents hs
    refine ⟨⟨by simp, ?_⟩, ?_⟩
    · rw [array_concat, List.length_append, List.length_cons, hlen]
      show s.len + 1 ≤ _
      omega
    · have hone : contents heap s ++ srv :: List.replicate (grow s.len) ⟨[], [], 0, 0⟩
          = (contents heap s ++ [srv]) ++ List.replicate (grow s.len) ⟨[], [], 0, 0⟩ := by simp
      rw [contents, array_concat, hone, List.take_left' (by rw [List.length_append, hlen]; rfl)]

/-- It writes only behind the elements of a shorter slice of the same array. -/
theorem contents_append_of_le {heap : List (List Server)} {s v : Slice} (hv : v.arr < heap.length)
    (hle : v.arr = s.arr → v.len ≤ s.len) (srv : Server) :
    contents (append grow heap s srv).1 v = contents heap v := by
  rw [append]
  split
  · by_cases harr : v.arr = s.arr
    · have hset : array (heap.set s.arr ((array heap s).set s.len srv)) v
          = (array heap v).set s.len srv := by
        obtain ⟨arr, len⟩ := v
        subst harr
        exact array_set_self hv _ _
      rw [contents, hset, List.take_set_of_le (hle harr), contents]
    · simp [contents, array, List.getElem?_set_ne (Ne.symm harr)]
  · simp [contents, array, List.getElem?_append_left hv]

/-! ### What holds until the timer fires -/

theorem inArray_step {a : Action} (hin : InArray sys.heap sys.servers)
    (h : step grow sys a = some sys') : InArray sys'.heap sys'.servers := by
  cases stepped_of_step h with
  | @readFromUDP _ _ command hread => cases command <;> exact hin
  | sendServer hsending => exact hin
  | timer hmain => exact ⟨hin.1, Nat.zero_le _⟩
  | addServer hmain hrecv => exact (contents_append hin _).1
  | ask hmain hasking => exact hin
  | reply hmain hwaiting => exact hin
  | handOver hasking hwaiting => exact hin
  | writeLine hwriting => exact hin

theorem inArray_run {as : List Action} (hrun : run (step grow) start as = some sys) :
    InArray sys.heap sys.servers :=
  run_invariant (fun _ _ _ hin h => inArray_step hin h) ⟨by decide, by decide⟩ hrun

/-- The elements of the slice `v` are `l`, and `main` does not write to them. -/
def Holds (sys : Sys) (v : Slice) (l : List Server) : Prop :=
  v.arr < sys.heap.length ∧ (v.arr = sys.servers.arr → v.len ≤ sys.servers.len)
    ∧ contents sys.heap v = l

theorem length_append_heap (heap : List (List Server)) (s : Slice) (srv : Server) :
    heap.length ≤ (append grow heap s srv).1.length
      ∧ ((append grow heap s srv).2.arr = s.arr ∧ (append grow heap s srv).2.len = s.len + 1
        ∨ (append grow heap s srv).2.arr = heap.length) := by
  rw [append]
  split <;> simp

/-- **Elements that were sent stay** until the timer fires. -/
theorem holds_step {a : Action} {v : Slice} {l : List Server} (hholds : Holds sys v l)
    (ha : a ≠ .timer) (h : step grow sys a = some sys') : Holds sys' v l := by
  obtain ⟨hv, hle, hl⟩ := hholds
  cases stepped_of_step h with
  | @readFromUDP _ _ command hread => cases command <;> exact ⟨hv, hle, hl⟩
  | sendServer hsending => exact ⟨hv, hle, hl⟩
  | timer hmain => exact absurd rfl ha
  | @addServer srv rest hmain hrecv =>
    obtain ⟨hlen, harr⟩ := @length_append_heap grow sys.heap sys.servers srv
    refine ⟨hv.trans_le hlen, ?_, ?_⟩
    · intro heq
      rcases harr with ⟨harr, hone⟩ | harr
      · have hold : v.arr = sys.servers.arr := heq.trans harr
        show v.len ≤ (append grow sys.heap sys.servers srv).2.len
        have := hle hold
        omega
      · have hnew : v.arr = sys.heap.length := heq.trans harr
        omega
    · rw [Sys.addServer]
      exact (contents_append_of_le hv hle srv).trans hl
  | ask hmain hasking => exact ⟨hv, hle, hl⟩
  | reply hmain hwaiting => exact ⟨hv, hle, hl⟩
  | handOver hasking hwaiting => exact ⟨hv, hle, hl⟩
  | writeLine hwriting => exact ⟨hv, hle, hl⟩

/-- A server that `main` has taken stays in its list. -/
theorem mem_contents_step {a : Action} {srv : Server} (hin : InArray sys.heap sys.servers)
    (hsrv : srv ∈ contents sys.heap sys.servers) (ha : a ≠ .timer)
    (h : step grow sys a = some sys') : srv ∈ contents sys'.heap sys'.servers := by
  cases stepped_of_step h with
  | @readFromUDP _ _ command hread => cases command <;> exact hsrv
  | sendServer hsending => exact hsrv
  | timer hmain => exact absurd rfl ha
  | @addServer newServer rest hmain hrecv =>
    rw [Sys.addServer]
    show srv ∈ contents (append grow sys.heap sys.servers newServer).1
      (append grow sys.heap sys.servers newServer).2
    rw [(contents_append hin newServer).2]
    exact List.mem_append_left _ hsrv
  | ask hmain hasking => exact hsrv
  | reply hmain hwaiting => exact hsrv
  | handOver hasking hwaiting => exact hsrv
  | writeLine hwriting => exact hsrv

theorem mem_contents_run {as : List Action} {srv : Server} (hin : InArray sys.heap sys.servers)
    (hsrv : srv ∈ contents sys.heap sys.servers) (htimer : .timer ∉ as)
    (hrun : run (step grow) sys as = some sys') :
    InArray sys'.heap sys'.servers ∧ srv ∈ contents sys'.heap sys'.servers := by
  have hmeets : Meets (step grow) (fun _ a => a ≠ .timer) sys as := by
    apply meets_of_forall
    intro a hmem heq
    exact htimer (heq ▸ hmem)
  refine run_invariant_of_meets (P := fun s => InArray s.heap s.servers
    ∧ srv ∈ contents s.heap s.servers) ?_ ⟨hin, hsrv⟩ hmeets hrun
  intro s a s' hs ha h
  exact ⟨inArray_step hs.1 h, mem_contents_step hs.1 hs.2 ha h⟩

/-! ### The text of a reply -/

theorem reply_nil : reply [] = ascii "SERVERS" ++ [newline] := rfl

theorem reply_concat (l : List Server) (srv : Server) :
    reply (l ++ [srv]) = reply l ++ (serverLine srv ++ [newline]) := by
  rw [reply, reply, List.map_append, ← List.cons_append, linesText, linesText, List.flatMap_append]
  simp

/-- The handler is writing the list `l`, or has sent it. -/
def Writes (sys : Sys) (h : ℕ) (l : List Server) : Prop :=
  sys.handlers[h]? = some (.done (reply l))
    ∨ ∃ v k, sys.handlers[h]? = some (.writing v k (reply (l.take k))) ∧ k ≤ l.length
      ∧ l.length = v.len ∧ Holds sys v l

theorem writes_step {a : Action} {i : ℕ} {l : List Server} (hwrites : Writes sys i l)
    (ha : a ≠ .timer) (h : step grow sys a = some sys') : Writes sys' i l := by
  rcases hwrites with hdone | ⟨v, k, hi, hk, hlen, hholds⟩
  · left
    apply served_step_ne hdone trivial h
    rintro rfl
    simp [step, hdone] at h
  · have hholds' := holds_step hholds ha h
    by_cases hturn : a = .writeLine i
    · subst hturn
      obtain ⟨hi', -, -⟩ := handlers_writeLine hi h
      by_cases hlt : k < v.len
      · right
        refine ⟨v, k + 1, ?_, by omega, hlen, hholds'⟩
        have hkl : k < l.length := by omega
        have hline : lineAt sys.heap v k = serverLine l[k] ++ [newline] := by
          obtain ⟨-, -, hl⟩ := hholds
          subst hl
          rw [lineAt, List.getD_eq_getElem?_getD]
          simp only [contents, List.getElem_take]
          rw [List.getElem?_eq_getElem (by
            rw [contents, List.length_take] at hlen
            omega)]
          rfl
        rw [hi', if_pos hlt, hline, ← reply_concat, List.take_concat_get' l k hkl]
      · left
        rw [hi', if_neg hlt, List.take_of_length_le (by omega)]
    · exact Or.inr ⟨v, k, served_step_ne hi trivial h hturn, hk, hlen, hholds'⟩

theorem writes_run {as : List Action} {i : ℕ} {l : List Server} (hwrites : Writes sys i l)
    (htimer : .timer ∉ as) (hrun : run (step grow) sys as = some sys') : Writes sys' i l := by
  have hmeets : Meets (step grow) (fun _ a => a ≠ .timer) sys as := by
    apply meets_of_forall
    intro a hmem heq
    exact htimer (heq ▸ hmem)
  exact run_invariant_of_meets (fun _ _ _ hs ha h => writes_step hs ha h) hwrites hmeets hrun

/-- The list that `main` sends is the one the handler writes. -/
theorem writes_reply {i : ℕ} (hin : InArray sys.heap sys.servers)
    (h : step grow sys (.reply i) = some sys') : Writes sys' i (contents sys.heap sys.servers) := by
  cases stepped_of_step h with
  | reply hmain hwaiting =>
    right
    have hlt := (List.getElem?_eq_some_iff.mp hwaiting).1
    refine ⟨sys.servers, 0, ?_, Nat.zero_le _, length_contents hin, hin.1, fun _ => le_rfl, rfl⟩
    rw [List.take_zero, reply_nil]
    exact List.getElem?_set_self hlt

/-- **A server that `main` has taken is in every reply it makes afterwards.** -/
theorem reply_lists {as₁ as₂ as₃ : List Action} {i : ℕ} {srv : Server} {datagram : Text}
    (hrun : run (step grow) start (as₁ ++ .addServer :: (as₂ ++ .reply i :: as₃)) = some sys)
    (htaken : (run (step grow) start as₁).bind (fun s => s.serverRecv.head?) = some srv)
    (htimer : .timer ∉ as₂ ∧ .timer ∉ as₃)
    (hsent : sys.handlers[i]? = some (.done datagram)) :
    ∃ l, datagram = reply l ∧ srv ∈ l := by
  rw [run_append, Option.bind_eq_some_iff] at hrun
  obtain ⟨s₁, hrun₁, hrun⟩ := hrun
  rw [run_cons, Option.bind_eq_some_iff] at hrun
  obtain ⟨s₂, hadd, hrun⟩ := hrun
  rw [run_append, Option.bind_eq_some_iff] at hrun
  obtain ⟨s₃, hrun₂, hrun⟩ := hrun
  rw [run_cons, Option.bind_eq_some_iff] at hrun
  obtain ⟨s₄, hreply, hrun₃⟩ := hrun
  rw [hrun₁, Option.bind_some] at htaken
  have hin₁ := inArray_run hrun₁
  have hsrv₂ : srv ∈ contents s₂.heap s₂.servers := by
    cases stepped_of_step hadd with
    | addServer hmain hrecv =>
      rw [hrecv, List.head?_cons, Option.some.injEq] at htaken
      subst htaken
      show _ ∈ contents (append grow s₁.heap s₁.servers _).1 (append grow s₁.heap s₁.servers _).2
      rw [(contents_append hin₁ _).2]
      simp
  have h₃ := mem_contents_run (inArray_step hin₁ hadd) hsrv₂ htimer.1 hrun₂
  have hwrites := writes_run (writes_reply h₃.1 hreply) htimer.2 hrun₃
  refine ⟨_, ?_, h₃.2⟩
  rcases hwrites with hdone | ⟨v, k, hwriting, -⟩
  · rw [hsent, Option.some.injEq, Handler.done.injEq] at hdone
    exact hdone
  · rw [hsent] at hwriting
    simp at hwriting

/-! ### Schedules of a registration and a request -/

/-- A registration of the server `a` and then a request are read. -/
def registerThenAsk : List Action :=
  [.readFromUDP (ascii "REG a;10.0.0.1;9000;10000" ++ [13, newline]),
    .readFromUDP (ascii "GET_SERVERS" ++ [nul])]

/-- The registration waits in the channel. -/
def registered : List Action := registerThenAsk ++ [Action.sendServer 0]

/-- The request is answered after the registration was taken. -/
def answered : List Action := Action.ask 0 :: Action.reply 0 :: [Action.writeLine 0, Action.writeLine 0]

/-- The request is answered before the registration is taken. -/
def overtaken : List Action :=
  registerThenAsk ++ [Action.ask 0, Action.reply 0, Action.writeLine 0, Action.sendServer 0,
    Action.addServer]

theorem reply_lists_in_order : ∃ sys, run (step id) start (registered ++ .addServer :: answered)
      = some sys
    ∧ ∃ l, sys.handlers[0]? = some (.done (reply l)) ∧ ⟨ascii "a", ascii "10.0.0.1", 9000, 10000⟩ ∈ l := by
  have hrun : (run (step id) start (registered ++ .addServer :: answered)).any (fun sys =>
        decide (sys.handlers[0]? = some (.done (ascii "SERVERS\na;10.0.0.1;9000;10000\n")))) = true := by
    decide +kernel
  obtain ⟨sys, hsys, hdone⟩ := (Option.any_eq_true _ _).mp hrun
  rw [decide_eq_true_eq] at hdone
  have htaken : (run (step id) start registered).bind
      (fun s => s.serverRecv.head?) = some ⟨ascii "a", ascii "10.0.0.1", 9000, 10000⟩ := by
    decide +kernel
  obtain ⟨l, hreply, hmem⟩ := @reply_lists id sys registered [.ask 0] [.writeLine 0, .writeLine 0] 0
    _ _ hsys htaken (by decide) hdone
  exact ⟨sys, hsys, l, hreply ▸ hdone, hmem⟩

/-- **The request overtakes the registration**: `main` answers it first, with the empty list. -/
theorem registration_overtaken : ∃ sys, run (step id) start overtaken = some sys
    ∧ sys.timerFired = false ∧ (∀ r ∈ sys.received, r.sender = .main)
    ∧ sys.handlers[0]? = some (.done (reply []))
    ∧ ⟨ascii "a", ascii "10.0.0.1", 9000, 10000⟩ ∈ contents sys.heap sys.servers := by
  have hrun : (run (step id) start overtaken).any (fun sys =>
        !sys.timerFired && sys.received.all (fun r => decide (r.sender = .main))
          && decide (sys.handlers[0]? = some (.done (reply [])))
          && decide (⟨ascii "a", ascii "10.0.0.1", 9000, 10000⟩ ∈ contents sys.heap sys.servers))
      = true := by
    decide +kernel
  obtain ⟨sys, hsys, hand⟩ := (Option.any_eq_true _ _).mp hrun
  simp only [Bool.and_eq_true, Bool.not_eq_true', List.all_eq_true, decide_eq_true_eq] at hand
  exact ⟨sys, hsys, hand.1.1.1, hand.1.1.2, hand.1.2, hand.2⟩

end Idserv

end MessageBoard
