import MessageBoard.PolledDescriptors

/-!
# The preparation of `select`

`remove_bad_servers` whole: one pass over a list that it shortens, which lowers the size of the list,
frees the entries it takes out, and collects the descriptors of the others and the largest of them.
`SET_FD` is a parameter, as in the source.

* `pollServers_eq` — the pass in one equation: it purges as `removeBadServers` does, and visits every
  entry that stays once, in order;
* `no_bad_left_iff` — **no bad entry is left exactly if no two of them are next to each other**;
* `nobody_lost` — **what stays, what is freed, and what `select` is given.**
-/

namespace MessageBoard

open CText PolledDescriptors

namespace SelectPreparation

section Pass

variable {σ : Type}

/-- What the pass keeps up: the size of the list, the entries given to `free_server`, and the two
arguments of `select`. -/
structure Poll (σ : Type) where
  size : ℕ
  freed : List Server
  maxFd : ℤ
  rfds : σ

/-- `remove_head` and `remove_next_node`, for the entry that is taken out. -/
def Poll.remove (p : Poll σ) (s : Server) : Poll σ :=
  { p with size := p.size - 1, freed := p.freed ++ [s] }

/-- The highest descriptor is saved. -/
def highest (maxFd : ℤ) (s : Server) : ℤ := if s.fd > maxFd then s.fd else maxFd

/-- A valid descriptor is added to the set. -/
def place (setFd : ℤ → σ → σ) (rfds : σ) (s : Server) : σ :=
  if 0 < s.fd then setFd s.fd rfds else rfds

/-- What the loop does with `aux_node` itself. -/
def Poll.visit (setFd : ℤ → σ → σ) (p : Poll σ) (s : Server) : Poll σ :=
  { p with maxFd := highest p.maxFd s, rfds := place setFd p.rfds s }

/-- The loop from `aux_node` on: its next node may be taken out, then it is visited itself. -/
def pollServers (host : Server) (setFd : ℤ → σ → σ) :
    List Server → Poll σ → List Server × Poll σ
  | [], p => ([], p)
  | [s], p => ([s], p.visit setFd s)
  | s :: next :: rest, p =>
      if isBad host next then
        let r := pollServers host setFd rest ((p.remove next).visit setFd s)
        (s :: r.1, r.2)
      else
        let r := pollServers host setFd (next :: rest) (p.visit setFd s)
        (s :: r.1, r.2)

/-- `remove_bad_servers`: the nodes that are left, and what the pass kept up. -/
def removeBadServers (host : Server) (setFd : ℤ → σ → σ) (maxFd : ℤ) (rfds : σ)
    (serversList : LinkedList Server) : List Server × Poll σ :=
  let p : Poll σ := ⟨serversList.size, [], maxFd, rfds⟩
  match serversList.nodes with
  | [] => ([], p)
  | s :: rest =>
      if isBad host s then pollServers host setFd rest (p.remove s)
      else pollServers host setFd (s :: rest) p

/-- What the pass leaves, if it keeps and frees these entries. -/
def Poll.after (setFd : ℤ → σ → σ) (p : Poll σ) (kept freed : List Server) : Poll σ :=
  ⟨p.size - freed.length, p.freed ++ freed, kept.foldl highest p.maxFd,
    kept.foldl (place setFd) p.rfds⟩

theorem Poll.after_nil (setFd : ℤ → σ → σ) (p : Poll σ) : p.after setFd [] [] = p := by
  simp [Poll.after]

theorem Poll.after_remove (setFd : ℤ → σ → σ) (p : Poll σ) (s : Server) (kept freed : List Server) :
    (p.remove s).after setFd kept freed = p.after setFd kept (s :: freed) := by
  have hsize : p.size - 1 - freed.length = p.size - (freed.length + 1) := by omega
  simp [Poll.after, Poll.remove, hsize]

theorem Poll.after_visit (setFd : ℤ → σ → σ) (p : Poll σ) (s : Server) (kept freed : List Server) :
    (p.visit setFd s).after setFd kept freed = p.after setFd (s :: kept) freed := rfl

theorem Poll.remove_visit (setFd : ℤ → σ → σ) (p : Poll σ) (s t : Server) :
    (p.remove t).visit setFd s = (p.visit setFd s).remove t := rfl

/-- **The loop in one equation.** -/
theorem pollServers_eq (host : Server) (setFd : ℤ → σ → σ) (l : List Server) (p : Poll σ) :
    pollServers host setFd l p
      = ((removeNextServers host l).1,
          p.after setFd (removeNextServers host l).1 (removeNextServers host l).2) := by
  fun_induction pollServers host setFd l p with
  | case1 p => rw [removeNextServers, Poll.after_nil]
  | case2 s p => rw [removeNextServers, ← Poll.after_visit, Poll.after_nil]
  | case3 s next rest p hbad r ih =>
    rw [removeNextServers, if_pos hbad]
    show (s :: r.1, r.2) = _
    rw [show r = _ from ih, Poll.remove_visit, Poll.after_remove, Poll.after_visit]
  | case4 s next rest p hgood r ih =>
    rw [removeNextServers, if_neg hgood]
    show (s :: r.1, r.2) = _
    rw [show r = _ from ih, Poll.after_visit]

/-- **The pass in one equation**: the purge, and one visit of every entry that stays. -/
theorem removeBadServers_eq (host : Server) (setFd : ℤ → σ → σ) (maxFd : ℤ) (rfds : σ)
    (l : LinkedList Server) :
    removeBadServers host setFd maxFd rfds l
      = ((MessageBoard.removeBadServers host l.nodes).1,
          Poll.after setFd ⟨l.size, [], maxFd, rfds⟩ (MessageBoard.removeBadServers host l.nodes).1
            (MessageBoard.removeBadServers host l.nodes).2) := by
  rw [removeBadServers]
  cases l.nodes with
  | nil => rw [MessageBoard.removeBadServers, Poll.after_nil]
  | cons s rest =>
    rw [MessageBoard.removeBadServers]
    dsimp only
    split
    · rw [pollServers_eq, Poll.after_remove]
    · rw [pollServers_eq]

end Pass

/-! ### What stays and what is freed -/

/-- An entry that is neither without a connection nor the host. -/
def Good (host s : Server) : Prop := s.fd ≠ -1 ∧ differentServers s host = true

instance (host s : Server) : Decidable (Good host s) :=
  inferInstanceAs (Decidable (s.fd ≠ -1 ∧ differentServers s host = true))

theorem good_iff (host s : Server) : Good host s ↔ isBad host s = false := by
  simp [Good, isBad]

theorem removeNextServers_perm (host : Server) (l : List Server) :
    ((removeNextServers host l).1 ++ (removeNextServers host l).2).Perm l := by
  fun_induction removeNextServers host l with
  | case1 => exact List.Perm.refl _
  | case2 s => exact List.Perm.refl _
  | case3 s next rest hbad r ih =>
    have hmiddle : (r.1 ++ next :: r.2).Perm (next :: (r.1 ++ r.2)) := List.perm_middle
    exact (hmiddle.trans (ih.cons next)).cons s
  | case4 s next rest hgood r ih => exact ih.cons s

/-- Every entry stays or is freed, once. -/
theorem removeBadServers_perm (host : Server) (l : List Server) :
    ((MessageBoard.removeBadServers host l).1 ++ (MessageBoard.removeBadServers host l).2).Perm l := by
  cases l with
  | nil => exact List.Perm.refl _
  | cons s rest =>
    rw [MessageBoard.removeBadServers]
    split
    · exact List.perm_middle.trans ((removeNextServers_perm host rest).cons s)
    · exact removeNextServers_perm host (s :: rest)

/-- A part of a list that has what the test accepts, and a test that accepts nothing of the rest. -/
theorem filter_eq_of_sublist {test : Server → Bool} {kept freed l : List Server}
    (hsub : kept.Sublist l) (hperm : (kept ++ freed).Perm l) (hfreed : ∀ s ∈ freed, test s = false) :
    kept.filter test = l.filter test := by
  apply (hsub.filter test).eq_of_length
  have hcount := (hperm.filter test).length_eq
  have hnone : freed.filter test = [] := by
    rw [List.filter_eq_nil_iff]
    intro s hs
    rw [hfreed s hs]
    exact Bool.false_ne_true
  rwa [List.filter_append, hnone, List.append_nil] at hcount

/-- `put_fd_set`, which is `FD_SET`. -/
def putFdSet (fd : ℤ) (rfds : Finset ℤ) : Finset ℤ := insert fd rfds

/-- **Bad servers are all removed exactly if no two of them are next to each other.** -/
theorem no_bad_left_iff {σ : Type} (host : Server) (setFd : ℤ → σ → σ) (maxFd : ℤ) (rfds : σ)
    (l : LinkedList Server) :
    (∀ t ∈ (removeBadServers host setFd maxFd rfds l).1, t.fd ≠ -1 ∧ differentServers t host = true)
      ↔ Apart host l.nodes := by
  rw [removeBadServers_eq, ← removeBadServers_iff]
  apply forall₂_congr
  intro t _
  exact good_iff host t

/-- Two entries without a connection, one behind the other. -/
theorem bad_left :
    ¬∀ (host : Server) (maxFd : ℤ) (rfds : Finset ℤ) (l : LinkedList Server),
      ∀ t ∈ (removeBadServers host putFdSet maxFd rfds l).1,
        t.fd ≠ -1 ∧ differentServers t host = true := by
  intro h
  have hleft := h boardHost 0 ∅ ⟨2, [.new (ascii "a") (ascii "10.0.0.2") 1 2,
    .new (ascii "b") (ascii "10.0.0.3") 3 4], rfl⟩ (.new (ascii "b") (ascii "10.0.0.3") 3 4)
    (by decide +kernel)
  exact hleft.1 rfl

/-! ### The arguments of `select` -/

theorem mem_foldl_place {kept : List Server} {rfds : Finset ℤ} {fd : ℤ} :
    fd ∈ kept.foldl (place putFdSet) rfds ↔ fd ∈ rfds ∨ ∃ s ∈ kept, 0 < s.fd ∧ s.fd = fd := by
  induction kept generalizing rfds with
  | nil => simp
  | cons s kept ih =>
    have hplace : fd ∈ place putFdSet rfds s ↔ fd ∈ rfds ∨ 0 < s.fd ∧ s.fd = fd := by
      rw [place]
      split
      · rename_i hpos
        rw [putFdSet, Finset.mem_insert, or_comm, and_iff_right hpos, eq_comm]
      · rename_i hneg
        simp [hneg]
    rw [List.foldl_cons, ih, hplace, List.exists_mem_cons_iff, or_assoc]

theorem highest_eq_max (maxFd : ℤ) (s : Server) : highest maxFd s = max maxFd s.fd := by
  rw [highest]
  split <;> omega

theorem isGreatest_foldl_highest (kept : List Server) (maxFd : ℤ) :
    IsGreatest (insert maxFd {fd | ∃ s ∈ kept, s.fd = fd}) (kept.foldl highest maxFd) := by
  induction kept generalizing maxFd with
  | nil => simp
  | cons s kept ih =>
    obtain ⟨hmem, hupper⟩ := ih (highest maxFd s)
    have hmax := highest_eq_max maxFd s
    rw [List.foldl_cons]
    constructor
    · rcases hmem with heq | ⟨t, ht, hfd⟩
      · rw [heq, hmax]
        rcases max_choice maxFd s.fd with hleft | hright
        · exact Or.inl hleft
        · exact Or.inr ⟨s, List.mem_cons_self, hright.symm⟩
      · exact Or.inr ⟨t, List.mem_cons_of_mem s ht, hfd⟩
    · have hfirst := hupper (Set.mem_insert _ _)
      rintro fd (rfl | ⟨t, ht, rfl⟩)
      · omega
      · rcases List.mem_cons.mp ht with rfl | ht
        · omega
        · exact hupper (Or.inr ⟨t, ht, rfl⟩)

/-- **Preparing `select` loses nobody.**  Every good entry stays, in order; every other one stays or
is freed once, and the size goes down by their number; the set gets the positive descriptors of the
entries that stay, and `max_fd` is the largest of theirs and its own. -/
theorem nobody_lost (host : Server) (maxFd : ℤ) (rfds : Finset ℤ) (l : LinkedList Server) :
    let r := removeBadServers host putFdSet maxFd rfds l
    r.1.Sublist l.nodes ∧ r.1.filter (Good host) = l.nodes.filter (Good host)
      ∧ (r.1 ++ r.2.freed).Perm l.nodes ∧ r.2.size = r.1.length
      ∧ r.2.size + r.2.freed.length = l.size
      ∧ (∀ fd, fd ∈ r.2.rfds ↔ fd ∈ rfds ∨ ∃ s ∈ r.1, 0 < s.fd ∧ s.fd = fd)
      ∧ IsGreatest (insert maxFd {fd | ∃ s ∈ r.1, s.fd = fd}) r.2.maxFd := by
  intro r
  have hr : r = _ := removeBadServers_eq host putFdSet maxFd rfds l
  have hkept : r.1 = (MessageBoard.removeBadServers host l.nodes).1 := congrArg Prod.fst hr
  have hfreed : r.2.freed = (MessageBoard.removeBadServers host l.nodes).2 := by
    rw [hr]
    exact List.nil_append _
  have hsub : r.1.Sublist l.nodes := hkept ▸ removeBadServers_sublist host l.nodes
  have hperm : (r.1 ++ r.2.freed).Perm l.nodes := by
    rw [hkept, hfreed]
    exact removeBadServers_perm host l.nodes
  have hlength := hperm.length_eq
  rw [List.length_append, ← l.sized] at hlength
  have hsize : r.2.size = l.size - r.2.freed.length := by
    rw [hfreed, hr]
    rfl
  refine ⟨hsub, ?_, hperm, by omega, by omega, ?_, ?_⟩
  · apply filter_eq_of_sublist hsub hperm
    intro s hs
    rw [hfreed] at hs
    rw [decide_eq_false_iff_not, good_iff, (isBad_of_mem_freed hs).1]
    simp
  · intro fd
    rw [hkept, hr]
    exact mem_foldl_place
  · rw [hkept, hr]
    exact isGreatest_foldl_highest _ maxFd

end SelectPreparation

end MessageBoard
