import MessageBoard.Lib.Run
import MessageBoard.Replica

/-!
# Logical clocks over any number of servers

Servers publish, share and answer `SGET_MESSAGES`.  Every frame ever written stays in `frames`, and a
delivery may take any of them to any server at any time: this covers ordered links, and frames that
are lost or delivered again.  `pubs` records each publication: where, under which clock, and what its
server had stored before.

* `inv_step`, `inv_run` — every copy of a publication, stored or in a frame, has a clock no smaller
  than the original one, and smaller than the clock of the server that stores it;
* `clocks_respect_causality` — **along every chain of "stored before" the clocks increase**.
-/

namespace MessageBoard

open CText Run

namespace LogicalClock

/-- The clocks the line format can carry end here. -/
def lcBound : ℕ := 100000

/-- A publication: its server, the clock it was stored under, and the publications of which the
server had stored a copy before. -/
structure Pub where
  server : ℕ
  lc : ℕ
  past : List ℕ
  deriving DecidableEq, Repr

structure Net where
  servers : ℕ → Replica
  frames : List (List Copy)
  pubs : List Pub

inductive Action where
  /-- A client's datagram, and the main loop shares the message. -/
  | publish (s : ℕ) (datagram : Text)
  /-- A server answers `SGET_MESSAGES`. -/
  | reply (s : ℕ)
  /-- The `k`-th frame written reaches a server. -/
  | deliver (s k : ℕ)

/-- One line of a frame, as long as the clock stays in its bound. -/
def storeBounded (r : Replica) (copy : Copy) : Option Replica :=
  (r.storeLine copy).bind fun r => if r.board.gLc ≤ lcBound then some r else none

def step (net : Net) : Action → Option Net
  | .publish s datagram =>
      ((net.servers s).publish datagram net.pubs.length).bind fun r =>
        if r.2.lc < lcBound then
          some {
            servers := Function.update net.servers s r.1
            frames := net.frames ++ [[⟨r.2, net.pubs.length⟩]]
            pubs := net.pubs ++ [⟨s, r.2.lc, (net.servers s).kept.map Copy.id⟩] }
        else none
  | .reply s => some { net with frames := net.frames ++ [(net.servers s).recent] }
  | .deliver s k =>
      (net.frames[k]?).bind fun frame => (run storeBounded (net.servers s) frame).map fun r =>
        { net with servers := Function.update net.servers s r }

/-- All servers just started. -/
def start (capacity : ℕ → ℕ) (hcap : ∀ s, 0 < capacity s) (overflow : ℕ → Bool) : Net :=
  ⟨fun s => .start (capacity s) (hcap s) (overflow s), [], []⟩

/-! ### The invariant -/

/-- A copy comes from a publication with a clock no larger than its own. -/
def Origin (pubs : List Pub) (c : Copy) : Prop := ∃ p, pubs[c.id]? = some p ∧ p.lc ≤ c.message.lc

/-- A server's clock is ahead of everything it stores. -/
structure Ahead (pubs : List Pub) (r : Replica) : Prop where
  bound : r.board.gLc ≤ lcBound
  kept : ∀ c ∈ r.kept, c.message.lc < r.board.gLc ∧ Origin pubs c

/-- A frame has copies that a line can carry. -/
def Carried (pubs : List Pub) (frame : List Copy) : Prop :=
  ∀ c ∈ frame, c.message.lc < lcBound ∧ Origin pubs c

/-- A publication came after everything in its past, and is stored and shared under its clock. -/
structure Published (net : Net) (j : ℕ) (q : Pub) : Prop where
  past : ∀ i ∈ q.past, ∃ p, net.pubs[i]? = some p ∧ p.lc < q.lc
  home : ∃ m : Message, m.lc = q.lc ∧ ⟨m, j⟩ ∈ (net.servers q.server).kept
    ∧ [⟨m, j⟩] ∈ net.frames

structure Inv (net : Net) : Prop where
  servers : ∀ s, Ahead net.pubs (net.servers s)
  frames : ∀ frame ∈ net.frames, Carried net.pubs frame
  pubs : ∀ j q, net.pubs[j]? = some q → Published net j q

theorem inv_start (capacity : ℕ → ℕ) (hcap : ∀ s, 0 < capacity s) (overflow : ℕ → Bool) :
    Inv (start capacity hcap overflow) where
  servers := by
    intro s
    exact ⟨Nat.zero_le _, by simp [start, Replica.start]⟩
  frames := by simp [start]
  pubs := by simp [start]

theorem Origin.append {pubs : List Pub} {c : Copy} (h : Origin pubs c) (more : List Pub) :
    Origin (pubs ++ more) c := by
  obtain ⟨p, hp, hle⟩ := h
  exact ⟨p, by rw [List.getElem?_append_left (List.getElem?_eq_some_iff.mp hp).1, hp], hle⟩

theorem Ahead.append {pubs : List Pub} {r : Replica} (h : Ahead pubs r) (more : List Pub) :
    Ahead (pubs ++ more) r :=
  ⟨h.bound, fun c hc => ⟨(h.kept c hc).1, (h.kept c hc).2.append more⟩⟩

theorem Carried.append {pubs : List Pub} {frame : List Copy} (h : Carried pubs frame)
    (more : List Pub) : Carried (pubs ++ more) frame :=
  fun c hc => ⟨(h c hc).1, (h c hc).2.append more⟩

/-! ### One step -/

/-- A message stored under the clock, or under a later one, keeps the clock ahead. -/
theorem Ahead.store {pubs : List Pub} {r r' : Replica} {c : Copy} (h : Ahead pubs r)
    (hle : r.board.gLc ≤ c.message.lc) (hlt : c.message.lc < lcBound)
    (hclock : r'.board.gLc = (c.message.lc + 1) % 2 ^ 64) (hkept : r'.kept = r.kept ++ [c])
    (horigin : Origin pubs c) : Ahead pubs r' := by
  rw [lcBound] at hlt
  have hnext : r'.board.gLc = c.message.lc + 1 := by
    rw [hclock, Nat.mod_eq_of_lt]
    omega
  constructor
  · rw [hnext, lcBound]
    omega
  · intro d hd
    rw [hkept, List.mem_append, List.mem_singleton] at hd
    rcases hd with hd | rfl
    · have hold := h.kept d hd
      exact ⟨by omega, hold.2⟩
    · exact ⟨by omega, horigin⟩

/-- One line of a frame keeps the clock ahead, and what was kept. -/
theorem ahead_storeBounded {pubs : List Pub} {r r' : Replica} {c : Copy} (hr : Ahead pubs r)
    (hc : c.message.lc < lcBound ∧ Origin pubs c) (h : storeBounded r c = some r') :
    Ahead pubs r' ∧ r.kept ⊆ r'.kept := by
  obtain ⟨r₁, hstore, hbound⟩ := Option.bind_eq_some_iff.mp h
  split at hbound
  · rename_i hle
    obtain rfl := Option.some.inj hbound
    rcases Replica.storeLine_cases hc.1 hstore with rfl | ⟨m, hm, hclock, hkept⟩
    · exact ⟨hr, List.Subset.refl _⟩
    · have hgLc := hr.bound
      have hlc := hc.1
      -- the bound on the next clock is one on the clock of the copy
      have hlt : m.lc < lcBound := by
        rw [hclock] at hle
        rw [lcBound] at hgLc hlc hle ⊢
        omega
      obtain ⟨p, hp, hple⟩ := hc.2
      have horigin : Origin pubs ⟨m, c.id⟩ := ⟨p, hp, by simp only; omega⟩
      constructor
      · exact @Ahead.store pubs r r₁ ⟨m, c.id⟩ hr (by simp only; omega) hlt hclock hkept horigin
      · rw [hkept]
        exact List.subset_append_left _ _
  · simp at hbound

/-- A whole frame keeps the clock ahead, and what was kept. -/
theorem ahead_run {pubs : List Pub} {r r' : Replica} {frame : List Copy} (hr : Ahead pubs r)
    (hframe : Carried pubs frame) (h : run storeBounded r frame = some r') :
    Ahead pubs r' ∧ r.kept ⊆ r'.kept := by
  induction frame generalizing r with
  | nil =>
    rw [run_nil, Option.some.injEq] at h
    exact h ▸ ⟨hr, List.Subset.refl _⟩
  | cons c frame ih =>
    rw [run_cons] at h
    obtain ⟨r₁, h₁, hrest⟩ := Option.bind_eq_some_iff.mp h
    obtain ⟨hahead, hsub⟩ := ahead_storeBounded hr (hframe c (by simp)) h₁
    obtain ⟨hahead', hsub'⟩ := ih hahead (fun d hd => hframe d (by simp [hd])) hrest
    exact ⟨hahead', List.Subset.trans hsub hsub'⟩

/-- What a publication needs stays true while servers, frames and publications are only added to. -/
theorem Published.mono {net net' : Net} {j : ℕ} {q : Pub} (h : Published net j q)
    (hkept : ∀ s, (net.servers s).kept ⊆ (net'.servers s).kept) (hframes : net.frames ⊆ net'.frames)
    (hpubs : net.pubs <+: net'.pubs) : Published net' j q := by
  obtain ⟨more, hmore⟩ := hpubs
  constructor
  · intro i hi
    obtain ⟨p, hp, hlt⟩ := h.past i hi
    exact ⟨p, by rw [← hmore, List.getElem?_append_left (List.getElem?_eq_some_iff.mp hp).1, hp], hlt⟩
  · obtain ⟨m, hm, hhome, hshared⟩ := h.home
    exact ⟨m, hm, hkept _ hhome, hframes hshared⟩

/-- A publication is the last one or an earlier one. -/
theorem getElem?_concat_cases {pubs : List Pub} {p q : Pub} {j : ℕ}
    (h : (pubs ++ [p])[j]? = some q) : pubs[j]? = some q ∨ j = pubs.length ∧ q = p := by
  rw [List.getElem?_append] at h
  split at h
  · exact Or.inl h
  · rw [List.getElem?_singleton] at h
    split at h
    · exact Or.inr ⟨by omega, (Option.some.inj h).symm⟩
    · simp at h

/-- Where one server keeps more, no server keeps less. -/
theorem kept_update {servers : ℕ → Replica} {s : ℕ} {r : Replica} (h : (servers s).kept ⊆ r.kept)
    (t : ℕ) : (servers t).kept ⊆ (Function.update servers s r t).kept := by
  revert t
  apply (Function.forall_update_iff servers fun t r' => (servers t).kept ⊆ r'.kept).mpr
  exact ⟨h, fun t _ => List.Subset.refl _⟩

theorem inv_publish {net net' : Net} {s : ℕ} {datagram : Text} (hinv : Inv net)
    (h : step net (.publish s datagram) = some net') : Inv net' := by
  obtain ⟨⟨r, m⟩, hpub, hbound⟩ := Option.bind_eq_some_iff.mp h
  simp only at hbound
  split at hbound
  · rename_i hlt
    obtain rfl := Option.some.inj hbound
    obtain ⟨hlc, hclock, hkept, _⟩ := Replica.publish_eq_some hpub
    rw [← hlc] at hclock
    let pub : Pub := ⟨s, m.lc, (net.servers s).kept.map Copy.id⟩
    have horigin : Origin (net.pubs ++ [pub]) ⟨m, net.pubs.length⟩ :=
      ⟨pub, List.getElem?_concat_length, le_rfl⟩
    have hahead : Ahead (net.pubs ++ [pub]) r :=
      ((hinv.servers s).append [pub]).store hlc.ge hlt hclock hkept horigin
    have hsub := kept_update (s := s) (r := r) (hkept ▸ List.subset_append_left _ _)
    constructor
    · apply (Function.forall_update_iff net.servers fun _ r' => Ahead (net.pubs ++ [pub]) r').mpr
      exact ⟨hahead, fun s' _ => (hinv.servers s').append [pub]⟩
    · intro frame hframe
      rcases List.mem_append.mp hframe with hframe | hframe
      · exact (hinv.frames frame hframe).append [pub]
      · rw [List.mem_singleton.mp hframe]
        intro c hc
        rw [List.mem_singleton.mp hc]
        exact ⟨hlt, horigin⟩
    · intro j q hq
      rcases getElem?_concat_cases hq with hold | ⟨rfl, rfl⟩
      · exact (hinv.pubs j q hold).mono hsub (List.subset_append_left _ _) (List.prefix_append _ _)
      · constructor
        · intro i hi
          obtain ⟨c, hc, rfl⟩ := List.mem_map.mp hi
          obtain ⟨hlt', p, hp, hle⟩ := (hinv.servers s).kept c hc
          refine ⟨p, ?_, by simp only; omega⟩
          show (net.pubs ++ [pub])[c.id]? = some p
          rw [List.getElem?_append_left (List.getElem?_eq_some_iff.mp hp).1, hp]
        · refine ⟨m, rfl, ?_, by simp⟩
          simp [hkept]
  · simp at hbound

theorem inv_reply {net net' : Net} {s : ℕ} (hinv : Inv net)
    (h : step net (.reply s) = some net') : Inv net' := by
  rw [step, Option.some.injEq] at h
  subst h
  refine ⟨hinv.servers, ?_, ?_⟩
  · intro frame hframe
    rcases List.mem_append.mp hframe with hframe | hframe
    · exact hinv.frames frame hframe
    · rw [List.mem_singleton.mp hframe]
      intro c hc
      obtain ⟨hlt, horigin⟩ := (hinv.servers s).kept c (Replica.mem_kept_of_mem_recent hc)
      exact ⟨lt_of_lt_of_le hlt (hinv.servers s).bound, horigin⟩
  · intro j q hq
    exact (hinv.pubs j q hq).mono (fun _ => List.Subset.refl _) (List.subset_append_left _ _)
      (List.prefix_refl _)

theorem inv_deliver {net net' : Net} {s k : ℕ} (hinv : Inv net)
    (h : step net (.deliver s k) = some net') : Inv net' := by
  obtain ⟨frame, hframe, hmap⟩ := Option.bind_eq_some_iff.mp h
  obtain ⟨r, hrun, rfl⟩ := Option.map_eq_some_iff.mp hmap
  obtain ⟨hahead, hsub⟩ :=
    ahead_run (hinv.servers s) (hinv.frames frame (List.mem_of_getElem? hframe)) hrun
  constructor
  · apply (Function.forall_update_iff net.servers fun _ r' => Ahead net.pubs r').mpr
    exact ⟨hahead, fun s' _ => hinv.servers s'⟩
  · exact hinv.frames
  · intro j q hq
    exact (hinv.pubs j q hq).mono (kept_update hsub) (List.Subset.refl _) (List.prefix_refl _)

/-- **Every step keeps the invariant.** -/
theorem inv_step (net : Net) (a : Action) (net' : Net) (hinv : Inv net)
    (h : step net a = some net') : Inv net' := by
  cases a with
  | publish s datagram => exact inv_publish hinv h
  | reply s => exact inv_reply hinv h
  | deliver s k => exact inv_deliver hinv h

/-- **Every reachable network satisfies the invariant.** -/
theorem inv_run {capacity : ℕ → ℕ} {hcap : ∀ s, 0 < capacity s} {overflow : ℕ → Bool}
    {acts : List Action} {net : Net} (h : run step (start capacity hcap overflow) acts = some net) :
    Inv net := run_invariant inv_step (inv_start capacity hcap overflow) h

/-! ### Causality -/

/-- A copy of `i` was stored at the server of `j` before `j` was published there. -/
def StoredBefore (pubs : List Pub) (i j : ℕ) : Prop := ∃ q, pubs[j]? = some q ∧ i ∈ q.past

/-- **Logical clocks respect causality.**  Along every chain of "stored before", through any servers,
the published clocks increase, and they are the clocks under which the message is stored and shared. -/
theorem clocks_respect_causality {capacity : ℕ → ℕ} {hcap : ∀ s, 0 < capacity s}
    {overflow : ℕ → Bool} {acts : List Action} {net : Net}
    (hrun : run step (start capacity hcap overflow) acts = some net) {i j : ℕ}
    (hbefore : Relation.TransGen (StoredBefore net.pubs) i j) :
    ∃ p q, net.pubs[i]? = some p ∧ net.pubs[j]? = some q ∧ p.lc < q.lc
      ∧ ∃ m : Message, m.lc = q.lc ∧ ⟨m, j⟩ ∈ (net.servers q.server).kept
        ∧ [⟨m, j⟩] ∈ net.frames := by
  have hinv := inv_run hrun
  have hone {i j : ℕ} (h : StoredBefore net.pubs i j) :
      ∃ p q, net.pubs[i]? = some p ∧ net.pubs[j]? = some q ∧ p.lc < q.lc := by
    obtain ⟨q, hq, hi⟩ := h
    obtain ⟨p, hp, hlt⟩ := (hinv.pubs j q hq).past i hi
    exact ⟨p, q, hp, hq, hlt⟩
  have hchain : ∃ p q, net.pubs[i]? = some p ∧ net.pubs[j]? = some q ∧ p.lc < q.lc := by
    induction hbefore with
    | single h => exact hone h
    | tail _ h ih =>
      obtain ⟨p, q, hp, hq, hlt⟩ := ih
      obtain ⟨q', r, hq', hr, hlt'⟩ := hone h
      rw [hq, Option.some.injEq] at hq'
      exact ⟨p, r, hp, hr, hlt.trans (hq' ▸ hlt')⟩
  obtain ⟨p, q, hp, hq, hlt⟩ := hchain
  exact ⟨p, q, hp, hq, hlt, (hinv.pubs j q hq).home⟩

/-- A message is shared with a second server, which then publishes; a third one learns both. -/
def relay : List Action :=
  [.publish 0 (ascii "PUBLISH hello"), .publish 0 (ascii "PUBLISH again"), .deliver 1 1,
    .publish 1 (ascii "PUBLISH answer"), .reply 1, .deliver 2 3, .publish 2 (ascii "PUBLISH end")]

theorem clocks_respect_causality_relay :
    ∃ net, run step (start (fun _ => 4) (fun _ => by decide) fun _ => false) relay = some net
      ∧ ∃ p q, net.pubs[1]? = some p ∧ net.pubs[3]? = some q ∧ p.lc < q.lc := by
  have hpubs : (run step (start (fun _ => 4) (fun _ => by decide) fun _ => false) relay).map Net.pubs
      = some [⟨0, 0, []⟩, ⟨0, 1, [0]⟩, ⟨1, 2, [1]⟩, ⟨2, 3, [1, 2]⟩] := by decide
  obtain ⟨net, hrun, hnet⟩ := Option.map_eq_some_iff.mp hpubs
  have h₁ : StoredBefore net.pubs 1 2 := ⟨_, by rw [hnet]; rfl, by simp⟩
  have h₂ : StoredBefore net.pubs 2 3 := ⟨_, by rw [hnet]; rfl, by simp⟩
  obtain ⟨p, q, hp, hq, hlt, _⟩ := clocks_respect_causality hrun (.tail (.single h₁) h₂)
  exact ⟨net, hrun, p, q, hp, hq, hlt⟩

end LogicalClock

end MessageBoard
