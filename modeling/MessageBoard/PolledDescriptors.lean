import MessageBoard.Lib.Run
import MessageBoard.MsgservMain

/-!
# Which descriptors a message server polls

In any run of the loop, over any joins, accepted connections, failed writes and closed peers.

* `removeBadServers_iff` — the purge leaves a bad entry exactly if two are next to each other;
* `Owned.forEach`, `Owned.turn` — every descriptor in the list is open, and has one entry;
* `polled_iff` — **what is polled is open exactly if the purge finds no such pair, and nothing in the
  same turn leaves an entry without a connection.**
-/

namespace MessageBoard

open CText Run

namespace PolledDescriptors

/-! ### The purge -/

/-- No two entries due for removal are next to each other. -/
def Apart (host : Server) (l : List Server) : Prop :=
  l.IsChain fun s t => ¬(isBad host s = true ∧ isBad host t = true)

instance (host : Server) (l : List Server) : Decidable (Apart host l) :=
  inferInstanceAs (Decidable (l.IsChain fun s t => ¬(isBad host s = true ∧ isBad host t = true)))

theorem removeNextServers_sublist (host : Server) (l : List Server) :
    (removeNextServers host l).1.Sublist l := by
  fun_induction removeNextServers host l with
  | case1 => exact List.Sublist.slnil
  | case2 s => exact List.Sublist.refl _
  | case3 s next rest hbad r ih => exact (ih.cons next).cons_cons s
  | case4 s next rest hgood r ih => exact ih.cons_cons s

theorem isBad_of_mem_removed {host : Server} {l : List Server} {t : Server}
    (h : t ∈ (removeNextServers host l).2) : isBad host t = true ∧ t ∈ l := by
  fun_induction removeNextServers host l with
  | case1 => simp at h
  | case2 s => simp at h
  | case3 s next rest hbad r ih =>
    rcases List.mem_cons.mp h with rfl | h
    · exact ⟨hbad, by simp⟩
    · obtain ⟨htbad, hmem⟩ := ih h
      exact ⟨htbad, by simp [hmem]⟩
  | case4 s next rest hgood r ih =>
    obtain ⟨htbad, hmem⟩ := ih h
    exact ⟨htbad, List.mem_cons_of_mem s hmem⟩

theorem apart_cons_cons {host s t : Server} {rest : List Server} :
    Apart host (s :: t :: rest)
      ↔ ¬(isBad host s = true ∧ isBad host t = true) ∧ Apart host (t :: rest) :=
  List.isChain_cons_cons

/-- The loop leaves a bad entry exactly if its first one is bad, or two are next to each other. -/
theorem removeNextServers_iff (host : Server) (l : List Server) :
    (∀ t ∈ (removeNextServers host l).1, isBad host t = false)
      ↔ (∀ s ∈ l.head?, isBad host s = false) ∧ Apart host l := by
  fun_induction removeNextServers host l with
  | case1 => simp [Apart]
  | case2 s => simp [Apart]
  | case3 s next rest hbad r ih =>
    rw [List.forall_mem_cons, ih, apart_cons_cons]
    cases rest with
    | nil => simp [Apart, hbad]
    | cons t rest =>
      rw [apart_cons_cons]
      simp [hbad]
  | case4 s next rest hgood r ih =>
    rw [List.forall_mem_cons, ih, apart_cons_cons]
    rw [Bool.not_eq_true] at hgood
    simp [hgood]

/-- **The purge leaves a bad entry exactly if two are next to each other.** -/
theorem removeBadServers_iff (host : Server) (l : List Server) :
    (∀ t ∈ (removeBadServers host l).1, isBad host t = false) ↔ Apart host l := by
  cases l with
  | nil => simp [removeBadServers, Apart]
  | cons s rest =>
    rw [removeBadServers]
    split
    · rename_i hbad
      rw [removeNextServers_iff]
      cases rest with
      | nil => simp [Apart]
      | cons t rest =>
        rw [apart_cons_cons]
        simp [hbad]
    · rename_i hgood
      rw [Bool.not_eq_true] at hgood
      rw [removeNextServers_iff]
      simp [hgood]

theorem removeBadServers_sublist (host : Server) (l : List Server) :
    (removeBadServers host l).1.Sublist l := by
  cases l with
  | nil => exact List.Sublist.refl _
  | cons s rest =>
    rw [removeBadServers]
    split
    · exact (removeNextServers_sublist host rest).cons s
    · exact removeNextServers_sublist host (s :: rest)

theorem isBad_of_mem_freed {host : Server} {l : List Server} {t : Server}
    (h : t ∈ (removeBadServers host l).2) : isBad host t = true ∧ t ∈ l := by
  cases l with
  | nil => simp [removeBadServers] at h
  | cons s rest =>
    rw [removeBadServers] at h
    split at h
    · rename_i hbad
      rcases List.mem_cons.mp h with rfl | h
      · exact ⟨hbad, by simp⟩
      · obtain ⟨htbad, hmem⟩ := isBad_of_mem_removed h
        exact ⟨htbad, List.mem_cons_of_mem s hmem⟩
    · exact isBad_of_mem_removed h

/-! ### Descriptors and their entries -/

/-- An entry has an open descriptor, which no other entry has, or one of the two marks; an entry with
the address of the host is never connected. -/
structure Owned (host : Server) (l : List Server) (opened : List ℤ) : Prop where
  fds : ∀ s ∈ l, s.fd = -1 ∨ s.fd = -2 ∨ s.fd ∈ opened
  opened : ∀ fd ∈ opened, 0 ≤ fd
  distinct : l.Pairwise fun s t => s.fd = t.fd → s.fd < 0
  host : ∀ s ∈ l, differentServers s host = false → s.fd < 0

variable {host : Server} {l : List Server} {opened : List ℤ}

theorem Owned.nil (host : Server) : Owned host [] [] :=
  ⟨by simp, by simp, List.Pairwise.nil, by simp⟩

theorem Owned.sublist (h : Owned host l opened) {l' : List Server} (hsub : l'.Sublist l) :
    Owned host l' opened where
  fds := fun s hs => h.fds s (hsub.subset hs)
  opened := h.opened
  distinct := h.distinct.sublist hsub
  host := fun s hs => h.host s (hsub.subset hs)

theorem Owned.tail {s : Server} (h : Owned host (s :: l) opened) : Owned host l opened :=
  h.sublist (List.sublist_cons_self s l)

/-- An entry that is added has a descriptor of its own, or a mark. -/
theorem Owned.cons (h : Owned host l opened) {s : Server}
    (hfd : s.fd = -1 ∨ s.fd = -2 ∨ s.fd ∈ opened) (hown : ∀ t ∈ l, s.fd = t.fd → s.fd < 0)
    (hhost : differentServers s host = false → s.fd < 0) : Owned host (s :: l) opened where
  fds := List.forall_mem_cons.mpr ⟨hfd, h.fds⟩
  opened := h.opened
  distinct := List.pairwise_cons.mpr ⟨hown, h.distinct⟩
  host := List.forall_mem_cons.mpr ⟨hhost, h.host⟩

/-- An entry without a descriptor. -/
theorem Owned.cons_neg (h : Owned host l opened) {s : Server} (hfd : s.fd = -1 ∨ s.fd = -2) :
    Owned host (s :: l) opened := by
  have hneg : s.fd < 0 := by omega
  apply h.cons
  · rcases hfd with hfd | hfd
    · exact Or.inl hfd
    · exact Or.inr (Or.inl hfd)
  · intro t _ _
    exact hneg
  · intro _
    exact hneg

theorem Owned.fd_cases (h : Owned host l opened) {s : Server} (hs : s ∈ l) :
    s.fd = -1 ∨ s.fd = -2 ∨ 0 ≤ s.fd ∧ s.fd ∈ opened := by
  rcases h.fds s hs with hfd | hfd | hfd
  · exact Or.inl hfd
  · exact Or.inr (Or.inl hfd)
  · exact Or.inr (Or.inr ⟨h.opened s.fd hfd, hfd⟩)

theorem mem_closeFd {fd fd' : ℤ} : fd' ∈ closeFd fd opened → fd' ∈ opened := by
  rw [closeFd]
  split
  · exact id
  · exact fun h => (List.mem_filter.mp h).1

theorem mem_closeFd_of_ne {fd fd' : ℤ} (h : fd' ∈ opened) (hne : fd' ≠ fd) :
    fd' ∈ closeFd fd opened := by
  rw [closeFd]
  split
  · exact h
  · exact List.mem_filter.mpr ⟨h, by simpa using hne⟩

/-- The purge frees no descriptor. -/
theorem foldl_freeServer {freed : List Server} (h : ∀ s ∈ freed, s.fd < 0) :
    freed.foldl (fun opened s => freeServer s opened) opened = opened := by
  induction freed with
  | nil => rfl
  | cons s freed ih =>
    have hs := h s (by simp)
    rw [List.foldl_cons, freeServer, if_neg (by omega)]
    exact ih fun t ht => h t (by simp [ht])

theorem Owned.neg_of_isBad (h : Owned host l opened) {s : Server} (hs : s ∈ l)
    (hbad : isBad host s = true) : s.fd < 0 := by
  rw [isBad, Bool.or_eq_true] at hbad
  rcases hbad with hbad | hbad
  · have hfd : s.fd = -1 := by simpa using hbad
    omega
  · exact h.host s hs (by simpa using hbad)

theorem purge_eq {p : Peers} (h : Owned host p.msgsrvList p.opened) :
    p.purge host = ⟨(removeBadServers host p.msgsrvList).1, p.opened⟩ := by
  rw [Peers.purge, foldl_freeServer]
  intro s hs
  obtain ⟨hbad, hmem⟩ := isBad_of_mem_freed hs
  exact h.neg_of_isBad hmem hbad

/-! ### An accepted connection -/

/-- A descriptor in use is not returned again. -/
theorem Owned.ne_of_fresh (h : Owned host l opened) {fd : ℤ} (hfresh : Fresh fd opened) {s : Server}
    (hs : s ∈ l) : fd ≠ s.fd := by
  obtain ⟨hpos, hnot⟩ := hfresh
  rcases h.fd_cases hs with hfd | hfd | ⟨-, hmem⟩
  · omega
  · omega
  · exact fun heq => hnot (heq ▸ hmem)

theorem Owned.open (h : Owned host l opened) {fd : ℤ} (hfresh : Fresh fd opened) :
    Owned host l (fd :: opened) where
  fds := by
    intro s hs
    rcases h.fds s hs with hfd | hfd | hfd
    · exact Or.inl hfd
    · exact Or.inr (Or.inl hfd)
    · exact Or.inr (Or.inr (List.mem_cons_of_mem fd hfd))
  opened := List.forall_mem_cons.mpr ⟨hfresh.1, h.opened⟩
  distinct := h.distinct
  host := h.host

/-- An entry whose descriptor the kernel has just returned. -/
theorem Owned.cons_fresh (h : Owned host l opened) {s : Server} (hfresh : Fresh s.fd opened)
    (hhost : differentServers s host = true) : Owned host (s :: l) (s.fd :: opened) := by
  apply (h.open hfresh).cons
  · exact Or.inr (Or.inr (by simp))
  · exact fun t ht heq => absurd heq (h.ne_of_fresh hfresh ht)
  · simp [hhost]

/-- What `tcp_new_comm` does. -/
theorem accept_cases {accepted : Option (ℤ × Text × ℕ)} {p p' : Peers}
    (h : p.accept accepted = some p') :
    p' = p ∨ ∃ s : Server, Fresh s.fd p.opened ∧ s.udpPort = 0
      ∧ p' = ⟨s :: p.msgsrvList, s.fd :: p.opened⟩ := by
  cases accepted with
  | none => exact Or.inl (Option.some.inj h).symm
  | some conn =>
    obtain ⟨fd, ip, port⟩ := conn
    rw [Peers.accept] at h
    split at h
    · rename_i hfresh
      exact Or.inr ⟨_, hfresh, rfl, (Option.some.inj h).symm⟩
    · simp at h

theorem different_of_udpPort (hhost : host.udpPort ≠ 0) {s : Server} (hs : s.udpPort = 0) :
    differentServers s host = true := by
  rw [differentServers_eq, decide_eq_true_eq]
  intro heq
  have hudp : s.udpPort = host.udpPort := (Prod.mk.inj (Prod.mk.inj heq).2).1
  exact hhost (hudp ▸ hs)

/-! ### Loops that close -/

/-- An action leaves an entry as it is, or closes its descriptor. -/
def Releases {σ : Type} (action : Server → σ → Option (Server × σ)) (op : σ → List ℤ) : Prop :=
  ∀ s st r, action s st = some r → r.1 = s ∧ op r.2 = op st
    ∨ r.1 = closeCommunication s ∧ op r.2 = closeFd s.fd (op st)

theorem releases_sendToServer (writes : ℤ → Bool) : Releases (sendToServer writes) id := by
  intro s opened r h
  rw [sendToServer] at h
  split at h
  · exact Or.inl (by rw [← Option.some.inj h]; exact ⟨rfl, rfl⟩)
  · exact Or.inr (by rw [← Option.some.inj h]; exact ⟨rfl, rfl⟩)

theorem releases_treatServer (reading : ℤ → Option Reading) :
    Releases (treatServer reading) Treated.opened := by
  intro s st r h
  rw [treatServer] at h
  split at h
  · exact Or.inl (by rw [← Option.some.inj h]; exact ⟨rfl, rfl⟩)
  · obtain ⟨c, -, hc⟩ := Option.map_eq_some_iff.mp h
    split at hc
    · exact Or.inl (by rw [← hc]; exact ⟨rfl, rfl⟩)
    · exact Or.inr (by rw [← hc]; exact ⟨rfl, rfl⟩)

section Releases

variable {σ : Type} {action : Server → σ → Option (Server × σ)} {op : σ → List ℤ}

/-- A descriptor that is not closed by the loop stays open. -/
theorem forEach_frame (hrel : Releases action op) {st : σ} {r : List Server × σ}
    (h : forEachElement action l st = some r) :
    (∀ fd ∈ op st, (∀ s ∈ l, fd ≠ s.fd) → fd ∈ op r.2) ∧ ∀ t ∈ r.1, t ∈ l ∨ t.fd = -1 := by
  induction l generalizing st r with
  | nil =>
    rw [← Option.some.inj h]
    exact ⟨fun fd hfd _ => hfd, by simp⟩
  | cons s rest ih =>
    obtain ⟨q, r', hq, hr', rfl⟩ := forEachElement_cons h
    obtain ⟨hopen, hmem⟩ := ih hr'
    constructor
    · intro fd hfd hne
      apply hopen fd
      · rcases hrel s st q hq with ⟨-, hop⟩ | ⟨-, hop⟩
        · exact hop ▸ hfd
        · exact hop ▸ mem_closeFd_of_ne hfd (hne s (by simp))
      · exact fun t ht => hne t (by simp [ht])
    · intro t ht
      rcases List.mem_cons.mp ht with rfl | ht
      · rcases hrel s st q hq with ⟨hs, -⟩ | ⟨hs, -⟩
        · exact Or.inl (by rw [hs]; simp)
        · exact Or.inr (by rw [hs]; rfl)
      · rcases hmem t ht with ht | ht
        · exact Or.inl (List.mem_cons_of_mem s ht)
        · exact Or.inr ht

/-- The entries behind one whose descriptor is closed. -/
theorem Owned.close {s : Server} (h : Owned host (s :: l) opened) :
    Owned host l (closeFd s.fd opened) where
  fds := by
    intro t ht
    rcases h.tail.fd_cases ht with hfd | hfd | ⟨hpos, hmem⟩
    · exact Or.inl hfd
    · exact Or.inr (Or.inl hfd)
    · refine Or.inr (Or.inr (mem_closeFd_of_ne hmem ?_))
      intro heq
      have hneg := (List.pairwise_cons.mp h.distinct).1 t ht heq.symm
      omega
  opened := fun fd hfd => h.opened fd (mem_closeFd hfd)
  distinct := h.tail.distinct
  host := h.tail.host

/-- **A loop that closes** keeps the descriptors and their entries apart. -/
theorem Owned.forEach (hrel : Releases action op) {st : σ} (hown : Owned host l (op st))
    {r : List Server × σ} (h : forEachElement action l st = some r) : Owned host r.1 (op r.2) := by
  induction l generalizing st r with
  | nil =>
    rw [← Option.some.inj h]
    exact hown
  | cons s rest ih =>
    obtain ⟨q, r', hq, hr', rfl⟩ := forEachElement_cons h
    obtain ⟨hopen, hmem⟩ := forEach_frame hrel hr'
    rcases hrel s st q hq with ⟨hs, hop⟩ | ⟨hs, hop⟩
    · have hown' : Owned host r'.1 (op r'.2) := ih (hop.symm ▸ hown.tail) hr'
      have hother := (List.pairwise_cons.mp hown.distinct).1
      show Owned host (q.1 :: r'.1) (op r'.2)
      rw [hs]
      apply hown'.cons
      · rcases hown.fd_cases (List.mem_cons_self) with hfd | hfd | ⟨hpos, hfd⟩
        · exact Or.inl hfd
        · exact Or.inr (Or.inl hfd)
        · refine Or.inr (Or.inr (hopen s.fd (hop.symm ▸ hfd) ?_))
          intro t ht heq
          have hneg := hother t ht heq
          omega
      · intro t ht heq
        rcases hmem t ht with ht | ht
        · exact hother t ht heq
        · omega
      · exact hown.host s (by simp)
    · have hown' : Owned host r'.1 (op r'.2) := ih (hop.symm ▸ hown.close) hr'
      show Owned host (q.1 :: r'.1) (op r'.2)
      rw [hs]
      exact hown'.cons_neg (Or.inl rfl)

/-- **At every call the descriptor is open**, if every entry has one. -/
theorem eachCall_of_nonneg (hrel : Releases action op) {st : σ} (hown : Owned host l (op st))
    (hall : ∀ s ∈ l, 0 ≤ s.fd) :
    EachCall action (fun s st => 0 ≤ s.fd ∧ s.fd ∈ op st) l st := by
  induction l generalizing st with
  | nil => trivial
  | cons s rest ih =>
    have hs := hall s (by simp)
    refine ⟨⟨hs, ?_⟩, fun q hq => ih ?_ fun t ht => hall t (by simp [ht])⟩
    · rcases hown.fd_cases List.mem_cons_self with hfd | hfd | ⟨-, hfd⟩
      · omega
      · omega
      · exact hfd
    · rcases hrel s st q hq with ⟨-, hop⟩ | ⟨-, hop⟩
      · exact hop ▸ hown.tail
      · exact hop ▸ hown.close

/-- A loop that ends has called the action on every entry. -/
theorem nonneg_of_eachCall {st : σ} (htotal : ∃ r, forEachElement action l st = some r)
    (h : EachCall action (fun s st => 0 ≤ s.fd ∧ s.fd ∈ op st) l st) : ∀ s ∈ l, 0 ≤ s.fd := by
  induction l generalizing st with
  | nil => simp
  | cons s rest ih =>
    obtain ⟨r, hr⟩ := htotal
    obtain ⟨q, r', hq, hr', -⟩ := forEachElement_cons hr
    exact List.forall_mem_cons.mpr ⟨h.1.1, ih ⟨r', hr'⟩ (h.2 q hq)⟩

end Releases

/-! ### Connections to old servers -/

theorem joinToOldServer_of_not_due {s : Server} (h : isDue host s = false) (o : Outcome)
    (sent : Bool) : joinToOldServer host o s sent = some (s, sent) := by
  rw [joinToOldServer]
  split
  · rename_i hdiff
    have hfd : ¬s.fd = -2 := by simpa [isDue, hdiff] using h
    rw [connectToOldServer, if_neg hfd]
    cases sent <;> rfl
  · rfl

/-- A connection attempt that leaves the entry with the descriptor. -/
def Outcome.Succeeds (o : Outcome) (sent : Bool) : Prop :=
  o.opens = true ∧ (sent || o.sent) = true

instance (o : Outcome) (sent : Bool) : Decidable (Outcome.Succeeds o sent) :=
  inferInstanceAs (Decidable (o.opens = true ∧ (sent || o.sent) = true))

/-- The socket of the attempt is neither closed nor given to the entry. -/
def Outcome.Loses (o : Outcome) (isCommSent : Bool) : Prop :=
  o.resolved = false ∨ o.connected = true ∧ isCommSent = false ∧ o.sent = false

/-- What becomes of the socket of an attempt. -/
theorem attempt_cases {s : Server} (hdue : isDue host s = true) {o : Outcome} {isCommSent : Bool}
    {r : Server × Bool} (h : joinToOldServer host o s isCommSent = some r) :
    o.socketFd ≠ -1
      ∧ (o.resolved = true ∧ o.connected = true ∧ (isCommSent || o.sent) = true
          ∧ r = ({ s with fd := o.socketFd }, true)
        ∨ o.resolved = true ∧ o.connected = false ∧ r = ({ s with fd := -1 }, isCommSent)
        ∨ Outcome.Loses o isCommSent ∧ r.1 = { s with fd := -1 }) := by
  obtain ⟨hdiff, hfd⟩ : differentServers s host = true ∧ s.fd = -2 := by
    simpa [isDue] using hdue
  obtain ⟨fd, resolved, connected, written⟩ := o
  rw [joinToOldServer, if_pos hdiff, connectToOldServer, if_pos hfd] at h
  by_cases hsock : fd = -1
  · simp [hsock] at h
  · refine ⟨hsock, ?_⟩
    cases resolved <;> cases connected <;> cases written <;> cases isCommSent <;>
      simp [hsock, Outcome.Loses] at h ⊢ <;> simp [← h]

theorem Outcome.Loses.not_succeeds {o : Outcome} {sent : Bool} (h : Outcome.Loses o sent) :
    ¬Outcome.Succeeds o sent := by
  rintro ⟨hopens, hsent⟩
  simp only [Outcome.opens, Bool.and_eq_true] at hopens
  rcases h with hres | ⟨-, hfirst, hunsent⟩
  · exact Bool.noConfusion (hres.symm.trans hopens.1.2)
  · simp [hfirst, hunsent] at hsent

/-- **A connection attempt** gives the entry the descriptor of the socket, or -1. -/
theorem joinToOldServer_of_due {s : Server} (h : isDue host s = true) {o : Outcome} {sent : Bool}
    {r : Server × Bool} (hjoin : joinToOldServer host o s sent = some r) :
    (Outcome.Succeeds o sent ∧ r = ({ s with fd := o.socketFd }, true))
      ∨ (¬Outcome.Succeeds o sent ∧ r.1 = { s with fd := -1 }) := by
  obtain ⟨hsock, hcases⟩ := attempt_cases h hjoin
  rcases hcases with ⟨hres, hconn, hsent, hr⟩ | ⟨-, hconn, rfl⟩ | ⟨hloses, hr⟩
  · exact Or.inl ⟨⟨by simp [Outcome.opens, hsock, hres, hconn], hsent⟩, hr⟩
  · exact Or.inr ⟨fun hsucceeds => by simp [Outcome.Succeeds, Outcome.opens, hconn] at hsucceeds, rfl⟩
  · exact Or.inr ⟨hloses.not_succeeds, hr⟩

/-- A fatal error: the socket could not be created. -/
theorem socketFd_of_fatal {s : Server} {o : Outcome} {sent : Bool}
    (hjoin : joinToOldServer host o s sent = none) : o.socketFd = -1 := by
  by_contra hne
  have hsome : (joinToOldServer host o s sent).isSome = true := joinToOldServer_isSome hne sent
  rw [hjoin] at hsome
  exact Bool.noConfusion hsome

/-- A fatal error comes from an attempt, which opens nothing. -/
theorem joinToOldServer_eq_none {s : Server} {o : Outcome} {sent : Bool}
    (hjoin : joinToOldServer host o s sent = none) : isDue host s = true ∧ o.opens = false := by
  constructor
  · by_contra hno
    rw [Bool.not_eq_true] at hno
    rw [joinToOldServer_of_not_due hno] at hjoin
    exact Option.some_ne_none _ hjoin
  · have hsock : o.socketFd = -1 := socketFd_of_fatal hjoin
    simp [Outcome.opens, hsock]

theorem Owned.leaves (h : Owned host l opened) {o : Outcome} (hfresh : Fresh o.socketFd opened) :
    Owned host l (o.leaves opened) := by
  rw [Outcome.leaves]
  split
  · exact h
  · exact h.open hfresh

theorem mem_leaves {o : Outcome} {fd : ℤ} (h : fd ∈ opened) : fd ∈ o.leaves opened := by
  rw [Outcome.leaves]
  split
  · exact h
  · exact List.mem_cons_of_mem _ h

theorem Outcome.Succeeds.mem_leaves {o : Outcome} {sent : Bool} (h : Outcome.Succeeds o sent) :
    o.socketFd ∈ o.leaves opened := by
  have hopens := h.1
  simp only [Outcome.opens, Bool.and_eq_true] at hopens
  rw [Outcome.leaves, if_neg (by simp [hopens.2])]
  exact List.mem_cons_self

/-- What a loop of connections does to the entries and the descriptors. -/
structure Joined (host : Server) (l : List Server) (opened : List ℤ) (l' : List Server)
    (opened' : List ℤ) : Prop where
  owned : Owned host l' opened'
  keeps : ∀ fd ∈ opened, fd ∈ opened'
  entries : ∀ t ∈ l', t ∈ l ∨ t.fd = -1 ∨ 0 ≤ t.fd ∧ t.fd ∉ opened

/-- Descriptors that were open before stay open. -/
theorem Joined.weaken {before : List ℤ} {l' : List Server} {opened' : List ℤ}
    (h : Joined host l before l' opened') (hsub : ∀ fd ∈ opened, fd ∈ before) :
    Joined host l opened l' opened' where
  owned := h.owned
  keeps := fun fd hfd => h.keeps fd (hsub fd hfd)
  entries := by
    intro t ht
    rcases h.entries t ht with ht | ht | ⟨hpos, hnot⟩
    · exact Or.inl ht
    · exact Or.inr (Or.inl ht)
    · exact Or.inr (Or.inr ⟨hpos, fun hmem => hnot (hsub t.fd hmem)⟩)

/-- One more entry, which is kept, lost or connected. -/
theorem Joined.cons_entry {s s' : Server} {l' : List Server} {opened' : List ℤ}
    (h : Joined host l opened l' opened') (hown : Owned host (s' :: l') opened')
    (hs' : s' = s ∨ s'.fd = -1 ∨ 0 ≤ s'.fd ∧ s'.fd ∉ opened) :
    Joined host (s :: l) opened (s' :: l') opened' where
  owned := hown
  keeps := h.keeps
  entries := by
    intro t ht
    rcases List.mem_cons.mp ht with rfl | ht
    · rcases hs' with rfl | hs'
      · exact Or.inl List.mem_cons_self
      · exact Or.inr hs'
    · exact (h.entries t ht).imp_left (List.mem_cons_of_mem s)

/-- What `join_to_old_servers` does at its next entry. -/
inductive Attempted (host : Server) (outcome : ℕ → Outcome) (k : ℕ) (sent : Bool) (s : Server)
    (rest : List Server) (opened : List ℤ) : List Server × List ℤ × Bool → Prop where
  | fatal (hdue : isDue host s = true) (hopens : (outcome k).opens = false) :
      Attempted host outcome k sent s rest opened (s :: rest, opened, false)
  | connected (hdue : isDue host s = true) (hfresh : Fresh (outcome k).socketFd opened)
      (hsucceeds : Outcome.Succeeds (outcome k) sent) {r : List Server × List ℤ × Bool}
      (hrest : joinToOldServers host outcome (k + 1) true rest ((outcome k).leaves opened) = some r) :
      Attempted host outcome k sent s rest opened ({ s with fd := (outcome k).socketFd } :: r.1, r.2)
  | failed (hdue : isDue host s = true) (hfresh : Fresh (outcome k).socketFd opened)
      (hfails : ¬Outcome.Succeeds (outcome k) sent) {sent' : Bool} {r : List Server × List ℤ × Bool}
      (hrest : joinToOldServers host outcome (k + 1) sent' rest ((outcome k).leaves opened) = some r) :
      Attempted host outcome k sent s rest opened ({ s with fd := -1 } :: r.1, r.2)
  | skipped (hdue : isDue host s = false) {r : List Server × List ℤ × Bool}
      (hrest : joinToOldServers host outcome (k + 1) sent rest opened = some r) :
      Attempted host outcome k sent s rest opened (s :: r.1, r.2)

theorem attempted_of_join {outcome : ℕ → Outcome} {k : ℕ} {sent : Bool} {s : Server}
    {rest : List Server} {r : List Server × List ℤ × Bool}
    (h : joinToOldServers host outcome k sent (s :: rest) opened = some r) :
    Attempted host outcome k sent s rest opened r := by
  rw [joinToOldServers] at h
  split at h
  · rename_i hjoin
    obtain ⟨hdue, hopens⟩ := joinToOldServer_eq_none hjoin
    rw [← Option.some.inj h]
    exact .fatal hdue hopens
  · rename_i s' sent' hjoin
    split at h
    · rename_i hdue
      split at h
      · rename_i hfresh
        obtain ⟨r', hr', rfl⟩ := Option.map_eq_some_iff.mp h
        rcases joinToOldServer_of_due hdue hjoin with ⟨hsucceeds, hs'⟩ | ⟨hfails, hs'⟩
        · obtain ⟨rfl, rfl⟩ := Prod.mk.inj hs'
          exact .connected hdue hfresh hsucceeds hr'
        · have hs : s' = { s with fd := -1 } := hs'
          rw [hs]
          exact .failed hdue hfresh hfails hr'
      · simp at h
    · rename_i hdue
      rw [Bool.not_eq_true] at hdue
      obtain ⟨r', hr', rfl⟩ := Option.map_eq_some_iff.mp h
      rw [joinToOldServer_of_not_due hdue] at hjoin
      obtain ⟨rfl, rfl⟩ := Prod.mk.inj (Option.some.inj hjoin)
      exact .skipped hdue hr'

/-- **The loop of connections** keeps the descriptors and their entries apart. -/
theorem Owned.join {outcome : ℕ → Outcome} {k : ℕ} {sent : Bool}
    {r : List Server × List ℤ × Bool} (hown : Owned host l opened)
    (h : joinToOldServers host outcome k sent l opened = some r) :
    Joined host l opened r.1 r.2.1 := by
  induction l generalizing k sent opened r with
  | nil =>
    rw [← Option.some.inj h]
    exact ⟨hown, fun _ hfd => hfd, by simp⟩
  | cons s rest ih =>
    cases attempted_of_join h with
    | fatal hdue hopens => exact ⟨hown, fun _ hfd => hfd, fun t ht => Or.inl ht⟩
    | connected hdue hfresh hsucceeds hrest =>
      have hdiff : differentServers s host = true := (Bool.and_eq_true_iff.mp hdue).1
      have hleft : (outcome k).socketFd ∈ (outcome k).leaves opened := hsucceeds.mem_leaves
      have hjoined := ih (hown.tail.leaves hfresh) hrest
      refine (hjoined.weaken fun _ => mem_leaves).cons_entry ?_ (Or.inr (Or.inr hfresh))
      apply hjoined.owned.cons
      · exact Or.inr (Or.inr (hjoined.keeps _ hleft))
      · intro t ht heq
        rcases hjoined.entries t ht with hmem | hfd | ⟨-, hnot⟩
        · exact absurd heq (hown.tail.ne_of_fresh hfresh hmem)
        · have hpos := hfresh.1
          dsimp only at heq ⊢
          omega
        · exact absurd (heq ▸ hleft) hnot
      · intro hsame
        exact Bool.noConfusion (hdiff.symm.trans hsame)
    | failed hdue hfresh hfails hrest =>
      have hjoined := ih (hown.tail.leaves hfresh) hrest
      exact (hjoined.weaken fun _ => mem_leaves).cons_entry
        (hjoined.owned.cons_neg (Or.inl rfl)) (Or.inr (Or.inl rfl))
    | skipped hdue hrest =>
      have hjoined := ih hown.tail hrest
      refine hjoined.cons_entry ?_ (Or.inl rfl)
      apply hjoined.owned.cons
      · rcases hown.fds s (by simp) with hfd | hfd | hfd
        · exact Or.inl hfd
        · exact Or.inr (Or.inl hfd)
        · exact Or.inr (Or.inr (hjoined.keeps s.fd hfd))
      · intro t ht heq
        rcases hjoined.entries t ht with hmem | hfd | ⟨hpos, hnot⟩
        · exact (List.pairwise_cons.mp hown.distinct).1 t hmem heq
        · omega
        · rcases hown.fd_cases List.mem_cons_self with hneg | hneg | ⟨-, hmem⟩
          · omega
          · omega
          · exact absurd (heq ▸ hmem) hnot
      · exact hown.host s (by simp)

/-- Every entry that is not connected yet is another server, and the attempt succeeds; the first one
also sends the request for the messages. -/
def Connects (host : Server) (outcome : ℕ → Outcome) : ℕ → Bool → List Server → Prop
  | _, _, [] => True
  | k, sent, s :: rest =>
      if s.fd = -2 then
        differentServers s host = true ∧ Outcome.Succeeds (outcome k) sent
          ∧ Connects host outcome (k + 1) true rest
      else Connects host outcome (k + 1) sent rest

instance Connects.decidable (host : Server) (outcome : ℕ → Outcome) :
    (k : ℕ) → (sent : Bool) → (l : List Server) → Decidable (Connects host outcome k sent l)
  | _, _, [] => isTrue trivial
  | k, sent, s :: rest =>
      haveI := Connects.decidable host outcome (k + 1) true rest
      haveI := Connects.decidable host outcome (k + 1) sent rest
      inferInstanceAs (Decidable (if s.fd = -2 then differentServers s host = true
        ∧ Outcome.Succeeds (outcome k) sent ∧ Connects host outcome (k + 1) true rest
        else Connects host outcome (k + 1) sent rest))

/-- **After the loop every entry has a descriptor** exactly if every attempt succeeds, and none was
lost before. -/
theorem nonneg_join_iff {outcome : ℕ → Outcome} {k : ℕ} {sent : Bool}
    {r : List Server × List ℤ × Bool} (hown : Owned host l opened)
    (h : joinToOldServers host outcome k sent l opened = some r) :
    (∀ t ∈ r.1, 0 ≤ t.fd) ↔ (∀ s ∈ l, s.fd ≠ -1) ∧ Connects host outcome k sent l := by
  induction l generalizing k sent opened r with
  | nil =>
    rw [← Option.some.inj h]
    simp [Connects]
  | cons s rest ih =>
    rw [Connects, List.forall_mem_cons]
    cases attempted_of_join h with
    | fatal hdue hopens =>
      have hfd : s.fd = -2 := by simpa using (Bool.and_eq_true_iff.mp hdue).2
      rw [if_pos hfd]
      apply iff_of_false
      · intro hall
        have hs := hall s (by simp)
        omega
      · intro hconn
        have hsucceeds := hconn.2.2.1.1
        rw [hopens] at hsucceeds
        exact Bool.noConfusion hsucceeds
    | connected hdue hfresh hsucceeds hrest =>
      obtain ⟨hdiff, hmark⟩ := Bool.and_eq_true_iff.mp hdue
      have hfd : s.fd = -2 := by simpa using hmark
      rw [if_pos hfd, List.forall_mem_cons, ih (hown.tail.leaves hfresh) hrest, and_iff_right hdiff,
        and_iff_right hsucceeds, hfd]
      simp [hfresh.1]
    | failed hdue hfresh hfails hrest =>
      have hfd : s.fd = -2 := by simpa using (Bool.and_eq_true_iff.mp hdue).2
      rw [if_pos hfd]
      apply iff_of_false
      · intro hall
        simpa using hall _ List.mem_cons_self
      · intro hconn
        exact hfails hconn.2.2.1
    | skipped hdue hrest =>
      rw [List.forall_mem_cons, ih hown.tail hrest]
      rcases hown.fd_cases List.mem_cons_self with hfd | hfd | ⟨hpos, -⟩
      · simp [hfd]
      · have hsame : differentServers s host = false := by simpa [isDue, hfd] using hdue
        simp [hfd, hsame]
      · have hlost : s.fd ≠ -1 := by omega
        have hmark : s.fd ≠ -2 := by omega
        simp [hpos, hlost, hmark]

/-! ### The stages of a turn -/

theorem owned_purge_accept (hhost : host.udpPort ≠ 0) {p p' : Peers}
    {accepted : Option (ℤ × Text × ℕ)} (hown : Owned host p.msgsrvList p.opened)
    (h : (p.purge host).accept accepted = some p') : Owned host p'.msgsrvList p'.opened := by
  rw [purge_eq hown] at h
  have hkept := hown.sublist (removeBadServers_sublist host p.msgsrvList)
  rcases accept_cases h with rfl | ⟨s, hfresh, hudp, rfl⟩
  · exact hkept
  · exact hkept.cons_fresh hfresh (different_of_udpPort hhost hudp)

/-- The entries of a list that was read are put in front, without connections. -/
theorem owned_parseServers {received : Option Text} {l' : List Server} {code : ℕ}
    (hown : Owned host l opened) (h : parseServers received l = some (code, l')) :
    Owned host l' opened := by
  obtain ⟨new, hnew, rfl, -⟩ := parseServers_eq h
  clear h
  induction new with
  | nil => exact hown
  | cons s new ih =>
    have hs := hnew s (by simp)
    exact (ih fun t ht => hnew t (by simp [ht])).cons_neg (Or.inr hs)

theorem owned_handleJoin {j : Join} {p : Peers} {r : ℕ × Peers}
    (hown : Owned host p.msgsrvList p.opened) (h : handleJoin host j p = some r) :
    Owned host r.2.msgsrvList r.2.opened := by
  rw [handleJoin] at h
  split at h
  · rw [← Option.some.inj h]
    exact hown
  · obtain ⟨⟨code, l'⟩, hparse, h⟩ := Option.bind_eq_some_iff.mp h
    have hread := owned_parseServers hown hparse
    split at h
    · rw [← Option.some.inj h]
      exact hread
    · obtain ⟨q, hq, hr⟩ := Option.map_eq_some_iff.mp h
      rw [← hr]
      exact (hread.join hq).owned

theorem owned_handleLine {line : Option Line} {isJoinComplete : Bool} {p : Peers}
    {r : Peers × Bool × Bool} (hown : Owned host p.msgsrvList p.opened)
    (h : handleLine host line isJoinComplete p = some r) :
    Owned host r.1.msgsrvList r.1.opened := by
  obtain _ | ⟨j⟩ | _ | _ := line
  · exact Option.some.inj h ▸ hown
  · rw [handleLine] at h
    split at h
    · exact Option.some.inj h ▸ hown
    · obtain ⟨q, hq, hr⟩ := Option.map_eq_some_iff.mp h
      rw [← hr]
      exact owned_handleJoin hown hq
  · exact Option.some.inj h ▸ hown
  · exact Option.some.inj h ▸ hown

theorem owned_handleDatagram {t : Turn} {b : Board} {p : Peers} {r : Board × Peers}
    (hown : Owned host p.msgsrvList p.opened) (h : handleDatagram t b p = some r) :
    Owned host r.2.msgsrvList r.2.opened := by
  rw [handleDatagram] at h
  split at h
  · exact Option.some.inj h ▸ hown
  · obtain ⟨c, -, h⟩ := Option.bind_eq_some_iff.mp h
    split at h
    · obtain ⟨q, hq, hr⟩ := Option.map_eq_some_iff.mp h
      rw [← hr]
      exact Owned.forEach (releases_sendToServer t.writes) hown hq
    · exact Option.some.inj h ▸ hown

/-- The stages of a turn, one after the other. -/
theorem beforeTreat_cases {s s₁ : MsgservLoop} {t : Turn} (h : beforeTreat host s t = some s₁) :
    ∃ p l d, (s.peers.purge host).accept (if s.isJoinComplete then t.accepted else none) = some p
      ∧ handleLine host t.line s.isJoinComplete p = some l
      ∧ (if s.isJoinComplete then handleDatagram t s.board l.1 else some (s.board, l.1)) = some d
      ∧ s₁.board = d.1 ∧ s₁.peers = d.2 := by
  rw [beforeTreat] at h
  split at h
  · simp at h
  · obtain ⟨p, hp, h⟩ := Option.bind_eq_some_iff.mp h
    obtain ⟨l, hl, h⟩ := Option.bind_eq_some_iff.mp h
    obtain ⟨d, hd, rfl⟩ := Option.map_eq_some_iff.mp h
    exact ⟨p, l, d, hp, hl, hd, rfl, rfl⟩

theorem owned_beforeTreat (hhost : host.udpPort ≠ 0) {s s₁ : MsgservLoop} {t : Turn}
    (hown : Owned host s.peers.msgsrvList s.peers.opened) (h : beforeTreat host s t = some s₁) :
    Owned host s₁.peers.msgsrvList s₁.peers.opened := by
  obtain ⟨p, l, d, hp, hl, hd, -, hpeers⟩ := beforeTreat_cases h
  have hl' := owned_handleLine (owned_purge_accept hhost hown hp) hl
  rw [hpeers]
  split at hd
  · exact owned_handleDatagram hl' hd
  · exact Option.some.inj hd ▸ hl'

/-- **Every descriptor in the list is open, and has one entry**, after any turn. -/
theorem owned_turn (hhost : host.udpPort ≠ 0) {s s' : MsgservLoop} {t : Turn}
    (hown : Owned host s.peers.msgsrvList s.peers.opened) (h : turn host s t = some s') :
    Owned host s'.peers.msgsrvList s'.peers.opened := by
  obtain ⟨s₁, h₁, h⟩ := Option.bind_eq_some_iff.mp h
  obtain ⟨r, hr, rfl⟩ := Option.map_eq_some_iff.mp h
  have hown₁ := owned_beforeTreat hhost hown h₁
  exact @Owned.forEach host _ _ _ Treated.opened (releases_treatServer t.reading)
    ⟨s₁.board, s₁.peers.opened⟩ hown₁ r hr

theorem owned_start {board : Board} {daemonMode : Option Join} {s : MsgservLoop}
    (h : MsgservLoop.start host board daemonMode = some s) :
    Owned host s.peers.msgsrvList s.peers.opened := by
  cases daemonMode with
  | none =>
    rw [← Option.some.inj h]
    exact Owned.nil host
  | some j =>
    obtain ⟨r, hr, rfl⟩ := Option.map_eq_some_iff.mp h
    exact owned_handleJoin (Owned.nil host) hr

/-! ### Which turns are safe -/

/-- No entry is left without a connection by a join of this turn, or by an earlier one. -/
def LineSafe (host : Server) (line : Option Line) (isJoinComplete : Bool) (p : Peers) : Prop :=
  match line with
  | some (.join j) =>
      if isJoinComplete = true ∨ j.registered = false then ∀ s ∈ p.msgsrvList, s.fd ≠ -2
      else ∀ r, parseServers j.received p.msgsrvList = some r →
        if r.1 ≠ 0 then ∀ s ∈ r.2, s.fd ≠ -2 else Connects host j.outcome 0 false r.2
  | _ => ∀ s ∈ p.msgsrvList, s.fd ≠ -2

instance (host : Server) (isJoinComplete : Bool) (p : Peers) :
    (line : Option Line) → Decidable (LineSafe host line isJoinComplete p)
  | some (.join j) => inferInstanceAs (Decidable
      (if isJoinComplete = true ∨ j.registered = false then ∀ s ∈ p.msgsrvList, s.fd ≠ -2
      else ∀ r ∈ parseServers j.received p.msgsrvList,
        if r.1 ≠ 0 then ∀ s ∈ r.2, s.fd ≠ -2 else Connects host j.outcome 0 false r.2))
  | some .exit => inferInstanceAs (Decidable (∀ s ∈ p.msgsrvList, s.fd ≠ -2))
  | some .other => inferInstanceAs (Decidable (∀ s ∈ p.msgsrvList, s.fd ≠ -2))
  | none => inferInstanceAs (Decidable (∀ s ∈ p.msgsrvList, s.fd ≠ -2))

/-- No write of a message that is shared fails. -/
def DatagramSafe (t : Turn) (b : Board) (p : Peers) : Prop :=
  ∀ datagram r, t.datagram = some datagram → handleClientComms t.sent b datagram = some r → r.err = 2 →
    ∀ s ∈ p.msgsrvList, t.writes s.fd = true

instance (t : Turn) (b : Board) (p : Peers) : Decidable (DatagramSafe t b p) :=
  decidable_of_iff (∀ datagram ∈ t.datagram, ∀ r ∈ handleClientComms t.sent b datagram, r.err = 2 →
      ∀ s ∈ p.msgsrvList, t.writes s.fd = true)
    ⟨fun h datagram r hd hr => h datagram hd r hr, fun h datagram hd r hr => h datagram r hd hr⟩

/-- The purge finds no two bad entries next to each other, a join connects to every entry, and every
message shared is written to all. -/
structure Safe (host : Server) (s : MsgservLoop) (t : Turn) : Prop where
  apart : Apart host s.peers.msgsrvList
  line : ∀ p, (s.peers.purge host).accept (if s.isJoinComplete then t.accepted else none) = some p →
    LineSafe host t.line s.isJoinComplete p
  datagram : ∀ p l, (s.peers.purge host).accept (if s.isJoinComplete then t.accepted else none) = some p →
    handleLine host t.line s.isJoinComplete p = some l → s.isJoinComplete = true →
      DatagramSafe t s.board l.1

instance (host : Server) (s : MsgservLoop) (t : Turn) : Decidable (Safe host s t) :=
  let accepted := if s.isJoinComplete then t.accepted else none
  decidable_of_iff (Apart host s.peers.msgsrvList
      ∧ (∀ p ∈ (s.peers.purge host).accept accepted, LineSafe host t.line s.isJoinComplete p)
      ∧ ∀ p ∈ (s.peers.purge host).accept accepted,
        ∀ l ∈ handleLine host t.line s.isJoinComplete p, s.isJoinComplete = true →
          DatagramSafe t s.board l.1)
    ⟨fun h => ⟨h.1, h.2.1, fun p l hp hl => h.2.2 p hp l hl⟩,
      fun h => ⟨h.apart, h.line, fun p hp l hl => h.datagram p l hp hl⟩⟩

/-- At every call of `server_treat_communications` the descriptor of the entry is open. -/
def Polled (host : Server) (s : MsgservLoop) (t : Turn) : Prop :=
  ∀ s₁, beforeTreat host s t = some s₁ →
    EachCall (treatServer t.reading) (fun e st => 0 ≤ e.fd ∧ e.fd ∈ st.opened) s₁.peers.msgsrvList
      ⟨s₁.board, s₁.peers.opened⟩

/-! ### What a stage leaves -/

theorem Owned.nonneg_iff (h : Owned host l opened) :
    (∀ s ∈ l, 0 ≤ s.fd) ↔ (∀ s ∈ l, s.fd ≠ -1) ∧ ∀ s ∈ l, s.fd ≠ -2 := by
  constructor
  · intro hall
    exact ⟨fun s hs => by have := hall s hs; omega, fun s hs => by have := hall s hs; omega⟩
  · rintro ⟨hlost, hmark⟩ s hs
    rcases h.fd_cases hs with hfd | hfd | ⟨hpos, -⟩
    · exact absurd hfd (hlost s hs)
    · exact absurd hfd (hmark s hs)
    · exact hpos

/-- Entries that are read are not lost. -/
theorem lost_parseServers_iff {received : Option Text} {l' : List Server} {code : ℕ}
    (h : parseServers received l = some (code, l')) :
    (∀ s ∈ l', s.fd ≠ -1) ↔ ∀ s ∈ l, s.fd ≠ -1 := by
  obtain ⟨new, hnew, rfl, -⟩ := parseServers_eq h
  constructor
  · exact fun hall s hs => hall s (List.mem_append_right new hs)
  · intro hall s hs
    rcases List.mem_append.mp hs with hs | hs
    · rw [hnew s hs]
      omega
    · exact hall s hs

theorem nonneg_handleJoin_iff {j : Join} {p : Peers} {r : ℕ × Peers} {isJoinComplete : Bool}
    (hjoin : isJoinComplete = false) (hown : Owned host p.msgsrvList p.opened)
    (h : handleJoin host j p = some r) :
    (∀ s ∈ r.2.msgsrvList, 0 ≤ s.fd)
      ↔ (∀ s ∈ p.msgsrvList, s.fd ≠ -1) ∧ LineSafe host (some (.join j)) isJoinComplete p := by
  rw [handleJoin] at h
  rw [LineSafe, hjoin]
  cases hreg : j.registered with
  | false =>
    rw [hreg] at h
    rw [← Option.some.inj h, if_pos (Or.inr rfl)]
    exact hown.nonneg_iff
  | true =>
    rw [hreg] at h
    obtain ⟨⟨code, l'⟩, hparse, h⟩ := Option.bind_eq_some_iff.mp h
    have hread := owned_parseServers hown hparse
    have hlost := lost_parseServers_iff hparse
    have honly : ∀ {Q : ℕ × List Server → Prop},
        (∀ q, parseServers j.received p.msgsrvList = some q → Q q) ↔ Q (code, l') := by
      intro Q
      rw [hparse]
      exact ⟨fun hall => hall _ rfl, fun hq q heq => Option.some.inj heq ▸ hq⟩
    rw [if_neg (by simp), honly, ← hlost]
    split at h
    · rename_i hcode
      rw [← Option.some.inj h, if_pos hcode]
      exact hread.nonneg_iff
    · rename_i hcode
      obtain ⟨q, hq, rfl⟩ := Option.map_eq_some_iff.mp h
      rw [if_neg hcode]
      exact nonneg_join_iff hread hq

theorem nonneg_handleLine_iff {line : Option Line} {isJoinComplete : Bool} {p : Peers}
    {r : Peers × Bool × Bool} (hown : Owned host p.msgsrvList p.opened)
    (h : handleLine host line isJoinComplete p = some r) :
    (∀ s ∈ r.1.msgsrvList, 0 ≤ s.fd)
      ↔ (∀ s ∈ p.msgsrvList, s.fd ≠ -1) ∧ LineSafe host line isJoinComplete p := by
  obtain _ | ⟨j⟩ | _ | _ := line
  · exact Option.some.inj h ▸ hown.nonneg_iff
  · rw [handleLine] at h
    split at h
    · rename_i hjoin
      rw [← Option.some.inj h, LineSafe, if_pos (Or.inl hjoin)]
      exact hown.nonneg_iff
    · rename_i hjoin
      obtain ⟨q, hq, rfl⟩ := Option.map_eq_some_iff.mp h
      exact nonneg_handleJoin_iff (by simpa using hjoin) hown hq
  · exact Option.some.inj h ▸ hown.nonneg_iff
  · exact Option.some.inj h ▸ hown.nonneg_iff

theorem nonneg_send_iff {writes : ℤ → Bool} {r : List Server × List ℤ}
    (hown : Owned host l opened) (h : forEachElement (sendToServer writes) l opened = some r) :
    (∀ s ∈ r.1, 0 ≤ s.fd) ↔ (∀ s ∈ l, 0 ≤ s.fd) ∧ ∀ s ∈ l, writes s.fd = true := by
  induction l generalizing opened r with
  | nil =>
    rw [← Option.some.inj h]
    simp
  | cons s rest ih =>
    obtain ⟨q, r', hq, hr', rfl⟩ := forEachElement_cons h
    rw [sendToServer] at hq
    split at hq
    · rename_i hsent
      rw [← Option.some.inj hq] at hr' ⊢
      rw [List.forall_mem_cons, List.forall_mem_cons, List.forall_mem_cons, ih hown.tail hr',
        and_iff_right hsent.2, and_assoc]
    · rename_i hfails
      rw [← Option.some.inj hq]
      refine iff_of_false ?_ fun hall => hfails ?_
      · intro hall
        have hlost : (0 : ℤ) ≤ -1 := hall _ List.mem_cons_self
        omega
      · rcases hown.fd_cases List.mem_cons_self with hfd | hfd | ⟨-, hfd⟩
        · have hs := hall.1 s (by simp)
          omega
        · have hs := hall.1 s (by simp)
          omega
        · exact ⟨hfd, hall.2 s (by simp)⟩

theorem nonneg_handleDatagram_iff {t : Turn} {b : Board} {p : Peers} {r : Board × Peers}
    (hown : Owned host p.msgsrvList p.opened) (h : handleDatagram t b p = some r) :
    (∀ s ∈ r.2.msgsrvList, 0 ≤ s.fd)
      ↔ (∀ s ∈ p.msgsrvList, 0 ≤ s.fd) ∧ DatagramSafe t b p := by
  rw [handleDatagram] at h
  split at h
  · rename_i hnone
    rw [← Option.some.inj h]
    refine (and_iff_left ?_).symm
    intro datagram c heq
    rw [hnone] at heq
    exact absurd heq (by simp)
  · rename_i datagram hsome
    obtain ⟨c, hc, h⟩ := Option.bind_eq_some_iff.mp h
    have honly : DatagramSafe t b p ↔ (c.err = 2 → ∀ s ∈ p.msgsrvList, t.writes s.fd = true) := by
      constructor
      · exact fun hsafe => hsafe datagram c hsome hc
      · intro hsafe d c' hd hc'
        obtain rfl : datagram = d := Option.some.inj (hsome.symm.trans hd)
        obtain rfl : c = c' := Option.some.inj (hc.symm.trans hc')
        exact hsafe
    rw [honly]
    split at h
    · rename_i herr
      obtain ⟨q, hq, rfl⟩ := Option.map_eq_some_iff.mp h
      rw [nonneg_send_iff hown hq]
      simp [herr]
    · rename_i herr
      rw [← Option.some.inj h]
      exact (and_iff_left fun heq => absurd heq herr).symm

theorem different_of_connects {outcome : ℕ → Outcome} {k : ℕ} {sent : Bool}
    (h : Connects host outcome k sent l) : ∀ s ∈ l, s.fd = -2 → differentServers s host = true := by
  induction l generalizing k sent with
  | nil => simp
  | cons s rest ih =>
    rw [Connects] at h
    split at h
    · exact List.forall_mem_cons.mpr ⟨fun _ => h.1, ih h.2.2⟩
    · rename_i hfd
      exact List.forall_mem_cons.mpr ⟨fun heq => absurd heq hfd, ih h⟩

/-- After a safe line no entry with the address of the host is left. -/
theorem different_of_lineSafe {line : Option Line} {isJoinComplete : Bool} {p : Peers}
    {r : Peers × Bool × Bool} (h : handleLine host line isJoinComplete p = some r)
    (hsafe : LineSafe host line isJoinComplete p) :
    ∀ s ∈ p.msgsrvList, s.fd = -2 → differentServers s host = true := by
  obtain _ | ⟨j⟩ | _ | _ := line
  · exact fun s hs heq => absurd heq (hsafe s hs)
  · rw [LineSafe] at hsafe
    split at hsafe
    · exact fun s hs heq => absurd heq (hsafe s hs)
    · rename_i hjoin
      rw [not_or, Bool.not_eq_true, Bool.not_eq_false] at hjoin
      rw [handleLine, if_neg (by simp [hjoin.1]), handleJoin, if_neg (by simp [hjoin.2])] at h
      obtain ⟨q, hq, -⟩ := Option.map_eq_some_iff.mp h
      obtain ⟨⟨code, l'⟩, hparse, -⟩ := Option.bind_eq_some_iff.mp hq
      have hread := hsafe (code, l') hparse
      obtain ⟨new, -, rfl, -⟩ := parseServers_eq hparse
      split at hread
      · exact fun s hs heq => absurd heq (hread s (List.mem_append_right new hs))
      · exact fun s hs => different_of_connects hread s (List.mem_append_right new hs)
  · exact fun s hs heq => absurd heq (hsafe s hs)
  · exact fun s hs heq => absurd heq (hsafe s hs)

/-- What was not purged is lost, if it is not the host. -/
theorem lost_iff_apart (hhost : host.udpPort ≠ 0) {p p' : Peers}
    {accepted : Option (ℤ × Text × ℕ)} (hown : Owned host p.msgsrvList p.opened)
    (h : (p.purge host).accept accepted = some p')
    (hdiff : ∀ s ∈ p'.msgsrvList, s.fd = -2 → differentServers s host = true) :
    (∀ s ∈ p'.msgsrvList, s.fd ≠ -1) ↔ Apart host p.msgsrvList := by
  have hown' := owned_purge_accept hhost hown h
  have hbad : ∀ s ∈ p'.msgsrvList, isBad host s = false ↔ s.fd ≠ -1 := by
    intro s hs
    rw [isBad, Bool.or_eq_false_iff, Bool.not_eq_false', beq_eq_false_iff_ne]
    apply and_iff_left_of_imp
    intro hfd
    by_contra hsame
    rw [Bool.not_eq_true] at hsame
    have hneg := hown'.host s hs hsame
    rcases hown'.fd_cases hs with hlost | hmark | ⟨hpos, -⟩
    · exact hfd hlost
    · rw [hdiff s hs hmark] at hsame
      exact Bool.noConfusion hsame
    · omega
  rw [← removeBadServers_iff, ← forall₂_congr hbad]
  rw [purge_eq hown] at h
  rcases accept_cases h with rfl | ⟨s, hfresh, hudp, rfl⟩
  · exact Iff.rfl
  · have hgood : isBad host s = false := by
      have hpos := hfresh.1
      rw [hbad s (by simp)]
      omega
    rw [List.forall_mem_cons, and_iff_right hgood]

/-- **One turn**: every entry has a descriptor at the poll exactly if the turn is safe. -/
theorem nonneg_beforeTreat_iff (hhost : host.udpPort ≠ 0) {s s₁ : MsgservLoop} {t : Turn}
    (hown : Owned host s.peers.msgsrvList s.peers.opened) (h : beforeTreat host s t = some s₁) :
    (∀ e ∈ s₁.peers.msgsrvList, 0 ≤ e.fd) ↔ Safe host s t := by
  obtain ⟨p, l, d, hp, hl, hd, -, hpeers⟩ := beforeTreat_cases h
  have hownp := owned_purge_accept hhost hown hp
  have hownl := owned_handleLine hownp hl
  have hdatagram : (∀ e ∈ d.2.msgsrvList, 0 ≤ e.fd)
      ↔ (∀ e ∈ l.1.msgsrvList, 0 ≤ e.fd) ∧ (s.isJoinComplete = true → DatagramSafe t s.board l.1) := by
    split at hd
    · rename_i hjoin
      rw [nonneg_handleDatagram_iff hownl hd]
      simp [hjoin]
    · rename_i hjoin
      rw [← Option.some.inj hd]
      simp [hjoin]
  have hapart := lost_iff_apart hhost hown hp
  rw [hpeers, hdatagram, nonneg_handleLine_iff hownp hl]
  constructor
  · rintro ⟨⟨hlost, hline⟩, hshare⟩
    refine ⟨(hapart (different_of_lineSafe hl hline)).mp hlost, ?_, ?_⟩
    · intro p' hp'
      rw [hp] at hp'
      exact Option.some.inj hp' ▸ hline
    · intro p' l' hp' hl' hjoin
      rw [hp] at hp'
      obtain rfl := Option.some.inj hp'
      rw [hl] at hl'
      exact Option.some.inj hl' ▸ hshare hjoin
  · rintro ⟨hpurge, hline, hshare⟩
    have hsafe := hline p hp
    exact ⟨⟨(hapart (different_of_lineSafe hl hsafe)).mpr hpurge, hsafe⟩, hshare p l hp hl⟩

/-! ### Runs -/

theorem polled_of_safe (hhost : host.udpPort ≠ 0) {s : MsgservLoop} {t : Turn}
    (hown : Owned host s.peers.msgsrvList s.peers.opened) (hsafe : Safe host s t) :
    Polled host s t := by
  intro s₁ h₁
  have hown₁ := owned_beforeTreat hhost hown h₁
  have hall := (nonneg_beforeTreat_iff hhost hown h₁).mpr hsafe
  exact @eachCall_of_nonneg host _ _ _ Treated.opened (releases_treatServer t.reading)
    ⟨s₁.board, s₁.peers.opened⟩ hown₁ hall

theorem safe_of_polled (hhost : host.udpPort ≠ 0) {s s' : MsgservLoop} {t : Turn}
    (hown : Owned host s.peers.msgsrvList s.peers.opened) (h : turn host s t = some s')
    (hpolled : Polled host s t) : Safe host s t := by
  obtain ⟨s₁, h₁, h⟩ := Option.bind_eq_some_iff.mp h
  obtain ⟨r, hr, -⟩ := Option.map_eq_some_iff.mp h
  exact (nonneg_beforeTreat_iff hhost hown h₁).mp (nonneg_of_eachCall ⟨r, hr⟩ (hpolled s₁ h₁))

/-- **Only open descriptors are polled** in a run of safe turns, and in no other run that ends all
its turns.  The program does not start without a UDP port. -/
theorem polled_iff (hhost : host.udpPort ≠ 0) {board : Board} {daemonMode : Option Join}
    {s₀ : MsgservLoop} (hstart : MsgservLoop.start host board daemonMode = some s₀)
    (ts : List Turn) :
    (Meets (turn host) (Safe host) s₀ ts → Meets (turn host) (Polled host) s₀ ts)
      ∧ ∀ s, run (turn host) s₀ ts = some s →
        (Meets (turn host) (Polled host) s₀ ts ↔ Meets (turn host) (Safe host) s₀ ts) := by
  have hown := owned_start hstart
  have hkeeps : ∀ s t s', Owned host s.peers.msgsrvList s.peers.opened → turn host s t = some s' →
      Owned host s'.peers.msgsrvList s'.peers.opened := fun s t s' hs h => owned_turn hhost hs h
  have hsafe : Meets (turn host) (Safe host) s₀ ts → Meets (turn host) (Polled host) s₀ ts :=
    meets_mono_of_invariant hkeeps (fun s t hs => polled_of_safe hhost hs) hown
  refine ⟨hsafe, fun s hrun => ⟨?_, hsafe⟩⟩
  intro hpolled
  exact meets_mono_of_run hkeeps (fun s t s' hs h => safe_of_polled hhost hs h) hown hrun hpolled

def boardHost : Server := .new (ascii "board") (ascii "10.0.0.1") 9000 10000

/-- A turn in which nothing happens. -/
def idle : Turn := ⟨none, none, none, true, fun _ => true, fun _ => none⟩

/-- The id server lists the host, and a server that is gone. -/
def staleJoin : Join where
  registered := true
  received := some (serversText [boardHost, .new (ascii "old") (ascii "10.0.0.2") 9000 10000])
  outcome := fun _ => ⟨5, true, false, false⟩

def emptyBoard : Board := ⟨0, .createMatrix 2 (by decide) false⟩

/-- The id server lists the host, and a server that is there. -/
def liveJoin : Join where
  registered := true
  received := some (serversText [.new (ascii "old") (ascii "10.0.0.2") 9000 10000, boardHost])
  outcome := fun _ => ⟨7, true, true, true⟩

/-- A server connects, a message is shared with it and with the one that was joined, both send a line,
and the one that was joined closes its connection. -/
def peersTurn : Turn where
  accepted := some (8, ascii "10.0.0.3", 40000)
  line := none
  datagram := some (ascii "PUBLISH hi")
  sent := true
  writes := fun _ => true
  reading := fun fd => some ⟨[ascii "SMESSAGES\n3;a\n"], fd == 7, fun _ => true⟩

/-- The turn polls two connections, and the next turn the one that is left. -/
theorem polled_iff_peers : ∃ s₀ s,
    MsgservLoop.start boardHost emptyBoard (some liveJoin) = some s₀
      ∧ (beforeTreat boardHost s₀ peersTurn).map (fun s => s.peers.msgsrvList.map Server.fd)
        = some [8, 7]
      ∧ run (turn boardHost) s₀ [peersTurn, { peersTurn with accepted := none }] = some s
      ∧ s.peers.msgsrvList.map Server.fd = [8]
      ∧ Meets (turn boardHost) (Polled boardHost) s₀ [peersTurn, { peersTurn with accepted := none }] := by
  have hall : (MsgservLoop.start boardHost emptyBoard (some liveJoin)).any (fun s₀ =>
      (run (turn boardHost) s₀ [peersTurn, { peersTurn with accepted := none }]).any fun s => decide
        ((beforeTreat boardHost s₀ peersTurn).map (fun s => s.peers.msgsrvList.map Server.fd)
            = some [8, 7]
          ∧ s.peers.msgsrvList.map Server.fd = [8]
          ∧ Meets (turn boardHost) (Safe boardHost) s₀
            [peersTurn, { peersTurn with accepted := none }])) = true := by
    decide +kernel
  obtain ⟨s₀, hstart, hloop⟩ := (Option.any_eq_true _ _).mp hall
  obtain ⟨s, hrun, hfacts⟩ := (Option.any_eq_true _ _).mp hloop
  obtain ⟨hpolled, hleft, hsafe⟩ := of_decide_eq_true hfacts
  exact ⟨s₀, s, hstart, hpolled, hrun, hleft,
    ((polled_iff (by decide) hstart [peersTurn, { peersTurn with accepted := none }]).2 s hrun).mpr
      hsafe⟩

/-- **The entry of the host is polled**: the purge removes the one before it, and passes over it. -/
theorem host_polled : ∃ s s₁, MsgservLoop.start boardHost emptyBoard (some staleJoin) = some s
    ∧ beforeTreat boardHost s idle = some s₁ ∧ s₁.peers.msgsrvList.map Server.fd = [-2]
    ∧ ¬Polled boardHost s idle := by
  have hrun : (MsgservLoop.start boardHost emptyBoard (some staleJoin)).any (fun s =>
      (beforeTreat boardHost s idle).any fun s₁ =>
        decide (s₁.peers.msgsrvList.map Server.fd = [-2])) = true := by
    decide +kernel
  obtain ⟨s, hs, hturn⟩ := (Option.any_eq_true _ _).mp hrun
  obtain ⟨s₁, h₁, hfd⟩ := (Option.any_eq_true _ _).mp hturn
  have hfds := of_decide_eq_true hfd
  refine ⟨s, s₁, hs, h₁, hfds, ?_⟩
  intro hpolled
  obtain ⟨e, hlist, hmark⟩ := List.map_eq_singleton_iff.mp hfds
  have hcalls := hpolled s₁ h₁
  rw [hlist] at hcalls
  have hpos := hcalls.1.1
  rw [hmark] at hpos
  omega

end PolledDescriptors

end MessageBoard
