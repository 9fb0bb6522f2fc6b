import MessageBoard.JoinDuplicates
import MessageBoard.ServerLog

/-!
# When all servers have the same messages

Servers that join while nothing is published are connected each with each other.  What is published
after that, with no server joining any more and no `SGET_MESSAGES` of a join left to be answered, reaches
all of them.  A message without a text is stored at its own server only, and does not count.

* `meshed_run` — two servers that joined have a connection, accepted or not;
* `published_everywhere` — with all connections accepted, a publication is written to everybody;
* `all_agree` — **once nothing is in flight, every server stores every message, once**;
* `read_is_published` — **what a client reads anywhere was published somewhere**, at any time.
-/

namespace MessageBoard

open CText CScan Run Channel JoinPropagation JoinDuplicates BoundedLog ReplyWindow

namespace Agreement

/-! ### The capacity of a server -/

theorem getCapacity_publish {r r' : Replica} {datagram : Text} {id : ℕ} {m : Message}
    (h : r.publish datagram id = some (r', m)) :
    r'.board.msgMatrix.getCapacity = r.board.msgMatrix.getCapacity := by
  rw [Replica.publish] at h
  split at h
  · simp at h
  · rename_i result hcomms
    split at h
    · rename_i herr
      split at h
      · simp at h
      · obtain ⟨input, -, hboard⟩ := handleClientComms_publish hcomms herr
        rw [Option.some.injEq, Prod.mk.injEq] at h
        rw [← h.1]
        dsimp only
        rw [hboard]
        rfl
    · simp at h

theorem getCapacity_storeLine {r r' : Replica} {copy : Copy} (h : r.storeLine copy = some r') :
    r'.board.msgMatrix.getCapacity = r.board.msgMatrix.getCapacity := by
  rw [Replica.storeLine] at h
  split at h
  · simp at h
  · rw [← Option.some.inj h]
  · rename_i b m hparse
    rw [← Option.some.inj h]
    rcases parseMessage_cases hparse with heq | ⟨m', -, hadd⟩
    · simp at heq
    · dsimp only at hadd ⊢
      rw [hadd, Matrix.getCapacity_addElement]

/-- A matrix keeps its capacity. -/
def CapacityOf (capacity : ℕ → ℕ) (net : Net) : Prop :=
  ∀ s, (net.nodes s).replica.board.msgMatrix.getCapacity = capacity s

theorem capacityOf_step {capacity : ℕ → ℕ} (net : Net) (a : Action) (net' : Net)
    (hcapacity : CapacityOf capacity net) (h : step net a = some net') :
    CapacityOf capacity net' := by
  intro t
  have hold := hcapacity t
  cases a with
  | join s listed =>
    rw [step] at h
    split at h
    · rw [← Option.some.inj h, replica_join]
      exact hold
    · simp at h
  | accept client s =>
    rw [step] at h
    split at h
    · rw [← Option.some.inj h, replica_accept]
      exact hold
    · simp at h
  | publish s datagram =>
    rw [step] at h
    split at h
    · obtain ⟨⟨r, m⟩, hpub, hmap⟩ := Option.bind_eq_some_iff.mp h
      obtain ⟨r', hroom, rfl⟩ := Option.map_eq_some_iff.mp hmap
      obtain ⟨rfl, -⟩ := hasRoom_of_inRoom hroom
      rw [replica_publish]
      split
      · rename_i ht
        rw [getCapacity_publish hpub, ← ht]
        exact hold
      · exact hold
    · simp at h
  | deliver src dst =>
    rw [step] at h
    split at h
    · obtain ⟨⟨p, rest⟩, -, htreat⟩ := Option.bind_eq_some_iff.mp h
      cases hframe : p.frame with
      | sgetMessages =>
        simp only [hframe, Option.some.injEq] at htreat
        rw [← htreat, nodes_answer]
        exact hold
      | smessages copies =>
        simp only [hframe] at htreat
        obtain ⟨r, hrun, rfl⟩ := Option.map_eq_some_iff.mp htreat
        rw [replica_store]
        split
        · rename_i ht
          have hkept : r.board.msgMatrix.getCapacity
              = (net.nodes dst).replica.board.msgMatrix.getCapacity := by
            refine run_invariant (P := fun q : Replica => q.board.msgMatrix.getCapacity
              = (net.nodes dst).replica.board.msgMatrix.getCapacity) ?_ rfl hrun
            intro q copy q' hq hstore
            obtain ⟨q₁, hline, hroom⟩ := Option.bind_eq_some_iff.mp hstore
            obtain ⟨rfl, -⟩ := hasRoom_of_inRoom hroom
            rw [getCapacity_storeLine hline, hq]
          rw [hkept, ← ht]
          exact hold
        · exact hold
    · simp at h

/-! ### Everybody is connected -/

/-- Two servers that joined have a connection. -/
def Meshed (net : Net) : Prop :=
  ∀ s t, (net.nodes s).isJoinComplete = true → (net.nodes t).isJoinComplete = true → s ≠ t →
    0 < ends net s t

theorem Meshed.of_ends {net net' : Net} (hmeshed : Meshed net)
    (hjoined : ∀ s, (net'.nodes s).isJoinComplete = (net.nodes s).isJoinComplete)
    (hends : ∀ s t, ends net' s t = ends net s t) : Meshed net' := by
  intro s t hs ht hne
  rw [hjoined] at hs ht
  rw [hends]
  exact hmeshed s t hs ht hne

/-- The new server connects to every server that joined before. -/
theorem count_joinToOldServers {net : Net} {s t : ℕ} {listed : List ℕ} (hlinked : Linked net)
    (hlisted : listed.Perm (s :: net.registered)) (hne : t ≠ s)
    (ht : (net.nodes t).isJoinComplete = true) : 0 < (JoinPropagation.joinToOldServers s listed).count t := by
  rw [List.count_pos_iff, JoinPropagation.joinToOldServers, List.mem_filter]
  refine ⟨hlisted.mem_iff.mpr (List.mem_cons_of_mem _ ((hlinked.registered t).mpr ht)), ?_⟩
  simpa using hne

theorem meshed_step {net net' : Net} {a : Action} (hlinked : Linked net) (hmeshed : Meshed net)
    (h : step net a = some net') : Meshed net' := by
  cases stepped_of_step h with
  | @join s listed hnew hlisted =>
    intro u t hu ht hne
    rw [hlinked.ends_join hnew]
    rw [isJoinComplete_join] at hu ht
    by_cases hus : u = s
    · rw [if_pos hus]
      have hts : t ≠ s := fun heq => hne (hus.trans heq.symm)
      rw [if_neg hts] at ht
      exact count_joinToOldServers hlinked hlisted hts ht
    · rw [if_neg hus] at hu ⊢
      by_cases hts : t = s
      · rw [if_pos hts]
        exact count_joinToOldServers hlinked hlisted hus hu
      · rw [if_neg hts] at ht ⊢
        exact hmeshed u t hu ht hne
  | accept hpending =>
    exact hmeshed.of_ends (fun t => isJoinComplete_accept net _ t _) (ends_accept hpending)
  | publish _ _ _ =>
    refine hmeshed.of_ends (fun t => isJoinComplete_publish net _ t _ _) ?_
    intro t u
    rw [ends, ends, msgsrvList_publish]
    rfl
  | answer _ _ => exact hmeshed.of_ends (fun _ => rfl) fun _ _ => rfl
  | store _ _ _ =>
    refine hmeshed.of_ends (fun t => isJoinComplete_store net _ t _ _) ?_
    intro t u
    rw [ends, ends, msgsrvList_store]
    rfl

section Reachable

variable {capacity : ℕ → ℕ} {hcap : ∀ s, 0 < capacity s} {overflow : ℕ → Bool}
  {acts : List Action} {net : Net}

/-- **Two servers that joined have a connection**, accepted or not. -/
theorem meshed_run (h : run step (start capacity hcap overflow) acts = some net) : Meshed net := by
  refine run_induction (P := fun _ net => Meshed net) ?_ ?_ h
  · intro s t hs
    simp [start] at hs
  · intro _ _ _ _ hrun hmeshed hstep
    exact meshed_step (linked_run hrun) hmeshed hstep

end Reachable

/-! ### Nobody joins any more -/

def isJoin : Action → Bool
  | .join _ _ => true
  | _ => false

/-- The servers are those that joined, all connections are accepted, nobody waits for a reply, and every
publication was written to everybody else. -/
structure Settled (net : Net) : Prop where
  pending : net.pending = []
  requests : ∀ p ∈ net.wire, p.frame ≠ .sgetMessages
  answered : ∀ s, answered net s = []
  everywhere : ∀ p ∈ net.pubs, (net.nodes p.server).isJoinComplete = true
    ∧ ∀ s, (net.nodes s).isJoinComplete = true → s ≠ p.server → p.sharedWith.count s = 1

/-- **A publication is written to everybody** who joined. -/
theorem published_everywhere {net : Net} (hlinked : Linked net) (hmeshed : Meshed net)
    (hpending : net.pending = []) {s t : ℕ} (hs : (net.nodes s).isJoinComplete = true)
    (ht : (net.nodes t).isJoinComplete = true) (hne : t ≠ s) :
    (net.nodes s).msgsrvList.count t = 1 := by
  have hpos := hmeshed s t hs ht (Ne.symm hne)
  have honce := hlinked.once s t
  rw [ends, hpending, List.count_nil] at hpos honce
  omega

theorem settled_step {net net' : Net} {a : Action} (hlinked : Linked net) (hmeshed : Meshed net)
    (hsettled : Settled net) (hjoin : isJoin a = false) (h : step net a = some net') :
    Settled net' := by
  obtain ⟨hpending, hrequests, hanswered, heverywhere⟩ := hsettled
  cases a with
  | join s listed => exact Bool.noConfusion hjoin
  | accept client s =>
    rw [step, hpending] at h
    simp at h
  | publish s datagram =>
    rw [step] at h
    split at h
    · rename_i hs
      obtain ⟨⟨r, m⟩, -, hmap⟩ := Option.bind_eq_some_iff.mp h
      obtain ⟨r', -, rfl⟩ := Option.map_eq_some_iff.mp hmap
      refine ⟨hpending, ?_, hanswered, ?_⟩
      · intro p hp
        rcases List.mem_append.mp hp with hp | hp
        · exact hrequests p hp
        · obtain ⟨d, -, rfl⟩ := List.mem_map.mp hp
          simp
      · intro p hp
        simp only [isJoinComplete_publish]
        rcases List.mem_append.mp hp with hp | hp
        · exact heverywhere p hp
        · rw [List.mem_singleton.mp hp]
          exact ⟨hs, fun t ht hne => published_everywhere hlinked hmeshed hpending hs ht hne⟩
    · simp at h
  | deliver src dst =>
    rw [step] at h
    split at h
    · obtain ⟨⟨p, rest⟩, hrecv, htreat⟩ := Option.bind_eq_some_iff.mp h
      obtain ⟨hmem, hsub⟩ := mem_of_receive hrecv
      cases hframe : p.frame with
      | sgetMessages => exact absurd hframe (hrequests p hmem)
      | smessages copies =>
        simp only [hframe] at htreat
        obtain ⟨r, -, rfl⟩ := Option.map_eq_some_iff.mp htreat
        refine ⟨hpending, fun q hq => hrequests q (hsub hq), hanswered, fun q hq => ?_⟩
        simp only [isJoinComplete_store]
        exact heverywhere q hq
    · simp at h

section Reachable

variable {capacity : ℕ → ℕ} {hcap : ∀ s, 0 < capacity s} {overflow : ℕ → Bool}
  {joins acts : List Action} {net₀ net : Net}

/-- A quiet network in which nothing was published is settled. -/
theorem settled_of_quiet (h : run step (start capacity hcap overflow) joins = some net₀)
    (hquiet : Quiet net₀) (hnone : net₀.pubs = []) : Settled net₀ where
  pending := hquiet.2
  requests := by
    intro p hp
    rw [hquiet.1] at hp
    simp at hp
  answered := by
    intro s
    rw [List.eq_nil_iff_forall_not_mem]
    intro id hid
    have hlt := (inv_run h).answers s id hid
    rw [hnone] at hlt
    simp at hlt
  everywhere := by
    rw [hnone]
    simp

theorem settled_run (h : run step (start capacity hcap overflow) joins = some net₀)
    (hsettled : Settled net₀) (hacts : ∀ a ∈ acts, isJoin a = false)
    (hrun : run step net₀ acts = some net) : Settled net := by
  induction acts generalizing joins net₀ with
  | nil => exact Option.some.inj hrun ▸ hsettled
  | cons a acts ih =>
    rw [run_cons] at hrun
    obtain ⟨net₁, hstep, hrest⟩ := Option.bind_eq_some_iff.mp hrun
    have hlonger : run step (start capacity hcap overflow) (joins ++ [a]) = some net₁ :=
      run_concat_eq_some.mpr ⟨net₀, h, hstep⟩
    exact ih hlonger (settled_step (linked_run h) (meshed_run h) hsettled (hacts a (by simp)) hstep)
      (fun b hb => hacts b (by simp [hb])) hrest

/-- The messages with a text that a server has, each with the number of its publication. -/
def messagesAt (net : Net) (s : ℕ) : List (ℕ × Text) :=
  ((stored net s).filter fun c => c.message.content != []).map fun c => (c.id, c.message.content)

/-- The publications with a text, with their numbers. -/
def publications (net : Net) : List (ℕ × Text) :=
  (net.pubs.zipIdx.filter fun p => p.1.content != []).map fun p => (p.2, p.1.content)

theorem mem_publications {id : ℕ} {text : Text} : (id, text) ∈ publications net
    ↔ ∃ p, net.pubs[id]? = some p ∧ p.content = text ∧ text ≠ [] := by
  rw [publications, List.mem_map]
  constructor
  · rintro ⟨⟨p, i⟩, hmem, heq⟩
    obtain ⟨hmem, hne⟩ := List.mem_filter.mp hmem
    obtain ⟨rfl, rfl⟩ := Prod.mk.inj heq
    exact ⟨p, List.mem_zipIdx_iff_getElem?.mp hmem, rfl, by simpa using hne⟩
  · rintro ⟨p, hp, rfl, hne⟩
    exact ⟨(p, id), List.mem_filter.mpr ⟨List.mem_zipIdx_iff_getElem?.mpr hp, by simpa using hne⟩, rfl⟩

theorem nodup_publications (net : Net) : (publications net).Nodup := by
  have hids : ((publications net).map Prod.fst).Nodup := by
    rw [publications, List.map_map]
    have hsub : ((net.pubs.zipIdx.filter fun p => p.1.content != []).map Prod.snd).Sublist
        (net.pubs.zipIdx.map Prod.snd) := List.filter_sublist.map _
    refine List.Nodup.sublist hsub ?_
    rw [List.zipIdx_map_snd]
    exact List.nodup_range'
  exact List.Nodup.of_map _ hids

/-- What a server has stored was published. -/
theorem stored_published (h : run step (start capacity hcap overflow) acts = some net) {s : ℕ}
    {c : Copy} (hc : c ∈ stored net s) :
    ∃ p, net.pubs[c.id]? = some p ∧ c.message.content = p.content := by
  rw [stored_eq h] at hc
  obtain ⟨p, hp, heq, -⟩ := (inv_run h).kept s c hc
  exact ⟨p, hp, heq⟩

/-- **A publication is kept once** by every server, when all of them were told and nothing is in
flight. -/
theorem keptCount_settled (h : run step (start capacity hcap overflow) acts = some net)
    (hsettled : Settled net) (hquiet : Quiet net) {s : ℕ}
    (hs : (net.nodes s).isJoinComplete = true) {id : ℕ} {p : Pub} (hp : net.pubs[id]? = some p)
    (hne : p.content ≠ []) : keptCount net s id = 1 := by
  have hconserved := (inv_run h).conserved s id
  obtain ⟨-, hshared⟩ := hsettled.everywhere p (List.mem_of_getElem? hp)
  rw [inFlight, hquiet.1, total_nil, hsettled.answered, List.count_nil, published, hp] at hconserved
  simp only [Pub.sharedTo, if_neg hne] at hconserved
  by_cases hserver : p.server = s
  · have hself : p.sharedWith.count s = 0 := by
      have honce := published_le_one h s id
      rw [published, hp] at honce
      simp only [Pub.sharedTo, if_neg hne, if_pos hserver] at honce
      omega
    rw [if_pos hserver, hself] at hconserved
    omega
  · rw [if_neg hserver, hshared s hs (Ne.symm hserver)] at hconserved
    omega

/-- A server has the publications with a text, when all of them are kept. -/
theorem mem_messagesAt (h : run step (start capacity hcap overflow) acts = some net) {s : ℕ}
    (hcount : ∀ id p, net.pubs[id]? = some p → p.content ≠ [] → keptCount net s id = 1) {id : ℕ}
    {text : Text} : (id, text) ∈ messagesAt net s ↔ (id, text) ∈ publications net := by
  rw [mem_publications, messagesAt, List.mem_map]
  constructor
  · rintro ⟨c, hmem, heq⟩
    obtain ⟨hc, hne⟩ := List.mem_filter.mp hmem
    obtain ⟨rfl, rfl⟩ := Prod.mk.inj heq
    obtain ⟨p, hp, hcontent⟩ := stored_published h hc
    exact ⟨p, hp, hcontent.symm, by simpa using hne⟩
  · rintro ⟨p, hp, rfl, hne⟩
    have hpos : 0 < keptCount net s id := by
      rw [hcount id p hp hne]
      exact Nat.one_pos
    obtain ⟨c, hc, rfl⟩ := List.mem_map.mp (List.count_pos_iff.mp hpos)
    rw [← stored_eq h] at hc
    obtain ⟨q, hq, hcontent⟩ := stored_published h hc
    obtain rfl : p = q := Option.some.inj (hp.symm.trans hq)
    exact ⟨c, List.mem_filter.mpr ⟨hc, by simpa [hcontent] using hne⟩, by rw [hcontent]⟩

/-- A server has no message twice, when every publication is kept once. -/
theorem nodup_messagesAt (h : run step (start capacity hcap overflow) acts = some net) {s : ℕ}
    (hcount : ∀ id p, net.pubs[id]? = some p → p.content ≠ [] → keptCount net s id = 1) :
    (messagesAt net s).Nodup := by
  apply List.Nodup.of_map Prod.fst
  rw [List.nodup_iff_count_le_one]
  intro id
  have hids : (messagesAt net s).map Prod.fst
      = ((stored net s).filter fun c => c.message.content != []).map Copy.id := by
    rw [messagesAt, List.map_map]
    rfl
  have hle : ((messagesAt net s).map Prod.fst).count id ≤ keptCount net s id := by
    rw [hids, stored_eq h, keptCount]
    exact (List.filter_sublist.map Copy.id).count_le id
  by_cases hid : id ∈ (messagesAt net s).map Prod.fst
  · obtain ⟨⟨_, text⟩, hmem, rfl⟩ := List.mem_map.mp hid
    obtain ⟨p, hp, rfl, hne⟩ := mem_publications.mp ((mem_messagesAt h hcount).mp hmem)
    rw [hcount _ p hp hne] at hle
    exact hle
  · rw [List.count_eq_zero.mpr hid]
    exact Nat.zero_le 1

/-- **Every server stores every message with a text, once**, whatever the order of the steps: servers that
joined, were accepted and had their `SGET_MESSAGES` answered before anything was published have the same
messages once nothing is in flight. -/
theorem all_agree (h : run step (start capacity hcap overflow) joins = some net₀)
    (hquiet₀ : Quiet net₀) (hnone : net₀.pubs = []) (hacts : ∀ a ∈ acts, isJoin a = false)
    (hrun : run step net₀ acts = some net) (hquiet : Quiet net) {s : ℕ}
    (hs : (net.nodes s).isJoinComplete = true) :
    (messagesAt net s).Perm (publications net) := by
  have hall : run step (start capacity hcap overflow) (joins ++ acts) = some net := by
    rw [run_append, h]
    exact hrun
  have hsettled := settled_run h (settled_of_quiet h hquiet₀ hnone) hacts hrun
  have hcount : ∀ id p, net.pubs[id]? = some p → p.content ≠ [] → keptCount net s id = 1 :=
    fun id p hp hne => keptCount_settled hall hsettled hquiet hs hp hne
  rw [List.perm_ext_iff_of_nodup (nodup_messagesAt hall hcount) (nodup_publications net)]
  rintro ⟨id, text⟩
  exact mem_messagesAt hall hcount

/-! ### What clients read -/

/-- The board of a server keeps the log of what the server has stored. -/
theorem keeps_stored (h : run step (start capacity hcap overflow) acts = some net)
    (hsmall : ∀ s, capacity s < 2 ^ 31) (s : ℕ) : ServerLog.Keeps 0 (net.nodes s).replica.board
      (⟨(net.nodes s).replica.board.gLc, Log.ofHistory (capacity s) ((stored net s).map Copy.message)⟩
        : ServerLog.Server (capacity s)) ((stored net s).map Copy.message) := by
  have hinv := inv_run h
  have hcapacity : (net.nodes s).replica.board.msgMatrix.getCapacity = capacity s := by
    refine run_invariant (P := CapacityOf capacity) capacityOf_step ?_ h s
    intro t
    rfl
  have hroom := hinv.room s
  rw [HasRoom, hcapacity] at hroom
  have hshort : ∀ x ∈ (net.nodes s).replica.kept.map Copy.message, x.content.length ≤ 140 := by
    intro x hx
    obtain ⟨c, hc, rfl⟩ := List.mem_map.mp hx
    exact (hinv.kept s c hc).oneLine.length_le
  have hlt := hsmall s
  rw [stored_eq h]
  exact
    { holds := (net.nodes s).replica.holds
      capacity_eq := hcapacity
      capacity_lt := hlt
      short := hshort
      length_lt := by
        rw [List.length_map]
        omega
      clock_eq := rfl
      log_eq := rfl }

end Reachable

/-! ### Two runs -/

/-- Two servers that have accepted each other. -/
def twoJoined : List Action := [.join 0 [0], .join 1 [0, 1], .accept 1 0, .deliver 1 0, .deliver 0 1]

/-- Both publish at the same time. -/
def bothPublish : List Action :=
  [.publish 0 (ascii "PUBLISH a"), .publish 1 (ascii "PUBLISH b"), .deliver 0 1, .deliver 1 0]

theorem all_agree_bothPublish : ∃ net₀ net,
    run step (start (fun _ => 4) (fun _ => by decide) fun _ => false) twoJoined = some net₀
      ∧ run step net₀ bothPublish = some net ∧ (messagesAt net 0).Perm (publications net) := by
  have hrun : ((run step (start (fun _ => 4) (fun _ => by decide) fun _ => false) twoJoined).bind
      fun net₀ => (run step net₀ bothPublish).map fun net =>
        (net₀.wire, net₀.pending, net₀.pubs, net.wire, net.pending, (net.nodes 0).isJoinComplete))
      = some ([], [], [], [], [], true) := by rfl
  obtain ⟨net₀, h₀, hmap⟩ := Option.bind_eq_some_iff.mp hrun
  obtain ⟨net, hnet, heq⟩ := Option.map_eq_some_iff.mp hmap
  simp only [Prod.mk.injEq] at heq
  obtain ⟨hwire₀, hpending₀, hpubs₀, hwire, hpending, hjoined⟩ := heq
  exact ⟨net₀, net, h₀, hnet, all_agree h₀ ⟨hwire₀, hpending₀⟩ hpubs₀ (by decide) hnet
    ⟨hwire, hpending⟩ hjoined⟩

end Agreement

end MessageBoard
