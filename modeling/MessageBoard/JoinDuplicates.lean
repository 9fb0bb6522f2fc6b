import MessageBoard.JoinPropagation

/-!
# Which messages are stored twice

A server stores what arrives, whether it has it or not.  A publication comes to a server in three
ways: it is published there, its server writes it there, and the reply to `SGET_MESSAGES` has it.

* `asksOnce_run` — a server asks once, so it has one reply;
* `published_le_one` — two servers have one connection, so a message is written once to a server;
* `answersOnce_run` — a reply repeats only what took two ways to the server that answered;
* `stored_once` — **a message is stored once everywhere if it took one way to every server**.
-/

namespace MessageBoard

open CText Run Channel JoinPropagation

namespace JoinDuplicates

/-! ### Every server asks once -/

/-- The requests of a server in flight. -/
def asks (s : ℕ) (p : Packet) : ℕ := if p.src = s ∧ p.frame = .sgetMessages then 1 else 0

/-- A server asks once, when it joins, and is answered once. -/
def AsksOnce (net : Net) : Prop :=
  ∀ s, total (asks s) net.wire + (net.replies s).length
    ≤ if (net.nodes s).isJoinComplete then 1 else 0

theorem total_asks_shareWith (t s : ℕ) (msgsrvList : List ℕ) (copy : Copy) :
    total (asks t) (shareWith s msgsrvList copy) = 0 := by
  apply total_eq_zero
  intro p hp
  obtain ⟨d, _, rfl⟩ := List.mem_map.mp hp
  simp [asks]

theorem total_asks_sendInitialComm (t s : ℕ) (olds : List ℕ) :
    total (asks t) (sendInitialComm s olds) ≤ if t = s then 1 else 0 := by
  cases olds with
  | nil => simp [sendInitialComm]
  | cons old olds =>
    rw [sendInitialComm, List.head?_cons, Option.toList_some, List.map_singleton, total_singleton,
      asks]
    split
    · rename_i hand
      rw [if_pos hand.1.symm]
    · exact Nat.zero_le _

theorem asksOnce_step (net : Net) (a : Action) (net' : Net) (hasks : AsksOnce net)
    (h : step net a = some net') : AsksOnce net' := by
  intro t
  have hold := hasks t
  cases stepped_of_step h with
  | @join s listed hnew _ =>
    have hrequest := total_asks_sendInitialComm t s (joinToOldServers s listed)
    show total (asks t) (net.wire ++ sendInitialComm s _) + (net.replies t).length ≤ _
    rw [total_append, isJoinComplete_join]
    by_cases ht : t = s
    · subst ht
      rw [hnew, if_neg (by simp)] at hold
      rw [if_pos rfl] at hrequest
      rw [if_pos rfl, if_pos rfl]
      omega
    · rw [if_neg ht] at hrequest
      rw [if_neg ht]
      omega
  | accept _ =>
    rw [isJoinComplete_accept]
    exact hold
  | @publish s r m _ _ _ =>
    show total (asks t) (net.wire ++ shareWith s _ _) + (net.replies t).length ≤ _
    rwa [total_append, total_asks_shareWith, isJoinComplete_publish, Nat.add_zero]
  | @answer src dst p rest hrecv hframe =>
    rw [total_receive (asks t) hrecv, asks, (ends_of_receive hrecv).1, hframe] at hold
    have hreply : asks t ⟨dst, src, .smessages (net.nodes dst).replica.recent⟩ = 0 := by
      simp [asks]
    show total (asks t) (rest ++ [_]) + ((net.answer src dst rest).replies t).length ≤ _
    rw [total_append, total_singleton, hreply, replies_answer, nodes_answer]
    by_cases ht : t = src
    · subst ht
      rw [if_pos ⟨rfl, rfl⟩] at hold
      rw [if_pos rfl, List.length_append, List.length_singleton]
      omega
    · rw [if_neg fun hand => ht hand.1.symm] at hold
      rw [if_neg ht]
      omega
  | @store src dst p rest copies r hrecv _ _ =>
    rw [total_receive (asks t) hrecv] at hold
    rw [isJoinComplete_store]
    show total (asks t) rest + (net.replies t).length ≤ _
    omega

/-! ### Every pair of servers has one connection -/

/-- The ends at `s` of connections to `t`, in the list or waiting to be accepted. -/
def ends (net : Net) (s t : ℕ) : ℕ := (net.nodes s).msgsrvList.count t + net.pending.count (t, s)

structure Linked (net : Net) : Prop where
  nodup : net.registered.Nodup
  registered : ∀ s, s ∈ net.registered ↔ (net.nodes s).isJoinComplete = true
  once : ∀ s t, ends net s t ≤ 1
  joined : ∀ s t, 0 < ends net s t →
    (net.nodes s).isJoinComplete = true ∧ (net.nodes t).isJoinComplete = true ∧ t ≠ s

theorem count_connects (s t u : ℕ) (olds : List ℕ) :
    (olds.map fun old => (s, old)).count (t, u) = if t = s then olds.count u else 0 := by
  induction olds with
  | nil => simp
  | cons old olds ih =>
    rw [List.map_cons, List.count_cons, ih, List.count_cons]
    by_cases ht : t = s
    · simp [ht]
    · simp [ht, Ne.symm ht]

/-- A server that has not joined is at no end of a connection. -/
theorem Linked.ends_new {net : Net} {s : ℕ} (hlinked : Linked net)
    (hnew : (net.nodes s).isJoinComplete = false) (t : ℕ) : ends net s t = 0 ∧ ends net t s = 0 := by
  constructor
  · by_contra hpos
    have hjoined := (hlinked.joined s t (by omega)).1
    simp [hnew] at hjoined
  · by_contra hpos
    have hjoined := (hlinked.joined t s (by omega)).2.1
    simp [hnew] at hjoined

theorem not_mem_joinToOldServers (s : ℕ) (listed : List ℕ) : s ∉ joinToOldServers s listed := by
  intro hmem
  have hne := (List.mem_filter.mp hmem).2
  simp at hne

/-- The new server connects to registered servers, once to each. -/
theorem Linked.olds {net : Net} {s : ℕ} {listed : List ℕ} (hlinked : Linked net)
    (hfresh : s ∉ net.registered) (hlisted : listed.Perm (s :: net.registered)) :
    (joinToOldServers s listed).Nodup ∧ ∀ t ∈ joinToOldServers s listed, t ∈ net.registered := by
  have hnodup : listed.Nodup := hlisted.nodup_iff.mpr (List.nodup_cons.mpr ⟨hfresh, hlinked.nodup⟩)
  refine ⟨hnodup.filter _, ?_⟩
  intro t ht
  obtain ⟨hmem, hne⟩ := List.mem_filter.mp ht
  exact (List.mem_cons.mp (hlisted.mem_iff.mp hmem)).resolve_left (by simpa using hne)

/-- **The new server has one end of the new connections**, its peers have the other ones. -/
theorem Linked.ends_join {net : Net} {s : ℕ} (hlinked : Linked net)
    (hnew : (net.nodes s).isJoinComplete = false) (listed : List ℕ) (u t : ℕ) :
    ends (net.join s (joinToOldServers s listed)) u t
      = if u = s then (joinToOldServers s listed).count t
        else if t = s then (joinToOldServers s listed).count u
        else ends net u t := by
  have hzero := (hlinked.ends_new hnew t).1
  have hself := List.count_eq_zero.mpr (not_mem_joinToOldServers s listed)
  rw [ends] at hzero
  rw [ends, msgsrvList_join]
  show _ + (net.pending ++ (joinToOldServers s listed).map _).count (t, u) = _
  rw [List.count_append, count_connects]
  by_cases hu : u = s
  · subst hu
    rw [if_pos rfl, if_pos rfl, hself, ite_self]
    omega
  · rw [if_neg hu, if_neg hu]
    by_cases ht : t = s
    · subst ht
      have hnone := (hlinked.ends_new hnew u).2
      rw [ends] at hnone
      rw [if_pos rfl, if_pos rfl]
      omega
    · rw [if_neg ht, if_neg ht]
      rfl

theorem linked_join {net : Net} {s : ℕ} {listed : List ℕ} (hlinked : Linked net)
    (hnew : (net.nodes s).isJoinComplete = false) (hlisted : listed.Perm (s :: net.registered)) :
    Linked (net.join s (joinToOldServers s listed)) := by
  have hfresh : s ∉ net.registered := by
    rw [hlinked.registered, hnew]
    exact Bool.false_ne_true
  obtain ⟨hnodup, holds⟩ := hlinked.olds hfresh hlisted
  have hself := not_mem_joinToOldServers s listed
  have hjoined (u : ℕ) : ((net.join s (joinToOldServers s listed)).nodes u).isJoinComplete = true
      ↔ u = s ∨ u ∈ net.registered := by
    rw [hlinked.registered, isJoinComplete_join]
    by_cases hu : u = s
    · simp [hu]
    · simp [hu]
  constructor
  · exact List.nodup_cons.mpr ⟨hfresh, hlinked.nodup⟩
  · intro u
    rw [hjoined]
    exact List.mem_cons
  · intro u t
    rw [hlinked.ends_join hnew]
    split
    · exact List.nodup_iff_count_le_one.mp hnodup t
    · split
      · exact List.nodup_iff_count_le_one.mp hnodup u
      · exact hlinked.once u t
  · intro u t hpos
    rw [hjoined, hjoined]
    rw [hlinked.ends_join hnew] at hpos
    split at hpos
    · rename_i hu
      have hmem := List.count_pos_iff.mp hpos
      refine ⟨Or.inl hu, Or.inr (holds t hmem), ?_⟩
      rintro rfl
      exact hself (hu ▸ hmem)
    · rename_i hu
      split at hpos
      · rename_i ht
        have hmem := List.count_pos_iff.mp hpos
        exact ⟨Or.inr (holds u hmem), Or.inl ht, fun heq => hu (heq ▸ ht)⟩
      · obtain ⟨hu', ht', hne⟩ := hlinked.joined u t hpos
        exact ⟨Or.inr ((hlinked.registered u).mpr hu'), Or.inr ((hlinked.registered t).mpr ht'), hne⟩

/-- A step that moves no end of a connection keeps the connections. -/
theorem Linked.of_ends {net net' : Net} (hlinked : Linked net)
    (hregistered : net'.registered = net.registered)
    (hjoined : ∀ s, (net'.nodes s).isJoinComplete = (net.nodes s).isJoinComplete)
    (hends : ∀ s t, ends net' s t = ends net s t) : Linked net' where
  nodup := by
    rw [hregistered]
    exact hlinked.nodup
  registered := by
    intro s
    rw [hregistered, hjoined]
    exact hlinked.registered s
  once := by
    intro s t
    rw [hends]
    exact hlinked.once s t
  joined := by
    intro s t hpos
    rw [hends] at hpos
    rw [hjoined, hjoined]
    exact hlinked.joined s t hpos

theorem ends_accept {net : Net} {client s : ℕ} (hpending : (client, s) ∈ net.pending) (t u : ℕ) :
    ends (net.accept client s) t u = ends net t u := by
  have hpos := List.count_pos_iff.mpr hpending
  rw [ends, ends, msgsrvList_accept]
  show _ + (net.pending.erase (client, s)).count (u, t) = _
  rw [List.count_erase]
  by_cases ht : t = s
  · subst ht
    rw [if_pos rfl, List.count_cons]
    by_cases hu : client = u
    · subst hu
      simp only [beq_self_eq_true, if_true]
      omega
    · simp [hu]
  · simp [ht, Ne.symm ht]

theorem linked_step (net : Net) (a : Action) (net' : Net) (hlinked : Linked net)
    (h : step net a = some net') : Linked net' := by
  cases stepped_of_step h with
  | join hnew hlisted => exact linked_join hlinked hnew hlisted
  | accept hpending =>
    exact hlinked.of_ends rfl (fun t => isJoinComplete_accept net _ t _) (ends_accept hpending)
  | publish _ _ _ =>
    refine hlinked.of_ends rfl (fun t => isJoinComplete_publish net _ t _ _) ?_
    intro t u
    rw [ends, ends, msgsrvList_publish]
    rfl
  | answer _ _ => exact hlinked.of_ends rfl (fun _ => rfl) fun _ _ => rfl
  | store _ _ _ =>
    refine hlinked.of_ends rfl (fun t => isJoinComplete_store net _ t _ _) ?_
    intro t u
    rw [ends, ends, msgsrvList_store]
    rfl

/-- A publication comes from its own server to a server at most once. -/
def PublishedOnce (net : Net) : Prop := ∀ s id, published net.pubs s id ≤ 1

theorem publishedOnce_step {net net' : Net} {a : Action} (hlinked : Linked net)
    (honce : PublishedOnce net) (h : step net a = some net') : PublishedOnce net' := by
  cases stepped_of_step h with
  | @publish s r m _ _ _ =>
    intro t id
    show published (net.pubs ++ [_]) t id ≤ 1
    rw [published_append]
    by_cases hid : id = net.pubs.length
    · have hnone : published net.pubs t id = 0 := by
        rw [published, List.getElem?_eq_none (by omega)]
      have hends := hlinked.once s t
      have hself : s = t → (net.nodes s).msgsrvList.count t = 0 := by
        intro heq
        by_contra hpos
        have := (hlinked.joined s t (by rw [ends]; omega)).2.2
        exact this heq.symm
      rw [ends] at hends
      rw [if_pos hid, hnone, Nat.zero_add, Pub.sharedTo]
      dsimp only
      by_cases hs : s = t
      · rw [if_pos hs, hself hs, ite_self]
      · rw [if_neg hs]
        split <;> omega
    · rw [if_neg hid, Nat.add_zero]
      exact honce t id
  | join _ _ => exact honce
  | accept _ => exact honce
  | answer _ _ => exact honce
  | store _ _ _ => exact honce

/-! ### The ways to a server -/

/-- How many ways a publication took to a server: it was published there, its server wrote it there,
it was in the reply to the server.  Only the first counts for a publication without a text. -/
def ways (net : Net) (s id : ℕ) : ℕ :=
  published net.pubs s id + if id ∈ answered net s then 1 else 0

/-- Where a publication took one way only, a reply had it once. -/
def AnswersOnce (net : Net) : Prop :=
  ∀ id, (∀ s, ways net s id ≤ 1) → ∀ s, (answered net s).count id ≤ 1

theorem published_mono (pubs more : List Pub) (s id : ℕ) :
    published pubs s id ≤ published (pubs ++ more) s id := by
  rcases Nat.lt_or_ge id pubs.length with hlt | hge
  · rw [published, published, List.getElem?_append_left hlt]
  · rw [published, List.getElem?_eq_none hge]
    exact Nat.zero_le _

/-- Where nothing is answered, the replies still have once what took one way. -/
theorem AnswersOnce.of_replies {net net' : Net} (honce : AnswersOnce net)
    (hreplies : net'.replies = net.replies) {more : List Pub} (hpubs : net'.pubs = net.pubs ++ more) :
    AnswersOnce net' := by
  intro id hways t
  have hbefore (s : ℕ) : ways net s id ≤ 1 := by
    have hafter := hways s
    have hmono := published_mono net.pubs more s id
    rw [ways, answered, hreplies, hpubs] at hafter
    rw [ways, answered]
    omega
  rw [answered, hreplies]
  exact honce id hbefore t

/-- **A reply repeats only what took two ways** to the server that answers. -/
theorem answersOnce_answer {net : Net} {src dst : ℕ} {p : Packet} {rest : List Packet}
    (hinv : Inv net) (hasks : AsksOnce net) (honce : AnswersOnce net)
    (hrecv : receive (onChannel src dst) net.wire = some (p, rest))
    (hframe : p.frame = .sgetMessages) : AnswersOnce (net.answer src dst rest) := by
  intro id hways t
  have hasked := hasks src
  have hone : asks src p = 1 := by rw [asks, if_pos ⟨(ends_of_receive hrecv).1, hframe⟩]
  rw [total_receive (asks src) hrecv, hone] at hasked
  -- the request was the only one, so this is the only reply
  have hnone : net.replies src = [] := by
    split at hasked
    · exact List.length_eq_zero_iff.mp (by omega)
    · omega
  have hbefore (s : ℕ) : ways net s id ≤ 1 := by
    refine le_trans ?_ (hways s)
    rw [ways, ways, answered, answered, replies_answer]
    by_cases hs : s = src
    · subst hs
      rw [hnone, if_neg (by simp)]
      exact Nat.le_add_right _ _
    · rw [if_neg hs]
      exact le_rfl
  rw [answered, replies_answer]
  by_cases ht : t = src
  · subst ht
    rw [if_pos rfl, hnone, List.nil_append, List.flatten_singleton]
    have hkept : (Frame.smessages (net.nodes dst).replica.recent).ids.count id
        ≤ keptCount net dst id := by
      rw [keptCount, Frame.ids, Frame.copies]
      exact ((List.filter_sublist.trans (List.drop_sublist _ _)).map Copy.id).count_le id
    have hconserved := hinv.conserved dst id
    have hcount := honce id hbefore dst
    have hdst := hbefore dst
    rw [ways] at hdst
    split at hdst
    · omega
    · rename_i hmem
      have hzero := List.count_eq_zero.mpr hmem
      omega
  · rw [if_neg ht]
    exact honce id hbefore t

theorem answersOnce_step {net net' : Net} {a : Action} (hinv : Inv net) (hasks : AsksOnce net)
    (honce : AnswersOnce net) (h : step net a = some net') : AnswersOnce net' := by
  cases stepped_of_step h with
  | join _ _ => exact honce.of_replies rfl (List.append_nil _).symm
  | accept _ => exact honce.of_replies rfl (List.append_nil _).symm
  | publish _ _ _ => exact honce.of_replies rfl rfl
  | answer hrecv hframe => exact answersOnce_answer hinv hasks honce hrecv hframe
  | store _ _ _ => exact honce.of_replies rfl (List.append_nil _).symm

section Reachable

variable {capacity : ℕ → ℕ} {hcap : ∀ s, 0 < capacity s} {overflow : ℕ → Bool}
  {acts : List Action} {net : Net}

theorem asksOnce_run (h : run step (start capacity hcap overflow) acts = some net) :
    AsksOnce net := by
  refine run_invariant asksOnce_step ?_ h
  intro s
  exact Nat.zero_le _

theorem linked_run (h : run step (start capacity hcap overflow) acts = some net) : Linked net := by
  refine run_invariant linked_step ⟨List.nodup_nil, ?_, ?_, ?_⟩ h
  · intro s
    simp [start]
  · intro s t
    simp [ends, start]
  · intro s t hpos
    simp [ends, start] at hpos

/-- **A publication reaches a server at most once** from its own server. -/
theorem published_le_one (h : run step (start capacity hcap overflow) acts = some net) (s id : ℕ) :
    published net.pubs s id ≤ 1 := by
  refine run_induction (P := fun _ net => PublishedOnce net) ?_ ?_ h s id
  · intro s id
    exact Nat.zero_le _
  · intro _ _ _ _ hrun honce hstep
    exact publishedOnce_step (linked_run hrun) honce hstep

theorem answersOnce_run (h : run step (start capacity hcap overflow) acts = some net) :
    AnswersOnce net := by
  refine run_induction (P := fun _ net => AnswersOnce net) ?_ ?_ h
  · intro id _ s
    exact Nat.zero_le _
  · intro _ _ _ _ hrun honce hstep
    exact answersOnce_step (inv_run hrun) (asksOnce_run hrun) honce hstep

/-- **Which messages are stored once.**  A message that took at most one way to every server is
stored at most once everywhere; and once nothing is in flight, only such a message is. -/
theorem stored_once (h : run step (start capacity hcap overflow) acts = some net) (id : ℕ) :
    ((∀ s, ways net s id ≤ 1) → ∀ s, ((stored net s).map Copy.id).count id ≤ 1)
      ∧ (Quiet net → (∀ s, ((stored net s).map Copy.id).count id ≤ 1) → ∀ s, ways net s id ≤ 1) := by
  constructor
  · intro hways s
    have hconserved := conserved_run h s id
    have hcount := answersOnce_run h id hways s
    have hs := hways s
    rw [ways] at hs
    rw [stored_eq h, ← keptCount]
    split at hs
    · omega
    · rename_i hmem
      have hzero := List.count_eq_zero.mpr hmem
      omega
  · intro hquiet hstored s
    have hconserved := conserved_run h s id
    have hs := hstored s
    rw [stored_eq h, ← keptCount] at hs
    rw [inFlight, hquiet.1, total_nil] at hconserved
    rw [ways]
    split
    · rename_i hmem
      have := List.count_pos_iff.mpr hmem
      omega
    · omega

end Reachable

/-- Server 1 publishes after it has accepted server 2, and server 0 learns the message before its
reply to server 2. -/
def answeredLate : List Action :=
  [.join 0 [0], .join 1 [0, 1], .accept 1 0, .deliver 1 0, .deliver 0 1, .join 2 [0, 1, 2],
    .accept 2 1, .publish 1 (ascii "PUBLISH hello"), .deliver 1 0, .accept 2 0, .deliver 2 0,
    .deliver 0 2, .deliver 1 2]

/-- A run in which the message takes at most one way to every server. -/
theorem stored_once_acceptedLate :
    ∃ net, run step (start (fun _ => 4) (fun _ => by decide) fun _ => false) acceptedLate = some net
      ∧ ∀ s, ((stored net s).map Copy.id).count 0 ≤ 1 := by
  have hnet : (run step (start (fun _ => 4) (fun _ => by decide) fun _ => false) acceptedLate).map
      (fun net => (net.pubs, net.replies)) = some ([⟨1, ascii "hello", [0]⟩],
        Function.update (Function.update (fun _ : ℕ => []) 1 [[]]) 2 [[]]) := by rfl
  obtain ⟨net, hrun, heq⟩ := Option.map_eq_some_iff.mp hnet
  rw [Prod.mk.injEq] at heq
  refine ⟨net, hrun, (stored_once hrun 0).1 ?_⟩
  intro s
  have hnone : answered net s = [] := by
    rw [answered, heq.2, Function.update_apply, Function.update_apply]
    split
    · rfl
    · split <;> rfl
  have hpub : published net.pubs s 0 = (if 1 = s then 1 else 0) + [0].count s := by
    rw [heq.1]
    rfl
  rw [ways, hnone, hpub, if_neg List.not_mem_nil, List.count_singleton]
  by_cases hs : s = 0
  · simp [hs]
  · have hne : (0 == s) = false := by simpa using Ne.symm hs
    rw [hne]
    split <;> simp

/-- **A message can be stored twice** at a server that joins. -/
theorem twice_on_join :
    ∃ net, run step (start (fun _ => 4) (fun _ => by decide) fun _ => false) answeredLate = some net
      ∧ (net.nodes 2).isJoinComplete = true ∧ ((stored net 2).map Copy.id).count 0 = 2 := by
  have hnet : (run step (start (fun _ => 4) (fun _ => by decide) fun _ => false) answeredLate).map
      (fun net => ((net.nodes 2).isJoinComplete, ((stored net 2).map Copy.id).count 0))
      = some (true, 2) := by rfl
  obtain ⟨net, hrun, heq⟩ := Option.map_eq_some_iff.mp hnet
  rw [Prod.mk.injEq] at heq
  exact ⟨net, hrun, heq.1, heq.2⟩

end JoinDuplicates

end MessageBoard
