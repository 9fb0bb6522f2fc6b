import MessageBoard.JoinDuplicates

/-!
# The order in which a server stores what another one publishes

A connection keeps its frames in order, so a server has the messages of another one in the order in
which they were published, as far as they came over the connection of the two.  The messages in the
reply to its `SGET_MESSAGES` come from whom it asked, at any time, and are left out.

* `sourced_step` — what a frame brings was published by who sent it, or is in a reply;
* `ordered_step` — a step keeps the order of what is stored and on its way;
* `stored_in_order` — **the messages of a server are stored in the order of their publication**, but for
  those in a reply.
-/

namespace MessageBoard

open CText Run Channel JoinPropagation JoinDuplicates

namespace SenderOrder

/-! ### What comes over the connection -/

/-- The publication was made at the server. -/
def publishedAt (pubs : List Pub) (s id : ℕ) : Bool := pubs[id]?.any fun p => p.server == s

/-- It was made at `src`, and `dst` does not have it in the reply to its request. -/
def direct (net : Net) (src dst id : ℕ) : Bool :=
  publishedAt net.pubs src id && !(answered net dst).contains id

/-- All that a server stored, in order. -/
def history (net : Net) (s : ℕ) : List ℕ := (net.nodes s).replica.kept.map Copy.id

/-- What is on its way from one server to another, in order. -/
def arriving (net : Net) (src dst : ℕ) : List ℕ :=
  (net.wire.filter (onChannel src dst)).flatMap fun p => p.frame.ids

/-- A frame brings what its sender published, or what is in the reply to the receiver. -/
def Sourced (net : Net) : Prop :=
  ∀ p ∈ net.wire, ∀ id ∈ p.frame.ids,
    publishedAt net.pubs p.src id = true ∨ id ∈ answered net p.dst

/-- What is stored and then what is on its way, in the order of publication. -/
def Ordered (net : Net) : Prop :=
  ∀ src dst, src ≠ dst →
    ((history net dst ++ arriving net src dst).filter (direct net src dst)).Pairwise (· < ·)

theorem publishedAt_append {pubs : List Pub} {id : ℕ} (hid : id < pubs.length) (p : Pub) (s : ℕ) :
    publishedAt (pubs ++ [p]) s id = publishedAt pubs s id := by
  rw [publishedAt, publishedAt, List.getElem?_append_left hid]

theorem publishedAt_new (pubs : List Pub) (p : Pub) (s : ℕ) :
    publishedAt (pubs ++ [p]) s pubs.length = (p.server == s) := by
  rw [publishedAt, List.getElem?_concat_length]
  rfl

/-- A publication was made at one server. -/
theorem publishedAt_unique {pubs : List Pub} {s t id : ℕ} (hs : publishedAt pubs s id = true)
    (ht : publishedAt pubs t id = true) : s = t := by
  rw [publishedAt, Option.any_eq_true] at hs ht
  obtain ⟨p, hp, hps⟩ := hs
  obtain ⟨q, hq, hqt⟩ := ht
  obtain rfl : p = q := Option.some.inj (hp.symm.trans hq)
  rw [beq_iff_eq] at hps hqt
  rw [← hps, hqt]

theorem ids_sgetMessages : Frame.sgetMessages.ids = [] := rfl

theorem mem_copies_of_mem_ids {f : Frame} {id : ℕ} (h : id ∈ f.ids) : ∃ c ∈ f.copies, c.id = id := by
  obtain ⟨c, hc, rfl⟩ := List.mem_map.mp h
  exact ⟨c, List.mem_of_mem_filter hc, rfl⟩

/-- All that is stored or on its way was published. -/
theorem lt_of_mem {net : Net} (hinv : Inv net) {src dst id : ℕ}
    (h : id ∈ history net dst ++ arriving net src dst) : id < net.pubs.length := by
  rcases List.mem_append.mp h with h | h
  · obtain ⟨c, hc, rfl⟩ := List.mem_map.mp h
    exact (hinv.kept dst c hc).lt
  · obtain ⟨p, hp, hid⟩ := List.mem_flatMap.mp h
    obtain ⟨c, hc, rfl⟩ := mem_copies_of_mem_ids hid
    exact (hinv.wire p (List.mem_of_mem_filter hp) c hc).lt

/-! ### Where a frame comes from -/

theorem sourced_step {net net' : Net} {a : Action} (hinv : Inv net) (hsourced : Sourced net)
    (h : step net a = some net') : Sourced net' := by
  cases stepped_of_step h with
  | @join s listed _ _ =>
    intro p hp id hid
    rcases List.mem_append.mp hp with hp | hp
    · exact hsourced p hp id hid
    · obtain ⟨d, -, rfl⟩ := List.mem_map.mp hp
      simp [ids_sgetMessages] at hid
  | accept _ => exact hsourced
  | @publish s r m _ _ _ =>
    intro p hp id hid
    rcases List.mem_append.mp hp with hp | hp
    · obtain ⟨c, hc, rfl⟩ := mem_copies_of_mem_ids hid
      refine (hsourced p hp c.id hid).imp (fun hpub => ?_) id
      rwa [Net.publish, publishedAt_append (hinv.wire p hp c hc).lt]
    · obtain ⟨d, -, rfl⟩ := List.mem_map.mp hp
      obtain ⟨c, hc, rfl⟩ := mem_copies_of_mem_ids hid
      rw [List.mem_singleton.mp hc]
      left
      rw [Net.publish, publishedAt_new]
      exact beq_self_eq_true s
  | @answer src dst p rest hrecv _ =>
    have hsub := (mem_of_receive hrecv).2
    intro q hq id hid
    rcases List.mem_append.mp hq with hq | hq
    · refine (hsourced q (hsub hq) id hid).imp_right fun hmem => ?_
      rw [answered, replies_answer]
      split
      · rw [List.flatten_append]
        exact List.mem_append_left _ hmem
      · exact hmem
    · rw [List.mem_singleton.mp hq] at hid ⊢
      right
      rw [answered, replies_answer, if_pos rfl, List.flatten_append, List.flatten_singleton]
      exact List.mem_append_right _ hid
  | @store src dst p rest copies r hrecv _ _ =>
    exact fun q hq => hsourced q ((mem_of_receive hrecv).2 hq)

/-! ### The order -/

/-- Less is in order as well. -/
theorem pairwise_of_sublist {xs ys : List ℕ} {p q : ℕ → Bool} (h : (ys.filter q).Pairwise (· < ·))
    (hsub : xs.Sublist ys) (hpq : ∀ id ∈ xs, p id = true → q id = true) :
    (xs.filter p).Pairwise (· < ·) := by
  have hfilter : (xs.filter p).filter q = xs.filter p := by
    rw [List.filter_eq_self]
    intro id hid
    obtain ⟨hmem, hp⟩ := List.mem_filter.mp hid
    exact hpq id hmem hp
  rw [← hfilter]
  exact h.sublist ((List.filter_sublist.trans hsub).filter q)

/-- What sharing a message brings to a server. -/
theorem arriving_shareWith (s src dst : ℕ) (msgsrvList : List ℕ) (copy : Copy) :
    ((shareWith s msgsrvList copy).filter (onChannel src dst)).flatMap (fun p => p.frame.ids)
      = if s = src ∧ copy.message.content ≠ [] then List.replicate (msgsrvList.count dst) copy.id
        else [] := by
  induction msgsrvList with
  | nil => simp [shareWith]
  | cons d msgsrvList ih =>
    have hids : (Frame.smessages [copy]).ids = if copy.message.content = [] then [] else [copy.id] := by
      rw [Frame.ids, Frame.copies]
      by_cases hempty : copy.message.content = []
      · simp [hempty]
      · simp [hempty]
    rw [shareWith] at ih
    rw [shareWith, List.map_cons, List.filter_cons, List.count_cons]
    by_cases hs : s = src
    · by_cases hd : d = dst
      · subst hs hd
        rw [if_pos (by simp [onChannel]), List.flatMap_cons, ih, hids]
        by_cases hempty : copy.message.content = []
        · simp [hempty]
        · simp [hempty, List.replicate_succ]
      · rw [if_neg (by simp [onChannel, hd]), ih]
        simp [hd]
    · rw [if_neg (by simp [onChannel, hs]), ih]
      simp [hs]

section Step

variable {net : Net} {src dst : ℕ}

theorem direct_publish {s id : ℕ} {r : Replica} {m : Message} (hid : id < net.pubs.length) :
    direct (net.publish s r m) src dst id = direct net src dst id := by
  rw [direct, direct, Net.publish, publishedAt_append hid]
  rfl

/-- The new message comes from its server. -/
theorem server_of_direct {s : ℕ} {r : Replica} {m : Message}
    (h : direct (net.publish s r m) src dst net.pubs.length = true) : s = src := by
  rw [direct, Net.publish, publishedAt_new, Bool.and_eq_true, beq_iff_eq] at h
  exact h.1

theorem history_publish {s : ℕ} {r : Replica} {m : Message}
    (hkept : r.kept = (net.nodes s).replica.kept ++ [⟨m, net.pubs.length⟩]) :
    history (net.publish s r m) dst
      = history net dst ++ if dst = s then [net.pubs.length] else [] := by
  rw [history, history, replica_publish]
  split
  · rename_i hd
    rw [hkept, hd, List.map_append, List.map_singleton]
  · rw [List.append_nil]

theorem arriving_publish (s : ℕ) (r : Replica) (m : Message) :
    arriving (net.publish s r m) src dst = arriving net src dst
      ++ if s = src ∧ m.content ≠ [] then
        List.replicate ((net.nodes s).msgsrvList.count dst) net.pubs.length else [] := by
  rw [arriving, arriving, ← arriving_shareWith s src dst _ ⟨m, net.pubs.length⟩,
    ← List.flatMap_append, ← List.filter_append]
  rfl

/-- What stands in order stays in order behind a new message. -/
theorem pairwise_concat_new {xs ys : List ℕ} {p : ℕ → Bool} {new : ℕ}
    (hxs : (xs.filter p).Pairwise (· < ·)) (hlt : ∀ id ∈ xs, id < new) (hys : ∀ id ∈ ys, id = new)
    (honce : ys.length ≤ 1) : ((xs ++ ys).filter p).Pairwise (· < ·) := by
  rw [List.filter_append, List.pairwise_append]
  refine ⟨hxs, ?_, ?_⟩
  · apply List.Pairwise.filter
    rcases Nat.le_one_iff_eq_zero_or_eq_one.mp honce with hzero | hone
    · rw [List.length_eq_zero_iff.mp hzero]
      exact List.Pairwise.nil
    · obtain ⟨id, rfl⟩ := List.length_eq_one_iff.mp hone
      exact List.pairwise_singleton _ _
  · intro id hid id' hid'
    rw [hys id' (List.mem_of_mem_filter hid')]
    exact hlt id (List.mem_of_mem_filter hid)

theorem ordered_publish {s : ℕ} {r : Replica} {m : Message} (hinv : Inv net) (hlinked : Linked net)
    (hordered : Ordered net)
    (hkept : r.kept = (net.nodes s).replica.kept ++ [⟨m, net.pubs.length⟩]) :
    Ordered (net.publish s r m) := by
  intro src dst hne
  have hlt : ∀ id ∈ history net dst ++ arriving net src dst, id < net.pubs.length :=
    fun id hid => lt_of_mem hinv hid
  have hold : ((history net dst ++ arriving net src dst).filter
      (direct (net.publish s r m) src dst)).Pairwise (· < ·) := by
    rw [List.filter_congr fun id hid => direct_publish (hlt id hid)]
    exact hordered src dst hne
  rw [history_publish hkept, arriving_publish]
  by_cases hs : s = src
  · -- the message goes to the end of the connection, at most once
    subst hs
    have honce := hlinked.once s dst
    rw [ends] at honce
    rw [if_neg (Ne.symm hne), List.append_nil, ← List.append_assoc]
    apply pairwise_concat_new hold hlt
    · intro id hid
      split at hid
      · exact List.eq_of_mem_replicate hid
      · simp at hid
    · split
      · rw [List.length_replicate]
        omega
      · simp
  · -- the new message is not one of `src`
    have hnotsent : ¬(s = src ∧ m.content ≠ []) := fun hand => hs hand.1
    have hdropped : (if dst = s then [net.pubs.length] else []).filter
        (direct (net.publish s r m) src dst) = [] := by
      rw [List.filter_eq_nil_iff]
      intro id hid htrue
      split at hid
      · rw [List.mem_singleton.mp hid] at htrue
        exact hs (server_of_direct htrue)
      · simp at hid
    rw [if_neg hnotsent, List.append_nil, List.filter_append, List.filter_append, hdropped,
      List.append_nil, ← List.filter_append]
    exact hold

/-- What is on its way on a connection, once a request was taken and its reply sent. -/
theorem arriving_answer {p : Packet} {rest : List Packet}
    (hrecv : receive (onChannel src dst) net.wire = some (p, rest))
    (hframe : p.frame = .sgetMessages) (s d : ℕ) :
    arriving (net.answer src dst rest) s d = arriving net s d
      ++ if dst = s ∧ src = d then (Frame.smessages (net.nodes dst).replica.recent).ids else [] := by
  have harriving : arriving net s d = (rest.filter (onChannel s d)).flatMap fun p => p.frame.ids := by
    by_cases hon : onChannel s d p = true
    · have hsame : onChannel s d = onChannel src dst := by
        have hends := ends_of_receive hrecv
        rw [onChannel, Bool.and_eq_true, beq_iff_eq, beq_iff_eq] at hon
        rw [← hon.1, ← hon.2, hends.1, hends.2]
      rw [arriving, hsame, receive_eq_some hrecv, List.flatMap_cons, hframe, ids_sgetMessages,
        List.nil_append]
    · rw [arriving, filter_receive hrecv (by simpa using hon)]
  rw [harriving, arriving, Net.answer, List.filter_append, List.flatMap_append]
  congr 1
  by_cases hand : dst = s ∧ src = d
  · rw [if_pos hand, List.filter_cons_of_pos (by simp [onChannel, hand])]
    simp
  · rw [if_neg hand, List.filter_cons_of_neg (by simpa [onChannel] using hand)]
    rfl

/-- A reply takes messages out of the count. -/
theorem direct_of_answer {rest : List Packet} {s d id : ℕ}
    (h : direct (net.answer src dst rest) s d id = true) : direct net s d id = true := by
  rw [direct, Bool.and_eq_true, Bool.not_eq_true', List.contains_eq_mem,
    decide_eq_false_iff_not] at h ⊢
  refine ⟨h.1, fun hmem => h.2 ?_⟩
  rw [answered, replies_answer]
  split
  · rw [List.flatten_append]
    exact List.mem_append_left _ hmem
  · exact hmem

/-- A reply is on its way: what is in it is no longer counted. -/
theorem ordered_answer {p : Packet} {rest : List Packet} (hordered : Ordered net)
    (hrecv : receive (onChannel src dst) net.wire = some (p, rest)) (hframe : p.frame = .sgetMessages) :
    Ordered (net.answer src dst rest) := by
  intro s d hne
  have hnew : ∀ id, d = src → id ∈ (Frame.smessages (net.nodes dst).replica.recent).ids →
      direct (net.answer src dst rest) s d id = false := by
    intro id hd hid
    rw [direct, answered, replies_answer, if_pos hd, List.flatten_append, List.flatten_singleton,
      List.contains_eq_mem, decide_eq_true (List.mem_append_right _ hid)]
    simp
  have hdropped : (if dst = s ∧ src = d then (Frame.smessages (net.nodes dst).replica.recent).ids
      else []).filter (direct (net.answer src dst rest) s d) = [] := by
    rw [List.filter_eq_nil_iff]
    intro id hid
    split at hid
    · rename_i hand
      rw [hnew id hand.2.symm hid]
      exact Bool.false_ne_true
    · simp at hid
  rw [arriving_answer hrecv hframe, ← List.append_assoc, List.filter_append, hdropped,
    List.append_nil]
  exact pairwise_of_sublist (hordered s d hne) (List.Sublist.refl _) fun id _ => direct_of_answer

/-- A frame is stored: what was on its way is stored at the end. -/
theorem ordered_store {p : Packet} {rest : List Packet} {r : Replica} {new : List Copy}
    (hsourced : Sourced net) (hordered : Ordered net)
    (hrecv : receive (onChannel src dst) net.wire = some (p, rest))
    (hkept : r.kept = (net.nodes dst).replica.kept ++ new) (hnew : new.map Copy.id = p.frame.ids) :
    Ordered (net.store dst r rest) := by
  intro s d hne
  have hold := hordered s d hne
  have hdirect : direct (net.store dst r rest) s d = direct net s d := rfl
  have hends := ends_of_receive hrecv
  have hhistory : history (net.store dst r rest) d
      = history net d ++ if d = dst then p.frame.ids else [] := by
    rw [history, history, replica_store]
    split
    · rename_i hd
      rw [hkept, hd, List.map_append, hnew]
    · rw [List.append_nil]
  rw [hdirect, hhistory]
  by_cases hon : onChannel s d p = true
  · rw [onChannel, Bool.and_eq_true, beq_iff_eq, beq_iff_eq, hends.1, hends.2] at hon
    obtain ⟨rfl, rfl⟩ := hon
    have harriving : arriving net src dst = p.frame.ids ++ arriving (net.store dst r rest) src dst := by
      rw [arriving, receive_eq_some hrecv, List.flatMap_cons]
      rfl
    rwa [if_pos rfl, List.append_assoc, ← harriving]
  · have harriving : arriving (net.store dst r rest) s d = arriving net s d := by
      rw [arriving, arriving, ← filter_receive hrecv (by simpa using hon)]
      rfl
    have hdropped : (if d = dst then p.frame.ids else []).filter (direct net s d) = [] := by
      rw [List.filter_eq_nil_iff]
      intro id hid htrue
      split at hid
      · rename_i hd
        rw [direct, Bool.and_eq_true, Bool.not_eq_true', List.contains_eq_mem,
          decide_eq_false_iff_not] at htrue
        rcases hsourced p (mem_of_receive hrecv).1 id hid with hpub | hanswered
        · rw [hends.1] at hpub
          apply hon
          rw [onChannel, hends.1, hends.2, hd, publishedAt_unique hpub htrue.1]
          simp
        · rw [hends.2, ← hd] at hanswered
          exact htrue.2 hanswered
      · simp at hid
    rw [harriving, List.filter_append, List.filter_append, hdropped, List.append_nil,
      ← List.filter_append]
    exact hold

theorem ordered_step {net' : Net} {a : Action} (hinv : Inv net) (hlinked : Linked net)
    (hsourced : Sourced net) (hordered : Ordered net) (h : step net a = some net') :
    Ordered net' := by
  cases stepped_of_step h with
  | @join s listed _ _ =>
    intro src dst hne
    have hhistory : history (net.join s (joinToOldServers s listed)) dst = history net dst := by
      rw [history, replica_join]
      rfl
    have harriving : arriving (net.join s (joinToOldServers s listed)) src dst
        = arriving net src dst := by
      have hnone : ((sendInitialComm s (joinToOldServers s listed)).filter (onChannel src dst)).flatMap
          (fun p => p.frame.ids) = [] := by
        rw [List.flatMap_eq_nil_iff]
        intro p hp
        obtain ⟨d, -, rfl⟩ := List.mem_map.mp (List.mem_of_mem_filter hp)
        rfl
      rw [arriving, Net.join, List.filter_append, List.flatMap_append, hnone, List.append_nil]
      rfl
    rw [hhistory, harriving]
    exact hordered src dst hne
  | @accept client s _ =>
    intro src dst hne
    have hhistory : history (net.accept client s) dst = history net dst := by
      rw [history, replica_accept]
      rfl
    rw [hhistory]
    exact hordered src dst hne
  | publish _ hpub _ => exact ordered_publish hinv hlinked hordered hpub.kept_eq
  | answer hrecv hframe => exact ordered_answer hordered hrecv hframe
  | @store src dst p rest copies r hrecv hframe hrun =>
    have hline : ∀ c ∈ copies, Replica.OneLine c.message.content := by
      intro c hc
      refine (hinv.wire p (mem_of_receive hrecv).1 c ?_).oneLine
      rwa [hframe]
    obtain ⟨new, hkept, hnew⟩ := run_storeInRoom hline hrun
    refine ordered_store hsourced hordered hrecv hkept ?_
    have hids := congrArg (List.map Prod.fst) hnew
    rw [List.map_map, List.map_map] at hids
    rw [hframe]
    exact hids

end Step

section Reachable

variable {capacity : ℕ → ℕ} {hcap : ∀ s, 0 < capacity s} {overflow : ℕ → Bool}
  {acts : List Action} {net : Net}

theorem sourced_run (h : run step (start capacity hcap overflow) acts = some net) : Sourced net := by
  refine run_induction (P := fun _ net => Sourced net) ?_ ?_ h
  · intro p hp
    simp [start] at hp
  · intro _ _ _ _ hrun hsourced hstep
    exact sourced_step (inv_run hrun) hsourced hstep

theorem ordered_run (h : run step (start capacity hcap overflow) acts = some net) : Ordered net := by
  refine run_induction (P := fun _ net => Ordered net) ?_ ?_ h
  · intro src dst _
    simp [history, arriving, start, Replica.start]
  · intro _ _ _ _ hrun hordered hstep
    exact ordered_step (inv_run hrun) (linked_run hrun) (sourced_run hrun) hordered hstep

/-- **The messages of a server are stored in the order of their publication**, each once, by every
other server that has them over the connection of the two only.  A message that was also in a reply to
the `SGET_MESSAGES` of the other server is left out: it may be stored once more, and out of order. -/
theorem stored_in_order (h : run step (start capacity hcap overflow) acts = some net) {src dst : ℕ}
    (hne : src ≠ dst) :
    (((stored net dst).map Copy.id).filter (direct net src dst)).Pairwise (· < ·) := by
  rw [stored_eq h]
  exact pairwise_of_sublist (ordered_run h src dst hne) (List.sublist_append_left _ _)
    fun _ _ => id

/-- A server that joins publishes twice before it is heard. -/
def publishedTwice : List Action :=
  [.join 0 [0], .join 1 [0, 1], .publish 1 (ascii "PUBLISH a"), .publish 1 (ascii "PUBLISH b"),
    .accept 1 0, .deliver 1 0, .deliver 1 0, .deliver 1 0]

theorem stored_in_order_publishedTwice :
    ∃ net, run step (start (fun _ => 4) (fun _ => by decide) fun _ => false) publishedTwice = some net
      ∧ (((stored net 0).map Copy.id).filter (direct net 1 0)).Pairwise (· < ·) := by
  have hrun : (run step (start (fun _ => 4) (fun _ => by decide) fun _ => false) publishedTwice).isSome
      = true := by rfl
  obtain ⟨net, hnet⟩ := Option.isSome_iff_exists.mp hrun
  exact ⟨net, hnet, stored_in_order hnet (by decide)⟩

end Reachable

end SenderOrder

end MessageBoard
