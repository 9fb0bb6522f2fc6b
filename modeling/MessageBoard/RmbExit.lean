import MessageBoard.BanTime
import MessageBoard.DescriptorOwnership
import MessageBoard.RmbIdentity
import MessageBoard.RmbSelected

/-!
# What a client closes when it ends

The client ends with `free_list`, and `free_server` closes the descriptor of an entry.  The entries that
`parse_servers` makes have none, but a ban keeps its time in the place of the descriptor.

* `fd_of_fetchServers` — an entry of a list that was fetched has the number of no descriptor;
* `bans_run` — no ban time is above `SERVER_BAN_TIME`;
* `exit_closes` — **the end of a client closes its two sockets and one more number for every ban that is
  left**, so exactly its sockets if none is.
-/

namespace MessageBoard

open CText CScan Transducer DescriptorOwnership

namespace Rmb

/-- `PROGRAM_EXIT`. -/
def exitEvents (outgoingFd bindedFd : ℤ) (c : Client) : List (Ledger.Event ℤ) :=
  closeFdEvents outgoingFd ++ closeFdEvents bindedFd ++ freeList c.msgserversLst
    ++ freeList c.banserversLst

/-- The list was fetched from the identity server. -/
def Fetched (servers : List Server) : Prop :=
  ∃ datagram l, fetchServers (some datagram) = some (some l) ∧ l.nodes = servers

/-- The ban times that are left. -/
def bansLeft (c : Client) : List ℤ := (c.banserversLst.map Server.fd).filter fun fd => 0 < fd

/-! ### The entries of a list -/

theorem fd_of_parseLines {lines : List Text} {l l' : LinkedList Server} (hl : ∀ s ∈ l.nodes, s.fd = -2)
    (h : parseLines l lines = some l') : ∀ s ∈ l'.nodes, s.fd = -2 := by
  induction lines generalizing l with
  | nil => exact Option.some.inj h ▸ hl
  | cons line lines ih =>
    simp only [parseLines] at h
    split at h
    · simp at h
    · split at h
      · refine ih ?_ h
        intro s hs
        rw [LinkedList.nodes_pushItem] at hs
        rcases List.mem_cons.mp hs with rfl | hs
        · rfl
        · exact hl s hs
      · exact Option.some.inj h ▸ hl

theorem fd_of_fetchServers {servers : List Server} (h : Fetched servers) : ∀ s ∈ servers, s.fd = -2 := by
  obtain ⟨datagram, l, hfetch, rfl⟩ := h
  obtain ⟨_, _, _, hparse⟩ := parseServers_of_fetchServers hfetch
  exact fd_of_parseLines (by simp [LinkedList.nodes_createList]) hparse

/-- An entry with no descriptor is freed without a `close`. -/
theorem freeList_eq_nil {l : List Server} (h : ∀ s ∈ l, s.fd ≤ 0) : freeList l = [] := by
  rw [freeList, List.flatMap_eq_nil_iff]
  intro s hs
  rw [freeServerEvents, if_neg (not_lt.mpr (h s hs))]

theorem freeList_eq (l : List Server) :
    freeList l = ((l.map Server.fd).filter fun fd => 0 < fd).map .closed := by
  induction l with
  | nil => rfl
  | cons s l ih =>
    rw [freeList, List.flatMap_cons, ← freeList, ih, freeServerEvents]
    by_cases hpos : 0 < s.fd
    · rw [if_pos hpos, closeFdEvents, if_neg hpos.not_gt, List.map_cons,
        List.filter_cons_of_pos (by simpa using hpos)]
      rfl
    · rw [if_neg hpos, List.map_cons, List.filter_cons_of_neg (by simpa using hpos)]
      rfl

/-! ### The ban times -/

/-- No ban time is above `SERVER_BAN_TIME`. -/
def Bounded (banned : List Server) : Prop := ∀ b ∈ banned, b.fd ≤ serverBanTime

theorem bounded_searchLoop {banned : List Server} (h : Bounded banned) (rand : ℕ → ℕ) (turns : ℕ)
    (servers : List Server) : Bounded (searchLoop rand turns servers banned).2.2 := by
  induction turns generalizing servers banned with
  | zero => exact h
  | succ turns ih =>
    rw [searchLoop]
    cases selectServer (rand turns) servers with
    | none => exact h
    | some s =>
      have hrest : Bounded (isBanned banned s).2 := fun b hb => BanTime.fd_isBanned_le h hb
      dsimp only
      split
      · exact ih hrest _
      · exact hrest

theorem bounded_giveUp {c c' : Client} (h : Bounded c.banserversLst) (hgive : giveUp c = some c') :
    Bounded c'.banserversLst := by
  simp only [giveUp] at hgive
  split at hgive
  · split at hgive
    · rw [← Option.some.inj hgive]
      exact fun b hb => BanTime.fd_banServer_le h hb
    · split at hgive
      · rw [← Option.some.inj hgive]
        exact h
      · simp at hgive
  · rw [← Option.some.inj hgive]
    exact h

theorem banserversLst_lookFor (rand : ℕ → ℕ) (fetched : Option (List Server)) (c : Client) :
    (lookFor rand fetched c).banserversLst
      = (searchLoop rand c.msgserversLst.length c.msgserversLst c.banserversLst).2.2 := by
  simp only [lookFor]
  split
  · rfl
  · cases fetched <;> rfl

section Commands

variable {inetAton : Text → Bool}

/-- **One turn.** -/
theorem bounded_terminalTurn {listed : List Server} {t t' : Terminal} {w : Wakeup}
    {out : List (Server × Text)} (hsafe : Safe listed t.client) (h : Bounded t.client.banserversLst)
    (hturn : terminalTurn inetAton t w = some (t', out)) : Bounded t'.client.banserversLst := by
  cases w with
  | search rand fetched =>
    obtain ⟨c, hc, heq⟩ := Option.map_eq_some_iff.mp hturn
    obtain ⟨rfl, -⟩ := Prod.mk.inj heq
    rw [turn] at hc
    split at hc
    · obtain ⟨c₁, hgive, rfl⟩ := Option.map_eq_some_iff.mp hc
      show Bounded (lookFor rand fetched c₁).banserversLst
      rw [banserversLst_lookFor]
      exact bounded_searchLoop (bounded_giveUp h hgive) _ _ _
    · simp at hc
  | selectError =>
    obtain ⟨c, hc, heq⟩ := Option.map_eq_some_iff.mp hturn
    obtain ⟨rfl, -⟩ := Prod.mk.inj heq
    rw [(hsafe.turn (by simp) (by simp) hc).2.2]
    exact h
  | timer =>
    obtain ⟨c, hc, heq⟩ := Option.map_eq_some_iff.mp hturn
    obtain ⟨rfl, -⟩ := Prod.mk.inj heq
    rw [(hsafe.turn (by simp) (by simp) hc).2.2]
    exact h
  | ready incoming typed =>
    obtain ⟨c, hc, hrest⟩ := Option.bind_eq_some_iff.mp hturn
    obtain ⟨-, -, hbans⟩ := hsafe.turn (by simp) (by simp) hc
    rw [← hbans] at h
    cases typed with
    | none =>
      obtain ⟨rfl, -⟩ := Prod.mk.inj (Option.some.inj hrest)
      exact h
    | some sent =>
      cases hserver : c.selServer with
      | none =>
        simp only [hserver] at hrest
        obtain ⟨rfl, -⟩ := Prod.mk.inj (Option.some.inj hrest)
        exact h
      | some s =>
        simp only [hserver] at hrest
        obtain ⟨⟨t₁, ds⟩, hstdin, heq⟩ := Option.map_eq_some_iff.mp hrest
        obtain ⟨rfl, -⟩ := Prod.mk.inj heq
        rw [(kept_onStdin hstdin).2.1]
        exact h

theorem bans_run {listed : List Server} {t t' : Terminal} {wakeups : List Wakeup}
    {outs : List (List (Server × Text))} (hsafe : Safe listed t.client)
    (h : Bounded t.client.banserversLst)
    (hrun : respond (terminalTurn inetAton) t wakeups = some (t', outs)) :
    Bounded t'.client.banserversLst := by
  have hstep : ∀ t w t' out,
      ((∃ listed, Safe listed t.client) ∧ Bounded t.client.banserversLst) →
      terminalTurn inetAton t w = some (t', out) →
      ((∃ listed, Safe listed t'.client) ∧ Bounded t'.client.banserversLst) ∧ True := by
    intro t w t' out hboth hturn
    obtain ⟨⟨listed, hsafe⟩, hbans⟩ := hboth
    exact ⟨⟨⟨_, (safe_terminalTurn hsafe hturn).1⟩, bounded_terminalTurn hsafe hbans hturn⟩, trivial⟩
  exact (respond_invariant hstep ⟨⟨listed, hsafe⟩, h⟩ hrun).1.2

/-! ### The end -/

variable {servers : List Server} {rand : ℕ} {stdin : Text} {wakeups : List Wakeup} {t : Terminal}
  {outs : List (List (Server × Text))}

/-- The entries of the list have no descriptors. -/
theorem fd_of_run (hservers : Fetched servers)
    (hfetched : ∀ rand' l, .search rand' (some l) ∈ wakeups → Fetched l)
    (hrun : respond (terminalTurn inetAton) ⟨.start servers rand, stdin⟩ wakeups = some (t, outs)) :
    ∀ s ∈ t.client.msgserversLst, s.fd = -2 := by
  intro s hs
  have hmem := (safe_run (safe_start servers rand) hrun).entries s hs
  rcases List.mem_append.mp hmem with hfirst | hlater
  · exact fd_of_fetchServers hservers s hfirst
  · obtain ⟨w, hw, hsw⟩ := List.mem_flatMap.mp hlater
    cases w with
    | search rand' fetched =>
      cases fetched with
      | none => simp [Wakeup.fetched] at hsw
      | some l => exact fd_of_fetchServers (hfetched rand' l hw) s hsw
    | selectError => simp [Wakeup.fetched] at hsw
    | timer => simp [Wakeup.fetched] at hsw
    | ready incoming typed => simp [Wakeup.fetched] at hsw

/-- **What a client closes when it ends**: its two sockets, and a number from 1 to 5 for every ban that
is left, whatever descriptor that may be; so its sockets alone exactly if no ban is left. -/
theorem exit_closes (outgoingFd bindedFd : ℤ) (hservers : Fetched servers)
    (hfetched : ∀ rand' l, .search rand' (some l) ∈ wakeups → Fetched l)
    (hrun : respond (terminalTurn inetAton) ⟨.start servers rand, stdin⟩ wakeups = some (t, outs)) :
    exitEvents outgoingFd bindedFd t.client = closeFdEvents outgoingFd ++ closeFdEvents bindedFd
        ++ (bansLeft t.client).map .closed
      ∧ (∀ fd ∈ bansLeft t.client, 1 ≤ fd ∧ fd ≤ 5)
      ∧ (exitEvents outgoingFd bindedFd t.client = closeFdEvents outgoingFd ++ closeFdEvents bindedFd
        ↔ ∀ b ∈ t.client.banserversLst, b.fd ≤ 0) := by
  have hlist : freeList t.client.msgserversLst = [] := by
    apply freeList_eq_nil
    intro s hs
    rw [fd_of_run hservers hfetched hrun s hs]
    decide
  have hexit : exitEvents outgoingFd bindedFd t.client = closeFdEvents outgoingFd
      ++ closeFdEvents bindedFd ++ (bansLeft t.client).map .closed := by
    rw [exitEvents, hlist, List.append_nil, freeList_eq, bansLeft]
  have hbounded := bans_run (safe_start servers rand) (by simp [Client.start, Bounded]) hrun
  refine ⟨hexit, ?_, ?_⟩
  · intro fd hfd
    obtain ⟨hmem, hpos⟩ := List.mem_filter.mp hfd
    obtain ⟨b, hb, rfl⟩ := List.mem_map.mp hmem
    have hle : b.fd ≤ 5 := hbounded b hb
    rw [decide_eq_true_eq] at hpos
    omega
  · rw [hexit, List.append_right_eq_self, List.map_eq_nil_iff, bansLeft, List.filter_eq_nil_iff]
    simp

end Commands

/-! ### A ban that is left -/

def twoListed : Text := ascii "SERVERS\na;10.0.0.1;9000;9001\nb;10.0.0.2;9000;9001\n"

/-- A server that does not answer, and the end after the search has found the other one. -/
def endsBanned : List Wakeup :=
  [.ready none (some (true, true)), .timer, .timer, .search (fun _ => 0) none,
    .ready none (some (true, true))]

/-- The client closes its sockets 3 and 4, and then 5. -/
theorem exit_closes_banned : ∃ servers t outs, Fetched servers
    ∧ respond (terminalTurn fun _ => true) ⟨.start servers 0, ascii "2 a\nexit\n"⟩ endsBanned
      = some (t, outs)
    ∧ t.client.gExit = true
    ∧ exitEvents 3 4 t.client = [.closed 3, .closed 4, .closed 5]
    ∧ ∀ fd ∈ bansLeft t.client, 1 ≤ fd ∧ fd ≤ 5 := by
  have hend : ((fetchServers (some twoListed)).bind fun fetched => fetched.bind fun l =>
      (respond (terminalTurn fun _ => true) ⟨.start l.nodes 0, ascii "2 a\nexit\n"⟩ endsBanned).map
        fun r => (r.1.client.gExit, exitEvents 3 4 r.1.client))
      = some (true, [.closed 3, .closed 4, .closed 5]) := by decide +kernel
  obtain ⟨fetched, hfetch, hrest⟩ := Option.bind_eq_some_iff.mp hend
  obtain ⟨l, rfl, hrest⟩ := Option.bind_eq_some_iff.mp hrest
  obtain ⟨⟨t, outs⟩, hrun, heq⟩ := Option.map_eq_some_iff.mp hrest
  obtain ⟨hexit, hevents⟩ := Prod.mk.inj heq
  have hfetched : Fetched l.nodes := ⟨twoListed, l, hfetch, rfl⟩
  have hnone : ∀ rand' l', .search rand' (some l') ∈ endsBanned → Fetched l' := by
    simp [endsBanned]
  exact ⟨l.nodes, t, outs, hfetched, hrun, hexit, hevents, (exit_closes 3 4 hfetched hnone hrun).2.1⟩

end Rmb

end MessageBoard
