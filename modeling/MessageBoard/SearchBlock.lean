import MessageBoard.RmbMain

/-!
# The search block of the client

A ban is a number of tests, not a time: every test of a server uses up one, and the search tests every
entry of the list.  So a list that names a server often enough uses up its ban at once, and a list
that is fetched again and again uses up every ban.

* `searchLoop_exhausted` — a search that finds nothing has gone through the list, each entry once;
* `reselects_iff` — **a server that just failed is not selected again**, exactly for lists that name it
  no more often than its ban lasts;
* `bans_expire` — **every ban expires** within six lists that are fetched.
-/

namespace MessageBoard

open CText CScan Run

namespace Rmb

/-! ### The ban after a failure -/

/-- The ports of a server are unsigned shorts. -/
def PortsFit (s : Server) : Prop := s.udpPort < 2 ^ 16 ∧ s.tcpPort < 2 ^ 16

instance (s : Server) : Decidable (PortsFit s) :=
  inferInstanceAs (Decidable (s.udpPort < 2 ^ 16 ∧ s.tcpPort < 2 ^ 16))

theorem differentServers_copy {s : Server} (hs : PortsFit s) (t : Server) :
    differentServers s.copy t = differentServers s t := by
  apply differentServers_congr_left
  rw [differentServers_eq_false_iff]
  show (s.ipAddr, s.udpPort % 2 ^ 16, s.tcpPort % 2 ^ 16) = _
  rw [Nat.mod_eq_of_lt hs.1, Nat.mod_eq_of_lt hs.2]
  rfl

/-- A ban that runs is not renewed. -/
theorem banTime_renewBan {banned : List Server} {s : Server} {b : Server}
    (hb : isServerInList banned s = some b) : banTime (renewBan banned s) s
      = if banTime banned s < 0 then serverBanTime else banTime banned s := by
  induction banned with
  | nil => simp [isServerInList] at hb
  | cons u banned ih =>
    rw [renewBan, banTime_cons]
    cases hu : differentServers u s with
    | true =>
      have hrest : isServerInList banned s = some b := by
        rwa [isServerInList, List.find?_cons_of_neg (by simp [hu])] at hb
      rw [if_pos rfl, banTime_cons, hu, if_pos rfl, if_pos rfl, ih hrest]
    | false =>
      rw [if_neg Bool.false_ne_true, banTime_cons]
      by_cases hneg : u.fd < 0
      · rw [if_pos hneg]
        have hsame : differentServers (setBanTime u serverBanTime) s = false := hu
        rw [hsame]
        simp [hneg, setBanTime]
      · rw [if_neg hneg, hu]
        simp [hneg]

/-- **The ban after a failure**: five tests, or what was left of an earlier ban. -/
theorem banTime_banServer (banned : List Server) {s : Server} (hs : PortsFit s) :
    banTime (banServer banned s) s
      = if banTime banned s < 0 then serverBanTime else banTime banned s := by
  rw [banServer]
  cases hb : isServerInList banned s with
  | none =>
    have hnone : banTime banned s = -1 := by rw [banTime, hb]
    have hsame : differentServers (setBanTime s.copy serverBanTime) s = false :=
      (differentServers_copy hs s).trans (differentServers_self s)
    simp only []
    rw [banTime_cons, hsame, hnone]
    rfl
  | some b => exact banTime_renewBan hb

/-- One entry of the server is removed, if there is one. -/
theorem entries_remAwolServer_self (servers : List Server) (s : Server) :
    entries (remAwolServer servers s) s = entries servers s - 1 := by
  induction servers with
  | nil => rfl
  | cons u servers ih =>
    rw [remAwolServer]
    cases hu : differentServers u s with
    | true =>
      rw [if_pos rfl, entries_cons, entries_cons, hu, if_pos rfl, Nat.add_zero, Nat.add_zero, ih]
    | false =>
      rw [if_neg Bool.false_ne_true, entries_cons, hu, if_neg Bool.false_ne_true,
        Nat.add_sub_cancel]

/-! ### One search -/

/-- **A search that finds nothing has gone through the list**, and each entry has used up one test. -/
theorem searchLoop_exhausted (rand : ℕ → ℕ) {turns : ℕ} {servers banned : List Server}
    (hturns : servers.length ≤ turns) (hnone : (searchLoop rand turns servers banned).1 = none) :
    (searchLoop rand turns servers banned).2.1 = []
      ∧ ∀ t, banTime (searchLoop rand turns servers banned).2.2 t
        = banTime banned t - entries servers t := by
  induction turns generalizing servers banned with
  | zero =>
    have hnil : servers = [] := List.length_eq_zero_iff.mp (by omega)
    subst hnil
    simp [searchLoop, entries]
  | succ turns ih =>
    rw [searchLoop] at hnone ⊢
    cases hsel : selectServer (rand turns) servers with
    | none =>
      have hnil := (selectServer_eq_none_iff _ _).mp hsel
      subst hnil
      simp [entries]
    | some s =>
      have hs := selectServer_mem hsel
      rw [hsel] at hnone
      simp only [isBanned_fst, decide_eq_true_eq] at hnone ⊢
      by_cases hbanned : 1 ≤ banTime banned s
      · have hlen := length_remAwolServer hs
        rw [if_pos hbanned] at hnone ⊢
        obtain ⟨hempty, htime⟩ := ih (by omega) hnone
        refine ⟨hempty, fun t => ?_⟩
        rw [htime, banTime_isBanned hbanned, entries_remAwolServer hs]
        split
        · rfl
        · rename_i hsame
          have hpos := one_le_entries hs
          rw [← entries_congr (by simpa using hsame)] at hpos
          omega
      · rw [if_neg hbanned] at hnone
        simp at hnone

/-- A server with no more entries than tests left of its ban is not found. -/
theorem searchLoop_ne {rand : ℕ → ℕ} {turns : ℕ} {servers banned : List Server} {s t : Server}
    (hleft : (entries servers s : ℤ) ≤ banTime banned s)
    (hfound : (searchLoop rand turns servers banned).1 = some t) : differentServers t s = true := by
  induction turns generalizing servers banned with
  | zero => simp [searchLoop] at hfound
  | succ turns ih =>
    rw [searchLoop] at hfound
    cases hsel : selectServer (rand turns) servers with
    | none =>
      rw [hsel] at hfound
      simp at hfound
    | some u =>
      have hu := selectServer_mem hsel
      rw [hsel] at hfound
      simp only [isBanned_fst, decide_eq_true_eq] at hfound
      by_cases hbanned : 1 ≤ banTime banned u
      · rw [if_pos hbanned] at hfound
        apply ih _ hfound
        rw [entries_remAwolServer hu, banTime_isBanned hbanned]
        split
        · exact hleft
        · rename_i hsame
          have hpos := one_le_entries hu
          rw [← entries_congr (by simpa using hsame)] at hpos
          omega
      · rw [if_neg hbanned, Option.some.injEq] at hfound
        subst hfound
        by_contra hsame
        rw [Bool.not_eq_true] at hsame
        have hpos := one_le_entries hu
        rw [entries_congr hsame] at hpos
        rw [banTime_congr hsame] at hbanned
        omega

theorem searchLoop_congr (rand rand' : ℕ → ℕ) {turns : ℕ} (h : ∀ k < turns, rand k = rand' k)
    (servers banned : List Server) :
    searchLoop rand turns servers banned = searchLoop rand' turns servers banned := by
  induction turns generalizing servers banned with
  | zero => rfl
  | succ turns ih =>
    have hrest : ∀ servers banned, searchLoop rand turns servers banned
        = searchLoop rand' turns servers banned := ih fun k hk => h k (by omega)
    rw [searchLoop, searchLoop, h turns (by omega)]
    simp only [hrest]

/-- **A server with more entries is found**, if `rand` always returns one of them. -/
theorem searchLoop_finds {turns : ℕ} {servers banned : List Server} {s : Server}
    (hturns : servers.length ≤ turns) (hban : 0 ≤ banTime banned s)
    (hmore : banTime banned s < entries servers s) :
    ∃ rand t, (searchLoop rand turns servers banned).1 = some t ∧ differentServers t s = false := by
  induction turns generalizing servers banned with
  | zero =>
    have hnil : servers = [] := List.length_eq_zero_iff.mp (by omega)
    subst hnil
    simp [entries] at hmore
    omega
  | succ turns ih =>
    have hpos : 0 < entries servers s := by omega
    obtain ⟨u, hu, hsame⟩ := List.countP_pos_iff.mp hpos
    have hsame' : differentServers u s = false := by simpa using hsame
    obtain ⟨i, hi, hget⟩ := List.getElem_of_mem hu
    have hsel : ∀ r, r = i → selectServer r servers = some u := by
      intro r hr
      have hne : servers ≠ [] := List.ne_nil_of_mem hu
      rw [selectServer, if_neg (by simpa using hne), hr, Nat.mod_eq_of_lt hi,
        List.getElem?_eq_getElem hi, hget]
    by_cases hbanned : 1 ≤ banTime banned u
    · have hlen := length_remAwolServer hu
      have hentries := entries_remAwolServer hu s
      have htime := banTime_isBanned hbanned s
      rw [differentServers_comm, hsame', if_neg Bool.false_ne_true] at hentries htime
      have hban' : 0 ≤ banTime (isBanned banned u).2 s := by
        rw [htime, ← banTime_congr hsame']
        omega
      have hmore' : banTime (isBanned banned u).2 s < entries (remAwolServer servers u) s := by
        rw [htime, hentries]
        omega
      obtain ⟨rand, t, hfound, ht⟩ := ih (by omega) hban' hmore'
      refine ⟨fun k => if k = turns then i else rand k, t, ?_, ht⟩
      rw [searchLoop, hsel _ (if_pos rfl)]
      simp only [isBanned_fst, decide_eq_true_eq]
      rw [if_pos hbanned, searchLoop_congr _ rand fun k hk => if_neg (Nat.ne_of_lt hk)]
      exact hfound
    · refine ⟨fun _ => i, u, ?_, hsame'⟩
      rw [searchLoop, hsel _ rfl]
      simp only [isBanned_fst, decide_eq_true_eq]
      rw [if_neg hbanned]

/-! ### The block -/

section Block

variable {inetAton : Text → Bool}

theorem selServer_lookFor (rand : ℕ → ℕ) (fetched : Option (List Server)) (c : Client) :
    (lookFor rand fetched c).selServer
      = (searchLoop rand c.msgserversLst.length c.msgserversLst c.banserversLst).1 := by
  simp only [lookFor]
  split
  · rfl
  · split <;> rfl

variable (inetAton) in
/-- The block with a selected server that does not answer, and no error. -/
theorem turn_awol {c : Client} {s : Server} (herr : c.err = 0) (hsel : c.selServer = some s)
    (hna : c.serverNotAnswering = true) (hexit : c.gExit = false) (rand : ℕ → ℕ)
    (fetched : Option (List Server)) : ∃ c', turn inetAton c (.search rand fetched) = some c'
      ∧ c'.selServer = (searchLoop rand (remAwolServer c.msgserversLst s).length
          (remAwolServer c.msgserversLst s) (banServer c.banserversLst s)).1 := by
  have hneeds : c.needsSearch = true := by simp [Client.needsSearch, hna]
  rw [turn, if_pos ⟨hexit, hneeds⟩]
  simp only [giveUp, herr, hna, hsel, bne_self_eq_false, Bool.or_true, if_true, Option.map_some]
  exact ⟨_, rfl, selServer_lookFor _ _ _⟩

/-- After the failed server `s` the block does not select it again, whatever `rand` returns. -/
def NotReselected (inetAton : Text → Bool) (c : Client) (s : Server) : Prop :=
  ∀ rand fetched c' t, turn inetAton c (.search rand fetched) = some c' → c'.selServer = some t →
    differentServers t s = true

/-- How many tests a ban of `s` lasts when it is given up. -/
def banLasts (banned : List Server) (s : Server) : ℤ :=
  if banTime banned s < 0 then serverBanTime else banTime banned s

/-- **A server that just failed is not selected again from the same list**, exactly if the list has at
most one entry of it more than its ban lasts tests. -/
theorem reselects_iff {c : Client} {s : Server} (hs : PortsFit s) (herr : c.err = 0)
    (hsel : c.selServer = some s) (hna : c.serverNotAnswering = true) (hexit : c.gExit = false) :
    NotReselected inetAton c s
      ↔ (entries c.msgserversLst s : ℤ) ≤ banLasts c.banserversLst s + 1 := by
  have htime : banTime (banServer c.banserversLst s) s = banLasts c.banserversLst s :=
    banTime_banServer c.banserversLst hs
  have hpos : 0 ≤ banLasts c.banserversLst s := by
    rw [banLasts]
    split
    · decide
    · omega
  have hentries : entries (remAwolServer c.msgserversLst s) s = entries c.msgserversLst s - 1 :=
    entries_remAwolServer_self _ _
  constructor
  · intro hnot
    by_contra hmore
    have hban : 0 ≤ banTime (banServer c.banserversLst s) s := by omega
    have hleft : banTime (banServer c.banserversLst s) s
        < entries (remAwolServer c.msgserversLst s) s := by omega
    obtain ⟨rand, t, hfound, hsame⟩ := searchLoop_finds le_rfl hban hleft
    obtain ⟨c', hturn, hsel'⟩ := turn_awol inetAton herr hsel hna hexit rand none
    have hdiff := hnot rand none c' t hturn (hsel'.trans hfound)
    rw [hsame] at hdiff
    simp at hdiff
  · intro hle rand fetched c' t hturn hsel'
    obtain ⟨c'', hturn', hsel''⟩ := turn_awol inetAton herr hsel hna hexit rand fetched
    rw [hturn, Option.some.injEq] at hturn'
    subst hturn'
    exact searchLoop_ne (by omega) (hsel''.symm.trans hsel')

/-! ### Bans that expire -/

/-- The block goes through its list without having a server or having to give one up. -/
structure Searching (c : Client) : Prop where
  selServer : c.selServer = none
  err : c.err = 0
  answering : c.serverNotAnswering = false
  gExit : c.gExit = false

variable (inetAton) in
/-- One search, which ends with a server or with the list fetched again and every ban of an entry
shorter. -/
theorem turn_searching {c : Client} (hc : Searching c) (rand : ℕ → ℕ) (servers : List Server) :
    ∃ c', turn inetAton c (.search rand (some servers)) = some c' ∧ (c'.selServer ≠ none
      ∨ NoneLeft c.msgserversLst c.banserversLst ∧ Searching c' ∧ c'.msgserversLst = servers
        ∧ ∀ t, banTime c'.banserversLst t = banTime c.banserversLst t - entries c.msgserversLst t) := by
  have hneeds : c.needsSearch = true := by simp [Client.needsSearch, hc.selServer]
  have hgive : giveUp c = some { c with statics := cancelServerTest c.statics } := by
    simp [giveUp, hc.err, hc.answering]
  rw [turn, if_pos ⟨hc.gExit, hneeds⟩, hgive, Option.map_some]
  refine ⟨_, rfl, ?_⟩
  cases hfound : (searchLoop rand c.msgserversLst.length c.msgserversLst c.banserversLst).1 with
  | some s =>
    left
    rw [selServer_lookFor]
    show (searchLoop rand c.msgserversLst.length c.msgserversLst c.banserversLst).1 ≠ none
    rw [hfound]
    simp
  | none =>
    right
    have hexhausted := (searchLoop_exhausted rand le_rfl hfound).2
    refine ⟨(searchLoop_eq_none_iff rand le_rfl).mp hfound, ?_⟩
    simp only [lookFor, hfound]
    exact ⟨⟨rfl, rfl, rfl, hc.gExit⟩, trivial, hexhausted⟩

/-- The block is entered `n` times, and each fetch yields the same list. -/
def searches (rands : ℕ → ℕ → ℕ) (servers : List Server) (n : ℕ) : List Event :=
  (List.range n).map fun i => .search (rands i) (some servers)

theorem searches_succ (rands : ℕ → ℕ → ℕ) (servers : List Server) (n : ℕ) :
    searches rands servers (n + 1)
      = .search (rands 0) (some servers) :: searches (fun i => rands (i + 1)) servers n := by
  rw [searches, searches, List.range_succ_eq_map, List.map_cons, List.map_map]
  rfl

variable (inetAton) in
/-- **A list whose bans last at most `k` tests** is gone through at most `k + 1` times. -/
theorem finds_within {c : Client} (hc : Searching c) {servers : List Server} (hne : servers ≠ [])
    (hlist : c.msgserversLst = servers) {k : ℕ} (hbans : ∀ s ∈ servers, banTime c.banserversLst s ≤ k)
    (rands : ℕ → ℕ → ℕ) : ∃ n c' s, n ≤ k ∧ run (turn inetAton) c (searches rands servers (n + 1))
      = some c' ∧ c'.selServer = some s := by
  induction k generalizing c rands with
  | zero =>
    obtain ⟨c', hturn, hend⟩ := turn_searching inetAton hc (rands 0) servers
    rcases hend with hsel | ⟨hnone, -⟩
    · obtain ⟨s, hs⟩ := Option.ne_none_iff_exists'.mp hsel
      exact ⟨0, c', s, le_rfl, (run_singleton _ _).trans hturn, hs⟩
    · obtain ⟨s, hs⟩ := List.exists_mem_of_ne_nil servers hne
      have hleft := hnone s (hlist ▸ hs)
      have hpos := one_le_entries (hlist ▸ hs : s ∈ c.msgserversLst)
      have hban := hbans s hs
      omega
  | succ k ih =>
    obtain ⟨c', hturn, hend⟩ := turn_searching inetAton hc (rands 0) servers
    rcases hend with hsel | ⟨-, hc', hlist', htime⟩
    · obtain ⟨s, hs⟩ := Option.ne_none_iff_exists'.mp hsel
      exact ⟨0, c', s, Nat.zero_le _, (run_singleton _ _).trans hturn, hs⟩
    · have hbans' : ∀ s ∈ servers, banTime c'.banserversLst s ≤ k := by
        intro s hs
        have hpos := one_le_entries (hlist ▸ hs : s ∈ c.msgserversLst)
        have hban := hbans s hs
        rw [htime]
        push_cast at hban ⊢
        omega
      obtain ⟨n, c'', s, hn, hrun, hs⟩ := ih hc' hlist' hbans' fun i => rands (i + 1)
      refine ⟨n + 1, c'', s, by omega, ?_, hs⟩
      rw [searches_succ, run_cons, hturn]
      exact hrun

/-- A ban time is that of an entry, or that of no ban. -/
theorem banTime_le {banned : List Server} {k : ℤ} (hk : -1 ≤ k) (hbans : ∀ b ∈ banned, b.fd ≤ k)
    (s : Server) : banTime banned s ≤ k := by
  rw [banTime]
  split
  · exact hk
  · rename_i b hb
    exact hbans b (List.mem_of_find?_eq_some hb)

/-- **Bans expire**: whatever list is gone through first, a server is found in the sixth list fetched
after it at the latest, and in the fifth if the first one was fetched too. -/
theorem bans_expire {c : Client} (hc : Searching c)
    (hbans : ∀ b ∈ c.banserversLst, b.fd ≤ serverBanTime) {servers : List Server}
    (hne : servers ≠ []) (rands : ℕ → ℕ → ℕ) :
    ∃ fetched c' s, fetched ≤ 6 ∧ (c.msgserversLst = servers → fetched ≤ 5)
      ∧ run (turn inetAton) c (searches rands servers (fetched + 1)) = some c'
      ∧ c'.selServer = some s := by
  have hfive : ∀ s, banTime c.banserversLst s ≤ (5 : ℕ) := banTime_le (by decide) hbans
  by_cases hlist : c.msgserversLst = servers
  · obtain ⟨n, c', s, hn, hrun, hs⟩ := finds_within inetAton hc hne hlist
      (fun s _ => hfive s) rands
    exact ⟨n, c', s, by omega, fun _ => hn, hrun, hs⟩
  · obtain ⟨c₁, hturn, hend⟩ := turn_searching inetAton hc (rands 0) servers
    rcases hend with hsel | ⟨-, hc₁, hlist₁, htime⟩
    · obtain ⟨s, hs⟩ := Option.ne_none_iff_exists'.mp hsel
      exact ⟨0, c₁, s, by omega, fun heq => absurd heq hlist, (run_singleton _ _).trans hturn, hs⟩
    · obtain ⟨n, c', s, hn, hrun, hs⟩ := finds_within inetAton hc₁ hne hlist₁
        (k := 5) (fun s _ => by rw [htime]; have := hfive s; omega) fun i => rands (i + 1)
      refine ⟨n + 1, c', s, by omega, fun heq => absurd heq hlist, ?_, hs⟩
      rw [searches_succ, run_cons, hturn]
      exact hrun

end Block

/-! ### Two lists -/

/-- A client whose selected server does not answer, with a list that names it `n` times. -/
def awol (n : ℕ) : Client :=
  { Client.start (List.replicate n (host 1)) 0 with serverNotAnswering := true }

/-- Six entries: the ban lasts for the five that are left. -/
theorem reselects_six : NotReselected (fun _ => true) (awol 6) (host 1) :=
  (reselects_iff (by decide) (by decide) (by decide) rfl rfl).mpr (by decide)

/-- **Seven entries**: the ban is used up, and the server that failed is selected again. -/
theorem reselected_seven : ¬∀ c s, PortsFit s → c.err = 0 → c.selServer = some s →
    c.serverNotAnswering = true → c.gExit = false → NotReselected (fun _ => true) c s := by
  intro h
  have hnot := h (awol 7) (host 1) (by decide) (by decide) (by decide) rfl rfl
  have hsel : ((turn (fun _ => true) (awol 7) (.search (fun _ => 0) none)).bind Client.selServer)
      = some (host 1) := by decide
  obtain ⟨c', hturn, hsel'⟩ := Option.bind_eq_some_iff.mp hsel
  have hdiff := hnot _ none c' _ hturn hsel'
  rw [differentServers_self] at hdiff
  simp at hdiff

/-- A client that has no server left, and has banned the only one there is. -/
def exhausted : Client :=
  { Client.start [] 0 with banserversLst := [setBanTime (host 1) serverBanTime] }

/-- It is found in the sixth list. -/
theorem bans_expire_one : ∃ fetched c' s, fetched ≤ 6 ∧ (exhausted.msgserversLst = [host 1] → fetched ≤ 5)
    ∧ run (turn fun _ => true) exhausted (searches (fun _ _ => 0) [host 1] (fetched + 1)) = some c'
    ∧ c'.selServer = some s :=
  bans_expire ⟨rfl, rfl, rfl, rfl⟩ (by decide) (by decide) _

end Rmb

end MessageBoard
