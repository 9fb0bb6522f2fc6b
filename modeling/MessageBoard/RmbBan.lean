import MessageBoard.RmbMessage

/-!
# `rmb/ban`: the list of banned servers

A banned server is a copy whose descriptor holds the ban time.  Every test of a server shortens its
ban by one, so whether the search of the main loop finds a server depends on how often the list has
a server and how long that one is still banned.

* `isBanned_fst`, `banTime_isBanned` — a test answers by the ban time left, and shortens it;
* `searchLoop_eq_none_iff` — **exactly when the search finds nothing**, whatever `rand` returns.
-/

namespace MessageBoard

open CText

namespace Rmb

/-- `SERVER_BAN_TIME`. -/
def serverBanTime : ℤ := 5

/-- `set_ban_time`. -/
def setBanTime (s : Server) (banTime : ℤ) : Server := { s with fd := banTime }

/-- `is_server_in_list`. -/
def isServerInList (listOfBanned : List Server) (s : Server) : Option Server :=
  listOfBanned.find? fun b => !differentServers b s

/-- `ban_server` for a server that is in the list: an expired ban is renewed. -/
def renewBan : List Server → Server → List Server
  | [], _ => []
  | b :: rest, s =>
      if differentServers b s then b :: renewBan rest s
      else (if b.fd < 0 then setBanTime b serverBanTime else b) :: rest

/-- `ban_server`. -/
def banServer (listOfBanned : List Server) (s : Server) : List Server :=
  match isServerInList listOfBanned s with
  | none => setBanTime s.copy serverBanTime :: listOfBanned
  | some _ => renewBan listOfBanned s

/-- `is_banned`: the ban of a server in the list is reduced before it is looked at. -/
def isBanned : List Server → Server → Bool × List Server
  | [], _ => (false, [])
  | b :: rest, s =>
      if differentServers b s then ((isBanned rest s).1, b :: (isBanned rest s).2)
      else (0 ≤ b.fd - 1, setBanTime b (b.fd - 1) :: rest)

/-- The search of the main loop: servers are selected, tested and, while they are banned, removed.
The bound is the number of entries, as each turn removes one. -/
def searchLoop (rand : ℕ → ℕ) : ℕ → List Server → List Server → Option Server × List Server × List Server
  | 0, servers, banned => (none, servers, banned)
  | turns + 1, servers, banned =>
      match selectServer (rand turns) servers with
      | none => (none, servers, banned)
      | some s =>
          if (isBanned banned s).1 then
            searchLoop rand turns (remAwolServer servers s) (isBanned banned s).2
          else (some s, servers, (isBanned banned s).2)

/-! ### Bans and entries by address -/

/-- The ban time left; a server that is not in the list has none. -/
def banTime (banned : List Server) (s : Server) : ℤ :=
  match isServerInList banned s with
  | none => -1
  | some b => b.fd

/-- How many entries of a list are the same server. -/
def entries (servers : List Server) (s : Server) : ℕ :=
  servers.countP fun t => !differentServers t s

/-- Every server left is banned for as many tests as it has entries. -/
def NoneLeft (servers banned : List Server) : Prop :=
  ∀ s ∈ servers, (entries servers s : ℤ) ≤ banTime banned s

instance (servers banned : List Server) : Decidable (NoneLeft servers banned) :=
  inferInstanceAs (Decidable (∀ s ∈ servers, (entries servers s : ℤ) ≤ banTime banned s))

theorem banTime_cons (b : Server) (banned : List Server) (s : Server) :
    banTime (b :: banned) s = if differentServers b s then banTime banned s else b.fd := by
  rw [banTime, isServerInList, List.find?_cons]
  cases hb : differentServers b s with
  | true => rfl
  | false => rfl

/-- A test says that a server is banned while its ban time is left. -/
theorem isBanned_fst (banned : List Server) (s : Server) :
    (isBanned banned s).1 = decide (1 ≤ banTime banned s) := by
  induction banned with
  | nil => rfl
  | cons b banned ih =>
    rw [isBanned, banTime_cons]
    split
    · exact ih
    · simp only [decide_eq_decide]
      omega

/-- A test shortens the ban of the server tested, and no other one. -/
theorem banTime_isBanned {banned : List Server} {s : Server} (hs : 1 ≤ banTime banned s) (t : Server) :
    banTime (isBanned banned s).2 t
      = if differentServers t s then banTime banned t else banTime banned t - 1 := by
  induction banned with
  | nil =>
    rw [banTime, isServerInList, List.find?_nil] at hs
    simp at hs
  | cons b banned ih =>
    rw [banTime_cons] at hs
    rw [isBanned]
    cases hb : differentServers b s with
    | true =>
      rw [hb, if_pos rfl] at hs
      rw [if_pos rfl, banTime_cons, banTime_cons, ih hs]
      cases ht : differentServers b t with
      | true => rfl
      | false =>
        rw [← differentServers_congr_left ht s, hb]
        rfl
    | false =>
      rw [if_neg Bool.false_ne_true, banTime_cons, banTime_cons]
      show (if differentServers b t then banTime banned t else b.fd - 1) = _
      rw [differentServers_congr_left hb t, differentServers_comm s t]
      split <;> rfl

/-! ### The search -/

theorem remAwolServer_sublist (servers : List Server) (s : Server) :
    (remAwolServer servers s).Sublist servers := by
  induction servers with
  | nil => exact List.Sublist.slnil
  | cons t servers ih =>
    rw [remAwolServer]
    split
    · exact ih.cons_cons t
    · exact List.sublist_cons_self t servers

theorem entries_cons (u : Server) (servers : List Server) (t : Server) :
    entries (u :: servers) t = entries servers t + if differentServers u t then 0 else 1 := by
  rw [entries, entries, List.countP_cons]
  cases differentServers u t <;> rfl

/-- The search goes past an entry of another server. -/
theorem mem_of_differentServers {servers : List Server} {s u : Server} (hs : s ∈ u :: servers)
    (hu : differentServers u s = true) : s ∈ servers := by
  rcases List.mem_cons.mp hs with rfl | hmem
  · rw [differentServers_self] at hu
    simp at hu
  · exact hmem

/-- One entry of the server is removed, and no other one. -/
theorem entries_remAwolServer {servers : List Server} {s : Server} (hs : s ∈ servers) (t : Server) :
    entries (remAwolServer servers s) t
      = if differentServers t s then entries servers t else entries servers t - 1 := by
  induction servers with
  | nil => simp at hs
  | cons u servers ih =>
    rw [remAwolServer]
    cases hu : differentServers u s with
    | true =>
      have hmem := mem_of_differentServers hs hu
      rw [if_pos rfl, entries_cons, entries_cons, ih hmem]
      cases ht : differentServers t s with
      | true => rfl
      | false =>
        have hut : differentServers u t = true := by
          rw [differentServers_comm, differentServers_congr_left ht, differentServers_comm]
          exact hu
        rw [if_neg Bool.false_ne_true, if_neg Bool.false_ne_true, if_pos hut, Nat.add_zero,
          Nat.add_zero]
    | false =>
      rw [if_neg Bool.false_ne_true, entries_cons, differentServers_congr_left hu t,
        differentServers_comm s t]
      split
      · rfl
      · exact (Nat.add_sub_cancel _ _).symm

theorem one_le_entries {servers : List Server} {s : Server} (hs : s ∈ servers) :
    1 ≤ entries servers s := by
  rw [entries, Nat.one_le_iff_ne_zero, ← Nat.pos_iff_ne_zero, List.countP_pos_iff]
  exact ⟨s, hs, by rw [differentServers_self]; rfl⟩

/-- The same server has the same entries and the same ban. -/
theorem entries_congr {s t : Server} (h : differentServers s t = false) (servers : List Server) :
    entries servers s = entries servers t := by
  rw [entries, entries]
  simp only [differentServers_comm _ s, differentServers_comm _ t, differentServers_congr_left h]

theorem banTime_congr {s t : Server} (h : differentServers s t = false) (banned : List Server) :
    banTime banned s = banTime banned t := by
  rw [banTime, banTime, isServerInList, isServerInList]
  simp only [differentServers_comm _ s, differentServers_comm _ t, differentServers_congr_left h]

theorem length_remAwolServer {servers : List Server} {s : Server} (hs : s ∈ servers) :
    (remAwolServer servers s).length + 1 = servers.length := by
  induction servers with
  | nil => simp at hs
  | cons u servers ih =>
    rw [remAwolServer]
    cases hu : differentServers u s with
    | true =>
      have hmem := mem_of_differentServers hs hu
      rw [if_pos rfl, List.length_cons, List.length_cons, ih hmem]
    | false => rw [if_neg Bool.false_ne_true, List.length_cons]

/-- A turn of the search on a banned server leaves the question as it was. -/
theorem noneLeft_turn {servers banned : List Server} {s : Server} (hs : s ∈ servers)
    (hbanned : 1 ≤ banTime banned s) :
    NoneLeft (remAwolServer servers s) (isBanned banned s).2 ↔ NoneLeft servers banned := by
  constructor
  · intro hnone t ht
    have hone := one_le_entries ht
    have hentries := entries_remAwolServer hs t
    have htime := banTime_isBanned hbanned t
    rcases Nat.eq_zero_or_pos (entries (remAwolServer servers s) t) with hzero | hpos
    · -- the last entry of the server tested
      cases hsame : differentServers t s with
      | true =>
        rw [hsame, if_pos rfl] at hentries
        omega
      | false =>
        rw [hsame, if_neg Bool.false_ne_true] at hentries
        rw [banTime_congr hsame]
        omega
    · obtain ⟨u, hu, hsame⟩ := List.countP_pos_iff.mp hpos
      have hleft := hnone u hu
      rw [entries_congr (by simpa using hsame), banTime_congr (by simpa using hsame), hentries,
        htime] at hleft
      split at hleft
      · exact hleft
      · omega
  · intro hnone t ht
    have hmem := (remAwolServer_sublist servers s).subset ht
    have hall := hnone t hmem
    have hone := one_le_entries hmem
    rw [entries_remAwolServer hs, banTime_isBanned hbanned]
    split
    · exact hall
    · omega

/-- **Exactly when the search finds nothing**, whatever `rand` returns. -/
theorem searchLoop_eq_none_iff (rand : ℕ → ℕ) {turns : ℕ} {servers banned : List Server}
    (hturns : servers.length ≤ turns) :
    (searchLoop rand turns servers banned).1 = none ↔ NoneLeft servers banned := by
  induction turns generalizing servers banned with
  | zero =>
    have hnil : servers = [] := List.length_eq_zero_iff.mp (by omega)
    subst hnil
    simp [searchLoop, NoneLeft]
  | succ turns ih =>
    rw [searchLoop]
    cases hsel : selectServer (rand turns) servers with
    | none =>
      rw [(selectServer_eq_none_iff _ _).mp hsel]
      simp [NoneLeft]
    | some s =>
      have hs := selectServer_mem hsel
      simp only [isBanned_fst, decide_eq_true_eq]
      by_cases hbanned : 1 ≤ banTime banned s
      · have hlen := length_remAwolServer hs
        rw [if_pos hbanned, ih (by omega), noneLeft_turn hs hbanned]
      · rw [if_neg hbanned]
        constructor
        · intro h
          simp at h
        · intro hnone
          have := hnone s hs
          have := one_le_entries hs
          omega

end Rmb

end MessageBoard
