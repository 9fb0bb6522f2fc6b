import MessageBoard.BanTime
import MessageBoard.ClientLists

/-!
# The banned list is a map

`ban_server` and `is_banned` are called in any order, and find an entry by its address and ports.  The
entries are nodes in memory here, so that it can be said of each that it stays.

* `step_entries` — what one call leaves of the entries, and that no address comes twice;
* `run_entries` — the same for any calls, and that the list in memory is the one `BanTime` is about;
* `banned_list_is_map` — **one entry for an address**, none is lost, and a call changes no other.
-/

namespace MessageBoard

open CText Chain ListNodes ClientLists Run

namespace Rmb

namespace BannedList

/-! ### The calls -/

/-- The list in memory. -/
structure Banned where
  memory : Nodes Server
  listOfBanned : Stack

/-- A call, with the address that `malloc` returns if it makes a node. -/
def step (w : Banned) (call : BanTime.Call × ℕ) : Option Banned :=
  match call.1 with
  | .banServer s _ =>
      (ClientLists.banServer w.memory w.listOfBanned call.2 s).map fun r => ⟨r.1, r.2⟩
  | .isBanned s _ =>
      (ClientLists.isBanned w.memory w.listOfBanned s).map fun r => ⟨r.2, w.listOfBanned⟩

/-- No two entries have the same ip and ports. -/
def Distinct (entries : List (ℕ × Server)) : Prop := (entries.map fun e => e.2.address).Nodup

/-- Every entry is where it was, with all its fields but the ban time. -/
def Stay (entries entries' : List (ℕ × Server)) : Prop :=
  ∀ a b, (a, b) ∈ entries → ∃ banTime, (a, setBanTime b banTime) ∈ entries'

/-- The same, and only an entry with the ip and ports of `s` may have another ban time. -/
def StayBut (s : Server) (entries entries' : List (ℕ × Server)) : Prop :=
  ∀ a b, (a, b) ∈ entries → ∃ banTime, (a, setBanTime b banTime) ∈ entries'
    ∧ (differentServers b s = true → banTime = b.fd)

/-! ### One call -/

variable {entries entries' : List (ℕ × Server)}

theorem stayBut_refl (s : Server) (entries : List (ℕ × Server)) : StayBut s entries entries :=
  fun _ b hmem => ⟨b.fd, hmem, fun _ => rfl⟩

theorem stay_trans {entries'' : List (ℕ × Server)} (h : Stay entries entries')
    (h' : Stay entries' entries'') : Stay entries entries'' := by
  intro a b hmem
  obtain ⟨banTime, hmem'⟩ := h a b hmem
  obtain ⟨banTime', hmem''⟩ := h' _ _ hmem'
  exact ⟨banTime', hmem''⟩

/-- **The first entry of a server has another ban time.** -/
theorem stayBut_first {s x : Server} {a : ℕ} {xs ys : List (ℕ × Server)}
    (h : First s entries xs a x ys) (banTime : ℤ) :
    StayBut s entries (xs ++ (a, setBanTime x banTime) :: ys) := by
  obtain ⟨rfl, -, hsame⟩ := h
  intro b t hmem
  rw [List.mem_append, List.mem_cons, Prod.mk.injEq] at hmem
  rcases hmem with hfront | ⟨rfl, rfl⟩ | hrest
  · exact ⟨t.fd, List.mem_append_left _ hfront, fun _ => rfl⟩
  · refine ⟨banTime, by simp, fun hdiff => ?_⟩
    rw [hsame] at hdiff
    exact Bool.noConfusion hdiff
  · exact ⟨t.fd, by simp [setBanTime, hrest], fun _ => rfl⟩

theorem distinct_first {s x : Server} {a : ℕ} {xs ys : List (ℕ × Server)} (hdistinct : Distinct entries)
    (h : First s entries xs a x ys) (banTime : ℤ) :
    Distinct (xs ++ (a, setBanTime x banTime) :: ys) := by
  have haddress : (setBanTime x banTime).address = x.address := rfl
  rw [h.nodes_eq, Distinct, List.map_append, List.map_cons] at hdistinct
  rw [Distinct, List.map_append, List.map_cons, haddress]
  exact hdistinct

/-- `ban_server` changes the ban time at most. -/
theorem renewed_eq (x : Server) : (if x.fd < 0 then setBanTime x serverBanTime else x)
    = setBanTime x (if x.fd < 0 then serverBanTime else x.fd) := by
  split <;> rfl

/-- **A new entry** has an address that no other one has. -/
theorem distinct_absent {s : Server} (hs : PortsFit s) {a : ℕ} (hdistinct : Distinct entries)
    (h : Absent s entries) : Distinct ((a, setBanTime s.copy serverBanTime) :: entries) := by
  refine List.nodup_cons.mpr ⟨fun hmem => ?_, hdistinct⟩
  obtain ⟨node, hnode, haddress⟩ := List.mem_map.mp hmem
  have hcopy : differentServers s.copy s = false := by
    rw [differentServers_copy hs, differentServers_self]
  have hsame := (differentServers_eq_false_iff node.2 s.copy).mpr haddress
  rw [← differentServers_congr_left hsame, h node hnode] at hcopy
  exact Bool.noConfusion hcopy

/-- **One call** keeps the entries apart, and changes none but that of its server. -/
theorem step_entries {w w' : Banned} {call : BanTime.Call × ℕ}
    (h : Listed w.memory w.listOfBanned entries) (hdistinct : Distinct entries)
    (hstep : step w call = some w') : ∃ entries', Listed w'.memory w'.listOfBanned entries'
      ∧ Distinct entries' ∧ StayBut call.1.server entries entries'
      ∧ ∀ banned', BanTime.step (items entries) call.1 = some banned' → items entries' = banned' := by
  obtain ⟨call, newNode⟩ := call
  cases call with
  | banServer s hs =>
    obtain ⟨⟨memory', l'⟩, hcall, rfl⟩ := Option.map_eq_some_iff.mp hstep
    obtain ⟨entries', hlisted, -, hnodes⟩ := banServer_listed h hs hcall
    refine ⟨entries', hlisted, ?_, ?_, fun banned' habstract => ?_⟩
    · rcases hnodes with ⟨habsent, rfl⟩ | ⟨xs, b, x, ys, hfirst, rfl⟩
      · exact distinct_absent hs hdistinct habsent
      · rw [renewed_eq]
        exact distinct_first hdistinct hfirst _
    · rcases hnodes with ⟨habsent, rfl⟩ | ⟨xs, b, x, ys, hfirst, rfl⟩
      · intro a b hmem
        exact ⟨b.fd, List.mem_cons_of_mem _ hmem, fun _ => rfl⟩
      · rw [renewed_eq]
        exact stayBut_first hfirst _
    · rw [items_banServer hnodes]
      exact Option.some.inj habstract
  | isBanned s hs =>
    obtain ⟨⟨answer, memory'⟩, hcall, rfl⟩ := Option.map_eq_some_iff.mp hstep
    obtain ⟨answer', memory, entries', heq, hlisted, -, hnodes⟩ := isBanned_listed h s
    rw [hcall, Option.some.injEq, Prod.mk.injEq] at heq
    obtain ⟨rfl, rfl⟩ := heq
    refine ⟨entries', hlisted, ?_, ?_, fun banned' habstract => ?_⟩
    · rcases hnodes with ⟨-, rfl, -⟩ | ⟨xs, b, x, ys, hfirst, rfl, -⟩
      · exact hdistinct
      · exact distinct_first hdistinct hfirst _
    · rcases hnodes with ⟨-, rfl, -⟩ | ⟨xs, b, x, ys, hfirst, rfl, -⟩
      · exact stayBut_refl s _
      · exact stayBut_first hfirst _
    · have hitems := congrArg Prod.snd (items_isBanned hnodes)
      rw [BanTime.step] at habstract
      split at habstract
      · simp at habstract
      · rw [← Option.some.inj habstract]
        exact hitems.symm

/-- A call is never stuck, whatever is in memory: there is always room for a node behind the last. -/
theorem step_isSome {w : Banned} (h : Listed w.memory w.listOfBanned entries) (call : BanTime.Call) :
    (step w (call, w.memory.length)).isSome = true := by
  cases call with
  | banServer s hs =>
    simp only [step, Option.isSome_map]
    exact banServer_isSome h s
  | isBanned s hs =>
    obtain ⟨answer, memory', entries', heq, -⟩ := isBanned_listed h s
    simp only [step, Option.isSome_map, heq, Option.isSome_some]

/-! ### Any calls -/

/-- **Any calls** keep every entry, and the entries apart. -/
theorem run_entries {w w' : Banned} {calls : List (BanTime.Call × ℕ)}
    (h : Listed w.memory w.listOfBanned entries) (hdistinct : Distinct entries)
    (hrun : run step w calls = some w') : ∃ entries', Listed w'.memory w'.listOfBanned entries'
      ∧ Distinct entries' ∧ Stay entries entries'
      ∧ ∀ banned', run BanTime.step (items entries) (calls.map Prod.fst) = some banned' →
        items entries' = banned' := by
  induction calls generalizing w entries with
  | nil =>
    obtain rfl := Option.some.inj hrun
    exact ⟨entries, h, hdistinct, fun a b hmem => ⟨b.fd, hmem⟩, fun banned' => Option.some.inj⟩
  | cons call calls ih =>
    obtain ⟨w₁, hstep, hrest⟩ := Option.bind_eq_some_iff.mp hrun
    obtain ⟨entries₁, hlisted, hdistinct₁, hstay, habstract⟩ := step_entries h hdistinct hstep
    obtain ⟨entries', hlisted', hdistinct', hstay', habstract'⟩ := ih hlisted hdistinct₁ hrest
    refine ⟨entries', hlisted', hdistinct', stay_trans (fun a b hmem => ?_) hstay', ?_⟩
    · obtain ⟨banTime, hmem', -⟩ := hstay a b hmem
      exact ⟨banTime, hmem'⟩
    · intro banned' hbanned
      obtain ⟨banned₁, hfirst, hlater⟩ := Option.bind_eq_some_iff.mp hbanned
      rw [← habstract banned₁ hfirst] at hlater
      exact habstract' banned' hlater

/-- **The banned list is a map** after any calls: it has one entry for an ip and ports; the next call
changes no ban time but that of its server; and no later call loses an entry. -/
theorem banned_list_is_map {memory : Nodes Server} {calls : List (BanTime.Call × ℕ)} {w : Banned}
    (hrun : run step ⟨memory, createList⟩ calls = some w) :
    ∃ entries, Listed w.memory w.listOfBanned entries ∧ Distinct entries
      ∧ (∀ call w', step w call = some w' → ∃ entries', Listed w'.memory w'.listOfBanned entries'
        ∧ StayBut call.1.server entries entries')
      ∧ ∀ later w', run step w later = some w' →
        ∃ entries', Listed w'.memory w'.listOfBanned entries' ∧ Stay entries entries' := by
  have hempty : Listed memory createList ([] : List (ℕ × Server)) := listed_createList
  have hnone : Distinct [] := List.nodup_nil
  obtain ⟨entries, hlisted, hdistinct, -, -⟩ := run_entries hempty hnone hrun
  refine ⟨entries, hlisted, hdistinct, fun call w' hstep => ?_, fun later w' hlater => ?_⟩
  · obtain ⟨entries', hlisted', -, hstay, -⟩ := step_entries hlisted hdistinct hstep
    exact ⟨entries', hlisted', hstay⟩
  · obtain ⟨entries', hlisted', -, hstay, -⟩ := run_entries hlisted hdistinct hlater
    exact ⟨entries', hlisted', hstay⟩

theorem banned_list_is_map_two : ∃ w entries, run step ⟨[], createList⟩
    [(.banServer (host 1) (by decide), 0), (.banServer (host 2) (by decide), 1),
      (.isBanned (host 1) (by decide), 2)] = some w
      ∧ Listed w.memory w.listOfBanned entries ∧ Distinct entries := by
  obtain ⟨w, hw⟩ := Option.isSome_iff_exists.mp (show (run step ⟨[], createList⟩
    [(.banServer (host 1) (by decide), 0), (.banServer (host 2) (by decide), 1),
      (.isBanned (host 1) (by decide), 2)]).isSome = true by decide +kernel)
  obtain ⟨entries, hlisted, hdistinct, -, -⟩ := banned_list_is_map hw
  exact ⟨w, entries, hw, hlisted, hdistinct⟩

end BannedList

end Rmb

end MessageBoard
