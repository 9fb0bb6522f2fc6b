import MessageBoard.SearchBlock

/-!
# How long a ban lasts

`ban_server` and `is_banned` are called in any order, for any servers whose ports are unsigned shorts.
A ban is renewed only after it has run out, so one that comes while an earlier one runs adds nothing
to it.

* `banTime_step` — what one call does to the ban time of a server;
* `answers_eq` — the calls of `is_banned` count the ban time down, whatever else is called;
* `ban_time_law_iff` — **every ban lasts five tests** exactly if no ban is tested that came while an
  earlier one was running out.
-/

namespace MessageBoard

open CText Run

namespace Rmb

namespace BanTime

/-! ### The calls -/

inductive Call where
  | banServer (s : Server) (hs : PortsFit s)
  | isBanned (s : Server) (hs : PortsFit s)

def Call.server : Call → Server
  | .banServer s _ => s
  | .isBanned s _ => s

/-- The list after a call.  `reduce_ban` decrements an `int`, which has no meaning for the least one. -/
def step (listOfBanned : List Server) : Call → Option (List Server)
  | .banServer s _ => some (Rmb.banServer listOfBanned s)
  | .isBanned s _ =>
      if banTime listOfBanned s = -2 ^ 31 then none else some (Rmb.isBanned listOfBanned s).2

/-- What `is_banned` returns for the servers with the address of `s`, up to the next ban of `s`. -/
def answers (s : Server) : List Server → List Call → List Bool
  | _, [] => []
  | banned, .banServer t _ :: rest =>
      if differentServers t s then answers s (Rmb.banServer banned t) rest else []
  | banned, .isBanned t _ :: rest =>
      if differentServers t s then answers s (Rmb.isBanned banned t).2 rest
      else (Rmb.isBanned banned t).1 :: answers s (Rmb.isBanned banned t).2 rest

/-- How many calls of `is_banned` these are. -/
def tests (s : Server) : List Call → ℕ
  | [] => 0
  | .banServer t _ :: rest => if differentServers t s then tests s rest else 0
  | .isBanned t _ :: rest => if differentServers t s then tests s rest else tests s rest + 1

/-- The next `SERVER_BAN_TIME` answers are true, and the one behind them is false. -/
def Lasts (s : Server) (banned : List Server) (rest : List Call) : Prop :=
  ∀ (i : ℕ) (answer : Bool), (answers s banned rest)[i]? = some answer →
    (i < serverBanTime → answer = true) ∧ (i = serverBanTime → answer = false)

/-- Every ban of the calls lasts, counted from the ban on. -/
def Law (calls : List Call) : Prop :=
  ∀ before s hs after banned, calls = before ++ .banServer s hs :: after →
    run step [] before = some banned → Lasts s (Rmb.banServer banned s) after

/-- Every ban of the calls finds no ban of the server, or one that has run out or is whole, or else is
tested no more often than the ban that runs has left. -/
def Restored (calls : List Call) : Prop :=
  ∀ before s hs after banned, calls = before ++ .banServer s hs :: after →
    run step [] before = some banned →
      banTime banned s < 0 ∨ banTime banned s = serverBanTime ∨ tests s after ≤ banTime banned s

/-! ### One call -/

/-- A ban changes no other ban time. -/
theorem banTime_renewBan_of_different {banned : List Server} {s t : Server}
    (hdiff : differentServers s t = true) : banTime (renewBan banned s) t = banTime banned t := by
  induction banned with
  | nil => rfl
  | cons b banned ih =>
    rw [renewBan]
    cases hb : differentServers b s with
    | true => rw [if_pos rfl, banTime_cons, banTime_cons, ih]
    | false =>
      have hbt : differentServers b t = true := (differentServers_congr_left hb t).trans hdiff
      have hset : ∀ u : Server, u = b ∨ u = setBanTime b serverBanTime →
          banTime (u :: banned) t = banTime banned t := by
        intro u hu
        rw [banTime_cons, if_pos]
        rcases hu with rfl | rfl
        · exact hbt
        · exact hbt
      rw [if_neg Bool.false_ne_true, hset b (Or.inl rfl)]
      split
      · exact hset _ (Or.inr rfl)
      · exact hset _ (Or.inl rfl)

theorem banTime_banServer_of_different {banned : List Server} {s t : Server} (hs : PortsFit s)
    (hdiff : differentServers s t = true) : banTime (banServer banned s) t = banTime banned t := by
  rw [banServer]
  split
  · have hcopy : differentServers (setBanTime s.copy serverBanTime) t = true :=
      (differentServers_copy hs t).trans hdiff
    rw [banTime_cons, if_pos hcopy]
  · exact banTime_renewBan_of_different hdiff

/-- A test changes no other ban time. -/
theorem banTime_isBanned_of_different {banned : List Server} {s t : Server}
    (hdiff : differentServers s t = true) : banTime (isBanned banned s).2 t = banTime banned t := by
  induction banned with
  | nil => rfl
  | cons b banned ih =>
    rw [isBanned]
    cases hb : differentServers b s with
    | true =>
      rw [if_pos rfl]
      show banTime (b :: (isBanned banned s).2) t = _
      rw [banTime_cons, banTime_cons, ih]
    | false =>
      have hbt : differentServers b t = true := (differentServers_congr_left hb t).trans hdiff
      have hset : differentServers (setBanTime b (b.fd - 1)) t = true := hbt
      rw [if_neg Bool.false_ne_true]
      show banTime (setBanTime b (b.fd - 1) :: banned) t = _
      rw [banTime_cons, banTime_cons, if_pos hset, if_pos hbt]

/-- A test takes one from the ban time of a server in the list. -/
theorem banTime_isBanned_of_same {banned : List Server} {s t : Server}
    (hsame : differentServers s t = false) : banTime (isBanned banned s).2 t = banTime banned t - 1
      ∨ banTime banned t = -1 ∧ banTime (isBanned banned s).2 t = -1 := by
  induction banned with
  | nil => exact Or.inr ⟨rfl, rfl⟩
  | cons b banned ih =>
    rw [isBanned]
    have hbt : differentServers b t = differentServers b s := by
      rw [differentServers_comm b t, differentServers_comm b s, differentServers_congr_left hsame]
    cases hb : differentServers b s with
    | true =>
      rw [hb] at hbt
      rw [if_pos rfl]
      show banTime (b :: (isBanned banned s).2) t = _ ∨ _ ∧ banTime (b :: (isBanned banned s).2) t = _
      rw [banTime_cons, banTime_cons, if_pos hbt, if_pos hbt]
      exact ih
    | false =>
      rw [hb] at hbt
      have hset : differentServers (setBanTime b (b.fd - 1)) t = false := hbt
      rw [if_neg Bool.false_ne_true]
      show banTime (setBanTime b (b.fd - 1) :: banned) t = _ ∨ _
      rw [banTime_cons, banTime_cons, hset, hbt]
      exact Or.inl rfl

/-! ### The calls after a ban -/

/-- **The ban time is counted down**, whatever is called for other servers. -/
theorem answers_eq (s : Server) (banned : List Server) (calls : List Call) :
    answers s banned calls
      = (List.range (tests s calls)).map fun i : ℕ => decide ((i : ℤ) < banTime banned s) := by
  induction calls generalizing banned with
  | nil => rfl
  | cons call calls ih =>
    cases call with
    | banServer t ht =>
      rw [answers, tests]
      split
      · rename_i hdiff
        rw [ih, banTime_banServer_of_different ht hdiff]
      · rfl
    | isBanned t ht =>
      rw [answers, tests]
      split
      · rename_i hdiff
        rw [ih, banTime_isBanned_of_different hdiff]
      · rename_i hsame
        rw [Bool.not_eq_true] at hsame
        have hfirst : (Rmb.isBanned banned t).1 = decide (((0 : ℕ) : ℤ) < banTime banned s) := by
          rw [isBanned_fst, banTime_congr hsame, decide_eq_decide]
          omega
        have hrest : ∀ i : ℕ, decide ((i : ℤ) < banTime (Rmb.isBanned banned t).2 s)
            = decide (((i + 1 : ℕ) : ℤ) < banTime banned s) := by
          intro i
          rw [decide_eq_decide]
          rcases @banTime_isBanned_of_same banned _ _ hsame with heq | ⟨hnone, heq⟩
          · rw [heq]
            omega
          · rw [heq, hnone]
            omega
        rw [ih, hfirst, List.range_succ_eq_map, List.map_cons, List.map_map]
        simp only [hrest]
        rfl

/-- A ban that lasts has the whole time, or is not tested beyond what it has. -/
theorem lasts_iff {s : Server} {banned : List Server} (hnonneg : 0 ≤ banTime banned s)
    (hle : banTime banned s ≤ serverBanTime) (rest : List Call) :
    Lasts s banned rest
      ↔ banTime banned s = serverBanTime ∨ tests s rest ≤ banTime banned s := by
  have hget : ∀ (i : ℕ) (answer : Bool), (answers s banned rest)[i]? = some answer
      ↔ i < tests s rest ∧ decide ((i : ℤ) < banTime banned s) = answer := by
    intro i answer
    rw [answers_eq, List.getElem?_map]
    by_cases hi : i < tests s rest
    · simp [hi]
    · simp [hi]
  rw [Lasts]
  simp only [hget]
  constructor
  · intro h
    by_contra hnot
    rw [not_or, not_le] at hnot
    obtain ⟨i, hi⟩ : ∃ i : ℕ, (i : ℤ) = banTime banned s := ⟨_, Int.toNat_of_nonneg hnonneg⟩
    have hfalse := (h i _ ⟨by omega, rfl⟩).1 (by omega)
    rw [decide_eq_true_eq] at hfalse
    omega
  · rintro h i answer ⟨hi, rfl⟩
    rw [decide_eq_true_eq, decide_eq_false_iff_not]
    omega

/-! ### Any calls -/

theorem fd_banServer_le {banned : List Server} {s b : Server}
    (h : ∀ b ∈ banned, b.fd ≤ serverBanTime) (hb : b ∈ banServer banned s) : b.fd ≤ serverBanTime := by
  rw [banServer] at hb
  split at hb
  · rcases List.mem_cons.mp hb with rfl | hb
    · exact le_rfl
    · exact h b hb
  · rename_i hsome
    clear hsome
    induction banned with
    | nil => simp [renewBan] at hb
    | cons c banned ih =>
      rw [renewBan] at hb
      have hc := h c List.mem_cons_self
      have hrest := fun d hd => h d (List.mem_cons_of_mem c hd)
      split at hb
      · rcases List.mem_cons.mp hb with rfl | hb
        · exact hc
        · exact ih hrest hb
      · rcases List.mem_cons.mp hb with rfl | hb
        · split
          · exact le_rfl
          · exact hc
        · exact hrest b hb

theorem fd_isBanned_le {banned : List Server} {s b : Server}
    (h : ∀ b ∈ banned, b.fd ≤ serverBanTime) (hb : b ∈ (isBanned banned s).2) :
    b.fd ≤ serverBanTime := by
  induction banned with
  | nil => simp [isBanned] at hb
  | cons c banned ih =>
    rw [isBanned] at hb
    have hc := h c List.mem_cons_self
    have hrest := fun d hd => h d (List.mem_cons_of_mem c hd)
    split at hb
    · rcases List.mem_cons.mp hb with rfl | hb
      · exact hc
      · exact ih hrest hb
    · rcases List.mem_cons.mp hb with rfl | hb
      · show c.fd - 1 ≤ serverBanTime
        omega
      · exact hrest b hb

/-- No ban time is above `SERVER_BAN_TIME`. -/
theorem fd_le_step (banned : List Server) (call : Call) (banned' : List Server)
    (h : ∀ b ∈ banned, b.fd ≤ serverBanTime) (hstep : step banned call = some banned') :
    ∀ b ∈ banned', b.fd ≤ serverBanTime := by
  intro b hb
  cases call with
  | banServer s hs =>
    rw [← Option.some.inj hstep] at hb
    exact fd_banServer_le h hb
  | isBanned s hs =>
    rw [step] at hstep
    split at hstep
    · simp at hstep
    · rw [← Option.some.inj hstep] at hb
      exact fd_isBanned_le h hb

/-- **Every ban lasts five tests, counted anew from each**, exactly if no ban is tested further than
the one that was running out when it came. -/
theorem ban_time_law_iff (calls : List Call) : Law calls ↔ Restored calls := by
  rw [Law, Restored]
  refine forall₅_congr fun before s hs after banned => ?_
  apply imp_congr_right
  intro _
  apply imp_congr_right
  intro hrun
  have hle : ∀ b ∈ banned, b.fd ≤ serverBanTime := run_invariant fd_le_step (by simp) hrun
  have hbefore : banTime banned s ≤ serverBanTime := banTime_le (by decide) hle s
  have htime := banTime_banServer banned hs
  have hfive : serverBanTime = 5 := rfl
  rw [lasts_iff (by rw [htime]; split <;> omega) (by rw [htime]; split <;> omega), htime]
  split <;> omega

/-- **A ban comes while an earlier one runs**: the last of the five tests behind it says no. -/
theorem ban_not_restored : ¬∀ calls, Law calls := by
  intro h
  have hs : PortsFit (host 1) := by decide
  have hrun : (run step [] [.banServer (host 1) hs, .isBanned (host 1) hs]).any (fun banned =>
      (answers (host 1) (Rmb.banServer banned (host 1)) (List.replicate 5 (.isBanned (host 1) hs)))[4]?
        == some false) = true := rfl
  obtain ⟨banned, hbanned, hfifth⟩ := (Option.any_eq_true _ _).mp hrun
  have hlasts := h _ [.banServer (host 1) hs, .isBanned (host 1) hs] (host 1) hs
    (List.replicate 5 (.isBanned (host 1) hs)) banned rfl hbanned
  have htrue : false = true := (hlasts 4 false (beq_iff_eq.mp hfifth)).1 (by decide)
  exact Bool.noConfusion htrue

end BanTime

end Rmb

end MessageBoard
