import MessageBoard.PolledDescriptors

/-!
# What a join leaves

`join_to_old_servers` with the requests it sends, over any list, host and outcomes, and the list that
`handle_join` leaves when it fails.

* `joinToOldServer_eq` — the tri-state status of a call, in one equation: the flag is set from the
  first entry on that answers;
* `joinToOldServers_eq` — the loop is the one of `msgserv/main`;
* `one_is_asked` — **the first entry that answers is asked for the history, and no other one**;
* `list_kept_iff` — **which failed joins leave the list as it was.**
-/

namespace MessageBoard

open CText PolledDescriptors

namespace JoinOutcome

variable {host : Server}

/-! ### The requests -/

/-- `send_initial_comm` is called, and `send` takes the whole request. -/
def isAsked (host : Server) (o : Outcome) (s : Server) (isCommSent : Bool) : Bool :=
  isDue host s && o.opens && !isCommSent && o.sent

/-- The returned code, the entries, and where in the list `SGET_MESSAGES` was sent to. -/
structure Joined where
  code : ℤ
  entries : List Server
  asked : List ℕ
  deriving DecidableEq

/-- `join_to_old_servers`; `outcome k` is the attempt at the `k`-th entry. -/
def joinToOldServers (host : Server) : (ℕ → Outcome) → Bool → List Server → Joined
  | _, _, [] => ⟨0, [], []⟩
  | outcome, isCommSent, s :: rest =>
      let asked := if isAsked host (outcome 0) s isCommSent then [0] else []
      match joinToOldServer host (outcome 0) s isCommSent with
      | none => ⟨-1, s :: rest, asked⟩
      | some (s', isCommSent) =>
          let r := joinToOldServers host (fun k => outcome (k + 1)) isCommSent rest
          ⟨r.code, s' :: r.entries, asked ++ r.asked.map (· + 1)⟩

/-- **The loop is the one of `msgserv/main`**, where the kernel returns descriptors not in use. -/
theorem joinToOldServers_eq {outcome : ℕ → Outcome} {k : ℕ} {isCommSent : Bool} {l : List Server}
    {opened : List ℤ} {r : List Server × List ℤ × Bool}
    (h : MessageBoard.joinToOldServers host outcome k isCommSent l opened = some r) :
    (joinToOldServers host (fun i => outcome (k + i)) isCommSent l).entries = r.1
      ∧ (joinToOldServers host (fun i => outcome (k + i)) isCommSent l).code
        = if r.2.2 then 0 else -1 := by
  induction l generalizing k isCommSent opened r with
  | nil =>
    rw [← Option.some.inj h]
    exact ⟨rfl, rfl⟩
  | cons s rest ih =>
    rw [MessageBoard.joinToOldServers] at h
    rw [joinToOldServers, Nat.add_zero]
    cases hjoin : joinToOldServer host (outcome k) s isCommSent with
    | none =>
      rw [hjoin] at h
      rw [← Option.some.inj h]
      exact ⟨rfl, rfl⟩
    | some q =>
      rw [hjoin] at h
      have hrest : ∃ opened' r', MessageBoard.joinToOldServers host outcome (k + 1) q.2 rest opened'
          = some r' ∧ r = (q.1 :: r'.1, r'.2) := by
        dsimp only at h
        split at h
        · split at h
          · obtain ⟨r', hr', rfl⟩ := Option.map_eq_some_iff.mp h
            exact ⟨_, r', hr', rfl⟩
          · simp at h
        · obtain ⟨r', hr', rfl⟩ := Option.map_eq_some_iff.mp h
          exact ⟨_, r', hr', rfl⟩
      obtain ⟨opened', r', hr', rfl⟩ := hrest
      have hshift : (fun i => outcome (k + (i + 1))) = fun i => outcome (k + 1 + i) := by
        funext i
        rw [Nat.add_right_comm, Nat.add_assoc]
      obtain ⟨hentries, hcode⟩ := ih hr'
      dsimp only
      rw [hshift]
      exact ⟨congrArg (q.1 :: ·) hentries, hcode⟩

/-! ### The status of a call -/

/-- The entry differs from the host and waits for its connection, and lookup, `connect` and `send`
succeed. -/
def answers (host : Server) (o : Outcome) (s : Server) : Bool :=
  isDue host s && o.resolved && o.connected && o.sent

/-- What becomes of an entry: a socket that opens is kept if the history is asked for, or was. -/
def entryAfter (host : Server) (o : Outcome) (s : Server) (isCommSent : Bool) : Server :=
  if isDue host s then
    { s with fd := if o.resolved && o.connected && (isCommSent || o.sent) then o.socketFd else -1 }
  else s

/-- **The status of a call**: 0 from the first answer on. -/
theorem joinToOldServer_eq {o : Outcome} (hsock : o.socketFd ≠ -1) (host s : Server)
    (isCommSent : Bool) : joinToOldServer host o s isCommSent
      = some (entryAfter host o s isCommSent, isCommSent || answers host o s) := by
  by_cases hdue : isDue host s = true
  · obtain ⟨hdiff, hfd⟩ : differentServers s host = true ∧ s.fd = -2 := by simpa [isDue] using hdue
    rw [joinToOldServer, if_pos hdiff, connectToOldServer, if_pos hfd, if_neg hsock, entryAfter,
      if_pos hdue, answers, hdue]
    obtain ⟨socketFd, resolved, connected, written⟩ := o
    cases resolved <;> cases connected <;> cases written <;> cases isCommSent <;> rfl
  · rw [Bool.not_eq_true] at hdue
    rw [joinToOldServer_of_not_due hdue, entryAfter, if_neg (by simp [hdue]), answers, hdue]
    simp

theorem isAsked_eq {o : Outcome} (hsock : o.socketFd ≠ -1) (host s : Server) (isCommSent : Bool) :
    isAsked host o s isCommSent = (!isCommSent && answers host o s) := by
  have hne : (o.socketFd != -1) = true := by simpa using hsock
  rw [isAsked, Outcome.opens, hne, answers]
  cases isDue host s <;> cases o.resolved <;> cases o.connected <;> cases isCommSent <;> rfl

/-- **One turn of the loop.** -/
theorem joinToOldServers_cons {outcome : ℕ → Outcome} (hsock : (outcome 0).socketFd ≠ -1) (host s : Server)
    (rest : List Server) (isCommSent : Bool) :
    let r := joinToOldServers host (fun k => outcome (k + 1)) (isCommSent || answers host (outcome 0) s)
      rest
    joinToOldServers host outcome isCommSent (s :: rest)
      = ⟨r.code, entryAfter host (outcome 0) s isCommSent :: r.entries,
          (if !isCommSent && answers host (outcome 0) s then [0] else []) ++ r.asked.map (· + 1)⟩ := by
  rw [joinToOldServers, isAsked_eq hsock, joinToOldServer_eq hsock]

/-! ### The first answer -/

/-- The `i`-th entry answers. -/
def AnswersAt (host : Server) (outcome : ℕ → Outcome) (l : List Server) (i : ℕ) : Prop :=
  ∃ s, l[i]? = some s ∧ differentServers s host = true ∧ s.fd = -2 ∧ (outcome i).resolved = true
    ∧ (outcome i).connected = true ∧ (outcome i).sent = true

/-- The `i`-th entry is the first one that answers. -/
def FirstAt (host : Server) (outcome : ℕ → Outcome) (l : List Server) (i : ℕ) : Prop :=
  AnswersAt host outcome l i ∧ ∀ j < i, ¬AnswersAt host outcome l j

section First

variable {outcome : ℕ → Outcome} {s : Server} {rest l : List Server} {i : ℕ}

theorem answersAt_zero :
    AnswersAt host outcome (s :: rest) 0 ↔ answers host (outcome 0) s = true := by
  simp [AnswersAt, answers, isDue, and_assoc]

theorem answersAt_succ : AnswersAt host outcome (s :: rest) (i + 1)
    ↔ AnswersAt host (fun k => outcome (k + 1)) rest i := Iff.rfl

theorem firstAt_zero : FirstAt host outcome (s :: rest) 0 ↔ answers host (outcome 0) s = true := by
  rw [FirstAt, answersAt_zero]
  exact and_iff_left fun j hj => absurd hj (Nat.not_lt_zero j)

theorem firstAt_succ : FirstAt host outcome (s :: rest) (i + 1)
    ↔ answers host (outcome 0) s = false ∧ FirstAt host (fun k => outcome (k + 1)) rest i := by
  rw [FirstAt, answersAt_succ, Nat.forall_lt_succ_left, answersAt_zero, Bool.not_eq_true]
  exact and_left_comm

/-- Behind an answer there is a first one. -/
theorem exists_firstAt_iff : (∃ j < i, FirstAt host outcome l j) ↔ ∃ j < i, AnswersAt host outcome l j := by
  constructor
  · rintro ⟨j, hj, hfirst⟩
    exact ⟨j, hj, hfirst.1⟩
  · rintro ⟨j, hj, hanswers⟩
    induction j using Nat.strong_induction_on with
    | h j ih =>
      by_cases hearlier : ∃ n < j, AnswersAt host outcome l n
      · obtain ⟨n, hn, hanswers'⟩ := hearlier
        exact ih n hn (by omega) hanswers'
      · exact ⟨j, hj, hanswers, fun n hn h => hearlier ⟨n, hn, h⟩⟩

end First

/-! ### The loop -/

section Loop

variable {outcome : ℕ → Outcome}

theorem joined_code (hsock : ∀ k, (outcome k).socketFd ≠ -1) (isCommSent : Bool) (l : List Server) :
    (joinToOldServers host outcome isCommSent l).code = 0
      ∧ (joinToOldServers host outcome isCommSent l).entries.length = l.length := by
  induction l generalizing outcome isCommSent with
  | nil => exact ⟨rfl, rfl⟩
  | cons s rest ih =>
    obtain ⟨hcode, hlength⟩ := ih (fun k => hsock (k + 1)) (isCommSent || answers host (outcome 0) s)
    rw [joinToOldServers_cons (hsock 0)]
    exact ⟨hcode, congrArg (· + 1) hlength⟩

/-- Every entry gets what the answers before it leave to it. -/
theorem joined_entry (hsock : ∀ k, (outcome k).socketFd ≠ -1) {isCommSent : Bool} {l : List Server}
    {i : ℕ} {s : Server} (hs : l[i]? = some s) {before : Bool}
    (hbefore : before = true ↔ isCommSent = true ∨ ∃ j < i, AnswersAt host outcome l j) :
    (joinToOldServers host outcome isCommSent l).entries[i]?
      = some (entryAfter host (outcome i) s before) := by
  induction l generalizing outcome isCommSent i with
  | nil => simp at hs
  | cons t rest ih =>
    rw [joinToOldServers_cons (hsock 0)]
    cases i with
    | zero =>
      obtain rfl : t = s := Option.some.inj hs
      obtain rfl : before = isCommSent := by
        rw [Bool.eq_iff_iff, hbefore]
        simp
      rfl
    | succ i =>
      rw [Nat.exists_lt_succ_left, answersAt_zero, ← or_assoc, ← Bool.or_eq_true] at hbefore
      exact ih (fun k => hsock (k + 1)) hs hbefore

/-- The request goes to the first answer, if none went before. -/
theorem joined_asked (hsock : ∀ k, (outcome k).socketFd ≠ -1) (isCommSent : Bool) (l : List Server) :
    (joinToOldServers host outcome isCommSent l).asked.length ≤ 1
      ∧ ∀ i, i ∈ (joinToOldServers host outcome isCommSent l).asked
        ↔ isCommSent = false ∧ FirstAt host outcome l i := by
  induction l generalizing outcome isCommSent with
  | nil => simp [joinToOldServers, FirstAt, AnswersAt]
  | cons s rest ih =>
    obtain ⟨hlength, hmem⟩ := ih (fun k => hsock (k + 1)) (isCommSent || answers host (outcome 0) s)
    rw [joinToOldServers_cons (hsock 0)]
    dsimp only
    by_cases hfirst : (!isCommSent && answers host (outcome 0) s) = true
    · obtain ⟨hsent, hanswers⟩ : isCommSent = false ∧ answers host (outcome 0) s = true := by
        simpa using hfirst
      have hnone : (joinToOldServers host (fun k => outcome (k + 1))
          (isCommSent || answers host (outcome 0) s) rest).asked = [] := by
        apply List.eq_nil_iff_forall_not_mem.mpr
        intro i hi
        have := (hmem i).mp hi
        simp [hanswers] at this
      rw [if_pos hfirst, hnone]
      refine ⟨le_rfl, fun i => ?_⟩
      cases i with
      | zero => simp [hsent, hanswers, firstAt_zero]
      | succ i => simp [hanswers, firstAt_succ]
    · rw [if_neg hfirst, List.nil_append, List.length_map]
      refine ⟨hlength, fun i => ?_⟩
      cases i with
      | zero =>
        rw [firstAt_zero]
        simp only [Bool.and_eq_true, Bool.not_eq_true'] at hfirst
        simp [hfirst]
      | succ i =>
        rw [firstAt_succ, List.mem_map_of_injective (Nat.succ_injective), hmem, Bool.or_eq_false_iff,
          and_assoc]

end Loop

/-- **Exactly one server is asked for the history.**  The loop returns 0, and sends the request to the
first entry that answers, once; an entry that waits for its connection gets its socket if it is that
one, or if it comes behind it and its lookup and `connect` succeed, and else -1; no other entry
changes. -/
theorem one_is_asked (host : Server) {outcome : ℕ → Outcome}
    (hsock : ∀ k, (outcome k).socketFd ≠ -1) (l : List Server) :
    let r := joinToOldServers host outcome false l
    r.code = 0 ∧ r.entries.length = l.length ∧ r.asked.length ≤ 1
      ∧ (∀ i, i ∈ r.asked ↔ FirstAt host outcome l i)
      ∧ ∀ i s, l[i]? = some s →
        (¬(differentServers s host = true ∧ s.fd = -2) → r.entries[i]? = some s)
        ∧ (differentServers s host = true → s.fd = -2 →
          (FirstAt host outcome l i ∨ (∃ j < i, FirstAt host outcome l j) ∧ (outcome i).resolved = true
              ∧ (outcome i).connected = true →
            r.entries[i]? = some { s with fd := (outcome i).socketFd })
          ∧ (¬FirstAt host outcome l i → ¬((∃ j < i, FirstAt host outcome l j)
              ∧ (outcome i).resolved = true ∧ (outcome i).connected = true) →
            r.entries[i]? = some { s with fd := -1 })) := by
  intro r
  obtain ⟨hcode, hlength⟩ := @joined_code host outcome hsock false l
  obtain ⟨hcount, hasked⟩ := @joined_asked host outcome hsock false l
  refine ⟨hcode, hlength, hcount, fun i => (hasked i).trans (and_iff_right rfl), ?_⟩
  intro i s hs
  obtain ⟨before, hbefore⟩ : ∃ before : Bool, before = true ↔ ∃ j < i, FirstAt host outcome l j := by
    classical exact ⟨decide _, decide_eq_true_iff⟩
  have hentry : r.entries[i]? = some (entryAfter host (outcome i) s before) := by
    apply joined_entry hsock hs
    rw [hbefore, exists_firstAt_iff]
    simp
  rw [hentry, ← hbefore]
  constructor
  · intro hno
    have hdue : ¬isDue host s = true := by simpa [isDue] using hno
    rw [entryAfter, if_neg hdue]
  · intro hdiff hfd
    have hdue : isDue host s = true := by simp [isDue, hdiff, hfd]
    rw [entryAfter, if_pos hdue]
    constructor
    · intro hopen
      rw [if_pos]
      rcases hopen with ⟨⟨t, -, -, -, hres, hconn, hsent⟩, -⟩ | ⟨hearlier, hres, hconn⟩
      · simp [hres, hconn, hsent]
      · simp [hres, hconn, hearlier]
    · intro hnot hlate
      rw [if_neg]
      intro hopen
      simp only [Bool.and_eq_true, Bool.or_eq_true] at hopen
      obtain ⟨⟨hres, hconn⟩, hearlier | hsent⟩ := hopen
      · exact hlate ⟨hearlier, hres, hconn⟩
      · refine hnot ⟨⟨s, hs, hdiff, hfd, hres, hconn, hsent⟩, ?_⟩
        intro j hj hanswers
        have hfirst := hbefore.mpr (exists_firstAt_iff.mpr ⟨j, hj, hanswers⟩)
        exact hlate ⟨hfirst, hres, hconn⟩

/-- Three entries; the lookup of the first one fails. -/
def threeOutcomes (k : ℕ) : Outcome := ⟨5 + k, k != 0, true, true⟩

def waiting (ip : Text) : Server := { Server.new (ascii "s") ip 1 2 with fd := -2 }

theorem one_is_asked_three :
    (joinToOldServers boardHost threeOutcomes false
        [waiting (ascii "10.0.0.2"), waiting (ascii "10.0.0.3"), waiting (ascii "10.0.0.4")]).code = 0
      ∧ 1 ∈ (joinToOldServers boardHost threeOutcomes false
        [waiting (ascii "10.0.0.2"), waiting (ascii "10.0.0.3"), waiting (ascii "10.0.0.4")]).asked := by
  have hasked := @one_is_asked boardHost threeOutcomes (by
    intro k
    show (5 + k : ℤ) ≠ -1
    omega) [waiting (ascii "10.0.0.2"), waiting (ascii "10.0.0.3"), waiting (ascii "10.0.0.4")]
  refine ⟨hasked.1, (hasked.2.2.2.1 1).mpr ⟨⟨waiting (ascii "10.0.0.3"), rfl, by decide +kernel, rfl,
    rfl, rfl, rfl⟩, ?_⟩⟩
  intro j hj
  obtain rfl : j = 0 := by omega
  rintro ⟨s, -, -, -, hres, -, -⟩
  exact absurd hres (by decide)

/-! ### A join that fails -/

/-- A socket cannot be created for one of the entries that wait; `outcome k` is the attempt at the
first entry. -/
def someSocketFails (host : Server) (outcome : ℕ → Outcome) : ℕ → List Server → Bool
  | _, [] => false
  | k, s :: rest =>
      isDue host s && (outcome k).socketFd == -1 || someSocketFails host outcome (k + 1) rest

/-- There is one that waits, and it cannot be created for the first of them. -/
def firstSocketFails (host : Server) (outcome : ℕ → Outcome) : ℕ → List Server → Bool
  | _, [] => false
  | k, s :: rest =>
      if isDue host s then (outcome k).socketFd == -1
      else firstSocketFails host outcome (k + 1) rest

/-- The join fails behind what it changed: the id server answered with a list, a socket could not be
created for a later entry, and by then an entry was added or an attempt was made. -/
def FailsLate (host : Server) (j : Join) (p : Peers) : Prop :=
  j.registered = true ∧ ∃ new, parseServers j.received [] = some (0, new)
    ∧ someSocketFails host j.outcome 0 (new ++ p.msgsrvList) = true
    ∧ ¬(new = [] ∧ firstSocketFails host j.outcome 0 p.msgsrvList = true)

theorem joinToOldServer_fatal_iff {o : Outcome} {s : Server} {isCommSent : Bool} :
    joinToOldServer host o s isCommSent = none ↔ isDue host s = true ∧ o.socketFd = -1 := by
  constructor
  · intro h
    exact ⟨(joinToOldServer_eq_none h).1, socketFd_of_fatal h⟩
  · rintro ⟨hdue, hsock⟩
    obtain ⟨hdiff, hfd⟩ : differentServers s host = true ∧ s.fd = -2 := by simpa [isDue] using hdue
    simp [joinToOldServer, connectToOldServer, hdiff, hfd, hsock]

/-- What the loop does at its next entry. -/
theorem joinToOldServers_step {outcome : ℕ → Outcome} {k : ℕ} {isCommSent : Bool} {s : Server}
    {rest : List Server} {opened : List ℤ} {r : List Server × List ℤ × Bool}
    (h : MessageBoard.joinToOldServers host outcome k isCommSent (s :: rest) opened = some r) :
    (isDue host s = true ∧ (outcome k).socketFd = -1 ∧ r = (s :: rest, opened, false))
      ∨ ∃ s' isCommSent' opened' r',
        MessageBoard.joinToOldServers host outcome (k + 1) isCommSent' rest opened' = some r'
          ∧ r = (s' :: r'.1, r'.2)
          ∧ (isDue host s = false ∧ s' = s
            ∨ isDue host s = true ∧ (outcome k).socketFd ≠ -1 ∧ s'.fd ≠ s.fd) := by
  rw [MessageBoard.joinToOldServers] at h
  split at h
  · rename_i hjoin
    obtain ⟨hdue, hsock⟩ := joinToOldServer_fatal_iff.mp hjoin
    exact Or.inl ⟨hdue, hsock, (Option.some.inj h).symm⟩
  · rename_i s' sent' hjoin
    right
    split at h
    · rename_i hdue
      split at h
      · rename_i hfresh
        obtain ⟨r', hr', rfl⟩ := Option.map_eq_some_iff.mp h
        have hpos : 0 ≤ (outcome k).socketFd := hfresh.1
        have hfd : s.fd = -2 := by
          have := hdue
          simp only [isDue, Bool.and_eq_true, beq_iff_eq] at this
          exact this.2
        refine ⟨s', sent', _, r', hr', rfl, Or.inr ⟨hdue, by omega, ?_⟩⟩
        rcases joinToOldServer_of_due hdue hjoin with ⟨-, hs'⟩ | ⟨-, hs'⟩
        · rw [(Prod.mk.inj hs').1, hfd]
          show (outcome k).socketFd ≠ -2
          omega
        · rw [show s' = { s with fd := -1 } from hs', hfd]
          show (-1 : ℤ) ≠ -2
          decide
      · simp at h
    · rename_i hdue
      rw [Bool.not_eq_true] at hdue
      obtain ⟨r', hr', rfl⟩ := Option.map_eq_some_iff.mp h
      rw [joinToOldServer_of_not_due hdue] at hjoin
      exact ⟨s', sent', _, r', hr', rfl, Or.inl ⟨hdue, (Prod.mk.inj (Option.some.inj hjoin)).1.symm⟩⟩

/-- **What the loop leaves**: it fails exactly if a socket does, and then every entry is as it was
exactly if the first one did. -/
theorem joinToOldServers_fails {outcome : ℕ → Outcome} {k : ℕ} {isCommSent : Bool} {l : List Server}
    {opened : List ℤ} {r : List Server × List ℤ × Bool}
    (h : MessageBoard.joinToOldServers host outcome k isCommSent l opened = some r) :
    r.1.length = l.length ∧ (r.2.2 = false ↔ someSocketFails host outcome k l = true)
      ∧ (r.2.2 = false → (r.1 = l ↔ firstSocketFails host outcome k l = true)) := by
  induction l generalizing k isCommSent opened r with
  | nil =>
    rw [← Option.some.inj h]
    simp [someSocketFails]
  | cons s rest ih =>
    rcases joinToOldServers_step h with ⟨hdue, hsock, rfl⟩ | ⟨s', sent', opened', r', hr', rfl, hentry⟩
    · simp [someSocketFails, firstSocketFails, hdue, hsock]
    · obtain ⟨hlength, hfails, hsame⟩ := ih hr'
      refine ⟨congrArg (· + 1) hlength, ?_⟩
      rcases hentry with ⟨hdue, rfl⟩ | ⟨hdue, hsock, hfd⟩
      · simp only [someSocketFails, firstSocketFails, hdue, Bool.false_and, Bool.false_or,
          Bool.false_eq_true, if_false, List.cons.injEq, true_and]
        exact ⟨hfails, hsame⟩
      · have hne : s' ≠ s := fun heq => hfd (congrArg Server.fd heq)
        simp [someSocketFails, firstSocketFails, hdue, hsock, hne, hfails]

theorem parseServers_fails {received : Option Text} {l l' : List Server} {code : ℕ}
    (h : parseServers received l = some (code, l')) (hcode : code ≠ 0) : l' = l := by
  cases received with
  | none => exact (Prod.mk.inj (Option.some.inj h)).2.symm
  | some datagram =>
    simp only [parseServers] at h
    split at h
    · simp at h
    · split at h
      · simp at h
      · split at h
        · exact (Prod.mk.inj (Option.some.inj h)).2.symm
        · obtain ⟨new, -, hpair⟩ := Option.map_eq_some_iff.mp h
          exact absurd (Prod.mk.inj hpair).1.symm hcode

/-- **A failed join leaves the list as it was** exactly if it does not fail late. -/
theorem list_kept_iff {j : Join} {p : Peers} {r : ℕ × Peers} (h : handleJoin host j p = some r) :
    (r.1 ≠ 0 → r.2.msgsrvList = p.msgsrvList) ↔ ¬FailsLate host j p := by
  rw [handleJoin] at h
  by_cases hreg : j.registered = true
  · rw [hreg, Bool.not_true, if_neg Bool.false_ne_true] at h
    obtain ⟨⟨code, l⟩, hparse, h⟩ := Option.bind_eq_some_iff.mp h
    obtain ⟨new, -, rfl, hany⟩ := parseServers_eq hparse
    have hnew : parseServers j.received [] = some (code, new) := by rw [hany, List.append_nil]
    dsimp only at h
    by_cases hcode : code = 0
    · subst hcode
      rw [if_neg (by simp)] at h
      obtain ⟨q, hq, rfl⟩ := Option.map_eq_some_iff.mp h
      obtain ⟨hlength, hfails, hsame⟩ := joinToOldServers_fails hq
      have hlate : FailsLate host j p ↔ q.2.2 = false ∧ q.1 ≠ p.msgsrvList := by
        have honly : FailsLate host j p ↔ someSocketFails host j.outcome 0 (new ++ p.msgsrvList) = true
            ∧ ¬(new = [] ∧ firstSocketFails host j.outcome 0 p.msgsrvList = true) := by
          rw [FailsLate, hnew]
          simp [hreg]
        rw [honly, ← hfails]
        apply and_congr_right
        intro hfail
        rw [not_iff_not]
        constructor
        · rintro ⟨rfl, hfirst⟩
          exact (hsame hfail).mpr hfirst
        · intro heq
          have hnil : new = [] := by
            rw [heq, List.length_append] at hlength
            exact List.length_eq_zero_iff.mp (by omega)
          subst hnil
          exact ⟨rfl, (hsame hfail).mp heq⟩
      rw [hlate]
      cases q.2.2 <;> simp
    · rw [if_pos hcode, Option.some.injEq] at h
      have hlist : r.2.msgsrvList = p.msgsrvList := by
        rw [← h]
        exact parseServers_fails hparse hcode
      refine iff_of_true (fun _ => hlist) ?_
      rintro ⟨-, new', hnew', -⟩
      rw [hnew, Option.some.injEq, Prod.mk.injEq] at hnew'
      exact hcode hnew'.1
  · rw [Bool.not_eq_true] at hreg
    rw [hreg, Bool.not_false, if_pos rfl, Option.some.injEq] at h
    refine iff_of_true (fun _ => by rw [← h]) fun hlate => ?_
    rw [hlate.1] at hreg
    exact Bool.noConfusion hreg

/-- The id server lists two servers. -/
def twoListed : Option Text := some (ascii "SERVERS\na;10.0.0.2;1;2\nb;10.0.0.3;3;4\n")

/-- No socket for the second entry. -/
def failing : Join := ⟨true, twoListed, fun k => ⟨if k = 0 then 5 else -1, true, true, true⟩⟩

/-- The command repeated, with all calls successful. -/
def again : Join := ⟨true, twoListed, fun k => ⟨6 + k, true, true, true⟩⟩

/-- A peer that is connected, and a server left over from an earlier join. -/
def leftOver : Peers :=
  ⟨[{ waiting (ascii "10.0.0.7") with fd := 4, connected := true }, waiting (ascii "10.0.0.8")], [4]⟩

/-- The id server lists no server, and there is no socket for the one that is left over. -/
def noSocket : Join := ⟨true, some (ascii "SERVERS\n"), fun _ => ⟨-1, true, true, true⟩⟩

/-- Two joins that fail at a socket: the list is kept by the first of them only. -/
theorem list_kept_iff_leftOver : ∃ r r', handleJoin boardHost noSocket leftOver = some r ∧ r.1 = 3
    ∧ r.2.msgsrvList = leftOver.msgsrvList ∧ ¬FailsLate boardHost noSocket leftOver
    ∧ handleJoin boardHost failing leftOver = some r' ∧ r'.1 = 3
    ∧ r'.2.msgsrvList ≠ leftOver.msgsrvList ∧ FailsLate boardHost failing leftOver := by
  have hall : (handleJoin boardHost noSocket leftOver).any (fun r => decide (r.1 = 3
      ∧ r.2.msgsrvList = leftOver.msgsrvList) && (handleJoin boardHost failing leftOver).any
        fun r' => decide (r'.1 = 3 ∧ r'.2.msgsrvList ≠ leftOver.msgsrvList)) = true := by
    decide +kernel
  obtain ⟨r, hr, hrest⟩ := (Option.any_eq_true _ _).mp hall
  obtain ⟨hcode, hsecond⟩ := (Bool.and_eq_true _ _).mp hrest
  obtain ⟨r', hr', hlost⟩ := (Option.any_eq_true _ _).mp hsecond
  obtain ⟨hthree, hkept⟩ := of_decide_eq_true hcode
  obtain ⟨hthree', hchanged⟩ := of_decide_eq_true hlost
  refine ⟨r, r', hr, hthree, hkept, (list_kept_iff hr).mp fun _ => hkept, hr', hthree', hchanged, ?_⟩
  by_contra hearly
  exact hchanged ((list_kept_iff hr').mpr hearly (by omega))

/-- **The join fails at the second entry**, and the list keeps both; repeated, it connects to one of
them a second time. -/
theorem list_changed : ∃ r r', handleJoin boardHost failing ⟨[], []⟩ = some r ∧ r.1 = 3
    ∧ r.2.msgsrvList ≠ [] ∧ handleJoin boardHost again r.2 = some r' ∧ r'.1 = 0
    ∧ r'.2.msgsrvList.map (fun s => (s.address, s.fd))
      = [((ascii "10.0.0.3", 3, 4), 6), ((ascii "10.0.0.2", 1, 2), 7), ((ascii "10.0.0.3", 3, 4), 5),
        ((ascii "10.0.0.2", 1, 2), 9)] := by
  have hfirst : (handleJoin boardHost failing ⟨[], []⟩).any (fun r => decide (r.1 = 3
      ∧ r.2.msgsrvList ≠ []) && (handleJoin boardHost again r.2).any fun r' => decide (r'.1 = 0
        ∧ r'.2.msgsrvList.map (fun s => (s.address, s.fd))
          = [((ascii "10.0.0.3", 3, 4), 6), ((ascii "10.0.0.2", 1, 2), 7),
            ((ascii "10.0.0.3", 3, 4), 5), ((ascii "10.0.0.2", 1, 2), 9)])) = true := by
    decide +kernel
  obtain ⟨r, hr, hrest⟩ := (Option.any_eq_true _ _).mp hfirst
  obtain ⟨hcode, hsecond⟩ := (Bool.and_eq_true _ _).mp hrest
  obtain ⟨r', hr', htwice⟩ := (Option.any_eq_true _ _).mp hsecond
  have hthree := of_decide_eq_true hcode
  have hfour := of_decide_eq_true htwice
  exact ⟨r, r', hr, hthree.1, hthree.2, hr', hfour.1, hfour.2⟩

end JoinOutcome

end MessageBoard
