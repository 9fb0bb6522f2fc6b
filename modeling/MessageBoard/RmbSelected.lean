import MessageBoard.RmbTerminal

/-!
# Which server a client talks to

The loop of the client uses `sel_server` without a check wherever the search block did not run, and the
search block itself passes it to `rem_awol_server`.

* `searchLoop_found` — a search finds an entry of the list that is not banned;
* `safe_run` — the selected server is in the list and has no ban left, and without one no flag is set;
* `sent_to_listed` — **what a client sends** goes to such a server;
* `takes_turn` — **a client is never stuck**: it can take exactly the turns that its flags call for, but
  for a datagram or a word that overruns its buffer.
-/

namespace MessageBoard

open CText CScan ScanStream Transducer

namespace Rmb

/-! ### The search -/

/-- A test that does not find a server banned leaves it no ban. -/
theorem banTime_isBanned_lt {banned : List Server} {s : Server} (h : (isBanned banned s).1 = false) :
    banTime (isBanned banned s).2 s < 0 := by
  induction banned with
  | nil =>
    show (-1 : ℤ) < 0
    decide
  | cons b banned ih =>
    rw [isBanned] at h ⊢
    cases hb : differentServers b s with
    | true =>
      rw [hb, if_pos rfl] at h
      rw [if_pos rfl, banTime_cons, hb, if_pos rfl]
      exact ih h
    | false =>
      rw [hb, if_neg Bool.false_ne_true, decide_eq_false_iff_not] at h
      rw [if_neg Bool.false_ne_true, banTime_cons]
      have hsame : differentServers (setBanTime b (b.fd - 1)) s = false := hb
      rw [hsame, if_neg Bool.false_ne_true]
      show b.fd - 1 < 0
      omega

/-- **A search finds an entry of the list** it leaves, and one that has no ban left. -/
theorem searchLoop_found {rand : ℕ → ℕ} {turns : ℕ} {servers banned : List Server} {s : Server}
    (h : (searchLoop rand turns servers banned).1 = some s) :
    s ∈ (searchLoop rand turns servers banned).2.1
      ∧ banTime (searchLoop rand turns servers banned).2.2 s < 0 := by
  induction turns generalizing servers banned with
  | zero => simp [searchLoop] at h
  | succ turns ih =>
    rw [searchLoop] at h ⊢
    cases hsel : selectServer (rand turns) servers with
    | none => simp [hsel] at h
    | some t =>
      simp only [hsel] at h ⊢
      split at h
      · rename_i hbanned
        rw [if_pos hbanned]
        exact ih h
      · rename_i hbanned
        obtain rfl := Option.some.inj h
        rw [if_neg hbanned]
        exact ⟨selectServer_mem hsel, banTime_isBanned_lt (by simpa using hbanned)⟩

theorem searchLoop_sublist (rand : ℕ → ℕ) (turns : ℕ) (servers banned : List Server) :
    (searchLoop rand turns servers banned).2.1.Sublist servers := by
  induction turns generalizing servers banned with
  | zero => exact List.Sublist.refl _
  | succ turns ih =>
    rw [searchLoop]
    cases selectServer (rand turns) servers with
    | none => exact List.Sublist.refl _
    | some t =>
      dsimp only
      split
      · exact (ih _ _).trans (remAwolServer_sublist servers t)
      · exact List.Sublist.refl _

/-! ### What holds of a client -/

/-- The selected server is in the list and has no ban left, and no flag is set without one. -/
structure Safe (listed : List Server) (c : Client) : Prop where
  idle : c.gExit = false → c.selServer = none → c.err = 0 ∧ c.serverNotAnswering = false
  selected : ∀ s, c.selServer = some s → s ∈ c.msgserversLst ∧ banTime c.banserversLst s < 0
  entries : ∀ s ∈ c.msgserversLst, s ∈ listed

variable {listed : List Server} {c c' : Client}

theorem safe_start (servers : List Server) (rand : ℕ) : Safe servers (.start servers rand) where
  idle := fun _ _ => ⟨rfl, rfl⟩
  selected := fun _ hs => ⟨selectServer_mem hs, show (-1 : ℤ) < 0 by decide⟩
  entries := fun _ hs => hs

/-- The servers that a turn brings. -/
def Wakeup.fetched : Wakeup → List Server
  | .search _ (some servers) => servers
  | _ => []

/-- The search block has a meaning unless a flag is set without a server. -/
theorem giveUp_isSome (hidle : c.selServer = none → c.err = 0 ∧ c.serverNotAnswering = false) :
    (giveUp c).isSome = true := by
  simp only [giveUp]
  split
  · rename_i hgive
    cases hsel : c.selServer with
    | some s => rfl
    | none =>
      obtain ⟨herr, hflag⟩ := hidle hsel
      rw [herr, hflag] at hgive
      exact absurd hgive (by decide)
  · rfl

theorem msgserversLst_giveUp (h : giveUp c = some c') :
    c'.msgserversLst.Sublist c.msgserversLst := by
  simp only [giveUp] at h
  split at h
  · split at h
    · rw [← Option.some.inj h]
      exact remAwolServer_sublist _ _
    · split at h
      · rw [← Option.some.inj h]
      · simp at h
  · rw [← Option.some.inj h]

/-- **The search block.** -/
theorem Safe.search (h : Safe listed c) {rand : ℕ → ℕ} {fetched : Option (List Server)} {c₁ : Client}
    (hgive : giveUp c = some c₁) :
    Safe (listed ++ (Wakeup.search rand fetched).fetched) (lookFor rand fetched c₁) := by
  have hentries : ∀ s ∈ c₁.msgserversLst, s ∈ listed :=
    fun s hs => h.entries s ((msgserversLst_giveUp hgive).subset hs)
  obtain ⟨found, hfound⟩ : ∃ found,
      found = searchLoop rand c₁.msgserversLst.length c₁.msgserversLst c₁.banserversLst := ⟨_, rfl⟩
  have hleft : ∀ s ∈ found.2.1, s ∈ listed := by
    intro s hs
    rw [hfound] at hs
    exact hentries s ((searchLoop_sublist _ _ _ _).subset hs)
  have hmono : ∀ s, s ∈ listed → s ∈ listed ++ (Wakeup.search rand fetched).fetched :=
    fun s hs => List.mem_append_left _ hs
  cases hone : found.1 with
  | some s =>
    have hlook : lookFor rand fetched c₁ = { c₁ with
        selServer := some s
        msgserversLst := found.2.1
        banserversLst := found.2.2
        serverNotAnswering := false
        log := .chosen s :: c₁.log } := by
      simp only [lookFor, ← hfound, hone]
    obtain ⟨hmem, htime⟩ := searchLoop_found (hfound ▸ hone)
    rw [← hfound] at hmem htime
    rw [hlook]
    refine ⟨by simp, ?_, fun t ht => hmono t (hleft t ht)⟩
    intro t ht
    obtain rfl := Option.some.inj ht
    exact ⟨hmem, htime⟩
  | none =>
    cases fetched with
    | some servers =>
      have hlook : lookFor rand (some servers) c₁ = { c₁ with
          selServer := none
          err := 0
          serverNotAnswering := false
          msgserversLst := servers
          banserversLst := found.2.2 } := by
        simp only [lookFor, ← hfound, hone]
      rw [hlook]
      exact ⟨fun _ _ => ⟨rfl, rfl⟩, by simp, fun t ht => List.mem_append_right _ ht⟩
    | none =>
      have hlook : lookFor rand none c₁ = { c₁ with
          selServer := none
          err := 0
          msgserversLst := found.2.1
          banserversLst := found.2.2
          gExit := true } := by
        simp only [lookFor, ← hfound, hone]
      rw [hlook]
      exact ⟨by simp, by simp, fun t ht => hmono t (hleft t ht)⟩

/-! ### The other turns -/

/-- Nothing but the selection matters while a server is selected. -/
theorem Safe.of_selected (h : Safe listed c) {s : Server} (hsel : c.selServer = some s)
    (hsame : c'.selServer = c.selServer) (hbans : c'.banserversLst = c.banserversLst)
    (hlist : c'.msgserversLst = c.msgserversLst) : Safe listed c' where
  idle := by
    intro _ hnone
    rw [hsame, hsel] at hnone
    simp at hnone
  selected := by
    rw [hsame, hbans, hlist]
    exact h.selected
  entries := by
    rw [hlist]
    exact h.entries

theorem kept_onTimer (c : Client) (s : Server) : (onTimer c s).selServer = c.selServer
    ∧ (onTimer c s).banserversLst = c.banserversLst
    ∧ (onTimer c s).msgserversLst = c.msgserversLst := by
  rw [onTimer]
  split <;> exact ⟨rfl, rfl, rfl⟩

section Commands

variable {inetAton : Text → Bool}

theorem kept_follow (c : Client) (s : Server) (sent : Bool × Bool) (o : Order) :
    (follow inetAton c s sent o).1.selServer = c.selServer
      ∧ (follow inetAton c s sent o).1.banserversLst = c.banserversLst
      ∧ (follow inetAton c s sent o).1.msgserversLst = c.msgserversLst := by
  cases o with
  | publish text =>
    have hkept : ∀ (c : Client) (u : UserInput),
        (publishCommand inetAton c s u).selServer = c.selServer
          ∧ (publishCommand inetAton c s u).banserversLst = c.banserversLst
          ∧ (publishCommand inetAton c s u).msgserversLst = c.msgserversLst := by
      intro c u
      rw [publishCommand]
      split
      · split <;> exact ⟨rfl, rfl, rfl⟩
      · split <;> exact ⟨rfl, rfl, rfl⟩
    exact hkept _ _
  | latest num => exact ⟨rfl, rfl, rfl⟩
  | exit => exact ⟨rfl, rfl, rfl⟩
  | other => exact ⟨rfl, rfl, rfl⟩

theorem kept_obey (c : Client) (s : Server) (u : UserInput) :
    (obey inetAton c s u).selServer = c.selServer
      ∧ (obey inetAton c s u).banserversLst = c.banserversLst
      ∧ (obey inetAton c s u).msgserversLst = c.msgserversLst := by
  obtain ⟨hclient, -, -⟩ := @obey_follow inetAton c s u
  have hkept := @kept_follow inetAton c.clearInput s (u.sentFirst, u.sentSecond)
    (orderOf c.op c.inputBuffer (u.answer.dropWhile isSpace).head?)
  rw [← hclient] at hkept
  exact hkept

/-- **A command** leaves the selection as it is. -/
theorem kept_onStdin {t t' : Terminal} {s : Server} {sent : Bool × Bool} {ds : List Text}
    (h : onStdin inetAton t s sent = some (t', ds)) : t'.client.selServer = t.client.selServer
      ∧ t'.client.banserversLst = t.client.banserversLst
      ∧ t'.client.msgserversLst = t.client.msgserversLst := by
  simp only [onStdin] at h
  split at h
  · split at h
    · simp at h
    · split at h
      · obtain ⟨rfl, -⟩ := Prod.mk.inj (Option.some.inj h)
        exact kept_obey _ s _
      · obtain ⟨rfl, -⟩ := Prod.mk.inj (Option.some.inj h)
        exact kept_obey _ s _
  · obtain ⟨rfl, -⟩ := Prod.mk.inj (Option.some.inj h)
    exact ⟨rfl, rfl, rfl⟩

/-- The turns behind `select`. -/
theorem turn_selected {s : Server} (hsel : c.selServer = some s) :
    Rmb.turn inetAton c .selectError
        = (if c.gExit = false ∧ c.needsSearch = false then some c else none)
      ∧ Rmb.turn inetAton c .timer
        = (if c.gExit = false ∧ c.needsSearch = false then some (onTimer c s) else none)
      ∧ ∀ incoming, Rmb.turn inetAton c (.ready incoming none)
        = if c.gExit = false ∧ c.needsSearch = false then incoming.elim (some c) (onIncoming c)
          else none := by
  simp only [Rmb.turn, hsel, Option.bind_fun_some]
  exact ⟨trivial, trivial, fun _ => trivial⟩

theorem turn_unselected (hsel : c.selServer = none) {e : Event}
    (hsearch : ∀ rand fetched, e ≠ .search rand fetched) : Rmb.turn inetAton c e = none := by
  cases e with
  | search rand fetched => exact absurd rfl (hsearch rand fetched)
  | _ => simp only [Rmb.turn, hsel]

/-- The search block comes first. -/
theorem turn_needsSearch (hneeds : c.needsSearch = true) {e : Event}
    (hsearch : ∀ rand fetched, e ≠ .search rand fetched) : Rmb.turn inetAton c e = none := by
  cases hsel : c.selServer with
  | none => exact turn_unselected hsel hsearch
  | some s =>
    have hno : ¬(c.gExit = false ∧ c.needsSearch = false) := by simp [hneeds]
    cases e with
    | search rand fetched => exact absurd rfl (hsearch rand fetched)
    | selectError => simp only [Rmb.turn, hsel, if_neg hno]
    | timer => simp only [Rmb.turn, hsel, if_neg hno]
    | ready incoming user => simp only [Rmb.turn, hsel, if_neg hno]

/-- A datagram changes the statics only. -/
theorem kept_incoming {incoming : Option (Option Text)}
    (h : incoming.elim (some c) (onIncoming c) = some c') : c'.selServer = c.selServer
      ∧ c'.banserversLst = c.banserversLst ∧ c'.msgserversLst = c.msgserversLst := by
  cases incoming with
  | none => exact Option.some.inj h ▸ ⟨rfl, rfl, rfl⟩
  | some received =>
    obtain ⟨i, -, rfl⟩ := Option.map_eq_some_iff.mp h
    exact ⟨rfl, rfl, rfl⟩

/-- **A turn behind `select`**, before the command. -/
theorem Safe.turn (h : Safe listed c) {e : Event} (he : ∀ incoming u, e ≠ .ready incoming (some u))
    (hsearch : ∀ rand fetched, e ≠ .search rand fetched) (hturn : Rmb.turn inetAton c e = some c') :
    Safe listed c' ∧ c'.msgserversLst = c.msgserversLst ∧ c'.banserversLst = c.banserversLst := by
  cases hsel : c.selServer with
  | none =>
    rw [turn_unselected hsel hsearch] at hturn
    simp at hturn
  | some s =>
    have hkept : ∀ c'', c''.selServer = c.selServer → c''.banserversLst = c.banserversLst →
        c''.msgserversLst = c.msgserversLst → some c'' = some c' →
        Safe listed c' ∧ c'.msgserversLst = c.msgserversLst ∧ c'.banserversLst = c.banserversLst := by
      intro c'' hsame hbans hlist heq
      obtain rfl := Option.some.inj heq
      exact ⟨h.of_selected hsel hsame hbans hlist, hlist, hbans⟩
    obtain ⟨herror, htimer, hready⟩ := @turn_selected _ inetAton _ hsel
    cases e with
    | search rand fetched => exact absurd rfl (hsearch rand fetched)
    | selectError =>
      rw [herror] at hturn
      split at hturn
      · exact hkept c rfl rfl rfl hturn
      · simp at hturn
    | timer =>
      rw [htimer] at hturn
      split at hturn
      · obtain ⟨hsame, hbans, hlist⟩ := kept_onTimer c s
        exact hkept _ hsame hbans hlist hturn
      · simp at hturn
    | ready incoming user =>
      cases user with
      | some u => exact absurd rfl (he incoming u)
      | none =>
        rw [hready] at hturn
        split at hturn
        · obtain ⟨hsame, hbans, hlist⟩ := kept_incoming hturn
          exact hkept c' hsame hbans hlist rfl
        · simp at hturn

/-- **One turn.** -/
theorem safe_terminalTurn {t t' : Terminal} {w : Wakeup} {out : List (Server × Text)}
    (h : Safe listed t.client) (hturn : terminalTurn inetAton t w = some (t', out)) :
    Safe (listed ++ w.fetched) t'.client
      ∧ ∀ sd ∈ out, sd.1 ∈ t.client.msgserversLst ∧ banTime t.client.banserversLst sd.1 < 0 := by
  have hnothing : ∀ {e : Event}, (∀ incoming u, e ≠ .ready incoming (some u)) →
      (∀ rand fetched, e ≠ .search rand fetched) →
      ((turn inetAton t.client e).map fun c => ((⟨c, t.stdin⟩ : Terminal), ([] : List (Server × Text))))
        = some (t', out) →
      Safe (listed ++ []) t'.client
        ∧ ∀ sd ∈ out, sd.1 ∈ t.client.msgserversLst ∧ banTime t.client.banserversLst sd.1 < 0 := by
    intro e he hsearch hmap
    obtain ⟨c, hc, heq⟩ := Option.map_eq_some_iff.mp hmap
    obtain ⟨rfl, rfl⟩ := Prod.mk.inj heq
    rw [List.append_nil]
    exact ⟨(h.turn he hsearch hc).1, by simp⟩
  cases w with
  | search rand fetched =>
    obtain ⟨c, hc, heq⟩ := Option.map_eq_some_iff.mp hturn
    obtain ⟨rfl, rfl⟩ := Prod.mk.inj heq
    rw [Rmb.turn] at hc
    split at hc
    · obtain ⟨c₁, hgive, rfl⟩ := Option.map_eq_some_iff.mp hc
      exact ⟨h.search hgive, by simp⟩
    · simp at hc
  | selectError => exact hnothing (by simp) (by simp) hturn
  | timer => exact hnothing (by simp) (by simp) hturn
  | ready incoming typed =>
    obtain ⟨c, hc, hrest⟩ := Option.bind_eq_some_iff.mp hturn
    obtain ⟨hsafe, hlist, hbans⟩ := h.turn (by simp) (by simp) hc
    have hfetched : listed ++ (Wakeup.ready incoming typed).fetched = listed := List.append_nil _
    rw [hfetched]
    cases typed with
    | none =>
      obtain ⟨rfl, rfl⟩ := Prod.mk.inj (Option.some.inj hrest)
      exact ⟨hsafe, by simp⟩
    | some sent =>
      cases hserver : c.selServer with
      | none =>
        simp only [hserver] at hrest
        obtain ⟨rfl, rfl⟩ := Prod.mk.inj (Option.some.inj hrest)
        exact ⟨hsafe, by simp⟩
      | some s =>
        simp only [hserver] at hrest
        obtain ⟨⟨t₁, ds⟩, hstdin, heq⟩ := Option.map_eq_some_iff.mp hrest
        obtain ⟨rfl, rfl⟩ := Prod.mk.inj heq
        obtain ⟨hsame', hbans', hlist'⟩ := kept_onStdin hstdin
        refine ⟨hsafe.of_selected hserver hsame' hbans' hlist', ?_⟩
        intro sd hsd
        obtain ⟨d, -, rfl⟩ := List.mem_map.mp hsd
        rw [← hbans, ← hlist]
        exact hsafe.selected s hserver

/-- The servers in the lists that the turns fetched. -/
def fetchedIn (wakeups : List Wakeup) : List Server := wakeups.flatMap Wakeup.fetched

theorem safe_run {t t' : Terminal} {wakeups : List Wakeup} {outs : List (List (Server × Text))}
    (h : Safe listed t.client) (hrun : respond (terminalTurn inetAton) t wakeups = some (t', outs)) :
    Safe (listed ++ fetchedIn wakeups) t'.client := by
  induction wakeups generalizing listed t outs with
  | nil =>
    obtain ⟨rfl, rfl⟩ := Prod.mk.inj (Option.some.inj hrun)
    rw [fetchedIn, List.flatMap_nil, List.append_nil]
    exact h
  | cons w wakeups ih =>
    obtain ⟨t₁, out, outs', hturn, hrest, rfl⟩ := respond_cons_eq_some.mp hrun
    have hsafe := ih (safe_terminalTurn h hturn).1 hrest
    rwa [List.append_assoc] at hsafe

variable {servers : List Server} {rand : ℕ} {stdin : Text} {wakeups : List Wakeup} {t : Terminal}
  {outs : List (List (Server × Text))}

/-- **What a client sends** goes to an entry of its list, which it was given, and to none with a ban
left. -/
theorem sent_to_listed
    (hrun : respond (terminalTurn inetAton) ⟨.start servers rand, stdin⟩ wakeups = some (t, outs))
    {w : Wakeup} {t' : Terminal} {out : List (Server × Text)}
    (hturn : terminalTurn inetAton t w = some (t', out)) :
    ∀ sd ∈ out, sd.1 ∈ t.client.msgserversLst ∧ sd.1 ∈ servers ++ fetchedIn wakeups
      ∧ banTime t.client.banserversLst sd.1 < 0 := by
  have hsafe := safe_run (safe_start servers rand) hrun
  intro sd hsd
  obtain ⟨hmem, htime⟩ := (safe_terminalTurn hsafe hturn).2 sd hsd
  exact ⟨hmem, hsafe.entries _ hmem, htime⟩

/-- The word that is scanned into `op`. -/
def firstWord (stdin : Text) : Text := (stdin.dropWhile isSpace).takeWhile fun b => !isSpace b

theorem onStdin_isSome_iff (t : Terminal) (s : Server) (sent : Bool × Bool) :
    (onStdin inetAton t s sent).isSome = true ↔ (firstWord t.stdin).length < stringSize := by
  obtain ⟨sets, hsets⟩ : ∃ sets, commandFormat = .word :: sets := ⟨_, rfl⟩
  by_cases hempty : firstWord t.stdin = []
  · have hread : Directive.word.read t.stdin = none := by
      rw [firstWord] at hempty
      simp only [Directive.read, hempty]
      rfl
    have hline : (scanInput commandFormat t.stdin).1 = [] := by
      rw [hsets, (scanInput_none hread sets).1]
    simp only [onStdin, hline, hempty]
    simp [stringSize]
  · have hread : Directive.word.read t.stdin = some ([.text (firstWord t.stdin)],
        (t.stdin.dropWhile isSpace).drop (firstWord t.stdin).length) := by
      have hnonempty : (firstWord t.stdin).isEmpty = false := by simpa using hempty
      rw [firstWord] at hnonempty ⊢
      simp only [Directive.read, hnonempty]
      rfl
    obtain ⟨rest, hline⟩ : ∃ rest, (scanInput commandFormat t.stdin).1
        = .text (firstWord t.stdin) :: rest := by
      rw [hsets, (scanInput_some hread sets).1]
      exact ⟨_, rfl⟩
    simp only [onStdin, hline]
    split
    · rename_i hover
      simpa using hover
    · rename_i hfits
      refine iff_of_true ?_ (by omega)
      split <;> rfl

/-- The datagram, if there is one, is read within the buffers. -/
def Takes (c : Client) (incoming : Option (Option Text)) : Prop :=
  ∀ received ∈ incoming, Receives c.statics (c.msgNum % 2 ^ 32) received

instance (c : Client) (incoming : Option (Option Text)) : Decidable (Takes c incoming) :=
  inferInstanceAs (Decidable (∀ received ∈ incoming, Receives c.statics (c.msgNum % 2 ^ 32) received))

theorem incoming_isSome_iff (c : Client) (incoming : Option (Option Text)) :
    (incoming.elim (some c) (onIncoming c)).isSome = true ↔ Takes c incoming := by
  cases incoming with
  | none => exact iff_of_true rfl (by simp [Takes])
  | some received =>
    rw [Option.elim_some, onIncoming, Option.isSome_map, handleIncomingMessages_isSome_iff]
    simp [Takes]

/-- **What is ready** is taken by a client with a server, but for a datagram that is not read within the
buffers and a command whose first word overruns `op`. -/
theorem terminalTurn_ready_isSome_iff {s : Server} (hsel : t.client.selServer = some s)
    (hand : t.client.gExit = false ∧ t.client.needsSearch = false) (incoming : Option (Option Text)) :
    ((terminalTurn inetAton t (.ready incoming none)).isSome = true ↔ Takes t.client incoming)
      ∧ ∀ sent, (terminalTurn inetAton t (.ready incoming (some sent))).isSome = true
        ↔ Takes t.client incoming ∧ (firstWord t.stdin).length < stringSize := by
  obtain ⟨-, -, hready⟩ := @turn_selected _ inetAton _ hsel
  rw [← incoming_isSome_iff]
  cases hincoming : incoming.elim (some t.client) (onIncoming t.client) with
  | none =>
    refine ⟨?_, fun sent => ?_⟩
    · rw [terminalTurn, hready, if_pos hand, hincoming]
      simp
    · rw [terminalTurn, hready, if_pos hand, hincoming]
      simp
  | some c =>
    have hselected : c.selServer = some s := (kept_incoming hincoming).1.trans hsel
    refine ⟨?_, fun sent => ?_⟩
    · rw [terminalTurn, hready, if_pos hand, hincoming]
      simp
    · rw [terminalTurn, hready, if_pos hand, hincoming, Option.bind_some]
      simp only [hselected, Option.isSome_map, Option.isSome_some, true_and]
      exact onStdin_isSome_iff ⟨c, t.stdin⟩ s sent

/-- **A client is never stuck**: it takes the search block exactly when a flag calls for it, and every
other turn exactly when none does, but for a datagram that is not read within the buffers and a command
whose first word overruns `op`. -/
theorem takes_turn
    (hrun : respond (terminalTurn inetAton) ⟨.start servers rand, stdin⟩ wakeups = some (t, outs))
    (hexit : t.client.gExit = false) :
    (∀ rand fetched, (terminalTurn inetAton t (.search rand fetched)).isSome = true
        ↔ t.client.needsSearch = true)
      ∧ ((terminalTurn inetAton t .selectError).isSome = true ↔ t.client.needsSearch = false)
      ∧ ((terminalTurn inetAton t .timer).isSome = true ↔ t.client.needsSearch = false)
      ∧ ∀ incoming, ((terminalTurn inetAton t (.ready incoming none)).isSome = true
          ↔ t.client.needsSearch = false ∧ Takes t.client incoming)
        ∧ ∀ sent, (terminalTurn inetAton t (.ready incoming (some sent))).isSome = true
          ↔ t.client.needsSearch = false ∧ Takes t.client incoming
            ∧ (firstWord t.stdin).length < stringSize := by
  have hsafe := safe_run (safe_start servers rand) hrun
  cases hneeds : t.client.needsSearch with
  | true =>
    have hnone : ∀ {e : Event}, (∀ rand fetched, e ≠ .search rand fetched) →
        turn inetAton t.client e = none := fun hsearch => turn_needsSearch hneeds hsearch
    refine ⟨?_, ?_, ?_, fun incoming => ⟨?_, fun sent => ?_⟩⟩
    · intro rand' fetched
      obtain ⟨c₁, hc₁⟩ := Option.isSome_iff_exists.mp (giveUp_isSome (hsafe.idle hexit))
      rw [terminalTurn, turn, if_pos ⟨hexit, hneeds⟩, hc₁]
      exact iff_of_true rfl rfl
    · rw [terminalTurn, hnone (by simp)]
      simp
    · rw [terminalTurn, hnone (by simp)]
      simp
    · rw [terminalTurn, hnone (by simp)]
      simp
    · rw [terminalTurn, hnone (by simp)]
      simp
  | false =>
    obtain ⟨s, hsel⟩ : ∃ s, t.client.selServer = some s := by
      rw [← Option.isSome_iff_exists]
      simp only [Client.needsSearch, Bool.or_eq_false_iff] at hneeds
      rw [← Option.not_isNone, hneeds.1.1]
      rfl
    obtain ⟨herror, htimer, -⟩ := @turn_selected _ inetAton _ hsel
    have hand : t.client.gExit = false ∧ t.client.needsSearch = false := ⟨hexit, hneeds⟩
    refine ⟨?_, ?_, ?_, fun incoming => ?_⟩
    · intro rand' fetched
      rw [terminalTurn, turn, if_neg (by simp [hneeds])]
      simp
    · rw [terminalTurn, herror, if_pos hand]
      simp
    · rw [terminalTurn, htimer, if_pos hand]
      simp
    · simp only [true_and]
      exact terminalTurn_ready_isSome_iff hsel hand incoming

end Commands

/-! ### A server that fails -/

/-- A message that cannot be sent, and a list with another server. -/
def failsOnce : List Wakeup :=
  [.ready none (some (false, false)), .search (fun _ => 0) (some [host 1, host 2]),
    .search (fun _ => 0) none]

/-- The next message goes to the other server. -/
theorem sent_to_listed_failsOnce : ∃ t outs t' out,
    respond (terminalTurn fun _ => true) ⟨.start [host 1] 0, ascii "2 a\n2 b\n"⟩ failsOnce
        = some (t, outs)
      ∧ terminalTurn (fun _ => true) t (.ready none (some (true, true))) = some (t', out)
      ∧ out.map Prod.fst = [host 2, host 2]
      ∧ ∀ sd ∈ out, sd.1 ∈ t.client.msgserversLst ∧ sd.1 ∈ [host 1] ++ fetchedIn failsOnce
        ∧ banTime t.client.banserversLst sd.1 < 0 := by
  have hsent : ((respond (terminalTurn fun _ => true) ⟨.start [host 1] 0, ascii "2 a\n2 b\n"⟩
      failsOnce).bind fun r => (terminalTurn (fun _ => true) r.1 (.ready none (some (true, true)))).map
        fun q => q.2.map Prod.fst) = some [host 2, host 2] := by decide +kernel
  obtain ⟨⟨t, outs⟩, hrun, hmap⟩ := Option.bind_eq_some_iff.mp hsent
  obtain ⟨⟨t', out⟩, hturn, heq⟩ := Option.map_eq_some_iff.mp hmap
  exact ⟨t, outs, t', out, hrun, hturn, heq, sent_to_listed hrun hturn⟩

/-- A reply, and the command behind it. -/
theorem takes_turn_failsOnce : ∃ t outs,
    respond (terminalTurn fun _ => true) ⟨.start [host 1] 0, ascii "2 a\n2 b\n"⟩ failsOnce
        = some (t, outs)
      ∧ firstWord t.stdin = ascii "2"
      ∧ (terminalTurn (fun _ => true) t
        (.ready (some (some (ascii "MESSAGES\na\n"))) (some (true, true)))).isSome = true := by
  have hstate : (respond (terminalTurn fun _ => true) ⟨.start [host 1] 0, ascii "2 a\n2 b\n"⟩
      failsOnce).any (fun r => decide (r.1.client.gExit = false ∧ r.1.client.needsSearch = false
        ∧ Takes r.1.client (some (some (ascii "MESSAGES\na\n"))) ∧ firstWord r.1.stdin = ascii "2"))
        = true := by
    decide +kernel
  obtain ⟨⟨t, outs⟩, hrun, hfacts⟩ := (Option.any_eq_true _ _).mp hstate
  obtain ⟨hexit, hneeds, htakes, hword⟩ := of_decide_eq_true hfacts
  have hfits : (firstWord t.stdin).length < stringSize := by
    rw [hword]
    decide
  exact ⟨t, outs, hrun, hword, (((takes_turn hrun hexit).2.2.2 _).2 _).mpr ⟨hneeds, htakes, hfits⟩⟩

end Rmb

end MessageBoard
