import MessageBoard.Lib.Run
import MessageBoard.RmbBan

/-!
# `rmb/main`: the loop of the client

One event is one turn of the loop: the search block, or what `select` reported.  The servers the id
server lists, the results of `rand` and `sendto`, and what the user types are inputs.  `log` records,
newest first, which server was chosen, failed, and was banned.

* `justified_step` — a turn that meets `Exhausts` bans only a server that failed;
* `only_failed_banned` — **only servers that failed are banned** in a run of such turns;
* `innocent_banned` — any other turn of the search block is followed by a ban without a failure.
-/

namespace MessageBoard

open CText CScan Run

namespace Rmb

/-- What happens to the servers. -/
inductive Note where
  | chosen (s : Server)
  /-- A call for the server returned an error, or `exec_server_test` gave it up. -/
  | failed (s : Server)
  | banned (s : Server)
  deriving DecidableEq, Repr

/-- The variables of `main` the loop uses. -/
structure Client where
  selServer : Option Server
  err : ℕ
  serverNotAnswering : Bool
  msgserversLst : List Server
  banserversLst : List Server
  statics : Statics
  msgNum : ℕ
  op : Text
  inputBuffer : Text
  gExit : Bool
  log : List Note
  deriving DecidableEq

/-- A line of the user, the answer to the question about a long message, and whether the calls of
`sendto` succeed. -/
structure UserInput where
  line : Text
  answer : Text
  sentFirst : Bool
  sentSecond : Bool

inductive Event where
  /-- The search block; `fetched` is the list `fetch_servers` returns. -/
  | search (rand : ℕ → ℕ) (fetched : Option (List Server))
  | selectError
  | timer
  /-- Data on the socket (`none` inside when `recvfrom` fails), and a line on the terminal. -/
  | ready (incoming : Option (Option Text)) (user : Option UserInput)

/-- The state after `init_program`. -/
def Client.start (servers : List Server) (rand : ℕ) : Client where
  selServer := selectServer rand servers
  err := 0
  serverNotAnswering := false
  msgserversLst := servers
  banserversLst := []
  statics := .start
  msgNum := 0
  op := []
  inputBuffer := []
  gExit := false
  log := (selectServer rand servers).toList.map .chosen

/-! ### The search block -/

def Client.needsSearch (c : Client) : Bool :=
  c.selServer.isNone || c.err != 0 || c.serverNotAnswering

/-- The first half of the search block: a server that does not answer is banned and removed.
`rem_awol_server` has no meaning for `NULL` and a list with entries. -/
def giveUp (c : Client) : Option Client :=
  let c := { c with
    statics := cancelServerTest c.statics
    serverNotAnswering := c.err != 0 || c.serverNotAnswering }
  if c.serverNotAnswering then
    match c.selServer with
    | some s => some { c with
        banserversLst := banServer c.banserversLst s
        msgserversLst := remAwolServer c.msgserversLst s
        log := .banned s :: c.log }
    | none => if c.msgserversLst.isEmpty then some c else none
  else some c

/-- The second half: a server is selected, or the list is fetched again.  Only the latter clears
`err`. -/
def lookFor (rand : ℕ → ℕ) (fetched : Option (List Server)) (c : Client) : Client :=
  let found := searchLoop rand c.msgserversLst.length c.msgserversLst c.banserversLst
  let c := { c with
    selServer := found.1
    msgserversLst := found.2.1
    banserversLst := found.2.2 }
  match found.1 with
  | some s => { c with serverNotAnswering := false, log := .chosen s :: c.log }
  | none =>
      match fetched with
      | some servers => { c with err := 0, serverNotAnswering := false, msgserversLst := servers }
      | none => { c with err := 0, gExit := true }

/-! ### The commands of the user -/

def toLower (b : Byte) : Byte := if 65 ≤ b && b ≤ 90 then b + 32 else b

/-- `strcasecmp` with the name of a command, or `strcmp` with its shortcut. -/
def isCommand (name shortcut : String) (op : Text) : Bool :=
  op.map toLower == ascii name || op == ascii shortcut

/-- A call for the server returned `code`. -/
def Client.returned (c : Client) (s : Server) (code : ℕ) : Client :=
  { c with err := code, log := if code = 0 then c.log else .failed s :: c.log }

/-- The strings are set to zero at the end of the turn. -/
def Client.clearInput (c : Client) : Client := { c with op := [], inputBuffer := [] }

section Commands

variable (inetAton : Text → Bool)

/-- A request to the server, and the mark that an answer is due. -/
def askServer (c : Client) (s : Server) (sent : Bool) (num : ℤ) : Client :=
  let asked := askForMessages inetAton sent c.statics s num
  { c.returned s asked.2.1 with statics := askServerTest asked.1 }

/-- A message is published, and if that worked the server is tested.  An invalid text is no error of
the loop. -/
def publishCommand (c : Client) (s : Server) (u : UserInput) : Client :=
  let c := c.returned s (publish inetAton u.sentFirst s c.inputBuffer).1
  let c := if c.err = 0 then askServer inetAton c s u.sentSecond 0 else c
  if c.err = 2 then { c with err := 0 } else c

/-- `show_latest_messages`. -/
def latestCommand (c : Client) (s : Server) (u : UserInput) : Client :=
  let msgNumTest := atoi c.inputBuffer
  if 0 < msgNumTest then
    { askServer inetAton c s u.sentFirst msgNumTest with msgNum := msgNumTest.toNat }
  else c

/-- The command in `op`.  Where the source continues the loop, the strings stay as they are. -/
def obey (c : Client) (s : Server) (u : UserInput) : Client :=
  if isCommand "show_servers" "1" c.op then c.clearInput
  else if isCommand "publish" "2" c.op then
    if c.inputBuffer.isEmpty then c
    else if 140 ≤ c.inputBuffer.length then
      match (u.answer.dropWhile isSpace).head? with
      | none => c
      | some b =>
          if b = 89 ∨ b = 121 then (publishCommand inetAton c s u).clearInput else c.clearInput
    else (publishCommand inetAton c s u).clearInput
  else if isCommand "show_latest_messages" "3" c.op then
    if c.inputBuffer.isEmpty then c else (latestCommand inetAton c s u).clearInput
  else if isCommand "show_selected_server" "4" c.op then c.clearInput
  else if isCommand "exit" "9" c.op then { c.clearInput with gExit := true }
  else c.clearInput

/-- `input_buffer` after the scan of a line: it keeps its text when the line has one word only. -/
def inputOf (c : Client) : List Field → Text
  | [.text input] => input
  | _ => c.inputBuffer

/-- A line of the user.  A word of more than 140 bytes overruns `op`. -/
def userCommand (c : Client) (s : Server) (u : UserInput) : Option Client :=
  match scan commandFormat u.line with
  | .text op :: rest =>
      if stringSize ≤ op.length then none
      else some (obey inetAton { c with op := op, inputBuffer := inputOf c rest } s u)
  | _ => some c

/-! ### One turn -/

/-- `exec_server_test` when the timer fires. -/
def onTimer (c : Client) (s : Server) : Client :=
  let status := execServerTest c.statics
  if status.1 = 1 then
    { c with statics := status.2, serverNotAnswering := true, log := .failed s :: c.log }
  else { c with statics := status.2 }

/-- `handle_incoming_messages` when the socket is ready. -/
def onIncoming (c : Client) (received : Option Text) : Option Client :=
  (handleIncomingMessages c.statics (c.msgNum % 2 ^ 32) received).map fun i =>
    { c with statics := i.statics }

def turn (c : Client) : Event → Option Client
  | .search rand fetched =>
      if c.gExit = false ∧ c.needsSearch = true then (giveUp c).map (lookFor rand fetched) else none
  | event =>
      match c.selServer with
      | none => none
      | some s =>
          if c.gExit = false ∧ c.needsSearch = false then
            match event with
            | .timer => some (onTimer c s)
            | .ready incoming user =>
                (incoming.elim (some c) (onIncoming c)).bind fun c =>
                  match user with
                  | none => some c
                  | some u => userCommand inetAton c s u
            | _ => some c
          else none

end Commands

/-! ### Which bans are justified -/

/-- The server failed since it was last chosen. -/
def failedSince (s : Server) : List Note → Bool
  | [] => false
  | .chosen t :: log => differentServers t s && failedSince s log
  | .failed t :: log => !differentServers t s || failedSince s log
  | .banned _ :: log => failedSince s log

/-- Every server that was banned had failed since it was last chosen. -/
def justified : List Note → Bool
  | [] => true
  | .banned s :: log => failedSince s log && justified log
  | _ :: log => justified log

/-- If the search block starts with an error, it finds no server: every one that is left is banned
for as many tests as it has entries. -/
def Exhausts (c : Client) : Event → Prop
  | .search _ _ => c.err ≠ 0 → ∀ s, c.selServer = some s →
      NoneLeft (remAwolServer c.msgserversLst s) (banServer c.banserversLst s)
  | _ => True

instance (c : Client) (e : Event) : Decidable (Exhausts c e) :=
  match e with
  | .search _ _ => decidable_of_iff (c.err ≠ 0 → ∀ s ∈ c.selServer,
      NoneLeft (remAwolServer c.msgserversLst s) (banServer c.banserversLst s)) (by simp [Exhausts])
  | .selectError | .timer | .ready _ _ => isTrue trivial

/-- The flags of the loop stand for a failure of the selected server. -/
structure Inv (c : Client) : Prop where
  justified : justified c.log = true
  flagged : c.err ≠ 0 ∨ c.serverNotAnswering = true →
    ∀ s, c.selServer = some s → failedSince s c.log = true

theorem failedSince_failed (s : Server) (log : List Note) :
    failedSince s (.failed s :: log) = true := by
  rw [failedSince, differentServers_self]
  rfl

theorem failedSince_chosen (s : Server) (log : List Note) :
    failedSince s (.chosen s :: log) = false := by
  rw [failedSince, differentServers_self]
  rfl

theorem inv_start (servers : List Server) (rand : ℕ) : Inv (.start servers rand) where
  justified := by
    rw [Client.start]
    cases selectServer rand servers <;> rfl
  flagged := by
    intro h
    simp [Client.start] at h

/-! ### The search block -/

theorem justified_giveUp {c c' : Client} (hinv : Inv c) (h : giveUp c = some c') :
    justified c'.log = true := by
  rw [giveUp] at h
  split at h
  · rename_i hgive
    split at h
    · rename_i s hsel
      rw [← Option.some.inj h]
      have hflag : c.err ≠ 0 ∨ c.serverNotAnswering = true := by simpa using hgive
      show (failedSince s c.log && justified c.log) = true
      rw [hinv.flagged hflag s hsel, hinv.justified]
      rfl
    · split at h
      · rw [← Option.some.inj h]
        exact hinv.justified
      · simp at h
  · rw [← Option.some.inj h]
    exact hinv.justified

/-- A search block that starts with an error finds no server. -/
theorem searchLoop_eq_none {c c' : Client} {rand : ℕ → ℕ} {fetched : Option (List Server)}
    (hexhausts : Exhausts c (.search rand fetched)) (herr : c.err ≠ 0) (h : giveUp c = some c') :
    (searchLoop rand c'.msgserversLst.length c'.msgserversLst c'.banserversLst).1 = none := by
  rw [searchLoop_eq_none_iff rand le_rfl]
  have hgive : (c.err != 0 || c.serverNotAnswering) = true := by simp [herr]
  simp only [giveUp, hgive, if_true] at h
  split at h
  · rename_i s hsel
    rw [← Option.some.inj h]
    exact hexhausts herr s hsel
  · split at h
    · rename_i hempty
      rw [← Option.some.inj h]
      intro s hs
      rw [List.isEmpty_iff] at hempty
      rw [hempty] at hs
      simp at hs
    · simp at h

theorem err_giveUp {c c' : Client} (h : giveUp c = some c') : c'.err = c.err := by
  rw [giveUp] at h
  split at h
  · split at h
    · rw [← Option.some.inj h]
    · split at h
      · rw [← Option.some.inj h]
      · simp at h
  · rw [← Option.some.inj h]

/-- **The search block** bans only a server that failed, and leaves no flag behind. -/
theorem inv_search {c c₁ : Client} {rand : ℕ → ℕ} {fetched : Option (List Server)} (hinv : Inv c)
    (hexhausts : Exhausts c (.search rand fetched)) (h : giveUp c = some c₁) :
    Inv (lookFor rand fetched c₁) := by
  have hjust := justified_giveUp hinv h
  have herr := err_giveUp h
  have hnone := fun hne => searchLoop_eq_none hexhausts hne h
  simp only [lookFor]
  split
  · rename_i s hfound
    have hzero : c.err = 0 := by
      by_contra hne
      have hno := hnone hne
      rw [hfound] at hno
      simp at hno
    refine ⟨hjust, ?_⟩
    intro hflag
    simp [herr, hzero] at hflag
  · rename_i hfound
    split
    · refine ⟨hjust, ?_⟩
      intro _ s hsel
      rw [hfound] at hsel
      simp at hsel
    · refine ⟨hjust, ?_⟩
      intro _ s hsel
      rw [hfound] at hsel
      simp at hsel

/-! ### The other turns -/

/-- A client outside the search block, with its server. -/
structure Ready (s : Server) (c : Client) : Prop where
  inv : Inv c
  selServer : c.selServer = some s
  answering : c.serverNotAnswering = false

/-- What the loop needs of a client is in four fields. -/
theorem Ready.of_eq {s : Server} {c c' : Client} (h : Ready s c) (hlog : c'.log = c.log)
    (herr : c'.err = c.err) (hsel : c'.selServer = c.selServer)
    (hanswering : c'.serverNotAnswering = c.serverNotAnswering) : Ready s c' where
  inv := by
    refine ⟨by rw [hlog, h.inv.justified], ?_⟩
    rw [herr, hsel, hanswering, hlog]
    exact h.inv.flagged
  selServer := by rw [hsel, h.selServer]
  answering := by rw [hanswering, h.answering]

/-- An error of a call is a failure of the selected server. -/
theorem Ready.returned {s : Server} {c : Client} (h : Ready s c) (code : ℕ) :
    Ready s (c.returned s code) where
  inv := by
    by_cases hcode : code = 0
    · subst hcode
      refine ⟨h.inv.justified, ?_⟩
      intro hflag
      simp [Client.returned, h.answering] at hflag
    · have hlog : (c.returned s code).log = .failed s :: c.log := by
        rw [Client.returned, if_neg hcode]
      refine ⟨by rw [hlog]; exact h.inv.justified, ?_⟩
      intro _ t hsel
      have hst : some s = some t := h.selServer.symm.trans hsel
      rw [← Option.some.inj hst, hlog, failedSince_failed]
  selServer := h.selServer
  answering := h.answering

/-- Without an error there is nothing to stand for. -/
theorem Ready.clearErr {s : Server} {c : Client} (h : Ready s c) : Ready s { c with err := 0 } where
  inv := by
    refine ⟨h.inv.justified, ?_⟩
    intro hflag
    simp [h.answering] at hflag
  selServer := h.selServer
  answering := h.answering

section Commands

variable {inetAton : Text → Bool} {s : Server} {c : Client}

theorem Ready.askServer (h : Ready s c) (sent : Bool) (num : ℤ) :
    Ready s (askServer inetAton c s sent num) :=
  (h.returned _).of_eq rfl rfl rfl rfl

theorem Ready.publishCommand (h : Ready s c) (u : UserInput) :
    Ready s (publishCommand inetAton c s u) := by
  have hsent := h.returned (publish inetAton u.sentFirst s c.inputBuffer).1
  rw [Rmb.publishCommand]
  split
  · split
    · exact (hsent.askServer _ _).clearErr
    · exact hsent.askServer _ _
  · split
    · exact hsent.clearErr
    · exact hsent

theorem Ready.latestCommand (h : Ready s c) (u : UserInput) :
    Ready s (latestCommand inetAton c s u) := by
  rw [Rmb.latestCommand]
  dsimp only
  split
  · exact (h.askServer _ _).of_eq rfl rfl rfl rfl
  · exact h

theorem Ready.clearInput (h : Ready s c) : Ready s c.clearInput := h.of_eq rfl rfl rfl rfl

theorem Ready.incoming (h : Ready s c) {incoming : Option (Option Text)} {c' : Client}
    (hincoming : incoming.elim (some c) (onIncoming c) = some c') : Ready s c' := by
  cases incoming with
  | none => exact Option.some.inj hincoming ▸ h
  | some received =>
    obtain ⟨i, -, rfl⟩ := Option.map_eq_some_iff.mp hincoming
    exact h.of_eq rfl rfl rfl rfl

theorem Ready.obey (h : Ready s c) (u : UserInput) : Ready s (obey inetAton c s u) := by
  have hclear := h.clearInput
  have hpublish : Ready s (Rmb.publishCommand inetAton c s u).clearInput :=
    (h.publishCommand u).clearInput
  have hlatest : Ready s (Rmb.latestCommand inetAton c s u).clearInput :=
    (h.latestCommand u).clearInput
  rw [Rmb.obey]
  split
  · exact hclear
  · split
    · split
      · exact h
      · split
        · split
          · exact h
          · split
            · exact hpublish
            · exact hclear
        · exact hpublish
    · split
      · split
        · exact h
        · exact hlatest
      · split
        · exact hclear
        · split
          · exact hclear.of_eq rfl rfl rfl rfl
          · exact hclear

theorem Ready.userCommand (h : Ready s c) {u : UserInput} {c' : Client}
    (hcmd : userCommand inetAton c s u = some c') : Ready s c' := by
  rw [Rmb.userCommand] at hcmd
  split at hcmd
  · split at hcmd
    · simp at hcmd
    · rw [← Option.some.inj hcmd]
      apply Ready.obey
      exact h.of_eq rfl rfl rfl rfl
  · exact Option.some.inj hcmd ▸ h

/-- A server the timer gives up has failed. -/
theorem inv_onTimer (h : Ready s c) : Inv (onTimer c s) := by
  rw [onTimer]
  split
  · refine ⟨h.inv.justified, ?_⟩
    intro _ t hsel
    have hst : some s = some t := h.selServer.symm.trans hsel
    rw [← Option.some.inj hst, failedSince_failed]
  · have hkept : Ready s { c with statics := (execServerTest c.statics).2 } :=
      h.of_eq rfl rfl rfl rfl
    exact hkept.inv

theorem ready_of_not_needsSearch (hinv : Inv c) (hsel : c.selServer = some s)
    (hneeds : c.needsSearch = false) : Ready s c := by
  rw [Client.needsSearch, Bool.or_eq_false_iff] at hneeds
  exact ⟨hinv, hsel, hneeds.2⟩

/-- **A turn that meets the condition** keeps the invariant. -/
theorem inv_turn (c : Client) (e : Event) (c' : Client) (hinv : Inv c) (hexhausts : Exhausts c e)
    (h : turn inetAton c e = some c') : Inv c' := by
  by_cases hsearch : ∃ rand fetched, e = .search rand fetched
  · obtain ⟨rand, fetched, rfl⟩ := hsearch
    rw [turn] at h
    split at h
    · obtain ⟨c₁, hgive, rfl⟩ := Option.map_eq_some_iff.mp h
      exact inv_search hinv hexhausts hgive
    · simp at h
  · rw [turn] at h
    · split at h
      · simp at h
      · rename_i s hsel
        split at h
        · rename_i hand
          have hready := ready_of_not_needsSearch hinv hsel hand.2
          split at h
          · exact Option.some.inj h ▸ inv_onTimer hready
          · rename_i incoming user
            obtain ⟨c₁, hincoming, h⟩ := Option.bind_eq_some_iff.mp h
            have hread : Ready s c₁ := hready.incoming hincoming
            split at h
            · exact Option.some.inj h ▸ hread.inv
            · exact (hread.userCommand h).inv
          · exact Option.some.inj h ▸ hinv
        · simp at h
    · exact fun rand fetched heq => hsearch ⟨rand, fetched, heq⟩

/-- **Only servers that failed are banned**, in a run whose turns meet the condition. -/
theorem only_failed_banned {servers : List Server} {rand : ℕ} {events : List Event}
    (hrun : run (turn inetAton) (.start servers rand) events = some c)
    (hmeets : Meets (turn inetAton) Exhausts (.start servers rand) events) :
    justified c.log = true :=
  (run_invariant_of_meets inv_turn (inv_start servers rand) hmeets hrun).justified

/-- Giving up with an error bans the selected server. -/
theorem giveUp_of_err (herr : c.err ≠ 0) (hsel : c.selServer = some s) :
    giveUp c = some { c with
      statics := cancelServerTest c.statics
      serverNotAnswering := true
      banserversLst := banServer c.banserversLst s
      msgserversLst := remAwolServer c.msgserversLst s
      log := .banned s :: c.log } := by
  have hgive : (c.err != 0 || c.serverNotAnswering) = true := by simp [herr]
  simp only [giveUp, hgive, hsel, if_true]

/-- Looking for a server forgets no ban. -/
theorem justified_lookFor (rand : ℕ → ℕ) (fetched : Option (List Server)) (c : Client) :
    justified (lookFor rand fetched c).log = justified c.log := by
  simp only [lookFor]
  split
  · rfl
  · split <;> rfl

/-- **Any other turn of the search block** is followed by one that bans the server just chosen. -/
theorem innocent_banned {rand : ℕ → ℕ} {fetched : Option (List Server)} {c' : Client}
    (hexhausts : ¬Exhausts c (.search rand fetched))
    (h : turn inetAton c (.search rand fetched) = some c') (rand' : ℕ → ℕ)
    (fetched' : Option (List Server)) :
    ∃ c'', turn inetAton c' (.search rand' fetched') = some c'' ∧ justified c''.log = false := by
  rw [Exhausts] at hexhausts
  push Not at hexhausts
  obtain ⟨herr, s, hsel, hleft⟩ := hexhausts
  rw [turn] at h
  split at h
  · rename_i hand
    rw [giveUp_of_err herr hsel, Option.map_some, Option.some.injEq] at h
    obtain ⟨t, ht⟩ := Option.ne_none_iff_exists'.mp
      (mt (searchLoop_eq_none_iff rand le_rfl).mp hleft)
    have herr' : c'.err ≠ 0 := by
      rw [← h]
      simpa only [lookFor, ht] using herr
    have hsel' : c'.selServer = some t := by
      rw [← h]
      simp only [lookFor, ht]
    have hlog : c'.log = .chosen t :: .banned s :: c.log := by
      rw [← h]
      simp only [lookFor, ht]
    have hexit : c'.gExit = false := by
      rw [← h]
      simpa only [lookFor, ht] using hand.1
    have hneeds : c'.needsSearch = true := by simp [Client.needsSearch, herr']
    refine ⟨_, by rw [turn, if_pos ⟨hexit, hneeds⟩, giveUp_of_err herr' hsel', Option.map_some], ?_⟩
    rw [justified_lookFor]
    show (failedSince t c'.log && justified c'.log) = false
    rw [hlog, failedSince_chosen]
    rfl
  · simp at h

end Commands

/-! ### Two runs -/

def host (port : ℕ) : Server := .new (ascii "s") (ascii "127.0.0.1") port port

/-- A message that cannot be sent, and turns of the search block; a list fetched again has two
servers. -/
def sendFails (turns : ℕ) : List Event :=
  .ready none (some ⟨ascii "publish hi", [], false, false⟩)
    :: List.replicate turns (.search (fun _ => 0) (some [host 1, host 2]))

/-- With one server in the list, sending to it fails and it is banned; the next list has another. -/
theorem only_failed_banned_refetched :
    ∃ c, run (turn fun _ => true) (.start [host 1] 0) (sendFails 2) = some c
      ∧ justified c.log = true := by
  have hrun : (run (turn fun _ => true) (.start [host 1] 0) (sendFails 2)).isSome = true := by decide
  obtain ⟨c, hc⟩ := Option.isSome_iff_exists.mp hrun
  exact ⟨c, hc, only_failed_banned hc (by decide)⟩

/-- **A server that did not fail can be banned**: the second of three, when sending to the first one
failed. -/
theorem banned_without_failure :
    ∃ c, run (turn fun _ => true) (.start [host 1, host 2, host 3] 0) (sendFails 2) = some c
      ∧ .banned (host 2) ∈ c.log ∧ .failed (host 2) ∉ c.log ∧ justified c.log = false := by
  have hlog : (run (turn fun _ => true) (.start [host 1, host 2, host 3] 0) (sendFails 2)).map
      Client.log = some [.chosen (host 3), .banned (host 2), .chosen (host 2), .banned (host 1),
        .failed (host 1), .chosen (host 1)] := by decide
  obtain ⟨c, hc, heq⟩ := Option.map_eq_some_iff.mp hlog
  refine ⟨c, hc, ?_⟩
  rw [heq]
  decide

end Rmb

end MessageBoard
