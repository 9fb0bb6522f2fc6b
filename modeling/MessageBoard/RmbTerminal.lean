import MessageBoard.Lib.ScanStream
import MessageBoard.Lib.Transducer
import MessageBoard.RmbMain

/-!
# What a user types

The terminal is a stream of bytes here: a turn of the loop scans a command, may ask a question and scan
its answer, and drops the rest of the line.  What the turn sends to its server is its output.

* `onStdin_follow` — a turn takes the next line, and two if it asks a question;
* `terminal_simulates`, `terminal_refines` — **the client on bytes is the client on lines**, whatever
  happens between them;
* `sent_for_lines` — **what is sent** is what the lines ask for, in order and once.
-/

namespace MessageBoard

open CText CScan ScanStream Transducer

namespace Rmb

/-! ### The client on bytes -/

/-- `"%9s"`. -/
def answerFormat : List Directive := [.white, .set (fun b => !isSpace b) (some 9) true]

/-- The client, and the bytes that it did not read yet. -/
structure Terminal where
  client : Client
  stdin : Text

/-- What `select` reported; for `stdin` whether the calls of `sendto` succeed. -/
inductive Wakeup where
  | search (rand : ℕ → ℕ) (fetched : Option (List Server))
  | selectError
  | timer
  | ready (incoming : Option (Option Text)) (typed : Option (Bool × Bool))

/-- The calls of `sendto` in the turn succeed. -/
def Wakeup.sends : Wakeup → Bool
  | .ready _ (some sent) => sent == (true, true)
  | _ => true

section Commands

variable (inetAton : Text → Bool)

/-- The datagrams of `publishCommand`. -/
def publishSent (c : Client) (s : Server) (u : UserInput) : List Text :=
  let published := publish inetAton u.sentFirst s c.inputBuffer
  published.2.toList
    ++ if published.1 = 0 then (askForMessages inetAton u.sentSecond c.statics s 0).2.2.toList else []

/-- The datagram of `latestCommand`. -/
def latestSent (c : Client) (s : Server) (u : UserInput) : List Text :=
  let msgNumTest := atoi c.inputBuffer
  if 0 < msgNumTest then (askForMessages inetAton u.sentFirst c.statics s msgNumTest).2.2.toList else []

/-- The question about a long message is asked. -/
def asks (op inputBuffer : Text) : Bool :=
  isCommand "publish" "2" op && decide (140 ≤ inputBuffer.length)

/-- The datagrams of `obey`. -/
def obeySent (c : Client) (s : Server) (u : UserInput) : List Text :=
  if isCommand "show_servers" "1" c.op then []
  else if isCommand "publish" "2" c.op then
    if c.inputBuffer.isEmpty then []
    else if 140 ≤ c.inputBuffer.length then
      match (u.answer.dropWhile isSpace).head? with
      | none => []
      | some b => if b = 89 ∨ b = 121 then publishSent inetAton c s u else []
    else publishSent inetAton c s u
  else if isCommand "show_latest_messages" "3" c.op then
    if c.inputBuffer.isEmpty then [] else latestSent inetAton c s u
  else []

/-- `y_n_answer` after its scan. -/
def answerOf : List Field → Text
  | .text answer :: _ => answer
  | _ => []

/-- `stdin` is ready.  A word of more than 140 bytes overruns `op`. -/
def onStdin (t : Terminal) (s : Server) (sent : Bool × Bool) : Option (Terminal × List Text) :=
  let line := scanInput commandFormat t.stdin
  match line.1 with
  | .text op :: rest =>
      if stringSize ≤ op.length then none
      else
        let c := { t.client with op := cstr op, inputBuffer := cstr (inputOf t.client rest) }
        let left := flushInput line.2
        if asks c.op c.inputBuffer then
          let answer := scanInput answerFormat left
          let u := ⟨[], answerOf answer.1, sent.1, sent.2⟩
          some (⟨obey inetAton c s u, flushInput answer.2⟩, obeySent inetAton c s u)
        else
          let u := ⟨[], [], sent.1, sent.2⟩
          some (⟨obey inetAton c s u, left⟩, obeySent inetAton c s u)
  | _ => some (⟨t.client, line.2⟩, [])

/-- One turn, and what it sends to which server. -/
def terminalTurn (t : Terminal) : Wakeup → Option (Terminal × List (Server × Text))
  | .search rand fetched =>
      (turn inetAton t.client (.search rand fetched)).map fun c => (⟨c, t.stdin⟩, [])
  | .selectError => (turn inetAton t.client .selectError).map fun c => (⟨c, t.stdin⟩, [])
  | .timer => (turn inetAton t.client .timer).map fun c => (⟨c, t.stdin⟩, [])
  | .ready incoming typed =>
      (turn inetAton t.client (.ready incoming none)).bind fun c =>
        match typed, c.selServer with
        | some sent, some s =>
            (onStdin inetAton ⟨c, t.stdin⟩ s sent).map fun r => (r.1, r.2.map fun d => (s, d))
        | _, _ => some (⟨c, t.stdin⟩, [])

end Commands

/-! ### The client on lines -/

/-- What a line asks for. -/
inductive Order where
  | publish (text : Text)
  | latest (num : ℕ)
  | exit
  /-- Something is shown, or the line is not understood. -/
  | other
  deriving DecidableEq

/-- The order in two fields, with the first byte of the answer to the question. -/
def orderOf (op text : Text) (answer : Option Byte) : Order :=
  if isCommand "show_servers" "1" op then .other
  else if isCommand "publish" "2" op then
    if text = [] then .other
    else if 140 ≤ text.length ∧ ¬(answer = some 89 ∨ answer = some 121) then .other
    else .publish text
  else if isCommand "show_latest_messages" "3" op then
    if 0 < atoi text then .latest (atoi text).toNat else .other
  else if isCommand "show_selected_server" "4" op then .other
  else if isCommand "exit" "9" op then .exit
  else .other

/-- The two fields of a line. -/
def opOf (line : Text) : Text := cstr (scanCommand line).1

def textOf (line : Text) : Text := cstr (scanCommand line).2

/-- The order in the first line and the lines behind it: a question takes the next one as its answer. -/
def takeOrder (line : Text) (lines : List Text) : Order × List Text :=
  if asks (opOf line) (textOf line) then
    (orderOf (opOf line) (textOf line) (lines.head?.bind List.head?), lines.tail)
  else (orderOf (opOf line) (textOf line) none, lines)

/-- The orders in the lines. -/
def orders : List Text → List Order
  | [] => []
  | [line] => [(takeOrder line []).1]
  | line :: next :: lines =>
      if asks (opOf line) (textOf line) then (takeOrder line (next :: lines)).1 :: orders lines
      else (takeOrder line (next :: lines)).1 :: orders (next :: lines)

/-- The datagrams of an order: a publication is followed by a request for one message. -/
def Order.datagrams : Order → List Text
  | .publish text =>
      if checkMessageValidity text then
        [ascii "PUBLISH" ++ space :: text ++ [nul], ascii "GET_MESSAGES" ++ space :: decimal 1 ++ [nul]]
      else []
  | .latest num => [ascii "GET_MESSAGES" ++ space :: decimal num ++ [nul]]
  | .exit => []
  | .other => []

section Commands

variable (inetAton : Text → Bool)

/-- An order is followed: the client after it, and what it sends. -/
def follow (c : Client) (s : Server) (sent : Bool × Bool) : Order → Client × List Text
  | .publish text =>
      let u := ⟨[], [], sent.1, sent.2⟩
      let c := { c with inputBuffer := text }
      ((publishCommand inetAton c s u).clearInput, publishSent inetAton c s u)
  | .latest num =>
      ({ askServer inetAton c s sent.1 num with msgNum := num },
        (askForMessages inetAton sent.1 c.statics s num).2.2.toList)
  | .exit => ({ c with gExit := true }, [])
  | .other => (c, [])

/-- The client that follows the orders in the lines. -/
def lineTurn (t : Client × List Text) :
    Wakeup → Option ((Client × List Text) × List (Server × Text))
  | .search rand fetched => (turn inetAton t.1 (.search rand fetched)).map fun c => ((c, t.2), [])
  | .selectError => (turn inetAton t.1 .selectError).map fun c => ((c, t.2), [])
  | .timer => (turn inetAton t.1 .timer).map fun c => ((c, t.2), [])
  | .ready incoming typed =>
      (turn inetAton t.1 (.ready incoming none)).bind fun c =>
        match typed, c.selServer, t.2 with
        | some sent, some s, line :: lines =>
            let order := takeOrder line lines
            let followed := follow inetAton c s sent order.1
            some ((followed.1, order.2), followed.2.map fun d => (s, d))
        | _, _, _ => some ((c, t.2), [])

end Commands

/-! ### One line -/

/-- The fields of a line with a word. -/
theorem scan_commandFormat {line : Text} (hne : line ≠ [])
    (hstart : ∀ b ∈ line.head?, isSpace b = false) :
    ∃ op input, scanCommand line = (op, input)
      ∧ (scan commandFormat line = [.text op] ∧ input = []
        ∨ scan commandFormat line = [.text op, .text input]) := by
  obtain ⟨b, bs, rfl⟩ := List.exists_cons_of_ne_nil hne
  have hb : isSpace b = false := hstart b (by simp)
  have hword : Directive.word.read (b :: bs) = some ([.text ((b :: bs).takeWhile fun c => !isSpace c)],
      (b :: bs).drop ((b :: bs).takeWhile fun c => !isSpace c).length) := by
    simp [Directive.read, hb]
  obtain ⟨op, hop⟩ : ∃ op, op = (b :: bs).takeWhile fun c => !isSpace c := ⟨_, rfl⟩
  obtain ⟨r, hr⟩ : ∃ r, r = (b :: bs).drop op.length := ⟨_, rfl⟩
  rw [← hop, ← hr] at hword
  have hscan := (scanInput_some hword
    [.set (· == space) none false, .set (· != newline) (some 140) true]).2
  rw [scanCommand, commandFormat, hscan]
  cases hspaces : (Directive.set (· == space) none false).read r with
  | none =>
    rw [(scanInput_none hspaces _).2]
    exact ⟨op, [], rfl, Or.inl ⟨rfl, rfl⟩⟩
  | some p =>
    obtain ⟨fields, r'⟩ := p
    have hfields : fields = [] := by
      simp only [Directive.read] at hspaces
      split at hspaces
      · simp at hspaces
      · exact (Prod.mk.inj (Option.some.inj hspaces)).1.symm
    rw [(scanInput_some hspaces _).2, hfields, List.nil_append, scan_set_last _ (by decide)]
    by_cases htext : r'.takeWhile (· != newline) = []
    · rw [if_pos htext]
      exact ⟨op, [], rfl, Or.inl ⟨rfl, rfl⟩⟩
    · rw [if_neg htext]
      exact ⟨op, _, rfl, Or.inr rfl⟩

/-- An answer that is scanned starts with the first byte of its line, and leaves the rest of the line. -/
theorem scanInput_answer {stream : Text} :
    ((answerOf (scanInput answerFormat stream).1).dropWhile isSpace).head?
        = (inputLines stream).head?.bind List.head?
      ∧ inputLines (flushInput (scanInput answerFormat stream).2) = (inputLines stream).tail := by
  have hwhite : scanInput answerFormat stream
      = scanInput [.set (fun b => !isSpace b) (some 9) true] (stream.dropWhile isSpace) := by
    rw [answerFormat, (@scanInput_some _ stream (stream.dropWhile isSpace) [] rfl _).1]
    rfl
  rw [hwhite]
  by_cases hblank : stream.dropWhile isSpace = []
  · rw [hblank, inputLines_eq_nil_iff.mpr hblank]
    exact ⟨rfl, rfl⟩
  · obtain ⟨l, tail, hs, hl, hne, htail⟩ := exists_line hblank
    have hsets : ∀ d ∈ [Directive.set (fun b => !isSpace b) (some 9) true], StaysInLine d := by
      intro d hd
      rw [List.mem_singleton.mp hd]
      show (!isSpace newline) = false
      decide
    obtain ⟨hfields, hleft⟩ := scanInput_sets hsets hl htail
    rw [inputLines_eq hs hl hne htail, hs, hfields, flushInput_eq hleft htail]
    refine ⟨?_, rfl⟩
    obtain ⟨b, bs, rfl⟩ := List.exists_cons_of_ne_nil hne
    have hb : isSpace b = false := stops_dropWhile isSpace stream b (by rw [hs]; rfl)
    have hrun : (b :: bs).takeWhile (fun b => !isSpace b) = b :: bs.takeWhile fun b => !isSpace b := by
      rw [List.takeWhile_cons, hb]
      rfl
    rw [scan_set_last _ (by decide), hrun, if_neg (List.cons_ne_nil _ _), answerOf, List.take_succ_cons,
      List.dropWhile_cons, if_neg (by simp [hb])]
    rfl

/-! ### The strings between two commands -/

/-- The strings of a command. -/
def Client.withInput (c : Client) (op inputBuffer : Text) : Client :=
  { c with op := op, inputBuffer := inputBuffer }

theorem clearInput_eq (c : Client) : c.clearInput = c.withInput [] [] := rfl

theorem giveUp_withInput (c : Client) (op inputBuffer : Text) :
    giveUp (c.withInput op inputBuffer) = (giveUp c).map fun c => c.withInput op inputBuffer := by
  have hselected : (c.withInput op inputBuffer).selServer = c.selServer := rfl
  have hlist : (c.withInput op inputBuffer).msgserversLst = c.msgserversLst := rfl
  have herr : (c.withInput op inputBuffer).err = c.err := rfl
  have hflag : (c.withInput op inputBuffer).serverNotAnswering = c.serverNotAnswering := rfl
  simp only [giveUp, hselected, hlist, herr, hflag]
  cases hgive : c.err != 0 || c.serverNotAnswering with
  | false => rfl
  | true =>
    cases c.selServer with
    | some s => rfl
    | none => cases c.msgserversLst <;> rfl

theorem lookFor_withInput (rand : ℕ → ℕ) (fetched : Option (List Server)) (c : Client)
    (op inputBuffer : Text) :
    lookFor rand fetched (c.withInput op inputBuffer)
      = (lookFor rand fetched c).withInput op inputBuffer := by
  simp only [lookFor, Client.withInput]
  cases (searchLoop rand c.msgserversLst.length c.msgserversLst c.banserversLst).1 with
  | some s => rfl
  | none => cases fetched <;> rfl

section Commands

variable {inetAton : Text → Bool}

/-- A turn without a command: the strings are neither read nor written. -/
theorem turn_withInput {e : Event} (he : ∀ incoming u, e ≠ .ready incoming (some u)) (c : Client)
    (op inputBuffer : Text) :
    turn inetAton (c.withInput op inputBuffer) e
      = (turn inetAton c e).map fun c => c.withInput op inputBuffer := by
  have hneeds : (c.withInput op inputBuffer).needsSearch = c.needsSearch := rfl
  have hexit : (c.withInput op inputBuffer).gExit = c.gExit := rfl
  have hselected : (c.withInput op inputBuffer).selServer = c.selServer := rfl
  cases e with
  | search rand fetched =>
    rw [turn, turn, hneeds, hexit]
    split
    · rw [giveUp_withInput, Option.map_map, Option.map_map]
      congr 1
      funext c'
      exact lookFor_withInput rand fetched c' op inputBuffer
    · rfl
  | selectError =>
    simp only [turn, hneeds, hexit, hselected]
    cases c.selServer with
    | none => rfl
    | some s =>
      dsimp only
      split <;> rfl
  | timer =>
    have htimer : ∀ s, onTimer (c.withInput op inputBuffer) s
        = (onTimer c s).withInput op inputBuffer := by
      intro s
      have hstatics : (c.withInput op inputBuffer).statics = c.statics := rfl
      rw [onTimer, onTimer, hstatics]
      by_cases htest : (execServerTest c.statics).1 = 1
      · rw [if_pos htest, if_pos htest]
        rfl
      · rw [if_neg htest, if_neg htest]
        rfl
    simp only [turn, hneeds, hexit, hselected]
    cases c.selServer with
    | none => rfl
    | some s =>
      dsimp only
      split
      · rw [htimer, Option.map_some]
      · rfl
  | ready incoming user =>
    cases user with
    | some u => exact absurd rfl (he incoming u)
    | none =>
      simp only [turn, hneeds, hexit, hselected]
      cases c.selServer with
      | none => rfl
      | some s =>
        dsimp only
        split
        · cases incoming with
          | none => rfl
          | some received =>
            have hstatics : (c.withInput op inputBuffer).statics = c.statics := rfl
            have hnum : (c.withInput op inputBuffer).msgNum = c.msgNum := rfl
            simp only [Option.elim_some, onIncoming, hstatics, hnum]
            cases handleIncomingMessages c.statics (c.msgNum % 2 ^ 32) received <;> rfl
        · rfl

/-- The strings stay as they are. -/
theorem inputBuffer_turn {e : Event} (he : ∀ incoming u, e ≠ .ready incoming (some u)) {c c' : Client}
    (h : turn inetAton c e = some c') : c'.inputBuffer = c.inputBuffer := by
  have hsame := @turn_withInput inetAton e he c c.op c.inputBuffer
  have hself : c.withInput c.op c.inputBuffer = c := rfl
  rw [hself, h, Option.map_some, Option.some.injEq] at hsame
  rw [hsame]
  rfl

/-! ### A command -/

/-- A stream without a line: the client stays as it is. -/
theorem onStdin_blank {t : Terminal} (h : t.stdin.dropWhile isSpace = []) (s : Server)
    (sent : Bool × Bool) : onStdin inetAton t s sent = some (⟨t.client, []⟩, []) := by
  simp only [onStdin, commandFormat, scanInput_blank h]

theorem askServer_withInput (c : Client) (s : Server) (sent : Bool) (num : ℤ) (op inputBuffer : Text) :
    askServer inetAton (c.withInput op inputBuffer) s sent num
      = (askServer inetAton c s sent num).withInput op inputBuffer := rfl

/-- A publication depends on the text only. -/
theorem publishCommand_withInput (c : Client) (s : Server) (u : UserInput) (op op' text : Text) :
    publishCommand inetAton (c.withInput op text) s u
      = (publishCommand inetAton (c.withInput op' text) s u).withInput op text := by
  have hreturned : ∀ code, (c.withInput op text).returned s code
      = ((c.withInput op' text).returned s code).withInput op text := fun code => rfl
  have hinput : (c.withInput op text).inputBuffer = (c.withInput op' text).inputBuffer := rfl
  rw [publishCommand, publishCommand, hinput]
  obtain ⟨c₁, hc₁⟩ : ∃ c₁, c₁ = (c.withInput op' text).returned s
    (publish inetAton u.sentFirst s (c.withInput op' text).inputBuffer).1 := ⟨_, rfl⟩
  rw [hreturned, ← hc₁]
  have herr : (c₁.withInput op text).err = c₁.err := rfl
  rw [herr]
  obtain ⟨c₂, hc₂⟩ : ∃ c₂, c₂ = if c₁.err = 0 then askServer inetAton c₁ s u.sentSecond 0 else c₁ :=
    ⟨_, rfl⟩
  have htested : (if c₁.err = 0 then askServer inetAton (c₁.withInput op text) s u.sentSecond 0
      else c₁.withInput op text) = c₂.withInput op text := by
    rw [hc₂, askServer_withInput]
    split <;> rfl
  rw [htested, ← hc₂]
  have herr' : (c₂.withInput op text).err = c₂.err := rfl
  rw [herr']
  split <;> rfl

theorem publishCommand_clearInput (c : Client) (s : Server) (u : UserInput) :
    (publishCommand inetAton c s u).clearInput
      = (publishCommand inetAton (c.withInput [] c.inputBuffer) s u).clearInput := by
  have hself : c.withInput c.op c.inputBuffer = c := rfl
  have hsame := @publishCommand_withInput inetAton c s u c.op [] c.inputBuffer
  rw [hself] at hsame
  rw [hsame]
  rfl

/-- The client `c'` and the datagrams `ds` are what an order comes to, but for the strings: they are empty,
unless a question was left without an answer. -/
structure Obeys (inetAton : Text → Bool) (c : Client) (s : Server) (u : UserInput) (c' : Client)
    (ds : List Text) (order : Order) : Prop where
  client : c'.clearInput = (follow inetAton c.clearInput s (u.sentFirst, u.sentSecond) order).1
  sent : ds = (follow inetAton c.clearInput s (u.sentFirst, u.sentSecond) order).2
  strings : c'.inputBuffer = []
    ∨ asks c.op c.inputBuffer = true ∧ (u.answer.dropWhile isSpace).head? = none

variable {c : Client} {s : Server} {u : UserInput}

theorem obeys_other {c' : Client} (hclear : c'.clearInput = c.clearInput) (hnil : c'.inputBuffer = []) :
    Obeys inetAton c s u c' [] .other := ⟨hclear, rfl, Or.inl hnil⟩

theorem obeys_publish : Obeys inetAton c s u (publishCommand inetAton c s u).clearInput
    (publishSent inetAton c s u) (.publish c.inputBuffer) :=
  ⟨publishCommand_clearInput c s u, rfl, Or.inl rfl⟩

/-- The command `publish`, with its question. -/
theorem obey_publish (hservers : ¬isCommand "show_servers" "1" c.op = true)
    (hpub : isCommand "publish" "2" c.op = true) :
    Obeys inetAton c s u (obey inetAton c s u) (obeySent inetAton c s u)
      (orderOf c.op c.inputBuffer (u.answer.dropWhile isSpace).head?) := by
  simp only [obey, orderOf, obeySent, List.isEmpty_iff, if_neg hservers, if_pos hpub]
  by_cases hempty : c.inputBuffer = []
  · simp only [if_pos hempty]
    exact obeys_other rfl hempty
  simp only [if_neg hempty]
  by_cases hlong : 140 ≤ c.inputBuffer.length
  · simp only [hlong, true_and, if_true]
    cases hanswer : (u.answer.dropWhile isSpace).head? with
    | none =>
      rw [if_pos (by simp)]
      exact ⟨rfl, rfl, Or.inr ⟨by simp [asks, hpub, hlong], hanswer⟩⟩
    | some b =>
      simp only [Option.some.injEq]
      by_cases hyes : b = 89 ∨ b = 121
      · simp only [hyes, not_true_eq_false, if_true, if_false]
        exact obeys_publish
      · simp only [hyes, not_false_eq_true, if_true, if_false]
        exact obeys_other rfl rfl
  · simp only [hlong, false_and, if_false]
    exact obeys_publish

/-- The command `show_latest_messages`. -/
theorem obey_latest (hservers : ¬isCommand "show_servers" "1" c.op = true)
    (hpub : ¬isCommand "publish" "2" c.op = true)
    (hlatest : isCommand "show_latest_messages" "3" c.op = true) :
    Obeys inetAton c s u (obey inetAton c s u) (obeySent inetAton c s u)
      (orderOf c.op c.inputBuffer (u.answer.dropWhile isSpace).head?) := by
  simp only [obey, orderOf, obeySent, List.isEmpty_iff, if_neg hservers, if_neg hpub, if_pos hlatest]
  by_cases hempty : c.inputBuffer = []
  · have hzero : ¬0 < atoi c.inputBuffer := by
      rw [hempty]
      decide
    simp only [if_pos hempty, if_neg hzero]
    exact obeys_other rfl hempty
  simp only [if_neg hempty, latestCommand, latestSent]
  by_cases hnum : 0 < atoi c.inputBuffer
  · have hnat : ((atoi c.inputBuffer).toNat : ℤ) = atoi c.inputBuffer := Int.toNat_of_nonneg hnum.le
    simp only [if_pos hnum]
    constructor
    · rw [follow, hnat]
      rfl
    · rw [follow, hnat]
      rfl
    · exact Or.inl rfl
  · simp only [if_neg hnum]
    exact obeys_other rfl rfl

/-- **A command is an order**: what the client is afterwards, but for the strings, and what it sent. -/
theorem obey_follow (c : Client) (s : Server) (u : UserInput) :
    Obeys inetAton c s u (obey inetAton c s u) (obeySent inetAton c s u)
      (orderOf c.op c.inputBuffer (u.answer.dropWhile isSpace).head?) := by
  by_cases hservers : isCommand "show_servers" "1" c.op = true
  · simp only [obey, orderOf, obeySent, if_pos hservers]
    exact obeys_other rfl rfl
  by_cases hpub : isCommand "publish" "2" c.op = true
  · exact obey_publish hservers hpub
  by_cases hlatest : isCommand "show_latest_messages" "3" c.op = true
  · exact obey_latest hservers hpub hlatest
  simp only [obey, orderOf, obeySent, if_neg hservers, if_neg hpub, if_neg hlatest]
  by_cases hselected : isCommand "show_selected_server" "4" c.op = true
  · simp only [if_pos hselected]
    exact obeys_other rfl rfl
  simp only [if_neg hselected]
  by_cases hexit : isCommand "exit" "9" c.op = true
  · simp only [if_pos hexit]
    exact ⟨rfl, rfl, Or.inl rfl⟩
  · simp only [if_neg hexit]
    exact obeys_other rfl rfl

theorem staysInLine_commandFormat : ∀ d ∈ [Directive.set (· == space) none false,
    .set (· != newline) (some 140) true], StaysInLine d := by
  intro d hd
  rcases List.mem_cons.mp hd with rfl | hd
  · show (newline == space) = false
    decide
  · rw [List.mem_singleton.mp hd]
    show (newline != newline) = false
    decide

/-- **The scan of a line and what is flushed behind it** give the two fields of the line, and leave the
lines behind it. -/
theorem onStdin_line {t : Terminal} {line : Text} {lines : List Text}
    (hlines : inputLines t.stdin = line :: lines) (hempty : t.client.inputBuffer = []) (s : Server)
    (sent : Bool × Bool) : ∃ left, inputLines left = lines
      ∧ onStdin inetAton t s sent = if stringSize ≤ (scanCommand line).1.length then none
        else
          let c := t.client.withInput (opOf line) (textOf line)
          if asks c.op c.inputBuffer then
            let answer := scanInput answerFormat left
            let u := ⟨[], answerOf answer.1, sent.1, sent.2⟩
            some (⟨obey inetAton c s u, flushInput answer.2⟩, obeySent inetAton c s u)
          else
            let u := ⟨[], [], sent.1, sent.2⟩
            some (⟨obey inetAton c s u, left⟩, obeySent inetAton c s u) := by
  have hstream : t.stdin.dropWhile isSpace ≠ [] := by
    intro hblank
    rw [inputLines_eq_nil_iff.mpr hblank] at hlines
    exact absurd hlines (by simp)
  obtain ⟨l, tail, hs, hl, hne, htail⟩ := exists_line hstream
  rw [inputLines_eq hs hl hne htail] at hlines
  obtain ⟨rfl, rfl⟩ := List.cons.inj hlines
  have hstart : ∀ b ∈ l.head?, isSpace b = false := by
    intro b hb
    apply stops_dropWhile isSpace t.stdin b
    rw [hs, List.head?_append]
    rw [Option.mem_def] at hb ⊢
    rw [hb]
    rfl
  obtain ⟨hfields, hleft⟩ := scanInput_line staysInLine_commandFormat hs hl htail
  obtain ⟨op, input, hcommand, hscan⟩ := scan_commandFormat hne hstart
  obtain ⟨rest, hrest, hinput⟩ : ∃ rest, scan commandFormat l = .text op :: rest
      ∧ inputOf t.client rest = input := by
    rcases hscan with ⟨hone, rfl⟩ | htwo
    · exact ⟨[], hone, hempty⟩
    · exact ⟨_, htwo, rfl⟩
  rw [commandFormat] at hrest
  rw [hrest] at hfields
  refine ⟨tail.drop 1, rfl, ?_⟩
  simp only [onStdin, commandFormat, hfields, flushInput_eq hleft htail, hinput, opOf, textOf, hcommand]
  rfl

/-- **A question takes the next line as its answer.** -/
theorem answered_follow (c : Client) (s : Server) (sent : Bool × Bool) (left : Text) :
    let answer := scanInput answerFormat left
    let u : UserInput := ⟨[], answerOf answer.1, sent.1, sent.2⟩
    let order := orderOf c.op c.inputBuffer ((inputLines left).head?.bind List.head?)
    inputLines (flushInput answer.2) = (inputLines left).tail
      ∧ ((obey inetAton c s u).clearInput, obeySent inetAton c s u)
        = follow inetAton c.clearInput s sent order
      ∧ ((obey inetAton c s u).inputBuffer = [] ∨ inputLines (flushInput answer.2) = []) := by
  intro answer u order
  obtain ⟨hanswer, hrest⟩ := @scanInput_answer left
  have huanswer : (u.answer.dropWhile isSpace).head? = (inputLines left).head?.bind List.head? := hanswer
  obtain ⟨hafter, hsent, hstrings⟩ := @obey_follow inetAton c s u
  rw [huanswer] at hafter hsent hstrings
  refine ⟨hrest, Prod.ext hafter hsent, hstrings.imp_right ?_⟩
  rintro ⟨-, hnone⟩
  rw [hrest]
  cases hnext : inputLines left with
  | nil => rfl
  | cons answer more =>
    have hne : answer ≠ [] := ne_nil_of_mem_inputLines (s := left) (by rw [hnext]; exact List.mem_cons_self)
    rw [hnext] at hnone
    exact absurd (List.head?_eq_none_iff.mp hnone) hne

/-- **A turn takes the next line**, and two if it asks a question. -/
theorem onStdin_follow {t t' : Terminal} {s : Server} {sent : Bool × Bool} {ds : List Text}
    {line : Text} {lines : List Text} (hlines : inputLines t.stdin = line :: lines)
    (hempty : t.client.inputBuffer = []) (h : onStdin inetAton t s sent = some (t', ds)) :
    inputLines t'.stdin = (takeOrder line lines).2
      ∧ (t'.client.clearInput, ds) = follow inetAton t.client.clearInput s sent (takeOrder line lines).1
      ∧ (t'.client.inputBuffer = [] ∨ inputLines t'.stdin = []) := by
  obtain ⟨left, rfl, honStdin⟩ := @onStdin_line inetAton t line lines hlines hempty s sent
  obtain ⟨c, hc⟩ : ∃ c, c = t.client.withInput (opOf line) (textOf line) := ⟨_, rfl⟩
  have hclear : c.clearInput = t.client.clearInput := by rw [hc]; rfl
  have hop : c.op = opOf line := by rw [hc]; rfl
  have htext : c.inputBuffer = textOf line := by rw [hc]; rfl
  rw [honStdin, ← hc] at h
  rw [takeOrder, ← hop, ← htext, ← hclear]
  split at h
  · simp at h
  · by_cases hasks : asks c.op c.inputBuffer = true
    · simp only [if_pos hasks, Option.some.injEq] at h
      obtain ⟨rfl, rfl⟩ := Prod.mk.inj h
      rw [if_pos hasks]
      exact @answered_follow inetAton c s sent left
    · simp only [if_neg hasks, Option.some.injEq] at h
      obtain ⟨rfl, rfl⟩ := Prod.mk.inj h
      obtain ⟨hafter, hsent, hstrings⟩ := @obey_follow inetAton c s ⟨[], [], sent.1, sent.2⟩
      rw [if_neg hasks]
      refine ⟨rfl, Prod.ext hafter hsent, Or.inl ?_⟩
      rcases hstrings with hnil | ⟨htrue, -⟩
      · exact hnil
      · exact absurd htrue hasks

/-! ### Any run -/

/-- The same client but for its strings, which are empty while there are more lines. -/
def OnLines (_ : ℕ) (t : Terminal) (l : Client × List Text) : Prop :=
  l = (t.client.clearInput, inputLines t.stdin) ∧ (t.client.inputBuffer = [] ∨ inputLines t.stdin = [])

/-- A turn without a command, on both sides. -/
theorem OnLines.turn {n : ℕ} {t : Terminal} {l : Client × List Text} (h : OnLines (n + 1) t l)
    {e : Event} (he : ∀ incoming u, e ≠ .ready incoming (some u)) {c' : Client}
    (hturn : Rmb.turn inetAton t.client e = some c') :
    Rmb.turn inetAton l.1 e = some c'.clearInput ∧ OnLines n ⟨c', t.stdin⟩ (c'.clearInput, l.2) := by
  obtain ⟨rfl, hstrings⟩ := h
  refine ⟨?_, rfl, ?_⟩
  · rw [clearInput_eq, turn_withInput he, hturn]
    rfl
  · rw [inputBuffer_turn he hturn]
    exact hstrings

/-- **A turn on bytes is a turn on lines.** -/
theorem terminal_simulates : Simulates (terminalTurn inetAton) (lineTurn inetAton) OnLines := by
  intro n t l w t' out h hstep
  cases w with
  | search rand fetched =>
    obtain ⟨c', hturn, heq⟩ := Option.map_eq_some_iff.mp hstep
    obtain ⟨rfl, rfl⟩ := Prod.mk.inj heq
    obtain ⟨hlines, hafter⟩ := h.turn (by simp) hturn
    exact ⟨_, by rw [lineTurn, hlines]; rfl, hafter⟩
  | selectError =>
    obtain ⟨c', hturn, heq⟩ := Option.map_eq_some_iff.mp hstep
    obtain ⟨rfl, rfl⟩ := Prod.mk.inj heq
    obtain ⟨hlines, hafter⟩ := h.turn (by simp) hturn
    exact ⟨_, by rw [lineTurn, hlines]; rfl, hafter⟩
  | timer =>
    obtain ⟨c', hturn, heq⟩ := Option.map_eq_some_iff.mp hstep
    obtain ⟨rfl, rfl⟩ := Prod.mk.inj heq
    obtain ⟨hlines, hafter⟩ := h.turn (by simp) hturn
    exact ⟨_, by rw [lineTurn, hlines]; rfl, hafter⟩
  | ready incoming typed =>
    obtain ⟨c', hturn, hrest⟩ := Option.bind_eq_some_iff.mp hstep
    obtain ⟨hlines, hafter⟩ := h.turn (by simp) hturn
    have hselected : c'.clearInput.selServer = c'.selServer := rfl
    cases typed with
    | none =>
      obtain ⟨rfl, rfl⟩ := Prod.mk.inj (Option.some.inj hrest)
      exact ⟨_, by rw [lineTurn, hlines]; rfl, hafter⟩
    | some sent =>
      cases hserver : c'.selServer with
      | none =>
        simp only [hserver] at hrest
        obtain ⟨rfl, rfl⟩ := Prod.mk.inj (Option.some.inj hrest)
        refine ⟨_, ?_, hafter⟩
        rw [lineTurn, hlines]
        simp only [Option.bind_some, hselected, hserver]
      | some s =>
        simp only [hserver] at hrest
        obtain ⟨⟨t₁, ds⟩, hstdin, heq⟩ := Option.map_eq_some_iff.mp hrest
        obtain ⟨rfl, rfl⟩ := Prod.mk.inj heq
        obtain ⟨hstate, hstrings⟩ := hafter
        have htyped : l.2 = inputLines t.stdin := congrArg Prod.snd hstate
        cases hnext : inputLines t.stdin with
        | nil =>
          rw [onStdin_blank (t := ⟨c', t.stdin⟩) (inputLines_eq_nil_iff.mp hnext)] at hstdin
          obtain ⟨rfl, rfl⟩ := Prod.mk.inj (Option.some.inj hstdin)
          refine ⟨(c'.clearInput, []), ?_, rfl, Or.inr rfl⟩
          rw [lineTurn, hlines]
          simp only [Option.bind_some, hselected, hserver, htyped, hnext]
          rfl
        | cons line lines =>
          have hempty : c'.inputBuffer = [] := by
            rcases hstrings with hnil | hnone
            · exact hnil
            · rw [hnext] at hnone
              exact absurd hnone (by simp)
          obtain ⟨hleft, hfollow, hkeep⟩ := onStdin_follow (t := ⟨c', t.stdin⟩) hnext hempty hstdin
          refine ⟨(t₁.client.clearInput, inputLines t₁.stdin), ?_, rfl, hkeep⟩
          rw [lineTurn, hlines]
          simp only [Option.bind_some, hselected, hserver, htyped, hnext]
          rw [← hfollow, hleft]

/-- **The client on bytes is the client on lines**: whatever comes between the commands, the lines are
followed in order, each once, and the same is sent. -/
theorem terminal_refines {servers : List Server} {rand : ℕ} {stdin : Text} {wakeups : List Wakeup}
    {t : Terminal} {outs : List (List (Server × Text))}
    (hrun : respond (terminalTurn inetAton) ⟨.start servers rand, stdin⟩ wakeups = some (t, outs)) :
    respond (lineTurn inetAton) (.start servers rand, inputLines stdin) wakeups
      = some ((t.client.clearInput, inputLines t.stdin), outs) := by
  have hstart : OnLines (0 + wakeups.length) ⟨.start servers rand, stdin⟩
      (.start servers rand, inputLines stdin) := ⟨rfl, Or.inl rfl⟩
  obtain ⟨l, hlines, rfl, -⟩ := respond_simulates terminal_simulates hstart hrun
  exact hlines

/-! ### What is sent -/

theorem orders_cons (line : Text) (lines : List Text) :
    orders (line :: lines) = (takeOrder line lines).1 :: orders (takeOrder line lines).2 := by
  cases lines with
  | nil =>
    rw [orders, takeOrder]
    split <;> rfl
  | cons next lines =>
    rw [orders]
    split
    · rename_i hasks
      simp only [takeOrder, if_pos hasks, List.tail_cons]
    · rename_i hasks
      simp only [takeOrder, if_neg hasks]

/-- The number of a request is a positive `int`. -/
theorem orderOf_latest {op text : Text} {answer : Option Byte} {num : ℕ}
    (h : orderOf op text answer = .latest num) : 0 < num ∧ num < 2 ^ 31 := by
  have hrange : atoi text < 2 ^ 31 := by
    rw [atoi, Int.bmod_def]
    omega
  rw [orderOf] at h
  split at h
  · simp at h
  · split at h
    · split at h
      · simp at h
      · split at h <;> simp at h
    · split at h
      · split at h
        · obtain rfl := Order.latest.inj h
          omega
        · simp at h
      · split at h
        · simp at h
        · split at h <;> simp at h

/-- A publication has the text of its line. -/
theorem orderOf_publish {op text text' : Text} {answer : Option Byte}
    (h : orderOf op text answer = .publish text') : text' = text ∧ text ≠ [] := by
  rw [orderOf] at h
  split at h
  · simp at h
  · split at h
    · split at h
      · simp at h
      · rename_i hne
        split at h
        · simp at h
        · exact ⟨(Order.publish.inj h).symm, hne⟩
    · split at h
      · split at h <;> simp at h
      · split at h
        · simp at h
        · split at h <;> simp at h

theorem takeOrder_latest {line : Text} {lines : List Text} {num : ℕ}
    (h : (takeOrder line lines).1 = .latest num) : 0 < num ∧ num < 2 ^ 31 := by
  rw [takeOrder] at h
  split at h
  · exact orderOf_latest h
  · exact orderOf_latest h

/-- What a request for messages sends. -/
theorem askForMessages_sent (sent : Bool) (st : Statics) (s : Server) (num : ℤ) :
    (askForMessages inetAton sent st s num).2.2
      = if inetAton s.ipAddr = true ∧ sent = true then
          some (ascii "GET_MESSAGES" ++ space :: decimal (if num ≠ 0 then (num % 2 ^ 64).toNat else 1)
            ++ [nul])
        else none := by
  simp only [askForMessages]
  cases inetAton s.ipAddr <;> cases sent <;> rfl

/-- What a publication sends, and whether it says that it did. -/
theorem publish_sent (sent : Bool) (s : Server) (text : Text) :
    (publish inetAton sent s text).2
        = (if checkMessageValidity text = true ∧ inetAton s.ipAddr = true ∧ sent = true then
            some (ascii "PUBLISH" ++ space :: text ++ [nul])
          else none)
      ∧ ((publish inetAton sent s text).1 = 0
        ↔ checkMessageValidity text = true ∧ inetAton s.ipAddr = true ∧ sent = true) := by
  simp only [publish]
  cases checkMessageValidity text <;> cases inetAton s.ipAddr <;> cases sent <;> simp

/-- **What an order sends** is part of what it asks for, and all of it where the calls succeed. -/
theorem follow_sent (c : Client) (s : Server) (sent : Bool × Bool) {o : Order}
    (ho : ∀ num, o = .latest num → 0 < num ∧ num < 2 ^ 31) :
    (follow inetAton c s sent o).2.Sublist o.datagrams
      ∧ (inetAton s.ipAddr = true → sent = (true, true) →
        (follow inetAton c s sent o).2 = o.datagrams) := by
  cases o with
  | publish text =>
    obtain ⟨hdatagram, hcode⟩ := @publish_sent inetAton sent.1 s text
    simp only [follow, publishSent, Order.datagrams, hdatagram, askForMessages_sent, hcode]
    obtain ⟨first, second⟩ := sent
    cases checkMessageValidity text with
    | false => simp
    | true =>
      cases inetAton s.ipAddr with
      | false => simp
      | true => cases first <;> cases second <;> simp
  | latest num =>
    obtain ⟨hpos, hlt⟩ := ho num rfl
    have hnum : (if (num : ℤ) ≠ 0 then ((num : ℤ) % 2 ^ 64).toNat else 1) = num := by
      rw [if_pos (by omega)]
      omega
    simp only [follow, Order.datagrams, askForMessages_sent, hnum]
    constructor
    · split
      · exact List.Sublist.refl _
      · exact List.nil_sublist _
    · rintro hip rfl
      rw [if_pos ⟨hip, rfl⟩]
      rfl
  | exit => exact ⟨List.Sublist.refl _, fun _ _ => rfl⟩
  | other => exact ⟨List.Sublist.refl _, fun _ _ => rfl⟩

/-- What was sent for some lines: part of what their orders ask for, and all of it if the calls
succeeded. -/
structure SentFor (lines lines' : List Text) (sent : List Text) (works : Prop) : Prop where
  done : ∃ done, orders lines = done ++ orders lines' ∧ sent.Sublist (done.flatMap Order.datagrams)
    ∧ (works → sent = done.flatMap Order.datagrams)

theorem sentFor_nil (lines : List Text) (works : Prop) : SentFor lines lines [] works :=
  ⟨[], rfl, List.Sublist.refl _, fun _ => rfl⟩

theorem SentFor.trans {lines lines' lines'' sent sent' : List Text} {works works' : Prop}
    (h : SentFor lines lines' sent works) (h' : SentFor lines' lines'' sent' works') :
    SentFor lines lines'' (sent ++ sent') (works ∧ works') := by
  obtain ⟨done, horders, hsub, hall⟩ := h
  obtain ⟨done', horders', hsub', hall'⟩ := h'
  refine ⟨done ++ done', by rw [horders, horders', List.append_assoc], ?_, ?_⟩
  · rw [List.flatMap_append]
    exact hsub.append hsub'
  · rintro ⟨hworks, hworks'⟩
    rw [List.flatMap_append, hall hworks, hall' hworks']

/-- **One turn** follows one order at most. -/
theorem sentFor_lineTurn {l l' : Client × List Text} {w : Wakeup} {out : List (Server × Text)}
    (h : lineTurn inetAton l w = some (l', out)) :
    SentFor l.2 l'.2 (out.map Prod.snd) ((∀ ip, inetAton ip = true) ∧ w.sends = true) := by
  have hquiet : ∀ {r : Option Client}, (r.map fun c => ((c, l.2), ([] : List (Server × Text))))
      = some (l', out) → SentFor l.2 l'.2 (out.map Prod.snd)
        ((∀ ip, inetAton ip = true) ∧ w.sends = true) := by
    intro r hr
    obtain ⟨c, -, heq⟩ := Option.map_eq_some_iff.mp hr
    obtain ⟨rfl, rfl⟩ := Prod.mk.inj heq
    exact sentFor_nil _ _
  cases w with
  | search rand fetched => exact hquiet h
  | selectError => exact hquiet h
  | timer => exact hquiet h
  | ready incoming typed =>
    obtain ⟨c, -, hrest⟩ := Option.bind_eq_some_iff.mp h
    obtain ⟨c₀, lines⟩ := l
    cases typed with
    | none =>
      obtain ⟨rfl, rfl⟩ := Prod.mk.inj (Option.some.inj hrest)
      exact sentFor_nil _ _
    | some sent =>
      cases hserver : c.selServer with
      | none =>
        simp only [hserver] at hrest
        obtain ⟨rfl, rfl⟩ := Prod.mk.inj (Option.some.inj hrest)
        exact sentFor_nil _ _
      | some s =>
        cases lines with
        | nil =>
          simp only [hserver] at hrest
          obtain ⟨rfl, rfl⟩ := Prod.mk.inj (Option.some.inj hrest)
          exact sentFor_nil _ _
        | cons line lines =>
          simp only [hserver] at hrest
          obtain ⟨rfl, rfl⟩ := Prod.mk.inj (Option.some.inj hrest)
          have hsent := @follow_sent inetAton c s sent (takeOrder line lines).1
            fun num => takeOrder_latest
          rw [List.map_map]
          have hid : (Prod.snd ∘ fun d : Text => (s, d)) = id := rfl
          rw [hid, List.map_id]
          refine ⟨[(takeOrder line lines).1], orders_cons line lines, ?_, ?_⟩
          · rw [List.flatMap_singleton]
            exact hsent.1
          · rintro ⟨hip, hsends⟩
            rw [List.flatMap_singleton]
            exact hsent.2 (hip _) (by simpa [Wakeup.sends] using hsends)

/-- **Any run** follows the orders in the lines, one after the other. -/
theorem sentFor_run {wakeups : List Wakeup} {l l' : Client × List Text}
    {outs : List (List (Server × Text))}
    (hrun : respond (lineTurn inetAton) l wakeups = some (l', outs)) :
    SentFor l.2 l'.2 (outs.flatten.map Prod.snd)
      ((∀ ip, inetAton ip = true) ∧ ∀ w ∈ wakeups, w.sends = true) := by
  induction wakeups generalizing l outs with
  | nil =>
    obtain ⟨rfl, rfl⟩ := Prod.mk.inj (Option.some.inj hrun)
    exact sentFor_nil _ _
  | cons w wakeups ih =>
    obtain ⟨l₁, out, outs', hstep, hrest, rfl⟩ := respond_cons_eq_some.mp hrun
    obtain ⟨done, horders, hsub, hall⟩ := (sentFor_lineTurn hstep).trans (ih hrest)
    rw [List.flatten_cons, List.map_append]
    refine ⟨done, horders, hsub, ?_⟩
    rintro ⟨hip, hsends⟩
    obtain ⟨hw, hws⟩ := List.forall_mem_cons.mp hsends
    exact hall ⟨⟨hip, hw⟩, hip, hws⟩

/-- **What is sent is what the lines ask for**, in order and once: nothing else is ever sent, and if the
calls succeed, everything is. -/
theorem sent_for_lines {servers : List Server} {rand : ℕ} {stdin : Text} {wakeups : List Wakeup}
    {t : Terminal} {outs : List (List (Server × Text))}
    (hrun : respond (terminalTurn inetAton) ⟨.start servers rand, stdin⟩ wakeups = some (t, outs)) :
    ∃ done, orders (inputLines stdin) = done ++ orders (inputLines t.stdin)
      ∧ (outs.flatten.map Prod.snd).Sublist (done.flatMap Order.datagrams)
      ∧ ((∀ ip, inetAton ip = true) → (∀ w ∈ wakeups, w.sends = true) →
        outs.flatten.map Prod.snd = done.flatMap Order.datagrams) := by
  have hstart : OnLines (0 + wakeups.length) ⟨.start servers rand, stdin⟩
      (.start servers rand, inputLines stdin) := ⟨rfl, Or.inl rfl⟩
  obtain ⟨l, hlines, rfl, -⟩ := respond_simulates terminal_simulates hstart hrun
  obtain ⟨done, horders, hsub, hall⟩ := sentFor_run hlines
  exact ⟨done, horders, hsub, fun hip hsends => hall ⟨hip, hsends⟩⟩

end Commands

/-! ### A run -/

/-- A blank line, a message of 150 bytes with its answer, a request, and the end. -/
def typedLines : Text :=
  ascii "\n  publish " ++ List.replicate 150 97 ++ ascii "\n yes please\n3 2\n\nexit\nmore"

/-- Three turns with a command, and a reply and the timer between them. -/
def typedTurns : List Wakeup :=
  [.ready none (some (true, true)), .ready (some (some (ascii "MESSAGES\na\n"))) none, .timer,
    .ready none (some (true, true)), .ready none (some (true, true))]

theorem terminal_refines_typedLines : ∃ t outs,
    respond (terminalTurn fun _ => true) ⟨.start [host 1] 0, typedLines⟩ typedTurns = some (t, outs)
      ∧ respond (lineTurn fun _ => true) (.start [host 1] 0, inputLines typedLines) typedTurns
        = some ((t.client.clearInput, inputLines t.stdin), outs) := by
  obtain ⟨⟨t, outs⟩, hrun⟩ := Option.isSome_iff_exists.mp
    (show (respond (terminalTurn fun _ => true) ⟨.start [host 1] 0, typedLines⟩ typedTurns).isSome
      = true by decide +kernel)
  exact ⟨t, outs, hrun, terminal_refines hrun⟩

theorem sent_for_lines_typedLines : ∃ t outs done,
    respond (terminalTurn fun _ => true) ⟨.start [host 1] 0, typedLines⟩ typedTurns = some (t, outs)
      ∧ orders (inputLines typedLines) = done ++ orders (inputLines t.stdin)
      ∧ outs.flatten.map Prod.snd = done.flatMap Order.datagrams := by
  obtain ⟨⟨t, outs⟩, hrun⟩ := Option.isSome_iff_exists.mp
    (show (respond (terminalTurn fun _ => true) ⟨.start [host 1] 0, typedLines⟩ typedTurns).isSome
      = true by decide +kernel)
  obtain ⟨done, horders, -, hall⟩ := sent_for_lines hrun
  exact ⟨t, outs, done, hrun, horders, hall (fun _ => rfl) (by decide)⟩

end Rmb

end MessageBoard
