import MessageBoard.MsgservMessage
import MessageBoard.StructServer

/-!
# `rmb/message`: what a client sends and what it prints

`Statics` are the variables of the file that outlive a call.  `inet_aton` belongs to the C library
and is a parameter; whether a `sendto` succeeds is an input of the call.  Buffers are strings here; a
call that uses a buffer that is `NULL`, reads behind one or writes behind one gives `none`.

* `handleIncomingMessages_isSome_iff` — which datagrams stay within the buffers;
* `handleIncomingMessages_reply` — the reply to a user's request is printed line by line;
* `execServerTest_eq_one_iff` — a server is given up at the second test without an answer.
-/

namespace MessageBoard

open CText CScan

namespace Rmb

/-- The static variables of the file; of `_response_buffer` its size, if it is not `NULL`. -/
structure Statics where
  responseBuffer : Option ℕ
  testServer : Bool
  lastTestServer : Bool
  testingWithResults : Bool
  deriving DecidableEq, Repr

/-- `_size_to_alloc`: the two variables are only set together. -/
def Statics.sizeToAlloc (st : Statics) : ℕ := st.responseBuffer.getD responseSize

/-- Their first values. -/
def Statics.start : Statics := ⟨none, false, false, true⟩

def tab : Byte := 9

/-- `check_message_validity`.  A `char` above 127 is negative. -/
def checkMessageValidity (msg : Text) : Bool :=
  msg.all fun b => b == nul || b == newline || b == tab || 31 < b

/-- `select_server`: the entry at `rand() % size`. -/
def selectServer (rand : ℕ) (serverList : List Server) : Option Server :=
  if serverList.isEmpty then none else serverList[rand % serverList.length]?

/-- `rem_awol_server`: the first entry that is the same server is removed. -/
def remAwolServer : List Server → Server → List Server
  | [], _ => []
  | server :: rest, awolServer =>
      if differentServers server awolServer then server :: remAwolServer rest awolServer else rest

/-- `publish`: the returned code and the datagram. -/
def publish (inetAton : Text → Bool) (sent : Bool) (selServer : Server) (msg : Text) :
    ℕ × Option Text :=
  if !checkMessageValidity msg then (2, none)
  else if !inetAton selServer.ipAddr then (1, none)
  else if sent then (0, some (ascii "PUBLISH" ++ space :: msg ++ [nul]))
  else (1, none)

/-- `ask_for_messages`: the statics, the returned code and the datagram.  Zero asks for one message
and marks the request as a test. -/
def askForMessages (inetAton : Text → Bool) (sent : Bool) (st : Statics) (selServer : Server)
    (num : ℤ) : Statics × ℕ × Option Text :=
  let realMsgNum := if num ≠ 0 then (num % 2 ^ 64).toNat else 1
  let st := { st with testingWithResults := num ≠ 0 }
  if !inetAton selServer.ipAddr then (st, 1, none)
  else if sent then (st, 0, some (ascii "GET_MESSAGES" ++ space :: decimal realMsgNum ++ [nul]))
  else (st, 1, none)

/-- `KBLU ">> " KNRM`. -/
def linePrompt : Text := 27 :: ascii "[34m>> " ++ 27 :: ascii "[0m"

/-- `"Last %d messages:\n"`. -/
def heading (num : ℕ) : Text :=
  ascii "Last " ++ decimalInt (toInt32 num) ++ ascii " messages:" ++ [newline]

def printedLine (text : Text) : Text := linePrompt ++ text ++ [newline]

/-- What `handle_incoming_messages` leaves: the statics, the returned code, the text printed. -/
structure Incoming where
  statics : Statics
  code : ℕ
  stdout : Text
  deriving DecidableEq, Repr

/-- `"%s\n%n"`: the first word; `op` starts out as `"0"`. -/
def scanOp (buffer : Text) : Text :=
  match scan [.word] buffer with
  | [.text op] => op
  | _ => ascii "0"

/-- The space for a reply.  It only grows; its size is computed in 32 bits. -/
def reserve (st : Statics) (num : ℕ) : Statics :=
  let size := ((num + 1) * responseSize) % 2 ^ 32
  if st.sizeToAlloc ≤ size then { st with responseBuffer := some size } else st

/-- The text in a buffer of `size` bytes, which was set to zero before it was filled: there is none if it
is full and has no NUL. -/
def textIn (size : ℕ) (buffer : Text) : Option Text :=
  if buffer.length = size ∧ nul ∉ buffer then none else some (cstr buffer)

/-- `handle_incoming_messages` with the result of `recvfrom`.  The first word is scanned into the
`RESPONSE_SIZE` bytes of `op`. -/
def handleIncomingMessages (st : Statics) (num : ℕ) (received : Option Text) : Option Incoming :=
  let st := reserve st num
  match st.responseBuffer, received with
  | none, _ => none
  | some _, none => some ⟨st, 1, []⟩
  | some size, some datagram =>
      let buffer := datagram.take size
      (textIn size buffer).bind fun text =>
        if responseSize ≤ (scanOp text).length then none
        else if scanOp text = messageCode then
          if st.testingWithResults then
            (textIn (size - 9) (buffer.drop 9)).map fun messages =>
              let lines := tokens (· == newline) messages
              ⟨{ st with testServer := false }, 2, heading num ++ lines.flatMap printedLine⟩
          else some ⟨{ st with testServer := false }, 0, []⟩
        else some ⟨{ st with testServer := true }, 0, []⟩

/-- A buffer of `size` bytes has room for a NUL behind the text, or the text has one in it. -/
def Ends (size : ℕ) (text : Text) : Prop := text.length < size ∨ nul ∈ text.take size

instance (size : ℕ) (text : Text) : Decidable (Ends size text) :=
  inferInstanceAs (Decidable (text.length < size ∨ nul ∈ text.take size))

/-- A datagram that is read within the buffer of `size` bytes and within `op`. -/
structure Taken (st : Statics) (size : ℕ) (datagram : Text) : Prop where
  ends : Ends size datagram
  word : (scanOp (cstr (datagram.take size))).length < responseSize
  messages : scanOp (cstr (datagram.take size)) = messageCode → st.testingWithResults = true →
    Ends (size - 9) (datagram.drop 9)

instance (st : Statics) (size : ℕ) (datagram : Text) : Decidable (Taken st size datagram) :=
  decidable_of_iff (Ends size datagram ∧ (scanOp (cstr (datagram.take size))).length < responseSize
      ∧ (scanOp (cstr (datagram.take size)) = messageCode → st.testingWithResults = true →
        Ends (size - 9) (datagram.drop 9)))
    ⟨fun h => ⟨h.1, h.2.1, h.2.2⟩, fun h => ⟨h.ends, h.word, h.messages⟩⟩

/-- The buffer is there, and what is received is read within it. -/
def Receives (st : Statics) (num : ℕ) (received : Option Text) : Prop :=
  ∃ size ∈ (reserve st num).responseBuffer, ∀ datagram ∈ received, Taken st size datagram

instance (st : Statics) (num : ℕ) (received : Option Text) : Decidable (Receives st num received) :=
  inferInstanceAs (Decidable
    (∃ size ∈ (reserve st num).responseBuffer, ∀ datagram ∈ received, Taken st size datagram))

/-! ### The test of the selected server -/

def askServerTest (st : Statics) : Statics := { st with testServer := true }

def cancelServerTest (st : Statics) : Statics := { st with testServer := false, lastTestServer := false }

/-- `exec_server_test`: 1 when the server is given up. -/
def execServerTest (st : Statics) : ℕ × Statics :=
  if st.testServer ∧ st.lastTestServer then
    (1, { st with testServer := false, lastTestServer := false })
  else if st.testServer ∧ ¬st.lastTestServer then (2, { st with lastTestServer := true })
  else (0, { st with testServer := false, lastTestServer := false })

/-- The first test of a request that is not answered is remembered. -/
theorem execServerTest_first {st : Statics} (htest : st.testServer = true)
    (hlast : st.lastTestServer = false) :
    execServerTest st = (2, { st with lastTestServer := true }) := by
  rw [execServerTest, if_neg (by simp [hlast]), if_pos ⟨htest, by simp [hlast]⟩]

theorem execServerTest_second {st : Statics} (htest : st.testServer = true)
    (hlast : st.lastTestServer = true) :
    execServerTest st = (1, { st with testServer := false, lastTestServer := false }) := by
  rw [execServerTest, if_pos ⟨htest, hlast⟩]

theorem execServerTest_idle {st : Statics} (htest : st.testServer = false) :
    execServerTest st = (0, { st with testServer := false, lastTestServer := false }) := by
  rw [execServerTest, if_neg (by simp [htest]), if_neg (by simp [htest])]

/-- **A server is given up at the second test without an answer.** -/
theorem execServerTest_eq_one_iff (st : Statics) :
    (execServerTest st).1 = 1 ↔ st.testServer = true ∧ st.lastTestServer = true := by
  rw [execServerTest]
  split
  · rename_i h
    exact ⟨fun _ => h, fun _ => rfl⟩
  · rename_i h
    split
    · simp [h]
    · simp [h]

/-! ### Lists of servers -/

theorem selectServer_mem {rand : ℕ} {servers : List Server} {s : Server}
    (h : selectServer rand servers = some s) : s ∈ servers := by
  rw [selectServer] at h
  split at h
  · simp at h
  · exact List.mem_of_getElem? h

theorem selectServer_eq_none_iff (rand : ℕ) (servers : List Server) :
    selectServer rand servers = none ↔ servers = [] := by
  rw [selectServer]
  split
  · rename_i h
    simpa using h
  · rename_i h
    have hpos : 0 < servers.length := by
      rw [List.length_pos_iff]
      simpa using h
    rw [List.getElem?_eq_none_iff]
    have := Nat.mod_lt rand hpos
    constructor
    · omega
    · intro heq
      rw [heq] at hpos
      simp at hpos

/-! ### What a reply prints -/

/-- The reply of a server to `GET_MESSAGES`. -/
def reply (texts : List Text) : Text := messageCode ++ newline :: linesText texts

theorem scanOp_messages (r : Text) : scanOp (messageCode ++ newline :: r) = messageCode := by
  have hword : ∀ b ∈ messageCode, isSpace b = false := by decide +kernel
  have hne : messageCode ≠ [] := by decide
  have hspace : (!isSpace newline) = false := by decide
  have hstop : Stops (fun b => !isSpace b) (newline :: r) := stops_cons hspace _
  have hscan : scan [.word] (messageCode ++ newline :: r) = [.text messageCode] := by
    rw [scan_word hword hstop hne]
    rfl
  rw [scanOp, hscan]

theorem scanOp_reply (texts : List Text) : scanOp (reply texts) = messageCode :=
  scanOp_messages (linesText texts)

theorem nul_not_mem_reply {texts : List Text} (hnul : ∀ t ∈ texts, nul ∉ t) : nul ∉ reply texts := by
  rw [reply, List.mem_append, List.mem_cons, not_or, not_or]
  exact ⟨by decide, by decide, nul_not_mem_linesText hnul⟩

theorem textIn_of_lt {size : ℕ} {buffer : Text} (h : buffer.length < size) :
    textIn size buffer = some (cstr buffer) := if_neg fun hfull => h.ne hfull.1

theorem textIn_eq_some {size : ℕ} {buffer text : Text} (h : textIn size buffer = some text) :
    text = cstr buffer := by
  rw [textIn] at h
  split at h
  · simp at h
  · exact (Option.some.inj h).symm

/-- The size of the buffer after the reservation, which is there for fewer than `2 ^ 23 - 1` messages. -/
theorem responseBuffer_reserve (st : Statics) {num : ℕ} (hnum : num + 1 < 2 ^ 23) :
    (reserve st num).responseBuffer = some (max st.sizeToAlloc ((num + 1) * responseSize)) := by
  have hsize : ((num + 1) * responseSize) % 2 ^ 32 = (num + 1) * responseSize := by
    rw [responseSize, Nat.mod_eq_of_lt]
    omega
  have hone : responseSize ≤ (num + 1) * responseSize := Nat.le_mul_of_pos_left _ (Nat.succ_pos num)
  simp only [reserve, hsize]
  split
  · rename_i hle
    rw [max_eq_right hle]
  · rename_i hlt
    rw [max_eq_left (by omega)]
    rw [Statics.sizeToAlloc] at hlt ⊢
    cases hbuffer : st.responseBuffer with
    | none => exact absurd (by simpa [hbuffer] using hone) hlt
    | some size => rfl

theorem testingWithResults_reserve (st : Statics) (num : ℕ) :
    (reserve st num).testingWithResults = st.testingWithResults := by
  simp only [reserve]
  split <;> rfl

theorem textIn_take_isSome (size : ℕ) (text : Text) :
    (textIn size (text.take size)).isSome = true ↔ Ends size text := by
  rw [Ends, textIn, List.length_take]
  split
  · rename_i hfull
    refine iff_of_false (by simp) ?_
    rintro (hlt | hmem)
    · omega
    · exact hfull.2 hmem
  · rename_i hroom
    refine iff_of_true rfl ?_
    by_contra hno
    rw [not_or] at hno
    exact hroom ⟨by omega, hno.2⟩

/-- A text without a NUL is in the buffer whole. -/
theorem textIn_take_eq_some {size : ℕ} {text t : Text} (hnul : nul ∉ text)
    (h : textIn size (text.take size) = some t) : t = text := by
  have hends : Ends size text := (textIn_take_isSome size text).mp (by rw [h]; rfl)
  have hshort : text.length < size := hends.resolve_right fun hmem => hnul (List.mem_of_mem_take hmem)
  rw [textIn_eq_some h, List.take_of_length_le hshort.le, cstr_eq_self hnul]

/-- **Which datagrams are handled**: those that are read within the buffers. -/
theorem handleIncomingMessages_isSome_iff (st : Statics) (num : ℕ) (received : Option Text) :
    (handleIncomingMessages st num received).isSome = true ↔ Receives st num received := by
  rw [Receives]
  cases hbuffer : (reserve st num).responseBuffer with
  | none =>
    simp only [handleIncomingMessages, hbuffer]
    simp
  | some size =>
    simp only [Option.mem_some_iff, exists_eq_left']
    cases received with
    | none =>
      simp only [handleIncomingMessages, hbuffer]
      simp
    | some datagram =>
      simp only [Option.mem_some_iff, forall_eq']
      have hends := textIn_take_isSome size datagram
      have hbehind := textIn_take_isSome (size - 9) (datagram.drop 9)
      simp only [handleIncomingMessages, hbuffer, testingWithResults_reserve, List.drop_take]
      cases htext : textIn size (datagram.take size) with
      | none =>
        rw [htext] at hends
        exact iff_of_false (by simp) fun htaken => by simpa using hends.mpr htaken.ends
      | some text =>
        rw [htext] at hends
        obtain rfl := textIn_eq_some htext
        have hended := hends.mp rfl
        rw [Option.bind_some]
        split
        · rename_i hword
          exact iff_of_false (by simp) fun htaken => absurd htaken.word (by omega)
        · rename_i hword
          split
          · rename_i hop
            split
            · rename_i hresults
              rw [Option.isSome_map, hbehind]
              exact ⟨fun h => ⟨hended, by omega, fun _ _ => h⟩, fun h => h.messages hop hresults⟩
            · rename_i hresults
              exact iff_of_true rfl ⟨hended, by omega, fun _ h => absurd h hresults⟩
          · rename_i hop
            exact iff_of_true rfl ⟨hended, by omega, fun h => absurd h hop⟩

/-- **The reply to a user's request is printed line by line.** -/
theorem handleIncomingMessages_reply (st : Statics) {num : ℕ} (hnum : num + 1 < 2 ^ 23)
    (htest : st.testingWithResults = true) {texts : List Text} (hne : ∀ t ∈ texts, t ≠ [])
    (hnl : ∀ t ∈ texts, newline ∉ t) (hnul : ∀ t ∈ texts, nul ∉ t)
    (hfits : (reply texts).length < (num + 1) * responseSize) :
    handleIncomingMessages st num (some (reply texts))
      = some ⟨{ reserve st num with testServer := false }, 2,
          heading num ++ texts.flatMap printedLine⟩ := by
  have hresults : (reserve st num).testingWithResults = true := by
    rw [testingWithResults_reserve, htest]
  obtain ⟨size, hsize⟩ : ∃ size, size = max st.sizeToAlloc ((num + 1) * responseSize) := ⟨_, rfl⟩
  have hbuffer := responseBuffer_reserve st hnum
  rw [← hsize] at hbuffer
  have hlt : (reply texts).length < size := hsize ▸ lt_of_lt_of_le hfits (le_max_right _ _)
  have hdrop : (reply texts).drop 9 = linesText texts := rfl
  have hbehind : (linesText texts).length < size - 9 := by
    rw [← hdrop, List.length_drop]
    have hcode : (reply texts).length = 9 + (linesText texts).length := by
      rw [reply, List.length_append, List.length_cons, show messageCode.length = 8 from rfl]
      omega
    omega
  have hword : ¬responseSize ≤ messageCode.length := by decide
  simp only [handleIncomingMessages, hbuffer, List.take_of_length_le hlt.le, textIn_of_lt hlt, hdrop,
    textIn_of_lt hbehind, cstr_eq_self (nul_not_mem_reply hnul),
    cstr_eq_self (nul_not_mem_linesText hnul), scanOp_reply, hresults, tokens_linesText hne hnl,
    Option.bind_some, Option.map_some, hword, if_true, if_false]

end Rmb

end MessageBoard
