import MessageBoard.StructMessage

/-!
# `msgserv/message`: what a message server does with its datagrams and its peers' bytes

`Board` is the state of a message server these functions share: the global clock and the matrix.
The UDP side (`handleClientComms`) and the TCP side (`serverTreatCommunications`) follow the source
function by function.  A write past a buffer has no meaning in the source, so a function that may
make one returns `none` there: `lc_buffer` holds five bytes, `op` 140, `to_hold` 511.
Whether a `sendto` succeeds is an input of the call.

The `recv`/`strtok` loop is written once for any element type and any action on a dispatched text,
because which texts reach the dispatch does not depend on what the dispatch does.

* `scanCommand_word` — what the scan of a datagram reads behind the first word;
* `parseMessage_clock` — a clock and a content that fit are stored, whatever the board;
* `parseMessage_clockLine` — the line a server writes for a message is stored with its content.
-/

namespace MessageBoard

open CText CScan

/-- The state of a message server that messages change: `g_lc` and `msg_matrix`. -/
structure Board where
  gLc : ℕ
  msgMatrix : Matrix Message
  deriving DecidableEq

def smessageCode : Text := ascii "SMESSAGES"

def sgetCode : Text := ascii "SGET_MESSAGES"

def messageCode : Text := ascii "MESSAGES"

def Board.add (b : Board) (gLc : ℕ) (src : Text) : Board × Message :=
  let new := newMessage gLc src
  (⟨new.2, b.msgMatrix.addElement b.msgMatrix.getSize new.1⟩, new.1)

/-! ### Texts for the peers -/

/-- `handle_sget_messages`: the text its write loop sends. -/
def handleSgetMessages (b : Board) : Text :=
  let size := stringSize * (b.msgMatrix.getCapacity + 1)
  let toAppend := getFirstNMessages b.msgMatrix (toInt32 b.msgMatrix.getCapacity) .withLc
  match toAppend with
  | none => (smessageCode ++ [newline, newline]).take (size - 1)
  | some text => (smessageCode ++ newline :: text ++ [newline]).take (size - 1)

/-- The element `share_last_message` reads. -/
def lastMessage (b : Board) : Option Message := b.msgMatrix.getElement (b.msgMatrix.getSize - 1)

/-- `share_last_message`: the text `send_to_server` writes to every peer of the list.  There is
none before the first message. -/
def shareLastMessage (b : Board) : Option Text :=
  (lastMessage b).map fun m =>
    (smessageCode ++ newline :: clockLine m ++ [newline]).take (stringSize * 2 - 1)

/-! ### Clients -/

/-- The result of `sendto`: the returned code and the datagram that is on its way.  `sendto` refuses
what does not fit in one datagram, 65507 bytes. -/
def sendReply (sent : Bool) (responseBuffer : Text) : ℕ × Option Text :=
  if sent then (0, some responseBuffer) else (1, none)

/-- `handle_get_messages`: the returned code and the datagram sent.  `sent` says whether `sendto`
succeeds. -/
def handleGetMessages (sent : Bool) (b : Board) (inputBuffer : Text) : ℕ × Option Text :=
  let num := ((atoi inputBuffer) % 2 ^ 64).toNat
  if num < 1 then (1, none)
  else
    let num := if b.msgMatrix.getCapacity < num then b.msgMatrix.getCapacity else num
    let num := if b.msgMatrix.getSize < num then b.msgMatrix.getSize else num
    match getFirstNMessages b.msgMatrix (toInt32 num) .withoutLc with
    | none => sendReply sent (messageCode ++ [newline])
    | some toAppend =>
        sendReply sent ((messageCode ++ newline :: toAppend).take (stringSize * (num + 1) - 1))

/-- `handle_publish`, which returns 2. -/
def handlePublish (b : Board) (inputBuffer : Text) : Board := (b.add b.gLc inputBuffer).1

/-- `"%s%*[ ]%140[^\n]"`: a word, spaces to throw away, and the text up to the newline. -/
def commandFormat : List Directive :=
  [.word, .set (· == space) none false, .set (· != newline) (some 140) true]

/-- `op` and `input_buffer` after the scan; both start out empty. -/
def scanCommand (s : Text) : Text × Text :=
  match scan commandFormat s with
  | [.text op, .text input] => (op, input)
  | .text op :: _ => (op, [])
  | _ => ([], [])

/-- What `handle_client_comms` leaves: the board, the returned code, the reply. -/
structure ClientResult where
  board : Board
  err : ℕ
  reply : Option Text

/-- `handle_client_comms` on a received datagram.  The buffer takes 512 bytes; without a NUL in
them the scan runs out of it, and a word of more than 140 bytes overruns `op`. -/
def handleClientComms (sent : Bool) (b : Board) (datagram : Text) : Option ClientResult :=
  let buffer := datagram.take responseSize
  if buffer.length = responseSize ∧ nul ∉ buffer then none
  else
    let cmd := scanCommand (cstr buffer)
    if stringSize ≤ cmd.1.length then none
    else if cmd.1 = ascii "PUBLISH" then some ⟨handlePublish b cmd.2, 2, none⟩
    else if cmd.1 = ascii "GET_MESSAGES" then
      let r := handleGetMessages sent b cmd.2
      some ⟨b, r.1, r.2⟩
    else some ⟨b, 0, none⟩

/-! ### Lines from the peers -/

/-- `"%[^;];%140[^\n]"`. -/
def lineFormat : List Directive :=
  [.set (· != semicolon) none true, .lit semicolon, .set (· != newline) (some 140) true]

/-- `parse_message`: the new board and the message added to the matrix, if the line is accepted.
The clock is an unsigned 64-bit number, so a negative `atoi` wraps. -/
def parseMessage (b : Board) (info : Text) : Option (Board × Option Message) :=
  if 6 ≤ (info.takeWhile (· != semicolon)).length then none
  else
    match scan lineFormat info with
    | [.text lcBuffer, .text msg] =>
        let messLc := ((atoi lcBuffer) % 2 ^ 64).toNat
        let r := b.add (if b.gLc < messLc then messLc else b.gLc) msg
        some (r.1, some r.2)
    | _ => some (b, none)

/-! ### The `recv` loop -/

section Loop

variable {σ α : Type}

/-- `to_analyze`: the held text and the token; `snprintf` cuts it at `STRING_SIZE * 3 - 1`. -/
def toAnalyze (toHold token : List α) : List α :=
  if toHold.isEmpty then token else (toHold ++ token).take (stringSize * 3 - 1)

/-- `strncat(to_hold, token, STRING_SIZE)` into the `RESPONSE_SIZE` bytes of `to_hold`. -/
def holdToken (toHold token : List α) : Option (List α) :=
  let held := toHold ++ token.take stringSize
  if held.length < responseSize then some held else none

/-- The inner loop over the tokens of one `recv` result, with the text held at its end.  Only a
token that has a successor clears `to_hold`. -/
def tokenLoop (act : σ → List α → Option σ) (messageEnd : Bool) :
    List α → List (List α) → σ → Option (List α × σ)
  | toHold, [], s => some (toHold, s)
  | toHold, [token], s =>
      if messageEnd then (act s (toAnalyze toHold token)).map fun s => (toHold, s)
      else (holdToken toHold token).map fun held => (held, s)
  | toHold, token :: auxToken :: rest, s =>
      (act s (toAnalyze toHold token)).bind fun s =>
        tokenLoop act messageEnd [] (auxToken :: rest) s

/-- `message_end`: the last byte received is a newline. -/
def messageEnd (nl : α → Bool) (chunk : List α) : Bool := chunk.getLast?.any nl

/-- The outer loop over the results of `recv`, until it returns `-1` or the descriptor is closed. -/
def recvLoop (nl z : α → Bool) (act : σ → List α → Option σ) (isOpen : σ → Bool) :
    List α → List (List α) → σ → Option (List α × σ)
  | toHold, [], s => some (toHold, s)
  | toHold, chunk :: chunks, s =>
      if isOpen s then
        (tokenLoop act (messageEnd nl chunk) toHold (tokens nl (cstrBy z chunk)) s).bind fun r =>
          recvLoop nl z act isOpen r.1 chunks r.2
      else some (toHold, s)

end Loop

/-- The state of one call of `server_treat_communications`: the board, the flag `sms_state`, whether
the descriptor is still open, the messages added to the matrix and the replies written so far. -/
structure Conn where
  board : Board
  smsState : Bool
  isOpen : Bool
  stored : List Message
  replies : List Text
  deriving DecidableEq

/-- What is done with a text once it is complete.  `written i` says whether the write loop of the
`i`-th reply of the call succeeds. -/
def dispatch (written : ℕ → Bool) (c : Conn) (text : Text) : Option Conn :=
  if c.smsState then
    (parseMessage c.board text).map fun r =>
      { c with board := r.1, stored := c.stored ++ r.2.toList }
  else if text = sgetCode then
    some { c with
      isOpen := c.isOpen && written c.replies.length
      replies := c.replies ++ [handleSgetMessages c.board] }
  else if text = smessageCode then some { c with smsState := true }
  else some c

/-- The state at the start of a call. -/
def Conn.start (b : Board) : Conn := ⟨b, false, true, [], []⟩

/-- `server_treat_communications` for a descriptor that is set: the results of `recv` up to the
`-1` or, when `peerClosed`, the `0` that ends the loop. -/
def serverTreatCommunications (written : ℕ → Bool) (b : Board) (recvs : List Text)
    (peerClosed : Bool) : Option Conn :=
  (recvLoop (· == newline) (· == nul) (dispatch written) Conn.isOpen [] recvs (Conn.start b)).map
    fun r => { r.2 with isOpen := r.2.isOpen && !peerClosed }

@[simp] theorem sendReply_true (text : Text) : sendReply true text = (0, some text) := rfl

@[simp] theorem sendReply_false (text : Text) : sendReply false text = (1, none) := rfl

/-! ### The line codec -/

/-- A printed number is read back, also through the conversion to `uint_fast32_t`. -/
theorem toNat_atoi_decimal {n : ℕ} (hn : n < 2 ^ 31) :
    ((atoi (decimal n)) % 2 ^ 64).toNat = n := by
  have hatoi := atoi_decimal hn (stops_nil isDigit)
  rw [List.append_nil] at hatoi
  rw [hatoi]
  omega

/-- The comparison before a message is stored takes the larger clock. -/
theorem ite_lt_eq_max (gLc messLc : ℕ) : (if gLc < messLc then messLc else gLc) = max gLc messLc := by
  split
  · omega
  · omega

/-- What the scan of a line reads, if the clock text is not empty. -/
theorem scan_lineFormat {a r : Text} (ha : a ≠ []) (hsemi : semicolon ∉ a) (hnl : newline ∉ r) :
    scan lineFormat (a ++ semicolon :: r)
      = .text a :: if r = [] then [] else [.text (r.take 140)] := by
  have hstop : Stops (· != semicolon) (semicolon :: r) := stops_cons (by simp) r
  have hrun : r.takeWhile (· != newline) = r := by
    rw [List.takeWhile_eq_self_iff]
    exact bne_of_not_mem hnl
  rw [lineFormat, scan_set (bne_of_not_mem hsemi) hstop ha, scan_lit, scan_set_last _ (by omega),
    hrun]

/-- **A clock and a content that fit are stored**, whatever the board. -/
theorem parseMessage_clock (b : Board) {a r : Text} (ha : a ≠ []) (hsemi : semicolon ∉ a)
    (hlen : a.length < 6) (hr : r ≠ []) (hnl : newline ∉ r) :
    parseMessage b (a ++ semicolon :: r)
      = let messLc := ((atoi a) % 2 ^ 64).toNat
        let s := b.add (if b.gLc < messLc then messLc else b.gLc) (r.take 140)
        some (s.1, some s.2) := by
  have hstop : Stops (· != semicolon) (semicolon :: r) := stops_cons (by simp) r
  rw [parseMessage, takeWhile_run (bne_of_not_mem hsemi) hstop, if_neg (by omega),
    scan_lineFormat ha hsemi hnl, if_neg hr]

/-- A line is stored at the end of the matrix or not at all. -/
theorem parseMessage_cases {b : Board} {text : Text} {r : Board × Option Message}
    (h : parseMessage b text = some r) :
    r = (b, none) ∨ ∃ m, r.2 = some m
      ∧ r.1.msgMatrix = b.msgMatrix.addElement b.msgMatrix.getSize m := by
  rw [parseMessage] at h
  split at h
  · simp at h
  · split at h
    · rw [← Option.some.inj h]
      exact Or.inr ⟨_, rfl, rfl⟩
    · exact Or.inl (Option.some.inj h).symm

theorem lastMessage_add (b : Board) (gLc : ℕ) (src : Text) :
    lastMessage (b.add gLc src).1 = some (newMessage gLc src).1 := by
  rw [lastMessage, Board.add, Matrix.getSize_addElement, Nat.add_sub_cancel,
    Matrix.getElement_addElement, if_pos rfl]

/-- **`share_last_message`** writes the line of the last message whole. -/
theorem shareLastMessage_of_last {b : Board} {m : Message} (hb : lastMessage b = some m)
    (hm : m.content.length ≤ 140) :
    shareLastMessage b = some (smessageCode ++ newline :: clockLine m ++ [newline]) := by
  have hline := length_clockLine_le hm
  have hcode : smessageCode.length = 9 := rfl
  rw [shareLastMessage, hb, Option.map_some, List.take_of_length_le]
  rw [List.length_append, List.length_append, List.length_cons, List.length_singleton, hcode,
    stringSize]
  omega

/-- **The first word, and the text behind it**: spaces are needed, and thrown away. -/
theorem scanCommand_word {s w : Text}
    (hw : (s.dropWhile isSpace).takeWhile (fun b => !isSpace b) = w) (hne : w ≠ []) :
    scanCommand s = (w, if ((s.dropWhile isSpace).drop w.length).head? = some space then
        ((((s.dropWhile isSpace).drop w.length).dropWhile (· == space)).takeWhile
          (· != newline)).take 140
      else []) := by
  obtain ⟨r, hr⟩ : ∃ r, (s.dropWhile isSpace).drop w.length = r := ⟨_, rfl⟩
  have hword : scan commandFormat s
      = .text w :: scan [.set (· == space) none false, .set (· != newline) (some 140) true] r := by
    simp [commandFormat, scan, Directive.read, hw, hne, hr]
  rw [scanCommand, hword, hr]
  by_cases hspace : r.head? = some space
  · have hsplit := List.takeWhile_append_dropWhile (p := fun b : Byte => b == space) (l := r)
    have hrun : r.takeWhile (· == space) ≠ [] := by
      obtain ⟨rest, rfl⟩ := List.head?_eq_some_iff.mp hspace
      simp
    have hskip : scan [.set (· == space) none false, .set (· != newline) (some 140) true] r
        = scan [.set (· != newline) (some 140) true] (r.dropWhile (· == space)) := by
      conv_lhs => rw [← hsplit]
      exact scan_skip (fun b hb => List.mem_takeWhile_imp hb) (stops_dropWhile _ r) hrun _
    rw [hskip, scan_set_last _ (by omega), if_pos hspace]
    split_ifs with hnil
    · rw [hnil]
      rfl
    · rfl
  · have hstop : Stops (· == space) r := by
      intro b hb
      rw [beq_eq_false_iff_ne]
      rintro rfl
      exact hspace hb
    rw [scan_set_fail hstop, if_neg hspace]

/-- The text behind the command word stays on its line. -/
theorem newline_not_mem_scanCommand (s : Text) : newline ∉ (scanCommand s).2 := by
  by_cases hw : (s.dropWhile isSpace).takeWhile (fun b => !isSpace b) = []
  · have hscan : scanCommand s = ([], []) := by
      simp [scanCommand, commandFormat, scan, Directive.read, hw]
    simp [hscan]
  · rw [scanCommand_word rfl hw]
    dsimp only
    split
    · intro hmem
      simpa using List.mem_takeWhile_imp (List.mem_of_mem_take hmem)
    · simp

/-- Only a `PUBLISH` makes `handle_client_comms` return 2, and then a message was added. -/
theorem handleClientComms_publish {sent : Bool} {b : Board} {datagram : Text} {r : ClientResult}
    (h : handleClientComms sent b datagram = some r) (herr : r.err = 2) :
    ∃ input, newline ∉ input ∧ r.board = handlePublish b input := by
  have hreply (text : Text) : (sendReply sent text).1 ≠ 2 := by
    rw [sendReply]
    split <;> simp
  have hget (input : Text) : (handleGetMessages sent b input).1 ≠ 2 := by
    simp only [handleGetMessages]
    split
    · decide
    · split <;> exact hreply _
  rw [handleClientComms] at h
  split at h
  · simp at h
  · simp only at h
    split at h
    · simp at h
    · split at h
      · rw [← Option.some.inj h]
        exact ⟨_, newline_not_mem_scanCommand _, rfl⟩
      · split at h
        · rw [← Option.some.inj h] at herr
          exact absurd herr (hget _)
        · rw [← Option.some.inj h] at herr
          exact absurd herr (by simp)

/-- A clock text of more than five bytes overruns `lc_buffer`. -/
theorem parseMessage_overrun (b : Board) {info : Text}
    (h : 6 ≤ (info.takeWhile (· != semicolon)).length) : parseMessage b info = none := by
  rw [parseMessage, if_pos h]

theorem semicolon_not_mem_decimal (n : ℕ) : semicolon ∉ decimal n := not_mem_decimal (by decide) n

theorem clockLine_of_lt {m : Message} (h : m.lc < 2 ^ 31) :
    clockLine m = decimal m.lc ++ semicolon :: m.content := by
  rw [clockLine, getLc, toInt32_of_lt h, getString]
  rfl

/-- **The line a server writes for a message is stored with its content**, under the larger of the
two clocks. -/
theorem parseMessage_clockLine (b : Board) {m : Message} (hlc : m.lc < 100000)
    (hne : m.content ≠ []) (hlen : m.content.length ≤ 140) (hnl : newline ∉ m.content) :
    parseMessage b (clockLine m)
      = let s := b.add (max b.gLc m.lc) m.content
        some (s.1, some s.2) := by
  have hdigits : (decimal m.lc).length < 6 := by
    have := length_decimal_le (n := m.lc) (k := 4) (by omega)
    omega
  have hmess : ((atoi (decimal m.lc)) % 2 ^ 64).toNat = m.lc := toNat_atoi_decimal (by omega)
  rw [clockLine_of_lt (by omega), parseMessage_clock b (decimal_ne_nil m.lc)
    (semicolon_not_mem_decimal m.lc) hdigits hne hnl, hmess]
  simp only [ite_lt_eq_max, List.take_of_length_le hlen]

theorem semicolon_not_mem_decimalInt (n : ℤ) : semicolon ∉ decimalInt n :=
  not_mem_decimalInt (by decide) (by decide) n

theorem decimalInt_ne_nil (n : ℤ) : decimalInt n ≠ [] := by
  cases n with
  | ofNat n => exact decimal_ne_nil n
  | negSucc n => simp [decimalInt]

/-- **Whatever its clock**, a line of one to 140 bytes is stored with its content, and a line without
content is not stored. -/
theorem parseMessage_clockLine_content {b : Board} {m : Message} {r : Board × Option Message}
    (hlen : m.content.length ≤ 140) (hnl : newline ∉ m.content)
    (h : parseMessage b (clockLine m) = some r) :
    m.content = [] ∧ r = (b, none)
      ∨ m.content ≠ [] ∧ ∃ gLc, r = ((b.add gLc m.content).1, some ⟨gLc, m.content⟩) := by
  have hsemi := semicolon_not_mem_decimalInt (getLc m)
  have hne := decimalInt_ne_nil (getLc m)
  have hstop : Stops (· != semicolon) (semicolon :: m.content) := stops_cons (by simp) _
  rw [clockLine, getString] at h
  by_cases hclock : (decimalInt (getLc m)).length < 6
  · by_cases hempty : m.content = []
    · rw [parseMessage, takeWhile_run (bne_of_not_mem hsemi) hstop, if_neg (by omega),
        scan_lineFormat hne hsemi hnl, if_pos hempty] at h
      exact Or.inl ⟨hempty, (Option.some.inj h).symm⟩
    · rw [parseMessage_clock b hne hsemi hclock hempty hnl, List.take_of_length_le hlen] at h
      refine Or.inr ⟨hempty, _, (Option.some.inj h).symm.trans (Prod.ext rfl ?_)⟩
      show some (Message.mk _ (m.content.take 140)) = _
      rw [List.take_of_length_le hlen]
  · rw [parseMessage_overrun b (by
      rw [takeWhile_run (bne_of_not_mem hsemi) hstop]
      omega)] at h
    simp at h

/-- Whatever its content, a line is stored under the larger of the two clocks. -/
theorem parseMessage_clockLine_lc {b b' : Board} {m m' : Message} (hlc : m.lc < 100000)
    (h : parseMessage b (clockLine m) = some (b', some m')) :
    ∃ msg, (b', m') = b.add (max b.gLc m.lc) msg := by
  have hstop : Stops (· != semicolon) (semicolon :: m.content) := stops_cons (by simp) _
  have hset := scan_set (bne_of_not_mem (semicolon_not_mem_decimal m.lc)) hstop
    (decimal_ne_nil m.lc) [.lit semicolon, .set (· != newline) (some 140) true]
  have hmess : ((atoi (decimal m.lc)) % 2 ^ 64).toNat = m.lc := toNat_atoi_decimal (by omega)
  rw [clockLine_of_lt (by omega), parseMessage] at h
  split at h
  · simp at h
  · split at h
    · rename_i lcBuffer msg hscan
      rw [lineFormat, hset, List.cons.injEq, Field.text.injEq] at hscan
      rw [← hscan.1, hmess] at h
      simp only [ite_lt_eq_max, Option.some.injEq, Prod.mk.injEq] at h
      exact ⟨msg, Prod.ext h.1.symm h.2.symm⟩
    · simp at h

end MessageBoard
