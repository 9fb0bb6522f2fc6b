import MessageBoard.PublishRead

/-!
# The window of a reply

`get_first_n_messages` renders the last messages of a wrapped matrix into a buffer of
`STRING_SIZE * n` bytes, and `handle_get_messages` takes the number from the text of a request, of which
`handle_client_comms` reads 140 bytes, through an `int`, a 64-bit unsigned number and two clamps.

* `getFirstNMessages_window` — **the last `min n k` messages**, oldest first, whatever `overflow` says;
* `atoi_isDecimal`, `isDecimal_take` — what `atoi` makes of a decimal text, and what the cut leaves of it;
* `handleClientComms_honours_iff` — **which requests are answered as asked.**
-/

namespace MessageBoard

open CText CScan

namespace ReplyWindow

/-! ### Lines -/

/-- `"<lc>;<content>\n"` or `"<content>\n"`; the clock is the `int` that `get_lc` gives. -/
def line (mode : Mode) (m : Message) : Text :=
  match mode with
  | .withLc => clockLine m ++ [newline]
  | .withoutLc => getString m ++ [newline]

/-- Messages as `new_message` makes them, each from a clock and a text. -/
def messages (made : List (ℕ × Text)) : List Message := made.map fun p => (newMessage p.1 p.2).1

/-- The matrix after a history of messages, each added at index `get_size`. -/
def matrixOf (c : ℕ) (hc : 0 < c) (overflow : Bool) (xs : List Message) : Matrix Message :=
  (Matrix.createMatrix c hc overflow).addAll xs

/-- The last `n` messages of a history. -/
def lastOf (n : ℕ) (xs : List Message) : List Message := xs.drop (xs.length - n)

theorem mem_of_mem_lastOf {n : ℕ} {xs : List Message} {x : Message} (hx : x ∈ lastOf n xs) : x ∈ xs :=
  List.mem_of_mem_drop hx

theorem length_content_messages {made : List (ℕ × Text)} :
    ∀ x ∈ messages made, x.content.length ≤ 140 := by
  intro x hx
  obtain ⟨p, -, rfl⟩ := List.mem_map.mp hx
  exact (List.length_take_le _ _)

theorem matrixOf_holds (c : ℕ) (hc : 0 < c) (overflow : Bool) (xs : List Message) :
    (matrixOf c hc overflow xs).Holds xs := by
  have hall := (Matrix.holds_create c hc overflow).addAll xs
  rwa [List.nil_append] at hall

theorem getCapacity_matrixOf (c : ℕ) (hc : 0 < c) (overflow : Bool) (xs : List Message) :
    (matrixOf c hc overflow xs).getCapacity = c := by
  rw [matrixOf, Matrix.getCapacity_addAll, Matrix.getCapacity_createMatrix]

/-- `to_append` takes every line. -/
theorem messageLine_eq (mode : Mode) {m : Message} (hm : m.content.length ≤ 140) :
    messageLine mode m = line mode m := by
  cases mode with
  | withLc =>
    have hclock := length_clockLine_le hm
    rw [messageLine, line, List.take_of_length_le]
    rw [List.length_append, List.length_singleton, stringSize]
    omega
  | withoutLc =>
    rw [messageLine, line, List.take_of_length_le]
    rw [getString, stringSize, List.length_append, List.length_singleton]
    omega

/-- `strncat` cuts no line of a text that fits. -/
theorem historyText_of_fits {n : ℕ} {mode : Mode} {xs : List Message}
    (hxs : ∀ x ∈ xs, x.content.length ≤ 140) (hfits : (xs.flatMap (line mode)).length ≤ stringSize * n) :
    historyText n mode xs = xs.flatMap (line mode) := by
  rw [historyText]
  apply List.flatMap_congr
  intro x hx
  rw [messageLine_eq mode (hxs x hx), List.take_of_length_le]
  have hsub : (line mode x).length ≤ (xs.flatMap (line mode)).length :=
    (List.sublist_flatten_of_mem (List.mem_map_of_mem hx)).length_le
  omega

/-- **The last `n` messages**, or all if there are fewer. -/
theorem getFirstNMessages_holds {m : Matrix Message} {xs : List Message} (h : m.Holds xs)
    (hsize : m.getCapacity < 2 ^ 64) (hk : xs.length < 2 ^ 31) (hne : xs ≠ []) (mode : Mode) {n : ℕ}
    (hn : 1 ≤ n) (hnc : n ≤ m.getCapacity) :
    getFirstNMessages m n mode = some (historyText n mode (lastOf n xs)) := by
  rw [lastOf]
  rcases Nat.lt_or_ge xs.length n with hlt | hge
  · rw [getFirstNMessages_whole h mode hne hlt hnc hk hsize, Nat.sub_eq_zero_of_le hlt.le,
      List.drop_zero]
  · exact getFirstNMessages_last h mode hn hge hnc hk

theorem getFirstNMessages_matrixOf {c : ℕ} (hc : 0 < c) (hsize : c < 2 ^ 64) (overflow : Bool)
    {xs : List Message} (hk : xs.length < 2 ^ 31) (hne : xs ≠ []) (mode : Mode) {n : ℕ} (hn : 1 ≤ n)
    (hnc : n ≤ c) : getFirstNMessages (matrixOf c hc overflow xs) n mode
      = some (historyText n mode (lastOf n xs)) := by
  have hcap := getCapacity_matrixOf c hc overflow xs
  exact getFirstNMessages_holds (matrixOf_holds c hc overflow xs) (by rwa [hcap]) hk hne mode hn
    (by rwa [hcap])

/-- **The reply window**: nothing of an empty history, and otherwise the lines of the last `min n k`
messages, oldest first, if they fit in the buffer. -/
theorem getFirstNMessages_window {c : ℕ} (hc : 0 < c) (hsize : c < 2 ^ 64) (overflow : Bool)
    (made : List (ℕ × Text)) (hk : made.length < 2 ^ 31) (mode : Mode) {n : ℕ} (hn : 1 ≤ n)
    (hnc : n ≤ c) :
    (made = [] → getFirstNMessages (matrixOf c hc overflow (messages made)) n mode = none)
      ∧ (made ≠ [] →
        ((lastOf (min n made.length) (messages made)).flatMap (line mode)).length + 1 ≤ stringSize * n →
        getFirstNMessages (matrixOf c hc overflow (messages made)) n mode
          = some ((lastOf (min n made.length) (messages made)).flatMap (line mode))) := by
  constructor
  · rintro rfl
    exact getFirstNMessages_empty (matrixOf_holds c hc overflow []) n mode
  · intro hne hfits
    have hlen : (messages made).length = made.length := List.length_map _
    have hlast : lastOf (min n made.length) (messages made) = lastOf n (messages made) := by
      rw [lastOf, lastOf, hlen]
      congr 1
      omega
    rw [hlast] at hfits ⊢
    rw [getFirstNMessages_matrixOf hc hsize overflow (by omega) (by simpa [messages] using hne) mode hn
      hnc, historyText_of_fits (fun x hx => length_content_messages x (mem_of_mem_lastOf hx)) (by omega)]

/-- Three messages in a matrix of two, and the last two of them. -/
theorem getFirstNMessages_window_three :
    getFirstNMessages (matrixOf 2 (by decide) true
        (messages [(0, ascii "a"), (1, ascii "b"), (2, ascii "c")])) (2 : ℕ) .withLc
      = some (ascii "1;b\n2;c\n") :=
  (@getFirstNMessages_window 2 (by decide) (by decide) true [(0, ascii "a"), (1, ascii "b"), (2, ascii "c")]
    (by decide) .withLc 2 (by decide) (by decide)).2 (by decide) (by decide +kernel)

/-! ### The number of a request -/

/-- A decimal integer: an optional sign and digits. -/
def IsDecimal (text : Text) (v : ℤ) : Prop :=
  ∃ digits : Text, digits ≠ [] ∧ (∀ b ∈ digits, isDigit b = true)
    ∧ ((text = digits ∨ text = 43 :: digits) ∧ v = digitsVal digits
      ∨ text = 45 :: digits ∧ v = -digitsVal digits)

/-- **The `long` is the number, saturated.** -/
theorem strtol_isDecimal {text : Text} {v : ℤ} (h : IsDecimal text v) :
    strtol text = max (-2 ^ 63) (min (2 ^ 63 - 1) v) := by
  obtain ⟨digits, hne, hdigits, hform⟩ := h
  have hrun : digits.takeWhile isDigit = digits := by
    have hall := takeWhile_run hdigits (stops_nil isDigit)
    rwa [List.append_nil] at hall
  have hsign : ∀ b : Byte, isSpace b = false → (b :: digits).dropWhile isSpace = b :: digits := by
    intro b hb
    rw [List.dropWhile_cons, if_neg (by simp [hb])]
  rcases hform with ⟨rfl | rfl, rfl⟩ | ⟨rfl, rfl⟩
  · obtain ⟨b, bs, rfl⟩ := List.exists_cons_of_ne_nil hne
    have hb := hdigits b (by simp)
    have hfirst : splitSign ((b :: bs).dropWhile isSpace) = (false, b :: bs) := by
      rw [List.dropWhile_cons, if_neg (by simp [not_isSpace_of_isDigit hb]), splitSign_of_isDigit hb]
    simp only [strtol, hfirst, hrun]
    rfl
  · have hplus : splitSign ((43 :: digits : Text).dropWhile isSpace) = (false, digits) := by
      rw [hsign 43 (by decide)]
      rfl
    simp only [strtol, hplus, hrun]
    rfl
  · have hminus : splitSign ((45 :: digits : Text).dropWhile isSpace) = (true, digits) := by
      rw [hsign 45 (by decide)]
      rfl
    simp only [strtol, hminus, hrun]
    rfl

/-- What `atoi` makes of it: the low 32 bits of the saturated number. -/
theorem atoi_isDecimal {text : Text} {v : ℤ} (h : IsDecimal text v) :
    atoi text = Int.bmod (max (-2 ^ 63) (min (2 ^ 63 - 1) v)) (2 ^ 32) := by
  rw [atoi, strtol_isDecimal h]

theorem not_mem_isDecimal {text : Text} {v : ℤ} (h : IsDecimal text v) {b : Byte}
    (hb : isDigit b = false) (hplus : b ≠ 43) (hminus : b ≠ 45) : b ∉ text := by
  obtain ⟨digits, -, hdigits, hform⟩ := h
  have hmem : b ∉ digits := by
    intro hmem
    rw [hdigits b hmem] at hb
    exact Bool.noConfusion hb
  rcases hform with ⟨rfl | rfl, -⟩ | ⟨rfl, -⟩
  · exact hmem
  · simp [hplus, hmem]
  · simp [hminus, hmem]

/-- The number a decimal text stands for. -/
def decimalOf (text : Text) : ℤ :=
  if (splitSign text).1 then -digitsVal (splitSign text).2 else digitsVal (splitSign text).2

theorem decimalOf_isDecimal {text : Text} {v : ℤ} (h : IsDecimal text v) : decimalOf text = v := by
  obtain ⟨digits, hne, hdigits, hform⟩ := h
  rcases hform with ⟨rfl | rfl, rfl⟩ | ⟨rfl, rfl⟩
  · obtain ⟨b, bs, rfl⟩ := List.exists_cons_of_ne_nil hne
    rw [decimalOf, splitSign_of_isDigit (hdigits b (by simp))]
    rfl
  · rfl
  · rfl

/-- **A number that is cut** is a number of the same sign, and no farther from zero. -/
theorem isDecimal_take {text : Text} {v : ℤ} (h : IsDecimal text v) {k : ℕ} (hk : 2 ≤ k) :
    ∃ w, IsDecimal (text.take k) w ∧ (0 ≤ w ∧ w ≤ v ∨ v ≤ w ∧ w ≤ 0) := by
  obtain ⟨digits, hne, hdigits, hform⟩ := h
  obtain ⟨j, rfl⟩ : ∃ j, k = j + 1 := ⟨k - 1, by omega⟩
  have hcut : ∀ i, 1 ≤ i → digits.take i ≠ [] := by
    intro i hi hnil
    have hlength := congrArg List.length hnil
    have hpos := List.length_pos_iff.mpr hne
    rw [List.length_take, List.length_nil] at hlength
    omega
  have hmem : ∀ i, ∀ b ∈ digits.take i, isDigit b = true :=
    fun i b hb => hdigits b (List.mem_of_mem_take hb)
  have hle := fun i => digitsVal_take_le digits i
  rcases hform with ⟨rfl | rfl, rfl⟩ | ⟨rfl, rfl⟩
  · exact ⟨_, ⟨_, hcut (j + 1) (by omega), hmem _, Or.inl ⟨Or.inl rfl, rfl⟩⟩,
      Or.inl ⟨by omega, by exact_mod_cast hle (j + 1)⟩⟩
  · exact ⟨_, ⟨_, hcut j (by omega), hmem _, Or.inl ⟨Or.inr rfl, rfl⟩⟩,
      Or.inl ⟨by omega, by exact_mod_cast hle j⟩⟩
  · have hneg : ((digitsVal (digits.take j) : ℕ) : ℤ) ≤ digitsVal digits := by exact_mod_cast hle j
    exact ⟨_, ⟨_, hcut j (by omega), hmem _, Or.inr ⟨rfl, rfl⟩⟩, Or.inr ⟨by omega, by omega⟩⟩

/-! ### The reply -/

/-- `get_first_n_messages` with its buffer: `STRING_SIZE * n` is an `int`, and the text and its NUL
have to fit.  Else it has no meaning. -/
def getFirstNMessagesIn (m : Matrix Message) (n : ℤ) (mode : Mode) : Option (Option Text) :=
  match getFirstNMessages m n mode with
  | none => some none
  | some text =>
      if stringSize * n < 2 ^ 31 ∧ text.length < stringSize * n then some (some text) else none

/-- `num` after the two clamps. -/
def clampNum (b : Board) (num : ℕ) : ℕ :=
  let num := if b.msgMatrix.getCapacity < num then b.msgMatrix.getCapacity else num
  if b.msgMatrix.getSize < num then b.msgMatrix.getSize else num

/-- `handle_get_messages` where `get_first_n_messages` has a meaning. -/
def handleGetMessagesIn (sent : Bool) (b : Board) (inputBuffer : Text) : Option (ℕ × Option Text) :=
  let num := ((atoi inputBuffer) % 2 ^ 64).toNat
  if num < 1 then some (1, none)
  else
    (getFirstNMessagesIn b.msgMatrix (toInt32 (clampNum b num)) .withoutLc).map fun _ =>
      handleGetMessages sent b inputBuffer

/-- `op` and `input_buffer` of a datagram. -/
def commandOf (datagram : Text) : Text × Text := scanCommand (cstr (datagram.take responseSize))

/-- `handle_client_comms`, where the buffer of a reply is not overrun. -/
def handleClientCommsIn (sent : Bool) (b : Board) (datagram : Text) : Option ClientResult :=
  (handleClientComms sent b datagram).bind fun r =>
    if (commandOf datagram).1 = ascii "GET_MESSAGES" then
      (handleGetMessagesIn sent b (commandOf datagram).2).map fun _ => r
    else some r

/-- `GET_MESSAGES` and a text. -/
def command (text : Text) : Text := ascii "GET_MESSAGES" ++ space :: text

/-- `"MESSAGES\n"` and the messages. -/
def replyOf (xs : List Message) : Text := messageCode ++ newline :: xs.flatMap (line .withoutLc)

/-- The request for `v` messages of the history `xs` is answered as asked. -/
def Honours (sent : Bool) (b : Board) (xs : List Message) (text : Text) (v : ℤ) : Prop :=
  if 1 ≤ v then (handleClientCommsIn sent b (command text ++ [nul])).map ClientResult.reply
    = some (some (replyOf (lastOf (min v.toNat (min b.msgMatrix.getCapacity xs.length)) xs)))
  else handleClientCommsIn sent b (command text ++ [nul]) = some ⟨b, 1, none⟩

/-- The number that is left of a text cut at 140 bytes. -/
def cutNumber (text : Text) : ℤ := decimalOf (text.take 140)

/-- The low 32 bits of what the cut leaves of a positive number stand for it. -/
def NumberKept (v w : ℤ) (available : ℕ) : Prop :=
  w = v ∧ v < 2 ^ 31 ∨ 2 ^ 63 ≤ w ∨ 2 ^ 31 ≤ w % 2 ^ 32 ∨ 1 ≤ w % 2 ^ 32 ∧ available ≤ w % 2 ^ 32

/-- How many messages the low 32 bits of a number ask for. -/
def window (w : ℤ) (available : ℕ) : ℕ :=
  if w % 2 ^ 32 < 2 ^ 31 then min (w % 2 ^ 32).toNat available else available

/-- The messages fit in the buffer of `get_first_n_messages`: one of them is shorter than 140 bytes. -/
def TextFits (xs : List Message) : Prop :=
  stringSize * xs.length < 2 ^ 31 ∧ ∃ x ∈ xs, x.content.length < 140

instance (xs : List Message) : Decidable (TextFits xs) :=
  inferInstanceAs (Decidable (stringSize * xs.length < 2 ^ 31 ∧ ∃ x ∈ xs, x.content.length < 140))

/-- A number below one is refused. -/
theorem handleGetMessagesIn_refused (sent : Bool) (b : Board) {text : Text}
    (hnum : ((atoi text) % 2 ^ 64).toNat < 1) : handleGetMessagesIn sent b text = some (1, none) := by
  simp only [handleGetMessagesIn]
  rw [if_pos hnum]

/-- Where it has a meaning, a request is answered by `handle_get_messages`. -/
theorem eq_of_handleGetMessagesIn {sent : Bool} {b : Board} {text : Text} {r : ℕ × Option Text}
    (h : handleGetMessagesIn sent b text = some r) : r = handleGetMessages sent b text := by
  by_cases hlt : (atoi text % 2 ^ 64).toNat < 1
  · rw [handleGetMessagesIn_refused sent b hlt, Option.some.injEq] at h
    simp only [handleGetMessages]
    rw [if_pos hlt, h]
  · simp only [handleGetMessagesIn] at h
    rw [if_neg hlt] at h
    obtain ⟨-, -, rfl⟩ := Option.map_eq_some_iff.mp h
    rfl

/-- **What a request gives `handle_get_messages`**: the first 140 bytes of its number. -/
theorem handleClientCommsIn_decimal (sent : Bool) (b : Board) {text : Text} {v : ℤ}
    (h : IsDecimal text v) (hfits : (command text).length < responseSize) :
    handleClientCommsIn sent b (command text ++ [nul])
      = (handleGetMessagesIn sent b (text.take 140)).map fun r => ⟨b, r.1, r.2⟩ := by
  have hspace := not_mem_isDecimal h (b := space) (by decide) (by decide) (by decide)
  have hnl := not_mem_isDecimal h (b := newline) (by decide) (by decide) (by decide)
  have hnul := not_mem_isDecimal h (b := nul) (by decide) (by decide) (by decide)
  have hhead : ∀ d ∈ text.head?, d ≠ space := fun d hd heq => hspace (heq ▸ List.mem_of_mem_head? hd)
  have hcomms := @PublishRead.handleClientComms_command sent b (ascii "GET_MESSAGES") text (by decide)
    (by decide +kernel) (by decide +kernel) (by decide) hfits hnl hnul hhead
  rw [if_neg (by decide), if_pos rfl] at hcomms
  have hfree : nul ∉ command text := by
    rw [command, List.mem_append, List.mem_cons, not_or, not_or]
    exact ⟨by decide +kernel, by decide, hnul⟩
  have hcommand : commandOf (command text ++ [nul]) = (ascii "GET_MESSAGES", text.take 140) := by
    have htake : (command text ++ [nul]).take responseSize = command text ++ [nul] :=
      List.take_of_length_le (by rw [List.length_append, List.length_singleton]; omega)
    rw [commandOf, htake, cstr_append_nul hfree, command,
      PublishRead.scanCommand_eq (by decide) (by decide +kernel) hnl hhead]
  rw [handleClientCommsIn, command, hcomms, Option.bind_some, ← command, hcommand, if_pos rfl]
  cases hget : handleGetMessagesIn sent b (text.take 140) with
  | none => rfl
  | some r => rw [Option.map_some, Option.map_some, eq_of_handleGetMessagesIn hget]

/-- A request that leaves no room for its NUL has no meaning. -/
theorem handleClientCommsIn_full (sent : Bool) (b : Board) {text : Text} {v : ℤ}
    (h : IsDecimal text v) (hfull : responseSize ≤ (command text).length) :
    handleClientCommsIn sent b (command text ++ [nul]) = none := by
  have hfree : nul ∉ command text := by
    rw [command, List.mem_append, List.mem_cons, not_or, not_or]
    exact ⟨by decide +kernel, by decide,
      not_mem_isDecimal h (by decide) (by decide) (by decide)⟩
  rw [handleClientCommsIn, PublishRead.handleClientComms_full sent b hfree hfull, Option.bind_none]

/-! ### The conversions -/

theorem bmod_word (w : ℤ) : Int.bmod w (2 ^ 32) = if w % 2 ^ 32 < 2 ^ 31 then w % 2 ^ 32
    else w % 2 ^ 32 - 2 ^ 32 := by
  rw [Int.bmod_def]
  norm_num

/-- A number that is not positive is refused if its low bits are zero. -/
theorem number_refused_iff {text : Text} {v : ℤ} (h : IsDecimal text v) (hv : v ≤ 0) :
    ((atoi text) % 2 ^ 64).toNat < 1 ↔ v ≤ -2 ^ 63 ∨ 2 ^ 32 ∣ v := by
  rw [atoi_isDecimal h, bmod_word]
  rcases Int.le_total v (-2 ^ 63) with hlow | hhigh
  · have hclamp : max (-2 ^ 63) (min (2 ^ 63 - 1) v) = -2 ^ 63 := by omega
    rw [hclamp]
    exact iff_of_true (by decide) (Or.inl hlow)
  · have hclamp : max (-2 ^ 63) (min (2 ^ 63 - 1) v) = v := by omega
    rw [hclamp]
    split <;> omega

/-- A positive number that was cut is taken for what the clamps leave of it. -/
theorem number_kept_iff {text : Text} {v w : ℤ} (h : IsDecimal text w) (hv : 1 ≤ v) (hw : 0 ≤ w)
    (hwv : w ≤ v) {available : ℕ} (havailable : available < 2 ^ 31) : NumberKept v w available
      ↔ 1 ≤ ((atoi text) % 2 ^ 64).toNat
        ∧ min ((atoi text) % 2 ^ 64).toNat available = min v.toNat available := by
  rw [NumberKept, atoi_isDecimal h, bmod_word]
  rcases Int.lt_or_le w (2 ^ 63) with hlt | hge
  · have hclamp : max (-2 ^ 63) (min (2 ^ 63 - 1) w) = w := by omega
    rw [hclamp]
    split <;> omega
  · have hclamp : max (-2 ^ 63) (min (2 ^ 63 - 1) w) = 2 ^ 63 - 1 := by omega
    have hneg : ((if (2 ^ 63 - 1 : ℤ) % 2 ^ 32 < 2 ^ 31 then (2 ^ 63 - 1 : ℤ) % 2 ^ 32
        else (2 ^ 63 - 1 : ℤ) % 2 ^ 32 - 2 ^ 32) % 2 ^ 64).toNat = 2 ^ 64 - 1 := by decide
    rw [hclamp, hneg]
    omega

/-- A number that is not positive, and not refused, asks for the window of its low bits. -/
theorem number_window {text : Text} {w : ℤ} (h : IsDecimal text w) (hw : w ≤ 0) {available : ℕ}
    (havailable : available < 2 ^ 31) (hpos : 1 ≤ ((atoi text) % 2 ^ 64).toNat) :
    min ((atoi text) % 2 ^ 64).toNat available = window w available := by
  have hlow : -2 ^ 63 < w := by
    by_contra hle
    have hrefused := (number_refused_iff h hw).mpr (Or.inl (by omega))
    omega
  have hclamp : max (-2 ^ 63) (min (2 ^ 63 - 1) w) = w := by omega
  rw [window, atoi_isDecimal h, hclamp, bmod_word]
  split <;> omega

theorem clampNum_eq (b : Board) (num : ℕ) :
    clampNum b num = min num (min b.msgMatrix.getCapacity b.msgMatrix.getSize) := by
  simp only [clampNum]
  split <;> split <;> omega

/-! ### The text -/

theorem length_lastOf {n : ℕ} {xs : List Message} (hn : n ≤ xs.length) : (lastOf n xs).length = n := by
  rw [lastOf, List.length_drop]
  omega

/-- The text is shorter than the buffer exactly if one of the messages is not full. -/
theorem length_lines {xs : List Message} (hxs : ∀ x ∈ xs, x.content.length ≤ 140) :
    (xs.flatMap (line .withoutLc)).length ≤ stringSize * xs.length
      ∧ ((xs.flatMap (line .withoutLc)).length < stringSize * xs.length
        ↔ ∃ x ∈ xs, x.content.length < 140) := by
  induction xs with
  | nil => simp
  | cons x xs ih =>
    obtain ⟨hle, hlt⟩ := ih fun y hy => hxs y (List.mem_cons_of_mem x hy)
    have hx := hxs x List.mem_cons_self
    have hline : (line .withoutLc x).length = x.content.length + 1 := by
      rw [line, getString, List.length_append, List.length_singleton]
    rw [List.flatMap_cons, List.length_append, List.length_cons, hline, Nat.mul_add]
    simp only [stringSize, List.exists_mem_cons_iff] at hle hlt ⊢
    refine ⟨by omega, ?_⟩
    rw [← hlt]
    omega

/-- A longer window has a longer text. -/
theorem length_replyOf_lt {n n' : ℕ} {xs : List Message} (hn : n < n') (hn' : n' ≤ xs.length) :
    (replyOf (lastOf n xs)).length < (replyOf (lastOf n' xs)).length := by
  have hsplit : lastOf n' xs = (lastOf n' xs).take (n' - n) ++ lastOf n xs := by
    conv_lhs => rw [← List.take_append_drop (n' - n) (lastOf n' xs)]
    rw [lastOf, lastOf, List.drop_drop, show xs.length - n' + (n' - n) = xs.length - n by omega]
  obtain ⟨x, hx⟩ := List.exists_mem_of_length_pos (l := (lastOf n' xs).take (n' - n)) (by
    rw [List.length_take, length_lastOf hn']
    omega)
  have hpos : 0 < (((lastOf n' xs).take (n' - n)).flatMap (line .withoutLc)).length := by
    have hsub : (line .withoutLc x).length
        ≤ (((lastOf n' xs).take (n' - n)).flatMap (line .withoutLc)).length :=
      (List.sublist_flatten_of_mem (List.mem_map_of_mem hx)).length_le
    rw [line, List.length_append, List.length_singleton] at hsub
    omega
  rw [replyOf, replyOf, hsplit, List.flatMap_append]
  simp only [List.length_append, List.length_cons]
  omega

theorem replyOf_inj {n n' : ℕ} {xs : List Message} (hn : n ≤ xs.length) (hn' : n' ≤ xs.length)
    (h : replyOf (lastOf n xs) = replyOf (lastOf n' xs)) : n = n' := by
  rcases Nat.lt_trichotomy n n' with hlt | heq | hlt
  · have := length_replyOf_lt hlt hn'
    rw [h] at this
    omega
  · exact heq
  · have := length_replyOf_lt hlt hn
    rw [h] at this
    omega

section Board

variable {sent : Bool} {c : ℕ} {hc : 0 < c} {overflow : Bool} {gLc : ℕ} {xs : List Message}

/-- **What a request with the number `num` is answered**, if the messages fit. -/
theorem handleGetMessagesIn_eq (hsize : c < 2 ^ 64) (hxs : ∀ x ∈ xs, x.content.length ≤ 140)
    (hk : xs.length < 2 ^ 31) {text : Text} {num : ℕ} (hnum : ((atoi text) % 2 ^ 64).toNat = num)
    (hpos : 1 ≤ num) : handleGetMessagesIn sent ⟨gLc, matrixOf c hc overflow xs⟩ text
      = if xs = [] ∨ TextFits (lastOf (min num (min c xs.length)) xs) then
          some (sendReply sent (replyOf (lastOf (min num (min c xs.length)) xs)))
        else none := by
  have hholds := matrixOf_holds c hc overflow xs
  have hclamp : clampNum ⟨gLc, matrixOf c hc overflow xs⟩ num = min num (min c xs.length) := by
    rw [clampNum_eq, getCapacity_matrixOf, hholds.size_eq]
  obtain ⟨n, hn⟩ : ∃ n, n = min num (min c xs.length) := ⟨_, rfl⟩
  rw [← hn] at hclamp ⊢
  have hint : toInt32 n = n := toInt32_of_lt (by omega)
  have hanswer : handleGetMessages sent ⟨gLc, matrixOf c hc overflow xs⟩ text
      = match getFirstNMessages (matrixOf c hc overflow xs) n .withoutLc with
        | none => sendReply sent (messageCode ++ [newline])
        | some toAppend =>
            sendReply sent ((messageCode ++ newline :: toAppend).take (stringSize * (n + 1) - 1)) := by
    simp only [handleGetMessages, hnum]
    rw [if_neg (by omega), ← hint, ← hclamp]
    rfl
  simp only [handleGetMessagesIn, hnum]
  rw [if_neg (by omega), hclamp, hint, getFirstNMessagesIn, hanswer]
  by_cases hnil : xs = []
  · subst hnil
    rw [getFirstNMessages_empty hholds, if_pos (Or.inl rfl), lastOf, List.drop_nil]
    rfl
  · have hkpos := List.length_pos_iff.mpr hnil
    have hlen : (lastOf n xs).length = n := length_lastOf (by omega)
    obtain ⟨hle, hlt⟩ := length_lines fun x hx => hxs x (mem_of_mem_lastOf (n := n) hx)
    rw [hlen] at hle hlt
    have hfirst := getFirstNMessages_matrixOf hc hsize overflow hk hnil .withoutLc (n := n) (by omega)
      (by omega)
    rw [historyText_of_fits (fun x hx => hxs x (mem_of_mem_lastOf hx)) hle] at hfirst
    have hwhole : ((messageCode ++ newline :: (lastOf n xs).flatMap (line .withoutLc)).take
        (stringSize * (n + 1) - 1)) = replyOf (lastOf n xs) := by
      rw [replyOf, List.take_of_length_le]
      have hcode : messageCode.length = 8 := rfl
      rw [List.length_append, List.length_cons, hcode]
      simp only [stringSize] at hle ⊢
      omega
    rw [hfirst]
    simp only [hwhole]
    have hfits : (stringSize * (n : ℤ) < 2 ^ 31
        ∧ ((lastOf n xs).flatMap (line .withoutLc)).length < stringSize * (n : ℤ))
        ↔ TextFits (lastOf n xs) := by
      rw [TextFits, hlen, ← hlt]
      simp only [stringSize]
      omega
    simp only [hfits, hnil, false_or]
    split <;> rfl

/-- **A positive number**, cut to `w`, is answered with as many messages. -/
theorem positive_answer_iff (hsize : c < 2 ^ 64) (hxs : ∀ x ∈ xs, x.content.length ≤ 140)
    (hk : xs.length < 2 ^ 31) {text : Text} {v w : ℤ} (h : IsDecimal text w) (hv : 1 ≤ v) (hw : 0 ≤ w)
    (hwv : w ≤ v) : (handleGetMessagesIn sent ⟨gLc, matrixOf c hc overflow xs⟩ text).map Prod.snd
        = some (some (replyOf (lastOf (min v.toNat (min c xs.length)) xs)))
      ↔ NumberKept v w (min c xs.length)
        ∧ (xs = [] ∨ TextFits (lastOf (min v.toNat (min c xs.length)) xs)) ∧ sent = true := by
  obtain ⟨num, hnum⟩ : ∃ num, ((atoi text) % 2 ^ 64).toNat = num := ⟨_, rfl⟩
  rw [number_kept_iff h hv hw hwv (by omega), hnum]
  by_cases hpos : 1 ≤ num
  · rw [handleGetMessagesIn_eq hsize hxs hk hnum hpos]
    constructor
    · intro heq
      split at heq
      · rename_i hroom
        cases sent with
        | false => simp at heq
        | true =>
          simp only [sendReply_true, Option.map_some, Option.some.injEq] at heq
          have hmin := replyOf_inj (by omega) (by omega) heq
          exact ⟨⟨hpos, hmin⟩, hmin ▸ hroom, rfl⟩
      · simp at heq
    · rintro ⟨⟨-, hmin⟩, hroom, rfl⟩
      rw [hmin, if_pos hroom]
      rfl
  · rw [handleGetMessagesIn_refused sent _ (by omega)]
    exact iff_of_false (by simp) fun hboth => hpos hboth.1.1

/-- **A number below one** is refused if its low bits are zero, or if `sendto` fails. -/
theorem refused_answer_iff (hsize : c < 2 ^ 64) (hxs : ∀ x ∈ xs, x.content.length ≤ 140)
    (hk : xs.length < 2 ^ 31) {text : Text} {w : ℤ} (h : IsDecimal text w) (hw : w ≤ 0) :
    handleGetMessagesIn sent ⟨gLc, matrixOf c hc overflow xs⟩ text = some (1, none)
      ↔ w ≤ -2 ^ 63 ∨ 2 ^ 32 ∣ w
        ∨ (xs = [] ∨ TextFits (lastOf (window w (min c xs.length)) xs)) ∧ sent = false := by
  obtain ⟨num, hnum⟩ : ∃ num, ((atoi text) % 2 ^ 64).toNat = num := ⟨_, rfl⟩
  rw [← or_assoc, ← number_refused_iff h hw, hnum]
  by_cases hpos : 1 ≤ num
  · have hwindow := @number_window text w h hw (min c xs.length) (by omega) (hnum ▸ hpos)
    have hasked : ¬num < 1 := by omega
    rw [hnum] at hwindow
    rw [handleGetMessagesIn_eq hsize hxs hk hnum hpos, hwindow, or_iff_right hasked]
    split
    · rename_i hroom
      rw [and_iff_right hroom]
      cases sent with
      | false => simp
      | true => simp
    · rename_i hroom
      exact iff_of_false (by simp) fun hboth => hroom hboth.1
  · rw [handleGetMessagesIn_refused sent _ (by omega)]
    exact iff_of_true rfl (Or.inl (by omega))

/-- **A request is answered as asked** exactly if it fits in the buffer of a datagram, what is cut off
its number and its conversions does not change it, the messages fit, and `sendto` sends them.  A number
below one is also refused as asked where `sendto` fails. -/
theorem handleClientComms_honours_iff (sent : Bool) (hc : 0 < c) (hsize : c < 2 ^ 64) (overflow : Bool)
    (gLc : ℕ) (made : List (ℕ × Text)) (hk : made.length < 2 ^ 31) {text : Text} {v : ℤ}
    (h : IsDecimal text v) :
    Honours sent ⟨gLc, matrixOf c hc overflow (messages made)⟩ (messages made) text v
      ↔ (command text).length < responseSize ∧
        if 1 ≤ v then NumberKept v (cutNumber text) (min c made.length)
          ∧ (made = [] ∨ TextFits (lastOf (min v.toNat (min c made.length)) (messages made)))
          ∧ sent = true
        else cutNumber text ≤ -2 ^ 63 ∨ 2 ^ 32 ∣ cutNumber text
          ∨ (made = [] ∨ TextFits (lastOf (window (cutNumber text) (min c made.length)) (messages made)))
            ∧ sent = false := by
  have hlen : (messages made).length = made.length := List.length_map _
  have hnil : messages made = [] ↔ made = [] := by simp [messages]
  have hcap : (matrixOf c hc overflow (messages made)).getCapacity = c := getCapacity_matrixOf ..
  obtain ⟨w, hcut, hsign⟩ := isDecimal_take h (k := 140) (by omega)
  have hw : cutNumber text = w := decimalOf_isDecimal hcut
  rw [Honours, hw, hcap]
  by_cases hfits : (command text).length < responseSize
  · rw [and_iff_right hfits, handleClientCommsIn_decimal sent _ h hfits, ← hnil, ← hlen]
    by_cases hv : 1 ≤ v
    · rw [if_pos hv, if_pos hv, Option.map_map]
      exact positive_answer_iff hsize length_content_messages (by omega) hcut hv (by omega) (by omega)
    · have hrefused := @refused_answer_iff sent c hc overflow gLc (messages made) hsize
        length_content_messages (by omega) (text.take 140) w hcut (by omega)
      rw [if_neg hv, if_neg hv, ← hrefused]
      cases handleGetMessagesIn sent _ (text.take 140) with
      | none => simp
      | some r => simp [Prod.ext_iff]
  · rw [handleClientCommsIn_full sent _ h (by omega)]
    refine iff_of_false ?_ fun hboth => hfits hboth.1
    split <;> simp

/-- Two messages of three are asked for and sent. -/
theorem handleClientComms_honours_two :
    Honours true
      ⟨3, matrixOf 5 (by decide) false (messages [(0, ascii "a"), (1, ascii "b"), (2, ascii "c")])⟩
      (messages [(0, ascii "a"), (1, ascii "b"), (2, ascii "c")]) (ascii "+2") 2 :=
  (handleClientComms_honours_iff true (by decide) (by decide) false 3
    [(0, ascii "a"), (1, ascii "b"), (2, ascii "c")] (by decide)
    ⟨ascii "2", by decide, by decide +kernel, Or.inl ⟨Or.inr rfl, by decide +kernel⟩⟩).mpr
    ⟨by decide, Or.inl ⟨by decide +kernel, by decide⟩, Or.inr ⟨by decide, ⟨1, ascii "b"⟩, by decide, by decide⟩,
      rfl⟩

/-- **A request for minus one message** is answered with all of them. -/
theorem not_honours_negative : ¬∀ (c : ℕ) (hc : 0 < c) (overflow : Bool) (gLc : ℕ)
    (made : List (ℕ × Text)) (text : Text) (v : ℤ), c < 2 ^ 64 → made.length < 2 ^ 31 →
    IsDecimal text v →
    Honours true ⟨gLc, matrixOf c hc overflow (messages made)⟩ (messages made) text v := by
  intro h
  have hdecimal : IsDecimal (ascii "-1") (-1) :=
    ⟨ascii "1", by decide, by decide +kernel, Or.inr ⟨rfl, by decide +kernel⟩⟩
  have hone := h 5 (by decide) false 1 [(0, ascii "a")] (ascii "-1") (-1) (by decide) (by decide) hdecimal
  rw [Honours, if_neg (by decide), handleClientCommsIn_decimal true _ hdecimal (by decide)] at hone
  have hall : handleGetMessagesIn true ⟨1, matrixOf 5 (by decide) false (messages [(0, ascii "a")])⟩
      ((ascii "-1").take 140) = some (0, some (ascii "MESSAGES\na\n")) := by
    decide +kernel
  rw [hall] at hone
  simp at hone

end Board

end ReplyWindow

end MessageBoard
