import MessageBoard.ReplyWindow

/-!
# The line of a message

`"%d;%s"` as the two writers print it through `get_lc`, and as `parse_message` reads it.  The clock
goes from 64 bits through an `int`, its decimal text, six bytes of `lc_buffer` and `atoi` back to 64
bits.

* `parseMessage_eq` — `parse_message` as reading the line, and storing what was read;
* `clockText_fits_iff`, `clock_read_iff` — which clocks have a text that fits, and come back;
* `line_codec_iff` — **which messages are read back from their line.**
-/

namespace MessageBoard

open CText CScan ReplyWindow

namespace MessageLineCodec

/-- The clock and the content that `parse_message` reads from a line, before it looks at `g_lc`.  A
clock text of more than five bytes has no meaning. -/
def readLine (info : Text) : Option (ℕ × Text) :=
  if 6 ≤ (info.takeWhile (· != semicolon)).length then none
  else
    match scan lineFormat info with
    | [.text lcBuffer, .text msg] => some (((atoi lcBuffer) % 2 ^ 64).toNat, msg)
    | _ => none

/-- **What `parse_message` does with what it reads.** -/
theorem parseMessage_eq (b : Board) {info : Text}
    (hfits : (info.takeWhile (· != semicolon)).length < 6) :
    parseMessage b info
      = some (match readLine info with
          | none => (b, none)
          | some (messLc, msg) =>
              ((b.add (max b.gLc messLc) msg).1, some (b.add (max b.gLc messLc) msg).2)) := by
  have hclock : ¬6 ≤ (info.takeWhile (· != semicolon)).length := by omega
  by_cases h : ∃ lcBuffer msg, scan lineFormat info = [.text lcBuffer, .text msg]
  · obtain ⟨lcBuffer, msg, hscan⟩ := h
    have hread : readLine info = some (((atoi lcBuffer) % 2 ^ 64).toNat, msg) := by
      rw [readLine, if_neg hclock, hscan]
    rw [hread, parseMessage, if_neg hclock, hscan]
    simp only [ite_lt_eq_max]
  · have hread : readLine info = none := by
      rw [readLine, if_neg hclock]
      split
      · rename_i lcBuffer msg hscan
        exact absurd ⟨lcBuffer, msg, hscan⟩ h
      · rfl
    rw [hread, parseMessage, if_neg hclock]
    split
    · rename_i lcBuffer msg hscan
      exact absurd ⟨lcBuffer, msg, hscan⟩ h
    · rfl

/-! ### Writing -/

/-- The text of the clock, as it goes into `lc_buffer`. -/
def clockText (m : Message) : Text := decimalInt (getLc m)

/-- Both writers write the line whole: `get_first_n_messages` with a newline behind it, and
`share_last_message` behind its code. -/
def Written (m : Message) : Prop :=
  messageLine .withLc m = clockLine m ++ [newline]
    ∧ ∀ b, lastMessage b = some m →
      shareLastMessage b = some (smessageCode ++ newline :: clockLine m ++ [newline])

theorem written_of_length {m : Message} (hm : m.content.length ≤ 140) : Written m :=
  ⟨messageLine_eq .withLc hm, fun _ hb => shareLastMessage_of_last hb hm⟩

/-! ### Reading -/

/-- **A line with a content** is read back, if its clock fits. -/
theorem readLine_clockLine {m : Message} (hne : m.content ≠ []) (hlen : m.content.length ≤ 140)
    (hnl : newline ∉ m.content) :
    readLine (clockLine m)
      = if (clockText m).length < 6 then some (((toInt32 m.lc) % 2 ^ 64).toNat, m.content)
        else none := by
  have hsemi := semicolon_not_mem_decimalInt (getLc m)
  have hstop : Stops (· != semicolon) (semicolon :: m.content) := stops_cons (by simp) _
  have hscan : scan lineFormat (clockLine m) = [.text (clockText m), .text m.content] := by
    rw [clockLine, getString, scan_lineFormat (decimalInt_ne_nil _) hsemi hnl, if_neg hne,
      List.take_of_length_le hlen]
    rfl
  have hclock : (clockLine m).takeWhile (· != semicolon) = clockText m := by
    rw [clockLine, getString, takeWhile_run (bne_of_not_mem hsemi) hstop]
    rfl
  have hread : atoi (clockText m) = toInt32 m.lc :=
    atoi_decimalInt (toInt32_range m.lc).1 (toInt32_range m.lc).2
  rw [readLine, hclock, hscan]
  by_cases hfits : (clockText m).length < 6
  · rw [if_neg (by omega), if_pos hfits]
    dsimp only
    rw [hread]
  · rw [if_pos (by omega), if_neg hfits]

/-- **The clocks whose text fits** with its NUL: five digits, or a sign and four. -/
theorem clockText_fits_iff (m : Message) :
    (clockText m).length + 1 ≤ 6 ↔ -9999 ≤ toInt32 m.lc ∧ toInt32 m.lc ≤ 99999 := by
  rw [clockText, getLc]
  cases hv : toInt32 m.lc with
  | ofNat n =>
    have hdigits := @length_decimal_le_iff n 4
    rw [decimalInt, Int.ofNat_eq_natCast]
    omega
  | negSucc n =>
    have hdigits := @length_decimal_le_iff (n + 1) 3
    rw [decimalInt, List.length_cons]
    omega

/-- **The clocks that come back** from their `int`. -/
theorem clock_read_iff {lc : ℕ} (hlc : lc < 2 ^ 64) :
    ((toInt32 lc) % 2 ^ 64).toNat = lc ↔ lc < 2 ^ 31 ∨ 2 ^ 64 - 2 ^ 31 ≤ lc := by
  rw [toInt32]
  split <;> omega

/-- The clock text fits `lc_buffer`, and the line, as both writers write it, is read back. -/
def Coded (m : Message) : Prop :=
  (clockText m).length + 1 ≤ 6 ∧ Written m ∧ readLine (clockLine m) = some (m.lc, m.content)

/-- **A message is read back from its line** exactly if its clock has no more than five digits, or is
less than ten thousand below `2 ^ 64`. -/
theorem line_codec_iff {m : Message} (hlc : m.lc < 2 ^ 64) (hne : m.content ≠ [])
    (hlen : m.content.length ≤ 140) (hnl : newline ∉ m.content) :
    Coded m ↔ m.lc < 100000 ∨ 2 ^ 64 - 9999 ≤ m.lc := by
  have hwritten : Written m := written_of_length hlen
  have hrange : -9999 ≤ toInt32 m.lc ∧ toInt32 m.lc ≤ 99999 ∧ ((toInt32 m.lc) % 2 ^ 64).toNat = m.lc
      ↔ m.lc < 100000 ∨ 2 ^ 64 - 9999 ≤ m.lc := by
    rw [clock_read_iff hlc, toInt32]
    split <;> omega
  rw [← hrange, ← and_assoc, ← clockText_fits_iff, Coded, and_iff_right hwritten]
  apply and_congr_right
  intro hfits
  rw [readLine_clockLine hne hlen hnl, if_pos (by omega)]
  simp

theorem line_codec_iff_one : Coded ⟨7, ascii "a;b"⟩ :=
  (line_codec_iff (by decide) (by decide) (by decide) (by decide)).mpr (Or.inl (by decide))

/-- **The clock of six digits**: its text and NUL take seven bytes. -/
theorem clock_too_long : ¬Coded ⟨100000, ascii "a"⟩ := by
  intro h
  exact absurd h.1 (by decide +kernel)

end MessageLineCodec

end MessageBoard
