import MessageBoard.Lib.CText

/-!
# Partial writes

The write loops of `handle_sget_messages` and `send_to_server`, which differ only in what they take
for an error.  The loop passes `ptr + nwritten` and `nleft - nwritten`, with the result of the last
call only: it never moves `ptr`.

* `length_le_of_allowed` — a text of `n` bytes takes no more than `n` results;
* `unfinished_of_lt` — behind a partial write no result ends the loop;
* `sent_once_iff` — **the text is sent once exactly if the first write takes it whole.**
-/

namespace MessageBoard

open CText

namespace PartialWrites

/-! ### The loop -/

/-- The arguments of a call of `write`; the offset counts from `ptr`. -/
structure Write where
  offset : ℤ
  len : ℤ
  deriving DecidableEq

/-- What a loop has done: its calls, the bytes they wrote, and whether it has ended. -/
structure Sending where
  calls : List Write
  sent : Text
  ended : Bool
  deriving DecidableEq

/-- The bytes that a call writes, if they are in the text. -/
def bytesAt (text : Text) (offset count : ℤ) : Text := (text.drop offset.toNat).take count.toNat

/-- The loop with `nleft` and `nwritten`, over the results of its calls.  With no result left a last
call has not returned. -/
def writeLoop (isError : ℤ → Bool) (text : Text) : ℤ → ℤ → List ℤ → Sending
  | nleft, nwritten, [] =>
      if 0 < nleft then ⟨[⟨nwritten, nleft - nwritten⟩], [], false⟩ else ⟨[], [], true⟩
  | nleft, nwritten, result :: results =>
      if 0 < nleft then
        if isError result then ⟨[⟨nwritten, nleft - nwritten⟩], [], true⟩
        else
          let r := writeLoop isError text (nleft - result) result results
          ⟨⟨nwritten, nleft - nwritten⟩ :: r.calls, bytesAt text nwritten result ++ r.sent, r.ended⟩
      else ⟨[], [], true⟩

/-- `0 >= nwritten` ends the loop of `handle_sget_messages`. -/
def sgetError (nwritten : ℤ) : Bool := 0 ≥ nwritten

/-- `-1 == nwritten` ends the one of `send_to_server`. -/
def sendError (nwritten : ℤ) : Bool := -1 == nwritten

/-- The write loop of `handle_sget_messages`; `nleft` starts with what `snprintf` returned, the length of
a reply that was not cut. -/
def handleSgetMessages (responseBuffer : Text) (results : List ℤ) : Sending :=
  writeLoop sgetError responseBuffer responseBuffer.length 0 results

/-- The one of `send_to_server`, whose `nleft` starts with `strlen`. -/
def sendToServer (msg : Text) (results : List ℤ) : Sending :=
  writeLoop sendError msg msg.length 0 results

/-- Each call writes between one byte and all it is asked to. -/
def Allowed : ℤ → ℤ → List ℤ → Prop
  | _, _, [] => True
  | nleft, nwritten, result :: results =>
      0 < nleft ∧ 1 ≤ result ∧ result ≤ nleft - nwritten ∧ Allowed (nleft - result) result results

/-- The results go on as long as there is one that is allowed. -/
def Maximal (nleft nwritten : ℤ) (results : List ℤ) : Prop :=
  Allowed nleft nwritten results ∧ ∀ result, ¬Allowed nleft nwritten (results ++ [result])

/-- The loop ends, no call leaves the text, and what is written is the text. -/
def SentOnce (text : Text) (r : Sending) : Prop :=
  r.ended = true
    ∧ (∀ c ∈ r.calls, 0 ≤ c.offset ∧ 0 ≤ c.len ∧ c.offset + c.len ≤ text.length)
    ∧ r.sent = text

/-! ### Results -/

/-- **No sequence of results goes on for ever.** -/
theorem length_le_of_allowed {nleft nwritten : ℤ} {results : List ℤ} (hleft : 0 ≤ nleft)
    (hwritten : 0 ≤ nwritten) (h : Allowed nleft nwritten results) : (results.length : ℤ) ≤ nleft := by
  induction results generalizing nleft nwritten with
  | nil => exact hleft
  | cons result results ih =>
    obtain ⟨-, hone, hall, hrest⟩ := h
    have hlength := ih (by omega) (by omega) hrest
    rw [List.length_cons]
    push_cast
    omega

theorem maximal_cons {nleft nwritten result : ℤ} {results : List ℤ}
    (h : Maximal nleft nwritten (result :: results)) :
    0 < nleft ∧ 1 ≤ result ∧ result ≤ nleft - nwritten ∧ Maximal (nleft - result) result results := by
  obtain ⟨⟨hpos, hone, hall, hrest⟩, hlast⟩ := h
  exact ⟨hpos, hone, hall, hrest, fun result' hmore => hlast result' ⟨hpos, hone, hall, hmore⟩⟩

/-- A loop that stands where something can be written has a result. -/
theorem ne_nil_of_maximal {nleft nwritten : ℤ} {results : List ℤ} (hcall : 1 ≤ nleft - nwritten)
    (hleft : 0 < nleft) (h : Maximal nleft nwritten results) : results ≠ [] := by
  rintro rfl
  exact h.2 1 ⟨hleft, le_rfl, hcall, trivial⟩

section Loop

variable {isError : ℤ → Bool} {text : Text}

/-- **Behind a partial write** `nleft` never gets to zero: each call leaves at least what the one
before it wrote. -/
theorem unfinished_of_lt (herror : ∀ w, 1 ≤ w → isError w = false) {nleft nwritten : ℤ}
    {results : List ℤ} (hleft : 1 ≤ nleft) (hwritten : 1 ≤ nwritten)
    (h : Allowed nleft nwritten results) :
    (writeLoop isError text nleft nwritten results).ended = false := by
  induction results generalizing nleft nwritten with
  | nil => rw [writeLoop, if_pos (by omega)]
  | cons result results ih =>
    obtain ⟨hpos, hone, hall, hrest⟩ := h
    rw [writeLoop, if_pos hpos, herror result hone, if_neg Bool.false_ne_true]
    exact ih (by omega) hone hrest

/-- **The text is sent once exactly if the first write takes it whole.** -/
theorem sentOnce_iff (herror : ∀ w, 1 ≤ w → isError w = false) {results : List ℤ}
    (h : Maximal text.length 0 results) :
    SentOnce text (writeLoop isError text text.length 0 results)
      ↔ text = [] ∨ results.head? = some (text.length : ℤ) := by
  rcases Nat.eq_zero_or_pos text.length with hzero | hpos
  · obtain rfl : text = [] := List.length_eq_zero_iff.mp hzero
    refine iff_of_true ?_ (Or.inl rfl)
    cases results with
    | nil => simp [SentOnce, writeLoop]
    | cons result results =>
      have hfirst := (maximal_cons h).1
      simp at hfirst
  · have hne : text ≠ [] := List.length_pos_iff.mp hpos
    cases results with
    | nil => exact absurd rfl (ne_nil_of_maximal (by omega) (by omega) h)
    | cons result results =>
      obtain ⟨hleft, hone, hall, hrest⟩ := maximal_cons h
      rw [List.head?_cons, Option.some.injEq, or_iff_right hne, SentOnce, writeLoop, if_pos hleft,
        herror result hone, if_neg Bool.false_ne_true]
      by_cases hwhole : result = text.length
      · subst hwhole
        refine iff_of_true ?_ rfl
        have hend : writeLoop isError text (text.length - text.length) text.length results
            = ⟨[], [], true⟩ := by
          rw [sub_self]
          cases results <;> rw [writeLoop, if_neg (lt_irrefl 0)]
        rw [hend]
        refine ⟨rfl, ?_, ?_⟩
        · intro c hc
          rw [List.mem_singleton.mp hc]
          exact ⟨le_rfl, by simp, by simp⟩
        · simp [bytesAt]
      · refine iff_of_false ?_ hwhole
        rintro ⟨hended, -⟩
        rw [unfinished_of_lt herror (by omega) hone hrest.1] at hended
        exact Bool.false_ne_true hended

end Loop

/-- **Both loops send the text once exactly if the first write takes it whole**, whatever a kernel
that writes something in every call does. -/
theorem sent_once_iff {text : Text} {results : List ℤ} (h : Maximal text.length 0 results) :
    (SentOnce text (handleSgetMessages text results)
        ↔ text = [] ∨ results.head? = some (text.length : ℤ))
      ∧ (SentOnce text (sendToServer text results)
        ↔ text = [] ∨ results.head? = some (text.length : ℤ)) := by
  constructor
  · apply sentOnce_iff _ h
    intro w hw
    simp only [sgetError, ge_iff_le, decide_eq_false_iff_not]
    omega
  · apply sentOnce_iff _ h
    intro w hw
    simp only [sendError, beq_eq_false_iff_ne]
    omega

/-- Two bytes in one write. -/
theorem sent_once_iff_whole : SentOnce (ascii "ab") (handleSgetMessages (ascii "ab") [2])
    ∧ SentOnce (ascii "ab") (sendToServer (ascii "ab") [2]) := by
  have hmaximal : Maximal (ascii "ab").length 0 [2] := by
    constructor
    · exact ⟨by decide, by decide, by decide, trivial⟩
    · rintro result ⟨-, -, -, hleft, -⟩
      exact absurd hleft (by decide)
  obtain ⟨hsget, hsend⟩ := sent_once_iff hmaximal
  exact ⟨hsget.mpr (Or.inr rfl), hsend.mpr (Or.inr rfl)⟩

/-- **The first write takes one byte of two**: the next call is asked for none, and the byte is never
sent. -/
theorem second_byte_lost : Maximal (ascii "ab").length 0 [1]
    ∧ ¬SentOnce (ascii "ab") (handleSgetMessages (ascii "ab") [1])
    ∧ ¬SentOnce (ascii "ab") (sendToServer (ascii "ab") [1])
    ∧ (sendToServer (ascii "ab") [1]).calls = [⟨0, 2⟩, ⟨1, 0⟩] := by
  refine ⟨⟨⟨by decide, by decide, by decide, trivial⟩, ?_⟩, ?_, ?_, by decide⟩
  · rintro result ⟨-, -, -, -, hone, hall, -⟩
    have : result ≤ 0 := hall
    omega
  · intro h
    exact absurd h.1 (by decide)
  · intro h
    exact absurd h.1 (by decide)

end PartialWrites

end MessageBoard
