import MessageBoard.Lib.Pieces
import MessageBoard.TcpFraming

/-!
# The `recv` loop on a text that is there as a whole

Every `recv` returns the next 140 bytes, so what the loop does with a text depends on where its
lines end.  A state is the held text `h` and the bytes `pre` read of the current piece; `Reads`
follows the text from state to state, and `LineStart` is the state in which a line begins.

* `reads_run` — reading inside a line only lengthens its text, across any number of pieces;
* `reads_line` — **one line**: it is completed behind what the line before it left in `to_hold`, if
  its newline does not open a piece;
* `frames_lines` — the texts dispatched for a whole list of lines.
-/

namespace MessageBoard

open CText LineStream Pieces TcpLoop TcpFraming

namespace TcpLines

/-- The bytes one `recv` asks for. -/
def recvSize : ℕ := 140

/-! ### One piece without a NUL -/

section Piece

variable {α : Type} {nl z : α → Bool}

/-- `to_hold` after a piece: one complete token and nothing behind it leaves `to_hold` as it is. -/
def heldBy (nl : α → Bool) (h chunk : List α) : List α :=
  match closedFrom nl [] chunk with
  | [] => h ++ openFrom nl [] chunk
  | [_] => if (openFrom nl [] chunk).isEmpty then h else openFrom nl [] chunk
  | _ :: _ :: _ => openFrom nl [] chunk

/-- The texts a piece completes. -/
def glued (nl : α → Bool) (h chunk : List α) : List (List α) := glueHead h (closedFrom nl [] chunk)

/-- The text of the line that is open after a piece. -/
def pend (nl : α → Bool) (h chunk : List α) : List α :=
  if (closedFrom nl [] chunk).isEmpty then h ++ openFrom nl [] chunk else openFrom nl [] chunk

/-- **One piece**: its complete lines are dispatched, the first behind the held text. -/
theorem tokenLoop_piece {h chunk : List α} (hc : chunk ≠ []) (hz : ∀ b ∈ chunk, z b = false)
    (hlen : chunk.length ≤ stringSize)
    (hshort : ∀ x ∈ glued nl h chunk, x.length ≤ stringSize * 3 - 1)
    (hroom : (heldBy nl h chunk).length < responseSize) :
    tokenLoop record (messageEnd nl chunk) h (tokens nl (cstrBy z chunk)) []
      = some (heldBy nl h chunk, glued nl h chunk) := by
  have hhead := analyzeHead_eq hshort
  have hend : messageEnd nl chunk = true ↔ openFrom nl [] chunk = [] := messageEnd_iff hc []
  rw [cstrBy_eq_self hz, tokenLoop_record]
  cases he : messageEnd nl chunk with
  | true =>
    have hopen := hend.mp he
    rw [tokens_eq, hopen, pending_nil, List.append_nil]
    cases hk : closedFrom nl [] chunk with
    | nil => simp [heldBy, glued, hk, hopen, glueHead]
    | cons x xs =>
      rw [hk] at hhead
      rw [List.getLast?_eq_getLast_of_ne_nil (by simp)]
      cases xs with
      | nil => simp [heldBy, glued, hk, hopen, hhead, heldAtLast]
      | cons y ys => simp [heldBy, glued, hk, hopen, hhead, heldAtLast]
  | false =>
    have hopen : openFrom nl [] chunk ≠ [] := by
      intro h
      rw [hend.mpr h] at he
      exact Bool.noConfusion he
    have hopenLen : (openFrom nl [] chunk).length ≤ stringSize := by
      have hmem : openFrom nl [] chunk ∈ tokens nl (cstrBy z chunk) := by
        rw [cstrBy_eq_self hz, tokens_eq_open hc he]
        simp
      exact (length_token_le hmem).trans hlen
    have hheld : heldAtLast h (closedFrom nl [] chunk ++ [openFrom nl [] chunk])
        ++ openFrom nl [] chunk = heldBy nl h chunk := by
      rw [heldBy]
      rcases closedFrom nl [] chunk with _ | ⟨x, _ | ⟨y, ys⟩⟩
      · rfl
      · simp [heldAtLast, hopen]
      · simp [heldAtLast]
    rw [tokens_eq_open hc he, List.getLast?_concat, List.dropLast_concat]
    simp only [Bool.false_eq_true, if_false, List.nil_append]
    rw [holdToken, List.take_of_length_le hopenLen, hheld, if_pos hroom, hhead]
    rfl

theorem frames_piece {h chunk : List α} (hc : chunk ≠ []) (hz : ∀ b ∈ chunk, z b = false)
    (hlen : chunk.length ≤ stringSize)
    (hshort : ∀ x ∈ glued nl h chunk, x.length ≤ stringSize * 3 - 1)
    (hroom : (heldBy nl h chunk).length < responseSize) (chunks : List (List α)) :
    frames nl z h (chunk :: chunks)
      = (frames nl z (heldBy nl h chunk) chunks).map fun r => (r.1, glued nl h chunk ++ r.2) := by
  rw [frames_cons, tokenLoop_piece hc hz hlen hshort hroom, Option.bind_some]

/-- However the loop goes, it dispatches as many texts as the pieces close lines. -/
theorem length_frames {chunks : List (List α)} (hc : ∀ chunk ∈ chunks, chunk ≠ [])
    (hz : ∀ chunk ∈ chunks, ∀ b ∈ chunk, z b = false) {h held : List α} {out : List (List α)}
    (hrun : frames nl z h chunks = some (held, out)) : out.length = closings nl chunks := by
  induction chunks generalizing h held out with
  | nil =>
    rw [frames, recvLoop, Option.some.injEq, Prod.mk.injEq] at hrun
    rw [← hrun.2]
    rfl
  | cons chunk chunks ih =>
    rw [frames_cons] at hrun
    obtain ⟨⟨held₁, out₁⟩, hrun₁, hrest⟩ := Option.bind_eq_some_iff.mp hrun
    obtain ⟨⟨held₂, out₂⟩, hrun₂, heq⟩ := Option.map_eq_some_iff.mp hrest
    have hrec := ih (fun c h => hc c (by simp [h])) (fun c h => hz c (by simp [h])) hrun₂
    have hone : out₁.length = (closedFrom nl [] chunk).length := by
      have hne := hc chunk (by simp)
      rw [cstrBy_eq_self (hz chunk (by simp)), tokenLoop_record] at hrun₁
      have hhead (toks : List (List α)) : (analyzeHead h toks).length = toks.length := by
        cases toks <;> rfl
      cases he : messageEnd nl chunk with
      | true =>
        have hopen := (messageEnd_iff hne []).mp he
        rw [tokens_eq, hopen, pending_nil, List.append_nil] at hrun₁
        cases hlast : (closedFrom nl [] chunk).getLast? with
        | none =>
          rw [hlast, Option.some.injEq, Prod.mk.injEq] at hrun₁
          rw [← hrun₁.2, List.getLast?_eq_none_iff.mp hlast]
        | some x =>
          simp only [hlast, he, if_true, Option.some.injEq, Prod.mk.injEq, List.nil_append] at hrun₁
          rw [← hrun₁.2, hhead]
      | false =>
        rw [tokens_eq_open hne he, List.getLast?_concat, List.dropLast_concat] at hrun₁
        simp only [he, Bool.false_eq_true, if_false, List.nil_append, Option.map_eq_some_iff,
          Prod.mk.injEq] at hrun₁
        obtain ⟨_, _, _, hout⟩ := hrun₁
        rw [← hout, hhead]
    rw [Prod.mk.injEq] at heq
    rw [← heq.2, List.length_append, hone, hrec]
    simp [closings]

end Piece

/-! ### Following the text from state to state -/

/-- The loop from the state `(h, pre)` over the rest `r` of the text. -/
def framesFrom (h pre r : Text) : Option (Text × List Text) :=
  frames isNewline isNul h (piecesFrom recvSize pre r)

/-- Reading `s` leads from `(h, pre)` to `(h', pre')` and completes the texts `out`.  Some of them
may be complete only in the current piece: the loop dispatches them when it has the whole piece. -/
def Reads (h pre s : Text) (out : List Text) (h' pre' : Text) : Prop :=
  ∃ o, o ++ glued isNewline h' pre' = glued isNewline h pre ++ out
    ∧ ∀ r, framesFrom h pre (s ++ r) = (framesFrom h' pre' r).map fun x => (x.1, o ++ x.2)

theorem Reads.trans {h pre s h₁ pre₁ s' h₂ pre₂ : Text} {out out' : List Text}
    (hfst : Reads h pre s out h₁ pre₁) (hsnd : Reads h₁ pre₁ s' out' h₂ pre₂) :
    Reads h pre (s ++ s') (out ++ out') h₂ pre₂ := by
  obtain ⟨o, ho, hrun⟩ := hfst
  obtain ⟨o', ho', hrun'⟩ := hsnd
  refine ⟨o ++ o', ?_, ?_⟩
  · rw [List.append_assoc, ho', ← List.append_assoc, ho, List.append_assoc]
  · intro r
    rw [List.append_assoc, hrun, hrun', Option.map_map]
    simp [Function.comp_def]

/-- Reading on inside the piece. -/
theorem reads_within {h pre s : Text} (hroom : pre.length + s.length < recvSize) {out : List Text}
    (hout : glued isNewline h (pre ++ s) = glued isNewline h pre ++ out) :
    Reads h pre s out h (pre ++ s) := by
  refine ⟨[], by rw [List.nil_append, hout], ?_⟩
  intro r
  rw [framesFrom, framesFrom, piecesFrom_read hroom]
  simp

/-- The bytes of a state and the texts it has completed are no longer than a piece and a line. -/
structure Bounded (h pre : Text) : Prop where
  nulFree : ∀ b ∈ pre, isNul b = false
  short : ∀ x ∈ glued isNewline h pre, x.length ≤ stringSize * 3 - 1

theorem glued_nil (h : Text) : glued isNewline h [] = [] := rfl

theorem nulFree_newline {pre : Text} (h : ∀ b ∈ pre, isNul b = false) :
    ∀ b ∈ pre ++ [newline], isNul b = false := by
  intro b hb
  rcases List.mem_append.mp hb with hb | hb
  · exact h b hb
  · rw [List.mem_singleton.mp hb]
    rfl

/-- Reading to the end of the piece. -/
theorem reads_fill {h pre s : Text} (hfull : pre.length + s.length = recvSize) (hs : s ≠ [])
    {out : List Text} (hout : glued isNewline h (pre ++ s) = glued isNewline h pre ++ out)
    (hb : Bounded h (pre ++ s)) (hheld : (heldBy isNewline h (pre ++ s)).length < responseSize) :
    Reads h pre s out (heldBy isNewline h (pre ++ s)) [] := by
  refine ⟨glued isNewline h (pre ++ s), by rw [glued_nil, List.append_nil, hout], ?_⟩
  intro r
  have hlen : (pre ++ s).length ≤ stringSize := by
    rw [List.length_append, hfull]
    decide
  rw [framesFrom, framesFrom, piecesFrom_fill hfull hs,
    frames_piece (by simp [hs]) hb.nulFree hlen hb.short hheld]

/-- A run inside a line completes nothing. -/
theorem glued_run {pre run : Text} (hrun : ∀ b ∈ run, isNewline b = false) (h : Text) :
    glued isNewline h (pre ++ run) = glued isNewline h pre := by
  rw [glued, glued, closedFrom_append, closedFrom_free hrun, List.append_nil]

theorem pend_run {pre run : Text} (hrun : ∀ b ∈ run, isNewline b = false) (h : Text) :
    pend isNewline h (pre ++ run) = pend isNewline h pre ++ run := by
  rw [pend, pend, closedFrom_append, closedFrom_free hrun, List.append_nil, openFrom_append,
    openFrom_free hrun]
  split
  · rw [List.append_assoc]
  · rfl

/-- A line that is open when the piece ends is held. -/
theorem heldBy_of_open {h chunk : Text} (hopen : openFrom isNewline [] chunk ≠ []) :
    heldBy isNewline h chunk = pend isNewline h chunk := by
  rw [heldBy, pend]
  match closedFrom isNewline [] chunk with
  | [] => rfl
  | [_] => simp [hopen]
  | _ :: _ :: _ => simp

theorem pend_nil (h : Text) : pend isNewline h [] = h := by simp [pend, closedFrom, openFrom]

theorem isNewline_newline : isNewline newline = true := rfl

/-- A newline completes the open line. -/
theorem glued_newline {pre : Text} (hopen : openFrom isNewline [] pre ≠ []) (h : Text) :
    glued isNewline h (pre ++ [newline])
      = glued isNewline h pre ++ [pend isNewline h pre] := by
  rw [glued, glued, closedFrom_append, closedFrom_cons_delim isNewline_newline, pending_of_ne_nil hopen, pend]
  cases closedFrom isNewline [] pre with
  | nil => rfl
  | cons x xs => simp [glueHead, closedFrom]

theorem open_newline (pre : Text) : openFrom isNewline [] (pre ++ [newline]) = [] := by
  rw [openFrom_concat, if_pos isNewline_newline]

theorem closed_newline {pre : Text} (hopen : openFrom isNewline [] pre ≠ []) :
    closedFrom isNewline [] (pre ++ [newline])
      = closedFrom isNewline [] pre ++ [openFrom isNewline [] pre] := by
  rw [closedFrom_append, closedFrom_cons_delim isNewline_newline, pending_of_ne_nil hopen]
  simp [closedFrom]

/-! ### Lines -/

/-- A line as the servers write them: not empty, no newline and no NUL in it, and short. -/
structure IsLine (line : Text) : Prop where
  ne_nil : line ≠ []
  free : ∀ b ∈ line, isNewline b = false
  nulFree : ∀ b ∈ line, isNul b = false
  short : line.length ≤ lineBound

/-- **Reading inside a line** only lengthens its text, across any number of pieces. -/
theorem reads_run {h pre run : Text} (hpre : pre.length < recvSize) (hb : Bounded h pre)
    (hfree : ∀ b ∈ run, isNewline b = false) (hnul : ∀ b ∈ run, isNul b = false)
    (hlen : (pend isNewline h pre).length + run.length ≤ stringSize * 3 - 1) :
    ∃ h' pre', Reads h pre run [] h' pre' ∧ Bounded h' pre'
      ∧ pre'.length = (pre.length + run.length) % recvSize
      ∧ ((pre.length + run.length < recvSize ∧ h' = h ∧ pre' = pre ++ run)
        ∨ (recvSize ≤ pre.length + run.length ∧ (∀ b ∈ pre', isNewline b = false)
          ∧ h' ++ pre' = pend isNewline h pre ++ run)) := by
  induction hn : run.length using Nat.strong_induction_on generalizing h pre run with
  | _ n ih =>
    subst hn
    have hbounded {s : Text} (hs : ∀ b ∈ s, b ∈ run) : Bounded h (pre ++ s) := by
      constructor
      · intro b hb'
        rcases List.mem_append.mp hb' with hb' | hb'
        · exact hb.nulFree b hb'
        · exact hnul b (hs b hb')
      · rw [glued_run fun b hb' => hfree b (hs b hb')]
        exact hb.short
    rcases Nat.lt_or_ge (pre.length + run.length) recvSize with hlt | hge
    · refine ⟨h, pre ++ run, reads_within hlt ?_, hbounded fun _ => id, ?_, Or.inl ⟨hlt, rfl, rfl⟩⟩
      · rw [glued_run hfree, List.append_nil]
      · rw [List.length_append, Nat.mod_eq_of_lt hlt]
    · -- The run fills the piece: the open line is held, and the rest of the run is read after it.
      obtain ⟨s, t, rfl, hs⟩ : ∃ s t, run = s ++ t ∧ pre.length + s.length = recvSize := by
        refine ⟨run.take (recvSize - pre.length), run.drop (recvSize - pre.length),
          (List.take_append_drop _ _).symm, ?_⟩
        rw [List.length_take]
        omega
      have hfree' : ∀ b ∈ s, isNewline b = false := fun b hb' => hfree b (by simp [hb'])
      have hsne : s ≠ [] := by
        rw [← List.length_pos_iff]
        omega
      have hopen : openFrom isNewline [] (pre ++ s) ≠ [] := by
        rw [openFrom_append, openFrom_free hfree']
        simp [hsne]
      have hheld : heldBy isNewline h (pre ++ s) = pend isNewline h pre ++ s := by
        rw [heldBy_of_open hopen, pend_run hfree']
      have hroom : (heldBy isNewline h (pre ++ s)).length < responseSize := by
        rw [hheld, List.length_append]
        rw [List.length_append, stringSize] at hlen
        rw [responseSize]
        omega
      have hfill : Reads h pre s [] (heldBy isNewline h (pre ++ s)) [] :=
        reads_fill hs hsne (by rw [glued_run hfree', List.append_nil])
          (hbounded fun b hb' => by simp [hb']) hroom
      rw [hheld] at hfill
      rw [List.length_append] at hlen hge ⊢
      have hshorter : t.length < (s ++ t).length := by
        have := List.length_pos_iff.mpr hsne
        rw [List.length_append]
        omega
      obtain ⟨h', pre', hreads, hb', hused, hcase⟩ :=
        @ih t.length hshorter (pend isNewline h pre ++ s) [] t (by decide)
          ⟨by simp, by simp [glued_nil]⟩ (fun b hb' => hfree b (by simp [hb']))
          (fun b hb' => hnul b (by simp [hb']))
          (by rw [pend_nil, List.length_append]; omega) rfl
      refine ⟨h', pre', hfill.trans hreads, hb', ?_, Or.inr ⟨hge, ?_⟩⟩
      · rw [hused, List.length_nil, ← Nat.add_assoc, hs, Nat.add_mod_left, Nat.zero_add]
      · rcases hcase with ⟨_, rfl, rfl⟩ | ⟨_, hfree₂, heq⟩
        · refine ⟨fun b hb' => hfree b (by simpa using Or.inr hb'), ?_⟩
          exact List.append_assoc _ _ _
        · refine ⟨hfree₂, ?_⟩
          rw [heq, pend_nil, List.append_assoc]

/-- What a line at offset `off` leaves in `to_hold`.  If its newline ends a piece that begins inside
it, the part of it before that piece stays held, behind what was held before. -/
def leftover (off : ℕ) (stale line : Text) : Text :=
  if (off + line.length) % recvSize = recvSize - 1 then stale ++ line.take (line.length - (recvSize - 1))
  else []

/-- The texts dispatched for lines from offset `off`, with `stale` in `to_hold`. -/
def dispatched : ℕ → Text → List Text → List Text
  | _, _, [] => []
  | off, stale, line :: lines =>
      (stale ++ line) :: dispatched (off + line.length + 1) (leftover off stale line) lines

/-- No newline opens a piece. -/
def offEdge : ℕ → List Text → Bool
  | _, [] => true
  | off, line :: lines =>
      (off + line.length) % recvSize != 0 && offEdge (off + line.length + 1) lines

/-- The state in which a line begins at offset `off`: `stale` is glued to it. -/
structure LineStart (off : ℕ) (stale h pre : Text) : Prop where
  bounded : Bounded h pre
  used : pre.length = off % recvSize
  openNil : openFrom isNewline [] pre = []
  atStart : pre = [] → h = stale
  inside : pre ≠ [] → stale = [] ∧ closedFrom isNewline [] pre ≠ []
  /-- Stale text is a few bytes, and only a piece that begins with a line finds it. -/
  staleLen : stale.length ≤ lineBound - (recvSize - 1)

theorem LineStart.pend_eq {off : ℕ} {stale h pre : Text} (hs : LineStart off stale h pre) :
    pend isNewline h pre = stale := by
  rw [pend, hs.openNil]
  by_cases hpre : pre = []
  · subst hpre
    simpa [closedFrom] using hs.atStart rfl
  · obtain ⟨hstale, hclosed⟩ := hs.inside hpre
    rw [if_neg (by simpa using hclosed), hstale]

/-- A newline completes a text of bounded length. -/
theorem Bounded.newline {h pre : Text} (hb : Bounded h pre)
    (hopen : openFrom isNewline [] pre ≠ [])
    (hpend : (pend isNewline h pre).length ≤ stringSize * 3 - 1) :
    Bounded h (pre ++ [newline]) := by
  refine ⟨nulFree_newline hb.nulFree, ?_⟩
  intro x hx
  rw [glued_newline hopen, List.mem_append, List.mem_singleton] at hx
  rcases hx with hx | rfl
  · exact hb.short x hx
  · exact hpend

/-- The newline of a line, read inside a piece. -/
theorem reads_newline {h pre : Text} (hb : Bounded h pre) (hopen : openFrom isNewline [] pre ≠ [])
    (hpend : (pend isNewline h pre).length ≤ stringSize * 3 - 1)
    (hroom : pre.length + 1 < recvSize) :
    Reads h pre [newline] [pend isNewline h pre] h (pre ++ [newline])
      ∧ Bounded h (pre ++ [newline]) := by
  exact ⟨reads_within (by simpa using hroom) (glued_newline hopen h), hb.newline hopen hpend⟩

/-- The newline of a line, read as the last byte of a piece: a line that is alone in it leaves
`to_hold` as it was before the piece. -/
theorem reads_newline_fill {h pre : Text} (hb : Bounded h pre)
    (hopen : openFrom isNewline [] pre ≠ [])
    (hpend : (pend isNewline h pre).length ≤ stringSize * 3 - 1)
    (hfull : pre.length + 1 = recvSize) :
    Reads h pre [newline] [pend isNewline h pre]
      (if closedFrom isNewline [] pre = [] then h else []) [] := by
  have hheld : heldBy isNewline h (pre ++ [newline])
      = if closedFrom isNewline [] pre = [] then h else [] := by
    rw [heldBy, closed_newline hopen, open_newline]
    match closedFrom isNewline [] pre with
    | [] => rfl
    | [_] => rfl
    | _ :: _ :: _ => rfl
  rw [← hheld]
  refine reads_fill (by simpa using hfull) (by simp) (glued_newline hopen h)
    (hb.newline hopen hpend) ?_
  rw [hheld]
  split
  · rename_i hclosed
    have hnil : ([] : List Text).isEmpty = true := rfl
    rw [pend, hclosed, if_pos hnil, List.length_append, stringSize] at hpend
    rw [responseSize]
    omega
  · decide

/-- What a line that ends its piece leaves in `to_hold`, in the two ways `reads_run` reads it. -/
theorem held_leftover {off : ℕ} {stale h pre line h₁ pre₁ : Text} (hs : LineStart off stale h pre)
    (hshort : line.length ≤ lineBound) (hfree : ∀ b ∈ line, isNewline b = false)
    (hcase : (pre.length + line.length < recvSize ∧ h₁ = h ∧ pre₁ = pre ++ line)
      ∨ (recvSize ≤ pre.length + line.length ∧ (∀ b ∈ pre₁, isNewline b = false)
        ∧ h₁ ++ pre₁ = pend isNewline h pre ++ line))
    (hfull : pre₁.length = recvSize - 1) (hlast : (off + line.length) % recvSize = recvSize - 1) :
    (if closedFrom isNewline [] pre₁ = [] then h₁ else []) = leftover off stale line
      ∧ (leftover off stale line).length ≤ lineBound - (recvSize - 1) := by
  have hused := hs.used
  have hstale := hs.staleLen
  rw [leftover, if_pos hlast]
  simp only [recvSize, lineBound] at hshort hcase hfull hlast hused hstale ⊢
  rcases hcase with ⟨_, rfl, rfl⟩ | ⟨hcross, hfree₁, heq⟩
  · rw [closedFrom_append, closedFrom_free hfree, List.append_nil]
    rw [List.length_append] at hfull
    have hzero : line.length - (140 - 1) = 0 := by omega
    rw [hzero, List.take_zero, List.append_nil]
    refine ⟨?_, hstale⟩
    by_cases hpre : pre = []
    · subst hpre
      simpa [closedFrom] using hs.atStart rfl
    · obtain ⟨hnil, hclosed⟩ := hs.inside hpre
      rw [if_neg hclosed, hnil]
  · -- The line began before its last piece, so nothing stale came before it.
    have hnil : stale = [] := by
      by_contra hne
      have hpre : pre.length = 0 := by
        by_contra hpos
        exact hne (hs.inside (by rintro rfl; simp at hpos)).1
      omega
    rw [hs.pend_eq, hnil, List.nil_append] at heq
    have htake : h₁ = line.take (line.length - (140 - 1)) := by
      rw [← heq, List.take_left' (by rw [List.length_append]; omega)]
    rw [closedFrom_free hfree₁, if_pos rfl, hnil, List.nil_append]
    refine ⟨htake, ?_⟩
    rw [List.length_take]
    omega

/-- **One line**: completed behind the stale text, and leaving its own. -/
theorem reads_line {off : ℕ} {stale h pre line : Text} (hs : LineStart off stale h pre)
    (hline : IsLine line) (hedge : (off + line.length) % recvSize ≠ 0) :
    ∃ h' pre', Reads h pre (line ++ [newline]) [stale ++ line] h' pre'
      ∧ LineStart (off + line.length + 1) (leftover off stale line) h' pre' := by
  have hpre : pre.length < recvSize := by
    rw [hs.used]
    exact Nat.mod_lt _ (by decide)
  have hstale := hs.staleLen
  have hshort := hline.short
  have hpos := List.length_pos_iff.mpr hline.ne_nil
  have hlen : (pend isNewline h pre).length + line.length ≤ stringSize * 3 - 1 := by
    rw [hs.pend_eq]
    rw [lineBound, recvSize] at hstale
    rw [lineBound] at hshort
    rw [stringSize]
    omega
  obtain ⟨h₁, pre₁, hreads, hb₁, hused, hcase⟩ :=
    reads_run hpre hs.bounded hline.free hline.nulFree hlen
  have hused' : pre₁.length = (off + line.length) % recvSize := by
    rw [hused, hs.used, Nat.mod_add_mod]
  have hopen : openFrom isNewline [] pre₁ ≠ [] := by
    rcases hcase with ⟨_, _, rfl⟩ | ⟨_, hfree, _⟩
    · rw [openFrom_append, hs.openNil, openFrom_free hline.free]
      exact hline.ne_nil
    · rw [openFrom_free hfree, List.nil_append, ← List.length_pos_iff]
      omega
  have hpend : pend isNewline h₁ pre₁ = stale ++ line := by
    rcases hcase with ⟨_, rfl, rfl⟩ | ⟨_, hfree, heq⟩
    · rw [pend_run hline.free, hs.pend_eq]
    · rw [pend, closedFrom_free hfree, openFrom_free hfree, List.nil_append]
      exact heq.trans (by rw [hs.pend_eq])
  have hpendLen : (pend isNewline h₁ pre₁).length ≤ stringSize * 3 - 1 := by
    rw [hpend, List.length_append, ← hs.pend_eq]
    exact hlen
  rw [← hpend]
  rcases Nat.lt_or_ge (pre₁.length + 1) recvSize with hroom | hfull
  · obtain ⟨hnewline, hb₂⟩ := reads_newline hb₁ hopen hpendLen hroom
    have hleft : leftover off stale line = [] := by
      rw [leftover, if_neg]
      omega
    rw [hleft]
    refine ⟨h₁, pre₁ ++ [newline], hreads.trans hnewline, hb₂, ?_, open_newline pre₁, ?_, ?_, ?_⟩
    · rw [List.length_append, List.length_singleton, hused']
      rw [hused'] at hroom
      rw [recvSize] at hroom ⊢
      omega
    · intro h
      simp at h
    · intro _
      refine ⟨rfl, ?_⟩
      rw [closed_newline hopen]
      simp
    · exact Nat.zero_le _
  · have hlast : (off + line.length) % recvSize = recvSize - 1 := by
      have := Nat.mod_lt (off + line.length) (show 0 < recvSize by decide)
      omega
    have hfill := reads_newline_fill hb₁ hopen hpendLen (by omega)
    obtain ⟨hleft, hleftLen⟩ := held_leftover hs hshort hline.free hcase (by omega) hlast
    rw [hleft] at hfill
    refine ⟨_, [], hreads.trans hfill, ⟨by simp, by simp [glued_nil]⟩, ?_, rfl, fun _ => rfl, ?_,
      hleftLen⟩
    · rw [recvSize] at hlast ⊢
      rw [List.length_nil]
      omega
    · intro h
      exact absurd rfl h

/-- Line after line. -/
theorem reads_lines {lines : List Text} (hlines : ∀ line ∈ lines, IsLine line) {off : ℕ}
    {stale h pre : Text} (hs : LineStart off stale h pre) (hedge : offEdge off lines = true) :
    ∃ h' pre' off' stale', Reads h pre (linesText lines) (dispatched off stale lines) h' pre'
      ∧ LineStart off' stale' h' pre' := by
  induction lines generalizing off stale h pre with
  | nil => exact ⟨h, pre, off, stale, ⟨[], by simp [dispatched], fun r => by simp [linesText]⟩, hs⟩
  | cons line lines ih =>
    rw [offEdge, Bool.and_eq_true, bne_iff_ne] at hedge
    obtain ⟨h₁, pre₁, hline, hs₁⟩ := reads_line hs (hlines line (by simp)) hedge.1
    obtain ⟨h₂, pre₂, off₂, stale₂, hrest, hs₂⟩ :=
      ih (fun l hl => hlines l (by simp [hl])) hs₁ hedge.2
    refine ⟨h₂, pre₂, off₂, stale₂, ?_, hs₂⟩
    rw [linesText, List.flatMap_cons]
    exact hline.trans hrest

/-- A first completed text bounds the held text in front of it. -/
theorem LineStart.held_lt {off : ℕ} {stale h pre : Text} (hs : LineStart off stale h pre) :
    h.length < responseSize := by
  by_cases hpre : pre = []
  · have hstale := hs.staleLen
    rw [hs.atStart hpre, responseSize]
    rw [lineBound] at hstale
    omega
  · have hshort := hs.bounded.short
    obtain ⟨x, xs, hclosed⟩ := List.exists_cons_of_ne_nil (hs.inside hpre).2
    have hx := hshort (h ++ x) (by simp [glued, hclosed, glueHead])
    rw [List.length_append, stringSize] at hx
    rw [responseSize]
    omega

/-- A last piece in which no line is open: nothing but the texts it completes comes of it. -/
theorem frames_last {h chunk : Text} (hc : chunk ≠ []) (hlen : chunk.length ≤ stringSize)
    (hb : Bounded h chunk) (hopen : openFrom isNewline [] chunk = []) (hh : h.length < responseSize) :
    ∃ held, frames isNewline isNul h [chunk] = some (held, glued isNewline h chunk) := by
  have hheld : (heldBy isNewline h chunk).length < responseSize := by
    rw [heldBy, hopen]
    match closedFrom isNewline [] chunk with
    | [] => simpa using hh
    | [_] => exact hh
    | _ :: _ :: _ =>
      show 0 < responseSize
      decide
  refine ⟨heldBy isNewline h chunk, ?_⟩
  rw [frames_piece hc hb.nulFree hlen hb.short hheld]
  simp [frames, recvLoop]

/-- The end of the text: no line is open, and a blank line adds nothing. -/
theorem frames_end {off : ℕ} {stale h pre : Text} (hs : LineStart off stale h pre) (blank : Bool) :
    ∃ held, framesFrom h pre (if blank then [newline] else [])
      = some (held, glued isNewline h pre) := by
  have hpre : pre.length < recvSize := by
    rw [hs.used]
    exact Nat.mod_lt _ (by decide)
  have hstring : stringSize = recvSize + 1 := rfl
  cases blank with
  | false =>
    by_cases hnil : pre = []
    · subst hnil
      exact ⟨h, rfl⟩
    · have hpieces : piecesFrom recvSize pre [] = [pre] := by simp [piecesFrom, hnil]
      rw [framesFrom, if_neg (by simp), hpieces]
      exact frames_last hnil (by omega) hs.bounded hs.openNil hs.held_lt
  | true =>
    have hpieces : piecesFrom recvSize pre [newline] = [pre ++ [newline]] := by
      rw [piecesFrom]
      split <;> simp [piecesFrom]
    have hglued : glued isNewline h (pre ++ [newline]) = glued isNewline h pre := by
      rw [glued, glued, closedFrom_append, hs.openNil]
      simp [closedFrom, isNewline_newline]
    rw [framesFrom, if_pos rfl, hpieces, ← hglued]
    refine frames_last (by simp) ?_ ⟨nulFree_newline hs.bounded.nulFree, ?_⟩ (open_newline pre)
      hs.held_lt
    · rw [List.length_append, List.length_singleton]
      omega
    · rw [hglued]
      exact hs.bounded.short

/-- **The texts dispatched for a whole list of lines**, with or without a blank line behind them. -/
theorem frames_lines {lines : List Text} (hlines : ∀ line ∈ lines, IsLine line)
    (hedge : offEdge 0 lines = true) (blank : Bool) :
    ∃ held, frames isNewline isNul []
        (pieces recvSize (linesText lines ++ if blank then [newline] else []))
      = some (held, dispatched 0 [] lines) := by
  have hstart : LineStart 0 [] [] [] :=
    ⟨⟨by simp, by simp [glued_nil]⟩, rfl, rfl, fun _ => rfl, fun h => absurd rfl h, by simp⟩
  obtain ⟨h, pre, off, stale, ⟨o, ho, hrun⟩, hs⟩ := reads_lines hlines hstart hedge
  rw [glued_nil, List.nil_append] at ho
  obtain ⟨held, hheld⟩ := frames_end hs blank
  have hall := hrun (if blank then [newline] else [])
  rw [hheld, Option.map_some, ho] at hall
  exact ⟨held, hall⟩

/-! ### A newline that opens a piece -/

theorem closedFrom_linesText {lines : List Text} (hlines : ∀ line ∈ lines, IsLine line) (r : Text) :
    closedFrom isNewline [] (linesText lines ++ r) = lines ++ closedFrom isNewline [] r := by
  induction lines with
  | nil => rfl
  | cons line lines ih =>
    have hline := hlines line (by simp)
    rw [linesText, List.flatMap_cons, List.append_assoc, List.append_assoc, closedFrom_append,
      closedFrom_free hline.free, openFrom_free hline.free, List.nil_append, List.nil_append,
      List.singleton_append, closedFrom_cons_delim isNewline_newline,
      pending_of_ne_nil hline.ne_nil, List.singleton_append, List.cons_append]
    exact congrArg (line :: ·) (ih fun l hl => hlines l (by simp [hl]))

theorem openFrom_linesText (lines : List Text) : openFrom isNewline [] (linesText lines) = [] := by
  rcases List.eq_nil_or_concat' lines with rfl | ⟨init, line, rfl⟩
  · rfl
  · rw [linesText, List.flatMap_append, List.flatMap_singleton, ← List.append_assoc,
      open_newline]

theorem exists_edge {off : ℕ} {lines : List Text} (h : offEdge off lines = false) :
    ∃ before line after, lines = before ++ line :: after
      ∧ (off + (linesText before ++ line).length) % recvSize = 0 := by
  induction lines generalizing off with
  | nil => simp [offEdge] at h
  | cons line lines ih =>
    rw [offEdge, Bool.and_eq_false_iff] at h
    rcases h with h | h
    · refine ⟨[], line, lines, rfl, ?_⟩
      simpa [linesText] using h
    · obtain ⟨before, line', after, rfl, hmod⟩ := ih h
      refine ⟨line :: before, line', after, rfl, ?_⟩
      rw [← hmod, linesText, linesText, List.flatMap_cons]
      simp only [List.length_append, List.length_singleton]
      congr 1
      omega

/-- **A newline that opens a piece is lost**: the pieces complete fewer lines than the text has. -/
theorem closings_lt_of_edge {lines : List Text} (hlines : ∀ line ∈ lines, IsLine line)
    (hedge : offEdge 0 lines = false) (blank : Bool) :
    closings isNewline (pieces recvSize (linesText lines ++ if blank then [newline] else []))
      < lines.length := by
  obtain ⟨before, line, after, rfl, hmod⟩ := exists_edge hedge
  rw [Nat.zero_add] at hmod
  obtain ⟨k, hk⟩ := Nat.dvd_of_mod_eq_zero hmod
  have hline := hlines line (by simp)
  have htext : linesText (before ++ line :: after) ++ (if blank then [newline] else [])
      = (linesText before ++ line)
        ++ newline :: (linesText after ++ if blank then [newline] else []) := by
    simp [linesText]
  have hall : (closedFrom isNewline [] (linesText (before ++ line :: after)
      ++ if blank then [newline] else [])).length = (before ++ line :: after).length := by
    rw [closedFrom_linesText hlines]
    cases blank with
    | false => simp [closedFrom]
    | true => simp [closedFrom, isNewline_newline]
  have hopen : openFrom isNewline [] (pieces recvSize (linesText before ++ line)).flatten ≠ [] := by
    rw [flatten_pieces, openFrom_append, openFrom_linesText, openFrom_free hline.free]
    exact hline.ne_nil
  rw [htext, pieces_append_cons (by decide) hk, ← hall, htext]
  have hlt := @closings_lt _ isNewline (pieces recvSize (linesText before ++ line))
    (pieces recvSize ((linesText after ++ if blank then [newline] else []).drop (recvSize - 1)))
    newline ((linesText after ++ if blank then [newline] else []).take (recvSize - 1))
    isNewline_newline hopen
  have hflat : (pieces recvSize (linesText before ++ line)
      ++ (newline :: (linesText after ++ if blank then [newline] else []).take (recvSize - 1))
        :: pieces recvSize
          ((linesText after ++ if blank then [newline] else []).drop (recvSize - 1))).flatten
      = (linesText before ++ line)
        ++ newline :: (linesText after ++ if blank then [newline] else []) := by
    rw [← pieces_append_cons (by decide) hk, flatten_pieces]
  rwa [hflat] at hlt

end TcpLines

end MessageBoard
