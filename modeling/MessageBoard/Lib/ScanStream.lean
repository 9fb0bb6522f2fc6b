import MessageBoard.Lib.CScan

/-!
# `scanf` on a stream of lines

`scanf` reads its directives from a stream and leaves the rest there; so does a call that fails.  A
program that reads a word with `%s`, something of the same line, and drops the rest of the line reads
its input line by line, where a line of white space is none: `inputLines`.

* `inputLines_eq` — the first line starts behind the white space, and the others behind its end;
* `scanInput_line` — **a word, and what does not go past a newline, are read from the first line**;
* `flushInput_eq` — dropping the rest of the line leaves what is behind its end.
-/

namespace MessageBoard.ScanStream

open CText CScan

/-! ### `scanf` -/

/-- What a directive that does not match leaves. -/
def leftBy : Directive → Text → Text
  | .word, s => s.dropWhile isSpace
  | .ushort, s => (splitSign (s.dropWhile isSpace)).2
  | _, s => s

/-- The fields `scanf` stores, and what it leaves of the stream. -/
def scanInput : List Directive → Text → List Field × Text
  | [], s => ([], s)
  | d :: ds, s =>
      match d.read s with
      | none => ([], leftBy d s)
      | some (fields, r) => (fields ++ (scanInput ds r).1, (scanInput ds r).2)

theorem scanInput_none {d : Directive} {s : Text} (h : d.read s = none) (ds : List Directive) :
    scanInput (d :: ds) s = ([], leftBy d s) ∧ scan (d :: ds) s = [] := by
  constructor
  · simp only [scanInput, h]
  · simp only [scan, h]

theorem scanInput_some {d : Directive} {s r : Text} {fields : List Field}
    (h : d.read s = some (fields, r)) (ds : List Directive) :
    scanInput (d :: ds) s = (fields ++ (scanInput ds r).1, (scanInput ds r).2)
      ∧ scan (d :: ds) s = fields ++ scan ds r := by
  constructor
  · simp only [scanInput, h]
  · simp only [scan, h]

/-- The rest of the line is read, with its newline. -/
def flushInput (s : Text) : Text := (s.dropWhile (· != newline)).drop 1

/-! ### Lines -/

/-- The lines of a stream, from their first byte that is no white space on. -/
def inputLines (s : Text) : List Text :=
  ((tokens (· == newline) s).map (·.dropWhile isSpace)).filter (· != [])

theorem ne_nil_of_mem_inputLines {s line : Text} (h : line ∈ inputLines s) : line ≠ [] := by
  simpa using (List.mem_filter.mp h).2

/-- Nothing more on the line: the stream ends, or a newline comes. -/
def AtBreak (tail : Text) : Prop := Stops (· != newline) tail

theorem atBreak_cases {tail : Text} (h : AtBreak tail) :
    tail = [] ∨ ∃ rest, tail = newline :: rest := by
  cases tail with
  | nil => exact Or.inl rfl
  | cons b rest =>
    refine Or.inr ⟨rest, ?_⟩
    have hb := h b (by simp)
    rw [bne_eq_false_iff_eq] at hb
    rw [hb]

theorem inputLines_cons_newline (s : Text) : inputLines (newline :: s) = inputLines s := by
  rw [inputLines, tokens_cons_delim (by decide), inputLines]

/-- A line and what is behind it. -/
theorem inputLines_append {l tail : Text} (hl : newline ∉ l) (htail : AtBreak tail) :
    inputLines (l ++ tail)
      = (if l.dropWhile isSpace = [] then [] else [l.dropWhile isSpace])
        ++ inputLines (tail.drop 1) := by
  have hfirst : ((tokens (· == newline) l).map (·.dropWhile isSpace)).filter (· != [])
      = if l.dropWhile isSpace = [] then [] else [l.dropWhile isSpace] := by
    by_cases hnil : l = []
    · subst hnil
      rfl
    · rw [tokens_free (beq_of_not_mem hl) hnil]
      by_cases hblank : l.dropWhile isSpace = [] <;> simp [hblank]
  rcases atBreak_cases htail with rfl | ⟨rest, rfl⟩
  · rw [List.append_nil, inputLines, hfirst]
    simp [inputLines, tokens, tokensFrom]
  · rw [inputLines, tokens_append_delim (by decide), List.map_append, List.filter_append, hfirst]
    rfl

/-- White space in front of a stream is on no line. -/
theorem inputLines_dropWhile (s : Text) : inputLines (s.dropWhile isSpace) = inputLines s := by
  induction s with
  | nil => rfl
  | cons b s ih =>
    rw [List.dropWhile_cons]
    split
    · rename_i hspace
      rw [ih]
      by_cases hb : b = newline
      · rw [hb, inputLines_cons_newline]
      · have hsplit := List.takeWhile_append_dropWhile (p := (· != newline)) (l := s)
        have hfree : newline ∉ s.takeWhile (· != newline) := by
          intro hmem
          have := List.mem_takeWhile_imp hmem
          simp at this
        have htail : AtBreak (s.dropWhile (· != newline)) := stops_dropWhile _ s
        rw [← hsplit, ← List.cons_append, inputLines_append hfree htail,
          inputLines_append (by simpa [Ne.symm hb] using hfree) htail, List.dropWhile_cons,
          if_pos hspace]
    · rfl

/-- **The first line** starts behind the white space, and the others behind its end. -/
theorem inputLines_eq {s l tail : Text} (hs : s.dropWhile isSpace = l ++ tail) (hl : newline ∉ l)
    (hne : l ≠ []) (htail : AtBreak tail) : inputLines s = l :: inputLines (tail.drop 1) := by
  have hstart : l.dropWhile isSpace = l := by
    obtain ⟨b, l, rfl⟩ := List.exists_cons_of_ne_nil hne
    have hb := stops_dropWhile isSpace s b (by rw [hs]; rfl)
    rw [List.dropWhile_cons, if_neg (by simp [hb])]
  rw [← inputLines_dropWhile, hs, inputLines_append hl htail, hstart, if_neg hne,
    List.singleton_append]

/-- The first line of a stream that has one. -/
theorem exists_line {s : Text} (h : s.dropWhile isSpace ≠ []) :
    ∃ l tail, s.dropWhile isSpace = l ++ tail ∧ newline ∉ l ∧ l ≠ [] ∧ AtBreak tail := by
  obtain ⟨b, r, hr⟩ := List.exists_cons_of_ne_nil h
  refine ⟨(s.dropWhile isSpace).takeWhile (· != newline), (s.dropWhile isSpace).dropWhile (· != newline),
    (List.takeWhile_append_dropWhile).symm, ?_, ?_, stops_dropWhile _ _⟩
  · intro hmem
    have := List.mem_takeWhile_imp hmem
    simp at this
  · have hb := stops_dropWhile isSpace s b (by rw [hr]; rfl)
    have hne : (b != newline) = true := by
      rw [bne_iff_ne]
      rintro rfl
      exact absurd hb (by decide)
    rw [hr, List.takeWhile_cons, if_pos hne]
    exact List.cons_ne_nil _ _

/-- A stream has no line exactly if it has nothing but white space. -/
theorem inputLines_eq_nil_iff {s : Text} : inputLines s = [] ↔ s.dropWhile isSpace = [] := by
  constructor
  · intro hnone
    by_contra hstream
    obtain ⟨l, tail, hs, hl, hne, htail⟩ := exists_line hstream
    rw [inputLines_eq hs hl hne htail] at hnone
    exact absurd hnone (List.cons_ne_nil _ _)
  · intro hblank
    rw [← inputLines_dropWhile, hblank]
    rfl

/-- A stream without a line leaves nothing to a word. -/
theorem scanInput_blank {s : Text} (h : s.dropWhile isSpace = []) (ds : List Directive) :
    scanInput (.word :: ds) s = ([], []) := by
  have hread : Directive.word.read s = none := by
    simp only [Directive.read, h]
    rfl
  rw [(scanInput_none hread ds).1, leftBy, h]

/-! ### Reading a line -/

/-- What is left of a line, and the next lines behind it. -/
def InLine (left tail : Text) : Prop := ∃ l, left = l ++ tail ∧ newline ∉ l

/-- **Dropping the rest of the line** leaves the other lines. -/
theorem flushInput_eq {left tail : Text} (h : InLine left tail) (htail : AtBreak tail) :
    flushInput left = tail.drop 1 := by
  obtain ⟨l, rfl, hl⟩ := h
  rw [flushInput, List.dropWhile_append_of_pos (bne_of_not_mem hl)]
  rcases atBreak_cases htail with rfl | ⟨rest, rfl⟩
  · rfl
  · rfl

theorem takeWhile_line {k : Byte → Bool} (hk : k newline = false) {l tail : Text}
    (htail : AtBreak tail) : (l ++ tail).takeWhile k = l.takeWhile k := by
  induction l with
  | nil =>
    rcases atBreak_cases htail with rfl | ⟨rest, rfl⟩
    · rfl
    · rw [List.nil_append, List.takeWhile_cons, if_neg (by simp [hk]), List.takeWhile_nil]
  | cons b l ih => rw [List.cons_append, List.takeWhile_cons, List.takeWhile_cons, ih]

/-- Scansets that do not have the newline. -/
def StaysInLine : Directive → Prop
  | .set k _ _ => k newline = false
  | _ => False

/-- **Scansets without the newline** read no more than the line. -/
theorem scanInput_sets {ds : List Directive} (hds : ∀ d ∈ ds, StaysInLine d) {l tail : Text}
    (hl : newline ∉ l) (htail : AtBreak tail) :
    (scanInput ds (l ++ tail)).1 = scan ds l ∧ InLine (scanInput ds (l ++ tail)).2 tail := by
  induction ds generalizing l with
  | nil => exact ⟨rfl, l, rfl, hl⟩
  | cons d ds ih =>
    have hrest := fun d hd => hds d (List.mem_cons_of_mem _ hd)
    have hd := hds d List.mem_cons_self
    cases d with
    | set k w store =>
      have hspan : spanWidth k w (l ++ tail) = spanWidth k w l := by
        cases w <;> simp only [spanWidth, takeWhile_line hd htail]
      have hle : (spanWidth k w l).length ≤ l.length := by
        have htake := (List.takeWhile_prefix (p := k) (l := l)).length_le
        cases w with
        | none => exact htake
        | some w =>
          rw [spanWidth, List.length_take]
          omega
      have hread : (Directive.set k w store).read (l ++ tail)
          = ((Directive.set k w store).read l).map fun p => (p.1, p.2 ++ tail) := by
        simp only [Directive.read, hspan]
        split
        · rfl
        · rw [List.drop_append_of_le_length hle, Option.map_some]
      cases hline : (Directive.set k w store).read l with
      | none =>
        rw [hline, Option.map_none] at hread
        rw [(scanInput_none hread ds).1, (scanInput_none hline ds).2]
        exact ⟨rfl, l, rfl, hl⟩
      | some p =>
        obtain ⟨fields, r⟩ := p
        rw [hline, Option.map_some] at hread
        rw [(scanInput_some hread ds).1, (scanInput_some hline ds).2]
        have hr : newline ∉ r := by
          simp only [Directive.read] at hline
          split at hline
          · simp at hline
          · obtain ⟨-, rfl⟩ := Prod.mk.inj (Option.some.inj hline)
            exact fun hmem => hl (List.mem_of_mem_drop hmem)
        obtain ⟨hfields, hleft⟩ := ih hrest hr
        exact ⟨by rw [hfields], hleft⟩
    | _ => exact absurd hd id

/-- **A word, and what does not go past a newline**, are read from the first line. -/
theorem scanInput_line {ds : List Directive} (hds : ∀ d ∈ ds, StaysInLine d) {s l tail : Text}
    (hs : s.dropWhile isSpace = l ++ tail) (hl : newline ∉ l) (htail : AtBreak tail) :
    (scanInput (.word :: ds) s).1 = scan (.word :: ds) l
      ∧ InLine (scanInput (.word :: ds) s).2 tail := by
  have hspace : isSpace newline = true := by decide
  have hline : l.dropWhile isSpace = l := by
    cases l with
    | nil => rfl
    | cons b l =>
      have hb := stops_dropWhile isSpace s b (by rw [hs]; rfl)
      rw [List.dropWhile_cons, if_neg (by simp [hb])]
  have htake : (l ++ tail).takeWhile (fun b => !isSpace b) = l.takeWhile fun b => !isSpace b :=
    takeWhile_line (by rw [hspace]; rfl) htail
  have hle : (l.takeWhile fun b => !isSpace b).length ≤ l.length :=
    (List.takeWhile_prefix _).length_le
  cases hread : Directive.word.read l with
  | none =>
    have hstream : Directive.word.read s = none := by
      simp only [Directive.read, hline] at hread
      simp only [Directive.read, hs, htake]
      split at hread
      · rename_i hempty
        rw [if_pos hempty]
      · simp at hread
    rw [(scanInput_none hstream ds).1, (scanInput_none hread ds).2, leftBy, hs]
    exact ⟨rfl, l, rfl, hl⟩
  | some p =>
    obtain ⟨fields, r⟩ := p
    have hstream : Directive.word.read s = some (fields, r ++ tail) := by
      simp only [Directive.read, hline] at hread
      simp only [Directive.read, hs, htake]
      split at hread
      · simp at hread
      · rename_i hempty
        obtain ⟨rfl, rfl⟩ := Prod.mk.inj (Option.some.inj hread)
        rw [if_neg hempty, List.drop_append_of_le_length hle]
    have hr : newline ∉ r := by
      simp only [Directive.read, hline] at hread
      split at hread
      · simp at hread
      · obtain ⟨-, rfl⟩ := Prod.mk.inj (Option.some.inj hread)
        exact fun hmem => hl (List.mem_of_mem_drop hmem)
    rw [(scanInput_some hstream ds).1, (scanInput_some hread ds).2]
    obtain ⟨hfields, hleft⟩ := scanInput_sets hds hr htail
    exact ⟨by rw [hfields], hleft⟩

end MessageBoard.ScanStream
