import Mathlib

/-!
# C strings and `strtok` as functions on lists

A C string is the list of its bytes without the closing NUL; a buffer is a list that may hold
a NUL, and `cstr` is the string a reader sees in it.  `tokens p` is what repeated calls of
`strtok` return: the maximal non-empty runs free of delimiters.  Splitting is generic in the
element type, so the same lemmas serve bytes and bytes tagged with their position in a stream.

* `tokensFrom_append_delim` — a delimiter cuts the token list in two;
* `flatten_tokens` — the tokens, concatenated, are the input without its delimiters;
* `tokens_eq_strtok` — repeated calls of `strtok` return the tokens;
* `tokens_map` — splitting commutes with a relabelling that respects the delimiters;
* `tokens_linesText`, `tokens_take_linesText` — a text of lines splits into its lines, also when it
  was cut.
-/

namespace MessageBoard.CText

/-- A byte of a C string. -/
abbrev Byte := UInt8

/-- A C string, without its closing NUL. -/
abbrev Text := List Byte

/-- The bytes of an ASCII literal. -/
def ascii (s : String) : Text := s.toList.map fun c => UInt8.ofNat c.toNat

def nul : Byte := 0

def newline : Byte := 10

def space : Byte := 32

def semicolon : Byte := 59

variable {α β : Type}

/-! ### The string in a buffer -/

/-- The part of a buffer a string function sees: everything before the first terminator. -/
def cstrBy (z : α → Bool) (buf : List α) : List α := buf.takeWhile fun b => !z b

/-- The C string held by a byte buffer. -/
def cstr (buf : Text) : Text := cstrBy (· == nul) buf

theorem cstrBy_eq_self {z : α → Bool} {buf : List α} (h : ∀ b ∈ buf, z b = false) :
    cstrBy z buf = buf := by
  rw [cstrBy, List.takeWhile_eq_self_iff]
  intro b hb
  simp [h b hb]

/-- A byte that does not occur, as the test the string functions make. -/
theorem beq_of_not_mem {b : Byte} {s : Text} (h : b ∉ s) : ∀ c ∈ s, (c == b) = false := by
  intro c hc
  rw [beq_eq_false_iff_ne]
  exact fun heq => h (heq ▸ hc)

theorem bne_of_not_mem {b : Byte} {s : Text} (h : b ∉ s) : ∀ c ∈ s, (c != b) = true := by
  intro c hc
  rw [bne_iff_ne]
  exact fun heq => h (heq ▸ hc)

theorem cstr_eq_self {buf : Text} (h : nul ∉ buf) : cstr buf = buf :=
  cstrBy_eq_self (beq_of_not_mem h)

theorem cstr_append_nul {s : Text} (h : nul ∉ s) (r : Text) : cstr (s ++ nul :: r) = s := by
  induction s with
  | nil => simp [cstr, cstrBy]
  | cons b s ih =>
    have hb : b ≠ nul := fun hz => h (by simp [hz])
    have hs : nul ∉ s := fun hz => h (by simp [hz])
    simpa [cstr, cstrBy, hb] using ih hs

/-- What is not visible starts with a terminator. -/
theorem cstrBy_split (z : α → Bool) (buf : List α) :
    cstrBy z buf = buf ∨ ∃ b r, z b = true ∧ buf = cstrBy z buf ++ b :: r := by
  induction buf with
  | nil => exact Or.inl rfl
  | cons a as ih =>
    by_cases ha : z a = true
    · exact Or.inr ⟨a, as, ha, by simp [cstrBy, ha]⟩
    · have hcons : cstrBy z (a :: as) = a :: cstrBy z as := by simp [cstrBy, ha]
      rcases ih with h | ⟨b, r, hb, h⟩
      · exact Or.inl (by rw [hcons, h])
      · exact Or.inr ⟨b, r, hb, by rw [hcons, List.cons_append, ← h]⟩

theorem cstrBy_map {z : α → Bool} {z' : β → Bool} {f : β → α} (hz : ∀ b, z (f b) = z' b)
    (buf : List β) : cstrBy z (buf.map f) = (cstrBy z' buf).map f := by
  induction buf with
  | nil => rfl
  | cons b bs ih =>
    by_cases hb : z' b = true
    · simp [cstrBy, hz, hb]
    · simpa [cstrBy, hz, hb] using ih

/-! ### Tokens -/

/-- The tokens of the input when the bytes `t` of the current token are already read. -/
def tokensFrom (p : α → Bool) : List α → List α → List (List α)
  | t, [] => if t.isEmpty then [] else [t]
  | t, b :: bs =>
      if p b then
        if t.isEmpty then tokensFrom p [] bs else t :: tokensFrom p [] bs
      else tokensFrom p (t ++ [b]) bs

/-- The tokens repeated calls of `strtok` return for the delimiters `p`. -/
def tokens (p : α → Bool) (s : List α) : List (List α) := tokensFrom p [] s

theorem tokensFrom_append_delim {p : α → Bool} {b : α} (hb : p b = true) (t s r : List α) :
    tokensFrom p t (s ++ b :: r) = tokensFrom p t s ++ tokens p r := by
  induction s generalizing t with
  | nil =>
    cases t with
    | nil => simp [tokensFrom, tokens, hb]
    | cons a as => simp [tokensFrom, tokens, hb]
  | cons a as ih =>
    rw [List.cons_append, tokensFrom, tokensFrom]
    split
    · split
      · exact ih []
      · rw [ih [], List.cons_append]
    · exact ih (t ++ [a])

theorem tokens_append_delim {p : α → Bool} {b : α} (hb : p b = true) (s r : List α) :
    tokens p (s ++ b :: r) = tokens p s ++ tokens p r :=
  tokensFrom_append_delim hb [] s r

theorem tokens_cons_delim {p : α → Bool} {b : α} (hb : p b = true) (s : List α) :
    tokens p (b :: s) = tokens p s := tokens_append_delim hb [] s

theorem tokens_concat_delim {p : α → Bool} {b : α} (hb : p b = true) (s : List α) :
    tokens p (s ++ [b]) = tokens p s := by
  rw [tokens_append_delim hb s []]
  simp [tokens, tokensFrom]

/-- A run free of delimiters is read into the current token. -/
theorem tokensFrom_free {p : α → Bool} {s : List α} (hs : ∀ b ∈ s, p b = false) (t r : List α) :
    tokensFrom p t (s ++ r) = tokensFrom p (t ++ s) r := by
  induction s generalizing t with
  | nil => simp
  | cons a as ih =>
    rw [List.cons_append, tokensFrom, if_neg (by simp [hs a (by simp)]),
      ih (fun b hb => hs b (by simp [hb])), List.append_assoc, List.singleton_append]

theorem tokens_free {p : α → Bool} {s : List α} (hs : ∀ b ∈ s, p b = false) (hne : s ≠ []) :
    tokens p s = [s] := by
  have h := tokensFrom_free hs [] []
  rw [List.append_nil, List.nil_append] at h
  rw [tokens, h, tokensFrom, if_neg (by simpa using hne)]

theorem flatten_tokensFrom (p : α → Bool) (t s : List α) :
    (tokensFrom p t s).flatten = t ++ s.filter fun b => !p b := by
  induction s generalizing t with
  | nil => cases t <;> simp [tokensFrom]
  | cons b bs ih =>
    rw [tokensFrom]
    by_cases hb : p b = true
    · cases t with
      | nil => simp [hb, ih]
      | cons a as => simp [hb, ih]
    · simp [hb, ih]

/-- The tokens, concatenated, are the input without its delimiters. -/
theorem flatten_tokens (p : α → Bool) (s : List α) :
    (tokens p s).flatten = s.filter fun b => !p b := flatten_tokensFrom p [] s

theorem mem_tokensFrom_ne_nil {p : α → Bool} {t s x : List α} (h : x ∈ tokensFrom p t s) :
    x ≠ [] := by
  induction s generalizing t with
  | nil =>
    rw [tokensFrom] at h
    split at h
    · simp at h
    · rename_i ht
      rw [List.mem_singleton] at h
      simpa [h] using ht
  | cons b bs ih =>
    rw [tokensFrom] at h
    split at h
    · split at h
      · exact ih h
      · rename_i ht
        rcases List.mem_cons.mp h with rfl | h
        · simpa using ht
        · exact ih h
    · exact ih h

theorem mem_tokens_ne_nil {p : α → Bool} {s x : List α} (h : x ∈ tokens p s) : x ≠ [] :=
  mem_tokensFrom_ne_nil h

theorem mem_tokens_free {p : α → Bool} {s x : List α} (h : x ∈ tokens p s) :
    ∀ b ∈ x, p b = false := by
  intro b hb
  have hmem : b ∈ (tokens p s).flatten := List.mem_flatten.mpr ⟨x, h, hb⟩
  rw [flatten_tokens, List.mem_filter] at hmem
  simpa using hmem.2

/-- One call of `strtok` on what it has not read yet: the next token and the rest behind it. -/
def strtok (p : α → Bool) (unread : List α) : Option (List α × List α) :=
  match unread.dropWhile p with
  | [] => none
  | b :: s => some (b :: s.takeWhile fun c => !p c, (s.dropWhile fun c => !p c).drop 1)

/-- **Repeated calls return the tokens.** -/
theorem tokens_eq_strtok (p : α → Bool) (s : List α) : tokens p s
    = match strtok p s with
      | none => []
      | some (token, unread) => token :: tokens p unread := by
  induction s with
  | nil => rfl
  | cons b s ih =>
    cases hb : p b with
    | true =>
      have hskip : strtok p (b :: s) = strtok p s := by
        rw [strtok, strtok, List.dropWhile_cons, if_pos hb]
      rw [tokens_cons_delim hb, hskip, ih]
    | false =>
      have hread : strtok p (b :: s)
          = some (b :: s.takeWhile fun c => !p c, (s.dropWhile fun c => !p c).drop 1) := by
        rw [strtok, List.dropWhile_cons, if_neg (by simp [hb])]
      have hfree : ∀ c ∈ b :: s.takeWhile fun c => !p c, p c = false := by
        intro c hc
        rcases List.mem_cons.mp hc with rfl | hc
        · exact hb
        · simpa using List.mem_takeWhile_imp hc
      have hsplit : b :: s = (b :: s.takeWhile fun c => !p c) ++ s.dropWhile fun c => !p c := by
        rw [List.cons_append, List.takeWhile_append_dropWhile]
      rw [hread, hsplit]
      cases hrest : s.dropWhile fun c => !p c with
      | nil =>
        rw [List.append_nil, tokens_free hfree (by simp)]
        rfl
      | cons d r =>
        have hd : p d = true := by
          have hhead := List.head_dropWhile_not (fun c => !p c) (l := s) (by simp [hrest])
          simpa [hrest] using hhead
        rw [tokens_append_delim hd, tokens_free hfree (by simp)]
        rfl

theorem tokens_eq_nil_iff {p : α → Bool} {s : List α} : tokens p s = [] ↔ ∀ b ∈ s, p b = true := by
  constructor
  · intro h b hb
    by_contra hne
    have hmem : b ∈ (tokens p s).flatten := by
      rw [flatten_tokens, List.mem_filter]
      exact ⟨hb, by simpa using hne⟩
    rw [h] at hmem
    simp at hmem
  · intro h
    by_contra hne
    obtain ⟨x, hx⟩ := List.exists_mem_of_ne_nil _ hne
    obtain ⟨b, hb⟩ := List.exists_mem_of_ne_nil x (mem_tokens_ne_nil hx)
    have hfree := mem_tokens_free hx b hb
    have hmem : b ∈ (tokens p s).flatten := List.mem_flatten.mpr ⟨x, hx, hb⟩
    rw [flatten_tokens] at hmem
    rw [h b (List.mem_of_mem_filter hmem)] at hfree
    simp at hfree

/-- An element that does not occur in a word does not complete it. -/
theorem infix_of_append_replicate {s d : List α} {x : α} {k : ℕ} (hx : x ∉ s)
    (h : s <:+: d ++ List.replicate k x) : s <:+: d := by
  have hall : ∀ {t : List α}, t <:+: List.replicate k x → (∀ b ∈ t, b ∈ s) → t = [] := by
    intro t ht hts
    apply List.eq_nil_iff_forall_not_mem.mpr
    intro b hb
    exact hx (List.eq_of_mem_replicate (ht.subset hb) ▸ hts b hb)
  rcases List.infix_append_iff.mp h with hd | hrep | ⟨s₁, s₂, hs, hsuffix, hprefix⟩
  · exact hd
  · exact hall hrep (fun b hb => hb) ▸ List.nil_infix
  · have hnil := hall hprefix.isInfix fun b hb => hs ▸ List.mem_append_right s₁ hb
    rw [hs, hnil, List.append_nil]
    exact hsuffix.isInfix

theorem tokensFrom_map {p : α → Bool} {q : β → Bool} {f : β → α} (hf : ∀ b, p (f b) = q b)
    (t s : List β) :
    tokensFrom p (t.map f) (s.map f) = (tokensFrom q t s).map (List.map f) := by
  induction s generalizing t with
  | nil => cases t <;> simp [tokensFrom]
  | cons b bs ih =>
    have hnil := ih []
    have hsnoc := ih (t ++ [b])
    simp only [List.map_nil] at hnil
    simp only [List.map_append, List.map_cons, List.map_nil] at hsnoc
    cases t with
    | nil => by_cases hb : q b = true <;> simp_all [tokensFrom]
    | cons a as => by_cases hb : q b = true <;> simp_all [tokensFrom]

/-- Splitting commutes with a relabelling that respects the delimiters. -/
theorem tokens_map {p : α → Bool} {q : β → Bool} {f : β → α} (hf : ∀ b, p (f b) = q b)
    (s : List β) : tokens p (s.map f) = (tokens q s).map (List.map f) :=
  tokensFrom_map hf [] s

/-! ### Lines -/

/-- Lines with their newlines. -/
def linesText (lines : List Text) : Text := lines.flatMap fun line => line ++ [newline]

theorem linesText_cons (line : Text) (lines : List Text) :
    linesText (line :: lines) = line ++ newline :: linesText lines := by
  rw [linesText, List.flatMap_cons, List.append_assoc]
  rfl

/-- **Lines are read back.** -/
theorem tokens_linesText {lines : List Text} (hne : ∀ line ∈ lines, line ≠ [])
    (hnl : ∀ line ∈ lines, newline ∉ line) : tokens (· == newline) (linesText lines) = lines := by
  induction lines with
  | nil => rfl
  | cons line lines ih =>
    have hfree := beq_of_not_mem (hnl line (by simp))
    rw [linesText_cons, tokens_append_delim (by simp), tokens_free hfree (hne line (by simp)),
      ih (fun l hl => hne l (by simp [hl])) fun l hl => hnl l (by simp [hl])]
    rfl

theorem nul_not_mem_linesText {lines : List Text} (hnul : ∀ line ∈ lines, nul ∉ line) :
    nul ∉ linesText lines := by
  intro h
  obtain ⟨line, hline, hmem⟩ := List.mem_flatMap.mp h
  rcases List.mem_append.mp hmem with hmem | hmem
  · exact hnul line hline hmem
  · exact absurd (List.mem_singleton.mp hmem) (by decide)

/-- The lines of a text that was cut: whole ones, and the beginning of one. -/
def cutLines : ℕ → List Text → List Text
  | _, [] => []
  | m, line :: lines =>
      if line.length < m then line :: cutLines (m - (line.length + 1)) lines
      else if m = 0 then [] else [line.take m]

theorem prefix_of_mem_cutLines {m : ℕ} {lines : List Text} {t : Text} (h : t ∈ cutLines m lines) :
    ∃ line ∈ lines, t <+: line := by
  induction lines generalizing m with
  | nil => simp [cutLines] at h
  | cons line lines ih =>
    rw [cutLines] at h
    split at h
    · rcases List.mem_cons.mp h with rfl | h
      · exact ⟨t, List.mem_cons_self, List.prefix_rfl⟩
      · obtain ⟨line', hmem, hprefix⟩ := ih h
        exact ⟨line', List.mem_cons_of_mem _ hmem, hprefix⟩
    · split at h
      · simp at h
      · rw [List.mem_singleton.mp h]
        exact ⟨line, List.mem_cons_self, List.take_prefix _ _⟩

/-- **A text of lines that is cut** splits into its lines up to the cut. -/
theorem tokens_take_linesText {lines : List Text} (hne : ∀ line ∈ lines, line ≠ [])
    (hnl : ∀ line ∈ lines, newline ∉ line) (m : ℕ) :
    tokens (· == newline) ((linesText lines).take m) = cutLines m lines := by
  induction lines generalizing m with
  | nil =>
    rw [cutLines, show linesText [] = [] from rfl, List.take_nil]
    rfl
  | cons line lines ih =>
    have hfree := beq_of_not_mem (hnl line (by simp))
    rw [cutLines, linesText_cons]
    by_cases hlt : line.length < m
    · obtain ⟨k, rfl⟩ : ∃ k, m = line.length + (k + 1) := ⟨m - line.length - 1, by omega⟩
      rw [if_pos hlt, List.take_length_add_append, List.take_succ_cons,
        tokens_append_delim (by simp), tokens_free hfree (hne line (by simp)),
        ih (fun l hl => hne l (by simp [hl])) fun l hl => hnl l (by simp [hl]),
        show line.length + (k + 1) - (line.length + 1) = k by omega]
      rfl
    · rw [if_neg hlt, List.take_append_of_le_length (by omega)]
      split
      · rename_i hm
        rw [hm, List.take_zero]
        rfl
      · rename_i hm
        have hcut : line.take m ≠ [] := by simpa [hm] using hne line (by simp)
        exact tokens_free (fun b hb => hfree b (List.mem_of_mem_take hb)) hcut

/-- Lines of at most `k` bytes. -/
theorem length_linesText_le {lines : List Text} {k : ℕ} (h : ∀ line ∈ lines, line.length ≤ k) :
    (linesText lines).length ≤ (k + 1) * lines.length := by
  induction lines with
  | nil => exact Nat.zero_le _
  | cons line lines ih =>
    have hline := h line (by simp)
    have hrest := ih fun l hl => h l (by simp [hl])
    rw [linesText_cons, List.length_append, List.length_cons, List.length_cons, Nat.mul_succ]
    omega

end MessageBoard.CText
