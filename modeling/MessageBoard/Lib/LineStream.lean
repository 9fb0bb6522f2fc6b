import MessageBoard.Lib.CText

/-!
# Lines of a stream that is read piece by piece

A reader that has consumed a prefix of a stream knows two things: the lines already closed by a
delimiter (`closedFrom`) and the bytes of the line still open (`openFrom`).  Both are folds, so
they compose over the pieces in which the stream arrives.

* `closedFrom_append`, `openFrom_append` — consuming two pieces is consuming their concatenation;
* `closedFrom_glue` — a held prefix only changes the first line closed after it;
* `token_around` — **the line around an element**: in a stream without repetitions the line that
  contains an element is determined by the text on both sides of it.
-/

namespace MessageBoard.LineStream

open MessageBoard.CText

variable {α : Type} {p : α → Bool}

/-- The open line after reading the input, when it already holds `t`. -/
def openFrom (p : α → Bool) : List α → List α → List α
  | t, [] => t
  | t, b :: bs => if p b then openFrom p [] bs else openFrom p (t ++ [b]) bs

/-- The non-empty lines the input closes, when the open line already holds `t`. -/
def closedFrom (p : α → Bool) : List α → List α → List (List α)
  | _, [] => []
  | t, b :: bs =>
      if p b then
        if t.isEmpty then closedFrom p [] bs else t :: closedFrom p [] bs
      else closedFrom p (t ++ [b]) bs

/-- The open line as a token, if there is one. -/
def pending (t : List α) : List (List α) := if t.isEmpty then [] else [t]

@[simp] theorem pending_nil : pending ([] : List α) = [] := rfl

theorem pending_of_ne_nil {t : List α} (h : t ≠ []) : pending t = [t] := by
  rw [pending, if_neg (by simpa using h)]

theorem tokensFrom_eq (t s : List α) :
    tokensFrom p t s = closedFrom p t s ++ pending (openFrom p t s) := by
  induction s generalizing t with
  | nil => rfl
  | cons b bs ih =>
    rw [tokensFrom, closedFrom, openFrom]
    split
    · split
      · exact ih []
      · rw [ih [], List.cons_append]
    · exact ih (t ++ [b])

theorem tokens_eq (s : List α) :
    tokens p s = closedFrom p [] s ++ pending (openFrom p [] s) := tokensFrom_eq [] s

/-! ### Consuming the stream in pieces -/

theorem openFrom_append (t s r : List α) :
    openFrom p t (s ++ r) = openFrom p (openFrom p t s) r := by
  induction s generalizing t with
  | nil => rfl
  | cons b bs ih =>
    rw [List.cons_append, openFrom, openFrom]
    split
    · exact ih []
    · exact ih (t ++ [b])

theorem closedFrom_append (t s r : List α) :
    closedFrom p t (s ++ r) = closedFrom p t s ++ closedFrom p (openFrom p t s) r := by
  induction s generalizing t with
  | nil => rfl
  | cons b bs ih =>
    rw [List.cons_append, closedFrom, closedFrom, openFrom]
    split
    · split
      · exact ih []
      · rw [ih [], List.cons_append]
    · exact ih (t ++ [b])

theorem tokensFrom_append (t s r : List α) :
    tokensFrom p t (s ++ r) = closedFrom p t s ++ tokensFrom p (openFrom p t s) r := by
  rw [tokensFrom_eq, tokensFrom_eq, closedFrom_append, openFrom_append, List.append_assoc]

theorem tokens_append (s r : List α) :
    tokens p (s ++ r) = closedFrom p [] s ++ tokensFrom p (openFrom p [] s) r :=
  tokensFrom_append [] s r

theorem openFrom_free {s : List α} (hs : ∀ b ∈ s, p b = false) (t : List α) :
    openFrom p t s = t ++ s := by
  induction s generalizing t with
  | nil => simp [openFrom]
  | cons b bs ih =>
    rw [openFrom, if_neg (by simp [hs b (by simp)]), ih (fun c hc => hs c (by simp [hc])),
      List.append_assoc, List.singleton_append]

theorem closedFrom_free {s : List α} (hs : ∀ b ∈ s, p b = false) (t : List α) :
    closedFrom p t s = [] := by
  induction s generalizing t with
  | nil => rfl
  | cons b bs ih =>
    rw [closedFrom, if_neg (by simp [hs b (by simp)]), ih fun c hc => hs c (by simp [hc])]

/-- The line is open exactly when the last element read is not a delimiter. -/
theorem openFrom_concat (t s : List α) (b : α) :
    openFrom p t (s ++ [b]) = if p b then [] else openFrom p t s ++ [b] := by
  rw [openFrom_append, openFrom]
  split <;> rfl

theorem openFrom_eq_nil_iff {s : List α} (hs : s ≠ []) (t : List α) :
    openFrom p t s = [] ↔ p (s.getLast hs) = true := by
  obtain ⟨i, b, rfl⟩ := List.eq_nil_or_concat' s |>.resolve_left hs
  rw [openFrom_concat, List.getLast_concat]
  by_cases hb : p b = true
  · simp [hb]
  · simp [hb]

/-- The elements of the open line come from what was held and what was read. -/
theorem mem_openFrom {t s : List α} {b : α} (h : b ∈ openFrom p t s) : b ∈ t ∨ b ∈ s := by
  induction s generalizing t with
  | nil => exact Or.inl h
  | cons c cs ih =>
    rw [openFrom] at h
    split at h
    · rcases ih h with h | h
      · simp at h
      · exact Or.inr (List.mem_cons_of_mem c h)
    · rcases ih h with h | h
      · rcases List.mem_append.mp h with h | h
        · exact Or.inl h
        · exact Or.inr (by simp [List.mem_singleton.mp h])
      · exact Or.inr (List.mem_cons_of_mem c h)

/-! ### A held prefix -/

/-- Put a held prefix in front of the first line. -/
def glueHead (h : List α) : List (List α) → List (List α)
  | [] => []
  | x :: xs => (h ++ x) :: xs

@[simp] theorem glueHead_nil_left (xs : List (List α)) : glueHead [] xs = xs := by
  cases xs <;> rfl

@[simp] theorem length_glueHead (h : List α) (xs : List (List α)) :
    (glueHead h xs).length = xs.length := by
  cases xs <;> rfl

/-- The input starts inside a line: its first element is not a delimiter. -/
def StartsInside (p : α → Bool) (s : List α) : Prop := ∀ b ∈ s.head?, p b = false

theorem closedFrom_glue_of_ne_nil (h s : List α) {t : List α} (ht : t ≠ []) :
    closedFrom p (h ++ t) s = glueHead h (closedFrom p t s) := by
  induction s generalizing t with
  | nil => rfl
  | cons b bs ih =>
    rw [closedFrom, closedFrom]
    split
    · rw [if_neg (by simp [ht]), if_neg (by simp [ht]), glueHead]
    · rw [List.append_assoc]
      exact ih (by simp)

/-- **A held prefix only changes the first line closed after it.** -/
theorem closedFrom_glue {s : List α} (hs : StartsInside p s) (h : List α) :
    closedFrom p h s = glueHead h (closedFrom p [] s) := by
  cases s with
  | nil => rfl
  | cons b bs =>
    have hb : p b = false := hs b (by simp)
    rw [closedFrom, closedFrom, if_neg (by simp [hb]), if_neg (by simp [hb]), List.nil_append]
    exact closedFrom_glue_of_ne_nil h bs (by simp)

theorem openFrom_glue_of_ne_nil (h s : List α) {t : List α} (ht : t ≠ []) :
    openFrom p (h ++ t) s
      = if closedFrom p t s = [] then h ++ openFrom p t s else openFrom p t s := by
  induction s generalizing t with
  | nil => simp [openFrom, closedFrom]
  | cons b bs ih =>
    rw [openFrom, openFrom, closedFrom]
    split
    · rw [if_neg (by simp [ht] : ¬t.isEmpty = true), if_neg (by simp)]
    · rw [List.append_assoc]
      exact ih (by simp)

/-- A held prefix stays in front of the open line until a line is closed. -/
theorem openFrom_glue {s : List α} (hs : StartsInside p s) (h : List α) :
    openFrom p h s
      = if closedFrom p [] s = [] then h ++ openFrom p [] s else openFrom p [] s := by
  cases s with
  | nil => simp [openFrom, closedFrom]
  | cons b bs =>
    have hb : p b = false := hs b (by simp)
    have hglue := openFrom_glue_of_ne_nil (p := p) h bs (t := [b]) (by simp)
    simpa only [openFrom, closedFrom, hb, List.nil_append, Bool.false_eq_true, if_false] using hglue

/-- A delimiter closes the held line. -/
theorem closedFrom_cons_delim {b : α} (hb : p b = true) (h s : List α) :
    closedFrom p h (b :: s) = pending h ++ closedFrom p [] s := by
  rw [closedFrom, if_pos hb, pending]
  split <;> rfl

/-! ### The line around an element -/

theorem tokensFrom_of_ne_nil (s : List α) {t : List α} (ht : t ≠ []) :
    ∃ rest, tokensFrom p t s = (t ++ s.takeWhile fun b => !p b) :: rest := by
  induction s generalizing t with
  | nil => exact ⟨[], by rw [tokensFrom, if_neg (by simpa using ht)]; simp⟩
  | cons b bs ih =>
    rw [tokensFrom]
    by_cases hb : p b = true
    · exact ⟨tokensFrom p [] bs, by simp [hb, ht]⟩
    · obtain ⟨rest, hrest⟩ := ih (t := t ++ [b]) (by simp)
      exact ⟨rest, by simp [hb, hrest]⟩

/-- The line around an element is one of the tokens. -/
theorem around_mem_tokens (a : List α) {b : α} (hb : p b = false) (r : List α) :
    (openFrom p [] a ++ b :: r.takeWhile fun c => !p c) ∈ tokens p (a ++ b :: r) := by
  obtain ⟨rest, hrest⟩ :=
    tokensFrom_of_ne_nil (p := p) r (t := openFrom p [] a ++ [b]) (by simp)
  rw [tokens_append, tokensFrom, if_neg (by simp [hb]), hrest]
  simp

/-- **The line around an element.**  In a stream without repetitions, a token that contains an
element is the open line before it, the element, and the text up to the next delimiter. -/
theorem token_around {a r x : List α} {b : α} (hnd : (a ++ b :: r).Nodup)
    (hx : x ∈ tokens p (a ++ b :: r)) (hbx : b ∈ x) :
    x = openFrom p [] a ++ b :: r.takeWhile fun c => !p c := by
  have hb : p b = false := mem_tokens_free hx b hbx
  have hmem := around_mem_tokens a hb r
  have hflat : (tokens p (a ++ b :: r)).flatten.Nodup := by
    rw [flatten_tokens]
    exact hnd.filter _
  have hdisj := (List.nodup_flatten.mp hflat).2
  have : Std.Symm (List.Disjoint (α := α)) := ⟨fun _ _ h => h.symm⟩
  by_contra hne
  have hd : List.Disjoint x (openFrom p [] a ++ b :: r.takeWhile fun c => !p c) :=
    hdisj.forall hx hmem hne
  exact hd hbx (by simp)

end MessageBoard.LineStream
