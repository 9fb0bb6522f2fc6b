import MessageBoard.Lib.LineStream

/-!
# A stream in pieces of one size

`pieces n s` is how a reader that asks for `n` elements at a time sees a stream that is there as a
whole: full pieces and a last, shorter one.  `piecesFrom n pre s` has read `pre` of the current
piece already, so a proof can follow the stream element by element or line by line.

* `pieces_eq` — a read returns the next `min n` elements;
* `pieces_append` — the pieces of a stream cut at a multiple of `n`;
* `closings_lt` — **a line end that opens a piece closes nothing there**, so reading the pieces one
  by one closes fewer lines than the stream has.
-/

namespace MessageBoard.Pieces

open MessageBoard.CText MessageBoard.LineStream

variable {α : Type}

/-- The pieces of the input when `pre` of the current piece is read. -/
def piecesFrom (n : ℕ) : List α → List α → List (List α)
  | pre, [] => if pre.isEmpty then [] else [pre]
  | pre, b :: bs =>
      if pre.length + 1 < n then piecesFrom n (pre ++ [b]) bs
      else (pre ++ [b]) :: piecesFrom n [] bs

/-- The pieces of size `n`. -/
def pieces (n : ℕ) (s : List α) : List (List α) := piecesFrom n [] s

/-- Reading on inside the current piece. -/
theorem piecesFrom_read {n : ℕ} {pre s : List α} (h : pre.length + s.length < n) (r : List α) :
    piecesFrom n pre (s ++ r) = piecesFrom n (pre ++ s) r := by
  induction s generalizing pre with
  | nil => rw [List.nil_append, List.append_nil]
  | cons b bs ih =>
    rw [List.length_cons] at h
    rw [List.cons_append, piecesFrom, if_pos (by omega),
      ih (by rw [List.length_append, List.length_singleton]; omega), List.append_assoc,
      List.singleton_append]

/-- Reading the current piece to its end. -/
theorem piecesFrom_fill {n : ℕ} {pre s : List α} (h : pre.length + s.length = n) (hs : s ≠ [])
    (r : List α) : piecesFrom n pre (s ++ r) = (pre ++ s) :: piecesFrom n [] r := by
  obtain ⟨i, b, rfl⟩ := (List.eq_nil_or_concat' s).resolve_left hs
  rw [List.length_append, List.length_singleton] at h
  rw [List.append_assoc, piecesFrom_read (by omega), List.singleton_append, piecesFrom,
    if_neg (by rw [List.length_append]; omega), List.append_assoc]

theorem pieces_nil (n : ℕ) : pieces n ([] : List α) = [] := rfl

/-- **A read returns the next `min n` elements.** -/
theorem pieces_eq {n : ℕ} (hn : 0 < n) {s : List α} (hs : s ≠ []) :
    pieces n s = s.take n :: pieces n (s.drop n) := by
  have hpos : 0 < s.length := List.length_pos_iff.mpr hs
  rcases Nat.lt_or_ge s.length n with hlt | hge
  · have hread : piecesFrom n [] (s ++ []) = piecesFrom n ([] ++ s) [] :=
      piecesFrom_read (by simpa using hlt) []
    rw [List.append_nil, List.nil_append] at hread
    rw [pieces, hread, piecesFrom, if_neg (by simpa using hs), List.take_of_length_le hlt.le,
      List.drop_eq_nil_of_le hlt.le, pieces_nil]
  · have hlen : ([] : List α).length + (s.take n).length = n := by
      rw [List.length_nil, List.length_take]
      omega
    have hne : s.take n ≠ [] := by
      rw [← List.length_pos_iff, List.length_take]
      omega
    have hfill := piecesFrom_fill hlen hne (s.drop n)
    rwa [List.take_append_drop, List.nil_append] at hfill

theorem flatten_piecesFrom (n : ℕ) (pre s : List α) : (piecesFrom n pre s).flatten = pre ++ s := by
  induction s generalizing pre with
  | nil => cases pre <;> simp [piecesFrom]
  | cons b bs ih =>
    rw [piecesFrom]
    split
    · rw [ih, List.append_assoc, List.singleton_append]
    · rw [List.flatten_cons, ih, List.nil_append, List.append_assoc, List.singleton_append]

@[simp] theorem flatten_pieces (n : ℕ) (s : List α) : (pieces n s).flatten = s :=
  flatten_piecesFrom n [] s

theorem ne_nil_of_mem_piecesFrom {n : ℕ} {pre s c : List α} (h : c ∈ piecesFrom n pre s) :
    c ≠ [] := by
  induction s generalizing pre with
  | nil =>
    rw [piecesFrom] at h
    split at h
    · simp at h
    · rename_i hpre
      rw [List.mem_singleton] at h
      rw [h]
      simpa using hpre
  | cons b bs ih =>
    rw [piecesFrom] at h
    split at h
    · exact ih h
    · rcases List.mem_cons.mp h with rfl | h
      · simp
      · exact ih h

theorem ne_nil_of_mem_pieces {n : ℕ} {s c : List α} (h : c ∈ pieces n s) : c ≠ [] :=
  ne_nil_of_mem_piecesFrom h

/-- **The pieces of a stream cut at a multiple of the size.** -/
theorem pieces_append {n : ℕ} (hn : 0 < n) {s : List α} {k : ℕ} (h : s.length = n * k)
    (r : List α) : pieces n (s ++ r) = pieces n s ++ pieces n r := by
  induction k generalizing s with
  | zero =>
    rw [List.length_eq_zero_iff.mp h, List.nil_append, pieces_nil, List.nil_append]
  | succ k ih =>
    rw [Nat.mul_succ] at h
    have hne : s ≠ [] := by
      rw [← List.length_pos_iff]
      omega
    rw [pieces_eq hn (by simp [hne]), pieces_eq hn hne, List.take_append_of_le_length (by omega),
      List.drop_append_of_le_length (by omega), ih (by rw [List.length_drop]; omega),
      List.cons_append]

/-- The element at a multiple of the size opens a piece. -/
theorem pieces_append_cons {n : ℕ} (hn : 0 < n) {s : List α} {k : ℕ} (h : s.length = n * k) (b : α)
    (r : List α) :
    pieces n (s ++ b :: r) = pieces n s ++ (b :: r.take (n - 1)) :: pieces n (r.drop (n - 1)) := by
  obtain ⟨m, rfl⟩ := Nat.exists_eq_succ_of_ne_zero hn.ne'
  rw [pieces_append hn h, pieces_eq hn (List.cons_ne_nil b r)]
  rfl

/-! ### Lines closed piece by piece -/

variable {p : α → Bool}

/-- An open line before the piece adds at most one line to those the piece closes. -/
theorem length_closedFrom_le (t s : List α) :
    (closedFrom p [] s).length ≤ (closedFrom p t s).length := by
  cases s with
  | nil => exact le_rfl
  | cons b bs =>
    cases hb : p b with
    | true =>
      rw [closedFrom_cons_delim hb, closedFrom_cons_delim hb, pending_nil, List.nil_append,
        List.length_append]
      omega
    | false =>
      have hinside : StartsInside p (b :: bs) := by simp [StartsInside, hb]
      rw [closedFrom_glue hinside t, length_glueHead]

/-- The number of lines the pieces close when each is read on its own. -/
def closings (p : α → Bool) (chunks : List (List α)) : ℕ :=
  (chunks.map fun c => (closedFrom p [] c).length).sum

theorem closings_append (cs ds : List (List α)) :
    closings p (cs ++ ds) = closings p cs + closings p ds := by
  simp [closings]

theorem closings_le (t : List α) (chunks : List (List α)) :
    closings p chunks ≤ (closedFrom p t chunks.flatten).length := by
  induction chunks generalizing t with
  | nil => exact Nat.zero_le _
  | cons c cs ih =>
    have hc := length_closedFrom_le (p := p) t c
    have hcs := ih (openFrom p t c)
    rw [closings] at hcs
    rw [List.flatten_cons, closedFrom_append, List.length_append, closings, List.map_cons,
      List.sum_cons]
    omega

/-- **A line end that opens a piece closes nothing there.** -/
theorem closings_lt {cs ds : List (List α)} {b : α} {c : List α} (hb : p b = true)
    (hopen : openFrom p [] cs.flatten ≠ []) :
    closings p (cs ++ (b :: c) :: ds) < (closedFrom p [] (cs ++ (b :: c) :: ds).flatten).length := by
  have hcs := closings_le (p := p) [] cs
  have hds := closings_le (p := p) (openFrom p [] c) ds
  rw [closings_append, List.flatten_append, List.flatten_cons, closedFrom_append, List.cons_append,
    closedFrom_cons_delim hb, pending_of_ne_nil hopen, closedFrom_append]
  simp only [closings, List.map_cons, List.sum_cons, closedFrom_cons_delim hb, pending_nil,
    List.nil_append, List.length_append, List.length_singleton] at hcs hds ⊢
  omega

end MessageBoard.Pieces
