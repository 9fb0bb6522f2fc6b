import MessageBoard.ReplyWindow

/-!
# Replies and the messages that are retained

`get_size` counts all additions in 64 bits, and `get_first_n_messages` takes it for an `int`.  From
`2 ^ 31` additions on the two are different numbers, and the loops start elsewhere or are not entered.
The room in `to_return` is not looked at here: what the texts need of it is the same in two states that
reply the same.

* `appendFrom_retained` — a loop renders the retained contents, from some offset of the ring on;
* `answer_eq` — what a request for `n` messages is answered, for any number of additions;
* `replies_agree_iff` — **which counters give the same replies** for the same retained messages.
-/

namespace MessageBoard

open CText CScan ReplyWindow

namespace RetainedReplies

/-! ### Replies -/

/-- `handle_get_messages`, where `list_size - n` is an `int`.  Else it has no meaning. -/
def answer (sent : Bool) (b : Board) (inputBuffer : Text) : Option (ℕ × Option Text) :=
  let num := ((atoi inputBuffer) % 2 ^ 64).toNat
  if 1 ≤ num ∧ toInt32 b.msgMatrix.getSize - toInt32 (clampNum b num) < -2 ^ 31 then none
  else some (handleGetMessages sent b inputBuffer)

/-- A content is a string of at most 140 bytes. -/
def Stored (xs : List Message) : Prop := ∀ x ∈ xs, x.content.length ≤ 140 ∧ nul ∉ x.content

/-- The contents of the messages that a matrix of `c` slots retains. -/
def retained (c : ℕ) (xs : List Message) : List Text := (lastOf c xs).map Message.content

/-- Every request is answered, and the same by both. -/
def SameReplies (b₁ b₂ : Board) : Prop :=
  ∀ sent inputBuffer, ∃ reply,
    answer sent b₁ inputBuffer = some reply ∧ answer sent b₂ inputBuffer = some reply

/-- Any two histories of `k₁` and `k₂` additions that retain the same contents reply the same. -/
def RepliesAgree (c : ℕ) (hc : 0 < c) (k₁ k₂ : ℕ) : Prop :=
  ∀ (overflow₁ overflow₂ : Bool) (gLc₁ gLc₂ : ℕ) (xs ys : List Message), xs.length = k₁ →
    ys.length = k₂ → Stored xs → Stored ys → retained c xs = retained c ys →
    SameReplies ⟨gLc₁, matrixOf c hc overflow₁ xs⟩ ⟨gLc₂, matrixOf c hc overflow₂ ys⟩

/-- `list_size` is zero, or so far below it that the loops for `n` messages are not entered. -/
def Blank (c k n : ℕ) : Prop := toInt32 k = 0 ∨ toInt32 k < n - c

instance (c k n : ℕ) : Decidable (Blank c k n) :=
  inferInstanceAs (Decidable (toInt32 k = 0 ∨ toInt32 k < n - c))

/-- The two counters are as good as each other: no `list_size - n` overflows, and both show nothing,
or both show as many slots, which start at the same of the retained messages. -/
def Agree (c k₁ k₂ : ℕ) : Prop :=
  (c : ℤ) - 2 ^ 31 ≤ toInt32 k₁ ∧ (c : ℤ) - 2 ^ 31 ≤ toInt32 k₂
    ∧ (Blank c k₁ 1 ∧ Blank c k₂ 1
      ∨ ¬Blank c k₁ 1 ∧ ¬Blank c k₂ 1 ∧ min 0 (toInt32 k₁) = min 0 (toInt32 k₂)
        ∧ (c : ℤ) ∣ (toInt32 k₁ - k₁) - (toInt32 k₂ - k₂))

/-! ### The ring of the retained contents -/

/-- The lines of a ring of contents, from an offset on. -/
def shown (contents : List Text) : ℕ → ℕ → Text
  | _, 0 => []
  | start, count + 1 =>
      contents.getD (start % contents.length) [] ++ newline :: shown contents (start + 1) count

theorem shown_add (contents : List Text) (start a b : ℕ) :
    shown contents start (a + b) = shown contents start a ++ shown contents (start + a) b := by
  induction a generalizing start with
  | zero => rw [Nat.zero_add, shown, List.nil_append, Nat.add_zero]
  | succ a ih =>
    rw [Nat.succ_add, shown, shown, ih, List.append_assoc, List.cons_append, Nat.add_assoc,
      Nat.add_comm 1 a]

theorem shown_congr {contents : List Text} {start start' : ℕ}
    (h : start ≡ start' [MOD contents.length]) (count : ℕ) :
    shown contents start count = shown contents start' count := by
  induction count generalizing start start' with
  | zero => rfl
  | succ count ih => rw [shown, shown, ih (h.add_right 1), show start % _ = start' % _ from h]

theorem length_retained {c : ℕ} {xs : List Message} (hk : c ≤ xs.length) :
    (retained c xs).length = c := by
  rw [retained, List.length_map, length_lastOf hk]

/-- **A slot shows one of the retained contents**, at an offset that depends on the number of
additions. -/
theorem getElement_retained {m : Matrix Message} {xs : List Message} (h : m.Holds xs)
    (hk : m.getCapacity ≤ xs.length) (j : ℕ) : ∃ x ∈ xs, m.getElement j = some x
      ∧ x.content = (retained m.getCapacity xs).getD
        ((j + (m.getCapacity - xs.length % m.getCapacity)) % m.getCapacity) [] := by
  have hpos : 0 < m.getCapacity := m.capacity_pos
  obtain ⟨c, hc⟩ : ∃ c, m.getCapacity = c := ⟨_, rfl⟩
  rw [hc] at hk hpos ⊢
  obtain ⟨t, ht⟩ : ∃ t, (j + (c - xs.length % c)) % c = t := ⟨_, rfl⟩
  have htlt : t < c := ht ▸ Nat.mod_lt _ hpos
  have hlt : xs.length - c + t < xs.length := by omega
  have hslot : (xs.length - c + t) % c = j % c := by
    have hoffset : t ≡ j + (c - xs.length % c) [MOD c] := ht ▸ Nat.mod_modEq _ _
    have hdiv := Nat.div_add_mod xs.length c
    have hrem := Nat.mod_lt xs.length hpos
    calc (xs.length - c + t) % c = (xs.length - c + t + c) % c := (Nat.add_mod_right _ _).symm
      _ = (xs.length + t) % c := by congr 1; omega
      _ = (xs.length + (j + (c - xs.length % c))) % c := hoffset.add_left _
      _ = (j + c * (xs.length / c + 1)) % c := by
        congr 1
        rw [Nat.mul_add, Nat.mul_one]
        omega
      _ = j % c := Nat.add_mul_mod_self_left ..
  refine ⟨xs[xs.length - c + t], List.getElem_mem hlt, ?_, ?_⟩
  · calc m.getElement j = m.getElement (j % m.getCapacity) := (m.getElement_mod j).symm
      _ = m.getElement ((xs.length - c + t) % m.getCapacity) := by rw [hc, hslot]
      _ = m.getElement (xs.length - c + t) := m.getElement_mod _
      _ = some xs[xs.length - c + t] := h.window _ hlt (by omega)
  · rw [ht, retained, lastOf, List.getD_eq_getElem _ _ (by
      rw [List.length_map, List.length_drop]
      omega)]
    simp

/-- **A loop renders the retained contents** from an offset on. -/
theorem appendFrom_retained {m : Matrix Message} {xs : List Message} (h : m.Holds xs)
    (hk : m.getCapacity ≤ xs.length) (hxs : Stored xs) {n : ℕ} (hn : 1 ≤ n) (start count : ℕ) :
    appendFrom m n .withoutLc start count = shown (retained m.getCapacity xs)
      (start + (m.getCapacity - xs.length % m.getCapacity)) count := by
  induction count generalizing start with
  | zero => rfl
  | succ count ih =>
    obtain ⟨x, hx, hslot, hcontent⟩ := getElement_retained h hk start
    have hlen := (hxs x hx).1
    have hline : (messageLine .withoutLc x).take (stringSize * n) = x.content ++ [newline] := by
      rw [messageLine_eq .withoutLc hlen, line, getString, List.take_of_length_le]
      rw [List.length_append, List.length_singleton, stringSize]
      omega
    rw [appendFrom, hslot, shown, length_retained hk, ← hcontent]
    simp only [hline]
    rw [ih, List.append_assoc, List.singleton_append, Nat.add_right_comm]

/-! ### The text of a reply -/

/-- The offset at which the text of a request for `n` messages starts. -/
def offset (c k n : ℕ) : ℕ := ((toInt32 k - n - k) % c).toNat

/-- What `get_first_n_messages` makes of the retained contents, empty for `NULL`. -/
def body (c k : ℕ) (contents : List Text) (n : ℕ) : Text :=
  if Blank c k n then [] else shown contents (offset c k n) (n + (-toInt32 k).toNat)

/-- A start of a loop is the offset, up to the number of additions. -/
theorem offset_modEq {c : ℕ} (hc : 0 < c) {k n start : ℕ} {i : ℤ} (hi : toInt32 k - n = start + c * i) :
    start + (c - k % c) ≡ offset c k n [MOD c] := by
  have hdiv : (k : ℤ) = c * (k / c : ℕ) + (k % c : ℕ) := by exact_mod_cast (Nat.div_add_mod k c).symm
  have hrem := Nat.mod_lt k hc
  have hnonneg : 0 ≤ (toInt32 k - n - k) % c := Int.emod_nonneg _ (by omega)
  rw [← Int.natCast_modEq_iff, offset, Int.toNat_of_nonneg hnonneg, Nat.cast_add, Nat.cast_sub hrem.le]
  refine Int.ModEq.trans ?_ (Int.mod_modEq _ _).symm
  refine (Int.modEq_iff_dvd.mpr ⟨i - (k / c : ℕ) - 1, ?_⟩)
  rw [hi]
  linear_combination -hdiv

/-- **Whatever the counter is**, the text of `n` messages is a part of the ring, or nothing. -/
theorem getFirstNMessages_retained {m : Matrix Message} {xs : List Message} (h : m.Holds xs)
    (hint : m.getCapacity < 2 ^ 31) (hk : m.getCapacity ≤ xs.length) (hxs : Stored xs) {n : ℕ}
    (hn : 1 ≤ n) (hnc : n ≤ m.getCapacity) : (getFirstNMessages m n .withoutLc).getD []
      = body m.getCapacity xs.length (retained m.getCapacity xs) n := by
  have hpos : 0 < m.getCapacity := m.capacity_pos
  have hloop := appendFrom_retained h hk hxs hn
  have hoverflow : m.getCapacity < xs.length → m.getOverflow = true := h.overflowed
  have hlen := length_retained hk
  have hstart : ∀ (start count : ℕ) (i : ℤ), toInt32 xs.length - n = start + m.getCapacity * i →
      appendFrom m n .withoutLc start count = shown (retained m.getCapacity xs)
        (offset m.getCapacity xs.length n) count := by
    intro start count i hi
    rw [hloop]
    exact shown_congr (hlen.symm ▸ offset_modEq hpos hi) count
  obtain ⟨c, hc⟩ : ∃ c, m.getCapacity = c := ⟨_, rfl⟩
  obtain ⟨l, hl⟩ : ∃ l, toInt32 xs.length = l := ⟨_, rfl⟩
  have hrange := toInt32_range xs.length
  have hsmall : xs.length < 2 ^ 31 → toInt32 xs.length = xs.length := toInt32_of_lt
  simp only [getFirstNMessages, h.size_eq, body, Blank, hc, hl, Int.toNat_natCast] at *
  by_cases hzero : l = 0
  · simp [hzero]
  rw [if_neg hzero, if_neg (by omega)]
  by_cases hwindow : n ≤ l
  · -- the loop inside the window
    rw [if_neg (by omega), if_neg (by omega), Option.getD_some,
      show (l - (l - n)).toNat = n + (-l).toNat by omega]
    exact hstart _ _ 0 (by omega)
  · -- what is behind index 0, and then what is in front of it
    have hover : m.getOverflow = true := hoverflow (by omega)
    rw [if_pos (by omega), if_pos hover, Option.getD_some]
    by_cases hblank : l < n - c
    · have hfirst : c - (((c : ℤ) + (l - n)) % 2 ^ 64).toNat = 0 := by omega
      have hsecond : l.toNat = 0 := by omega
      rw [if_pos (Or.inr hblank), hfirst, hsecond]
      rfl
    · obtain ⟨start, hs⟩ : ∃ start : ℕ, (start : ℤ) = c + (l - n) :=
        ⟨_, Int.toNat_of_nonneg (by omega)⟩
      have hj : (((c : ℤ) + (l - n)) % 2 ^ 64).toNat = start := by omega
      have hround : shown (retained c xs) (0 + (c - xs.length % c)) l.toNat
          = shown (retained c xs) (start + (c - xs.length % c) + (c - start)) l.toNat := by
        refine shown_congr ?_ _
        rw [hlen, show start + (c - xs.length % c) + (c - start) = 0 + (c - xs.length % c) + c by omega]
        exact (Nat.add_modEq_right).symm
      have hcount : n + (-l).toNat = (c - start) + l.toNat := by omega
      rw [if_neg (by omega), hj, hcount, hloop, hloop, hround, ← shown_add, ← hloop]
      exact hstart _ _ (-1) (by omega)

/-- `snprintf` on the response buffer. -/
def datagram (n : ℕ) (toAppend : Text) : Text :=
  (messageCode ++ newline :: toAppend).take (stringSize * (n + 1) - 1)

theorem handleGetMessages_elim (sent : Bool) {b : Board} {inputBuffer : Text} {num : ℕ}
    (hnum : ((atoi inputBuffer) % 2 ^ 64).toNat = num) (hpos : ¬num < 1) :
    handleGetMessages sent b inputBuffer
      = (getFirstNMessages b.msgMatrix (toInt32 (clampNum b num)) .withoutLc).elim
        (sendReply sent (messageCode ++ [newline]))
        fun toAppend => sendReply sent (datagram (clampNum b num) toAppend) := by
  simp only [handleGetMessages, hnum, clampNum]
  rw [if_neg hpos]
  generalize getFirstNMessages b.msgMatrix _ .withoutLc = toAppend
  cases toAppend <;> rfl

/-- **What a request is answered** after any number of additions. -/
theorem answer_eq (sent : Bool) {c : ℕ} (hc : 0 < c) (hint : c < 2 ^ 31) (overflow : Bool) (gLc : ℕ)
    {xs : List Message} (hk : c ≤ xs.length) (hxs : Stored xs) {inputBuffer : Text} {num : ℕ}
    (hnum : ((atoi inputBuffer) % 2 ^ 64).toNat = num) :
    answer sent ⟨gLc, matrixOf c hc overflow xs⟩ inputBuffer
      = if num < 1 then some (1, none)
        else if toInt32 xs.length - (min num c : ℕ) < -2 ^ 31 then none
        else some (sendReply sent
          (datagram (min num c) (body c xs.length (retained c xs) (min num c)))) := by
  have hholds := matrixOf_holds c hc overflow xs
  have hcap := getCapacity_matrixOf c hc overflow xs
  have hclamp : clampNum ⟨gLc, matrixOf c hc overflow xs⟩ num = min num c := by
    rw [clampNum_eq, hcap, hholds.size_eq]
    omega
  obtain ⟨n, hn⟩ : ∃ n, min num c = n := ⟨_, rfl⟩
  have hwidth : toInt32 n = n := toInt32_of_lt (by omega)
  rw [hn] at hclamp ⊢
  simp only [answer, hnum, hclamp, hwidth, hholds.size_eq]
  by_cases hpos : num < 1
  · rw [if_neg (by omega), if_pos hpos]
    simp only [handleGetMessages, hnum, if_pos hpos]
  · have hle : 1 ≤ num := by omega
    rw [if_neg hpos]
    simp only [hle, true_and]
    have hbody := getFirstNMessages_retained hholds (hcap.symm ▸ hint) (hcap.symm ▸ hk) hxs (n := n)
      (by omega) (by omega)
    rw [hcap] at hbody
    congr 2
    rw [handleGetMessages_elim sent hnum hpos, hclamp, hwidth, ← hbody]
    cases getFirstNMessages (matrixOf c hc overflow xs) n .withoutLc with
    | some toAppend => rfl
    | none =>
      rw [Option.elim_none]
      have hshort : (messageCode ++ [newline]).length ≤ stringSize * (n + 1) - 1 := by
        have hcode : (messageCode ++ [newline]).length = 9 := rfl
        rw [hcode, stringSize]
        omega
      rw [Option.getD_none, datagram, List.take_of_length_le hshort]

/-! ### Which counters agree -/

/-- Counters that agree show the same part of the ring. -/
theorem body_of_agree {c k₁ k₂ n : ℕ} (h : Agree c k₁ k₂) (hn : 1 ≤ n) (hnc : n ≤ c)
    (contents : List Text) : body c k₁ contents n = body c k₂ contents n := by
  rcases h.2.2 with ⟨hblank₁, hblank₂⟩ | ⟨hshown₁, hshown₂, hbelow, hstart⟩
  · rw [Blank] at hblank₁ hblank₂
    rw [body, body, if_pos (by rw [Blank]; omega), if_pos (by rw [Blank]; omega)]
  · have hdvd : (c : ℤ) ∣ (toInt32 k₁ - n - k₁) - (toInt32 k₂ - n - k₂) := by
      convert hstart using 1
      ring
    have hoffset : offset c k₁ n = offset c k₂ n :=
      congrArg Int.toNat (Int.modEq_iff_dvd.mpr hdvd).symm
    have hcount : (-toInt32 k₁).toNat = (-toInt32 k₂).toNat := by omega
    have hiff : Blank c k₁ n ↔ Blank c k₂ n := by
      rw [Blank] at hshown₁ hshown₂
      rw [Blank, Blank]
      omega
    simp only [body, hiff, hoffset, hcount]

theorem repliesAgree_of_agree {c k₁ k₂ : ℕ} (hc : 0 < c) (hint : c < 2 ^ 31) (h₁ : c ≤ k₁)
    (h₂ : c ≤ k₂) (h : Agree c k₁ k₂) : RepliesAgree c hc k₁ k₂ := by
  intro overflow₁ overflow₂ gLc₁ gLc₂ xs ys hlen₁ hlen₂ hxs hys hretained sent inputBuffer
  subst hlen₁ hlen₂
  obtain ⟨num, hnum⟩ : ∃ num, ((atoi inputBuffer) % 2 ^ 64).toNat = num := ⟨_, rfl⟩
  rw [answer_eq sent hc hint overflow₁ gLc₁ h₁ hxs hnum,
    answer_eq sent hc hint overflow₂ gLc₂ h₂ hys hnum]
  by_cases hpos : num < 1
  · exact ⟨_, if_pos hpos, if_pos hpos⟩
  · have hdefined := h.1
    have hdefined' := h.2.1
    rw [if_neg hpos, if_neg hpos, if_neg (by omega), if_neg (by omega),
      body_of_agree h (by omega) (by omega), hretained]
    exact ⟨_, rfl, rfl⟩

/-- A history of `k` additions that retains the given contents. -/
def historyOf (k : ℕ) (contents : List Text) : List Message :=
  List.replicate (k - contents.length) ⟨0, []⟩ ++ contents.map fun t => ⟨0, t⟩

theorem length_historyOf {k : ℕ} {contents : List Text} (hk : contents.length ≤ k) :
    (historyOf k contents).length = k := by
  rw [historyOf, List.length_append, List.length_replicate, List.length_map]
  omega

theorem retained_historyOf {k : ℕ} {contents : List Text} (hk : contents.length ≤ k) :
    retained contents.length (historyOf k contents) = contents := by
  have hdrop : lastOf contents.length (historyOf k contents) = contents.map fun t => ⟨0, t⟩ := by
    rw [lastOf, length_historyOf hk, historyOf]
    exact List.drop_left' List.length_replicate
  rw [retained, hdrop, List.map_map]
  exact List.map_id _

theorem stored_historyOf {k : ℕ} {contents : List Text}
    (h : ∀ t ∈ contents, t.length ≤ 140 ∧ nul ∉ t) : Stored (historyOf k contents) := by
  intro x hx
  rw [historyOf, List.mem_append] at hx
  rcases hx with hx | hx
  · obtain rfl := List.eq_of_mem_replicate hx
    simp
  · obtain ⟨t, ht, rfl⟩ := List.mem_map.mp hx
    exact h t ht

/-- **A request for `n` messages** compares two parts of the same ring. -/
theorem datagram_of_repliesAgree {c k₁ k₂ : ℕ} {hc : 0 < c} (hint : c < 2 ^ 31) (h₁ : c ≤ k₁)
    (h₂ : c ≤ k₂) (h : RepliesAgree c hc k₁ k₂) {n : ℕ} (hn : 1 ≤ n) (hnc : n ≤ c)
    {contents : List Text} (hlen : contents.length = c)
    (hcontents : ∀ t ∈ contents, t.length ≤ 140 ∧ nul ∉ t) :
    (n : ℤ) - 2 ^ 31 ≤ toInt32 k₁ ∧ (n : ℤ) - 2 ^ 31 ≤ toInt32 k₂
      ∧ datagram n (body c k₁ contents n) = datagram n (body c k₂ contents n) := by
  subst hlen
  have hstored := fun k => @stored_historyOf k contents hcontents
  have hlen₁ := length_historyOf h₁
  have hlen₂ := length_historyOf h₂
  have hnum : ((atoi (decimal n)) % 2 ^ 64).toNat = n := toNat_atoi_decimal (by omega)
  obtain ⟨reply, hreply₁, hreply₂⟩ := h false false 0 0 (historyOf k₁ contents) (historyOf k₂ contents)
    hlen₁ hlen₂ (hstored k₁) (hstored k₂) (by rw [retained_historyOf h₁, retained_historyOf h₂])
    true (decimal n)
  rw [answer_eq true hc hint false 0 (by omega) (hstored k₁) hnum, hlen₁, retained_historyOf h₁,
    if_neg (by omega), min_eq_left hnc] at hreply₁
  rw [answer_eq true hc hint false 0 (by omega) (hstored k₂) hnum, hlen₂, retained_historyOf h₂,
    if_neg (by omega), min_eq_left hnc, ← hreply₁] at hreply₂
  by_cases hover₁ : toInt32 k₁ - n < -2 ^ 31
  · rw [if_pos hover₁] at hreply₁
    simp at hreply₁
  · by_cases hover₂ : toInt32 k₂ - n < -2 ^ 31
    · rw [if_pos hover₂, if_neg hover₁] at hreply₂
      simp at hreply₂
    · rw [if_neg hover₂, if_neg hover₁] at hreply₂
      simp only [sendReply_true, Option.some.injEq, Prod.mk.injEq, true_and] at hreply₂
      exact ⟨by omega, by omega, hreply₂.symm⟩

theorem body_eq_nil_iff {c k n : ℕ} (hn : 1 ≤ n) (contents : List Text) :
    body c k contents n = [] ↔ Blank c k n := by
  obtain ⟨count, hcount⟩ : ∃ count, n + (-toInt32 k).toNat = count + 1 := ⟨n - 1 + (-toInt32 k).toNat, by omega⟩
  rw [body, hcount, shown]
  split
  · exact iff_of_true rfl (by assumption)
  · exact iff_of_false (by simp) (by assumption)

/-- An empty text is seen in the datagram. -/
theorem length_datagram_iff (n : ℕ) (toAppend : Text) :
    (datagram n toAppend).length = 9 ↔ toAppend = [] := by
  have hcode : messageCode.length = 8 := rfl
  rw [datagram, List.length_take, List.length_append, List.length_cons, hcode, stringSize,
    ← List.length_eq_zero_iff]
  omega

/-- The first byte of a text is seen in the datagram. -/
theorem getElem?_datagram (n : ℕ) (toAppend : Text) : (datagram n toAppend)[9]? = toAppend[0]? := by
  have hcode : messageCode.length = 8 := rfl
  rw [datagram, List.getElem?_take, if_pos (by rw [stringSize]; omega),
    List.getElem?_append_right (by omega), hcode]
  rfl

theorem body_getElem? {c k n : ℕ} {contents : List Text} (hlen : contents.length = c)
    (hn : 1 ≤ n) (hshown : ¬Blank c k n) : (body c k contents n)[0]?
      = some ((contents.getD (offset c k n % c) []).headD newline) := by
  obtain ⟨count, hcount⟩ : ∃ count, n + (-toInt32 k).toNat = count + 1 := ⟨n - 1 + (-toInt32 k).toNat, by omega⟩
  rw [body, if_neg hshown, hcount, shown, hlen]
  cases contents.getD (offset c k n % c) [] with
  | nil => rfl
  | cons b t => rfl

theorem offset_lt {c : ℕ} (hc : 0 < c) (k n : ℕ) : offset c k n < c := by
  have hnonneg : 0 ≤ (toInt32 k - n - k) % c := Int.emod_nonneg _ (by omega)
  have hlt : (toInt32 k - n - k) % c < c := Int.emod_lt_of_pos _ (by omega)
  rw [offset]
  omega

/-- **Only counters that agree reply the same**: what an empty part, the length of a part and the first
line of it tell of the counter. -/
theorem agree_of_repliesAgree {c k₁ k₂ : ℕ} (hc : 0 < c) (hint : c < 2 ^ 31) (h₁ : c ≤ k₁)
    (h₂ : c ≤ k₂) (h : RepliesAgree c hc k₁ k₂) : Agree c k₁ k₂ := by
  have hempty : ∀ t ∈ List.replicate c ([] : Text), t.length ≤ 140 ∧ nul ∉ t := by
    intro t ht
    obtain rfl := List.eq_of_mem_replicate ht
    simp
  have hblank : ∀ n, 1 ≤ n → n ≤ c → (Blank c k₁ n ↔ Blank c k₂ n) := by
    intro n hn hnc
    have hsame := (datagram_of_repliesAgree hint h₁ h₂ h hn hnc List.length_replicate hempty).2.2
    rw [← body_eq_nil_iff hn (List.replicate c []), ← length_datagram_iff n, hsame,
      length_datagram_iff, body_eq_nil_iff hn]
  obtain ⟨hdefined₁, hdefined₂, -⟩ :=
    datagram_of_repliesAgree hint h₁ h₂ h hc le_rfl List.length_replicate hempty
  refine ⟨hdefined₁, hdefined₂, ?_⟩
  have hone := hblank 1 le_rfl hc
  by_cases hblank₁ : Blank c k₁ 1
  · exact Or.inl ⟨hblank₁, hone.mp hblank₁⟩
  have hblank₂ : ¬Blank c k₂ 1 := fun hnot => hblank₁ (hone.mpr hnot)
  refine Or.inr ⟨hblank₁, hblank₂, ?_, ?_⟩
  · -- the request that fills the ring of one counter
    have hfull₁ := hblank (c + min 0 (toInt32 k₁)).toNat
    have hfull₂ := hblank (c + min 0 (toInt32 k₂)).toNat
    rw [Blank] at hblank₁ hblank₂
    rw [Blank, Blank] at hfull₁ hfull₂
    omega
  · -- the first line of the request for one message
    obtain ⟨p, hp⟩ : ∃ p, offset c k₁ 1 = p := ⟨_, rfl⟩
    have hplt : p < c := hp ▸ offset_lt hc k₁ 1
    have hlen : ((List.replicate c ([] : Text)).set p [97]).length = c := by
      rw [List.length_set, List.length_replicate]
    have hcontents : ∀ t ∈ (List.replicate c ([] : Text)).set p [97], t.length ≤ 140 ∧ nul ∉ t := by
      intro t ht
      rcases List.mem_or_eq_of_mem_set ht with ht | rfl
      · exact hempty t ht
      · decide
    have hsame := (datagram_of_repliesAgree hint h₁ h₂ h le_rfl hc hlen hcontents).2.2
    have hfirst := congrArg (fun d : Text => d[9]?) hsame
    simp only [getElem?_datagram] at hfirst
    rw [body_getElem? hlen le_rfl hblank₁, body_getElem? hlen le_rfl hblank₂, hp,
      Nat.mod_eq_of_lt hplt, Nat.mod_eq_of_lt (offset_lt hc k₂ 1)] at hfirst
    have hoffset : offset c k₂ 1 = p := by
      by_contra hne
      have hlt := offset_lt hc k₂ 1
      rw [List.getD_eq_getElem _ _ (by omega), List.getD_eq_getElem _ _ (by omega),
        List.getElem_set_self, List.getElem_set_ne (Ne.symm hne), List.getElem_replicate] at hfirst
      exact absurd (Option.some.inj hfirst) (by decide)
    have hnonneg₁ : 0 ≤ (toInt32 k₁ - (1 : ℕ) - k₁) % c := Int.emod_nonneg _ (by omega)
    have hnonneg₂ : 0 ≤ (toInt32 k₂ - (1 : ℕ) - k₂) % c := Int.emod_nonneg _ (by omega)
    have hmod : (toInt32 k₂ - (1 : ℕ) - k₂) ≡ (toInt32 k₁ - (1 : ℕ) - k₁) [ZMOD c] := by
      rw [offset] at hp hoffset
      show (toInt32 k₂ - (1 : ℕ) - k₂) % c = (toInt32 k₁ - (1 : ℕ) - k₁) % c
      omega
    convert hmod.dvd using 1
    ring

/-- **The replies depend only on the retained messages** exactly for counters that agree. -/
theorem replies_agree_iff {c k₁ k₂ : ℕ} (hc : 0 < c) (hint : c < 2 ^ 31) (h₁ : c ≤ k₁) (h₂ : c ≤ k₂) :
    RepliesAgree c hc k₁ k₂ ↔ Agree c k₁ k₂ :=
  ⟨agree_of_repliesAgree hc hint h₁ h₂, repliesAgree_of_agree hc hint h₁ h₂⟩

/-- Below `2 ^ 31` additions all counters agree. -/
theorem agree_of_lt {c k₁ k₂ : ℕ} (hint : c < 2 ^ 31) (h₁ : c ≤ k₁) (h₂ : c ≤ k₂) (hc : 0 < c)
    (hk₁ : k₁ < 2 ^ 31) (hk₂ : k₂ < 2 ^ 31) : Agree c k₁ k₂ := by
  rw [Agree, Blank, Blank, toInt32_of_lt hk₁, toInt32_of_lt hk₂]
  refine ⟨by omega, by omega, Or.inr ⟨by omega, by omega, by omega, ?_⟩⟩
  simp

theorem replies_agree_iff_five : RepliesAgree 2 (by decide) 3 5 :=
  (replies_agree_iff (by decide) (by decide) (by decide) (by decide)).mpr (by rw [Agree]; decide)

/-- **One message, and `2 ^ 31 + 1` additions that leave the same one**: a request for it is answered
with it, and with nothing. -/
theorem counter_narrowed : ¬∀ (c : ℕ) (hc : 0 < c) (k₁ k₂ : ℕ), c < 2 ^ 31 → c ≤ k₁ → c ≤ k₂ →
    k₁ < 2 ^ 64 → k₂ < 2 ^ 64 → RepliesAgree c hc k₁ k₂ := by
  intro h
  have hagree := agree_of_repliesAgree (by decide) (by decide) (by decide) (by decide)
    (h 1 (by decide) 1 (2 ^ 31 + 1) (by decide) (by decide) (by decide) (by decide) (by decide))
  rw [Agree] at hagree
  revert hagree
  decide

end RetainedReplies

end MessageBoard
