import MessageBoard.Lib.CText

/-!
# Decimal numbers and `sscanf`

The printing and scanning of the C library, as far as text protocols use it: `%d` printing
(`decimal`, `decimalInt`), `atoi` over a saturating 64-bit `strtol`, and `sscanf` as an
interpreter of conversion directives.  `scan ds s` is the list of the fields the directives `ds`
store when they read `s`; its length is the value `sscanf` returns, which stops at the first
directive that does not match.

* `digitsVal_decimal`, `atoi_decimal` — printing and reading a number is the identity;
* `take_decimal` — a number that was cut is a quotient;
* `scan_set`, `scan_lit`, `scan_word`, `scan_ushort` — one rule for each directive.
-/

namespace MessageBoard.CScan

open MessageBoard.CText

/-- `isspace` in the C locale. -/
def isSpace (b : Byte) : Bool := b == space || (9 ≤ b && b ≤ 13)

def isDigit (b : Byte) : Bool := 48 ≤ b && b ≤ 57

/-! ### Printing -/

/-- `%d` of a non-negative number. -/
def decimal (n : ℕ) : Text := (Nat.toDigits 10 n).map fun c => UInt8.ofNat c.toNat

/-- `%d`. -/
def decimalInt : ℤ → Text
  | .ofNat n => decimal n
  | .negSucc n => 45 :: decimal (n + 1)

/-- The digit byte of `d`. -/
def digit (d : ℕ) : Byte := UInt8.ofNat (48 + d)

theorem toNat_digit {d : ℕ} (hd : d < 10) : (digit d).toNat = 48 + d := by
  rw [digit, UInt8.toNat_ofNat']
  omega

theorem isDigit_digit {d : ℕ} (hd : d < 10) : isDigit (digit d) = true := by
  have h := toNat_digit hd
  simp only [isDigit, Bool.and_eq_true, decide_eq_true_eq, UInt8.le_iff_toNat_le, h]
  exact ⟨Nat.le_add_right 48 d, by change 48 + d ≤ 57; omega⟩

theorem digitChar_eq_digit {d : ℕ} (hd : d < 10) :
    UInt8.ofNat (Nat.digitChar d).toNat = digit d := by
  interval_cases d <;> rfl

/-- The last digit comes off the end. -/
theorem decimal_eq (n : ℕ) :
    decimal n = (if n < 10 then [] else decimal (n / 10)) ++ [digit (n % 10)] := by
  rw [decimal, Nat.toDigits_eq_if (by omega)]
  split
  · rename_i hn
    rw [List.map_singleton, digitChar_eq_digit hn, Nat.mod_eq_of_lt hn, List.nil_append]
  · rw [List.map_append, List.map_singleton, digitChar_eq_digit (Nat.mod_lt n (by omega)), decimal]

theorem decimal_ne_nil (n : ℕ) : decimal n ≠ [] := by
  rw [decimal_eq]
  simp

theorem isDigit_of_mem_decimal (n : ℕ) : ∀ b ∈ decimal n, isDigit b = true := by
  induction n using Nat.strong_induction_on with
  | _ n ih =>
    intro b hb
    rw [decimal_eq] at hb
    rcases List.mem_append.mp hb with hb | hb
    · split at hb
      · simp at hb
      · exact ih (n / 10) (by omega) b hb
    · rw [List.mem_singleton.mp hb]
      exact isDigit_digit (Nat.mod_lt n (by omega))

theorem not_mem_decimal {b : Byte} (hb : isDigit b = false) (n : ℕ) : b ∉ decimal n := by
  intro hmem
  rw [isDigit_of_mem_decimal n b hmem] at hb
  exact Bool.noConfusion hb

/-- The text of an `int` has no other bytes than digits and a sign. -/
theorem not_mem_decimalInt {b : Byte} (hb : isDigit b = false) (hminus : b ≠ 45) (n : ℤ) :
    b ∉ decimalInt n := by
  cases n with
  | ofNat n => exact not_mem_decimal hb n
  | negSucc n =>
    rw [decimalInt, List.mem_cons, not_or]
    exact ⟨hminus, not_mem_decimal hb (n + 1)⟩

theorem length_decimal_eq (n : ℕ) :
    (decimal n).length = (if n < 10 then 0 else (decimal (n / 10)).length) + 1 := by
  conv_lhs => rw [decimal_eq n]
  rw [List.length_append, List.length_singleton]
  split <;> simp

/-- **Digits cut off the end** divide the number by a power of ten. -/
theorem take_decimal {n j : ℕ} (hj : j < (decimal n).length) :
    (decimal n).take ((decimal n).length - j) = decimal (n / 10 ^ j) := by
  induction j generalizing n with
  | zero => rw [Nat.sub_zero, List.take_length, pow_zero, Nat.div_one]
  | succ j ih =>
    have hlen := length_decimal_eq n
    by_cases hn : n < 10
    · rw [if_pos hn] at hlen
      omega
    · rw [if_neg hn] at hlen
      have hrec := ih (n := n / 10) (by omega)
      rw [Nat.div_div_eq_div_mul, ← pow_succ'] at hrec
      have hdigits := decimal_eq n
      rw [if_neg hn] at hdigits
      rw [← hrec, hlen, hdigits, List.take_append_of_le_length (by omega)]
      congr 1
      omega

/-- **The width of a number** is that of the power of ten it stays below. -/
theorem length_decimal_le_iff {n k : ℕ} : (decimal n).length ≤ k + 1 ↔ n < 10 ^ (k + 1) := by
  induction k generalizing n with
  | zero =>
    have hpos := List.length_pos_iff.mpr (decimal_ne_nil (n / 10))
    rw [length_decimal_eq]
    split <;> omega
  | succ k ih =>
    rw [length_decimal_eq, pow_succ]
    split
    · have := Nat.one_le_pow (k + 1) 10 (by omega)
      omega
    · have hdiv := @ih (n / 10)
      omega

theorem length_decimal_le {n k : ℕ} (hn : n < 10 ^ (k + 1)) : (decimal n).length ≤ k + 1 :=
  length_decimal_le_iff.mpr hn

/-! ### Reading numbers -/

/-- The value of a run of digits. -/
def digitsVal (s : Text) : ℕ := s.foldl (fun v b => 10 * v + (b.toNat - 48)) 0

/-- More digits make a number no smaller. -/
theorem digitsVal_take_le (s : Text) (k : ℕ) : digitsVal (s.take k) ≤ digitsVal s := by
  have hmore : ∀ (r : Text) (v : ℕ), v ≤ r.foldl (fun v b => 10 * v + (b.toNat - 48)) v := by
    intro r
    induction r with
    | nil => exact fun v => le_rfl
    | cons b r ih =>
      intro v
      have hstep := ih (10 * v + (b.toNat - 48))
      rw [List.foldl_cons]
      omega
  have hsplit : digitsVal s = (s.drop k).foldl (fun v b => 10 * v + (b.toNat - 48)) (digitsVal (s.take k)) := by
    rw [digitsVal, digitsVal, ← List.foldl_append, List.take_append_drop]
  rw [hsplit]
  exact hmore _ _

theorem digitsVal_decimal (n : ℕ) : digitsVal (decimal n) = n := by
  induction n using Nat.strong_induction_on with
  | _ n ih =>
    have hd := toNat_digit (Nat.mod_lt n (by omega : 10 > 0))
    rw [decimal_eq, digitsVal, List.foldl_append, List.foldl_cons, List.foldl_nil, hd]
    split
    · rename_i hn
      rw [List.foldl_nil]
      omega
    · have hrec := ih (n / 10) (by omega)
      rw [digitsVal] at hrec
      rw [hrec]
      omega

/-- An optional sign: whether it is a minus, and the text after it. -/
def splitSign : Text → Bool × Text
  | [] => (false, [])
  | b :: bs => if b = 45 then (true, bs) else if b = 43 then (false, bs) else (false, b :: bs)

/-- `strtol` in base ten on a 64-bit `long`: it saturates. -/
def strtol (s : Text) : ℤ :=
  let signed := splitSign (s.dropWhile isSpace)
  let v : ℤ := digitsVal (signed.2.takeWhile isDigit)
  max (-2 ^ 63) (min (2 ^ 63 - 1) (if signed.1 then -v else v))

/-- `atoi`: the `long` truncated to a 32-bit `int`. -/
def atoi (s : Text) : ℤ := Int.bmod (strtol s) (2 ^ 32)

theorem isDigit_toNat {b : Byte} (h : isDigit b = true) : 48 ≤ b.toNat ∧ b.toNat ≤ 57 := by
  simpa [isDigit, UInt8.le_iff_toNat_le] using h

theorem not_isSpace_of_isDigit {b : Byte} (h : isDigit b = true) : isSpace b = false := by
  have hb := isDigit_toNat h
  simp only [isSpace, space, Bool.or_eq_false_iff, beq_eq_false_iff_ne, Bool.and_eq_false_iff,
    decide_eq_false_iff_not, UInt8.le_iff_toNat_le]
  refine ⟨?_, Or.inr ?_⟩
  · rintro rfl
    exact absurd hb.1 (by decide)
  · change ¬b.toNat ≤ 13
    omega

theorem splitSign_of_isDigit {b : Byte} (h : isDigit b = true) (bs : Text) :
    splitSign (b :: bs) = (false, b :: bs) := by
  have hb := isDigit_toNat h
  rw [splitSign, if_neg, if_neg]
  · rintro rfl
    exact absurd hb.1 (by decide)
  · rintro rfl
    exact absurd hb.1 (by decide)

/-- The text `r` ends a run of elements satisfying `k`. -/
def Stops (k : Byte → Bool) (r : Text) : Prop := ∀ b ∈ r.head?, k b = false

theorem stops_nil (k : Byte → Bool) : Stops k [] := by intro b hb; simp at hb

theorem stops_cons {k : Byte → Bool} {b : Byte} (h : k b = false) (r : Text) : Stops k (b :: r) := by
  intro c hc
  rw [List.head?_cons, Option.mem_some_iff] at hc
  exact hc ▸ h

theorem stops_dropWhile (k : Byte → Bool) (s : Text) : Stops k (s.dropWhile k) := by
  intro b hb
  have hhead := List.head?_dropWhile_not k s
  rw [Option.mem_def.mp hb] at hhead
  exact hhead

theorem takeWhile_run {k : Byte → Bool} {a r : Text} (ha : ∀ b ∈ a, k b = true) (hr : Stops k r) :
    (a ++ r).takeWhile k = a := by
  induction a with
  | nil =>
    cases r with
    | nil => rfl
    | cons c r => simp [hr c (by simp)]
  | cons b a ih =>
    rw [List.cons_append, List.takeWhile_cons, if_pos (ha b (by simp)),
      ih fun c hc => ha c (by simp [hc])]

/-- A number printed in decimal starts neither with white space nor with a sign. -/
theorem splitSign_dropWhile_decimal (n : ℕ) (r : Text) :
    splitSign ((decimal n ++ r).dropWhile isSpace) = (false, decimal n ++ r) := by
  obtain ⟨b, bs, hb⟩ := List.exists_cons_of_ne_nil (decimal_ne_nil n)
  have hd : isDigit b = true := isDigit_of_mem_decimal n b (by simp [hb])
  rw [hb, List.cons_append, List.dropWhile_cons, if_neg (by simp [not_isSpace_of_isDigit hd]),
    splitSign_of_isDigit hd]

theorem strtol_decimal {n : ℕ} (hn : n < 2 ^ 63) {r : Text} (hr : Stops isDigit r) :
    strtol (decimal n ++ r) = n := by
  simp only [strtol, splitSign_dropWhile_decimal, takeWhile_run (isDigit_of_mem_decimal n) hr,
    digitsVal_decimal, Bool.false_eq_true, if_false]
  omega

theorem atoi_decimal {n : ℕ} (hn : n < 2 ^ 31) {r : Text} (hr : Stops isDigit r) :
    atoi (decimal n ++ r) = n := by
  rw [atoi, strtol_decimal (by omega) hr, Int.bmod_eq_of_le] <;> omega

/-- **A printed `int` is read back.** -/
theorem atoi_decimalInt {v : ℤ} (hlo : -2 ^ 31 ≤ v) (hhi : v < 2 ^ 31) : atoi (decimalInt v) = v := by
  cases v with
  | ofNat n =>
    rw [Int.ofNat_eq_natCast] at hhi
    have hread := atoi_decimal (n := n) (by omega) (stops_nil isDigit)
    rwa [List.append_nil] at hread
  | negSucc n =>
    have hsign : splitSign ((decimalInt (.negSucc n)).dropWhile isSpace) = (true, decimal (n + 1)) := by
      rw [decimalInt, List.dropWhile_cons, if_neg (by decide)]
      rfl
    have hrun := takeWhile_run (isDigit_of_mem_decimal (n + 1)) (stops_nil isDigit)
    rw [List.append_nil] at hrun
    have hlong : strtol (decimalInt (.negSucc n)) = .negSucc n := by
      simp only [strtol, hsign, hrun, digitsVal_decimal, if_true]
      omega
    rw [atoi, hlong, Int.bmod_eq_of_le] <;> omega

/-! ### `sscanf` -/

/-- A conversion directive of a format. -/
inductive Directive where
  /-- White space in the format. -/
  | white : Directive
  /-- Any other byte of the format. -/
  | lit : Byte → Directive
  /-- `%w[...]`, or `%*w[...]` when nothing is stored; without a width the run is unbounded. -/
  | set : (Byte → Bool) → Option ℕ → Bool → Directive
  /-- `%s`. -/
  | word : Directive
  /-- `%hu`. -/
  | ushort : Directive

/-- A value stored by a conversion. -/
inductive Field where
  | text : Text → Field
  | num : ℕ → Field
  deriving DecidableEq, Repr

/-- The longest run of bytes satisfying `k`, cut at the width. -/
def spanWidth (k : Byte → Bool) : Option ℕ → Text → Text
  | none, s => s.takeWhile k
  | some w, s => (s.takeWhile k).take w

/-- `strtoul` on a 64-bit `unsigned long`, cut to an `unsigned short`. -/
def toUshort (minus : Bool) (v : ℕ) : ℕ :=
  (if 2 ^ 64 ≤ v then 2 ^ 64 - 1 else if minus then 2 ^ 64 - v else v) % 2 ^ 16

/-- One directive: the fields it stores and the rest of the input, or a matching failure. -/
def Directive.read : Directive → Text → Option (List Field × Text)
  | .white, s => some ([], s.dropWhile isSpace)
  | .lit b, s =>
      match s with
      | c :: r => if c = b then some ([], r) else none
      | [] => none
  | .set k w store, s =>
      let a := spanWidth k w s
      if a.isEmpty then none
      else some (if store then [.text a] else [], s.drop a.length)
  | .word, s =>
      let s := s.dropWhile isSpace
      let a := s.takeWhile fun b => !isSpace b
      if a.isEmpty then none else some ([.text a], s.drop a.length)
  | .ushort, s =>
      let signed := splitSign (s.dropWhile isSpace)
      let a := signed.2.takeWhile isDigit
      if a.isEmpty then none
      else some ([.num (toUshort signed.1 (digitsVal a))], signed.2.drop a.length)

/-- The fields `sscanf` stores; their number is its return value. -/
def scan : List Directive → Text → List Field
  | [], _ => []
  | d :: ds, s =>
      match d.read s with
      | none => []
      | some (fields, r) => fields ++ scan ds r

theorem scan_lit (b : Byte) (ds : List Directive) (r : Text) :
    scan (.lit b :: ds) (b :: r) = scan ds r := by
  simp [scan, Directive.read]

theorem scan_set_fail {k : Byte → Bool} {w : Option ℕ} {s : Text} (hs : Stops k s) (store : Bool)
    (ds : List Directive) : scan (.set k w store :: ds) s = [] := by
  have hspan : spanWidth k w s = [] := by
    have h := takeWhile_run (k := k) (a := []) (by simp) hs
    rw [List.nil_append] at h
    cases w <;> simp [spanWidth, h]
  simp [scan, Directive.read, hspan]

/-- An unbounded scanset reads the whole run. -/
theorem scan_set {k : Byte → Bool} {a r : Text} (ha : ∀ b ∈ a, k b = true) (hr : Stops k r)
    (hne : a ≠ []) (ds : List Directive) :
    scan (.set k none true :: ds) (a ++ r) = .text a :: scan ds r := by
  have hspan : spanWidth k none (a ++ r) = a := takeWhile_run ha hr
  simp [scan, Directive.read, hspan, hne]

/-- A suppressed scanset skips the whole run. -/
theorem scan_skip {k : Byte → Bool} {a r : Text} (ha : ∀ b ∈ a, k b = true) (hr : Stops k r)
    (hne : a ≠ []) (ds : List Directive) :
    scan (.set k none false :: ds) (a ++ r) = scan ds r := by
  have hspan : spanWidth k none (a ++ r) = a := takeWhile_run ha hr
  simp [scan, Directive.read, hspan, hne]

/-- A bounded scanset that is the last directive stores the run cut at its width. -/
theorem scan_set_width (k : Byte → Bool) {w : ℕ} (hw : 0 < w) {a r : Text}
    (ha : ∀ b ∈ a, k b = true) (hr : Stops k r) (hne : a ≠ []) :
    scan [.set k (some w) true] (a ++ r) = [.text (a.take w)] := by
  have hspan : spanWidth k (some w) (a ++ r) = a.take w := by
    rw [spanWidth, takeWhile_run ha hr]
  have htake : a.take w ≠ [] := by
    simp [hne, Nat.pos_iff_ne_zero.mp hw]
  simp [scan, Directive.read, hspan, htake]

/-- On any text: the run, cut at the width, or nothing. -/
theorem scan_set_last (k : Byte → Bool) {w : ℕ} (hw : 0 < w) (s : Text) :
    scan [.set k (some w) true] s
      = if s.takeWhile k = [] then [] else [.text ((s.takeWhile k).take w)] := by
  have hsplit := List.takeWhile_append_dropWhile (p := k) (l := s)
  split
  · rename_i hnil
    rw [hnil, List.nil_append] at hsplit
    exact scan_set_fail (hsplit ▸ stops_dropWhile k s) true []
  · rename_i hne
    conv_lhs => rw [← hsplit]
    exact scan_set_width k hw (fun b hb => List.mem_takeWhile_imp hb) (stops_dropWhile k s) hne

theorem scan_word {a r : Text} (ha : ∀ b ∈ a, isSpace b = false)
    (hr : Stops (fun b => !isSpace b) r) (hne : a ≠ []) (ds : List Directive) :
    scan (.word :: ds) (a ++ r) = .text a :: scan ds r := by
  obtain ⟨b, bs, rfl⟩ := List.exists_cons_of_ne_nil hne
  have hdrop : (b :: bs ++ r).dropWhile isSpace = b :: bs ++ r := by
    rw [List.cons_append, List.dropWhile_cons, if_neg (by simp [ha b (by simp)])]
  have hrun : (b :: bs ++ r).takeWhile (fun c => !isSpace c) = b :: bs :=
    takeWhile_run (by simpa using ha) hr
  simp only [scan, Directive.read, hdrop, hrun]
  simp

/-- `%hu` reads back a port printed in decimal. -/
theorem scan_ushort {n : ℕ} (hn : n < 2 ^ 16) {r : Text} (hr : Stops isDigit r)
    (ds : List Directive) :
    scan (.ushort :: ds) (decimal n ++ r) = .num n :: scan ds r := by
  have hval : toUshort false (digitsVal (decimal n)) = n := by
    rw [digitsVal_decimal, toUshort, if_neg (by omega)]
    simpa using hn
  simp only [scan, Directive.read, splitSign_dropWhile_decimal,
    takeWhile_run (isDigit_of_mem_decimal n) hr, hval]
  simp [decimal_ne_nil]

/-- Numbers and literal bytes store no text. -/
theorem num_of_mem_scan {ds : List Directive} (hds : ∀ d ∈ ds, d = .ushort ∨ ∃ b, d = .lit b)
    {s : Text} {f : Field} (hf : f ∈ scan ds s) : ∃ n, f = .num n := by
  induction ds generalizing s with
  | nil => simp [scan] at hf
  | cons d ds ih =>
    have hrest := fun d hd => hds d (List.mem_cons_of_mem _ hd)
    rw [scan] at hf
    cases hread : d.read s with
    | none => simp [hread] at hf
    | some p =>
      simp only [hread, List.mem_append] at hf
      rcases hf with hf | hf
      · rcases hds d List.mem_cons_self with rfl | ⟨b, rfl⟩
        · simp only [Directive.read] at hread
          split at hread
          · simp at hread
          · rw [← Option.some.inj hread] at hf
            exact ⟨_, List.mem_singleton.mp hf⟩
        · simp only [Directive.read] at hread
          split at hread
          · split at hread
            · rw [← Option.some.inj hread] at hf
              simp at hf
            · simp at hread
          · simp at hread
      · exact ih hrest hf

end MessageBoard.CScan
