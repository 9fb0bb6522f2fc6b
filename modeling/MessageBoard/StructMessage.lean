import MessageBoard.Lib.CScan
import MessageBoard.UtilMatrix

/-!
# `struct_message`: messages and the text of the last `n`

A message is its logical clock and its content.  `getFirstNMessages` walks the matrix with the
three loops of the source, which differ only in where they start and how many slots they visit
(`appendFrom`).  Buffers are strings here; the cuts that `snprintf` and `strncat` make are kept.

* `appendFrom_holds` — a loop inside the window of a matrix renders that part of the history;
* `getFirstNMessages_last` — at most as many as are stored: the last `n` messages;
* `getFirstNMessages_whole` — more than are stored: the whole history, whatever `overflow` says.
-/

namespace MessageBoard

open CText CScan

/-- `STRING_SIZE`. -/
def stringSize : ℕ := 141

/-- `RESPONSE_SIZE`. -/
def responseSize : ℕ := 512

/-- Conversion of an unsigned counter to `int`. -/
def toInt32 (n : ℕ) : ℤ :=
  if n % 2 ^ 32 < 2 ^ 31 then (n % 2 ^ 32 : ℕ) else (n % 2 ^ 32 : ℕ) - 2 ^ 32

theorem toInt32_of_lt {n : ℕ} (h : n < 2 ^ 31) : toInt32 n = n := by
  have hmod : n % 2 ^ 32 = n := Nat.mod_eq_of_lt (by omega)
  rw [toInt32, hmod, if_pos h]

theorem toInt32_range (n : ℕ) : -2 ^ 31 ≤ toInt32 n ∧ toInt32 n < 2 ^ 31 := by
  rw [toInt32]
  split <;> omega

theorem length_decimalInt_toInt32 (n : ℕ) : (decimalInt (toInt32 n)).length ≤ 11 := by
  have hrange := toInt32_range n
  cases hv : toInt32 n with
  | ofNat k =>
    rw [hv, Int.ofNat_eq_natCast] at hrange
    have := length_decimal_le (n := k) (k := 9) (by omega)
    rw [decimalInt]
    omega
  | negSucc k =>
    rw [hv] at hrange
    have := length_decimal_le (n := k + 1) (k := 9) (by omega)
    rw [decimalInt, List.length_cons]
    omega

/-- `struct _message`. -/
structure Message where
  lc : ℕ
  content : Text
  deriving DecidableEq, Repr

/-- `new_message`: the message takes the clock, and the clock (64 bits) moves on.  The content is
cut at `STRING_SIZE - 1` bytes. -/
def newMessage (gLc : ℕ) (src : Text) : Message × ℕ :=
  (⟨gLc, src.take (stringSize - 1)⟩, (gLc + 1) % 2 ^ 64)

def getLc (m : Message) : ℤ := toInt32 m.lc

def getString (m : Message) : Text := m.content

/-- `MSG_W_LC` and `MSG_WO_LC`. -/
inductive Mode where
  | withLc
  | withoutLc
  deriving DecidableEq, Repr

/-- `"%d;%s"`: the text of a message with its clock. -/
def clockLine (m : Message) : Text := decimalInt (getLc m) ++ semicolon :: getString m

theorem length_clockLine_le {m : Message} (hm : m.content.length ≤ 140) :
    (clockLine m).length ≤ 152 := by
  have hclock := length_decimalInt_toInt32 m.lc
  rw [clockLine, getLc, getString, List.length_append, List.length_cons]
  omega

/-- What `snprintf` writes into `to_append`, with its newline. -/
def messageLine (mode : Mode) (m : Message) : Text :=
  match mode with
  | .withLc => (clockLine m ++ [newline]).take (stringSize * 2 - 1)
  | .withoutLc => (getString m ++ [newline]).take (stringSize * 2 - 1)

/-- One loop of `get_first_n_messages`: `count` slots from index `start`, up to the first empty one.
`strncat` appends at most `STRING_SIZE * n` bytes. -/
def appendFrom (m : Matrix Message) (n : ℕ) (mode : Mode) : ℕ → ℕ → Text
  | _, 0 => []
  | start, count + 1 =>
      match m.getElement start with
      | none => []
      | some x => (messageLine mode x).take (stringSize * n) ++ appendFrom m n mode (start + 1) count

/-- `get_first_n_messages`; `none` is `NULL`.  A negative `n` makes `malloc` fail. -/
def getFirstNMessages (m : Matrix Message) (n : ℤ) (mode : Mode) : Option Text :=
  let listSize := toInt32 m.getSize
  if listSize = 0 then none
  else if n < 0 then none
  else
    let i := listSize - n
    if i < 0 then
      let j := ((m.getCapacity + i) % 2 ^ 64).toNat
      some ((if m.getOverflow then appendFrom m n.toNat mode j (m.getCapacity - j) else [])
        ++ appendFrom m n.toNat mode 0 listSize.toNat)
    else some (appendFrom m n.toNat mode i.toNat (listSize - i).toNat)

/-! ### What the loops render -/

/-- The text of a history. -/
def historyText (n : ℕ) (mode : Mode) (xs : List Message) : Text :=
  xs.flatMap fun x => (messageLine mode x).take (stringSize * n)

/-- **A loop inside the window renders that part of the history.** -/
theorem appendFrom_holds {m : Matrix Message} {xs : List Message} (h : m.Holds xs) (n : ℕ)
    (mode : Mode) (start count : ℕ) (hend : start + count = xs.length)
    (hwin : xs.length ≤ start + m.getCapacity) :
    appendFrom m n mode start count = historyText n mode (xs.drop start) := by
  induction count generalizing start with
  | zero => rw [List.drop_eq_nil_of_le (by omega)]; rfl
  | succ count ih =>
    have hlt : start < xs.length := by omega
    rw [appendFrom, h.window start hlt hwin, ih (start + 1) (by omega) (by omega),
      List.drop_eq_getElem_cons hlt, historyText, historyText, List.flatMap_cons]

/-- A loop that starts at an unwritten slot stops at once. -/
theorem appendFrom_unwritten {m : Matrix Message} {xs : List Message} (h : m.Holds xs) (n : ℕ)
    (mode : Mode) (start count : ℕ) (hs : xs.length ≤ start) (hc : start + count ≤ m.getCapacity) :
    appendFrom m n mode start count = [] := by
  cases count with
  | zero => rfl
  | succ count => rw [appendFrom, h.unwritten start hs (by omega)]

theorem getFirstNMessages_empty {m : Matrix Message} (h : m.Holds []) (n : ℤ) (mode : Mode) :
    getFirstNMessages m n mode = none := by
  have hsize : toInt32 m.getSize = 0 := by
    rw [h.size_eq]
    rfl
  rw [getFirstNMessages, if_pos hsize]

/-- **The last `n` messages**, for any `n` up to the number stored and the capacity. -/
theorem getFirstNMessages_last {m : Matrix Message} {xs : List Message} (h : m.Holds xs)
    (mode : Mode) {n : ℕ} (hn : 0 < n) (hnk : n ≤ xs.length) (hnc : n ≤ m.getCapacity)
    (hk : xs.length < 2 ^ 31) :
    getFirstNMessages m n mode = some (historyText n mode (xs.drop (xs.length - n))) := by
  have hsize : toInt32 m.getSize = xs.length := by rw [h.size_eq, toInt32_of_lt hk]
  have hi : ((xs.length : ℤ) - n).toNat = xs.length - n := by omega
  have hcount : ((xs.length : ℤ) - (xs.length - n)).toNat = n := by omega
  simp only [getFirstNMessages, hsize]
  rw [if_neg (by omega), if_neg (by omega), if_neg (by omega), hi, hcount, Int.toNat_natCast,
    appendFrom_holds h n mode (xs.length - n) n (by omega) (by omega)]

/-- **The whole history**, when more messages are asked for than there are.  The first loop of the
source, guarded by the flag `create_matrix` leaves unset, then finds an empty slot at once. -/
theorem getFirstNMessages_whole {m : Matrix Message} {xs : List Message} (h : m.Holds xs)
    (mode : Mode) (hne : xs ≠ []) {n : ℕ} (hkn : xs.length < n) (hnc : n ≤ m.getCapacity)
    (hk : xs.length < 2 ^ 31) (hc : m.getCapacity < 2 ^ 64) :
    getFirstNMessages m n mode = some (historyText n mode xs) := by
  have hpos : 0 < xs.length := List.length_pos_iff.mpr hne
  have hsize : toInt32 m.getSize = xs.length := by rw [h.size_eq, toInt32_of_lt hk]
  have hj : (((m.getCapacity : ℤ) + (xs.length - n)) % 2 ^ 64).toNat
      = m.getCapacity - (n - xs.length) := by
    omega
  have hfirst := appendFrom_unwritten h n mode (m.getCapacity - (n - xs.length))
    (m.getCapacity - (m.getCapacity - (n - xs.length))) (by omega) (by omega)
  have hsecond := appendFrom_holds h n mode 0 xs.length (by omega) (by omega)
  simp only [getFirstNMessages, hsize]
  rw [if_neg (by omega), if_neg (by omega), if_pos (by omega), hj, Int.toNat_natCast,
    Int.toNat_natCast, hfirst, hsecond, List.drop_zero, ite_self, List.nil_append]

/-- The same when `n` is the capacity and nothing was overwritten. -/
theorem getFirstNMessages_all {m : Matrix Message} {xs : List Message} (h : m.Holds xs)
    (mode : Mode) (hne : xs ≠ []) (hk : xs.length ≤ m.getCapacity) (hc : m.getCapacity < 2 ^ 31) :
    getFirstNMessages m m.getCapacity mode = some (historyText m.getCapacity mode xs) := by
  have hpos : 0 < xs.length := List.length_pos_iff.mpr hne
  rcases Nat.lt_or_ge xs.length m.getCapacity with hlt | hge
  · exact getFirstNMessages_whole h mode hne hlt le_rfl (by omega) (by omega)
  · have heq : xs.length = m.getCapacity := by omega
    have hlast := getFirstNMessages_last h mode (n := m.getCapacity) (by omega) (by omega) le_rfl
      (by omega)
    rwa [heq, Nat.sub_self, List.drop_zero] at hlast

end MessageBoard
