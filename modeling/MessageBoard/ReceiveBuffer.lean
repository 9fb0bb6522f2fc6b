import MessageBoard.Lib.Run
import MessageBoard.RmbMessage

/-!
# The receive buffer of the client

`_size_to_alloc` and `_response_buffer` outlive the calls of `handle_incoming_messages`, and the buffer
only grows.  The space for a request is computed in an `unsigned int`, and stored in 64 bits.

* `reserveSpace_eq` — a request whose space is below `2 ^ 32` bytes has it afterwards;
* `buffer_fits_iff` — **exactly the requests for fewer than `2 ^ 23 - 1` messages fit**, in any order.
-/

namespace MessageBoard

open Run

namespace Rmb

namespace ReceiveBuffer

/-- `_size_to_alloc`, and how many bytes `_response_buffer` has if it is not `NULL`. -/
structure Buffer where
  sizeToAlloc : ℕ
  responseBuffer : Option ℕ
  deriving DecidableEq

/-- Their first values. -/
def Buffer.start : Buffer := ⟨responseSize, none⟩

/-- The space reservation: the product is an `unsigned int`, and `realloc` succeeds. -/
def reserveSpace (b : Buffer) (num : ℕ) : Buffer :=
  let size := ((num + 1) * responseSize) % 2 ^ 32
  if b.sizeToAlloc ≤ size then ⟨size, some size⟩ else b

/-- A call of `handle_incoming_messages`: `memset` and `recvfrom` are given `_size_to_alloc` bytes of
the buffer, which has to have them. -/
def handleIncoming (b : Buffer) (num : ℕ) : Option Buffer :=
  let b := reserveSpace b num
  if b.responseBuffer.any fun size => b.sizeToAlloc ≤ size then some b else none

/-- At `memset` and `recvfrom` the buffer is allocated with `_size_to_alloc` bytes, which are enough
for the request, and no fewer than before. -/
structure Fits (b : Buffer) (num : ℕ) : Prop where
  allocated : (reserveSpace b num).responseBuffer = some (reserveSpace b num).sizeToAlloc
  enough : (num + 1) * responseSize ≤ (reserveSpace b num).sizeToAlloc
  grows : b.sizeToAlloc ≤ (reserveSpace b num).sizeToAlloc

/-- What ties the two variables together: there is no buffer before the first request only. -/
structure Tied (b : Buffer) : Prop where
  atLeast : responseSize ≤ b.sizeToAlloc
  word : b.sizeToAlloc < 2 ^ 32
  buffer : b = .start ∨ b.responseBuffer = some b.sizeToAlloc

theorem tied_start : Tied .start := ⟨le_rfl, by decide, Or.inl rfl⟩

/-! ### One request -/

/-- The size is the one `reserve` keeps. -/
theorem sizeToAlloc_reserve (st : Statics) (num : ℕ) (buffer : Option ℕ) :
    (reserve st num).sizeToAlloc = (reserveSpace ⟨st.sizeToAlloc, buffer⟩ num).sizeToAlloc := by
  simp only [reserve, reserveSpace]
  split <;> rfl

/-- **The size never goes down**, whatever the product is. -/
theorem sizeToAlloc_le_reserveSpace (b : Buffer) (num : ℕ) :
    b.sizeToAlloc ≤ (reserveSpace b num).sizeToAlloc := by
  simp only [reserveSpace]
  split
  · rename_i hle
    exact hle
  · exact le_rfl

/-- A size is the low word of a product, or the one that was there. -/
theorem Tied.reserveSpace {b : Buffer} (h : Tied b) (num : ℕ) : Tied (reserveSpace b num) where
  atLeast := h.atLeast.trans (sizeToAlloc_le_reserveSpace b num)
  word := by
    simp only [ReceiveBuffer.reserveSpace]
    split
    · exact Nat.mod_lt _ (by decide)
    · exact h.word
  buffer := by
    simp only [ReceiveBuffer.reserveSpace]
    split
    · exact Or.inr rfl
    · exact h.buffer

/-- **A request whose space is below `2 ^ 32` bytes** is given the space or finds more. -/
theorem reserveSpace_eq {b : Buffer} (h : Tied b) {num : ℕ} (hnum : num + 1 < 2 ^ 23) :
    reserveSpace b num
      = ⟨max b.sizeToAlloc ((num + 1) * responseSize), some (max b.sizeToAlloc ((num + 1) * responseSize))⟩ := by
  have hsize : ((num + 1) * responseSize) % 2 ^ 32 = (num + 1) * responseSize := by
    rw [responseSize, Nat.mod_eq_of_lt]
    omega
  have hone : responseSize ≤ (num + 1) * responseSize := Nat.le_mul_of_pos_left _ (Nat.succ_pos num)
  simp only [reserveSpace, hsize]
  split
  · rename_i hle
    rw [max_eq_right hle]
  · rename_i hlt
    rw [max_eq_left (by omega)]
    rcases h.buffer with rfl | hbuffer
    · exact absurd hone hlt
    · rw [← hbuffer]

theorem fits_iff {b : Buffer} (h : Tied b) (num : ℕ) : Fits b num ↔ num + 1 < 2 ^ 23 := by
  constructor
  · intro hfits
    have henough := hfits.enough
    have hword := (h.reserveSpace num).word
    rw [responseSize] at henough
    omega
  · intro hnum
    have heq := reserveSpace_eq h hnum
    refine ⟨by rw [heq], ?_, sizeToAlloc_le_reserveSpace b num⟩
    rw [heq]
    exact le_max_right _ _

/-! ### Any requests -/

theorem tied_handleIncoming (b : Buffer) (num : ℕ) (b' : Buffer) (h : Tied b)
    (hcall : handleIncoming b num = some b') : Tied b' := by
  simp only [handleIncoming] at hcall
  split at hcall
  · exact Option.some.inj hcall ▸ h.reserveSpace num
  · simp at hcall

/-- A request that fits is no fault. -/
theorem handleIncoming_of_fits {b : Buffer} {num : ℕ} (h : Fits b num) :
    handleIncoming b num = some (reserveSpace b num) := by
  simp [handleIncoming, h.allocated]

/-- **The buffer fits every request of a run** exactly if every one is for fewer than `2 ^ 23 - 1`
messages. -/
theorem buffer_fits_iff (nums : List ℕ) :
    Meets handleIncoming Fits .start nums ↔ ∀ num ∈ nums, num + 1 < 2 ^ 23 := by
  obtain ⟨b, hb, htied⟩ : ∃ b, b = Buffer.start ∧ Tied b := ⟨_, rfl, tied_start⟩
  rw [← hb]
  clear hb
  induction nums generalizing b with
  | nil => exact iff_of_true trivial (by simp)
  | cons num nums ih =>
    rw [Meets, fits_iff htied, List.forall_mem_cons]
    apply and_congr_right
    intro hnum
    have hcall := handleIncoming_of_fits ((fits_iff htied num).mpr hnum)
    constructor
    · exact fun hrest => (ih _ (htied.reserveSpace num)).mp (hrest _ hcall)
    · intro hrest b' hb'
      exact (ih _ (tied_handleIncoming b num b' htied hb')).mpr hrest

/-- **The first request is for `2 ^ 23 - 1` messages**: the product is zero, and there is no buffer. -/
theorem no_buffer : (reserveSpace .start 8388607).responseBuffer = none
    ∧ ¬∀ nums : List ℕ, (∀ num ∈ nums, num < 2 ^ 31) → Meets handleIncoming Fits .start nums := by
  refine ⟨by decide, fun h => ?_⟩
  have hfits : Fits .start 8388607 := (h [8388607] (by decide)).1
  exact absurd hfits.allocated (by decide)

end ReceiveBuffer

end Rmb

end MessageBoard
