import MessageBoard.IdservMain
import MessageBoard.Lib.Run

/-!
# Which branch a datagram takes

`handleUDPConn` looks at the first four and the first eleven bytes of a buffer that is never cleared,
and cuts it relative to the length just read.  Here every slice and index expression is written out
with its bounds; one that is out of range ends the program.

* `byteAt_of_run` — the bytes in the buffer are those of the last datagram that was long enough;
* `handleUDPConn_eq_slices` — with a whole buffer the loop ends only at `buf[4:n-2]`;
* `survives_iff` — **the server survives exactly the sequences without a short `REG`**;
* `dispatched_alike_iff` — **a datagram takes the same branch after every history** exactly if earlier
  bytes cannot complete it.
-/

namespace MessageBoard

open CText CScan Run

namespace Idserv

/-! ### The expressions that may end the program -/

/-- `s[low:high]` -/
def slice (s : Text) (low high : ℤ) : Option Text :=
  if 0 ≤ low ∧ low ≤ high ∧ high ≤ s.length then some ((s.take high.toNat).drop low.toNat) else none

/-- `strings.Contains`. -/
def contains (s sub : Text) : Bool := decide (sub <:+: s)

/-- The buffer after `ReadFromUDP`. -/
def readFromUDP (buf datagram : Text) : Text :=
  datagram.take bufSize ++ buf.drop (datagram.take bufSize).length

/-- The `switch` of `handleUDPConn`. -/
def dispatch (buf : Text) (n : ℕ) : Option Command :=
  (slice buf 0 4).bind fun s =>
    if contains s (ascii "REG") then (slice buf 4 (n - 2)).map .registration
    else
      (slice buf 0 11).bind fun s =>
        if contains s (ascii "GET_SERVERS") then some .serverRequest
        else (slice buf 0 n).map fun _ => .unknown

/-- `handleRegistrations`, its accesses to `buffer` written out. -/
def handleRegistrationsAt (data : Text) : Option (Option Server) :=
  let buffer := data.splitOn semicolon
  if buffer.length < 4 then some none
  else
    buffer[0]?.bind fun name => buffer[1]?.bind fun ip => buffer[2]?.bind fun udpPort =>
      match atoi udpPort with
      | none => some none
      | some udpPort =>
          buffer[3]?.map fun tcpPort => (atoi tcpPort).map fun tcpPort => ⟨name, ip, udpPort, tcpPort⟩

/-- One turn of the loop and the handler it starts: the buffer, unless one of them ends the program. -/
def turn (buf datagram : Text) : Option Text :=
  let buf := readFromUDP buf datagram
  (dispatch buf (datagram.take bufSize).length).bind fun
    | .registration data => (handleRegistrationsAt data).map fun _ => buf
    | _ => some buf

/-- `make([]byte, 1024)`. -/
def zeros : Text := List.replicate bufSize nul

/-! ### Within the bounds -/

theorem slice_zero {s : Text} {n : ℕ} (hn : n ≤ s.length) : slice s 0 n = some (s.take n) := by
  rw [slice, if_pos (by omega)]
  simp

/-- `buf[4:n-2]`. -/
theorem slice_registration {s : Text} {n : ℕ} (hn : n ≤ s.length) :
    slice s 4 (n - 2) = if n < 6 then none else some ((s.take (n - 2)).drop 4) := by
  rw [slice]
  split
  · rename_i hbounds
    rw [if_neg (by omega)]
    congr 2
    congr 1
    omega
  · rename_i hbounds
    rw [if_pos (by omega)]

/-- **The accesses of `handleRegistrations` are within bounds.** -/
theorem handleRegistrationsAt_eq (data : Text) :
    handleRegistrationsAt data = some (handleRegistrations data) := by
  rw [handleRegistrationsAt, handleRegistrations]
  rcases data.splitOn semicolon with _ | ⟨name, _ | ⟨ip, _ | ⟨udpPort, _ | ⟨tcpPort, rest⟩⟩⟩⟩
  · rfl
  · rfl
  · rfl
  · rfl
  · rw [if_neg (by simp)]
    simp only [List.getElem?_cons_zero, List.getElem?_cons_succ, Option.bind_some, Option.map_some]
    cases atoi udpPort <;> rfl

theorem length_readFromUDP {buf : Text} (hbuf : buf.length = bufSize) (datagram : Text) :
    (readFromUDP buf datagram).length = bufSize := by
  rw [readFromUDP, List.length_append, List.length_drop, List.length_take, hbuf]
  omega

/-- **With a whole buffer only `buf[4:n-2]` can be out of range.** -/
theorem handleUDPConn_eq_slices {buf : Text} (hbuf : buf.length = bufSize) (datagram : Text) :
    handleUDPConn buf datagram
      = (dispatch (readFromUDP buf datagram) (datagram.take bufSize).length).map
          fun command => (readFromUDP buf datagram, command) := by
  have hlen := length_readFromUDP hbuf datagram
  have hn : (datagram.take bufSize).length ≤ (readFromUDP buf datagram).length := by
    rw [hlen, List.length_take]
    omega
  have hsize : bufSize = 1024 := rfl
  have h4 : slice (readFromUDP buf datagram) 0 4 = some ((readFromUDP buf datagram).take 4) :=
    slice_zero (n := 4) (by omega)
  have h11 : slice (readFromUDP buf datagram) 0 11 = some ((readFromUDP buf datagram).take 11) :=
    slice_zero (n := 11) (by omega)
  rw [dispatch, h4, Option.bind_some, h11, Option.bind_some, slice_registration hn, slice_zero hn]
  simp only [handleUDPConn, contains, startContains]
  rw [← readFromUDP]
  generalize (datagram.take bufSize).length = n
  by_cases hreg : ascii "REG" <:+: (readFromUDP buf datagram).take 4
  · by_cases hshort : n < 6 <;> simp [hreg, hshort]
  · by_cases hget : ascii "GET_SERVERS" <:+: (readFromUDP buf datagram).take 11 <;> simp [hreg, hget]

theorem dispatch_eq {buf : Text} (hbuf : buf.length = bufSize) (datagram : Text) :
    dispatch (readFromUDP buf datagram) (datagram.take bufSize).length
      = (handleUDPConn buf datagram).map Prod.snd := by
  rw [handleUDPConn_eq_slices hbuf, Option.map_map]
  exact Option.map_id.symm ▸ rfl

theorem turn_eq {buf : Text} (hbuf : buf.length = bufSize) (datagram : Text) :
    turn buf datagram = (handleUDPConn buf datagram).map Prod.fst := by
  rw [handleUDPConn_eq_slices hbuf, turn]
  cases dispatch (readFromUDP buf datagram) (datagram.take bufSize).length with
  | none => rfl
  | some command =>
    cases command with
    | registration data => simp [handleRegistrationsAt_eq]
    | serverRequest => rfl
    | unknown => rfl

/-- **The only way out**: `REG` in the first four bytes of the buffer and a datagram of fewer than six. -/
theorem turn_of_whole {buf : Text} (hbuf : buf.length = bufSize) (datagram : Text) :
    turn buf datagram = if datagram.length < 6 ∧ ascii "REG" <:+: (readFromUDP buf datagram).take 4
      then none else some (readFromUDP buf datagram) := by
  have hsize : bufSize = 1024 := rfl
  have hshort : (datagram.take bufSize).length < 6 ↔ datagram.length < 6 := by
    rw [List.length_take]
    omega
  rw [turn_eq hbuf, handleUDPConn]
  simp only [startContains, decide_eq_true_eq]
  rw [← readFromUDP]
  by_cases hreg : ascii "REG" <:+: (readFromUDP buf datagram).take 4
  · rw [if_pos hreg]
    by_cases hlt : datagram.length < 6
    · rw [if_pos (hshort.mpr hlt), if_pos ⟨hlt, hreg⟩]
      rfl
    · rw [if_neg (mt hshort.mp hlt), if_neg fun h => hlt h.1]
      rfl
  · rw [if_neg hreg, if_neg fun h : _ ∧ _ => hreg h.2]
    by_cases hget : ascii "GET_SERVERS" <:+: (readFromUDP buf datagram).take 11
    · rw [if_pos hget]
      rfl
    · rw [if_neg hget]
      rfl

/-! ### What the buffer holds -/

/-- The byte at `j`: of the last datagram that was longer than `j`.  The newest datagram is first. -/
def byteAt : List Text → ℕ → Byte
  | [], _ => nul
  | datagram :: earlier, j => (datagram[j]?).getD (byteAt earlier j)

/-- The buffer after these datagrams. -/
def Buffered (buf : Text) (datagrams : List Text) : Prop :=
  buf.length = bufSize ∧ ∀ j < bufSize, buf[j]? = some (byteAt datagrams j)

theorem buffered_zeros : Buffered zeros [] := by
  refine ⟨List.length_replicate, fun j hj => ?_⟩
  rw [zeros, List.getElem?_replicate, if_pos hj]
  rfl

theorem Buffered.readFromUDP {buf : Text} {earlier : List Text} (hbuf : Buffered buf earlier)
    (datagram : Text) : Buffered (readFromUDP buf datagram) (datagram :: earlier) := by
  refine ⟨length_readFromUDP hbuf.1 datagram, fun j hj => ?_⟩
  rw [Idserv.readFromUDP, byteAt]
  by_cases hlt : j < datagram.length
  · rw [List.getElem?_append_left (by rw [List.length_take]; omega), List.getElem?_take_of_lt hj,
      List.getElem?_eq_getElem hlt]
    rfl
  · have hn : (datagram.take bufSize).length ≤ j := by
      rw [List.length_take]
      omega
    rw [List.getElem?_append_right hn, List.getElem?_drop, Nat.add_sub_cancel' hn, hbuf.2 j hj,
      List.getElem?_eq_none (by omega)]
    rfl

/-- Its first bytes. -/
theorem Buffered.take {buf : Text} {datagrams : List Text} (hbuf : Buffered buf datagrams) {n : ℕ}
    (hn : n ≤ bufSize) : buf.take n = (List.range n).map (byteAt datagrams) := by
  apply List.ext_getElem?
  intro j
  by_cases hj : j < n
  · rw [List.getElem?_take_of_lt hj, hbuf.2 j (by omega), List.getElem?_map,
      List.getElem?_range hj]
    rfl
  · rw [List.getElem?_eq_none (by rw [List.length_take]; omega),
      List.getElem?_eq_none (by simp; omega)]

/-! ### Which sequences the server survives -/

/-- Some goroutine ends the program at the datagram `d`, after the datagrams `earlier`. -/
def ShortReg (earlier : List Text) (d : Text) : Prop :=
  d.length < 6 ∧ ascii "REG" <:+: (List.range 4).map (byteAt (d :: earlier))

theorem turn_of_buffered {buf : Text} {earlier : List Text} (hbuf : Buffered buf earlier)
    (d : Text) : (ShortReg earlier d → turn buf d = none)
      ∧ (¬ShortReg earlier d → turn buf d = some (readFromUDP buf d)) := by
  have hfour := (hbuf.readFromUDP d).take (n := 4) (by decide)
  rw [turn_of_whole hbuf.1, hfour]
  exact ⟨fun h => if_pos h, fun h => if_neg h⟩

/-- **The bytes in the buffer are those of the last datagram that was long enough.** -/
theorem byteAt_of_run {datagrams : List Text} {buf : Text}
    (hrun : run turn zeros datagrams = some buf) : Buffered buf datagrams.reverse := by
  refine run_induction (P := fun ds buf => Buffered buf ds.reverse) buffered_zeros ?_ hrun
  intro ds buf d buf' _ hbuf hturn
  obtain ⟨hnone, hsome⟩ := turn_of_buffered hbuf d
  rw [List.reverse_append, List.reverse_singleton, List.singleton_append]
  by_cases hshort : ShortReg ds.reverse d
  · rw [hnone hshort] at hturn
    simp at hturn
  · rw [hsome hshort, Option.some.injEq] at hturn
    exact hturn ▸ hbuf.readFromUDP d

/-- **The server survives a sequence exactly if no short datagram of it completes a `REG`.** -/
theorem survives_iff (datagrams : List Text) : (run turn zeros datagrams).isSome
    ↔ ∀ earlier d later, datagrams = earlier ++ d :: later → ¬ShortReg earlier.reverse d := by
  rw [run_isSome_iff]
  constructor
  · intro h earlier d later heq hshort
    have hsome : (run turn zeros earlier).isSome := by
      rw [run_isSome_iff]
      intro bs a cs buf heq' hrun
      exact h bs a (cs ++ d :: later) buf (by rw [heq, heq']; simp) hrun
    obtain ⟨buf, hrun⟩ := Option.isSome_iff_exists.mp hsome
    have hnone := (turn_of_buffered (byteAt_of_run hrun) d).1 hshort
    have hturn := h earlier d later buf heq hrun
    rw [hnone] at hturn
    simp at hturn
  · intro h earlier d later buf heq hrun
    rw [(turn_of_buffered (byteAt_of_run hrun) d).2 (h earlier d later heq)]
    rfl

/-- A datagram `REG` of three bytes ends the server: `buf[4:1]`. -/
theorem not_survives_short : ¬∀ datagrams : List Text, (∀ d ∈ datagrams, d.length ≤ bufSize) →
    (run turn zeros datagrams).isSome := by
  intro h
  have hend : run turn zeros [ascii "REG"] = none := by decide +kernel
  have hsome := h [ascii "REG"] (by decide)
  rw [hend] at hsome
  simp at hsome

/-! ### Which branch is taken -/

/-- What `dispatch` gives for a datagram; `none` is the first branch, with `buf[4:n-2]` out of range. -/
def branch (buf d : Text) : Option Command :=
  dispatch (readFromUDP buf d) (d.take bufSize).length

/-- The datagram without its first four bytes and its last two. -/
def ownData (d : Text) : Text := ((d.take bufSize).take ((d.take bufSize).length - 2)).drop 4

theorem branch_eq {buf : Text} (hbuf : buf.length = bufSize) (d : Text) : branch buf d
    = if ascii "REG" <:+: (readFromUDP buf d).take 4 then
        if d.length < 6 then none else some (.registration (ownData d))
      else if ascii "GET_SERVERS" <:+: (readFromUDP buf d).take 11 then some .serverRequest
      else some .unknown := by
  have hsize : bufSize = 1024 := rfl
  have hshort : (d.take bufSize).length < 6 ↔ d.length < 6 := by
    rw [List.length_take]
    omega
  have hown : ((readFromUDP buf d).take ((d.take bufSize).length - 2)).drop 4 = ownData d := by
    rw [ownData, readFromUDP, List.take_append_of_le_length (Nat.sub_le _ _)]
  rw [branch, dispatch_eq hbuf, handleUDPConn]
  simp only [startContains, decide_eq_true_eq]
  rw [← readFromUDP, hown]
  by_cases hreg : ascii "REG" <:+: (readFromUDP buf d).take 4
  · rw [if_pos hreg, if_pos hreg]
    by_cases hlt : d.length < 6
    · rw [if_pos (hshort.mpr hlt), if_pos hlt]
      rfl
    · rw [if_neg (mt hshort.mp hlt), if_neg hlt]
      rfl
  · rw [if_neg hreg, if_neg hreg]
    split <;> rfl

/-- The first bytes of the buffer are the datagram and what is left behind it. -/
theorem readFromUDP_split {u v d : Text} (hlen : u.length = d.length) (hd : d.length ≤ bufSize) :
    readFromUDP (u ++ v) d = d ++ v := by
  rw [readFromUDP, List.take_of_length_le hd, ← hlen, List.drop_left]

theorem take_readFromUDP_of_le (buf : Text) {d : Text} {k : ℕ} (hk : k ≤ bufSize)
    (hd : k ≤ d.length) : (readFromUDP buf d).take k = d.take k := by
  rw [readFromUDP, List.take_append_of_le_length (by rw [List.length_take]; omega), List.take_take,
    Nat.min_eq_left hk]

theorem take_readFromUDP_of_lt {buf : Text} (hbuf : buf.length = bufSize) {d : Text} {k : ℕ}
    (hk : k ≤ bufSize) (hd : d.length < k) :
    ∃ rest, (readFromUDP buf d).take k = d ++ rest ∧ (d ++ rest).length = k := by
  refine ⟨(buf.drop d.length).take (k - d.length), ?_, ?_⟩
  · have hshort : d.take bufSize = d := List.take_of_length_le (by omega)
    rw [readFromUDP, hshort, List.take_append, List.take_of_length_le (Nat.le_of_lt hd)]
  · rw [List.length_append, List.length_take, List.length_drop]
    omega

/-- Bytes behind the datagram cannot make it a `REG` or a `GET_SERVERS`. -/
def Settled (d : Text) : Prop :=
  (4 ≤ d.length ∨ ascii "REG" <:+: d ∨ ¬d <+: ascii "REG" ∧ ¬d.drop 1 <+: ascii "REG")
    ∧ (11 ≤ d.length ∨ ¬d <+: ascii "GET_SERVERS")

/-- The same branch, with the same data, after any two sequences that the server survives. -/
def DispatchedAlike (d : Text) : Prop :=
  ∀ earlier₁ earlier₂ buf₁ buf₂, run turn zeros earlier₁ = some buf₁ →
    run turn zeros earlier₂ = some buf₂ → branch buf₁ d = branch buf₂ d

/-- The first test looks at the datagram only. -/
theorem reg_of_settled {buf d : Text} (hbuf : buf.length = bufSize) (hd : Settled d) :
    ascii "REG" <:+: (readFromUDP buf d).take 4 ↔ ascii "REG" <:+: d.take 4 := by
  by_cases hlen : 4 ≤ d.length
  · rw [take_readFromUDP_of_le buf (by decide) hlen]
  · obtain ⟨rest, htake, hfour⟩ := take_readFromUDP_of_lt hbuf (d := d) (k := 4)
      (by decide) (by omega)
    have hown : d.take 4 = d := List.take_of_length_le (by omega)
    rw [htake, hown]
    constructor
    · rintro ⟨u, v, huv⟩
      rcases hd.1 with hle | hreg | ⟨hzero, hone⟩
      · omega
      · exact hreg
      · -- a `REG` that goes beyond the datagram begins at its byte 0 or 1
        have hrlen : (ascii "REG").length = 3 := rfl
        have hulen : u.length ≤ 1 := by
          have := congrArg List.length huv
          simp only [List.length_append] at this hfour
          omega
        have hpre : d.drop u.length <+: ascii "REG" := by
          have hdrop : (d ++ rest).drop u.length = ascii "REG" ++ v := by
            rw [← huv, List.append_assoc, List.drop_left]
          have hle : d.drop u.length <+: ascii "REG" ++ v := by
            rw [← hdrop, List.drop_append]
            exact List.prefix_append _ _
          refine List.prefix_of_prefix_length_le hle (List.prefix_append _ _) ?_
          rw [List.length_drop]
          omega
        rcases Nat.le_one_iff_eq_zero_or_eq_one.mp hulen with hu | hu
        · rw [hu] at hpre
          exact absurd hpre hzero
        · rw [hu] at hpre
          exact absurd hpre hone
    · exact fun hreg => hreg.trans (List.prefix_append _ _).isInfix

/-- So does the second one. -/
theorem get_of_settled {buf d : Text} (hbuf : buf.length = bufSize) (hd : Settled d) :
    ascii "GET_SERVERS" <:+: (readFromUDP buf d).take 11 ↔ ascii "GET_SERVERS" <:+: d.take 11 := by
  by_cases hlen : 11 ≤ d.length
  · rw [take_readFromUDP_of_le buf (by decide) hlen]
  · obtain ⟨rest, htake, heleven⟩ := take_readFromUDP_of_lt hbuf (d := d) (k := 11)
      (by decide) (by omega)
    have hglen : (ascii "GET_SERVERS").length = 11 := rfl
    have hown : d.take 11 = d := List.take_of_length_le (by omega)
    rw [htake, hown]
    constructor
    · intro hget
      have heq := hget.eq_of_length (by rw [hglen, heleven])
      rcases hd.2 with hle | hpre
      · omega
      · exact absurd (heq ▸ List.prefix_append _ _) hpre
    · exact fun hget => hget.trans (List.prefix_append _ _).isInfix

theorem dispatchedAlike_of_settled {d : Text} (hd : Settled d) : DispatchedAlike d := by
  intro earlier₁ earlier₂ buf₁ buf₂ hrun₁ hrun₂
  have h₁ := (byteAt_of_run hrun₁).1
  have h₂ := (byteAt_of_run hrun₂).1
  rw [branch_eq h₁, branch_eq h₂]
  simp only [reg_of_settled h₁ hd, reg_of_settled h₂ hd, get_of_settled h₁ hd, get_of_settled h₂ hd]

/-! ### Histories that complete a datagram -/

theorem length_zeros : zeros.length = bufSize := List.length_replicate

/-- A first datagram of at least six bytes. -/
theorem run_one {e : Text} (he : 6 ≤ e.length) :
    run turn zeros [e] = some (readFromUDP zeros e) := by
  rw [run_singleton, turn_of_whole length_zeros, if_neg fun h : _ ∧ _ => by omega]

theorem readFromUDP_zeros {e : Text} (he : e.length ≤ bufSize) :
    readFromUDP zeros e = e ++ List.replicate (bufSize - e.length) nul := by
  rw [readFromUDP, List.take_of_length_le he, zeros, List.drop_replicate]

/-- At the start the bytes behind the datagram are zeros. -/
theorem infix_start {s d : Text} {k : ℕ} (hs : nul ∉ s)
    (h : s <:+: (readFromUDP zeros d).take k) : s <:+: d := by
  have hzeros : readFromUDP zeros d
      = d.take bufSize ++ List.replicate (bufSize - (d.take bufSize).length) nul := by
    rw [readFromUDP, zeros, List.drop_replicate]
  rw [hzeros] at h
  have hown := infix_of_append_replicate hs (h.trans (List.take_prefix _ _).isInfix)
  exact hown.trans (List.take_prefix _ _).isInfix

/-- A datagram that earlier bytes make a `REG`. -/
theorem not_alike_of_reg {u v d : Text} (hlen : u.length = d.length) (hd : d.length < 4)
    (hv : (u ++ v).length = 6) (hfour : ascii "REG" <:+: (d ++ v).take 4)
    (hreg : ¬ascii "REG" <:+: d) : ¬DispatchedAlike d := by
  intro halike
  have hsize : bufSize = 1024 := rfl
  have hrun := run_one (e := u ++ v) (by omega)
  have hbuf := (byteAt_of_run hrun).1
  have heq := halike [] [u ++ v] zeros _ rfl hrun
  have hend : branch (readFromUDP zeros (u ++ v)) d = none := by
    rw [branch_eq hbuf, if_pos, if_pos (by omega)]
    rw [readFromUDP_zeros (by omega), List.append_assoc, readFromUDP_split hlen (by omega),
      ← List.append_assoc, List.take_append_of_le_length (by simp at hv ⊢; omega)]
    exact hfour
  rw [hend, branch_eq length_zeros, if_neg fun h => hreg (infix_start (by decide) h)] at heq
  split at heq <;> simp at heq

/-- A datagram that earlier bytes make a `GET_SERVERS`. -/
theorem not_alike_of_get {d : Text} (hd : d.length < 11) (hpre : d <+: ascii "GET_SERVERS") :
    ¬DispatchedAlike d := by
  intro halike
  have hsize : bufSize = 1024 := rfl
  have hlen : (ascii "GET_SERVERS").length = 11 := rfl
  have hrun := run_one (e := ascii "GET_SERVERS") (by decide)
  have hbuf := (byteAt_of_run hrun).1
  have heq := halike [] [ascii "GET_SERVERS"] zeros _ rfl hrun
  have hsame : readFromUDP (readFromUDP zeros (ascii "GET_SERVERS")) d
      = ascii "GET_SERVERS" ++ List.replicate (bufSize - 11) nul := by
    obtain ⟨t, ht⟩ := hpre
    rw [readFromUDP_zeros (by decide), hlen, ← ht, List.append_assoc,
      readFromUDP_split rfl (by omega)]
  have hget : branch (readFromUDP zeros (ascii "GET_SERVERS")) d = some .serverRequest := by
    rw [branch_eq hbuf, hsame, if_neg (by decide +kernel), if_pos (by decide +kernel)]
  have hunknown : ¬ascii "GET_SERVERS" <:+: (readFromUDP zeros d).take 11 := by
    intro h
    have := (infix_start (by decide) h).length_le
    omega
  rw [hget, branch_eq length_zeros, if_neg hunknown] at heq
  split at heq
  · split at heq <;> simp at heq
  · simp at heq

/-- **A datagram takes the same branch after every history exactly if earlier bytes cannot complete
it.** -/
theorem dispatched_alike_iff (d : Text) : DispatchedAlike d ↔ Settled d := by
  refine ⟨fun halike => ⟨?_, ?_⟩, dispatchedAlike_of_settled⟩
  · by_contra hnot
    simp only [not_or, not_and, not_not, Nat.not_le] at hnot
    obtain ⟨hlen, hreg, hstart⟩ := hnot
    by_cases hzero : d <+: ascii "REG"
    · obtain ⟨v, hv⟩ := hzero
      refine not_alike_of_reg (u := d) (v := v ++ ascii "REG") rfl hlen ?_ ?_ hreg halike
      · rw [← List.append_assoc, hv]
        rfl
      · rw [← List.append_assoc, hv]
        decide
    · cases d with
      | nil => exact hzero List.nil_prefix
      | cons b d =>
        obtain ⟨v, hv⟩ := hstart hzero
        rw [List.drop_one, List.tail_cons] at hv
        refine not_alike_of_reg (u := nul :: d) (d := b :: d) (v := v ++ [nul, nul]) rfl hlen ?_ ?_ hreg halike
        · rw [List.cons_append, ← List.append_assoc, hv]
          rfl
        · rw [List.cons_append, ← List.append_assoc, hv]
          exact ⟨[b], [], rfl⟩
  · by_contra hnot
    simp only [not_or, not_not, Nat.not_le] at hnot
    exact not_alike_of_get hnot.1 hnot.2 halike

/-- `GET_SERV` alone is unknown, and a request after a `GET_SERVERS`. -/
theorem not_dispatched_alike : ¬∀ d : Text, d.length ≤ bufSize → DispatchedAlike d := by
  intro h
  have heq := h (ascii "GET_SERV") (by decide) [] [ascii "GET_SERVERS"] zeros
    (readFromUDP zeros (ascii "GET_SERVERS")) rfl (by decide +kernel)
  have hne : branch zeros (ascii "GET_SERV")
      ≠ branch (readFromUDP zeros (ascii "GET_SERVERS")) (ascii "GET_SERV") := by
    decide +kernel
  exact hne heq

end Idserv

end MessageBoard
