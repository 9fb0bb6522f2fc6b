import MessageBoard.MsgservMessage
import MessageBoard.ParseTermination
import MessageBoard.RmbIdentity

/-!
# What the conversions of a datagram store

Three functions scan what they received in a buffer of 512 bytes: `handle_client_comms`, and
`parse_servers` of both programs.  A conversion without a width stores as much as it finds, and a
datagram that fills the buffer leaves no NUL in it.

* `lineStores_iff` — when one line of a list fits its two buffers;
* `scanned_fields_iff` — **exactly which datagrams stay within the arrays**, for each of the three;
* `handleClientComms_isSome_iff`, `parseResponse_overrun_iff`, `parseServers_isSome_iff` — these are the
  datagrams that the functions have a meaning for.
-/

namespace MessageBoard

open CText CScan Run

namespace ScannedFields

/-! ### Memory -/

/-- The arrays the conversions write to. -/
inductive Target where
  | op
  | inputBuffer
  | stepMemName
  | stepMemIpAddr
  deriving DecidableEq

/-- Whether a function reads no further than its receive buffer, and the bytes that its conversions
store, with the NUL. -/
structure Access where
  inBuffer : Bool
  stores : List (Target × ℕ)

/-- Every one of the arrays has `STRING_SIZE` bytes. -/
def Access.Within (a : Access) : Prop :=
  a.inBuffer = true ∧ ∀ store ∈ a.stores, store.2 ≤ stringSize

/-- The buffer was set to zero before the datagram came. -/
def receiveBuffer (datagram : Text) : Text :=
  datagram.take responseSize ++ List.replicate (responseSize - datagram.length) nul

/-- The string in a buffer, for `strlen` and `sscanf`; without a NUL they read on behind it. -/
def stringIn (buffer : Text) : Option Text := if nul ∈ buffer then some (cstr buffer) else none

/-- The texts that a scan stores, each in its array. -/
def stored (targets : List Target) (fields : List Field) : List (Target × ℕ) :=
  (targets.zip fields).filterMap fun
    | (target, .text t) => some (target, t.length + 1)
    | (_, .num _) => none

/-! ### The three functions -/

/-- `handle_client_comms`. -/
def clientComms (datagram : Text) : Access :=
  match stringIn (receiveBuffer datagram) with
  | none => ⟨false, []⟩
  | some buffer => ⟨true, stored [.op, .inputBuffer] (scan commandFormat buffer)⟩

/-- `sscanf` on a line of the list. -/
def lineStores (separatedInfo : Text) : List (Target × ℕ) :=
  stored [.stepMemName, .stepMemIpAddr] (scan serverFormat separatedInfo)

/-- `sscanf_state` is 4. -/
def isWhole (separatedInfo : Text) : Bool :=
  match scan serverFormat separatedInfo with
  | [.text _, .text _, .num _, .num _] => true
  | _ => false

/-- The loop of the message server, at most so many turns: a line that is not whole is scanned again. -/
def loopStores : ℕ → Option (Text × Text) → List (Target × ℕ)
  | _, none => []
  | 0, some _ => []
  | turns + 1, some (separatedInfo, unread) =>
      lineStores separatedInfo
        ++ if isWhole separatedInfo then loopStores turns (strtok (· == newline) unread)
          else loopStores turns (some (separatedInfo, unread))

/-- `get_servers` and `parse_servers` of the message server.  Without a token `strcmp` is given a null
pointer, and nothing is stored. -/
def msgservParse (turns : ℕ) (datagram : Text) : Access :=
  match stringIn (receiveBuffer datagram) with
  | none => ⟨false, []⟩
  | some response =>
      match strtok (· == newline) response with
      | none => ⟨true, []⟩
      | some (header, unread) =>
          ⟨true, if header ≠ ascii "SERVERS" then []
            else loopStores turns (strtok (· == newline) unread)⟩

/-- The loop of the client, which a line that is not whole ends. -/
def linesStores : List Text → List (Target × ℕ)
  | [] => []
  | separatedInfo :: rest =>
      lineStores separatedInfo ++ if isWhole separatedInfo then linesStores rest else []

/-- `get_servers` and `parse_servers` of the client. -/
def rmbParse (datagram : Text) : Access :=
  match stringIn (receiveBuffer datagram) with
  | none => ⟨false, []⟩
  | some response => ⟨true, linesStores ((tokens (· == newline) response).drop 1)⟩

/-! ### The datagrams -/

/-- The datagram does not fill the buffer, or it has a NUL in it. -/
def Terminated (datagram : Text) : Prop :=
  datagram.length < responseSize ∨ nul ∈ datagram.take responseSize

/-- What the datagram is to the functions: its text up to a NUL. -/
def textOf (datagram : Text) : Text := cstr (datagram.take responseSize)

/-- The first word. -/
def firstWord (text : Text) : Text := (text.dropWhile isSpace).takeWhile fun b => !isSpace b

/-- The text in front of the first semicolon has at most 140 bytes; if it has any, so has the text
between the first and the second one. -/
def ShortFields (line : Text) : Prop :=
  (line.takeWhile (· != semicolon)).length < stringSize
    ∧ (line.takeWhile (· != semicolon) ≠ [] →
      ((line.dropWhile (· != semicolon)).tail.takeWhile (· != semicolon)).length < stringSize)

/-- The fields of every line are short, up to the first one that is not whole. -/
def ShortLines (lines : List Text) : Prop :=
  ∀ before line after, lines = before ++ line :: after → (∀ l ∈ before, isWhole l = true) →
    ShortFields line

/-! ### The receive buffer -/

theorem nul_mem_receiveBuffer_iff (datagram : Text) :
    nul ∈ receiveBuffer datagram ↔ Terminated datagram := by
  rw [receiveBuffer, List.mem_append, List.mem_replicate, Terminated]
  constructor
  · rintro (hmem | ⟨hroom, -⟩)
    · exact Or.inr hmem
    · exact Or.inl (by omega)
  · rintro (hroom | hmem)
    · exact Or.inr ⟨by omega, rfl⟩
    · exact Or.inl hmem

theorem cstr_receiveBuffer (datagram : Text) : cstr (receiveBuffer datagram) = textOf datagram := by
  rw [receiveBuffer, textOf]
  by_cases hmem : nul ∈ datagram.take responseSize
  · obtain ⟨s, r, heq, hs⟩ := List.eq_append_cons_of_mem hmem
    rw [heq, List.append_assoc, List.cons_append, cstr_append_nul hs, cstr_append_nul hs]
  · cases responseSize - datagram.length with
    | zero => rw [List.replicate_zero, List.append_nil]
    | succ k => rw [List.replicate_succ, cstr_append_nul hmem, cstr_eq_self hmem]

/-- **What is in the buffer**: the text of the datagram, if there is a NUL. -/
theorem stringIn_receiveBuffer (datagram : Text) :
    stringIn (receiveBuffer datagram) = none ∧ ¬Terminated datagram
      ∨ stringIn (receiveBuffer datagram) = some (textOf datagram) ∧ Terminated datagram := by
  rw [stringIn, cstr_receiveBuffer]
  by_cases h : nul ∈ receiveBuffer datagram
  · exact Or.inr ⟨if_pos h, (nul_mem_receiveBuffer_iff datagram).mp h⟩
  · exact Or.inl ⟨if_neg h, fun ht => h ((nul_mem_receiveBuffer_iff datagram).mpr ht)⟩

/-! ### One line -/

theorem dropWhile_semicolon (line : Text) : line.dropWhile (· != semicolon) = []
    ∨ ∃ r, line.dropWhile (· != semicolon) = semicolon :: r := by
  have hstop := stops_dropWhile (· != semicolon) line
  cases hrest : line.dropWhile (· != semicolon) with
  | nil => exact Or.inl rfl
  | cons b r =>
    have hb : b = semicolon := by simpa [hrest] using hstop b (by rw [hrest]; rfl)
    exact Or.inr ⟨r, by rw [hb]⟩

/-- What the first two conversions of a line store. -/
theorem scan_serverFormat (line : Text) : scan serverFormat line
    = if line.takeWhile (· != semicolon) = [] then []
      else .text (line.takeWhile (· != semicolon))
        :: if (line.dropWhile (· != semicolon)).tail.takeWhile (· != semicolon) = [] then []
          else .text ((line.dropWhile (· != semicolon)).tail.takeWhile (· != semicolon))
            :: scan [.lit semicolon, .ushort, .lit semicolon, .ushort]
              ((line.dropWhile (· != semicolon)).tail.dropWhile (· != semicolon)) := by
  have hrun : ∀ s : Text, ∀ b ∈ s.takeWhile (· != semicolon), (b != semicolon) = true :=
    fun s b hb => List.mem_takeWhile_imp (p := fun b : Byte => b != semicolon) hb
  have hfirst : ∀ (s : Text) (ds : List Directive), scan (.set (· != semicolon) none true :: ds) s
      = if s.takeWhile (· != semicolon) = [] then []
        else .text (s.takeWhile (· != semicolon)) :: scan ds (s.dropWhile (· != semicolon)) := by
    intro s ds
    have hsplit := List.takeWhile_append_dropWhile (p := fun b : Byte => b != semicolon) (l := s)
    split
    · rename_i hnil
      rw [hnil, List.nil_append] at hsplit
      exact scan_set_fail (hsplit ▸ stops_dropWhile _ s) true ds
    · rename_i hne
      conv_lhs => rw [← hsplit]
      exact scan_set (hrun s) (stops_dropWhile _ s) hne ds
  rw [serverFormat, hfirst]
  split
  · rfl
  · congr 1
    rcases dropWhile_semicolon line with hnil | ⟨r, hr⟩
    · rw [hnil]
      rfl
    · rw [hr, scan_lit, hfirst, List.tail_cons]

/-- **A line fits its buffers** if its first two fields are short. -/
theorem lineStores_iff (line : Text) :
    (∀ store ∈ lineStores line, store.2 ≤ stringSize) ↔ ShortFields line := by
  have hlt : ∀ k : ℕ, k + 1 ≤ stringSize ↔ k < stringSize := fun k => Nat.succ_le_iff
  have hzero : 0 < stringSize := by decide
  rw [lineStores, scan_serverFormat, ShortFields]
  split
  · rename_i hnil
    simp [stored, hnil, hzero]
  · rename_i hne
    split
    · rename_i hnil
      simp [stored, hne, hnil, hlt, hzero]
    · simp [stored, hne, hlt]

theorem linesStores_iff (lines : List Text) :
    (∀ store ∈ linesStores lines, store.2 ≤ stringSize) ↔ ShortLines lines := by
  induction lines with
  | nil =>
    refine iff_of_true (by simp [linesStores]) ?_
    intro before line after heq
    simp at heq
  | cons line lines ih =>
    rw [linesStores, List.forall_mem_append, lineStores_iff]
    constructor
    · rintro ⟨hline, hrest⟩ before l after heq hwhole
      cases before with
      | nil =>
        obtain ⟨rfl, -⟩ := List.cons.inj heq
        exact hline
      | cons b before =>
        obtain ⟨rfl, htail⟩ := List.cons.inj heq
        rw [if_pos (hwhole _ List.mem_cons_self)] at hrest
        exact ih.mp hrest before l after htail fun l hl => hwhole l (List.mem_cons_of_mem _ hl)
    · intro h
      refine ⟨h [] line lines rfl (by simp), ?_⟩
      split
      · rename_i hwhole
        refine ih.mpr fun before l after heq hbefore => ?_
        exact h (line :: before) l after (by rw [heq, List.cons_append])
          (List.forall_mem_cons.mpr ⟨hwhole, hbefore⟩)
      · simp

/-! ### The loop of the message server -/

/-- A line that is not whole is scanned in every turn, and stores the same. -/
theorem mem_loopStores_stuck {line unread : Text} (h : isWhole line = false) {turns : ℕ}
    {store : Target × ℕ} (hstore : store ∈ loopStores turns (some (line, unread))) :
    store ∈ lineStores line := by
  induction turns with
  | zero => simp [loopStores] at hstore
  | succ turns ih =>
    rw [loopStores, h, if_neg Bool.false_ne_true, List.mem_append] at hstore
    rcases hstore with hstore | hstore
    · exact hstore
    · exact ih hstore

/-- **In any number of turns** the loop stores what it stores line by line. -/
theorem loopStores_iff {lines : List Text} {s : Text} (hs : tokens (· == newline) s = lines) :
    (∀ turns, ∀ store ∈ loopStores turns (strtok (· == newline) s), store.2 ≤ stringSize)
      ↔ ∀ store ∈ linesStores lines, store.2 ≤ stringSize := by
  induction lines generalizing s with
  | nil =>
    rw [ParseTermination.strtok_of_tokens_nil hs]
    simp [linesStores, loopStores]
  | cons line lines ih =>
    obtain ⟨unread, hstrtok, hrest⟩ := ParseTermination.strtok_of_tokens_cons hs
    rw [hstrtok, linesStores, List.forall_mem_append]
    cases hwhole : isWhole line with
    | true =>
      rw [if_pos rfl, ← ih hrest]
      have hturn : ∀ turns, loopStores (turns + 1) (some (line, unread))
          = lineStores line ++ loopStores turns (strtok (· == newline) unread) := by
        intro turns
        rw [loopStores, hwhole, if_pos rfl]
      constructor
      · intro h
        refine ⟨fun store hstore => h 1 store ?_, fun turns store hstore => h (turns + 1) store ?_⟩
        · rw [hturn]
          exact List.mem_append_left _ hstore
        · rw [hturn]
          exact List.mem_append_right _ hstore
      · rintro ⟨hline, hloop⟩ turns store hstore
        cases turns with
        | zero => simp [loopStores] at hstore
        | succ turns =>
          rw [hturn, List.mem_append] at hstore
          rcases hstore with hstore | hstore
          · exact hline store hstore
          · exact hloop turns store hstore
    | false =>
      rw [if_neg Bool.false_ne_true, and_iff_left (by simp)]
      constructor
      · intro h store hstore
        apply h 1 store
        rw [loopStores]
        exact List.mem_append_left _ hstore
      · exact fun h turns store hstore => h store (mem_loopStores_stuck hwhole hstore)

/-! ### The word of a command -/

/-- Whatever is behind the first word, no more than 140 bytes of it are stored. -/
theorem scan_commandFormat (s : Text) : scan commandFormat s = []
      ∧ firstWord s = []
    ∨ scan commandFormat s = [.text (firstWord s)]
    ∨ ∃ input : Text, scan commandFormat s = [.text (firstWord s), .text input] ∧ input.length ≤ 140 := by
  by_cases hw : firstWord s = []
  · left
    refine ⟨?_, hw⟩
    rw [firstWord] at hw
    simp [commandFormat, scan, Directive.read, hw]
  · right
    obtain ⟨r, hr⟩ : ∃ r, (s.dropWhile isSpace).drop (firstWord s).length = r := ⟨_, rfl⟩
    have hword : scan commandFormat s = .text (firstWord s)
        :: scan [.set (· == space) none false, .set (· != newline) (some 140) true] r := by
      rw [firstWord] at hw hr ⊢
      simp [commandFormat, scan, Directive.read, hw, hr]
    have hblanks : scan [.set (· == space) none false, .set (· != newline) (some 140) true] r = []
        ∨ scan [.set (· == space) none false, .set (· != newline) (some 140) true] r
          = scan [.set (· != newline) (some 140) true] (r.dropWhile (· == space)) := by
      have hsplit := List.takeWhile_append_dropWhile (p := fun b : Byte => b == space) (l := r)
      by_cases hrun : r.takeWhile (· == space) = []
      · left
        rw [hrun, List.nil_append] at hsplit
        exact scan_set_fail (hsplit ▸ stops_dropWhile _ r) false _
      · right
        conv_lhs => rw [← hsplit]
        exact scan_skip (fun b hb => List.mem_takeWhile_imp (p := fun b : Byte => b == space) hb)
          (stops_dropWhile _ r) hrun _
    rw [hword]
    rcases hblanks with hnone | hskip
    · rw [hnone]
      exact Or.inl rfl
    · rw [hskip, scan_set_last _ (by omega)]
      split
      · exact Or.inl rfl
      · exact Or.inr ⟨_, rfl, List.length_take_le _ _⟩

theorem commandStores_iff (s : Text) :
    (∀ store ∈ stored [.op, .inputBuffer] (scan commandFormat s), store.2 ≤ stringSize)
      ↔ (firstWord s).length < stringSize := by
  have hlt : ∀ k : ℕ, k + 1 ≤ stringSize ↔ k < stringSize := fun k => Nat.succ_le_iff
  rcases scan_commandFormat s with ⟨hscan, hnil⟩ | hscan | ⟨input, hscan, hinput⟩
  · rw [hscan, hnil]
    exact iff_of_true (by simp [stored]) (by decide)
  · simp [hscan, stored, hlt]
  · have hshort : input.length < stringSize := by
      rw [stringSize]
      omega
    simp [hscan, stored, hlt, hshort]

/-! ### The functions have a meaning -/

theorem not_terminated_iff (datagram : Text) : ¬Terminated datagram
    ↔ (datagram.take responseSize).length = responseSize ∧ nul ∉ datagram.take responseSize := by
  rw [Terminated, not_or, List.length_take]
  refine and_congr_left fun _ => ?_
  omega

theorem scanCommand_fst (s : Text) : (scanCommand s).1 = firstWord s := by
  rw [scanCommand]
  rcases scan_commandFormat s with ⟨hscan, hnil⟩ | hscan | ⟨input, hscan, -⟩
  · rw [hscan, hnil]
  · rw [hscan]
  · rw [hscan]

/-- `handleClientComms` has a result where the scan stays within its arrays. -/
theorem handleClientComms_isSome_iff (sent : Bool) (b : Board) (datagram : Text) :
    (handleClientComms sent b datagram).isSome = true ↔ (clientComms datagram).Within := by
  rcases stringIn_receiveBuffer datagram with ⟨hnone, hnot⟩ | ⟨hsome, hterm⟩
  · simp only [handleClientComms, clientComms, hnone, Access.Within]
    rw [if_pos ((not_terminated_iff datagram).mp hnot)]
    simp
  · simp only [handleClientComms, clientComms, hsome, Access.Within, true_and]
    have hbuffer : ¬((datagram.take responseSize).length = responseSize
        ∧ nul ∉ datagram.take responseSize) :=
      fun hfull => (not_terminated_iff datagram).mpr hfull hterm
    rw [if_neg hbuffer, commandStores_iff]
    show Option.isSome (if stringSize ≤ (scanCommand (textOf datagram)).1.length then none else _) = true ↔ _
    rw [scanCommand_fst]
    split
    · rename_i hlong
      exact iff_of_false (by simp) (by omega)
    · rename_i hshort
      refine iff_of_true ?_ (by omega)
      split
      · rfl
      · split <;> rfl

/-- The fields behind the first two are numbers. -/
theorem overruns_iff (line : Text) :
    ParseTermination.overruns (scan serverFormat line) = false
      ↔ ∀ store ∈ lineStores line, store.2 ≤ stringSize := by
  have hnums : ∀ s : Text, ParseTermination.overruns
      (scan [.lit semicolon, .ushort, .lit semicolon, .ushort] s) = false := by
    intro s
    rw [ParseTermination.overruns, List.any_eq_false]
    intro f hf
    obtain ⟨n, rfl⟩ := num_of_mem_scan (by simp) hf
    simp
  have hcons : ∀ (t : Text) (fields : List Field), ParseTermination.overruns (.text t :: fields)
      = (decide (stringSize ≤ t.length) || ParseTermination.overruns fields) := fun _ _ => rfl
  have hlt : ∀ k : ℕ, k + 1 ≤ stringSize ↔ k < stringSize := fun k => Nat.succ_le_iff
  rw [lineStores, scan_serverFormat]
  split
  · simp [stored, ParseTermination.overruns]
  · split
    · simp [stored, hlt, ParseTermination.overruns]
    · simp [stored, hlt, hcons, hnums]

theorem isWhole_iff (line : Text) : isWhole line = true ↔ ∃ name ipAddr udpPort tcpPort,
    scan serverFormat line = [.text name, .text ipAddr, .num udpPort, .num tcpPort] := by
  rw [isWhole]
  constructor
  · intro h
    split at h
    · exact ⟨_, _, _, _, by assumption⟩
    · simp at h
  · rintro ⟨name, ipAddr, udpPort, tcpPort, hscan⟩
    rw [hscan]

/-- The loop overruns an array in some turn where a scan does. -/
theorem parseLoop_overrun_iff (turns : ℕ) (token : Option (Text × Text)) (l : List Server) :
    ParseTermination.parseLoop turns token l ≠ .overrun
      ↔ ∀ store ∈ loopStores turns token, store.2 ≤ stringSize := by
  induction turns generalizing token l with
  | zero => cases token <;> simp [ParseTermination.parseLoop, loopStores]
  | succ turns ih =>
    cases token with
    | none => simp [ParseTermination.parseLoop, loopStores]
    | some token =>
      obtain ⟨line, unread⟩ := token
      rw [loopStores, List.forall_mem_append, ← overruns_iff, ParseTermination.parseLoop]
      cases hover : ParseTermination.overruns (scan serverFormat line) with
      | true => simp
      | false =>
        rw [if_neg Bool.false_ne_true, and_iff_right rfl]
        by_cases hwhole : isWhole line = true
        · rw [if_pos hwhole]
          obtain ⟨name, ipAddr, udpPort, tcpPort, hscan⟩ := (isWhole_iff line).mp hwhole
          simp only [hscan]
          exact ih _ _
        · rw [if_neg hwhole]
          have hturn := ih (some (line, unread)) l
          split
          · exact absurd ((isWhole_iff line).mpr ⟨_, _, _, _, by assumption⟩) hwhole
          · exact hturn

/-- `parseResponse` overruns an array in some turn where a scan does. -/
theorem parseResponse_overrun_iff {datagram : Text} (h : Terminated datagram) (turns : ℕ)
    (l : List Server) :
    ParseTermination.parseResponse turns (textOf datagram) l ≠ .overrun
      ↔ (msgservParse turns datagram).Within := by
  rcases stringIn_receiveBuffer datagram with ⟨-, hnot⟩ | ⟨hsome, -⟩
  · exact absurd h hnot
  · simp only [ParseTermination.parseResponse, msgservParse, hsome, Access.Within]
    cases strtok (· == newline) (textOf datagram) with
    | none => simp
    | some token =>
      obtain ⟨header, unread⟩ := token
      by_cases hheader : header ≠ ascii "SERVERS"
      · simp [hheader]
      · simpa [hheader] using parseLoop_overrun_iff turns (strtok (· == newline) unread) l

theorem parseLines_isSome_iff (l : LinkedList Server) (lines : List Text) :
    (Rmb.parseLines l lines).isSome = true ↔ ∀ store ∈ linesStores lines, store.2 ≤ stringSize := by
  induction lines generalizing l with
  | nil => simp [Rmb.parseLines, linesStores]
  | cons line lines ih =>
    rw [linesStores, List.forall_mem_append, ← overruns_iff, Rmb.parseLines]
    change Option.isSome (if ParseTermination.overruns (scan serverFormat line) = true then none
      else _) = true ↔ _
    cases hover : ParseTermination.overruns (scan serverFormat line) with
    | true => simp
    | false =>
      rw [if_neg Bool.false_ne_true, and_iff_right rfl]
      by_cases hwhole : isWhole line = true
      · rw [if_pos hwhole]
        obtain ⟨name, ipAddr, udpPort, tcpPort, hscan⟩ := (isWhole_iff line).mp hwhole
        simp only [hscan]
        exact ih _
      · rw [if_neg hwhole]
        split
        · exact absurd ((isWhole_iff line).mpr ⟨_, _, _, _, by assumption⟩) hwhole
        · exact iff_of_true rfl (by simp)

/-- `Rmb.getServers` and `Rmb.parseServers` have a result where the scans stay within their arrays. -/
theorem parseServers_isSome_iff (datagram : Text) :
    ((Rmb.getServers datagram).bind Rmb.parseServers).isSome = true ↔ (rmbParse datagram).Within := by
  rcases stringIn_receiveBuffer datagram with ⟨hnone, hnot⟩ | ⟨hsome, hterm⟩
  · simp only [Rmb.getServers, rmbParse, hnone, Access.Within]
    rw [if_pos ((not_terminated_iff datagram).mp hnot)]
    simp
  · have hbuffer : ¬((datagram.take responseSize).length = responseSize
        ∧ nul ∉ datagram.take responseSize) :=
      fun hfull => (not_terminated_iff datagram).mpr hfull hterm
    simp only [Rmb.getServers, rmbParse, hsome, Access.Within, true_and]
    rw [if_neg hbuffer, Option.bind_some]
    exact parseLines_isSome_iff _ _

/-! ### Any datagram -/

/-- **Which datagrams stay within the arrays.**  A datagram that fills the buffer has a NUL in it; the
first word of a command has at most 140 bytes; and the fields of each line of a list, up to the first
line that is not whole, are as short, for the message server only if the first line is `SERVERS`. -/
theorem scanned_fields_iff (datagram : Text) :
    ((clientComms datagram).Within
        ↔ Terminated datagram ∧ (firstWord (textOf datagram)).length < stringSize)
      ∧ ((∀ turns, (msgservParse turns datagram).Within)
        ↔ Terminated datagram ∧ ∀ lines,
          tokens (· == newline) (textOf datagram) = ascii "SERVERS" :: lines → ShortLines lines)
      ∧ ((rmbParse datagram).Within
        ↔ Terminated datagram ∧ ShortLines ((tokens (· == newline) (textOf datagram)).drop 1)) := by
  rcases stringIn_receiveBuffer datagram with ⟨hnone, hnot⟩ | ⟨hsome, hterm⟩
  · simp [clientComms, msgservParse, rmbParse, hnone, hnot, Access.Within]
  · simp only [clientComms, msgservParse, rmbParse, hsome, Access.Within, true_and, hterm]
    refine ⟨commandStores_iff _, ?_, linesStores_iff _⟩
    cases htokens : tokens (· == newline) (textOf datagram) with
    | nil =>
      rw [ParseTermination.strtok_of_tokens_nil htokens]
      simp
    | cons header lines =>
      obtain ⟨unread, hstrtok, hrest⟩ := ParseTermination.strtok_of_tokens_cons htokens
      simp only [hstrtok, true_and]
      by_cases hheader : header = ascii "SERVERS"
      · subst hheader
        have hloop := loopStores_iff hrest
        rw [linesStores_iff] at hloop
        simpa using hloop
      · simp [hheader]

/-- **A word of 141 bytes** leaves no room for the NUL in `op`. -/
theorem long_word_overruns : ¬∀ datagram : Text, datagram.length ≤ responseSize →
    (clientComms datagram).Within ∧ (∀ turns, (msgservParse turns datagram).Within)
      ∧ (rmbParse datagram).Within := by
  intro h
  have hstore : (Target.op, 142) ∈ (clientComms (List.replicate 141 65)).stores := by decide +kernel
  have hle := (h (List.replicate 141 65) (by rw [List.length_replicate]; decide)).1.2 _ hstore
  exact absurd hle (by decide)

end ScannedFields

end MessageBoard
