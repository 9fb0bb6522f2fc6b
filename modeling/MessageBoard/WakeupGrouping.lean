import MessageBoard.TcpLoop

/-!
# Lines of one peer, grouped into calls

The main loop calls `server_treat_communications` once for every wake-up of `select`, and TCP decides
how many lines a wake-up finds.  The flag `sms_state` lives in one call, so what a line means depends
on the lines before it in the same call.

* `call_eq_run` — a call that receives whole lines treats them one by one;
* `wakeUp_quiet` — while nothing depends on the grouping, only `SGET_MESSAGES` has an effect;
* `wakeUps_independent_iff` — **exactly when the grouping does not matter**: behind the first
  `SMESSAGES` line that is reached, every line is one `parse_message` turns down.
-/

namespace MessageBoard

open CText CScan Run TcpLoop

namespace WakeupGrouping

/-- A line that one `recv` returns as a whole, without its newline. -/
structure Whole (line : Text) : Prop where
  newline_free : newline ∉ line
  nul_free : nul ∉ line
  length_le : line.length + 1 ≤ stringSize - 1

instance (line : Text) : Decidable (Whole line) :=
  decidable_of_iff (newline ∉ line ∧ nul ∉ line ∧ line.length + 1 ≤ stringSize - 1)
    ⟨fun h => ⟨h.1, h.2.1, h.2.2⟩, fun h => ⟨h.newline_free, h.nul_free, h.length_le⟩⟩

/-! ### One call -/

/-- A line inside a call: a blank one yields no token, and a closed descriptor no lines. -/
def lineStep (written : ℕ → Bool) (c : Conn) (line : Text) : Option Conn :=
  if c.isOpen && !line.isEmpty then dispatch written c line else some c

theorem tokens_line {line : Text} (h : Whole line) :
    tokens (· == newline) (cstrBy (· == nul) (line ++ [newline]))
      = if line.isEmpty then [] else [line] := by
  have hnul : nul ∉ line ++ [newline] := by
    intro hmem
    rcases List.mem_append.mp hmem with hmem | hmem
    · exact h.nul_free hmem
    · exact absurd (List.mem_singleton.mp hmem) (by decide)
  rw [cstrBy_eq_self (beq_of_not_mem hnul), tokens_concat_delim (by simp)]
  cases line with
  | nil => rfl
  | cons b bs => exact tokens_free (beq_of_not_mem h.newline_free) (by simp)

theorem run_closed (written : ℕ → Bool) {c : Conn} (hc : c.isOpen = false) (lines : List Text) :
    run (lineStep written) c lines = some c := by
  induction lines with
  | nil => rfl
  | cons line lines ih => rw [run_cons, lineStep, hc, Bool.false_and, if_neg (by simp), Option.bind_some, ih]

/-- **A call that receives whole lines treats them one by one.** -/
theorem recvLoop_lines (written : ℕ → Bool) {lines : List Text} (hlines : ∀ line ∈ lines, Whole line)
    (c : Conn) :
    recvLoop (· == newline) (· == nul) (dispatch written) Conn.isOpen []
        (lines.map fun line => line ++ [newline]) c
      = (run (lineStep written) c lines).map fun c => ([], c) := by
  induction lines generalizing c with
  | nil => rfl
  | cons line lines ih =>
    have hend : messageEnd (· == newline) (line ++ [newline]) = true := by simp [messageEnd]
    have hrest := ih fun l hl => hlines l (by simp [hl])
    rw [List.map_cons, recvLoop]
    cases hopen : c.isOpen with
    | false => rw [if_neg (by simp), run_closed written hopen, Option.map_some]
    | true =>
      rw [if_pos rfl, tokens_line (hlines line (by simp)), hend, run_cons, lineStep, hopen]
      cases line with
      | nil => simp [tokenLoop, hrest]
      | cons b bs =>
        rw [if_neg (by simp), if_pos (by simp), tokenLoop, if_pos rfl, toAnalyze_nil]
        cases dispatch written c (b :: bs) with
        | none => rfl
        | some c₁ => exact hrest c₁

/-! ### One connection over its wake-ups -/

/-- What outlives a call: the board, whether the descriptor is open, the replies sent so far. -/
structure Link where
  board : Board
  isOpen : Bool
  replies : ℕ
  deriving DecidableEq

/-- A wake-up that finds the lines `group`.  `written i` says whether the `i`-th reply on the
connection can be written. -/
def wakeUp (written : ℕ → Bool) (link : Link) (group : List Text) : Option Link :=
  if link.isOpen then
    (serverTreatCommunications (fun i => written (link.replies + i)) link.board
        (group.map fun line => line ++ [newline]) false).map fun c =>
      ⟨c.board, c.isOpen, link.replies + c.replies.length⟩
  else some link

def linkOf (n : ℕ) (c : Conn) : Link := ⟨c.board, c.isOpen, n + c.replies.length⟩

/-- **A wake-up treats its lines one by one**, with a new `sms_state`. -/
theorem wakeUp_eq_run (written : ℕ → Bool) {link : Link} (hopen : link.isOpen = true)
    {group : List Text} (hgroup : ∀ line ∈ group, Whole line) :
    wakeUp written link group
      = (run (lineStep fun i => written (link.replies + i)) (Conn.start link.board) group).map
        (linkOf link.replies) := by
  rw [wakeUp, if_pos hopen, serverTreatCommunications, recvLoop_lines _ hgroup, Option.map_map,
    Option.map_map]
  congr 1
  funext c
  simp [linkOf]

/-! ### Lines that are turned down -/

/-- `parse_message` turns the line down: it has no clock, or nothing behind the clock's `;`. -/
def ignored (line : Text) : Bool :=
  let clock := line.takeWhile (· != semicolon)
  clock.length < 6 && (clock.isEmpty || line.length ≤ clock.length + 1)

/-- A line and its clock: it ends there, or a `;` follows. -/
theorem line_cases (line : Text) :
    ∃ clock, semicolon ∉ clock ∧ line.takeWhile (· != semicolon) = clock
      ∧ (line = clock ∨ ∃ r, line = clock ++ semicolon :: r) := by
  refine ⟨line.takeWhile (· != semicolon), ?_, rfl, ?_⟩
  · intro h
    simpa using List.mem_takeWhile_imp h
  · have hsplit := cstrBy_split (· == semicolon) line
    have hcstr : cstrBy (· == semicolon) line = line.takeWhile (· != semicolon) := rfl
    rw [hcstr] at hsplit
    rcases hsplit with h | ⟨b, r, hb, h⟩
    · exact Or.inl h.symm
    · rw [beq_iff_eq] at hb
      rw [hb] at h
      exact Or.inr ⟨r, h⟩

theorem ignored_iff {line clock : Text} (h : line.takeWhile (· != semicolon) = clock) :
    ignored line = true ↔ clock.length < 6 ∧ (clock = [] ∨ line.length ≤ clock.length + 1) := by
  simp only [ignored, h, Bool.and_eq_true, Bool.or_eq_true, decide_eq_true_eq, List.isEmpty_iff]

theorem parseMessage_ignored (b : Board) {line : Text} (h : ignored line = true) :
    parseMessage b line = some (b, none) := by
  obtain ⟨clock, hsemi, htake, hline⟩ := line_cases line
  rw [ignored_iff htake] at h
  have hscan : scan lineFormat line = [] ∨ scan lineFormat line = [.text clock] := by
    by_cases hclock : clock = []
    · have hstops : Stops (· != semicolon) line := by
        rcases hline with rfl | ⟨r, rfl⟩
        · rw [hclock]
          exact stops_nil _
        · rw [hclock]
          exact stops_cons (by simp) r
      exact Or.inl (scan_set_fail hstops _ _)
    · have hrun := bne_of_not_mem hsemi
      rcases hline with rfl | ⟨r, heq⟩
      · have hset := scan_set hrun (stops_nil _) hclock
          [.lit semicolon, .set (· != newline) (some 140) true]
        rw [List.append_nil] at hset
        exact Or.inr (by rw [lineFormat, hset]; rfl)
      · have hr : r = [] := by
          have hlen := h.2.resolve_left hclock
          rw [heq, List.length_append, List.length_cons] at hlen
          exact List.length_eq_zero_iff.mp (by omega)
        rw [hr] at heq
        rw [heq, scan_lineFormat hclock hsemi (by simp), if_pos rfl]
        exact Or.inr rfl
  rw [parseMessage, htake, if_neg (by omega)]
  rcases hscan with hscan | hscan
  · rw [hscan]
  · rw [hscan]

theorem parseMessage_not_ignored (b : Board) {line : Text} (hline : Whole line)
    (h : ignored line = false) :
    parseMessage b line = none ∨ ∃ b' m, parseMessage b line = some (b', some m) := by
  obtain ⟨clock, hsemi, htake, hcases⟩ := line_cases line
  rcases Nat.lt_or_ge clock.length 6 with hlt | hge
  · rw [← Bool.not_eq_true, ignored_iff htake, not_and, not_or] at h
    replace h := h hlt
    rcases hcases with rfl | ⟨r, rfl⟩
    · omega
    · have hr : r ≠ [] := by
        rintro rfl
        simp at h
      have hnl : newline ∉ r := fun hr => hline.newline_free (by simp [hr])
      exact Or.inr ⟨_, _, parseMessage_clock b h.1 hsemi hlt hr hnl⟩
  · exact Or.inl (parseMessage_overrun b (by rwa [htake]))

theorem ne_of_ignored {line : Text} (h : ignored line = true) :
    line ≠ sgetCode ∧ line ≠ smessageCode := by
  constructor
  · rintro rfl
    exact absurd h (by decide)
  · rintro rfl
    exact absurd h (by decide)

/-! ### Lines whose grouping does not matter -/

/-- From a new call on, with `n` replies sent: behind the first `SMESSAGES` that is reached, every
line is turned down. -/
def independent (written : ℕ → Bool) : ℕ → List Text → Bool
  | _, [] => true
  | n, line :: lines =>
      if line = sgetCode then !written n || independent written (n + 1) lines
      else if line = smessageCode then lines.all ignored
      else independent written n lines

/-- The effect of a line outside of any `SMESSAGES`. -/
def quietStep (written : ℕ → Bool) (link : Link) (line : Text) : Link :=
  if link.isOpen && line == sgetCode then
    { link with isOpen := written link.replies, replies := link.replies + 1 }
  else link

def quiet (written : ℕ → Bool) (link : Link) (lines : List Text) : Link :=
  lines.foldl (quietStep written) link

theorem quiet_append (written : ℕ → Bool) (link : Link) (xs ys : List Text) :
    quiet written link (xs ++ ys) = quiet written (quiet written link xs) ys := List.foldl_append

theorem independent_of_ignored (written : ℕ → Bool) {lines : List Text}
    (h : lines.all ignored = true) (n : ℕ) : independent written n lines = true := by
  induction lines with
  | nil => rfl
  | cons line lines ih =>
    rw [List.all_cons, Bool.and_eq_true] at h
    obtain ⟨hget, hsms⟩ := ne_of_ignored h.1
    rw [independent, if_neg hget, if_neg hsms, ih h.2]

theorem quiet_ignored (written : ℕ → Bool) {lines : List Text} (h : lines.all ignored = true)
    (link : Link) : quiet written link lines = link := by
  induction lines with
  | nil => rfl
  | cons line lines ih =>
    rw [List.all_cons, Bool.and_eq_true] at h
    have hstep : quietStep written link line = link := by
      simp [quietStep, (ne_of_ignored h.1).1]
    rw [quiet, List.foldl_cons, hstep]
    exact ih h.2

theorem quiet_closed (written : ℕ → Bool) {link : Link} (h : link.isOpen = false)
    (lines : List Text) : quiet written link lines = link := by
  induction lines with
  | nil => rfl
  | cons line lines ih =>
    have hstep : quietStep written link line = link := by simp [quietStep, h]
    rw [quiet, List.foldl_cons, hstep]
    exact ih

@[simp] theorem quiet_board (written : ℕ → Bool) (link : Link) (lines : List Text) :
    (quiet written link lines).board = link.board := by
  induction lines generalizing link with
  | nil => rfl
  | cons line lines ih =>
    rw [quiet, List.foldl_cons]
    refine (ih _).trans ?_
    rw [quietStep]
    split <;> rfl

/-- With message lines expected, lines that are turned down change nothing. -/
theorem run_ignored (written : ℕ → Bool) {c : Conn} (hc : c.smsState = true) {lines : List Text}
    (h : lines.all ignored = true) : run (lineStep written) c lines = some c := by
  induction lines with
  | nil => rfl
  | cons line lines ih =>
    rw [List.all_cons, Bool.and_eq_true] at h
    have hstep : lineStep written c line = some c := by
      rw [lineStep, dispatch, if_pos hc, parseMessage_ignored c.board h.1]
      simp
    rw [run_cons, hstep, Option.bind_some, ih h.2]

/-- The replies of a call that began with `n` replies are numbered on from `n`. -/
theorem dispatch_sget (written : ℕ → Bool) {c : Conn} (hc : c.smsState = false) :
    dispatch written c sgetCode = some { c with
      isOpen := c.isOpen && written c.replies.length
      replies := c.replies ++ [handleSgetMessages c.board] } := by
  rw [dispatch, if_neg (by simp [hc]), if_pos rfl]

theorem dispatch_smessage (written : ℕ → Bool) {c : Conn} (hc : c.smsState = false) :
    dispatch written c smessageCode = some { c with smsState := true } := by
  have hne : smessageCode ≠ sgetCode := by decide
  rw [dispatch, if_neg (by simp [hc]), if_neg hne, if_pos rfl]

theorem dispatch_other (written : ℕ → Bool) {c : Conn} (hc : c.smsState = false) {line : Text}
    (hget : line ≠ sgetCode) (hsms : line ≠ smessageCode) : dispatch written c line = some c := by
  rw [dispatch, if_neg (by simp [hc]), if_neg hget, if_neg hsms]

/-- On an open descriptor, a line that is not blank is dispatched. -/
theorem lineStep_open (written : ℕ → Bool) {c : Conn} (hopen : c.isOpen = true) {line : Text}
    (hne : line ≠ []) : lineStep written c line = dispatch written c line := by
  rw [lineStep, if_pos (by simp [hopen, hne])]

/-- A line that is no command changes nothing, nor does a blank one. -/
theorem lineStep_other (written : ℕ → Bool) {c : Conn} (hopen : c.isOpen = true)
    (hc : c.smsState = false) {line : Text} (hget : line ≠ sgetCode) (hsms : line ≠ smessageCode) :
    lineStep written c line = some c := by
  by_cases hne : line = []
  · rw [lineStep, if_neg (by simp [hne])]
  · rw [lineStep_open written hopen hne, dispatch_other written hc hget hsms]

/-- **One call is quiet** while nothing depends on the grouping, and leaves the rest independent. -/
theorem run_quiet (written : ℕ → Bool) (n : ℕ) {c : Conn} (hopen : c.isOpen = true)
    (hc : c.smsState = false) {group rest : List Text}
    (h : independent written (n + c.replies.length) (group ++ rest) = true) :
    ∃ c', run (lineStep fun i => written (n + i)) c group = some c'
      ∧ linkOf n c' = quiet written (linkOf n c) group
      ∧ (c'.isOpen = true → independent written (n + c'.replies.length) rest = true) := by
  induction group generalizing c with
  | nil => exact ⟨c, rfl, rfl, fun _ => h⟩
  | cons line group ih =>
    rw [List.cons_append, independent] at h
    rw [run_cons, quiet, List.foldl_cons]
    by_cases hget : line = sgetCode
    · subst hget
      have hquiet : quietStep written (linkOf n c) sgetCode
          = { linkOf n c with
              isOpen := written (n + c.replies.length), replies := n + c.replies.length + 1 } := by
        simp [quietStep, linkOf, hopen]
      rw [lineStep_open _ hopen (by decide), dispatch_sget _ hc, Option.bind_some, hquiet, hopen,
        Bool.true_and]
      rw [if_pos rfl, Bool.or_eq_true, Bool.not_eq_true'] at h
      cases hw : written (n + c.replies.length) with
      | false =>
        refine ⟨_, run_closed _ rfl group, ?_, fun hcl => by simp at hcl⟩
        refine Eq.trans ?_ (quiet_closed written rfl group).symm
        simp [linkOf, Nat.add_assoc]
      | true =>
        obtain ⟨c', hrun, hlink, hrest⟩ := ih
          (c := { c with isOpen := true, replies := c.replies ++ [handleSgetMessages c.board] })
          rfl hc (by simpa [Nat.add_assoc] using h.resolve_left (by simp [hw]))
        refine ⟨c', hrun, ?_, hrest⟩
        rw [hlink]
        simp [linkOf, quiet, Nat.add_assoc]
    · have hquiet : quietStep written (linkOf n c) line = linkOf n c := by simp [quietStep, hget]
      rw [if_neg hget] at h
      rw [hquiet]
      by_cases hsms : line = smessageCode
      · subst hsms
        rw [if_pos rfl, List.all_append, Bool.and_eq_true] at h
        rw [lineStep_open _ hopen (by decide), dispatch_smessage _ hc, Option.bind_some]
        refine ⟨_, run_ignored _ rfl h.1, ?_, fun _ => independent_of_ignored written h.2 _⟩
        exact (quiet_ignored written h.1 _).symm
      · rw [if_neg hsms] at h
        rw [lineStep_other _ hopen hc hget hsms, Option.bind_some]
        exact ih hopen hc h

/-- **One wake-up is quiet.** -/
theorem wakeUp_quiet (written : ℕ → Bool) {link : Link} {group rest : List Text}
    (hgroup : ∀ line ∈ group, Whole line)
    (h : link.isOpen = true → independent written link.replies (group ++ rest) = true) :
    wakeUp written link group = some (quiet written link group)
      ∧ ((quiet written link group).isOpen = true →
        independent written (quiet written link group).replies rest = true) := by
  cases hopen : link.isOpen with
  | false =>
    rw [wakeUp, if_neg (by simp [hopen]), quiet_closed written hopen]
    exact ⟨rfl, fun hcl => by simp [hopen] at hcl⟩
  | true =>
    obtain ⟨c', hrun, hlink, hrest⟩ := run_quiet written link.replies (c := Conn.start link.board)
      rfl rfl (h hopen)
    have hstart : linkOf link.replies (Conn.start link.board) = link := by
      cases link
      simp only at hopen
      simp [linkOf, Conn.start, hopen]
    rw [hstart] at hlink
    rw [wakeUp_eq_run written hopen hgroup, hrun, Option.map_some, hlink]
    refine ⟨rfl, ?_⟩
    rw [← hlink]
    exact hrest

theorem run_wakeUps_quiet (written : ℕ → Bool) {groups : List (List Text)}
    (hlines : ∀ line ∈ groups.flatten, Whole line) {link : Link}
    (h : link.isOpen = true → independent written link.replies groups.flatten = true) :
    run (wakeUp written) link groups = some (quiet written link groups.flatten) := by
  induction groups generalizing link with
  | nil => rfl
  | cons group groups ih =>
    rw [List.flatten_cons] at hlines h
    obtain ⟨hone, hrest⟩ := wakeUp_quiet written (fun l hl => hlines l (by simp [hl])) h
    rw [run_cons, hone, Option.bind_some, List.flatten_cons, quiet_append]
    exact ih (fun l hl => hlines l (by simp [List.mem_flatten.mp hl])) hrest

/-- One line a call is always quiet: `sms_state` is forgotten before it is read. -/
theorem run_single (written : ℕ → Bool) {lines : List Text} (hlines : ∀ line ∈ lines, Whole line)
    (link : Link) :
    run (wakeUp written) link (lines.map fun line => [line]) = some (quiet written link lines) := by
  induction lines generalizing link with
  | nil => rfl
  | cons line lines ih =>
    have hone : independent written link.replies ([line] ++ []) = true := by
      rw [List.append_nil, independent]
      split
      · simp [independent]
      · split
        · rfl
        · rfl
    have hwake : wakeUp written link [line] = some (quiet written link [line]) :=
      (wakeUp_quiet written (by simpa using hlines line (by simp)) fun _ => hone).1
    rw [List.map_cons, run_cons, hwake, Option.bind_some, ih fun l hl => hlines l (by simp [hl])]
    rfl

/-! ### Lines whose grouping matters -/

/-- The number of messages in the matrix. -/
def size (c : Conn) : ℕ := c.board.msgMatrix.getSize

theorem lineStep_sms (written : ℕ → Bool) {c c' : Conn} (hc : c.smsState = true) {line : Text}
    (h : lineStep written c line = some c') : c'.smsState = true ∧ size c ≤ size c' := by
  rw [lineStep] at h
  split at h
  · rw [dispatch, if_pos hc] at h
    obtain ⟨r, hr, rfl⟩ := Option.map_eq_some_iff.mp h
    refine ⟨hc, ?_⟩
    rcases parseMessage_cases hr with rfl | ⟨m, _, hadd⟩
    · exact le_rfl
    · show c.board.msgMatrix.getSize ≤ r.1.msgMatrix.getSize
      rw [hadd, Matrix.getSize_addElement]
      omega
  · rw [← Option.some.inj h]
    exact ⟨hc, le_rfl⟩

theorem run_sms_size (written : ℕ → Bool) {c c' : Conn} (hc : c.smsState = true)
    {lines : List Text} (hrun : run (lineStep written) c lines = some c') : size c ≤ size c' := by
  have hstep (d : Conn) (line : Text) (d' : Conn) (hd : d.smsState = true ∧ size c ≤ size d)
      (h : lineStep written d line = some d') : d'.smsState = true ∧ size c ≤ size d' := by
    have hsms := lineStep_sms written hd.1 h
    exact ⟨hsms.1, hd.2.trans hsms.2⟩
  exact (run_invariant hstep ⟨hc, le_rfl⟩ hrun).2

/-- With message lines expected, a line that is not turned down is stored or overruns the buffer. -/
theorem run_sms_grows (written : ℕ → Bool) {c c' : Conn} (hopen : c.isOpen = true)
    (hc : c.smsState = true) {lines : List Text} (hlines : ∀ line ∈ lines, Whole line)
    (h : lines.all ignored = false) (hrun : run (lineStep written) c lines = some c') :
    size c < size c' := by
  induction lines generalizing c with
  | nil => simp at h
  | cons line lines ih =>
    have hline := hlines line (by simp)
    rw [run_cons] at hrun
    obtain ⟨c₁, h₁, hrest⟩ := Option.bind_eq_some_iff.mp hrun
    cases hi : ignored line with
    | true =>
      have hstep : run (lineStep written) c [line] = some c :=
        run_ignored written hc (by simp [hi])
      rw [run_singleton, h₁, Option.some.injEq] at hstep
      subst hstep
      rw [List.all_cons, hi, Bool.true_and] at h
      exact ih hopen hc (fun l hl => hlines l (by simp [hl])) h hrest
    | false =>
      have hne : line ≠ [] := by
        rintro rfl
        exact absurd hi (by decide)
      rw [lineStep, if_pos (by simp [hopen, hne]), dispatch, if_pos hc] at h₁
      obtain ⟨r, hr, rfl⟩ := Option.map_eq_some_iff.mp h₁
      have hgrow : c.board.msgMatrix.getSize < r.1.msgMatrix.getSize := by
        rcases parseMessage_not_ignored c.board hline hi with hnone | ⟨b', m, hsome⟩
        · rw [hnone] at hr
          simp at hr
        · rcases parseMessage_cases hr with rfl | ⟨m', _, hadd⟩
          · simp [hsome] at hr
          · rw [hadd, Matrix.getSize_addElement]
            omega
      have hkeep := run_sms_size written (c := { c with board := r.1, stored := c.stored ++ r.2.toList })
        hc hrest
      exact lt_of_lt_of_le hgrow hkeep

/-- **All lines in one call**: where something depends on the grouping, the matrix grows. -/
theorem run_grows (written : ℕ → Bool) (n : ℕ) {c c' : Conn} (hopen : c.isOpen = true)
    (hc : c.smsState = false) {lines : List Text} (hlines : ∀ line ∈ lines, Whole line)
    (h : independent written (n + c.replies.length) lines = false)
    (hrun : run (lineStep fun i => written (n + i)) c lines = some c') : size c < size c' := by
  induction lines generalizing c with
  | nil => simp [independent] at h
  | cons line lines ih =>
    have hrest := fun l hl => hlines l (List.mem_cons_of_mem line hl)
    rw [independent] at h
    rw [run_cons] at hrun
    by_cases hget : line = sgetCode
    · subst hget
      rw [if_pos rfl, Bool.or_eq_false_iff, Bool.not_eq_false'] at h
      rw [lineStep_open _ hopen (by decide), dispatch_sget _ hc, Option.bind_some, hopen,
        Bool.true_and] at hrun
      exact ih (c := { c with
        isOpen := written (n + c.replies.length)
        replies := c.replies ++ [handleSgetMessages c.board] }) h.1 hc hrest
        (by simpa [Nat.add_assoc] using h.2) hrun
    · rw [if_neg hget] at h
      by_cases hsms : line = smessageCode
      · subst hsms
        rw [if_pos rfl] at h
        rw [lineStep_open _ hopen (by decide), dispatch_smessage _ hc, Option.bind_some] at hrun
        exact run_sms_grows _ (c := { c with smsState := true }) hopen rfl hrest h hrun
      · rw [if_neg hsms] at h
        rw [lineStep_other _ hopen hc hget hsms, Option.bind_some] at hrun
        exact ih hopen hc hrest h hrun

/-- **Exactly when the grouping does not matter**: every two ways of grouping the lines into calls
leave the same board, the same number of replies and the same connection if and only if, behind the
first `SMESSAGES` that is reached, every line is turned down. -/
theorem wakeUps_independent_iff (written : ℕ → Bool) (b : Board) {lines : List Text}
    (hlines : ∀ line ∈ lines, Whole line) :
    (∀ g₁ g₂ : List (List Text), g₁.flatten = lines → g₂.flatten = lines →
        run (wakeUp written) ⟨b, true, 0⟩ g₁ = run (wakeUp written) ⟨b, true, 0⟩ g₂)
      ↔ independent written 0 lines = true := by
  constructor
  · intro h
    by_contra hdep
    rw [Bool.not_eq_true] at hdep
    have heq := h [lines] (lines.map fun line => [line]) (by simp)
      (by rw [← List.flatMap_def]; simp)
    rw [run_single written hlines, run_singleton, wakeUp_eq_run written rfl hlines,
      Option.map_eq_some_iff] at heq
    obtain ⟨c, hrun, hlink⟩ := heq
    have hgrow := run_grows written 0 (c := Conn.start b) rfl rfl hlines hdep hrun
    have hboard := congrArg Link.board hlink
    rw [quiet_board] at hboard
    have hsame : c.board = b := hboard
    rw [size, size, hsame] at hgrow
    exact absurd hgrow (lt_irrefl _)
  · intro h g₁ g₂ h₁ h₂
    rw [run_wakeUps_quiet written (by rwa [h₁]) (by rw [h₁]; exact fun _ => h),
      run_wakeUps_quiet written (by rwa [h₂]) (by rw [h₂]; exact fun _ => h), h₁, h₂]

theorem wakeUps_independent_iff_gets :
    run (wakeUp fun _ => true) ⟨⟨0, .createMatrix 2 (by decide) false⟩, true, 0⟩
        [[sgetCode, []], [sgetCode, smessageCode]]
      = run (wakeUp fun _ => true) ⟨⟨0, .createMatrix 2 (by decide) false⟩, true, 0⟩
        [[sgetCode], [[], sgetCode, smessageCode]] :=
  (wakeUps_independent_iff _ _
    (show ∀ line ∈ [sgetCode, [], sgetCode, smessageCode], Whole line by decide)).mpr
    (by decide) _ _ rfl rfl

/-- **A message line in a wake-up of its own is lost.** -/
theorem wakeUps_dependent :
    let link : Link := ⟨⟨0, .createMatrix 2 (by decide) false⟩, true, 0⟩
    (∀ line ∈ [smessageCode, ascii "4;hi"], Whole line)
      ∧ (run (wakeUp fun _ => true) link [[smessageCode, ascii "4;hi"]]).map
          (fun l => (l.board.gLc, l.board.msgMatrix.getSize)) = some (5, 1)
      ∧ (run (wakeUp fun _ => true) link [[smessageCode], [ascii "4;hi"]]).map
          (fun l => (l.board.gLc, l.board.msgMatrix.getSize)) = some (0, 0) := by
  decide

end WakeupGrouping

end MessageBoard
