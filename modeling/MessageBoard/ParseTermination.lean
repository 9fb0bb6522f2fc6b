import MessageBoard.MsgservIdentity

/-!
# The loop of `parse_servers`

The message server reads the list line by line with `strtok`.  A line that is scanned whole moves the
loop on; any other line continues it without a call of `strtok`, so the same line is scanned again.
The turns of the loop are counted here: a loop that has used up its turns is still running.

* `parseLoop_returns_iff` — the loop ends exactly if every line is scanned whole;
* `parseServers_eq_some_iff` — `parseServers` gives a result exactly if the loop ends;
* `parse_servers_ends_iff` — **which texts end the loop** without a null token.
-/

namespace MessageBoard

open CText CScan Run

namespace ParseTermination

/-- How `parse_servers` stands after some turns. -/
inductive Ending where
  | returned (code : ℕ) (msgsrvList : List Server)
  /-- `strcmp` is given the null pointer that `strtok` returned. -/
  | nullToken
  /-- `sscanf` writes behind `step_mem_name` or `step_mem_ip_addr`. -/
  | overrun
  | running
  deriving DecidableEq, Repr

/-- A field that was stored does not fit in its buffer. -/
def overruns (fields : List Field) : Bool :=
  fields.any fun
    | .text t => stringSize ≤ t.length
    | .num _ => false

/-- The `while` loop, at most so many turns: `separated_info` with what `strtok` has not read. -/
def parseLoop : ℕ → Option (Text × Text) → List Server → Ending
  | _, none, msgsrvList => .returned 0 msgsrvList
  | 0, some _, _ => .running
  | turns + 1, some (separatedInfo, unread), msgsrvList =>
      let fields := scan serverFormat separatedInfo
      if overruns fields then .overrun
      else
        match fields with
        | [.text name, .text ipAddr, .num udpPort, .num tcpPort] =>
            parseLoop turns (strtok (· == newline) unread)
              ({ Server.new name ipAddr udpPort tcpPort with fd := -2, connected := false }
                :: msgsrvList)
        | _ => parseLoop turns (some (separatedInfo, unread)) msgsrvList

/-- `parse_servers` on the text that `get_servers` returned. -/
def parseResponse (turns : ℕ) (response : Text) (msgsrvList : List Server) : Ending :=
  match strtok (· == newline) response with
  | none => .nullToken
  | some (header, unread) =>
      if header ≠ ascii "SERVERS" then .returned 1 msgsrvList
      else parseLoop turns (strtok (· == newline) unread) msgsrvList

/-- It ends with `EXIT_SUCCESS` or `EXIT_FAILURE`. -/
def Ends (response : Text) (msgsrvList : List Server) : Prop :=
  ∃ turns code l, parseResponse turns response msgsrvList = .returned code l

/-- All four fields are stored, the texts within their buffers. -/
def Readable (line : Text) : Prop := (parseServer line).isSome = true

instance (line : Text) : Decidable (Readable line) :=
  inferInstanceAs (Decidable ((parseServer line).isSome = true))

/-! ### One line -/

/-- **A readable line moves the loop on.** -/
theorem parseLoop_readable {line unread : Text} {s : Server} (hline : parseServer line = some s)
    (turns : ℕ) (l : List Server) : parseLoop (turns + 1) (some (line, unread)) l
      = parseLoop turns (strtok (· == newline) unread) (s :: l) := by
  rw [parseServer] at hline
  split at hline
  · rename_i name ipAddr udpPort tcpPort hscan
    split at hline
    · rename_i hfits
      have hno : overruns [.text name, .text ipAddr, .num udpPort, .num tcpPort] = false := by
        simp [overruns, hfits.1, hfits.2]
      simp only [parseLoop, hscan, hno]
      rw [← Option.some.inj hline]
      rfl
    · simp at hline
  · simp at hline

/-- **Any other line is never left.** -/
theorem parseLoop_stuck {line : Text} (hline : ¬Readable line) (unread : Text) (turns : ℕ)
    (l : List Server) :
    parseLoop turns (some (line, unread)) l = .running
      ∨ parseLoop turns (some (line, unread)) l = .overrun := by
  induction turns with
  | zero => exact Or.inl rfl
  | succ turns ih =>
    rw [parseLoop]
    by_cases hover : overruns (scan serverFormat line) = true
    · exact Or.inr (if_pos hover)
    · rw [if_neg hover]
      split
      · rename_i name ipAddr udpPort tcpPort hscan
        refine absurd ?_ hline
        rw [hscan] at hover
        simp only [overruns, List.any_cons, List.any_nil, Bool.or_eq_true, decide_eq_true_eq,
          Bool.false_eq_true, or_false, not_or, Nat.not_le] at hover
        simp [Readable, parseServer, hscan, hover]
      · exact ih

/-! ### All lines -/

theorem strtok_of_tokens_nil {s : Text} (h : tokens (· == newline) s = []) :
    strtok (· == newline) s = none := by
  rw [tokens_eq_strtok] at h
  cases hs : strtok (· == newline) s with
  | none => rfl
  | some r => simp [hs] at h

theorem strtok_of_tokens_cons {s line : Text} {lines : List Text}
    (h : tokens (· == newline) s = line :: lines) :
    ∃ unread, strtok (· == newline) s = some (line, unread) ∧ tokens (· == newline) unread = lines := by
  rw [tokens_eq_strtok] at h
  cases hs : strtok (· == newline) s with
  | none => simp [hs] at h
  | some r =>
    simp only [hs, List.cons.injEq] at h
    exact ⟨r.2, by rw [← h.1], h.2⟩

/-- **The loop ends exactly if every line is scanned whole**, after one turn for each, and then with
the lines pushed. -/
theorem parseLoop_returns_iff {lines : List Text} {s : Text} (hs : tokens (· == newline) s = lines)
    (l : List Server) (code : ℕ) (l' : List Server) :
    (∃ turns, parseLoop turns (strtok (· == newline) s) l = .returned code l')
      ↔ code = 0 ∧ run pushServer l lines = some l' := by
  induction lines generalizing s l with
  | nil =>
    rw [strtok_of_tokens_nil hs]
    constructor
    · rintro ⟨turns, hret⟩
      cases turns <;> simp_all [parseLoop]
    · rintro ⟨rfl, hrun⟩
      exact ⟨0, by rw [← Option.some.inj hrun]; rfl⟩
  | cons line lines ih =>
    obtain ⟨unread, hstrtok, hrest⟩ := strtok_of_tokens_cons hs
    rw [hstrtok, run_cons, pushServer]
    cases hline : parseServer line with
    | none =>
      have hnot : ¬Readable line := by simp [Readable, hline]
      constructor
      · rintro ⟨turns, hret⟩
        rcases parseLoop_stuck hnot unread turns l with hstuck | hstuck
        · simp [hstuck] at hret
        · simp [hstuck] at hret
      · rintro ⟨-, hrun⟩
        simp at hrun
    | some srv =>
      rw [Option.map_some, Option.bind_some, ← ih hrest]
      constructor
      · rintro ⟨turns, hret⟩
        cases turns with
        | zero => simp [parseLoop] at hret
        | succ turns => exact ⟨turns, by rw [← parseLoop_readable hline, hret]⟩
      · rintro ⟨turns, hret⟩
        exact ⟨turns + 1, by rw [parseLoop_readable hline, hret]⟩

theorem run_pushServer_isSome_iff {lines : List Text} {l : List Server} :
    (run pushServer l lines).isSome = true ↔ ∀ line ∈ lines, Readable line := by
  induction lines generalizing l with
  | nil => simp
  | cons line lines ih =>
    rw [run_cons, pushServer, List.forall_mem_cons, Readable]
    cases hline : parseServer line with
    | none => simp
    | some s => simpa using ih

/-! ### The whole function -/

/-- The result of `parseServers` is that of the loop. -/
theorem parseServers_eq_some_iff {datagram : Text} {l l' : List Server} {code : ℕ}
    (hbuf : ¬((datagram.take responseSize).length = responseSize ∧ nul ∉ datagram.take responseSize)) :
    parseServers (some datagram) l = some (code, l')
      ↔ ∃ turns, parseResponse turns (cstr (datagram.take responseSize)) l = .returned code l' := by
  simp only [parseServers, parseResponse]
  rw [if_neg hbuf]
  cases htok : tokens (· == newline) (cstr (datagram.take responseSize)) with
  | nil =>
    rw [strtok_of_tokens_nil htok]
    simp
  | cons header lines =>
    obtain ⟨unread, hstrtok, hrest⟩ := strtok_of_tokens_cons htok
    rw [hstrtok]
    simp only []
    by_cases hheader : header ≠ ascii "SERVERS"
    · simp only [if_pos hheader]
      simp [eq_comm]
    · simp only [if_neg hheader]
      rw [parseLoop_returns_iff hrest]
      simp [eq_comm, and_comm]

/-- **Which texts end the loop**: there is a first line, and behind a line `SERVERS` all lines are
scanned whole. -/
theorem parse_servers_ends_iff (response : Text) (l : List Server) : Ends response l
    ↔ (∃ b ∈ response, b ≠ newline)
      ∧ ∀ lines, tokens (· == newline) response = ascii "SERVERS" :: lines →
        ∀ line ∈ lines, Readable line := by
  have hfirst : (∃ b ∈ response, b ≠ newline) ↔ tokens (· == newline) response ≠ [] := by
    rw [ne_eq, tokens_eq_nil_iff]
    push Not
    simp
  rw [hfirst, Ends]
  simp only [parseResponse]
  cases htok : tokens (· == newline) response with
  | nil =>
    rw [strtok_of_tokens_nil htok]
    simp
  | cons header lines =>
    obtain ⟨unread, hstrtok, hrest⟩ := strtok_of_tokens_cons htok
    rw [hstrtok]
    simp only []
    by_cases hheader : header ≠ ascii "SERVERS"
    · simp [hheader]
    · rw [not_not] at hheader
      subst hheader
      have hends := parseLoop_returns_iff hrest l
      simp only [ne_eq, not_true_eq_false, if_false, List.cons.injEq, true_and, forall_eq', reduceCtorEq,
        not_false_eq_true]
      rw [← run_pushServer_isSome_iff (l := l), Option.isSome_iff_exists]
      constructor
      · rintro ⟨turns, code, l', hret⟩
        exact ⟨l', ((hends code l').mp ⟨turns, hret⟩).2⟩
      · rintro ⟨l', hrun⟩
        obtain ⟨turns, hret⟩ := (hends 0 l').mpr ⟨rfl, hrun⟩
        exact ⟨turns, 0, l', hret⟩

/-- A line without semicolons is scanned for ever. -/
theorem not_ends_malformed : ¬∀ (response : Text) (l : List Server), response.length ≤ 511 →
    nul ∉ response → Ends response l := by
  intro h
  obtain ⟨turns, code, l, hret⟩ :=
    h (ascii "SERVERS" ++ newline :: ascii "x" ++ [newline]) [] (by decide) (by decide)
  have htok : tokens (· == newline) (ascii "SERVERS" ++ newline :: ascii "x" ++ [newline])
      = [ascii "SERVERS", ascii "x"] := by decide +kernel
  obtain ⟨unread, hheader, hrest⟩ := strtok_of_tokens_cons htok
  obtain ⟨unread', hline, -⟩ := strtok_of_tokens_cons hrest
  have hnot : ¬Readable (ascii "x") := by decide +kernel
  simp only [parseResponse, hheader, ne_eq, not_true_eq_false, if_false, hline] at hret
  rcases parseLoop_stuck hnot unread' turns [] with hstuck | hstuck
  · simp [hstuck] at hret
  · simp [hstuck] at hret

end ParseTermination

end MessageBoard
