import MessageBoard.Lib.LineStream
import MessageBoard.Lib.Run
import MessageBoard.MsgservMessage

/-!
# Which texts the `recv` loop dispatches

The framing half of `server_treat_communications`, apart from what a dispatched text does.
`frames` runs the loop with the action that only records the text, and `recvLoop_eq_frames` says
that any other run of the loop is that record replayed: framing does not depend on the dispatch.

* `tokenLoop_record` — one `recv` result in closed form: the held text is glued to the first token,
  the last token is dispatched or held, and only a second token clears `to_hold`;
* `recvLoop_eq_frames` — record, then replay;
* `frames_map` — framing commutes with a relabelling of the bytes.
-/

namespace MessageBoard

open CText LineStream Run

namespace TcpLoop

variable {σ α β : Type}

/-- Record the dispatched texts, oldest first. -/
def record (out : List (List α)) (text : List α) : Option (List (List α)) := some (out ++ [text])

/-- The held text and the dispatched texts of a run over the `recv` results `chunks`. -/
def frames (nl z : α → Bool) (toHold : List α) (chunks : List (List α)) :
    Option (List α × List (List α)) :=
  recvLoop nl z record (fun _ => true) toHold chunks []

/-- The texts dispatched for the tokens of one `recv` result. -/
def analyzeHead (toHold : List α) : List (List α) → List (List α)
  | [] => []
  | token :: rest => toAnalyze toHold token :: rest

@[simp] theorem toAnalyze_nil (token : List α) : toAnalyze [] token = token := rfl

@[simp] theorem analyzeHead_nil (tokens : List (List α)) : analyzeHead [] tokens = tokens := by
  cases tokens <;> rfl

/-- `to_hold` at the last token: a token with a successor has cleared it. -/
def heldAtLast (toHold : List α) : List (List α) → List α
  | [] => toHold
  | [_] => toHold
  | _ :: _ :: _ => []

/-- **One `recv` result in closed form.** -/
theorem tokenLoop_record (e : Bool) (toHold : List α) (toks out : List (List α)) :
    tokenLoop record e toHold toks out
      = match toks.getLast? with
        | none => some (toHold, out)
        | some token =>
            if e then some (heldAtLast toHold toks, out ++ analyzeHead toHold toks)
            else (holdToken (heldAtLast toHold toks) token).map fun held =>
              (held, out ++ analyzeHead toHold toks.dropLast) := by
  induction toks generalizing toHold out with
  | nil => rfl
  | cons token rest ih =>
    cases rest with
    | nil => cases e <;> simp [tokenLoop, record, heldAtLast, analyzeHead]
    | cons next rest =>
      rw [tokenLoop, record, Option.bind_some, ih]
      have hheld : heldAtLast [] (next :: rest) = heldAtLast toHold (token :: next :: rest) := by
        cases rest <;> rfl
      rw [List.getLast?_cons_cons, hheld]
      cases hlast : (next :: rest).getLast? with
      | none => simp at hlast
      | some last =>
        cases e with
        | true => simp [analyzeHead]
        | false =>
          simp only [Bool.false_eq_true, if_false, analyzeHead_nil, List.append_assoc]
          rfl

/-- Framing with some texts already recorded. -/
theorem tokenLoop_record_append (e : Bool) (toHold : List α) (toks out : List (List α)) :
    tokenLoop record e toHold toks out
      = (tokenLoop record e toHold toks []).map fun r => (r.1, out ++ r.2) := by
  rw [tokenLoop_record, tokenLoop_record]
  cases toks.getLast? with
  | none => simp
  | some token =>
    cases e with
    | true => simp
    | false => simp [Option.map_map, Function.comp_def]

theorem recvLoop_record_append (nl z : α → Bool) (toHold : List α) (chunks out : List (List α)) :
    recvLoop nl z record (fun _ => true) toHold chunks out
      = (frames nl z toHold chunks).map fun r => (r.1, out ++ r.2) := by
  induction chunks generalizing toHold out with
  | nil => simp [frames, recvLoop]
  | cons chunk chunks ih =>
    simp only [frames, recvLoop, if_true]
    rw [tokenLoop_record_append]
    cases tokenLoop record (messageEnd nl chunk) toHold (tokens nl (cstrBy z chunk)) [] with
    | none => rfl
    | some r =>
      simp only [Option.map_some, Option.bind_some]
      rw [ih r.1 (out ++ r.2), ih r.1 r.2, Option.map_map]
      simp [Function.comp_def]

/-- Framing one more `recv` result first. -/
theorem frames_cons (nl z : α → Bool) (toHold chunk : List α) (chunks : List (List α)) :
    frames nl z toHold (chunk :: chunks)
      = (tokenLoop record (messageEnd nl chunk) toHold (tokens nl (cstrBy z chunk)) []).bind
          fun r => (frames nl z r.1 chunks).map fun r' => (r'.1, r.2 ++ r'.2) := by
  rw [frames, recvLoop, if_pos rfl]
  congr 1
  funext r
  exact recvLoop_record_append nl z r.1 chunks r.2

/-! ### Record, then replay -/

theorem tokenLoop_eq_record (act : σ → List α → Option σ) (e : Bool) (toHold : List α)
    (toks : List (List α)) (s : σ) :
    tokenLoop act e toHold toks s
      = (tokenLoop record e toHold toks []).bind fun r =>
          (run act s r.2).map fun s => (r.1, s) := by
  induction toks generalizing toHold s with
  | nil => rfl
  | cons token rest ih =>
    cases rest with
    | nil =>
      cases e with
      | true =>
        simp only [tokenLoop, record, if_true, Option.map_some, Option.bind_some, List.nil_append]
        rw [run_cons]
        cases act s (toAnalyze toHold token) <;> rfl
      | false =>
        simp only [tokenLoop, Bool.false_eq_true, if_false]
        cases holdToken toHold token <;> rfl
    | cons next rest =>
      rw [tokenLoop, tokenLoop, record, Option.bind_some, tokenLoop_record_append]
      cases hr : tokenLoop record e [] (next :: rest) [] with
      | none =>
        have hnone (s' : σ) : tokenLoop act e [] (next :: rest) s' = none := by rw [ih, hr]; rfl
        simp [hnone]
      | some r =>
        have hsome (s' : σ) : tokenLoop act e [] (next :: rest) s'
            = (run act s' r.2).map fun s => (r.1, s) := by rw [ih, hr]; rfl
        simp only [hsome, Option.map_some, Option.bind_some, List.nil_append]
        rw [List.singleton_append, run_cons]
        cases act s (toAnalyze toHold token) <;> rfl

/-- Record and replay one `recv` result, if the rest can be recorded and replayed. -/
theorem recvLoop_cons_eq {nl z : α → Bool} {act : σ → List α → Option σ} {isOpen : σ → Bool}
    {toHold chunk : List α} {chunks : List (List α)} {s : σ} (hs : isOpen s = true)
    (hrest : ∀ held out s', tokenLoop record (messageEnd nl chunk) toHold
        (tokens nl (cstrBy z chunk)) [] = some (held, out) → run act s out = some s' →
      recvLoop nl z act isOpen held chunks s'
        = (frames nl z held chunks).bind fun r => (run act s' r.2).map fun s => (r.1, s)) :
    recvLoop nl z act isOpen toHold (chunk :: chunks) s
      = (frames nl z toHold (chunk :: chunks)).bind fun r =>
          (run act s r.2).map fun s => (r.1, s) := by
  rw [recvLoop, if_pos hs, tokenLoop_eq_record, frames_cons]
  cases htok : tokenLoop record (messageEnd nl chunk) toHold (tokens nl (cstrBy z chunk)) [] with
  | none => rfl
  | some r =>
    simp only [Option.bind_some]
    cases hr : run act s r.2 with
    | none =>
      cases frames nl z r.1 chunks with
      | none => rfl
      | some r' => simp [run_append, hr]
    | some s₁ =>
      simp only [Option.map_some, Option.bind_some]
      rw [hrest r.1 r.2 s₁ htok hr]
      cases frames nl z r.1 chunks with
      | none => rfl
      | some r' => simp [run_append, hr]

/-- **Record, then replay.**  While the dispatch keeps the descriptor open, a run of the loop is the
record of its texts followed by their dispatch. -/
theorem recvLoop_eq_frames (nl z : α → Bool) {act : σ → List α → Option σ} {isOpen : σ → Bool}
    {P : σ → Prop} (hact : ∀ s text s', P s → act s text = some s' → P s')
    (hopen : ∀ s, P s → isOpen s = true) (toHold : List α) (chunks : List (List α)) {s : σ}
    (hs : P s) :
    recvLoop nl z act isOpen toHold chunks s
      = (frames nl z toHold chunks).bind fun r => (run act s r.2).map fun s => (r.1, s) := by
  induction chunks generalizing toHold s with
  | nil => rfl
  | cons chunk chunks ih =>
    exact recvLoop_cons_eq (hopen s hs) fun held _ _ _ hrun =>
      ih held (run_invariant hact hs hrun)

/-! ### Relabelling -/

theorem toAnalyze_map (f : β → α) (toHold token : List β) :
    toAnalyze (toHold.map f) (token.map f) = (toAnalyze toHold token).map f := by
  simp only [toAnalyze, List.isEmpty_map]
  split
  · rfl
  · rw [List.map_take, List.map_append]

theorem holdToken_map (f : β → α) (toHold token : List β) :
    holdToken (toHold.map f) (token.map f) = (holdToken toHold token).map (List.map f) := by
  simp only [holdToken, ← List.map_take, ← List.map_append, List.length_map]
  split <;> rfl

theorem tokenLoop_record_map (f : β → α) (e : Bool) (toHold : List β) (toks out : List (List β)) :
    tokenLoop record e (toHold.map f) (toks.map (List.map f)) (out.map (List.map f))
      = (tokenLoop record e toHold toks out).map fun r => (r.1.map f, r.2.map (List.map f)) := by
  induction toks generalizing toHold out with
  | nil => rfl
  | cons token rest ih =>
    cases rest with
    | nil =>
      cases e with
      | true => simp [tokenLoop, record, toAnalyze_map]
      | false =>
        simp only [tokenLoop, List.map_cons, List.map_nil, Bool.false_eq_true, if_false,
          holdToken_map, Option.map_map]
        rfl
    | cons next rest =>
      have hnext := ih [] (out ++ [toAnalyze toHold token])
      simp only [List.map_nil, List.map_cons, List.map_append] at hnext
      simp only [tokenLoop, List.map_cons, record, Option.bind_some, toAnalyze_map]
      exact hnext

theorem messageEnd_map {nl : α → Bool} {nl' : β → Bool} {f : β → α} (hnl : ∀ b, nl (f b) = nl' b)
    (chunk : List β) : messageEnd nl (chunk.map f) = messageEnd nl' chunk := by
  rw [messageEnd, messageEnd, List.getLast?_map]
  cases chunk.getLast? with
  | none => rfl
  | some b => exact hnl b

/-- **Framing commutes with a relabelling** that respects newlines and terminators. -/
theorem frames_map {nl z : α → Bool} {nl' z' : β → Bool} {f : β → α} (hnl : ∀ b, nl (f b) = nl' b)
    (hz : ∀ b, z (f b) = z' b) (toHold : List β) (chunks : List (List β)) :
    frames nl z (toHold.map f) (chunks.map (List.map f))
      = (frames nl' z' toHold chunks).map fun r => (r.1.map f, r.2.map (List.map f)) := by
  induction chunks generalizing toHold with
  | nil => rfl
  | cons chunk chunks ih =>
    have hstep := tokenLoop_record_map f (messageEnd nl' chunk) toHold
      (tokens nl' (cstrBy z' chunk)) []
    rw [List.map_nil] at hstep
    rw [List.map_cons, frames_cons, frames_cons, messageEnd_map hnl, cstrBy_map hz, tokens_map hnl, hstep]
    cases tokenLoop record (messageEnd nl' chunk) toHold (tokens nl' (cstrBy z' chunk)) [] with
    | none => rfl
    | some r =>
      simp only [Option.map_some, Option.bind_some]
      rw [ih r.1]
      cases frames nl' z' r.1 chunks with
      | none => rfl
      | some r' => simp

end TcpLoop

end MessageBoard
