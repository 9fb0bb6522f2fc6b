import MessageBoard.TcpLoop

/-!
# Soundness of the TCP line framing

`server_treat_communications` cuts the bytes of a peer into lines although `recv` delivers them in
arbitrary pieces.  A dispatched text is sound when it is one line of the stream: the bytes are
tagged with their positions, and the dispatched texts must be a subsequence of the tagged lines, so
a text glued from two lines or dispatched twice is told apart from a line that happens to read the
same.

`Track` follows the pieces by their shape alone: whether the stream so far ends inside a line, how
many bytes are held, and whether they are junk, that is, not the bytes of the open line.

* `Rel` — the invariant tying `to_hold` to the open line of the stream;
* `rel_next` — every `recv` result restores it;
* `step_sound`, `step_exact` — a result is dispatched as lines of the stream if, and only if, the
  track accepts it;
* `framing_sound_iff` — **exactly when the framing is sound**, over every division of every stream.
-/

namespace MessageBoard

open CText LineStream TcpLoop

namespace TcpFraming

variable {α : Type} {nl z : α → Bool}

/-! ### The shape of the pieces -/

/-- What the pieces received so far say about `to_hold`. -/
structure Track where
  /-- The stream ends inside a line. -/
  midLine : Bool
  /-- The number of bytes held. -/
  held : ℕ
  /-- Bytes are held that are not the open line. -/
  junk : Bool
  deriving DecidableEq, Repr

def Track.start : Track := ⟨false, 0, false⟩

/-- The visible part of the piece begins with a newline. -/
def leads (nl z : α → Bool) (chunk : List α) : Bool := (cstrBy z chunk).head?.any nl

/-- A NUL hides the end of the last visible line. -/
def hidesEnd (nl z : α → Bool) (chunk : List α) : Bool :=
  chunk.any z && !(cstrBy z chunk).getLast?.any nl

/-- What is held is what the first token of the piece continues. -/
def Track.fits (t : Track) (lead : Bool) : Bool :=
  if lead then t.held == 0 else !t.junk && (t.held != 0 || !t.midLine)

/-- The pieces that are dispatched as whole lines, or held without overrunning `to_hold`. -/
def Track.accepts (nl z : α → Bool) (t : Track) (chunk : List α) : Bool :=
  match tokens nl (cstrBy z chunk) with
  | [] => true
  | [token] =>
      if messageEnd nl chunk then t.fits (leads nl z chunk) && !hidesEnd nl z chunk
      else t.held + token.length < responseSize
  | _ :: _ :: _ =>
      t.fits (leads nl z chunk) && !(messageEnd nl chunk && hidesEnd nl z chunk)

/-- The track after a piece. -/
def Track.next (nl z : α → Bool) (t : Track) (chunk : List α) : Track :=
  match tokens nl (cstrBy z chunk) with
  | [] => ⟨!messageEnd nl chunk, t.held, t.held != 0⟩
  | [token] =>
      if messageEnd nl chunk then ⟨false, t.held, t.held != 0⟩
      else ⟨true, t.held + token.length, chunk.any z || !t.fits (leads nl z chunk)⟩
  | _ :: next :: rest =>
      if messageEnd nl chunk then ⟨false, 0, false⟩
      else ⟨true, ((next :: rest).getLast (by simp)).length, chunk.any z⟩

/-- Every piece is accepted by the track of the pieces before it. -/
def InStep (nl z : α → Bool) : Track → List (List α) → Bool
  | _, [] => true
  | t, chunk :: chunks => t.accepts nl z chunk && InStep nl z (t.next nl z chunk) chunks

/-! ### The invariant -/

/-- The track describes the held text `h` after the stream `s`. -/
structure Rel (nl : α → Bool) (t : Track) (h s : List α) : Prop where
  midLine : t.midLine = true ↔ openFrom nl [] s ≠ []
  held : t.held = h.length
  junk : t.junk = true ↔ h ≠ [] ∧ h ≠ openFrom nl [] s
  mem : ∀ b ∈ h, b ∈ s

theorem rel_start : Rel nl Track.start [] [] where
  midLine := by simp [Track.start, openFrom]
  held := rfl
  junk := by simp [Track.start]
  mem := by simp

/-- The text a piece continues: nothing if it begins with a newline, else the open line. -/
theorem Rel.fits_iff {t : Track} {h s : List α} (hrel : Rel nl t h s) (lead : Bool) :
    t.fits lead = true ↔ h = if lead then [] else openFrom nl [] s := by
  cases lead with
  | true => simp [Track.fits, hrel.held]
  | false =>
    have hmid := hrel.midLine
    have hjunk := hrel.junk
    simp only [Track.fits, Bool.false_eq_true, if_false, Bool.and_eq_true, Bool.not_eq_true',
      Bool.or_eq_true, bne_iff_ne, hrel.held, ne_eq, List.length_eq_zero_iff]
    by_cases hh : h = []
    · subst hh
      have hj : t.junk = false := by
        cases hjunk' : t.junk with
        | false => rfl
        | true => exact absurd rfl (hjunk.mp hjunk').1
      cases hm : t.midLine with
      | false =>
        have hopen : openFrom nl [] s = [] := by
          by_contra hne
          simp [hmid.mpr hne] at hm
        simp [hj, hopen]
      | true => simp [hj, Ne.symm (hmid.mp hm)]
    · cases hj : t.junk with
      | false =>
        have heq : h = openFrom nl [] s := by
          by_contra hne
          simp [hjunk.mpr ⟨hh, hne⟩] at hj
        simp [hh, ← heq]
      | true => simp [(hjunk.mp hj).2]

/-! ### One piece -/

theorem messageEnd_iff {chunk : List α} (hc : chunk ≠ []) (t : List α) :
    messageEnd nl chunk = true ↔ openFrom nl t chunk = [] := by
  rw [openFrom_eq_nil_iff hc, messageEnd, List.getLast?_eq_getLast_of_ne_nil hc]
  rfl

theorem last_mem_openFrom {chunk : List α} (hc : chunk ≠ []) (he : messageEnd nl chunk = false)
    (t : List α) : chunk.getLast hc ∈ openFrom nl t chunk := by
  obtain ⟨i, b, rfl⟩ := (List.eq_nil_or_concat' chunk).resolve_left hc
  have hb : nl b = false := by simpa [messageEnd] using he
  rw [openFrom_concat, if_neg (by simp [hb]), List.getLast_concat]
  simp

/-- The last byte of a piece with a NUL is not visible. -/
theorem last_not_visible {chunk : List α} (hc : chunk ≠ []) (hnd : chunk.Nodup)
    (hz : chunk.any z = true) : chunk.getLast hc ∉ cstrBy z chunk := by
  obtain ⟨b, hb, hzb⟩ := List.any_eq_true.mp hz
  rcases cstrBy_split z chunk with h | ⟨c, r, _, h⟩
  · rw [cstrBy, List.takeWhile_eq_self_iff] at h
    have := h b hb
    simp [hzb] at this
  · have hlast : chunk.getLast hc = (c :: r).getLast (by simp) := by
      rw [List.getLast_congr hc (by simp) h, List.getLast_append_of_ne_nil _ (by simp)]
    rw [h] at hnd
    have hdisj := List.disjoint_of_nodup_append hnd
    rw [hlast]
    exact fun hmem => hdisj hmem (List.getLast_mem _)

theorem visible_eq_self {chunk : List α} (hz : chunk.any z = false) : cstrBy z chunk = chunk :=
  cstrBy_eq_self fun b hb => by simpa using List.any_eq_false.mp hz b hb

/-- What `to_hold` holds after a piece. -/
def heldAfter (e : Bool) (h : List α) : List (List α) → List α
  | [] => h
  | [token] => if e then h else h ++ token
  | _ :: next :: rest => if e then [] else (next :: rest).getLast (by simp)

theorem holdToken_eq {h token held : List α} (ht : token.length ≤ stringSize)
    (heq : holdToken h token = some held) : held = h ++ token := by
  rw [holdToken, List.take_of_length_le ht] at heq
  split at heq
  · exact (Option.some.inj heq).symm
  · simp at heq

theorem held_eq {e : Bool} {h : List α} {toks : List (List α)} {r : List α × List (List α)}
    (hlen : ∀ x ∈ toks, x.length ≤ stringSize) (hr : tokenLoop record e h toks [] = some r) :
    r.1 = heldAfter e h toks := by
  rw [tokenLoop_record] at hr
  match toks with
  | [] =>
    rw [← Option.some.inj hr]
    rfl
  | [token] =>
    cases e with
    | true =>
      rw [← Option.some.inj hr]
      rfl
    | false =>
      obtain ⟨held, hheld, heq⟩ := Option.map_eq_some_iff.mp hr
      rw [← heq]
      exact holdToken_eq (hlen token (by simp)) hheld
  | token :: next :: rest =>
    have hlast : (token :: next :: rest).getLast? = some ((next :: rest).getLast (by simp)) := by
      rw [List.getLast?_cons_cons, List.getLast?_eq_getLast_of_ne_nil]
    rw [hlast] at hr
    cases e with
    | true =>
      rw [← Option.some.inj hr]
      rfl
    | false =>
      obtain ⟨held, hheld, heq⟩ := Option.map_eq_some_iff.mp hr
      have hmem : (next :: rest).getLast (by simp) ∈ token :: next :: rest :=
        List.mem_cons_of_mem _ (List.getLast_mem _)
      rw [← heq]
      exact holdToken_eq (hlen _ hmem) hheld

theorem mem_token_visible {chunk x : List α} (hx : x ∈ tokens nl (cstrBy z chunk)) :
    ∀ b ∈ x, b ∈ cstrBy z chunk := by
  intro b hb
  have hmem : b ∈ (tokens nl (cstrBy z chunk)).flatten := List.mem_flatten.mpr ⟨x, hx, hb⟩
  rw [flatten_tokens] at hmem
  exact List.mem_of_mem_filter hmem

theorem length_token_le {chunk x : List α} (hx : x ∈ tokens nl (cstrBy z chunk)) :
    x.length ≤ chunk.length := by
  have hsub := (List.sublist_flatten_of_mem hx).length_le
  rw [flatten_tokens] at hsub
  have hvis : (cstrBy z chunk).length ≤ chunk.length := (List.takeWhile_prefix _).length_le
  exact hsub.trans ((List.length_filter_le _ _).trans hvis)

/-- A newline at the front closes the open line before anything else. -/
theorem openFrom_lead {chunk : List α} (h : chunk.head?.any nl = true) (t : List α) :
    openFrom nl t chunk = openFrom nl [] chunk := by
  cases chunk with
  | nil => simp at h
  | cons b bs =>
    have hb : nl b = true := by simpa using h
    rw [openFrom, openFrom, if_pos hb, if_pos hb]

theorem startsInside_of_not_lead {chunk : List α} (h : chunk.head?.any nl = false) :
    StartsInside nl chunk := by
  intro b hb
  rw [Option.mem_def] at hb
  simpa [hb] using h

/-- A visible piece that does not end in a newline leaves its last token open. -/
theorem tokens_eq_open {chunk : List α} (hc : chunk ≠ []) (he : messageEnd nl chunk = false) :
    tokens nl chunk = closedFrom nl [] chunk ++ [openFrom nl [] chunk] := by
  have hopen : openFrom nl [] chunk ≠ [] := by
    intro h
    rw [(messageEnd_iff hc []).mpr h] at he
    exact Bool.noConfusion he
  rw [tokens_eq, pending_of_ne_nil hopen]

/-- A last byte that is not visible is not among bytes that are. -/
theorem ne_open_of_hidden {s chunk h : List α} (hc : chunk ≠ []) (hnd : (s ++ chunk).Nodup)
    (he : messageEnd nl chunk = false) (hz : chunk.any z = true)
    (hmem : ∀ b ∈ h, b ∈ s ∨ b ∈ cstrBy z chunk) : h ≠ openFrom nl [] (s ++ chunk) := by
  intro heq
  have hlast := last_mem_openFrom hc he (openFrom nl [] s)
  rw [← openFrom_append, ← heq] at hlast
  rcases hmem _ hlast with hs | hv
  · exact List.disjoint_of_nodup_append hnd hs (List.getLast_mem hc)
  · exact last_not_visible hc hnd.of_append_right hz hv

/-- A single token of a visible piece that does not end in a newline is all that it leaves. -/
theorem open_of_singleton {chunk token : List α} (hc : chunk ≠ [])
    (he : messageEnd nl chunk = false) (htoks : tokens nl chunk = [token]) :
    closedFrom nl [] chunk = [] ∧ openFrom nl [] chunk = token := by
  rw [tokens_eq_open hc he] at htoks
  cases hclosed : closedFrom nl [] chunk with
  | nil => simpa [hclosed] using htoks
  | cons x xs => simp [hclosed] at htoks

/-- Of several tokens the last one is left, whatever was open before. -/
theorem open_of_cons_cons {chunk token next : List α} {rest : List (List α)} (hc : chunk ≠ [])
    (he : messageEnd nl chunk = false) (htoks : tokens nl chunk = token :: next :: rest)
    (t : List α) : openFrom nl t chunk = (next :: rest).getLast (by simp) := by
  rw [tokens_eq_open hc he] at htoks
  have hclosed : closedFrom nl [] chunk ≠ [] := by
    intro hclosed
    simp [hclosed] at htoks
  have hlast : openFrom nl [] chunk = (next :: rest).getLast (by simp) := by
    have hcat := congrArg List.getLast? htoks
    rw [List.getLast?_concat, List.getLast?_cons_cons,
      List.getLast?_eq_getLast_of_ne_nil (by simp)] at hcat
    exact Option.some.inj hcat
  rw [← hlast]
  cases hl : chunk.head?.any nl with
  | true => exact openFrom_lead hl t
  | false => rw [openFrom_glue (startsInside_of_not_lead hl), if_neg hclosed]

section Next

variable {s chunk h : List α} {t : Track}

theorem mem_stream {b : α} (hb : b ∈ s ∨ b ∈ cstrBy z chunk) : b ∈ s ++ chunk := by
  rcases hb with hb | hb
  · exact List.mem_append_left chunk hb
  · exact List.mem_append_right s ((List.takeWhile_prefix _).subset hb)

theorem messageEnd_append_iff (hc : chunk ≠ []) (s : List α) :
    messageEnd nl chunk = true ↔ openFrom nl [] (s ++ chunk) = [] := by
  rw [openFrom_append]
  exact messageEnd_iff hc _

theorem open_append_ne_nil (hc : chunk ≠ []) (he : messageEnd nl chunk = false) (s : List α) :
    openFrom nl [] (s ++ chunk) ≠ [] := by
  intro hopen
  rw [(messageEnd_append_iff hc s).mpr hopen] at he
  exact Bool.noConfusion he

/-- Without a token the piece is newlines, up to a NUL if it does not end in one. -/
theorem hidden_of_no_token (hc : chunk ≠ []) (he : messageEnd nl chunk = false)
    (htoks : tokens nl (cstrBy z chunk) = []) : chunk.any z = true := by
  by_contra hz
  rw [Bool.not_eq_true] at hz
  rw [visible_eq_self hz, tokens_eq_open hc he] at htoks
  simp at htoks

/-- A piece that ends in a newline, or has no token, leaves what was held. -/
theorem rel_next_kept (hc : chunk ≠ []) (hnd : (s ++ chunk).Nodup) (hrel : Rel nl t h s)
    (hhidden : messageEnd nl chunk = false → chunk.any z = true) :
    Rel nl ⟨!messageEnd nl chunk, t.held, t.held != 0⟩ h (s ++ chunk) where
  midLine := by simp [← messageEnd_append_iff hc s]
  held := hrel.held
  junk := by
    simp only [bne_iff_ne, hrel.held, ne_eq, List.length_eq_zero_iff]
    refine ⟨fun hne => ⟨hne, ?_⟩, And.left⟩
    cases he : messageEnd nl chunk with
    | true =>
      rw [(messageEnd_append_iff hc s).mp he]
      exact hne
    | false => exact ne_open_of_hidden hc hnd he (hhidden he) fun b hb => Or.inl (hrel.mem b hb)
  mem := by
    intro b hb
    exact List.mem_append_left chunk (hrel.mem b hb)

/-- A single token that no newline ends is held behind the rest. -/
theorem rel_next_held (hc : chunk ≠ []) (hnd : (s ++ chunk).Nodup) (hrel : Rel nl t h s)
    (he : messageEnd nl chunk = false) {token : List α}
    (htoks : tokens nl (cstrBy z chunk) = [token]) :
    Rel nl ⟨true, t.held + token.length, chunk.any z || !t.fits (leads nl z chunk)⟩ (h ++ token)
      (s ++ chunk) := by
  have htok : token ∈ tokens nl (cstrBy z chunk) := by
    rw [htoks]
    exact List.mem_singleton_self token
  have htne : token ≠ [] := mem_tokens_ne_nil htok
  have hmem : ∀ b ∈ h ++ token, b ∈ s ∨ b ∈ cstrBy z chunk := by
    intro b hb
    rcases List.mem_append.mp hb with hb | hb
    · exact Or.inl (hrel.mem b hb)
    · exact Or.inr (mem_token_visible htok b hb)
  refine ⟨by simp [open_append_ne_nil hc he s], by simp [hrel.held], ?_,
    fun b hb => mem_stream (hmem b hb)⟩
  simp only [Bool.or_eq_true, Bool.not_eq_true']
  cases hz : chunk.any z with
  | true =>
    simp only [true_or, true_iff]
    exact ⟨by simp [htne], ne_open_of_hidden hc hnd he hz hmem⟩
  | false =>
    have hvisible := visible_eq_self hz
    rw [hvisible] at htoks
    obtain ⟨hclosed, hopen⟩ := open_of_singleton hc he htoks
    rw [← Bool.not_eq_true, hrel.fits_iff, openFrom_append, leads, hvisible]
    cases hl : chunk.head?.any nl with
    | true =>
      rw [openFrom_lead hl, hopen, if_pos rfl]
      simp [htne]
    | false =>
      rw [openFrom_glue (startsInside_of_not_lead hl), if_pos hclosed, hopen]
      simp [htne]

/-- Of several tokens the last one is held, if no newline ends it. -/
theorem rel_next_last (hc : chunk ≠ []) (hnd : (s ++ chunk).Nodup)
    (he : messageEnd nl chunk = false) {token next : List α} {rest : List (List α)}
    (htoks : tokens nl (cstrBy z chunk) = token :: next :: rest) :
    Rel nl ⟨true, ((next :: rest).getLast (by simp)).length, chunk.any z⟩
      ((next :: rest).getLast (by simp)) (s ++ chunk) := by
  have hlast : (next :: rest).getLast (by simp) ∈ tokens nl (cstrBy z chunk) := by
    rw [htoks]
    exact List.mem_cons_of_mem _ (List.getLast_mem _)
  have hne : (next :: rest).getLast (by simp) ≠ [] := mem_tokens_ne_nil hlast
  have hmem : ∀ b ∈ (next :: rest).getLast (by simp), b ∈ s ∨ b ∈ cstrBy z chunk :=
    fun b hb => Or.inr (mem_token_visible hlast b hb)
  refine ⟨by simp [open_append_ne_nil hc he s], rfl, ?_, fun b hb => mem_stream (hmem b hb)⟩
  cases hz : chunk.any z with
  | true => exact ⟨fun _ => ⟨hne, ne_open_of_hidden hc hnd he hz hmem⟩, fun _ => rfl⟩
  | false =>
    rw [visible_eq_self hz] at htoks
    rw [openFrom_append, open_of_cons_cons hc he htoks]
    simp

end Next

/-- **The invariant is restored by every `recv` result**, accepted or not. -/
theorem rel_next (z : α → Bool) {s chunk : List α} (hc : chunk ≠ []) (hnd : (s ++ chunk).Nodup) {t : Track}
    {h : List α} (hrel : Rel nl t h s) :
    Rel nl (t.next nl z chunk)
      (heldAfter (messageEnd nl chunk) h (tokens nl (cstrBy z chunk))) (s ++ chunk) := by
  rw [Track.next]
  match htoks : tokens nl (cstrBy z chunk) with
  | [] => exact rel_next_kept hc hnd hrel fun he => hidden_of_no_token hc he htoks
  | [token] =>
    cases he : messageEnd nl chunk with
    | true =>
      have hkept := @rel_next_kept α nl z s chunk h t hc hnd hrel
        fun hno => Bool.noConfusion (he.symm.trans hno)
      rwa [he] at hkept
    | false => exact rel_next_held hc hnd hrel he htoks
  | token :: next :: rest =>
    cases he : messageEnd nl chunk with
    | true =>
      have hopen := (messageEnd_append_iff hc s).mp he
      exact ⟨by simp [hopen], by simp [heldAfter], by simp [heldAfter], by simp [heldAfter]⟩
    | false => exact rel_next_last hc hnd he htoks

/-! ### What an accepted piece dispatches -/

theorem closedFrom_visible (z : α → Bool) (t chunk : List α) :
    (closedFrom nl t (cstrBy z chunk)).Sublist (closedFrom nl t chunk) := by
  rcases cstrBy_split z chunk with h | ⟨b, r, _, h⟩
  · rw [h]
  · conv_rhs => rw [h, closedFrom_append]
    exact List.sublist_append_left _ _

/-- The lines a piece closes are lines of the whole stream. -/
theorem mem_tokens_of_closed {s chunk r x : List α}
    (hx : x ∈ closedFrom nl (openFrom nl [] s) chunk) : x ∈ tokens nl (s ++ chunk ++ r) := by
  rw [tokens_append, closedFrom_append]
  simp [hx]

/-- When the held text fits, the visible tokens a newline ends are glued into lines of the stream. -/
theorem glueHead_sublist {s chunk h : List α}
    (hfit : h = if leads nl z chunk then [] else openFrom nl [] s) :
    (glueHead h (closedFrom nl [] (cstrBy z chunk))).Sublist
      (closedFrom nl (openFrom nl [] s) chunk) := by
  refine List.Sublist.trans ?_ (closedFrom_visible z _ chunk)
  cases hl : leads nl z chunk with
  | true =>
    rw [hl, if_pos rfl] at hfit
    rw [hfit, glueHead_nil_left]
    rw [leads] at hl
    cases hv : cstrBy z chunk with
    | nil => exact List.nil_sublist _
    | cons b bs =>
      have hb : nl b = true := by simpa [hv] using hl
      rw [closedFrom_cons_delim hb, closedFrom_cons_delim hb]
      exact List.sublist_append_right _ _
  | false =>
    rw [hl] at hfit
    rw [hfit, closedFrom_glue (startsInside_of_not_lead hl) (openFrom nl [] s)]
    exact List.Sublist.refl _

theorem prefix_glueHead (h : List α) {xs ys : List (List α)} (hp : xs <+: ys) :
    glueHead h xs <+: glueHead h ys := by
  obtain ⟨r, rfl⟩ := hp
  cases xs with
  | nil => exact List.nil_prefix
  | cons x xs => exact ⟨r, rfl⟩

/-- Without cuts by `snprintf`, gluing is all that happens to the first token. -/
theorem analyzeHead_eq {h : List α} {toks : List (List α)}
    (hlen : ∀ x ∈ glueHead h toks, x.length ≤ stringSize * 3 - 1) :
    analyzeHead h toks = glueHead h toks := by
  cases toks with
  | nil => rfl
  | cons x xs =>
    have hx : (h ++ x).length ≤ stringSize * 3 - 1 := hlen _ (by simp [glueHead])
    rw [analyzeHead, glueHead, toAnalyze, List.take_of_length_le hx]
    split
    · rename_i hh
      rw [List.isEmpty_iff] at hh
      rw [hh, List.nil_append]
    · rfl

/-- A piece that ends in a newline, with the end of its last visible line not hidden, has closed all
its tokens. -/
theorem tokens_eq_closed {chunk : List α} (hc : chunk ≠ []) (he : messageEnd nl chunk = true)
    (hh : hidesEnd nl z chunk = false) :
    tokens nl (cstrBy z chunk) = closedFrom nl [] (cstrBy z chunk) := by
  have hopen : openFrom nl [] (cstrBy z chunk) = [] := by
    cases hzc : chunk.any z with
    | false => rw [visible_eq_self hzc]; exact (messageEnd_iff hc []).mp he
    | true =>
      have hlast : (cstrBy z chunk).getLast?.any nl = true := by simpa [hidesEnd, hzc] using hh
      have hv : cstrBy z chunk ≠ [] := by
        intro hv
        simp [hv] at hlast
      rw [openFrom_eq_nil_iff hv]
      rwa [List.getLast?_eq_getLast_of_ne_nil hv] at hlast
  rw [tokens_eq, hopen, pending_nil, List.append_nil]

/-- All tokens but the last are closed by a newline. -/
theorem dropLast_tokens_prefix (v : List α) : (tokens nl v).dropLast <+: closedFrom nl [] v := by
  rw [tokens_eq, pending]
  split
  · rw [List.append_nil]
    exact List.dropLast_prefix _
  · rw [List.dropLast_concat]

/-- **An accepted piece is dispatched as lines of the stream.** -/
theorem step_sound {s chunk r h : List α} {t : Track} (hc : chunk ≠ [])
    (hlen : chunk.length ≤ stringSize - 1)
    (hlines : ∀ x ∈ tokens nl (s ++ chunk ++ r), x.length ≤ stringSize * 3 - 1)
    (hrel : Rel nl t h s) (hok : t.accepts nl z chunk = true) :
    ∃ held out, tokenLoop record (messageEnd nl chunk) h (tokens nl (cstrBy z chunk)) []
        = some (held, out) ∧ out.Sublist (closedFrom nl (openFrom nl [] s) chunk) := by
  have hglue (hfit : t.fits (leads nl z chunk) = true) {toks : List (List α)}
      (hp : toks <+: closedFrom nl [] (cstrBy z chunk)) :
      (analyzeHead h toks).Sublist (closedFrom nl (openFrom nl [] s) chunk) := by
    have hsub := (prefix_glueHead h hp).sublist.trans (glueHead_sublist ((hrel.fits_iff _).mp hfit))
    rwa [analyzeHead_eq fun x hx => hlines x (mem_tokens_of_closed (hsub.subset hx))]
  rw [Track.accepts] at hok
  rw [tokenLoop_record]
  match htoks : tokens nl (cstrBy z chunk) with
  | [] => exact ⟨h, [], rfl, List.nil_sublist _⟩
  | [token] =>
    rw [htoks] at hok
    cases he : messageEnd nl chunk with
    | true =>
      simp only [he, if_true, Bool.and_eq_true, Bool.not_eq_true'] at hok
      refine ⟨h, analyzeHead h [token], rfl, hglue hok.1 ?_⟩
      rw [← htoks, tokens_eq_closed hc he hok.2]
    | false =>
      have hroom : h.length + token.length < responseSize := by
        simpa [he, hrel.held] using hok
      have htlen : token.length ≤ stringSize := by
        have htok : token ∈ tokens nl (cstrBy z chunk) := by rw [htoks]; simp
        have := length_token_le htok
        omega
      refine ⟨h ++ token, [], ?_, List.nil_sublist _⟩
      show (holdToken h token).map _ = _
      rw [holdToken, List.take_of_length_le htlen, if_pos (by rwa [List.length_append])]
      rfl
  | token :: next :: rest =>
    simp only [htoks, Bool.and_eq_true, Bool.not_eq_true', Bool.and_eq_false_iff] at hok
    have hlast : (token :: next :: rest).getLast? = some ((next :: rest).getLast (by simp)) := by
      rw [List.getLast?_cons_cons, List.getLast?_eq_getLast_of_ne_nil]
    rw [hlast]
    cases he : messageEnd nl chunk with
    | true =>
      refine ⟨[], analyzeHead h (token :: next :: rest), rfl, hglue hok.1 ?_⟩
      rw [← htoks, tokens_eq_closed hc he (hok.2.resolve_left (by simp [he]))]
    | false =>
      have hmem : (next :: rest).getLast (by simp) ∈ tokens nl (cstrBy z chunk) := by
        rw [htoks]
        exact List.mem_cons_of_mem _ (List.getLast_mem _)
      have hshort := length_token_le hmem
      refine ⟨(next :: rest).getLast (by simp), analyzeHead h (token :: next :: rest).dropLast, ?_,
        hglue hok.1 ?_⟩
      · show (holdToken [] ((next :: rest).getLast (by simp))).map _ = _
        have hroom : ([] ++ (next :: rest).getLast (by simp)).length < responseSize := by
          rw [stringSize] at hlen
          rw [List.nil_append, responseSize]
          omega
        rw [holdToken, List.take_of_length_le (by omega), if_pos hroom]
        rfl
      · rw [← htoks]
        exact dropLast_tokens_prefix _

/-! ### What a dispatched line says about the track -/

/-- The first token starts at the first byte that is not a newline. -/
theorem first_token {v token : List α} {rest : List (List α)} (h : tokens nl v = token :: rest) :
    ∃ u b w, v = u ++ b :: w ∧ (∀ c ∈ u, nl c = true) ∧ nl b = false ∧ b ∈ token
      ∧ ∃ w', token = b :: w' := by
  induction v with
  | nil => simp [tokens, tokensFrom] at h
  | cons c cs ih =>
    cases hc : nl c with
    | true =>
      rw [tokens_cons_delim hc] at h
      obtain ⟨u, b, w, rfl, hu, hb⟩ := ih h
      refine ⟨c :: u, b, w, rfl, ?_, hb⟩
      intro d hd
      rcases List.mem_cons.mp hd with rfl | hd
      · exact hc
      · exact hu d hd
    | false =>
      obtain ⟨rest', hrest⟩ := tokensFrom_of_ne_nil (p := nl) cs (t := [c]) (by simp)
      have hcons : tokens nl (c :: cs) = tokensFrom nl [c] cs := by
        rw [tokens, tokensFrom, if_neg (by simp [hc]), List.nil_append]
      rw [hcons, hrest, List.cons.injEq] at h
      exact ⟨[], c, cs, rfl, by simp, hc, by simp [← h.1], _, h.1.symm⟩

theorem openFrom_newlines {u : List α} (hu : ∀ c ∈ u, nl c = true) (t : List α) :
    openFrom nl t u = if u.isEmpty then t else [] := by
  rcases List.eq_nil_or_concat' u with rfl | ⟨i, b, rfl⟩
  · rfl
  · rw [openFrom_concat, if_pos (hu b (by simp)), if_neg (by simp)]

/-- A text shorter than the cut of `snprintf` is the held text and the token. -/
theorem toAnalyze_of_short {h token : List α}
    (hlen : (toAnalyze h token).length < stringSize * 3 - 1) : toAnalyze h token = h ++ token := by
  rw [toAnalyze] at hlen ⊢
  split
  · rename_i hh
    rw [List.isEmpty_iff.mp hh, List.nil_append]
  · rename_i hh
    rw [if_neg hh, List.length_take] at hlen
    exact List.take_of_length_le (by omega)

/-- **A dispatched line fixes the held text.**  If the held text and the first token of the piece
form a line of the stream, the held text is the one that fits. -/
theorem fits_of_line {s chunk r h token : List α} {rest : List (List α)}
    (hnd : (s ++ chunk ++ r).Nodup)
    (htoks : tokens nl (cstrBy z chunk) = token :: rest)
    (hline : h ++ token ∈ tokens nl (s ++ chunk ++ r)) :
    h = if leads nl z chunk then [] else openFrom nl [] s := by
  obtain ⟨u, b, w, hv, hu, hb, hbt, w', htok⟩ := first_token htoks
  obtain ⟨tail, htail⟩ : cstrBy z chunk <+: chunk := List.takeWhile_prefix _
  have hstream : s ++ chunk ++ r = (s ++ u) ++ b :: (w ++ tail ++ r) := by
    rw [← htail, hv]
    simp
  rw [hstream] at hnd hline
  have haround := token_around hnd hline (List.mem_append_right h hbt)
  have hbs : b ∉ s ++ u := fun hbs =>
    List.disjoint_of_nodup_append hnd hbs (by simp)
  have hbo : b ∉ openFrom nl [] (s ++ u) := by
    intro hbo
    rcases mem_openFrom hbo with hbo | hbo
    · simp at hbo
    · exact hbs hbo
  have hbr : b ∉ (w ++ tail ++ r).takeWhile fun c => !nl c := fun hbr =>
    (List.nodup_cons.mp hnd.of_append_right).1 (List.takeWhile_subset _ hbr)
  rw [htok] at haround
  have hheld : h = openFrom nl [] (s ++ u) :=
    ((List.append_cons_inj_of_notMem hbo hbr).mp haround.symm).1.symm
  rw [hheld, openFrom_append, openFrom_newlines hu]
  cases u with
  | nil => simp [leads, hv, hb]
  | cons c cs => simp [leads, hv, hu c (by simp)]

theorem hidesEnd_iff {chunk : List α} : hidesEnd nl z chunk = true
    ↔ chunk.any z = true ∧ messageEnd nl (cstrBy z chunk) = false := by
  rw [hidesEnd, Bool.and_eq_true, Bool.not_eq_true', messageEnd]

/-- **A line cut off by a NUL is not dispatched as a line**: the NUL belongs to it. -/
theorem not_line_of_hidden (hzn : ∀ b, z b = true → nl b = false) {s chunk r x : List α}
    (hnd : (s ++ chunk ++ r).Nodup) (hh : hidesEnd nl z chunk = true)
    (hv : cstrBy z chunk ≠ []) (hlast : (cstrBy z chunk).getLast hv ∈ x)
    (hmem : ∀ b ∈ x, b ∈ s ∨ b ∈ cstrBy z chunk) : x ∉ tokens nl (s ++ chunk ++ r) := by
  intro hx
  obtain ⟨i, c, hic⟩ := (List.eq_nil_or_concat' (cstrBy z chunk)).resolve_left hv
  have hcx : c ∈ x := by simpa [hic] using hlast
  obtain ⟨b, tail, hzb, hsplit⟩ : ∃ b tail, z b = true ∧ chunk = cstrBy z chunk ++ b :: tail := by
    apply (cstrBy_split z chunk).resolve_left
    intro hself
    obtain ⟨d, hd, hzd⟩ := List.any_eq_true.mp (hidesEnd_iff.mp hh).1
    rw [cstrBy, List.takeWhile_eq_self_iff] at hself
    have := hself d hd
    simp [hzd] at this
  have hstream : s ++ chunk ++ r = (s ++ i) ++ c :: b :: (tail ++ r) := by
    rw [hsplit, hic]
    simp
  have hbx : b ∈ x := by
    rw [hstream] at hnd hx
    rw [token_around hnd hx hcx]
    simp [hzn b hzb]
  rw [List.append_assoc, hsplit] at hnd
  rcases hmem b hbx with hbs | hbv
  · exact List.disjoint_of_nodup_append hnd hbs (by simp)
  · exact List.disjoint_of_nodup_append hnd.of_append_right.of_append_left hbv (by simp)

/-- The last token of a piece whose line end is hidden runs up to the NUL. -/
theorem last_token_of_hidden {chunk : List α} (hh : hidesEnd nl z chunk = true)
    (hv : cstrBy z chunk ≠ []) :
    ∃ last, (tokens nl (cstrBy z chunk)).getLast? = some last
      ∧ (cstrBy z chunk).getLast hv ∈ last := by
  have he := (hidesEnd_iff.mp hh).2
  refine ⟨openFrom nl [] (cstrBy z chunk), ?_, last_mem_openFrom hv he []⟩
  rw [tokens_eq_open hv he, List.getLast?_concat]

/-- If the last token, behind bytes of earlier pieces, makes a line of the stream, no NUL hides the
end of the piece. -/
theorem shown_of_line (hzn : ∀ b, z b = true → nl b = false) {s chunk r p last : List α}
    (hnd : (s ++ chunk ++ r).Nodup) (hlast : (tokens nl (cstrBy z chunk)).getLast? = some last)
    (hp : ∀ b ∈ p, b ∈ s) (hline : p ++ last ∈ tokens nl (s ++ chunk ++ r)) :
    hidesEnd nl z chunk = false := by
  by_contra hh
  rw [Bool.not_eq_false] at hh
  have hv : cstrBy z chunk ≠ [] := by
    intro hv
    simp [hv, tokens, tokensFrom] at hlast
  obtain ⟨last', hlast', hin⟩ := last_token_of_hidden hh hv
  rw [hlast, Option.some.injEq] at hlast'
  apply not_line_of_hidden hzn hnd hh hv _ _ hline
  · exact List.mem_append_right p (hlast' ▸ hin)
  · intro b hb
    rcases List.mem_append.mp hb with hb | hb
    · exact Or.inl (hp b hb)
    · exact Or.inr (mem_token_visible (List.mem_of_getLast? hlast) b hb)

/-- **Only an accepted piece is dispatched as lines of the stream.** -/
theorem step_exact (hzn : ∀ b, z b = true → nl b = false) {s chunk r h held : List α}
    {out : List (List α)} {t : Track} (hlen : chunk.length ≤ stringSize - 1)
    (hnd : (s ++ chunk ++ r).Nodup)
    (hlines : ∀ x ∈ tokens nl (s ++ chunk ++ r), x.length < stringSize * 3 - 1)
    (hrel : Rel nl t h s)
    (hrun : tokenLoop record (messageEnd nl chunk) h (tokens nl (cstrBy z chunk)) []
      = some (held, out))
    (hout : ∀ x ∈ out, x ∈ tokens nl (s ++ chunk ++ r)) : t.accepts nl z chunk = true := by
  have hhead {token : List α} {rest : List (List α)}
      (htoks : tokens nl (cstrBy z chunk) = token :: rest)
      (hx : toAnalyze h token ∈ tokens nl (s ++ chunk ++ r)) :
      t.fits (leads nl z chunk) = true ∧ toAnalyze h token = h ++ token := by
    have heq := toAnalyze_of_short (hlines _ hx)
    rw [heq] at hx
    exact ⟨(hrel.fits_iff _).mpr (fits_of_line hnd htoks hx), heq⟩
  rw [tokenLoop_record] at hrun
  rw [Track.accepts]
  match htoks : tokens nl (cstrBy z chunk) with
  | [] => rfl
  | [token] =>
    rw [htoks] at hrun
    have htok : token ∈ tokens nl (cstrBy z chunk) := by rw [htoks]; simp
    cases he : messageEnd nl chunk with
    | true =>
      simp only [he, List.getLast?_singleton, if_true, Option.some.injEq, Prod.mk.injEq] at hrun
      have hx := hout (toAnalyze h token) (by simp [← hrun.2, analyzeHead])
      obtain ⟨hfit, heq⟩ := hhead htoks hx
      rw [heq] at hx
      have hshown : hidesEnd nl z chunk = false :=
        shown_of_line hzn hnd (by rw [htoks, List.getLast?_singleton]) hrel.mem hx
      simp [hfit, hshown]
    | false =>
      have hshort : token.length ≤ stringSize := by
        have := length_token_le htok
        omega
      simp only [he, List.getLast?_singleton, Bool.false_eq_true, if_false, heldAtLast, holdToken,
        List.take_of_length_le hshort] at hrun
      have hroom : (h ++ token).length < responseSize := by
        by_contra hfull
        rw [if_neg hfull] at hrun
        simp at hrun
      simpa [hrel.held] using hroom
  | token :: next :: rest =>
    rw [htoks] at hrun
    obtain ⟨last, hlast⟩ : ∃ last, (token :: next :: rest).getLast? = some last :=
      ⟨_, List.getLast?_eq_getLast_of_ne_nil (by simp)⟩
    have hlastTok : last ∈ next :: rest := by
      rw [List.getLast?_cons_cons] at hlast
      exact List.mem_of_getLast? hlast
    have hfirst : toAnalyze h token ∈ out := by
      cases he : messageEnd nl chunk with
      | true =>
        simp only [he, hlast, if_true, Option.some.injEq, Prod.mk.injEq] at hrun
        simp [← hrun.2, analyzeHead]
      | false =>
        simp only [he, hlast, Bool.false_eq_true, if_false, Option.map_eq_some_iff,
          Prod.mk.injEq] at hrun
        obtain ⟨_, _, _, rfl⟩ := hrun
        simp [analyzeHead]
    have hfit := (hhead htoks (hout _ hfirst)).1
    have hshown : (messageEnd nl chunk && hidesEnd nl z chunk) = false := by
      by_contra hh
      rw [Bool.not_eq_false, Bool.and_eq_true] at hh
      have hx : last ∈ out := by
        simp only [hh.1, hlast, if_true, Option.some.injEq, Prod.mk.injEq] at hrun
        rw [← hrun.2, List.nil_append, analyzeHead]
        exact List.mem_cons_of_mem _ hlastTok
      have hshown : hidesEnd nl z chunk = false :=
        @shown_of_line α nl z hzn s chunk r [] last hnd (by rw [htoks, hlast]) (by simp) (hout _ hx)
      rw [hshown] at hh
      exact Bool.noConfusion hh.2
    simp [hfit, hshown]

/-! ### Whole runs -/

/-- The pieces one call receives: `recv` returns 1 to 140 bytes. -/
def Received (chunks : List (List α)) : Prop :=
  ∀ chunk ∈ chunks, chunk ≠ [] ∧ chunk.length ≤ stringSize - 1

instance (chunks : List Text) : Decidable (Received chunks) :=
  inferInstanceAs (Decidable (∀ chunk ∈ chunks, chunk ≠ [] ∧ chunk.length ≤ stringSize - 1))

/-- **A run in step dispatches lines of the stream**, in order. -/
theorem run_sound {chunks : List (List α)} (hrecv : Received chunks) {s h : List α} {t : Track}
    (hnd : (s ++ chunks.flatten).Nodup)
    (hlines : ∀ x ∈ tokens nl (s ++ chunks.flatten), x.length < stringSize * 3 - 1)
    (hrel : Rel nl t h s) (hok : InStep nl z t chunks = true) :
    ∃ held out, frames nl z h chunks = some (held, out)
      ∧ out.Sublist (tokensFrom nl (openFrom nl [] s) chunks.flatten) := by
  induction chunks generalizing s h t with
  | nil => exact ⟨h, [], rfl, List.nil_sublist _⟩
  | cons chunk chunks ih =>
    rw [InStep, Bool.and_eq_true] at hok
    obtain ⟨hc, hlen⟩ := hrecv chunk (by simp)
    rw [List.flatten_cons, ← List.append_assoc] at hnd hlines
    obtain ⟨held, out, hrun, hsub⟩ :=
      step_sound hc hlen (fun x hx => (hlines x hx).le) hrel hok.1
    have hheld := held_eq (fun x hx => (length_token_le hx).trans (by omega)) hrun
    have hrel' := rel_next z hc hnd.of_append_left hrel
    rw [← hheld] at hrel'
    obtain ⟨held', out', hrun', hsub'⟩ :=
      ih (fun c hc => hrecv c (by simp [hc])) hnd hlines hrel' hok.2
    refine ⟨held', out ++ out', ?_, ?_⟩
    · rw [frames_cons, hrun, Option.bind_some, hrun']
      rfl
    · rw [List.flatten_cons, tokensFrom_append]
      rw [openFrom_append] at hsub'
      exact hsub.append hsub'

/-- **Only a run in step dispatches lines of the stream.** -/
theorem run_exact (hzn : ∀ b, z b = true → nl b = false) {chunks : List (List α)}
    (hrecv : Received chunks) {s h held : List α} {out : List (List α)} {t : Track}
    (hnd : (s ++ chunks.flatten).Nodup)
    (hlines : ∀ x ∈ tokens nl (s ++ chunks.flatten), x.length < stringSize * 3 - 1)
    (hrel : Rel nl t h s) (hrun : frames nl z h chunks = some (held, out))
    (hout : ∀ x ∈ out, x ∈ tokens nl (s ++ chunks.flatten)) : InStep nl z t chunks = true := by
  induction chunks generalizing s h t held out with
  | nil => rfl
  | cons chunk chunks ih =>
    obtain ⟨hc, hlen⟩ := hrecv chunk (by simp)
    rw [List.flatten_cons, ← List.append_assoc] at hnd hlines hout
    rw [frames_cons] at hrun
    obtain ⟨⟨held₁, out₁⟩, hrun₁, hrest⟩ := Option.bind_eq_some_iff.mp hrun
    obtain ⟨⟨held₂, out₂⟩, hrun₂, heq⟩ := Option.map_eq_some_iff.mp hrest
    rw [Prod.mk.injEq] at heq
    rw [← heq.2] at hout
    have hheld := held_eq (fun x hx => (length_token_le hx).trans (by omega)) hrun₁
    have hrel' := rel_next z hc hnd.of_append_left hrel
    rw [← hheld] at hrel'
    rw [InStep, Bool.and_eq_true]
    constructor
    · exact step_exact hzn hlen hnd hlines hrel hrun₁ fun x hx => hout x (by simp [hx])
    · exact ih (fun c hc => hrecv c (by simp [hc])) hnd hlines hrel' hrun₂
        fun x hx => hout x (by simp [hx])

/-! ### Relabelling -/

section Relabel

variable {β : Type} {nl' z' : β → Bool} {f : β → α}

theorem leads_map (hnl : ∀ b, nl (f b) = nl' b) (hz : ∀ b, z (f b) = z' b) (chunk : List β) :
    leads nl z (chunk.map f) = leads nl' z' chunk := by
  rw [leads, leads, cstrBy_map hz, List.head?_map]
  cases (cstrBy z' chunk).head? with
  | none => rfl
  | some b => exact hnl b

theorem any_map (hz : ∀ b, z (f b) = z' b) (chunk : List β) :
    (chunk.map f).any z = chunk.any z' := by
  rw [List.any_map]
  exact congrArg chunk.any (funext hz)

theorem hidesEnd_map (hnl : ∀ b, nl (f b) = nl' b) (hz : ∀ b, z (f b) = z' b) (chunk : List β) :
    hidesEnd nl z (chunk.map f) = hidesEnd nl' z' chunk := by
  have hlast := messageEnd_map hnl (cstrBy z' chunk)
  rw [messageEnd, messageEnd] at hlast
  rw [hidesEnd, hidesEnd, any_map hz, cstrBy_map hz, hlast]

theorem accepts_map (hnl : ∀ b, nl (f b) = nl' b) (hz : ∀ b, z (f b) = z' b) (t : Track)
    (chunk : List β) : t.accepts nl z (chunk.map f) = t.accepts nl' z' chunk := by
  rw [Track.accepts, Track.accepts, cstrBy_map hz, tokens_map hnl, messageEnd_map hnl,
    leads_map hnl hz, hidesEnd_map hnl hz]
  match tokens nl' (cstrBy z' chunk) with
  | [] => rfl
  | [_] => simp
  | _ :: _ :: _ => rfl

theorem next_map (hnl : ∀ b, nl (f b) = nl' b) (hz : ∀ b, z (f b) = z' b) (t : Track)
    (chunk : List β) : t.next nl z (chunk.map f) = t.next nl' z' chunk := by
  rw [Track.next, Track.next, cstrBy_map hz, tokens_map hnl, messageEnd_map hnl,
    leads_map hnl hz, any_map hz]
  match tokens nl' (cstrBy z' chunk) with
  | [] => rfl
  | [_] => simp
  | _ :: next :: rest =>
    have hlen : ((next :: rest).map (List.map f)).getLast (by simp)
        = ((next :: rest).getLast (by simp)).map f := List.getLast_map (by simp)
    simp only [List.map_cons] at hlen ⊢
    rw [hlen, List.length_map]

/-- The track sees only the shape of the pieces. -/
theorem inStep_map (hnl : ∀ b, nl (f b) = nl' b) (hz : ∀ b, z (f b) = z' b) (t : Track)
    (chunks : List (List β)) :
    InStep nl z t (chunks.map (List.map f)) = InStep nl' z' t chunks := by
  induction chunks generalizing t with
  | nil => rfl
  | cons chunk chunks ih =>
    rw [List.map_cons, InStep, InStep, accepts_map hnl hz, next_map hnl hz, ih]

end Relabel

/-! ### Bytes and their positions -/

/-- The pieces with every byte tagged by its position in the stream. -/
def tagFrom : ℕ → List Text → List (List (Byte × ℕ))
  | _, [] => []
  | n, chunk :: chunks => chunk.zipIdx n :: tagFrom (n + chunk.length) chunks

theorem flatten_tagFrom (n : ℕ) (chunks : List Text) :
    (tagFrom n chunks).flatten = chunks.flatten.zipIdx n := by
  induction chunks generalizing n with
  | nil => rfl
  | cons chunk chunks ih =>
    rw [tagFrom, List.flatten_cons, List.flatten_cons, List.zipIdx_append, ih]

theorem map_tagFrom (n : ℕ) (chunks : List Text) :
    (tagFrom n chunks).map (List.map Prod.fst) = chunks := by
  induction chunks generalizing n with
  | nil => rfl
  | cons chunk chunks ih => rw [tagFrom, List.map_cons, ih, List.zipIdx_map_fst]

theorem nodup_zipIdx (s : Text) (n : ℕ) : (s.zipIdx n).Nodup := by
  apply List.Nodup.of_map Prod.snd
  rw [List.zipIdx_map_snd]
  exact List.nodup_range'

theorem received_tagFrom {chunks : List Text} (h : Received chunks) (n : ℕ) :
    Received (tagFrom n chunks) := by
  induction chunks generalizing n with
  | nil => exact fun _ hc => absurd hc (by simp [tagFrom])
  | cons chunk chunks ih =>
    intro tagged htagged
    rcases List.mem_cons.mp htagged with rfl | htagged
    · simpa [List.zipIdx_eq_nil_iff] using h chunk (by simp)
    · exact ih (fun c hc => h c (by simp [hc])) _ tagged htagged

def isNewline (b : Byte) : Bool := b == newline

def isNul (b : Byte) : Bool := b == nul

/-- The lines of the stream, with the positions of their bytes. -/
def taggedLines (chunks : List Text) : List (List (Byte × ℕ)) :=
  tokens (fun b => isNewline b.1) (chunks.flatten.zipIdx 0)

/-- **Sound framing**: the texts that reach the dispatch are a subsequence of the lines of the
stream, byte for byte at the same positions. -/
def Sound (chunks : List Text) : Prop :=
  ∃ held texts, frames (fun b => isNewline b.1) (fun b => isNul b.1) [] (tagFrom 0 chunks)
      = some (held, texts) ∧ texts.Sublist (taggedLines chunks)

theorem tokens_untag (chunks : List Text) :
    tokens isNewline chunks.flatten = (taggedLines chunks).map (List.map Prod.fst) := by
  rw [taggedLines, ← tokens_map (fun _ => rfl), List.zipIdx_map_fst]

/-- Forgetting the positions, sound framing is a statement about the loop on bytes. -/
theorem Sound.bytes {chunks : List Text} (h : Sound chunks) :
    ∃ held texts, frames isNewline isNul [] chunks = some (held, texts)
      ∧ texts.Sublist (tokens isNewline chunks.flatten) := by
  obtain ⟨held, texts, hrun, hsub⟩ := h
  refine ⟨held.map Prod.fst, texts.map (List.map Prod.fst), ?_, ?_⟩
  · have hmap := @frames_map Byte (Byte × ℕ) isNewline isNul _ _ Prod.fst
      (fun _ => rfl) (fun _ => rfl) [] (tagFrom 0 chunks)
    rwa [map_tagFrom, hrun] at hmap
  · rw [tokens_untag]
    exact hsub.map _

/-- A peer's line: at most 11 digits, `;` and 140 bytes. -/
def lineBound : ℕ := 152

/-- **Exactly when the framing is sound.**  For every stream of lines a peer could write and every
division of it into `recv` results, the dispatched texts are lines of the stream if and only if
every result finds in `to_hold` what it continues and shows the end of its last line. -/
theorem framing_sound_iff {chunks : List Text} (hrecv : Received chunks)
    (hlines : ∀ line ∈ tokens isNewline chunks.flatten, line.length ≤ lineBound) :
    (Sound chunks ↔ InStep isNewline isNul Track.start chunks = true)
      ∧ (Sound chunks → ∃ held texts, frames isNewline isNul [] chunks = some (held, texts)
          ∧ texts.Sublist (tokens isNewline chunks.flatten)) := by
  refine ⟨?_, Sound.bytes⟩
  have hstream : (tagFrom 0 chunks).flatten = chunks.flatten.zipIdx 0 := flatten_tagFrom 0 chunks
  have hnd : ([] ++ (tagFrom 0 chunks).flatten).Nodup := by
    rw [List.nil_append, hstream]
    exact nodup_zipIdx _ 0
  have hshort : ∀ x ∈ tokens (fun b : Byte × ℕ => isNewline b.1) ([] ++ (tagFrom 0 chunks).flatten),
      x.length < stringSize * 3 - 1 := by
    intro x hx
    rw [List.nil_append, hstream] at hx
    have hline : x.map Prod.fst ∈ tokens isNewline chunks.flatten := by
      rw [tokens_untag]
      exact List.mem_map_of_mem hx
    have := hlines _ hline
    rw [List.length_map, lineBound] at this
    rw [stringSize]
    omega
  have hzn : ∀ b : Byte × ℕ, isNul b.1 = true → isNewline b.1 = false := by
    intro b hb
    rw [isNul, beq_iff_eq] at hb
    rw [isNewline, hb]
    rfl
  have hstep : InStep (fun b : Byte × ℕ => isNewline b.1) (fun b => isNul b.1) Track.start
      (tagFrom 0 chunks) = InStep isNewline isNul Track.start chunks := by
    rw [← @inStep_map Byte isNewline isNul _ _ _ Prod.fst (fun _ => rfl) (fun _ => rfl), map_tagFrom]
  rw [← hstep]
  constructor
  · rintro ⟨held, texts, hrun, hsub⟩
    apply run_exact hzn (received_tagFrom hrecv 0) hnd hshort rel_start hrun
    intro x hx
    rw [List.nil_append, hstream]
    exact hsub.subset hx
  · intro hok
    obtain ⟨held, texts, hrun, hsub⟩ :=
      run_sound (received_tagFrom hrecv 0) hnd hshort rel_start hok
    rw [hstream] at hsub
    exact ⟨held, texts, hrun, hsub⟩

theorem framing_sound_iff_split : Sound [ascii "SMESSAGES\n4;a", ascii "bc\n5;", ascii "d\n"] :=
  (framing_sound_iff (by decide) (by decide)).1.mpr (by decide)

/-- **The end of a line in the next `recv` result**: two lines are dispatched as one text. -/
theorem framing_glues_lines :
    let chunks := [ascii "1;a", ascii "\n2;b\n"]
    Received chunks ∧ (∀ line ∈ tokens isNewline chunks.flatten, line.length ≤ lineBound)
      ∧ frames isNewline isNul [] chunks = some (ascii "1;a", [ascii "1;a2;b"])
      ∧ ¬ [ascii "1;a2;b"].Sublist (tokens isNewline chunks.flatten) := by
  decide

end TcpFraming

end MessageBoard
