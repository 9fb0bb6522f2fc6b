import MessageBoard.Lib.Run
import MessageBoard.MsgservMessage

/-!
# What a server stores, and what its peer stores

A server handles `PUBLISH` datagrams of any bytes and shares each message; a peer with any board
parses each line it is sent, whole.

* `inputOf_publishes` — what the publisher side reads behind the first word;
* `relay_publishes` — one datagram: the server stores what it read, and the peer the same unless it
  is empty;
* `peer_stores_iff` — **both store the same exactly if every datagram has a text.**
-/

namespace MessageBoard

open CText CScan Run

namespace PeerStore

/-! ### A server and its peer -/

/-- The boards of the server and of its peer, and the contents added to them. -/
structure Pair where
  a : Board
  b : Board
  atA : List Text
  atB : List Text

/-- The lines of a shared message behind its code. -/
def sharedLines (a : Board) : List Text :=
  match shareLastMessage a with
  | none => []
  | some text => (tokens (· == newline) text).drop 1

/-- The peer parses a line. -/
def parseLine (q : Board × List Text) (line : Text) : Option (Board × List Text) :=
  (parseMessage q.1 line).map fun r => (r.1, q.2 ++ (r.2.map Message.content).toList)

/-- A datagram is handled, and the message shared; a `PUBLISH` has no reply that `sendto` could refuse. -/
def relay (s : Pair) (datagram : Text) : Option Pair :=
  (handleClientComms true s.a datagram).bind fun r =>
    if r.err = 2 then
      (run parseLine (s.b, s.atB) (sharedLines r.board)).map fun q =>
        ⟨r.board, q.1, s.atA ++ ((lastMessage r.board).map Message.content).toList, q.2⟩
    else some { s with a := r.board }

/-- The first word of the datagram is `PUBLISH`. -/
def Publishes (datagram : Text) : Prop :=
  ((cstr datagram).dropWhile isSpace).takeWhile (fun b => !isSpace b) = ascii "PUBLISH"

instance (datagram : Text) : Decidable (Publishes datagram) :=
  inferInstanceAs (Decidable (_ = _))

/-- What follows that word. -/
def behindWord (datagram : Text) : Text := ((cstr datagram).dropWhile isSpace).drop 7

/-- One or more spaces follow the word, and then, before any NUL, a byte other than a newline. -/
def HasText (datagram : Text) : Prop :=
  (behindWord datagram).head? = some space
    ∧ ∃ b ∈ ((behindWord datagram).dropWhile (· == space)).head?, b ≠ newline

/-- What the scan puts into `input_buffer`. -/
def inputOf (datagram : Text) : Text := (scanCommand (cstr datagram)).2

/-! ### What the publisher side reads -/

/-- **A datagram that publishes** gives a text exactly if it has one. -/
theorem inputOf_publishes {datagram : Text} (h : Publishes datagram) :
    (scanCommand (cstr datagram)).1 = ascii "PUBLISH" ∧ (inputOf datagram).length ≤ 140
      ∧ (inputOf datagram ≠ [] ↔ HasText datagram) := by
  have hscan := scanCommand_word h (by decide)
  rw [inputOf, hscan, HasText, behindWord]
  have hlength : (ascii "PUBLISH").length = 7 := by decide
  rw [hlength]
  refine ⟨rfl, ?_, ?_⟩
  · dsimp only
    split
    · exact List.length_take_le _ _
    · simp
  · dsimp only
    split_ifs with hspace
    · rw [and_iff_right hspace]
      cases (((cstr datagram).dropWhile isSpace).drop 7).dropWhile (· == space) with
      | nil => simp
      | cons b rest =>
        by_cases hb : b = newline <;> simp [hb]
    · exact iff_of_false (by simp) fun htext => hspace htext.1

/-! ### One datagram -/

/-- **The peer is sent one line**, that of the message. -/
theorem sharedLines_eq {a : Board} {m : Message} (hm : lastMessage a = some m)
    (hlen : m.content.length ≤ 140) (hnl : newline ∉ m.content) : sharedLines a = [clockLine m] := by
  have htext : shareLastMessage a = some (linesText [smessageCode, clockLine m]) := by
    rw [shareLastMessage_of_last hm hlen]
    simp [linesText]
  have hplain : ∀ line ∈ [smessageCode, clockLine m], line ≠ [] ∧ newline ∉ line := by
    intro line hline
    rcases List.mem_cons.mp hline with rfl | hline
    · decide
    · rw [List.mem_singleton.mp hline, clockLine, getString]
      refine ⟨by simp, ?_⟩
      rw [List.mem_append, List.mem_cons, not_or, not_or]
      exact ⟨not_mem_decimalInt (by decide) (by decide) _, by decide, hnl⟩
  rw [sharedLines, htext]
  dsimp only
  rw [tokens_linesText (fun line hline => (hplain line hline).1) fun line hline => (hplain line hline).2]
  rfl

/-- The peer takes a line with a content, and only such a line. -/
theorem parseLine_clockLine (q : Board × List Text) {m : Message} (hlc : m.lc < 100000)
    (hlen : m.content.length ≤ 140) (hnl : newline ∉ m.content) :
    ∃ b, parseLine q (clockLine m) = some (b, q.2 ++ [m.content].filter (· ≠ [])) := by
  have hdigits := length_decimal_le (n := m.lc) (k := 4) (by omega)
  have hsemi := semicolon_not_mem_decimal m.lc
  have hstop : Stops (· != semicolon) (semicolon :: m.content) := stops_cons (by simp) _
  have hfits : ((clockLine m).takeWhile (· != semicolon)).length < 6 := by
    rw [clockLine_of_lt (by omega), takeWhile_run (bne_of_not_mem hsemi) hstop]
    omega
  obtain ⟨r, hr⟩ : ∃ r, parseMessage q.1 (clockLine m) = some r := by
    rw [parseMessage, if_neg (by omega)]
    split
    · exact ⟨_, rfl⟩
    · exact ⟨_, rfl⟩
  rw [parseLine, hr]
  rcases parseMessage_clockLine_content hlen hnl hr with ⟨hnil, rfl⟩ | ⟨hne, gLc, rfl⟩
  · exact ⟨q.1, by simp [hnil]⟩
  · exact ⟨(q.1.add gLc m.content).1, by simp [hne]⟩

/-- **One datagram**: the server stores what it read, and the peer the same, unless it is empty. -/
theorem relay_publishes (s : Pair) {datagram : Text} (hlen : datagram.length ≤ 511)
    (hpub : Publishes datagram) (hclock : s.a.gLc < 100000) :
    ∃ s', relay s datagram = some s' ∧ s'.a.gLc = s.a.gLc + 1
      ∧ s'.atA = s.atA ++ [inputOf datagram]
      ∧ s'.atB = s.atB ++ [inputOf datagram].filter (· ≠ []) := by
  obtain ⟨hword, hinput, -⟩ := inputOf_publishes hpub
  have hnl : newline ∉ inputOf datagram := newline_not_mem_scanCommand _
  have hbuffer : datagram.take responseSize = datagram :=
    List.take_of_length_le (by rw [responseSize]; omega)
  have hcomms : handleClientComms true s.a datagram
      = some ⟨handlePublish s.a (inputOf datagram), 2, none⟩ := by
    simp only [handleClientComms, hbuffer, hword]
    rw [if_neg (by rw [responseSize]; omega), if_neg (by decide), if_pos trivial]
    rfl
  have hnew : newMessage s.a.gLc (inputOf datagram)
      = (⟨s.a.gLc, inputOf datagram⟩, s.a.gLc + 1) := by
    rw [newMessage, stringSize, List.take_of_length_le hinput, Nat.mod_eq_of_lt (by omega)]
  have hlast : lastMessage (handlePublish s.a (inputOf datagram))
      = some ⟨s.a.gLc, inputOf datagram⟩ := by
    rw [handlePublish, lastMessage_add, hnew]
  have hlines : sharedLines (handlePublish s.a (inputOf datagram))
      = [clockLine ⟨s.a.gLc, inputOf datagram⟩] := sharedLines_eq hlast hinput hnl
  obtain ⟨b, hparse⟩ := @parseLine_clockLine (s.b, s.atB) ⟨s.a.gLc, inputOf datagram⟩ hclock hinput hnl
  refine ⟨⟨handlePublish s.a (inputOf datagram), b, s.atA ++ [inputOf datagram],
    s.atB ++ [inputOf datagram].filter (· ≠ [])⟩, ?_, ?_, rfl, rfl⟩
  · rw [relay, hcomms, Option.bind_some, if_pos rfl, hlines, run_singleton, hparse, Option.map_some,
      hlast]
    rfl
  · show (newMessage s.a.gLc (inputOf datagram)).2 = _
    rw [hnew]

/-! ### Any number of datagrams -/

/-- **All datagrams**: the peer has the contents that are not empty. -/
theorem relay_run (s : Pair) {datagrams : List Text}
    (hds : ∀ d ∈ datagrams, d.length ≤ 511 ∧ Publishes d)
    (hclock : s.a.gLc + datagrams.length ≤ 100000) :
    ∃ s', run relay s datagrams = some s' ∧ s'.atA = s.atA ++ datagrams.map inputOf
      ∧ s'.atB = s.atB ++ (datagrams.map inputOf).filter (· ≠ []) := by
  induction datagrams generalizing s with
  | nil => exact ⟨s, rfl, by simp, by simp⟩
  | cons d datagrams ih =>
    rw [List.length_cons] at hclock
    obtain ⟨hlen, hpub⟩ := hds d List.mem_cons_self
    obtain ⟨s₁, hstep, hgLc, hatA, hatB⟩ := relay_publishes s hlen hpub (by omega)
    obtain ⟨s', hrun, hatA', hatB'⟩ := ih s₁ (fun d' hd' => hds d' (List.mem_cons_of_mem d hd'))
      (by omega)
    refine ⟨s', ?_, ?_, ?_⟩
    · rw [run_cons, hstep, Option.bind_some, hrun]
    · rw [hatA', hatA, List.append_assoc]
      rfl
    · rw [hatB', hatB, List.append_assoc, ← List.filter_append]
      rfl

/-- **What a server stores its peer stores** exactly if every datagram has a text behind `PUBLISH`. -/
theorem peer_stores_iff (a b : Board) {datagrams : List Text}
    (hds : ∀ d ∈ datagrams, d.length ≤ 511 ∧ Publishes d)
    (hclock : a.gLc + datagrams.length ≤ 100000) :
    ∃ s, run relay ⟨a, b, [], []⟩ datagrams = some s
      ∧ (s.atB = s.atA ↔ ∀ d ∈ datagrams, HasText d) := by
  obtain ⟨s, hrun, hatA, hatB⟩ := relay_run ⟨a, b, [], []⟩ hds hclock
  refine ⟨s, hrun, ?_⟩
  rw [hatA, hatB, List.nil_append, List.nil_append, List.filter_eq_self, List.forall_mem_map]
  apply forall₂_congr
  intro d hd
  rw [decide_eq_true_eq]
  exact (inputOf_publishes (hds d hd).2).2.2

/-- Two datagrams with texts, one of them with tabs and a semicolon. -/
theorem peer_stores_iff_two : ∃ s, run relay
      ⟨⟨0, .createMatrix 2 (by decide) false⟩, ⟨5, .createMatrix 3 (by decide) false⟩, [], []⟩
      [ascii "PUBLISH hi", ascii " PUBLISH  \ta;b\nc"] = some s
    ∧ (s.atB = s.atA ↔ ∀ d ∈ [ascii "PUBLISH hi", ascii " PUBLISH  \ta;b\nc"], HasText d) :=
  peer_stores_iff _ _ (by decide +kernel) (by decide)

/-- **A datagram without a text**: the server stores an empty message, and its peer none. -/
theorem empty_not_stored :
    ¬∀ (a b : Board) (datagrams : List Text), (∀ d ∈ datagrams, d.length ≤ 511 ∧ Publishes d) →
      a.gLc + datagrams.length ≤ 100000 →
      ∀ s, run relay ⟨a, b, [], []⟩ datagrams = some s → s.atB = s.atA := by
  intro h
  have hempty : (run relay ⟨⟨0, .createMatrix 2 (by decide) false⟩,
      ⟨0, .createMatrix 2 (by decide) false⟩, [], []⟩ [ascii "PUBLISH"]).any
        (fun s => decide (s.atA = [[]] ∧ s.atB = [])) = true := by
    decide +kernel
  obtain ⟨s, hs, hcontents⟩ := (Option.any_eq_true _ _).mp hempty
  obtain ⟨hatA, hatB⟩ := of_decide_eq_true hcontents
  have heq := h _ _ [ascii "PUBLISH"] (by decide +kernel) (by decide) s hs
  rw [hatA, hatB] at heq
  simp at heq

end PeerStore

end MessageBoard
