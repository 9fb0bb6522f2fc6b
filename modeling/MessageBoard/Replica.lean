import MessageBoard.MsgservMessage

/-!
# A message server and the publications it keeps

A `Replica` is the board of a server with a record of what every message in its matrix is a copy of:
publications are numbered, and `kept` lists the stored copies with their numbers, oldest first.  The
numbers are not in the source; a step of the source that stores a message extends the record by one.

* `Replica.publish_eq_some` — a published datagram is stored under the server's clock;
* `Replica.storeLine_cases` — a line from a peer is stored under the larger clock, or not at all;
* `Replica.storeLine_content` — it is stored with its content, unless it has none.
-/

namespace MessageBoard

open CText

/-- A copy of the publication `id`, as it is stored or sent. -/
structure Copy where
  message : Message
  id : ℕ
  deriving DecidableEq, Repr

/-- The board of a server, and what its messages are copies of. -/
structure Replica where
  board : Board
  kept : List Copy
  holds : board.msgMatrix.Holds (kept.map Copy.message)

namespace Replica

/-- A server that has just started. -/
def start (capacity : ℕ) (hcap : 0 < capacity) (overflow : Bool) : Replica :=
  ⟨⟨0, .createMatrix capacity hcap overflow⟩, [], Matrix.holds_create capacity hcap overflow⟩

theorem holds_snoc {b : Board} {kept : List Copy} (h : b.msgMatrix.Holds (kept.map Copy.message))
    {b' : Board} {m : Message} (hadd : b'.msgMatrix = b.msgMatrix.addElement b.msgMatrix.getSize m)
    (id : ℕ) : b'.msgMatrix.Holds ((kept ++ [Copy.mk m id]).map Copy.message) := by
  rw [hadd, List.map_append]
  exact h.add m

/-- A datagram from a client, when it makes the main loop share: `handle_client_comms` returned 2, and
then there is no reply that `sendto` could refuse. -/
def publish (r : Replica) (datagram : Text) (id : ℕ) : Option (Replica × Message) :=
  match h : handleClientComms true r.board datagram with
  | none => none
  | some result =>
      if herr : result.err = 2 then
        match hlast : lastMessage result.board with
        | none => none
        | some m =>
            some (⟨result.board, r.kept ++ [⟨m, id⟩], by
              obtain ⟨input, _, hboard⟩ := handleClientComms_publish h herr
              rw [hboard, handlePublish, lastMessage_add, Option.some.injEq] at hlast
              refine holds_snoc r.holds ?_ id
              rw [hboard, ← hlast]
              rfl⟩, m)
      else none

/-- A line from a peer that is a copy of the publication `id`. -/
def storeLine (r : Replica) (copy : Copy) : Option Replica :=
  match h : parseMessage r.board (clockLine copy.message) with
  | none => none
  | some (_, none) => some r
  | some (b, some m) =>
      some ⟨b, r.kept ++ [⟨m, copy.id⟩], by
        rcases parseMessage_cases h with h | ⟨m', hm, hadd⟩
        · simp at h
        · rw [← Option.some.inj hm] at hadd
          exact holds_snoc r.holds hadd copy.id⟩

/-- The copies `handle_sget_messages` writes: those the matrix still has. -/
def recent (r : Replica) : List Copy := r.kept.drop (r.kept.length - r.board.msgMatrix.getCapacity)

theorem mem_kept_of_mem_recent {r : Replica} {c : Copy} (h : c ∈ r.recent) : c ∈ r.kept :=
  List.mem_of_mem_drop h

/-- A text that a line can carry. -/
structure OneLine (content : Text) : Prop where
  length_le : content.length ≤ 140
  newline_free : newline ∉ content

/-- What a publication does: the message is one line, it is stored under the server's clock, and
the clock moves on. -/
structure PublishedAs (r r' : Replica) (id : ℕ) (m : Message) : Prop where
  lc_eq : m.lc = r.board.gLc
  gLc_eq : r'.board.gLc = (r.board.gLc + 1) % 2 ^ 64
  kept_eq : r'.kept = r.kept ++ [⟨m, id⟩]
  oneLine : OneLine m.content

/-- **A published datagram** is stored. -/
theorem publish_eq_some {r r' : Replica} {datagram : Text} {id : ℕ} {m : Message}
    (h : r.publish datagram id = some (r', m)) : PublishedAs r r' id m := by
  rw [publish] at h
  split at h
  · simp at h
  · rename_i result hcomms
    split at h
    · rename_i herr
      split at h
      · simp at h
      · rename_i hlast
        obtain ⟨input, hnl, hboard⟩ := handleClientComms_publish hcomms herr
        rw [Option.some.injEq, Prod.mk.injEq] at h
        rw [hboard, handlePublish, lastMessage_add, Option.some.injEq] at hlast
        obtain ⟨rfl, rfl⟩ := h
        refine ⟨?_, ?_, rfl, ?_⟩
        · rw [← hlast]
          rfl
        · show result.board.gLc = _
          rw [hboard]
          rfl
        · rw [← hlast]
          exact ⟨List.length_take_le _ _, fun hmem => hnl (List.mem_of_mem_take hmem)⟩
    · simp at h

/-- **A line from a peer** is stored under the larger clock, or not at all. -/
theorem storeLine_cases {r r' : Replica} {copy : Copy} (hlc : copy.message.lc < 100000)
    (h : r.storeLine copy = some r') :
    r' = r ∨ ∃ m : Message, m.lc = max r.board.gLc copy.message.lc
      ∧ r'.board.gLc = (m.lc + 1) % 2 ^ 64 ∧ r'.kept = r.kept ++ [⟨m, copy.id⟩] := by
  rw [storeLine] at h
  split at h
  · simp at h
  · exact Or.inl (Option.some.inj h).symm
  · rename_i b m hparse
    obtain ⟨msg, hadd⟩ := parseMessage_clockLine_lc hlc hparse
    rw [← Option.some.inj h]
    obtain ⟨rfl, rfl⟩ := Prod.ext_iff.mp hadd
    exact Or.inr ⟨_, rfl, rfl, rfl⟩

/-- **A line from a peer that does not overrun** is stored with its content, or has none. -/
theorem storeLine_content {r r' : Replica} {copy : Copy} (hline : OneLine copy.message.content)
    (h : r.storeLine copy = some r') :
    copy.message.content = [] ∧ r' = r
      ∨ copy.message.content ≠ [] ∧ ∃ lc, r'.kept = r.kept ++ [⟨⟨lc, copy.message.content⟩, copy.id⟩] := by
  rw [storeLine] at h
  split at h
  · simp at h
  · rename_i hparse
    rcases parseMessage_clockLine_content hline.length_le hline.newline_free hparse with
      hcase | ⟨_, gLc, heq⟩
    · exact Or.inl ⟨hcase.1, (Option.some.inj h).symm⟩
    · simp at heq
  · rename_i b m hparse
    rcases parseMessage_clockLine_content hline.length_le hline.newline_free hparse with
      ⟨_, heq⟩ | ⟨hne, gLc, heq⟩
    · simp at heq
    · rw [Prod.mk.injEq, Option.some.injEq] at heq
      obtain ⟨_, rfl⟩ := heq
      rw [← Option.some.inj h]
      exact Or.inr ⟨hne, gLc, rfl⟩

end Replica

end MessageBoard
