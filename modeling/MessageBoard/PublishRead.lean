import MessageBoard.Lib.Run
import MessageBoard.RmbMessage

/-!
# One client and one server: what is published is read

The client publishes texts, one datagram each, asks for the last `n`, and prints the reply.  Every
datagram is delivered whole and in order, and nothing else is sent to the server.

* `handleClientComms_command` — the server reads the command and the text a client wrote;
* `handleGetMessages_eq` — its reply has the last texts its matrix and the request allow;
* `publish_read` — **what the client prints** below its heading.
-/

namespace MessageBoard

open CText CScan Run

namespace PublishRead

/-- A text a client publishes. -/
structure Publishable (text : Text) : Prop where
  ne_nil : text ≠ []
  length_le : text.length ≤ 140
  newline_free : newline ∉ text
  nul_free : nul ∉ text
  not_space : ∀ b ∈ text.head?, b ≠ space
  valid : Rmb.checkMessageValidity text = true

instance (text : Text) : Decidable (Publishable text) :=
  decidable_of_iff (text ≠ [] ∧ text.length ≤ 140 ∧ newline ∉ text ∧ nul ∉ text
      ∧ (∀ b ∈ text.head?, b ≠ space) ∧ Rmb.checkMessageValidity text = true)
    ⟨fun h => ⟨h.1, h.2.1, h.2.2.1, h.2.2.2.1, h.2.2.2.2.1, h.2.2.2.2.2⟩,
      fun h => ⟨h.ne_nil, h.length_le, h.newline_free, h.nul_free, h.not_space, h.valid⟩⟩

section Session

variable (inetAton : Text → Bool) (selServer : Server)

/-- The client publishes a text and the server handles the datagram. -/
def publishOne (b : Board) (text : Text) : Option Board :=
  (Rmb.publish inetAton true selServer text).2.bind fun datagram =>
    (handleClientComms true b datagram).map ClientResult.board

/-- The client asks for `n` messages, the server handles the datagram, and the client its reply. -/
def readLast (st : Rmb.Statics) (n : ℕ) (b : Board) : Option Rmb.Incoming :=
  let asked := Rmb.askForMessages inetAton true st selServer n
  asked.2.2.bind fun request =>
    (handleClientComms true b request).bind fun result =>
      result.reply.bind fun reply => Rmb.handleIncomingMessages asked.1 n (some reply)

end Session

/-! ### What the server reads -/

/-- The two fields of a command; the text is cut. -/
theorem scanCommand_eq {op text : Text} (hop : op ≠ []) (hword : ∀ b ∈ op, isSpace b = false)
    (hnl : newline ∉ text) (hspace : ∀ b ∈ text.head?, b ≠ space) :
    scanCommand (op ++ space :: text) = (op, text.take 140) := by
  have hstart : (op ++ space :: text).dropWhile isSpace = op ++ space :: text := by
    obtain ⟨b, rest, rfl⟩ := List.exists_cons_of_ne_nil hop
    simp [hword b]
  have htake : (op ++ space :: text).takeWhile (fun b => !isSpace b) = op := by
    rw [takeWhile_run (by simpa using hword) (stops_cons (by decide) _)]
  have hskip : (space :: text).dropWhile (· == space) = text := by
    rw [List.dropWhile_cons_of_pos (by simp)]
    cases text with
    | nil => rfl
    | cons b rest => exact List.dropWhile_cons_of_neg (by simpa using hspace)
  have hline : text.takeWhile (· != newline) = text := by
    rw [List.takeWhile_eq_self_iff]
    exact bne_of_not_mem hnl
  rw [scanCommand_word (by rw [hstart, htake]) hop, hstart, List.drop_left, List.head?_cons,
    if_pos rfl, hskip, hline]

/-- **The server reads the command and the text a client wrote**, of which it takes 140 bytes. -/
theorem handleClientComms_command (sent : Bool) (b : Board) {op text : Text} (hop : op ≠ [])
    (hword : ∀ b ∈ op, isSpace b = false) (hnul : nul ∉ op) (hshort : op.length < stringSize)
    (hfits : (op ++ space :: text).length < responseSize) (hnl : newline ∉ text) (hnul' : nul ∉ text)
    (hspace : ∀ b ∈ text.head?, b ≠ space) :
    handleClientComms sent b (op ++ space :: text ++ [nul])
      = if op = ascii "PUBLISH" then some ⟨handlePublish b (text.take 140), 2, none⟩
        else if op = ascii "GET_MESSAGES" then
          some ⟨b, (handleGetMessages sent b (text.take 140)).1,
            (handleGetMessages sent b (text.take 140)).2⟩
        else some ⟨b, 0, none⟩ := by
  have hfree : nul ∉ op ++ space :: text := by
    rw [List.mem_append, List.mem_cons, not_or, not_or]
    exact ⟨hnul, by decide, hnul'⟩
  have htake : (op ++ space :: text ++ [nul]).take responseSize = op ++ space :: text ++ [nul] :=
    List.take_of_length_le (by rw [List.length_append, List.length_singleton]; omega)
  have hfull : ¬((op ++ space :: text ++ [nul]).length = responseSize
      ∧ nul ∉ op ++ space :: text ++ [nul]) := fun hnone => hnone.2 (by simp)
  simp only [handleClientComms, htake, cstr_append_nul hfree]
  rw [if_neg hfull, scanCommand_eq hop hword hnl hspace, if_neg (Nat.not_le.mpr hshort)]

/-- A command word and a text of at most 140 bytes fit. -/
theorem length_command_lt {op text : Text} (hop : op.length < stringSize) (htext : text.length ≤ 140) :
    (op ++ space :: text).length < responseSize := by
  rw [List.length_append, List.length_cons, responseSize]
  rw [stringSize] at hop
  omega

/-- A command that leaves no room for its NUL has no meaning. -/
theorem handleClientComms_full (sent : Bool) (b : Board) {command : Text} (hnul : nul ∉ command)
    (hfull : responseSize ≤ command.length) :
    handleClientComms sent b (command ++ [nul]) = none := by
  have htake : (command ++ [nul]).take responseSize = command.take responseSize :=
    List.take_append_of_le_length hfull
  simp only [handleClientComms, htake]
  exact if_pos ⟨List.length_take_of_le hfull, fun hmem => hnul (List.mem_of_mem_take hmem)⟩

/-! ### Publishing -/

/-- A board after a history of texts. -/
structure Published (capacity : ℕ) (texts : List Text) (b : Board) : Prop where
  capacity_eq : b.msgMatrix.getCapacity = capacity
  holds : ∃ ms, b.msgMatrix.Holds ms ∧ ms.map Message.content = texts

theorem publishOne_eq {inetAton : Text → Bool} {selServer : Server}
    (haton : inetAton selServer.ipAddr = true) {text : Text} (htext : Publishable text) (b : Board) :
    publishOne inetAton selServer b text = some (handlePublish b text) := by
  have hdatagram : (Rmb.publish inetAton true selServer text).2
      = some (ascii "PUBLISH" ++ space :: text ++ [nul]) := by
    simp [Rmb.publish, htext.valid, haton]
  have hlen := htext.length_le
  have hcomms := @handleClientComms_command true b (ascii "PUBLISH") text (by decide)
    (by decide +kernel) (by decide +kernel) (by decide) (length_command_lt (by decide) hlen)
    htext.newline_free htext.nul_free htext.not_space
  rw [publishOne, hdatagram, Option.bind_some, hcomms, if_pos rfl, Option.map_some,
    List.take_of_length_le hlen]

/-- One text is added to the history. -/
theorem published_handlePublish {capacity : ℕ} {texts : List Text} {b : Board}
    (hb : Published capacity texts b) {text : Text} (hlen : text.length ≤ 140) :
    Published capacity (texts ++ [text]) (handlePublish b text) := by
  obtain ⟨hcap, ms, hholds, hms⟩ := hb
  refine ⟨hcap, ms ++ [⟨b.gLc, text⟩], ?_, by rw [List.map_append, hms]; rfl⟩
  have hnew : newMessage b.gLc text = (⟨b.gLc, text⟩, (b.gLc + 1) % 2 ^ 64) := by
    rw [newMessage, stringSize, List.take_of_length_le hlen]
  have hadd := hholds.add ⟨b.gLc, text⟩
  rw [handlePublish, Board.add, hnew]
  exact hadd

/-- **All texts are published.** -/
theorem published_run {inetAton : Text → Bool} {selServer : Server}
    (haton : inetAton selServer.ipAddr = true) {texts : List Text}
    (htexts : ∀ t ∈ texts, Publishable t) {capacity : ℕ} {before : List Text} {b : Board}
    (hb : Published capacity before b) :
    ∃ b', run (publishOne inetAton selServer) b texts = some b'
      ∧ Published capacity (before ++ texts) b' := by
  induction texts generalizing before b with
  | nil => exact ⟨b, rfl, by rwa [List.append_nil]⟩
  | cons text texts ih =>
    have htext := htexts text (by simp)
    obtain ⟨b', hrun, hpub⟩ := ih (fun t ht => htexts t (by simp [ht]))
      (published_handlePublish hb htext.length_le)
    refine ⟨b', ?_, ?_⟩
    · rw [run_cons, publishOne_eq haton htext, Option.bind_some, hrun]
    · rwa [List.append_assoc, List.singleton_append] at hpub

/-! ### Reading -/

/-- The texts a matrix and a request allow. -/
def lastTexts (n capacity : ℕ) (texts : List Text) : List Text :=
  texts.drop (texts.length - min n (min capacity texts.length))

/-- The texts of a history, one a line. -/
theorem historyText_withoutLc {ms : List Message} (hms : ∀ m ∈ ms, m.content.length ≤ 140) {n : ℕ}
    (hn : 0 < n) : historyText n .withoutLc ms = linesText (ms.map Message.content) := by
  rw [linesText, List.flatMap_map, historyText]
  apply List.flatMap_congr
  intro m hm
  have hlen : (m.content ++ [newline]).length ≤ stringSize := by
    have := hms m hm
    rw [List.length_append, List.length_singleton, stringSize]
    omega
  rw [messageLine, getString, List.take_of_length_le, List.take_of_length_le]
  · rw [stringSize] at hlen ⊢
    omega
  · rw [stringSize] at hlen ⊢
    rw [List.take_of_length_le (by omega)]
    omega

/-- **The reply** has the last texts the matrix and the request allow. -/
theorem handleGetMessages_eq {capacity : ℕ} {texts : List Text} {b : Board}
    (hb : Published capacity texts b) (htexts : ∀ t ∈ texts, t.length ≤ 140)
    (hk : texts.length < 2 ^ 31) {n : ℕ} (hn : 1 ≤ n) (hn' : n < 2 ^ 31) :
    handleGetMessages true b (decimal n) = (0, some (Rmb.reply (lastTexts n capacity texts))) := by
  obtain ⟨hcap, ms, hholds, rfl⟩ := hb
  rw [List.length_map] at hk
  have hmin : (if b.msgMatrix.getSize < (if b.msgMatrix.getCapacity < n
        then b.msgMatrix.getCapacity else n)
      then b.msgMatrix.getSize else if b.msgMatrix.getCapacity < n
        then b.msgMatrix.getCapacity else n) = min n (min capacity ms.length) := by
    rw [hholds.size_eq, hcap]
    split <;> split <;> omega
  simp only [handleGetMessages, toNat_atoi_decimal hn', hmin]
  rw [if_neg (by omega), lastTexts, List.length_map, ← List.map_drop]
  rcases Nat.eq_zero_or_pos ms.length with hzero | hpos
  · rw [List.length_eq_zero_iff] at hzero
    subst hzero
    rw [getFirstNMessages_empty hholds, List.drop_nil, List.map_nil]
    rfl
  · have hcapacity := b.msgMatrix.capacity_pos
    rw [Matrix.getCapacity] at hcap
    obtain ⟨m, hm⟩ : ∃ m, m = min n (min capacity ms.length) := ⟨_, rfl⟩
    have hlast := getFirstNMessages_last hholds .withoutLc (n := m) (by omega) (by omega)
      (by rw [Matrix.getCapacity]; omega) hk
    have hshort : ∀ x ∈ ms.drop (ms.length - m), x.content.length ≤ 140 :=
      fun x hx => htexts _ (List.mem_map_of_mem (List.mem_of_mem_drop hx))
    have hlines := @length_linesText_le ((ms.drop (ms.length - m)).map Message.content) 140 (by
      intro t ht
      obtain ⟨x, hx, rfl⟩ := List.mem_map.mp ht
      exact hshort x hx)
    rw [List.length_map, List.length_drop, show ms.length - (ms.length - m) = m by omega] at hlines
    rw [← hm, toInt32_of_lt (by omega), hlast, historyText_withoutLc hshort (by omega)]
    simp only [Rmb.reply, sendReply_true]
    rw [List.take_of_length_le]
    rw [List.length_append, List.length_cons, stringSize]
    have hcode : messageCode.length = 8 := rfl
    omega

/-- **The server reads a request.** -/
theorem handleClientComms_request (b : Board) {n : ℕ} (hn : n < 2 ^ 31) :
    handleClientComms true b (ascii "GET_MESSAGES" ++ space :: decimal n ++ [nul])
      = some ⟨b, (handleGetMessages true b (decimal n)).1, (handleGetMessages true b (decimal n)).2⟩ := by
  have hshort : (decimal n).length ≤ 140 := by
    have := length_decimal_le (n := n) (k := 9) (by omega)
    omega
  have hhead : ∀ d ∈ (decimal n).head?, d ≠ space := by
    intro d hd heq
    subst heq
    exact not_mem_decimal (b := space) (by decide) n (List.mem_of_mem_head? hd)
  have hcomms := @handleClientComms_command true b (ascii "GET_MESSAGES") (decimal n) (by decide)
    (by decide +kernel) (by decide +kernel) (by decide) (length_command_lt (by decide) hshort)
    (not_mem_decimal (by decide) n) (not_mem_decimal (by decide) n) hhead
  rwa [if_neg (by decide), if_pos rfl, List.take_of_length_le hshort] at hcomms

/-- **What the client prints**: below its heading, the last texts published, as many as it asked for
and the matrix keeps, byte for byte, oldest first, one a line. -/
theorem publish_read {inetAton : Text → Bool} {selServer : Server}
    (haton : inetAton selServer.ipAddr = true) {capacity : ℕ} (hcap : 0 < capacity) (overflow : Bool)
    (st : Rmb.Statics) {texts : List Text} (htexts : ∀ t ∈ texts, Publishable t)
    (hk : texts.length < 2 ^ 31) {n : ℕ} (hn : 1 ≤ n) (hn' : n ≤ 8388606) :
    ∃ st', (run (publishOne inetAton selServer) ⟨0, .createMatrix capacity hcap overflow⟩ texts).bind
        (readLast inetAton selServer st n)
      = some ⟨st', 2, Rmb.heading n ++ (texts.drop
          (texts.length - min n (min capacity texts.length))).flatMap Rmb.printedLine⟩ := by
  have hstart : Published capacity [] ⟨0, .createMatrix capacity hcap overflow⟩ :=
    ⟨rfl, [], Matrix.holds_create capacity hcap overflow, rfl⟩
  obtain ⟨b, hrun, hb⟩ := published_run haton htexts hstart
  rw [List.nil_append] at hb
  have hasked : Rmb.askForMessages inetAton true st selServer n
      = ({ st with testingWithResults := true }, 0,
          some (ascii "GET_MESSAGES" ++ space :: decimal n ++ [nul])) := by
    have hne : (n : ℤ) ≠ 0 := by omega
    have hnat : ((n : ℤ) % 2 ^ 64).toNat = n := by omega
    simp only [Rmb.askForMessages, haton, hnat, hne, ne_eq, not_false_eq_true, decide_true,
      Bool.not_true, Bool.false_eq_true, if_true, if_false]
  have hcomms := handleClientComms_request b (n := n) (by omega)
  rw [handleGetMessages_eq hb (fun t ht => (htexts t ht).length_le) hk hn (by omega)] at hcomms
  -- the last texts are themselves texts, and few enough for the buffer of the client
  have hlast : ∀ t ∈ lastTexts n capacity texts, Publishable t :=
    fun t ht => htexts t (List.mem_of_mem_drop ht)
  have hfits : (Rmb.reply (lastTexts n capacity texts)).length < (n + 1) * responseSize := by
    have hlines := length_linesText_le fun t ht => (hlast t ht).length_le
    have hcount : (lastTexts n capacity texts).length ≤ n := by
      rw [lastTexts, List.length_drop]
      omega
    have hcode : messageCode.length = 8 := rfl
    rw [Rmb.reply, List.length_append, List.length_cons, hcode, responseSize]
    omega
  have hprinted := Rmb.handleIncomingMessages_reply { st with testingWithResults := true }
    (show n + 1 < 2 ^ 23 by omega) rfl (fun t ht => (hlast t ht).ne_nil)
    (fun t ht => (hlast t ht).newline_free) (fun t ht => (hlast t ht).nul_free) hfits
  refine ⟨{ Rmb.reserve { st with testingWithResults := true } n with testServer := false }, ?_⟩
  rw [hrun, Option.bind_some, readLast, hasked]
  dsimp only
  rw [Option.bind_some, hcomms, Option.bind_some, Option.bind_some, hprinted]
  rfl

def loopback (ip : Text) : Bool := ip == ascii "127.0.0.1"

/-- Three texts, a matrix of two slots, and a request for five. -/
theorem publish_read_wrapped :
    ∃ st', (run (publishOne loopback (.new (ascii "s") (ascii "127.0.0.1") 1 2))
        ⟨0, .createMatrix 2 (by decide) false⟩ [ascii "one", ascii "two", ascii "a b\t"]).bind
        (readLast loopback (.new (ascii "s") (ascii "127.0.0.1") 1 2) .start 5)
      = some ⟨st', 2, Rmb.heading 5 ++ [ascii "two", ascii "a b\t"].flatMap Rmb.printedLine⟩ :=
  publish_read (by decide) (by decide) false .start (by decide +kernel) (by decide) (by decide)
    (by decide)

end PublishRead

end MessageBoard
