import MessageBoard.PublishRead
import MessageBoard.RmbMain

/-!
# Which replies a client prints

A client and one server that answers each request once and in order: a reply that arrives answers
the oldest request that is outstanding.  A command whose datagram cannot be sent ends the run.

* `handleClientComms_replyText` — a message server is such a server;
* `answered_iff` — a reply is treated as the answer to the newest request;
* `handleIncomingMessages_replyText` — a reply is received where the buffer holds it;
* `printed_iff` — **every reply is printed for its request exactly if the buffer holds it, and none
  arrives after a request of another kind or another count**.
-/

namespace MessageBoard

open CText CScan Run

namespace ReplyPrinting

open Rmb

inductive Request where
  /-- The test behind a publication. -/
  | silent
  /-- `show_latest_messages`. -/
  | latest (n : ℕ)
  deriving DecidableEq, Repr

/-- The client, and the requests not yet answered, oldest first. -/
structure Session where
  client : Client
  outstanding : List Request

inductive Event where
  | publish (inputBuffer : Text)
  | showLatest (inputBuffer : Text)
  /-- A reply: its text behind the first line. -/
  | arrive (messages : Text)
  deriving DecidableEq, Repr

def replyText (messages : Text) : Text := messageCode ++ newline :: messages

/-- Every datagram is sent. -/
def sends : UserInput := ⟨[], [], true, true⟩

/-- What `handle_incoming_messages` makes of a reply. -/
def incoming (s : Session) (messages : Text) : Option Incoming :=
  handleIncomingMessages s.client.statics (s.client.msgNum % 2 ^ 32) (some (replyText messages))

def step (inetAton : Text → Bool) (server : Server) (s : Session) : Event → Option Session
  | .publish inputBuffer =>
      let c := publishCommand inetAton { s.client with inputBuffer := inputBuffer } server sends
      let published := (publish inetAton true server inputBuffer).1 = 0
      if c.err = 0 then
        some ⟨c.clearInput, if published then s.outstanding ++ [.silent] else s.outstanding⟩
      else none
  | .showLatest inputBuffer =>
      let c := latestCommand inetAton { s.client with inputBuffer := inputBuffer } server sends
      let n := atoi inputBuffer
      if c.err = 0 then
        some ⟨c.clearInput, if 0 < n then s.outstanding ++ [.latest n.toNat] else s.outstanding⟩
      else none
  | .arrive messages =>
      match s.outstanding with
      | [] => none
      | _ :: rest => (onIncoming s.client (some (replyText messages))).map fun c => ⟨c, rest⟩

/-- The client has chosen the server. -/
def start (server : Server) : Session := ⟨.start [server] 0, []⟩

/-- The reply to a request: printed under the count of the user, or not at all. -/
def Answered (i : Incoming) : Request → Prop
  | .silent => i.stdout = []
  | .latest n => heading n <+: i.stdout

/-- A reply that arrives is printed for the request it answers. -/
def Printed (s : Session) : Event → Prop
  | .arrive messages => ∀ r ∈ s.outstanding.head?, ∃ i, incoming s messages = some i ∧ Answered i r
  | _ => True

/-- The buffer is there, and the reply leaves room in it for a NUL, or has one. -/
def Held (s : Session) (messages : Text) : Prop :=
  ∃ size ∈ (reserve s.client.statics (s.client.msgNum % 2 ^ 32)).responseBuffer,
    Ends (size - 9) messages

instance (s : Session) (messages : Text) : Decidable (Held s messages) :=
  inferInstanceAs (Decidable (∃ size ∈ (reserve s.client.statics (s.client.msgNum % 2 ^ 32)).responseBuffer,
    Ends (size - 9) messages))

/-- A reply that the buffer holds arrives while the newest request is like the one it answers. -/
def Latest (s : Session) : Event → Prop
  | .arrive messages =>
      ∀ r ∈ s.outstanding.head?, s.outstanding.getLast? = some r ∧ Held s messages
  | _ => True

instance (s : Session) (e : Event) : Decidable (Latest s e) :=
  match e with
  | .arrive messages => inferInstanceAs (Decidable
      (∀ r ∈ s.outstanding.head?, s.outstanding.getLast? = some r ∧ Held s messages))
  | .publish _ | .showLatest _ => isTrue trivial

/-! ### What a reply prints -/

theorem heading_eq {n : ℕ} (hn : n < 2 ^ 31) :
    heading n = ascii "Last " ++ (decimal n ++ (ascii " messages:" ++ [newline])) := by
  rw [heading, toInt32_of_lt hn, List.append_assoc, List.append_assoc]
  rfl

/-- The heading tells the count. -/
theorem heading_prefix_iff {n m : ℕ} (hn : n < 2 ^ 31) (hm : m < 2 ^ 31) (t : Text) :
    heading n <+: heading m ++ t ↔ n = m := by
  constructor
  · rintro ⟨u, hu⟩
    rw [heading_eq hn, heading_eq hm] at hu
    simp only [List.append_assoc, List.append_cancel_left_eq] at hu
    have hstop : ∀ r, Stops isDigit (ascii " messages:" ++ r) := by
      intro r
      exact stops_cons (by decide) _
    have hdigits := congrArg (List.takeWhile isDigit) hu
    rw [takeWhile_run (isDigit_of_mem_decimal n) (hstop _),
      takeWhile_run (isDigit_of_mem_decimal m) (hstop _)] at hdigits
    have hval := congrArg digitsVal hdigits
    rwa [digitsVal_decimal, digitsVal_decimal] at hval
  · rintro rfl
    exact List.prefix_append _ _

theorem heading_ne_nil (n : ℕ) : heading n ≠ [] := by simp [heading]

theorem take_replyText (messages : Text) {size : ℕ} (hsize : 9 ≤ size) :
    (replyText messages).take size = replyText (messages.take (size - 9)) := by
  have hcode : (messageCode ++ [newline]).length = 9 := rfl
  obtain ⟨k, rfl⟩ : ∃ k, size = 9 + k := ⟨size - 9, by omega⟩
  rw [replyText, List.append_cons, ← hcode, List.take_length_add_append, Nat.add_sub_cancel_left,
    List.append_assoc]
  rfl

/-- A reply of any text is received as one. -/
theorem textIn_replyText (messages : Text) {size : ℕ} (hsize : 9 ≤ size) :
    textIn size ((replyText messages).take size)
      = (textIn (size - 9) (messages.take (size - 9))).map replyText := by
  have hcstr : ∀ r, cstr (replyText r) = replyText (cstr r) := fun r => rfl
  have hlength : ∀ r, (replyText r).length = 9 + r.length := by
    intro r
    rw [replyText, List.length_append, List.length_cons, show messageCode.length = 8 from rfl]
    omega
  have hnul : ∀ r, nul ∈ replyText r ↔ nul ∈ r := by
    intro r
    rw [replyText, List.mem_append, List.mem_cons]
    exact or_iff_right (by decide) |>.trans (or_iff_right (by decide))
  have hfull : 9 + (messages.take (size - 9)).length = size
      ↔ (messages.take (size - 9)).length = size - 9 := by omega
  rw [take_replyText messages hsize, textIn, textIn]
  simp only [hlength, hnul, hfull, hcstr]
  split <;> rfl

theorem sizeToAlloc_reserve (st : Statics) (num : ℕ) : st.sizeToAlloc ≤ (reserve st num).sizeToAlloc := by
  simp only [reserve]
  split
  · assumption
  · exact le_rfl

/-- **What a reply does** where the buffer is there: if the buffer holds it, it is printed if the newest
request wants it. -/
theorem handleIncomingMessages_replyText {st : Statics} (hst : 9 ≤ st.sizeToAlloc) {num size : ℕ}
    (hbuffer : (reserve st num).responseBuffer = some size) (messages : Text) :
    handleIncomingMessages st num (some (replyText messages))
      = (textIn (size - 9) (messages.take (size - 9))).map fun text =>
        ⟨{ reserve st num with testServer := false }, if st.testingWithResults then 2 else 0,
          if st.testingWithResults then
            heading num ++ (tokens (· == newline) text).flatMap printedLine else []⟩ := by
  have hsize : 9 ≤ size := by
    have hgrows := sizeToAlloc_reserve st num
    rw [Statics.sizeToAlloc, Statics.sizeToAlloc, hbuffer, Option.getD_some] at hgrows
    exact le_trans hst hgrows
  have hdrop : ((replyText messages).take size).drop 9 = messages.take (size - 9) := by
    rw [take_replyText messages hsize]
    rfl
  have hword : ¬responseSize ≤ messageCode.length := by decide
  simp only [handleIncomingMessages, hbuffer, textIn_replyText messages hsize, hdrop,
    testingWithResults_reserve]
  cases htext : textIn (size - 9) (messages.take (size - 9)) with
  | none => rfl
  | some text =>
    have hop : scanOp (replyText text) = messageCode := scanOp_messages text
    simp only [Option.map_some, Option.bind_some, hop, hword, if_true, if_false]
    cases st.testingWithResults with
    | true => rfl
    | false => rfl

/-- **A message server answers a request** with such a reply. -/
theorem handleClientComms_replyText (b : Board) {n : ℕ} (hpos : 0 < n) (hn : n < 2 ^ 31) :
    ∃ messages, handleClientComms true b (ascii "GET_MESSAGES" ++ space :: decimal n ++ [nul])
      = some ⟨b, 0, some (replyText messages)⟩ := by
  rw [PublishRead.handleClientComms_request b hn, handleGetMessages, toNat_atoi_decimal hn]
  dsimp only
  rw [if_neg (by omega)]
  split
  · exact ⟨[], rfl⟩
  · rename_i toAppend _
    exact ⟨_, congrArg (fun d => some (ClientResult.mk b 0 (some d)))
      (take_replyText toAppend (by rw [stringSize]; omega))⟩

/-! ### The newest request -/

/-- The variables of the client say what the newest request was. -/
def Remembers (c : Client) : Request → Prop
  | .silent => c.statics.testingWithResults = false
  | .latest n => c.statics.testingWithResults = true ∧ c.msgNum = n

structure Inv (s : Session) : Prop where
  size : 9 ≤ s.client.statics.sizeToAlloc
  bound : ∀ n, .latest n ∈ s.outstanding → n < 2 ^ 31
  newest : ∀ r ∈ s.outstanding.getLast?, Remembers s.client r

/-- A reply is received exactly if the buffer holds it. -/
theorem incoming_isSome {s : Session} (hs : Inv s) (messages : Text) :
    (∃ i, incoming s messages = some i) ↔ Held s messages := by
  rw [Held, incoming, ← Option.isSome_iff_exists]
  cases hbuffer : (reserve s.client.statics (s.client.msgNum % 2 ^ 32)).responseBuffer with
  | none =>
    simp only [handleIncomingMessages, hbuffer]
    simp
  | some size =>
    rw [handleIncomingMessages_replyText hs.size hbuffer, Option.isSome_map, textIn_take_isSome]
    simp only [Option.mem_some_iff, exists_eq_left']

/-- **A reply is treated as the answer to the newest request.** -/
theorem answered_iff {s : Session} (hs : Inv s) {newest r : Request}
    (hnewest : s.outstanding.getLast? = some newest) (hr : r ∈ s.outstanding) {messages : Text}
    {i : Incoming} (hi : incoming s messages = some i) : Answered i r ↔ r = newest := by
  obtain ⟨size, hbuffer, -⟩ := (incoming_isSome hs messages).mp ⟨i, hi⟩
  rw [incoming, handleIncomingMessages_replyText hs.size hbuffer] at hi
  obtain ⟨text, -, rfl⟩ := Option.map_eq_some_iff.mp hi
  have hremembers := hs.newest newest hnewest
  have hmem : newest ∈ s.outstanding := List.mem_of_getLast? hnewest
  cases newest with
  | silent =>
    have hflag : s.client.statics.testingWithResults = false := hremembers
    rw [hflag]
    cases r with
    | silent => exact iff_of_true rfl rfl
    | latest n => exact iff_of_false (by simp [Answered, heading_ne_nil]) (by simp)
  | latest m =>
    obtain ⟨hflag, hcount⟩ := hremembers
    have hm := hs.bound m hmem
    have hnum : s.client.msgNum % 2 ^ 32 = m := by
      rw [hcount]
      omega
    rw [hflag, hnum]
    cases r with
    | silent => exact iff_of_false (by simp [Answered, heading_ne_nil]) (by simp)
    | latest n =>
      rw [Request.latest.injEq]
      exact heading_prefix_iff (hs.bound n hr) hm _

/-! ### One step -/

/-- A request that is sent becomes the newest. -/
theorem Inv.ask {s : Session} (hs : Inv s) {c : Client} (hsize : 9 ≤ c.statics.sizeToAlloc)
    {r : Request} (hbound : ∀ n, r = .latest n → n < 2 ^ 31) (hnewest : Remembers c r) :
    Inv ⟨c, s.outstanding ++ [r]⟩ where
  size := hsize
  bound := by
    intro n hn
    rcases List.mem_append.mp hn with hn | hn
    · exact hs.bound n hn
    · exact hbound n (List.mem_singleton.mp hn).symm
  newest := by
    intro r' hr'
    rw [List.getLast?_append_of_ne_nil _ (by simp), List.getLast?_singleton, Option.mem_some_iff] at hr'
    exact hr' ▸ hnewest

/-- A call that sends nothing. -/
theorem Inv.of_eq {s : Session} (hs : Inv s) {c : Client} (hstatics : c.statics = s.client.statics)
    (hnum : c.msgNum = s.client.msgNum) : Inv ⟨c, s.outstanding⟩ where
  size := by
    rw [hstatics]
    exact hs.size
  bound := hs.bound
  newest := by
    intro r hr
    have hremembers := hs.newest r hr
    cases r with
    | silent => exact (congrArg _ hstatics).trans hremembers
    | latest n => exact ⟨(congrArg _ hstatics).trans hremembers.1, hnum.trans hremembers.2⟩

/-- What `ask_for_messages` leaves in the statics. -/
theorem statics_askServer (inetAton : Text → Bool) (c : Client) (server : Server) (num : ℤ) :
    (askServer inetAton c server true num).statics.testingWithResults = decide (num ≠ 0)
      ∧ (askServer inetAton c server true num).statics.sizeToAlloc = c.statics.sizeToAlloc := by
  simp only [askServer, askForMessages, askServerTest]
  split
  · exact ⟨rfl, rfl⟩
  · exact ⟨rfl, rfl⟩

/-- After a publication the newest request is silent. -/
theorem publishCommand_of_published {inetAton : Text → Bool} {server : Server} {c : Client}
    (h : (publish inetAton true server c.inputBuffer).1 = 0) :
    (publishCommand inetAton c server sends).statics.testingWithResults = false
      ∧ (publishCommand inetAton c server sends).statics.sizeToAlloc = c.statics.sizeToAlloc := by
  have hask := statics_askServer inetAton (c.returned server 0) server 0
  have herr : (c.returned server 0).err = 0 := rfl
  simp only [publishCommand, sends, h, herr, if_true]
  split
  · exact hask
  · exact hask

/-- A text that is not published changes nothing the replies depend on. -/
theorem publishCommand_of_not_published {inetAton : Text → Bool} {server : Server} {c : Client}
    (h : (publish inetAton true server c.inputBuffer).1 ≠ 0) :
    (publishCommand inetAton c server sends).statics = c.statics
      ∧ (publishCommand inetAton c server sends).msgNum = c.msgNum := by
  have herr : (c.returned server (publish inetAton true server c.inputBuffer).1).err ≠ 0 := h
  simp only [publishCommand, sends, herr, if_false]
  split
  · exact ⟨rfl, rfl⟩
  · exact ⟨rfl, rfl⟩

theorem inv_publish {inetAton : Text → Bool} {server : Server} {s s' : Session} {inputBuffer : Text}
    (hs : Inv s) (h : step inetAton server s (.publish inputBuffer) = some s') : Inv s' := by
  simp only [step] at h
  split at h
  · rw [← Option.some.inj h]
    split
    · rename_i hpublished
      obtain ⟨hflag, hsize⟩ := publishCommand_of_published
        (c := { s.client with inputBuffer := inputBuffer }) hpublished
      exact hs.ask (hsize ▸ hs.size) (fun n hn => by simp at hn) hflag
    · rename_i hnot
      obtain ⟨hstatics, hnum⟩ := publishCommand_of_not_published
        (c := { s.client with inputBuffer := inputBuffer }) hnot
      exact hs.of_eq hstatics hnum
  · simp at h

theorem atoi_lt (t : Text) : atoi t < 2 ^ 31 := by
  have := Int.bmod_lt (x := strtol t) (m := 2 ^ 32) (by decide)
  rw [atoi]
  omega

/-- After `show_latest_messages` the newest request is for that many. -/
theorem latestCommand_of_pos {inetAton : Text → Bool} {server : Server} {c : Client}
    (h : 0 < atoi c.inputBuffer) :
    Remembers (latestCommand inetAton c server sends) (.latest (atoi c.inputBuffer).toNat)
      ∧ (latestCommand inetAton c server sends).statics.sizeToAlloc = c.statics.sizeToAlloc := by
  obtain ⟨hflag, hsize⟩ := statics_askServer inetAton c server (atoi c.inputBuffer)
  have hcommand : latestCommand inetAton c server sends
      = { askServer inetAton c server true (atoi c.inputBuffer) with
          msgNum := (atoi c.inputBuffer).toNat } := by
    simp only [latestCommand, sends, if_pos h]
  rw [hcommand]
  exact ⟨⟨hflag.trans (by simpa using h.ne'), rfl⟩, hsize⟩

theorem latestCommand_of_not_pos {inetAton : Text → Bool} {server : Server} {c : Client}
    (h : ¬0 < atoi c.inputBuffer) : latestCommand inetAton c server sends = c := by
  simp only [latestCommand, if_neg h]

theorem inv_showLatest {inetAton : Text → Bool} {server : Server} {s s' : Session}
    {inputBuffer : Text} (hs : Inv s)
    (h : step inetAton server s (.showLatest inputBuffer) = some s') : Inv s' := by
  rw [step] at h
  dsimp only at h
  split at h
  · rw [← Option.some.inj h]
    split
    · rename_i hpos
      obtain ⟨hnewest, hsize⟩ :=
        @latestCommand_of_pos inetAton server { s.client with inputBuffer := inputBuffer } hpos
      apply hs.ask
      · exact hsize ▸ hs.size
      · intro n hn
        have hlt := atoi_lt inputBuffer
        rw [Request.latest.injEq] at hn
        omega
      · exact hnewest
    · rename_i hnot
      have hsame :=
        @latestCommand_of_not_pos inetAton server { s.client with inputBuffer := inputBuffer } hnot
      rw [hsame]
      exact hs.of_eq rfl rfl
  · simp at h

theorem inv_arrive {inetAton : Text → Bool} {server : Server} {s s' : Session} {messages : Text}
    (hs : Inv s) (h : step inetAton server s (.arrive messages) = some s') : Inv s' := by
  simp only [step] at h
  split at h
  · simp at h
  · rename_i first rest hout
    obtain ⟨c, hc, rfl⟩ := Option.map_eq_some_iff.mp h
    obtain ⟨i, hi, rfl⟩ := Option.map_eq_some_iff.mp hc
    obtain ⟨size, hbuffer, -⟩ := (incoming_isSome hs messages).mp ⟨i, hi⟩
    rw [handleIncomingMessages_replyText hs.size hbuffer] at hi
    obtain ⟨text, -, rfl⟩ := Option.map_eq_some_iff.mp hi
    refine ⟨?_, ?_, ?_⟩
    · exact le_trans hs.size (sizeToAlloc_reserve _ _)
    · exact fun n hn => hs.bound n (by rw [hout]; exact List.mem_cons_of_mem _ hn)
    · intro r hr
      have hnewest : s.outstanding.getLast? = some r := by
        rw [hout]
        rw [Option.mem_def] at hr
        rw [List.getLast?_cons, hr, Option.getD_some]
      have hremembers := hs.newest r hnewest
      have hkeeps := testingWithResults_reserve s.client.statics (s.client.msgNum % 2 ^ 32)
      cases r with
      | silent => exact hkeeps.trans hremembers
      | latest n => exact ⟨hkeeps.trans hremembers.1, hremembers.2⟩

theorem inv_step {inetAton : Text → Bool} {server : Server} (s : Session) (e : Event)
    (s' : Session) (hs : Inv s) (h : step inetAton server s e = some s') : Inv s' := by
  cases e with
  | publish inputBuffer => exact inv_publish hs h
  | showLatest inputBuffer => exact inv_showLatest hs h
  | arrive messages => exact inv_arrive hs h

/-- **One reply** is printed for its request exactly if the buffer holds it and the newest request is
alike. -/
theorem printed_iff_latest {s : Session} (hs : Inv s) (e : Event) : Printed s e ↔ Latest s e := by
  cases e with
  | publish inputBuffer => exact Iff.rfl
  | showLatest inputBuffer => exact Iff.rfl
  | arrive messages =>
    refine forall₂_congr fun r hr => ?_
    have hmem : r ∈ s.outstanding := List.mem_of_mem_head? hr
    obtain ⟨newest, hnewest⟩ : ∃ newest, s.outstanding.getLast? = some newest :=
      ⟨_, List.getLast?_eq_some_getLast (List.ne_nil_of_mem hmem)⟩
    rw [← incoming_isSome hs messages, hnewest, Option.some.injEq]
    constructor
    · intro ⟨i, hi, hanswered⟩
      exact ⟨((answered_iff hs hnewest hmem hi).mp hanswered).symm, i, hi⟩
    · rintro ⟨rfl, i, hi⟩
      exact ⟨i, hi, (answered_iff hs hnewest hmem hi).mpr rfl⟩

/-- **Every reply is printed for its request exactly if the buffer holds it, and none arrives after a
request of another kind or another count.** -/
theorem printed_iff (inetAton : Text → Bool) (server : Server) (events : List Event) :
    Meets (step inetAton server) Printed (start server) events
      ↔ Meets (step inetAton server) Latest (start server) events := by
  have hstart : Inv (start server) := by
    refine ⟨?_, fun n hn => by simp [start] at hn, fun r hr => by simp [start] at hr⟩
    show 9 ≤ responseSize
    decide
  exact meets_iff_of_invariant inv_step (fun s e hs => printed_iff_latest hs e) hstart

def tejo : Server := .new (ascii "tejo") (ascii "127.0.0.1") 9001 9002

/-- A request of the user, and a publication before it is answered. -/
def publishedSince : List Event := [.showLatest (ascii "3"), .publish (ascii "hi")]

/-- **The reply the user asked for** is not printed. -/
theorem reply_lost : ∃ s i, run (step PublishRead.loopback tejo) (start tejo) publishedSince = some s
    ∧ s.outstanding.head? = some (.latest 3) ∧ incoming s (ascii "one") = some i ∧ i.stdout = []
    ∧ ¬Printed s (.arrive (ascii "one")) := by
  have hrun : (run (step PublishRead.loopback tejo) (start tejo) publishedSince).any (fun s =>
      (incoming s (ascii "one")).any fun i =>
        decide (s.outstanding.head? = some (.latest 3) ∧ i.stdout = [])) = true := by
    decide +kernel
  obtain ⟨s, hs, hreceived⟩ := (Option.any_eq_true _ _).mp hrun
  obtain ⟨i, hi, hlost⟩ := (Option.any_eq_true _ _).mp hreceived
  obtain ⟨hhead, hsilent⟩ := of_decide_eq_true hlost
  refine ⟨s, i, hs, hhead, hi, hsilent, ?_⟩
  intro hprinted
  obtain ⟨j, hj, hanswered⟩ := hprinted (.latest 3) hhead
  obtain rfl : i = j := Option.some.inj (hi.symm.trans hj)
  rw [Answered, hsilent, List.prefix_nil] at hanswered
  exact heading_ne_nil 3 hanswered

end ReplyPrinting

end MessageBoard
