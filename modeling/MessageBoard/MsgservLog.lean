import MessageBoard.MsgservMain
import MessageBoard.ServerLog
import MessageBoard.TcpFraming

/-!
# The processing loop of a message server keeps the log

`ServerLog` has one input after the other; the loop of `msgserv/main` finds them itself.  In a turn it
purges, accepts and joins, takes a datagram if it has joined, and then reads from one peer after the
other what `recv` returns, cut anywhere.  `turnInputs` says what a turn brings, from what the calls of
the kernel return; the board is the log of these inputs, whatever else happens.

* `recvLoop_related` — two dispatches side by side;
`turnHanded` says, from the same calls, what a turn hands to `sendto` and to `write`.

* `connection_performs` — a call of `server_treat_communications` treats what is heard of the peer;
* `turn_performs`, `loop_performs` — a turn treats its inputs and hands out what comes of them, and a
  run does so for those of its turns;
* `loop_refines` — **any run of the loop is a run of the log**, and of what it hands out, every text
  that its buffer holds is what the log answers;
* `loop_reads` — **what a client reads** from a server that runs.
-/

namespace MessageBoard

open CText CScan BoundedLog Run Transducer ReplyWindow MessageLineCodec ServerLog TcpFraming

namespace TcpLoop

/-! ### Two dispatches -/

section Related

variable {σ τ α : Type} {z : α → Bool} {R : σ → τ → Prop} {act : σ → List α → Option σ}
  {act' : τ → List α → Option τ} {s s' : σ} {t : τ}

/-- The texts of a terminator-free stream. -/
def Free (z : α → Bool) (text : List α) : Prop := ∀ b ∈ text, z b = false

theorem free_toAnalyze {toHold token : List α} (hheld : Free z toHold) (htoken : Free z token) :
    Free z (toAnalyze toHold token) := by
  rw [toAnalyze]
  split
  · exact htoken
  · intro b hb
    rcases List.mem_append.mp (List.mem_of_mem_take hb) with hb | hb
    · exact hheld b hb
    · exact htoken b hb

theorem free_holdToken {toHold token held : List α} (hheld : Free z toHold) (htoken : Free z token)
    (h : holdToken toHold token = some held) : Free z held := by
  simp only [holdToken] at h
  split at h
  · rw [← Option.some.inj h]
    intro b hb
    rcases List.mem_append.mp hb with hb | hb
    · exact hheld b hb
    · exact htoken b (List.mem_of_mem_take hb)
  · simp at h

/-- The tokens of one `recv` result, dispatched twice. -/
theorem tokenLoop_related
    (hact : ∀ s t text s', Free z text → R s t → act s text = some s' →
      ∃ t', act' t text = some t' ∧ R s' t')
    {e : Bool} {toHold held : List α} {toks : List (List α)} (hheld : Free z toHold)
    (htoks : ∀ token ∈ toks, Free z token) (hR : R s t)
    (h : tokenLoop act e toHold toks s = some (held, s')) :
    Free z held ∧ ∃ t', tokenLoop act' e toHold toks t = some (held, t') ∧ R s' t' := by
  induction toks generalizing toHold s t with
  | nil =>
    obtain ⟨rfl, rfl⟩ := Prod.mk.inj (Option.some.inj h)
    exact ⟨hheld, t, rfl, hR⟩
  | cons token rest ih =>
    have htoken := htoks token (by simp)
    cases rest with
    | nil =>
      rw [tokenLoop] at h ⊢
      cases e with
      | true =>
        obtain ⟨s₁, hs₁, heq⟩ := Option.map_eq_some_iff.mp h
        obtain ⟨rfl, rfl⟩ := Prod.mk.inj heq
        obtain ⟨t₁, ht₁, hR₁⟩ := hact s t _ s₁ (free_toAnalyze hheld htoken) hR hs₁
        refine ⟨hheld, t₁, ?_, hR₁⟩
        rw [if_pos rfl, ht₁, Option.map_some]
      | false =>
        obtain ⟨held', hhold, heq⟩ := Option.map_eq_some_iff.mp h
        obtain ⟨rfl, rfl⟩ := Prod.mk.inj heq
        refine ⟨free_holdToken hheld htoken hhold, t, ?_, hR⟩
        rw [if_neg Bool.false_ne_true, hhold, Option.map_some]
    | cons next rest =>
      rw [tokenLoop] at h
      obtain ⟨s₁, hs₁, hrest⟩ := Option.bind_eq_some_iff.mp h
      obtain ⟨t₁, ht₁, hR₁⟩ := hact s t _ s₁ (free_toAnalyze hheld htoken) hR hs₁
      obtain ⟨hfree, t', ht', hR'⟩ := ih (by simp [Free])
        (fun token' hmem => htoks token' (List.mem_cons_of_mem _ hmem)) hR₁ hrest
      refine ⟨hfree, t', ?_, hR'⟩
      rw [tokenLoop, ht₁, Option.bind_some, ht']

/-- **Two dispatches side by side**: what they do with a text is related, and so are their runs over
anything that `recv` returns. -/
theorem recvLoop_related {nl : α → Bool} {isOpen : σ → Bool} {isOpen' : τ → Bool}
    (hact : ∀ s t text s', Free z text → R s t → act s text = some s' →
      ∃ t', act' t text = some t' ∧ R s' t')
    (hopen : ∀ s t, R s t → isOpen s = isOpen' t) {toHold held : List α} {chunks : List (List α)}
    (hheld : Free z toHold) (hR : R s t)
    (h : recvLoop nl z act isOpen toHold chunks s = some (held, s')) :
    ∃ t', recvLoop nl z act' isOpen' toHold chunks t = some (held, t') ∧ R s' t' := by
  induction chunks generalizing toHold s t with
  | nil =>
    obtain ⟨rfl, rfl⟩ := Prod.mk.inj (Option.some.inj h)
    exact ⟨t, rfl, hR⟩
  | cons chunk chunks ih =>
    rw [recvLoop] at h ⊢
    rw [hopen s t hR] at h
    cases hcase : isOpen' t with
    | false =>
      rw [hcase, if_neg Bool.false_ne_true] at h
      obtain ⟨rfl, rfl⟩ := Prod.mk.inj (Option.some.inj h)
      exact ⟨t, if_neg Bool.false_ne_true, hR⟩
    | true =>
      rw [hcase, if_pos rfl] at h
      obtain ⟨⟨held₁, s₁⟩, htok, hrest⟩ := Option.bind_eq_some_iff.mp h
      have hfree : ∀ token ∈ tokens nl (cstrBy z chunk), Free z token := by
        intro token htoken b hb
        simpa using List.mem_takeWhile_imp (mem_token_visible htoken b hb)
      obtain ⟨hheld₁, t₁, ht₁, hR₁⟩ := tokenLoop_related hact hheld hfree hR htok
      obtain ⟨t', ht', hR'⟩ := ih hheld₁ hR₁ hrest
      refine ⟨t', ?_, hR'⟩
      rw [if_pos rfl, ht₁, Option.bind_some, ht']

end Related

end TcpLoop

namespace MsgservLog

open TcpLoop

variable {capacity n : ℕ} {b b' : Board}

/-! ### One input -/

/-- One input as the loop has it treated.  A reply that overruns its buffer is sent all the same, and the
run goes on behind it. -/
def treat (b : Board) : Input → Option (Board × Output)
  | .datagram sent datagram =>
      (handleClientComms sent b datagram).map fun r =>
        (r.board, ⟨r.err, r.reply, if r.err = 2 then shareLastMessage r.board else none⟩)
  | .line info =>
      (parseMessage b (cstr info)).map fun r =>
        (r.1, ⟨if r.2.isSome then 0 else 1, none, none⟩)
  | .sgetMessages => some (b, ⟨0, some (handleSgetMessages b), none⟩)

/-- What is sent, and whether the buffer of the reply held it. -/
structure Sent where
  output : Output
  held : Bool

def perform (b : Board) (a : Input) : Option (Board × Sent) :=
  (treat b a).map fun r => (r.1, ⟨r.2, (serve b a).isSome⟩)

/-- A text for who asked, or for every peer. -/
inductive Handed where
  | answered (text : Text)
  | shared (text : Text)

/-- What is handed out for an input. -/
def Sent.handed (s : Sent) : List Handed :=
  s.output.reply.toList.map .answered ++ s.output.shared.toList.map .shared

/-- From one board to the other the inputs are treated, and this is handed out. -/
def Performs (b : Board) (inputs : List Input) (b' : Board) (out : List Handed) : Prop :=
  ∃ sent, respond perform b inputs = some (b', sent) ∧ sent.flatMap Sent.handed = out

theorem Performs.nil (b : Board) : Performs b [] b [] := ⟨[], rfl, rfl⟩

theorem Performs.append {b₁ : Board} {inputs inputs' : List Input} {out out' : List Handed}
    (h : Performs b inputs b₁ out) (h' : Performs b₁ inputs' b' out') :
    Performs b (inputs ++ inputs') b' (out ++ out') := by
  obtain ⟨sent, hrun, rfl⟩ := h
  obtain ⟨sent', hrun', rfl⟩ := h'
  exact ⟨sent ++ sent', respond_append.mpr ⟨b₁, sent, sent', hrun, hrun', rfl⟩, List.flatMap_append⟩

theorem Performs.single {a : Input} {s : Sent} (h : perform b a = some (b', s)) :
    Performs b [a] b' s.handed :=
  ⟨[s], respond_cons_eq_some.mpr ⟨b', s, [], h, rfl, rfl⟩, List.flatMap_singleton _ _⟩

/-- Where `serve` is not refused, the loop does the same. -/
theorem treat_of_serve {a : Input} {r : Board × Output} (h : serve b a = some r) :
    treat b a = some r := by
  cases a with
  | datagram sent datagram =>
    obtain ⟨r₁, hin, rfl⟩ := Option.map_eq_some_iff.mp h
    obtain ⟨r₂, hcomms, hfits⟩ := Option.bind_eq_some_iff.mp hin
    have heq : r₂ = r₁ := by
      split at hfits
      · obtain ⟨-, -, heq⟩ := Option.map_eq_some_iff.mp hfits
        exact heq
      · exact Option.some.inj hfits
    rw [treat, hcomms, heq, Option.map_some]
  | line info => exact h
  | sgetMessages =>
    obtain ⟨-, -, rfl⟩ := Option.map_eq_some_iff.mp h
    rfl

/-- A request for messages leaves the board as it is. -/
theorem board_of_getMessages {sent : Bool} {datagram : Text} {r : ClientResult}
    (h : handleClientComms sent b datagram = some r)
    (hget : (commandOf datagram).1 = ascii "GET_MESSAGES") : r.board = b := by
  have hop : (scanCommand (cstr (datagram.take responseSize))).1 = ascii "GET_MESSAGES" := hget
  have hother : ¬ascii "GET_MESSAGES" = ascii "PUBLISH" := by decide
  simp only [handleClientComms] at h
  rw [hop, if_neg hother, if_pos rfl] at h
  split at h
  · simp at h
  · split at h
    · simp at h
    · rw [← Option.some.inj h]

/-- Only a request overruns the buffer of its reply, and it leaves the board and the log as they are. -/
theorem treat_unserved {a : Input} {o : Output} (s : ServerLog.Server capacity)
    (hserve : serve b a = none) (h : treat b a = some (b', o)) :
    b' = b ∧ (answer s a.command).1 = s := by
  cases a with
  | datagram sent datagram =>
    obtain ⟨r, hcomms, heq⟩ := Option.map_eq_some_iff.mp h
    obtain ⟨rfl, -⟩ := Prod.mk.inj heq
    rw [serve, handleClientCommsIn, hcomms, Option.bind_some, Option.map_eq_none_iff] at hserve
    split at hserve
    · rename_i hget
      have hcommand : (Input.datagram sent datagram).command
          = .read sent (atoi (commandOf datagram).2) := by
        rw [Input.command, if_neg (by rw [hget]; decide), if_pos hget]
      exact ⟨board_of_getMessages hcomms hget, by rw [hcommand, answer]⟩
    · simp at hserve
  | line info =>
    have hnone : treat b (.line info) = none := hserve
    rw [hnone] at h
    simp at h
  | sgetMessages =>
    obtain ⟨rfl, -⟩ := Prod.mk.inj (Option.some.inj h)
    exact ⟨rfl, rfl⟩

/-- **One input of the loop**: the board keeps the log, and a reply that its buffer holds is the log's. -/
theorem perform_simulates : SimulatesBy perform (@answerInput capacity) Represents
    fun sent o => sent.held = true → sent.output = o := by
  rintro n b s a b' sent ⟨history, hkeeps⟩ hstep
  obtain ⟨⟨b₁, o⟩, htreat, heq⟩ := Option.map_eq_some_iff.mp hstep
  obtain ⟨rfl, rfl⟩ := Prod.mk.inj heq
  refine ⟨(answer s a.command).1, (answer s a.command).2, rfl, ?_⟩
  cases hserve : serve b a with
  | some r =>
    have hr : r = (b₁, o) := Option.some.inj ((treat_of_serve hserve).symm.trans htreat)
    rw [hr] at hserve
    obtain ⟨rfl, new, hnew, -⟩ := serve_keeps hkeeps hserve
    exact ⟨⟨_, hnew⟩, fun _ => rfl⟩
  | none =>
    obtain ⟨rfl, hsame⟩ := treat_unserved s hserve htreat
    rw [hsame]
    exact ⟨⟨history, hkeeps.pred⟩, fun hheld => by simp at hheld⟩

/-! ### What is heard of a peer -/

/-- A call of `server_treat_communications`, apart from the board: the flag `sms_state`, whether the
descriptor is open, how many replies were written, and the inputs so far. -/
structure Heard where
  smsState : Bool
  isOpen : Bool
  replies : ℕ
  inputs : List Input

def hear (written : ℕ → Bool) (h : Heard) (text : Text) : Option Heard :=
  some (if h.smsState then { h with inputs := h.inputs ++ [.line text] }
    else if text = sgetCode then
      { h with
        isOpen := h.isOpen && written h.replies
        replies := h.replies + 1
        inputs := h.inputs ++ [.sgetMessages] }
    else if text = smessageCode then { h with smsState := true }
    else h)

/-- The inputs that the results of `recv` bring in one call. -/
def heard (written : ℕ → Bool) (recvs : List Text) : List Input :=
  (recvLoop (· == newline) (· == nul) (hear written) Heard.isOpen [] recvs
    ⟨false, true, 0, []⟩).elim [] fun r => r.2.inputs

/-- What was dispatched so far is what was heard so far. -/
structure Agrees (b : Board) (c : Conn) (h : Heard) : Prop where
  smsState_eq : c.smsState = h.smsState
  isOpen_eq : c.isOpen = h.isOpen
  replies_eq : c.replies.length = h.replies
  performed : Performs b h.inputs c.board (c.replies.map .answered)

/-- **A dispatched text is heard.** -/
theorem Agrees.dispatch {written : ℕ → Bool} {c c' : Conn} {h : Heard} {text : Text}
    (hfree : Free (· == nul) text) (hagrees : Agrees b c h)
    (hdispatch : dispatch written c text = some c') :
    ∃ h', hear written h text = some h' ∧ Agrees b c' h' := by
  obtain ⟨hsms, hopen, hreplies, hperformed⟩ := hagrees
  refine ⟨_, rfl, ?_⟩
  rw [MessageBoard.dispatch, hsms] at hdispatch
  split at hdispatch
  · rename_i hstate
    rw [if_pos hstate]
    obtain ⟨r, hparse, rfl⟩ := Option.map_eq_some_iff.mp hdispatch
    have hperform : perform c.board (.line text)
        = some (r.1, ⟨⟨if r.2.isSome then 0 else 1, none, none⟩, (serve c.board (.line text)).isSome⟩) := by
      rw [perform, treat, show cstr text = text from cstrBy_eq_self hfree, hparse]
      rfl
    have hmore := hperformed.append (Performs.single hperform)
    exact ⟨rfl, hopen, hreplies, by simpa [Sent.handed] using hmore⟩
  · rename_i hstate
    rw [if_neg hstate]
    by_cases hsget : text = sgetCode
    · rw [if_pos hsget] at hdispatch ⊢
      rw [← Option.some.inj hdispatch]
      have hperform : perform c.board .sgetMessages = some (c.board,
          ⟨⟨0, some (handleSgetMessages c.board), none⟩, (serve c.board .sgetMessages).isSome⟩) := rfl
      have hmore := hperformed.append (Performs.single hperform)
      exact
        { smsState_eq := rfl
          isOpen_eq := by rw [hopen, hreplies]
          replies_eq := by rw [List.length_append, hreplies, List.length_singleton]
          performed := by simpa [Sent.handed] using hmore }
    · rw [if_neg hsget] at hdispatch ⊢
      by_cases hsmessage : text = smessageCode
      · rw [if_pos hsmessage] at hdispatch ⊢
        rw [← Option.some.inj hdispatch]
        exact ⟨rfl, hopen, hreplies, hperformed⟩
      · rw [if_neg hsmessage] at hdispatch ⊢
        rw [← Option.some.inj hdispatch]
        exact ⟨hsms, hopen, hreplies, hperformed⟩

/-- **A call of `server_treat_communications`** treats what is heard, and writes the replies to it. -/
theorem connection_performs {written : ℕ → Bool} {recvs : List Text} {peerClosed : Bool} {c : Conn}
    (h : serverTreatCommunications written b recvs peerClosed = some c) :
    Performs b (heard written recvs) c.board (c.replies.map .answered) := by
  obtain ⟨⟨held, c₁⟩, hloop, rfl⟩ := Option.map_eq_some_iff.mp h
  have hstart : Agrees b (Conn.start b) ⟨false, true, 0, []⟩ :=
    ⟨rfl, rfl, rfl, Performs.nil b⟩
  have hact : ∀ c h text c', Free (· == nul) text → Agrees b c h →
      dispatch written c text = some c' → ∃ h', hear written h text = some h' ∧ Agrees b c' h' :=
    fun _ _ _ _ hfree hagrees hdispatch => hagrees.dispatch hfree hdispatch
  obtain ⟨h', hheard, hagrees⟩ := recvLoop_related hact (fun _ _ hR => hR.isOpen_eq)
    (by simp [Free]) hstart hloop
  rw [heard, hheard]
  exact hagrees.performed

/-! ### A turn -/

/-- The inputs of the peers of a list, one peer after the other. -/
def peerInputs (reading : ℤ → Option Reading) (servers : List MessageBoard.Server) : List Input :=
  servers.flatMap fun s => (reading s.fd).elim [] fun r => heard r.written r.recvs

/-- The inputs of a turn: a datagram, taken once the server has joined, and then what is heard of the
peers that the turn has when it comes to them. -/
def turnInputs (host : MessageBoard.Server) (s : MsgservLoop) (t : Turn) : List Input :=
  (if s.isJoinComplete then t.datagram.toList.map (.datagram t.sent) else [])
    ++ (beforeTreat host s t).elim [] fun s₁ => peerInputs t.reading s₁.peers.msgsrvList

/-- The inputs of a run. -/
def loopInputs (host : MessageBoard.Server) : MsgservLoop → List Turn → List Input
  | _, [] => []
  | s, t :: ts => turnInputs host s t ++ (turn host s t).elim [] fun s' => loopInputs host s' ts

/-- What `handle_client_comms` gives to `sendto`, and what is shared when it returned 2. -/
def datagramHanded (t : Turn) (b : Board) : List Handed :=
  (t.datagram.bind (handleClientComms t.sent b)).elim [] fun r =>
    r.reply.toList.map .answered
      ++ (if r.err = 2 then shareLastMessage r.board else none).toList.map .shared

/-- What `server_treat_communications` writes to a peer. -/
def serverHanded (reading : ℤ → Option Reading) (s : MessageBoard.Server) (st : Treated) :
    List Handed :=
  ((reading s.fd).bind fun r =>
    serverTreatCommunications r.written st.board r.recvs r.peerClosed).elim [] fun c =>
      c.replies.map .answered

/-- What is written to the peers of a list, one peer after the other. -/
def peersHanded (reading : ℤ → Option Reading) : List MessageBoard.Server → Treated → List Handed
  | [], _ => []
  | s :: rest, st =>
      serverHanded reading s st
        ++ (treatServer reading s st).elim [] fun q => peersHanded reading rest q.2

/-- What a turn hands out. -/
def turnHanded (host : MessageBoard.Server) (s : MsgservLoop) (t : Turn) : List Handed :=
  (if s.isJoinComplete then datagramHanded t s.board else [])
    ++ (beforeTreat host s t).elim [] fun s₁ =>
      peersHanded t.reading s₁.peers.msgsrvList ⟨s₁.board, s₁.peers.opened⟩

/-- What a run hands out. -/
def loopHanded (host : MessageBoard.Server) : MsgservLoop → List Turn → List Handed
  | _, [] => []
  | s, t :: ts => turnHanded host s t ++ (turn host s t).elim [] fun s' => loopHanded host s' ts

variable {host : MessageBoard.Server}

/-- A peer that is read, or is not ready. -/
theorem treatServer_performs {reading : ℤ → Option Reading} {s : MessageBoard.Server} {st : Treated}
    {r : MessageBoard.Server × Treated} (h : treatServer reading s st = some r) :
    Performs st.board ((reading s.fd).elim [] fun r => heard r.written r.recvs) r.2.board
      (serverHanded reading s st) := by
  rw [treatServer] at h
  rw [serverHanded]
  cases hreading : reading s.fd with
  | none =>
    rw [hreading] at h
    rw [← Option.some.inj h]
    exact Performs.nil st.board
  | some read =>
    rw [hreading] at h
    obtain ⟨c, hconn, rfl⟩ := Option.map_eq_some_iff.mp h
    have hboard : (if c.isOpen then (s, (⟨c.board, st.opened⟩ : Treated))
        else (closeCommunication s, ⟨c.board, closeFd s.fd st.opened⟩)).2.board = c.board := by
      split <;> rfl
    rw [hboard, Option.elim_some, Option.bind_some, hconn, Option.elim_some]
    exact connection_performs hconn

/-- **`for_each_element`**: the peers of a list are treated one after the other. -/
theorem peers_perform {reading : ℤ → Option Reading} {servers : List MessageBoard.Server}
    {st : Treated} {r : List MessageBoard.Server × Treated}
    (h : forEachElement (treatServer reading) servers st = some r) :
    Performs st.board (peerInputs reading servers) r.2.board (peersHanded reading servers st) := by
  induction servers generalizing st r with
  | nil =>
    rw [← Option.some.inj h]
    exact Performs.nil st.board
  | cons s rest ih =>
    obtain ⟨q, r', hq, hr', rfl⟩ := forEachElement_cons h
    have hrest := ih hr'
    rw [peersHanded, hq, Option.elim_some]
    exact (treatServer_performs hq).append hrest

/-- A datagram, shared or not. -/
theorem handleDatagram_performs {t : Turn} {p : Peers} {r : Board × Peers}
    (h : handleDatagram t b p = some r) :
    Performs b (t.datagram.toList.map (.datagram t.sent)) r.1 (datagramHanded t b) := by
  rw [handleDatagram] at h
  rw [datagramHanded]
  cases hdatagram : t.datagram with
  | none =>
    rw [hdatagram] at h
    rw [← Option.some.inj h]
    exact Performs.nil b
  | some datagram =>
    rw [hdatagram] at h
    obtain ⟨result, hcomms, hshare⟩ := Option.bind_eq_some_iff.mp h
    have hboard : r.1 = result.board := by
      split at hshare
      · obtain ⟨q, -, rfl⟩ := Option.map_eq_some_iff.mp hshare
        rfl
      · rw [← Option.some.inj hshare]
    have hperform : perform b (.datagram t.sent datagram) = some (result.board,
        ⟨⟨result.err, result.reply, if result.err = 2 then shareLastMessage result.board else none⟩,
          (serve b (.datagram t.sent datagram)).isSome⟩) := by
      rw [perform, treat, hcomms]
      rfl
    rw [hboard, Option.bind_some, hcomms]
    exact Performs.single hperform

/-- The purge, a new connection and a line of the operator leave the board as it is. -/
theorem beforeTreat_performs {s s₁ : MsgservLoop} {t : Turn} (h : beforeTreat host s t = some s₁) :
    Performs s.board (if s.isJoinComplete then t.datagram.toList.map (.datagram t.sent) else [])
      s₁.board (if s.isJoinComplete then datagramHanded t s.board else []) := by
  rw [beforeTreat] at h
  split at h
  · simp at h
  · obtain ⟨p, -, h⟩ := Option.bind_eq_some_iff.mp h
    obtain ⟨l, -, h⟩ := Option.bind_eq_some_iff.mp h
    obtain ⟨d, hdatagram, rfl⟩ := Option.map_eq_some_iff.mp h
    split at hdatagram
    · rename_i hjoined
      rw [if_pos hjoined, if_pos hjoined]
      exact handleDatagram_performs hdatagram
    · rename_i hjoined
      rw [if_neg hjoined, if_neg hjoined, ← Option.some.inj hdatagram]
      exact Performs.nil s.board

/-- **A turn treats its inputs**, and hands out what comes of them. -/
theorem turn_performs {s s' : MsgservLoop} {t : Turn} (h : turn host s t = some s') :
    Performs s.board (turnInputs host s t) s'.board (turnHanded host s t) := by
  obtain ⟨s₁, hbefore, htreat⟩ := Option.bind_eq_some_iff.mp h
  obtain ⟨r, hpeers, rfl⟩ := Option.map_eq_some_iff.mp htreat
  rw [turnInputs, turnHanded, hbefore]
  exact (beforeTreat_performs hbefore).append (peers_perform hpeers)

/-- **A run treats the inputs of its turns**, and hands out what comes of them. -/
theorem loop_performs {s s' : MsgservLoop} {ts : List Turn} (h : run (turn host) s ts = some s') :
    Performs s.board (loopInputs host s ts) s'.board (loopHanded host s ts) := by
  induction ts generalizing s with
  | nil =>
    rw [← Option.some.inj h]
    exact Performs.nil s.board
  | cons t ts ih =>
    rw [run_cons] at h
    obtain ⟨s₁, hturn, hrest⟩ := Option.bind_eq_some_iff.mp h
    rw [loopInputs, loopHanded, hturn]
    exact (turn_performs hturn).append (ih hrest)

/-- Joining before the loop leaves the board as it is. -/
theorem board_start {daemonMode : Option Join} {s₀ : MsgservLoop}
    (h : MsgservLoop.start host b daemonMode = some s₀) : s₀.board = b := by
  cases daemonMode with
  | none => rw [← Option.some.inj h]
  | some j =>
    obtain ⟨r, -, rfl⟩ := Option.map_eq_some_iff.mp h
    rfl

/-! ### Any run of the loop -/

variable {daemonMode : Option Join} {ts : List Turn} {s₀ s : MsgservLoop}

/-- The loop is entered with the board of an empty log. -/
theorem represents_start (hcap : 0 < capacity) (hint : capacity < 2 ^ 31) (overflow : Bool)
    (hstart : MsgservLoop.start host ⟨0, .createMatrix capacity hcap overflow⟩ daemonMode = some s₀)
    (hn : n < 2 ^ 31) : Represents n s₀.board (.start : ServerLog.Server capacity) := by
  rw [board_start hstart]
  exact ⟨[], keeps_start hcap hint overflow hn⟩

/-- **Any run of the loop is a run of the log**, whatever the operator types, whoever connects, and
however the texts of the peers are cut: the functions treat the inputs of the run, what the run hands out
is what comes of them, every reply that its buffer holds and everything shared is what the log answers,
and the board keeps the messages of the log. -/
theorem loop_refines (hcap : 0 < capacity) (hint : capacity < 2 ^ 31) (overflow : Bool)
    (hstart : MsgservLoop.start host ⟨0, .createMatrix capacity hcap overflow⟩ daemonMode = some s₀)
    (hrun : run (turn host) s₀ ts = some s) (hfew : (loopInputs host s₀ ts).length < 2 ^ 31) :
    ∃ (sent : List Sent) (outputs : List Output) (server : ServerLog.Server capacity),
      respond perform s₀.board (loopInputs host s₀ ts) = some (s.board, sent)
        ∧ loopHanded host s₀ ts = sent.flatMap Sent.handed
        ∧ respond answerInput .start (loopInputs host s₀ ts) = some (server, outputs)
        ∧ List.Forall₂ (fun sent o => sent.held = true → sent.output = o) sent outputs
        ∧ Represents 0 s.board server := by
  obtain ⟨sent, hperform, hhanded⟩ := loop_performs hrun
  obtain ⟨server, outputs, hanswer, hend, hsame⟩ := respond_simulatesBy (n := 0) perform_simulates
    (represents_start hcap hint overflow hstart (by omega)) hperform
  exact ⟨sent, outputs, server, hperform, hhanded.symm, hanswer, hsame, hend⟩

/-- A server that the id server lists, connected as descriptor 7. -/
def joinPeer : Join where
  registered := true
  received := some (serversText [.new (ascii "old") (ascii "peer.lan") 9000 10000])
  outcome := fun _ => ⟨7, true, true, true⟩

def boardServer : MessageBoard.Server := .new (ascii "board") (ascii "10.0.0.1") 9000 10000

/-- A publication and a line of the peer cut in two, then a connection and a request of the peer. -/
def publishTurns : List Turn :=
  [{ accepted := none
     line := some .other
     datagram := some (ascii "PUBLISH one")
     sent := true
     writes := fun _ => true
     reading := fun fd => if fd = 7 then
       some ⟨[ascii "SMESSAGES" ++ newline :: ascii "7;t", ascii "wo" ++ [newline]], false, fun _ => true⟩
       else none },
   { accepted := some (8, ascii "10.0.0.3", 40000)
     line := none
     datagram := none
     sent := true
     writes := fun _ => true
     reading := fun fd => if fd = 7 then
       some ⟨[ascii "SGET_MESSAGES" ++ [newline]], false, fun _ => true⟩ else none }]

/-- The run reaches a state that the request reads from. -/
theorem publishTurns_run : ∃ s₀ s, MsgservLoop.start boardServer
    ⟨0, .createMatrix 2 (by decide) false⟩ (some joinPeer) = some s₀
      ∧ run (turn boardServer) s₀ publishTurns = some s
      ∧ (loopInputs boardServer s₀ publishTurns).length = 3
      ∧ (handleClientCommsIn true s.board (ascii "GET_MESSAGES 5")).isSome = true := by
  have hall : (MsgservLoop.start boardServer ⟨0, .createMatrix 2 (by decide) false⟩
      (some joinPeer)).any (fun s₀ => (run (turn boardServer) s₀ publishTurns).any fun s =>
        decide ((loopInputs boardServer s₀ publishTurns).length = 3
          ∧ (handleClientCommsIn true s.board (ascii "GET_MESSAGES 5")).isSome = true)) = true := by
    decide +kernel
  obtain ⟨s₀, hstart, hloop⟩ := (Option.any_eq_true _ _).mp hall
  obtain ⟨s, hrun, hlast⟩ := (Option.any_eq_true _ _).mp hloop
  obtain ⟨hlength, hreply⟩ := of_decide_eq_true hlast
  exact ⟨s₀, s, hstart, hrun, hlength, hreply⟩

theorem loop_refines_publishTurns : ∃ s₀ s, MsgservLoop.start boardServer
    ⟨0, .createMatrix 2 (by decide) false⟩ (some joinPeer) = some s₀
      ∧ run (turn boardServer) s₀ publishTurns = some s
      ∧ ∃ (sent : List Sent) (outputs : List Output) (server : ServerLog.Server 2),
        respond perform s₀.board (loopInputs boardServer s₀ publishTurns) = some (s.board, sent)
          ∧ loopHanded boardServer s₀ publishTurns = sent.flatMap Sent.handed
          ∧ respond answerInput .start (loopInputs boardServer s₀ publishTurns)
            = some (server, outputs)
          ∧ List.Forall₂ (fun sent o => sent.held = true → sent.output = o) sent outputs
          ∧ Represents 0 s.board server := by
  obtain ⟨s₀, s, hstart, hrun, hlength, -⟩ := publishTurns_run
  exact ⟨s₀, s, hstart, hrun, loop_refines (by decide) (by decide) false hstart hrun (by omega)⟩

end MsgservLog

end MessageBoard
