import MessageBoard.IdservMain
import MessageBoard.MsgservIdentity

/-!
# Asking for the list again

The two functions `get_servers`, with what `recvfrom` and the clock return as inputs.  The one of a
message server waits in a loop and sends something after a timeout; the one of a client asks in every
turn of its loop.

* `getServers_sent`, `getServers_answer` — what the retries of a message server send, and that an
  answer ends the loop;
* `request_repeated_iff` — **the retries ask for the list exactly if there are none**;
* `Rmb.request_repeated` — a client asks in every turn.
-/

namespace MessageBoard

open CText

namespace ListRequest

/-- What a call of `get_servers` has done: the datagrams that its retries gave to `sendto`, and what
it returned, if it has. -/
structure Call where
  sent : List Text
  returned : Option (Option Text)
  deriving DecidableEq

/-! ### A message server -/

/-- One turn of the loop: what `recvfrom` returns, and the three readings of the clock behind a
timeout. -/
structure Turn where
  received : Option Text
  controlNow : ℤ
  requestNow : ℤ
  resetNow : ℤ
  deriving DecidableEq

/-- The loop, with `control_time` and `request_time`. -/
def awaitServers (host : Server) (controlTime : ℤ) : ℤ → List Turn → Call
  | _, [] => ⟨[], none⟩
  | requestTime, t :: turns =>
      match t.received with
      | some response => ⟨[], some (some response)⟩
      | none =>
          if t.controlNow - controlTime > 10 then ⟨[], some none⟩
          else if t.requestNow - requestTime > 2 then
            -- `update_reg`, which always returns 0
            let r := awaitServers host controlTime t.resetNow turns
            ⟨updateReg host :: r.sent, r.returned⟩
          else ⟨[], some none⟩

/-- `get_servers` of a message server; `requested` says whether `sendto` takes the first request. -/
def getServers (host : Server) (requested : Bool) (controlTime requestTime : ℤ) (turns : List Turn) :
    Call :=
  if requested then awaitServers host controlTime requestTime turns else ⟨[], some none⟩

/-- A timeout, more than two seconds after the last request and no more than ten after the first. -/
def Retries (controlTime requestTime : ℤ) (t : Turn) : Prop :=
  t.received = none ∧ t.controlNow - controlTime ≤ 10 ∧ 2 < t.requestNow - requestTime

instance (controlTime requestTime : ℤ) (t : Turn) : Decidable (Retries controlTime requestTime t) :=
  inferInstanceAs (Decidable (t.received = none ∧ t.controlNow - controlTime ≤ 10
    ∧ 2 < t.requestNow - requestTime))

/-- **A turn of the loop**: it goes on behind a retry, and behind nothing else. -/
theorem awaitServers_cons (host : Server) (controlTime requestTime : ℤ) (t : Turn) (turns : List Turn) :
    awaitServers host controlTime requestTime (t :: turns)
      = if Retries controlTime requestTime t then
          ⟨updateReg host :: (awaitServers host controlTime t.resetNow turns).sent,
            (awaitServers host controlTime t.resetNow turns).returned⟩
        else ⟨[], some t.received⟩ := by
  rw [awaitServers]
  cases hreceived : t.received with
  | some response => simp [Retries, hreceived]
  | none =>
    simp only [Retries, hreceived, true_and]
    by_cases hcontrol : t.controlNow - controlTime > 10
    · rw [if_pos hcontrol, if_neg (by omega)]
    · rw [if_neg hcontrol]
      by_cases hrequest : t.requestNow - requestTime > 2
      · rw [if_pos hrequest, if_pos (by omega)]
      · rw [if_neg hrequest, if_neg (by omega)]

/-- **What the retries send** is the registration. -/
theorem getServers_sent {host : Server} {requested : Bool} {controlTime requestTime : ℤ}
    {turns : List Turn} {datagram : Text}
    (h : datagram ∈ (getServers host requested controlTime requestTime turns).sent) :
    datagram = updateReg host := by
  rw [getServers] at h
  split at h
  · induction turns generalizing requestTime with
    | nil => simp [awaitServers] at h
    | cons t turns ih =>
      rw [awaitServers_cons] at h
      split at h
      · rcases List.mem_cons.mp h with rfl | h
        · rfl
        · exact ih h
      · simp at h
  · simp at h

/-- **An answer ends the loop**, and is returned. -/
theorem getServers_answer {host : Server} {controlTime requestTime : ℤ} {before rest : List Turn}
    {t : Turn} {response : Text}
    (hwaits : (getServers host true controlTime requestTime before).returned = none)
    (hreceived : t.received = some response) :
    (getServers host true controlTime requestTime (before ++ t :: rest)).returned
      = some (some response) := by
  rw [getServers, if_pos rfl] at hwaits ⊢
  induction before generalizing requestTime with
  | nil =>
    rw [List.nil_append, awaitServers_cons, if_neg (by simp [Retries, hreceived]), hreceived]
  | cons t' before ih =>
    rw [awaitServers_cons] at hwaits
    rw [List.cons_append, awaitServers_cons]
    split at hwaits
    · rename_i hretries
      rw [if_pos hretries]
      exact ih hwaits
    · simp at hwaits

/-! ### The id server -/

/-- The id server answers the datagram, whatever is left in its buffer. -/
def Answered (datagram : Text) : Prop :=
  ∀ buf, (Idserv.handleUDPConn buf datagram).map Prod.snd = some .serverRequest

theorem answered_request : Answered MessageBoard.getServers := by
  intro buf
  have hreg : Idserv.startContains (MessageBoard.getServers ++ buf.drop 12) 4 (ascii "REG") = false := by
    show decide (ascii "REG" <:+: ascii "GET_") = false
    decide
  have hget : Idserv.startContains (MessageBoard.getServers ++ buf.drop 12) 11 (ascii "GET_SERVERS")
      = true := by
    show decide (ascii "GET_SERVERS" <:+: ascii "GET_SERVERS") = true
    decide
  have htake : MessageBoard.getServers.take Idserv.bufSize = MessageBoard.getServers := by decide
  have hlength : MessageBoard.getServers.length = 12 := by decide
  simp only [Idserv.handleUDPConn, htake, hlength, hreg, hget, Bool.false_eq_true, if_false, if_true]
  rfl

/-- A registration is not answered. -/
theorem not_answered_updateReg (host : Server) (buf : Text) :
    (Idserv.handleUDPConn buf (updateReg host)).map Prod.snd ≠ some .serverRequest := by
  have hstart (rest : Text) : Idserv.startContains ((updateReg host).take Idserv.bufSize ++ rest) 4
      (ascii "REG") = true := by
    show decide (ascii "REG" <:+: ascii "REG ") = true
    decide
  simp only [Idserv.handleUDPConn, hstart, if_true]
  split <;> simp

theorem updateReg_ne_request (host : Server) : updateReg host ≠ MessageBoard.getServers := by
  intro heq
  apply not_answered_updateReg host []
  rw [heq]
  exact answered_request []

/-! ### The retries -/

/-- The retries of the run send `GET_SERVERS`, which the id server answers; and an answer that comes
while the call waits is returned. -/
def Repeats (host : Server) (requested : Bool) (controlTime requestTime : ℤ) (turns : List Turn) :
    Prop :=
  (∀ datagram ∈ (getServers host requested controlTime requestTime turns).sent,
      datagram = MessageBoard.getServers ∧ Answered datagram)
    ∧ ∀ before t rest response, turns = before ++ t :: rest → t.received = some response →
      (getServers host requested controlTime requestTime before).returned = none →
      (getServers host requested controlTime requestTime turns).returned = some (some response)

/-- **A lost request is repeated exactly if there is no retry**: the first `recvfrom` does not time
out at a time at which the loop tries again. -/
theorem request_repeated_iff (host : Server) (requested : Bool) (controlTime requestTime : ℤ)
    (turns : List Turn) : Repeats host requested controlTime requestTime turns
      ↔ (requested = true → ∀ t ∈ turns.head?, ¬Retries controlTime requestTime t) := by
  have hanswer : ∀ before t rest response, turns = before ++ t :: rest → t.received = some response →
      (getServers host requested controlTime requestTime before).returned = none →
      (getServers host requested controlTime requestTime turns).returned = some (some response) := by
    rintro before t rest response rfl hreceived hwaits
    cases requested with
    | false => simp [getServers] at hwaits
    | true => exact getServers_answer hwaits hreceived
  rw [Repeats, and_iff_left hanswer]
  constructor
  · rintro hrepeats rfl t ht hretries
    obtain ⟨rest, rfl⟩ : ∃ rest, turns = t :: rest := List.head?_eq_some_iff.mp ht
    have hfirst : updateReg host ∈ (getServers host true controlTime requestTime (t :: rest)).sent := by
      rw [getServers, if_pos rfl, awaitServers_cons, if_pos hretries]
      exact List.mem_cons_self
    exact updateReg_ne_request host (hrepeats _ hfirst).1
  · intro hnone datagram hdatagram
    rw [getServers] at hdatagram
    split at hdatagram
    · rename_i hrequested
      cases turns with
      | nil => simp [awaitServers] at hdatagram
      | cons t rest =>
        rw [awaitServers_cons, if_neg (hnone hrequested t rfl)] at hdatagram
        simp at hdatagram
    · simp at hdatagram

/-- **The request is lost**, and every later turn of the call registers the server again. -/
theorem registered_again :
    ¬∀ (host : Server) (requested : Bool) (controlTime requestTime : ℤ) (turns : List Turn),
      Repeats host requested controlTime requestTime turns := by
  intro h
  have hrepeats := h (.new (ascii "board") (ascii "10.0.0.1") 9000 10000) true 0 0
    [⟨none, 3, 3, 3⟩, ⟨none, 6, 6, 6⟩, ⟨none, 9, 9, 9⟩, ⟨none, 12, 12, 12⟩]
  have hsent := hrepeats.1 (updateReg (.new (ascii "board") (ascii "10.0.0.1") 9000 10000))
    (by decide +kernel)
  exact updateReg_ne_request _ hsent.1

end ListRequest

/-! ### A client -/

namespace Rmb

/-- One turn of the loop of a client: the clock, whether `sendto` takes the request, what `recvfrom`
returns, and whether its error says that nothing is there. -/
structure RequestTurn where
  now : ℤ
  taken : Bool
  received : Option Text
  wouldBlock : Bool

/-- `get_servers` of a client. -/
def requestServers (controlTime : ℤ) : List RequestTurn → ListRequest.Call
  | [] => ⟨[], none⟩
  | t :: turns =>
      if t.now - controlTime < 10 then
        if !t.taken then ⟨[MessageBoard.getServers], some none⟩
        else
          match t.received with
          | some response => ⟨[MessageBoard.getServers], some (some response)⟩
          | none =>
              if t.wouldBlock then
                let r := requestServers controlTime turns
                ⟨MessageBoard.getServers :: r.sent, r.returned⟩
              else ⟨[MessageBoard.getServers], some none⟩
      else ⟨[], some none⟩

/-- **A client asks in every turn.** -/
theorem request_repeated (controlTime : ℤ) (turns : List RequestTurn) :
    ∀ datagram ∈ (requestServers controlTime turns).sent,
      datagram = MessageBoard.getServers ∧ ListRequest.Answered datagram := by
  have hall : ∀ datagram ∈ (requestServers controlTime turns).sent,
      datagram = MessageBoard.getServers := by
    induction turns with
    | nil => simp [requestServers]
    | cons t turns ih =>
      intro datagram hdatagram
      rw [requestServers] at hdatagram
      split at hdatagram
      · split at hdatagram
        · exact List.mem_singleton.mp hdatagram
        · split at hdatagram
          · exact List.mem_singleton.mp hdatagram
          · split at hdatagram
            · rcases List.mem_cons.mp hdatagram with rfl | hdatagram
              · rfl
              · exact ih datagram hdatagram
            · exact List.mem_singleton.mp hdatagram
      · simp at hdatagram
  intro datagram hdatagram
  have heq := hall datagram hdatagram
  exact ⟨heq, heq ▸ ListRequest.answered_request⟩

end Rmb

end MessageBoard
