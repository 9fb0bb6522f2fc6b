import MessageBoard.MsgservIdentity
import MessageBoard.UtilList

/-!
# `rmb/identity`: the list of servers of a client

`fetch_servers` of the client, and `parse_servers` of a message server once more over the linked list
both programs share.  A field that overruns its buffer gives `none`.

* `parseServersInto_nodes` — the two readings of the message server's parser agree.
-/

namespace MessageBoard

open CText CScan

namespace Rmb

/-- A field does not fit its `STRING_SIZE` bytes. -/
def overruns (fields : List Field) : Bool :=
  fields.any fun f =>
    match f with
    | .text t => stringSize ≤ t.length
    | .num _ => false

/-- The loop of `parse_servers` over the lines after the first.  A line that is not scanned whole
ends it. -/
def parseLines (msgservList : LinkedList Server) : List Text → Option (LinkedList Server)
  | [] => some msgservList
  | separatedInfo :: rest =>
      let fields := scan serverFormat separatedInfo
      if overruns fields then none
      else
        match fields with
        | [.text name, .text ipAddr, .num udpPort, .num tcpPort] =>
            parseLines (msgservList.pushItem
              { Server.new name ipAddr udpPort tcpPort with fd := -2, connected := false }) rest
        | _ => some msgservList

/-- `parse_servers`: the first line is not looked at. -/
def parseServers (idServInfo : Text) : Option (LinkedList Server) :=
  parseLines .createList ((tokens (· == newline) idServInfo).drop 1)

/-- The string in `response`, when a NUL follows its 512 bytes. -/
def responseText (datagram : Text) : Text := cstr (datagram.take responseSize)

/-- What `get_servers` returns for a datagram.  Where its 512 bytes have no NUL, `strlen` and `strncpy`
run out of `response`. -/
def getServers (datagram : Text) : Option Text :=
  let response := datagram.take responseSize
  if response.length = responseSize ∧ nul ∉ response then none else some (responseText datagram)

/-- `fetch_servers`: `NULL` when nothing was received. -/
def fetchServers (received : Option Text) : Option (Option (LinkedList Server)) :=
  match received with
  | none => some none
  | some datagram => ((getServers datagram).bind parseServers).map some

theorem getServers_of_lt {datagram : Text} (h : datagram.length < responseSize) :
    getServers datagram = some (responseText datagram) :=
  if_neg fun hfull => by
    rw [List.length_take] at hfull
    omega

/-- A list that is fetched was read from a datagram. -/
theorem parseServers_of_fetchServers {received : Option Text} {l : LinkedList Server}
    (h : fetchServers received = some (some l)) :
    ∃ datagram, received = some datagram ∧ getServers datagram = some (responseText datagram)
      ∧ parseServers (responseText datagram) = some l := by
  cases received with
  | none => simp [fetchServers] at h
  | some datagram =>
    obtain ⟨l', hbind, hl⟩ := Option.map_eq_some_iff.mp h
    obtain rfl := Option.some.inj hl
    obtain ⟨text, htext, hparse⟩ := Option.bind_eq_some_iff.mp hbind
    have hresponse : text = responseText datagram := by
      simp only [getServers] at htext
      split at htext
      · simp at htext
      · exact (Option.some.inj htext).symm
    exact ⟨datagram, rfl, hresponse ▸ htext, hresponse ▸ hparse⟩

end Rmb

/-- `pushServer` on the linked list. -/
def pushServerInto (msgsrvList : LinkedList Server) (separatedInfo : Text) :
    Option (LinkedList Server) :=
  (parseServer separatedInfo).map fun s => msgsrvList.pushItem s

/-- `parse_servers` of a message server on the linked list. -/
def parseServersInto (received : Option Text) (msgsrvList : LinkedList Server) :
    Option (ℕ × LinkedList Server) :=
  match received with
  | none => some (1, msgsrvList)
  | some datagram =>
      let response := datagram.take responseSize
      if response.length = responseSize ∧ nul ∉ response then none
      else
        match tokens (· == newline) (cstr response) with
        | [] => none
        | header :: lines =>
            if header ≠ ascii "SERVERS" then some (1, msgsrvList)
            else (Run.run pushServerInto msgsrvList lines).map fun l => (0, l)

theorem run_pushServerInto_nodes (l : LinkedList Server) (lines : List Text) :
    (Run.run pushServerInto l lines).map LinkedList.nodes = Run.run pushServer l.nodes lines := by
  induction lines generalizing l with
  | nil => rfl
  | cons line lines ih =>
    rw [Run.run_cons, Run.run_cons, pushServerInto, pushServer]
    cases parseServer line with
    | none => rfl
    | some s => exact ih (l.pushItem s)

/-- **The two readings agree.** -/
theorem parseServersInto_nodes (received : Option Text) (l : LinkedList Server) :
    (parseServersInto received l).map (fun r => (r.1, r.2.nodes)) = parseServers received l.nodes := by
  cases received with
  | none => rfl
  | some datagram =>
    simp only [parseServersInto, parseServers]
    split
    · rfl
    · cases tokens (· == newline) (cstr (datagram.take responseSize)) with
      | nil => rfl
      | cons header lines =>
        dsimp only
        split
        · rfl
        · rw [← run_pushServerInto_nodes, Option.map_map, Option.map_map]
          rfl

end MessageBoard
