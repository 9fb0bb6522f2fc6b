import MessageBoard.Lib.CScan
import MessageBoard.Lib.Run
import MessageBoard.StructServer

/-!
# `msgserv/identity`: how a message server joins

What a server sends to the id server, how it reads the list it is sent, and how it connects to the
entries.  What `recvfrom`, `socket`, `connect` and `accept` return is an input of the call.  A
function that overruns a buffer, reads a null pointer or never returns gives `none`.

* `parseServer_serverLine` — an entry in the format of the id server is read back;
* `parseServers_serversText` — so is a list of entries that fits the buffer;
* `parseServers_eq` — the entries read are put before the list that was there;
* `joinToOldServer_cases` — what the loop does at one entry.
-/

namespace MessageBoard

open CText CScan Run

/-! ### Datagrams to the id server -/

/-- `"%s;%s;%d;%d"`: a server as it is registered and listed. -/
def serverLine (s : Server) : Text :=
  s.name ++ semicolon :: (s.ipAddr ++ semicolon :: (decimal s.udpPort ++ semicolon ::
    decimal s.tcpPort))

/-- `REG_MESSAGE`, which `reg_server` sends without its NUL. -/
def regMessage (host : Server) : Text := ascii "REG" ++ space :: serverLine host

/-- What `reg_server` sends: `REG_MESSAGE` has room for 511 bytes. -/
def regServer (host : Server) : Option Text :=
  if (regMessage host).length < responseSize then some (regMessage host) else none

/-- `update_reg`: the same message with its NUL. -/
def updateReg (host : Server) : Text := regMessage host ++ [nul]

def request : Text := ascii "GET_SERVERS"

/-- What `get_servers` sends. -/
def getServers : Text := request ++ [nul]

/-! ### The list -/

/-- `"%[^;];%[^;];%hu;%hu"`. -/
def serverFormat : List Directive :=
  [.set (· != semicolon) none true, .lit semicolon, .set (· != semicolon) none true,
    .lit semicolon, .ushort, .lit semicolon, .ushort]

/-- One line of the list.  A line that is not scanned whole is scanned again for ever, and a field
of more than 140 bytes overruns its buffer. -/
def parseServer (separatedInfo : Text) : Option Server :=
  match scan serverFormat separatedInfo with
  | [.text name, .text ipAddr, .num udpPort, .num tcpPort] =>
      if name.length < stringSize ∧ ipAddr.length < stringSize then
        some { Server.new name ipAddr udpPort tcpPort with fd := -2, connected := false }
      else none
  | _ => none

/-- The line of one server, which is pushed at the head of the list. -/
def pushServer (msgsrvList : List Server) (separatedInfo : Text) : Option (List Server) :=
  (parseServer separatedInfo).map fun s => s :: msgsrvList

/-- `parse_servers` with the result of `recvfrom`: the returned code and the list. -/
def parseServers (received : Option Text) (msgsrvList : List Server) : Option (ℕ × List Server) :=
  match received with
  | none => some (1, msgsrvList)
  | some datagram =>
      let response := datagram.take responseSize
      if response.length = responseSize ∧ nul ∉ response then none
      else
        match tokens (· == newline) (cstr response) with
        | [] => none
        | header :: lines =>
            if header ≠ ascii "SERVERS" then some (1, msgsrvList)
            else (run pushServer msgsrvList lines).map fun l => (0, l)

/-! ### Connections -/

/-- What the calls of one connection attempt return. -/
structure Outcome where
  socketFd : ℤ
  resolved : Bool
  connected : Bool
  sent : Bool
  deriving DecidableEq, Repr

/-- The attempt opens a connection. -/
def Outcome.opens (o : Outcome) : Bool := o.socketFd != -1 && o.resolved && o.connected

/-- `connect_to_old_server`: the returned status and the entry. -/
def connectToOldServer (o : Outcome) (oldServer : Server) (isCommSent : Bool) : ℤ × Server :=
  if oldServer.fd = -2 then
    if o.socketFd = -1 then (-1, oldServer)
    else
      let r : ℤ × ℤ :=
        if !o.resolved then (1, -1)
        else if !o.connected then (1, -1)
        else if !isCommSent then
          if o.sent then (0, o.socketFd) else (1, -1)
        else (1, o.socketFd)
      (if r.1 = 1 ∧ isCommSent = true then 0 else r.1, { oldServer with fd := r.2 })
  else (if isCommSent then 0 else 1, oldServer)

/-- The body of the loop of `join_to_old_servers` at one entry: the entry and `is_comm_sent` after
it, unless the error is fatal. -/
def joinToOldServer (host : Server) (o : Outcome) (entry : Server) (isCommSent : Bool) :
    Option (Server × Bool) :=
  if differentServers entry host then
    let r := connectToOldServer o entry isCommSent
    if r.1 = 0 then some (r.2, true)
    else if r.1 = 1 then some (r.2, false)
    else none
  else some (entry, isCommSent)

/-- `tcp_new_comm` when a connection waits: `accept` returns a descriptor and the other end. -/
def tcpNewComm (accepted : Option (ℤ × Text × ℕ)) (serversList : List Server) : ℤ × List Server :=
  match accepted with
  | none => (-1, serversList)
  | some (newservFd, ip, port) =>
      let newserv := { Server.new (ascii "Inbound Server") ip 0 port with
        fd := newservFd, connected := true }
      (0, newserv :: serversList)

/-! ### The text of a list -/

/-- What the id server sends. -/
def serversText (servers : List Server) : Text :=
  linesText (ascii "SERVERS" :: servers.map serverLine)

/-- An entry as it stands in the list of a server that joins. -/
def listed (s : Server) : Server := { s with fd := -2, connected := false }

theorem address_listed (s : Server) : (listed s).address = s.address := rfl

def PlainField (field : Text) : Prop :=
  field ≠ [] ∧ field.length < stringSize ∧ semicolon ∉ field ∧ newline ∉ field ∧ nul ∉ field

instance (field : Text) : Decidable (PlainField field) :=
  inferInstanceAs (Decidable (field ≠ [] ∧ field.length < stringSize ∧ semicolon ∉ field
    ∧ newline ∉ field ∧ nul ∉ field))

/-- The fields of the server can be read back from its line. -/
def PlainServer (s : Server) : Prop :=
  PlainField s.name ∧ PlainField s.ipAddr ∧ s.udpPort < 2 ^ 16 ∧ s.tcpPort < 2 ^ 16

instance (s : Server) : Decidable (PlainServer s) :=
  inferInstanceAs (Decidable (PlainField s.name ∧ PlainField s.ipAddr ∧ s.udpPort < 2 ^ 16
    ∧ s.tcpPort < 2 ^ 16))

/-- A field of the line is read up to the next semicolon. -/
theorem scan_field {field : Text} (h : PlainField field) (ds : List Directive) (r : Text) :
    scan (.set (· != semicolon) none true :: .lit semicolon :: ds) (field ++ semicolon :: r)
      = .text field :: scan ds r := by
  rw [scan_set (bne_of_not_mem h.2.2.1) (stops_cons (by simp) r) h.1, scan_lit]

theorem scan_serverLine {s : Server} (h : PlainServer s) :
    scan serverFormat (serverLine s)
      = [.text s.name, .text s.ipAddr, .num s.udpPort, .num s.tcpPort] := by
  obtain ⟨hname, hip, hudp, htcp⟩ := h
  have hlast : scan [.ushort] (decimal s.tcpPort) = [.num s.tcpPort] := by
    have := scan_ushort htcp (stops_nil isDigit) []
    rwa [List.append_nil] at this
  have hsemi : Stops isDigit (semicolon :: decimal s.tcpPort) := stops_cons (by decide) _
  rw [serverFormat, serverLine, scan_field hname, scan_field hip, scan_ushort hudp hsemi, scan_lit,
    hlast]

/-- **An entry in the format of the id server is read back.** -/
theorem parseServer_serverLine {s : Server} (h : PlainServer s) :
    parseServer (serverLine s) = some (listed s) := by
  have hnew : Server.new s.name s.ipAddr s.udpPort s.tcpPort = { s with fd := -1, connected := false } := by
    rw [Server.new, List.take_of_length_le h.1.2.1.le, Nat.mod_eq_of_lt h.2.2.1,
      Nat.mod_eq_of_lt h.2.2.2]
  rw [parseServer, scan_serverLine h]
  show (if _ then _ else _) = _
  rw [if_pos ⟨h.1.2.1, h.2.1.2.1⟩, hnew]
  rfl

/-- A line of plain fields has none of the bytes that would cut it. -/
theorem not_mem_serverLine {s : Server} {b : Byte} (hname : b ∉ s.name) (hip : b ∉ s.ipAddr)
    (hb : isDigit b = false) (hne : b ≠ semicolon) : b ∉ serverLine s := by
  simp [serverLine, hname, hip, hne, not_mem_decimal hb]

theorem serverLine_ne_nil (s : Server) : serverLine s ≠ [] := by simp [serverLine]

/-- The lines of a list have no byte that would split or end them. -/
theorem lines_plain {servers : List Server} (h : ∀ s ∈ servers, PlainServer s) :
    ∀ line ∈ ascii "SERVERS" :: servers.map serverLine, line ≠ [] ∧ newline ∉ line ∧ nul ∉ line := by
  intro line hmem
  rcases List.mem_cons.mp hmem with rfl | hmem
  · decide
  · obtain ⟨s, hs, rfl⟩ := List.mem_map.mp hmem
    obtain ⟨hname, hip, -, -⟩ := h s hs
    exact ⟨serverLine_ne_nil s,
      not_mem_serverLine hname.2.2.2.1 hip.2.2.2.1 (by decide) (by decide),
      not_mem_serverLine hname.2.2.2.2 hip.2.2.2.2 (by decide) (by decide)⟩

theorem tokens_serversText {servers : List Server} (h : ∀ s ∈ servers, PlainServer s) :
    tokens (· == newline) (serversText servers) = ascii "SERVERS" :: servers.map serverLine :=
  tokens_linesText (fun line hline => (lines_plain h line hline).1)
    fun line hline => (lines_plain h line hline).2.1

theorem nul_not_mem_serversText {servers : List Server} (h : ∀ s ∈ servers, PlainServer s) :
    nul ∉ serversText servers :=
  nul_not_mem_linesText fun line hline => (lines_plain h line hline).2.2

/-- Every entry read is put at the head. -/
theorem run_pushServer {servers : List Server} (h : ∀ s ∈ servers, PlainServer s)
    (msgsrvList : List Server) :
    run pushServer msgsrvList (servers.map serverLine)
      = some ((servers.map listed).reverse ++ msgsrvList) := by
  induction servers generalizing msgsrvList with
  | nil => rfl
  | cons s servers ih =>
    have hs : pushServer msgsrvList (serverLine s) = some (listed s :: msgsrvList) := by
      rw [pushServer, parseServer_serverLine (h s (by simp))]
      rfl
    rw [List.map_cons, run_cons, hs, Option.bind_some, ih (fun t ht => h t (by simp [ht])),
      List.map_cons, List.reverse_cons, List.append_assoc]
    rfl

/-- **A list of entries that fits the buffer is read back.** -/
theorem parseServers_serversText {servers : List Server} (h : ∀ s ∈ servers, PlainServer s)
    (hfits : (serversText servers).length < responseSize) (msgsrvList : List Server) :
    parseServers (some (serversText servers)) msgsrvList
      = some (0, (servers.map listed).reverse ++ msgsrvList) := by
  have hcstr : cstr (serversText servers) = serversText servers :=
    cstr_eq_self (nul_not_mem_serversText h)
  have htake : (serversText servers).take responseSize = serversText servers :=
    List.take_of_length_le hfits.le
  simp only [parseServers, htake, hcstr, tokens_serversText h]
  rw [if_neg (fun hfull => hfits.ne hfull.1), if_neg (by simp), run_pushServer h, Option.map_some]

/-! ### What the list becomes -/

/-- A server just read has the descriptor that marks it as not yet connected. -/
theorem fd_of_parseServer {line : Text} {s : Server} (h : parseServer line = some s) :
    s.fd = -2 := by
  rw [parseServer] at h
  split at h
  · split at h
    · rw [← Option.some.inj h]
    · simp at h
  · simp at h

/-- The entries pushed do not depend on the list they are pushed to. -/
theorem run_pushServer_eq {lines : List Text} {l l' : List Server}
    (h : run pushServer l lines = some l') : ∃ new, (∀ s ∈ new, s.fd = -2) ∧ l' = new ++ l
      ∧ ∀ l₁, run pushServer l₁ lines = some (new ++ l₁) := by
  induction lines generalizing l with
  | nil =>
    refine ⟨[], by simp, ?_, fun _ => rfl⟩
    exact (Option.some.inj h).symm
  | cons line lines ih =>
    rw [run_cons] at h
    obtain ⟨l₁, hpush, hrest⟩ := Option.bind_eq_some_iff.mp h
    obtain ⟨s, hs, rfl⟩ := Option.map_eq_some_iff.mp hpush
    obtain ⟨new, hfd, hl', hany⟩ := ih hrest
    refine ⟨new ++ [s], ?_, by simp [hl'], ?_⟩
    · intro t ht
      rcases List.mem_append.mp ht with ht | ht
      · exact hfd t ht
      · exact (List.mem_singleton.mp ht) ▸ fd_of_parseServer hs
    · intro l₂
      rw [run_cons, pushServer, hs, Option.map_some, Option.bind_some, hany]
      simp

/-- **The entries read are put before the list that was there.** -/
theorem parseServers_eq {received : Option Text} {l l' : List Server} {code : ℕ}
    (h : parseServers received l = some (code, l')) : ∃ new, (∀ s ∈ new, s.fd = -2) ∧ l' = new ++ l
      ∧ ∀ l₁, parseServers received l₁ = some (code, new ++ l₁) := by
  cases received with
  | none =>
    rw [parseServers, Option.some.injEq, Prod.mk.injEq] at h
    obtain ⟨rfl, rfl⟩ := h
    exact ⟨[], by simp, rfl, fun l₁ => rfl⟩
  | some datagram =>
    simp only [parseServers] at h ⊢
    split at h
    · simp at h
    · rename_i hbuf
      cases htok : tokens (· == newline) (cstr (datagram.take responseSize)) with
      | nil => simp [htok] at h
      | cons header lines =>
        simp only [htok] at h ⊢
        split at h
        · rename_i hne
          rw [Option.some.injEq, Prod.mk.injEq] at h
          obtain ⟨rfl, rfl⟩ := h
          refine ⟨[], by simp, rfl, ?_⟩
          intro l₁
          rw [if_neg hbuf, if_pos hne]
          rfl
        · rename_i heq
          obtain ⟨l₂, hrun, hpair⟩ := Option.map_eq_some_iff.mp h
          rw [Prod.mk.injEq] at hpair
          obtain ⟨rfl, rfl⟩ := hpair
          obtain ⟨new, hfd, hl', hany⟩ := run_pushServer_eq hrun
          refine ⟨new, hfd, hl', ?_⟩
          intro l₁
          rw [if_neg hbuf, if_neg heq, hany, Option.map_some]

/-! ### What the loop does -/

/-- **What the loop does at one entry**: it passes over an entry that is the host or is connected
already; else the entry gets a descriptor, which is the socket's only if the connection opened. -/
theorem joinToOldServer_cases {host entry entry' : Server} {o : Outcome} {sent sent' : Bool}
    (h : joinToOldServer host o entry sent = some (entry', sent')) :
    (entry' = entry ∧ (differentServers entry host = false ∨ entry.fd ≠ -2))
      ∨ (differentServers entry host = true ∧ entry.fd = -2
        ∧ (entry' = { entry with fd := -1 } ∨ o.opens = true ∧ entry' = { entry with fd := o.socketFd })) := by
  rw [joinToOldServer] at h
  split at h
  · rename_i hdiff
    by_cases hfd : entry.fd = -2
    · right
      refine ⟨hdiff, hfd, ?_⟩
      by_cases hsock : o.socketFd = -1
      · simp [connectToOldServer, hfd, hsock] at h
      · have hentry : entry' = (connectToOldServer o entry sent).2 := by
          dsimp only at h
          split at h
          · exact (Prod.mk.inj (Option.some.inj h)).1.symm
          · split at h
            · exact (Prod.mk.inj (Option.some.inj h)).1.symm
            · simp at h
        rw [hentry, connectToOldServer, if_pos hfd, if_neg hsock]
        by_cases hres : o.resolved = true
        · by_cases hconn : o.connected = true
          · have hopens : o.opens = true := by simp [Outcome.opens, hsock, hres, hconn]
            cases sent with
            | true => exact Or.inr ⟨hopens, by simp [hres, hconn]⟩
            | false =>
              cases hsent : o.sent with
              | true => exact Or.inr ⟨hopens, by simp [hres, hconn]⟩
              | false => exact Or.inl (by simp [hres, hconn])
          · exact Or.inl (by simp [hres, hconn])
        · exact Or.inl (by simp [hres])
    · left
      refine ⟨?_, Or.inr hfd⟩
      cases sent <;> simp [connectToOldServer, hfd] at h <;> exact h.1.symm
  · rename_i hdiff
    rw [Option.some.injEq, Prod.mk.injEq] at h
    exact ⟨h.1.symm, Or.inl (by simpa using hdiff)⟩ |> Or.inl

/-- Only a socket that cannot be created ends the loop. -/
theorem joinToOldServer_isSome {host entry : Server} {o : Outcome} (h : o.socketFd ≠ -1)
    (sent : Bool) : (joinToOldServer host o entry sent).isSome = true := by
  rw [joinToOldServer]
  split
  · rw [connectToOldServer, if_neg h]
    obtain ⟨fd, resolved, connected, written⟩ := o
    cases resolved <;> cases connected <;> cases written <;> cases sent <;>
      by_cases hfd : entry.fd = -2 <;> simp [hfd]
  · rfl

end MessageBoard
