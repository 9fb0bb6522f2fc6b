import MessageBoard.RegistrationCodec
import MessageBoard.RegistryEntries
import MessageBoard.RmbSelected
import MessageBoard.ServerListCodec

/-!
# From a registration to the server a client talks to

Any number of message servers register at one identity server, whose goroutines interleave as they will,
and any number of clients fetch its list, when they start and whenever they run out of servers.  The
network may lose datagrams, repeat them, deliver them late and to others: `datagrams` has all that was
sent to the identity server, and a client may be given any reply that was ever sent.  Nobody else sends
to them.

* `served_step` — what holds of every registration that is read holds of every server of every reply;
* `known_of_reply` — a list names servers that registered, but the last port has lost a digit or more;
* `sent_to_registered` — **a client sends to servers that registered**, to no others;
* `joins_other_port` — **a server that joins has none of the ports it should connect to.**
-/

namespace MessageBoard

open CText CScan Run

namespace Idserv

/-! ### What the identity server serves -/

variable {P Q : Server → Prop} {grow : ℕ → ℕ} {sys sys' : Sys}

/-- What a handler has in its slice and what it has written are servers with `P`. -/
def Serves (P : Server → Prop) (heap : List (List Server)) : Handler → Prop
  | .writing servers _ buffer => InArray heap servers ∧ (∀ srv ∈ contents heap servers, P srv)
      ∧ ∃ written, (∀ srv ∈ written, P srv) ∧ buffer = reply written
  | .done datagram => ∃ written, (∀ srv ∈ written, P srv) ∧ datagram = reply written
  | .asking => True
  | .waiting => True

/-- Every server between a registrar and a reply has `P`. -/
structure Served (P : Server → Prop) (sys : Sys) : Prop where
  inArray : InArray sys.heap sys.servers
  servers : ∀ srv ∈ contents sys.heap sys.servers, P srv
  serverRecv : ∀ srv ∈ sys.serverRecv, P srv
  registrars : ∀ srv, .sending srv ∈ sys.registrars → P srv
  handlers : ∀ handler ∈ sys.handlers, Serves P sys.heap handler

theorem Serves.mono {heap : List (List Server)} {handler : Handler} (h : Serves P heap handler)
    (hPQ : ∀ srv, P srv → Q srv) : Serves Q heap handler := by
  cases handler with
  | writing servers k buffer =>
    obtain ⟨hin, hcontents, written, hwritten, htext⟩ := h
    exact ⟨hin, fun srv hsrv => hPQ srv (hcontents srv hsrv), written,
      fun srv hsrv => hPQ srv (hwritten srv hsrv), htext⟩
  | done datagram =>
    obtain ⟨written, hwritten, htext⟩ := h
    exact ⟨written, fun srv hsrv => hPQ srv (hwritten srv hsrv), htext⟩
  | asking => trivial
  | waiting => trivial

theorem Served.mono (h : Served P sys) (hPQ : ∀ srv, P srv → Q srv) : Served Q sys where
  inArray := h.inArray
  servers := fun srv hsrv => hPQ srv (h.servers srv hsrv)
  serverRecv := fun srv hsrv => hPQ srv (h.serverRecv srv hsrv)
  registrars := fun srv hsrv => hPQ srv (h.registrars srv hsrv)
  handlers := fun handler hmem => (h.handlers handler hmem).mono hPQ

theorem served_start : Served P start where
  inArray := ⟨by decide, by decide⟩
  servers := by simp [start, contents, Slice.nil]
  serverRecv := by simp [start]
  registrars := by simp [start]
  handlers := by simp [start]

/-- `main` appends a server: a handler finds it in its slice, if anything new. -/
theorem Serves.append {heap : List (List Server)} {handler : Handler} (h : Serves P heap handler)
    (s : Slice) {srv : Server} (hsrv : P srv) : Serves P (append grow heap s srv).1 handler := by
  cases handler with
  | writing servers k buffer =>
    obtain ⟨hin, hcontents, hwritten⟩ := h
    obtain ⟨hin', hsub⟩ := contents_append_subset grow hin s srv
    refine ⟨hin', fun x hx => ?_, hwritten⟩
    rcases hsub x hx with hold | rfl
    · exact hcontents x hold
    · exact hsrv
  | done datagram => exact h
  | asking => trivial
  | waiting => trivial

/-- One handler moves on. -/
theorem serves_set {heap : List (List Server)} {handlers : List Handler}
    (h : ∀ handler ∈ handlers, Serves P heap handler) (i : ℕ) {new : Handler}
    (hnew : Serves P heap new) : ∀ handler ∈ handlers.set i new, Serves P heap handler := by
  intro handler hmem
  rcases List.mem_or_eq_of_mem_set hmem with hold | rfl
  · exact h handler hold
  · exact hnew

theorem Served.readFromUDP (h : Served P sys) {datagram buf : Text} {command : Command}
    (hread : handleUDPConn sys.buf datagram = some (buf, command))
    (hP : ∀ srv, register sys.buf datagram = some srv → P srv) :
    Served P (sys.dispatch buf command) := by
  cases command with
  | registration data =>
    refine ⟨h.inArray, h.servers, h.serverRecv, ?_, h.handlers⟩
    intro srv hsrv
    rcases List.mem_append.mp hsrv with hold | hnew
    · exact h.registrars srv hold
    · have hregister : register sys.buf datagram = handleRegistrations data := by
        rw [register, hread]
      apply hP
      rw [hregister]
      cases hdata : handleRegistrations data with
      | none => simp [hdata] at hnew
      | some other =>
        rw [hdata, Option.elim_some, List.mem_singleton] at hnew
        rw [Registrar.sending.inj hnew]
  | serverRequest =>
    refine ⟨h.inArray, h.servers, h.serverRecv, h.registrars, ?_⟩
    intro handler hmem
    rcases List.mem_append.mp hmem with hold | hnew
    · exact h.handlers handler hold
    · rw [List.mem_singleton.mp hnew]
      trivial
  | unknown => exact ⟨h.inArray, h.servers, h.serverRecv, h.registrars, h.handlers⟩

theorem Served.addServer (h : Served P sys) {serverToAdd : Server} {rest : List Server}
    (hrecv : sys.serverRecv = serverToAdd :: rest) :
    Served P (sys.addServer grow serverToAdd rest) := by
  have hadd : P serverToAdd := h.serverRecv _ (by simp [hrecv])
  obtain ⟨hin, hcontents⟩ := @contents_append grow sys.heap sys.servers h.inArray serverToAdd
  refine ⟨hin, ?_, fun srv hsrv => h.serverRecv srv ?_, h.registrars,
    fun handler hmem => (h.handlers handler hmem).append _ hadd⟩
  · intro srv hsrv
    have hmem : srv ∈ contents sys.heap sys.servers ++ [serverToAdd] := hcontents ▸ hsrv
    rcases List.mem_append.mp hmem with hold | hnew
    · exact h.servers srv hold
    · rw [List.mem_singleton.mp hnew]
      exact hadd
  · rw [hrecv]
    exact List.mem_cons_of_mem _ hsrv

theorem Served.writeLine (h : Served P sys) {i k : ℕ} {servers : Slice} {buffer : Text}
    (hwriting : sys.handlers[i]? = some (.writing servers k buffer)) :
    Served P (sys.setHandler i (if k < servers.len then
      .writing servers (k + 1) (buffer ++ lineAt sys.heap servers k) else .done buffer)) := by
  obtain ⟨hin, hcontents, written, hwritten, htext⟩ :=
    h.handlers _ (List.mem_of_getElem? hwriting)
  refine ⟨h.inArray, h.servers, h.serverRecv, h.registrars, serves_set h.handlers i ?_⟩
  split
  · rename_i hk
    obtain ⟨srv, hsrv, -, hline⟩ := nextElement_writing hin hk buffer
    refine ⟨hin, hcontents, written ++ [srv], ?_, by rw [hline, htext, reply_concat]⟩
    intro x hx
    rcases List.mem_append.mp hx with hx | hx
    · exact hwritten x hx
    · rw [List.mem_singleton.mp hx]
      exact hcontents srv hsrv
  · exact ⟨written, hwritten, htext⟩

/-- **What holds of every registration that is read holds of every server of every reply.** -/
theorem served_step {a : Action} (h : Served P sys)
    (hP : ∀ datagram, a = .readFromUDP datagram →
      ∀ srv, register sys.buf datagram = some srv → P srv)
    (hstep : step grow sys a = some sys') : Served P sys' := by
  cases stepped_of_step hstep with
  | readFromUDP hread => exact h.readFromUDP hread (hP _ rfl)
  | @sendServer i srv hsending =>
    have hsrv : P srv := h.registrars srv (List.mem_of_getElem? hsending)
    refine ⟨h.inArray, h.servers, ?_, ?_, h.handlers⟩
    · intro x hx
      rcases List.mem_append.mp hx with hx | hx
      · exact h.serverRecv x hx
      · rw [List.mem_singleton.mp hx]
        exact hsrv
    · intro x hx
      rcases List.mem_or_eq_of_mem_set hx with hold | hdone
      · exact h.registrars x hold
      · simp at hdone
  | timer hmain =>
    refine ⟨⟨h.inArray.1, Nat.zero_le _⟩, ?_, h.serverRecv, h.registrars, h.handlers⟩
    simp [Sys.wipe, contents]
  | addServer hmain hrecv => exact h.addServer hrecv
  | ask hmain hasking =>
    exact ⟨h.inArray, h.servers, h.serverRecv, h.registrars, serves_set h.handlers _ trivial⟩
  | reply hmain hwaiting =>
    exact ⟨h.inArray, h.servers, h.serverRecv, h.registrars,
      serves_set h.handlers _ ⟨h.inArray, h.servers, [], by simp, reply_nil.symm⟩⟩
  | handOver hasking hwaiting =>
    have hnil : Serves P sys.heap (.writing .nil 0 (ascii "SERVERS" ++ [newline])) :=
      ⟨⟨Nat.zero_lt_of_lt h.inArray.1, Nat.zero_le _⟩, by simp [contents, Slice.nil], [], by simp,
        reply_nil.symm⟩
    exact ⟨h.inArray, h.servers, h.serverRecv, h.registrars,
      serves_set (serves_set h.handlers _ hnil) _ trivial⟩
  | writeLine hwriting => exact h.writeLine hwriting

end Idserv

namespace Directory

open Idserv RegistrationCodec ServerListCodec

/-! ### The system -/

/-- A message server whose fields can be registered and listed. -/
structure Host where
  server : MessageBoard.Server
  registrable : Registrable server
  length_name : server.name.length ≤ 140
  length_ipAddr : server.ipAddr.length ≤ 140

structure Sys where
  idserv : Idserv.Sys
  /-- What was sent to the identity server. -/
  datagrams : List Text
  /-- The clients that run. -/
  terminals : ℕ → Option Rmb.Terminal
  /-- What each client sent, and to which server. -/
  sent : ℕ → List (MessageBoard.Server × Text)

inductive Action where
  /-- `reg_server` of a message server. -/
  | regServer (i : ℕ)
  /-- `update_reg`. -/
  | updateReg (i : ℕ)
  /-- `get_servers` of a message server or a client. -/
  | getServers
  /-- A step of the identity server. -/
  | idserv (a : Idserv.Action)
  /-- A client starts with a reply. -/
  | launch (c : ℕ) (stdin : Text) (handler rand : ℕ)
  /-- A client searches, and if it needs another list, gets a reply or none. -/
  | search (c : ℕ) (rand : ℕ → ℕ) (handler : Option ℕ)
  /-- Any other turn of a client. -/
  | turn (c : ℕ) (w : Rmb.Wakeup)

/-- `fetch_servers` of a client that gets the reply of a handler. -/
def fetched (sys : Idserv.Sys) (handler : ℕ) : Option (List MessageBoard.Server) :=
  match sys.handlers[handler]? with
  | some (.done datagram) => (Rmb.fetchServers (some datagram)).bind fun l => l.map LinkedList.nodes
  | _ => none

/-- A turn of a client. -/
def Sys.turn (inetAton : Text → Bool) (sys : Sys) (c : ℕ) (w : Rmb.Wakeup) : Option Sys :=
  (sys.terminals c).bind fun t =>
    (Rmb.terminalTurn inetAton t w).map fun r =>
      { sys with
        terminals := Function.update sys.terminals c (some r.1)
        sent := Function.update sys.sent c (sys.sent c ++ r.2) }

/-- What the identity server reads was sent to it. -/
def Sys.arrives (sys : Sys) : Idserv.Action → Bool
  | .readFromUDP datagram => sys.datagrams.contains datagram
  | _ => true

section Step

variable (inetAton : Text → Bool) (grow : ℕ → ℕ) (hosts : ℕ → Host)

def step (sys : Sys) : Action → Option Sys
  | .regServer i =>
      (MessageBoard.regServer (hosts i).server).map fun datagram =>
        { sys with datagrams := sys.datagrams ++ [datagram] }
  | .updateReg i =>
      -- `REG_MESSAGE` was written by `reg_server`
      if sys.datagrams.contains (regMessage (hosts i).server) then
        some { sys with datagrams := sys.datagrams ++ [MessageBoard.updateReg (hosts i).server] }
      else none
  | .getServers => some { sys with datagrams := sys.datagrams ++ [MessageBoard.getServers] }
  | .idserv a =>
      if sys.arrives a then
        (Idserv.step grow sys.idserv a).map fun idserv => { sys with idserv := idserv }
      else none
  | .launch c stdin handler rand =>
      match sys.terminals c with
      | some _ => none
      | none =>
          (fetched sys.idserv handler).map fun servers =>
            { sys with
              terminals := Function.update sys.terminals c (some ⟨.start servers rand, stdin⟩) }
  | .search c rand handler =>
      match handler with
      | none => sys.turn inetAton c (.search rand none)
      | some handler =>
          (fetched sys.idserv handler).bind fun servers =>
            sys.turn inetAton c (.search rand (some servers))
  | .turn c w =>
      match w with
      | .search _ _ => none
      | _ => sys.turn inetAton c w

end Step

/-- Nobody has registered. -/
def start : Sys where
  idserv := Idserv.start
  datagrams := []
  terminals := fun _ => none
  sent := fun _ => []

/-! ### What an entry names -/

/-- The entry has the name and the address of `host`, but the last port has lost digits. -/
structure Names (host s : MessageBoard.Server) : Prop where
  name : s.name = host.name
  ipAddr : s.ipAddr = host.ipAddr
  udpPort : s.udpPort = host.udpPort
  tcpPort : ∃ j, 0 < j ∧ s.tcpPort = host.tcpPort / 10 ^ j

/-- The entry names a server that registered. -/
def Known (hosts : ℕ → Host) (datagrams : List Text) (s : MessageBoard.Server) : Prop :=
  ∃ i, regMessage (hosts i).server ∈ datagrams ∧ Names (hosts i).server s

/-- A server of the identity server that names one. -/
structure Entered (hosts : ℕ → Host) (datagrams : List Text) (srv : Idserv.Server) : Prop where
  wellFormed : WellFormed srv
  known : Known hosts datagrams (serverOf srv)

variable {hosts : ℕ → Host} {datagrams : List Text} {s : MessageBoard.Server}

theorem Known.mono (h : Known hosts datagrams s) (more : List Text) :
    Known hosts (datagrams ++ more) s := by
  obtain ⟨i, hreg, hnames⟩ := h
  exact ⟨i, List.mem_append_left more hreg, hnames⟩

theorem Entered.mono {srv : Idserv.Server} (h : Entered hosts datagrams srv) (more : List Text) :
    Entered hosts (datagrams ++ more) srv :=
  ⟨h.wellFormed, h.known.mono more⟩

/-- The last port of an entry is smaller than the one of the server. -/
theorem Names.tcpPort_lt {host : MessageBoard.Server} (h : Names host s) (hpos : 1 ≤ host.tcpPort) :
    s.tcpPort < host.tcpPort := by
  obtain ⟨j, hj, heq⟩ := h.tcpPort
  rw [heq]
  exact Nat.div_lt_self hpos (Nat.one_lt_pow hj.ne' (by decide))

/-- A host without some digits of its last port. -/
theorem entered_of_cut (hosts : ℕ → Host) {i j : ℕ} (hj : 0 < j)
    (hreg : regMessage (hosts i).server ∈ datagrams) :
    Entered hosts datagrams ⟨(hosts i).server.name, (hosts i).server.ipAddr, (hosts i).server.udpPort,
      ((hosts i).server.tcpPort / 10 ^ j : ℕ)⟩ := by
  obtain ⟨⟨hname, hsemi, hnl, hnul⟩, ⟨hip, hsemi', hnl', hnul'⟩, ⟨-, hudp⟩, -, htcp⟩ :=
    (hosts i).registrable
  have hle : (hosts i).server.tcpPort / 10 ^ j ≤ (hosts i).server.tcpPort := Nat.div_le_self _ _
  obtain ⟨port, hport⟩ : ∃ port, port = (hosts i).server.tcpPort / 10 ^ j := ⟨_, rfl⟩
  rw [← hport] at hle ⊢
  constructor
  · refine ⟨⟨List.length_pos_iff.mpr hname, (hosts i).length_name, hsemi, hnl, hnul⟩,
      ⟨List.length_pos_iff.mpr hip, (hosts i).length_ipAddr, hsemi', hnl', hnul'⟩, ?_, ?_⟩
    · dsimp only
      omega
    · dsimp only
      omega
  · exact ⟨i, hreg, rfl, rfl, rfl, j, hj, hport⟩

theorem register_getServers (buf : Text) : register buf MessageBoard.getServers = none := by
  have hread : (handleUDPConn buf MessageBoard.getServers).map Prod.snd = some .serverRequest := by
    have htake : ∀ n, n ≤ 12 → ∀ rest : Text,
        (MessageBoard.getServers ++ rest).take n = MessageBoard.getServers.take n :=
      fun n hn rest => List.take_append_of_le_length hn
    have hall : MessageBoard.getServers.take bufSize = MessageBoard.getServers := by decide
    simp only [handleUDPConn, hall, startContains, htake 4 (by decide), htake 11 (by decide)]
    rfl
  rw [register]
  obtain ⟨⟨buf', command⟩, hr, hsnd⟩ := Option.map_eq_some_iff.mp hread
  rw [hr, show command = .serverRequest from hsnd]

/-! ### What is sent to the identity server -/

/-- A registration, with or without its NUL, or a request for the list. -/
def Datagram (hosts : ℕ → Host) (datagrams : List Text) (datagram : Text) : Prop :=
  datagram = MessageBoard.getServers
    ∨ ∃ i, regMessage (hosts i).server ∈ datagrams
      ∧ (regMessage (hosts i).server).length < responseSize
      ∧ (datagram = regMessage (hosts i).server ∨ datagram = MessageBoard.updateReg (hosts i).server)

theorem Datagram.mono {datagram : Text} (h : Datagram hosts datagrams datagram) (more : List Text) :
    Datagram hosts (datagrams ++ more) datagram := by
  rcases h with h | ⟨i, hreg, hfits, heq⟩
  · exact Or.inl h
  · exact Or.inr ⟨i, List.mem_append_left more hreg, hfits, heq⟩

theorem nul_not_mem_regMessage (host : Host) : nul ∉ regMessage host.server := by
  have hline := not_mem_serverLine host.registrable.1.2.2.2 host.registrable.2.1.2.2.2
    (show isDigit nul = false by decide) (by decide)
  simp only [regMessage, List.mem_append, List.mem_cons, not_or]
  exact ⟨by decide, by decide, hline⟩

/-- Only `reg_server` sends a datagram without a NUL. -/
theorem Datagram.fits {i : ℕ} (h : Datagram hosts datagrams (regMessage (hosts i).server)) :
    (regMessage (hosts i).server).length < responseSize := by
  have hnul := nul_not_mem_regMessage (hosts i)
  rcases h with hrequest | ⟨k, -, hfits, heq | hupdate⟩
  · rw [hrequest] at hnul
    exact absurd (by decide) hnul
  · rw [heq]
    exact hfits
  · rw [hupdate, MessageBoard.updateReg] at hnul
    exact absurd (by simp) hnul

/-- **What the identity server enters** for a datagram names the server that sent it. -/
theorem entered_of_register {datagram buf : Text} (h : Datagram hosts datagrams datagram)
    {srv : Idserv.Server} (hsrv : register buf datagram = some srv) : Entered hosts datagrams srv := by
  rcases h with rfl | ⟨i, hreg, hfits, rfl | rfl⟩
  · rw [register_getServers] at hsrv
    simp at hsrv
  · have hentered := entered_eq buf (hosts i).registrable hfits
    rw [entered, regServer, if_pos hfits, Option.bind_some, hsrv] at hentered
    split at hentered
    · simp at hentered
    · rw [Option.some.inj hentered]
      exact entered_of_cut hosts (j := 2) (by decide) hreg
  · have hupdated := updated_eq buf (hosts i).registrable hfits
    rw [updated, regServer, if_pos hfits, Option.bind_some, hsrv] at hupdated
    split at hupdated
    · simp at hupdated
    · rw [Option.some.inj hupdated]
      exact entered_of_cut hosts (j := 1) (by decide) hreg

/-! ### What a reader makes of a reply -/

theorem plain_of_entered {registry : List Idserv.Server}
    (h : ∀ srv ∈ registry, Entered hosts datagrams srv) : ∀ s ∈ registry.map serverOf, PlainServer s :=
  plainServers fun srv hsrv => (h srv hsrv).wellFormed

theorem reply_of_entered {registry : List Idserv.Server}
    (h : ∀ srv ∈ registry, Entered hosts datagrams srv) :
    reply registry = serversText (registry.map serverOf) :=
  reply_eq fun srv hsrv => (h srv hsrv).wellFormed

/-- **A list names servers that registered.** -/
theorem known_of_reply {registry : List Idserv.Server} (h : ∀ srv ∈ registry, Entered hosts datagrams srv)
    {l : LinkedList MessageBoard.Server}
    (hfetched : Rmb.fetchServers (some (reply registry)) = some (some l)) :
    ∀ s ∈ l.nodes, Known hosts datagrams s := by
  have hplain := plain_of_entered h
  rw [reply_of_entered h, Rmb.fetchServers] at hfetched
  by_cases hfits : (serversText (registry.map serverOf)).length < responseSize
  · rw [parseServers_getServers hplain hfits, Option.map_some, Option.some.injEq,
      Option.some.injEq] at hfetched
    intro s hs
    rw [← hfetched, nodes_pushServers, map_listed_serverOf, LinkedList.nodes_createList,
      List.append_nil, List.mem_reverse] at hs
    obtain ⟨srv, hsrv, rfl⟩ := List.mem_map.mp hs
    exact (h srv hsrv).known
  · simp only [Rmb.getServers] at hfetched
    rw [if_pos (full_serversText hplain (by omega))] at hfetched
    simp at hfetched

/-! ### The invariant -/

structure Inv (hosts : ℕ → Host) (sys : Sys) : Prop where
  datagrams : ∀ datagram ∈ sys.datagrams, Datagram hosts sys.datagrams datagram
  served : Served (Entered hosts sys.datagrams) sys.idserv
  clients : ∀ c t, sys.terminals c = some t →
    ∃ entries, Rmb.Safe entries t.client ∧ ∀ s ∈ entries, Known hosts sys.datagrams s
  sent : ∀ c, ∀ sd ∈ sys.sent c, Known hosts sys.datagrams sd.1

variable {inetAton : Text → Bool} {grow : ℕ → ℕ} {sys sys' : Sys}

theorem inv_start : Inv hosts start where
  datagrams := by simp [start]
  served := served_start
  clients := by simp [start]
  sent := by simp [start]

/-- Something is sent to the identity server. -/
theorem Inv.send (h : Inv hosts sys) {datagram : Text}
    (hnew : Datagram hosts (sys.datagrams ++ [datagram]) datagram) :
    Inv hosts { sys with datagrams := sys.datagrams ++ [datagram] } where
  datagrams := by
    intro d hd
    rcases List.mem_append.mp hd with hold | hd
    · exact (h.datagrams d hold).mono _
    · rw [List.mem_singleton.mp hd]
      exact hnew
  served := h.served.mono fun srv hsrv => hsrv.mono _
  clients := by
    intro c t ht
    obtain ⟨entries, hsafe, hentries⟩ := h.clients c t ht
    exact ⟨entries, hsafe, fun s hs => (hentries s hs).mono _⟩
  sent := fun c sd hsd => (h.sent c sd hsd).mono _

/-- A list that is fetched names servers that registered. -/
theorem Inv.fetched (h : Inv hosts sys) {handler : ℕ} {servers : List MessageBoard.Server}
    (hfetched : fetched sys.idserv handler = some servers) :
    ∀ s ∈ servers, Known hosts sys.datagrams s := by
  rw [Directory.fetched] at hfetched
  split at hfetched
  · rename_i datagram hdone
    obtain ⟨registry, hregistry, rfl⟩ := h.served.handlers _ (List.mem_of_getElem? hdone)
    obtain ⟨l, hl, hservers⟩ := Option.bind_eq_some_iff.mp hfetched
    obtain ⟨nodes, rfl, rfl⟩ := Option.map_eq_some_iff.mp hservers
    exact known_of_reply hregistry hl
  · simp at hfetched

/-- A turn of a client, with a list of such servers if it gets one. -/
theorem Inv.turn (h : Inv hosts sys) {c : ℕ} {w : Rmb.Wakeup}
    (hfetched : ∀ s ∈ w.fetched, Known hosts sys.datagrams s)
    (hturn : sys.turn inetAton c w = some sys') : Inv hosts sys' := by
  obtain ⟨t, ht, hrest⟩ := Option.bind_eq_some_iff.mp hturn
  obtain ⟨⟨t', out⟩, hout, rfl⟩ := Option.map_eq_some_iff.mp hrest
  obtain ⟨entries, hsafe, hentries⟩ := h.clients c t ht
  obtain ⟨hsafe', hsent⟩ := Rmb.safe_terminalTurn hsafe hout
  refine ⟨h.datagrams, h.served, ?_, ?_⟩
  · intro d t₁ ht₁
    dsimp only at ht₁
    by_cases hd : d = c
    · subst hd
      rw [Function.update_self, Option.some.injEq] at ht₁
      subst ht₁
      refine ⟨_, hsafe', fun s hs => ?_⟩
      rcases List.mem_append.mp hs with hs | hs
      · exact hentries s hs
      · exact hfetched s hs
    · rw [Function.update_of_ne hd] at ht₁
      exact h.clients d t₁ ht₁
  · intro d sd hsd
    dsimp only at hsd
    by_cases hd : d = c
    · subst hd
      rw [Function.update_self] at hsd
      rcases List.mem_append.mp hsd with hsd | hsd
      · exact h.sent d sd hsd
      · exact hentries _ (hsafe.entries _ (hsent sd hsd).1)
    · rw [Function.update_of_ne hd] at hsd
      exact h.sent d sd hsd

/-- **Every step.** -/
theorem inv_step {a : Action} (h : Inv hosts sys) (hstep : step inetAton grow hosts sys a = some sys') :
    Inv hosts sys' := by
  cases a with
  | regServer i =>
    obtain ⟨datagram, hreg, rfl⟩ := Option.map_eq_some_iff.mp hstep
    rw [MessageBoard.regServer] at hreg
    split at hreg
    · rename_i hfits
      obtain rfl := Option.some.inj hreg
      exact h.send (Or.inr ⟨i, List.mem_append_right _ (by simp), hfits, Or.inl rfl⟩)
    · simp at hreg
  | updateReg i =>
    rw [step] at hstep
    split at hstep
    · rename_i hreg
      rw [List.contains_iff_mem] at hreg
      obtain rfl := Option.some.inj hstep
      exact h.send (Or.inr ⟨i, List.mem_append_left _ hreg, (h.datagrams _ hreg).fits, Or.inr rfl⟩)
    · simp at hstep
  | getServers =>
    obtain rfl := Option.some.inj hstep
    exact h.send (Or.inl rfl)
  | idserv a =>
    rw [step] at hstep
    split at hstep
    · rename_i harrives
      obtain ⟨idserv, hidserv, rfl⟩ := Option.map_eq_some_iff.mp hstep
      refine ⟨h.datagrams, served_step h.served ?_ hidserv, h.clients, h.sent⟩
      rintro datagram rfl srv hsrv
      rw [Sys.arrives, List.contains_iff_mem] at harrives
      exact entered_of_register (h.datagrams datagram harrives) hsrv
    · simp at hstep
  | launch c stdin handler rand =>
    rw [step] at hstep
    split at hstep
    · simp at hstep
    · obtain ⟨servers, hservers, rfl⟩ := Option.map_eq_some_iff.mp hstep
      refine ⟨h.datagrams, h.served, ?_, h.sent⟩
      intro d t ht
      dsimp only at ht
      by_cases hd : d = c
      · subst hd
        rw [Function.update_self, Option.some.injEq] at ht
        subst ht
        exact ⟨servers, Rmb.safe_start servers rand, h.fetched hservers⟩
      · rw [Function.update_of_ne hd] at ht
        exact h.clients d t ht
  | search c rand handler =>
    cases handler with
    | none => exact h.turn (by simp [Rmb.Wakeup.fetched]) hstep
    | some handler =>
      obtain ⟨servers, hservers, hturn⟩ := Option.bind_eq_some_iff.mp hstep
      exact h.turn (h.fetched hservers) hturn
  | turn c w =>
    cases w with
    | search rand fetched => simp [step] at hstep
    | selectError => exact h.turn (by simp [Rmb.Wakeup.fetched]) hstep
    | timer => exact h.turn (by simp [Rmb.Wakeup.fetched]) hstep
    | ready incoming typed => exact h.turn (by simp [Rmb.Wakeup.fetched]) hstep

theorem inv_run {acts : List Action} (hrun : run (step inetAton grow hosts) start acts = some sys) :
    Inv hosts sys :=
  run_invariant (fun _ _ _ h hstep => inv_step h hstep) inv_start hrun

/-! ### Clients and servers that join -/

variable {acts : List Action}

/-- **A server that joins has a wrong port of every server**: each entry it reads from a reply names a
server that registered, with a last port that is smaller than the one that server listens on. -/
theorem joins_other_port (hrun : run (step inetAton grow hosts) start acts = some sys) {handler : ℕ}
    {datagram : Text} (hreply : sys.idserv.handlers[handler]? = some (.done datagram))
    {l l' : List MessageBoard.Server} {code : ℕ}
    (hparse : parseServers (some datagram) l = some (code, l')) :
    ∃ entries, l' = entries ++ l ∧ ∀ s ∈ entries, ∃ i, regMessage (hosts i).server ∈ sys.datagrams
      ∧ Names (hosts i).server s ∧ s.tcpPort < (hosts i).server.tcpPort := by
  obtain ⟨registry, hregistry, rfl⟩ := (inv_run hrun).served.handlers _ (List.mem_of_getElem? hreply)
  have hplain := plain_of_entered hregistry
  rw [reply_of_entered hregistry] at hparse
  by_cases hfits : (serversText (registry.map serverOf)).length < responseSize
  · rw [parseServers_serversText hplain hfits, map_listed_serverOf, Option.some.injEq,
      Prod.mk.injEq] at hparse
    refine ⟨_, hparse.2.symm, fun s hs => ?_⟩
    obtain ⟨srv, hsrv, rfl⟩ := List.mem_map.mp (List.mem_reverse.mp hs)
    obtain ⟨i, hreg, hnames⟩ := (hregistry srv hsrv).known
    exact ⟨i, hreg, hnames, hnames.tcpPort_lt (hosts i).registrable.2.2.2.1⟩
  · simp only [parseServers] at hparse
    rw [if_pos (full_serversText hplain (by omega))] at hparse
    simp at hparse

/-! ### A run -/

def board : Host :=
  ⟨.new (ascii "board") (ascii "10.0.0.1") 9000 10000, by decide +kernel, by decide, by decide⟩

/-- A server registers, and a client is given the list and publishes. -/
def registeredAndUsed : List Action :=
  [.regServer 0, .idserv (.readFromUDP (regMessage board.server)), .idserv (.sendServer 0),
    .idserv .addServer, .getServers, .idserv (.readFromUDP MessageBoard.getServers), .idserv (.ask 0),
    .idserv (.reply 0), .idserv (.writeLine 0), .idserv (.writeLine 0), .launch 3 (ascii "2 a\n") 0 0,
    .turn 3 (.ready none (some (true, true)))]

theorem joins_other_port_used : ∃ sys datagram,
    run (step (fun _ => true) id fun _ => board) start registeredAndUsed = some sys
      ∧ sys.idserv.handlers[0]? = some (.done datagram)
      ∧ ∃ l', parseServers (some datagram) [] = some (0, l') ∧ ∃ entries, l' = entries ++ []
        ∧ ∀ s ∈ entries, ∃ i, regMessage ((fun _ : ℕ => board) i).server ∈ sys.datagrams
          ∧ Names board.server s ∧ s.tcpPort < board.server.tcpPort := by
  have hreply : (run (step (fun _ => true) id fun _ => board) start registeredAndUsed).map
      (fun sys => (sys.idserv.handlers[0]?, parseServers (some (reply
        [⟨ascii "board", ascii "10.0.0.1", 9000, 100⟩])) []))
        = some (some (.done (reply [⟨ascii "board", ascii "10.0.0.1", 9000, 100⟩])),
          some (0, [⟨ascii "board", ascii "10.0.0.1", 9000, 100, false, -2⟩])) := by decide +kernel
  obtain ⟨sys, hrun, heq⟩ := Option.map_eq_some_iff.mp hreply
  obtain ⟨hdone, hparse⟩ := Prod.mk.inj heq
  exact ⟨sys, _, hrun, hdone, _, hparse, joins_other_port hrun hdone hparse⟩

end Directory

end MessageBoard
