import MessageBoard.IdservMain
import MessageBoard.MsgservIdentity

/-!
# The registration, from the message server to the identity server

`handleUDPConn` takes two bytes off the end of a datagram.  `reg_server` sends none too many and
`update_reg` one, so both lose digits of the last port.

* `register_regMessage`, `register_updateReg` — what the identity server makes of the two datagrams;
* `registration_never` — **it is never the server that registered.**
-/

namespace MessageBoard

open CText CScan

namespace RegistrationCodec

/-- The fields of a server that can register. -/
def Registrable (host : Server) : Prop :=
  (host.name ≠ [] ∧ semicolon ∉ host.name ∧ newline ∉ host.name ∧ nul ∉ host.name)
    ∧ (host.ipAddr ≠ [] ∧ semicolon ∉ host.ipAddr ∧ newline ∉ host.ipAddr ∧ nul ∉ host.ipAddr)
    ∧ (1 ≤ host.udpPort ∧ host.udpPort < 2 ^ 16) ∧ 1 ≤ host.tcpPort ∧ host.tcpPort < 2 ^ 16

instance (host : Server) : Decidable (Registrable host) :=
  inferInstanceAs (Decidable ((host.name ≠ [] ∧ semicolon ∉ host.name ∧ newline ∉ host.name
    ∧ nul ∉ host.name) ∧ (host.ipAddr ≠ [] ∧ semicolon ∉ host.ipAddr ∧ newline ∉ host.ipAddr
    ∧ nul ∉ host.ipAddr) ∧ (1 ≤ host.udpPort ∧ host.udpPort < 2 ^ 16) ∧ 1 ≤ host.tcpPort
    ∧ host.tcpPort < 2 ^ 16))

/-- The server as the identity server should enter it. -/
def entryOf (host : Server) : Idserv.Server :=
  ⟨host.name, host.ipAddr, host.udpPort, host.tcpPort⟩

/-- What the identity server enters for the datagram of `reg_server`. -/
def entered (buf : Text) (host : Server) : Option Idserv.Server :=
  (regServer host).bind (Idserv.register buf)

/-- What it enters for that of `update_reg`. -/
def updated (buf : Text) (host : Server) : Option Idserv.Server :=
  (regServer host).bind fun _ => Idserv.register buf (updateReg host)

theorem register_eq {buf body : Text} (hlen : 2 ≤ body.length)
    (hfits : body.length + 4 ≤ Idserv.bufSize) :
    Idserv.register buf (ascii "REG " ++ body)
      = Idserv.handleRegistrations (body.take (body.length - 2)) := by
  obtain ⟨r, hr, hsnd⟩ := Option.map_eq_some_iff.mp (Idserv.handleUDPConn_reg buf hlen hfits)
  obtain ⟨buf', command⟩ := r
  subst hsnd
  rw [Idserv.register, hr]

section Cut

variable {host : Server}

/-- What is left of the line when `k` bytes of the last port are cut off. -/
theorem take_serverLine {k : ℕ} (hk : k ≤ (decimal host.tcpPort).length) :
    (serverLine host).take ((serverLine host).length - k)
      = host.name ++ semicolon :: (host.ipAddr ++ semicolon :: (decimal host.udpPort ++ semicolon ::
          (decimal host.tcpPort).take ((decimal host.tcpPort).length - k))) := by
  have hsplit : serverLine host = (host.name ++ semicolon :: (host.ipAddr ++ semicolon ::
      (decimal host.udpPort ++ [semicolon]))) ++ decimal host.tcpPort := by
    simp [serverLine]
  rw [hsplit, List.length_append, Nat.add_sub_assoc hk, List.take_length_add_append]
  simp

/-- The line without what is cut off the last port. -/
theorem handleRegistrations_port (h : Registrable host) {port : Text} (hport : semicolon ∉ port) :
    Idserv.handleRegistrations (host.name ++ semicolon :: (host.ipAddr ++ semicolon ::
        (decimal host.udpPort ++ semicolon :: port)))
      = (Idserv.atoi port).map fun tcpPort => ⟨host.name, host.ipAddr, host.udpPort, tcpPort⟩ := by
  have hudp : Idserv.atoi (decimal host.udpPort) = some (host.udpPort : ℤ) :=
    Idserv.atoi_decimal (by have := h.2.2.1.2; omega)
  rw [Idserv.handleRegistrations_fields h.1.2.1 h.2.1.2.1 (not_mem_decimal (by decide) _) hport, hudp,
    Option.bind_some]

/-- One digit less is a tenth of the port. -/
theorem handleRegistrations_one (h : Registrable host) :
    Idserv.handleRegistrations ((serverLine host).take ((serverLine host).length - 1))
      = if host.tcpPort < 10 then none
        else some ⟨host.name, host.ipAddr, host.udpPort, (host.tcpPort / 10 : ℕ)⟩ := by
  have hlen := length_decimal_eq host.tcpPort
  rw [take_serverLine (by omega)]
  by_cases hten : host.tcpPort < 10
  · rw [if_pos hten] at hlen
    rw [if_pos hten, show (decimal host.tcpPort).length - 1 = 0 by omega, List.take_zero,
      handleRegistrations_port h (by simp), Idserv.atoi_nil, Option.map_none]
  · rw [if_neg hten] at hlen
    have hpos := List.length_pos_iff.mpr (decimal_ne_nil (host.tcpPort / 10))
    have hport : host.tcpPort / 10 < 2 ^ 63 := by
      have := h.2.2.2.2
      omega
    rw [if_neg hten, take_decimal (by omega), pow_one,
      handleRegistrations_port h (not_mem_decimal (by decide) _), Idserv.atoi_decimal hport,
      Option.map_some]

/-- Two digits less are a hundredth of it. -/
theorem handleRegistrations_two (h : Registrable host) :
    Idserv.handleRegistrations ((serverLine host).take ((serverLine host).length - 2))
      = if host.tcpPort < 100 then none
        else some ⟨host.name, host.ipAddr, host.udpPort, (host.tcpPort / 100 : ℕ)⟩ := by
  have hlen := length_decimal_eq host.tcpPort
  by_cases hone : host.tcpPort < 10
  · -- the semicolon before the port goes with its only digit
    have hsplit : serverLine host = (host.name ++ semicolon :: (host.ipAddr ++ semicolon ::
        decimal host.udpPort)) ++ semicolon :: decimal host.tcpPort := by
      simp [serverLine]
    rw [if_pos hone] at hlen
    rw [if_pos (by omega), hsplit, List.length_append, List.length_cons, hlen, Nat.add_sub_cancel,
      List.take_left]
    exact Idserv.handleRegistrations_three h.1.2.1 h.2.1.2.1 (not_mem_decimal (by decide) _)
  · rw [if_neg hone] at hlen
    have htwo := length_decimal_eq (host.tcpPort / 10)
    rw [take_serverLine (by omega)]
    by_cases hhundred : host.tcpPort < 100
    · rw [if_pos (by omega)] at htwo
      rw [if_pos hhundred, show (decimal host.tcpPort).length - 2 = 0 by omega, List.take_zero,
        handleRegistrations_port h (by simp), Idserv.atoi_nil, Option.map_none]
    · rw [if_neg (by omega)] at htwo
      have hpos := List.length_pos_iff.mpr (decimal_ne_nil (host.tcpPort / 10 / 10))
      have hport : host.tcpPort / 100 < 2 ^ 63 := by
        have := h.2.2.2.2
        omega
      rw [if_neg hhundred, take_decimal (by omega), show (10 : ℕ) ^ 2 = 100 by norm_num,
        handleRegistrations_port h (not_mem_decimal (by decide) _), Idserv.atoi_decimal hport,
        Option.map_some]

end Cut

/-! ### The two datagrams -/

/-- **The datagram of `reg_server`** loses two digits of the last port. -/
theorem entered_eq (buf : Text) {host : Server} (h : Registrable host)
    (hfits : (regMessage host).length < responseSize) :
    entered buf host = if host.tcpPort < 100 then none
      else some ⟨host.name, host.ipAddr, host.udpPort, (host.tcpPort / 100 : ℕ)⟩ := by
  have hlen := length_decimal_eq host.tcpPort
  have hreg : regMessage host = ascii "REG " ++ serverLine host := rfl
  have hline : (serverLine host).length + 4 = (regMessage host).length := by
    rw [hreg, List.length_append, Nat.add_comm]
    rfl
  have htwo : 2 ≤ (serverLine host).length := by
    simp only [serverLine, List.length_append, List.length_cons]
    omega
  have hbuf : (serverLine host).length + 4 ≤ Idserv.bufSize := by
    rw [hline]
    exact hfits.le.trans (by decide)
  rw [entered, regServer, if_pos hfits, Option.bind_some, hreg, register_eq htwo hbuf,
    handleRegistrations_two h]

/-- **The datagram of `update_reg`** loses one. -/
theorem updated_eq (buf : Text) {host : Server} (h : Registrable host)
    (hfits : (regMessage host).length < responseSize) :
    updated buf host = if host.tcpPort < 10 then none
      else some ⟨host.name, host.ipAddr, host.udpPort, (host.tcpPort / 10 : ℕ)⟩ := by
  have hlen := length_decimal_eq host.tcpPort
  have hreg : updateReg host = ascii "REG " ++ (serverLine host ++ [nul]) := by
    rw [updateReg, regMessage, ← List.append_assoc]
    rfl
  have hline : (serverLine host).length + 4 = (regMessage host).length := by
    rw [regMessage, List.length_append, List.length_cons]
    show _ = 3 + _
    omega
  have htwo : 2 ≤ (serverLine host).length := by
    simp only [serverLine, List.length_append, List.length_cons]
    omega
  have hbuf : (serverLine host ++ [nul]).length + 4 ≤ Idserv.bufSize := by
    rw [List.length_append, List.length_singleton]
    have : responseSize ≤ Idserv.bufSize := by decide
    omega
  rw [updated, regServer, if_pos hfits, Option.bind_some, hreg, register_eq (by simp; omega) hbuf,
    List.length_append, List.length_singleton, List.take_append_of_le_length (by omega)]
  exact handleRegistrations_one h

/-- **Neither datagram registers the server that sent it.** -/
theorem registration_never (buf : Text) {host : Server} (h : Registrable host) :
    entered buf host ≠ some (entryOf host) ∧ updated buf host ≠ some (entryOf host) := by
  have hport := h.2.2.2.1
  by_cases hfits : (regMessage host).length < responseSize
  · rw [entered_eq buf h hfits, updated_eq buf h hfits]
    constructor
    · split
      · simp
      · simp only [entryOf, ne_eq, Option.some.injEq, Idserv.Server.mk.injEq, Nat.cast_inj, not_and]
        omega
    · split
      · simp
      · simp only [entryOf, ne_eq, Option.some.injEq, Idserv.Server.mk.injEq, Nat.cast_inj, not_and]
        omega
  · simp [entered, updated, regServer, hfits]

def ordinaryHost : Server := .new (ascii "board") (ascii "10.0.0.1") 9000 10000

theorem registration_never_ordinary :
    entered (List.replicate Idserv.bufSize nul) ordinaryHost ≠ some (entryOf ordinaryHost) :=
  (registration_never _ (by decide +kernel)).1

/-- The port 10000 arrives as 100 and as 1000. -/
theorem registration_cut : Registrable ordinaryHost
    ∧ entered (List.replicate Idserv.bufSize nul) ordinaryHost
      = some ⟨ascii "board", ascii "10.0.0.1", 9000, 100⟩
    ∧ updated (List.replicate Idserv.bufSize nul) ordinaryHost
      = some ⟨ascii "board", ascii "10.0.0.1", 9000, 1000⟩
    ∧ entryOf ordinaryHost = ⟨ascii "board", ascii "10.0.0.1", 9000, 10000⟩ := by
  have hhost : Registrable ordinaryHost := by decide +kernel
  have hfits : (regMessage ordinaryHost).length < responseSize := by decide +kernel
  exact ⟨hhost, entered_eq _ hhost hfits, updated_eq _ hhost hfits, rfl⟩

end RegistrationCodec

end MessageBoard
