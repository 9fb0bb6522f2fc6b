import MessageBoard.StructMessage

/-!
# `struct_server`: the servers in the lists of both programs

A list of the source is a list here, with its head first.  Two servers are the same to
`different_servers` when their addresses agree; the name, the flag and the descriptor do not count.

* `differentServers_eq_false_iff` — the address decides;
* `differentServers_congr_left` — the same server may stand for another.
-/

namespace MessageBoard

open CText

/-- `struct _server`.  An unsigned short holds a port. -/
structure Server where
  name : Text
  ipAddr : Text
  udpPort : ℕ
  tcpPort : ℕ
  connected : Bool
  fd : ℤ
  deriving DecidableEq, Repr

namespace Server

/-- `new_server`: not connected, and without a descriptor. -/
def new (name ipAddr : Text) (udpPort tcpPort : ℕ) : Server :=
  ⟨name.take stringSize, ipAddr, udpPort % 2 ^ 16, tcpPort % 2 ^ 16, false, -1⟩

/-- What `different_servers` compares. -/
def address (s : Server) : Text × ℕ × ℕ := (s.ipAddr, s.udpPort, s.tcpPort)

/-- `copy_server` into a new server. -/
def copy (s : Server) : Server := new s.name s.ipAddr s.udpPort s.tcpPort

end Server

def differentServers (s t : Server) : Bool :=
  !(s.ipAddr == t.ipAddr && s.udpPort == t.udpPort && s.tcpPort == t.tcpPort)

/-- **The address decides.** -/
theorem differentServers_eq_false_iff (s t : Server) :
    differentServers s t = false ↔ s.address = t.address := by
  rw [differentServers, Bool.not_eq_false', Bool.and_eq_true, Bool.and_eq_true, beq_iff_eq,
    beq_iff_eq, beq_iff_eq, and_assoc, Server.address, Server.address, Prod.mk.injEq,
    Prod.mk.injEq]

theorem differentServers_eq (s t : Server) :
    differentServers s t = decide (s.address ≠ t.address) := by
  by_cases h : s.address = t.address
  · rw [(differentServers_eq_false_iff s t).mpr h]
    simp [h]
  · have hne : ¬differentServers s t = false := fun heq => h ((differentServers_eq_false_iff s t).mp heq)
    rw [Bool.not_eq_false] at hne
    simp [h, hne]

theorem differentServers_self (s : Server) : differentServers s s = false := by
  rw [differentServers_eq_false_iff]

theorem differentServers_comm (s t : Server) : differentServers s t = differentServers t s := by
  rw [differentServers_eq, differentServers_eq]
  simp only [ne_comm]

/-- The same server in place of the first one. -/
theorem differentServers_congr_left {s t : Server} (h : differentServers s t = false) (u : Server) :
    differentServers s u = differentServers t u := by
  rw [differentServers_eq_false_iff] at h
  rw [differentServers_eq, differentServers_eq, h]

end MessageBoard
