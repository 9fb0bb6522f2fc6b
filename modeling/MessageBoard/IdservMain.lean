import MessageBoard.Lib.CScan
import MessageBoard.StructMessage

/-!
# `idserv/main`: the functions of the identity server

What the goroutines do with a datagram and with a list, without the channels between them.  An index
out of range ends the program: it gives `none`.  The buffer of `handleUDPConn` is never cleared, so
behind a datagram it holds bytes of earlier ones.

* `handleRegistrations_fields` — the four fields of a registration are read back;
* `handleUDPConn_reg` — what of a `REG` datagram is handed to `handleRegistrations`.
-/

namespace MessageBoard

open CText CScan

namespace Idserv

/-- `type server struct`. -/
structure Server where
  name : Text
  ip : Text
  udpPort : ℤ
  tcpPort : ℤ
  deriving DecidableEq, Repr

/-- `len(buf)`. -/
def bufSize : ℕ := 1024

/-- `strconv.Atoi` for an `int` of 64 bits. -/
def atoi (s : Text) : Option ℤ :=
  let signed := splitSign s
  if signed.2.isEmpty || !signed.2.all isDigit then none
  else
    let v : ℤ := if signed.1 then -digitsVal signed.2 else digitsVal signed.2
    if -2 ^ 63 ≤ v ∧ v < 2 ^ 63 then some v else none

/-- `handleRegistrations`: the server it sends to `serverRecv`. -/
def handleRegistrations (data : Text) : Option Server :=
  match data.splitOn semicolon with
  | name :: ip :: udpPort :: tcpPort :: _ =>
      (atoi udpPort).bind fun udpPort =>
        (atoi tcpPort).map fun tcpPort => ⟨name, ip, udpPort, tcpPort⟩
  | _ => none

/-- `"%s;%s;%d;%d\n"` without the newline. -/
def serverLine (srv : Server) : Text :=
  srv.name ++ semicolon :: (srv.ip ++ semicolon :: (decimalInt srv.udpPort ++ semicolon ::
    decimalInt srv.tcpPort))

/-- `"SERVERS\n"` and the lines that `handleServerRequests` writes. -/
def reply (servers : List Server) : Text :=
  linesText (ascii "SERVERS" :: servers.map serverLine)

/-- What `handleUDPConn` starts for a datagram. -/
inductive Command where
  | registration (data : Text)
  | serverRequest
  | unknown
  deriving DecidableEq, Repr

/-- `strings.Contains(string(buf[0:n]), s)`. -/
def startContains (buf : Text) (n : ℕ) (s : Text) : Bool := decide (s <:+: buf.take n)

/-- One turn of the loop of `handleUDPConn`: the buffer after `ReadFromUDP` and the goroutine.  A
slice `buf[4:n-2]` with `n < 6` ends the program. -/
def handleUDPConn (buf datagram : Text) : Option (Text × Command) :=
  let n := (datagram.take bufSize).length
  let buf := datagram.take bufSize ++ buf.drop n
  if startContains buf 4 (ascii "REG") then
    if n < 6 then none else some (buf, .registration ((buf.take (n - 2)).drop 4))
  else if startContains buf 11 (ascii "GET_SERVERS") then some (buf, .serverRequest)
  else some (buf, .unknown)

/-- The server that a datagram registers. -/
def register (buf datagram : Text) : Option Server :=
  match handleUDPConn buf datagram with
  | some (_, .registration data) => handleRegistrations data
  | _ => none

/-! ### Reading a registration -/

theorem atoi_decimal {n : ℕ} (hn : n < 2 ^ 63) : atoi (decimal n) = some (n : ℤ) := by
  have hsign : splitSign (decimal n) = (false, decimal n) := by
    obtain ⟨b, bs, hb⟩ := List.exists_cons_of_ne_nil (decimal_ne_nil n)
    rw [hb, splitSign_of_isDigit (isDigit_of_mem_decimal n b (by simp [hb]))]
  have hall : (decimal n).all isDigit = true := by
    rw [List.all_eq_true]
    exact isDigit_of_mem_decimal n
  have hne : (decimal n).isEmpty = false := by simpa using decimal_ne_nil n
  simp only [atoi, hsign, hall, hne, digitsVal_decimal]
  have hrange : -2 ^ 63 ≤ (n : ℤ) ∧ (n : ℤ) < 2 ^ 63 := by omega
  simpa using hrange

theorem atoi_nil : atoi [] = none := rfl

/-- **The four fields of a registration are read back.** -/
theorem handleRegistrations_fields {name ip udpPort tcpPort : Text} (hname : semicolon ∉ name)
    (hip : semicolon ∉ ip) (hudp : semicolon ∉ udpPort) (htcp : semicolon ∉ tcpPort) :
    handleRegistrations (name ++ semicolon :: (ip ++ semicolon :: (udpPort ++ semicolon :: tcpPort)))
      = (atoi udpPort).bind fun udpPort =>
          (atoi tcpPort).map fun tcpPort => ⟨name, ip, udpPort, tcpPort⟩ := by
  rw [handleRegistrations, List.splitOn_append_cons_self_of_not_mem hname,
    List.splitOn_append_cons_self_of_not_mem hip, List.splitOn_append_cons_self_of_not_mem hudp,
    List.splitOn_eq_singleton htcp]

/-- A registration of fewer fields is invalid. -/
theorem handleRegistrations_three {name ip udpPort : Text} (hname : semicolon ∉ name)
    (hip : semicolon ∉ ip) (hudp : semicolon ∉ udpPort) :
    handleRegistrations (name ++ semicolon :: (ip ++ semicolon :: udpPort)) = none := by
  rw [handleRegistrations, List.splitOn_append_cons_self_of_not_mem hname,
    List.splitOn_append_cons_self_of_not_mem hip, List.splitOn_eq_singleton hudp]

/-- **What is handed to `handleRegistrations`**: the datagram without its first four bytes and its
last two. -/
theorem handleUDPConn_reg (buf : Text) {body : Text} (hlen : 2 ≤ body.length)
    (hfits : body.length + 4 ≤ bufSize) :
    (handleUDPConn buf (ascii "REG " ++ body)).map Prod.snd
      = some (.registration (body.take (body.length - 2))) := by
  have hn : (ascii "REG " ++ body).length = body.length + 4 := by
    rw [List.length_append, Nat.add_comm]
    rfl
  have htake : (ascii "REG " ++ body).take bufSize = ascii "REG " ++ body :=
    List.take_of_length_le (by omega)
  have hstart : startContains (ascii "REG " ++ body ++ buf.drop (body.length + 4)) 4 (ascii "REG")
      = true := by
    rw [startContains, List.append_assoc]
    show decide (ascii "REG" <:+: ascii "REG ") = true
    decide
  have hdata : ((ascii "REG " ++ body ++ buf.drop (body.length + 4)).take
      (body.length + 4 - 2)).drop 4 = body.take (body.length - 2) := by
    rw [List.take_append_of_le_length (by omega), List.drop_take]
    show body.take _ = _
    congr 1
  simp only [handleUDPConn, htake, hn, hstart, if_true, hdata]
  rw [if_neg (by omega)]
  rfl

end Idserv

end MessageBoard
