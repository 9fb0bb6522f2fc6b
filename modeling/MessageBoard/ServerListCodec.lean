import MessageBoard.IdservMain
import MessageBoard.RmbIdentity

/-!
# The list of servers, from the identity server to its readers

* `server_list_round_trip` — a reply that fits the buffer is read the same by both parsers;
* `no_phantom_iff` — a longer one is cut, and **the client invents a server exactly if the cut leaves
  some digits of a last port** that make a server nobody registered.
-/

namespace MessageBoard

open CText CScan

namespace ServerListCodec

def WellFormedField (field : Text) : Prop :=
  1 ≤ field.length ∧ field.length ≤ 140 ∧ semicolon ∉ field ∧ newline ∉ field ∧ nul ∉ field

instance (field : Text) : Decidable (WellFormedField field) :=
  inferInstanceAs (Decidable (1 ≤ field.length ∧ field.length ≤ 140 ∧ semicolon ∉ field
    ∧ newline ∉ field ∧ nul ∉ field))

/-- An entry of the registry in the format of the list. -/
def WellFormed (srv : Idserv.Server) : Prop :=
  WellFormedField srv.name ∧ WellFormedField srv.ip ∧ (0 ≤ srv.udpPort ∧ srv.udpPort < 2 ^ 16)
    ∧ 0 ≤ srv.tcpPort ∧ srv.tcpPort < 2 ^ 16

instance (srv : Idserv.Server) : Decidable (WellFormed srv) :=
  inferInstanceAs (Decidable (WellFormedField srv.name ∧ WellFormedField srv.ip
    ∧ (0 ≤ srv.udpPort ∧ srv.udpPort < 2 ^ 16) ∧ 0 ≤ srv.tcpPort ∧ srv.tcpPort < 2 ^ 16))

/-- The server a reader puts into its list. -/
def serverOf (srv : Idserv.Server) : Server :=
  ⟨srv.name, srv.ip, srv.udpPort.toNat, srv.tcpPort.toNat, false, -2⟩

/-! ### One line -/

theorem plainField {field : Text} (h : WellFormedField field) : PlainField field := by
  obtain ⟨hpos, hle, hsemi, hnl, hnul⟩ := h
  exact ⟨List.ne_nil_of_length_pos hpos, by rw [stringSize]; omega, hsemi, hnl, hnul⟩

theorem plainServer {srv : Idserv.Server} (h : WellFormed srv) : PlainServer (serverOf srv) := by
  obtain ⟨hname, hip, hudp, htcp⟩ := h
  refine ⟨plainField hname, plainField hip, ?_, ?_⟩
  · show srv.udpPort.toNat < _
    omega
  · show srv.tcpPort.toNat < _
    omega

theorem listed_serverOf (srv : Idserv.Server) : listed (serverOf srv) = serverOf srv := rfl

theorem decimalInt_toNat {n : ℤ} (h : 0 ≤ n) : decimalInt n = decimal n.toNat := by
  obtain ⟨k, rfl⟩ := Int.eq_ofNat_of_zero_le h
  rfl

/-- Both programs print a server alike. -/
theorem serverLine_serverOf {srv : Idserv.Server} (h : WellFormed srv) :
    Idserv.serverLine srv = serverLine (serverOf srv) := by
  rw [Idserv.serverLine, decimalInt_toNat h.2.2.1.1, decimalInt_toNat h.2.2.2.1]
  rfl

theorem reply_eq {registry : List Idserv.Server} (h : ∀ srv ∈ registry, WellFormed srv) :
    Idserv.reply registry = serversText (registry.map serverOf) := by
  have hmap : registry.map Idserv.serverLine = (registry.map serverOf).map serverLine := by
    rw [List.map_map]
    apply List.map_congr_left
    intro srv hsrv
    exact serverLine_serverOf (h srv hsrv)
  rw [Idserv.reply, serversText, hmap]

/-- A line is scanned into the fields of its server, and they fit. -/
theorem parseLines_serverLine {s : Server} (h : PlainServer s) (l : LinkedList Server)
    (rest : List Text) :
    Rmb.parseLines l (serverLine s :: rest) = Rmb.parseLines (l.pushItem (listed s)) rest := by
  have hnew : { Server.new s.name s.ipAddr s.udpPort s.tcpPort with fd := -2, connected := false }
      = listed s := by
    rw [Server.new, List.take_of_length_le h.1.2.1.le, Nat.mod_eq_of_lt h.2.2.1,
      Nat.mod_eq_of_lt h.2.2.2]
    rfl
  have hfits : Rmb.overruns [.text s.name, .text s.ipAddr, .num s.udpPort, .num s.tcpPort] = false := by
    have hname := h.1.2.1
    have hip := h.2.1.2.1
    simp [Rmb.overruns, hname, hip]
  rw [Rmb.parseLines, scan_serverLine h]
  simp only [hfits, hnew]
  rfl

/-! ### The whole list -/

/-- The list once the servers are pushed, one after the other. -/
def pushServers (l : LinkedList Server) (servers : List Server) : LinkedList Server :=
  servers.foldl (fun l s => l.pushItem (listed s)) l

theorem nodes_pushServers (l : LinkedList Server) (servers : List Server) :
    (pushServers l servers).nodes = (servers.map listed).reverse ++ l.nodes := by
  induction servers generalizing l with
  | nil => rfl
  | cons s servers ih =>
    show (pushServers (l.pushItem (listed s)) servers).nodes = _
    rw [ih, LinkedList.nodes_pushItem, List.map_cons, List.reverse_cons, List.append_assoc]
    rfl

/-- The whole lines in front are pushed. -/
theorem parseLines_map {servers : List Server} (h : ∀ s ∈ servers, PlainServer s)
    (l : LinkedList Server) (rest : List Text) :
    Rmb.parseLines l (servers.map serverLine ++ rest)
      = Rmb.parseLines (pushServers l servers) rest := by
  induction servers generalizing l with
  | nil => rfl
  | cons s servers ih =>
    have htail : ∀ t ∈ servers, PlainServer t := fun t ht => h t (by simp [ht])
    rw [List.map_cons, List.cons_append, parseLines_serverLine (h s (by simp)), ih htail]
    rfl

theorem map_listed_serverOf (registry : List Idserv.Server) :
    (registry.map serverOf).map listed = registry.map serverOf := by
  rw [List.map_map]
  exact List.map_congr_left fun srv _ => listed_serverOf srv

theorem plainServers {registry : List Idserv.Server} (h : ∀ srv ∈ registry, WellFormed srv) :
    ∀ s ∈ registry.map serverOf, PlainServer s := by
  intro s hs
  obtain ⟨srv, hsrv, rfl⟩ := List.mem_map.mp hs
  exact plainServer (h srv hsrv)

/-- What the client reads of a list that fits its buffer. -/
theorem parseServers_getServers {servers : List Server} (h : ∀ s ∈ servers, PlainServer s)
    (hfits : (serversText servers).length < responseSize) :
    (Rmb.getServers (serversText servers)).bind Rmb.parseServers
      = some (pushServers .createList servers) := by
  have hwhole : Rmb.responseText (serversText servers) = serversText servers := by
    rw [Rmb.responseText, List.take_of_length_le hfits.le, cstr_eq_self (nul_not_mem_serversText h)]
  have hlines := parseLines_map h .createList []
  rw [List.append_nil] at hlines
  rw [Rmb.getServers_of_lt hfits, Option.bind_some, hwhole, Rmb.parseServers, tokens_serversText h,
    List.drop_one, List.tail_cons, hlines]
  rfl

/-- A list that does not fit fills the buffer, and the text in it has no end. -/
theorem full_serversText {servers : List Server} (h : ∀ s ∈ servers, PlainServer s)
    (hlong : responseSize ≤ (serversText servers).length) :
    ((serversText servers).take responseSize).length = responseSize
      ∧ nul ∉ (serversText servers).take responseSize :=
  ⟨List.length_take_of_le hlong,
    fun hmem => nul_not_mem_serversText h (List.mem_of_mem_take hmem)⟩

/-- What a message server reads of it. -/
theorem parseServersInto_serversText {servers : List Server} (h : ∀ s ∈ servers, PlainServer s)
    (hfits : (serversText servers).length < responseSize) :
    parseServersInto (some (serversText servers)) .createList
      = some (0, pushServers .createList servers) := by
  have hnodes := parseServersInto_nodes (some (serversText servers)) .createList
  rw [LinkedList.nodes_createList, parseServers_serversText h hfits, List.append_nil] at hnodes
  obtain ⟨⟨code, l⟩, hread, hpair⟩ := Option.map_eq_some_iff.mp hnodes
  obtain ⟨hcode, hl⟩ := Prod.mk.inj hpair
  have hpushed : l = pushServers .createList servers := by
    apply LinkedList.ext_nodes
    rw [nodes_pushServers, LinkedList.nodes_createList, List.append_nil]
    exact hl
  rw [hread, hpushed, show code = 0 from hcode]

/-- **The list of servers is read back by both programs**: the servers of the registry, the last one
first. -/
theorem server_list_round_trip (registry : List Idserv.Server)
    (h : ∀ srv ∈ registry, WellFormed srv) (hfits : (Idserv.reply registry).length ≤ 511) :
    ∃ l : LinkedList Server,
      Rmb.fetchServers (some (Idserv.reply registry)) = some (some l)
        ∧ parseServersInto (some (Idserv.reply registry)) .createList = some (0, l)
        ∧ l.nodes = (registry.map serverOf).reverse ∧ l.size = registry.length := by
  have hplain := plainServers h
  rw [reply_eq h] at hfits ⊢
  have hlt : (serversText (registry.map serverOf)).length < responseSize := Nat.lt_succ_of_le hfits
  have hnodes : (pushServers .createList (registry.map serverOf)).nodes
      = (registry.map serverOf).reverse := by
    rw [nodes_pushServers, map_listed_serverOf, LinkedList.nodes_createList, List.append_nil]
  refine ⟨pushServers .createList (registry.map serverOf), ?_, ?_, hnodes, ?_⟩
  · rw [Rmb.fetchServers, parseServers_getServers hplain hlt]
    rfl
  · exact parseServersInto_serversText hplain hlt
  · rw [LinkedList.sized, hnodes, List.length_reverse, List.length_map]

/-- Two servers in the registry. -/
def twoServers : List Idserv.Server :=
  [⟨ascii "tejo", ascii "127.0.0.1", 9001, 9002⟩, ⟨ascii "sado", ascii "127.0.0.1", 9003, 65535⟩]

theorem server_list_round_trip_two :
    ∃ l : LinkedList Server,
      Rmb.fetchServers (some (Idserv.reply twoServers)) = some (some l)
        ∧ parseServersInto (some (Idserv.reply twoServers)) .createList = some (0, l)
        ∧ l.nodes = (twoServers.map serverOf).reverse ∧ l.size = twoServers.length :=
  server_list_round_trip twoServers (by decide) (by decide +kernel)

/-! ### A list that is cut -/

/-- What of the buffer is left behind the first line. -/
def room : ℕ := responseSize - ((ascii "SERVERS").length + 1)

/-- The entry whose line the cut falls into, and how many bytes of the line are lost. -/
def cutEntry : ℕ → List Idserv.Server → Option (Idserv.Server × ℕ)
  | _, [] => none
  | m, srv :: registry =>
      let n := (Idserv.serverLine srv).length
      if n < m then cutEntry (m - (n + 1)) registry else some (srv, n - m)

/-- The entry without the last `j` digits of its line. -/
def cutOff (srv : Idserv.Server) (j : ℕ) : Idserv.Server :=
  { srv with tcpPort := srv.tcpPort / 10 ^ j }

/-- How many bytes of the line are digits of the last port. -/
def portLength (srv : Idserv.Server) : ℕ := (decimalInt srv.tcpPort).length

def Registered (registry : List Idserv.Server) (ip : Text) (udpPort tcpPort : ℤ) : Prop :=
  ∃ srv ∈ registry, srv.ip = ip ∧ srv.udpPort = udpPort ∧ srv.tcpPort = tcpPort

instance (registry : List Idserv.Server) (ip : Text) (udpPort tcpPort : ℤ) :
    Decidable (Registered registry ip udpPort tcpPort) :=
  inferInstanceAs (Decidable (∃ srv ∈ registry, srv.ip = ip ∧ srv.udpPort = udpPort
    ∧ srv.tcpPort = tcpPort))

/-- Every server of the list has the address of one in the registry. -/
def NoPhantom (registry : List Idserv.Server) (l : LinkedList Server) : Prop :=
  ∀ s ∈ l.nodes, Registered registry s.ipAddr s.udpPort s.tcpPort

instance (registry : List Idserv.Server) (l : LinkedList Server) :
    Decidable (NoPhantom registry l) :=
  inferInstanceAs (Decidable (∀ s ∈ l.nodes, Registered registry s.ipAddr s.udpPort s.tcpPort))

/-- The cut leaves some digits of a last port, and nobody registered the server they name. -/
def CutPort (registry : List Idserv.Server) : Prop :=
  ∃ srv j, cutEntry room registry = some (srv, j) ∧ j < portLength srv
    ∧ ¬Registered registry srv.ip srv.udpPort (srv.tcpPort / 10 ^ j)

/-- The servers read from a list that is cut. -/
def cutServers : ℕ → List Idserv.Server → List Idserv.Server
  | _, [] => []
  | m, srv :: registry =>
      let n := (Idserv.serverLine srv).length
      if n < m then srv :: cutServers (m - (n + 1)) registry
      else if n - m < portLength srv then [cutOff srv (n - m)]
      else []

/-! #### The line that is cut -/

theorem wellFormed_cutOff {srv : Idserv.Server} (h : WellFormed srv) (j : ℕ) :
    WellFormed (cutOff srv j) := by
  obtain ⟨hname, hip, hudp, hpos, hlt⟩ := h
  refine ⟨hname, hip, hudp, ?_, ?_⟩
  · show 0 ≤ srv.tcpPort / 10 ^ j
    exact Int.ediv_nonneg hpos (by positivity)
  · show srv.tcpPort / 10 ^ j < 2 ^ 16
    exact lt_of_le_of_lt (Int.ediv_le_self _ hpos) hlt

/-- A line up to its last port. -/
def lineHead (s : Server) : Text :=
  s.name ++ semicolon :: (s.ipAddr ++ semicolon :: (decimal s.udpPort ++ [semicolon]))

theorem serverLine_eq_append (s : Server) : serverLine s = lineHead s ++ decimal s.tcpPort := by
  simp [serverLine, lineHead]

theorem portLength_eq {srv : Idserv.Server} (h : WellFormed srv) :
    portLength srv = (decimal (serverOf srv).tcpPort).length := by
  rw [portLength, decimalInt_toNat h.2.2.2.1]
  rfl

theorem length_serverLine {srv : Idserv.Server} (h : WellFormed srv) :
    (Idserv.serverLine srv).length = (lineHead (serverOf srv)).length + portLength srv := by
  rw [serverLine_serverOf h, serverLine_eq_append, List.length_append, portLength_eq h]

theorem tcpPort_cutOff {srv : Idserv.Server} (h : WellFormed srv) (j : ℕ) :
    (serverOf (cutOff srv j)).tcpPort = (serverOf srv).tcpPort / 10 ^ j := by
  obtain ⟨port, hport⟩ := Int.eq_ofNat_of_zero_le h.2.2.2.1
  show (srv.tcpPort / 10 ^ j).toNat = srv.tcpPort.toNat / 10 ^ j
  rw [hport]
  norm_cast

/-- Digits cut off the end leave the line of another port. -/
theorem take_serverLine {srv : Idserv.Server} (h : WellFormed srv) {j : ℕ} (hj : j < portLength srv) :
    (Idserv.serverLine srv).take ((Idserv.serverLine srv).length - j)
      = Idserv.serverLine (cutOff srv j) := by
  have hdigits : j < (decimal (serverOf srv).tcpPort).length := portLength_eq h ▸ hj
  rw [serverLine_serverOf h, serverLine_serverOf (wellFormed_cutOff h j), serverLine_eq_append,
    serverLine_eq_append, List.length_append, Nat.add_sub_assoc hdigits.le,
    List.take_length_add_append, take_decimal hdigits, tcpPort_cutOff h]
  rfl

/-- A field cut before its semicolon is the last one read. -/
theorem scan_field_take {field : Text} (h : PlainField field) (ds : List Directive) (r : Text)
    (k : ℕ) :
    scan (.set (· != semicolon) none true :: .lit semicolon :: ds) ((field ++ semicolon :: r).take k)
      = if k = 0 then []
        else if k ≤ field.length then [.text (field.take k)]
        else .text field :: scan ds (r.take (k - (field.length + 1))) := by
  have hset := bne_of_not_mem h.2.2.1
  split
  · rename_i hk
    rw [hk, List.take_zero]
    exact scan_set_fail (stops_nil _) true _
  · rename_i hk
    split
    · rename_i hle
      have hne : field.take k ≠ [] := by simpa [hk] using h.1
      have hscan := scan_set (fun b hb => hset b (List.mem_of_mem_take hb)) (stops_nil _) hne
        (.lit semicolon :: ds)
      rw [List.append_nil] at hscan
      rw [List.take_append_of_le_length hle, hscan]
      rfl
    · rename_i hlt
      obtain ⟨i, rfl⟩ : ∃ i, k = field.length + (i + 1) := ⟨k - field.length - 1, by omega⟩
      rw [List.take_length_add_append, List.take_succ_cons, scan_field h,
        show field.length + (i + 1) - (field.length + 1) = i by omega]

/-- A port cut before the next one. -/
theorem scan_ushort_take {n : ℕ} (hn : n < 2 ^ 16) (k : ℕ) :
    (∃ v, scan [.ushort, .lit semicolon, .ushort] ((decimal n ++ [semicolon]).take k) = [.num v])
      ∨ scan [.ushort, .lit semicolon, .ushort] ((decimal n ++ [semicolon]).take k) = [] := by
  by_cases hk : k = 0
  · right
    rw [hk]
    rfl
  · left
    by_cases hle : k ≤ (decimal n).length
    · obtain ⟨j, hj, hcut⟩ : ∃ j, j < (decimal n).length ∧ k = (decimal n).length - j :=
        ⟨(decimal n).length - k, by omega, by omega⟩
      have hdiv : n / 10 ^ j < 2 ^ 16 := lt_of_le_of_lt (Nat.div_le_self _ _) hn
      have hscan := scan_ushort hdiv (stops_nil isDigit) [.lit semicolon, .ushort]
      rw [List.append_nil] at hscan
      rw [List.take_append_of_le_length hle, hcut, take_decimal hj, hscan]
      exact ⟨_, rfl⟩
    · have hsemi : Stops isDigit [semicolon] := stops_cons (by decide) _
      rw [List.take_of_length_le (by simp; omega), scan_ushort hn hsemi]
      exact ⟨_, rfl⟩

/-- What is stored of a line that is cut before its last port: fewer than four fields, and they fit. -/
theorem scan_lineHead_take {s : Server} (h : PlainServer s) (k : ℕ) :
    (scan serverFormat ((lineHead s).take k)).length < 4
      ∧ Rmb.overruns (scan serverFormat ((lineHead s).take k)) = false := by
  obtain ⟨hname, hip, hudp, -⟩ := h
  rw [lineHead, serverFormat, scan_field_take hname]
  split
  · exact ⟨by simp, rfl⟩
  · split
    · exact ⟨by simp, by simpa [Rmb.overruns] using fun _ => hname.2.1⟩
    · rw [scan_field_take hip]
      split
      · exact ⟨by simp, by simpa [Rmb.overruns] using hname.2.1⟩
      · split
        · exact ⟨by simp, by simpa [Rmb.overruns] using ⟨hname.2.1, fun _ => hip.2.1⟩⟩
        · rcases scan_ushort_take hudp (k - (s.name.length + 1) - (s.ipAddr.length + 1)) with
            ⟨v, hv⟩ | hv
          · rw [hv]
            exact ⟨by simp, by simpa [Rmb.overruns] using ⟨hname.2.1, hip.2.1⟩⟩
          · rw [hv]
            exact ⟨by simp, by simpa [Rmb.overruns] using ⟨hname.2.1, hip.2.1⟩⟩

/-- **A line cut before its last port** ends the list. -/
theorem parseLines_lineHead {s : Server} (h : PlainServer s) (k : ℕ) (l : LinkedList Server) :
    Rmb.parseLines l [(lineHead s).take k] = some l := by
  obtain ⟨hlen, hover⟩ := scan_lineHead_take h k
  rw [Rmb.parseLines]
  simp only [hover]
  rw [if_neg (by simp)]
  split
  · rename_i heq
    rw [heq] at hlen
    exact absurd hlen (by simp)
  · rfl

/-- **The lines up to the cut.** -/
theorem parseLines_cutLines {registry : List Idserv.Server} (h : ∀ srv ∈ registry, WellFormed srv)
    (m : ℕ) (l : LinkedList Server) :
    Rmb.parseLines l (cutLines m (registry.map Idserv.serverLine))
      = some (pushServers l ((cutServers m registry).map serverOf)) := by
  induction registry generalizing m l with
  | nil => rfl
  | cons srv registry ih =>
    have hsrv := h srv (by simp)
    have htail : ∀ other ∈ registry, WellFormed other := fun other ho => h other (by simp [ho])
    rw [List.map_cons, cutLines, cutServers]
    split
    · rw [serverLine_serverOf hsrv, parseLines_serverLine (plainServer hsrv),
        ← serverLine_serverOf hsrv, ih htail]
      rfl
    · rename_i hle
      have hlen := length_serverLine hsrv
      split
      · rename_i hm
        have hno : ¬(Idserv.serverLine srv).length - m < portLength srv := by omega
        rw [if_neg hno]
        rfl
      · split
        · rename_i hport
          have hm : m = (Idserv.serverLine srv).length - ((Idserv.serverLine srv).length - m) := by
            omega
          have hcut := wellFormed_cutOff hsrv ((Idserv.serverLine srv).length - m)
          have htake := take_serverLine hsrv hport
          rw [← hm] at htake
          rw [htake, serverLine_serverOf hcut, parseLines_serverLine (plainServer hcut)]
          rfl
        · rename_i hport
          have htake : (Idserv.serverLine srv).take m = (lineHead (serverOf srv)).take m := by
            rw [serverLine_serverOf hsrv, serverLine_eq_append,
              List.take_append_of_le_length (by omega)]
          rw [htake, parseLines_lineHead (plainServer hsrv)]
          rfl

/-! #### Which servers are read -/

/-- The servers read are whole entries, and the one the cut makes. -/
theorem forall_mem_cutServers {P : Idserv.Server → Prop} {registry : List Idserv.Server}
    (h : ∀ srv ∈ registry, P srv) (m : ℕ) :
    (∀ srv ∈ cutServers m registry, P srv)
      ↔ ∀ srv j, cutEntry m registry = some (srv, j) → j < portLength srv → P (cutOff srv j) := by
  induction registry generalizing m with
  | nil => simp [cutServers, cutEntry]
  | cons srv registry ih =>
    have hsrv := h srv (by simp)
    have htail := ih fun other ho => h other (by simp [ho])
    rw [cutServers, cutEntry]
    split
    · rw [← htail, List.forall_mem_cons, and_iff_right hsrv]
    · constructor
      · intro hall other j heq hj
        obtain ⟨rfl, rfl⟩ := Prod.mk.inj (Option.some.inj heq)
        rw [if_pos hj] at hall
        exact hall _ (by simp)
      · intro hcut other hmem
        split at hmem
        · rename_i hport
          rw [List.mem_singleton] at hmem
          exact hmem ▸ hcut srv _ rfl hport
        · simp at hmem

/-- What the client reads of a list of any length. -/
theorem parseServers_reply {registry : List Idserv.Server} (h : ∀ srv ∈ registry, WellFormed srv) :
    Rmb.parseServers (Rmb.responseText (Idserv.reply registry))
      = some (pushServers .createList ((cutServers room registry).map serverOf)) := by
  have hplain := lines_plain (plainServers h)
  have hmap : (registry.map serverOf).map serverLine = registry.map Idserv.serverLine := by
    rw [List.map_map]
    exact List.map_congr_left fun srv hsrv => (serverLine_serverOf (h srv hsrv)).symm
  rw [hmap] at hplain
  have hcstr : Rmb.responseText (Idserv.reply registry) = (Idserv.reply registry).take responseSize := by
    apply cstr_eq_self
    intro hmem
    exact nul_not_mem_linesText (fun line hline => (hplain line hline).2.2) (List.mem_of_mem_take hmem)
  have hheader : cutLines responseSize (ascii "SERVERS" :: registry.map Idserv.serverLine)
      = ascii "SERVERS" :: cutLines room (registry.map Idserv.serverLine) := by
    rw [cutLines, if_pos (by decide)]
    rfl
  rw [hcstr, Rmb.parseServers, Idserv.reply,
    tokens_take_linesText (fun line hline => (hplain line hline).1)
      fun line hline => (hplain line hline).2.1,
    hheader, List.drop_one, List.tail_cons, parseLines_cutLines h]

theorem mem_of_cutEntry {registry : List Idserv.Server} {m j : ℕ} {srv : Idserv.Server}
    (h : cutEntry m registry = some (srv, j)) : srv ∈ registry := by
  induction registry generalizing m with
  | nil => simp [cutEntry] at h
  | cons other registry ih =>
    rw [cutEntry] at h
    split at h
    · exact List.mem_cons_of_mem other (ih h)
    · obtain ⟨rfl, -⟩ := Prod.mk.inj (Option.some.inj h)
      exact List.mem_cons_self

/-- The address a reader sees is the one in the entry. -/
theorem registered_serverOf (registry : List Idserv.Server) {srv : Idserv.Server}
    (h : WellFormed srv) :
    Registered registry (serverOf srv).ipAddr (serverOf srv).udpPort (serverOf srv).tcpPort
      ↔ Registered registry srv.ip srv.udpPort srv.tcpPort := by
  have hudp : ((serverOf srv).udpPort : ℤ) = srv.udpPort := Int.toNat_of_nonneg h.2.2.1.1
  have htcp : ((serverOf srv).tcpPort : ℤ) = srv.tcpPort := Int.toNat_of_nonneg h.2.2.2.1
  rw [hudp, htcp]
  rfl

/-- **No phantom server, exactly when no last port is cut into one that nobody registered.** -/
theorem no_phantom_iff (registry : List Idserv.Server) (h : ∀ srv ∈ registry, WellFormed srv) :
    ∃ l : LinkedList Server,
      Rmb.parseServers (Rmb.responseText (Idserv.reply registry)) = some l
        ∧ (NoPhantom registry l ↔ ¬CutPort registry) := by
  let P : Idserv.Server → Prop := fun srv =>
    Registered registry (serverOf srv).ipAddr (serverOf srv).udpPort (serverOf srv).tcpPort
  have hwhole : ∀ srv ∈ registry, P srv := by
    intro srv hsrv
    exact (registered_serverOf registry (h srv hsrv)).mpr ⟨srv, hsrv, rfl, rfl, rfl⟩
  refine ⟨_, parseServers_reply h, ?_⟩
  calc NoPhantom registry (pushServers .createList ((cutServers room registry).map serverOf))
      ↔ ∀ srv ∈ cutServers room registry, P srv := by
        rw [NoPhantom, nodes_pushServers, map_listed_serverOf, LinkedList.nodes_createList,
          List.append_nil]
        simp [P]
    _ ↔ ∀ srv j, cutEntry room registry = some (srv, j) → j < portLength srv → P (cutOff srv j) :=
        forall_mem_cutServers hwhole room
    _ ↔ ¬CutPort registry := by
        constructor
        · rintro hall ⟨srv, j, hcut, hj, hno⟩
          have hsrv := h srv (mem_of_cutEntry hcut)
          exact hno ((registered_serverOf registry (wellFormed_cutOff hsrv j)).mp (hall srv j hcut hj))
        · intro hnot srv j hcut hj
          have hsrv := h srv (mem_of_cutEntry hcut)
          apply (registered_serverOf registry (wellFormed_cutOff hsrv j)).mpr
          by_contra hno
          exact hnot ⟨srv, j, hcut, hj, hno⟩

/-- Nineteen servers, whose list has 515 bytes. -/
def manyServers : List Idserv.Server :=
  ⟨ascii "message-server-one", ascii "127.0.0.1", 9000, 9100⟩ ::
    (List.range 18).map fun i => ⟨ascii "srv-x", ascii "127.0.0.1", 9001 + i, 9101 + i⟩

theorem no_phantom_iff_two :
    ∃ l : LinkedList Server,
      Rmb.parseServers (Rmb.responseText (Idserv.reply twoServers)) = some l
        ∧ (NoPhantom twoServers l ↔ ¬CutPort twoServers) :=
  no_phantom_iff twoServers (by decide)

/-- **A phantom**: of port 9118 the cut leaves 91. -/
theorem phantom_manyServers :
    (∀ srv ∈ manyServers, WellFormed srv) ∧ ∃ l : LinkedList Server,
      Rmb.parseServers (Rmb.responseText (Idserv.reply manyServers)) = some l
        ∧ ¬NoPhantom manyServers l := by
  refine ⟨by decide, ?_⟩
  have hread : (Rmb.parseServers (Rmb.responseText (Idserv.reply manyServers))).any
      (fun l => decide (¬NoPhantom manyServers l)) = true := by decide +kernel
  obtain ⟨l, hl, hphantom⟩ := (Option.any_eq_true _ _).mp hread
  exact ⟨l, hl, of_decide_eq_true hphantom⟩

end ServerListCodec

end MessageBoard
