import MessageBoard.JoinRace

/-!
# No two joined servers miss each other

A server registers before it asks, on one socket, so the id server enters it before it answers it.
Of two answers the later one therefore lists the server that was answered earlier.

* `Inv.answer` — whoever was answered before is in this answer;
* `NodeInv.visited` — the loop passes over no entry but the host;
* `joined_meet` — **of two servers that have joined, one has opened a connection to the other.**
-/

namespace MessageBoard

open CText Run Channel

namespace JoinRace

variable {n : ℕ} {σ : Type}

/-! ### What holds in every run -/

section Invariant

variable (ids : IdServer σ) (hosts : Fin n → Server)

/-- The server is an entry of the id server. -/
def Known (net : Net σ n) (i : Fin n) : Prop := (hosts i).address ∈ ids.entries net.idServer

/-- The registration is the oldest datagram of the socket. -/
def RegFirst (net : Net σ n) (i : Fin n) : Prop :=
  ∃ d rest, net.datagrams.filter (onSocket i (net.nodes i).attempt) = d :: rest
    ∧ cstr d.text = cstr (regMessage (hosts i))

/-- `j` is connected to, or an entry that the loop will come to. -/
def Node.Reaches (node : Node n) (j : Fin n) : Prop :=
  (∃ row ∈ node.opened, row.2 = j)
    ∨ ∃ e ∈ node.ahead, e.fd = -2 ∧ e.address = (hosts j).address

/-- The list was received. -/
def Stage.HasList : Stage → Prop
  | .walking _ => True
  | .joined => True
  | _ => False

structure NodeInv (i : Fin n) (node : Node n) : Prop where
  called : node.stage ≠ .idle → 0 < node.attempt
  replies : ∀ reply ∈ node.replies, ∃ snap ∈ node.answered, Lists reply snap
  reaches : node.stage.HasList →
    ∃ snap ∈ node.answered, ∀ j ≠ i, (hosts j).address ∈ snap → node.Reaches hosts j
  done : node.stage = .joined → node.ahead = []

structure Inv (net : Net σ n) : Prop where
  sent : ∀ d ∈ net.datagrams, 0 < d.socket ∧ d.socket ≤ (net.nodes d.src).attempt
    ∧ (cstr d.text = cstr (regMessage (hosts d.src)) ∨ cstr d.text = request)
  known : ∀ i, 0 < (net.nodes i).attempt → Known ids hosts net i ∨ RegFirst hosts net i
  entered : ∀ i, (net.nodes i).answered ≠ [] → Known ids hosts net i
  /-- Of two answers, the later one lists the server that was answered earlier. -/
  meet : ∀ i j, i ≠ j → ∀ snap ∈ (net.nodes i).answered, ∀ snap' ∈ (net.nodes j).answered,
    (hosts j).address ∈ snap ∨ (hosts i).address ∈ snap'
  node : ∀ i, NodeInv hosts i (net.nodes i)

end Invariant

variable {ids : IdServer σ} {hosts : Fin n → Server} {net net' : Net σ n}

theorem inv_start (s : σ) : Inv ids hosts (start s : Net σ n) where
  sent := by simp [start]
  known := by simp [start]
  entered := by simp [start]
  meet := by simp [start]
  node := fun i => ⟨by simp [start], by simp [start], by simp [start, Stage.HasList], by simp [start]⟩

/-- A registration that is the oldest datagram of its socket stays it while others are sent. -/
theorem RegFirst.append {t : Fin n} {more : List (Datagram n)} (h : RegFirst hosts net t)
    (hattempt : (net'.nodes t).attempt = (net.nodes t).attempt)
    (hdatagrams : net'.datagrams = net.datagrams ++ more) : RegFirst hosts net' t := by
  obtain ⟨d, rest, hfilter, hreg⟩ := h
  refine ⟨d, rest ++ more.filter (onSocket t (net.nodes t).attempt), ?_, hreg⟩
  rw [hattempt, hdatagrams, List.filter_append, hfilter, List.cons_append]

theorem attempt_put {i : Fin n} {node : Node n} (h : node.attempt = (net.nodes i).attempt)
    (t : Fin n) : ((net.put i node).nodes t).attempt = (net.nodes t).attempt := by
  rw [nodes_put]
  split
  · rename_i ht
    rw [ht, h]
  · rfl

/-- A step that changes one server, and not its socket, keeps what is known of the registrations. -/
theorem Inv.known_put {i : Fin n} {node : Node n} (hinv : Inv ids hosts net)
    (hattempt : node.attempt = (net.nodes i).attempt) {t : Fin n}
    (ht : 0 < ((net.put i node).nodes t).attempt) :
    Known ids hosts (net.put i node) t ∨ RegFirst hosts (net.put i node) t := by
  rw [attempt_put hattempt] at ht
  rcases hinv.known t ht with hknown | hfirst
  · exact Or.inl hknown
  · exact Or.inr (hfirst.append (attempt_put hattempt t) (List.append_nil _).symm)

/-- A step that changes one server, and neither its socket nor what it was answered. -/
theorem Inv.put {i : Fin n} {node : Node n} (hinv : Inv ids hosts net)
    (hnode : NodeInv hosts i node) (hattempt : node.attempt = (net.nodes i).attempt)
    (hanswered : node.answered = (net.nodes i).answered) :
    Inv ids hosts (net.put i node) := by
  have hans : ∀ t, ((net.put i node).nodes t).answered = (net.nodes t).answered := by
    intro t
    by_cases h : t = i <;> simp [h, hanswered]
  refine ⟨?_, ?_, ?_, ?_, ?_⟩
  · intro d hd
    rw [attempt_put hattempt]
    exact hinv.sent d hd
  · intro t ht
    exact hinv.known_put hattempt ht
  · intro t ht
    rw [hans] at ht
    exact hinv.entered t ht
  · intro t u htu
    rw [hans, hans]
    exact hinv.meet t u htu
  · intro t
    by_cases h : t = i
    · simpa [h] using hnode
    · simpa [h] using hinv.node t

/-- Connections that wait to be accepted do not matter. -/
theorem Inv.setPending (hinv : Inv ids hosts net) (pending : List (Fin n × Fin n)) :
    Inv ids hosts { net with pending := pending } :=
  ⟨hinv.sent, hinv.known, hinv.entered, hinv.meet, hinv.node⟩

/-- A datagram behind the others of its socket. -/
theorem Inv.send {i : Fin n} {text : Text} (hinv : Inv ids hosts net)
    (hattempt : 0 < (net.nodes i).attempt)
    (htext : cstr text = cstr (regMessage (hosts i)) ∨ cstr text = request) :
    Inv ids hosts (net.send i text) := by
  refine ⟨?_, ?_, hinv.entered, hinv.meet, hinv.node⟩
  · intro d hd
    rw [datagrams_send] at hd
    rcases List.mem_append.mp hd with hd | hd
    · exact hinv.sent d hd
    · rw [List.mem_singleton.mp hd]
      exact ⟨hattempt, le_rfl, htext⟩
  · intro t ht
    rcases hinv.known t ht with hknown | hfirst
    · exact Or.inl hknown
    · exact Or.inr (hfirst.append (by rw [nodes_send]) (datagrams_send net i text))

/-- Nothing was sent on a socket that is not open yet. -/
theorem Inv.filter_next (hinv : Inv ids hosts net) (t : Fin n) :
    net.datagrams.filter (onSocket t ((net.nodes t).attempt + 1)) = [] := by
  rw [List.filter_eq_nil_iff]
  intro d hd hon
  simp only [onSocket, Bool.and_eq_true, beq_iff_eq] at hon
  have hle := (hinv.sent d hd).2.1
  rw [hon.1, hon.2] at hle
  omega

/-- A new socket, on which the registration comes first. -/
theorem Inv.register {i : Fin n} (hinv : Inv ids hosts net)
    (hstage : (net.nodes i).stage = .idle) :
    Inv ids hosts (net.register i (regMessage (hosts i))) := by
  have hnodes : ∀ t, (net.register i (regMessage (hosts i))).nodes t = if t = i then
      { net.nodes i with stage := .registered, attempt := (net.nodes i).attempt + 1, replies := [] }
      else net.nodes t := by
    intro t
    simp [Net.register]
  have hanswered : ∀ t, ((net.register i (regMessage (hosts i))).nodes t).answered
      = (net.nodes t).answered := by
    intro t
    by_cases h : t = i <;> simp [hnodes, h]
  have hdatagrams : (net.register i (regMessage (hosts i))).datagrams
      = net.datagrams ++ [⟨i, (net.nodes i).attempt + 1, regMessage (hosts i)⟩] := by
    simp [Net.register, datagrams_send]
  refine ⟨?_, ?_, ?_, ?_, ?_⟩
  · intro d hd
    rw [hdatagrams] at hd
    rcases List.mem_append.mp hd with hd | hd
    · obtain ⟨hpos, hle, htext⟩ := hinv.sent d hd
      refine ⟨hpos, ?_, htext⟩
      by_cases h : d.src = i
      · rw [hnodes, if_pos h]
        rw [h] at hle
        exact hle.trans (Nat.le_succ _)
      · rwa [hnodes, if_neg h]
    · rw [List.mem_singleton.mp hd]
      exact ⟨Nat.succ_pos _, by simp [hnodes], Or.inl rfl⟩
  · intro t ht
    by_cases h : t = i
    · right
      subst h
      refine ⟨⟨t, (net.nodes t).attempt + 1, regMessage (hosts t)⟩, [], ?_, rfl⟩
      rw [hnodes, if_pos rfl, hdatagrams, List.filter_append, hinv.filter_next t]
      simp [onSocket]
    · rw [hnodes, if_neg h] at ht
      rcases hinv.known t ht with hknown | hfirst
      · exact Or.inl hknown
      · exact Or.inr (hfirst.append (by rw [hnodes, if_neg h]) hdatagrams)
  · intro t ht
    rw [hanswered] at ht
    exact hinv.entered t ht
  · intro t u htu
    rw [hanswered, hanswered]
    exact hinv.meet t u htu
  · intro t
    rw [hnodes]
    split
    · exact ⟨fun _ => Nat.succ_pos _, by simp, by simp [Stage.HasList], by simp⟩
    · exact hinv.node t

/-- The id server takes a datagram, whoever reads the reply. -/
theorem Inv.taken {i : Fin n} {socket : ℕ} {d : Datagram n} {rest : List (Datagram n)}
    (hkeeps : KeepsEntries ids hosts) (hinv : Inv ids hosts net)
    (hrecv : receive (onSocket i socket) net.datagrams = some (d, rest)) :
    Inv ids hosts { net with idServer := (ids.handle net.idServer d.text).1, datagrams := rest } := by
  have hmono : ∀ t, Known ids hosts net t → (hosts t).address
      ∈ ids.entries (ids.handle net.idServer d.text).1 :=
    fun t ht => hkeeps.keeps _ _ _ ht
  refine ⟨fun d' hd' => hinv.sent d' ((mem_of_receive hrecv).2 hd'), ?_,
    fun t ht => hmono t (hinv.entered t ht), hinv.meet, hinv.node⟩
  intro t ht
  rcases hinv.known t ht with hknown | ⟨d', rest', hfilter, hreg⟩
  · exact Or.inl (hmono t hknown)
  · by_cases hon : onSocket t (net.nodes t).attempt d = true
    · -- the datagram taken is the oldest of its socket, so it is the registration
      left
      have heq : onSocket i socket = onSocket t (net.nodes t).attempt := by
        have hd := (receive_perm hrecv).1
        simp only [onSocket, Bool.and_eq_true, beq_iff_eq] at hd hon
        rw [← hd.1, ← hd.2, hon.1, hon.2]
      have hhead := receive_eq_some hrecv
      rw [heq, hfilter, List.cons.injEq] at hhead
      exact (hkeeps.enters _ _ t (hhead.1 ▸ hreg)).1
    · right
      refine ⟨d', rest', ?_, hreg⟩
      rw [← hfilter]
      exact filter_receive hrecv (by simpa using hon)

/-- A server that is answered on its socket has been entered. -/
theorem Inv.known_of_request {i : Fin n} {socket : ℕ} {d : Datagram n} {rest : List (Datagram n)}
    (hinv : Inv ids hosts net)
    (hrecv : receive (onSocket i socket) net.datagrams = some (d, rest))
    (hsocket : d.socket = (net.nodes d.src).attempt) (hreq : cstr d.text = request) :
    Known ids hosts net d.src := by
  have hpos := (hinv.sent d (mem_of_receive hrecv).1).1
  rcases hinv.known d.src (hsocket ▸ hpos) with hknown | ⟨d', rest', hfilter, hreg⟩
  · exact hknown
  · exfalso
    have hd := (receive_perm hrecv).1
    simp only [onSocket, Bool.and_eq_true, beq_iff_eq] at hd
    have hhead := receive_eq_some hrecv
    rw [← hd.1, ← hd.2, hsocket, hfilter, List.cons.injEq] at hhead
    rw [hhead.1, hreq] at hreg
    exact cstr_regMessage_ne _ hreg.symm

/-- The server gets one more reply, and an answer that it lists. -/
theorem NodeInv.answered {i : Fin n} {node : Node n} {reply : Text} {entries : List Address}
    (hnode : NodeInv hosts i node) (hlists : Lists reply entries) :
    NodeInv hosts i { node with
      replies := node.replies ++ [reply], answered := node.answered ++ [entries] } := by
  obtain ⟨hcalled, hreplies, hreaches, hdone⟩ := hnode
  refine ⟨hcalled, ?_, ?_, hdone⟩
  · intro r hr
    rcases List.mem_append.mp hr with hr | hr
    · obtain ⟨snap, hsnap, hl⟩ := hreplies r hr
      exact ⟨snap, List.mem_append_left _ hsnap, hl⟩
    · rw [List.mem_singleton.mp hr]
      exact ⟨entries, by simp, hlists⟩
  · intro hstage
    obtain ⟨snap, hsnap, hall⟩ := hreaches hstage
    exact ⟨snap, List.mem_append_left _ hsnap, hall⟩

/-- An answer that has everyone answered before meets every earlier one. -/
theorem Inv.meet_answer {t u : Fin n} {entries : List Address} (hinv : Inv ids hosts net)
    (htu : t ≠ u) (hentries : ∀ j, (net.nodes j).answered ≠ [] → (hosts j).address ∈ entries)
    {snap snap' : List Address} (hsnap : snap ∈ (net.nodes t).answered ++ [entries])
    (hsnap' : snap' ∈ (net.nodes u).answered) :
    (hosts u).address ∈ snap ∨ (hosts t).address ∈ snap' := by
  rcases List.mem_append.mp hsnap with hsnap | hsnap
  · exact hinv.meet t u htu snap hsnap snap' hsnap'
  · left
    rw [List.mem_singleton.mp hsnap]
    exact hentries u (List.ne_nil_of_mem hsnap')

/-- **The id server answers**: whoever was answered before is in this answer. -/
theorem Inv.answer {d : Datagram n} {reply : Text} (hinv : Inv ids hosts net)
    (hknown : Known ids hosts net d.src)
    {entries : List Address} (hlists : Lists reply entries)
    (hentries : ∀ j, (net.nodes j).answered ≠ [] → (hosts j).address ∈ entries) :
    Inv ids hosts (net.put d.src { net.nodes d.src with
      replies := (net.nodes d.src).replies ++ [reply]
      answered := (net.nodes d.src).answered ++ [entries] }) := by
  refine ⟨?_, ?_, ?_, ?_,
    ?_⟩
  · intro d' hd'
    rw [attempt_put]
    · exact hinv.sent d' hd'
    · rfl
  · intro t ht
    apply hinv.known_put
    · rfl
    · exact ht
  · intro t ht
    by_cases h : t = d.src
    · rw [h]
      exact hknown
    · rw [nodes_put, if_neg h] at ht
      exact hinv.entered t ht
  · intro t u htu snap hsnap snap' hsnap'
    rw [nodes_put] at hsnap hsnap'
    split at hsnap
    · rename_i ht
      subst ht
      rw [if_neg (Ne.symm htu)] at hsnap'
      exact hinv.meet_answer htu hentries hsnap hsnap'
    · split at hsnap'
      · rename_i hu
        subst hu
        exact (hinv.meet_answer (Ne.symm htu) hentries hsnap' hsnap).symm
      · exact hinv.meet t u htu snap hsnap snap' hsnap'
  · intro t
    rw [nodes_put]
    split
    · rename_i ht
      subst ht
      exact (hinv.node d.src).answered hlists
    · exact hinv.node t

theorem Inv.handled {i : Fin n} {socket : ℕ} {d : Datagram n} {rest : List (Datagram n)}
    (hkeeps : KeepsEntries ids hosts) (hinv : Inv ids hosts net)
    (hrecv : receive (onSocket i socket) net.datagrams = some (d, rest)) :
    Inv ids hosts (net.handled ids d rest) := by
  have htaken := hinv.taken hkeeps hrecv
  rcases (hinv.sent d (mem_of_receive hrecv).1).2.2 with hreg | hreq
  · rw [handled_of_not (Or.inl (hkeeps.enters _ _ _ hreg).2)]
    exact htaken
  · by_cases hsocket : d.socket = (net.nodes d.src).attempt
    · obtain ⟨reply, hreply, hlists⟩ := hkeeps.lists net.idServer d.text hreq
      rw [handled_of_reply hreply hsocket]
      have hknown := hinv.known_of_request hrecv hsocket hreq
      exact htaken.answer (hkeeps.keeps _ _ _ hknown) hlists hinv.entered
    · rw [handled_of_not (Or.inr hsocket)]
      exact htaken

/-- **The list is read**: it has everything that the id server listed. -/
theorem NodeInv.listed {i : Fin n} {node : Node n} {reply : Text} {rest : List Text}
    {servers : List Server} (hnode : NodeInv hosts i node) (hstage : node.stage = .asked)
    (hreplies : node.replies = reply :: rest) (hfits : reply.length < responseSize)
    (hparse : parseServers (some reply) node.msgsrvList = some (0, servers)) :
    NodeInv hosts i { node with
      stage := .walking false, walked := [], ahead := servers, replies := rest
      heard := servers.map Server.address } := by
  refine ⟨fun _ => hnode.called (by simp [hstage]), ?_, ?_, by simp⟩
  · intro r hr
    exact hnode.replies r (by simp [hreplies, hr])
  · intro _
    obtain ⟨snap, hsnap, hlists⟩ := hnode.replies reply (by simp [hreplies])
    obtain ⟨l, hl, hall⟩ := hlists hfits
    obtain ⟨new, hfd, hnew, hany⟩ := parseServers_eq hl
    rw [hany, Option.some.injEq, Prod.mk.injEq] at hparse
    refine ⟨snap, hsnap, fun j _ hj => Or.inr ?_⟩
    obtain ⟨e, he, haddr⟩ := List.mem_map.mp (hall _ hj)
    rw [hnew, List.append_nil] at he
    exact ⟨e, hparse.2 ▸ List.mem_append_left _ he, hfd e he, haddr⟩

theorem peerOf_eq_some (hinj : Function.Injective fun i => (hosts i).address) {e : Server}
    {j : Fin n} (h : e.address = (hosts j).address) : peerOf hosts e = some j := by
  rw [peerOf]
  cases hfind : (List.finRange n).find? fun j => (hosts j).address = e.address with
  | none =>
    rw [List.find?_eq_none] at hfind
    exact absurd h.symm (by simpa using hfind j (List.mem_finRange j))
  | some k =>
    have hk := List.find?_some hfind
    rw [decide_eq_true_eq, h] at hk
    rw [hinj hk]

/-- **One turn of the loop**: the entry is passed over only if it is the host. -/
theorem NodeInv.visited {i : Fin n} {node : Node n} {o : Outcome} {sent : Bool} {e : Server}
    {rest : List Server} (hinj : Function.Injective fun i => (hosts i).address)
    (hnode : NodeInv hosts i node) (hstage : node.stage = .walking sent)
    (hahead : node.ahead = e :: rest) (hopens : o.opens = true) (sent' : Bool) (e' : Server) :
    NodeInv hosts i { node with
      stage := .walking sent', walked := node.walked ++ [e'], ahead := rest
      opened := (connection hosts i o e).toList ++ node.opened } := by
  refine ⟨fun _ => hnode.called (by simp [hstage]), hnode.replies, ?_, by simp⟩
  intro _
  obtain ⟨snap, hsnap, hall⟩ := hnode.reaches (by simp [hstage, Stage.HasList])
  refine ⟨snap, hsnap, ?_⟩
  intro j hj hmem
  rcases hall j hj hmem with ⟨row, hrow, hpeer⟩ | ⟨e₁, he₁, hfd, haddr⟩
  · exact Or.inl ⟨row, List.mem_append_right _ hrow, hpeer⟩
  · rw [hahead] at he₁
    rcases List.mem_cons.mp he₁ with rfl | he₁
    · have hdiff : differentServers e₁ (hosts i) = true := by
        rw [differentServers_eq, decide_eq_true_eq, haddr]
        exact fun heq => hj (hinj heq)
      left
      refine ⟨(o.socketFd, j), ?_, rfl⟩
      rw [connection, if_pos ⟨hdiff, hfd, hopens⟩, peerOf_eq_some hinj haddr]
      simp
    · exact Or.inr ⟨e₁, he₁, hfd, haddr⟩

/-- **What a step preserves** while connections succeed. -/
theorem inv_step {a : Action n} (hkeeps : KeepsEntries ids hosts)
    (hinj : Function.Injective fun i => (hosts i).address) (hinv : Inv ids hosts net)
    (hconnects : a.Connects) (h : step ids hosts net a = some net') : Inv ids hosts net' := by
  cases stepped_of_step h with
  | register hstage => exact hinv.register hstage
  | @ask i hstage =>
    have hnode := hinv.node i
    have hcalled := hnode.called (by simp [hstage])
    have hput : Inv ids hosts (net.put i { net.nodes i with stage := .asked }) :=
      hinv.put ⟨fun _ => hcalled, hnode.replies, by simp [Stage.HasList], by simp⟩ rfl rfl
    exact hput.send (by simpa using hcalled) (Or.inr (by decide))
  | @updateReg i hstage =>
    have hne : (net.nodes i).stage ≠ .idle := by
      rcases hstage with hstage | hstage <;> simp [hstage]
    exact hinv.send ((hinv.node i).called hne) (Or.inl (cstr_append_nul_eq _))
  | handled hrecv => exact hinv.handled hkeeps hrecv
  | @listed i _ _ _ hstage hreplies hfits hparse =>
    exact hinv.put ((hinv.node i).listed hstage hreplies hfits hparse) rfl rfl
  | @refused i _ hstage =>
    have hnode := hinv.node i
    exact hinv.put ⟨fun hne => absurd rfl hne, hnode.replies, by simp [Stage.HasList], by simp⟩
      rfl rfl
  | @failed i _ _ hstage =>
    have hnode := hinv.node i
    exact hinv.put ⟨fun _ => hnode.called (by simp [hstage]), hnode.replies,
      by simp [Stage.HasList], by simp⟩ rfl rfl
  | @visited i o sent sent' e e' rest hstage hahead hfresh hjoin =>
    have hnode := (hinv.node i).visited hinj hstage hahead hconnects sent' e'
    exact (hinv.put hnode rfl rfl).setPending _
  | @finish i sent hstage hahead =>
    have hnode := hinv.node i
    refine hinv.put ⟨fun _ => hnode.called (by simp [hstage]), hnode.replies,
      ?_, fun _ => hahead⟩ rfl rfl
    intro _
    exact hnode.reaches (by simp [hstage, Stage.HasList])
  | @accept client server fd ip port hstage hpending hfresh =>
    have hnode := hinv.node server
    have hnode' : NodeInv hosts server { net.nodes server with
        walked := (tcpNewComm (some (fd, ip, port)) (net.nodes server).walked).2
        accepted := (fd, client) :: (net.nodes server).accepted } :=
      ⟨hnode.called, hnode.replies, hnode.reaches, hnode.done⟩
    exact (hinv.put hnode' rfl rfl).setPending _

theorem inv_run {as : List (Action n)} {s : σ} (hkeeps : KeepsEntries ids hosts)
    (hinj : Function.Injective fun i => (hosts i).address) (hconnects : ∀ a ∈ as, a.Connects)
    (hrun : run (step ids hosts) (start s) as = some net) : Inv ids hosts net :=
  run_invariant_of_meets (fun _ _ _ hinv ha h => inv_step hkeeps hinj hinv ha h) (inv_start s)
    (meets_of_forall hconnects _) hrun

end JoinRace

end MessageBoard
