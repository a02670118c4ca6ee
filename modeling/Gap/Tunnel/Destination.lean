import Gap.Tunnel.Decision
import Gap.Tunnel.Network
import Gap.Tunnel.Routing

namespace Gap.Tunnel

/-!
# The client a packet is for

The server knows its clients by the link-local addresses they present and by the blocks that the
assignments file gives to these addresses.  In the network, a packet goes to a client only if it is
for the address of this client or for its block, whatever the other clients do.

* `dstOf`, `OwnPacket` — the destination of a packet, and the packets of a host.
* `writes_of_step` — the entry behind each packet written to a connection.
* `Genuine` — the steps in which clients send packets of their own, and addresses are learned from
  whole packets.
* `Placed` — the invariant: entries have the addresses of the clients behind their connections.
* `packets_belong` — every packet written to a connection belongs to the client behind it.
-/

variable {cfg : Config}

/-! ### Packets -/

/-- The destination of a packet. -/
def dstOf (bytes : List UInt8) : In6Addr := daddr (Buf.copy (fun _ => 0) 0 bytes)

/-- A whole header is read over any buffer. -/
theorem daddr_copy {bytes : List UInt8} (h : 40 ≤ bytes.length) (stale : Buf 4096) :
    daddr (stale.copy 0 bytes) = dstOf bytes := by
  funext i
  rw [dstOf, daddr, daddr, copy_apply stale (by omega), copy_apply _ (by omega)]

/-- Two reads with the same header present the same. -/
theorem presented_of_take {p q : List UInt8} (hp : 40 ≤ p.length) (hq : 40 ≤ q.length)
    (h : p.take 40 = q.take 40) : presented p = presented q := by
  have hget : ∀ i (hi : i < 40), p[i] = q[i] := by
    intro i hi
    have hpi : (p.take 40)[i]? = some p[i] := by
      rw [List.getElem?_take_of_lt hi, List.getElem?_eq_getElem]
    rw [h, List.getElem?_take_of_lt hi, List.getElem?_eq_getElem] at hpi
    exact (Option.some.inj hpi).symm
  have hversion : version (Buf.copy (fun _ => 0) 0 p) = version (Buf.copy (fun _ => 0) 0 q) := by
    show Buf.copy (fun _ => 0) 0 p ⟨0, _⟩ >>> 4 = Buf.copy (fun _ => 0) 0 q ⟨0, _⟩ >>> 4
    rw [copy_apply _ (by omega), copy_apply _ (by omega), hget 0 (by decide)]
  have hsaddr : saddr (Buf.copy (fun _ => 0) 0 p) = saddr (Buf.copy (fun _ => 0) 0 q) := by
    funext i
    rw [saddr, saddr, copy_apply _ (by omega), copy_apply _ (by omega), hget _ (by omega)]
  rw [presented, presented, linkLocalSource, linkLocalSource, hversion, hsaddr]

/-- A packet of the host with link-local address `a`: its source is this address, or is not
    link-local. -/
def OwnPacket (a : In6Addr) (bytes : List UInt8) : Prop :=
  40 ≤ bytes.length ∧ (presented bytes = none ∨ presented bytes = some a)

instance (a : In6Addr) (bytes : List UInt8) : Decidable (OwnPacket a bytes) :=
  inferInstanceAs (Decidable (_ ∧ _))

/-! ### Writes to connections -/

/-- The entry of connection `c` that attracts packets for `dst`. -/
def Attracts (cfg : Config) (s : Server) (c : ℕ) (dst : In6Addr) (j : Fin 512) : Prop :=
  s.fds j = some (.conn c) ∧ if cfg.inSlash52 dst = true then (s.prefixes j).matchesPd dst = true
    else (s.prefixes j).matchesLl dst = true

/-- **What is written to a connection** is the packet that the step has read from TUN, and the
    connection has an entry for its destination. -/
theorem writes_of_step {s s' : Server} {i : ServerInput} {e : List ServerObs} (h : Sane cfg s)
    (htun : s.fds cfg.tunFile = some .tun) (hs : s.step cfg i = some (s', e))
    {src : Option File} {fd c : ℕ} {bytes : List UInt8}
    (hw : .wrote src fd (some (.conn c)) bytes ∈ e) :
    ∃ rest env, s.pc = .reading cfg.tunFile rest ∧ i = .read (.data bytes) env ∧
      ∃ j, Attracts cfg s' c (daddr (env.stale.copy 0 bytes)) j := by
  have hforward : ∀ {bytes' : List UInt8} {t : Server} {j : Option (Fin 512)},
      .wrote src fd (some (.conn c)) bytes ∈
        ServerObs.received cfg.tunFile (s.fds cfg.tunFile) bytes' :: t.forward cfg bytes' j →
      ∃ k, j = some k ∧ t.fds k = some (.conn c) ∧ bytes = bytes' := by
    intro bytes' t j hmem
    cases j with
    | none => simp [Server.forward] at hmem
    | some k =>
      simp only [Server.forward, List.mem_cons, List.not_mem_nil, or_false, reduceCtorEq,
        ServerObs.wrote.injEq, false_or] at hmem
      exact ⟨k, rfl, hmem.2.2.1.symm, hmem.2.2.2⟩
  have heff := effect_of_step h hs
  cases heff with
  | next hread haccept =>
    obtain ⟨ev, -, hev⟩ := List.mem_map.mp hw
    cases hev
  | accepted hfree hpc => simp at hw
  | @fromTcp fd' c' rest bytes' env hpc hconn hne hpos hle =>
    -- data from a connection is written to the TUN device
    rw [fromTcp_eq s fd' hle] at hw
    cases hlearns : learns s.prefixes fd' (env.stale.copy 0 bytes') <;> simp [hlearns, htun] at hw
  | @fromTun rest bytes' env _ _ hpc hpos hle hrun =>
    by_cases hv : version (env.stale.copy 0 bytes') = 6
    · by_cases h52 : cfg.inSlash52 (daddr (env.stale.copy 0 bytes')) = true
      · cases lookup52_of_fromTun hpc hle hrun hv h52 with
        | hit j hfind hs' ho =>
          rw [ho] at hw
          obtain ⟨k, hk, hconn, rfl⟩ := hforward hw
          obtain rfl := Option.some.inj hk
          rw [hs']
          exact ⟨rest, env, hpc, rfl, j, hconn, by
            rw [if_pos h52]; exact Fin.eq_true_of_find?_eq_some hfind⟩
        | unreadable hfind ha hs' ho => simp [ho] at hw
        | overrun a hfind ha hload hs' ho => simp [ho] at hw
        | loaded a hfind ha hload hs' ho =>
          rw [ho] at hw
          obtain ⟨k, hk, hconn, rfl⟩ := hforward hw
          exact ⟨rest, env, hpc, rfl, k, hconn, by
            rw [if_pos h52]; exact Fin.eq_true_of_find?_eq_some hk⟩
      · obtain ⟨hs', ho⟩ := fromTun_of_not52 hle hrun hv h52
        rw [ho] at hw
        obtain ⟨k, hk, hconn, rfl⟩ := hforward hw
        split_ifs at hk with h64
        rw [hs']
        exact ⟨rest, env, hpc, rfl, k, hconn, by
          rw [if_neg h52]; exact Fin.eq_true_of_find?_eq_some hk⟩
    · -- only packets of version 6 are sent on
      simp only [Server.fromTun, hv, ne_eq, not_false_eq_true, if_true] at hrun
      obtain ⟨-, rfl⟩ := Prod.mk.inj (Option.some.inj hrun)
      simp at hw
  | closed hpc hreg hsfd hr =>
    have hquiet := close_quiet s _ _ _ hw
    cases hquiet

/-! ### Blocks -/

/-- Every block in the table was given to the address of its entry. -/
def Planned (plan : In6Addr → In6Addr → Prop) (t : Prefixes) : Prop :=
  ∀ j, (t j).plenPd ≠ 0 → plan (t j).addrLl (t j).addrPd

theorem Planned.assign {plan : In6Addr → In6Addr → Prop} {t : Prefixes} (h : Planned plan t)
    {addr block : In6Addr} (hd : plan addr block) : Planned plan (assign t addr block) := by
  rcases assign_cases t addr block with hsame | ⟨j, -, ha, hwrite⟩
  · rw [hsame]
    exact h
  · rw [hwrite]
    intro k hk
    by_cases hkj : k = j
    · subst hkj
      rw [Function.update_self]
      show plan (t k).addrLl block
      rw [ha]
      exact hd
    · rw [Function.update_of_ne hkj] at hk ⊢
      exact h k hk

/-- A reload gives the blocks of the file. -/
theorem Planned.reload {plan : In6Addr → In6Addr → Prop} {t u : Prefixes} (h : Planned plan t)
    {a : Assignments} (ha : ∀ d ∈ delegations cfg.inetPton a.ind a.contents, plan d.1 d.2)
    (hload : parsePrefixes cfg.inetPton a.ind a.contents t = some u) : Planned plan u := by
  rw [eq_of_parsePrefixes hload]
  exact List.foldlRecOn (motive := Planned plan) _ _ h
    fun t' ht' d hd => ht'.assign (ha d hd)

/-- The blocks that a step loads. -/
def LoadsPlanned (cfg : Config) (plan : In6Addr → In6Addr → Prop) : ServerInput → Prop
  | .read (.data _) env =>
    ∀ a ∈ env.assignments, ∀ d ∈ delegations cfg.inetPton a.ind a.contents, plan d.1 d.2
  | _ => True

/-- **Step lemma.**  The blocks in the table stay those of the files. -/
theorem planned_step {plan : In6Addr → In6Addr → Prop} {s s' : Server} {i : ServerInput}
    {e : List ServerObs} (h : Sane cfg s) (ht : TableOk s) (hplan : Planned plan s.prefixes)
    (hC : LoadsPlanned cfg plan i) (hs : s.step cfg i = some (s', e)) :
    Planned plan s'.prefixes := by
  have heff := effect_of_step h hs
  cases heff with
  | next hread haccept => exact hplan
  | accepted hfree hpc => exact hplan
  | @fromTcp fd c rest bytes env hpc hconn htun hpos hle =>
    intro j hj
    rw [(fromTcp_plenPd cfg s fd bytes env.stale j).1] at hj
    -- an entry that has a block has learned its address before
    rw [fromTcp_prefixes s (.inr (ht.pd j hj))]
    exact hplan j hj
  | @fromTun rest bytes env _ _ hpc hpos hle hrun =>
    by_cases hv : version (env.stale.copy 0 bytes) = 6
    · by_cases h52 : cfg.inSlash52 (daddr (env.stale.copy 0 bytes)) = true
      · cases lookup52_of_fromTun hpc hle hrun hv h52 with
        | hit j hfind hs' ho => rw [hs']; exact hplan
        | unreadable hfind ha hs' ho => rw [hs']; exact hplan
        | overrun a hfind ha hload hs' ho =>
          rw [hs', reload_of_none hload]
          exact hplan
        | loaded a hfind ha hload hs' ho => exact hplan.reload (hC a ha) hload
      · rw [(fromTun_of_not52 hle hrun hv h52).1]
        exact hplan
    · simp only [Server.fromTun, hv, ne_eq, not_false_eq_true, if_true] at hrun
      obtain ⟨rfl, -⟩ := Prod.mk.inj (Option.some.inj hrun)
      exact hplan
  | closed hpc hreg hsfd hr =>
    intro j hj
    rw [close_prefixes] at hj ⊢
    split_ifs at hj ⊢ with hfd
    · exact absurd rfl hj
    · exact hplan j hj

/-! ### The network -/

section Network

variable {κ : Type*} [DecidableEq κ] {ccfg : κ → ClientConfig}

/-- A far end keeps its near end through a step of the network. -/
theorem accepted_get_of_step {n n' : Network κ} {x : NetInput κ} {e : List (Call κ)}
    (hs : n.step cfg ccfg x = some (n', e)) {c : ℕ} {p : κ × ℕ}
    (hc : n.wires.accepted[c]? = some p) : n'.wires.accepted[c]? = some p :=
  Wires.accepted_get_of_runFrom (network_step_cases hs).2 hc

/-- An open connection has a near end. -/
theorem accepted_of_conn {xs : List (NetInput κ)} {n : Network κ} {o : List (Call κ)}
    (hrun : (network cfg ccfg).run xs = some (n, o)) {fd c : ℕ}
    (hfd : n.server.fds fd = some (.conn c)) : ∃ i k, n.wires.accepted[c]? = some (i, k) := by
  obtain ⟨is, hserver⟩ := network_server xs n o hrun
  obtain ⟨-, -, hcount⟩ := network_wires xs n o hrun
  obtain ⟨hsane, hnext⟩ := nextConn_of_run is _ _ hserver
  have hlt : c < n.wires.accepted.length := by
    rw [hcount, countP_events, ← hnext]
    exact hsane.fds.conn_lt fd c hfd
  exact ⟨_, _, List.getElem?_eq_getElem hlt⟩

/-- The bytes start with the header of a packet that was sent on this socket. -/
def HeaderSent (o : List (Call κ)) (bytes : List UInt8) (q : κ × ℕ) : Prop :=
  ∃ p ∈ Client.sentOn q.2 (clientOf q.1 o), 40 ≤ bytes.length ∧ bytes.take 40 = p.take 40

instance (o : List (Call κ)) (bytes : List UInt8) (q : κ × ℕ) : Decidable (HeaderSent o bytes q) :=
  inferInstanceAs (Decidable (∃ p ∈ _, _))

/-- What is read from a connection that has no address yet starts with the header of a packet that
    was sent on its socket. -/
def ReadsHeader (n : Network κ) (o : List (Call κ)) (bytes : List UInt8) : Prop :=
  ∀ fd ∈ n.server.pc.readingFd, ∀ h : fd < 512, (n.server.prefixes ⟨fd, h⟩).plenLl = 0 →
    ∀ c ∈ connOf (n.server.fds fd), ∀ q ∈ n.wires.accepted[c]?, HeaderSent o bytes q

instance (n : Network κ) (o : List (Call κ)) (bytes : List UInt8) :
    Decidable (ReadsHeader n o bytes) :=
  haveI : ∀ fd : ℕ, Decidable (∀ c ∈ connOf (n.server.fds fd), ∀ q ∈ n.wires.accepted[c]?,
      HeaderSent o bytes q) := fun _ =>
    haveI : ∀ c : ℕ, Decidable (∀ q ∈ n.wires.accepted[c]?, HeaderSent o bytes q) := fun _ =>
      Option.decidableForallMem _
    Option.decidableForallMem _
  Option.decidableForallMem _

/-- A step in which a client reads a packet of its own from its TUN device, or the server reads a
    whole packet from its own, or a header from a connection that has no address yet; and the
    assignments loaded are as planned. -/
def Genuine (cfg : Config) (ccfg : κ → ClientConfig) (addr : κ → In6Addr)
    (plan : In6Addr → In6Addr → Prop) (n : Network κ) (o : List (Call κ)) : NetInput κ → Prop
  | .client i x =>
    ∀ r ∈ (n.clients i).step (ccfg i) x, ∀ p ∈ Client.tunReads r.2, OwnPacket (addr i) p
  | .server (.read (.data bytes) env) _ =>
    (n.server.pc.readingFd = some cfg.tunFile → 40 ≤ bytes.length) ∧ ReadsHeader n o bytes ∧
      LoadsPlanned cfg plan (.read (.data bytes) env)
  | _ => True

instance (plan : In6Addr → In6Addr → Prop) [∀ a b, Decidable (plan a b)] :
    (i : ServerInput) → Decidable (LoadsPlanned cfg plan i)
  -- over the delegations of the file, and not over all addresses
  | .read (.data _) _ => @Option.decidableForallMem _ _ (fun _ => List.decidableBAll _ _) _
  | .read .again _ => isTrue trivial
  | .read .error _ => isTrue trivial
  | .read .eof _ => isTrue trivial
  | .accept _ => isTrue trivial
  | .epollWait _ => isTrue trivial

instance (addr : κ → In6Addr) (plan : In6Addr → In6Addr → Prop) [∀ a b, Decidable (plan a b)]
    (n : Network κ) (o : List (Call κ)) :
    (x : NetInput κ) → Decidable (Genuine cfg ccfg addr plan n o x)
  | .client _ _ => Option.decidableForallMem _
  | .server (.read (.data _) _) _ => inferInstanceAs (Decidable (_ ∧ _ ∧ _))
  | .server (.read .again _) _ => isTrue trivial
  | .server (.read .error _) _ => isTrue trivial
  | .server (.read .eof _) _ => isTrue trivial
  | .server (.accept _) _ => isTrue trivial
  | .server (.epollWait _) _ => isTrue trivial
  | .serverGone _ => isTrue trivial
  | .clientGone _ _ => isTrue trivial

/-- A packet belongs to a client: it is for a block planned for the address of the client, or,
    outside the /52, for the address itself. -/
def Belongs (cfg : Config) (plan : In6Addr → In6Addr → Prop) (a : In6Addr) (bytes : List UInt8) :
    Prop :=
  if cfg.inSlash52 (dstOf bytes) = true then
    ∃ block, plan a block ∧ covers block (dstOf bytes) = true
  else (dstOf bytes).agree a 8 8 = true

/-- The entries have the addresses of the clients behind their connections, and the packets
    written to a connection belong to its client. -/
structure Placed (cfg : Config) (addr : κ → In6Addr) (plan : In6Addr → In6Addr → Prop)
    (n : Network κ) (o : List (Call κ)) : Prop where
  sane : Sane cfg n.server
  table : TableOk n.server
  tun : n.server.fds cfg.tunFile = some .tun
  planned : Planned plan n.server.prefixes
  own : ∀ i, ∀ p ∈ Client.tunReads (clientOf i o), OwnPacket (addr i) p
  learned : ∀ (j : Fin 512) c, n.server.fds j = some (.conn c) → (n.server.prefixes j).plenLl ≠ 0 →
    ∃ i k, n.wires.accepted[c]? = some (i, k) ∧ (n.server.prefixes j).addrLl = addr i
  wrote : ∀ src fd c bytes, .wrote src fd (some (.conn c)) bytes ∈ serverOf o →
    ∃ i k, n.wires.accepted[c]? = some (i, k) ∧ Belongs cfg plan (addr i) bytes

variable {addr : κ → In6Addr} {plan : In6Addr → In6Addr → Prop}

theorem placed_init : Placed cfg addr plan (network cfg ccfg).init [] where
  sane := sane_init
  table := tableOk_init
  tun := if_pos rfl
  planned j hj := absurd rfl hj
  own i p hp := by cases hp
  learned j c hc := absurd hc (cfg.fds_ne_conn j c)
  wrote src fd c bytes hw := by cases hw

/-- A client, or the kernel for a process that has ended. -/
theorem Placed.elsewhere {n n' : Network κ} {o e : List (Call κ)} (h : Placed cfg addr plan n o)
    (hserver : n'.server = n.server) (hnone : serverOf e = [])
    (hown : ∀ i, ∀ p ∈ Client.tunReads (clientOf i e), OwnPacket (addr i) p)
    (haccepted : ∀ {c : ℕ} {p : κ × ℕ}, n.wires.accepted[c]? = some p →
      n'.wires.accepted[c]? = some p) : Placed cfg addr plan n' (o ++ e) where
  sane := hserver ▸ h.sane
  table := hserver ▸ h.table
  tun := hserver ▸ h.tun
  planned := hserver ▸ h.planned
  own i p hp := by
    rw [clientOf_append, Client.tunReads, List.filterMap_append] at hp
    exact (List.mem_append.mp hp).elim (h.own i p) (hown i p)
  learned j c hc hll := by
    rw [hserver] at hc hll ⊢
    obtain ⟨i, k, hget, ha⟩ := h.learned j c hc hll
    exact ⟨i, k, haccepted hget, ha⟩
  wrote src fd c bytes hw := by
    rw [serverOf_append, hnone, List.append_nil] at hw
    obtain ⟨i, k, hget, hbelongs⟩ := h.wrote src fd c bytes hw
    exact ⟨i, k, haccepted hget, hbelongs⟩

/-- What is learned is the address of the client whose header was read. -/
theorem Placed.of_learns {xs : List (NetInput κ)} {n : Network κ} {o : List (Call κ)}
    (h : Placed cfg addr plan n o) (hrun : (network cfg ccfg).run xs = some (n, o)) {fd c : ℕ}
    {rest : List EpollEvent} {bytes : List UInt8} {stale : Buf 4096} {a : In6Addr}
    (hpc : n.server.pc = .reading fd rest) (hfd : n.server.fds fd = some (.conn c))
    (hC : ReadsHeader n o bytes) (ha : learns n.server.prefixes fd (stale.copy 0 bytes) = some a) :
    ∃ i k, n.wires.accepted[c]? = some (i, k) ∧ a = addr i := by
  obtain ⟨i, k, hget⟩ := accepted_of_conn hrun hfd
  obtain ⟨j, rfl, hll, hsource⟩ := learns_eq_some ha
  obtain ⟨p, hp, hlen, htake⟩ := hC j (by rw [hpc]; rfl) j.isLt hll c (connOf_eq_some.mpr hfd)
    (i, k) hget
  obtain ⟨js, hclient⟩ := network_client i xs n o hrun
  have hframed := Client.framed_of_run k js _ _ hclient
  -- the packet is one the client has read from its own TUN device
  have hown := h.own i p (((List.sublist_append_left _ _).trans hframed.sent).subset hp)
  rw [linkLocalSource_of_le hlen, presented_of_take hlen hown.1 htake] at hsource
  rcases hown.2 with hnone | hsome
  · rw [hnone] at hsource
    cases hsource
  · rw [hsome, Option.some.injEq] at hsource
    exact ⟨i, k, hget, hsource.symm⟩

theorem Genuine.loads {n : Network κ} {o : List (Call κ)} {i : ServerInput} {r : WriteResult}
    (hC : Genuine cfg ccfg addr plan n o (.server i r)) : LoadsPlanned cfg plan i := by
  cases i with
  | epollWait events => exact trivial
  | accept a => exact trivial
  | read a env =>
    cases a with
    | data bytes => exact hC.2.2
    | _ => exact trivial

/-- An entry that attracts packets has an address. -/
theorem Attracts.plenLl {s : Server} {j : Fin 512} {c : ℕ} {dst : In6Addr} (htable : TableOk s)
    (h : Attracts cfg s c dst j) : (s.prefixes j).plenLl ≠ 0 := by
  obtain ⟨-, hmatch⟩ := h
  split_ifs at hmatch
  · rw [SocketPrefix.matchesPd_eq, Bool.and_eq_true, bne_iff_ne] at hmatch
    exact htable.pd j hmatch.1
  · rw [SocketPrefix.matchesLl, Bool.and_eq_true, bne_iff_ne] at hmatch
    exact hmatch.1

/-- What it attracts belongs to this address. -/
theorem Attracts.belongs {s : Server} {j : Fin 512} {c : ℕ} {bytes : List UInt8}
    (hplan : Planned plan s.prefixes) (h : Attracts cfg s c (dstOf bytes) j) :
    Belongs cfg plan (s.prefixes j).addrLl bytes := by
  obtain ⟨-, hmatch⟩ := h
  unfold Belongs
  split_ifs at hmatch ⊢
  · rw [SocketPrefix.matchesPd_eq, Bool.and_eq_true, bne_iff_ne] at hmatch
    exact ⟨_, hplan j hmatch.1, hmatch.2⟩
  · rw [SocketPrefix.matchesLl, Bool.and_eq_true] at hmatch
    exact hmatch.2

/-- **Step lemma.**  A step of the server keeps the entries at the addresses of the clients, and
    writes to a connection what belongs to its client. -/
theorem Placed.serves {xs : List (NetInput κ)} {n n' : Network κ} {o e : List (Call κ)}
    {i : ServerInput} {r : WriteResult} (h : Placed cfg addr plan n o)
    (hrun : (network cfg ccfg).run xs = some (n, o)) (hK : TunOpen cfg n.server [] i)
    (hC : Genuine cfg ccfg addr plan n o (.server i r))
    (hs : n.server.step cfg i = some (n'.server, serverOf e)) (hquiet : ∀ i, clientOf i e = [])
    (haccepted : ∀ {c : ℕ} {p : κ × ℕ}, n.wires.accepted[c]? = some p →
      n'.wires.accepted[c]? = some p) : Placed cfg addr plan n' (o ++ e) := by
  have htable := tableOk_step h.sane h.table hs
  have hplanned := planned_step h.sane h.table h.planned hC.loads hs
  have hlearned : ∀ (j : Fin 512) c, n'.server.fds j = some (.conn c) →
      (n'.server.prefixes j).plenLl ≠ 0 →
      ∃ i k, n'.wires.accepted[c]? = some (i, k) ∧ (n'.server.prefixes j).addrLl = addr i := by
    intro j c hc hll
    rcases entry_of_step h.sane hs hc with ⟨hp, ha⟩ | ⟨a, hmem, -, -, ha⟩
    · rw [hp] at hll
      -- the connection was open: the entry of a free descriptor has no address
      have hopen : n.server.fds j = some (.conn c) := by
        refine (conn_cases h.sane hs hc).resolve_right fun hnew => ?_
        exact hll (h.table.of_free hnew.2.1).1
      obtain ⟨i, k, hget, haddr⟩ := h.learned j c hopen hll
      exact ⟨i, k, haccepted hget, ha.trans haddr⟩
    · obtain ⟨hfile, -, rest, bytes, env, hpc, rfl, hlearns, -⟩ := tellsOf_step h.sane hs hmem
      obtain ⟨i, k, hget, haddr⟩ := h.of_learns hrun hpc hfile.symm hC.2.1 hlearns
      exact ⟨i, k, haccepted hget, ha.trans haddr⟩
  refine ⟨sane_step h.sane hs, htable, (tunOpen_of_step h.sane hs []).mpr ⟨h.tun, hK⟩, hplanned,
    fun i p hp => ?_, hlearned, fun src fd c bytes hw => ?_⟩
  · rw [clientOf_append, hquiet, List.append_nil] at hp
    exact h.own i p hp
  · rw [serverOf_append] at hw
    rcases List.mem_append.mp hw with hold | hnew
    · obtain ⟨i, k, hget, hbelongs⟩ := h.wrote src fd c bytes hold
      exact ⟨i, k, haccepted hget, hbelongs⟩
    · obtain ⟨rest, env, hpc, rfl, j, hattracts⟩ := writes_of_step h.sane h.tun hs hnew
      rw [daddr_copy (hC.1 (by rw [hpc]; rfl))] at hattracts
      obtain ⟨i, k, hget, ha⟩ := hlearned j c hattracts.1 (hattracts.plenLl htable)
      exact ⟨i, k, hget, ha ▸ hattracts.belongs hplanned⟩

/-- **Run lemma.** -/
theorem placed_of_run (xs : List (NetInput κ)) (n : Network κ) (o : List (Call κ))
    (halong : (network cfg ccfg).Along
      (fun n o x => KeepsTun cfg n x ∧ Genuine cfg ccfg addr plan n o x) xs)
    (hrun : (network cfg ccfg).run xs = some (n, o)) : Placed cfg addr plan n o := by
  refine Machine.run_induct_along (P := fun _ n o => Placed cfg addr plan n o) placed_init ?_ xs n
    o halong hrun
  intro xs x n o n' e hrun h hC hs
  obtain ⟨hdoes, -⟩ := network_step_cases hs
  have haccepted : ∀ {c : ℕ} {p : κ × ℕ}, n.wires.accepted[c]? = some p →
      n'.wires.accepted[c]? = some p := fun hget => accepted_get_of_step hs hget
  cases hdoes with
  | @server i r s' e' w hserver =>
    refine h.serves hrun hC.1 hC.2 ?_ (fun j => clientOf_server j _ _ _ _) haccepted
    rw [serverOf_server]
    exact hserver
  | @client i x t e' w hclient =>
    refine h.elsewhere rfl (serverOf_client _ _ _ _) (fun j p hp => ?_) haccepted
    rw [clientOf_client] at hp
    split_ifs at hp with hij
    · subst hij
      exact hC.2 _ hclient p hp
    · cases hp
  | serverGone hgone =>
    exact h.elsewhere rfl rfl (fun _ _ hp => by cases hp) haccepted
  | clientGone hgone =>
    exact h.elsewhere rfl rfl (fun _ _ hp => by cases hp) haccepted

/-- **Packets go to their clients.**  In every run in which the clients read packets of their own
    from their TUN devices, the server keeps its TUN device open and reads whole packets from it,
    an address is learned from a read that starts with the header of a packet the client has sent,
    and the assignments files give only planned blocks: each packet that the server writes to a
    connection belongs to the client behind the connection.  It is for a block planned for the
    address of this client or, outside the /52, for this address.  The order of the steps, the
    reconnects of the clients, the other reads and the contents of the buffer do not matter. -/
theorem packets_belong (xs : List (NetInput κ)) (n : Network κ) (o : List (Call κ))
    (halong : (network cfg ccfg).Along
      (fun n o x => KeepsTun cfg n x ∧ Genuine cfg ccfg addr plan n o x) xs)
    (hrun : (network cfg ccfg).run xs = some (n, o)) (src : Option File) (fd c : ℕ)
    (bytes : List UInt8) (hw : .wrote src fd (some (.conn c)) bytes ∈ serverOf o) :
    ∃ i k, n.wires.accepted[c]? = some (i, k) ∧ Belongs cfg plan (addr i) bytes :=
  (placed_of_run xs n o halong hrun).wrote src fd c bytes hw

end Network

/-- The addresses of two clients. -/
def clientAddr (i : Bool) : In6Addr := linkLocal (if i then 1 else 2)

/-- Both clients present their addresses, the second one while its packet is read together with
    the start of the next; then a packet for the second client arrives. -/
def twoAddresses : List (NetInput Bool) :=
  clientTakes true (connectsTo 4 ++ sends [helloOf 1]) ++
    clientTakes false (connectsTo 4 ++ sends [helloOf 2, helloOf 2]) ++
    serverTakes .again (connects 7 ++ connects 8 ++ delivers 7 [helloOf 1] ++
      delivers 8 [helloOf 2 ++ (helloOf 2).take 4]) ++
    serverTakes (.took 40) (delivers 3 [packetOf (linkLocal 9) (linkLocal 2)])

/-- `packets_belong` for that packet, which is written to the second connection. -/
theorem packets_belong_twoAddresses :
    ∃ n o, networkOfTwo.run twoAddresses = some (n, o) ∧
      .wrote (some .tun) 8 (some (.conn 1)) (packetOf (linkLocal 9) (linkLocal 2)) ∈ serverOf o ∧
      ∃ i k, n.wires.accepted[1]? = some (i, k) ∧
        Belongs Config.sample (fun _ _ => False) (clientAddr i)
          (packetOf (linkLocal 9) (linkLocal 2)) := by
  obtain ⟨n, o, hrun, hwrote⟩ : ∃ n o, networkOfTwo.run twoAddresses = some (n, o) ∧
      .wrote (some .tun) 8 (some (.conn 1)) (packetOf (linkLocal 9) (linkLocal 2)) ∈ serverOf o :=
    networkOfTwo.exists_run (P := fun _ o => .wrote (some .tun) 8 (some (.conn 1))
      (packetOf (linkLocal 9) (linkLocal 2)) ∈ serverOf o) (by decide +kernel)
  exact ⟨n, o, hrun, hwrote, packets_belong twoAddresses n o
    (Machine.along_of_alongFrom (by decide +kernel)) hrun _ _ _ _ hwrote⟩

end Gap.Tunnel
