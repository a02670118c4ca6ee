import Gap.Tunnel.Client
import Gap.Tunnel.TunDevice

namespace Gap.Tunnel

/-!
# Packets over a byte stream

Both ends write what one `read` or `recv` returned to their TUN device, where a write is a packet.
Nothing in the stream tells where a packet ends.

* `writesTo`, `injectedFrom`, `Client.sentOn`, `Client.injectedFrom` — the traffic of a connection
  at its two ends.
* `written_of_step` — what is written to a connection was read from TUN in the same step.
* `Framed`, `Client.Framed` — the invariants: what is injected is what is read, and what is sent
  are packets.
* `tunnel_framing` — the packets arrive exactly when the stream is cut where they end.
* `coalesced_read` — two packets in one read are one packet.
-/

/-! ### The traffic of a connection at the server -/

/-- The buffers written to connection `c`. -/
def writesTo (c : ℕ) (o : List ServerObs) : List (List UInt8) :=
  o.filterMap fun
    | .wrote _ _ file bytes => if file = some (.conn c) then some bytes else none
    | _ => none

/-- The buffers written to the TUN device for data from connection `c`. -/
def injectedFrom (c : ℕ) (o : List ServerObs) : List (List UInt8) :=
  o.filterMap fun
    | .wrote src _ file bytes =>
      if src = some (.conn c) ∧ file = some .tun then some bytes else none
    | _ => none

/-- The packets read from the TUN device. -/
def tunReads (o : List ServerObs) : List (List UInt8) :=
  o.filterMap fun
    | .received _ file bytes => if file = some .tun then some bytes else none
    | _ => none

theorem writesTo_append (c : ℕ) (o e : List ServerObs) :
    writesTo c (o ++ e) = writesTo c o ++ writesTo c e := List.filterMap_append

theorem injectedFrom_append (c : ℕ) (o e : List ServerObs) :
    injectedFrom c (o ++ e) = injectedFrom c o ++ injectedFrom c e := List.filterMap_append

theorem tunReads_append (o e : List ServerObs) : tunReads (o ++ e) = tunReads o ++ tunReads e :=
  List.filterMap_append

/-- Data read or written. -/
def ServerObs.isTraffic : ServerObs → Bool
  | .received _ _ _ => true
  | .wrote _ _ _ _ => true
  | _ => false

theorem traffic_nil {c : ℕ} {e : List ServerObs} (h : ∀ ob ∈ e, ob.isTraffic = false) :
    injectedFrom c e = [] ∧ readsOf c e = [] ∧ writesTo c e = [] := by
  refine ⟨?_, ?_, ?_⟩
  all_goals
    refine List.filterMap_eq_nil_iff.mpr fun ob hob => ?_
    have hquiet := h ob hob
    cases ob with
    | received fd file bytes => cases hquiet
    | wrote src fd file bytes => cases hquiet
    | _ => rfl

variable {cfg : Config}

/-! ### The server -/

/-- What is injected from `c` is what was read from `c`, and what is written to `c` are packets
    read from TUN. -/
structure Framed (cfg : Config) (c : ℕ) (s : Server) (o : List ServerObs) : Prop where
  sane : Sane cfg s
  tun : s.fds cfg.tunFile = some .tun
  injected : injectedFrom c o = readsOf c o
  written : (writesTo c o).Sublist (tunReads o)

theorem framed_init (c : ℕ) : Framed cfg c (Server.init cfg) [] where
  sane := sane_init
  tun := if_pos rfl
  injected := rfl
  written := List.Sublist.refl _

/-- One step after the other. -/
theorem Framed.append {c : ℕ} {s s' : Server} {o e : List ServerObs} (h : Framed cfg c s o)
    (hsane : Sane cfg s') (htun : s'.fds cfg.tunFile = some .tun)
    (hinjected : injectedFrom c e = readsOf c e) (hwritten : (writesTo c e).Sublist (tunReads e)) :
    Framed cfg c s' (o ++ e) where
  sane := hsane
  tun := htun
  injected := by rw [injectedFrom_append, readsOf_append, h.injected, hinjected]
  written := by
    rw [writesTo_append, tunReads_append]
    exact h.written.append hwritten

/-- The file is a connection. -/
def isConn : Option File → Bool
  | some (.conn _) => true
  | _ => false

theorem skipped_quiet (fds : FdTable) (rest : List EpollEvent) :
    ∀ ob ∈ skipped fds rest, ob.isTraffic = false := by
  intro ob hob
  obtain ⟨ev, -, rfl⟩ := List.mem_map.mp hob
  rfl

/-- The close path has no traffic. -/
theorem close_quiet (s : Server) (fd : ℕ) (rest : List EpollEvent) :
    ∀ ob ∈ (s.close cfg fd rest).2, ob.isTraffic = false := by
  intro ob hob
  rw [close_obs] at hob
  rcases List.mem_cons.mp hob with rfl | hob
  · rfl
  · split_ifs at hob
    · exact skipped_quiet _ _ ob hob
    · cases hob

/-- **What is sent.**  As long as no connection has the number of the TUN device, a buffer written
    to a connection is the packet that the step has read from TUN. -/
theorem written_of_step {s s' : Server} {i : ServerInput} {e : List ServerObs} (h : Sane cfg s)
    (htun : isConn (s.fds cfg.tunFile) = false) (hs : s.step cfg i = some (s', e)) (c : ℕ) :
    (writesTo c e).Sublist (tunReads e) := by
  have hquiet : (∀ ob ∈ e, ob.isTraffic = false) → (writesTo c e).Sublist (tunReads e) := by
    intro hno
    rw [(traffic_nil hno).2.2]
    exact List.nil_sublist _
  have heff := effect_of_step h hs
  cases heff with
  | next hread haccept => exact hquiet (skipped_quiet _ _)
  | accepted hfree hpc =>
    refine hquiet fun ob hob => ?_
    rw [List.mem_singleton.mp hob]
    rfl
  | @fromTcp fd c' rest bytes env hpc hconn hne hpos hle =>
    -- data from a connection is written to `tun_file`, which is no connection
    have hfile : s.fds cfg.tunFile ≠ some (.conn c) := fun hc => by rw [hc] at htun; cases htun
    rw [fromTcp_eq s fd hle]
    cases learns s.prefixes fd (env.stale.copy 0 bytes) <;> simp [writesTo, hfile]
  | @fromTun rest bytes env s'' e'' hpc hpos hle hrun =>
    -- what is registered under `tun_file` is no connection and not the socket
    have hread : s.fds cfg.tunFile = some .tun := by
      have hreg := h.pc.pending cfg.tunFile (by rw [hpc]; exact List.mem_cons_self)
      cases hfile : s.fds cfg.tunFile with
      | none => rw [hfile] at hreg; cases hreg
      | some file =>
        rw [hfile] at hreg htun
        cases file with
        | tun => rfl
        | conn c' => cases htun
        | listener => exact absurd (h.fds.listener _ hfile) cfg.tunFile_ne_sfd
        | stdio => cases hreg
        | epoll => cases hreg
        | assignments => cases hreg
    obtain ⟨j, ho, -⟩ := (forwarded_of_fromTun hle hrun).obs
    have hreads : tunReads e = [bytes] := by
      rw [ho]
      cases j <;> simp [tunReads, Server.forward, hread]
    rw [hreads, ho]
    cases j with
    | none => exact List.nil_sublist _
    | some j =>
      by_cases hc : s'.fds j = some (.conn c)
      · simp [writesTo, Server.forward, hc]
      · simp [writesTo, Server.forward, hc]
  | closed hpc hreg hsfd hr => exact hquiet (close_quiet _ _ _)

/-- **Step lemma.**  What is read in a step is injected in this step. -/
theorem framed_step {c : ℕ} {s s' : Server} {i : ServerInput} {o e : List ServerObs}
    (h : Framed cfg c s o) (hC : TunOpen cfg s o i) (hs : s.step cfg i = some (s', e)) :
    Framed cfg c s' (o ++ e) := by
  have htun := (tunOpen_of_step h.sane hs o).mpr ⟨h.tun, hC⟩
  refine h.append (sane_step h.sane hs) htun ?_
    (written_of_step h.sane (by rw [h.tun]; rfl) hs c)
  have hquiet : (∀ ob ∈ e, ob.isTraffic = false) → injectedFrom c e = readsOf c e := by
    intro hno
    rw [(traffic_nil hno).1, (traffic_nil hno).2.1]
  have heff := effect_of_step h.sane hs
  cases heff with
  | next hread haccept => exact hquiet (skipped_quiet _ _)
  | accepted hfree hpc =>
    refine hquiet fun ob hob => ?_
    rw [List.mem_singleton.mp hob]
    rfl
  | @fromTcp fd c' rest bytes env hpc hconn hne hpos hle =>
    -- what is read from a connection is injected at once, under the number of the connection
    rw [fromTcp_eq s fd hle]
    cases learns s.prefixes fd (env.stale.copy 0 bytes) <;>
      simp only [injectedFrom, readsOf, List.filterMap_cons, List.filterMap_nil, hconn, h.tun,
        and_true]
  | @fromTun rest bytes env s'' e'' hpc hpos hle hrun =>
    -- the packet is from TUN and not from a connection
    obtain ⟨j, ho, -⟩ := (forwarded_of_fromTun hle hrun).obs
    rw [ho]
    cases j <;> simp [injectedFrom, readsOf, Server.forward, h.tun, htun]
  | closed hpc hreg hsfd hr => exact hquiet (close_quiet _ _ _)

/-- **Run lemma.**  What is injected is what was read, in every run that keeps the TUN device
    open. -/
theorem framed_of_run (c : ℕ) (is : List ServerInput) (s : Server) (o : List ServerObs)
    (halong : (server cfg).Along (TunOpen cfg) is) (hrun : (server cfg).run is = some (s, o)) :
    Framed cfg c s o :=
  Machine.run_induct_along (P := fun _ s o => Framed cfg c s o) (framed_init c)
    (fun _ _ _ _ _ _ _ h hC hs => framed_step h hC hs) is s o halong hrun

/-! ### The client -/

/-- The file is socket `k`. -/
def ClientFile.isSocket (k : ℕ) : Option ClientFile → Bool
  | some (.socket k' _) => k' == k
  | _ => false

/-- Data read or written. -/
def ClientObs.isTraffic : ClientObs → Bool
  | .received _ _ => true
  | .wrote _ _ _ => true
  | .readTun _ _ => true
  | .sent _ _ => true
  | _ => false

namespace Client

/-- The buffers sent on socket `k`. -/
def sentOn (k : ℕ) (o : List ClientObs) : List (List UInt8) :=
  o.filterMap fun
    | .sent file bytes => if ClientFile.isSocket k file then some bytes else none
    | _ => none

/-- What has been received on socket `k`. -/
def receivedOn (k : ℕ) (o : List ClientObs) : List (List UInt8) :=
  o.filterMap fun
    | .received file bytes => if ClientFile.isSocket k file then some bytes else none
    | _ => none

/-- The buffers written to the TUN device for data from socket `k`. -/
def injectedFrom (k : ℕ) (o : List ClientObs) : List (List UInt8) :=
  o.filterMap fun
    | .wrote src file bytes =>
      if ClientFile.isSocket k src ∧ file = some .tun then some bytes else none
    | _ => none

/-- The packets read from the TUN device. -/
def tunReads (o : List ClientObs) : List (List UInt8) :=
  o.filterMap fun
    | .readTun file bytes => if file = some .tun then some bytes else none
    | _ => none

/-- What is injected from socket `k` is what was received on it, and what is sent on it are packets
    read from TUN; the last packet read may be on the way. -/
structure Framed (cfg : ClientConfig) (k : ℕ) (s : Client) (o : List ClientObs) : Prop where
  tunOk : TunOk cfg s
  injected : injectedFrom k o = receivedOn k o
  sent : (sentOn k o ++ pendingPacket s.pc).Sublist (tunReads o)

variable {ccfg : ClientConfig}

theorem framed_init (k : ℕ) : Framed ccfg k (Client.init ccfg) [] where
  tunOk := tunOk_init
  injected := rfl
  sent := List.Sublist.refl _

/-- One step after the other. -/
theorem Framed.append {k : ℕ} {s s' : Client} {o e : List ClientObs} (h : Framed ccfg k s o)
    (htun : TunOk ccfg s') (hinjected : injectedFrom k e = receivedOn k e)
    (hsent : (sentOn k e ++ pendingPacket s'.pc).Sublist (pendingPacket s.pc ++ tunReads e)) :
    Framed ccfg k s' (o ++ e) where
  tunOk := htun
  injected := by
    show List.filterMap _ (o ++ e) = List.filterMap _ (o ++ e)
    rw [List.filterMap_append, List.filterMap_append]
    exact congrArg₂ _ h.injected hinjected
  sent := by
    have hsplit : sentOn k (o ++ e) = sentOn k o ++ sentOn k e := List.filterMap_append
    have hreads : tunReads (o ++ e) = tunReads o ++ tunReads e := List.filterMap_append
    rw [hsplit, hreads, List.append_assoc]
    -- the packet on the way was read before those of this step
    have hold := h.sent.append_right (tunReads e)
    rw [List.append_assoc] at hold
    exact (hsent.append_left (sentOn k o)).trans hold

/-- A step without traffic, that leaves no packet on the way. -/
theorem Framed.quiet {k : ℕ} {s s' : Client} {o e : List ClientObs} (h : Framed ccfg k s o)
    (htun : TunOk ccfg s') (hquiet : ∀ ob ∈ e, ob.isTraffic = false)
    (hpc : pendingPacket s'.pc = []) : Framed ccfg k s' (o ++ e) := by
  obtain ⟨hinjected, hreceived, hsent⟩ :
      injectedFrom k e = [] ∧ receivedOn k e = [] ∧ sentOn k e = [] := by
    refine ⟨?_, ?_, ?_⟩
    all_goals
      refine List.filterMap_eq_nil_iff.mpr fun ob hob => ?_
      have hob := hquiet ob hob
      cases ob with
      | received file bytes => cases hob
      | wrote src file bytes => cases hob
      | readTun file bytes => cases hob
      | sent file bytes => cases hob
      | _ => rfl
  refine h.append htun (hinjected.trans hreceived.symm) ?_
  rw [hsent, hpc]
  exact List.nil_sublist _

/-- `connect_tcp` has no traffic. -/
theorem connectTcp_quiet (s : Client) (tun : Bool) :
    (∀ ob ∈ (s.connectTcp tun).2, ob.isTraffic = false) ∧
      pendingPacket (s.connectTcp tun).1.pc = [] := by
  unfold connectTcp
  split
  · exact ⟨fun ob hob => (by cases hob), rfl⟩
  · refine ⟨fun ob hob => ?_, rfl⟩
    rw [List.mem_singleton.mp hob]
    rfl

theorem connected_quiet (s : Client) (tun : Bool) :
    (∀ ob ∈ (s.connected tun).2, ob.isTraffic = false) ∧
      pendingPacket (s.connected tun).1.pc = [] := by
  unfold connected
  split
  all_goals
    refine ⟨fun ob hob => ?_, pendingPacket_testTun tun⟩
    rw [List.mem_singleton.mp hob]
    rfl

/-- **Step lemma.**  What is received in a step is injected in this step, and what is sent was
    read from TUN before. -/
theorem framed_step {k : ℕ} {s s' : Client} {i : ClientInput} {o e : List ClientObs}
    (h : Framed ccfg k s o) (hs : s.step ccfg i = some (s', e)) : Framed ccfg k s' (o ++ e) := by
  have htun := tunOk_step h.tunOk hs
  have heff := effect_of_step hs
  cases heff with
  | moved hpc ho =>
    refine h.quiet htun (fun ob hob => ?_) hpc
    rw [ho ob hob]
    rfl
  | @injected tun bytes hpc hne hle =>
    refine h.append htun ?_ ?_
    · simp only [injectedFrom, receivedOn, List.filterMap_cons, List.filterMap_nil, h.tunOk.tun,
        and_true]
    · show ([] ++ pendingPacket (testTun tun)).Sublist _
      rw [pendingPacket_testTun]
      exact List.nil_sublist _
  | @taken bytes hpc hle =>
    have hread : tunReads [.readTun (s.fds ccfg.tunFile) bytes] = [bytes] := by
      simp [tunReads, h.tunOk.tun]
    refine h.append htun rfl ?_
    rw [hread, hpc]
    show (pendingPacket (if bytes.length ≤ 4096 then .sending bytes else .undefined)).Sublist [bytes]
    split_ifs
    · exact List.Sublist.refl _
    · exact List.nil_sublist _
  | @sent bytes hpc =>
    refine h.append htun rfl ?_
    rw [hpc]
    by_cases hk : ClientFile.isSocket k s.tcpFile = true
    · simp [sentOn, hk, pendingPacket]
    · simp [sentOn, hk, pendingPacket]
  | @reconnects t tun o' ht ho =>
    obtain ⟨hquiet, hpc⟩ := connectTcp_quiet t tun
    refine h.quiet htun (fun ob hob => ?_) hpc
    rcases List.mem_append.mp hob with hob | hob
    · obtain ⟨bytes, rfl⟩ := ho ob hob
      rfl
    · exact hquiet ob hob
  | opened hfree => exact h.quiet htun (fun ob hob => by cases hob) rfl
  | @connected tun =>
    obtain ⟨hquiet, hpc⟩ := connected_quiet s tun
    exact h.quiet htun hquiet hpc

/-- **Run lemma.**  The same after every run of the client. -/
theorem framed_of_run (k : ℕ) (is : List ClientInput) (s : Client) (o : List ClientObs)
    (hrun : (client ccfg).run is = some (s, o)) : Framed ccfg k s o :=
  Machine.run_induct (P := fun _ s o => Framed ccfg k s o) (framed_init k)
    (fun _ _ _ _ _ _ _ h hs => framed_step h hs) is s o hrun

end Client

/-! ### Both ends -/

/-- TCP delivers the bytes sent in order and without loss, cut into reads in some way. -/
def Delivered (sent reads : List (List UInt8)) : Prop := reads.flatten = sent.flatten

instance (sent reads : List (List UInt8)) : Decidable (Delivered sent reads) :=
  inferInstanceAs (Decidable (_ = _))

/-- The reads end where the packets end. -/
def CutAtPackets (packets reads : List (List UInt8)) : Prop :=
  reads.map List.length = packets.map List.length

instance (packets reads : List (List UInt8)) : Decidable (CutAtPackets packets reads) :=
  inferInstanceAs (Decidable (_ = _))

/-- A stream cut at the packets is the packets. -/
theorem eq_iff_cutAtPackets {packets reads : List (List UInt8)} (h : Delivered packets reads) :
    reads = packets ↔ CutAtPackets packets reads := by
  rw [List.eq_iff_flatten_eq]
  exact ⟨fun heq => heq.2, fun hcut => ⟨h, hcut⟩⟩

variable {ccfg : ClientConfig}

/-- **Framing.**  For every run of the server that keeps its TUN device open and every run of the
    client, when the stream sent on a socket `k` is delivered on connection `c`: what the client
    sends are packets it has read from its TUN device, and the buffers the server injects are
    these packets exactly when its reads end where they end; and the same from the server to the
    client. -/
theorem tunnel_framing (c k : ℕ) (is : List ServerInput) (s : Server) (o : List ServerObs)
    (ks : List ClientInput) (t : Client) (q : List ClientObs)
    (halong : (server cfg).Along (TunOpen cfg) is) (hrun : (server cfg).run is = some (s, o))
    (hrunc : (client ccfg).run ks = some (t, q)) :
    ((Client.sentOn k q).Sublist (Client.tunReads q) ∧
      (Delivered (Client.sentOn k q) (readsOf c o) →
        (injectedFrom c o = Client.sentOn k q ↔ CutAtPackets (Client.sentOn k q) (readsOf c o)))) ∧
    ((writesTo c o).Sublist (tunReads o) ∧
      (Delivered (writesTo c o) (Client.receivedOn k q) →
        (Client.injectedFrom k q = writesTo c o ↔
          CutAtPackets (writesTo c o) (Client.receivedOn k q)))) := by
  have hserver := framed_of_run c is s o halong hrun
  have hclient := Client.framed_of_run k ks t q hrunc
  refine ⟨⟨?_, fun hstream => ?_⟩, hserver.written, fun hstream => ?_⟩
  · exact (List.sublist_append_left _ _).trans hclient.sent
  · rw [hserver.injected]
    exact eq_iff_cutAtPackets hstream
  · rw [hclient.injected]
    exact eq_iff_cutAtPackets hstream

/-! ### Two packets -/

/-- A client that opened its TUN device first. -/
def ClientConfig.sample : ClientConfig := ⟨3⟩

/-- The client connects on this descriptor. -/
def connectsTo (fd : ℕ) : List ClientInput :=
  [.getaddrinfo true, .socket (some fd), .connect true]

/-- The client reads these packets from TUN and sends them. -/
def sends (packets : List (List UInt8)) : List ClientInput :=
  packets.flatMap fun p => [.select (.ready false true), .readTun (.data p), .send true]

/-- The client receives the bytes of a stream in these pieces. -/
def receives (pieces : List (List UInt8)) : List ClientInput :=
  pieces.flatMap fun p => [.select (.ready true false), .recv (.data p)]

/-- Two packets for the server, and two for the client. -/
def toServer : List (List UInt8) := [helloOf 1, packetOf (linkLocal 1) (linkLocal 2)]

def toClient : List (List UInt8) :=
  [packetOf (linkLocal 2) (linkLocal 1), packetOf (linkLocal 3) (linkLocal 1)]

/-- A client that sends its packets and receives these pieces. -/
def clientRun (pieces : List (List UInt8)) : List ClientInput :=
  connectsTo 4 ++ sends toServer ++ receives pieces

/-- A server that reads these pieces and then sends its packets. -/
def serverRun (pieces : List (List UInt8)) : List ServerInput :=
  connects 7 ++ delivers 7 pieces ++ delivers 3 toClient

/-- `tunnel_framing` when every packet is read on its own. -/
theorem tunnel_framing_onePacketReads :
    ∃ s o t q, (server Config.sample).run (serverRun toServer) = some (s, o) ∧
      (client ClientConfig.sample).run (clientRun toClient) = some (t, q) ∧
      Client.sentOn 0 q = toServer ∧ injectedFrom 0 o = Client.sentOn 0 q ∧
      writesTo 0 o = toClient ∧ Client.injectedFrom 0 q = writesTo 0 o := by
  obtain ⟨s, o, hrun, hreads, hwrites⟩ :
      ∃ s o, (server Config.sample).run (serverRun toServer) = some (s, o) ∧
        readsOf 0 o = toServer ∧ writesTo 0 o = toClient :=
    (server Config.sample).exists_run (by decide +kernel)
  obtain ⟨t, q, hrunc, hsent, hreceived⟩ :
      ∃ t q, (client ClientConfig.sample).run (clientRun toClient) = some (t, q) ∧
        Client.sentOn 0 q = toServer ∧ Client.receivedOn 0 q = toClient :=
    (client ClientConfig.sample).exists_run (by decide +kernel)
  obtain ⟨⟨-, hup⟩, -, hdown⟩ := tunnel_framing 0 0 _ s o _ t q
    (Machine.along_of_alongFrom (by decide +kernel)) hrun hrunc
  rw [hreads, hsent] at hup
  rw [hwrites, hreceived] at hdown
  refine ⟨s, o, t, q, hrun, hrunc, hsent, ?_, hwrites, ?_⟩
  · rw [hsent]
    exact (hup rfl).mpr rfl
  · rw [hwrites]
    exact (hdown rfl).mpr rfl

/-- Two packets read at once are injected as one, at either end. -/
theorem coalesced_read :
    ∃ s o t q, (server Config.sample).run (serverRun [toServer.flatten]) = some (s, o) ∧
      (client ClientConfig.sample).run (clientRun [toClient.flatten]) = some (t, q) ∧
      Client.sentOn 0 q = toServer ∧ Delivered (Client.sentOn 0 q) (readsOf 0 o) ∧
      injectedFrom 0 o = [toServer.flatten] ∧ injectedFrom 0 o ≠ Client.sentOn 0 q ∧
      writesTo 0 o = toClient ∧ Delivered (writesTo 0 o) (Client.receivedOn 0 q) ∧
      Client.injectedFrom 0 q = [toClient.flatten] ∧
      Client.injectedFrom 0 q ≠ writesTo 0 o := by
  obtain ⟨s, o, hrun, hreads, hinjected, hwrites⟩ :
      ∃ s o, (server Config.sample).run (serverRun [toServer.flatten]) = some (s, o) ∧
        readsOf 0 o = [toServer.flatten] ∧ injectedFrom 0 o = [toServer.flatten] ∧
        writesTo 0 o = toClient :=
    (server Config.sample).exists_run (by decide +kernel)
  obtain ⟨t, q, hrunc, hsent, hreceived, hinjectedc⟩ :
      ∃ t q, (client ClientConfig.sample).run (clientRun [toClient.flatten]) = some (t, q) ∧
        Client.sentOn 0 q = toServer ∧ Client.receivedOn 0 q = [toClient.flatten] ∧
        Client.injectedFrom 0 q = [toClient.flatten] :=
    (client ClientConfig.sample).exists_run (by decide +kernel)
  refine ⟨s, o, t, q, hrun, hrunc, hsent, ?_, hinjected, ?_, hwrites, ?_, hinjectedc, ?_⟩
  · rw [hsent, hreads]
    rfl
  · rw [hinjected, hsent]
    decide
  · rw [hwrites, hreceived]
    rfl
  · rw [hinjectedc, hwrites]
    decide

end Gap.Tunnel
