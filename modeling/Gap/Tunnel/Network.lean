import Gap.Lib.Along
import Gap.Lib.Wires
import Gap.Tunnel.Backpressure
import Gap.Tunnel.Descriptors

namespace Gap.Tunnel

/-!
# The tunnel server and its clients

One server and any number of clients, each taking its own steps in any order, with the TCP
connections between them: a client that has connected waits in the backlog of the listening socket
until it is accepted, bytes written are on the way until the other end has read them, in pieces of
any length, and end-of-file is read when the other end has closed its socket and nothing is left.

* `Call` — what the processes do, and `Call.event`, what this does to the connections.
* `Network`, `Network.step`, `network` — the joint system.
* `serverOf`, `clientOf` — the traces of the processes in a joint trace.
* `network_serves`, `network_client`, `network_wires` — a run of the network is a run of each part.
* `network_streams` — what arrives at a TUN device is what one client has sent, or what the server
  has sent to this client.
* `orderly_end` — a connection that ends with end-of-file has delivered everything.
-/

/-! ### Calls -/

/-- The connection a descriptor of the server refers to. -/
def connOf : Option File → Option ℕ
  | some (.conn c) => some c
  | _ => none

theorem connOf_eq_some {file : Option File} {c : ℕ} :
    connOf file = some c ↔ file = some (.conn c) := by
  unfold connOf
  split <;> simp_all

/-- The socket a descriptor of a client refers to. -/
def socketOf : Option ClientFile → Option ℕ
  | some (.socket k _) => some k
  | _ => none

theorem socketOf_eq_some {file : Option ClientFile} {k : ℕ} :
    socketOf file = some k ↔ ClientFile.isSocket k file = true := by
  unfold socketOf ClientFile.isSocket
  split <;> simp

/-- What the processes do, with the bytes the kernel takes of what is written. -/
inductive Call (κ : Type*)
  | server (ob : ServerObs) (taken : List UInt8)
  | client (i : κ) (ob : ClientObs)
  /-- `read` or `recv` returns 0. -/
  | serverEnd (file : Option File)
  | clientEnd (i : κ) (file : Option ClientFile)
  /-- A socket is closed by the kernel, after the end of its process. -/
  | serverGone (c : ℕ)
  | clientGone (i : κ) (k : ℕ)
  deriving DecidableEq

namespace Call

variable {κ : Type*}

/-- What a call does to the connections.  The near ends are the sockets of the clients. -/
def event : Call κ → Option (WireEvent (κ × ℕ) UInt8)
  | .server (.accepted _ _) _ => some .accept
  | .server (.received _ file bytes) _ => (connOf file).map fun c => .read c bytes
  | .server (.wrote _ _ file _) taken => (connOf file).map fun c => .write c taken
  | .server (.ended _ file) _ => (connOf file).map .hangUp
  | .server _ _ => none
  | .client i (.connected file) => (socketOf file).map fun k => .connect (i, k)
  | .client i (.received file bytes) => (socketOf file).map fun k => .get (i, k) bytes
  | .client i (.sent file bytes) => (socketOf file).map fun k => .send (i, k) bytes
  | .client i (.closed _ file) => (socketOf file).map fun k => .close (i, k)
  | .client _ _ => none
  | .serverEnd file => (connOf file).map .readEnd
  | .clientEnd i file => (socketOf file).map fun k => .getEnd (i, k)
  | .serverGone c => some (.hangUp c)
  | .clientGone i k => some (.close (i, k))

/-- The output of the server. -/
def served : Call κ → Option ServerObs
  | .server ob _ => some ob
  | _ => none

/-- The same, with the bytes taken of a write. -/
def pressed : Call κ → Option (ServerObs × List UInt8)
  | .server ob taken => some (ob, taken)
  | _ => none

/-- The output of client `i`. -/
def of [DecidableEq κ] (i : κ) : Call κ → Option ClientObs
  | .client j ob => if j = i then some ob else none
  | _ => none

end Call

/-! ### The network -/

/-- The server, its clients, and the connections. -/
structure Network (κ : Type*) where
  server : Server
  clients : κ → Client
  wires : Wires (κ × ℕ) UInt8

/-- A call of one process returns, or the kernel closes a socket of a process that has ended. -/
inductive NetInput (κ : Type*)
  | server (i : ServerInput) (r : WriteResult)
  | client (i : κ) (x : ClientInput)
  | serverGone (c : ℕ)
  | clientGone (i : κ) (k : ℕ)

/-- The process has ended. -/
def Pc.isGone : Pc → Bool
  | .exited => true
  | .undefined => true
  | _ => false

/-- The process has ended. -/
def ClientPc.isGone : ClientPc → Bool
  | .exited => true
  | .undefined => true
  | _ => false

section Network

variable {κ : Type*}

/-- The server reads end-of-file. -/
def Server.ends (s : Server) : ServerInput → List (Call κ)
  | .read .eof _ =>
    match s.pc.readingFd with
    | some fd => [.serverEnd (s.fds fd)]
    | none => []
  | _ => []

/-- Client `i` reads end-of-file. -/
def Client.ends (i : κ) (s : Client) : ClientInput → List (Call κ)
  | .recv (.data []) => [.clientEnd i s.tcpFile]
  | _ => []

/-- The trace of the server. -/
def serverOf (o : List (Call κ)) : List ServerObs := o.filterMap Call.served

@[simp] theorem serverOf_append (o e : List (Call κ)) :
    serverOf (o ++ e) = serverOf o ++ serverOf e := List.filterMap_append

@[simp] theorem serverOf_server (s : Server) (i : ServerInput) (r : WriteResult)
    (e : List ServerObs) :
    serverOf (s.ends i ++ e.map fun ob => (.server ob (r.taken ob) : Call κ)) = e := by
  have hends : serverOf (s.ends i : List (Call κ)) = [] := by
    unfold Server.ends
    split
    · split <;> rfl
    · rfl
  rw [serverOf_append, hends, List.nil_append, serverOf, List.filterMap_map]
  exact List.filterMap_some

@[simp] theorem serverOf_client (i : κ) (t : Client) (x : ClientInput) (e : List ClientObs) :
    serverOf (t.ends i x ++ e.map (Call.client i)) = [] := by
  have hends : serverOf (t.ends i x : List (Call κ)) = [] := by
    unfold Client.ends
    split <;> rfl
  rw [serverOf_append, hends, List.nil_append, serverOf, List.filterMap_map]
  exact List.filterMap_eq_nil_iff.mpr fun _ _ => rfl

variable [DecidableEq κ]

/-- The trace of client `i`. -/
def clientOf (i : κ) (o : List (Call κ)) : List ClientObs := o.filterMap (Call.of i)

@[simp] theorem clientOf_append (i : κ) (o e : List (Call κ)) :
    clientOf i (o ++ e) = clientOf i o ++ clientOf i e := List.filterMap_append

@[simp] theorem clientOf_server (i : κ) (s : Server) (x : ServerInput) (r : WriteResult)
    (e : List ServerObs) :
    clientOf i (s.ends x ++ e.map fun ob => (.server ob (r.taken ob) : Call κ)) = [] := by
  have hends : clientOf i (s.ends x : List (Call κ)) = [] := by
    unfold Server.ends
    split
    · split <;> rfl
    · rfl
  rw [clientOf_append, hends, List.nil_append, clientOf, List.filterMap_map]
  exact List.filterMap_eq_nil_iff.mpr fun _ _ => rfl

/-- A client sees its own outputs only. -/
theorem clientOf_client (i j : κ) (t : Client) (x : ClientInput) (e : List ClientObs) :
    clientOf j (t.ends i x ++ e.map (Call.client i)) = if i = j then e else [] := by
  have hends : clientOf j (t.ends i x : List (Call κ)) = [] := by
    unfold Client.ends
    split <;> rfl
  rw [clientOf_append, hends, List.nil_append, clientOf, List.filterMap_map]
  split_ifs with hij
  · rw [show Call.of j ∘ Call.client i = some from funext fun ob => if_pos hij]
    exact List.filterMap_some
  · exact List.filterMap_eq_nil_iff.mpr fun _ _ => if_neg hij

/-- What the calls do to the connections, one after the other. -/
def Network.carry (n : Network κ) (calls : List (Call κ)) : Option (Wires (κ × ℕ) UInt8) :=
  ((Wires.machine (κ × ℕ) UInt8).runFrom (n.wires, []) (calls.filterMap Call.event)).map Prod.fst

/-- One step of one process.  The step is refused if the connections refuse its calls. -/
def Network.step (cfg : Config) (ccfg : κ → ClientConfig) (n : Network κ) :
    NetInput κ → Option (Network κ × List (Call κ))
  | .server i r =>
    (n.server.pressedStep cfg (i, r)).bind fun out =>
      let calls := n.server.ends i ++ out.2.map fun x => .server x.1 x.2
      (n.carry calls).map fun w => ({ n with server := out.1, wires := w }, calls)
  | .client i x =>
    ((n.clients i).step (ccfg i) x).bind fun out =>
      let calls := (n.clients i).ends i x ++ out.2.map (Call.client i)
      (n.carry calls).map fun w =>
        ({ n with clients := Function.update n.clients i out.1, wires := w }, calls)
  | .serverGone c =>
    if n.server.pc.isGone then
      (n.carry [.serverGone c]).map fun w => ({ n with wires := w }, [.serverGone c])
    else none
  | .clientGone i k =>
    if (n.clients i).pc.isGone then
      (n.carry [.clientGone i k]).map fun w => ({ n with wires := w }, [.clientGone i k])
    else none

/-- The network as a machine. -/
def network (cfg : Config) (ccfg : κ → ClientConfig) : Machine (Network κ) (NetInput κ) (Call κ) :=
  ⟨⟨Server.init cfg, fun i => Client.init (ccfg i), (Wires.machine (κ × ℕ) UInt8).init⟩,
    Network.step cfg ccfg⟩

/-! ### One step -/

variable {cfg : Config} {ccfg : κ → ClientConfig}

/-- A step of the network, without its connections. -/
inductive Network.Does (cfg : Config) (ccfg : κ → ClientConfig) (n : Network κ) :
    NetInput κ → Network κ → List (Call κ) → Prop
  | server {i : ServerInput} {r : WriteResult} {s : Server} {e : List ServerObs}
      {w : Wires (κ × ℕ) UInt8} (hs : n.server.step cfg i = some (s, e)) :
      Does cfg ccfg n (.server i r) { n with server := s, wires := w }
        (n.server.ends i ++ e.map fun ob => .server ob (r.taken ob))
  | client {i : κ} {x : ClientInput} {t : Client} {e : List ClientObs}
      {w : Wires (κ × ℕ) UInt8} (hs : (n.clients i).step (ccfg i) x = some (t, e)) :
      Does cfg ccfg n (.client i x)
        { n with clients := Function.update n.clients i t, wires := w }
        ((n.clients i).ends i x ++ e.map (Call.client i))
  | serverGone {c : ℕ} {w : Wires (κ × ℕ) UInt8} (hgone : n.server.pc.isGone = true) :
      Does cfg ccfg n (.serverGone c) { n with wires := w } [.serverGone c]
  | clientGone {i : κ} {k : ℕ} {w : Wires (κ × ℕ) UInt8}
      (hgone : (n.clients i).pc.isGone = true) :
      Does cfg ccfg n (.clientGone i k) { n with wires := w } [.clientGone i k]

theorem wires_of_carry {n : Network κ} {calls : List (Call κ)} {w : Wires (κ × ℕ) UInt8}
    (h : n.carry calls = some w) :
    (Wires.machine (κ × ℕ) UInt8).runFrom (n.wires, []) (calls.filterMap Call.event)
      = some (w, calls.filterMap Call.event) := by
  obtain ⟨⟨w', es⟩, hrun, rfl⟩ := Option.map_eq_some_iff.mp h
  rw [hrun, Wires.trace_of_runFrom hrun]
  rfl

/-- **Every step** is one of a process, and its calls are what happens to the connections. -/
theorem network_step_cases {n n' : Network κ} {x : NetInput κ} {e : List (Call κ)}
    (hs : n.step cfg ccfg x = some (n', e)) :
    n.Does cfg ccfg x n' e ∧
      (Wires.machine (κ × ℕ) UInt8).runFrom (n.wires, []) (e.filterMap Call.event)
        = some (n'.wires, e.filterMap Call.event) := by
  cases x with
  | server i r =>
    obtain ⟨⟨s, out⟩, hstep, hs⟩ := Option.bind_eq_some_iff.mp hs
    obtain ⟨w, hw, heq⟩ := Option.map_eq_some_iff.mp hs
    obtain ⟨rfl, rfl⟩ := Prod.mk.inj heq
    obtain ⟨e', hserver, rfl⟩ := step_of_pressedStep hstep
    refine ⟨?_, wires_of_carry hw⟩
    simp only [List.map_map]
    exact .server hserver
  | client i x =>
    obtain ⟨⟨t, out⟩, hstep, hs⟩ := Option.bind_eq_some_iff.mp hs
    obtain ⟨w, hw, heq⟩ := Option.map_eq_some_iff.mp hs
    obtain ⟨rfl, rfl⟩ := Prod.mk.inj heq
    exact ⟨.client hstep, wires_of_carry hw⟩
  | serverGone c =>
    simp only [Network.step] at hs
    split_ifs at hs with hgone
    obtain ⟨w, hw, heq⟩ := Option.map_eq_some_iff.mp hs
    obtain ⟨rfl, rfl⟩ := Prod.mk.inj heq
    exact ⟨.serverGone hgone, wires_of_carry hw⟩
  | clientGone i k =>
    simp only [Network.step] at hs
    split_ifs at hs with hgone
    obtain ⟨w, hw, heq⟩ := Option.map_eq_some_iff.mp hs
    obtain ⟨rfl, rfl⟩ := Prod.mk.inj heq
    exact ⟨.clientGone hgone, wires_of_carry hw⟩

/-! ### The parts of the network -/

/-- The server does not close its TUN device. -/
def KeepsTun (cfg : Config) (n : Network κ) : NetInput κ → Prop
  | .server i _ => TunOpen cfg n.server [] i
  | _ => True

instance (n : Network κ) : (x : NetInput κ) → Decidable (KeepsTun cfg n x)
  | .server i _ => inferInstanceAs (Decidable (TunOpen cfg n.server [] i))
  | .client _ _ => isTrue trivial
  | .serverGone _ => isTrue trivial
  | .clientGone _ _ => isTrue trivial

/-- A step of the network is a step of the server, or leaves it alone. -/
theorem server_of_step {n n' : Network κ} {x : NetInput κ} {e : List (Call κ)}
    (hs : n.step cfg ccfg x = some (n', e)) :
    (n'.server = n.server ∧ serverOf e = []) ∨
      ∃ i r, x = .server i r ∧ n.server.step cfg i = some (n'.server, serverOf e) := by
  obtain ⟨hdoes, -⟩ := network_step_cases hs
  cases hdoes with
  | @server i r s' e' w hserver =>
    rw [serverOf_server]
    exact .inr ⟨i, r, rfl, hserver⟩
  | client hclient => exact .inl ⟨rfl, serverOf_client _ _ _ _⟩
  | serverGone hgone => exact .inl ⟨rfl, rfl⟩
  | clientGone hgone => exact .inl ⟨rfl, rfl⟩

/-- **The server** in a run of the network takes a run of its own. -/
theorem network_server (xs : List (NetInput κ)) (n : Network κ) (o : List (Call κ))
    (hrun : (network cfg ccfg).run xs = some (n, o)) :
    ∃ is, (server cfg).run is = some (n.server, serverOf o) := by
  refine Machine.run_induct (M := network cfg ccfg)
    (P := fun _ n o => ∃ is, (server cfg).run is = some (n.server, serverOf o)) ⟨[], rfl⟩ ?_ xs n o
    hrun
  rintro _ x n o n' e - ⟨is, hserver⟩ hs
  rw [serverOf_append]
  rcases server_of_step hs with ⟨hsame, hnone⟩ | ⟨i, r, -, hstep⟩
  · rw [hsame, hnone, List.append_nil]
    exact ⟨is, hserver⟩
  · exact ⟨is ++ [i], (server cfg).run_concat_eq_some.mpr ⟨_, _, _, hserver, hstep, rfl⟩⟩

/-- The same, where it keeps its TUN device open. -/
theorem network_serves (xs : List (NetInput κ)) (n : Network κ) (o : List (Call κ))
    (halong : (network cfg ccfg).Along (fun n _ x => KeepsTun cfg n x) xs)
    (hrun : (network cfg ccfg).run xs = some (n, o)) :
    ∃ is, (server cfg).Along (TunOpen cfg) is ∧
      (server cfg).run is = some (n.server, serverOf o) := by
  refine Machine.run_induct_along (M := network cfg ccfg) (C := fun n _ x => KeepsTun cfg n x)
    (P := fun _ n o => ∃ is, (server cfg).Along (TunOpen cfg) is ∧
      (server cfg).run is = some (n.server, serverOf o))
    ⟨[], Machine.along_of_alongFrom trivial, rfl⟩ ?_ xs n o halong hrun
  rintro _ x n o n' e - ⟨is, his, hserver⟩ hC hs
  rw [serverOf_append]
  rcases server_of_step hs with ⟨hsame, hnone⟩ | ⟨i, r, rfl, hstep⟩
  · rw [hsame, hnone, List.append_nil]
    exact ⟨is, his, hserver⟩
  · refine ⟨is ++ [i], Machine.along_concat.mpr ⟨his, fun s₁ o₁ hrun₁ => ?_⟩,
      (server cfg).run_concat_eq_some.mpr ⟨_, _, _, hserver, hstep, rfl⟩⟩
    rw [hserver, Option.some.injEq, Prod.mk.injEq] at hrun₁
    rw [← hrun₁.1]
    exact hC

/-- **A client** in a run of the network takes a run of its own. -/
theorem network_client (i : κ) (xs : List (NetInput κ)) (n : Network κ) (o : List (Call κ))
    (hrun : (network cfg ccfg).run xs = some (n, o)) :
    ∃ is, (client (ccfg i)).run is = some (n.clients i, clientOf i o) := by
  suffices h : ∃ is, (∀ j ∈ is, True) ∧
      (client (ccfg i)).run is = some (n.clients i, clientOf i o) by
    obtain ⟨is, -, hclient⟩ := h
    exact ⟨is, hclient⟩
  refine Machine.project (A := client (ccfg i)) (fun n => n.clients i) (Call.of i)
    (D := fun _ => True) rfl ?_ xs n o (fun _ _ => trivial) hrun
  rintro n x n' e - hs
  obtain ⟨hdoes, -⟩ := network_step_cases hs
  cases hdoes with
  | server hserver =>
    refine ⟨[], by simp, ?_⟩
    exact congrArg (fun o => some (n.clients i, o)) (clientOf_server _ _ _ _ _).symm
  | @client j x t e' w hclient =>
    have hout := clientOf_client j i (n.clients j) x e'
    by_cases hij : j = i
    · subst hij
      rw [if_pos rfl] at hout
      refine ⟨[x], by simp, ?_⟩
      rw [Machine.runFrom_singleton _ hclient]
      exact congrArg some (Prod.ext (Function.update_self j t n.clients).symm hout.symm)
    · rw [if_neg hij] at hout
      refine ⟨[], by simp, ?_⟩
      exact congrArg some
        (Prod.ext (Function.update_of_ne (Ne.symm hij) t n.clients).symm hout.symm)
  | serverGone hgone => exact ⟨[], by simp, rfl⟩
  | clientGone hgone => exact ⟨[], by simp, rfl⟩

/-- **The connections** in a run of the network take a run of their own. -/
theorem network_wires (xs : List (NetInput κ)) (n : Network κ) (o : List (Call κ))
    (hrun : (network cfg ccfg).run xs = some (n, o)) :
    Wires.Flow n.wires (o.filterMap Call.event) ∧ Wires.Ended n.wires (o.filterMap Call.event) ∧
      n.wires.accepted.length = (o.filterMap Call.event).countP WireEvent.isAccept := by
  suffices h : ∃ es, (∀ x ∈ es, True) ∧ (Wires.machine (κ × ℕ) UInt8).run es
      = some (n.wires, o.filterMap Call.event) by
    obtain ⟨es, -, hwires⟩ := h
    obtain rfl : o.filterMap Call.event = es := Wires.trace_of_runFrom hwires
    exact Wires.flow_of_run _ _ _ hwires
  refine Machine.project (A := Wires.machine (κ × ℕ) UInt8) (fun n => n.wires) Call.event
    (D := fun _ => True) rfl ?_ xs n o (fun _ _ => trivial) hrun
  rintro n x n' e - hs
  exact ⟨_, fun _ _ => trivial, (network_step_cases hs).2⟩

/-! ### Traffic -/

omit [DecidableEq κ] in
theorem flatMap_filterMap {β γ : Type*} (f : Call κ → Option β) (g : β → List γ)
    (o : List (Call κ)) :
    (o.filterMap f).flatMap g = o.flatMap fun x => (f x).elim [] g := by
  induction o with
  | nil => rfl
  | cons x o ih =>
    rw [List.filterMap_cons, List.flatMap_cons, ← ih]
    cases f x <;> rfl

omit [DecidableEq κ] in
/-- What an end of the connections does and what its process does are the same bytes, if they are
    the same call by call. -/
theorem flatMap_events {β : Type*} {f : Call κ → Option β} {g : β → Option (List UInt8)}
    {h : WireEvent (κ × ℕ) UInt8 → List UInt8}
    (hcall : ∀ x : Call κ, x.event.elim [] h = ((f x).bind g).elim [] id) (o : List (Call κ)) :
    (o.filterMap Call.event).flatMap h = ((o.filterMap f).filterMap g).flatten := by
  rw [List.filterMap_filterMap, ← List.flatMap_id, flatMap_filterMap, flatMap_filterMap]
  exact congrArg (o.flatMap ·) (funext hcall)

theorem elim_nil {β γ : Type*} (x : Option β) : x.elim [] (fun _ => ([] : List γ)) = [] := by
  cases x <;> rfl

/-- The bytes of a descriptor that refers to this end. -/
theorem elim_ite {x : Option ℕ} {k : ℕ} {P : Prop} [Decidable P] (h : x = some k ↔ P)
    (bytes : List UInt8) :
    (x.elim [] fun y => if y = k then bytes else [])
      = (if P then some bytes else none).elim [] id := by
  cases x with
  | none => rw [if_neg fun hP => by cases h.mpr hP]; rfl
  | some y =>
    rw [Option.some.injEq] at h
    show (if y = k then bytes else []) = _
    by_cases hy : y = k
    · rw [if_pos hy, if_pos (h.mp hy)]
      rfl
    · rw [if_neg hy, if_neg (mt h.mpr hy)]
      rfl

/-- What is sent on a socket, as the connections and as the client see it. -/
theorem sentBy_events (i : κ) (k : ℕ) (o : List (Call κ)) :
    Wires.sentBy (o.filterMap Call.event) (i, k) = (Client.sentOn k (clientOf i o)).flatten := by
  refine flatMap_events (fun x => ?_) o
  cases x with
  | server ob taken =>
    cases ob <;> simp [Call.event, Call.of, WireEvent.sent, Function.comp_def, elim_nil]
  | client j ob =>
    by_cases hij : j = i
    · cases ob <;> simp [Call.event, Call.of, WireEvent.sent, Function.comp_def, hij, elim_nil,
        elim_ite socketOf_eq_some]
    · cases ob <;> simp [Call.event, Call.of, WireEvent.sent, Function.comp_def, hij, elim_nil]
  | _ => simp [Call.event, Call.of, WireEvent.sent, Function.comp_def, elim_nil]

/-- What is received on a socket. -/
theorem gotAt_events (i : κ) (k : ℕ) (o : List (Call κ)) :
    Wires.gotAt (o.filterMap Call.event) (i, k)
      = (Client.receivedOn k (clientOf i o)).flatten := by
  refine flatMap_events (fun x => ?_) o
  cases x with
  | server ob taken =>
    cases ob <;> simp [Call.event, Call.of, WireEvent.got, Function.comp_def, elim_nil]
  | client j ob =>
    by_cases hij : j = i
    · cases ob <;> simp [Call.event, Call.of, WireEvent.got, Function.comp_def, hij, elim_nil,
        elim_ite socketOf_eq_some]
    · cases ob <;> simp [Call.event, Call.of, WireEvent.got, Function.comp_def, hij, elim_nil]
  | _ => simp [Call.event, Call.of, WireEvent.got, Function.comp_def, elim_nil]

omit [DecidableEq κ] in
/-- What is read from a connection. -/
theorem readAt_events (c : ℕ) (o : List (Call κ)) :
    Wires.readAt (o.filterMap Call.event) c = (readsOf c (serverOf o)).flatten := by
  refine flatMap_events (fun x => ?_) o
  cases x with
  | server ob taken =>
    cases ob <;> simp [Call.event, Call.served, WireEvent.readFrom, Function.comp_def, elim_nil,
      elim_ite connOf_eq_some]
  | client j ob =>
    cases ob <;> simp [Call.event, Call.served, WireEvent.readFrom, Function.comp_def, elim_nil]
  | _ => simp [Call.event, Call.served, WireEvent.readFrom, Function.comp_def, elim_nil]

omit [DecidableEq κ] in
/-- What the kernel takes of the writes to a connection. -/
theorem wroteTo_events (c : ℕ) (o : List (Call κ)) :
    Wires.wroteTo (o.filterMap Call.event) c = streamTo c (o.filterMap Call.pressed) := by
  rw [Wires.wroteTo, streamTo, flatMap_filterMap, flatMap_filterMap]
  refine congrArg (o.flatMap ·) (funext fun x => ?_)
  cases x with
  | server ob taken =>
    cases ob with
    | wrote src fd file bytes =>
      simp only [Call.event, Call.pressed, WireEvent.written, Option.elim_map, Function.comp_def,
        elim_ite connOf_eq_some]
      show _ = if file = some (.conn c) then taken else []
      split_ifs <;> rfl
    | _ => simp [Call.event, Call.pressed, WireEvent.written, Function.comp_def, elim_nil]
  | client j ob =>
    cases ob <;> simp [Call.event, Call.pressed, WireEvent.written, Function.comp_def, elim_nil]
  | _ => simp [Call.event, Call.pressed, WireEvent.written, Function.comp_def, elim_nil]

/-! ### Numbers of the connections -/

/-- A connection is accepted. -/
def ServerObs.isAccepted : ServerObs → Bool
  | .accepted _ _ => true
  | _ => false

omit [DecidableEq κ] in
theorem countP_events (o : List (Call κ)) :
    (o.filterMap Call.event).countP WireEvent.isAccept
      = (serverOf o).countP ServerObs.isAccepted := by
  have hother (x : Option ℕ) (f : ℕ → WireEvent (κ × ℕ) UInt8) (hf : ∀ y, (f y).isAccept = false) :
      ((x.map f).map WireEvent.isAccept).getD false = false := by
    cases x with
    | none => rfl
    | some y => exact hf y
  rw [serverOf, List.countP_filterMap, List.countP_filterMap]
  congr 1
  funext x
  cases x with
  | server ob taken =>
    cases ob with
    | received | wrote | ended => exact hother _ _ fun _ => rfl
    | _ => rfl
  | client i ob =>
    cases ob with
    | received | sent | closed | connected => exact hother _ _ fun _ => rfl
    | _ => rfl
  | serverEnd | clientEnd => exact hother _ _ fun _ => rfl
  | _ => rfl

/-- The server numbers the connections in the order in which it accepts them. -/
theorem nextConn_of_run (is : List ServerInput) (s : Server) (o : List ServerObs)
    (hrun : (server cfg).run is = some (s, o)) :
    Sane cfg s ∧ s.nextConn = o.countP ServerObs.isAccepted := by
  refine Machine.run_induct
    (P := fun _ s o => Sane cfg s ∧ s.nextConn = o.countP ServerObs.isAccepted)
    ⟨sane_init, rfl⟩ ?_ is s o hrun
  rintro is i s o s' e - ⟨hsane, hcount⟩ hs
  refine ⟨sane_step hsane hs, ?_⟩
  have hnone : (∀ fd c, .accepted fd c ∉ e) → s'.nextConn = s.nextConn →
      s'.nextConn = (o ++ e).countP ServerObs.isAccepted := by
    intro hno hsame
    have hzero : e.countP ServerObs.isAccepted = 0 := by
      rw [List.countP_eq_zero]
      rintro (_ | ⟨fd, c⟩ | _ | _ | _ | _) hob
      · simp [ServerObs.isAccepted]
      · exact absurd hob (hno fd c)
      all_goals simp [ServerObs.isAccepted]
    rw [List.countP_append, hzero, hsame]
    exact hcount
  cases fdStep_of_step hsane hs o with
  | same hfds hnext hload he => exact hnone (fun fd => (he fd).1) hnext
  | accepted fd hfree hfds hnext hload he =>
    rw [hnext, hcount, he, List.countP_append]
    rfl
  | loaded fd hfree hfds hnext hload he => exact hnone (fun fd => (he fd).1) hnext
  | closed fd hreg hsfd hfds hnext hload hacc hended => exact hnone hacc hnext

/-! ### Every run -/

/-- The traffic of a connection, at its two ends and on the way. -/
structure Streams (n : Network κ) (o : List (Call κ)) (c : ℕ) (i : κ) (k : ℕ) : Prop where
  sent : (Client.sentOn k (clientOf i o)).Sublist (Client.tunReads (clientOf i o))
  up : (Client.sentOn k (clientOf i o)).flatten
    = (injectedFrom c (serverOf o)).flatten ++ n.wires.up (i, k)
  written : (writesTo c (serverOf o)).Sublist (tunReads (serverOf o))
  down : streamTo c (o.filterMap Call.pressed)
    = (Client.injectedFrom k (clientOf i o)).flatten ++ n.wires.down (i, k)

theorem streams_of_run (xs : List (NetInput κ)) (n : Network κ) (o : List (Call κ))
    (halong : (network cfg ccfg).Along (fun n _ x => KeepsTun cfg n x) xs)
    (hrun : (network cfg ccfg).run xs = some (n, o)) {c : ℕ} {i : κ} {k : ℕ}
    (hc : n.wires.accepted[c]? = some (i, k)) : Streams n o c i k := by
  obtain ⟨is, his, hserver⟩ := network_serves xs n o halong hrun
  obtain ⟨js, hclient⟩ := network_client i xs n o hrun
  obtain ⟨hflow, -⟩ := network_wires xs n o hrun
  have hframed := framed_of_run c is _ _ his hserver
  have hframedc := Client.framed_of_run k js _ _ hclient
  refine ⟨(List.sublist_append_left _ _).trans hframedc.sent, ?_, hframed.written, ?_⟩
  · rw [hframed.injected, ← sentBy_events, ← readAt_events]
    exact hflow.up c (i, k) hc
  · rw [hframedc.injected, ← wroteTo_events, ← gotAt_events]
    exact hflow.down c (i, k) hc

/-- **The streams of the network.**  After every run in which the server keeps its TUN device open,
    whatever steps the clients and the server took in whatever order, with clients that reconnect
    and writes that are cut short: the connections of the server belong to different sockets, in
    the order in which these connected; for a connection `c` of socket `k` of client `i`, the
    bytes that the client has sent, all from packets of its TUN device, are the bytes that the
    server has injected for `c` and those on the way; and the bytes that the kernel took of what
    the server wrote to `c` are those that the client has injected and those on the way. -/
theorem network_streams (xs : List (NetInput κ)) (n : Network κ) (o : List (Call κ))
    (halong : (network cfg ccfg).Along (fun n _ x => KeepsTun cfg n x) xs)
    (hrun : (network cfg ccfg).run xs = some (n, o)) :
    n.wires.accepted.Nodup ∧ n.wires.accepted.length = n.server.nextConn ∧
    n.wires.accepted <+: Wires.connected (o.filterMap Call.event) ∧
    ∀ c i k, n.wires.accepted[c]? = some (i, k) →
      ((Client.sentOn k (clientOf i o)).Sublist (Client.tunReads (clientOf i o)) ∧
        (Client.sentOn k (clientOf i o)).flatten
          = (injectedFrom c (serverOf o)).flatten ++ n.wires.up (i, k)) ∧
      ((writesTo c (serverOf o)).Sublist (tunReads (serverOf o)) ∧
        streamTo c (o.filterMap Call.pressed)
          = (Client.injectedFrom k (clientOf i o)).flatten ++ n.wires.down (i, k)) := by
  obtain ⟨is, -, hserver⟩ := network_serves xs n o halong hrun
  obtain ⟨hflow, -, hcount⟩ := network_wires xs n o hrun
  refine ⟨hflow.nodup.sublist (List.sublist_append_left _ _), ?_, ?_, fun c i k hc => ?_⟩
  · rw [hcount, countP_events, (nextConn_of_run is _ _ hserver).2]
  · rw [hflow.order]
    exact List.prefix_append _ _
  · have hstreams := streams_of_run xs n o halong hrun hc
    exact ⟨⟨hstreams.sent, hstreams.up⟩, hstreams.written, hstreams.down⟩

/-- **Orderly ends.**  In every such run: once the server has read end-of-file on a connection, it
    has injected all that was sent on the socket of the connection; and once a client has received
    end-of-file on a socket, it has injected all that the kernel took of what the server wrote to
    the connection.  Both stay so to the end of the run. -/
theorem orderly_end (xs : List (NetInput κ)) (n : Network κ) (o : List (Call κ))
    (halong : (network cfg ccfg).Along (fun n _ x => KeepsTun cfg n x) xs)
    (hrun : (network cfg ccfg).run xs = some (n, o)) :
    (∀ c, .serverEnd (some (.conn c)) ∈ o → ∃ i k, n.wires.accepted[c]? = some (i, k) ∧
      (injectedFrom c (serverOf o)).flatten = (Client.sentOn k (clientOf i o)).flatten) ∧
    ∀ i k b, .clientEnd i (some (.socket k b)) ∈ o → ∃ c, n.wires.accepted[c]? = some (i, k) ∧
      (Client.injectedFrom k (clientOf i o)).flatten = streamTo c (o.filterMap Call.pressed) := by
  obtain ⟨-, hended, -⟩ := network_wires xs n o hrun
  refine ⟨fun c hc => ?_, fun i k b hi => ?_⟩
  · have hread : .readEnd c ∈ o.filterMap Call.event := List.mem_filterMap.mpr ⟨_, hc, rfl⟩
    obtain ⟨⟨i, k⟩, hget, hup, -⟩ := hended.far c hread
    have hstreams := (streams_of_run xs n o halong hrun hget).up
    rw [hup, List.append_nil] at hstreams
    exact ⟨i, k, hget, hstreams.symm⟩
  · have hgot : .getEnd (i, k) ∈ o.filterMap Call.event := List.mem_filterMap.mpr ⟨_, hi, rfl⟩
    obtain ⟨c, hget, hdown, -⟩ := hended.near (i, k) hgot
    have hstreams := (streams_of_run xs n o halong hrun hget).down
    rw [hdown, List.append_nil] at hstreams
    exact ⟨c, hget, hstreams.symm⟩

/-! ### Two clients -/

end Network

/-- Inputs of the server whose writes return this, and inputs of a client. -/
def serverTakes (r : WriteResult) (is : List ServerInput) : List (NetInput Bool) :=
  is.map fun i => .server i r

def clientTakes (i : Bool) (is : List ClientInput) : List (NetInput Bool) := is.map (.client i)

/-- Two clients connect and send their packets; the first one gets a packet, of which the kernel
    takes 20 bytes, and closes its socket. -/
def serverOfTwo : List (NetInput Bool) :=
  clientTakes true (connectsTo 4) ++ clientTakes false (connectsTo 4) ++
    clientTakes false (sends [helloOf 2]) ++ clientTakes true (sends [helloOf 1]) ++
    serverTakes .again (connects 7 ++ connects 8 ++ delivers 8 [helloOf 2] ++
      delivers 7 [(helloOf 1).take 20, (helloOf 1).drop 20]) ++
    serverTakes (.took 20) (delivers 3 [packetOf (linkLocal 9) (linkLocal 2)]) ++
    clientTakes false (receives [(packetOf (linkLocal 9) (linkLocal 2)).take 8]) ++
    clientTakes true [.select (.ready true false), .recv .error] ++ serverTakes .again (ends 7)

/-- The network of these clients. -/
def networkOfTwo : Machine (Network Bool) (NetInput Bool) (Call Bool) :=
  network Config.sample fun _ => ClientConfig.sample

/-- `network_streams` after that run: twelve bytes are still on the way to the second client. -/
theorem network_streams_twoClients :
    ∃ n o, networkOfTwo.run serverOfTwo = some (n, o) ∧
      (Client.sentOn 0 (clientOf true o)).flatten = (injectedFrom 0 (serverOf o)).flatten ∧
      streamTo 1 (o.filterMap Call.pressed) = (Client.injectedFrom 0 (clientOf false o)).flatten ++
        (packetOf (linkLocal 9) (linkLocal 2)).extract 8 20 := by
  obtain ⟨n, o, hrun, haccepted, hup, hdown⟩ : ∃ n o, networkOfTwo.run serverOfTwo = some (n, o) ∧
      n.wires.accepted = [(true, 0), (false, 0)] ∧ n.wires.up (true, 0) = [] ∧
      n.wires.down (false, 0) = (packetOf (linkLocal 9) (linkLocal 2)).extract 8 20 :=
    networkOfTwo.exists_run (P := fun n _ => n.wires.accepted = [(true, 0), (false, 0)] ∧
      n.wires.up (true, 0) = [] ∧
      n.wires.down (false, 0) = (packetOf (linkLocal 9) (linkLocal 2)).extract 8 20)
      (by decide +kernel)
  obtain ⟨-, -, -, hstreams⟩ := network_streams serverOfTwo n o
    (Machine.along_of_alongFrom (by decide +kernel)) hrun
  obtain ⟨⟨-, hfirst⟩, -⟩ := hstreams 0 true 0 (by rw [haccepted]; rfl)
  obtain ⟨-, -, hsecond⟩ := hstreams 1 false 0 (by rw [haccepted]; rfl)
  rw [hup, List.append_nil] at hfirst
  rw [hdown] at hsecond
  exact ⟨n, o, hrun, hfirst, hsecond⟩

/-- `orderly_end` after that run, for the connection of the first client. -/
theorem orderly_end_twoClients :
    ∃ n o, networkOfTwo.run serverOfTwo = some (n, o) ∧ ∃ i k,
      n.wires.accepted[0]? = some (i, k) ∧
        (injectedFrom 0 (serverOf o)).flatten = (Client.sentOn k (clientOf i o)).flatten := by
  obtain ⟨n, o, hrun, hend⟩ : ∃ n o, networkOfTwo.run serverOfTwo = some (n, o) ∧
      .serverEnd (some (.conn 0)) ∈ o :=
    networkOfTwo.exists_run (P := fun _ o => .serverEnd (some (.conn 0)) ∈ o) (by decide +kernel)
  exact ⟨n, o, hrun, (orderly_end serverOfTwo n o
    (Machine.along_of_alongFrom (by decide +kernel)) hrun).1 0 hend⟩

end Gap.Tunnel
