import Gap.Lib.Machine
import Mathlib.Data.Finset.Option
import Mathlib.Logic.Function.Basic

namespace Gap.Tunnel

/-!
# The tunnel client

`reconnect` and the select loop of `tunnel-client.c`, one system call at a time: a step is what
the program does from one call that waits for the outside to the next, and its input is what that
call returns.  The sockets are numbered.

* `Client` — `tcp_socket`, the descriptors of the process, the place in the program.
* `Client.rfds`, `Client.nfds` — what `select` is called with.
* `Client.connectTcp`, `Client.step`, `client` — the steps and the machine.
* `Client.Effect`, `Client.effect_of_step` — the kinds of steps.

Which descriptors `select` reports is its result, whatever `nfds` was.  The result of `write` is
not looked at, and a `send` that does not fail takes the whole packet.
-/

/-! ### State -/

/-- What a descriptor of the client refers to. -/
inductive ClientFile
  | stdio
  | tun
  | socket (k : ℕ) (connected : Bool)
  deriving DecidableEq

/-- What is set up before the first connection. -/
structure ClientConfig where
  tunFile : ℕ

/-- The descriptors open before the first connection. -/
def ClientConfig.fds (cfg : ClientConfig) : ℕ → Option ClientFile := fun fd =>
  if fd = cfg.tunFile then some .tun else if fd < 3 then some .stdio else none

/-- The call the client waits in.  In `reconnect`, and between the two tests of the sets `select`
    has left, `tun` is whether `tun_file` is in them. -/
inductive ClientPc
  | resolving (tun : Bool)
  | opening (tun : Bool)
  | connecting (tun : Bool)
  | selecting
  | receiving (tun : Bool)
  | readingTun
  | sending (bytes : List UInt8)
  | exited
  /-- After a read into `buf[4096]` of more than it holds. -/
  | undefined
  deriving DecidableEq

/-- The state of the client. -/
structure Client where
  /-- `none` is -1. -/
  tcpSocket : Option ℕ
  fds : ℕ → Option ClientFile
  /-- The number of the next socket. -/
  nextSocket : ℕ
  pc : ClientPc

/-- The state in which `main` calls `reconnect` for the first time: there is nothing to close. -/
def Client.init (cfg : ClientConfig) : Client := ⟨none, cfg.fds, 0, .resolving false⟩

/-! ### Inputs and trace -/

/-- What `select` returns. -/
inductive SelectResult
  | error
  | zero
  | ready (tcp tun : Bool)

/-- What `recv` and the read of the TUN device return. -/
inductive RecvResult
  | data (bytes : List UInt8)
  | again
  | error

/-- What the call the client waits in returns; `ok` is that it did not fail. -/
inductive ClientInput
  | select (r : SelectResult)
  /-- `recv` on the socket; no data is end-of-file. -/
  | recv (r : RecvResult)
  | readTun (r : RecvResult)
  | send (ok : Bool)
  | getaddrinfo (ok : Bool)
  | socket (fd : Option ℕ)
  | connect (ok : Bool)

/-- What the client does, each time with the file its descriptor refers to. -/
inductive ClientObs
  /-- `select (nfds, &rfds, ..)`. -/
  | selected (nfds : UInt8) (rfds : Finset ℕ)
  | received (file : Option ClientFile) (bytes : List UInt8)
  /-- `write (tun_file, buf, read_len)`, for data received from `src`. -/
  | wrote (src file : Option ClientFile) (bytes : List UInt8)
  | readTun (file : Option ClientFile) (bytes : List UInt8)
  | sent (file : Option ClientFile) (bytes : List UInt8)
  | notSent (bytes : List UInt8)
  /-- `close (tcp_socket)`. -/
  | closed (fd : ℕ) (file : Option ClientFile)
  /-- Connected, and the link-local address assigned. -/
  | connected (file : Option ClientFile)
  deriving DecidableEq

/-! ### The steps -/

/-- The file `tcp_socket` refers to. -/
def Client.tcpFile (s : Client) : Option ClientFile := s.tcpSocket.bind s.fds

/-- `rfds`, as `select` gets it. -/
def Client.rfds (cfg : ClientConfig) (s : Client) : Finset ℕ :=
  insert cfg.tunFile s.tcpSocket.toFinset

/-- `nfds`, a `uint8_t`. -/
def Client.nfds (cfg : ClientConfig) (s : Client) : UInt8 :=
  let nfds := match s.tcpSocket with
    | none => 0
    | some fd => UInt8.ofNat (fd + 1)
  if cfg.tunFile + 1 > nfds.toNat then UInt8.ofNat (cfg.tunFile + 1) else nfds

/-- The loop once the socket has been dealt with. -/
def testTun (tun : Bool) : ClientPc := if tun then .readingTun else .selecting

/-- The start of `connect_tcp`: close the socket and resolve the host. -/
def Client.connectTcp (s : Client) (tun : Bool) : Client × List ClientObs :=
  match s.tcpSocket with
  | none => ({ s with pc := .resolving tun }, [])
  | some fd => ({ s with fds := Function.update s.fds fd none, pc := .resolving tun },
      [.closed fd (s.fds fd)])

/-- The socket is connected. -/
def Client.connected (s : Client) (tun : Bool) : Client × List ClientObs :=
  match s.tcpSocket, s.tcpFile with
  | some fd, some (.socket k _) =>
    ({ s with fds := Function.update s.fds fd (some (.socket k true)), pc := testTun tun },
      [.connected (some (.socket k true))])
  | _, file => ({ s with pc := testTun tun }, [.connected file])

/-- One step of the client. -/
def Client.step (cfg : ClientConfig) (s : Client) : ClientInput → Option (Client × List ClientObs)
  | .select r =>
    match s.pc with
    | .selecting =>
      let pc := match r with
        | .ready true tun => .receiving tun
        | .ready false tun => testTun tun
        | .zero => .selecting
        | .error => .selecting
      some ({ s with pc }, [.selected (s.nfds cfg) (s.rfds cfg)])
    | _ => none
  | .recv r =>
    match s.pc with
    | .receiving tun =>
      match r with
      -- the server has closed the connection
      | .data [] => some (s.connectTcp tun)
      | .data bytes =>
        if bytes.length ≤ 4096 then
          some ({ s with pc := testTun tun },
            [.received s.tcpFile bytes, .wrote s.tcpFile (s.fds cfg.tunFile) bytes])
        else none
      | .again => some ({ s with pc := testTun tun }, [])
      | .error => some (s.connectTcp tun)
    | _ => none
  | .readTun r =>
    match s.pc with
    | .readingTun =>
      match r with
      | .data bytes =>
        -- the count asked for is 4906
        if bytes.length ≤ 4906 then
          some ({ s with pc := if bytes.length ≤ 4096 then .sending bytes else .undefined },
            [.readTun (s.fds cfg.tunFile) bytes])
        else none
      | .again => some ({ s with pc := .selecting }, [])
      | .error => some ({ s with pc := .exited }, [])
    | _ => none
  | .send ok =>
    match s.pc with
    | .sending bytes =>
      if ok then some ({ s with pc := .selecting }, [.sent s.tcpFile bytes])
      else
        let r := s.connectTcp false
        some (r.1, .notSent bytes :: r.2)
    | _ => none
  | .getaddrinfo ok =>
    match s.pc with
    | .resolving tun => if ok then some ({ s with pc := .opening tun }, []) else some (s.connectTcp tun)
    | _ => none
  | .socket fd =>
    match s.pc with
    | .opening tun =>
      match fd with
      | none => some ({ s with tcpSocket := none }.connectTcp tun)
      | some fd =>
        if (s.fds fd).isSome then none
        else
          some ({
            tcpSocket := some fd
            fds := Function.update s.fds fd (some (.socket s.nextSocket false))
            nextSocket := s.nextSocket + 1
            pc := .connecting tun }, [])
    | _ => none
  | .connect ok =>
    match s.pc with
    -- "Loop until we establish a connection."
    | .connecting tun => if ok then some (s.connected tun) else some (s, [])
    | _ => none

/-- The client as a machine. -/
def client (cfg : ClientConfig) : Machine Client ClientInput ClientObs :=
  ⟨Client.init cfg, Client.step cfg⟩

/-! ### What a step can do -/

variable {cfg : ClientConfig}

/-- The packet read from TUN and not yet passed to `send`. -/
def pendingPacket : ClientPc → List (List UInt8)
  | .sending bytes => [bytes]
  | _ => []

theorem pendingPacket_testTun (tun : Bool) : pendingPacket (testTun tun) = [] := by
  cases tun <;> rfl

/-- The kinds of steps. -/
inductive Client.Effect (cfg : ClientConfig) (s : Client) : Client → List ClientObs → Prop
  /-- Go on, with no packet on the way. -/
  | moved {pc : ClientPc} {o : List ClientObs} (hpc : pendingPacket pc = [])
      (ho : ∀ ob ∈ o, ob = .selected (s.nfds cfg) (s.rfds cfg)) :
      Effect cfg s { s with pc } o
  /-- Data from the server, for the TUN device. -/
  | injected {tun : Bool} {bytes : List UInt8} (hpc : s.pc = .receiving tun) (hne : bytes ≠ [])
      (hle : bytes.length ≤ 4096) :
      Effect cfg s { s with pc := testTun tun }
        [.received s.tcpFile bytes, .wrote s.tcpFile (s.fds cfg.tunFile) bytes]
  /-- A packet from the TUN device. -/
  | taken {bytes : List UInt8} (hpc : s.pc = .readingTun) (hle : bytes.length ≤ 4906) :
      Effect cfg s { s with pc := if bytes.length ≤ 4096 then .sending bytes else .undefined }
        [.readTun (s.fds cfg.tunFile) bytes]
  /-- The packet is sent. -/
  | sent {bytes : List UInt8} (hpc : s.pc = .sending bytes) :
      Effect cfg s { s with pc := .selecting } [.sent s.tcpFile bytes]
  /-- Close the socket, if it was open, and start to connect again. -/
  | reconnects {t : Client} {tun : Bool} {o : List ClientObs}
      (ht : t = s ∨ t = { s with tcpSocket := none }) (ho : ∀ ob ∈ o, ∃ bytes, ob = .notSent bytes) :
      Effect cfg s (t.connectTcp tun).1 (o ++ (t.connectTcp tun).2)
  /-- A new socket. -/
  | opened {fd : ℕ} {tun : Bool} (hfree : s.fds fd = none) :
      Effect cfg s
        { tcpSocket := some fd
          fds := Function.update s.fds fd (some (.socket s.nextSocket false))
          nextSocket := s.nextSocket + 1
          pc := .connecting tun } []
  | connected {tun : Bool} : Effect cfg s (s.connected tun).1 (s.connected tun).2

/-- **Every step is one of these.** -/
theorem Client.effect_of_step {s s' : Client} {i : ClientInput} {o : List ClientObs}
    (hs : s.step cfg i = some (s', o)) : Client.Effect cfg s s' o := by
  have hreconnects : ∀ tun, Client.Effect cfg s (s.connectTcp tun).1 (s.connectTcp tun).2 :=
    fun tun => .reconnects (o := []) (.inl rfl) fun _ hob => by cases hob
  have hmoved : ∀ pc, pendingPacket pc = [] → Client.Effect cfg s { s with pc } [] :=
    fun pc hpc => .moved hpc fun _ hob => by cases hob
  cases i with
  | select r =>
    simp only [Client.step] at hs
    split at hs
    · obtain ⟨rfl, rfl⟩ := Prod.mk.inj (Option.some.inj hs)
      refine .moved ?_ fun ob hob => List.mem_singleton.mp hob
      split
      · rfl
      · exact pendingPacket_testTun _
      · rfl
      · rfl
    · cases hs
  | recv r =>
    simp only [Client.step] at hs
    split at hs
    · next tun hpc =>
      split at hs
      · obtain ⟨rfl, rfl⟩ : (s.connectTcp tun).1 = s' ∧ (s.connectTcp tun).2 = o :=
          Prod.mk.inj (Option.some.inj hs)
        exact hreconnects tun
      · next bytes hne =>
        split_ifs at hs with hle
        obtain ⟨rfl, rfl⟩ := Prod.mk.inj (Option.some.inj hs)
        exact .injected hpc hne hle
      · obtain ⟨rfl, rfl⟩ := Prod.mk.inj (Option.some.inj hs)
        exact hmoved _ (pendingPacket_testTun tun)
      · obtain ⟨rfl, rfl⟩ : (s.connectTcp tun).1 = s' ∧ (s.connectTcp tun).2 = o :=
          Prod.mk.inj (Option.some.inj hs)
        exact hreconnects tun
    · cases hs
  | readTun r =>
    simp only [Client.step] at hs
    split at hs
    · next hpc =>
      split at hs
      · next bytes =>
        by_cases hle : bytes.length ≤ 4906
        · rw [if_pos hle] at hs
          obtain ⟨rfl, rfl⟩ := Prod.mk.inj (Option.some.inj hs)
          exact .taken hpc hle
        · rw [if_neg hle] at hs
          cases hs
      · obtain ⟨rfl, rfl⟩ := Prod.mk.inj (Option.some.inj hs)
        exact hmoved _ rfl
      · obtain ⟨rfl, rfl⟩ := Prod.mk.inj (Option.some.inj hs)
        exact hmoved _ rfl
    · cases hs
  | send ok =>
    simp only [Client.step] at hs
    split at hs
    · next bytes hpc =>
      split_ifs at hs
      · obtain ⟨rfl, rfl⟩ := Prod.mk.inj (Option.some.inj hs)
        exact .sent hpc
      · obtain ⟨rfl, rfl⟩ := Prod.mk.inj (Option.some.inj hs)
        exact .reconnects (o := [.notSent bytes]) (.inl rfl)
          fun ob hob => ⟨bytes, List.mem_singleton.mp hob⟩
    · cases hs
  | getaddrinfo ok =>
    simp only [Client.step] at hs
    split at hs
    · next tun hpc =>
      split_ifs at hs
      · obtain ⟨rfl, rfl⟩ := Prod.mk.inj (Option.some.inj hs)
        exact hmoved _ rfl
      · obtain ⟨rfl, rfl⟩ : (s.connectTcp tun).1 = s' ∧ (s.connectTcp tun).2 = o :=
          Prod.mk.inj (Option.some.inj hs)
        exact hreconnects tun
    · cases hs
  | socket fd =>
    simp only [Client.step] at hs
    split at hs
    · next tun hpc =>
      cases fd with
      | none =>
        obtain ⟨rfl, rfl⟩ := Prod.mk.inj (Option.some.inj hs)
        exact .reconnects (o := []) (.inr rfl) fun _ hob => by cases hob
      | some fd =>
        by_cases hopen : (s.fds fd).isSome = true
        · simp [hopen] at hs
        · simp only [hopen, Bool.false_eq_true, if_false] at hs
          obtain ⟨rfl, rfl⟩ := Prod.mk.inj (Option.some.inj hs)
          exact .opened (by simpa using hopen)
    · cases hs
  | connect ok =>
    simp only [Client.step] at hs
    split at hs
    · next tun hpc =>
      split_ifs at hs
      · obtain ⟨rfl, rfl⟩ : (s.connected tun).1 = s' ∧ (s.connected tun).2 = o :=
          Prod.mk.inj (Option.some.inj hs)
        exact .connected
      · obtain ⟨rfl, rfl⟩ := Prod.mk.inj (Option.some.inj hs)
        exact hmoved s.pc (by rw [hpc]; rfl)
    · cases hs

/-! ### The TUN device stays open -/

/-- `tun_file` is open, and is not the socket. -/
structure Client.TunOk (cfg : ClientConfig) (s : Client) : Prop where
  tun : s.fds cfg.tunFile = some .tun
  socket : s.tcpSocket ≠ some cfg.tunFile

theorem Client.tunOk_init : Client.TunOk cfg (Client.init cfg) where
  tun := if_pos rfl
  socket := by simp [Client.init]

/-- `connect_tcp` closes another descriptor. -/
theorem Client.TunOk.connectTcp {s : Client} (h : Client.TunOk cfg s) (tun : Bool) :
    Client.TunOk cfg (s.connectTcp tun).1 := by
  unfold Client.connectTcp
  split
  · exact ⟨h.tun, h.socket⟩
  · next fd hsocket =>
    have hne : cfg.tunFile ≠ fd := by
      rintro rfl
      exact h.socket hsocket
    exact ⟨by simpa only [Function.update_of_ne hne] using h.tun, h.socket⟩

theorem Client.TunOk.connected {s : Client} (h : Client.TunOk cfg s) (tun : Bool) :
    Client.TunOk cfg (s.connected tun).1 := by
  unfold Client.connected
  split
  · next fd k c hsocket hfile =>
    have hne : cfg.tunFile ≠ fd := by
      rintro rfl
      exact h.socket hsocket
    exact ⟨by simpa only [Function.update_of_ne hne] using h.tun, h.socket⟩
  · exact ⟨h.tun, h.socket⟩

/-- **Step lemma.**  Every step leaves the TUN device open. -/
theorem Client.tunOk_step {s s' : Client} {i : ClientInput} {o : List ClientObs}
    (h : Client.TunOk cfg s) (hs : s.step cfg i = some (s', o)) : Client.TunOk cfg s' := by
  have heff := Client.effect_of_step hs
  cases heff with
  | moved hpc ho => exact ⟨h.tun, h.socket⟩
  | injected hpc hne hle => exact ⟨h.tun, h.socket⟩
  | taken hpc hle => exact ⟨h.tun, h.socket⟩
  | sent hpc => exact ⟨h.tun, h.socket⟩
  | @reconnects t tun o ht ho =>
    refine Client.TunOk.connectTcp ?_ tun
    rcases ht with rfl | rfl
    · exact h
    · exact ⟨h.tun, by simp⟩
  | @opened fd tun hfree =>
    -- the descriptor was free, so it is not that of the TUN device
    have hne : cfg.tunFile ≠ fd := by
      rintro rfl
      rw [h.tun] at hfree
      cases hfree
    refine ⟨?_, fun heq => hne (Option.some.inj heq).symm⟩
    show Function.update s.fds fd _ cfg.tunFile = _
    rw [Function.update_of_ne hne]
    exact h.tun
  | connected => exact h.connected _

end Gap.Tunnel
