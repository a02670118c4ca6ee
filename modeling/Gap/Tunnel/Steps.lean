import Gap.Tunnel.Server

namespace Gap.Tunnel

/-!
# What a step of the server can do

* `Sane` — what holds of descriptors and pending events in every reachable state: connections
  have one descriptor each, and the events left of a batch refer to open descriptors.
* `Effect` — the five kinds of steps, with what is known of the descriptor they handle.
* `effect_of_step`, `sane_step` — every step of a sane state is one of them, and leaves one.
* `ServerObs.TellsOf`, `tellsOf_step` — what each output says of the step that puts it out.
* `readsOf` — what has been read from a connection.
-/

variable {cfg : Config}

/-! ### Descriptors -/

/-- The special files have their own descriptors, and so has each connection. -/
structure FdsOk (cfg : Config) (fds : FdTable) (nextConn : ℕ) : Prop where
  conn_lt : ∀ fd c, fds fd = some (.conn c) → c < nextConn
  conn_inj : ∀ fd fd' c, fds fd = some (.conn c) → fds fd' = some (.conn c) → fd = fd'
  tun : ∀ fd, fds fd = some .tun → fd = cfg.tunFile
  listener : ∀ fd, fds fd = some .listener → fd = cfg.sfd
  listening : fds cfg.sfd = some .listener
  epoll : fds cfg.efd = some .epoll

theorem Config.fds_ne_conn (cfg : Config) (fd c : ℕ) : cfg.fds fd ≠ some (.conn c) := by
  unfold Config.fds
  split_ifs <;> simp

theorem fdsOk_init : FdsOk cfg cfg.fds 0 where
  conn_lt fd c h := absurd h (cfg.fds_ne_conn fd c)
  conn_inj fd fd' c h := absurd h (cfg.fds_ne_conn fd c)
  tun fd h := by
    by_contra hne
    unfold Config.fds at h
    rw [if_neg hne] at h
    split_ifs at h <;> cases h
  listener fd h := by
    by_contra hne
    unfold Config.fds at h
    rw [if_neg hne] at h
    split_ifs at h <;> cases h
  listening := by
    unfold Config.fds
    rw [if_neg cfg.tunFile_ne_sfd.symm, if_pos rfl]
  epoll := by
    unfold Config.fds
    rw [if_neg cfg.tunFile_ne_efd.symm, if_neg cfg.sfd_ne_efd.symm, if_pos rfl]

/-- Opening one file adds no descriptor of another. -/
theorem of_update_some {fds : FdTable} {fd f : ℕ} {x y : File}
    (h : Function.update fds fd (some x) f = some y) (hxy : x ≠ y) : fds f = some y := by
  by_cases he : f = fd
  · rw [he, Function.update_self, Option.some.injEq] at h
    exact absurd h hxy
  · rwa [Function.update_of_ne he] at h

/-- Opening a file on a free descriptor leaves the open ones alone. -/
theorem update_some_of_open {fds : FdTable} {fd f : ℕ} {x y : File} (hfree : fds fd = none)
    (h : fds f = some y) : Function.update fds fd (some x) f = some y := by
  rw [Function.update_of_ne fun he => by rw [he, hfree] at h; cases h]
  exact h

/-- What is open after closing a descriptor is another one. -/
theorem of_update_none {fds : FdTable} {fd f : ℕ} {x : File}
    (h : Function.update fds fd none f = some x) : f ≠ fd ∧ fds f = some x := by
  have hne : f ≠ fd := by
    rintro rfl
    rw [Function.update_self] at h
    cases h
  rw [Function.update_of_ne hne] at h
  exact ⟨hne, h⟩

/-- Opening the assignments file on a free descriptor. -/
theorem FdsOk.open {fds : FdTable} {n fd : ℕ} (h : FdsOk cfg fds n) (hfree : fds fd = none) :
    FdsOk cfg (Function.update fds fd (some .assignments)) n where
  conn_lt fd' c hc := h.conn_lt fd' c (of_update_some hc (by simp))
  conn_inj fd' fd'' c hc hc' :=
    h.conn_inj fd' fd'' c (of_update_some hc (by simp)) (of_update_some hc' (by simp))
  tun fd' hc := h.tun fd' (of_update_some hc (by simp))
  listener fd' hc := h.listener fd' (of_update_some hc (by simp))
  listening := update_some_of_open hfree h.listening
  epoll := update_some_of_open hfree h.epoll

/-- Accepting a connection on a free descriptor. -/
theorem FdsOk.accept {fds : FdTable} {n fd : ℕ} (h : FdsOk cfg fds n) (hfree : fds fd = none) :
    FdsOk cfg (Function.update fds fd (some (.conn n))) (n + 1) := by
  -- the new connection has a number no other descriptor has
  have hnew : ∀ f, Function.update fds fd (some (.conn n)) f = some (.conn n) → f = fd := by
    intro f hf
    by_contra he
    rw [Function.update_of_ne he] at hf
    exact absurd (h.conn_lt f n hf) (Nat.lt_irrefl n)
  refine ⟨fun fd' c hc => ?_, fun fd' fd'' c hc hc' => ?_,
    fun fd' hc => h.tun fd' (of_update_some hc (by simp)),
    fun fd' hc => h.listener fd' (of_update_some hc (by simp)),
    update_some_of_open hfree h.listening, update_some_of_open hfree h.epoll⟩
  · by_cases hcn : c = n
    · omega
    · exact (h.conn_lt fd' c (of_update_some hc (by simpa using Ne.symm hcn))).trans
        (Nat.lt_succ_self n)
  · by_cases hcn : c = n
    · subst hcn
      rw [hnew fd' hc, hnew fd'' hc']
    · have hne : File.conn n ≠ File.conn c := by simpa using Ne.symm hcn
      exact h.conn_inj fd' fd'' c (of_update_some hc hne) (of_update_some hc' hne)

/-- Closing a registered descriptor other than the listening socket. -/
theorem FdsOk.close {fds : FdTable} {n fd : ℕ} (h : FdsOk cfg fds n)
    (hreg : registered (fds fd) = true) (hsfd : fd ≠ cfg.sfd) :
    FdsOk cfg (Function.update fds fd none) n := by
  have hold : ∀ f x, Function.update fds fd none f = some x → fds f = some x :=
    fun f x hf => (of_update_none hf).2
  refine ⟨fun fd' c hc => h.conn_lt fd' c (hold _ _ hc),
    fun fd' fd'' c hc hc' => h.conn_inj fd' fd'' c (hold _ _ hc) (hold _ _ hc'),
    fun fd' hc => h.tun fd' (hold _ _ hc), fun fd' hc => h.listener fd' (hold _ _ hc), ?_, ?_⟩
  · rw [Function.update_of_ne hsfd.symm]
    exact h.listening
  · rw [Function.update_of_ne fun he => by rw [← he, h.epoll] at hreg; cases hreg]
    exact h.epoll

/-! ### Pending events -/

/-- The descriptors of the events not handled to the end. -/
def pendingFds : Pc → List ℕ
  | .accepting rest => rest.map EpollEvent.fd
  | .reading fd rest => fd :: rest.map EpollEvent.fd
  | _ => []

/-- The events of the batch that have not been looked at. -/
def pendingEvents : Pc → List EpollEvent
  | .accepting rest => rest
  | .reading _ rest => rest
  | _ => []

theorem pendingEvents_sublist (pc : Pc) :
    ((pendingEvents pc).map EpollEvent.fd).Sublist (pendingFds pc) := by
  cases pc with
  | accepting rest => exact List.Sublist.refl _
  | reading fd rest => exact List.sublist_cons_self _ _
  | _ => exact List.nil_sublist _

/-- The pending events refer to distinct open descriptors, and the listening socket is never
    read. -/
structure PcOk (cfg : Config) (fds : FdTable) (pc : Pc) : Prop where
  nodup : (pendingFds pc).Nodup
  pending : ∀ fd ∈ pendingFds pc, registered (fds fd) = true
  reading : ∀ fd rest, pc = .reading fd rest → fd ≠ cfg.sfd

/-- The next place in the program takes its events from those left. -/
theorem pendingFds_nextPc (rest : List EpollEvent) :
    (pendingFds (nextPc cfg rest)).Sublist (rest.map EpollEvent.fd) := by
  have hsuffix := (List.dropWhile_suffix EpollEvent.isError (l := rest)).sublist.map EpollEvent.fd
  unfold nextPc
  cases hdrop : rest.dropWhile EpollEvent.isError with
  | nil => exact List.nil_sublist _
  | cons ev rest' =>
    rw [hdrop, List.map_cons] at hsuffix
    by_cases hsfd : ev.fd = cfg.sfd
    · simp only [hsfd, if_true]
      exact (List.sublist_cons_self _ _).trans hsuffix
    · simp only [hsfd, if_false]
      exact hsuffix

theorem pcOk_nextPc {fds : FdTable} {rest : List EpollEvent}
    (hnodup : (rest.map EpollEvent.fd).Nodup)
    (hreg : ∀ fd ∈ rest.map EpollEvent.fd, registered (fds fd) = true) :
    PcOk cfg fds (nextPc cfg rest) where
  nodup := hnodup.sublist (pendingFds_nextPc rest)
  pending fd h := hreg fd ((pendingFds_nextPc rest).subset h)
  reading fd rest' h := by
    unfold nextPc at h
    split at h
    · cases h
    · next ev _ _ =>
      by_cases hsfd : ev.fd = cfg.sfd
      · rw [if_pos hsfd] at h; cases h
      · rw [if_neg hsfd, Pc.reading.injEq] at h
        rwa [← h.1]

/-- Opening a file on a free descriptor leaves the pending events alone. -/
theorem PcOk.open {fds : FdTable} {pc : Pc} {fd : ℕ} (h : PcOk cfg fds pc) (hfree : fds fd = none)
    (file : File) : PcOk cfg (Function.update fds fd (some file)) pc where
  nodup := h.nodup
  pending fd' hmem := by
    have hreg := h.pending fd' hmem
    rw [Function.update_of_ne fun he => by rw [he, hfree] at hreg; cases hreg]
    exact hreg
  reading := h.reading

/-- With nothing pending, nothing is required. -/
theorem pcOk_stopped {fds : FdTable} {pc : Pc} (h : pendingFds pc = []) : PcOk cfg fds pc where
  nodup := by rw [h]; exact List.nodup_nil
  pending fd hmem := by rw [h] at hmem; cases hmem
  reading fd rest hpc := by rw [hpc] at h; cases h

/-! ### Reachable states -/

/-- Descriptors and pending events of a state are in order. -/
structure Sane (cfg : Config) (s : Server) : Prop where
  fds : FdsOk cfg s.fds s.nextConn
  pc : PcOk cfg s.fds s.pc

theorem sane_init : Sane cfg (Server.init cfg) :=
  ⟨fdsOk_init, ⟨List.nodup_nil, fun _ h => (by cases h), fun _ _ h => (by cases h)⟩⟩

/-- The events left once the current one is done. -/
def Server.rest (s : Server) : ServerInput → List EpollEvent
  | .epollWait events => events
  | _ =>
    match s.pc with
    | .accepting rest => rest
    | .reading _ rest => rest
    | _ => []

/-- They are those of a new batch, or those pending. -/
theorem Server.rest_eq (s : Server) (i : ServerInput) :
    (∃ events, i = .epollWait events ∧ s.rest i = events) ∨ s.rest i = pendingEvents s.pc := by
  cases i with
  | epollWait events => exact .inl ⟨events, rfl, rfl⟩
  | accept r => exact .inr rfl
  | read r env => exact .inr rfl

/-- The kinds of steps. -/
inductive Effect (cfg : Config) (s : Server) : ServerInput → Server → List ServerObs → Prop
  /-- Go on with the events left. -/
  | next {i : ServerInput} (hread : ∀ r env, i = .read r env → r = .again)
      (haccept : ∀ fd setUp, i ≠ .accept (.connected fd setUp)) :
      Effect cfg s i (s.next cfg (s.rest i)).1 (s.next cfg (s.rest i)).2
  /-- A new connection. -/
  | accepted {fd : ℕ} {setUp : Bool} {pc : Pc} (hfree : s.fds fd = none)
      (hpc : pc = s.pc ∨ pc = .exited) :
      Effect cfg s (.accept (.connected fd setUp))
        { s with
          fds := Function.update s.fds fd (some (.conn s.nextConn))
          nextConn := s.nextConn + 1
          pc } [.accepted fd s.nextConn]
  /-- Data from a connection. -/
  | fromTcp {fd c : ℕ} {rest : List EpollEvent} {bytes : List UInt8} {env : ReadEnv}
      (hpc : s.pc = .reading fd rest) (hconn : s.fds fd = some (.conn c)) (htun : fd ≠ cfg.tunFile)
      (hpos : 1 ≤ bytes.length) (hle : bytes.length ≤ 4096) :
      Effect cfg s (.read (.data bytes) env) (s.fromTcp cfg fd bytes env.stale).1
        (s.fromTcp cfg fd bytes env.stale).2
  /-- Data from the descriptor of the TUN device. -/
  | fromTun {rest : List EpollEvent} {bytes : List UInt8} {env : ReadEnv} {s' : Server}
      {o : List ServerObs} (hpc : s.pc = .reading cfg.tunFile rest) (hpos : 1 ≤ bytes.length)
      (hle : bytes.length ≤ 4096) (hs : s.fromTun cfg bytes env = some (s', o)) :
      Effect cfg s (.read (.data bytes) env) s' o
  /-- The end of a connection, or of the TUN device. -/
  | closed {fd : ℕ} {rest : List EpollEvent} {r : ReadResult} {env : ReadEnv}
      (hpc : s.pc = .reading fd rest) (hreg : registered (s.fds fd) = true) (hsfd : fd ≠ cfg.sfd)
      (hr : r = .error ∨ r = .eof) :
      Effect cfg s (.read r env) (s.close cfg fd rest).1 (s.close cfg fd rest).2

/-- A descriptor that is read and is not the TUN device's is a connection's. -/
theorem Sane.conn_of_reading {s : Server} (h : Sane cfg s) {fd : ℕ} {rest : List EpollEvent}
    (hpc : s.pc = .reading fd rest) (htun : fd ≠ cfg.tunFile) : ∃ c, s.fds fd = some (.conn c) := by
  have hreg := h.pc.pending fd (by rw [hpc]; exact List.mem_cons_self)
  have hsfd := h.pc.reading fd rest hpc
  -- of the registered files, the TUN device and the listening socket have their own descriptors
  cases hfile : s.fds fd with
  | none => rw [hfile] at hreg; cases hreg
  | some file =>
    cases file with
    | conn c => exact ⟨c, rfl⟩
    | tun => exact absurd (h.fds.tun fd hfile) htun
    | listener => exact absurd (h.fds.listener fd hfile) hsfd
    | stdio => rw [hfile] at hreg; cases hreg
    | epoll => rw [hfile] at hreg; cases hreg
    | assignments => rw [hfile] at hreg; cases hreg

/-- **Every step is one of the five kinds.** -/
theorem effect_of_step {s s' : Server} {i : ServerInput} {o : List ServerObs} (h : Sane cfg s)
    (hs : s.step cfg i = some (s', o)) : Effect cfg s i s' o := by
  cases i with
  | epollWait events =>
    simp only [Server.step] at hs
    split at hs
    · split at hs
      · obtain ⟨rfl, rfl⟩ := Prod.mk.inj (Option.some.inj hs)
        exact .next (i := .epollWait events) (fun _ _ hi => by cases hi) fun _ _ hi => by cases hi
      · cases hs
    · cases hs
  | accept r =>
    simp only [Server.step] at hs
    split at hs
    · next rest hpc =>
      have hrest : s.rest (.accept r) = rest := by simp [Server.rest, hpc]
      cases r with
      | connected fd setUp =>
        by_cases hopen : (s.fds fd).isSome = true
        · simp [hopen] at hs
        · simp only [hopen, Bool.false_eq_true, if_false] at hs
          obtain ⟨rfl, rfl⟩ := Prod.mk.inj (Option.some.inj hs)
          refine .accepted (by simpa using hopen) ?_
          cases setUp with
          | true => exact .inl hpc.symm
          | false => exact .inr rfl
      | again =>
        obtain ⟨rfl, rfl⟩ := Prod.mk.inj (Option.some.inj hs)
        rw [← hrest]
        exact .next (fun _ _ hi => by cases hi) fun _ _ hi => by cases hi
      | error =>
        obtain ⟨rfl, rfl⟩ := Prod.mk.inj (Option.some.inj hs)
        rw [← hrest]
        exact .next (fun _ _ hi => by cases hi) fun _ _ hi => by cases hi
    · cases hs
  | read r env =>
    simp only [Server.step] at hs
    split at hs
    · next fd rest hpc =>
      -- what is known of the descriptor comes from the batch it was reported in
      have hreg := h.pc.pending fd (by rw [hpc]; exact List.mem_cons_self)
      have hsfd := h.pc.reading fd rest hpc
      cases r with
      | data bytes =>
        by_cases hlen : 1 ≤ bytes.length ∧ bytes.length ≤ 4096
        · by_cases htun : fd = cfg.tunFile
          · subst htun
            simp only [hlen, and_self, if_true] at hs
            exact .fromTun hpc hlen.1 hlen.2 hs
          · obtain ⟨c, hconn⟩ := h.conn_of_reading hpc htun
            simp only [hlen, and_self, htun, if_true, if_false] at hs
            obtain ⟨rfl, rfl⟩ := Prod.mk.inj (Option.some.inj hs)
            exact .fromTcp hpc hconn htun hlen.1 hlen.2
        · simp [hlen] at hs
      | again =>
        obtain ⟨rfl, rfl⟩ := Prod.mk.inj (Option.some.inj hs)
        have hrest : s.rest (.read .again env) = rest := by simp [Server.rest, hpc]
        rw [← hrest]
        exact .next (fun _ _ hi => by cases hi; rfl) fun _ _ hi => by cases hi
      | error =>
        obtain ⟨rfl, rfl⟩ := Prod.mk.inj (Option.some.inj hs)
        exact .closed hpc hreg hsfd (.inl rfl)
      | eof =>
        obtain ⟨rfl, rfl⟩ := Prod.mk.inj (Option.some.inj hs)
        exact .closed hpc hreg hsfd (.inr rfl)
    · cases hs

/-! ### The parts of a step -/

/-- The bytes written are the bytes read. -/
theorem front_copy_all {bytes : List UInt8} (h : bytes.length ≤ 4096) (stale : Buf 4096) :
    (stale.copy 0 bytes).front bytes.length = bytes := by
  rw [Buf.front_copy _ le_rfl h, List.take_length]

/-- Data from a connection changes at most what is learned of it. -/
theorem fromTcp_eq (s : Server) (fd : ℕ) {bytes : List UInt8} (h : bytes.length ≤ 4096)
    (stale : Buf 4096) :
    s.fromTcp cfg fd bytes stale =
      match learns s.prefixes fd (stale.copy 0 bytes) with
      | some addr => ({ s with prefixes := learn s.prefixes fd addr },
          [.received fd (s.fds fd) bytes, .learned fd (s.fds fd) addr,
            .wrote (s.fds fd) cfg.tunFile (s.fds cfg.tunFile) bytes])
      | none => (s, [.received fd (s.fds fd) bytes,
          .wrote (s.fds fd) cfg.tunFile (s.fds cfg.tunFile) bytes]) := by
  cases hlearns : learns s.prefixes fd (stale.copy 0 bytes) with
  | none => simp only [Server.fromTcp, front_copy_all h, hlearns]
  | some addr => simp only [Server.fromTcp, front_copy_all h, hlearns]

/-- A read of data is passed on by the branch of its descriptor: that of a connection. -/
theorem fromTcp_of_step {s s' : Server} {fd : ℕ} {rest : List EpollEvent} {bytes : List UInt8}
    {env : ReadEnv} {o : List ServerObs} (h : Sane cfg s)
    (hs : s.step cfg (.read (.data bytes) env) = some (s', o)) (hpc : s.pc = .reading fd rest)
    (htun : fd ≠ cfg.tunFile) :
    bytes.length ≤ 4096 ∧ s' = (s.fromTcp cfg fd bytes env.stale).1 ∧
      o = (s.fromTcp cfg fd bytes env.stale).2 := by
  have heff := effect_of_step h hs
  cases heff with
  | next hread haccept => cases hread _ _ rfl
  | fromTcp hpc' hconn htun' hpos hle =>
    rw [hpc, Pc.reading.injEq] at hpc'
    obtain ⟨rfl, -⟩ := hpc'
    exact ⟨hle, rfl, rfl⟩
  | fromTun hpc' hpos hle hrun =>
    rw [hpc, Pc.reading.injEq] at hpc'
    exact absurd hpc'.1 htun
  | closed hpc' hreg hsfd hr => rcases hr with hr | hr <;> cases hr

/-- That of the TUN device. -/
theorem fromTun_of_step {s s' : Server} {rest : List EpollEvent} {bytes : List UInt8}
    {env : ReadEnv} {o : List ServerObs}
    (hs : s.step cfg (.read (.data bytes) env) = some (s', o))
    (hpc : s.pc = .reading cfg.tunFile rest) :
    bytes.length ≤ 4096 ∧ s.fromTun cfg bytes env = some (s', o) := by
  simp only [Server.step, hpc] at hs
  by_cases hlen : 1 ≤ bytes.length ∧ bytes.length ≤ 4096
  · rw [if_pos hlen, if_pos trivial] at hs
    exact ⟨hlen.2, hs⟩
  · rw [if_neg hlen] at hs
    cases hs

/-- A load that stays inside the line. -/
theorem reload_of_some {s : Server} {a : Assignments} {t : Prefixes}
    (h : parsePrefixes cfg.inetPton a.ind a.contents s.prefixes = some t) :
    s.reload cfg a
      = { s with prefixes := t, fds := Function.update s.fds a.fd (some .assignments) } := by
  simp only [Server.reload, h]

/-- One that does not. -/
theorem reload_of_none {s : Server} {a : Assignments}
    (h : parsePrefixes cfg.inetPton a.ind a.contents s.prefixes = none) :
    s.reload cfg a
      = { s with fds := Function.update s.fds a.fd (some .assignments), pc := .undefined } := by
  simp only [Server.reload, h]

/-- What happens to a packet for the /52. -/
inductive Lookup52 (cfg : Config) (s : Server) (bytes : List UInt8) (env : ReadEnv) (dst : In6Addr)
    (s' : Server) (o : List ServerObs) : Prop
  | hit (j : Fin 512) (hfind : findPd s.prefixes dst = some j) (hs : s' = s)
      (ho : o = .received cfg.tunFile (s.fds cfg.tunFile) bytes :: s.forward cfg bytes (some j))
  | unreadable (hfind : findPd s.prefixes dst = none) (ha : env.assignments = none)
      (hs : s' = { s with pc := .exited })
      (ho : o = [.received cfg.tunFile (s.fds cfg.tunFile) bytes])
  /-- A digit is stored in front of `line[]`. -/
  | overrun (a : Assignments) (hfind : findPd s.prefixes dst = none) (ha : env.assignments = some a)
      (hload : parsePrefixes cfg.inetPton a.ind a.contents s.prefixes = none)
      (hs : s' = s.reload cfg a) (ho : o = [.received cfg.tunFile (s.fds cfg.tunFile) bytes])
  | loaded (a : Assignments) (hfind : findPd s.prefixes dst = none) (ha : env.assignments = some a)
      (hload : parsePrefixes cfg.inetPton a.ind a.contents s.prefixes = some s'.prefixes)
      (hs : s' = s.reload cfg a)
      (ho : o = .received cfg.tunFile (s.fds cfg.tunFile) bytes ::
        s'.forward cfg bytes (findPd s'.prefixes dst))

/-- **A packet for the /52** finds an entry, or makes the server load the assignments. -/
theorem lookup52_of_fromTun {s s' : Server} {bytes : List UInt8} {env : ReadEnv}
    {o : List ServerObs} {rest : List EpollEvent} (hpc : s.pc = .reading cfg.tunFile rest)
    (hlen : bytes.length ≤ 4096) (hs : s.fromTun cfg bytes env = some (s', o))
    (hv : version (env.stale.copy 0 bytes) = 6)
    (h52 : cfg.inSlash52 (daddr (env.stale.copy 0 bytes)) = true) :
    Lookup52 cfg s bytes env (daddr (env.stale.copy 0 bytes)) s' o := by
  simp only [Server.fromTun, front_copy_all hlen] at hs
  generalize env.stale.copy 0 bytes = buf at hs hv h52 ⊢
  simp only [hv, ne_eq, not_true_eq_false, if_false, h52, if_true] at hs
  cases hfind : findPd s.prefixes (daddr buf) with
  | some j =>
    rw [hfind] at hs
    obtain ⟨rfl, rfl⟩ := Prod.mk.inj (Option.some.inj hs)
    exact .hit j hfind rfl rfl
  | none =>
    rw [hfind] at hs
    cases ha : env.assignments with
    | none =>
      rw [ha] at hs
      obtain ⟨rfl, rfl⟩ := Prod.mk.inj (Option.some.inj hs)
      exact .unreadable hfind ha rfl rfl
    | some a =>
      simp only [ha] at hs
      by_cases hopen : (s.fds a.fd).isSome = true
      · rw [if_pos hopen] at hs
        cases hs
      rw [if_neg hopen] at hs
      -- the load leaves the place in the program alone unless it leaves the line
      cases hload : parsePrefixes cfg.inetPton a.ind a.contents s.prefixes with
      | none =>
        rw [if_pos (by rw [reload_of_none hload])] at hs
        obtain ⟨rfl, rfl⟩ := Prod.mk.inj (Option.some.inj hs)
        exact .overrun a hfind ha hload rfl rfl
      | some t =>
        have hgoes : (s.reload cfg a).pc ≠ .undefined := by
          rw [reload_of_some hload]
          show s.pc ≠ .undefined
          rw [hpc]
          exact fun h => by cases h
        rw [if_neg hgoes] at hs
        obtain ⟨rfl, rfl⟩ := Prod.mk.inj (Option.some.inj hs)
        exact .loaded a hfind ha (by rw [hload, reload_of_some hload]) rfl rfl

/-- What happens to a packet that is not in the /52. -/
theorem fromTun_of_not52 {s s' : Server} {bytes : List UInt8} {env : ReadEnv}
    {e : List ServerObs} (hlen : bytes.length ≤ 4096)
    (hs : s.fromTun cfg bytes env = some (s', e)) (hv : version (env.stale.copy 0 bytes) = 6)
    (h52 : cfg.inSlash52 (daddr (env.stale.copy 0 bytes)) ≠ true) :
    s' = s ∧ e = .received cfg.tunFile (s.fds cfg.tunFile) bytes :: s.forward cfg bytes
      (if cfg.inSlash64 (daddr (env.stale.copy 0 bytes)) = true
        then findLl s.prefixes (daddr (env.stale.copy 0 bytes)) else none) := by
  simp only [Server.fromTun, front_copy_all hlen, hv, h52, ne_eq, not_true_eq_false, if_false,
    Bool.false_eq_true] at hs
  split at hs
  · next h64 =>
    obtain ⟨rfl, rfl⟩ := Prod.mk.inj (Option.some.inj hs)
    exact ⟨rfl, by rw [if_pos h64]⟩
  · next h64 =>
    obtain ⟨rfl, rfl⟩ := Prod.mk.inj (Option.some.inj hs)
    exact ⟨rfl, by rw [if_neg h64]; rfl⟩

/-- **What a packet from TUN can do**: at most a reload of the blocks, and at most one write, to
    an entry in use. -/
structure Forwarded (cfg : Config) (s : Server) (bytes : List UInt8) (s' : Server)
    (o : List ServerObs) : Prop where
  prefixes : Reloaded s.prefixes s'.prefixes
  fds : s'.fds = s.fds ∨
    ∃ fd, s.fds fd = none ∧ s'.fds = Function.update s.fds fd (some .assignments)
  nextConn : s'.nextConn = s.nextConn
  pc : s'.pc = s.pc ∨ s'.pc = .exited ∨ s'.pc = .undefined
  obs : ∃ j : Option (Fin 512),
    o = .received cfg.tunFile (s.fds cfg.tunFile) bytes :: s'.forward cfg bytes j ∧
    ∀ k ∈ j, (s'.prefixes k).plenPd ≠ 0 ∨ (s'.prefixes k).plenLl ≠ 0

/-- No descriptor is closed. -/
theorem Forwarded.of_open {s s' : Server} {bytes : List UInt8} {o : List ServerObs}
    (h : Forwarded cfg s bytes s' o) {fd : ℕ} {x : File} (hx : s.fds fd = some x) :
    s'.fds fd = some x := by
  rcases h.fds with hsame | ⟨f, hfree, hopen⟩
  · rwa [hsame]
  · rw [hopen]
    exact update_some_of_open hfree hx

theorem findPd_inUse {t : Prefixes} {dst : In6Addr} {j : Fin 512} (h : findPd t dst = some j) :
    (t j).plenPd ≠ 0 ∨ (t j).plenLl ≠ 0 := by
  have hmatch := Fin.eq_true_of_find?_eq_some h
  simp only [SocketPrefix.matchesPd, Bool.and_eq_true, bne_iff_ne] at hmatch
  exact .inl hmatch.1.1

theorem findLl_inUse {t : Prefixes} {dst : In6Addr} {j : Fin 512} (h : findLl t dst = some j) :
    (t j).plenPd ≠ 0 ∨ (t j).plenLl ≠ 0 := by
  have hmatch := Fin.eq_true_of_find?_eq_some h
  simp only [SocketPrefix.matchesLl, Bool.and_eq_true, bne_iff_ne] at hmatch
  exact .inr hmatch.1

/-- What a load leaves. -/
theorem reload_cases (cfg : Config) (s : Server) (a : Assignments) :
    Reloaded s.prefixes (s.reload cfg a).prefixes ∧
      (s.reload cfg a).fds = Function.update s.fds a.fd (some .assignments) ∧
      (s.reload cfg a).nextConn = s.nextConn ∧
      ((s.reload cfg a).pc = s.pc ∨ (s.reload cfg a).pc = .undefined) := by
  cases hload : parsePrefixes cfg.inetPton a.ind a.contents s.prefixes with
  | none =>
    rw [reload_of_none hload]
    exact ⟨Reloaded.refl _, rfl, rfl, .inr rfl⟩
  | some t =>
    rw [reload_of_some hload]
    exact ⟨parsePrefixes_reloaded hload, rfl, rfl, .inl rfl⟩

theorem forwarded_of_fromTun {s s' : Server} {bytes : List UInt8} {env : ReadEnv}
    {o : List ServerObs} (hlen : bytes.length ≤ 4096)
    (hs : s.fromTun cfg bytes env = some (s', o)) : Forwarded cfg s bytes s' o := by
  simp only [Server.fromTun, front_copy_all hlen] at hs
  generalize env.stale.copy 0 bytes = buf at hs
  -- a packet that is sent on without a reload, or not at all
  have hkeep : ∀ j : Option (Fin 512),
      (∀ k ∈ j, (s.prefixes k).plenPd ≠ 0 ∨ (s.prefixes k).plenLl ≠ 0) →
      some (s, .received cfg.tunFile (s.fds cfg.tunFile) bytes :: s.forward cfg bytes j)
        = some (s', o) → Forwarded cfg s bytes s' o := by
    intro j hj heq
    obtain ⟨rfl, rfl⟩ := Prod.mk.inj (Option.some.inj heq)
    exact ⟨Reloaded.refl _, .inl rfl, rfl, .inl rfl, j, rfl, hj⟩
  by_cases hv : version buf ≠ 6
  · simp only [hv, ne_eq, not_false_eq_true, if_true] at hs
    exact hkeep none (by simp) hs
  · simp only [hv, if_false] at hs
    by_cases h52 : cfg.inSlash52 (daddr buf) = true
    · simp only [h52, if_true] at hs
      split at hs
      · next j hj =>
        refine hkeep (some j) (fun k hk => ?_) hs
        obtain rfl := Option.some.inj hk
        exact findPd_inUse hj
      · split at hs
        · obtain ⟨rfl, rfl⟩ := Prod.mk.inj (Option.some.inj hs)
          exact ⟨Reloaded.refl _, .inl rfl, rfl, .inr (.inl rfl), none, rfl, by simp⟩
        · next a _ =>
          -- the assignments are loaded, and the lookup is made again
          by_cases hopen : (s.fds a.fd).isSome = true
          · simp [hopen] at hs
          obtain ⟨hprefixes, hfds, hnext, hpc⟩ := reload_cases cfg s a
          have hfree : ∃ fd, s.fds fd = none ∧
              (s.reload cfg a).fds = Function.update s.fds fd (some .assignments) :=
            ⟨a.fd, by simpa using hopen, hfds⟩
          simp only [hopen, Bool.false_eq_true, if_false] at hs
          split at hs
          · obtain ⟨rfl, rfl⟩ := Prod.mk.inj (Option.some.inj hs)
            exact ⟨hprefixes, .inr hfree, hnext, hpc.imp_right .inr, none, rfl, by simp⟩
          · obtain ⟨rfl, rfl⟩ := Prod.mk.inj (Option.some.inj hs)
            exact ⟨hprefixes, .inr hfree, hnext, hpc.imp_right .inr, _, rfl,
              fun k hk => findPd_inUse hk⟩
    · simp only [h52, Bool.false_eq_true, if_false] at hs
      by_cases h64 : cfg.inSlash64 (daddr buf) = true
      · simp only [h64, if_true] at hs
        exact hkeep _ (fun k hk => findLl_inUse hk) hs
      · simp only [h64, Bool.false_eq_true, if_false] at hs
        exact hkeep none (by simp) hs

/-! ### Every reachable state is sane -/

/-- Learning leaves descriptors and the place in the program alone. -/
theorem fromTcp_fds (cfg : Config) (s : Server) (fd : ℕ) (bytes : List UInt8) (stale : Buf 4096) :
    (s.fromTcp cfg fd bytes stale).1.fds = s.fds ∧
      (s.fromTcp cfg fd bytes stale).1.nextConn = s.nextConn ∧
      (s.fromTcp cfg fd bytes stale).1.pc = s.pc := by
  simp only [Server.fromTcp]
  cases learns s.prefixes fd (stale.copy 0 bytes) with
  | some addr => exact ⟨rfl, rfl, rfl⟩
  | none => exact ⟨rfl, rfl, rfl⟩

/-- The events left are distinct and open, if those pending were. -/
theorem Sane.rest {s : Server} (h : Sane cfg s) {i : ServerInput} {s' : Server}
    {o : List ServerObs} (hs : s.step cfg i = some (s', o)) :
    ((s.rest i).map EpollEvent.fd).Nodup ∧
      ∀ fd ∈ (s.rest i).map EpollEvent.fd, registered (s.fds fd) = true := by
  rcases s.rest_eq i with ⟨events, rfl, hrest⟩ | hrest
  · -- a batch is refused unless its descriptors are distinct and registered
    have hbatch : s.Batch events := by
      simp only [Server.step] at hs
      split at hs
      · by_contra hno
        rw [if_neg hno] at hs
        cases hs
      · cases hs
    rw [hrest]
    exact ⟨hbatch.2.1, List.forall_mem_map.mpr hbatch.2.2⟩
  · have hsub := pendingEvents_sublist s.pc
    rw [hrest]
    exact ⟨h.pc.nodup.sublist hsub, fun fd hfd => h.pc.pending fd (hsub.subset hfd)⟩

/-- **Step lemma.**  Every step leaves a sane state. -/
theorem sane_step {s s' : Server} {i : ServerInput} {o : List ServerObs} (h : Sane cfg s)
    (hs : s.step cfg i = some (s', o)) : Sane cfg s' := by
  obtain ⟨hnodup, hreg⟩ := h.rest hs
  have heff := effect_of_step h hs
  cases heff with
  | next hread haccept => exact ⟨h.fds, pcOk_nextPc hnodup hreg⟩
  | @accepted fd setUp pc hfree hpc =>
    refine ⟨h.fds.accept hfree, ?_⟩
    rcases hpc with rfl | rfl
    · exact h.pc.open hfree _
    · exact pcOk_stopped rfl
  | @fromTcp fd c rest bytes env hpc hconn htun hpos hle =>
    obtain ⟨hfds, hnext, hpc'⟩ := fromTcp_fds cfg s fd bytes env.stale
    exact ⟨by rw [hfds, hnext]; exact h.fds, by rw [hfds, hpc']; exact h.pc⟩
  | fromTun hpc hpos hle hrun =>
    have hfwd := forwarded_of_fromTun hle hrun
    have hfds : FdsOk cfg s'.fds s'.nextConn ∧ PcOk cfg s'.fds s.pc := by
      rw [hfwd.nextConn]
      rcases hfwd.fds with hsame | ⟨fd, hfree, hopen⟩
      · rw [hsame]; exact ⟨h.fds, h.pc⟩
      · rw [hopen]; exact ⟨h.fds.open hfree, h.pc.open hfree _⟩
    rcases hfwd.pc with hsame | hexit | hundefined
    · exact ⟨hfds.1, by rw [hsame]; exact hfds.2⟩
    · exact ⟨hfds.1, pcOk_stopped (by rw [hexit]; rfl)⟩
    · exact ⟨hfds.1, pcOk_stopped (by rw [hundefined]; rfl)⟩
  | @closed fd rest r env hpc hregfd hsfd hr =>
    have hfds := h.fds.close hregfd hsfd
    unfold Server.close
    by_cases hlt : fd < 512
    · rw [dif_pos hlt]
      refine ⟨hfds, pcOk_nextPc ?_ ?_⟩
      · have hall := h.pc.nodup
        rw [hpc] at hall
        exact (List.nodup_cons.mp hall).2
      · intro f hf
        have hall := h.pc.nodup
        rw [hpc] at hall
        -- the descriptor closed is not among those left
        have hne : f ≠ fd := fun he => (List.nodup_cons.mp hall).1 (he ▸ hf)
        show registered (Function.update s.fds fd none f) = true
        rw [Function.update_of_ne hne]
        exact h.pc.pending f (by rw [hpc]; exact List.mem_cons_of_mem _ hf)
    · rw [dif_neg hlt]
      exact ⟨hfds, pcOk_stopped rfl⟩

/-! ### What the outputs tell -/

/-- The close path closes one descriptor. -/
theorem close_fds (cfg : Config) (s : Server) (fd : ℕ) (rest : List EpollEvent) :
    (s.close cfg fd rest).1.fds = Function.update s.fds fd none ∧
      (s.close cfg fd rest).1.nextConn = s.nextConn := by
  unfold Server.close
  by_cases hlt : fd < 512
  · rw [dif_pos hlt]; exact ⟨rfl, rfl⟩
  · rw [dif_neg hlt]; exact ⟨rfl, rfl⟩

/-- The outputs of the close path. -/
theorem close_obs (s : Server) (fd : ℕ) (rest : List EpollEvent) :
    (s.close cfg fd rest).2 = .ended fd (s.fds fd) ::
      if fd < 512 then skipped (Function.update s.fds fd none) rest else [] := by
  unfold Server.close
  by_cases hlt : fd < 512
  · rw [dif_pos hlt, if_pos hlt]
    rfl
  · rw [dif_neg hlt, if_neg hlt]

theorem rest_of_reading {s : Server} {fd : ℕ} {rest : List EpollEvent}
    (hpc : s.pc = .reading fd rest) (r : ReadResult) (env : ReadEnv) :
    s.rest (.read r env) = rest := by
  simp [Server.rest, hpc]

/-- What an output tells of the step from `s` to `s'` that puts it out. -/
def ServerObs.TellsOf (cfg : Config) (s : Server) (i : ServerInput) (s' : Server) :
    ServerObs → Prop
  | .ignored ev file => ev ∈ s.rest i ∧ ∀ x, file = some x → s.fds ev.fd = some x
  | .accepted _ c => c = s.nextConn
  | .received fd file bytes =>
    file = s.fds fd ∧ ∃ rest env, s.pc = .reading fd rest ∧ i = .read (.data bytes) env
  | .learned fd file addr =>
    file = s.fds fd ∧ fd ≠ cfg.tunFile ∧ ∃ rest bytes env, s.pc = .reading fd rest ∧
      i = .read (.data bytes) env ∧ learns s.prefixes fd (env.stale.copy 0 bytes) = some addr ∧
      s'.prefixes = learn s.prefixes fd addr
  | .ended fd file =>
    file = s.fds fd ∧ ∃ rest r env, s.pc = .reading fd rest ∧ i = .read r env ∧
      (r = .error ∨ r = .eof) ∧ s' = (s.close cfg fd rest).1
  | .wrote _ fd file _ => file = s'.fds fd

/-- Events skipped are events left, and what they are about has not been opened since. -/
theorem tellsOf_skipped {s s' : Server} {i : ServerInput} {fds : FdTable}
    (hfds : ∀ f x, fds f = some x → s.fds f = some x) {ob : ServerObs}
    (hob : ob ∈ skipped fds (s.rest i)) : ob.TellsOf cfg s i s' := by
  obtain ⟨ev, hev, rfl⟩ := List.mem_map.mp hob
  exact ⟨(List.takeWhile_prefix _).subset hev, fun x hx => hfds ev.fd x hx⟩

/-- **Outputs.**  Every output tells of its step. -/
theorem tellsOf_step {s s' : Server} {i : ServerInput} {e : List ServerObs} (h : Sane cfg s)
    (hs : s.step cfg i = some (s', e)) {ob : ServerObs} (hob : ob ∈ e) :
    ob.TellsOf cfg s i s' := by
  have heff := effect_of_step h hs
  cases heff with
  | next hread haccept => exact tellsOf_skipped (fun _ _ hx => hx) hob
  | accepted hfree hpc =>
    rw [List.mem_singleton.mp hob]
    exact rfl
  | @fromTcp fd c rest bytes env hpc hconn htun hpos hle =>
    have hwrote := congrFun (fromTcp_fds cfg s fd bytes env.stale).1.symm cfg.tunFile
    simp only [fromTcp_eq s fd hle] at hob
    -- learned or not, the data is received and written to the TUN device
    cases hlearns : learns s.prefixes fd (env.stale.copy 0 bytes) with
    | none =>
      simp only [hlearns, List.mem_cons, List.not_mem_nil, or_false] at hob
      rcases hob with rfl | rfl
      · exact ⟨rfl, rest, env, hpc, rfl⟩
      · exact hwrote
    | some addr =>
      simp only [hlearns, List.mem_cons, List.not_mem_nil, or_false] at hob
      rcases hob with rfl | rfl | rfl
      · exact ⟨rfl, rest, env, hpc, rfl⟩
      · refine ⟨rfl, htun, rest, bytes, env, hpc, rfl, hlearns, ?_⟩
        rw [fromTcp_eq s fd hle, hlearns]
      · exact hwrote
  | @fromTun rest bytes env s'' o'' hpc hpos hle hrun =>
    obtain ⟨j, ho, -⟩ := (forwarded_of_fromTun hle hrun).obs
    rw [ho] at hob
    rcases List.mem_cons.mp hob with rfl | hob
    · exact ⟨rfl, rest, env, hpc, rfl⟩
    · cases j with
      | none => cases hob
      | some j =>
        rw [List.mem_singleton.mp hob]
        exact rfl
  | @closed fd rest r env hpc hreg hsfd hr =>
    rw [close_obs] at hob
    rcases List.mem_cons.mp hob with rfl | hob
    · exact ⟨rfl, rest, r, env, hpc, rfl, hr, rfl⟩
    · split_ifs at hob
      · rw [← rest_of_reading hpc r env] at hob
        exact tellsOf_skipped (fun _ _ hx => (of_update_none hx).2) hob
      · cases hob

/-! ### The reads of a connection -/

/-- What has been read from connection `c`, read by read. -/
def readsOf (c : ℕ) (o : List ServerObs) : List (List UInt8) :=
  o.filterMap fun
    | .received _ file bytes => if file = some (.conn c) then some bytes else none
    | _ => none

theorem readsOf_append (c : ℕ) (o e : List ServerObs) :
    readsOf c (o ++ e) = readsOf c o ++ readsOf c e := List.filterMap_append

/-- Outputs without a read of `c` change nothing. -/
theorem readsOf_append_of_forall {c : ℕ} {o e : List ServerObs}
    (h : ∀ fd bytes, .received fd (some (.conn c)) bytes ∉ e) : readsOf c (o ++ e) = readsOf c o := by
  have hnone : readsOf c e = [] := by
    rw [readsOf, List.filterMap_eq_nil_iff]
    intro ob hob
    cases ob with
    | received fd file bytes =>
      show (if file = some (.conn c) then some bytes else none) = none
      rw [if_neg]
      rintro rfl
      exact h fd bytes hob
    | _ => rfl
  rw [readsOf_append, hnone, List.append_nil]

end Gap.Tunnel
