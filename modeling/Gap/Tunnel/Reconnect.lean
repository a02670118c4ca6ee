import Gap.Tunnel.Client

namespace Gap.Tunnel

/-!
# The tunnel client reconnects

What is open while `connect_tcp` closes, resolves, opens and connects, in any order of failures.
The kernel gives the lowest free number to what is opened.

* `stdio`, `ClientConfig.fds_eq` — what is open when the process starts, and behind the set-up.
* `Client.Sockets` — what `tcp_socket` refers to, at each stage of `connect_tcp`.
* `reconnect_invariant` — whenever `select` is called, the TUN device and one connected socket.
-/

/-! ### The kernel -/

/-- The number a file is opened at. -/
def LowestFree (fds : ℕ → Option ClientFile) (fd : ℕ) : Prop :=
  fds fd = none ∧ ∀ n < fd, fds n ≠ none

instance decidableLowestFree (fds : ℕ → Option ClientFile) (fd : ℕ) :
    Decidable (LowestFree fds fd) := inferInstanceAs (Decidable (_ ∧ _))

theorem LowestFree.unique {fds : ℕ → Option ClientFile} {fd fd' : ℕ} (h : LowestFree fds fd)
    (h' : LowestFree fds fd') : fd = fd' := by
  refine le_antisymm ?_ ?_
  · exact not_lt.mp fun hlt => h.2 fd' hlt h'.1
  · exact not_lt.mp fun hlt => h'.2 fd hlt h.1

/-- The descriptors of a process that starts. -/
def stdio : ℕ → Option ClientFile := fun fd => if fd < 3 then some .stdio else none

/-- A socket is opened at the lowest number that is free. -/
def ClientInput.LowestFree (s : Client) : ClientInput → Prop
  | .socket (some fd) => Tunnel.LowestFree s.fds fd
  | _ => True

instance decidableClientInputLowestFree (s : Client) :
    (i : ClientInput) → Decidable (i.LowestFree s)
  | .socket (some fd) => inferInstanceAs (Decidable (Tunnel.LowestFree s.fds fd))
  | .socket none => isTrue trivial
  | .select _ => isTrue trivial
  | .recv _ => isTrue trivial
  | .readTun _ => isTrue trivial
  | .send _ => isTrue trivial
  | .getaddrinfo _ => isTrue trivial
  | .connect _ => isTrue trivial

variable {cfg : ClientConfig}

theorem lowestFree_stdio_iff {fd : ℕ} : LowestFree stdio fd ↔ fd = 3 := by
  have hthree : LowestFree stdio 3 := by decide
  constructor
  · intro h
    exact h.unique hthree
  · rintro rfl
    exact hthree

/-- The set-up opens the TUN device; the file with the MAC address is closed again. -/
theorem ClientConfig.fds_eq {macfile : ℕ} (hmac : LowestFree cfg.fds macfile) (file : ClientFile) :
    Function.update (Function.update (Function.update stdio cfg.tunFile (some .tun))
      macfile (some file)) macfile none = cfg.fds := by
  have htun : Function.update stdio cfg.tunFile (some .tun) = cfg.fds := by
    funext fd
    by_cases hfd : fd = cfg.tunFile
    · subst hfd
      rw [Function.update_self, ClientConfig.fds, if_pos rfl]
    · rw [Function.update_of_ne hfd, ClientConfig.fds, if_neg hfd, stdio]
  rw [htun, Function.update_idem]
  exact Function.update_eq_self_iff.mpr hmac.1.symm

/-- What is opened behind the set-up gets number 4. -/
theorem lowestFree_fds_iff (htun : cfg.tunFile = 3) {fd : ℕ} : LowestFree cfg.fds fd ↔ fd = 4 := by
  have hfour : LowestFree cfg.fds 4 := by
    simp only [LowestFree, ClientConfig.fds, htun]
    decide
  constructor
  · intro h
    exact h.unique hfour
  · rintro rfl
    exact hfour

/-! ### The descriptors, at each stage -/

/-- Whether there is a socket, and if so, whether it is connected. -/
def ClientPc.stage : ClientPc → Option Bool
  | .resolving _ => none
  | .opening _ => none
  | .connecting _ => some false
  | _ => some true

@[simp] theorem stage_testTun (tun : Bool) : (testTun tun).stage = some true := by
  cases tun <;> rfl

/-- What is open at a stage, besides what the set-up has left. -/
inductive Client.Sockets (cfg : ClientConfig) (s : Client) : Option Bool → Prop
  /-- Nothing; `tcp_socket` is -1, or the number of a socket that is closed. -/
  | closed (hfds : s.fds = cfg.fds) (hstale : ∀ fd ∈ s.tcpSocket, LowestFree cfg.fds fd) :
      Sockets cfg s none
  | held {fd k : ℕ} {connected : Bool} (hsocket : s.tcpSocket = some fd)
      (hfree : LowestFree cfg.fds fd)
      (hfds : s.fds = Function.update cfg.fds fd (some (.socket k connected))) :
      Sockets cfg s (some connected)

theorem Client.sockets_init : Client.Sockets cfg (Client.init cfg) (Client.init cfg).pc.stage :=
  .closed rfl fun fd hfd => by cases hfd

/-- The descriptor in `tcp_socket` is not that of the TUN device. -/
theorem Client.Sockets.ne_tunFile {s : Client} {stage : Option Bool} (h : Client.Sockets cfg s stage)
    {fd : ℕ} (hfd : s.tcpSocket = some fd) : fd ≠ cfg.tunFile := by
  have hfree : LowestFree cfg.fds fd := by
    cases h with
    | closed hfds hstale => exact hstale fd hfd
    | held hsocket hfree hfds =>
      rw [hsocket, Option.some.injEq] at hfd
      rwa [← hfd]
  rintro rfl
  have hnone := hfree.1
  rw [ClientConfig.fds, if_pos rfl] at hnone
  cases hnone

/-- What is open does not depend on the program counter. -/
theorem Client.Sockets.move {s : Client} {stage : Option Bool} (h : Client.Sockets cfg s stage)
    (pc : ClientPc) : Client.Sockets cfg { s with pc } stage := by
  cases h with
  | closed hfds hstale => exact .closed hfds hstale
  | held hsocket hfree hfds => exact .held hsocket hfree hfds

theorem Client.connectTcp_of_none {s : Client} (h : s.tcpSocket = none) (tun : Bool) :
    s.connectTcp tun = ({ s with pc := .resolving tun }, []) := by
  unfold Client.connectTcp
  rw [h]

theorem Client.connectTcp_of_some {s : Client} {fd : ℕ} (h : s.tcpSocket = some fd) (tun : Bool) :
    s.connectTcp tun = ({ s with fds := Function.update s.fds fd none, pc := .resolving tun },
      [.closed fd (s.fds fd)]) := by
  unfold Client.connectTcp
  rw [h]

/-- **The start of `connect_tcp`**, at any stage: a socket that is open is closed. -/
theorem Client.Sockets.connectTcp {s : Client} {stage : Option Bool}
    (h : Client.Sockets cfg s stage) (tun : Bool) :
    Client.Sockets cfg (s.connectTcp tun).1 (s.connectTcp tun).1.pc.stage := by
  cases h with
  | closed hfds hstale =>
    cases hsocket : s.tcpSocket with
    | none =>
      rw [Client.connectTcp_of_none hsocket]
      exact .closed hfds hstale
    | some fd =>
      rw [Client.connectTcp_of_some hsocket]
      refine .closed ?_ hstale
      -- the number is that of a socket closed before, and no other file has it
      show Function.update s.fds fd none = cfg.fds
      rw [hfds]
      exact Function.update_eq_self_iff.mpr (hstale fd hsocket).1.symm
  | @held fd k connected hsocket hfree hfds =>
    rw [Client.connectTcp_of_some hsocket]
    refine .closed ?_ fun fd' hfd' => ?_
    · show Function.update s.fds fd none = cfg.fds
      rw [hfds, Function.update_idem]
      exact Function.update_eq_self_iff.mpr hfree.1.symm
    · obtain rfl : fd = fd' := Option.some.inj (hsocket.symm.trans hfd')
      exact hfree

/-- None of the descriptors that are closed is that of the TUN device. -/
def ClosesOthers (cfg : ClientConfig) (o : List ClientObs) : Prop :=
  ∀ fd file, .closed fd file ∈ o → fd ≠ cfg.tunFile ∧ file ≠ some .tun

theorem closesOthers_append {o o' : List ClientObs} :
    ClosesOthers cfg (o ++ o') ↔ ClosesOthers cfg o ∧ ClosesOthers cfg o' := by
  constructor
  · intro h
    exact ⟨fun fd file hmem => h fd file (List.mem_append_left _ hmem),
      fun fd file hmem => h fd file (List.mem_append_right _ hmem)⟩
  · rintro ⟨h, h'⟩ fd file hmem
    exact (List.mem_append.mp hmem).elim (h fd file) (h' fd file)

theorem Client.Sockets.connectTcp_closes {s : Client} {stage : Option Bool}
    (h : Client.Sockets cfg s stage) (tun : Bool) : ClosesOthers cfg (s.connectTcp tun).2 := by
  intro fd file hmem
  cases hsocket : s.tcpSocket with
  | none =>
    rw [Client.connectTcp_of_none hsocket] at hmem
    cases hmem
  | some fd' =>
    rw [Client.connectTcp_of_some hsocket] at hmem
    obtain ⟨rfl, rfl⟩ := ClientObs.closed.inj (List.mem_singleton.mp hmem)
    refine ⟨h.ne_tunFile hsocket, ?_⟩
    cases h with
    | closed hfds hstale =>
      have hnone : cfg.fds fd = none := (hstale fd hsocket).1
      rw [hfds, hnone]
      simp
    | held hsocket' hfree hfds =>
      obtain rfl := Option.some.inj (hsocket'.symm.trans hsocket)
      rw [hfds, Function.update_self]
      simp

/-- **`connect` succeeds.** -/
theorem Client.Sockets.connected {s : Client} {c : Bool} (h : Client.Sockets cfg s (some c))
    (tun : Bool) :
    Client.Sockets cfg (s.connected tun).1 (s.connected tun).1.pc.stage ∧
      ClosesOthers cfg (s.connected tun).2 := by
  cases h with
  | @held fd k c hsocket hfree hfds =>
    have hfile : s.tcpFile = some (.socket k c) := by
      rw [Client.tcpFile, hsocket, Option.bind_some, hfds, Function.update_self]
    have hconnected : s.connected tun = ({ s with
        fds := Function.update s.fds fd (some (.socket k true)), pc := testTun tun },
        [.connected (some (.socket k true))]) := by
      unfold Client.connected
      rw [hfile, hsocket]
    rw [hconnected]
    refine ⟨?_, by simp [ClosesOthers]⟩
    rw [show (testTun tun).stage = some true from stage_testTun tun]
    refine .held (k := k) hsocket hfree ?_
    show Function.update s.fds fd _ = _
    rw [hfds, Function.update_idem]

/-- **Step lemma.** -/
theorem Client.sockets_step {s s' : Client} {i : ClientInput} {o : List ClientObs}
    (h : Client.Sockets cfg s s.pc.stage) (hi : i.LowestFree s)
    (hs : s.step cfg i = some (s', o)) :
    Client.Sockets cfg s' s'.pc.stage ∧ ClosesOthers cfg o := by
  have hmoved : ∀ {pc : ClientPc}, pc.stage = s.pc.stage → ∀ {o : List ClientObs},
      (∀ fd file, .closed fd file ∉ o) →
      Client.Sockets cfg { s with pc } pc.stage ∧ ClosesOthers cfg o := by
    intro pc hpc o ho
    rw [hpc]
    exact ⟨h.move pc, fun fd file hmem => absurd hmem (ho fd file)⟩
  have hreconnect : ∀ {tun}, some (s.connectTcp tun) = some (s', o) →
      Client.Sockets cfg s' s'.pc.stage ∧ ClosesOthers cfg o := by
    intro tun heq
    have hs' : (s.connectTcp tun).1 = s' := congrArg Prod.fst (Option.some.inj heq)
    have ho : (s.connectTcp tun).2 = o := congrArg Prod.snd (Option.some.inj heq)
    rw [← hs', ← ho]
    exact ⟨h.connectTcp tun, h.connectTcp_closes tun⟩
  cases i with
  | select r =>
    simp only [Client.step] at hs
    split at hs
    · next hpc =>
      obtain ⟨rfl, rfl⟩ := Prod.mk.inj (Option.some.inj hs)
      refine hmoved ?_ (by simp)
      rw [hpc]
      split
      · rfl
      · exact stage_testTun _
      · rfl
      · rfl
    · cases hs
  | recv r =>
    simp only [Client.step] at hs
    split at hs
    · next tun hpc =>
      have hstage : (testTun tun).stage = s.pc.stage := by rw [hpc]; exact stage_testTun tun
      split at hs
      · exact hreconnect hs
      · split_ifs at hs
        obtain ⟨rfl, rfl⟩ := Prod.mk.inj (Option.some.inj hs)
        exact hmoved hstage (by simp)
      · obtain ⟨rfl, rfl⟩ := Prod.mk.inj (Option.some.inj hs)
        exact hmoved hstage (by simp)
      · exact hreconnect hs
    · cases hs
  | readTun r =>
    simp only [Client.step] at hs
    split at hs
    · next hpc =>
      split at hs
      · next bytes =>
        by_cases hle : bytes.length ≤ 4906
        · rw [if_pos hle] at hs
          obtain ⟨rfl, rfl⟩ := Prod.mk.inj (Option.some.inj hs)
          refine hmoved ?_ (by simp)
          rw [hpc]
          split
          · rfl
          · rfl
        · rw [if_neg hle] at hs
          cases hs
      · obtain ⟨rfl, rfl⟩ := Prod.mk.inj (Option.some.inj hs)
        exact hmoved (by rw [hpc]; rfl) (by simp)
      · obtain ⟨rfl, rfl⟩ := Prod.mk.inj (Option.some.inj hs)
        exact hmoved (by rw [hpc]; rfl) (by simp)
    · cases hs
  | send ok =>
    simp only [Client.step] at hs
    split at hs
    · next bytes hpc =>
      split_ifs at hs
      · obtain ⟨rfl, rfl⟩ := Prod.mk.inj (Option.some.inj hs)
        exact hmoved (by rw [hpc]; rfl) (by simp)
      · obtain ⟨rfl, rfl⟩ := Prod.mk.inj (Option.some.inj hs)
        refine ⟨h.connectTcp false, ?_⟩
        rw [← List.singleton_append, closesOthers_append]
        exact ⟨by simp [ClosesOthers], h.connectTcp_closes false⟩
    · cases hs
  | getaddrinfo ok =>
    simp only [Client.step] at hs
    split at hs
    · next tun hpc =>
      split_ifs at hs
      · obtain ⟨rfl, rfl⟩ := Prod.mk.inj (Option.some.inj hs)
        exact hmoved (by rw [hpc]; rfl) (by simp)
      · exact hreconnect hs
    · cases hs
  | socket fd =>
    simp only [Client.step] at hs
    split at hs
    · next tun hpc =>
      rw [hpc] at h
      cases h with
      | closed hfds hstale =>
        cases fd with
        | none =>
          -- -1 is closed next, which closes nothing
          obtain ⟨rfl, rfl⟩ := Prod.mk.inj (Option.some.inj hs)
          refine ⟨.closed hfds fun fd hfd => ?_, by simp [ClosesOthers]⟩
          cases hfd
        | some fd =>
          by_cases hopen : (s.fds fd).isSome = true
          · simp [hopen] at hs
          · simp only [hopen, Bool.false_eq_true, if_false] at hs
            obtain ⟨rfl, rfl⟩ := Prod.mk.inj (Option.some.inj hs)
            refine ⟨.held (k := s.nextSocket) rfl ?_ ?_, by simp [ClosesOthers]⟩
            · rw [← hfds]
              exact hi
            · show Function.update s.fds fd _ = _
              rw [hfds]
    · cases hs
  | connect ok =>
    simp only [Client.step] at hs
    split at hs
    · next tun hpc =>
      split_ifs at hs
      · rw [hpc] at h
        have hs' : (s.connected tun).1 = s' := congrArg Prod.fst (Option.some.inj hs)
        have ho : (s.connected tun).2 = o := congrArg Prod.snd (Option.some.inj hs)
        rw [← hs', ← ho]
        exact h.connected tun
      · obtain ⟨rfl, rfl⟩ := Prod.mk.inj (Option.some.inj hs)
        exact ⟨h, by simp [ClosesOthers]⟩
    · cases hs

/-! ### Runs -/

/-- **Run lemma.** -/
theorem Client.sockets_of_run (is : List ClientInput) (s : Client) (o : List ClientObs)
    (hkernel : (client cfg).Along (fun s _ i => i.LowestFree s) is)
    (hrun : (client cfg).run is = some (s, o)) :
    Client.Sockets cfg s s.pc.stage ∧ ClosesOthers cfg o := by
  refine Machine.run_induct_along
    (P := fun _ s o => Client.Sockets cfg s s.pc.stage ∧ ClosesOthers cfg o)
    ⟨Client.sockets_init, by simp [ClosesOthers]⟩ ?_ is s o hkernel hrun
  rintro is i s o s' e - ⟨hsockets, hcloses⟩ hi hs
  obtain ⟨hsockets', hcloses'⟩ := Client.sockets_step hsockets hi hs
  exact ⟨hsockets', closesOthers_append.mpr ⟨hcloses, hcloses'⟩⟩

/-- **The invariant of the reconnection.**  The process starts with descriptors 0 to 2, and the
    kernel gives the lowest free number.  Over every run, whatever fails and in any order: whenever
    `select` is called, the TUN device and one socket are open besides those three; the socket is
    connected, and its number is in `tcp_socket`; both are what is in `rfds`, and are less than
    `nfds`, which has not wrapped.  And no descriptor that is closed is that of the TUN device. -/
theorem reconnect_invariant (htun : LowestFree stdio cfg.tunFile) (is : List ClientInput)
    (s : Client) (o : List ClientObs)
    (hkernel : (client cfg).Along (fun s _ i => i.LowestFree s) is)
    (hrun : (client cfg).run is = some (s, o)) :
    (s.pc = .selecting → ∃ fd k, s.tcpSocket = some fd ∧ s.fds fd = some (.socket k true) ∧
      s.fds cfg.tunFile = some .tun ∧ 3 ≤ fd ∧ 3 ≤ cfg.tunFile ∧ fd ≠ cfg.tunFile ∧
      (∀ n, s.fds n ≠ none ↔ n < 3 ∨ n = cfg.tunFile ∨ n = fd) ∧
      s.rfds cfg = {cfg.tunFile, fd} ∧
      (s.nfds cfg).toNat = max (fd + 1) (cfg.tunFile + 1)) ∧
    ∀ fd file, .closed fd file ∈ o → fd ≠ cfg.tunFile ∧ file ≠ some .tun := by
  obtain ⟨hsockets, hcloses⟩ := Client.sockets_of_run is s o hkernel hrun
  refine ⟨fun hpc => ?_, hcloses⟩
  have hthree := lowestFree_stdio_iff.mp htun
  rw [hpc] at hsockets
  cases hsockets with
  | @held fd k c hsocket hfree hfds =>
    -- both numbers are known: 3 and 4
    obtain rfl := (lowestFree_fds_iff hthree).mp hfree
    refine ⟨4, k, hsocket, ?_, ?_, by omega, hthree.ge, by omega, fun n => ?_, ?_, ?_⟩
    · rw [hfds, Function.update_self]
    · rw [hfds, Function.update_of_ne (by omega), ClientConfig.fds, if_pos rfl]
    · rw [hfds]
      by_cases hn : n = 4
      · subst hn
        rw [Function.update_self]
        simp
      · rw [Function.update_of_ne hn, ClientConfig.fds]
        split_ifs with h₁ h₂
        · simp [h₁]
        · simp [h₂]
        · simp [h₁, h₂, hn]
    · rw [Client.rfds, hsocket]
      rfl
    · rw [Client.nfds, hsocket, hthree]
      rfl

/-- The name resolved at the third attempt, no socket at first, no connection at first; then a
    connection that the server closes, and the name not resolved again before the next one. -/
def flakyRun : List ClientInput :=
  [.getaddrinfo false, .getaddrinfo false, .getaddrinfo true, .socket none, .getaddrinfo true,
    .socket (some 4), .connect false, .connect true, .select (.ready true true), .recv (.data []),
    .getaddrinfo false, .getaddrinfo true, .socket (some 4), .connect true, .readTun .again]

/-- `reconnect_invariant` on that run, which ends at the second call of `select`. -/
theorem reconnect_invariant_flaky :
    ∃ s o, (client ⟨3⟩).run flakyRun = some (s, o) ∧ s.pc = .selecting ∧
      s.tcpSocket = some 4 ∧ s.rfds ⟨3⟩ = {3, 4} ∧ (s.nfds ⟨3⟩).toNat = 5 ∧
      o.count (.closed 4 none) = 1 ∧
      ∀ fd file, .closed fd file ∈ o → fd ≠ 3 ∧ file ≠ some .tun := by
  obtain ⟨s, o, hrun, hpc, hsocket, hcount⟩ : ∃ s o, (client ⟨3⟩).run flakyRun = some (s, o) ∧
      s.pc = .selecting ∧ s.tcpSocket = some 4 ∧ o.count (.closed 4 none) = 1 :=
    (client ⟨3⟩).exists_run (by decide +kernel)
  obtain ⟨hselect, hcloses⟩ := @reconnect_invariant ⟨3⟩ (by decide) flakyRun s o
    (Machine.along_of_alongFrom (by decide +kernel)) hrun
  obtain ⟨fd, k, hfd, -, -, -, -, -, -, hrfds, hnfds⟩ := hselect hpc
  obtain rfl : 4 = fd := Option.some.inj (hsocket.symm.trans hfd)
  exact ⟨s, o, hrun, hpc, hsocket, hrfds, hnfds, hcount, hcloses⟩

end Gap.Tunnel
