import Gap.Tunnel.Steps

namespace Gap.Tunnel

/-!
# The descriptor of the TUN device

`main` keeps the TUN device in `tun_file` and tells a packet from TUN by this number alone.  The
close path does not: an error or an end of file on `tun_file` closes it like a connection, and the
next connection can get its number.

* `TunOpen` — the steps that do not close the TUN device of the server.
* `tunOpen_of_step`, `tun_open_iff` — the device is open exactly as long as no other step is taken.
* `TunIntact` — what `tun_file` stands for in a run, and `tunFile_identity`.
* `crossConnected` — a run in which it stands for a client.
-/

variable {cfg : Config}

/-- A step that does not close the TUN device. -/
def TunOpen (cfg : Config) (s : Server) (_ : List ServerObs) : ServerInput → Prop
  | .read r _ => r.isEnd = true → s.pc.readingFd ≠ some cfg.tunFile
  | _ => True

instance (s : Server) (o : List ServerObs) : (i : ServerInput) → Decidable (TunOpen cfg s o i)
  | .read r _ => inferInstanceAs (Decidable (r.isEnd = true → _ ≠ _))
  | .accept _ => isTrue trivial
  | .epollWait _ => isTrue trivial

/-! ### One step -/

/-- A step that goes on with the events left closes nothing. -/
theorem tunOpen_of_next {s : Server} {i : ServerInput} (hread : ∀ r env, i = .read r env → r = .again)
    (o : List ServerObs) : TunOpen cfg s o i := by
  cases i with
  | epollWait events => exact trivial
  | accept r => exact trivial
  | read r env =>
    intro hend
    rw [hread r env rfl] at hend
    cases hend

/-- The end of another descriptor. -/
theorem tunOpen_iff_of_end {s : Server} {fd : ℕ} {rest : List EpollEvent} {r : ReadResult}
    {env : ReadEnv} (hpc : s.pc = .reading fd rest) (hr : r = .error ∨ r = .eof)
    (o : List ServerObs) : TunOpen cfg s o (.read r env) ↔ fd ≠ cfg.tunFile := by
  have hend : r.isEnd = true := by rcases hr with rfl | rfl <;> rfl
  have hfd : s.pc.readingFd = some fd := by rw [hpc]; rfl
  show (r.isEnd = true → s.pc.readingFd ≠ some cfg.tunFile) ↔ _
  rw [hend, hfd, ne_eq, Option.some.injEq]
  exact ⟨fun h => h rfl, fun h _ => h⟩

/-- **Step lemma.**  The TUN device is open after a step if it was open and is not closed: none
    of the other steps opens or closes it. -/
theorem tunOpen_of_step {s s' : Server} {i : ServerInput} {e : List ServerObs} (h : Sane cfg s)
    (hs : s.step cfg i = some (s', e)) (o : List ServerObs) :
    s'.fds cfg.tunFile = some .tun ↔ s.fds cfg.tunFile = some .tun ∧ TunOpen cfg s o i := by
  have heff := effect_of_step h hs
  cases heff with
  | next hread haccept =>
    show s.fds cfg.tunFile = some .tun ↔ _
    exact (and_iff_left (tunOpen_of_next hread o)).symm
  | @accepted fd setUp pc hfree hpc =>
    have haccept : TunOpen cfg s o (.accept (.connected fd setUp)) := trivial
    refine Iff.trans ⟨fun hx => ?_, fun hx => ?_⟩ (and_iff_left haccept).symm
    · exact of_update_some hx (by simp)
    · exact update_some_of_open hfree hx
  | @fromTcp fd c rest bytes env hpc hconn htun hpos hle =>
    have hdata : TunOpen cfg s o (.read (.data bytes) env) := fun hend => by cases hend
    rw [(fromTcp_fds cfg s fd bytes env.stale).1]
    exact (and_iff_left hdata).symm
  | @fromTun rest bytes env s'' e'' hpc hpos hle hrun =>
    have hdata : TunOpen cfg s o (.read (.data bytes) env) := fun hend => by cases hend
    have hfwd := forwarded_of_fromTun hle hrun
    refine Iff.trans ⟨fun hx => ?_, fun hx => hfwd.of_open hx⟩ (and_iff_left hdata).symm
    rcases hfwd.fds with hsame | ⟨f, hfree, hopen⟩
    · rwa [← hsame]
    · rw [hopen] at hx
      exact of_update_some hx (by simp)
  | @closed fd rest r env hpc hreg hsfd hr =>
    rw [(close_fds cfg s fd rest).1, tunOpen_iff_of_end hpc hr o]
    by_cases hfd : cfg.tunFile = fd
    · subst hfd
      simp
    · rw [Function.update_of_ne hfd]
      exact (and_iff_left (Ne.symm hfd)).symm

/-- **Run lemma.**  The TUN device is open exactly after the runs that do not close it. -/
theorem tun_open_iff (is : List ServerInput) (s : Server) (o : List ServerObs)
    (hrun : (server cfg).run is = some (s, o)) :
    s.fds cfg.tunFile = some .tun ↔ (server cfg).Along (TunOpen cfg) is :=
  Machine.iff_along (I := fun s _ => s.fds cfg.tunFile = some .tun) (J := fun s _ => Sane cfg s)
    (if_pos rfl) sane_init (fun _ _ _ _ _ h hs => sane_step h hs)
    (fun _ o _ _ _ h hs => tunOpen_of_step h hs o) is s o hrun

/-! ### What the number stands for -/

/-- `tun_file` is the TUN device: no connection has its number, what is read there is from TUN,
    and what is written there goes to TUN. -/
structure TunIntact (cfg : Config) (s : Server) (o : List ServerObs) : Prop where
  tun : s.fds cfg.tunFile = some .tun
  accepted : ∀ c, .accepted cfg.tunFile c ∉ o
  received : ∀ file bytes, .received cfg.tunFile file bytes ∈ o → file = some .tun
  wrote : ∀ src file bytes, .wrote src cfg.tunFile file bytes ∈ o → file = some .tun

/-- A connection is accepted on a descriptor that is free. -/
theorem free_of_accepted {s s' : Server} {i : ServerInput} {e : List ServerObs} (h : Sane cfg s)
    (hs : s.step cfg i = some (s', e)) {fd c : ℕ} (hob : .accepted fd c ∈ e) : s.fds fd = none := by
  have heff := effect_of_step h hs
  cases heff with
  | next hread haccept =>
    obtain ⟨ev, -, hev⟩ := List.mem_map.mp hob
    cases hev
  | accepted hfree hpc =>
    obtain ⟨rfl, rfl⟩ := ServerObs.accepted.inj (List.mem_singleton.mp hob)
    exact hfree
  | @fromTcp fd' c' rest bytes env hpc hconn htun hpos hle =>
    rw [fromTcp_eq s fd' hle] at hob
    cases hlearns : learns s.prefixes fd' (env.stale.copy 0 bytes) <;> simp [hlearns] at hob
  | @fromTun rest bytes env s'' e'' hpc hpos hle hrun =>
    obtain ⟨j, ho, -⟩ := (forwarded_of_fromTun hle hrun).obs
    rw [ho] at hob
    cases j <;> simp [Server.forward] at hob
  | @closed fd' rest r env hpc hreg hsfd hr =>
    rw [close_obs] at hob
    split_ifs at hob <;> simp [skipped] at hob

/-- **Step lemma.**  As long as the device is open, its number stands for it. -/
theorem tunIntact_step {s s' : Server} {i : ServerInput} {o e : List ServerObs}
    (h : Sane cfg s) (ht : TunIntact cfg s o) (hC : TunOpen cfg s o i)
    (hs : s.step cfg i = some (s', e)) : TunIntact cfg s' (o ++ e) := by
  have htun : s'.fds cfg.tunFile = some .tun := (tunOpen_of_step h hs o).mpr ⟨ht.tun, hC⟩
  refine ⟨htun, fun c hob => ?_, fun file bytes hob => ?_, fun src file bytes hob => ?_⟩
  · rcases List.mem_append.mp hob with hold | hnew
    · exact ht.accepted c hold
    · have hfree := free_of_accepted h hs hnew
      rw [ht.tun] at hfree
      cases hfree
  · rcases List.mem_append.mp hob with hold | hnew
    · exact ht.received file bytes hold
    · rw [(tellsOf_step h hs hnew).1]
      exact ht.tun
  · rcases List.mem_append.mp hob with hold | hnew
    · exact ht.wrote src file bytes hold
    · rw [show file = s'.fds cfg.tunFile from tellsOf_step h hs hnew]
      exact htun

/-- **The identity of `tun_file`.**  In every run of the server, `tun_file` is the TUN device and
    nothing else exactly if no read on it returns an error other than EAGAIN, or zero bytes. -/
theorem tunFile_identity (is : List ServerInput) (s : Server) (o : List ServerObs)
    (hrun : (server cfg).run is = some (s, o)) :
    TunIntact cfg s o ↔ (server cfg).Along (TunOpen cfg) is := by
  refine ⟨fun h => (tun_open_iff is s o hrun).mp h.tun, fun halong => ?_⟩
  have hboth := Machine.run_induct_along (C := TunOpen cfg)
    (P := fun _ s o => Sane cfg s ∧ TunIntact cfg s o)
    ⟨sane_init, if_pos rfl, by simp, by simp, by simp⟩
    (fun _ _ _ _ _ _ _ h hC hs => ⟨sane_step h.1 hs, tunIntact_step h.1 h.2 hC hs⟩)
    is s o halong hrun
  exact hboth.2

/-! ### A run that closes the device -/

/-- A read on a descriptor fails. -/
def fails (fd : ℕ) : List ServerInput :=
  [.epollWait [readable fd], .read .error ⟨fun _ => 0, none⟩]

/-- A client connects on 7 and is known as `fe80::1`; the TUN device fails; another client
    connects and sends a packet to the first one, which answers. -/
def crossConnected : List ServerInput :=
  connects 7 ++ delivers 7 [helloOf 1] ++ fails 3 ++ connects 3 ++
    delivers 3 [packetOf (linkLocal 2) (linkLocal 1)] ++
    delivers 7 [packetOf (linkLocal 1) (linkLocal 2)]

/-- `tunFile_identity` before the failure. -/
theorem tunFile_identity_hello :
    ∃ s o, (server Config.sample).run (connects 7 ++ delivers 7 [helloOf 1]) = some (s, o) ∧
      TunIntact Config.sample s o := by
  obtain ⟨s, o, hrun, -⟩ :
      ∃ s o, (server Config.sample).run (connects 7 ++ delivers 7 [helloOf 1]) = some (s, o) ∧
        s.fds 3 = some .tun :=
    (server Config.sample).exists_run (by decide +kernel)
  exact ⟨s, o, hrun, (tunFile_identity _ s o hrun).mpr
    (Machine.along_of_alongFrom (by decide +kernel))⟩

/-- The device is closed, its number is given to the second client, whose packet is taken for one
    from TUN and sent to the first client, and the first client's packet is written to the second. -/
theorem tunFile_crossConnected :
    ∃ s o, (server Config.sample).run crossConnected = some (s, o) ∧
      s.fds 3 ≠ some .tun ∧ .accepted 3 1 ∈ o ∧
      .received 3 (some (.conn 1)) (packetOf (linkLocal 2) (linkLocal 1)) ∈ o ∧
      .wrote (some (.conn 1)) 7 (some (.conn 0)) (packetOf (linkLocal 2) (linkLocal 1)) ∈ o ∧
      .wrote (some (.conn 0)) 3 (some (.conn 1)) (packetOf (linkLocal 1) (linkLocal 2)) ∈ o ∧
      ¬ TunIntact Config.sample s o := by
  obtain ⟨s, o, hrun, hclosed, hrest⟩ :
      ∃ s o, (server Config.sample).run crossConnected = some (s, o) ∧
        s.fds 3 ≠ some .tun ∧ .accepted 3 1 ∈ o ∧
        .received 3 (some (.conn 1)) (packetOf (linkLocal 2) (linkLocal 1)) ∈ o ∧
        .wrote (some (.conn 1)) 7 (some (.conn 0)) (packetOf (linkLocal 2) (linkLocal 1)) ∈ o ∧
        .wrote (some (.conn 0)) 3 (some (.conn 1)) (packetOf (linkLocal 1) (linkLocal 2)) ∈ o :=
    (server Config.sample).exists_run (by decide +kernel)
  obtain ⟨hacc, hrecv, hto, hfrom⟩ := hrest
  exact ⟨s, o, hrun, hclosed, hacc, hrecv, hto, hfrom, fun h => hclosed h.tun⟩

end Gap.Tunnel
