import Gap.Tunnel.TunDevice
import Mathlib.Data.List.Perm.Subperm

namespace Gap.Tunnel

/-!
# The descriptors the server holds

`parse_prefixes` opens the assignments file with `fopen` and hands the pointer to `close`, which
closes nothing: every reload leaves one descriptor open.

* `live` — the connections accepted and not closed.
* `Conserved` — the process holds its first descriptors and one for each of these.
* `Reloads` — the packets that make the server load the assignments file.
* `FdStep`, `fdStep_of_step` — the four things a step can do to the descriptors.
* `descriptors_conserved` — descriptors are conserved exactly in the runs without a reload.
-/

variable {cfg : Config}

/-! ### Conservation -/

/-- The connections accepted and not closed, each with its descriptor. -/
def live (o : List ServerObs) : List (ℕ × ℕ) :=
  (o.filterMap fun | .accepted fd c => some (fd, c) | _ => none).filter fun p =>
    !decide (.ended p.1 (some (.conn p.2)) ∈ o)

theorem mem_live {o : List ServerObs} {fd c : ℕ} :
    (fd, c) ∈ live o ↔ .accepted fd c ∈ o ∧ .ended fd (some (.conn c)) ∉ o := by
  have haccepted : (fd, c) ∈ (o.filterMap fun | .accepted fd c => some (fd, c) | _ => none) ↔
      .accepted fd c ∈ o := by
    rw [List.mem_filterMap]
    constructor
    · rintro ⟨ob, hob, heq⟩
      cases ob with
      | accepted fd' c' =>
        obtain ⟨rfl, rfl⟩ := Prod.mk.inj (Option.some.inj heq)
        exact hob
      | _ => cases heq
    · intro hob
      exact ⟨_, hob, rfl⟩
  rw [live, List.mem_filter, haccepted, Bool.not_eq_true', decide_eq_false_iff_not]

/-- The descriptors held are those of the start and one for each live connection. -/
def Conserved (cfg : Config) (s : Server) (o : List ServerObs) : Prop :=
  ∀ fd file, s.fds fd = some file ↔
    cfg.fds fd = some file ∨ ∃ c, file = .conn c ∧ (fd, c) ∈ live o

/-- What is open at the start. -/
theorem Config.fds_cases {fd : ℕ} {file : File} (h : cfg.fds fd = some file) :
    fd ∈ [cfg.tunFile, cfg.sfd, cfg.efd, 0, 1, 2] ∧ file ≠ .assignments ∧ ∀ c, file ≠ .conn c := by
  unfold Config.fds at h
  split_ifs at h with htun hsfd hefd hstd
  all_goals
    obtain rfl := Option.some.inj h
    refine ⟨?_, by simp, by simp⟩
    simp only [List.mem_cons, List.not_mem_nil, or_false]
    omega

/-- **No exhaustion.**  While descriptors are conserved, a process whose first `N` descriptors are
    all taken has `N - 6` live connections. -/
theorem Conserved.le {s : Server} {o : List ServerObs} (h : Conserved cfg s o) {N : ℕ}
    (hfull : ∀ fd < N, (s.fds fd).isSome = true) : N ≤ 6 + (live o).length := by
  -- each of them is one of the six, or the descriptor of a live connection
  have hsub : List.range N ⊆ [cfg.tunFile, cfg.sfd, cfg.efd, 0, 1, 2] ++ (live o).map Prod.fst := by
    intro fd hfd
    obtain ⟨file, hfile⟩ := Option.isSome_iff_exists.mp (hfull fd (List.mem_range.mp hfd))
    rcases (h fd file).mp hfile with hstart | ⟨c, -, hlive⟩
    · exact List.mem_append_left _ (Config.fds_cases hstart).1
    · exact List.mem_append_right _ (List.mem_map.mpr ⟨(fd, c), hlive, rfl⟩)
  have hlen := (List.subperm_of_subset List.nodup_range hsub).length_le
  rw [List.length_range, List.length_append, List.length_map] at hlen
  exact hlen

/-! ### Reloads -/

/-- A packet from TUN into the /52 that matches no delegated block, with an assignments file that
    can be opened. -/
def Reloads (cfg : Config) (s : Server) (_ : List ServerObs) : ServerInput → Prop
  | .read (.data bytes) env =>
    s.pc.readingFd = some cfg.tunFile ∧ version (env.stale.copy 0 bytes) = 6 ∧
      cfg.inSlash52 (daddr (env.stale.copy 0 bytes)) = true ∧
      findPd s.prefixes (daddr (env.stale.copy 0 bytes)) = none ∧ env.assignments.isSome = true
  | _ => False

instance (s : Server) (o : List ServerObs) : (i : ServerInput) → Decidable (Reloads cfg s o i)
  | .read (.data _) _ => inferInstanceAs (Decidable (_ ∧ _ ∧ _ ∧ _ ∧ _))
  | .read .again _ => isFalse id
  | .read .error _ => isFalse id
  | .read .eof _ => isFalse id
  | .accept _ => isFalse id
  | .epollWait _ => isFalse id

/-- A packet from TUN opens one descriptor if it reloads, and none otherwise. -/
theorem fds_of_fromTun {s s' : Server} {bytes : List UInt8} {env : ReadEnv} {e : List ServerObs}
    {rest : List EpollEvent} (hpc : s.pc = .reading cfg.tunFile rest)
    (hs : s.fromTun cfg bytes env = some (s', e)) (o : List ServerObs) :
    (s'.fds = s.fds ∧ ¬ Reloads cfg s o (.read (.data bytes) env)) ∨
      Reloads cfg s o (.read (.data bytes) env) ∧ ∃ fd, s.fds fd = none ∧
        s'.fds = Function.update s.fds fd (some .assignments) := by
  have hfd : s.pc.readingFd = some cfg.tunFile := by rw [hpc]; rfl
  simp only [Server.fromTun] at hs
  simp only [Reloads, hfd, true_and]
  generalize env.stale.copy 0 bytes = buf at hs ⊢
  by_cases hv : version buf = 6
  · by_cases h52 : cfg.inSlash52 (daddr buf) = true
    · simp only [hv, ne_eq, not_true_eq_false, if_false, h52, if_true] at hs
      split at hs
      · next j hj =>
        obtain ⟨rfl, -⟩ := Prod.mk.inj (Option.some.inj hs)
        exact .inl ⟨rfl, fun h => by rw [hj] at h; cases h.2.2.1⟩
      · next hmiss =>
        split at hs
        · next hnone =>
          obtain ⟨rfl, -⟩ := Prod.mk.inj (Option.some.inj hs)
          exact .inl ⟨rfl, fun h => by rw [hnone] at h; cases h.2.2.2⟩
        · next a ha =>
          -- `fopen` succeeds, on a descriptor that is free
          by_cases hopen : (s.fds a.fd).isSome = true
          · rw [if_pos hopen] at hs
            cases hs
          · rw [if_neg hopen] at hs
            have hload : s'.fds = Function.update s.fds a.fd (some .assignments) := by
              split at hs
              all_goals
                obtain ⟨rfl, -⟩ := Prod.mk.inj (Option.some.inj hs)
                exact (reload_cases cfg s a).2.1
            exact .inr ⟨⟨hv, h52, hmiss, by rw [ha]; rfl⟩, a.fd, by simpa using hopen, hload⟩
    · simp only [hv, ne_eq, not_true_eq_false, if_false, h52, Bool.false_eq_true] at hs
      split at hs
      all_goals
        obtain ⟨rfl, -⟩ := Prod.mk.inj (Option.some.inj hs)
        exact .inl ⟨rfl, fun h => h52 h.2.1⟩
  · simp only [hv, ne_eq, not_false_eq_true, if_true] at hs
    obtain ⟨rfl, -⟩ := Prod.mk.inj (Option.some.inj hs)
    exact .inl ⟨rfl, fun h => hv h.1⟩

/-! ### What a step does to the descriptors -/

/-- Outputs about no descriptor being opened or closed. -/
def Unmoved (e : List ServerObs) : Prop :=
  ∀ fd, (∀ c, .accepted fd c ∉ e) ∧ ∀ file, .ended fd file ∉ e

/-- What a step can do to the descriptors. -/
inductive FdStep (cfg : Config) (s : Server) (o : List ServerObs) (i : ServerInput) (s' : Server)
    (e : List ServerObs) : Prop
  | same (hfds : s'.fds = s.fds) (hnext : s'.nextConn = s.nextConn) (hload : ¬ Reloads cfg s o i)
      (he : Unmoved e)
  | accepted (fd : ℕ) (hfree : s.fds fd = none)
      (hfds : s'.fds = Function.update s.fds fd (some (.conn s.nextConn)))
      (hnext : s'.nextConn = s.nextConn + 1) (hload : ¬ Reloads cfg s o i)
      (he : e = [.accepted fd s.nextConn])
  | loaded (fd : ℕ) (hfree : s.fds fd = none)
      (hfds : s'.fds = Function.update s.fds fd (some .assignments))
      (hnext : s'.nextConn = s.nextConn) (hload : Reloads cfg s o i) (he : Unmoved e)
  | closed (fd : ℕ) (hreg : registered (s.fds fd) = true) (hsfd : fd ≠ cfg.sfd)
      (hfds : s'.fds = Function.update s.fds fd none) (hnext : s'.nextConn = s.nextConn)
      (hload : ¬ Reloads cfg s o i) (hacc : ∀ fd' c, .accepted fd' c ∉ e)
      (hended : ∀ fd' file, .ended fd' file ∈ e ↔ fd' = fd ∧ file = s.fds fd)

theorem unmoved_skipped (fds : FdTable) (rest : List EpollEvent) : Unmoved (skipped fds rest) := by
  intro fd
  constructor
  all_goals
    intro _ hob
    obtain ⟨ev, -, hev⟩ := List.mem_map.mp hob
    cases hev

/-- **Every step does one of the four.** -/
theorem fdStep_of_step {s s' : Server} {i : ServerInput} {e : List ServerObs} (h : Sane cfg s)
    (hs : s.step cfg i = some (s', e)) (o : List ServerObs) : FdStep cfg s o i s' e := by
  have heff := effect_of_step h hs
  cases heff with
  | next hread haccept =>
    refine .same rfl rfl (fun hload => ?_) (unmoved_skipped _ _)
    cases i with
    | epollWait events => exact hload
    | accept r => exact hload
    | read r env =>
      rw [hread r env rfl] at hload
      exact hload
  | accepted hfree hpc => exact .accepted _ hfree rfl rfl id rfl
  | @fromTcp fd c rest bytes env hpc hconn htun hpos hle =>
    obtain ⟨hfds, hnext, -⟩ := fromTcp_fds cfg s fd bytes env.stale
    refine .same hfds hnext (fun hload => ?_) ?_
    · have hreading := hload.1
      rw [hpc] at hreading
      exact htun (Option.some.inj hreading)
    · rw [fromTcp_eq s fd hle]
      intro f
      cases learns s.prefixes fd (env.stale.copy 0 bytes) <;> simp
  | @fromTun rest bytes env s'' e'' hpc hpos hle hrun =>
    have hfwd := forwarded_of_fromTun hle hrun
    have hquiet : Unmoved e := by
      obtain ⟨j, he, -⟩ := hfwd.obs
      rw [he]
      intro f
      cases j <;> simp [Server.forward]
    rcases fds_of_fromTun hpc hrun o with ⟨hsame, hload⟩ | ⟨hload, fd, hfree, hfds⟩
    · exact .same hsame hfwd.nextConn hload hquiet
    · exact .loaded fd hfree hfds hfwd.nextConn hload hquiet
  | @closed fd rest r env hpc hreg hsfd hr =>
    obtain ⟨hfds, hnext⟩ := close_fds cfg s fd rest
    refine .closed fd hreg hsfd hfds hnext ?_ ?_ ?_
    · rcases hr with rfl | rfl <;> exact id
    · intro f c hob
      rw [close_obs] at hob
      split_ifs at hob <;> simp [skipped] at hob
    · intro f file
      rw [close_obs]
      split_ifs <;> simp [skipped]

/-! ### The invariant -/

/-- Apart from the TUN device and assignments files, the descriptors held are conserved. -/
structure Held (cfg : Config) (s : Server) (o : List ServerObs) : Prop where
  sane : Sane cfg s
  held : ∀ fd file, file ≠ .tun → file ≠ .assignments → (s.fds fd = some file ↔
    cfg.fds fd = some file ∨ ∃ c, file = .conn c ∧ (fd, c) ∈ live o)
  accepted_lt : ∀ fd c, .accepted fd c ∈ o → c < s.nextConn
  ended_lt : ∀ fd c, .ended fd (some (.conn c)) ∈ o → c < s.nextConn

theorem held_init : Held cfg (Server.init cfg) [] where
  sane := sane_init
  held fd file _ _ := by
    show cfg.fds fd = some file ↔ _
    simp [live]
  accepted_lt := by simp
  ended_lt := by simp

/-- A step that opens and closes no connection leaves the live ones as they are. -/
theorem live_append_of_unmoved {o e : List ServerObs} (he : Unmoved e) {fd c : ℕ} :
    (fd, c) ∈ live (o ++ e) ↔ (fd, c) ∈ live o := by
  rw [mem_live, mem_live, List.mem_append, List.mem_append, or_iff_left ((he fd).1 c),
    or_iff_left ((he fd).2 _)]

/-- No step but a reload opens an assignments file, and none closes it. -/
theorem assignments_of_step {s s' : Server} {i : ServerInput} {e : List ServerObs}
    (h : Sane cfg s) (hs : s.step cfg i = some (s', e)) (o : List ServerObs) :
    (∀ fd, s'.fds fd ≠ some .assignments) ↔
      (∀ fd, s.fds fd ≠ some .assignments) ∧ ¬ Reloads cfg s o i := by
  have hfd := fdStep_of_step h hs o
  cases hfd with
  | same hfds hnext hload he =>
    rw [hfds]
    exact (and_iff_left hload).symm
  | accepted fd hfree hfds hnext hload he =>
    rw [hfds]
    refine Iff.trans (forall_congr' fun f => not_congr ⟨?_, ?_⟩) (and_iff_left hload).symm
    · exact fun hx => of_update_some hx (by simp)
    · exact fun hx => update_some_of_open hfree hx
  | loaded fd hfree hfds hnext hload he =>
    refine iff_of_false (fun hno => hno fd ?_) fun hno => hno.2 hload
    rw [hfds, Function.update_self]
  | closed fd hreg hsfd hfds hnext hload hacc hended =>
    rw [hfds]
    refine Iff.trans (forall_congr' fun f => not_congr ⟨?_, ?_⟩) (and_iff_left hload).symm
    · exact fun hx => (of_update_none hx).2
    · intro hx
      -- what is closed is registered with epoll, and an assignments file is not
      rw [Function.update_of_ne (fun he => by rw [← he, hx] at hreg; cases hreg), hx]

/-- What the connection accepted last adds. -/
theorem mem_live_accepted {o : List ServerObs} {fd n f c : ℕ}
    (hnew : ∀ f, .ended f (some (.conn n)) ∉ o) :
    (f, c) ∈ live (o ++ [.accepted fd n]) ↔ (f, c) ∈ live o ∨ f = fd ∧ c = n := by
  simp only [mem_live, List.mem_append, List.mem_singleton, ServerObs.accepted.injEq,
    reduceCtorEq, or_false]
  constructor
  · rintro ⟨hold | hlast, hended⟩
    · exact .inl ⟨hold, hended⟩
    · exact .inr hlast
  · rintro (⟨hold, hended⟩ | ⟨rfl, rfl⟩)
    · exact ⟨.inl hold, hended⟩
    · exact ⟨.inr ⟨rfl, rfl⟩, hnew f⟩

/-- What closing a descriptor takes away. -/
theorem mem_live_closed {o e : List ServerObs} {fd : ℕ} {x : Option File}
    (hacc : ∀ fd' c, .accepted fd' c ∉ e)
    (hended : ∀ fd' file, .ended fd' file ∈ e ↔ fd' = fd ∧ file = x) {f c : ℕ} :
    (f, c) ∈ live (o ++ e) ↔ (f, c) ∈ live o ∧ ¬ (f = fd ∧ some (.conn c) = x) := by
  rw [mem_live, mem_live, List.mem_append, List.mem_append, or_iff_left (hacc f c), not_or,
    hended, and_assoc]

/-- What is held stays in line with what is live while no connection comes or goes. -/
theorem Held.unmoved {s s' : Server} {o e : List ServerObs} (h : Held cfg s o)
    (hsane : Sane cfg s') (he : Unmoved e) (hnext : s'.nextConn = s.nextConn)
    (hfds : ∀ fd file, file ≠ .tun → file ≠ .assignments →
      (s'.fds fd = some file ↔ s.fds fd = some file)) : Held cfg s' (o ++ e) where
  sane := hsane
  held fd file htun hass := by
    rw [hfds fd file htun hass, h.held fd file htun hass]
    simp only [live_append_of_unmoved he]
  accepted_lt fd c hob := by
    rw [hnext]
    exact h.accepted_lt fd c ((List.mem_append.mp hob).resolve_right ((he fd).1 c))
  ended_lt fd c hob := by
    rw [hnext]
    exact h.ended_lt fd c ((List.mem_append.mp hob).resolve_right ((he fd).2 _))

/-- A connection is accepted on a free descriptor. -/
theorem Held.accepted {s s' : Server} {o : List ServerObs} (h : Held cfg s o)
    (hsane : Sane cfg s') {fd : ℕ} (hfree : s.fds fd = none)
    (hfds : s'.fds = Function.update s.fds fd (some (.conn s.nextConn)))
    (hnext : s'.nextConn = s.nextConn + 1) :
    Held cfg s' (o ++ [.accepted fd s.nextConn]) := by
  have hnew : ∀ f, .ended f (some (.conn s.nextConn)) ∉ o :=
    fun f hob => absurd (h.ended_lt f _ hob) (Nat.lt_irrefl _)
  refine ⟨hsane, fun f file htun hass => ?_, fun f c hob => ?_, fun f c hob => ?_⟩
  · simp only [mem_live_accepted hnew]
    by_cases hf : f = fd
    · subst hf
      -- a descriptor that is free is no one's
      have hno := (h.held f file htun hass).not.mp (by simp [hfree])
      rw [hfds, Function.update_self, Option.some.injEq]
      constructor
      · rintro rfl
        exact .inr ⟨s.nextConn, rfl, .inr ⟨rfl, rfl⟩⟩
      · rintro (hstart | ⟨c, rfl, hlive | ⟨-, rfl⟩⟩)
        · exact absurd (.inl hstart) hno
        · exact absurd (.inr ⟨c, rfl, hlive⟩) hno
        · rfl
    · rw [hfds, Function.update_of_ne hf, h.held f file htun hass]
      simp only [hf, false_and, or_false]
  · rw [hnext]
    rcases List.mem_append.mp hob with hold | hlast
    · exact (h.accepted_lt f c hold).trans (Nat.lt_succ_self _)
    · obtain ⟨-, rfl⟩ := ServerObs.accepted.inj (List.mem_singleton.mp hlast)
      exact Nat.lt_succ_self _
  · rw [hnext]
    rcases List.mem_append.mp hob with hold | hlast
    · exact (h.ended_lt f c hold).trans (Nat.lt_succ_self _)
    · cases List.mem_singleton.mp hlast

/-- Of the files of the start, only TUN and the listening socket are registered with epoll. -/
theorem Held.not_start_of_registered {s : Server} {o : List ServerObs} (h : Held cfg s o)
    {fd : ℕ} {file : File} (hreg : registered (s.fds fd) = true) (hsfd : fd ≠ cfg.sfd)
    (htun : file ≠ .tun) (hass : file ≠ .assignments) : cfg.fds fd ≠ some file := by
  intro hstart
  have hfile := (h.held fd file htun hass).mpr (.inl hstart)
  rw [hfile] at hreg
  obtain ⟨-, -, hconn⟩ := Config.fds_cases hstart
  cases file with
  | tun => exact htun rfl
  | listener => exact hsfd (h.sane.fds.listener fd hfile)
  | conn c => exact hconn c rfl
  | stdio => cases hreg
  | epoll => cases hreg
  | assignments => cases hreg

/-- A descriptor registered with epoll is closed. -/
theorem Held.closed {s s' : Server} {o e : List ServerObs} (h : Held cfg s o)
    (hsane : Sane cfg s') {fd : ℕ} (hreg : registered (s.fds fd) = true) (hsfd : fd ≠ cfg.sfd)
    (hfds : s'.fds = Function.update s.fds fd none) (hnext : s'.nextConn = s.nextConn)
    (hacc : ∀ fd' c, .accepted fd' c ∉ e)
    (hended : ∀ fd' file, .ended fd' file ∈ e ↔ fd' = fd ∧ file = s.fds fd) :
    Held cfg s' (o ++ e) := by
  refine ⟨hsane, fun f file htun hass => ?_, fun f c hob => ?_, fun f c hob => ?_⟩
  · simp only [mem_live_closed hacc hended]
    by_cases hf : f = fd
    · subst hf
      rw [hfds, Function.update_self]
      refine iff_of_false (by simp) ?_
      rintro (hstart | ⟨c, rfl, hlive, hother⟩)
      · exact h.not_start_of_registered hreg hsfd htun hass hstart
      · exact hother ⟨rfl, ((h.held f _ htun hass).mpr (.inr ⟨c, rfl, hlive⟩)).symm⟩
    · rw [hfds, Function.update_of_ne hf, h.held f file htun hass]
      simp only [hf, false_and, not_false_eq_true, and_true]
  · rw [hnext]
    exact h.accepted_lt f c ((List.mem_append.mp hob).resolve_right (hacc f c))
  · rw [hnext]
    rcases List.mem_append.mp hob with hold | hlast
    · exact h.ended_lt f c hold
    · obtain ⟨-, hconn⟩ := (hended f _).mp hlast
      exact h.sane.fds.conn_lt fd c hconn.symm

/-- **Step lemma.**  Every step keeps what is held in line with what is live. -/
theorem held_step {s s' : Server} {i : ServerInput} {o e : List ServerObs} (h : Held cfg s o)
    (hs : s.step cfg i = some (s', e)) : Held cfg s' (o ++ e) := by
  have hsane := sane_step h.sane hs
  have hfd := fdStep_of_step h.sane hs o
  cases hfd with
  | same hfds hnext hload he => exact h.unmoved hsane he hnext fun f file _ _ => by rw [hfds]
  | accepted fd hfree hfds hnext hload he =>
    rw [he]
    exact h.accepted hsane hfree hfds hnext
  | loaded fd hfree hfds hnext hload he =>
    refine h.unmoved hsane he hnext fun f file _ hass => ?_
    rw [hfds]
    exact ⟨fun hx => of_update_some hx (Ne.symm hass), fun hx => update_some_of_open hfree hx⟩
  | closed fd hreg hsfd hfds hnext hload hacc hended =>
    exact h.closed hsane hreg hsfd hfds hnext hacc hended

/-- **Run lemma.** -/
theorem held_of_run (is : List ServerInput) (s : Server) (o : List ServerObs)
    (hrun : (server cfg).run is = some (s, o)) : Held cfg s o :=
  Machine.run_induct (P := fun _ s o => Held cfg s o) held_init
    (fun _ _ _ _ _ _ _ h hs => held_step h hs) is s o hrun

/-! ### Conservation -/

/-- What is left for conservation: the TUN device and no assignments file. -/
theorem Held.conserved_iff {s : Server} {o : List ServerObs} (h : Held cfg s o) :
    Conserved cfg s o ↔
      s.fds cfg.tunFile = some .tun ∧ ∀ fd, s.fds fd ≠ some .assignments := by
  constructor
  · intro hall
    refine ⟨(hall cfg.tunFile .tun).mpr (.inl (if_pos rfl)), fun fd hfd => ?_⟩
    rcases (hall fd .assignments).mp hfd with hstart | ⟨c, hc, -⟩
    · exact (Config.fds_cases hstart).2.1 rfl
    · cases hc
  · rintro ⟨htun, hass⟩ fd file
    by_cases hfile : file = .tun
    · subst hfile
      -- the device has one descriptor, at the start and now
      constructor
      · intro hfd
        rw [h.sane.fds.tun fd hfd]
        exact .inl (if_pos rfl)
      · rintro (hstart | ⟨c, hc, -⟩)
        · rw [fdsOk_init.tun fd hstart]
          exact htun
        · cases hc
    · by_cases hload : file = .assignments
      · subst hload
        refine iff_of_false (hass fd) ?_
        rintro (hstart | ⟨c, hc, -⟩)
        · exact (Config.fds_cases hstart).2.1 rfl
        · cases hc
      · exact h.held fd file hfile hload

/-- **Conservation of descriptors.**  In every run of the server, the descriptors held are those
    of the start and one for each live connection exactly if no packet has made it load the
    assignments file, and TUN was not closed; and then they run out only when connections take
    them. -/
theorem descriptors_conserved (is : List ServerInput) (s : Server) (o : List ServerObs)
    (hrun : (server cfg).run is = some (s, o)) :
    (Conserved cfg s o ↔
      (server cfg).Along (fun s o i => TunOpen cfg s o i ∧ ¬ Reloads cfg s o i) is) ∧
    (Conserved cfg s o → ∀ N, (∀ fd < N, (s.fds fd).isSome = true) →
      N ≤ 6 + (live o).length) := by
  refine ⟨?_, fun h N hfull => h.le hfull⟩
  rw [(held_of_run is s o hrun).conserved_iff]
  refine Machine.iff_along (M := server cfg)
    (I := fun s _ => s.fds cfg.tunFile = some .tun ∧ ∀ fd, s.fds fd ≠ some .assignments)
    (J := fun s _ => Sane cfg s) ⟨if_pos rfl, fun fd hfd => (Config.fds_cases hfd).2.1 rfl⟩
    sane_init (fun _ _ _ _ _ h hs => sane_step h hs) (fun s o i s' e h hs => ?_) is s o hrun
  rw [tunOpen_of_step h hs o, assignments_of_step h hs o]
  exact and_and_and_comm

/-! ### One miss -/

/-- A packet from TUN to a client of the /52 that no block is delegated for; the assignments are
    empty, and the file is opened on 6. -/
def misses : List ServerInput :=
  [.epollWait [readable 3],
    .read (.data (packetOf (linkLocal 2) (addrOf [0x20, 0x01, 0x0d, 0xb8, 0, 0, 1])))
      ⟨fun _ => 0, some ⟨6, [], fun _ => ⟨fun _ => 0, fun _ => 0⟩⟩⟩,
    .read .again ⟨fun _ => 0, none⟩]

/-- `descriptors_conserved` when a client comes and goes. -/
theorem descriptors_conserved_ends :
    ∃ s o, (server Config.sample).run (connects 7 ++ delivers 7 [helloOf 1] ++ ends 7)
      = some (s, o) ∧ Conserved Config.sample s o := by
  obtain ⟨s, o, hrun, -⟩ :
      ∃ s o, (server Config.sample).run (connects 7 ++ delivers 7 [helloOf 1] ++ ends 7)
        = some (s, o) ∧ s.fds 7 = none :=
    (server Config.sample).exists_run (by decide +kernel)
  exact ⟨s, o, hrun, (descriptors_conserved _ s o hrun).1.mpr
    (Machine.along_of_alongFrom (by decide +kernel))⟩

/-- After one miss, a seventh descriptor is open without any connection. -/
theorem descriptor_kept_by_miss :
    ∃ s o, (server Config.sample).run misses = some (s, o) ∧ s.fds 6 = some .assignments ∧
      live o = [] ∧ ¬ Conserved Config.sample s o := by
  obtain ⟨s, o, hrun, hopen, hlive⟩ :
      ∃ s o, (server Config.sample).run misses = some (s, o) ∧ s.fds 6 = some .assignments ∧
        live o = [] :=
    (server Config.sample).exists_run (by decide +kernel)
  refine ⟨s, o, hrun, hopen, hlive, fun h => ?_⟩
  rcases (h 6 .assignments).mp hopen with hstart | ⟨c, hc, -⟩
  · exact (Config.fds_cases hstart).2.1 rfl
  · cases hc

end Gap.Tunnel
