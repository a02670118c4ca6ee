import Gap.Tunnel.Steps

namespace Gap.Tunnel

/-!
# Accesses to the routing table

`prefixes[512]` is indexed by descriptor.  Where an address is learned the descriptor is tested
against 512 before it is used as an index; where a descriptor is closed it is not.

* `Server.accesses` — the indices a step reads or writes; `step_frame` — the entries at all other
  indices stay as they are.
* `InTable` — a step stays inside the table, and closing a descriptor changes only its entry.
* `table_bounds` — the runs all of whose steps do.
-/

variable {cfg : Config}

/-! ### The indices -/

/-- The indices read by a loop over the table that stops at its first match. -/
def searched : Option (Fin 512) → List ℕ
  | some j => List.range (j + 1)
  | none => List.range 512

/-- The entry a pass of `parse_prefixes` gives a block to. -/
def findLocal (t : Prefixes) (localAddr : In6Addr) : Option (Fin 512) :=
  Fin.find? fun j => (t j).plenLl != 0 && (t j).addrLl.agree localAddr 0 16

/-- The indices accessed by a pass of `parse_prefixes`: the entry that is written is the last one
    searched. -/
def lineAccessed (t : Prefixes) : Option (In6Addr × In6Addr) → List ℕ
  | some d => searched (findLocal t d.1)
  | none => []

/-- The indices `parse_prefixes` accesses, pass by pass, as long as it stays inside `line[]`. -/
def parseAccesses (inetPton : List UInt8 → Option In6Addr) (ind : ℕ → Indeterminate) :
    List (List UInt8 × ℕ) → Prefixes → List ℕ
  | [], _ => []
  | lk :: lines, t =>
    match parseLine inetPton (ind lk.2) lk.1 t with
    | none => []
    | some t' =>
      lineAccessed t (delegation inetPton (ind lk.2) lk.1) ++ parseAccesses inetPton ind lines t'

/-- The indices accessed for a packet from the TUN device. -/
def Server.tunAccesses (cfg : Config) (s : Server) (bytes : List UInt8) (env : ReadEnv) : List ℕ :=
  let dst := daddr (env.stale.copy 0 bytes)
  if version (env.stale.copy 0 bytes) ≠ 6 then []
  else if cfg.inSlash52 dst then
    searched (findPd s.prefixes dst) ++
      match findPd s.prefixes dst, env.assignments with
      | none, some a =>
        parseAccesses cfg.inetPton a.ind (fgetsLines [] a.contents).zipIdx s.prefixes ++
          if (s.reload cfg a).pc = .undefined then []
          else searched (findPd (s.reload cfg a).prefixes dst)
      | _, _ => []
  else if cfg.inSlash64 dst then searched (findLl s.prefixes dst)
  else []

/-- The indices a step accesses.  Data of a connection only touches the table "not outside the
    bounds"; the close path reads both addresses of its entry and clears both lengths. -/
def Server.accesses (cfg : Config) (s : Server) : ServerInput → List ℕ
  | .read r env =>
    match s.pc with
    | .reading fd _ =>
      match r with
      | .data bytes =>
        if fd = cfg.tunFile then s.tunAccesses cfg bytes env else if fd < 512 then [fd] else []
      | .again => []
      | .error => [fd]
      | .eof => [fd]
    | _ => []
  | _ => []

theorem lt_of_searched {o : Option (Fin 512)} {k : ℕ} (h : k ∈ searched o) : k < 512 := by
  cases o with
  | none => exact List.mem_range.mp h
  | some j =>
    have hj := List.mem_range.mp h
    omega

theorem lt_of_parseAccesses {inetPton : List UInt8 → Option In6Addr} {ind : ℕ → Indeterminate}
    {lines : List (List UInt8 × ℕ)} {t : Prefixes} {k : ℕ}
    (h : k ∈ parseAccesses inetPton ind lines t) : k < 512 := by
  induction lines generalizing t with
  | nil => cases h
  | cons lk lines ih =>
    rw [parseAccesses] at h
    split at h
    · cases h
    · rcases List.mem_append.mp h with hfirst | hrest
      · cases hd : delegation inetPton (ind lk.2) lk.1 with
        | none =>
          rw [hd] at hfirst
          cases hfirst
        | some d =>
          rw [hd, lineAccessed] at hfirst
          exact lt_of_searched hfirst
      · exact ih hrest

/-- Packets from the TUN device are looked up inside the table. -/
theorem lt_of_tunAccesses {s : Server} {bytes : List UInt8} {env : ReadEnv} {k : ℕ}
    (h : k ∈ s.tunAccesses cfg bytes env) : k < 512 := by
  simp only [Server.tunAccesses] at h
  split at h
  · cases h
  · split at h
    · rcases List.mem_append.mp h with hfirst | hrest
      · exact lt_of_searched hfirst
      · -- the reload, and the second search
        split at hrest
        · rcases List.mem_append.mp hrest with hparse | hagain
          · exact lt_of_parseAccesses hparse
          · split at hagain
            · cases hagain
            · exact lt_of_searched hagain
        · cases hrest
    · split at h
      · exact lt_of_searched h
      · cases h

/-! ### What is not accessed stays -/

/-- A pass of `parse_prefixes` changes at most the last entry it searches. -/
theorem assign_frame {t : Prefixes} {localAddr block : In6Addr} {j : Fin 512}
    (h : j.val ∉ searched (findLocal t localAddr)) : assign t localAddr block j = t j := by
  unfold assign
  rw [findLocal] at h
  cases hfind : Fin.find? fun j => (t j).plenLl != 0 && (t j).addrLl.agree localAddr 0 16 with
  | none => rfl
  | some k =>
    rw [hfind] at h
    have hne : j ≠ k := by
      rintro rfl
      exact h (List.mem_range.mpr (Nat.lt_succ_self _))
    exact Function.update_of_ne hne _ _

/-- What the passes over these lines leave as it is. -/
theorem parse_frame {inetPton : List UInt8 → Option In6Addr} {ind : ℕ → Indeterminate}
    {lines : List (List UInt8 × ℕ)} {t t' : Prefixes} {j : Fin 512}
    (hload : lines.foldlM (fun t lk => parseLine inetPton (ind lk.2) lk.1 t) t = some t')
    (h : j.val ∉ parseAccesses inetPton ind lines t) : t' j = t j := by
  induction lines generalizing t with
  | nil =>
    rw [List.foldlM_nil] at hload
    cases hload
    rfl
  | cons lk lines ih =>
    rw [List.foldlM_cons] at hload
    obtain ⟨t₁, hline, hrest⟩ := Option.bind_eq_some_iff.mp hload
    rw [parseAccesses, hline, List.mem_append, not_or] at h
    rw [ih hrest h.2, eq_of_parseLine hline]
    cases hd : delegation inetPton (ind lk.2) lk.1 with
    | none => rfl
    | some d =>
      rw [hd, lineAccessed] at h
      exact assign_frame h.1

/-- What a packet from TUN leaves as it is. -/
theorem fromTun_frame {s s' : Server} {bytes : List UInt8} {env : ReadEnv} {e : List ServerObs}
    {rest : List EpollEvent} (hpc : s.pc = .reading cfg.tunFile rest) (hlen : bytes.length ≤ 4096)
    (hs : s.fromTun cfg bytes env = some (s', e)) {j : Fin 512}
    (hj : j.val ∉ s.tunAccesses cfg bytes env) : s'.prefixes j = s.prefixes j := by
  by_cases hv : version (env.stale.copy 0 bytes) = 6
  · by_cases h52 : cfg.inSlash52 (daddr (env.stale.copy 0 bytes)) = true
    · cases lookup52_of_fromTun hpc hlen hs hv h52 with
      | hit k hfind hs' ho => rw [hs']
      | unreadable hfind ha hs' ho => rw [hs']
      | overrun a hfind ha hload hs' ho => rw [hs', reload_of_none hload]
      | loaded a hfind ha hload hs' ho =>
        refine parse_frame hload fun hmem => hj ?_
        simp only [Server.tunAccesses, hv, h52, hfind, ha, ne_eq, not_true_eq_false, if_false,
          if_true]
        exact List.mem_append_right _ (List.mem_append_left _ hmem)
    · simp only [Server.fromTun, hv, h52, ne_eq, not_true_eq_false, if_false,
        Bool.false_eq_true] at hs
      split at hs
      all_goals
        obtain ⟨rfl, -⟩ := Prod.mk.inj (Option.some.inj hs)
        rfl
  · simp only [Server.fromTun, hv, ne_eq, not_false_eq_true, if_true] at hs
    obtain ⟨rfl, -⟩ := Prod.mk.inj (Option.some.inj hs)
    rfl

/-- What data from a connection leaves as it is. -/
theorem fromTcp_frame (s : Server) (fd : ℕ) (bytes : List UInt8) (stale : Buf 4096) {j : Fin 512}
    (hj : j.val ≠ fd) : (s.fromTcp cfg fd bytes stale).1.prefixes j = s.prefixes j := by
  simp only [Server.fromTcp]
  split
  · exact if_neg hj
  · rfl

/-- What closing a descriptor leaves as it is. -/
theorem close_frame (s : Server) (fd : ℕ) (rest : List EpollEvent) {j : Fin 512}
    (hj : j.val ≠ fd) : (s.close cfg fd rest).1.prefixes j = s.prefixes j := by
  simp only [Server.close]
  split
  · next h =>
    exact Function.update_of_ne (fun heq => hj (congrArg Fin.val heq)) _ _
  · rfl

/-- **Frame.**  An entry that is not accessed is not changed. -/
theorem step_frame {s s' : Server} {i : ServerInput} {e : List ServerObs} (h : Sane cfg s)
    (hs : s.step cfg i = some (s', e)) {j : Fin 512} (hj : j.val ∉ s.accesses cfg i) :
    s'.prefixes j = s.prefixes j := by
  cases effect_of_step h hs with
  | next hread haccept => rfl
  | accepted hfree hpc => rfl
  | fromTcp hpc hconn htun hpos hle =>
    simp only [Server.accesses, hpc, htun, if_false] at hj
    refine fromTcp_frame s _ _ _ fun heq => hj ?_
    rw [if_pos (by omega)]
    exact List.mem_singleton.mpr heq
  | fromTun hpc hpos hle hrun =>
    simp only [Server.accesses, hpc, if_true] at hj
    exact fromTun_frame hpc hle hrun hj
  | @closed fd rest r env hpc hreg hsfd hr =>
    have hone : s.accesses cfg (.read r env) = [fd] := by
      rcases hr with rfl | rfl <;> simp [Server.accesses, hpc]
    rw [hone] at hj
    exact close_frame s _ _ fun heq => hj (List.mem_singleton.mpr heq)

/-! ### Bounds -/

/-- The descriptor a step closes. -/
def Server.closes (s : Server) : ServerInput → Option ℕ
  | .read r _ => if r.isEnd then s.pc.readingFd else none
  | _ => none

/-- Every access of the step is inside the table, and a step that closes a descriptor changes no
    entry but its own. -/
def InTable (cfg : Config) (s : Server) (_ : List ServerObs) (i : ServerInput) : Prop :=
  (∀ k ∈ s.accesses cfg i, k < 512) ∧
    ∀ fd ∈ s.closes i, ∀ s' e, s.step cfg i = some (s', e) →
      ∀ j : Fin 512, j.val ≠ fd → s'.prefixes j = s.prefixes j

/-- A step that closes a descriptor closes one below 512. -/
def ClosesBelow (s : Server) (_ : List ServerObs) (i : ServerInput) : Prop :=
  ∀ fd ∈ s.closes i, fd < 512

instance (s : Server) (o : List ServerObs) (i : ServerInput) : Decidable (ClosesBelow s o i) :=
  Option.decidableForallMem _

/-- The close path accesses the entry of its descriptor. -/
theorem accesses_of_closes {s : Server} {i : ServerInput} {fd : ℕ} (h : fd ∈ s.closes i) :
    s.accesses cfg i = [fd] := by
  cases i with
  | read r env =>
    cases hpc : s.pc with
    | reading f rest =>
      simp only [Server.closes, hpc, Pc.readingFd, Option.mem_def] at h
      cases r with
      | error | eof =>
        obtain rfl : f = fd := Option.some.inj h
        simp [Server.accesses, hpc]
      | data bytes => cases h
      | again => cases h
    | epollWait | accepting | exited | undefined =>
      simp [Server.closes, hpc, Pc.readingFd] at h
  | epollWait events => cases h
  | accept r => cases h

/-- Every other step stays inside the table. -/
theorem lt_of_accesses {s : Server} {i : ServerInput} (h : s.closes i = none) {k : ℕ}
    (hk : k ∈ s.accesses cfg i) : k < 512 := by
  cases i with
  | read r env =>
    cases hpc : s.pc with
    | reading fd rest =>
      simp only [Server.closes, hpc, Pc.readingFd] at h
      cases r with
      | data bytes =>
        simp only [Server.accesses, hpc] at hk
        split at hk
        · exact lt_of_tunAccesses hk
        · split at hk
          · next hlt => rwa [List.mem_singleton.mp hk]
          · cases hk
      | again => simp [Server.accesses, hpc] at hk
      | error => cases h
      | eof => cases h
    | epollWait | accepting | exited | undefined => simp [Server.accesses, hpc] at hk
  | epollWait events => cases hk
  | accept r => cases hk

/-- One step stays inside the table exactly if what it closes, if anything, is below 512. -/
theorem inTable_iff {s : Server} (h : Sane cfg s) (o : List ServerObs) (i : ServerInput) :
    InTable cfg s o i ↔ ClosesBelow s o i := by
  constructor
  · rintro ⟨hbounds, -⟩ fd hfd
    refine hbounds fd ?_
    rw [accesses_of_closes hfd]
    exact List.mem_singleton_self fd
  · intro hbelow
    refine ⟨fun k hk => ?_, fun fd hfd s' e hs j hj => step_frame h hs ?_⟩
    · cases hcloses : s.closes i with
      | none => exact lt_of_accesses hcloses hk
      | some fd =>
        rw [accesses_of_closes (Option.mem_def.mpr hcloses), List.mem_singleton] at hk
        rw [hk]
        exact hbelow fd hcloses
    · rw [accesses_of_closes hfd, List.mem_singleton]
      exact hj

/-- **Bounds of the table.**  Whatever descriptors the kernel assigns, the steps of a run all stay
    inside the table, and close no entry but their own, exactly if no descriptor from 512 on is
    closed. -/
theorem table_bounds (cfg : Config) (is : List ServerInput) :
    (server cfg).Along (InTable cfg) is ↔ (server cfg).Along ClosesBelow is := by
  have hsane : ∀ pre s o, (server cfg).run pre = some (s, o) → Sane cfg s := fun pre s o hrun =>
    Machine.run_invariant (I := Sane cfg) sane_init (fun _ _ _ _ hI hs => sane_step hI hs)
      pre s o hrun
  constructor
  · intro h pre i post s o heq hrun
    exact (inTable_iff (hsane pre s o hrun) o i).mp (h pre i post s o heq hrun)
  · intro h pre i post s o heq hrun
    exact (inTable_iff (hsane pre s o hrun) o i).mpr (h pre i post s o heq hrun)

/-- A client on descriptor 512 disconnects: the two lengths behind the table are cleared. -/
theorem close_outside_table :
    ¬ (server .sample).Along (InTable .sample) (connects 512 ++ ends 512) := by
  intro h
  obtain ⟨s, o, hrun, hmem⟩ :
      ∃ s o, (server Config.sample).run (connects 512 ++ [.epollWait [readable 512]]) = some (s, o) ∧
        512 ∈ s.accesses .sample (.read .eof ⟨fun _ => 0, none⟩) :=
    (server Config.sample).exists_run (by decide +kernel)
  exact absurd ((h _ _ [] s o rfl hrun).1 512 hmem) (by decide)

end Gap.Tunnel
