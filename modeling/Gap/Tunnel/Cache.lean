import Gap.Tunnel.Delegation

namespace Gap.Tunnel

/-!
# The routing table as a cache

The assignments file is read only when a packet into the /52 finds no entry, and a reload gives
blocks without taking any away.

* `scratch` — the table without its blocks.
* `Recomputed` — the packet goes where it would go after a reload from scratch.
* `Fresh` — the entry found is the first one with its address, and the file gives it a block that
  holds the destination.
* `cached_route` — the two are equivalent; a packet that finds no entry is always forwarded right.
-/

/-- The table without its delegated blocks. -/
def scratch (t : Prefixes) : Prefixes := fun j => { t j with plenPd := 0 }

theorem first_scratch {t : Prefixes} {j : Fin 512} : First (scratch t) j ↔ First t j :=
  ⟨fun h => ⟨h.plenLl, h.first⟩, fun h => ⟨h.plenLl, h.first⟩⟩

theorem matchesPd_scratch (t : Prefixes) (j : Fin 512) (dst : In6Addr) :
    (scratch t j).matchesPd dst = false := rfl

/-- **A reload from nothing.**  If no entry matched before, the entries that match are those that
    are given a block with the destination. -/
theorem matchesPd_reload {t : Prefixes} {dst : In6Addr} (hmiss : ∀ j, (t j).matchesPd dst = false)
    (ds : List (In6Addr × In6Addr)) (j : Fin 512) :
    (ds.foldl (fun t d => assign t d.1 d.2) t j).matchesPd dst = true ↔
      First t j ∧ ∃ block, lastBlock (t j).addrLl ds = some block ∧ covers block dst = true := by
  by_cases hfirst : First t j
  · rw [matchesPd_foldl_first hfirst, and_iff_right hfirst]
    cases lastBlock (t j).addrLl ds with
    | none => simp [hmiss]
    | some block => simp
  · rw [foldl_assign_of_not hfirst, hmiss]
    simp [hfirst]

/-- So a lookup after it does not depend on the blocks of before. -/
theorem findPd_reload_scratch {t t' u : Prefixes} {dst : In6Addr} (hmiss : findPd t dst = none)
    {inetPton : List UInt8 → Option In6Addr} {ind : ℕ → Indeterminate} {contents : List UInt8}
    (hload : parsePrefixes inetPton ind contents t = some t')
    (hscratch : parsePrefixes inetPton ind contents (scratch t) = some u) :
    findPd t' dst = findPd u dst := by
  have hnone := Fin.find?_eq_none_iff.mp hmiss
  refine congrArg Fin.find? (funext fun j => Bool.eq_iff_iff.mpr ?_)
  rw [eq_of_parsePrefixes hload, eq_of_parsePrefixes hscratch, matchesPd_reload hnone,
    matchesPd_reload fun k => matchesPd_scratch t k dst, first_scratch]
  rfl

/-- A line that names the address decides the block given to it. -/
theorem lastBlock_isSome {addr : In6Addr} {ds : List (In6Addr × In6Addr)}
    (h : ∃ d ∈ ds, d.1 = addr) : ∃ block, lastBlock addr ds = some block := by
  induction ds using List.reverseRecOn with
  | nil => simp at h
  | append_singleton ds d ih =>
    rw [lastBlock, List.foldl_append, List.foldl_cons, List.foldl_nil]
    by_cases hd : d.1 = addr
    · exact ⟨d.2, if_pos hd⟩
    · rw [if_neg hd]
      obtain ⟨d', hd', ha⟩ := h
      refine ih ⟨d', (List.mem_append.mp hd').resolve_right fun hlast => ?_, ha⟩
      rw [List.mem_singleton.mp hlast] at ha
      exact hd ha

section

variable {inetPton : List UInt8 → Option In6Addr}

/-- The file gives the address a block that holds the destination. -/
def Gives (lines : List (Line inetPton)) (addr dst : In6Addr) : Prop :=
  ∃ l ∈ lines, l.addr = addr ∧ Buf.SameBits 62 l.block dst

instance (lines : List (Line inetPton)) (addr dst : In6Addr) : Decidable (Gives lines addr dst) :=
  inferInstanceAs (Decidable (∃ l ∈ lines, l.addr = addr ∧ Buf.SameBits 62 l.block dst))

/-- No two lines name the same address, and no two name the same block. -/
structure OnceEach (lines : List (Line inetPton)) : Prop where
  addr : lines.Pairwise fun l l' => l.addr ≠ l'.addr
  block : lines.Pairwise fun l l' => ¬ Buf.SameBits 62 l.block l'.block

/-- The line of an address is the only one. -/
theorem OnceEach.eq_of_addr {lines : List (Line inetPton)} (h : OnceEach lines)
    {l l' : Line inetPton} (hl : l ∈ lines) (hl' : l' ∈ lines) (ha : l.addr = l'.addr) : l = l' := by
  by_contra hne
  have : Std.Symm fun l l' : Line inetPton => l.addr ≠ l'.addr := ⟨fun _ _ h => h.symm⟩
  exact h.addr.forall hl hl' hne ha

/-- The line of a block is the only one. -/
theorem OnceEach.eq_of_block {lines : List (Line inetPton)} (h : OnceEach lines)
    {l l' : Line inetPton} (hl : l ∈ lines) (hl' : l' ∈ lines) {dst : In6Addr}
    (hb : Buf.SameBits 62 l.block dst) (hb' : Buf.SameBits 62 l'.block dst) : l = l' := by
  by_contra hne
  have : Std.Symm fun l l' : Line inetPton => ¬ Buf.SameBits 62 l.block l'.block :=
    ⟨fun _ _ h hsame => h hsame.symm⟩
  exact h.block.forall hl hl' hne (hb.trans hb'.symm)

theorem gives_iff {lines : List (Line inetPton)} (h : OnceEach lines) (addr dst : In6Addr) :
    Gives lines addr dst ↔ ∃ block,
      lastBlock addr (lines.map fun l => (l.addr, l.block)) = some block ∧
        covers block dst = true := by
  constructor
  · rintro ⟨l, hl, rfl, hbits⟩
    have hnamed : ∃ d ∈ lines.map fun l => (l.addr, l.block), d.1 = l.addr :=
      ⟨_, List.mem_map_of_mem hl, rfl⟩
    obtain ⟨block, hlast⟩ := lastBlock_isSome hnamed
    obtain ⟨l', hl', heq⟩ := List.mem_map.mp (mem_of_lastBlock hlast)
    obtain ⟨ha, hb⟩ := Prod.mk.inj heq
    obtain rfl := h.eq_of_addr hl' hl ha
    exact ⟨block, hlast, (covers_iff _ _).mpr (hb ▸ hbits)⟩
  · rintro ⟨block, hlast, hcovers⟩
    obtain ⟨l, hl, heq⟩ := List.mem_map.mp (mem_of_lastBlock hlast)
    obtain ⟨ha, rfl⟩ := Prod.mk.inj heq
    exact ⟨l, hl, ha, (covers_iff _ _).mp hcovers⟩

/-- **A lookup after a reload from scratch** finds the first entry with the address of the line
    whose block holds the destination. -/
theorem findPd_scratch_iff (hpton : InetPton inetPton) {lines : List (Line inetPton)}
    (h : OnceEach lines) {ind : ℕ → Indeterminate} {t u : Prefixes}
    (hload : parsePrefixes inetPton ind (fileOf lines) (scratch t) = some u) (dst : In6Addr)
    (j : Fin 512) : findPd u dst = some j ↔ First t j ∧ Gives lines (t j).addrLl dst := by
  rw [parsePrefixes_fileOf hpton, Option.some.injEq] at hload
  have hmatch : ∀ k, (u k).matchesPd dst = true ↔ First t k ∧ Gives lines (t k).addrLl dst := by
    intro k
    rw [← hload, matchesPd_reload fun k => matchesPd_scratch t k dst, first_scratch, gives_iff h]
    rfl
  constructor
  · exact fun hfind => (hmatch j).mp (Fin.eq_true_of_find?_eq_some hfind)
  · rintro ⟨hfirst, hgives⟩
    refine find?_eq_some_of_sole ((hmatch j).mpr ⟨hfirst, hgives⟩) fun k hk => ?_
    -- two such entries have the line of the destination, so they have its address
    obtain ⟨hfirst', l', hl', ha', hbits'⟩ := (hmatch k).mp hk
    obtain ⟨l, hl, ha, hbits⟩ := hgives
    have hsame : (t k).addrLl = (t j).addrLl := by
      rw [← ha, ← ha', h.eq_of_block hl' hl hbits' hbits]
    rcases lt_trichotomy k j with hlt | heq | hlt
    · exact absurd hsame (hfirst.first k hlt hfirst'.plenLl)
    · exact heq
    · exact absurd hsame.symm (hfirst'.first j hlt hfirst.plenLl)

end

/-! ### The cached route -/

variable {cfg : Config}

/-- The packet goes where it would go if the blocks had been taken from the file alone: to the
    entry found then, once and with all its bytes, or to no one. -/
def Recomputed (cfg : Config) (s : Server) (a : Assignments) (bytes : List UInt8) (dst : In6Addr)
    (s' : Server) (e : List ServerObs) : Prop :=
  ∃ t, parsePrefixes cfg.inetPton a.ind a.contents (scratch s.prefixes) = some t ∧
    match findPd t dst with
    | none => e = [.received cfg.tunFile (s.fds cfg.tunFile) bytes]
    | some j => e = [.received cfg.tunFile (s.fds cfg.tunFile) bytes,
        .wrote (s'.fds cfg.tunFile) j (s'.fds j) bytes]

/-- The entry that the packet finds in the table is the first one with its address, and the file
    gives it a block that holds the destination. -/
def Fresh {inetPton : List UInt8 → Option In6Addr} (lines : List (Line inetPton)) (t : Prefixes)
    (dst : In6Addr) : Prop :=
  ∀ j ∈ findPd t dst, Gives lines (t j).addrLl dst ∧
    ∀ k < j, (t k).plenLl ≠ 0 → (t k).addrLl ≠ (t j).addrLl

instance {inetPton : List UInt8 → Option In6Addr} (lines : List (Line inetPton)) (t : Prefixes)
    (dst : In6Addr) : Decidable (Fresh lines t dst) := Option.decidableForallMem _

/-- The outputs of a step tell the entry the packet goes to. -/
theorem forward_eq_iff {s : Server} {bytes : List UInt8} {ob : ServerObs}
    {target target' : Option (Fin 512)} :
    (match target with
      | none => ob :: s.forward cfg bytes target' = [ob]
      | some j => ob :: s.forward cfg bytes target'
          = [ob, .wrote (s.fds cfg.tunFile) j (s.fds j) bytes]) ↔ target' = target := by
  cases target with
  | none =>
    cases target' with
    | none => simp [Server.forward]
    | some k => simp [Server.forward]
  | some j =>
    cases target' with
    | none => simp [Server.forward]
    | some k =>
      simp only [Server.forward, List.cons.injEq, ServerObs.wrote.injEq, true_and, and_true,
        Option.some.injEq]
      constructor
      · rintro ⟨hk, -⟩
        exact Fin.ext hk
      · rintro rfl
        exact ⟨rfl, rfl⟩

/-- **The cached route.**  In every reachable state, whatever files have been loaded before: a
    packet from TUN into the /52 goes where it would go after a reload from scratch of the current
    file, exactly if the entry it finds in the table, if any, is the first one with its address
    and is given a block by the file that holds the destination. -/
theorem cached_route (hpton : InetPton cfg.inetPton) (is : List ServerInput) (s : Server)
    (o : List ServerObs) (hrun : (server cfg).run is = some (s, o))
    (lines : List (Line cfg.inetPton)) (honce : OnceEach lines) (a : Assignments)
    (ha : a.contents = fileOf lines) (rest : List EpollEvent) (bytes : List UInt8) (env : ReadEnv)
    (s' : Server) (e : List ServerObs) (hpc : s.pc = .reading cfg.tunFile rest)
    (henv : env.assignments = some a)
    (hstep : s.step cfg (.read (.data bytes) env) = some (s', e))
    (hversion : version (env.stale.copy 0 bytes) = 6)
    (h52 : cfg.inSlash52 (daddr (env.stale.copy 0 bytes)) = true) :
    Recomputed cfg s a bytes (daddr (env.stale.copy 0 bytes)) s' e ↔
      Fresh lines s.prefixes (daddr (env.stale.copy 0 bytes)) := by
  obtain ⟨hle, hfrom⟩ := fromTun_of_step hstep hpc
  have hlookup := lookup52_of_fromTun hpc hle hfrom hversion h52
  generalize daddr (env.stale.copy 0 bytes) = dst at hlookup ⊢
  have hscratch := parsePrefixes_fileOf hpton lines a.ind (scratch s.prefixes)
  have hfind_iff := findPd_scratch_iff hpton honce hscratch dst
  rw [← ha] at hscratch
  generalize hu : List.foldl _ (scratch s.prefixes) _ = u at hscratch hfind_iff
  simp only [Recomputed, hscratch, Option.some.injEq, exists_eq_left', Fresh]
  cases hlookup with
  | hit j hfind hs ho =>
    subst hs
    simp only [hfind, Option.mem_some_iff, forall_eq', ho, forward_eq_iff]
    have hll := (tableOk_of_run is s' o hrun).2.pd j (by
      have hmatch := Fin.eq_true_of_find?_eq_some hfind
      rw [SocketPrefix.matchesPd_eq, Bool.and_eq_true, bne_iff_ne] at hmatch
      exact hmatch.1)
    rw [eq_comm, hfind_iff j]
    constructor
    · rintro ⟨hfirst, hgives⟩
      exact ⟨hgives, hfirst.first⟩
    · rintro ⟨hgives, hfirst⟩
      exact ⟨⟨hll, hfirst⟩, hgives⟩
  | unreadable hfind ha' hs ho =>
    rw [henv] at ha'
    cases ha'
  | overrun a' hfind ha' hload hs ho =>
    -- the file has no short line
    obtain rfl := Option.some.inj (henv.symm.trans ha')
    rw [ha, parsePrefixes_fileOf hpton] at hload
    cases hload
  | loaded a' hfind ha' hload hs ho =>
    -- the table is reloaded from the same file
    obtain rfl := Option.some.inj (henv.symm.trans ha')
    simp only [ho, forward_eq_iff]
    exact iff_of_true (findPd_reload_scratch hfind hload hscratch) (by simp [hfind])

/-! ### A line that is gone -/

/-- The client's block is loaded for a packet into it; then another packet can be read. -/
def afterLoad : List ServerInput :=
  atPacket ++ [.read (.data (packetTo 0x11)) ⟨fun _ => 0, some (sampleFile 6 62 (by decide))⟩]

/-- `cached_route` when the file stays as it is. -/
theorem cached_route_unchanged :
    ∃ s o s' e, (server Config.delegating).run afterLoad = some (s, o) ∧
      s.step Config.delegating (.read (.data (packetTo 0x11)) (sampleEnv 62 (by decide)))
        = some (s', e) ∧
      Recomputed Config.delegating s (sampleFile 8 62 (by decide)) (packetTo 0x11)
        (daddr (Buf.copy (fun _ => 0) 0 (packetTo 0x11))) s' e := by
  obtain ⟨s, o, hrun, hpc, hfresh, hstep⟩ :
      ∃ s o, (server Config.delegating).run afterLoad = some (s, o) ∧ s.pc = .reading 3 [] ∧
        Fresh [sampleLine 62 (by decide)] s.prefixes
          (daddr (Buf.copy (fun _ => 0) 0 (packetTo 0x11))) ∧
        (s.step Config.delegating
          (.read (.data (packetTo 0x11)) (sampleEnv 62 (by decide)))).isSome = true :=
    (server Config.delegating).exists_run (by decide +kernel)
  obtain ⟨⟨s', e⟩, hstep⟩ := Option.isSome_iff_exists.mp hstep
  exact ⟨s, o, s', e, hrun, hstep, (cached_route inetPton_sample _ s o hrun
    [sampleLine 62 (by decide)] ⟨List.pairwise_singleton _ _, List.pairwise_singleton _ _⟩
    (sampleFile 8 62 (by decide)) rfl [] (packetTo 0x11) (sampleEnv 62 (by decide)) s' e hpc rfl
    hstep (by decide) (by decide)).mpr hfresh⟩

/-- An empty file. -/
def emptyFile (fd : ℕ) : Assignments :=
  ⟨fd, [], fun _ => ⟨fun _ => 0, fun _ => 0⟩⟩

/-- The line of the client has been taken out of the file, and its packets still go to it. -/
theorem stale_route :
    ∃ s o s' e t, (server Config.delegating).run afterLoad = some (s, o) ∧
      s.step Config.delegating (.read (.data (packetTo 0x11)) ⟨fun _ => 0, some (emptyFile 8)⟩)
        = some (s', e) ∧
      .wrote (some .tun) 7 (some (.conn 0)) (packetTo 0x11) ∈ e ∧
      parsePrefixes samplePton (emptyFile 8).ind (emptyFile 8).contents (scratch s.prefixes)
        = some t ∧ findPd t (daddr (Buf.copy (fun _ => 0) 0 (packetTo 0x11))) = none ∧
      ¬ Recomputed Config.delegating s (emptyFile 8) (packetTo 0x11)
        (daddr (Buf.copy (fun _ => 0) 0 (packetTo 0x11))) s' e := by
  obtain ⟨s, o, hrun, ⟨t, hload, hnone⟩, hstep⟩ :
      ∃ s o, (server Config.delegating).run afterLoad = some (s, o) ∧
        (∃ t ∈ parsePrefixes samplePton (emptyFile 8).ind (emptyFile 8).contents
            (scratch s.prefixes),
          findPd t (daddr (Buf.copy (fun _ => 0) 0 (packetTo 0x11))) = none) ∧
        (s.step Config.delegating
          (.read (.data (packetTo 0x11)) ⟨fun _ => 0, some (emptyFile 8)⟩)).map Prod.snd
            = some [.received 3 (some .tun) (packetTo 0x11),
              .wrote (some .tun) 7 (some (.conn 0)) (packetTo 0x11)] :=
    (server Config.delegating).exists_run (by decide +kernel)
  obtain ⟨⟨s', e⟩, hstep, he⟩ := Option.map_eq_some_iff.mp hstep
  subst he
  refine ⟨s, o, s', _, t, hrun, hstep, by simp, hload, hnone, fun hsame => ?_⟩
  have hload' : parsePrefixes Config.delegating.inetPton (emptyFile 8).ind (emptyFile 8).contents
      (scratch s.prefixes) = some t := hload
  simp [Recomputed, hload', hnone] at hsame

end Gap.Tunnel
