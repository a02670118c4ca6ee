import Gap.Tunnel.Routing

namespace Gap.Tunnel

/-!
# What a connection is learned from

The learning branch looks at a whole header in the read buffer, however few bytes the read
returned.

* `learnedBy` — the address that the reads of a connection present.
* `Inspected` — the steps whose reads decide on their own what is learned.
* `FromReads` — the invariant: the entry of a connection is a function of its reads.
* `learning_noninterference` — two runs with the same reads of a connection learn the same.
* `residue_learned` — a short read is completed from the packet of another client.
-/

variable {cfg : Config}

/-! ### What the reads present -/

/-- The first address that these reads present. -/
def learnedBy (reads : List (List UInt8)) : Option In6Addr := reads.findSome? presented

/-- One more read: the first address presented stays. -/
theorem learnedBy_concat (reads : List (List UInt8)) (bytes : List UInt8) :
    learnedBy (reads ++ [bytes]) = (learnedBy reads).or (presented bytes) := by
  simp only [learnedBy, List.findSome?_append, List.findSome?_singleton]

/-! ### The condition -/

/-- A step at which what connection `c` presents is decided by its own bytes: it is accepted on a
    descriptor that is not that of the TUN device, and until its address is learned each read
    returns a whole header, or bytes that already fail one of the tests; where it presents nothing,
    no earlier owner of the descriptor has left an address. -/
def Inspected (cfg : Config) (c : ℕ) (s : Server) (_ : List ServerObs) : ServerInput → Prop
  | .accept (.connected fd _) => s.nextConn = c → fd ≠ cfg.tunFile
  | .read (.data bytes) _ =>
    ∀ fd ∈ s.pc.readingFd, s.fds fd = some (.conn c) →
      ∀ h : fd < 512, (s.prefixes ⟨fd, h⟩).plenLl = 0 → Inspectable bytes ∧
        (presented bytes = none → (s.prefixes ⟨fd, h⟩).addrLl = SocketPrefix.zero.addrLl)
  | _ => True

instance (c : ℕ) (s : Server) (o : List ServerObs) :
    (i : ServerInput) → Decidable (Inspected cfg c s o i)
  | .accept (.connected _ _) => inferInstanceAs (Decidable (_ → _))
  | .accept .again => isTrue trivial
  | .accept .error => isTrue trivial
  | .read (.data _) _ => Option.decidableForallMem _
  | .read .again _ => isTrue trivial
  | .read .error _ => isTrue trivial
  | .read .eof _ => isTrue trivial
  | .epollWait _ => isTrue trivial

/-! ### The entry is a function of the reads -/

/-- What data from a connection without an address does to its entry. -/
theorem fromTcp_entry (s : Server) (j : Fin 512) (bytes : List UInt8) (stale : Buf 4096)
    (hll : (s.prefixes j).plenLl = 0) :
    (s.fromTcp cfg j bytes stale).1.prefixes j =
      match linkLocalSource (stale.copy 0 bytes) with
      | some addr => { s.prefixes j with addrLl := addr, plenLl := 128 }
      | none => s.prefixes j := by
  have hlearns : learns s.prefixes j (stale.copy 0 bytes) = linkLocalSource (stale.copy 0 bytes) := by
    rw [learns, dif_pos j.isLt, if_pos hll]
  simp only [Server.fromTcp, hlearns]
  cases linkLocalSource (stale.copy 0 bytes) with
  | none => rfl
  | some addr => exact learn_self s.prefixes j addr

/-- `plen_ll` of an entry for which this was learned. -/
def plenOf (addr : Option In6Addr) : ℕ := if addr.isSome then 128 else 0

/-- The entry of connection `c` is what its reads present. -/
structure FromReads (cfg : Config) (c : ℕ) (s : Server) (o : List ServerObs) : Prop where
  sane : Sane cfg s
  table : TableOk s
  /-- Nothing has been read from a connection that is not there yet. -/
  unborn : s.nextConn ≤ c → readsOf c o = []
  notTun : ∀ fd, s.fds fd = some (.conn c) → fd ≠ cfg.tunFile
  /-- Before the first read, the address is what the last owner of the descriptor has left. -/
  entry : ∀ j : Fin 512, s.fds j = some (.conn c) →
    (s.prefixes j).plenLl = plenOf (learnedBy (readsOf c o)) ∧ (readsOf c o ≠ [] →
      (s.prefixes j).addrLl = (learnedBy (readsOf c o)).getD SocketPrefix.zero.addrLl)

theorem fromReads_init (c : ℕ) : FromReads cfg c (Server.init cfg) [] where
  sane := sane_init
  table := tableOk_init
  unborn _ := rfl
  notTun fd h := absurd h (cfg.fds_ne_conn fd c)
  entry j h := absurd h (cfg.fds_ne_conn j c)

/-- The read that is processed: what it presents is learned if nothing was. -/
theorem FromReads.read {c fd : ℕ} {s s' : Server} {o e : List ServerObs} {rest : List EpollEvent}
    {bytes : List UInt8} {env : ReadEnv} (h : FromReads cfg c s o)
    (hstep : s.step cfg (.read (.data bytes) env) = some (s', e)) (hpc : s.pc = .reading fd rest)
    (hconn : s.fds fd = some (.conn c)) (hC : Inspected cfg c s o (.read (.data bytes) env)) :
    FromReads cfg c s' (o ++ e) := by
  obtain ⟨hle, hs', he⟩ := fromTcp_of_step h.sane hstep hpc (h.notTun fd hconn)
  obtain ⟨hfds, hnext, -⟩ := fromTcp_fds cfg s fd bytes env.stale
  have hreads : readsOf c e = [bytes] := by
    rw [he, fromTcp_eq s fd hle]
    cases learns s.prefixes fd (env.stale.copy 0 bytes) <;> simp [readsOf, hconn]
  rw [← hs'] at hfds hnext
  refine ⟨sane_step h.sane hstep, tableOk_step h.sane h.table hstep, fun hle' => ?_, fun f hc => ?_,
    fun j hc => ?_⟩
  · rw [hnext] at hle'
    exact absurd (h.sane.fds.conn_lt fd c hconn) (by omega)
  · rw [hfds] at hc
    exact h.notTun f hc
  · rw [hfds] at hc
    have hj : j.val = fd := h.sane.fds.conn_inj j fd c hc hconn
    subst hj
    obtain ⟨hp, ha⟩ := h.entry j hc
    rw [readsOf_append, hreads, learnedBy_concat]
    cases hlearned : learnedBy (readsOf c o) with
    | some addr =>
      -- the address has been learned before: the entry stays
      have hread : readsOf c o ≠ [] := by
        intro hnil
        rw [hnil] at hlearned
        cases hlearned
      have ha := ha hread
      rw [hlearned] at hp ha
      rw [hs', fromTcp_prefixes s (.inr (by rw [hp]; simp [plenOf]))]
      exact ⟨hp, fun _ => ha⟩
    | none =>
      rw [hlearned] at hp
      -- nothing has been presented before, and the read decides on its own what is now
      obtain ⟨hinspect, hzero⟩ := hC j (by rw [hpc]; rfl) hc j.isLt hp
      rw [hs', fromTcp_entry s j bytes env.stale hp, linkLocalSource_copy hinspect]
      cases hpresented : presented bytes with
      | none => exact ⟨hp, fun _ => hzero hpresented⟩
      | some addr => exact ⟨rfl, fun _ => rfl⟩

/-- **Step lemma.**  A step that meets the condition keeps the entry what the reads present. -/
theorem fromReads_step {c : ℕ} {s s' : Server} {o e : List ServerObs} {i : ServerInput}
    (h : FromReads cfg c s o) (hC : Inspected cfg c s o i) (hs : s.step cfg i = some (s', e)) :
    FromReads cfg c s' (o ++ e) := by
  by_cases hread : ∃ fd rest bytes env, s.pc = .reading fd rest ∧ s.fds fd = some (.conn c) ∧
      i = .read (.data bytes) env
  · obtain ⟨fd, rest, bytes, env, hpc, hconn, rfl⟩ := hread
    exact h.read hs hpc hconn hC
  · -- nothing is read from `c`, so its reads and its entry stay as they are
    have hreads : readsOf c (o ++ e) = readsOf c o := by
      refine readsOf_append_of_forall fun fd bytes hmem => ?_
      obtain ⟨hfile, rest, env, hpc, hi⟩ := tellsOf_step h.sane hs hmem
      exact hread ⟨fd, rest, bytes, env, hpc, hfile.symm, hi⟩
    have hsame : ∀ j : Fin 512, s'.fds j = some (.conn c) →
        (s'.prefixes j).plenLl = (s.prefixes j).plenLl ∧
          (s'.prefixes j).addrLl = (s.prefixes j).addrLl := by
      intro j hc
      rcases entry_of_step h.sane hs hc with hsame | ⟨addr, hmem, -⟩
      · exact hsame
      · obtain ⟨hfile, -, rest, bytes, env, hpc, hi, -⟩ := tellsOf_step h.sane hs hmem
        exact absurd ⟨j, rest, bytes, env, hpc, hfile.symm, hi⟩ hread
    refine ⟨sane_step h.sane hs, tableOk_step h.sane h.table hs, fun hle => ?_, fun fd hc => ?_,
      fun j hc => ?_⟩
    · rw [hreads]
      exact h.unborn ((nextConn_of_step h.sane hs).trans hle)
    · rcases conn_cases h.sane hs hc with hold | ⟨hborn, -, setUp, rfl⟩
      · exact h.notTun fd hold
      · exact hC hborn.symm
    · obtain ⟨hp, ha⟩ := hsame j hc
      rw [hreads, hp, ha]
      rcases conn_cases h.sane hs hc with hold | ⟨hborn, hfree, setUp, rfl⟩
      · exact h.entry j hold
      · -- the connection is born, on a descriptor that has no entry in use
        rw [h.unborn hborn.ge]
        exact ⟨(h.table.of_free hfree).1, fun hne => absurd rfl hne⟩

/-- **Run lemma.**  In every run whose steps meet the condition, the entry of `c` is what its reads
    present. -/
theorem fromReads_of_run (c : ℕ) (is : List ServerInput) (s : Server) (o : List ServerObs)
    (halong : (server cfg).Along (Inspected cfg c) is) (hrun : (server cfg).run is = some (s, o)) :
    FromReads cfg c s o :=
  Machine.run_induct_along (P := fun _ s o => FromReads cfg c s o) (fromReads_init c)
    (fun _ _ _ _ _ _ _ h hC hs => fromReads_step h hC hs) is s o halong hrun

/-- A read of less than a header, made under the condition, sets nothing. -/
theorem FromReads.short_read {c : ℕ} {s t : Server} {o e : List ServerObs} {j : Fin 512}
    {rest : List EpollEvent} {bytes : List UInt8} {env : ReadEnv} (h : FromReads cfg c s o)
    (hj : s.fds j = some (.conn c)) (hpc : s.pc = .reading j rest) (hlt : bytes.length < 40)
    (hC : Inspected cfg c s o (.read (.data bytes) env))
    (hstep : s.step cfg (.read (.data bytes) env) = some (t, e)) :
    (t.prefixes j).plenLl = (s.prefixes j).plenLl ∧
      (t.prefixes j).addrLl = (s.prefixes j).addrLl := by
  have hkeep : t.prefixes j = s.prefixes j := by
    obtain ⟨-, ht, -⟩ := fromTcp_of_step h.sane hstep hpc (h.notTun j hj)
    rw [ht]
    by_cases hll : (s.prefixes j).plenLl = 0
    · have hinspect := (hC j (by rw [hpc]; rfl) hj j.isLt hll).1
      rw [fromTcp_entry s j bytes env.stale hll, linkLocalSource_copy hinspect,
        presented_of_lt hinspect hlt]
    · exact fromTcp_prefixes s (.inr hll)
  rw [hkeep]
  exact ⟨rfl, rfl⟩

/-- Any other read made before the address is learned sets the entry, over some buffer. -/
theorem exists_learned {s : Server} {j : Fin 512} {rest : List EpollEvent} {bytes : List UInt8}
    (hpc : s.pc = .reading j rest) (htun : j.val ≠ cfg.tunFile) (hll : (s.prefixes j).plenLl = 0)
    (hpos : 1 ≤ bytes.length) (h : ¬ Inspectable bytes) :
    ∃ env t e, s.step cfg (.read (.data bytes) env) = some (t, e) ∧ (t.prefixes j).plenLl = 128 := by
  obtain ⟨stale, hsome⟩ := exists_linkLocalSource h
  obtain ⟨addr, haddr⟩ := Option.isSome_iff_exists.mp hsome
  have hle : bytes.length ≤ 4096 := by
    by_contra hgt
    exact h (.inl (by omega))
  refine ⟨⟨stale, none⟩, (s.fromTcp cfg j bytes stale).1, (s.fromTcp cfg j bytes stale).2, ?_, ?_⟩
  · simp only [Server.step, hpc, hpos, hle, and_self, if_true, if_neg htun]
  · rw [fromTcp_entry s j bytes stale hll, haddr]

/-! ### Non-interference -/

/-- **Non-interference in address learning.**  In two runs that read the same from a connection,
    read by read, whatever else happens in them and whatever the buffer held before, the entry of
    the connection has the same prefix length and, from its first read on, the same address; and a
    read of less than a header changes neither.  The reads of the connection meet `Inspected` in
    both runs. -/
theorem learning_noninterference (c c' : ℕ) (is is' : List ServerInput) (s s' : Server)
    (o o' : List ServerObs) (halong : (server cfg).Along (Inspected cfg c) is)
    (hrun : (server cfg).run is = some (s, o))
    (halong' : (server cfg).Along (Inspected cfg c') is')
    (hrun' : (server cfg).run is' = some (s', o')) (hreads : readsOf c o = readsOf c' o')
    (j j' : Fin 512) (hj : s.fds j = some (.conn c)) (hj' : s'.fds j' = some (.conn c')) :
    (s.prefixes j).plenLl = (s'.prefixes j').plenLl ∧
    (readsOf c o ≠ [] → (s.prefixes j).addrLl = (s'.prefixes j').addrLl) ∧
    ∀ bytes env rest t e, s.pc = .reading j rest → bytes.length < 40 →
      Inspected cfg c s o (.read (.data bytes) env) →
      s.step cfg (.read (.data bytes) env) = some (t, e) →
      (t.prefixes j).plenLl = (s.prefixes j).plenLl ∧
        (t.prefixes j).addrLl = (s.prefixes j).addrLl := by
  have h := fromReads_of_run c is s o halong hrun
  have h' := fromReads_of_run c' is' s' o' halong' hrun'
  obtain ⟨hp, ha⟩ := h.entry j hj
  obtain ⟨hp', ha'⟩ := h'.entry j' hj'
  refine ⟨?_, fun hne => ?_,
    fun bytes env rest t e hpc hlt hC hstep => h.short_read hj hpc hlt hC hstep⟩
  · rw [hp, hp', hreads]
  · rw [ha hne, ha' (hreads ▸ hne), hreads]

/-- A second client connects on descriptor 8 and presents `fe80::2`; then the first client, on
    descriptor 7, sends these bytes, read over the packet of the second. -/
def secondClient (bytes : List UInt8) : List ServerInput :=
  connects 7 ++ connects 8 ++ delivers 8 [helloOf 2] ++
    [.epollWait [readable 7],
      .read (.data bytes) ⟨Buf.copy (fun _ => 0) 0 (helloOf 2), none⟩]

/-- `learning_noninterference` for the client of `oneClient`, with and without a second client. -/
theorem learning_noninterference_secondClient :
    ∃ s o s' o', (server Config.sample).run oneClient = some (s, o) ∧
      (server Config.sample).run (secondClient (helloOf 1)) = some (s', o') ∧
      (s.prefixes 7).plenLl = 128 ∧ (s'.prefixes 7).plenLl = 128 ∧
      (s.prefixes 7).addrLl = linkLocal 1 ∧ (s'.prefixes 7).addrLl = linkLocal 1 := by
  obtain ⟨s, o, hrun, hj, hreads, hplen, haddr⟩ :
      ∃ s o, (server Config.sample).run oneClient = some (s, o) ∧
        s.fds (7 : Fin 512) = some (.conn 0) ∧ readsOf 0 o = [helloOf 1] ∧
        (s.prefixes 7).plenLl = 128 ∧ (s.prefixes 7).addrLl = linkLocal 1 :=
    (server Config.sample).exists_run (by decide +kernel)
  obtain ⟨s', o', hrun', hj', hreads'⟩ :
      ∃ s o, (server Config.sample).run (secondClient (helloOf 1)) = some (s, o) ∧
        s.fds (7 : Fin 512) = some (.conn 0) ∧ readsOf 0 o = [helloOf 1] :=
    (server Config.sample).exists_run (by decide +kernel)
  obtain ⟨hp, ha, -⟩ := learning_noninterference 0 0 oneClient (secondClient (helloOf 1)) s s' o o'
    (Machine.along_of_alongFrom (by decide +kernel)) hrun
    (Machine.along_of_alongFrom (by decide +kernel)) hrun' (hreads.trans hreads'.symm) 7 7 hj hj'
  have ha := ha (by rw [hreads]; exact List.cons_ne_nil _ _)
  exact ⟨s, o, s', o', hrun, hrun', hplen, hp ▸ hplen, haddr, ha ▸ haddr⟩

/-- One byte of the first client, an IPv6 version, is completed from the packet of the second:
    its entry is set, where without the second client it is not. -/
theorem residue_learned :
    ∃ s o s' o', (server Config.sample).run (connects 7 ++ delivers 7 [[0x60]]) = some (s, o) ∧
      (server Config.sample).run (secondClient [0x60]) = some (s', o') ∧
      s.fds 7 = some (.conn 0) ∧ s'.fds 7 = some (.conn 0) ∧
      readsOf 0 o = [[0x60]] ∧ readsOf 0 o' = [[0x60]] ∧ (s.prefixes 7).plenLl = 0 ∧
      (s'.prefixes 7).plenLl = 128 ∧ (s'.prefixes 7).addrLl = linkLocal 2 := by
  obtain ⟨s, o, hrun, hj, hreads, hp⟩ :
      ∃ s o, (server Config.sample).run (connects 7 ++ delivers 7 [[0x60]]) = some (s, o) ∧
        s.fds 7 = some (.conn 0) ∧ readsOf 0 o = [[0x60]] ∧ (s.prefixes 7).plenLl = 0 :=
    (server Config.sample).exists_run (by decide +kernel)
  obtain ⟨s', o', hrun', hj', hreads', hp', ha'⟩ :
      ∃ s o, (server Config.sample).run (secondClient [0x60]) = some (s, o) ∧
        s.fds 7 = some (.conn 0) ∧ readsOf 0 o = [[0x60]] ∧ (s.prefixes 7).plenLl = 128 ∧
        (s.prefixes 7).addrLl = linkLocal 2 :=
    (server Config.sample).exists_run (by decide +kernel)
  exact ⟨s, o, s', o', hrun, hrun', hj, hj', hreads, hreads', hp, hp', ha'⟩

end Gap.Tunnel
