import Gap.Tunnel.Framing

namespace Gap.Tunnel

/-!
# Writes under back-pressure

The sockets of the connections are non-blocking, so that `write` can take a part of a packet, or
nothing.  The server stores the result in `err` and goes on; its buffer is overwritten by the next
read.  Here the steps of the server are taken together with the results of their writes.

* `WriteResult`, `pressed` — the machine; its outputs carry the bytes the kernel took.
* `streamTo` — the byte stream sent on a connection.
* `PacketStream` — a stream of complete packets and at most the beginning of one more.
* `packets_whole` — the stream consists of packets as long as no write is short.
* `stream_torn` — a packet behind a short write.
-/

/-- What `write` returns: the number of bytes taken, or -1 with EAGAIN. -/
inductive WriteResult
  | took (k : ℕ)
  | again
  deriving DecidableEq

namespace WriteResult

/-- The number of bytes taken. -/
def count : WriteResult → ℕ
  | took k => k
  | again => 0

/-- A write takes no more than it is given. -/
def fits (r : WriteResult) : ServerObs → Bool
  | .wrote _ _ _ bytes => r.count ≤ bytes.length
  | _ => true

/-- The bytes a write takes. -/
def taken (r : WriteResult) : ServerObs → List UInt8
  | .wrote _ _ _ bytes => bytes.take r.count
  | _ => []

end WriteResult

/-- A step of the server, with the result of the write it makes, if any. -/
def Server.pressedStep (cfg : Config) (s : Server) (ir : ServerInput × WriteResult) :
    Option (Server × List (ServerObs × List UInt8)) :=
  (s.step cfg ir.1).bind fun r =>
    if r.2.all ir.2.fits then some (r.1, r.2.map fun ob => (ob, ir.2.taken ob)) else none

/-- The server on non-blocking sockets. -/
def pressed (cfg : Config) : Machine Server (ServerInput × WriteResult) (ServerObs × List UInt8) :=
  ⟨Server.init cfg, Server.pressedStep cfg⟩

/-- The bytes sent on connection `c`. -/
def streamTo (c : ℕ) (o : List (ServerObs × List UInt8)) : List UInt8 :=
  o.flatMap fun
    | (.wrote _ _ file _, taken) => if file = some (.conn c) then taken else []
    | _ => []

/-- Complete packets, and then at most the beginning of one more. -/
def PacketStream (packets : List (List UInt8)) (stream : List UInt8) : Prop :=
  ∃ (ps : List (List UInt8)) (part : List UInt8), (∀ p ∈ ps, p ∈ packets) ∧
    (part = [] ∨ ∃ p ∈ packets, part <+: p) ∧ stream = ps.flatten ++ part

variable {cfg : Config}

theorem streamTo_append (c : ℕ) (o e : List (ServerObs × List UInt8)) :
    streamTo c (o ++ e) = streamTo c o ++ streamTo c e := List.flatMap_append

/-! ### Steps without a short write -/

/-- A write to connection `c` takes the whole buffer or nothing. -/
def WriteResult.WholeFor (c : ℕ) (r : WriteResult) : ServerObs → Prop
  | .wrote _ _ file bytes => file = some (.conn c) → r = .again ∨ r = .took bytes.length
  | _ => True

instance (c : ℕ) (r : WriteResult) : (ob : ServerObs) → Decidable (r.WholeFor c ob)
  | .wrote _ _ file bytes =>
    inferInstanceAs (Decidable (file = some (.conn c) → r = .again ∨ r = .took bytes.length))
  | .ignored _ _ => isTrue trivial
  | .accepted _ _ => isTrue trivial
  | .received _ _ _ => isTrue trivial
  | .learned _ _ _ => isTrue trivial
  | .ended _ _ => isTrue trivial

/-- A step in which no write to `c` is short; and `tun_file` is not the number of a connection. -/
def Unpressed (cfg : Config) (c : ℕ) (s : Server) (_ : List (ServerObs × List UInt8))
    (ir : ServerInput × WriteResult) : Prop :=
  isConn (s.fds cfg.tunFile) = false ∧
    match s.step cfg ir.1 with
    | none => True
    | some r => ∀ ob ∈ r.2, ir.2.WholeFor c ob

instance (c : ℕ) (s : Server) (o : List (ServerObs × List UInt8))
    (ir : ServerInput × WriteResult) : Decidable (Unpressed cfg c s o ir) :=
  haveI : Decidable (match s.step cfg ir.1 with
      | none => True
      | some r => ∀ ob ∈ r.2, ir.2.WholeFor c ob) :=
    match s.step cfg ir.1 with
    | none => isTrue trivial
    | some r => inferInstanceAs (Decidable (∀ ob ∈ r.2, ir.2.WholeFor c ob))
  inferInstanceAs (Decidable (_ ∧ _))

/-- A step of the machine is a step of the server. -/
theorem step_of_pressedStep {s s' : Server} {ir : ServerInput × WriteResult}
    {e : List (ServerObs × List UInt8)} (hs : s.pressedStep cfg ir = some (s', e)) :
    ∃ e', s.step cfg ir.1 = some (s', e') ∧ e = e'.map fun ob => (ob, ir.2.taken ob) := by
  obtain ⟨⟨t, e'⟩, hstep, hs⟩ := Option.bind_eq_some_iff.mp hs
  by_cases hfits : e'.all ir.2.fits = true
  · rw [if_pos hfits] at hs
    obtain ⟨rfl, rfl⟩ := Prod.mk.inj (Option.some.inj hs)
    exact ⟨e', hstep, rfl⟩
  · rw [if_neg hfits] at hs
    cases hs

/-- What is sent in writes that are whole or nothing are some of the buffers written. -/
theorem streamTo_whole {c : ℕ} {r : WriteResult} (e : List ServerObs)
    (h : ∀ ob ∈ e, r.WholeFor c ob) :
    ∃ ps : List (List UInt8), ps.Sublist (writesTo c e) ∧
      streamTo c (e.map fun ob => (ob, r.taken ob)) = ps.flatten := by
  induction e with
  | nil => exact ⟨[], List.Sublist.refl _, rfl⟩
  | cons ob e ih =>
    obtain ⟨ps, hsub, hstream⟩ := ih fun ob' hob' => h ob' (List.mem_cons_of_mem _ hob')
    have hcons : ∀ (x : ServerObs), streamTo c ((x :: e).map fun ob => (ob, r.taken ob))
        = streamTo c [(x, r.taken x)] ++ ps.flatten := by
      intro x
      rw [List.map_cons, ← List.singleton_append, streamTo_append, hstream]
    rw [hcons]
    cases ob with
    | wrote src fd file bytes =>
      by_cases hfile : file = some (.conn c)
      · have hwrites : writesTo c (.wrote src fd file bytes :: e) = bytes :: writesTo c e := by
          simp [writesTo, hfile]
        have hsent : streamTo c [(.wrote src fd file bytes, r.taken (.wrote src fd file bytes))]
            = bytes.take r.count := by
          simp [streamTo, hfile, WriteResult.taken]
        rw [hwrites, hsent]
        -- nothing is taken, or the whole buffer is
        rcases h _ List.mem_cons_self hfile with rfl | rfl
        · exact ⟨ps, hsub.trans (List.sublist_cons_self _ _), by simp [WriteResult.count]⟩
        · exact ⟨bytes :: ps, hsub.cons_cons _, by simp [WriteResult.count]⟩
      · have hwrites : writesTo c (.wrote src fd file bytes :: e) = writesTo c e := by
          simp [writesTo, hfile]
        rw [hwrites]
        exact ⟨ps, hsub, by simp [streamTo, hfile]⟩
    | _ => exact ⟨ps, hsub, rfl⟩

/-- **Packet atomicity.**  In every run without a short write to connection `c`, what is sent on
    it are complete packets read from TUN, in the order they were read; a packet that meets a full
    socket is left out as a whole. -/
theorem packets_whole (c : ℕ) (is : List (ServerInput × WriteResult)) (s : Server)
    (o : List (ServerObs × List UInt8)) (halong : (pressed cfg).Along (Unpressed cfg c) is)
    (hrun : (pressed cfg).run is = some (s, o)) :
    ∃ ps : List (List UInt8), ps.Sublist (tunReads (o.map Prod.fst)) ∧ streamTo c o = ps.flatten := by
  have hboth := Machine.run_induct_along (C := Unpressed cfg c)
    (P := fun _ s o => Sane cfg s ∧
      ∃ ps : List (List UInt8), ps.Sublist (tunReads (o.map Prod.fst)) ∧ streamTo c o = ps.flatten)
    ⟨sane_init, [], List.Sublist.refl _, rfl⟩ ?_ is s o halong hrun
  · exact hboth.2
  rintro is ir s o s' e - ⟨hsane, ps, hsub, hstream⟩ ⟨htun, hwhole⟩ hs
  obtain ⟨e', hstep, rfl⟩ := step_of_pressedStep hs
  rw [hstep] at hwhole
  obtain ⟨qs, hqs, hsent⟩ := streamTo_whole e' hwhole
  refine ⟨sane_step hsane hstep, ps ++ qs, ?_, ?_⟩
  · have hfst : (e'.map fun ob => (ob, ir.2.taken ob)).map Prod.fst = e' := by
      rw [List.map_map]
      exact List.map_id _
    rw [List.map_append, tunReads_append, hfst]
    exact hsub.append (hqs.trans (written_of_step hsane htun hstep c))
  · rw [streamTo_append, hstream, hsent, List.flatten_append]

/-! ### A short write -/

/-- The inputs of a run, all of whose writes return this. -/
def withResult (r : WriteResult) (is : List ServerInput) : List (ServerInput × WriteResult) :=
  is.map fun i => (i, r)

/-- Two packets from TUN for a client known as `fe80::1`; the writes return these results. -/
def twoPackets (first second : WriteResult) : List (ServerInput × WriteResult) :=
  withResult (.took 40) (connects 7 ++ delivers 7 [helloOf 1]) ++
    withResult first (delivers 3 [packetOf (linkLocal 2) (linkLocal 1)]) ++
    withResult second (delivers 3 [packetOf (linkLocal 3) (linkLocal 1)])

/-- `packets_whole` when the first packet meets a full socket: the stream is the second one. -/
theorem packets_whole_again :
    ∃ s o, (pressed Config.sample).run (twoPackets .again (.took 40)) = some (s, o) ∧
      streamTo 0 o = packetOf (linkLocal 3) (linkLocal 1) ∧
      ∃ ps : List (List UInt8), ps.Sublist (tunReads (o.map Prod.fst)) ∧ streamTo 0 o = ps.flatten := by
  obtain ⟨s, o, hrun, hstream⟩ :
      ∃ s o, (pressed Config.sample).run (twoPackets .again (.took 40)) = some (s, o) ∧
        streamTo 0 o = packetOf (linkLocal 3) (linkLocal 1) :=
    (pressed Config.sample).exists_run (by decide +kernel)
  exact ⟨s, o, hrun, hstream,
    packets_whole 0 _ s o (Machine.along_of_alongFrom (by decide +kernel)) hrun⟩

/-- Two packets of 40 bytes, the first of which is cut after 20. -/
theorem not_packetStream {p q : List UInt8} (hp : p.length = 40) (hq : q.length = 40)
    (hne : p.take 20 ++ q.take 20 ≠ p) (hne' : p.take 20 ++ q.take 20 ≠ q) :
    ¬ PacketStream [p, q] (p.take 20 ++ q) := by
  rintro ⟨ps, part, hps, hpart, heq⟩
  have hlen : ∀ x ∈ [p, q], x.length = 40 := by simp [hp, hq]
  have hpartlen : part.length ≤ 40 := by
    rcases hpart with rfl | ⟨x, hx, hprefix⟩
    · simp
    · rw [← hlen x hx]
      exact hprefix.length_le
  -- sixty bytes are one packet and twenty bytes more
  cases ps with
  | nil =>
    have hsum := congrArg List.length heq
    simp only [List.length_append, List.length_take, hp, hq, List.flatten_nil, List.length_nil]
      at hsum
    omega
  | cons x ps =>
    have hx := hps x List.mem_cons_self
    have hfirst := congrArg (List.take 40) heq
    rw [List.flatten_cons, List.append_assoc, List.take_left' (hlen x hx), List.take_append,
      List.take_take, List.length_take, hp] at hfirst
    simp only [List.mem_cons, List.not_mem_nil, or_false] at hx
    rcases hx with rfl | rfl
    · exact hne hfirst
    · exact hne' hfirst

/-- The first packet is cut after 20 bytes, and the second one follows: the stream does not
    consist of packets, whatever may come behind it. -/
theorem stream_torn :
    ∃ s o, (pressed Config.sample).run (twoPackets (.took 20) (.took 40)) = some (s, o) ∧
      ¬ PacketStream (tunReads (o.map Prod.fst)) (streamTo 0 o) := by
  obtain ⟨s, o, hrun, hreads, hstream⟩ :
      ∃ s o, (pressed Config.sample).run (twoPackets (.took 20) (.took 40)) = some (s, o) ∧
        tunReads (o.map Prod.fst)
          = [packetOf (linkLocal 2) (linkLocal 1), packetOf (linkLocal 3) (linkLocal 1)] ∧
        streamTo 0 o = (packetOf (linkLocal 2) (linkLocal 1)).take 20 ++
          packetOf (linkLocal 3) (linkLocal 1) :=
    (pressed Config.sample).exists_run (by decide +kernel)
  refine ⟨s, o, hrun, ?_⟩
  rw [hreads, hstream]
  exact not_packetStream (by decide) (by decide) (by decide) (by decide)

end Gap.Tunnel
