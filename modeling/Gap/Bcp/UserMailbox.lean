import Gap.Bcp.Exclusive
import Gap.Lib.Mailbox

namespace Gap.Bcp

open Claim Mailbox

/-!
# The frame for user space

`buf_to_user` and `buf_to_user_len` hold one frame.  Callbacks store it, `nrf51822_read` copies it
out and then sets the length to 0; neither side takes a lock.

* `mail` — a trace of the radio as a history of a mailbox: frames stored, and what reads returned.
* `Apart` — a read copies only while a whole frame is held and no other read is under way,
  and no callback stores a length before that read has reset it.
* `Kept` — the invariant of the runs along `Apart`.
* `user_mailbox` — on these runs each read returns one stored frame, no frame is returned twice,
  and none is discarded by a read that did not return it.
-/

/-! ### Stored frames and returned frames -/

/-- The event of the mailbox an output is: frames are stored with the number of their message. -/
def RadioObs.mail : RadioObs → Option (Ev (ℕ × List UInt8) (List UInt8 × ℕ))
  | .stored n frame => some (.put (n, frame))
  | .returned buf userLen => some (.take (buf, userLen))
  | _ => none

/-- A trace as a history of the mailbox. -/
def mail (o : List RadioObs) : List (Ev (ℕ × List UInt8) (List UInt8 × ℕ)) :=
  o.filterMap RadioObs.mail

/-- A read has returned the bytes of the frame and its length. -/
def Shows (stored : ℕ × List UInt8) (returned : List UInt8 × ℕ) : Prop :=
  returned.1 = stored.2 ∧ returned.2 = stored.2.length

/-- The callback has copied its frame into `buf_to_user` and not yet stored the length. -/
def storing : List Stmt → Bool
  | .storeLen _ _ _ :: _ => true
  | _ => false

/-- The read has copied a frame and not yet reset the length. -/
def reading : List Stmt → Bool
  | .takeLen _ :: _ => true
  | .resetLen _ _ :: _ => true
  | _ => false

/-- The read is about to copy the frame to user space. -/
def copying : List Stmt → Bool
  | .copyOut :: _ => true
  | _ => false

/-- The next statement of a thread does not disturb the frame: a copy to user space that succeeds
    finds a whole frame and no other read after its copy, and a length is stored while no read is
    after its copy. -/
def Apart (s : Running) (_ : List RadioObs) : RadioInput → Prop
  | .resume k env => ∀ t ∈ s.threads[k]?,
      (copying t = true ∧ env.copied = true → 0 < s.radio.dev.bufToUserLen ∧
        ∀ u ∈ s.threads, storing u = false ∧ reading u = false) ∧
      (storing t = true → ∀ u ∈ s.threads, reading u = false)
  | _ => True

instance (s : Running) (o : List RadioObs) : (i : RadioInput) → Decidable (Apart s o i)
  | .interrupt => isTrue trivial
  | .ioctl _ => isTrue trivial
  | .read => isTrue trivial
  | .resume _ _ => Option.decidableForallMem _
  | .clocks _ => isTrue trivial
  | .transferEnds _ _ => isTrue trivial

/-! ### The invariant -/

/-- What a thread between two accesses to the frame has in its locals, while `stored` is held. -/
def Locals (dev : Driver) (stored : Option (ℕ × List UInt8)) : List Stmt → Prop
  | .storeLen _ b frame :: _ =>
    dev.bufToUser.front (b.toNat + 1) = frame ∧ frame.length = b.toNat + 1
  | .takeLen buf :: _ => ∃ x, stored = some x ∧ buf = x.2
  | .resetLen buf userLen :: _ => ∃ x, stored = some x ∧ Shows x (buf, userLen)
  | _ => True

/-- **The invariant.**  `buf_to_user_len` is the length of the frame held, `buf_to_user` has its
    bytes unless the next one is being stored, and at most one read is under way, with the frame
    held. -/
structure Kept (s : Running) (o : List RadioObs) : Prop where
  lawful : Lawful Shows (mail o)
  len : s.radio.dev.bufToUserLen = ((held (mail o)).map fun x => x.2.length).getD 0
  bytes : (∀ t ∈ s.threads, storing t = false) → ∀ x, held (mail o) = some x →
    s.radio.dev.bufToUser.front x.2.length = x.2
  locals : ∀ t ∈ s.threads, Locals s.radio.dev (held (mail o)) t
  one : s.threads.countP reading ≤ 1

theorem kept_init : Kept radio.init [] where
  lawful := atEach_nil _
  len := rfl
  bytes _ x hx := by cases hx
  locals := by simp [radio]
  one := Nat.zero_le 1

theorem mail_append (o e : List RadioObs) : mail (o ++ e) = mail o ++ mail e :=
  List.filterMap_append

/-- A thread that neither stores nor reads has no locals. -/
theorem locals_of_idle {t : List Stmt} (hs : storing t = false) (hr : reading t = false)
    (dev : Driver) (stored : Option (ℕ × List UInt8)) : Locals dev stored t := by
  cases t with
  | nil => trivial
  | cons stmt rest => cases stmt <;> trivial

/-- What a thread has stored does not depend on the frame held. -/
theorem Locals.of_not_reading {dev : Driver} {stored : Option (ℕ × List UInt8)} {t : List Stmt}
    (h : Locals dev stored t) (hr : reading t = false) (stored' : Option (ℕ × List UInt8)) :
    Locals dev stored' t := by
  cases t with
  | nil => trivial
  | cons stmt rest => cases stmt <;> trivial

/-- What a thread has read does not depend on `buf_to_user`. -/
theorem Locals.of_not_storing {dev : Driver} {stored : Option (ℕ × List UInt8)} {t : List Stmt}
    (h : Locals dev stored t) (hs : storing t = false) (dev' : Driver) :
    Locals dev' stored t := by
  cases t with
  | nil => trivial
  | cons stmt rest => cases stmt <;> trivial

/-- A thread that stores its frame holds the claim. -/
theorem storing_of_not_holds {t : List Stmt} (h : holds Stmt.use t = false) :
    storing t = false := by
  cases t with
  | nil => rfl
  | cons stmt rest => cases stmt <;> first | rfl | cases h

/-- What follows the next statement of a path neither stores nor reads. -/
theorem Path.idle_tail {stmt : Stmt} {rest : List Stmt} (h : Path (stmt :: rest)) :
    storing rest = false ∧ reading rest = false := by
  cases rest with
  | nil => exact ⟨rfl, rfl⟩
  | cons s rest =>
    have hs : ¬ s.Fresh := h.fresh s (by simp)
    cases s <;> first | exact ⟨rfl, rfl⟩ | exact absurd trivial hs

/-! ### Statements that leave the frame alone -/

/-- The statements that move a frame, or its length. -/
def Stmt.MovesFrame : Stmt → Prop
  | .copyToUser _ _ => True
  | .storeLen _ _ _ => True
  | .copyOut => True
  | .takeLen _ => True
  | .resetLen _ _ => True
  | _ => False

section
variable {s : Running} {o : List RadioObs} {pre post : List (List Stmt)} {rest : List Stmt}

/-- The other statements leave the frame alone. -/
theorem exec_still {env : Env} {r : Radio} {stmt : Stmt} {x : Radio × List Stmt × List RadioObs}
    (hx : stmt.exec env rest r = some x) (hpath : Path (stmt :: rest))
    (hstill : ¬ stmt.MovesFrame) :
    mail x.2.2 = [] ∧ x.1.dev.bufToUser = r.dev.bufToUser ∧
      x.1.dev.bufToUserLen = r.dev.bufToUserLen ∧ storing x.2.1 = false ∧
      reading x.2.1 = false := by
  have hrest := hpath.idle_tail
  cases stmt with
  | claim =>
    simp only [Stmt.exec] at hx
    split at hx
    · obtain rfl := Option.some.inj hx
      exact ⟨rfl, rfl, rfl, rfl, rfl⟩
    · obtain rfl := Option.some.inj hx
      exact ⟨rfl, rfl, rfl, hrest⟩
  | setUp w =>
    obtain rfl := Option.some.inj hx
    refine ⟨rfl, ?_, ?_, hrest⟩ <;> cases w <;> rfl
  | async =>
    simp only [Stmt.exec] at hx
    split at hx
    · obtain rfl := Option.some.inj hx
      exact ⟨rfl, rfl, rfl, hrest⟩
    · obtain rfl := Option.some.inj hx
      exact ⟨rfl, rfl, rfl, hrest⟩
  | decode n d =>
    obtain rfl := Option.some.inj hx
    refine ⟨rfl, rfl, rfl, ?_⟩
    cases d with
    | noData =>
      simp only [Decode.next]
      split
      · exact hrest
      · exact ⟨rfl, rfl⟩
    | firstByte => exact ⟨rfl, rfl⟩
    | lenAt i => exact ⟨rfl, rfl⟩
  | clearPending =>
    obtain rfl := Option.some.inj hx
    exact ⟨rfl, rfl, rfl, hrest⟩
  | wakeUp =>
    obtain rfl := Option.some.inj hx
    exact ⟨rfl, rfl, rfl, hrest⟩
  | checkIrq =>
    obtain rfl := Option.some.inj hx
    cases hline : env.line <;> exact ⟨rfl, rfl, rfl, rfl, rfl⟩
  | waitEvent =>
    obtain ⟨-, hx⟩ := Option.ite_none_right_eq_some.mp hx
    obtain rfl := Option.some.inj hx
    exact ⟨rfl, rfl, rfl, hrest⟩
  | _ => exact absurd trivial hstill

/-- A step that leaves the frame and its length alone. -/
theorem kept_same (h : Kept s o) {s' : Running} {e : List RadioObs} (he : mail e = [])
    (hbuf : s'.radio.dev.bufToUser = s.radio.dev.bufToUser)
    (hlen : s'.radio.dev.bufToUserLen = s.radio.dev.bufToUserLen)
    (hstoring : (∀ t ∈ s'.threads, storing t = false) → ∀ t ∈ s.threads, storing t = false)
    (hlocals : ∀ t ∈ s'.threads, Locals s.radio.dev (held (mail o)) t)
    (hone : s'.threads.countP reading ≤ 1) : Kept s' (o ++ e) := by
  have hmail : mail (o ++ e) = mail o := by rw [mail_append, he, List.append_nil]
  refine ⟨?_, ?_, fun hnone x hx => ?_, fun t ht => ?_, hone⟩
  · rw [hmail]
    exact h.lawful
  · rw [hmail, hlen]
    exact h.len
  · rw [hmail] at hx
    rw [hbuf]
    exact h.bytes (hstoring hnone) x hx
  · rw [hmail]
    have hlocal := hlocals t ht
    cases t with
    | nil => trivial
    | cons stmt rest =>
      cases stmt <;> first | trivial | (rw [Locals, hbuf]; exact hlocal)

/-- A thread that is idle before and after its statement. -/
theorem kept_still (h : Kept s o) {t t' : List Stmt} (hthreads : s.threads = pre ++ t :: post)
    (ht : storing t = false ∧ reading t = false) (ht' : storing t' = false ∧ reading t' = false)
    {r : Radio} {e : List RadioObs} (he : mail e = [])
    (hbuf : r.dev.bufToUser = s.radio.dev.bufToUser)
    (hlen : r.dev.bufToUserLen = s.radio.dev.bufToUserLen) :
    Kept ⟨r, pre ++ t' :: post⟩ (o ++ e) := by
  have hlocals := h.locals
  have hone := h.one
  rw [hthreads] at hlocals hone
  rw [countP_middle, ht.2] at hone
  refine kept_same h he hbuf hlen (fun hnone => ?_) ?_ ?_
  · rw [hthreads]
    exact forall_mem_middle.mpr ⟨ht.1, (forall_mem_middle.mp hnone).2⟩
  · exact forall_mem_middle.mpr
      ⟨locals_of_idle ht'.1 ht'.2 _ _, (forall_mem_middle.mp hlocals).2⟩
  · rw [countP_middle, ht'.2]
    exact hone

/-- A path is entered. -/
theorem kept_start (h : Kept s o) {t : List Stmt} (ht : storing t = false ∧ reading t = false)
    {r : Radio} {e : List RadioObs} (he : mail e = [])
    (hbuf : r.dev.bufToUser = s.radio.dev.bufToUser)
    (hlen : r.dev.bufToUserLen = s.radio.dev.bufToUserLen) :
    Kept ⟨r, s.threads ++ [t]⟩ (o ++ e) := by
  refine kept_same h he hbuf hlen (fun hnone u hu => hnone u (List.mem_append_left _ hu)) ?_ ?_
  · exact forall_mem_middle.mpr ⟨locals_of_idle ht.1 ht.2 _ _, by simpa using h.locals⟩
  · rw [countP_middle, ht.2, List.append_nil, Bool.toNat_false, Nat.zero_add]
    exact h.one

/-! ### Statements that move the frame -/

/-- The callback copies its frame into `buf_to_user`: the length is still that of the frame
    before. -/
theorem kept_copyToUser (h : Kept s o) (hexcl : Exclusive s o) {n : ℕ} {b : UInt8}
    (hthreads : s.threads = pre ++ (.copyToUser n b :: rest) :: post) {frame : List UInt8}
    (hframe : frame.length = b.toNat + 1) (rx : Buf 128) :
    Kept ⟨{ s.radio with dev.bufToUser := s.radio.dev.bufToUser.copy 0 frame },
      pre ++ (.storeLen n b frame :: rest) :: post⟩ (o ++ [RadioObs.readData n rx]) := by
  obtain ⟨-, hothers⟩ := hexcl.of_holds hthreads (holds_of_needs rfl)
  have hmail : mail (o ++ [RadioObs.readData n rx]) = mail o := by
    rw [mail_append]
    exact List.append_nil _
  have hlocals := h.locals
  have hone := h.one
  rw [hthreads] at hlocals hone
  rw [countP_middle] at hone
  refine ⟨by rw [hmail]; exact h.lawful, by rw [hmail]; exact h.len, fun hnone => ?_, ?_, ?_⟩
  · cases (forall_mem_middle.mp hnone).1
  · rw [hmail]
    have hb : b.toNat + 1 ≤ 256 := b.toNat_lt
    refine forall_mem_middle.mpr ⟨⟨?_, hframe⟩, fun t ht => ?_⟩
    · -- the frame fits, so its bytes are what is read back
      show (s.radio.dev.bufToUser.copy 0 frame).front (b.toNat + 1) = frame
      rw [Buf.front_copy _ hframe.ge hb, List.take_of_length_le hframe.le]
    · exact ((forall_mem_middle.mp hlocals).2 t ht).of_not_storing
        (storing_of_not_holds (hothers t ht)) _
  · rw [countP_middle]
    exact hone

/-- The callback stores the length: its frame is the one held. -/
theorem kept_storeLen (h : Kept s o) (hexcl : Exclusive s o) {n : ℕ} {b : UInt8}
    {frame : List UInt8} (hthreads : s.threads = pre ++ (.storeLen n b frame :: rest) :: post)
    (hpath : Path (.storeLen n b frame :: rest)) (hquiet : ∀ t ∈ s.threads, reading t = false) :
    Kept ⟨{ s.radio with dev.bufToUserLen := b.toNat + 1 }, pre ++ rest :: post⟩
      (o ++ [RadioObs.stored n frame]) := by
  obtain ⟨-, hothers⟩ := hexcl.of_holds hthreads (holds_of_needs rfl)
  have hmail : mail (o ++ [RadioObs.stored n frame]) = mail o ++ [.put (n, frame)] := mail_append _ _
  have hlocals := h.locals
  rw [hthreads] at hlocals hquiet
  obtain ⟨⟨hfront, hlength⟩, -⟩ := forall_mem_middle.mp hlocals
  have hquiet := (forall_mem_middle.mp hquiet).2
  refine ⟨?_, ?_, fun _ x hx => ?_, ?_, ?_⟩
  · rw [hmail]
    exact lawful_put.mpr h.lawful
  · rw [hmail, held_concat]
    exact hlength.symm
  · rw [hmail, held_concat] at hx
    obtain rfl : (n, frame) = x := Option.some.inj hx
    show s.radio.dev.bufToUser.front frame.length = frame
    rw [hlength]
    exact hfront
  · refine forall_mem_middle.mpr
      ⟨locals_of_idle hpath.idle_tail.1 hpath.idle_tail.2 _ _, fun t ht => ?_⟩
    exact locals_of_idle (storing_of_not_holds (hothers t ht)) (hquiet t ht) _ _
  · rw [countP_middle, hpath.idle_tail.2, List.countP_eq_zero.mpr fun t ht => by simp [hquiet t ht]]
    exact Nat.zero_le 1

/-- A read copies the frame held. -/
theorem kept_copyOut (h : Kept s o) (hthreads : s.threads = pre ++ (.copyOut :: rest) :: post)
    (hlen : 0 < s.radio.dev.bufToUserLen)
    (hquiet : ∀ t ∈ s.threads, storing t = false ∧ reading t = false) :
    Kept ⟨s.radio, pre ++
      (.takeLen (s.radio.dev.bufToUser.front s.radio.dev.bufToUserLen) :: rest) :: post⟩
      (o ++ []) := by
  rw [List.append_nil]
  have hbytes := h.bytes fun t ht => (hquiet t ht).1
  rw [hthreads] at hquiet
  have hothers := (forall_mem_middle.mp hquiet).2
  refine ⟨h.lawful, h.len, fun _ => hbytes, ?_, ?_⟩
  · refine forall_mem_middle.mpr
      ⟨?_, fun t ht => locals_of_idle (hothers t ht).1 (hothers t ht).2 _ _⟩
    -- a positive length is that of a frame held
    have hheld := h.len
    cases hx : held (mail o) with
    | none =>
      rw [hx] at hheld
      exact absurd hheld hlen.ne'
    | some x =>
      rw [hx] at hheld
      refine ⟨x, rfl, ?_⟩
      rw [hheld]
      exact hbytes x hx
  · rw [countP_middle, List.countP_eq_zero.mpr fun t ht => by simp [(hothers t ht).2]]
    exact Nat.le_refl 1

/-- A read takes the length of the frame it has copied. -/
theorem kept_takeLen (h : Kept s o) {buf : List UInt8}
    (hthreads : s.threads = pre ++ (.takeLen buf :: rest) :: post) :
    Kept ⟨s.radio, pre ++ (.resetLen buf s.radio.dev.bufToUserLen :: rest) :: post⟩
      (o ++ []) := by
  rw [List.append_nil]
  have hlocals := h.locals
  have hone := h.one
  have hbytes := h.bytes
  rw [hthreads] at hlocals hone hbytes
  rw [countP_middle] at hone
  obtain ⟨⟨x, hx, hbuf⟩, hothers⟩ := forall_mem_middle.mp hlocals
  refine ⟨h.lawful, h.len, fun hnone => hbytes ?_, ?_, ?_⟩
  · exact forall_mem_middle.mpr ⟨rfl, (forall_mem_middle.mp hnone).2⟩
  · refine forall_mem_middle.mpr ⟨⟨x, hx, hbuf, ?_⟩, hothers⟩
    have hlen := h.len
    rw [hx] at hlen
    exact hlen
  · rw [countP_middle]
    exact hone

/-- A read resets the length: it returns the frame held, and no other read has it. -/
theorem kept_resetLen (h : Kept s o) {buf : List UInt8} {userLen : ℕ}
    (hthreads : s.threads = pre ++ (.resetLen buf userLen :: rest) :: post)
    (hpath : Path (.resetLen buf userLen :: rest)) :
    Kept ⟨{ s.radio with dev.bufToUserLen := 0 }, pre ++ rest :: post⟩
      (o ++ [RadioObs.returned buf userLen]) := by
  have hmail : mail (o ++ [RadioObs.returned buf userLen]) = mail o ++ [.take (buf, userLen)] :=
    mail_append _ _
  have hlocals := h.locals
  have hone := h.one
  rw [hthreads] at hlocals hone
  obtain ⟨⟨x, hx, hshows⟩, hothers⟩ := forall_mem_middle.mp hlocals
  have hquiet : (pre ++ post).countP reading = 0 := by
    rw [countP_middle, show reading (.resetLen buf userLen :: rest) = true from rfl,
      Bool.toNat_true] at hone
    omega
  refine ⟨?_, ?_, fun _ y hy => ?_, ?_, ?_⟩
  · rw [hmail]
    exact lawful_take.mpr ⟨h.lawful, x, hx, hshows⟩
  · rw [hmail, held_concat]
    rfl
  · rw [hmail, held_concat] at hy
    cases hy
  · refine forall_mem_middle.mpr
      ⟨locals_of_idle hpath.idle_tail.1 hpath.idle_tail.2 _ _, fun t ht => ?_⟩
    have hreading : reading t = false := by simpa using List.countP_eq_zero.mp hquiet t ht
    have hstored := (hothers t ht).of_not_reading hreading
      (held (mail (o ++ [RadioObs.returned buf userLen])))
    cases t with
    | nil => trivial
    | cons stmt rest => cases stmt <;> trivial
  · rw [countP_middle, hpath.idle_tail.2, hquiet]
    exact Nat.zero_le 1

/-- **Step lemma.** -/
theorem kept_resume (h : Kept s o) (hexcl : Exclusive s o) {k : ℕ} {env : Env} {stmt : Stmt}
    (hC : Apart s o (.resume k env)) (hk : s.threads[k]? = some (stmt :: rest))
    {x : Radio × List Stmt × List RadioObs} (hx : stmt.exec env rest s.radio = some x) :
    Kept ⟨x.1, s.threads.set k x.2.1⟩ (o ++ x.2.2) := by
  have hpath : Path (stmt :: rest) := hexcl.paths _ (List.mem_of_getElem? hk)
  obtain ⟨pre, post, hthreads, hset, -⟩ := split_of_getElem? hk
  rw [hset]
  obtain ⟨hcopy, hstore⟩ := hC _ hk
  cases stmt with
  | copyToUser n b =>
    obtain rfl := Option.some.inj hx
    refine kept_copyToUser h hexcl hthreads ?_ _
    have hb : b.toNat < 256 := b.toNat_lt
    simp
    omega
  | storeLen n b frame =>
    obtain rfl := Option.some.inj hx
    exact kept_storeLen h hexcl hthreads hpath (hstore rfl)
  | copyOut =>
    simp only [Stmt.exec] at hx
    split at hx
    · next hcopied =>
      obtain rfl := Option.some.inj hx
      obtain ⟨hlen, hquiet⟩ := hcopy ⟨rfl, hcopied⟩
      exact kept_copyOut h hthreads hlen hquiet
    · -- the copy fails, and the read gives up
      obtain rfl := Option.some.inj hx
      exact kept_still h hthreads ⟨rfl, rfl⟩ ⟨rfl, rfl⟩ rfl rfl rfl
  | takeLen buf =>
    obtain rfl := Option.some.inj hx
    exact kept_takeLen h hthreads
  | resetLen buf userLen =>
    obtain rfl := Option.some.inj hx
    exact kept_resetLen h hthreads hpath
  | _ =>
    obtain ⟨he, hbuf, hlen, hidle⟩ := exec_still hx hpath (fun hmoves => hmoves)
    exact kept_still h hthreads ⟨rfl, rfl⟩ hidle he hbuf hlen

end

/-- **Run lemma.** -/
theorem kept_of_run (is : List RadioInput) (s : Running) (o : List RadioObs)
    (hC : radio.Along Apart is) (hrun : radio.run is = some (s, o)) : Kept s o := by
  refine Machine.run_induct_along (P := fun _ s o => Kept s o) kept_init ?_ is s o hC hrun
  intro is i s o s' e hrun h hCi hs
  have hexcl := exclusive_of_run is s o hrun
  cases i with
  | interrupt =>
    obtain ⟨rfl, rfl⟩ := Prod.mk.inj (Option.some.inj hs)
    exact kept_start h ⟨rfl, rfl⟩ rfl rfl rfl
  | ioctl command =>
    obtain ⟨rfl, rfl⟩ := Prod.mk.inj (Option.some.inj hs)
    exact kept_start h ⟨rfl, rfl⟩ rfl rfl rfl
  | read =>
    obtain ⟨rfl, rfl⟩ := Prod.mk.inj (Option.some.inj hs)
    exact kept_start h ⟨rfl, rfl⟩ rfl rfl rfl
  | resume k env =>
    replace hs : s.step (.resume k env) = some (s', e) := hs
    simp only [Running.step] at hs
    split at hs
    · next stmt rest hk =>
      obtain ⟨x, hx, heq⟩ := Option.map_eq_some_iff.mp hs
      obtain ⟨rfl, rfl⟩ := Prod.mk.inj heq
      exact kept_resume h hexcl hCi hk hx
    · cases hs
  | clocks miso =>
    obtain ⟨-, hs⟩ := Option.ite_none_left_eq_some.mp hs
    obtain ⟨rfl, rfl⟩ := Prod.mk.inj (Option.some.inj hs)
    exact kept_same h rfl rfl rfl id h.locals h.one
  | transferEnds j miso =>
    replace hs : s.step (.transferEnds j miso) = some (s', e) := hs
    simp only [Running.step] at hs
    split at hs
    · cases hs
    · next m hj =>
      obtain ⟨rfl, rfl⟩ := Prod.mk.inj (Option.some.inj hs)
      refine kept_start h ?_ rfl rfl rfl
      -- the callback starts with the test of its data
      unfold Radio.callback
      split
      · exact ⟨rfl, rfl⟩
      · next c _ => cases c <;> exact ⟨rfl, rfl⟩

/-- **The user mailbox.**  If each read copies while a whole frame is held and no other read is
    after its copy, and no callback stores a length while a read is, then the reads return stored
    frames, bytes and length, in order and each at most once; each read returns the frame its reset
    discards; and a stored frame is still held, returned by the next read, or overwritten by the
    next frame. -/
theorem user_mailbox (is : List RadioInput) (s : Running) (o : List RadioObs)
    (hC : radio.Along Apart is) (hrun : radio.run is = some (s, o)) :
    (∃ frames, frames.Sublist (puts (mail o)) ∧ List.Forall₂ Shows frames (takes (mail o))) ∧
      Lawful Shows (mail o) ∧
      ∀ pre x post, mail o = pre ++ .put x :: post →
        post = [] ∨ (∃ y rest, post = .take y :: rest ∧ Shows x y) ∨
          ∃ x' rest, post = .put x' :: rest := by
  have hlaw := (kept_of_run is s o hC hrun).lawful
  exact ⟨takes_sublist hlaw, hlaw, fun pre x post heq => put_fate hlaw heq⟩

/-- A frame is received and stored, and then read. -/
def storeThenRead : List RadioInput :=
  .interrupt :: goOn 0 12 ++ [.transferEnds 0 [2, 1, 7]] ++ goOn 1 5 ++ [.read] ++ goOn 2 4

/-- `user_mailbox` on that run. -/
theorem user_mailbox_storeThenRead :
    ∃ s o, radio.run storeThenRead = some (s, o) ∧ takes (mail o) = [([2, 1, 7], 3)] ∧
      Lawful Shows (mail o) := by
  obtain ⟨s, o, hrun, htakes⟩ :
      ∃ s o, radio.run storeThenRead = some (s, o) ∧ takes (mail o) = [([2, 1, 7], 3)] :=
    radio.exists_run (by decide +kernel)
  exact ⟨s, o, hrun, htakes, (user_mailbox storeThenRead s o
    (Machine.along_of_alongFrom (by decide +kernel)) hrun).2.1⟩

/-- A second frame is stored between the copy and the reset of a read. -/
def storeDuringRead : List RadioInput :=
  .interrupt :: goOn 0 12 ++ [.transferEnds 0 [2, 1, 7]] ++ goOn 1 7 ++ [.read] ++ goOn 2 2 ++
    .interrupt :: goOn 3 12 ++ [.transferEnds 0 [3, 1, 8, 8]] ++ goOn 4 5 ++ goOn 2 2

/-- The read returns the bytes of the first frame with the length of the second, and its reset
    discards the second, which no read has returned. -/
theorem frame_lost :
    ∃ s o, radio.run storeDuringRead = some (s, o) ∧
      puts (mail o) = [(1, [2, 1, 7]), (2, [3, 1, 8, 8])] ∧ takes (mail o) = [([2, 1, 7], 4)] ∧
      s.radio.dev.bufToUserLen = 0 ∧
      ¬ ∃ frames, frames.Sublist (puts (mail o)) ∧ List.Forall₂ Shows frames (takes (mail o)) := by
  obtain ⟨s, o, hrun, hputs, htakes, hlen⟩ :
      ∃ s o, radio.run storeDuringRead = some (s, o) ∧
        puts (mail o) = [(1, [2, 1, 7]), (2, [3, 1, 8, 8])] ∧
        takes (mail o) = [([2, 1, 7], 4)] ∧ s.radio.dev.bufToUserLen = 0 :=
    radio.exists_run (by decide +kernel)
  refine ⟨s, o, hrun, hputs, htakes, hlen, ?_⟩
  rintro ⟨frames, -, hshows⟩
  rw [htakes] at hshows
  -- no frame of three bytes has the length 4
  obtain ⟨x, rest, ⟨hbytes, hlength⟩, -, -⟩ := List.forall₂_cons_right_iff.mp hshows
  have hbytes : [2, 1, 7] = x.2 := hbytes
  rw [← hbytes] at hlength
  cases hlength

end Gap.Bcp
