import Gap.Bcp.Driver

namespace Gap.Bcp

/-!
# What the callbacks make of received bytes

Both completion callbacks take a length from one of the first two bytes of `spi_data_buffer` and
hand that many bytes to user space.  Only 40 bytes come in with a transfer, and whether it went
well is in `spi_msg.status`, which neither callback reads.

* `EndedTransfer` — what a transfer leaves; `decoded` — what a callback makes of it.
* `only_received_published` — the transfers after which only received bytes are published.
* `ShortFrame` — a frame that fits the transfer also behind a spurious zero byte.
* `published_frame`, `published_glitch` — what is published of it without and with that byte.
-/

@[instance] theorem neZero_40 : NeZero 40 := ⟨by decide⟩

/-- What a transfer leaves: the bytes at the front of `spi_data_buffer`, and `spi_msg.status`. -/
structure EndedTransfer where
  rx : Buf 40
  status : ℤ

/-- The device in which the callback of the transfer is entered. -/
def EndedTransfer.received (t : EndedTransfer) (dev : Driver) : Driver :=
  dev.receive (t.rx.front spiTransferLen)

/-- What the callback makes of the transfer. -/
def decoded (t : EndedTransfer) (dev : Driver) (c : Completion) : Driver × Bool :=
  c.done (t.received dev)

/-- The byte taken for the length: the second one behind a zero. -/
def lengthByte (rx : Buf 40) : UInt8 := if rx 0 = 0 then rx 1 else rx 0

/-! ### Received bytes -/

/-- The callback publishes nothing, or the transfer has succeeded and all that is published was
    received with it.  The `memcpy` has as many bytes as are published, so that it stays inside
    `spi_data_buffer` and `buf_to_user`. -/
def OnlyReceived (t : EndedTransfer) (dev : Driver) (c : Completion) : Prop :=
  decoded t dev c = (t.received dev, false) ∨
    (t.status = 0 ∧ (decoded t dev c).1.published <:+: t.rx.front spiTransferLen ∧
      (decoded t dev c).1.bufToUserLen ≤ spiTransferLen)

theorem received_apply (t : EndedTransfer) (dev : Driver) {i : ℕ} (hi : i < 40) :
    (t.received dev).spiDataBuffer (Fin.castLE (Nat.le_add_right 40 88) ⟨i, hi⟩) = t.rx ⟨i, hi⟩ := by
  have hlen : i < (t.rx.front spiTransferLen).length := by
    rw [Buf.length_front]
    exact lt_min hi hi
  exact (receive_getElem dev hlen (by omega)).trans (Buf.getElem_front _ hlen)

/-- **Decoding.**  Two zero bytes publish nothing; anything else as many bytes as the length byte
    says, and one more. -/
theorem decoded_eq (t : EndedTransfer) (dev : Driver) (c : Completion) :
    decoded t dev c = if t.rx 0 = 0 ∧ t.rx 1 = 0 then (t.received dev, false)
      else (copyToUser (t.received dev) ((lengthByte t.rx).toNat + 1), true) := by
  have h0 : (t.received dev).spiDataBuffer 0 = t.rx 0 := received_apply t dev (by decide)
  have h1 : (t.received dev).spiDataBuffer 1 = t.rx 1 := received_apply t dev (by decide)
  unfold decoded lengthByte
  by_cases hno : t.rx 0 = 0 ∧ t.rx 1 = 0
  · have hdata : NoData (t.received dev).spiDataBuffer := by rwa [NoData, h0, h1]
    rw [if_pos hno, done_of_noData hdata]
  · rw [if_neg hno]
    by_cases hfirst : t.rx 0 = 0
    · have hdata : ¬ NoData (t.received dev).spiDataBuffer := by rwa [NoData, h0, h1]
      rw [done_of_eq_zero (h0.trans hfirst) hdata, h1, if_pos hfirst]
    · rw [done_of_ne_zero (by rwa [h0]), h0, if_neg hfirst]

/-- What a copy publishes when the transfer covers it. -/
theorem published_receive (dev : Driver) {miso : List UInt8} {len : ℕ} (h : len ≤ miso.length)
    (h128 : len ≤ 128) : (copyToUser (dev.receive miso) len).published = miso.take len := by
  rw [published_copyToUser _ (by omega), List.take_append_of_le_length (by simp; omega),
    Buf.take_front, Nat.min_eq_left h128, Driver.receive, Buf.front_copy _ h h128]

/-- **Only received bytes are published** exactly after a transfer whose first two bytes are zero,
    or that has succeeded with a length byte below 40. -/
theorem only_received_published (t : EndedTransfer) (dev : Driver) (c : Completion) :
    OnlyReceived t dev c ↔
      (t.rx 0 = 0 ∧ t.rx 1 = 0) ∨ (t.status = 0 ∧ (lengthByte t.rx).toNat < 40) := by
  have hlen : spiTransferLen = 40 := rfl
  unfold OnlyReceived
  rw [decoded_eq]
  by_cases hno : t.rx 0 = 0 ∧ t.rx 1 = 0
  · rw [if_pos hno]
    exact iff_of_true (.inl rfl) (.inl hno)
  · rw [if_neg hno]
    constructor
    · rintro (hnothing | ⟨hstatus, -, hle⟩)
      · cases congrArg Prod.snd hnothing
      · -- the length that was published is one more than the length byte
        change (lengthByte t.rx).toNat + 1 ≤ spiTransferLen at hle
        exact .inr ⟨hstatus, by omega⟩
    · rintro (hnothing | ⟨hstatus, hlt⟩)
      · exact absurd hnothing hno
      · refine .inr ⟨hstatus, ?_, by show _ + 1 ≤ _; omega⟩
        have hfits : (lengthByte t.rx).toNat + 1 ≤ (t.rx.front spiTransferLen).length := by
          rw [Buf.length_front]
          omega
        rw [EndedTransfer.received, published_receive dev hfits (by omega)]
        exact (List.take_prefix _ _).isInfix

/-- Noise: the length byte is 255. -/
def noise : EndedTransfer := ⟨fun _ => 0xff, 0⟩

/-- 256 bytes are published of a transfer of 40. -/
theorem noise_published : ¬ OnlyReceived noise Driver.init .readIrqDone := by
  rintro (hnothing | ⟨-, -, hle⟩)
  · exact absurd (congrArg Prod.snd hnothing) (by decide)
  · exact absurd hle (by decide)

/-! ### The spurious first byte -/

/-- A frame `L :: rest` with `L` the length of `rest`, short enough to fit the transfer behind one
    more byte. -/
structure ShortFrame where
  rest : List UInt8
  rest_pos : 1 ≤ rest.length
  rest_le : rest.length + 2 ≤ 40

namespace ShortFrame

/-- The bytes of the frame. -/
def bytes (f : ShortFrame) : List UInt8 := UInt8.ofNat f.rest.length :: f.rest

theorem toNat_length (f : ShortFrame) : (UInt8.ofNat f.rest.length).toNat = f.rest.length := by
  have hle := f.rest_le
  simp
  omega

theorem length_ne_zero (f : ShortFrame) : UInt8.ofNat f.rest.length ≠ 0 := by
  intro h
  have hnat := f.toNat_length
  have hpos := f.rest_pos
  rw [h] at hnat
  simp at hnat
  omega

end ShortFrame

/-- What a callback publishes of a transfer that delivers these bytes. -/
def publishedOf (miso : List UInt8) (dev : Driver) (c : Completion) : List UInt8 × ℕ :=
  let r := (c.done (dev.receive miso)).1
  (r.published, r.bufToUserLen)

/-- The frame is published the same behind the spurious zero byte as without it. -/
def GlitchTolerant (f : ShortFrame) (trail trail' : List UInt8) (dev : Driver) (c : Completion) :
    Prop :=
  publishedOf (0 :: f.bytes ++ trail) dev c = publishedOf (f.bytes ++ trail') dev c

instance (f : ShortFrame) (trail trail' : List UInt8) (dev : Driver) (c : Completion) :
    Decidable (GlitchTolerant f trail trail' dev c) :=
  inferInstanceAs (Decidable (_ = _))

/-- What is published of a transfer that covers the copy. -/
theorem publishedOf_of_done {miso : List UInt8} {dev : Driver} {c : Completion} {len : ℕ}
    (hdone : c.done (dev.receive miso) = (copyToUser (dev.receive miso) len, true))
    (h : len ≤ miso.length) (h128 : len ≤ 128) :
    publishedOf miso dev c = (miso.take len, len) := by
  simp only [publishedOf, hdone, published_receive dev h h128]
  rfl

theorem receive_cons_zero (dev : Driver) (x : UInt8) (miso : List UInt8) :
    (dev.receive (x :: miso)).spiDataBuffer 0 = x :=
  receive_getElem dev (show 0 < (x :: miso).length by simp) (by decide)

theorem receive_cons_one (dev : Driver) (x y : UInt8) (miso : List UInt8) :
    (dev.receive (x :: y :: miso)).spiDataBuffer 1 = y :=
  receive_getElem dev (show 1 < (x :: y :: miso).length by simp) (by decide)

/-- Without the spurious byte, the frame is published as it is. -/
theorem published_frame (f : ShortFrame) (trail : List UInt8) (dev : Driver) (c : Completion) :
    publishedOf (f.bytes ++ trail) dev c = (f.bytes, f.rest.length + 1) := by
  have hle := f.rest_le
  have hfirst : (dev.receive (f.bytes ++ trail)).spiDataBuffer 0 = UInt8.ofNat f.rest.length :=
    receive_cons_zero dev _ _
  have hlen : f.bytes.length = f.rest.length + 1 := rfl
  have hdone := done_of_ne_zero (by rw [hfirst]; exact f.length_ne_zero) c
  rw [hfirst, f.toNat_length] at hdone
  rw [publishedOf_of_done hdone (by simp [hlen]) (by omega), ← hlen, List.take_left]

/-- Behind it, the length is right and the bytes start one too early: the last one is missing. -/
theorem published_glitch (f : ShortFrame) (trail : List UInt8) (dev : Driver) (c : Completion) :
    publishedOf (0 :: f.bytes ++ trail) dev c = (0 :: f.bytes.dropLast, f.rest.length + 1) := by
  have hle := f.rest_le
  have hfirst : (dev.receive (0 :: f.bytes ++ trail)).spiDataBuffer 0 = 0 :=
    receive_cons_zero dev _ _
  have hsecond : (dev.receive (0 :: f.bytes ++ trail)).spiDataBuffer 1
      = UInt8.ofNat f.rest.length := receive_cons_one dev _ _ _
  have hdata : ¬ NoData (dev.receive (0 :: f.bytes ++ trail)).spiDataBuffer := by
    rw [NoData, hsecond]
    exact fun h => f.length_ne_zero h.2
  have hlen : f.bytes.length = f.rest.length + 1 := rfl
  have hdone := done_of_eq_zero hfirst hdata c
  rw [hsecond, f.toNat_length] at hdone
  rw [publishedOf_of_done hdone (by simp [hlen]; omega) (by omega), List.cons_append,
    List.take_succ_cons, List.take_append_of_le_length (by omega), List.dropLast_eq_take, hlen,
    Nat.add_sub_cancel]

/-- **The spurious first byte is never tolerated**: what is published starts with it. -/
theorem glitch_never_tolerated (f : ShortFrame) (trail trail' : List UInt8) (dev : Driver)
    (c : Completion) : ¬ GlitchTolerant f trail trail' dev c := by
  unfold GlitchTolerant
  rw [published_glitch, published_frame]
  intro h
  have hbytes : 0 :: f.bytes.dropLast = UInt8.ofNat f.rest.length :: f.rest :=
    congrArg Prod.fst h
  exact f.length_ne_zero (List.cons.inj hbytes).1.symm

/-- The frame `[2, 1, 7]`. -/
def ShortFrame.sample : ShortFrame := ⟨[1, 7], by decide, by decide⟩

/-- Behind a spurious zero byte, `[0, 2, 1]` is published of it. -/
theorem glitch_shifts_frame :
    ¬ GlitchTolerant .sample [] [] Driver.init .issueSimpleCommandDone := by
  decide

end Gap.Bcp
