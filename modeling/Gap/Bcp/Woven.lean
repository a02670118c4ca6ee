import Gap.Bcp.Weave
import Gap.Lib.Refine

namespace Gap.Bcp

open Claim

/-!
# Statements refine handlers

What `spi_pending` guards is seen by nobody else: a submission may as well happen at its claim, and
a callback may as well publish when it clears `spi_pending`.  So the threads that take turns after
every statement do what the link does in whole handlers and parts of callbacks.

* `split` — the link, with an interrupt split at the claim it makes.
* `Follows`, `Woven` — the relation between the two.
* `follows_turn`, `woven_step` — every statement is matched by a few steps of the link, or none.
* `statements_refine` — every run of `weave` is one of `split`.
-/

/-! ### The link it follows -/

/-- An interrupt handler before its claim is like a callback that has sampled a high line. -/
def Link.enter (l : Link) : Link :=
  { l with edge := false, callbacks := l.callbacks ++ [⟨.readIrqDone, .sampled true⟩] }

/-- A step of the link, or an interrupt handler is entered. -/
inductive SplitInput
  | link (i : LinkInput)
  | enter

/-- The link, with interrupts split at the claim. -/
def split : Machine Link SplitInput WireObs where
  init := Link.init
  step l
    | .link i => wire.step l i
    | .enter => if l.edge then some (l.enter, []) else none

/-! ### The relation -/

/-- `spi_command_buffer` once a thread that prepares a message is done. -/
def settle : List Stmt → Buf 128 → Buf 128
  | .setUp (.command byte) :: rest, b => settle rest (Function.update b 0 byte)
  | .setUp _ :: rest, b => settle rest b
  | _, b => b

/-- `spi_command_buffer` once all of them are. -/
def Running.commandBuffer (s : Running) : Buf 128 :=
  s.threads.foldl (fun b t => settle t b) s.radio.dev.spiCommandBuffer

/-- The link `l` has done what the threads have done, what they claimed included: their messages
    are at the SPI core, their callbacks at the same stages, and the frames stored are published,
    but for one whose thread has not given up its claim. -/
structure Follows (s : Running) (frames : List (List UInt8)) (l : Link)
    (published : List (List UInt8)) : Prop where
  outstanding : l.outstanding.length = s.radio.outstanding.length + s.threads.countP preparing
  sized : l.Sized
  callbacks : l.callbacks.map Callback.stage = s.threads.filterMap stageOf
  pending : l.drv.spiPending = s.radio.dev.spiPending
  command : l.drv.spiCommandBuffer = s.commandBuffer
  /-- While bytes come in, `spi_data_buffer` differs where the whole transfer will write it. -/
  data : ∀ miso, miso.length = spiTransferLen →
    l.drv.spiDataBuffer.copy 0 miso = s.radio.dev.spiDataBuffer.copy 0 miso
  received : s.radio.outstanding = [] → l.drv.spiDataBuffer = s.radio.dev.spiDataBuffer
  after : l.drv.afterSpiDataBuffer = s.radio.dev.afterSpiDataBuffer
  frames : frames = published ++
    if s.threads.any handing then s.radio.dev.decoded.toList else []

/-- The relation between the woven system and the link, with their traces. -/
structure Woven (s : Weave) (o : List WeaveObs) (l : Link) (ol : List WireObs) : Prop where
  sound : Sound s.drv (driverIn o)
  fw : l.fw = s.fw
  edge : l.edge = s.edge
  xferDone : l.xferDone = s.xferDone
  shown : shownBy ol = firmwareIn o
  follows : Follows s.drv (framesIn (driverIn o)) l (publishedIn ol)

theorem woven_init : Woven weave.init [] split.init [] where
  sound := sound_init
  fw := rfl
  edge := rfl
  xferDone := rfl
  shown := rfl
  follows :=
    { outstanding := rfl
      sized := by simp [Link.Sized, split, Link.init]
      callbacks := rfl
      pending := rfl
      command := rfl
      data := fun _ _ => rfl
      received := fun _ => rfl
      after := rfl
      frames := rfl }

theorem settle_of_not_preparing {t : List Stmt} (h : preparing t = false) (b : Buf 128) :
    settle t b = b := by
  cases t with
  | nil => rfl
  | cons stmt rest => cases stmt <;> first | rfl | cases h

/-- A thread without the claim neither prepares a message nor hands a frame over. -/
theorem idle_of_not_holds {t : List Stmt} (h : holds Stmt.use t = false) :
    preparing t = false ∧ handing t = false := by
  cases t with
  | nil => exact ⟨rfl, rfl⟩
  | cons stmt rest => cases stmt <;> first | exact ⟨rfl, rfl⟩ | cases h

theorem all_idle_of_not_holds {ts : List (List Stmt)}
    (h : ∀ t ∈ ts, holds Stmt.use t = false) :
    (∀ t ∈ ts, preparing t = false) ∧ ∀ t ∈ ts, handing t = false :=
  ⟨fun t ht => (idle_of_not_holds (h t ht)).1, fun t ht => (idle_of_not_holds (h t ht)).2⟩

theorem foldl_settle {ts : List (List Stmt)} (h : ∀ t ∈ ts, preparing t = false) (b : Buf 128) :
    ts.foldl (fun b t => settle t b) b = b := by
  induction ts generalizing b with
  | nil => rfl
  | cons t ts ih =>
    obtain ⟨ht, hts⟩ := List.forall_mem_cons.mp h
    rw [List.foldl_cons, settle_of_not_preparing ht]
    exact ih hts b

section
variable {s : Running} {pre post : List (List Stmt)} {t t' : List Stmt}

/-- Only one thread prepares a message. -/
theorem commandBuffer_middle (hthreads : s.threads = pre ++ t :: post)
    (hothers : ∀ u ∈ pre ++ post, preparing u = false) :
    s.commandBuffer = settle t s.radio.dev.spiCommandBuffer := by
  rw [Running.commandBuffer, hthreads, List.foldl_append, List.foldl_cons,
    foldl_settle fun u hu => hothers u (List.mem_append_left _ hu),
    foldl_settle fun u hu => hothers u (List.mem_append_right _ hu)]

/-- A thread that prepares none can be put for another one. -/
theorem commandBuffer_congr (hthreads : s.threads = pre ++ t :: post) (ht : preparing t = false)
    (ht' : preparing t' = false) {r' : Radio}
    (hbuf : r'.dev.spiCommandBuffer = s.radio.dev.spiCommandBuffer) :
    (⟨r', pre ++ t' :: post⟩ : Running).commandBuffer = s.commandBuffer := by
  simp only [Running.commandBuffer, hthreads, hbuf, List.foldl_append, List.foldl_cons,
    settle_of_not_preparing ht, settle_of_not_preparing ht']

theorem any_handing_of_none {us : List (List Stmt)} (h : ∀ u ∈ us, handing u = false) :
    us.any handing = false :=
  List.any_eq_false.mpr fun u hu => by simp [h u hu]

theorem any_handing_middle (hothers : ∀ u ∈ pre ++ post, handing u = false) :
    (pre ++ t :: post).any handing = handing t := by
  rw [List.any_append, List.any_cons,
    any_handing_of_none fun u hu => hothers u (List.mem_append_left _ hu),
    any_handing_of_none fun u hu => hothers u (List.mem_append_right _ hu), Bool.false_or,
    Bool.or_false]

/-- The callback that a thread is. -/
theorem callback_of_thread {cs : List Callback} {stage : Stage}
    (h : cs.map Callback.stage = (pre ++ t :: post).filterMap stageOf)
    (ht : stageOf t = some stage) :
    ∃ k c, cs[k]? = some ⟨c, stage⟩ ∧
      (∀ c' t', stageOf t' = some (Callback.stage c') →
        (cs.set k c').map Callback.stage = (pre ++ t' :: post).filterMap stageOf) ∧
      ∀ t', stageOf t' = none →
        (cs.eraseIdx k).map Callback.stage = (pre ++ t' :: post).filterMap stageOf := by
  rw [List.filterMap_append, List.filterMap_cons_some ht] at h
  obtain ⟨cs₁, cs₂, rfl, hpre, hcs₂⟩ := List.map_eq_append_iff.mp h
  obtain ⟨⟨c, stage'⟩, cs₃, rfl, hstage, hpost⟩ := List.map_eq_cons_iff.mp hcs₂
  obtain rfl : stage' = stage := hstage
  refine ⟨cs₁.length, c, by simp, fun c' t' ht' => ?_, fun t' ht' => ?_⟩
  · rw [List.filterMap_append, List.filterMap_cons_some ht', ← hpre, ← hpost]
    simp
  · rw [List.filterMap_append, List.filterMap_cons_none ht', ← hpre, ← hpost]
    simp [List.eraseIdx_append_of_length_le]

variable {l : Link} {fs ps : List (List UInt8)} {r' : Radio}

/-- A thread goes on and prepares as it did: the messages are still accounted for. -/
theorem Follows.outstanding_set (h : Follows s fs l ps) (hthreads : s.threads = pre ++ t :: post)
    (hprep : preparing t' = preparing t)
    (hout : r'.outstanding = s.radio.outstanding) :
    l.outstanding.length = r'.outstanding.length + (pre ++ t' :: post).countP preparing := by
  rw [h.outstanding, hthreads, countP_middle, countP_middle, hprep, hout]

/-- It hands over as it did: the frames are still accounted for. -/
theorem Follows.frames_set (h : Follows s fs l ps) (hthreads : s.threads = pre ++ t :: post)
    (hhand : handing t' = handing t) (hdecoded : r'.dev.decoded = s.radio.dev.decoded) :
    fs = ps ++ if (pre ++ t' :: post).any handing then r'.dev.decoded.toList else [] := by
  have hany : (pre ++ t' :: post).any handing = s.threads.any handing := by
    rw [hthreads, List.any_append, List.any_append, List.any_cons, List.any_cons, hhand]
  rw [hany, hdecoded]
  exact h.frames

/-- Where the other threads hand nothing over, only this one has a frame to be published. -/
theorem Follows.frames_middle (h : Follows s fs l ps) (hthreads : s.threads = pre ++ t :: post)
    (hothers : ∀ u ∈ pre ++ post, handing u = false) :
    fs = ps ++ if handing t then s.radio.dev.decoded.toList else [] := by
  have hframes := h.frames
  rw [hthreads, any_handing_middle hothers] at hframes
  exact hframes

/-- Where they prepare nothing, only this one has a command to be written. -/
theorem Follows.command_middle (h : Follows s fs l ps) (hthreads : s.threads = pre ++ t :: post)
    (hothers : ∀ u ∈ pre ++ post, preparing u = false) :
    l.drv.spiCommandBuffer = settle t s.radio.dev.spiCommandBuffer := by
  rw [h.command, commandBuffer_middle hthreads hothers]

end

/-! ### The steps that match a statement -/

/-- The steps of the link that the driver's threads account for. -/
def SplitInput.Drives : SplitInput → Prop
  | .link (.callbackClear _) => True
  | .link (.callbackSample _) => True
  | .link (.callbackFinish _) => True
  | .link (.command _) => True
  | .link _ => False
  | .enter => True

/-- The link goes from `l` to `l'` with steps of the driver, which publish `fs`. -/
structure Drive (l l' : Link) (fs : List (List UInt8)) (js : List SplitInput) : Prop where
  drives : ∀ j ∈ js, j.Drives
  run : split.runFrom (l, []) js = some (l', seen [] fs)
  fw : l'.fw = l.fw
  edge : l'.edge = l.edge
  xferDone : l'.xferDone = l.xferDone

theorem Drive.none (l : Link) : Drive l l [] [] := ⟨by simp, rfl, rfl, rfl, rfl⟩

/-- One step that publishes `fs`. -/
theorem Drive.one {l l' : Link} {i : LinkInput} (hi : (SplitInput.link i).Drives)
    (hs : l.step i = some (l', [])) (hfw : l'.fw = l.fw) (hedge : l'.edge = l.edge)
    (hdone : l'.xferDone = l.xferDone) : Drive l l' (l.publishes i) [.link i] := by
  refine ⟨by simpa using hi, ?_, hfw, hedge, hdone⟩
  refine split.runFrom_singleton (e := seen [] (l.publishes i)) ?_ []
  simp [split, wire, hs]

/-- One after the other. -/
theorem Drive.trans {l l₁ l₂ : Link} {fs gs : List (List UInt8)} {js ks : List SplitInput}
    (h : Drive l l₁ fs js) (h' : Drive l₁ l₂ gs ks) : Drive l l₂ (fs ++ gs) (js ++ ks) := by
  refine ⟨fun j hj => (List.mem_append.mp hj).elim (h.drives j) (h'.drives j), ?_,
    h'.fw.trans h.fw, h'.edge.trans h.edge, h'.xferDone.trans h.xferDone⟩
  rw [split.runFrom_append, h.run, Option.bind_some, split.runFrom_trace, h'.run]
  simp [seen]

/-- What a claim makes of the driver. -/
def claimed (command : UInt8) (complete : Completion) (dev : Driver) :
    Driver × Option SpiMessage :=
  if dev.spiPending then (dev, none)
  else (submitMessage command complete { dev with spiPending := true }).map id some

section
variable {s : Running} {pre post : List (List Stmt)} {t t' : List Stmt} {l : Link}

/-- **A claim.**  That of a command is the command; that of a read is the end of a callback that has
    found the line high. -/
theorem drive_claim {command : UInt8} {complete : Completion}
    (hirq : complete = .readIrqDone → command = bcpCommandReadIrq)
    (h : l.callbacks.map Callback.stage
      = (pre ++ submission command complete :: post).filterMap stageOf) :
    ∃ js cs, Drive l ({ l with callbacks := cs }.submit (claimed command complete l.drv)) [] js ∧
      ∀ t', stageOf t' = none →
        cs.map Callback.stage = (pre ++ t' :: post).filterMap stageOf := by
  cases complete with
  | readIrqDone =>
    obtain rfl := hirq rfl
    obtain ⟨k, c, hk, -, herase⟩ := callback_of_thread (t := submission _ .readIrqDone) h rfl
    have hread : nrf51822CheckIrq true l.drv = claimed bcpCommandReadIrq .readIrqDone l.drv := by
      simp only [nrf51822CheckIrq, nrf51822ReadIrq, claimed, if_true]
      split <;> rfl
    refine ⟨[.link (.callbackFinish k)], _,
      Drive.one (i := .callbackFinish k) trivial ?_ rfl rfl rfl, herase⟩
    simp only [Link.step, hk, hread]
  | issueSimpleCommandDone =>
    have hcommand : (nrf51822IssueSimpleCommand command l.drv).2
        = claimed command .issueSimpleCommandDone l.drv := by
      simp only [nrf51822IssueSimpleCommand, claimed]
      split <;> rfl
    refine ⟨[.link (.command command)], l.callbacks,
      Drive.one (i := .command command) trivial ?_ rfl rfl rfl, fun t' ht' => ?_⟩
    · simp only [Link.step, hcommand]
    · rw [h, List.filterMap_append, List.filterMap_append, List.filterMap_cons_none ht',
        List.filterMap_cons_none rfl]

/-- The line is tested: high, a read is to be made; low, the callback is over. -/
theorem drive_check (h : l.callbacks.map Callback.stage
      = (pre ++ [Stmt.checkIrq] :: post).filterMap stageOf) :
    ∃ js cs, Drive l { l with callbacks := cs } [] js ∧
      cs.map Callback.stage = (pre ++ (if l.fw.interruptPin then readIrq else []) :: post).filterMap
        stageOf := by
  obtain ⟨k, c, hk, hset, herase⟩ := callback_of_thread (t := [.checkIrq]) h rfl
  have hsample : Drive l { l with callbacks := l.callbacks.set k ⟨c, .sampled l.fw.interruptPin⟩ }
      [] [.link (.callbackSample k)] := by
    refine Drive.one (i := .callbackSample k) trivial ?_ rfl rfl rfl
    simp only [Link.step, hk]
  cases hpin : l.fw.interruptPin with
  | true =>
    rw [hpin] at hsample
    exact ⟨_, _, hsample, hset _ _ rfl⟩
  | false =>
    rw [hpin] at hsample
    -- the callback has sampled a low line, and ends
    have hk' : (l.callbacks.set k ⟨c, .sampled false⟩)[k]? = some ⟨c, .sampled false⟩ := by
      obtain ⟨hlt, -⟩ := List.getElem?_eq_some_iff.mp hk
      exact List.getElem?_set_self hlt
    refine ⟨_, l.callbacks.eraseIdx k, hsample.trans (Drive.one (i := .callbackFinish k) trivial ?_
      rfl rfl rfl), herase [] rfl⟩
    simp only [Link.step, hk', List.eraseIdx_set_eq, nrf51822CheckIrq, Bool.false_eq_true, if_false,
      Link.submit, Option.toList_none, List.append_nil]

variable {o : List RadioObs} {fs ps : List (List UInt8)} {env : Env} {r' : Radio}
  {e : List RadioObs}

/-- A statement that nothing but its own thread can see needs no step of the link. -/
theorem Follows.quiet (h : Follows s fs l ps) (hthreads : s.threads = pre ++ t :: post)
    (hsame : Unmoved s.radio r') (hstage : stageOf t' = stageOf t)
    (hprep : preparing t = false ∧ preparing t' = false)
    (hhand : handing t = false ∧ handing t' = false) :
    Follows ⟨r', pre ++ t' :: post⟩ fs l ps := by
  obtain ⟨hcommand, -, -, -⟩ := Handed.mk.inj hsame.same.handed
  refine ⟨?_, h.sized, ?_, ?_, ?_, ?_, ?_, ?_, ?_⟩
  · exact h.outstanding_set hthreads (hprep.2.trans hprep.1.symm) hsame.same.outstanding
  · rw [h.callbacks, hthreads]
    simp only [List.filterMap_append, List.filterMap_cons, hstage]
  · exact h.pending.trans hsame.pending.symm
  · exact h.command.trans (commandBuffer_congr hthreads hprep.1 hprep.2 hcommand).symm
  · rw [hsame.same.data]
    exact h.data
  · rw [hsame.same.outstanding, hsame.same.data]
    exact h.received
  · exact h.after.trans hsame.after.symm
  · exact h.frames_set hthreads (hhand.2.trans hhand.1.symm)
      (decoded_of_data hsame.same.data hsame.after)

/-- The claim of a free SPI buffer. -/
theorem Follows.claim (h : Follows s fs l ps) (hsound : Sound s o) {command : UInt8}
    {complete : Completion} (hthreads : s.threads = pre ++ submission command complete :: post)
    (hfree : s.radio.dev.spiPending = false) {cs : List Callback}
    (hcs : cs.map Callback.stage
      = (pre ++ setUpAndHandOver (setUps command complete) :: post).filterMap stageOf) :
    Follows ⟨{ s.radio with dev.spiPending := true },
        pre ++ setUpAndHandOver (setUps command complete) :: post⟩ fs
      ({ l with callbacks := cs }.submit (claimed command complete l.drv)) ps := by
  obtain ⟨hnil, hnone⟩ := hsound.exclusive.of_free hfree
  rw [hthreads] at hnone
  obtain ⟨hprep, hhand⟩ := all_idle_of_not_holds (forall_mem_middle.mp hnone).2
  have hclaimed : claimed command complete l.drv
      = (submitMessage command complete { l.drv with spiPending := true }).map id some := by
    rw [claimed, h.pending, hfree]
    rfl
  rw [hclaimed]
  refine ⟨?_, ?_, hcs, rfl, ?_, h.data, h.received, h.after, ?_⟩
  · -- the message is at the SPI core, and in preparation
    have hout := h.outstanding
    rw [hthreads, countP_middle,
      show preparing (submission command complete) = false from rfl] at hout
    show (l.outstanding ++ _).length = _
    rw [List.length_append, hout, countP_middle,
      show preparing (setUpAndHandOver (setUps command complete)) = true from rfl]
    simp only [Bool.toNat_false, Bool.toNat_true, Option.toList_some, List.length_singleton,
      submitMessage, Prod.map]
    omega
  · refine sized_submit (l := { l with callbacks := cs }) h.sized fun msg hmsg => ?_
    obtain rfl := Option.some.inj hmsg
    rfl
  · rw [commandBuffer_middle (t := setUpAndHandOver (setUps command complete)) rfl hprep]
    show Function.update l.drv.spiCommandBuffer 0 command = _
    rw [h.command_middle hthreads hprep]
    rfl
  · rw [any_handing_middle hhand]
    exact h.frames_middle hthreads hhand

/-- The claim is given up, and the frame that was stored is published. -/
theorem Follows.clear (h : Follows s fs l ps) (hsound : Sound s o)
    (hthreads : s.threads = pre ++ (Stmt.clearPending :: t) :: post)
    (ht : t = [.wakeUp, .checkIrq] ∨ t = [.checkIrq])
    (hframe : handing (.clearPending :: t) = s.radio.dev.decoded.isSome) :
    ∃ js l' gs, Drive l l' gs js ∧
      Follows ⟨{ s.radio with dev.spiPending := false }, pre ++ t :: post⟩ fs l' (ps ++ gs) := by
  obtain ⟨hnil, hothers⟩ := hsound.exclusive.of_holds hthreads (holds_of_yields rfl)
  obtain ⟨hprep, hhand⟩ := all_idle_of_not_holds hothers
  have hstage : stageOf t = some .cleared := by rcases ht with rfl | rfl <;> rfl
  have hidle : preparing t = false ∧ handing t = false := by
    rcases ht with rfl | rfl <;> exact ⟨rfl, rfl⟩
  have hcallbacks := h.callbacks
  rw [hthreads] at hcallbacks
  obtain ⟨k, c, hk, hset, -⟩ := callback_of_thread (t := .clearPending :: t) hcallbacks rfl
  -- the callback decodes what the thread has decoded
  have hdecoded : l.drv.decoded = s.radio.dev.decoded :=
    decoded_of_data (h.received hnil) h.after
  have hpublishes : l.publishes (.callbackClear k) = s.radio.dev.decoded.toList := by
    have hdone : c.done l.drv = nrf51822ReadIrqDone l.drv := done_eq c .readIrqDone l.drv
    rw [← hdecoded]
    simp only [Link.publishes, hk, hdone, Driver.decoded]
    split <;> rfl
  have hsteps : Drive l { l with
      drv := clearSpiPending (c.done l.drv).1
      callbacks := l.callbacks.set k ⟨c, .cleared⟩ } (l.publishes (.callbackClear k))
      [.link (.callbackClear k)] :=
    Drive.one trivial (by simp only [Link.step, hk]) rfl rfl rfl
  rw [hpublishes] at hsteps
  -- decoding touches the frame for user space only
  have hdone : (c.done l.drv).1.spiCommandBuffer = l.drv.spiCommandBuffer ∧
      (c.done l.drv).1.spiDataBuffer = l.drv.spiDataBuffer ∧
      (c.done l.drv).1.afterSpiDataBuffer = l.drv.afterSpiDataBuffer := by
    rw [done_eq c .readIrqDone, Completion.done, nrf51822ReadIrqDone]
    split
    · exact ⟨rfl, rfl, rfl⟩
    · split <;> exact ⟨rfl, rfl, rfl⟩
  refine ⟨_, _, _, hsteps, ?_, h.sized, hset _ _ hstage, rfl, ?_, ?_, ?_, ?_, ?_⟩
  · exact h.outstanding_set hthreads hidle.1 rfl
  · rw [commandBuffer_middle (t := t) rfl hprep, settle_of_not_preparing hidle.1]
    exact hdone.1.trans (h.command_middle hthreads hprep)
  · show ∀ miso, _ → (c.done l.drv).1.spiDataBuffer.copy 0 miso = _
    rw [hdone.2.1]
    exact h.data
  · exact fun _ => hdone.2.1.trans (h.received hnil)
  · exact hdone.2.2.trans h.after
  · rw [any_handing_middle hhand, hidle.2, h.frames_middle hthreads hhand, hframe]
    cases s.radio.dev.decoded <;> simp

/-- **What a statement does, the link does.** -/
theorem follows_turn (h : Follows s fs l ps) (hsound : Sound s o)
    (hthreads : s.threads = pre ++ t :: post) (hline : env.line = l.fw.interruptPin)
    (hturn : Turn env s.radio t r' t' e) :
    ∃ js l' gs, Drive l l' gs js ∧
      Follows ⟨r', pre ++ t' :: post⟩ (fs ++ framesIn e) l' (ps ++ gs) := by
  have hcallbacks := h.callbacks
  rw [hthreads] at hcallbacks
  cases hturn with
  | skip ht hpending =>
    obtain ⟨command, complete, hirq, rfl⟩ : ∃ command complete,
        (complete = .readIrqDone → command = bcpCommandReadIrq) ∧
          t = submission command complete := by
      rcases ht with rfl | ⟨command, rfl⟩
      · exact ⟨_, .readIrqDone, fun _ => rfl, rfl⟩
      · exact ⟨command, .issueSimpleCommandDone, fun h => (by cases h), rfl⟩
    obtain ⟨js, cs, hdrive, hcs⟩ := drive_claim hirq hcallbacks
    have hnone : claimed command complete l.drv = (l.drv, none) :=
      if_pos (h.pending.trans hpending)
    rw [hnone] at hdrive
    refine ⟨js, _, [], hdrive, ?_⟩
    rw [framesIn, List.filterMap_nil, List.append_nil, List.append_nil]
    refine ⟨?_, ?_, hcs [] rfl, h.pending, ?_, h.data, h.received, h.after, ?_⟩
    · show (l.outstanding ++ []).length = _
      rw [List.append_nil]
      exact h.outstanding_set hthreads rfl rfl
    · exact sized_submit (l := { l with callbacks := cs }) h.sized (by simp)
    · exact h.command.trans (commandBuffer_congr hthreads rfl rfl rfl).symm
    · exact h.frames_set hthreads rfl rfl
  | claim ht hirq hfree =>
    subst ht
    obtain ⟨js, cs, hdrive, hcs⟩ := drive_claim hirq hcallbacks
    refine ⟨js, _, [], hdrive, ?_⟩
    rw [framesIn, List.filterMap_nil, List.append_nil, List.append_nil]
    exact h.claim hsound hthreads hfree (hcs _ rfl)
  | prepare w ws =>
    obtain ⟨hnil, hothers⟩ := hsound.exclusive.of_holds hthreads (holds_of_needs rfl)
    obtain ⟨hprep, -⟩ := all_idle_of_not_holds hothers
    have hrest : preparing (setUpAndHandOver ws) = true := by cases ws <;> rfl
    have hhand : handing (setUpAndHandOver ws) = false := by cases ws <;> rfl
    have hstage : stageOf (setUpAndHandOver ws) = none := by cases ws <;> rfl
    refine ⟨[], l, [], .none l, ?_⟩
    rw [List.append_nil, show fs ++ framesIn [.wrote] = fs from List.append_nil fs]
    refine ⟨?_, h.sized, ?_, ?_, ?_, ?_, ?_, ?_, ?_⟩
    · exact h.outstanding_set hthreads hrest (by cases w <;> rfl)
    · rw [hcallbacks, List.filterMap_append, List.filterMap_append, List.filterMap_cons_none hstage,
        List.filterMap_cons_none rfl]
    · exact h.pending.trans (by cases w <;> rfl)
    · rw [h.command_middle hthreads hprep,
        commandBuffer_middle (t := setUpAndHandOver ws) rfl hprep]
      cases w <;> rfl
    · intro miso hmiso
      exact (h.data miso hmiso).trans (by cases w <;> rfl)
    · exact fun _ => (h.received hnil).trans (by cases w <;> rfl)
    · exact h.after.trans (by cases w <;> rfl)
    · exact h.frames_set hthreads hhand
        (decoded_of_data (by cases w <;> rfl) (by cases w <;> rfl))
  | handOver =>
    obtain ⟨hnil, hothers⟩ := hsound.exclusive.of_holds hthreads (holds_of_yields rfl)
    obtain ⟨hprep, -⟩ := all_idle_of_not_holds hothers
    refine ⟨[], l, [], .none l, ?_⟩
    rw [List.append_nil, show fs ++ framesIn [.submitted _] = fs from List.append_nil fs]
    refine ⟨?_, h.sized, ?_, h.pending, ?_, h.data, fun hout => ?_, h.after, ?_⟩
    · rw [h.outstanding, hthreads, countP_middle, countP_middle, hnil,
        show preparing (setUpAndHandOver []) = true from rfl]
      simp only [List.length_nil, List.nil_append, List.length_singleton, Bool.toNat_true,
        show preparing [] = false from rfl, Bool.toNat_false]
      omega
    · rw [hcallbacks, List.filterMap_append, List.filterMap_append, List.filterMap_cons_none rfl,
        List.filterMap_cons_none rfl]
    · rw [h.command_middle hthreads hprep, commandBuffer_middle (t := []) rfl hprep]
      rfl
    · simp at hout
    · exact h.frames_set hthreads rfl rfl
  | store n b frame hframe =>
    obtain ⟨-, hothers⟩ := hsound.exclusive.of_holds hthreads (holds_of_needs rfl)
    obtain ⟨-, hhand⟩ := all_idle_of_not_holds hothers
    refine ⟨[], l, [], .none l, ?_⟩
    rw [List.append_nil]
    have hframes := h.frames_middle hthreads hhand
    rw [if_neg (by simp [handing]), List.append_nil] at hframes
    refine ⟨?_, h.sized, ?_, h.pending, ?_, h.data, h.received, h.after, ?_⟩
    · exact h.outstanding_set hthreads rfl rfl
    · rw [hcallbacks]
      simp only [List.filterMap_append, List.filterMap_cons, stageOf]
    · exact h.command.trans (commandBuffer_congr hthreads rfl rfl rfl).symm
    · -- the frame is stored, and published when the claim is given up
      have hstill :
          ({ s.radio.dev with bufToUserLen := b.toNat + 1 } : Driver).decoded = some frame := by
        rw [← hframe]
        exact decoded_of_data rfl rfl
      rw [any_handing_middle hhand, hframes]
      show ps ++ [frame] =
        ps ++ ({ s.radio.dev with bufToUserLen := b.toNat + 1 } : Driver).decoded.toList
      rw [hstill]
      rfl
  | clear ht hframe =>
    obtain ⟨js, l', gs, hdrive, hfollows⟩ := h.clear hsound hthreads ht hframe
    exact ⟨js, l', gs, hdrive, by rwa [framesIn, List.filterMap_nil, List.append_nil]⟩
  | check =>
    obtain ⟨js, cs, hdrive, hcs⟩ := drive_check hcallbacks
    refine ⟨js, _, [], hdrive, ?_⟩
    rw [framesIn, List.filterMap_nil, List.append_nil, List.append_nil, hline]
    have hidle : preparing (if l.fw.interruptPin then readIrq else []) = false ∧
        handing (if l.fw.interruptPin then readIrq else []) = false := by
      cases l.fw.interruptPin <;> exact ⟨rfl, rfl⟩
    refine ⟨?_, h.sized, hcs, h.pending, ?_, h.data, h.received, h.after, ?_⟩
    · exact h.outstanding_set hthreads hidle.1 rfl
    · exact h.command.trans (commandBuffer_congr hthreads rfl hidle.1 rfl).symm
    · exact h.frames_set hthreads hidle.2 rfl
  | quiet hsame hstage hprep hhand hleft hframes =>
    refine ⟨[], l, [], .none l, ?_⟩
    rw [hframes, List.append_nil, List.append_nil]
    exact h.quiet hthreads hsame hstage hprep hhand

/-- A thread is entered; with it, the link may have one more callback. -/
theorem Follows.start (h : Follows s fs l ps) (hidle : preparing t = false ∧ handing t = false)
    {l' : Link} (hout : l'.outstanding = l.outstanding) (hdrv : l'.drv = l.drv)
    (hcs : l'.callbacks.map Callback.stage
      = l.callbacks.map Callback.stage ++ (stageOf t).toList) :
    Follows { s with threads := s.threads ++ [t] } fs l' ps := by
  refine ⟨?_, ?_, ?_, ?_, ?_, ?_, ?_, ?_, ?_⟩
  · rw [hout, h.outstanding, List.countP_append, List.countP_singleton, hidle.1]
    rfl
  · rw [Link.Sized, hout]
    exact h.sized
  · rw [hcs, h.callbacks, List.filterMap_append]
    cases hstage : stageOf t <;> simp [hstage]
  · rw [hdrv]
    exact h.pending
  · rw [hdrv, h.command, Running.commandBuffer, Running.commandBuffer, List.foldl_append]
    exact (settle_of_not_preparing hidle.1 _).symm
  · rw [hdrv]
    exact h.data
  · rw [hdrv]
    exact h.received
  · rw [hdrv]
    exact h.after
  · rw [List.any_append, List.any_cons, hidle.2, List.any_nil, Bool.or_false, Bool.or_false]
    exact h.frames

/-- A firmware handler runs. -/
theorem Follows.firmware (h : Follows s fs l ps) {l' : Link} (hout : l'.outstanding = l.outstanding)
    (hdrv : l'.drv = l.drv) (hcs : l'.callbacks = l.callbacks) : Follows s fs l' ps := by
  obtain ⟨fw, drv, edge, outstanding, xferDone, callbacks⟩ := l
  obtain ⟨fw', drv', edge', outstanding', xferDone', callbacks'⟩ := l'
  obtain rfl : outstanding' = outstanding := hout
  obtain rfl : drv' = drv := hdrv
  obtain rfl : callbacks' = callbacks := hcs
  exact ⟨h.outstanding, h.sized, h.callbacks, h.pending, h.command, h.data, h.received, h.after,
    h.frames⟩

/-- Bytes that come in are written over by the rest of the transfer. -/
theorem copy_copy {n : ℕ} (b : Buf n) {xs ys : List UInt8} (h : xs.length ≤ ys.length) :
    (b.copy 0 xs).copy 0 ys = b.copy 0 ys := by
  funext i
  by_cases hi : i.val < ys.length
  · rw [Buf.copy_of_mem _ _ (Nat.zero_le _) (by omega),
      Buf.copy_of_mem _ _ (Nat.zero_le _) (by omega)]
  · rw [Buf.copy_of_le _ _ (by omega), Buf.copy_of_le _ _ (by omega), Buf.copy_of_le _ _ (by omega)]

theorem Follows.clocks (h : Follows s fs l ps) (hsound : Sound s o)
    (hout : s.radio.outstanding ≠ []) {miso : List UInt8} (hlen : miso.length ≤ spiTransferLen) :
    Follows { s with radio.dev := s.radio.dev.receive miso } fs l ps := by
  obtain ⟨m, ms, hm⟩ := List.exists_cons_of_ne_nil hout
  obtain ⟨-, -, -, hnone⟩ := hsound.exclusive.of_outstanding (j := 0) (m := m) (by simp [hm])
  refine ⟨h.outstanding, h.sized, h.callbacks, h.pending, h.command, fun miso' hmiso' => ?_,
    fun hnil => absurd hnil hout, h.after, ?_⟩
  · show _ = (s.radio.dev.spiDataBuffer.copy 0 miso).copy 0 miso'
    rw [copy_copy _ (by omega)]
    exact h.data miso' hmiso'
  · have hany : s.threads.any handing = false :=
      any_handing_of_none (all_idle_of_not_holds hnone).2
    have hframes := h.frames
    rw [hany] at hframes
    rw [hany]
    exact hframes

/-- A transfer ends. -/
theorem Follows.transferEnds (h : Follows s fs l ps) (hsound : Sound s o) {m : Submission}
    {ms : List Submission} (hout : s.radio.outstanding = m :: ms) {miso : List UInt8}
    (hlen : miso.length = spiTransferLen) :
    ∃ msg, l.outstanding = [msg] ∧ msg.transfer.len = spiTransferLen ∧
      l.drv.mosi msg = s.radio.dev.spiCommandBuffer.front spiTransferLen ∧
      ∀ fw xferDone, Follows
        { s with
          radio := { s.radio with
            dev := s.radio.dev.receive miso, outstanding := [] }
          threads := s.threads ++ [[.decode m.number .noData, .clearPending, .checkIrq]] } fs
        { l with
          fw := fw
          drv := l.drv.receive miso
          outstanding := []
          xferDone := xferDone
          callbacks := l.callbacks ++ [⟨msg.complete, .entered⟩] } ps := by
  obtain ⟨hms, -, -, hnone, -⟩ := hsound.transferEnds hout miso
  obtain ⟨hprep, hhand⟩ := all_idle_of_not_holds hnone
  have hcount : s.threads.countP preparing = 0 :=
    List.countP_eq_zero.mpr fun u hu => by simp [hprep u hu]
  have hcommand : l.drv.spiCommandBuffer = s.radio.dev.spiCommandBuffer := by
    rw [h.command, Running.commandBuffer, foldl_settle hprep]
  obtain ⟨msg, hmsg⟩ := List.length_eq_one_iff.mp
    (h.outstanding.trans (by rw [hout, hms, hcount]; rfl))
  have hsize : msg.transfer.len = spiTransferLen := h.sized msg (by simp [hmsg])
  have hany : s.threads.any handing = false := any_handing_of_none hhand
  have hdata := h.data miso hlen
  refine ⟨msg, hmsg, hsize, by rw [Driver.mosi, hsize, hcommand], fun fw xferDone => ?_⟩
  refine ⟨?_, by simp [Link.Sized], ?_, h.pending, ?_, fun miso' _ => ?_, fun _ => hdata, h.after,
    ?_⟩
  · rw [List.countP_append, hcount]
    rfl
  · rw [List.map_append, h.callbacks, List.filterMap_append]
    rfl
  · show l.drv.spiCommandBuffer = (s.threads ++ _).foldl _ s.radio.dev.spiCommandBuffer
    rw [List.foldl_append, foldl_settle hprep]
    exact hcommand
  · show (l.drv.spiDataBuffer.copy 0 miso).copy 0 miso' = _
    rw [hdata]
    rfl
  · have hframes := h.frames
    rw [hany] at hframes
    rw [List.any_append, hany]
    exact hframes

end

/-! ### Steps and runs -/

/-- The steps as the wires and the firmware's timing make them. -/
def Weave.Wired (s : Weave) : WeaveInput → Prop
  | .advertisement e =>
    (1 ≤ e.data.length ∧ e.data.length ≤ 38) ∧ (s.fw.bufferFull = false → s.xferDone = 0)
  | .transferEnds miso => miso = s.fw.spiTxBuf.front spiTransferLen ∧ s.xferDone = 0
  | _ => True

/-- A transfer ends and no frame was on offer. -/
def Weave.idleTransfer (s : Weave) : WeaveInput → Bool
  | .transferEnds _ => !s.fw.bufferFull
  | _ => false

/-- The same for the link with its interrupts split. -/
def Link.SplitWired (l : Link) : SplitInput → Prop
  | .link i => l.Wired i
  | .enter => True

/-- A transfer of the link ends and no frame was on offer. -/
def Link.splitIdle (l : Link) : SplitInput → Bool
  | .link i => l.idleTransfer i
  | .enter => false

/-- The advertisements a run queues have data. -/
def WeaveInput.HasData : WeaveInput → Prop
  | .advertisement e => e.data ≠ []
  | _ => True

/-- The same for the link with its interrupts split. -/
def SplitInput.HasData : SplitInput → Prop
  | .link i => i.HasData
  | .enter => True

/-- The steps of the driver are as the wires make them. -/
theorem SplitInput.Drives.wired {j : SplitInput} (h : j.Drives) :
    j.HasData ∧ ∀ l : Link, l.SplitWired j ∧ l.splitIdle j = false := by
  cases j with
  | enter => exact ⟨trivial, fun _ => ⟨trivial, rfl⟩⟩
  | link i => cases i <;> first | exact ⟨trivial, fun _ => ⟨trivial, rfl⟩⟩ | exact h.elim

theorem firmwareIn_append (o e : List WeaveObs) :
    firmwareIn (o ++ e) = firmwareIn o ++ firmwareIn e := List.filterMap_append

theorem driverIn_append (o e : List WeaveObs) : driverIn (o ++ e) = driverIn o ++ driverIn e :=
  List.filterMap_append

theorem framesIn_append (o e : List RadioObs) : framesIn (o ++ e) = framesIn o ++ framesIn e :=
  List.filterMap_append

@[simp] theorem firmwareIn_firmware (o : List Obs) : firmwareIn (o.map .firmware) = o := by
  simp [firmwareIn, List.filterMap_map]

@[simp] theorem firmwareIn_driver (o : List RadioObs) : firmwareIn (o.map .driver) = [] := by
  simp [firmwareIn, List.filterMap_map]

@[simp] theorem driverIn_firmware (o : List Obs) : driverIn (o.map .firmware) = [] := by
  simp [driverIn, List.filterMap_map]

@[simp] theorem driverIn_driver (o : List RadioObs) : driverIn (o.map .driver) = o := by
  simp [driverIn, List.filterMap_map]

/-- What matches a step of the woven system. -/
structure Matched (s : Weave) (i : WeaveInput) (s' : Weave) (o' : List WeaveObs) (l : Link)
    (ol : List WireObs) (js : List SplitInput) (l' : Link) (ol' : List WireObs) : Prop where
  hasData : i.HasData → ∀ j ∈ js, j.HasData
  wired : s.Wired i → split.AlongFrom (fun l _ j => l.SplitWired j) (l, ol) js
  run : split.runFrom (l, ol) js = some (l', ol')
  idle : split.countFrom Link.splitIdle l js = (s.idleTransfer i).toNat
  woven : Woven s' o' l' ol'

section
variable {s s' : Weave} {o : List WeaveObs} {l l' : Link} {ol : List WireObs}

/-- A step of the firmware or of the SPI core is matched by one of the link. -/
theorem Matched.one {i : WeaveInput} {j : LinkInput} {oj : List Obs} {o' : List WeaveObs}
    (hs : l.step j = some (l', oj)) (hquiet : l.publishes j = []) (hdata : i.HasData → j.HasData)
    (hwired : s.Wired i → l.Wired j) (hidle : l.idleTransfer j = s.idleTransfer i)
    (hwoven : Woven s' o' l' (ol ++ seen oj [])) :
    Matched s i s' o' l ol [.link j] l' (ol ++ seen oj []) := by
  have hstep : split.step l (.link j) = some (l', seen oj []) := by
    simp [split, wire, hs, hquiet]
  refine ⟨fun hi => by simpa [SplitInput.HasData] using hdata hi, fun hw => ⟨hwired hw, ?_⟩,
    split.runFrom_singleton hstep ol, ?_, hwoven⟩
  · simp only [hstep]
    trivial
  · simp only [Machine.countFrom, hstep, Nat.add_zero]
    exact congrArg Bool.toNat hidle

/-- A step of the driver is matched by steps of the driver. -/
theorem Matched.drive {i : WeaveInput} {gs : List (List UInt8)} {js : List SplitInput}
    {o' : List WeaveObs} (hdrive : Drive l l' gs js) (hidle : s.idleTransfer i = false)
    (hwoven : Woven s' o' l' (ol ++ seen [] gs)) :
    Matched s i s' o' l ol js l' (ol ++ seen [] gs) := by
  refine ⟨fun _ j hj => (hdrive.drives j hj).wired.1,
    fun _ => Machine.alongFrom_of_forall fun j hj l _ => ((hdrive.drives j hj).wired.2 l).1, ?_, ?_,
    hwoven⟩
  · rw [split.runFrom_trace, hdrive.run]
    rfl
  · rw [hidle]
    exact Machine.countFrom_eq_zero (fun j hj l => ((hdrive.drives j hj).wired.2 l).2) l

/-- Nothing matches what only the threads can see. -/
theorem Matched.nothing {i : WeaveInput} {o' : List WeaveObs} (hidle : s.idleTransfer i = false)
    (hwoven : Woven s' o' l ol) : Matched s i s' o' l ol [] l ol :=
  ⟨by simp, fun _ => trivial, rfl, by rw [hidle]; rfl, hwoven⟩

/-- A thread is entered, and the link stays as it is. -/
theorem Woven.start (h : Woven s o l ol) {t : List Stmt} (ht : Thread s.drv.radio t)
    (hpath : Path t) (hholds : holds Stmt.use t = false) (hreads : reads t = none)
    (hstage : stageOf t = none) :
    Woven { s with drv := { s.drv with threads := s.drv.threads ++ [t] } } (o ++ []) l ol := by
  refine ⟨?_, h.fw, h.edge, h.xferDone, ?_, ?_⟩
  · rw [driverIn_append]
    exact h.sound.start ht hpath hholds hreads
  · rw [List.append_nil]
    exact h.shown
  · rw [List.append_nil]
    exact h.follows.start (idle_of_not_holds hholds) rfl rfl
      (by rw [hstage]; exact (List.append_nil _).symm)

/-- A firmware handler runs. -/
theorem Woven.firmware (h : Woven s o l ol) (fw : Firmware) (e : List Obs) (xferDone : ℕ) :
    Woven { s.setFirmware fw with xferDone } (o ++ e.map .firmware)
      { l.setFirmware fw with xferDone } (ol ++ seen e []) := by
  refine ⟨?_, rfl, ?_, rfl, ?_, ?_⟩
  · rw [driverIn_append, driverIn_firmware, List.append_nil]
    exact h.sound
  · show (l.edge || (!l.fw.interruptPin && fw.interruptPin)) = _
    rw [h.edge, h.fw]
    rfl
  · rw [shownBy_append_seen, firmwareIn_append, firmwareIn_firmware, h.shown]
  · rw [driverIn_append, driverIn_firmware, List.append_nil, publishedIn_append_seen,
      List.append_nil]
    exact h.follows.firmware rfl rfl rfl

/-- An interrupt handler is entered. -/
theorem Woven.interrupt (h : Woven s o l ol) (hedge : s.edge = true) :
    Matched s .interrupt
      { s with edge := false, drv := { s.drv with threads := s.drv.threads ++ [readIrq] } }
      (o ++ []) l ol [.enter] l.enter (ol ++ []) := by
  have hstep : split.step l .enter = some (l.enter, []) := by simp [split, h.edge, hedge]
  refine ⟨by simp [SplitInput.HasData], fun _ => ⟨trivial, ?_⟩, split.runFrom_singleton hstep ol,
    ?_, ?_, h.fw, rfl, h.xferDone, ?_, ?_⟩
  · simp only [hstep]
    trivial
  · simp only [Machine.countFrom, hstep]
    rfl
  · rw [driverIn_append]
    exact h.sound.start .irq (path_submission _ _) rfl rfl
  · rw [List.append_nil, List.append_nil]
    exact h.shown
  · rw [List.append_nil, List.append_nil]
    refine h.follows.start ⟨rfl, rfl⟩ rfl rfl ?_
    exact List.map_append

/-- A statement is made. -/
theorem Woven.resume (h : Woven s o l ol) {k : ℕ} {signal copied : Bool} {stmt : Stmt}
    {rest : List Stmt} (hk : s.drv.threads[k]? = some (stmt :: rest))
    {x : Radio × List Stmt × List RadioObs}
    (hx : stmt.exec ⟨s.fw.interruptPin, true, signal, copied⟩ rest s.drv.radio = some x) :
    ∃ js l' ol', Matched s (.resume k signal copied)
      { s with drv := ⟨x.1, s.drv.threads.set k x.2.1⟩ } (o ++ x.2.2.map .driver) l ol js l'
      ol' := by
  obtain ⟨pre, post, hthreads, hset, -⟩ := split_of_getElem? hk
  have hthread : Thread s.drv.radio (stmt :: rest) := h.sound.threads _ (by simp [hthreads])
  obtain ⟨-, hturn⟩ := turn_of_exec rfl hthread hx
  obtain ⟨js, l', gs, hdrive, hfollows⟩ := follows_turn h.follows h.sound hthreads
    (congrArg Firmware.interruptPin h.fw.symm) hturn
  refine ⟨js, l', _, .drive hdrive rfl ⟨?_, ?_, ?_, ?_, ?_, ?_⟩⟩
  · rw [driverIn_append, driverIn_driver]
    exact h.sound.resume hk rfl hx
  · exact hdrive.fw.trans h.fw
  · exact hdrive.edge.trans h.edge
  · exact hdrive.xferDone.trans h.xferDone
  · rw [shownBy_append_seen, List.append_nil, firmwareIn_append, firmwareIn_driver, List.append_nil]
    exact h.shown
  · rw [publishedIn_append_seen, driverIn_append, driverIn_driver, framesIn_append]
    show Follows ⟨x.1, s.drv.threads.set k x.2.1⟩ _ _ _
    rw [hset]
    exact hfollows

/-- A transfer ends. -/
theorem Woven.transferEnds (h : Woven s o l ol) {m : Submission} {ms : List Submission}
    (hout : s.drv.radio.outstanding = m :: ms) {miso : List UInt8}
    (hlen : miso.length = m.handed.spiTsfer.len) {e : List WeaveObs}
    (hs : Weave.drive { s with
      fw := spiReceive (s.drv.radio.dev.spiCommandBuffer.front m.handed.spiTsfer.len) s.fw
      xferDone := s.xferDone + 1 } (.transferEnds 0 miso) = some (s', e)) :
    ∃ js l' ol', Matched s (.transferEnds miso) s' (o ++ e) l ol js l' ol' := by
  obtain ⟨hms, hsize, hcallback, -, hsound⟩ := h.sound.transferEnds hout miso
  rw [hsize] at hlen hs
  obtain ⟨msg, hmsg, hmsgLen, hmosi, hfollows⟩ := h.follows.transferEnds h.sound hout hlen
  obtain ⟨r, hr, heq⟩ := Option.map_eq_some_iff.mp hs
  simp only [Running.step, hout, List.getElem?_cons_zero, hcallback, List.eraseIdx_cons_zero, hms,
    Option.some.injEq] at hr
  subst hr
  obtain ⟨rfl, rfl⟩ := Prod.mk.inj heq
  have hstep : l.step (.transferEnds miso) = some ({ l with
      fw := spiReceive (s.drv.radio.dev.spiCommandBuffer.front spiTransferLen) s.fw
      drv := l.drv.receive miso
      outstanding := []
      xferDone := s.xferDone + 1
      callbacks := l.callbacks ++ [⟨msg.complete, .entered⟩] }, []) := by
    simp only [Link.step, hmsg, hlen, hmsgLen, if_true, hmosi, h.fw, h.xferDone]
  refine ⟨_, _, _, .one hstep rfl (fun _ => trivial) (fun hw => ?_) ?_
    ⟨?_, rfl, h.edge, rfl, ?_, ?_⟩⟩
  · refine ⟨?_, h.xferDone.trans hw.2⟩
    rw [h.fw]
    exact hw.1
  · show (!l.fw.bufferFull) = _
    rw [h.fw]
    rfl
  · rw [driverIn_append, driverIn_driver]
    exact hsound
  · rw [shownBy_append_seen, List.append_nil, firmwareIn_append, firmwareIn_driver, List.append_nil]
    exact h.shown
  · rw [publishedIn_append_seen, List.append_nil, driverIn_append, driverIn_driver, framesIn_append,
      show framesIn [RadioObs.completed _ _] = [] from rfl, List.append_nil]
    exact hfollows _ _

/-- **Step lemma.** -/
theorem woven_step (h : Woven s o l ol) {i : WeaveInput} {e : List WeaveObs}
    (hs : s.step i = some (s', e)) :
    ∃ js l' ol', Matched s i s' (o ++ e) l ol js l' ol' := by
  cases i with
  | advertisement ev =>
    obtain ⟨rfl, rfl⟩ := Prod.mk.inj (Option.some.inj hs)
    have hstep : l.step (.advertisement ev)
        = some (l.setFirmware (interruptEventQueueAdd ev s.fw).2.1,
          (interruptEventQueueAdd ev s.fw).2.2) := by
      rw [← h.fw]
      rfl
    have hwoven := h.firmware (interruptEventQueueAdd ev s.fw).2.1
      (interruptEventQueueAdd ev s.fw).2.2 s.xferDone
    refine ⟨_, _, _, .one hstep rfl id (fun hw => ?_) rfl ?_⟩
    · rw [Link.Wired, h.fw, h.xferDone]
      exact hw
    · have hsame :
          { l.setFirmware (interruptEventQueueAdd ev s.fw).2.1 with xferDone := s.xferDone }
            = l.setFirmware (interruptEventQueueAdd ev s.fw).2.1 := by
        rw [← h.xferDone]
        rfl
      rw [hsame] at hwoven
      exact hwoven
  | firmwareXferDone =>
    simp only [Weave.step, Option.ite_none_left_eq_some, Option.some.injEq, Prod.mk.injEq] at hs
    obtain ⟨hsome, rfl, rfl⟩ := hs
    have hstep : l.step .firmwareXferDone
        = some ({ l.setFirmware (spiSlaveEventHandle .xferDone s.fw).1 with
            xferDone := s.xferDone - 1 }, (spiSlaveEventHandle .xferDone s.fw).2) := by
      simp only [Link.step, h.xferDone, hsome, if_false, h.fw]
    exact ⟨_, _, _, .one hstep rfl id (fun _ => trivial) rfl (h.firmware _ _ _)⟩
  | interrupt =>
    obtain ⟨hedge, hs⟩ := Option.ite_none_right_eq_some.mp hs
    obtain ⟨rfl, rfl⟩ := Prod.mk.inj (Option.some.inj hs)
    exact ⟨_, _, _, h.interrupt hedge⟩
  | ioctl command =>
    obtain ⟨rfl, rfl⟩ := Prod.mk.inj (Option.some.inj hs)
    exact ⟨_, _, _, .nothing rfl
      (h.start (.ioctl command) (path_submission _ _) rfl rfl rfl)⟩
  | read =>
    obtain ⟨rfl, rfl⟩ := Prod.mk.inj (Option.some.inj hs)
    exact ⟨_, _, _, .nothing rfl (h.start .waiting path_read rfl rfl rfl)⟩
  | resume k signal copied =>
    obtain ⟨r, hr, heq⟩ := Option.map_eq_some_iff.mp hs
    obtain ⟨rfl, rfl⟩ := Prod.mk.inj heq
    simp only [Running.step] at hr
    split at hr
    · next stmt rest hk =>
      obtain ⟨x, hx, rfl⟩ := Option.map_eq_some_iff.mp hr
      exact h.resume hk hx
    · cases hr
  | clocks miso =>
    simp only [Weave.step] at hs
    split at hs
    · cases hs
    · next m ms hout =>
      obtain ⟨hlen, hs⟩ := Option.ite_none_right_eq_some.mp hs
      obtain ⟨r, hr, heq⟩ := Option.map_eq_some_iff.mp hs
      obtain ⟨-, hr⟩ := Option.ite_none_left_eq_some.mp hr
      obtain rfl := Option.some.inj hr
      obtain ⟨rfl, rfl⟩ := Prod.mk.inj heq
      obtain ⟨-, hsize, -⟩ := h.sound.transferEnds hout []
      have hsome : s.drv.radio.outstanding ≠ [] := by
        rw [hout]
        exact List.cons_ne_nil m ms
      refine ⟨_, _, _, .nothing rfl ⟨?_, h.fw, h.edge, h.xferDone, ?_, ?_⟩⟩
      · rw [driverIn_append]
        exact h.sound.clocks hsome miso
      · rw [List.map_nil, List.append_nil]
        exact h.shown
      · rw [List.map_nil, List.append_nil]
        exact h.follows.clocks h.sound hsome (hsize ▸ hlen)
  | transferEnds miso =>
    simp only [Weave.step] at hs
    split at hs
    · cases hs
    · next m ms hout =>
      obtain ⟨hlen, hs⟩ := Option.ite_none_right_eq_some.mp hs
      exact h.transferEnds hout hlen hs

/-- No more than one frame is stored and not published yet. -/
theorem Woven.frames (h : Woven s o l ol) :
    publishedIn ol <+: framesIn (driverIn o) ∧
      (framesIn (driverIn o)).length ≤ (publishedIn ol).length + 1 ∧
      ((∀ t ∈ s.drv.threads, handing t = false) → framesIn (driverIn o) = publishedIn ol) := by
  rw [h.follows.frames]
  refine ⟨List.prefix_append _ _, ?_, fun hnone => ?_⟩
  · rw [List.length_append]
    split
    · cases s.drv.radio.dev.decoded <;> simp
    · simp
  · rw [if_neg (by simpa using hnone), List.append_nil]

end

/-- **Run lemma.** -/
theorem woven_of_run {C : Weave → WeaveInput → Prop} (hC : ∀ s i, C s i → s.Wired i)
    (is : List WeaveInput) (s : Weave) (o : List WeaveObs)
    (halong : weave.Along (fun s _ i => C s i) is) (hrun : weave.run is = some (s, o)) :
    ∃ js l ol, split.Along (fun l _ j => l.SplitWired j) js ∧ split.run js = some (l, ol) ∧
      split.countFrom Link.splitIdle Link.init js
        = weave.countFrom Weave.idleTransfer Weave.init is ∧ Woven s o l ol := by
  refine Machine.follow (M := weave) (A := split) (R := fun s o l ol => Woven s o l ol)
    (C := C) woven_init ?_ is s o halong hrun
  intro s o l ol i s' e h hi hs
  obtain ⟨js, l', ol', hmatched⟩ := woven_step h hs
  exact ⟨js, l', ol', hmatched.wired (hC s i hi), hmatched.run, hmatched.idle, hmatched.woven⟩

/-- Whatever the bytes and the timing, the link goes along. -/
theorem woven_of_any_run (is : List WeaveInput) (s : Weave) (o : List WeaveObs)
    (hrun : weave.run is = some (s, o)) :
    ∃ js l ol, split.run js = some (l, ol) ∧ Woven s o l ol := by
  refine Machine.run_induct (M := weave)
    (P := fun _ s o => ∃ js l ol, split.run js = some (l, ol) ∧ Woven s o l ol)
    ⟨[], Link.init, [], rfl, woven_init⟩ ?_ is s o hrun
  rintro _ i s o s' e - ⟨js, l, ol, hrun', h⟩ hs
  obtain ⟨ks, l', ol', hmatched⟩ := woven_step h hs
  refine ⟨js ++ ks, l', ol', ?_, hmatched.woven⟩
  rw [split.run_append, hrun']
  exact hmatched.run

/-- **Statements refine handlers.**  However the statements of interrupt handlers, ioctl commands,
    callbacks and reads get in between each other and in between the firmware's handlers, the link,
    in which a submission is made at its claim and a callback publishes with the release of the
    SPI buffer, has a run that shows the same of the firmware, ends with the same firmware, edge,
    `XFER_DONE` events and `spi_pending`, and publishes the frames that are stored, but for one
    whose callback has not yet released the SPI buffer. -/
theorem statements_refine (is : List WeaveInput) (s : Weave) (o : List WeaveObs)
    (hrun : weave.run is = some (s, o)) :
    ∃ js l ol, split.run js = some (l, ol) ∧ shownBy ol = firmwareIn o ∧
      publishedIn ol <+: framesIn (driverIn o) ∧
      (framesIn (driverIn o)).length ≤ (publishedIn ol).length + 1 ∧
      ((∀ t ∈ s.drv.threads, handing t = false) → framesIn (driverIn o) = publishedIn ol) ∧
      l.fw = s.fw ∧ l.edge = s.edge ∧ l.xferDone = s.xferDone ∧
      l.drv.spiPending = s.drv.radio.dev.spiPending := by
  obtain ⟨js, l, ol, hrun', h⟩ := woven_of_any_run is s o hrun
  obtain ⟨hpublished, hlength, hsettled⟩ := h.frames
  exact ⟨js, l, ol, hrun', h.shown, hpublished, hlength, hsettled, h.fw, h.edge, h.xferDone,
    h.follows.pending⟩

/-- Thread `k` makes `n` statements. -/
def takeTurns (k n : ℕ) : List WeaveInput := List.replicate n (.resume k false true)

/-- A command comes in while the interrupt of a first event sets its transfer up, and a second
    event while the callback decodes. -/
def turns : List WeaveInput :=
  [.advertisement Event.short, .interrupt] ++ takeTurns 0 5 ++ [.ioctl 2] ++ takeTurns 1 1 ++
    takeTurns 0 7 ++
    [.clocks [2, 1], .transferEnds ((2 : UInt8) :: 1 :: 7 :: List.replicate 37 0)] ++
    takeTurns 2 3 ++ [.read, .advertisement Event.next, .firmwareXferDone] ++ takeTurns 2 2

/-- `statements_refine` on that run: the frame is stored and not yet published. -/
theorem statements_refine_turns :
    ∃ s o, weave.run turns = some (s, o) ∧ framesIn (driverIn o) = [[2, 1, 7]] ∧
      ∃ js l ol, split.run js = some (l, ol) ∧ shownBy ol = firmwareIn o ∧ l.fw = s.fw := by
  obtain ⟨s, o, hrun, hframes⟩ : ∃ s o, weave.run turns = some (s, o) ∧
      framesIn (driverIn o) = [[2, 1, 7]] :=
    weave.exists_run (P := fun _ o => framesIn (driverIn o) = [[2, 1, 7]]) (by decide +kernel)
  obtain ⟨js, l, ol, hrun', hshown, -, -, -, hfw, -⟩ := statements_refine turns s o hrun
  exact ⟨s, o, hrun, hframes, js, l, ol, hrun', hshown, hfw⟩

end Gap.Bcp
