import Eslang.Context.Cells

/-! # The event loop and the stopped io_service

An io_service stops itself when it runs out of work, and `Context::run` never calls `reset()`. What is
armed while it is stopped (a timer, a posted continuation) is therefore never run, and `run_one` is
called for ever with work armed. `loop_not_stuck` says that this is the only way: as long as no step
arms or posts while the io_service is stopped, `run_one` is never called on a stopped io_service that
has a timer armed or a continuation posted. -/
namespace Eslang
set_option autoImplicit false
open Lib

/-- The handlers that wake a process. -/
def Handler.isWake {σ : Type} : Handler σ → Bool
  | timer _ _ | continuation _ => true
  | aborted | user _ _ => false

namespace Context
variable {σ μ : Type}

/-- A timer is armed or expired, or a continuation is posted. -/
def Armed (c : Context σ μ) : Prop := c.io.timers ≠ [] ∨ ∃ h ∈ c.io.ready, h.isWake = true

def AboutToRunOne (c : Context σ μ) : Prop :=
  c.stack = [] ∧ c.phase = .loop ∧ c.processes.length ≠ c.tombstones.length ∧ c.queue = []

/-! ## The calls that arm or post -/

/-- Setting this promise posts a continuation. -/
def primed (c : Context σ μ) (f : PromiseRef) : Bool :=
  (c.promise f).any fun p => !p.set_ && p.exec_.isSome

/-- Receiving once from each of `ss` takes slot `s` from `kThrottle` to one below. -/
def crossesThrottle (c : Context σ μ) (ss : List SlotId) (s : SlotId) : Bool :=
  (c.slots s).queue.any fun q => decide (9 < q.size) && decide (q.size ≤ 9 + ss.count s)

/-- A suspension in `w` arms a timer, or finds its promise set already. -/
def armsWait (c : Context σ μ) (w : Waiting) : Bool :=
  !w.isReadyForResume && (w.sleepFor.isSome || w.wakeOnFuture.any fun f => (c.promise f).any (·.set_))

/-- Some slot of `o` has a primed throttle promise. -/
def slotsPrimed (c : Context σ μ) (o : ObjId) : Bool :=
  (List.range c.slotCount).any fun s => decide ((c.slots s).owner = o) && c.primed (.throttle s)

/-- The wait of `sendThrottled` on a full slot finds its promise set. -/
def checkArms (c : Context σ μ) (a : SendAddress) : Bool :=
  match c.canQueue a with
  | .ok (some f) => c.armsWait (.future f)
  | .ok none | .error _ => false

/-- The call the running code is about to make arms a timer or posts a continuation. -/
def arms (code : Code σ μ) (c : Context σ μ) : Bool :=
  match c.stack with
  | [] => false
  | ⟨_, .throttled a _ _⟩ :: _ => c.checkArms a
  | ⟨role, .code s⟩ :: _ =>
      match code.op s with
      | .awaitSuspend w _ => c.armsWait w
      | .sendThrottled a _ _ => !c.waitOnQueue && c.checkArms a
      | .setIfUnset n _ | .setException n _ _ => c.primed (.user n)
      | .getVals ss _ => ss.any fun s => c.primed (.throttle s) && c.crossesThrottle ss s
      | .dropSlot s _ => c.primed (.throttle s)
      | .coReturn => match role with
        | .dtor o => c.slotsPrimed o
        | _ => false
      | .throw _ => match role with
        | .ctor o => c.slotsPrimed o
        | _ => false
      | _ => false

/-! ## Steps that arm nothing -/

/-- `io'` has no timer and no wake-up handler that `io` does not have. -/
structure ArmsNothing (io io' : IoService σ) : Prop where
  stopped : io'.stopped = io.stopped
  timers : ∀ w ∈ io'.timers, w ∈ io.timers
  ready : ∀ h ∈ io'.ready, h.isWake = true → h ∈ io.ready

theorem ArmsNothing.refl (io : IoService σ) : ArmsNothing io io :=
  ⟨rfl, fun _ => id, fun _ hm _ => hm⟩

theorem ArmsNothing.of_eq {io io' : IoService σ} (h : io' = io) : ArmsNothing io io' := h ▸ .refl _

theorem ArmsNothing.trans {io io' io'' : IoService σ} (h : ArmsNothing io io')
    (h' : ArmsNothing io' io'') : ArmsNothing io io'' where
  stopped := h'.stopped.trans h.stopped
  timers w hw := h.timers w (h'.timers w hw)
  ready d hd hw := h.ready d (h'.ready d hd hw) hw

theorem ArmsNothing.armed {c c' : Context σ μ} (h : ArmsNothing c.io c'.io) (ha : c'.Armed) :
    c.Armed := by
  rcases ha with ht | ⟨d, hd, hw⟩
  · obtain ⟨w, hw⟩ := List.exists_mem_of_ne_nil _ ht
    exact .inl (List.ne_nil_of_mem (h.timers w hw))
  · exact .inr ⟨d, h.ready d hd hw, hw⟩

theorem armsNothing_cancel (io : IoService σ) (o : ObjId) : ArmsNothing io (io.cancel o) := by
  refine ⟨rfl, fun w hw => (List.mem_filter.mp hw).1, fun h hm hw => ?_⟩
  rcases List.mem_append.mp hm with hm | hm
  · exact hm
  · obtain ⟨_, -, rfl⟩ := List.mem_map.mp hm
    cases hw

theorem post_nil {io : IoService σ} {fs : List Continuation} (hf : fs = []) : io.post fs = io := by
  simp [hf, IoService.post]

theorem io_addtoDestroy (c : Context σ μ) (p : Pid) (reason : String) :
    (c.addtoDestroy p reason).io = c.io := by
  unfold addtoDestroy
  split <;> rfl

theorem io_push (c : Context σ μ) (s : SlotId) (m : MessageBase μ) : (c.push s m).io = c.io := by
  unfold push
  split <;> rfl

theorem armsNothing_resume (c : Context σ μ) (o : ObjId) : ArmsNothing c.io (c.resume o).io := by
  have hr := resume_resumes c o
  have hc := armsNothing_cancel c.io o
  generalize c.resume o = c' at hr ⊢
  cases hr with
  | dead hd => exact .refl _
  | plain hd hf => exact hc
  | gone hd hf hp => exact hc
  | raised hd hf hp he => exact hc.trans (.of_eq (io_addtoDestroy _ _ _))
  | woken hd hf hp he => exact hc.trans (.of_eq (io_setPromise _ _ _))

theorem armsNothing_processQueueItem (c : Context σ μ) (i : ToProcessItem μ) :
    ArmsNothing c.io (c.processQueueItem i).1.io := by
  cases i with
  | message a m =>
    simp only [processQueueItem]
    split
    · have hp : ArmsNothing c.io (c.push a.slot m).io := .of_eq (io_push _ _ _)
      simp only [send]
      split
      · exact hp.trans (armsNothing_resume _ _)
      · exact hp
    · exact .refl _
  | resume p n =>
    simp only [processQueueItem]
    split
    · split
      · exact armsNothing_resume _ _
      · exact .refl _
    · exact .refl _

theorem armsNothing_runHandler (c : Context σ μ) (h : Handler σ) :
    ArmsNothing c.io (c.runHandler h).io := by
  cases h with
  | aborted => exact .refl _
  | timer o n =>
    simp only [runHandler]
    split
    · exact .refl _
    · exact armsNothing_resume _ _
  | continuation f =>
    simp only [runHandler]
    split
    · exact .refl _
    · split
      · exact armsNothing_resume _ _
      · exact .refl _
  | user owner s =>
    simp only [runHandler]
    split <;> exact .refl _

theorem armsNothing_popReady {c : Context σ μ} {h : Handler σ} {hs : List (Handler σ)}
    (hr : c.io.ready = h :: hs) : ArmsNothing c.io (c.popReady hs).io :=
  ⟨rfl, fun _ => id, fun d hd _ => by rw [hr]; exact List.mem_cons_of_mem _ hd⟩

theorem armsNothing_destroy (c : Context σ μ) (dtor : σ → σ) (o : ObjId) (reason : String) :
    ArmsNothing c.io (c.destroy dtor o reason).io := by
  have hkill := killLinked_same io (fun d p => io_addtoDestroy d p reason) (c.setLife o .destroyed) o
  have hio : (((c.setLife o .destroyed).killLinked o reason).notifyDeath o).io = c.io :=
    (notifyDeath_same io (fun _ _ _ => rfl) _ o).trans hkill
  have hc := armsNothing_cancel (((c.setLife o .destroyed).killLinked o reason).notifyDeath o).io o
  exact hio ▸ hc

/-! ## Calls that may arm or post -/

theorem setIfUnset_posts {p : EslangPromise Continuation}
    (h : (!p.set_ && p.exec_.isSome) = false) : p.setIfUnset.2 = [] := by
  unfold EslangPromise.setIfUnset EslangPromise.set
  split
  · rfl
  · simp_all

theorem stopped_onPromise (c : Context σ μ) (f : PromiseRef)
    (act : EslangPromise Continuation → EslangPromise Continuation × List Continuation) :
    (c.onPromise f act).io.stopped = c.io.stopped := by
  unfold onPromise
  split
  · rfl
  · simp [post, IoService.post, io_setPromise]

theorem io_onPromise {c : Context σ μ} {f : PromiseRef}
    {act : EslangPromise Continuation → EslangPromise Continuation × List Continuation}
    (h : ∀ p, c.promise f = some p → (act p).2 = []) : (c.onPromise f act).io = c.io := by
  unfold onPromise
  split
  · rfl
  next p hp => simp [post, post_nil (h p hp), io_setPromise]

theorem io_promiseAct {c : Context σ μ} {n : Nat} {op : Op σ μ}
    {act : EslangPromise Continuation → EslangPromise Continuation × List Continuation}
    (ha : PromiseAct n op act)
    (h : (∃ k, op = .setIfUnset n k) ∨ (∃ e k, op = .setException n e k) → c.primed (.user n) = false) :
    (c.onPromise (.user n) act).io = c.io := by
  refine io_onPromise fun p hp => ?_
  have hprimed : c.primed (.user n) = (!p.set_ && p.exec_.isSome) := by simp [primed, hp]
  cases ha with
  | setIfUnset k => exact setIfUnset_posts (hprimed ▸ h (.inl ⟨k, rfl⟩))
  | setException e k => exact setIfUnset_posts (hprimed ▸ h (.inr ⟨e, k, rfl⟩))
  | reset k => rfl

theorem stopped_armTimer (c : Context σ μ) (o : ObjId) (w : Waiting) :
    (c.armTimer o w).io.stopped = c.io.stopped := by
  unfold armTimer
  split <;> rfl

theorem stopped_suspended (c : Context σ μ) (o : ObjId) (w : Waiting) (t : Coro σ μ) :
    (c.suspended o w t).io.stopped = c.io.stopped := by
  unfold suspended arm armFuture
  split
  · rfl
  · split <;> simp [stopped_armTimer, stopped_onPromise] <;> rfl

theorem io_suspended {c : Context σ μ} {o : ObjId} {w : Waiting} {t : Coro σ μ}
    (h : c.armsWait w = false) : (c.suspended o w t).io = c.io := by
  have hset : ∀ f, (c.setWaiting o (some w) t).promise f = c.promise f := fun _ => rfl
  unfold suspended arm
  split
  · rfl
  next hr =>
    simp only [armsWait, hr, Bool.not_false, Bool.true_and, Bool.or_eq_false_iff,
      Option.isSome_eq_false_iff, Option.isNone_iff_eq_none] at h
    obtain ⟨hs, hf⟩ := h
    have htimer : (c.setWaiting o (some w) t).armTimer o w = c.setWaiting o (some w) t := by
      simp [armTimer, hs]
    rw [htimer]
    unfold armFuture
    split
    · rfl
    next f hw =>
      refine (io_onPromise fun p hp => ?_).trans rfl
      rw [hset] at hp
      have hunset : p.set_ = false := by simpa [hw, hp] using hf
      simp [EslangPromise.setContinuation, hunset]

theorem dropSlot_io (c : Context σ μ) (s : SlotId) :
    (c.dropSlot s).io.stopped = c.io.stopped ∧
      (c.primed (.throttle s) = false → (c.dropSlot s).io = c.io) := by
  unfold dropSlot
  split
  · exact ⟨rfl, fun _ => rfl⟩
  next q hq =>
    refine ⟨rfl, fun h => post_nil (setIfUnset_posts ?_)⟩
    simpa [primed, promise, hq] using h

theorem primed_dropSlot {c : Context σ μ} {s s' : SlotId} (h : c.primed (.throttle s') = false) :
    (c.dropSlot s).primed (.throttle s') = false := by
  have hbox : ((c.dropSlot s).slots s').queue = (c.slots s').queue ∨
      ((c.dropSlot s).slots s').queue = none := by
    unfold dropSlot
    split
    · exact .inl rfl
    · by_cases he : s' = s
      · exact .inr (by simp [post, setQueue, he])
      · exact .inl (by simp [post, setQueue, he])
  rcases hbox with hb | hb
  · simpa [primed, promise, hb] using h
  · simp [primed, promise, hb]

theorem dropSlots_io (c : Context σ μ) (o : ObjId) :
    (c.dropSlots o).io.stopped = c.io.stopped ∧
      (c.slotsPrimed o = false → (c.dropSlots o).io = c.io) := by
  have hdrop : ∀ (ss : List SlotId) (d : Context σ μ), (ss.foldl dropSlot d).io.stopped = d.io.stopped ∧
      ((∀ s ∈ ss, d.primed (.throttle s) = false) → (ss.foldl dropSlot d).io = d.io) := by
    intro ss
    induction ss with
    | nil => exact fun d => ⟨rfl, fun _ => rfl⟩
    | cons s ss ih =>
      intro d
      obtain ⟨hst, hio⟩ := ih (d.dropSlot s)
      obtain ⟨hst', hio'⟩ := dropSlot_io d s
      refine ⟨hst.trans hst', fun h => (hio fun s' hs' => ?_).trans (hio' (h s List.mem_cons_self))⟩
      exact primed_dropSlot (h s' (List.mem_cons_of_mem _ hs'))
  refine ⟨(hdrop _ c).1, fun h => (hdrop _ c).2 fun s hs => ?_⟩
  simp only [List.mem_filter, List.mem_reverse, decide_eq_true_eq] at hs
  simpa [hs.2] using List.any_eq_false.mp h s hs.1

theorem getOptional_io (c : Context σ μ) (s : SlotId) :
    (c.getOptional s).2.io.stopped = c.io.stopped := by
  unfold getOptional
  split
  · rfl
  · split <;> rfl

theorem stopped_getVals (c : Context σ μ) (ss : List SlotId) :
    (c.getVals ss).2.io.stopped = c.io.stopped := by
  induction ss generalizing c with
  | nil => rfl
  | cons s ss ih => exact (ih _).trans (getOptional_io c s)

/-- One pop of a primed slot posts only on the way from `kThrottle` to one below. -/
theorem getOptional_crosses {c : Context σ μ} {s : SlotId} {ss : List SlotId}
    (h : ∀ s' ∈ s :: ss, (c.primed (.throttle s') && c.crossesThrottle (s :: ss) s') = false) :
    (c.getOptional s).2.io = c.io ∧
      ∀ s' ∈ ss, ((c.getOptional s).2.primed (.throttle s') &&
        (c.getOptional s).2.crossesThrottle ss s') = false := by
  have hcount : ∀ s', ss.count s' ≤ (s :: ss).count s' := fun s' => List.count_le_count_cons
  have hrest : ∀ s' ∈ ss, (c.primed (.throttle s') && c.crossesThrottle ss s') = false := by
    intro s' hs'
    have hs := h s' (List.mem_cons_of_mem _ hs')
    simp only [Bool.and_eq_false_iff] at hs ⊢
    refine hs.imp id fun hc => ?_
    cases hq : (c.slots s').queue with
    | none => simp [crossesThrottle, hq]
    | some q =>
      have := hcount s'
      simp only [crossesThrottle, hq, Option.any_some, Bool.and_eq_false_iff, decide_eq_false_iff_not]
        at hc ⊢
      omega
  unfold getOptional
  split
  next hq => exact ⟨rfl, hrest⟩
  next q hq =>
    split
    next hp => exact ⟨rfl, hrest⟩
    next m q' posted hp =>
      have hself := h s List.mem_cons_self
      have hsize := MessageQueue.size_pop hp
      have hcons : (s :: ss).count s = ss.count s + 1 := List.count_cons_self
      simp only [primed, promise, crossesThrottle, hq, Option.map_some, Option.any_some, hcons,
        Bool.and_eq_false_iff, decide_eq_false_iff_not] at hself
      have hposted : posted = [] := by
        rcases MessageQueue.pop_promise hp with ⟨hs9, -, rfl⟩ | ⟨-, -, rfl⟩
        · apply setIfUnset_posts
          rw [Bool.and_eq_false_iff]
          apply hself.resolve_right
          omega
        · rfl
      refine ⟨post_nil hposted, fun s' hs' => ?_⟩
      by_cases he : s' = s
      · subst he
        simp only [primed, promise, crossesThrottle, post, setQueue, Function.update_self,
          Option.map_some, Option.any_some, Bool.and_eq_false_iff, decide_eq_false_iff_not]
        rcases MessageQueue.pop_promise hp with ⟨hs9, -, -⟩ | ⟨-, hpp, -⟩
        · right
          left
          omega
        · rw [hpp]
          refine hself.imp id fun hc => ?_
          omega
      · simpa [primed, promise, crossesThrottle, post, setQueue, he] using hrest s' hs'

theorem io_getVals {c : Context σ μ} {ss : List SlotId}
    (h : ∀ s ∈ ss, (c.primed (.throttle s) && c.crossesThrottle ss s) = false) :
    (c.getVals ss).2.io = c.io := by
  induction ss generalizing c with
  | nil => rfl
  | cons s ss ih =>
    obtain ⟨hio, hrest⟩ := getOptional_crosses h
    exact (ih hrest).trans hio

/-! ## The invariant -/

theorem io_spawnWith (c : Context σ μ) (self : Option ObjId) (how : SpawnKind) (ctor : σ) :
    (c.spawnWith self how ctor).io = c.io := by
  unfold spawnWith nextPid
  split <;> rfl

theorem io_spawned (c : Context σ μ) (self : Option ObjId) (how : SpawnKind) (p : Pid) :
    (c.spawned self how p).io = c.io := by
  unfold spawned
  split <;> rfl

theorem io_newSlot (c : Context σ μ) (role : Role) (o : ObjId) : (c.newSlot role o).io = c.io := by
  unfold newSlot
  split <;> rfl

theorem io_link {c c' : Context σ μ} {o : ObjId} {p : Pid} (hl : c.link o p = .ok c') :
    c'.io = c.io := by
  unfold link at hl
  split at hl <;> cases hl
  rfl

/-- What a step that is not the environment's does to the io_service: it may stop an idle one; it
arms nothing unless the call it makes does. -/
theorem effect_io {code : Code σ μ} {c c' : Context σ μ} {l : Label} {out : List (Event μ)}
    (he : Effect code c l out c') :
    (c'.io = c.io.stopIfIdle) ∨
      (c'.io.stopped = c.io.stopped ∧
        (c.io.stopped = true → c.arms code = false → ArmsNothing c.io c'.io)) := by
  have hless : ArmsNothing c.io c'.io → c'.io.stopped = c.io.stopped ∧
      (c.io.stopped = true → c.arms code = false → ArmsNothing c.io c'.io) :=
    fun h => ⟨h.stopped, fun _ _ => h⟩
  cases he with
  | goOn hs s => exact .inr (hless (.refl _))
  | fault f => exact .inr (hless (.refl _))
  | send hs hop hm s' => exact .inr (hless (.refl _))
  | @suspend o rest w t hw =>
    refine .inr ⟨stopped_suspended _ _ _ _, fun _ harm => .of_eq (io_suspended ?_)⟩
    show c.armsWait w = false
    cases hw with
    | yield hs hop hm hq => rfl
    | @throttle t₀ a m k p hs ht hc =>
      have hcheck : c.checkArms a = c.armsWait (.future p) := by simp [checkArms, hc]
      rcases ht with rfl | ⟨s, rfl, hop, hm, hq⟩
      · simpa [arms, hs, hcheck] using harm
      · have hq : c.waitOnQueue = false := by simpa [waitOnQueue] using hq
        simpa [arms, hs, hop, hq, hcheck] using harm
    | plain hs hop hb => simpa [arms, hs, hop] using harm
  | throttleSend hs ht hc => exact .inr (hless (.refl _))
  | newSlot hs ho s' => exact .inr (hless (.of_eq (io_newSlot _ _ _)))
  | @dropSlot role s₀ rest s k hs hop ho s' =>
    obtain ⟨hst, hio⟩ := dropSlot_io c s
    exact .inr ⟨hst, fun _ harm => .of_eq (hio (by simpa [arms, hs, hop] using harm))⟩
  | @getVals role s rest ss k hs hop ho s' =>
    refine .inr ⟨stopped_getVals c ss, fun _ harm => .of_eq (io_getVals fun s hm => ?_)⟩
    simp only [arms, hs, hop] at harm
    simpa using List.any_eq_false.mp harm s hm
  | spawn hs hop hm => exact .inr (hless (.of_eq (io_spawnWith _ _ _ _)))
  | addKillOnDie hs p s' => exact .inr (hless (.refl _))
  | link hs p hl s' =>
    have hio := io_link hl
    exact .inr (hless (.of_eq hio))
  | kill hs p s' => exact .inr (hless (.of_eq (io_addtoDestroy _ _ _)))
  | newPromise hs owner s' => exact .inr (hless (.refl _))
  | @onPromise role s rest act hs n ha s' =>
    refine .inr ⟨stopped_onPromise _ _ _, fun _ harm => .of_eq (io_promiseAct ha ?_)⟩
    rintro (⟨k, hop⟩ | ⟨e, k, hop⟩) <;> simpa [arms, hs, hop] using harm
  | asyncOp hs h' s' => exact .inr (hless ⟨rfl, fun _ => id, fun _ hm _ => hm⟩)
  | asyncDone hs hop =>
    refine .inr (hless ⟨rfl, fun _ => id, fun f hm hf => ?_⟩)
    rcases List.mem_append.mp hm with hm | hm
    · exact hm
    · cases List.mem_singleton.mp hm
      cases hf
  | started hs body s' => exact .inr (hless (.of_eq (io_spawned _ _ _ _)))
  | @ctorThrew o s e role t' rest' hs hop s' =>
    obtain ⟨hst, hio⟩ := dropSlots_io (c.setLife o .failed) o
    refine .inr ⟨hst, fun _ harm => .of_eq (hio ?_)⟩
    have : c.slotsPrimed o = false := by simpa [arms, hs, hop] using harm
    exact this
  | leave hs hr => exact .inr (hless (.refl _))
  | bodyReturned hs => exact .inr (hless (.of_eq (io_addtoDestroy _ _ _)))
  | bodyThrew hs e => exact .inr (hless (.of_eq (io_addtoDestroy _ _ _)))
  | @dtorReturned o s rest hs hop =>
    obtain ⟨hst, hio⟩ := dropSlots_io { c with stack := rest } o
    refine .inr ⟨hst, fun _ harm => .of_eq (hio ?_)⟩
    have : c.slotsPrimed o = false := by simpa [arms, hs, hop] using harm
    exact this
  | escaped hs hr e => exact .inr (hless (.refl _))
  | finish hs hp hn => exact .inr (hless (.refl _))
  | take hs hp hq => exact .inr (hless (armsNothing_processQueueItem (c.popFront _) _))
  | toRunOne hs hp hq => exact .inr (hless (.refl _))
  | ioReturn ph hs hp => exact .inl rfl
  | drained hs hp hr => exact .inr (hless (.refl _))
  | run hs hp hst hr =>
    exact .inr (hless ((armsNothing_popReady hr).trans (armsNothing_runHandler _ _)))
  | @destroy o reason rest hs hp hd =>
    exact .inr (hless (armsNothing_destroy { c with toDestroy := rest } _ o reason))
  | toLoop hs hp hd => exact .inr (hless (.refl _))
  | expire i hl hw =>
    refine .inr ⟨rfl, fun hst => ?_⟩
    simp [looking, hst] at hl
  | async i h' hl hh =>
    refine .inr ⟨rfl, fun hst => ?_⟩
    simp [looking, hst] at hl

theorem not_armed_of_noWork {c : Context σ μ} (h : c.io.noWork = true) : ¬ c.Armed := by
  simp only [IoService.noWork, Bool.and_eq_true, List.isEmpty_iff] at h
  simp [Armed, h.1.1, h.1.2]

/-- The step guard: while the io_service is stopped the running code arms and posts nothing. -/
def ArmsOnlyWhileRunning (code : Code σ μ) (c : Context σ μ) (_ : Label) : Prop :=
  c.io.stopped = true → c.arms code = false

instance (code : Code σ μ) (c : Context σ μ) (l : Label) :
    Decidable (ArmsOnlyWhileRunning code c l) := inferInstanceAs (Decidable (_ → _))

theorem effect_stopped {code : Code σ μ} {c c' : Context σ μ} {l : Label} {out : List (Event μ)}
    (he : Effect code c l out c') (hg : ArmsOnlyWhileRunning code c l)
    (h : c.io.stopped = true → ¬ c.Armed) (hs : c'.io.stopped = true) : ¬ c'.Armed := by
  rcases effect_io he with hio | ⟨hst, hio⟩
  · have harmed : c'.Armed → c.Armed := by simp [Armed, hio, IoService.stopIfIdle]
    simp only [hio, IoService.stopIfIdle, Bool.or_eq_true] at hs
    rcases hs with hs | hs
    · exact fun ha => h hs (harmed ha)
    · exact fun ha => not_armed_of_noWork hs (harmed ha)
  · have hs : c.io.stopped = true := hst ▸ hs
    exact fun ha => h hs ((hio hs (hg hs)).armed ha)

end Context

/-- **The event loop is stuck only by work armed while the io_service is stopped.** In every run whose
code arms and posts nothing while the io_service is stopped, `run_one` is never called on a stopped
io_service with a timer armed or a continuation posted. -/
theorem loop_not_stuck {σ μ : Type} {code : Code σ μ} {main : σ} {tr : List (Event μ)}
    {c : Context σ μ} (h : code.RunsTo (Context.ArmsOnlyWhileRunning code) main tr c) :
    c.AboutToRunOne → c.Armed → c.io.stopped = false := by
  have hinv : c.io.stopped = true → ¬ c.Armed :=
    h.invariant (fun _ c => c.io.stopped = true → ¬ c.Armed) (by simp [Context.init])
      fun _ _ _ _ _ hi hg hs => Context.effect_stopped (Context.step_effect hs).2 hg hi
  intro _ hw
  by_contra hst
  exact hinv (by simpa using hst) hw

/-- One process that sleeps, yields and sleeps again. -/
def sleepYieldSleep : Code Nat Unit where
  op
    | 0 => .spawn .plain 10 fun _ => 1
    | 10 => .started 11
    | 11 => .awaitSuspend (.timeout 1) 12
    | 12 => .awaitSuspend .yield 13
    | 13 => .awaitSuspend (.timeout 1) 14
    | _ => .coReturn
  dtor _ := 99

/-- The first sleep is armed before the io_service has ever stopped. -/
theorem loop_first_sleep :
    ∃ tr c, sleepYieldSleep.RunsTo (Context.ArmsOnlyWhileRunning sleepYieldSleep) 0 tr c ∧
      c.AboutToRunOne ∧ c.Armed ∧ c.io.stopped = false := by
  obtain ⟨tr, c, hr, ha, ht⟩ := System.exec_reaches (M := sleepYieldSleep.system)
    (g := fun c l => decide (Context.ArmsOnlyWhileRunning sleepYieldSleep c l))
    (fun _ _ h => of_decide_eq_true h) (w := List.replicate 6 .tick) (s := Context.init 0)
    (P := fun _ c => (c.stack.length = 0 ∧ c.phase = .loop ∧
      c.processes.length ≠ c.tombstones.length ∧ c.queue = []) ∧ c.io.timers ≠ []) (by decide)
  have ha : c.AboutToRunOne := ⟨List.length_eq_zero_iff.mp ha.1, ha.2⟩
  exact ⟨tr, c, hr, ha, .inl ht, loop_not_stuck hr ha (.inl ht)⟩

/-- The yield lets the io_service run out of work; the second sleep is armed on a stopped one. -/
theorem loop_stuck_after_yield :
    ∃ tr c, sleepYieldSleep.RunsTo System.anyStep 0 tr c ∧ c.AboutToRunOne ∧ c.Armed ∧
      c.io.stopped = true := by
  obtain ⟨tr, c, hr, ha, ht, hst⟩ := System.exec_reaches (M := sleepYieldSleep.system)
    (g := fun _ _ => true) (G := System.anyStep) (fun _ _ _ => trivial)
    (w := List.replicate 7 .tick ++ .expire 0 :: List.replicate 8 .tick) (s := Context.init 0)
    (P := fun _ c => (c.stack.length = 0 ∧ c.phase = .loop ∧
      c.processes.length ≠ c.tombstones.length ∧ c.queue = []) ∧ c.io.timers ≠ [] ∧
      c.io.stopped = true) (by decide)
  exact ⟨tr, c, hr, ⟨List.length_eq_zero_iff.mp ha.1, ha.2⟩, .inl ht, hst⟩

end Eslang
