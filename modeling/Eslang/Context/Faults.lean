import Eslang.Context.Freshness

/-! # The undefined behaviour a run can end in

`Faults code c f` lists, once, every situation in which the next step of `c` runs into undefined behaviour,
with the object that is gone. `step_faults` is the inversion: a step that ends in a fault started in one
of these situations. -/
namespace Eslang
set_option autoImplicit false
open Lib

/-- The process that a handler of the io_service captured. -/
def Handler.this {σ : Type} : Handler σ → Option ObjId
  | timer o _ => some o
  | aborted => none
  | continuation f => some f.this
  | user owner _ => owner

namespace Context
variable {σ μ : Type}

/-- The next step of the io_service executes handler `d`. -/
def Runs (c : Context σ μ) (d : Handler σ) : Prop :=
  c.stack = [] ∧ (c.phase = .runOne ∨ c.phase = .poll) ∧ c.io.stopped = false ∧
    c.io.ready.head? = some d

/-- Code `t` is about to evaluate `canQueue(a)`, in a call of its own or inside `sendThrottled`. -/
def LooksUp (code : Code σ μ) (c : Context σ μ) (t : Coro σ μ) (a : SendAddress) : Prop :=
  (∃ m k, AtCheck code c t a m k) ∨ ∃ s k, t = .code s ∧ code.op s = .canQueue a k ∧ c.made a = true

inductive Faults (code : Code σ μ) (c : Context σ μ) : Fault → Prop
  /-- `canQueue` meets an empty entry of the table, or the slot of a live process is gone. -/
  | lookup {role t rest a f} (hs : c.stack = ⟨role, t⟩ :: rest) (ha : LooksUp code c t a)
      (hc : c.canQueue a = .error f) : Faults code c f
  | test {role s rest w k f} (hs : c.stack = ⟨role, .code s⟩ :: rest)
      (hop : code.op s = .awaitReady w k) (hb : c.buildable role w = true)
      (hw : c.awaitReady w = .error f) : Faults code c f
  | receive {role s rest ss k f} (hs : c.stack = ⟨role, .code s⟩ :: rest)
      (hop : code.op s = .getVals ss k) (ho : ss.all (c.ownsSlot role) = true)
      (hf : (c.getVals ss).2.fault = some f) : Faults code c f
  /-- A process suspends on a promise that is gone. -/
  | wait {o rest w t p} (hw : Awaits code c o rest w t) (hp : w.wakeOnFuture = some p)
      (hn : c.promise p = none) : Faults code c (.promiseGone p)
  | act {role s rest n act} (hs : c.stack = ⟨role, .code s⟩ :: rest)
      (ha : PromiseAct n (code.op s) act) (hn : c.promise (.user n) = none) :
      Faults code c (.promiseGone (.user n))
  | dtorThrew {o s rest e} (hs : c.stack = ⟨.dtor o, .code s⟩ :: rest) (hop : code.op s = .throw e) :
      Faults code c (.terminate e)
  /-- A message for a slot that is gone reaches a live process. -/
  | deliver {a m q o} (hs : c.stack = []) (hp : c.phase = .loop) (hq : c.queue = .message a m :: q)
      (hf : c.findProc a.pid = some o) (hn : (c.slots a.slot).queue = none) :
      Faults code c (.slotGone a.slot)
  /-- `resume` calls `process()` on a promise that is gone. -/
  | resume {o p} (hw : c.Woken o) (hd : (c.heap o).dead = false) (ha : c.awaited o = some p)
      (hn : c.promise p = none) : Faults code c (.promiseGone p)
  | handler {d o} (hr : c.Runs d) (ho : d.this = some o) (hl : (c.heap o).freed = true) :
      Faults code c (.processGone o)

/-! ## What the operations do to the fault -/

@[simp] theorem fault_setProc (c : Context σ μ) (o : ObjId) (p : RunningProcess σ μ) :
    (c.setProc o p).fault = c.fault := rfl

@[simp] theorem fault_setPromise (c : Context σ μ) (f : PromiseRef) (p : EslangPromise Continuation) :
    (c.setPromise f p).fault = c.fault := by
  cases f <;> rfl

@[simp] theorem fault_addtoDestroy (c : Context σ μ) (p : Pid) (reason : String) :
    (c.addtoDestroy p reason).fault = c.fault := by
  unfold addtoDestroy
  split <;> rfl

@[simp] theorem fault_dropSlots (c : Context σ μ) (o : ObjId) : (c.dropSlots o).fault = c.fault := by
  refine dropSlots_same fault (fun d s => ?_) c o
  unfold dropSlot
  split <;> rfl

@[simp] theorem fault_newSlot (c : Context σ μ) (role : Role) (o : ObjId) :
    (c.newSlot role o).fault = c.fault := by
  unfold newSlot
  split <;> rfl

@[simp] theorem fault_spawned (c : Context σ μ) (self : Option ObjId) (how : SpawnKind) (p : Pid) :
    (c.spawned self how p).fault = c.fault := by
  unfold spawned
  split <;> rfl

@[simp] theorem fault_spawnWith (c : Context σ μ) (self : Option ObjId) (how : SpawnKind) (ctor : σ) :
    (c.spawnWith self how ctor).fault = c.fault := by
  unfold spawnWith nextPid
  split <;> rfl

theorem fault_link {c c' : Context σ μ} {o : ObjId} {p : Pid} (hl : c.link o p = .ok c') :
    c'.fault = c.fault := by
  unfold link at hl
  split at hl <;> cases hl
  rfl

theorem fault_destroy (c : Context σ μ) (dtor : σ → σ) (o : ObjId) (reason : String) :
    (c.destroy dtor o reason).fault = c.fault := by
  have hkill := killLinked_same fault (fun d p => fault_addtoDestroy d p reason)
    (c.setLife o .destroyed) o
  exact (notifyDeath_same fault (fun _ _ _ => rfl) _ o).trans hkill

theorem fault_onPromise {c : Context σ μ} {f : PromiseRef}
    {act : EslangPromise Continuation → EslangPromise Continuation × List Continuation} {x : Fault}
    (hc : c.fault = none) (h : (c.onPromise f act).fault = some x) :
    c.promise f = none ∧ x = .promiseGone f := by
  unfold onPromise at h
  split at h
  next hp => exact ⟨hp, (Option.some.inj h).symm⟩
  next p hp => simp [post, hc] at h

theorem promise_armTimer (c : Context σ μ) (o : ObjId) (w : Waiting) (f : PromiseRef) :
    (c.armTimer o w).promise f = c.promise f := by
  unfold armTimer
  split
  · rfl
  · cases f <;> rfl

theorem fault_suspended {c : Context σ μ} {o : ObjId} {w : Waiting} {t : Coro σ μ} {x : Fault}
    (hc : c.fault = none) (h : (c.suspended o w t).fault = some x) :
    ∃ p, w.wakeOnFuture = some p ∧ c.promise p = none ∧ x = .promiseGone p := by
  have htimer : ((c.setWaiting o (some w) t).armTimer o w).fault = none := by
    unfold armTimer
    split <;> exact hc
  unfold suspended arm at h
  split at h
  · simp [queueResume, setWaiting, hc] at h
  · unfold armFuture at h
    split at h
    · simp [htimer] at h
    next p hp =>
      obtain ⟨hn, hx⟩ := fault_onPromise htimer h
      rw [promise_armTimer] at hn
      exact ⟨p, hp, by cases p <;> exact hn, hx⟩

theorem fault_resume {c : Context σ μ} {o : ObjId} {x : Fault} (hc : c.fault = none)
    (h : (c.resume o).fault = some x) :
    (c.heap o).dead = false ∧ ∃ p, c.awaited o = some p ∧ c.promise p = none ∧ x = .promiseGone p := by
  have hr := resume_resumes c o
  generalize c.resume o = d at hr h
  cases hr with
  | dead hd => simp [hc] at h
  | plain hd hf => simp [enter, cancelTimer, hc] at h
  | @gone p hd hf hp => exact ⟨hd, p, hf, hp, (Option.some.inj h).symm⟩
  | raised hd hf hp he => simp [cancelTimer, hc] at h
  | woken hd hf hp he => simp [enter, cancelTimer, hc] at h

theorem canQueue_error {c : Context σ μ} {a : SendAddress} {x : Fault} (h : c.canQueue a = .error x) :
    (c.findProcConst a.pid = .error x ∧ x = .emptyEntry a.pid) ∨
      (∃ o, c.findProcConst a.pid = .ok (some o)) ∧ (c.slots a.slot).queue = none ∧
        x = .slotGone a.slot := by
  unfold canQueue at h
  split at h
  next f hf =>
    cases h
    refine .inl ⟨hf, ?_⟩
    unfold findProcConst at hf
    split at hf <;> cases hf
    rfl
  next => cases h
  next o hf =>
    split at h
    next hn =>
      cases h
      exact .inr ⟨⟨o, hf⟩, hn, rfl⟩
    next => cases h

theorem awaitReady_error {c : Context σ μ} {w : Waiting} {x : Fault} (h : c.awaitReady w = .error x) :
    (∃ s ∈ w.slots, (c.slots s).queue = none ∧ x = .slotGone s) ∨
      ∃ p, w.readyFuture = some p ∧ c.promise p = none ∧ x = .promiseGone p := by
  unfold awaitReady at h
  split at h
  next s hs =>
    cases h
    refine .inl ⟨s, List.mem_of_find?_eq_some hs, ?_, rfl⟩
    simpa using List.find?_some hs
  next =>
    split at h
    next p hp =>
      cases h
      obtain ⟨hp, hn⟩ := Option.filter_eq_some_iff.mp hp
      exact .inr ⟨p, hp, by simpa using hn, rfl⟩
    next => cases h

theorem getOptional_queue_none (c : Context σ μ) (s s' : SlotId) :
    ((c.getOptional s).2.slots s').queue = none ↔ (c.slots s').queue = none := by
  unfold getOptional
  split
  next hq => rfl
  next q hq =>
    split
    next => rfl
    next m q' posted hpop =>
      by_cases he : s' = s
      · subst he
        simp [setQueue, post, hq]
      · simp [setQueue, post, he]

theorem getVals_fault {c : Context σ μ} {ss : List SlotId} {x : Fault} (hc : c.fault = none)
    (h : (c.getVals ss).2.fault = some x) : ∃ s ∈ ss, (c.slots s).queue = none := by
  induction ss generalizing c with
  | nil => simp [getVals, hc] at h
  | cons s ss ih =>
    cases hq : (c.slots s).queue with
    | none => exact ⟨s, by simp, hq⟩
    | some q =>
      have hf : (c.getOptional s).2.fault = none := by
        unfold getOptional
        rw [hq]
        split
        · simp_all
        · split <;> simp_all [setQueue, post]
      obtain ⟨s', hs', hn⟩ := ih hf h
      exact ⟨s', List.mem_cons_of_mem _ hs', (getOptional_queue_none c s s').mp hn⟩

theorem getVals_slotGone {c : Context σ μ} {ss : List SlotId}
    (hc : ∀ x, c.fault = some x → ∃ s, x = .slotGone s) {x : Fault}
    (h : (c.getVals ss).2.fault = some x) : ∃ s, x = .slotGone s := by
  induction ss generalizing c with
  | nil => exact hc x h
  | cons s ss ih =>
    refine ih (c := (c.getOptional s).2) (fun y hy => ?_) h
    unfold getOptional at hy
    split at hy
    · exact ⟨s, (Option.some.inj hy).symm⟩
    · split at hy <;> exact hc y hy

/-! ## The inversion -/

theorem tryQueue_faults {code : Code σ μ} {c : Context σ μ} {o : ObjId} {t : Coro σ μ}
    {rest : List (Frame σ μ)} {a : SendAddress} {m : μ} {k : σ} {x : Fault} (hc : c.fault = none)
    (hs : c.stack = ⟨.body o, t⟩ :: rest) (ht : AtCheck code c t a m k)
    (h : (c.tryQueue o rest a m k).1.fault = some x) : Faults code c x := by
  unfold tryQueue at h
  split at h
  next f hq =>
    cases h
    exact .lookup hs (.inl ⟨m, k, ht⟩) hq
  next p hq =>
    obtain ⟨p', hp, hn, rfl⟩ := fault_suspended (c := { c with stack := rest }) hc h
    exact .wait (.throttle hs ht hq) hp (by cases p' <;> exact hn)
  next hq => simp [queueSend, continueWith, hc] at h

theorem reply_fault {code : Code σ μ} {c c' : Context σ μ} {rest : List (Frame σ μ)}
    {r : Except String Pid} (h : c.reply code rest r = some c') : c'.fault = c.fault := by
  obtain ⟨role, t, rest', how, s', -, -, rfl⟩ := reply_eq h
  cases r with
  | ok p => exact fault_spawned c _ _ _
  | error e => rfl

theorem stepOp_faults {code : Code σ μ} {c c' : Context σ μ} {role : Role} {s : σ}
    {rest : List (Frame σ μ)} {out : List (Event μ)} {x : Fault} (hc : c.fault = none)
    (hs : c.stack = ⟨role, .code s⟩ :: rest)
    (h : c.stepOp code role rest (code.op s) = some (c', out)) (hx : c'.fault = some x) :
    Faults code c x := by
  have hsame {d : Context σ μ} (hd : d.fault = c.fault) (he : c'.fault = d.fault) : Faults code c x := by
    rw [he, hd, hc] at hx
    cases hx
  cases hop : code.op s with
  | send a m k =>
    simp only [hop, stepOp, Option.ite_none_right_eq_some] at h
    obtain ⟨-, h⟩ := h
    cases h
    exact hsame rfl rfl
  | sendThrottled a m k =>
    cases role with
    | body o =>
      simp only [hop, stepOp, Option.ite_none_right_eq_some] at h
      obtain ⟨hm, h⟩ := h
      split at h
      next hq =>
        cases h
        obtain ⟨p, hp, -⟩ := fault_suspended (c := { c with stack := rest }) hc hx
        cases hp
      next hq =>
        obtain ⟨rfl, rfl⟩ := Prod.mk.inj (Option.some.inj h).symm
        exact tryQueue_faults hc hs (.inr ⟨s, rfl, hop, hm, by simpa [waitOnQueue] using hq⟩) hx
    | main => simp [hop, stepOp] at h
    | ctor o => simp [hop, stepOp] at h
    | dtor o => simp [hop, stepOp] at h
    | handler o => simp [hop, stepOp] at h
  | waitOnQueue k =>
    simp only [hop, stepOp] at h
    cases h
    exact hsame rfl rfl
  | canQueue a k =>
    simp only [hop, stepOp, Option.ite_none_right_eq_some] at h
    obtain ⟨hm, h⟩ := h
    split at h
    next f hq =>
      cases h
      cases hx
      exact .lookup hs (.inr ⟨s, k, rfl, hop, hm⟩) hq
    next p hq => cases h; exact hsame rfl rfl
  | makeSendAddress p i k =>
    simp only [hop, stepOp] at h
    cases h
    exact hsame rfl rfl
  | pid k =>
    simp only [hop, stepOp] at h
    split at h
    next o ho => cases h; exact hsame rfl rfl
    next => cases h
  | newSlot k =>
    simp only [hop, stepOp] at h
    split at h
    next o ho => cases h; exact hsame (fault_newSlot c role o) rfl
    next => cases h
  | dropSlot s' k =>
    simp only [hop, stepOp, Option.ite_none_right_eq_some] at h
    obtain ⟨-, h⟩ := h
    cases h
    refine hsame (d := c.dropSlot s') ?_ rfl
    unfold dropSlot
    split <;> rfl
  | awaitReady w k =>
    simp only [hop, stepOp, Option.ite_none_right_eq_some] at h
    obtain ⟨hb, h⟩ := h
    split at h
    next f hw =>
      cases h
      cases hx
      exact .test hs hop hb hw
    next b hw => cases h; exact hsame rfl rfl
  | awaitSuspend w k =>
    cases role with
    | body o =>
      simp only [hop, stepOp, Option.ite_none_right_eq_some] at h
      obtain ⟨hb, h⟩ := h
      cases h
      obtain ⟨p, hp, hn, rfl⟩ := fault_suspended (c := { c with stack := rest }) hc hx
      exact .wait (.plain hs hop hb) hp (by cases p <;> exact hn)
    | main => simp [hop, stepOp] at h
    | ctor o => simp [hop, stepOp] at h
    | dtor o => simp [hop, stepOp] at h
    | handler o => simp [hop, stepOp] at h
  | getVals ss k =>
    simp only [hop, stepOp, Option.ite_none_right_eq_some] at h
    obtain ⟨ho, h⟩ := h
    cases h
    exact .receive hs hop ho hx
  | spawn how ctor k =>
    simp only [hop, stepOp] at h
    split at h
    next => cases h; exact hsame (fault_spawnWith c _ _ _) rfl
    next => cases h; exact hsame (fault_spawnWith c _ _ _) rfl
    next =>
      simp only [Option.ite_none_right_eq_some] at h
      obtain ⟨-, h⟩ := h
      cases h
      exact hsame (fault_spawnWith c _ _ _) rfl
    next => cases h
  | addKillOnDie p k =>
    simp only [hop, stepOp] at h
    split at h
    next o ho => cases h; exact hsame rfl rfl
    next => cases h
  | link p k =>
    simp only [hop, stepOp] at h
    split at h
    next o ho =>
      split at h
      next d hl => cases h; exact hsame (fault_link hl) rfl
      next e hl => cases h; exact hsame rfl rfl
    next => cases h
  | queueKill p k =>
    simp only [hop, stepOp] at h
    split at h
    next o ho => cases h; exact hsame (fault_addtoDestroy c p "") rfl
    next => cases h
  | newPromise k =>
    simp only [hop, stepOp] at h
    cases h
    exact hsame rfl rfl
  | setIfUnset n k =>
    simp only [hop, stepOp, Option.ite_none_right_eq_some] at h
    obtain ⟨-, h⟩ := h
    cases h
    obtain ⟨hn, rfl⟩ := fault_onPromise hc hx
    exact .act hs (by rw [hop]; exact .setIfUnset k) hn
  | setException n e k =>
    simp only [hop, stepOp, Option.ite_none_right_eq_some] at h
    obtain ⟨-, h⟩ := h
    cases h
    obtain ⟨hn, rfl⟩ := fault_onPromise hc hx
    exact .act hs (by rw [hop]; exact .setException e k) hn
  | resetPromise n k =>
    simp only [hop, stepOp, Option.ite_none_right_eq_some] at h
    obtain ⟨-, h⟩ := h
    cases h
    obtain ⟨hn, rfl⟩ := fault_onPromise hc hx
    exact .act hs (by rw [hop]; exact .reset k) hn
  | asyncOp h' k =>
    simp only [hop, stepOp] at h
    cases h
    exact hsame rfl rfl
  | started body =>
    cases role with
    | ctor o =>
      simp only [hop, stepOp, Option.map_eq_some_iff, Prod.mk.injEq] at h
      obtain ⟨d, hd, rfl, -⟩ := h
      exact hsame (d := c.spawnArgs o body) rfl (reply_fault hd)
    | main => simp [hop, stepOp] at h
    | body o => simp [hop, stepOp] at h
    | dtor o => simp [hop, stepOp] at h
    | handler o => simp [hop, stepOp] at h
  | coReturn =>
    cases role with
    | main | handler o => simp only [hop, stepOp] at h; cases h; exact hsame rfl rfl
    | body o =>
      simp only [hop, stepOp] at h
      cases h
      exact hsame rfl (fault_addtoDestroy _ _ _)
    | dtor o =>
      simp only [hop, stepOp] at h
      cases h
      exact hsame rfl (fault_dropSlots { c with stack := rest } o)
    | ctor o => simp [hop, stepOp] at h
  | throw e =>
    cases role with
    | main | handler o => simp only [hop, stepOp] at h; cases h; exact hsame rfl rfl
    | body o =>
      simp only [hop, stepOp] at h
      cases h
      exact hsame rfl (fault_addtoDestroy _ _ _)
    | dtor o =>
      simp only [hop, stepOp] at h
      cases h
      cases hx
      exact .dtorThrew hs hop
    | ctor o =>
      simp only [hop, stepOp, Option.map_eq_some_iff, Prod.mk.injEq] at h
      obtain ⟨d, hd, rfl, -⟩ := h
      exact hsame (d := c.ctorFailed o) (fault_dropSlots (c.setLife o .failed) o) (reply_fault hd)

theorem promise_push (c : Context σ μ) (s : SlotId) (m : MessageBase μ) (f : PromiseRef) :
    (c.push s m).promise f = c.promise f := by
  unfold push
  split
  next hq => cases f <;> rfl
  next q hq =>
    by_cases hf : f = .throttle s
    · subst hf
      rw [promise_setQueue_self]
      simp [promise, hq]
    · exact promise_setQueue_ne _ hf

theorem processQueueItem_faults {code : Code σ μ} {c : Context σ μ} {i : ToProcessItem μ}
    {q : List (ToProcessItem μ)} {x : Fault} (hc : c.fault = none) (hs : c.stack = [])
    (hp : c.phase = .loop) (hq : c.queue = i :: q)
    (h : ((c.popFront q).processQueueItem i).1.fault = some x) : Faults code c x := by
  cases i with
  | message a m =>
    simp only [processQueueItem] at h
    split at h
    next o hf =>
      have hf' : c.findProc a.pid = some o := hf
      have hpush : ((c.popFront q).push a.slot m).fault = some x →
          Faults code c x := by
        intro h
        unfold push at h
        split at h
        next hn =>
          cases h
          exact .deliver hs hp hq hf' hn
        next => simp [setQueue, popFront, hc] at h
      simp only [send] at h
      split at h
      next hw =>
        rw [Bool.and_eq_true, Option.isNone_iff_eq_none] at hw
        obtain ⟨hd, p, ha, hn, rfl⟩ := fault_resume hw.2 h
        rw [promise_push] at hn
        have hheap := heap_push (c.popFront q) a.slot m
        rw [hheap] at hd
        rw [awaited, hheap] at ha
        exact .resume (.message hs hp hq hf' hw.1) hd ha (by cases p <;> exact hn)
      next => exact hpush h
    next => simp [popFront, hc] at h
  | resume p n =>
    simp only [processQueueItem] at h
    split at h
    next o hf =>
      split at h
      next hn =>
        obtain ⟨hd, f, ha, hg, rfl⟩ := fault_resume (c := c.popFront q) hc h
        have hq' : c.queue = .resume p (c.heap o).resumes :: q := by rw [hq, ← hn]; rfl
        exact .resume (.item hs hp hq' hf) hd ha (by cases f <;> exact hg)
      next => simp [popFront, hc] at h
    next => simp [popFront, hc] at h

theorem runHandler_faults {code : Code σ μ} {c : Context σ μ} {d : Handler σ} {ds : List (Handler σ)}
    {x : Fault} (hc : c.fault = none) (hs : c.stack = []) (hp : c.phase = .runOne ∨ c.phase = .poll)
    (hst : c.io.stopped = false) (hr : c.io.ready = d :: ds)
    (h : ((c.popReady ds).runHandler d).fault = some x) : Faults code c x := by
  have hruns : c.Runs d := ⟨hs, hp, hst, by simp [hr]⟩
  cases d with
  | aborted => simp [runHandler, popReady, hc] at h
  | user owner s =>
    simp only [runHandler] at h
    split at h
    next o ho =>
      cases h
      rw [Option.filter_eq_some_iff] at ho
      exact .handler hruns ho.1 ho.2
    next => simp [popReady, hc] at h
  | timer o n =>
    simp only [runHandler] at h
    split at h
    next hl =>
      cases h
      exact .handler hruns rfl (RunningProcess.freed_iff.mpr (.inl hl))
    next =>
      obtain ⟨hd, p, ha, hn, rfl⟩ := fault_resume (c := c.popReady ds) hc h
      exact .resume (.timer hs hp hst hr) hd ha (by cases p <;> exact hn)
  | continuation f =>
    simp only [runHandler] at h
    split at h
    next hl =>
      cases h
      exact .handler hruns rfl (RunningProcess.freed_iff.mpr (.inl hl))
    next =>
      split at h
      next hn =>
        obtain ⟨hd, p, ha, hg, rfl⟩ := fault_resume (c := c.popReady ds) hc h
        have hr' : c.io.ready = .continuation ⟨f.this, (c.heap f.this).resumes⟩ :: ds := by
          have hn : (c.heap f.this).resumes = f.resumes := hn
          rw [hr, hn]
        exact .resume (.continuation hs hp hst hr') hd ha (by cases p <;> exact hg)
      next => simp [popReady, hc] at h

theorem schedule_faults {code : Code σ μ} {c c' : Context σ μ} {out : List (Event μ)} {x : Fault}
    (hc : c.fault = none) (hs : c.stack = []) (h : c.schedule code = some (c', out))
    (hx : c'.fault = some x) : Faults code c x := by
  have hsame (he : c'.fault = c.fault) : Faults code c x := by
    rw [he, hc] at hx
    cases hx
  unfold schedule at h
  split at h
  next hp =>
    split at h
    next hn => cases h; exact hsame rfl
    next =>
      split at h
      next i q hq =>
        obtain ⟨rfl, rfl⟩ := Prod.mk.inj (Option.some.inj h).symm
        exact processQueueItem_faults hc hs hp hq hx
      next hq => cases h; exact hsame rfl
  next hp =>
    split at h
    next hi => cases h; exact hsame rfl
    next hi =>
      rw [Bool.or_eq_true, not_or, Bool.not_eq_true] at hi
      split at h
      next d ds hr => cases h; exact runHandler_faults hc hs (.inl hp) hi.1 hr hx
      next => cases h
  next hp => cases h; exact hsame rfl
  next hp =>
    split at h
    next hi => cases h; exact hsame rfl
    next hi =>
      rw [Bool.or_eq_true, not_or, Bool.not_eq_true] at hi
      split at h
      next d ds hr => cases h; exact runHandler_faults hc hs (.inr hp) hi.1 hr hx
      next hr => cases h; exact hsame rfl
  next hp =>
    split at h
    next o reason rest hd => cases h; exact hsame (fault_destroy { c with toDestroy := rest } _ o reason)
    next hd => cases h; exact hsame rfl
  next => cases h
  next => cases h

/-- **A step that ends in undefined behaviour starts in one of the listed situations.** -/
theorem step_faults {code : Code σ μ} {c c' : Context σ μ} {l : Label} {out : List (Event μ)}
    {x : Fault} (h : c.step code l = some (c', out)) (hx : c'.fault = some x) : Faults code c x := by
  have hc := (step_effect h).1
  unfold step at h
  rw [hc] at h
  simp only [Option.isSome_none, Bool.false_eq_true, if_false] at h
  cases l with
  | tick =>
    simp only at h
    split at h
    next f rest hs =>
      obtain ⟨role, t⟩ := f
      cases t with
      | code s => exact stepOp_faults hc hs h hx
      | throttled a m k =>
        cases role with
        | body o =>
          obtain ⟨rfl, rfl⟩ := Prod.mk.inj (Option.some.inj h).symm
          exact tryQueue_faults hc hs (.inl rfl) hx
        | main => simp [stepCode] at h
        | ctor o => simp [stepCode] at h
        | dtor o => simp [stepCode] at h
        | handler o => simp [stepCode] at h
    next hs => exact schedule_faults hc hs h hx
  | atOnce =>
    have hsame : c'.fault = c.fault := by
      cases stepAtOnce_effect h with
      | asyncDone hs hop => rfl
      | async i d hl hh => rfl
    rw [← hsame, hx] at hc
    cases hc
  | _ =>
    simp only [Option.ite_none_right_eq_some, Option.map_eq_some_iff, Prod.mk.injEq] at h
    obtain ⟨-, d, hd, rfl, rfl⟩ := h
    obtain ⟨_, _, rfl⟩ := Option.map_eq_some_iff.mp hd
    rw [show c.fault = some x from hx] at hc
    cases hc

end Context
end Eslang
