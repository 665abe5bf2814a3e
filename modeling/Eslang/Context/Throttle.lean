import Eslang.Context.Lifetime

/-! # Throttled senders and the one continuation of the throttle promise

A sender that finds a slot full suspends on the throttle promise of the slot, which holds one
continuation. As long as no sender overwrites the stored continuation of another, and each suspends
while the slot is still full, every suspended sender is stored or posted, and posted once the slot is
below `kThrottle` (`sender_not_stranded`). A sender that awaits `sendThrottled` at once finds the slot
as full as it was when it asked; one that started it as a method and awaits it later need not. -/
namespace Eslang
set_option autoImplicit false
open Lib

/-- How continuation `k` is served by the throttle promise of queue `q`: it is stored or posted; it is
posted once the queue is short or the promise set. -/
structure Served {α σ : Type} (k : Continuation) (q : MessageQueue α Continuation)
    (ready : List (Handler σ)) : Prop where
  here : q.p_.exec_ = some k ∨ .continuation k ∈ ready
  short : q.size < 10 → .continuation k ∈ ready
  isSet : q.p_.set_ = true → .continuation k ∈ ready

namespace Served
variable {α σ : Type} {k : Continuation} {q q' : MessageQueue α Continuation}
  {ready ready' : List (Handler σ)}

theorem mono (h : Served k q ready) (hp : q'.p_ = q.p_) (hs : q'.size < 10 → q.size < 10)
    (hr : .continuation k ∈ ready → .continuation k ∈ ready') : Served k q' ready' where
  here := h.here.imp (fun he => hp ▸ he) hr
  short hq := hr (h.short (hs hq))
  isSet hq := hr (h.isSet (hp ▸ hq))

/-- `pop` either leaves the queue long, or sets the promise and so posts what it stores. -/
theorem pop (h : Served k q ready) {m : α} {posted : List Continuation}
    (hp : q.pop = some (m, q', posted)) :
    Served k q' (ready ++ posted.map Handler.continuation) := by
  have hin : ∀ {fs : List Continuation}, .continuation k ∈ ready →
      .continuation k ∈ ready ++ fs.map (Handler.continuation (σ := σ)) :=
    fun h => List.mem_append_left _ h
  have hsize := MessageQueue.size_pop hp
  rcases MessageQueue.pop_promise hp with ⟨hs9, hpp, rfl⟩ | ⟨hs9, hpp, rfl⟩
  · have hall : .continuation k ∈
        ready ++ q.p_.setIfUnset.2.map (Handler.continuation (σ := σ)) := by
      rcases h.here with he | hr
      · cases hset : q.p_.set_ with
        | true => exact hin (h.isSet hset)
        | false => simp [EslangPromise.setIfUnset, EslangPromise.set, hset, he]
      · exact hin hr
    exact ⟨.inr hall, fun _ => hall, fun _ => hall⟩
  · refine h.mono hpp (fun hq => ?_) hin
    by_contra hn
    omega

/-- `process()` by another process resets the flag and drops a continuation only if it was set. -/
theorem process (h : Served k q ready) {p : EslangPromise Continuation}
    (hp : q.p_.process = .ok p) (hq : q'.p_ = p) (hs : q'.size = q.size) : Served k q' ready := by
  unfold EslangPromise.process at hp
  split at hp <;> cases hp
  refine ⟨?_, fun hlt => h.short (hs ▸ hlt), fun hset => by simp [hq] at hset⟩
  cases hset : q.p_.set_ with
  | true => exact .inr (h.isSet hset)
  | false => exact h.here.imp (fun he => by simp [hq, hset, he]) id

theorem overwrite (h : Served k q ready) {f : Continuation} (hne : q.p_.exec_ ≠ some k) :
    Served k q' (ready ++ (q.p_.setContinuation f).2.map .continuation) :=
  have hr : .continuation k ∈ ready ++ (q.p_.setContinuation f).2.map (Handler.continuation (σ := σ)) :=
    List.mem_append_left _ (h.here.resolve_left hne)
  ⟨.inr hr, fun _ => hr, fun _ => hr⟩

end Served

/-- A sender's own `setContinuation` on the promise of a full queue, or on one that is set. -/
theorem served_setContinuation {α σ : Type} {k : Continuation} {q q' : MessageQueue α Continuation}
    {ready : List (Handler σ)} (hp : q'.p_ = (q.p_.setContinuation k).1)
    (hs : 10 ≤ q'.size ∨ q.p_.set_ = true) :
    Served k q' (ready ++ (q.p_.setContinuation k).2.map .continuation) := by
  unfold EslangPromise.setContinuation EslangPromise.set at hp ⊢
  cases hset : q.p_.set_ with
  | true => exact ⟨.inr (by simp), fun _ => by simp, fun _ => by simp⟩
  | false =>
    have hs : 10 ≤ q'.size := hs.resolve_right (by simp [hset])
    simp only [hset, Bool.false_eq_true, if_false] at hp ⊢
    exact ⟨.inl (by simp [hp]), fun hq => by omega, fun hq => by simp [hp] at hq⟩

namespace Context
variable {σ μ : Type}

/-- Process `p` is suspended on the throttle promise of slot `s`, in its body or in a method. -/
def ThrottledOn (c : Context σ μ) (p : ObjId) (s : SlotId) : Prop :=
  c.Idle p ∧ ∃ w, (c.heap p).lastWaiting = some w ∧ w.wakeOnFuture = some (.throttle s) ∧
    w.isReadyForResume = false

theorem ThrottledOn.awaited {c : Context σ μ} {p : ObjId} {s : SlotId} (h : c.ThrottledOn p s) :
    c.awaited p = some (.throttle s) := by
  obtain ⟨-, w, hl, hw, -⟩ := h
  rw [Context.awaited, hl]
  exact hw

/-- The continuation that wakes `p` from its present wait. -/
def continuation (c : Context σ μ) (p : ObjId) : Continuation := ⟨p, (c.heap p).resumes⟩

/-- If slot `s` exists, its promise serves `k`. -/
def ServedAt (c : Context σ μ) (s : SlotId) (k : Continuation) : Prop :=
  ∀ q, (c.slots s).queue = some q → Served k q c.io.ready

/-! ## Operations that keep a continuation served -/

section Keep
variable {s : SlotId} {k : Continuation}

theorem servedAt_of_eq {c d : Context σ μ} (h : c.ServedAt s k)
    (hs : (d.slots s).queue = (c.slots s).queue)
    (hr : .continuation k ∈ c.io.ready → .continuation k ∈ d.io.ready) : d.ServedAt s k :=
  fun q hq => (h q (hs ▸ hq)).mono rfl id hr

theorem servedAt_post {c : Context σ μ} (h : c.ServedAt s k) (fs : List Continuation) :
    (c.post fs).ServedAt s k :=
  servedAt_of_eq h rfl fun hr => List.mem_append_left _ hr

theorem servedAt_cancelTimer {c : Context σ μ} (h : c.ServedAt s k) (o : ObjId) :
    (c.cancelTimer o).ServedAt s k :=
  servedAt_of_eq h rfl fun hr => List.mem_append_left _ hr

theorem servedAt_setQueue_ne {c : Context σ μ} (h : c.ServedAt s k) {s' : SlotId} (hne : s ≠ s')
    (q : Option (MessageQueue (MessageBase μ) Continuation)) : (c.setQueue s' q).ServedAt s k :=
  servedAt_of_eq h (by simp [setQueue, hne]) id

theorem servedAt_push {c : Context σ μ} (h : c.ServedAt s k) (s' : SlotId) (m : MessageBase μ) :
    (c.push s' m).ServedAt s k := by
  unfold push
  split
  next => exact h
  next q hq =>
    by_cases hs : s = s'
    · subst hs
      intro q' hq'
      simp only [setQueue, Function.update_self, Option.some.injEq] at hq'
      subst hq'
      refine (h q hq).mono (MessageQueue.push_p q m) (fun hlt => ?_) id
      simp only [MessageQueue.size_eq, MessageQueue.contents_push, List.length_append] at hlt ⊢
      omega
    · exact servedAt_setQueue_ne h hs _

theorem servedAt_getOptional {c : Context σ μ} (h : c.ServedAt s k) (s' : SlotId) :
    (c.getOptional s').2.ServedAt s k := by
  unfold getOptional
  split
  next => exact h
  next q hq =>
    split
    next => exact h
    next m q' posted hp =>
      by_cases hs : s = s'
      · subst hs
        intro q₂ hq₂
        simp only [post, setQueue, Function.update_self, Option.some.injEq] at hq₂
        subst hq₂
        exact (h q hq).pop hp
      · exact servedAt_post (servedAt_setQueue_ne h hs _) posted

theorem servedAt_getVals {c : Context σ μ} (h : c.ServedAt s k) (ss : List SlotId) :
    (c.getVals ss).2.ServedAt s k := by
  induction ss generalizing c with
  | nil => exact h
  | cons s' ss ih => exact ih (servedAt_getOptional h s')

theorem servedAt_dropSlot {c : Context σ μ} (h : c.ServedAt s k) (s' : SlotId) :
    (c.dropSlot s').ServedAt s k := by
  unfold dropSlot
  split
  next => exact h
  next q hq =>
    refine servedAt_post ?_ _
    by_cases hs : s = s'
    · subst hs
      intro q' hq'
      simp [setQueue] at hq'
    · exact servedAt_setQueue_ne h hs _

theorem servedAt_dropSlots {c : Context σ μ} (h : c.ServedAt s k) (o : ObjId) :
    (c.dropSlots o).ServedAt s k :=
  dropSlots_rec (P := fun d => d.ServedAt s k) h (fun _ s' hd => servedAt_dropSlot hd s') o

theorem servedAt_setPromise_ne {c : Context σ μ} (h : c.ServedAt s k) {f : PromiseRef}
    (hf : f ≠ .throttle s) (p : EslangPromise Continuation) : (c.setPromise f p).ServedAt s k := by
  cases f with
  | throttle s' =>
    have hs : s ≠ s' := by rintro rfl; exact hf rfl
    exact servedAt_setQueue_ne h hs _
  | user n => exact h

theorem servedAt_onPromise_ne {c : Context σ μ} (h : c.ServedAt s k) {f : PromiseRef}
    (hf : f ≠ .throttle s)
    (act : EslangPromise Continuation → EslangPromise Continuation × List Continuation) :
    (c.onPromise f act).ServedAt s k := by
  unfold onPromise
  split
  next => exact h
  next p hp => exact servedAt_post (servedAt_setPromise_ne h hf _) _

theorem servedAt_process {c : Context σ μ} (h : c.ServedAt s k) {f : PromiseRef}
    {p p' : EslangPromise Continuation} (hf : c.promise f = some p) (hp : p.process = .ok p') :
    (c.setPromise f p').ServedAt s k := by
  by_cases he : f = .throttle s
  · subst he
    obtain ⟨q, hq, rfl⟩ := Option.map_eq_some_iff.mp hf
    intro q' hq'
    simp only [setPromise, setQueue, hq, Option.map_some, Function.update_self,
      Option.some.injEq] at hq'
    subst hq'
    exact (h q hq).process hp rfl rfl
  · exact servedAt_setPromise_ne h he p'

theorem servedAt_resume {c : Context σ μ} (h : c.ServedAt s k) (o : ObjId) :
    (c.resume o).ServedAt s k := by
  have hr := resume_resumes c o
  have hc := servedAt_cancelTimer h o
  generalize c.resume o = c' at hr ⊢
  cases hr with
  | dead hd => exact h
  | plain hd hf => exact hc
  | gone hd hf hp => exact hc
  | raised hd hf hp he =>
    refine servedAt_of_eq hc ?_ ?_ <;>
    · unfold addtoDestroy
      split <;> simp
  | woken hd hf hp he => exact servedAt_process hc hp he

theorem servedAt_armTimer {c : Context σ μ} (h : c.ServedAt s k) (o : ObjId) (w : Waiting) :
    (c.armTimer o w).ServedAt s k := by
  unfold armTimer
  split
  · exact h
  · exact servedAt_of_eq h rfl fun hr => List.mem_append_left _ hr

/-- A sender that suspends on another promise, or on this one while it does not store `k`. -/
theorem servedAt_armFuture {c : Context σ μ} (h : c.ServedAt s k) (o : ObjId) {w : Waiting}
    (hw : w.wakeOnFuture = some (.throttle s) →
      ∀ q, (c.slots s).queue = some q → q.p_.exec_ ≠ some k) : (c.armFuture o w).ServedAt s k := by
  unfold armFuture
  split
  · exact h
  next f hf =>
    by_cases he : f = .throttle s
    · subst he
      unfold onPromise
      split
      · exact h
      next p hp =>
        obtain ⟨q, hq, rfl⟩ := Option.map_eq_some_iff.mp hp
        intro q' hq'
        exact (h q hq).overwrite (hw hf q hq)
    · exact servedAt_onPromise_ne h he _

theorem servedAt_suspended {c : Context σ μ} (h : c.ServedAt s k) (o : ObjId) {w : Waiting}
    (t : Coro σ μ) (hw : w.wakeOnFuture = some (.throttle s) → w.isReadyForResume = false →
      ∀ q, (c.slots s).queue = some q → q.p_.exec_ ≠ some k) : (c.suspended o w t).ServedAt s k := by
  have hslots : ((c.setWaiting o (some w) t).armTimer o w).slots = c.slots := by
    unfold armTimer
    split <;> rfl
  unfold suspended arm
  split
  · exact h
  next hready =>
    exact servedAt_armFuture (c := (c.setWaiting o (some w) t).armTimer o w)
      (servedAt_armTimer (c := c.setWaiting o (some w) t) h o w) o
      (fun hf => hslots ▸ hw hf (Bool.eq_false_iff.mpr hready))

theorem servedAt_processQueueItem {c : Context σ μ} (h : c.ServedAt s k) (i : ToProcessItem μ) :
    (c.processQueueItem i).1.ServedAt s k := by
  cases i with
  | message a m =>
    simp only [processQueueItem]
    split
    · have hp := servedAt_push h a.slot m
      simp only [send]
      split
      · exact servedAt_resume hp _
      · exact hp
    · exact h
  | resume p n =>
    simp only [processQueueItem]
    split
    · split
      · exact servedAt_resume h _
      · exact h
    · exact h

theorem servedAt_runHandler {c : Context σ μ} (h : c.ServedAt s k) (d : Handler σ) :
    (c.runHandler d).ServedAt s k := by
  cases d with
  | aborted => exact h
  | timer o n =>
    simp only [runHandler]
    split
    · exact h
    · exact servedAt_resume h _
  | continuation f =>
    simp only [runHandler]
    split
    · exact h
    · split
      · exact servedAt_resume h _
      · exact h
  | user owner s =>
    simp only [runHandler]
    split <;> exact h

theorem slots_addtoDestroy (c : Context σ μ) (p : Pid) (reason : String) :
    (c.addtoDestroy p reason).slots = c.slots ∧ (c.addtoDestroy p reason).io = c.io := by
  unfold addtoDestroy
  split <;> exact ⟨rfl, rfl⟩

theorem servedAt_addtoDestroy {c : Context σ μ} (h : c.ServedAt s k) (p : Pid) (reason : String) :
    (c.addtoDestroy p reason).ServedAt s k := by
  obtain ⟨hs, hi⟩ := slots_addtoDestroy c p reason
  exact servedAt_of_eq h (by rw [hs]) (by rw [hi]; exact id)

theorem servedAt_destroy {c : Context σ μ} (h : c.ServedAt s k) (dtor : σ → σ) (o : ObjId)
    (reason : String) : (c.destroy dtor o reason).ServedAt s k := by
  have hlife : (c.setLife o .destroyed).ServedAt s k := h
  have hkill : ((c.setLife o .destroyed).killLinked o reason).ServedAt s k :=
    killLinked_rec (P := fun d => d.ServedAt s k) hlife (fun _ p hd => servedAt_addtoDestroy hd p reason) o
  exact servedAt_cancelTimer (notifyDeath_rec (P := fun d => d.ServedAt s k) hkill (fun _ _ _ hd => hd) o) o

end Keep

/-! ## The step -/

/-- A process that suspends on the throttle promise of a slot overwrites the continuation of no other
process that is suspended on it; and if it does not come straight from the `canQueue` of its own
`sendThrottled`, it finds the slot full or the promise set. -/
def WaitsInTurn (code : Code σ μ) (c : Context σ μ) (_ : Label) : Prop :=
  ∀ o rest w t s q, Awaits code c o rest w t → w.wakeOnFuture = some (.throttle s) →
    w.isReadyForResume = false → (c.slots s).queue = some q →
    (∀ p, c.ThrottledOn p s → q.p_.exec_ ≠ some (c.continuation p)) ∧
      ∀ k, t = .code k → MessageQueue.kThrottle ≤ q.size ∨ q.p_.set_ = true

theorem WaitsInTurn.full {code : Code σ μ} {c : Context σ μ} {l : Label} (hg : c.WaitsInTurn code l)
    {o : ObjId} {rest : List (Frame σ μ)} {w : Waiting} {t : Coro σ μ} {s : SlotId}
    {q : MessageQueue (MessageBase μ) Continuation} (ha : Awaits code c o rest w t)
    (hw : w.wakeOnFuture = some (.throttle s)) (hr : w.isReadyForResume = false)
    (hq : (c.slots s).queue = some q) : MessageQueue.kThrottle ≤ q.size ∨ q.p_.set_ = true := by
  obtain ⟨-, hfull⟩ := hg o rest w t s q ha hw hr hq
  cases ha with
  | yield hs hop hm hlong => cases hw
  | throttle hs ht hc =>
    obtain ⟨rfl, q', hq', hsize⟩ := canQueue_some hc
    cases hw
    cases hq.symm.trans hq'
    exact .inl hsize
  | plain hs hop hb => exact hfull _ rfl

theorem servedAt_run {c : Context σ μ} {p : ObjId} {s : SlotId} {d : Handler σ}
    {ds : List (Handler σ)} (hc : c.Sound) (hp : c.ThrottledOn p s)
    (hp' : ((c.popReady ds).runHandler d).Idle p)
    (hst : ((c.popReady ds).runHandler d).table.Started p) (hr : c.io.ready = d :: ds)
    (h : c.ServedAt s (c.continuation p)) :
    ((c.popReady ds).runHandler d).ServedAt s (c.continuation p) := by
  by_cases hd : d = .continuation (c.continuation p)
  · subst hd
    have hlife := not_dead hp.1.1
    have heq : (c.popReady ds).runHandler (.continuation (c.continuation p)) =
        (c.popReady ds).resume p := by
      simp [runHandler, continuation, popReady, hlife.2]
    rw [heq] at hp' hst ⊢
    have hf : (c.popReady ds).awaited p = some (.throttle s) := hp.awaited
    have hres := resume_resumes (c.popReady ds) p
    generalize (c.popReady ds).resume p = c' at hres hp' hst ⊢
    cases hres with
    | dead hd => cases hp.1.1.symm.trans hd
    | plain hd hn => cases hf.symm.trans hn
    | gone hd hf' hpr =>
      cases hf.symm.trans hf'
      intro q hq
      have hpr : (c.slots s).queue = none := Option.map_eq_none_iff.mp hpr
      cases hpr.symm.trans hq
    | @raised f pr e hd hf' hpr he =>
      have hd' := dead_iff.mpr ⟨hst, ?_⟩
      · cases hp'.1.symm.trans hd'
      · have hkill := life_kill hc.table (o := p)
        intro hl
        have htable := table_addtoDestroy ((c.popReady ds).cancelTimer p) (c.heap p).pid
          ("Caught exception: " ++ e)
        exact hkill (htable ▸ hl)
    | woken hd hf' hpr he => exact absurd (by simp [table_enter]) hp'.2
  · refine servedAt_runHandler (servedAt_of_eq (d := c.popReady ds) h rfl fun hin => ?_) d
    rw [hr] at hin
    exact (List.mem_cons.mp hin).resolve_left fun he => hd he.symm

/-- A sender that stays suspended stays served. -/
theorem effect_served {code : Code σ μ} {c c' : Context σ μ} {l : Label} {out : List (Event μ)}
    (he : Effect code c l out c') (hc : c.Sound) (hg : c.WaitsInTurn code l) {p : ObjId}
    {s : SlotId} (hp : c.ThrottledOn p s) (hp' : c'.Idle p)
    (h : c.ServedAt s (c.continuation p)) : c'.ServedAt s (c.continuation p) := by
  have hk := step_keeps he hc.table
  have hst : c.table.Started p := by
    by_contra hn
    obtain ⟨-, w, hl, -⟩ := hp
    cases hl.symm.trans (hc.unstarted p hn).1
  cases he with
  | @suspend o rest w t hw =>
    refine servedAt_suspended (c := { c with stack := rest }) h o t fun hf hr q hq => ?_
    exact (hg o rest w t s q hw hf hr hq).1 p hp
  | @run d ds hs hph hstop hr => exact servedAt_run hc hp hp' (hk.started hst) hr h
  | goOn hs s => exact h
  | fault f => exact h
  | send hs hop hm s' => exact h
  | throttleSend hs ht hok => exact h
  | @newSlot role t rest o hs ho s' =>
    have hne : s ≠ c.slotCount := Nat.ne_of_lt (hc.slotsKnown p s hp.1 hp.awaited)
    have hslots : ((c.newSlot role o).slots s).queue = (c.slots s).queue ∧
        (c.newSlot role o).io = c.io := by
      unfold newSlot
      split <;> simp [setProc, hne]
    exact servedAt_of_eq h hslots.1 (by rw [continueWith, hslots.2]; exact id)
  | dropSlot hs hop ho s' => exact servedAt_dropSlot h _
  | getVals hs hop ho s' => exact servedAt_getVals h _
  | spawn hs hop hm =>
    refine servedAt_of_eq h ?_ ?_ <;>
    · unfold spawnWith nextPid
      split <;> simp [construct]
  | addKillOnDie hs p s' => exact h
  | link hs p hl s' =>
    unfold link at hl
    split at hl <;> cases hl
    exact h
  | kill hs p s' => exact servedAt_addtoDestroy h _ _
  | newPromise hs owner s' => exact h
  | onPromise hs n ha s' => exact servedAt_onPromise_ne h (by simp) _
  | asyncOp hs h' s' => exact h
  | asyncDone hs hop => exact servedAt_of_eq h rfl fun hr => List.mem_append_left _ hr
  | started hs body s' =>
    refine servedAt_of_eq h ?_ ?_ <;>
    · unfold continueWith spawned
      split <;> simp [spawnArgs, occupy, queueResume, addKillOnDie, setProc]
  | ctorThrew hs hop s' => exact servedAt_dropSlots (c := c.setLife _ .failed) h _
  | leave hs hr => exact h
  | @bodyReturned o t rest hs =>
    exact servedAt_addtoDestroy (c := { c with stack := rest }.setWaiting o none _) h _ _
  | @bodyThrew o t rest hs e => exact servedAt_addtoDestroy (c := { c with stack := rest }) h _ _
  | @dtorReturned o s₀ rest hs hop => exact servedAt_dropSlots (c := { c with stack := rest }) h o
  | escaped hs hr e => exact h
  | finish hs hp hn => exact h
  | @take i q hs hp hq => exact servedAt_processQueueItem (c := c.popFront q) h i
  | toRunOne hs hp hq => exact h
  | ioReturn ph hs hp => exact h
  | drained hs hp hr => exact h
  | @destroy o reason rest hs hp hd =>
    exact servedAt_destroy (c := { c with toDestroy := rest }) h code.dtor o reason
  | toLoop hs hp hd => exact h
  | expire i hl hw => exact servedAt_of_eq h rfl fun hr => List.mem_append_left _ hr
  | async i h' hl hh => exact servedAt_of_eq h rfl fun hr => List.mem_append_left _ hr

def SendersServed (c : Context σ μ) : Prop :=
  ∀ s p, c.ThrottledOn p s → c.ServedAt s (c.continuation p)

/-- A process that suspends on the throttle promise of a full slot, or on one that is set, is served. -/
theorem servedAt_waits {c : Context σ μ} {o : ObjId} {w : Waiting} {s : SlotId} (t : Coro σ μ)
    (hw : w.wakeOnFuture = some (.throttle s)) (hr : w.isReadyForResume = false)
    (hfull : ∀ q, (c.slots s).queue = some q → 10 ≤ q.size ∨ q.p_.set_ = true) :
    (c.suspended o w t).ServedAt s (c.continuation o) := by
  generalize hd : (c.setWaiting o (some w) t).armTimer o w = d
  have hslots : d.slots = c.slots := by
    subst hd
    unfold armTimer
    split <;> rfl
  have hcount : (d.heap o).resumes = (c.heap o).resumes := by
    subst hd
    unfold armTimer
    split <;> simp [setWaiting, setProc]
  have heq : c.suspended o w t =
      d.onPromise (.throttle s) (·.setContinuation (c.continuation o)) := by
    simp only [suspended, arm, hr, Bool.false_eq_true, if_false, hd, armFuture, hw, hcount, continuation]
  intro q' hq'
  rw [heq] at hq' ⊢
  unfold onPromise at hq' ⊢
  cases hq : (c.slots s).queue with
  | none => simp [promise, hslots, hq, fail] at hq'
  | some q =>
    have hpr : d.promise (.throttle s) = some q.p_ := by simp [promise, hslots, hq]
    simp only [hpr, post, setPromise, setQueue, Function.update_self, hslots, hq, Option.map_some,
      Option.some.injEq] at hq' ⊢
    subst hq'
    exact served_setContinuation rfl (hfull q hq)

theorem effect_sendersServed {code : Code σ μ} {c c' : Context σ μ} {l : Label}
    {out : List (Event μ)} (he : Effect code c l out c') (hc : c.Sound) (hg : c.WaitsInTurn code l)
    (h : c.SendersServed) : c'.SendersServed := by
  intro s p hp
  cases effect_idle he hc.table hc.refs hc.unstarted hp.1 with
  | same hidle hcell =>
    have hk : c'.continuation p = c.continuation p :=
      congrArg (fun d : Cell σ μ => (⟨p, d.resumes⟩ : Continuation)) hcell
    have hold : c.ThrottledOn p s := by
      have hw : (c'.heap p).lastWaiting = (c.heap p).lastWaiting := congrArg Cell.lastWaiting hcell
      exact ⟨hidle, hw ▸ hp.2⟩
    rw [hk]
    exact effect_served he hc hg hold hp.1 (h s p hold)
  | @suspend t rest w hw he' =>
    have hcell : c'.cells p = (c.cells p).suspend (some w) t := by
      rw [he', cells_suspended, Function.update_self]
      rfl
    have hk : c'.continuation p = c.continuation p :=
      congrArg (fun d : Cell σ μ => (⟨p, d.resumes⟩ : Continuation)) hcell
    obtain ⟨-, w', hwait, hf, hr⟩ := hp
    cases (congrArg Cell.lastWaiting hcell).symm.trans hwait
    rw [hk, he']
    exact servedAt_waits (c := { c with stack := rest }) t hf hr fun q hq => hg.full hw hf hr hq
  | fresh hl hn htask =>
    obtain ⟨-, w', hwait, -⟩ := hp
    have hl : (c'.heap p).lastWaiting = none := hl
    cases hl.symm.trans hwait

theorem sendersServed_init (main : σ) : (init main : Context σ μ).SendersServed := by
  intro s p hp
  obtain ⟨-, w, hl, -⟩ := hp
  cases hl

end Context

/-- **No throttled sender is stranded** in a run in which no process overwrites the stored continuation of
another one that is suspended on the same throttle promise, and every process that suspends there outside
its own `sendThrottled` finds the slot still full or the promise set. -/
theorem sender_not_stranded {σ μ : Type} {code : Code σ μ} {main : σ} {tr : List (Event μ)}
    {c : Context σ μ} (h : code.RunsTo (Context.WaitsInTurn code) main tr c) {s : SlotId} {p : ObjId}
    {q : MessageQueue (MessageBase μ) Continuation} (hq : (c.slots s).queue = some q)
    (hp : c.ThrottledOn p s) :
    (q.p_.exec_ = some (c.continuation p) ∨ .continuation (c.continuation p) ∈ c.io.ready) ∧
      (q.size < MessageQueue.kThrottle → .continuation (c.continuation p) ∈ c.io.ready) := by
  have hserved : c.SendersServed := by
    refine h.invariant_of Context.Sound Context.SendersServed Code.sound
      (Context.sendersServed_init main) fun _ _ _ _ hc hi hg hs => ?_
    exact Context.effect_sendersServed (Context.step_effect hs).2 hc hg hi
  have hk := hserved s p hp q hq
  exact ⟨hk.here, hk.short⟩

/-- The running code may be about to suspend on a promise. -/
def Context.mayAwait {σ μ : Type} (code : Code σ μ) (c : Context σ μ) : Bool :=
  match c.stack with
  | [] => false
  | ⟨_, .throttled _ _ _⟩ :: _ => true
  | ⟨_, .code s⟩ :: _ =>
      match code.op s with
      | .sendThrottled _ _ _ => true
      | .awaitSuspend w _ => w.wakeOnFuture.isSome
      | _ => false

theorem Context.mayAwait_of_awaits {σ μ : Type} {code : Code σ μ} {c : Context σ μ} {o : ObjId}
    {rest : List (Frame σ μ)} {w : Waiting} {t : Coro σ μ} (h : Context.Awaits code c o rest w t)
    (hw : w.wakeOnFuture.isSome) : c.mayAwait code = true := by
  cases h with
  | yield hs hop hm hq => cases hw
  | throttle hs ht hc =>
    rcases ht with rfl | ⟨s, rfl, hop, -, -⟩
    · simp [mayAwait, hs]
    · simp [mayAwait, hs, hop]
  | plain hs hop hb => simp [mayAwait, hs, hop, hw]

/-- The sender waits on the full slot until the receiver pops. -/
theorem sender_woken_by_pop :
    ∃ tr c q, (fillThenThrottle (.getVals [0] fun _ => 15)).RunsTo
      (Context.WaitsInTurn (fillThenThrottle (.getVals [0] fun _ => 15))) 0 tr c ∧
      (c.slots 0).queue = some q ∧ c.ThrottledOn 1 0 ∧ q.size < MessageQueue.kThrottle ∧
      .continuation (c.continuation 1) ∈ c.io.ready := by
  let code := fillThenThrottle (.getVals [0] fun _ => 15)
  obtain ⟨tr, c, hr, hs, hd, hw, hsize⟩ := System.exec_reaches (M := code.system)
    (g := fun c _ => !c.mayAwait code ||
      (decide (c.slotCount ≤ 1) && (c.slots 0).queue.all fun q =>
        q.p_.exec_.isNone && decide (MessageQueue.kThrottle ≤ q.size)))
    (G := fun c _ => c.mayAwait code = true →
      c.slotCount ≤ 1 ∧ ∀ q ∈ (c.slots 0).queue, q.p_.exec_ = none ∧ MessageQueue.kThrottle ≤ q.size)
    (fun c _ hg hm => by simpa [hm, Option.all_eq_true] using hg)
    (w := List.replicate 53 .tick) (s := Context.init 0)
    (P := fun _ c => c.stack.length = 0 ∧ (c.heap 1).dead = false ∧
      (c.heap 1).lastWaiting = some (.future (.throttle 0)) ∧
      (c.slots 0).queue.any fun q => decide (q.size < MessageQueue.kThrottle)) (by decide)
  have hidle : c.Idle 1 := ⟨hd, by simp [Context.table, List.length_eq_zero_iff.mp hs]⟩
  have hthr : c.ThrottledOn 1 0 := ⟨hidle, _, hw, rfl, rfl⟩
  have hrun := hr.guard_of (k := Context.WaitsInTurn code) Context.Sound Code.sound
    fun c l hc hg o rest w t s q hw hf hready hq => by
      obtain ⟨hone, hall⟩ := hg (Context.mayAwait_of_awaits hw (by simp [hf]))
      obtain rfl : s = 0 := Nat.lt_one_iff.mp (Nat.lt_of_lt_of_le (Context.awaits_slot hc.addressed hw hf) hone)
      obtain ⟨hnone, hfull⟩ := hall q hq
      exact ⟨fun p hp => by simp [hnone], fun k hk => .inl hfull⟩
  obtain ⟨q, hq, hlt⟩ := (Option.any_eq_true _ _).mp hsize
  have hlt : q.size < MessageQueue.kThrottle := of_decide_eq_true hlt
  exact ⟨tr, c, q, hrun, hq, hthr, hlt, (sender_not_stranded hrun hq hthr).2 hlt⟩

/-- A receiver that never pops (process 0, slot 0), a sender (process 1) that fills the slot and then
waits in `sendThrottled`, and a second sender (process 2) that does so after it. -/
def twoThrottled : Code Nat Unit where
  op n :=
    match n with
    | 0 => .spawn .plain 10 fun _ => 1
    | 1 => .spawn .plain 20 fun _ => 2
    | 2 => .spawn .plain 40 fun _ => 3
    | 10 => .newSlot fun _ => 11
    | 11 => .started 12
    | 12 => .awaitSuspend .always 13
    | 20 => .started 21
    | 31 => .awaitSuspend .yield 32
    | 32 => .sendThrottled ⟨⟨0, 0⟩, 0⟩ () 33
    | 40 => .started 41
    | 41 => .awaitSuspend .yield 42
    | 42 => .sendThrottled ⟨⟨0, 0⟩, 0⟩ () 43
    | n => if 20 < n ∧ n ≤ 30 then .send ⟨⟨0, 0⟩, 0⟩ () fun _ => n + 1 else .coReturn
  dtor _ := 99

/-- The second sender overwrites the continuation of the first, which is stored nowhere then. -/
theorem sender_stranded_by_second :
    ∃ tr c q, twoThrottled.RunsTo System.anyStep 0 tr c ∧
      (c.heap (c.slots 0).owner).life = .running ∧ (c.slots 0).queue = some q ∧
      c.ThrottledOn 1 0 ∧ q.p_.exec_ ≠ some (c.continuation 1) ∧
      .continuation (c.continuation 1) ∉ c.io.ready := by
  obtain ⟨tr, c, hr, hs, hl, hd, hw, hready, hexec⟩ :=
    System.exec_reaches (M := twoThrottled.system)
    (g := fun _ _ => true) (G := System.anyStep) (fun _ _ _ => trivial)
    (w := List.replicate 54 .tick) (s := Context.init 0)
    (P := fun _ c => c.stack.length = 0 ∧ (c.heap (c.slots 0).owner).life = .running ∧
      (c.heap 1).dead = false ∧ (c.heap 1).lastWaiting = some (.future (.throttle 0)) ∧
      c.io.ready.length = 0 ∧
      (c.slots 0).queue.any fun q => decide (q.p_.exec_ ≠ some (c.continuation 1))) (by decide)
  have hidle : c.Idle 1 := ⟨hd, by simp [Context.table, List.length_eq_zero_iff.mp hs]⟩
  obtain ⟨q, hq, hne⟩ := (Option.any_eq_true _ _).mp hexec
  refine ⟨tr, c, q, hr, hl, hq, ⟨hidle, _, hw, rfl, rfl⟩, of_decide_eq_true hne, ?_⟩
  simp [List.length_eq_zero_iff.mp hready]

end Eslang
