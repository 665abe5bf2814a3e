import Eslang.Context.TableSteps

/-! # Where the wake-ups of a process come from

A process that waits is woken by a continuation, stored in a promise or posted to the io_service, or by
its timer, pending or expired. Each of these carries the `resumes` count of the wait that made it.
`effect_wake` says the one thing every argument about wake-ups needs: a step adds only wake-ups of
the process whose body it suspends, with that process's current count. -/
namespace Eslang
set_option autoImplicit false
open Lib

/-- A continuation, or a timer with the `resumes` count of the wait that armed it. -/
inductive Wake
  | continuation (f : Continuation)
  | timer (this : ObjId) (armed : Nat)

def Wake.this : Wake → ObjId
  | continuation f => f.this
  | timer o _ => o

def Wake.resumes : Wake → Nat
  | continuation f => f.resumes
  | timer _ n => n

/-- A suspension in `wt` registers wake-ups of the kind of `w`. -/
def Waiting.registers (wt : Waiting) (w : Wake) : Bool :=
  !wt.isReadyForResume && match w with
    | .timer _ _ => wt.sleepFor.isSome
    | .continuation _ => wt.wakeOnFuture.isSome

def Handler.timer? {σ : Type} : Handler σ → Option (ObjId × Nat)
  | timer o n => some (o, n)
  | aborted | continuation _ | user _ _ => none

namespace IoService
variable {σ : Type}

/-- The timers whose handlers are queued. -/
def expired (io : IoService σ) : List (ObjId × Nat) := io.ready.filterMap Handler.timer?

/-- The timers of all processes, pending and expired. -/
def clock (io : IoService σ) : List (ObjId × Nat) :=
  io.timers.map (fun w => (w.this, w.armed)) ++ io.expired

theorem mem_expired {io : IoService σ} {o : ObjId} {n : Nat} :
    (o, n) ∈ io.expired ↔ .timer o n ∈ io.ready := by
  simp only [expired, List.mem_filterMap]
  constructor
  · rintro ⟨h, hm, he⟩
    cases h <;> simp [Handler.timer?] at he
    obtain ⟨rfl, rfl⟩ := he
    exact hm
  · exact fun h => ⟨_, h, rfl⟩

@[simp] theorem expired_post (io : IoService σ) (fs : List Continuation) :
    (io.post fs).expired = io.expired := by
  simp [expired, post, Handler.timer?]

@[simp] theorem expired_cancel (io : IoService σ) (o : ObjId) : (io.cancel o).expired = io.expired := by
  have hnone : ∀ ws : List TimerWait,
      (ws.map fun _ => Handler.aborted (σ := σ)).filterMap Handler.timer? = [] := by
    intro ws
    induction ws with
    | nil => rfl
    | cons w ws ih => exact ih
  rw [expired, cancel, List.filterMap_append, hnone, List.append_nil]
  rfl

@[simp] theorem clock_post (io : IoService σ) (fs : List Continuation) :
    (io.post fs).clock = io.clock := by
  rw [clock, expired_post]
  rfl

theorem clock_asyncWait (io : IoService σ) (w : TimerWait) :
    (io.asyncWait w).clock.Perm ((w.this, w.armed) :: io.clock) := by
  have hexp : (io.asyncWait w).expired = io.expired := rfl
  rw [clock, hexp, asyncWait, List.map_append, List.append_assoc]
  exact List.perm_middle

theorem clock_expire {io io' : IoService σ} {i : Nat} {w : TimerWait} (h : io.timers[i]? = some w)
    (ht : io'.timers = io.timers.eraseIdx i) (hr : io'.ready = io.ready ++ [.timer w.this w.armed]) :
    io'.clock.Perm io.clock := by
  obtain ⟨hi, hw⟩ := List.getElem?_eq_some_iff.mp h
  have hperm := (List.getElem_cons_eraseIdx_perm hi).map fun w : TimerWait => (w.this, w.armed)
  rw [hw, List.map_cons] at hperm
  have hexp : io'.expired = io.expired ++ [(w.this, w.armed)] := by
    simp [expired, hr, List.filterMap_append, Handler.timer?]
  rw [clock, hexp, ht]
  calc
    _ = (io.timers.eraseIdx i).map (fun w => (w.this, w.armed)) ++ io.expired ++
        [(w.this, w.armed)] := by rw [List.append_assoc]
    List.Perm _ ((w.this, w.armed) :: ((io.timers.eraseIdx i).map (fun w => (w.this, w.armed)) ++
        io.expired)) := List.perm_append_singleton _ _
    List.Perm _ io.clock := hperm.append_right _

end IoService

namespace Context
variable {σ μ : Type}

inductive Holds (c : Context σ μ) : Wake → Prop
  | stored {f p k} (hp : c.promise f = some p) (hk : k ∈ p.exec_) : Holds c (.continuation k)
  | posted {k} (h : .continuation k ∈ c.io.ready) : Holds c (.continuation k)
  | pending {w : TimerWait} (h : w ∈ c.io.timers) : Holds c (.timer w.this w.armed)
  | expired {o n} (h : .timer o n ∈ c.io.ready) : Holds c (.timer o n)

theorem holds_timer {c : Context σ μ} {o : ObjId} {n : Nat} :
    c.Holds (.timer o n) ↔ (o, n) ∈ c.io.clock := by
  rw [IoService.clock, List.mem_append, IoService.mem_expired, List.mem_map]
  constructor
  · rintro (_ | _ | h | h)
    · exact .inl ⟨_, h, rfl⟩
    · exact .inr h
  · rintro (⟨w, h, he⟩ | h)
    · cases he
      exact .pending h
    · exact .expired h

/-- `c'` holds no wake-up that `c` does not hold, and no second copy of a timer. -/
structure NoNewWake (c c' : Context σ μ) : Prop where
  holds : ∀ w, c'.Holds w → c.Holds w
  timers : c'.io.timers.Sublist c.io.timers
  expired : c'.io.expired.Sublist c.io.expired

theorem NoNewWake.refl (c : Context σ μ) : NoNewWake c c := ⟨fun _ => id, .refl _, .refl _⟩

theorem NoNewWake.trans {c d e : Context σ μ} (h : NoNewWake c d) (h' : NoNewWake d e) :
    NoNewWake c e :=
  ⟨fun w hw => h.holds w (h'.holds w hw), h'.timers.trans h.timers, h'.expired.trans h.expired⟩

theorem NoNewWake.clock {c c' : Context σ μ} (h : NoNewWake c c') :
    c'.io.clock.Subperm c.io.clock :=
  ((h.timers.map _).append h.expired).subperm

/-! ## The promises of a context -/

theorem promise_setPromise_self {c : Context σ μ} {f : PromiseRef} {p q : EslangPromise Continuation}
    (h : c.promise f = some q) : (c.setPromise f p).promise f = some p := by
  cases f with
  | throttle s =>
    obtain ⟨mq, hq, -⟩ := Option.map_eq_some_iff.mp h
    simp [setPromise, setQueue, promise, hq]
  | user n => simp [setPromise, promise]

theorem promise_setPromise_ne {c : Context σ μ} {f g : PromiseRef} (p : EslangPromise Continuation)
    (h : g ≠ f) : (c.setPromise f p).promise g = c.promise g := by
  cases f <;> cases g <;> simp_all [setPromise, setQueue, promise]

theorem promise_setQueue_self (c : Context σ μ) (s : SlotId)
    (q : Option (MessageQueue (MessageBase μ) Continuation)) :
    (c.setQueue s q).promise (.throttle s) = q.map (·.p_) := by
  simp [setQueue, promise]

theorem promise_setQueue_ne {c : Context σ μ} {s : SlotId} {g : PromiseRef}
    (q : Option (MessageQueue (MessageBase μ) Continuation)) (h : g ≠ .throttle s) :
    (c.setQueue s q).promise g = c.promise g := by
  cases g <;> simp_all [setQueue, promise]

theorem io_setPromise (c : Context σ μ) (f : PromiseRef) (p : EslangPromise Continuation) :
    (c.setPromise f p).io = c.io := by
  cases f <;> rfl

/-! ## Operations that hold no new wake-up -/

theorem noNewWake_of_eq {c c' : Context σ μ} (hp : ∀ f, c'.promise f = c.promise f)
    (hi : c'.io = c.io) : NoNewWake c c' := by
  refine ⟨?_, by rw [hi], by rw [hi]⟩
  rintro w (⟨h, hk⟩ | h | h | h)
  · exact .stored (hp _ ▸ h) hk
  · exact .posted (hi ▸ h)
  · exact .pending (hi ▸ h)
  · exact .expired (hi ▸ h)

theorem noNewWake_post {c c' : Context σ μ} {f : PromiseRef} {p : EslangPromise Continuation}
    {l : List Continuation} (hf : c.promise f = some p)
    (hp : ∀ p' k, c'.promise f = some p' → k ∈ p'.exec_ → k ∈ p.exec_)
    (hg : ∀ g, g ≠ f → c'.promise g = c.promise g)
    (hi : c'.io = c.io.post l) (hk : ∀ k ∈ l, k ∈ p.exec_) : NoNewWake c c' := by
  refine ⟨?_, by rw [hi, IoService.post], by rw [hi, IoService.expired_post]⟩
  rintro w (⟨h, hk'⟩ | h | h | h)
  · rename_i g p' k
    by_cases he : g = f
    · subst he
      exact .stored hf (hp p' k h hk')
    · exact .stored (hg g he ▸ h) hk'
  · rw [hi] at h
    rcases List.mem_append.mp h with h | h
    · exact .posted h
    · obtain ⟨k, hm, he⟩ := List.mem_map.mp h
      cases he
      exact .stored hf (hk _ hm)
  · exact .pending (by simpa [hi, IoService.post] using h)
  · exact .expired (by simpa [hi, IoService.post] using h)

theorem noNewWake_less {c c' : Context σ μ}
    (hp : ∀ f, c'.promise f = c.promise f ∨ c'.promise f = none ∨ c'.promise f = some {})
    (hr : ∀ k, .continuation k ∈ c'.io.ready → .continuation k ∈ c.io.ready)
    (ht : c'.io.timers.Sublist c.io.timers) (he : c'.io.expired.Sublist c.io.expired) :
    NoNewWake c c' := by
  refine ⟨?_, ht, he⟩
  rintro w (⟨h, hk⟩ | h | h | h)
  · rcases hp _ with h' | h' | h'
    · exact .stored (h' ▸ h) hk
    · simp [h'] at h
    · rw [h'] at h
      cases h
      simp at hk
  · exact .posted (hr _ h)
  · exact .pending (ht.subset h)
  · exact .expired (IoService.mem_expired.mp (he.subset (IoService.mem_expired.mpr h)))

theorem noNewWake_cancelTimer (c : Context σ μ) (o : ObjId) : NoNewWake c (c.cancelTimer o) := by
  refine noNewWake_less (fun _ => .inl rfl) ?_ List.filter_sublist ?_
  · simp [cancelTimer, IoService.cancel]
  · rw [cancelTimer, IoService.expired_cancel]

theorem noNewWake_onPromise (c : Context σ μ) (f : PromiseRef)
    {act : EslangPromise Continuation → EslangPromise Continuation × List Continuation}
    (ha : ∀ p k, k ∈ (act p).1.exec_ ∨ k ∈ (act p).2 → k ∈ p.exec_) :
    NoNewWake c (c.onPromise f act) := by
  unfold onPromise
  split
  next => exact noNewWake_of_eq (fun _ => rfl) rfl
  next p hp =>
    refine noNewWake_post (l := (act p).2) hp (fun p' k h hk => ?_) (fun g hg => ?_) ?_
      fun k hk => ha p k (.inr hk)
    · have hs := promise_setPromise_self (p := (act p).1) hp
      have h' : (c.setPromise f (act p).1).promise f = some p' := h
      rw [hs] at h'
      cases h'
      exact ha p k (.inl hk)
    · exact promise_setPromise_ne _ hg
    · simp [post, io_setPromise]

theorem noNewWake_act {n : Nat} {op : Op σ μ}
    {act : EslangPromise Continuation → EslangPromise Continuation × List Continuation}
    (ha : PromiseAct n op act) : ∀ p k, k ∈ (act p).1.exec_ ∨ k ∈ (act p).2 → k ∈ p.exec_ := by
  cases ha with
  | setIfUnset k => exact fun p k => EslangPromise.setIfUnset_mem
  | setException e k => exact fun p k => EslangPromise.setException_mem
  | reset k => simp

theorem noNewWake_push (c : Context σ μ) (s : SlotId) (m : MessageBase μ) :
    NoNewWake c (c.push s m) := by
  unfold push
  split
  next => exact noNewWake_of_eq (fun _ => rfl) rfl
  next q hq =>
    refine noNewWake_of_eq (fun f => ?_) rfl
    by_cases hf : f = .throttle s
    · subst hf
      rw [promise_setQueue_self]
      simp [promise, hq]
    · exact promise_setQueue_ne _ hf

theorem noNewWake_getOptional (c : Context σ μ) (s : SlotId) :
    NoNewWake c (c.getOptional s).2 := by
  unfold getOptional
  split
  next => exact noNewWake_of_eq (fun _ => rfl) rfl
  next q hq =>
    split
    next => exact .refl c
    next m q' posted hpop =>
      have hp : c.promise (.throttle s) = some q.p_ := by simp [promise, hq]
      refine noNewWake_post hp (fun p' k h hk => ?_) (fun g hg => ?_) rfl
        fun k hk => MessageQueue.pop_mem hpop (.inr hk)
      · have h' := (promise_setQueue_self c s (some q')).symm.trans h
        cases h'
        exact MessageQueue.pop_mem hpop (.inl hk)
      · exact promise_setQueue_ne _ hg

theorem noNewWake_getVals (c : Context σ μ) (ss : List SlotId) : NoNewWake c (c.getVals ss).2 := by
  induction ss generalizing c with
  | nil => exact .refl c
  | cons s ss ih => exact (noNewWake_getOptional c s).trans (ih _)

theorem noNewWake_dropSlot (c : Context σ μ) (s : SlotId) : NoNewWake c (c.dropSlot s) := by
  unfold dropSlot
  split
  next => exact .refl c
  next q hq =>
    have hp : c.promise (.throttle s) = some q.p_ := by simp [promise, hq]
    refine noNewWake_post hp (fun p' k h hk => ?_) (fun g hg => ?_) rfl
      fun k hk => MessageQueue.destructor_mem hk
    · cases (promise_setQueue_self c s none).symm.trans h
    · exact promise_setQueue_ne _ hg

theorem noNewWake_dropSlots (c : Context σ μ) (o : ObjId) : NoNewWake c (c.dropSlots o) :=
  dropSlots_rec (P := NoNewWake c) (.refl c) (fun d s hd => hd.trans (noNewWake_dropSlot d s)) o

theorem noNewWake_dropPromises (c : Context σ μ) (o : ObjId) :
    NoNewWake c (c.dropPromises o) := by
  refine noNewWake_less (fun f => ?_) (fun _ => id) (.refl _) (.refl _)
  cases f with
  | throttle s => exact .inl rfl
  | user n =>
    by_cases h : (c.promises n).owner = some o
    · exact .inr (.inl (by simp [promise, dropPromises, h]))
    · exact .inl (by simp [promise, dropPromises, h])

theorem noNewWake_newSlot (c : Context σ μ) (role : Role) (o : ObjId) :
    NoNewWake c (c.newSlot role o) := by
  have hp : ∀ f, (c.newSlot role o).promise f = c.promise f ∨ (c.newSlot role o).promise f = none ∨
      (c.newSlot role o).promise f = some {} := by
    intro f
    have : (c.newSlot role o).slots = Function.update c.slots c.slotCount ⟨o, some {}⟩ ∧
        (c.newSlot role o).promises = c.promises := by
      unfold newSlot
      split <;> exact ⟨rfl, rfl⟩
    cases f with
    | throttle s =>
      by_cases h : s = c.slotCount
      · exact .inr (.inr (by simp [promise, this, h]))
      · exact .inl (by simp [promise, this, h])
    | user n => exact .inl (by simp [promise, this])
  have hi : (c.newSlot role o).io = c.io := by
    unfold newSlot
    split <;> rfl
  exact noNewWake_less hp (by simp [hi]) (by rw [hi]) (by rw [hi])

theorem noNewWake_newPromise (c : Context σ μ) (owner : Option ObjId) :
    NoNewWake c (c.newPromise owner) := by
  refine noNewWake_less (fun f => ?_) (fun _ => id) (.refl _) (.refl _)
  cases f with
  | throttle s => exact .inl rfl
  | user n =>
    by_cases h : n = c.promiseCount
    · exact .inr (.inr (by simp [promise, newPromise, h]))
    · exact .inl (by simp [promise, newPromise, h])

theorem noNewWake_of_rfl {c c' : Context σ μ} (hs : c'.slots = c.slots)
    (hp : c'.promises = c.promises) (hi : c'.io = c.io) : NoNewWake c c' :=
  noNewWake_of_eq (fun f => by cases f <;> simp [promise, hs, hp]) hi

theorem noNewWake_continueWith (c : Context σ μ) (role : Role) (rest : List (Frame σ μ)) (s : σ) :
    NoNewWake c (c.continueWith role rest s) := noNewWake_of_rfl rfl rfl rfl

theorem noNewWake_addtoDestroy (c : Context σ μ) (p : Pid) (reason : String) :
    NoNewWake c (c.addtoDestroy p reason) := by
  unfold addtoDestroy
  split
  · exact .refl c
  · exact noNewWake_of_rfl rfl rfl rfl

theorem noNewWake_resume (c : Context σ μ) (o : ObjId) : NoNewWake c (c.resume o) := by
  have hr := resume_resumes c o
  have hc := noNewWake_cancelTimer c o
  generalize c.resume o = c' at hr ⊢
  cases hr with
  | dead hd => exact .refl c
  | plain hd hf => exact hc.trans (noNewWake_of_rfl rfl rfl rfl)
  | gone hd hf hp => exact hc.trans (noNewWake_of_rfl rfl rfl rfl)
  | raised hd hf hp he => exact hc.trans (noNewWake_addtoDestroy _ _ _)
  | @woken f p p' hd hf hp he =>
    have hset : NoNewWake (c.cancelTimer o) ((c.cancelTimer o).setPromise f p') := by
      have hp' : (c.cancelTimer o).promise f = some p := hp
      refine noNewWake_post (l := []) hp' (fun q k h hk => ?_)
        (fun g hg => promise_setPromise_ne p' hg) ?_ (by simp)
      · rw [promise_setPromise_self hp'] at h
        cases h
        exact EslangPromise.process_mem he hk
      · simp [io_setPromise, IoService.post]
    exact (hc.trans hset).trans (noNewWake_of_rfl rfl rfl rfl)

theorem noNewWake_send (c : Context σ μ) (o : ObjId) (a : SendAddress) (m : MessageBase μ) :
    NoNewWake c (c.send o a m) := by
  unfold send
  split
  · exact (noNewWake_push c a.slot m).trans (noNewWake_resume _ o)
  · exact noNewWake_push c a.slot m

theorem noNewWake_processQueueItem (c : Context σ μ) (i : ToProcessItem μ) :
    NoNewWake c (c.processQueueItem i).1 := by
  cases i with
  | message a m =>
    simp only [processQueueItem]
    split
    · exact noNewWake_send c _ a m
    · exact .refl c
  | resume p n =>
    simp only [processQueueItem]
    split
    · split
      · exact noNewWake_resume c _
      · exact .refl c
    · exact .refl c

theorem noNewWake_runHandler (c : Context σ μ) (h : Handler σ) : NoNewWake c (c.runHandler h) := by
  cases h with
  | aborted => exact .refl c
  | timer o n =>
    simp only [runHandler]
    split
    · exact noNewWake_of_rfl rfl rfl rfl
    · exact noNewWake_resume c o
  | continuation f =>
    simp only [runHandler]
    split
    · exact noNewWake_of_rfl rfl rfl rfl
    · split
      · exact noNewWake_resume c _
      · exact .refl c
  | user owner s =>
    simp only [runHandler]
    split <;> exact noNewWake_of_rfl rfl rfl rfl

theorem noNewWake_popReady {c : Context σ μ} {h : Handler σ} {hs : List (Handler σ)}
    (hr : c.io.ready = h :: hs) : NoNewWake c (c.popReady hs) := by
  refine noNewWake_less (fun _ => .inl rfl) (by simp +contextual [popReady, hr]) (.refl _) ?_
  rw [IoService.expired, IoService.expired, hr]
  exact (List.sublist_cons_self h hs).filterMap _

theorem noNewWake_spawnWith (c : Context σ μ) (self : Option ObjId) (how : SpawnKind) (ctor : σ) :
    NoNewWake c (c.spawnWith self how ctor) := by
  unfold spawnWith nextPid construct
  split <;> exact noNewWake_of_rfl rfl rfl rfl

theorem noNewWake_spawned (c : Context σ μ) (self : Option ObjId) (how : SpawnKind) (p : Pid) :
    NoNewWake c (c.spawned self how p) := by
  unfold spawned
  split <;> exact noNewWake_of_rfl rfl rfl rfl

theorem noNewWake_link {c c' : Context σ μ} {o : ObjId} {p : Pid} (hl : c.link o p = .ok c') :
    NoNewWake c c' := by
  unfold link at hl
  split at hl <;> cases hl
  exact noNewWake_of_rfl rfl rfl rfl

theorem noNewWake_destroy (c : Context σ μ) (dtor : σ → σ) (o : ObjId) (reason : String) :
    NoNewWake c (c.destroy dtor o reason) := by
  have hlife : NoNewWake c (c.setLife o .destroyed) := noNewWake_of_rfl rfl rfl rfl
  have hkill : NoNewWake c ((c.setLife o .destroyed).killLinked o reason) :=
    killLinked_rec hlife (fun d p hd => hd.trans (noNewWake_addtoDestroy d p reason)) o
  have hnote : NoNewWake c (((c.setLife o .destroyed).killLinked o reason).notifyDeath o) :=
    notifyDeath_rec hkill (fun d a m hd => hd.trans (noNewWake_of_rfl rfl rfl rfl)) o
  have hbegin : ∀ d : Context σ μ, NoNewWake d (d.beginDestructor dtor o) := fun d =>
    (noNewWake_cancelTimer d o).trans (noNewWake_of_rfl rfl rfl rfl)
  exact hnote.trans (hbegin _)

/-! ## Suspension registers the wake-ups of the suspended process -/

/-- `w` wakes `o` if its count has not moved on. -/
def Registers (c : Context σ μ) (o : ObjId) (w : Wake) : Prop :=
  w.this = o ∧ w.resumes = (c.heap o).resumes

theorem holds_armTimer {c : Context σ μ} {o : ObjId} {wt : Waiting} {w : Wake}
    (h : (c.armTimer o wt).Holds w) :
    c.Holds w ∨ c.Registers o w ∧ wt.sleepFor.isSome = true ∧ ∃ n, w = .timer o n := by
  unfold armTimer at h
  split at h
  · exact .inl h
  next ms hms =>
    have hc := (noNewWake_cancelTimer c o).holds w
    rcases h with ⟨h, hk⟩ | h | h | h
    · exact .inl (.stored h hk)
    · exact .inl (hc (.posted h))
    · rcases List.mem_append.mp h with h | h
      · exact .inl (hc (.pending h))
      · cases List.mem_singleton.mp h
        exact .inr ⟨⟨rfl, rfl⟩, by simp [hms], _, rfl⟩
    · exact .inl (hc (.expired h))

theorem heap_armTimer (c : Context σ μ) (o : ObjId) (w : Waiting) :
    (c.armTimer o w).heap = c.heap := by
  unfold armTimer
  split <;> rfl

theorem holds_armFuture {c : Context σ μ} {o : ObjId} {wt : Waiting} {w : Wake}
    (h : (c.armFuture o wt).Holds w) :
    c.Holds w ∨ c.Registers o w ∧ wt.wakeOnFuture.isSome = true ∧ ∃ k, w = .continuation k := by
  unfold armFuture at h
  split at h
  · exact .inl h
  next f hfut =>
    unfold onPromise at h
    split at h
    next =>
      have hfail : NoNewWake c (c.fail (.promiseGone f)) := noNewWake_of_rfl rfl rfl rfl
      exact .inl (hfail.holds w h)
    next p hp =>
      have hio : ∀ {k}, .continuation k ∈ c.io.ready ++
          (p.setContinuation ⟨o, (c.heap o).resumes⟩).2.map Handler.continuation →
          c.Holds (.continuation k) ∨ c.Registers o (.continuation k) ∧
            wt.wakeOnFuture.isSome = true ∧ ∃ k', Wake.continuation k = .continuation k' := by
        intro k hk
        rcases List.mem_append.mp hk with hk | hk
        · exact .inl (.posted hk)
        · obtain ⟨k', hm, he⟩ := List.mem_map.mp hk
          cases he
          cases EslangPromise.setContinuation_mem (.inr hm)
          exact .inr ⟨⟨rfl, rfl⟩, by simp [hfut], _, rfl⟩
      rcases h with ⟨h, hk⟩ | h | h | h
      · rename_i g q k
        by_cases hg : g = f
        · subst hg
          cases (promise_setPromise_self hp).symm.trans h
          cases EslangPromise.setContinuation_mem (.inl hk)
          exact .inr ⟨⟨rfl, rfl⟩, by simp [hfut], _, rfl⟩
        · exact .inl (.stored ((promise_setPromise_ne _ hg).symm.trans h) hk)
      · exact hio (by simpa [post, IoService.post, io_setPromise] using h)
      · exact .inl (.pending (by simpa [post, IoService.post, io_setPromise] using h))
      · exact .inl (.expired (by simpa [post, IoService.post, io_setPromise] using h))

theorem holds_suspended {c : Context σ μ} {o : ObjId} {wt : Waiting} {t : Coro σ μ} {w : Wake}
    (h : (c.suspended o wt t).Holds w) :
    c.Holds w ∨ c.Registers o w ∧ wt.registers w = true := by
  have hset : NoNewWake c (c.setWaiting o (some wt) t) := noNewWake_of_rfl rfl rfl rfl
  have hreg : (c.setWaiting o (some wt) t).Registers o w → c.Registers o w := by
    simp [Registers, setWaiting, setProc]
  unfold suspended arm at h
  split at h
  · have hq : NoNewWake c ((c.setWaiting o (some wt) t).queueResume
        ((c.setWaiting o (some wt) t).heap o).pid ((c.setWaiting o (some wt) t).heap o).resumes) :=
      noNewWake_of_rfl rfl rfl rfl
    exact .inl (hq.holds w h)
  next hnot =>
    rcases holds_armFuture h with h | ⟨h, hf, k, rfl⟩
    · rcases holds_armTimer h with h | ⟨h, hms, n, rfl⟩
      · exact .inl (hset.holds w h)
      · exact .inr ⟨hreg h, by simp [Waiting.registers, hnot, hms]⟩
    · refine .inr ⟨hreg (by simpa [Registers, heap_armTimer] using h), ?_⟩
      simp [Waiting.registers, hnot, hf]

theorem clock_suspended (c : Context σ μ) (o : ObjId) (wt : Waiting) (t : Coro σ μ) :
    (c.suspended o wt t).io.clock.Subperm ((o, (c.heap o).resumes) :: c.io.clock) := by
  have hless : c.io.clock.Subperm ((o, (c.heap o).resumes) :: c.io.clock) :=
    (List.sublist_cons_self _ _).subperm
  have hfuture : ∀ d : Context σ μ, (d.armFuture o wt).io.clock = d.io.clock := by
    intro d
    unfold armFuture onPromise
    split
    · rfl
    · split
      · rfl
      · simp [post, io_setPromise]
  unfold suspended arm
  split
  · exact hless
  · rw [hfuture, armTimer]
    split
    · exact hless
    · have hcancel := (noNewWake_cancelTimer c o).clock
      have hres : ((c.setWaiting o (some wt) t).heap o).resumes = (c.heap o).resumes := by
        simp [setWaiting, setProc]
      rw [hres]
      exact (IoService.clock_asyncWait _ _).subperm.trans ((List.subperm_cons _).mpr hcancel)

/-- How the wake-ups change in a step: a suspension registers some, a timer expires, or none is new. -/
inductive WakeStep (code : Code σ μ) (c c' : Context σ μ) : Prop
  | suspend {o : ObjId} {rest : List (Frame σ μ)} {w : Waiting} {t : Coro σ μ}
      (hw : Awaits code c o rest w t) (he : c' = { c with stack := rest }.suspended o w t)
  | expire {i : Nat} {w : TimerWait} (hl : c.looking = true) (hw : c.io.timers[i]? = some w)
      (he : c' = { c with io := { c.io with
        timers := c.io.timers.eraseIdx i
        ready := c.io.ready ++ [.timer w.this w.armed] } })
  | less (h : NoNewWake c c')

theorem effect_suspends {code : Code σ μ} {c c' : Context σ μ} {l : Label} {out : List (Event μ)}
    (he : Effect code c l out c') : WakeStep code c c' := by
  have hpop : ∀ {rest}, NoNewWake c { c with stack := rest } := noNewWake_of_rfl rfl rfl rfl
  cases he with
  | suspend hw => exact .suspend hw rfl
  | goOn hs s => exact .less (noNewWake_continueWith _ _ _ _)
  | fault f => exact .less (noNewWake_of_rfl rfl rfl rfl)
  | send hs hop hm s' => exact .less (noNewWake_of_rfl rfl rfl rfl)
  | throttleSend hs ht hc => exact .less (noNewWake_of_rfl rfl rfl rfl)
  | newSlot hs ho s' =>
    exact .less ((noNewWake_newSlot c _ _).trans (noNewWake_continueWith _ _ _ _))
  | dropSlot hs hop ho s' =>
    exact .less ((noNewWake_dropSlot c _).trans (noNewWake_continueWith _ _ _ _))
  | getVals hs hop ho s' =>
    exact .less ((noNewWake_getVals c _).trans (noNewWake_continueWith _ _ _ _))
  | spawn hs hop hm => exact .less (noNewWake_spawnWith c _ _ _)
  | addKillOnDie hs p s' => exact .less (noNewWake_of_rfl rfl rfl rfl)
  | link hs p hl s' =>
    exact .less ((noNewWake_link hl).trans (noNewWake_continueWith _ _ _ _))
  | kill hs p s' =>
    exact .less ((noNewWake_addtoDestroy c p "").trans (noNewWake_continueWith _ _ _ _))
  | newPromise hs owner s' =>
    exact .less ((noNewWake_newPromise c owner).trans (noNewWake_continueWith _ _ _ _))
  | onPromise hs n ha s' =>
    exact .less ((noNewWake_onPromise c _ (noNewWake_act ha)).trans
      (noNewWake_continueWith _ _ _ _))
  | asyncOp hs h' s' =>
    exact .less (noNewWake_less (fun _ => .inl rfl) (fun _ => id) (.refl _) (.refl _))
  | @asyncDone role s rest h' s' hs hop =>
    refine .less (noNewWake_less (fun _ => .inl rfl) (fun f hf => ?_) (.refl _) ?_)
    · simpa [asyncDone, continueWith] using hf
    · simp [asyncDone, continueWith, IoService.expired, List.filterMap_append, Handler.timer?]
  | @started o t role t' rest' self how hs body s' =>
    have hargs : NoNewWake c (c.spawnArgs o body) := noNewWake_of_rfl rfl rfl rfl
    exact .less ((hargs.trans (noNewWake_spawned _ _ _ _)).trans (noNewWake_continueWith _ _ _ _))
  | @ctorThrew o s e role t' rest' hs hop s' =>
    have hfail : NoNewWake c (c.setLife o .failed) := noNewWake_of_rfl rfl rfl rfl
    exact .less (((hfail.trans (noNewWake_dropSlots _ o)).trans (noNewWake_dropPromises _ o)).trans
      (noNewWake_continueWith _ _ _ _))
  | leave hs hr => exact .less (hpop)
  | @bodyReturned o t rest hs =>
    have hret : NoNewWake c ({ c with stack := rest }.setWaiting o none (c.heap o).task) :=
      noNewWake_of_rfl rfl rfl rfl
    exact .less (hret.trans (noNewWake_addtoDestroy _ _ _))
  | bodyThrew hs e => exact .less (hpop.trans (noNewWake_addtoDestroy _ _ _))
  | dtorReturned hs hop =>
    exact .less ((hpop.trans (noNewWake_dropSlots _ _)).trans (noNewWake_dropPromises _ _))
  | escaped hs hr e => exact .less (noNewWake_of_rfl rfl rfl rfl)
  | finish hs hp hn => exact .less (noNewWake_of_rfl rfl rfl rfl)
  | @take i q hs hp hq =>
    have hfront : NoNewWake c (c.popFront q) := noNewWake_of_rfl rfl rfl rfl
    exact .less (hfront.trans (noNewWake_processQueueItem _ i))
  | toRunOne hs hp hq => exact .less (noNewWake_of_rfl rfl rfl rfl)
  | ioReturn ph hs hp =>
    exact .less (noNewWake_less (fun _ => .inl rfl) (fun _ => id) (.refl _) (.refl _))
  | drained hs hp hr => exact .less (noNewWake_of_rfl rfl rfl rfl)
  | run hs hp hst hr =>
    exact .less ((noNewWake_popReady hr).trans (noNewWake_runHandler _ _))
  | @destroy o reason rest hs hp hd =>
    have hpop' : NoNewWake c { c with toDestroy := rest } := noNewWake_of_rfl rfl rfl rfl
    exact .less (hpop'.trans (noNewWake_destroy _ _ _ _))
  | toLoop hs hp hd => exact .less (noNewWake_of_rfl rfl rfl rfl)
  | expire i hl hw => exact .expire hl hw rfl
  | async i h' hl hh =>
    have hno : ∀ {d : Handler σ}, d ∈ c.io.ready ++ [h'] → (∀ o s, d ≠ .user o s) → d ≠ .aborted →
        d ∈ c.io.ready := by
      intro d hd hu ha
      rcases List.mem_append.mp hd with hd | hd
      · exact hd
      · cases List.mem_singleton.mp hd
        rcases hh with rfl | ⟨o, s, rfl, -⟩
        · exact absurd rfl ha
        · exact absurd rfl (hu o s)
    have hexp : (c.io.ready ++ [h']).filterMap Handler.timer? = c.io.expired := by
      rcases hh with rfl | ⟨o, s, rfl, -⟩ <;>
        simp [IoService.expired, List.filterMap_append, Handler.timer?]
    refine .less (noNewWake_less (fun _ => .inl rfl) (fun _ h => hno h (by simp) (by simp))
      (.refl _) ?_)
    rw [IoService.expired, hexp]

/-- **A step adds only wake-ups that the wait of the process it suspends registers.** -/
theorem effect_registers {code : Code σ μ} {c c' : Context σ μ} {l : Label} {out : List (Event μ)}
    (he : Effect code c l out c') {w : Wake} (h : c'.Holds w) :
    c.Holds w ∨ ∃ o rest wt t, Awaits code c o rest wt t ∧
      c' = { c with stack := rest }.suspended o wt t ∧ c.Registers o w ∧ wt.registers w = true := by
  cases effect_suspends he with
  | @suspend o rest wt t hw he' =>
    subst he'
    have hpop : NoNewWake c { c with stack := rest } := noNewWake_of_rfl rfl rfl rfl
    rcases holds_suspended h with h | ⟨h, hr⟩
    · exact .inl (hpop.holds w h)
    · exact .inr ⟨o, rest, wt, t, hw, rfl, h, hr⟩
  | expire hl hw he' =>
    subst he'
    rcases h with ⟨h, hk⟩ | h | h | h
    · exact .inl (.stored h hk)
    · exact .inl (.posted (by simpa using h))
    · exact .inl (.pending (List.mem_of_mem_eraseIdx h))
    · rcases List.mem_append.mp h with h | h
      · exact .inl (.expired h)
      · cases List.mem_singleton.mp h
        exact .inl (.pending (List.mem_of_getElem? hw))
  | less hn => exact .inl (hn.holds w h)

/-- A step adds only wake-ups of the process it suspends. -/
theorem effect_wake {code : Code σ μ} {c c' : Context σ μ} {l : Label} {out : List (Event μ)}
    (he : Effect code c l out c') {w : Wake} (h : c'.Holds w) :
    c.Holds w ∨ ∃ o t rest, c.stack = ⟨.body o, t⟩ :: rest ∧ c.Registers o w := by
  rcases effect_registers he h with h | ⟨o, rest, wt, t', hw, -, hr, -⟩
  · exact .inl h
  · obtain ⟨t, hs⟩ := hw.stack
    exact .inr ⟨o, t, rest, hs, hr⟩

end Context
end Eslang
