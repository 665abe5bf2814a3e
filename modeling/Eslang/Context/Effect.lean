import Eslang.Context.Step

/-! # What one step of a context can do

`Effect code c l out c'` lists, once, every kind of step with the facts that made it possible: the
frame that ran, the call it made, the phase of `Context::run`. Steps that only read the state are one
case (`goOn`), and so are the calls that act on a promise of the program. `step_effect` is the
inversion of `Context.step`; every invariant of the development is proved by cases on `Effect`. -/
namespace Eslang
set_option autoImplicit false

namespace Context
variable {σ μ : Type}

/-- Code `t` is about to evaluate `c_->canQueue(a)` inside `sendThrottled(a, m)`: it was resumed
there, or it has just made the call and found the queue short. -/
def AtCheck (code : Code σ μ) (c : Context σ μ) (t : Coro σ μ) (a : SendAddress) (m : μ) (k : σ) :
    Prop :=
  t = .throttled a m k ∨
    ∃ s, t = .code s ∧ code.op s = .sendThrottled a m k ∧ c.made a = true ∧ c.queue.length ≤ 10

/-- The running body of `o` suspends in the wait `w` and will go on as `t`: at the yield of
`sendThrottled`, at its wait on the throttle promise, or in a `co_await` of its own. -/
inductive Awaits (code : Code σ μ) (c : Context σ μ) (o : ObjId) (rest : List (Frame σ μ)) :
    Waiting → Coro σ μ → Prop
  | yield {s a m k} (hs : c.stack = ⟨.body o, .code s⟩ :: rest)
      (hop : code.op s = .sendThrottled a m k) (hm : c.made a = true) (hq : 10 < c.queue.length) :
      Awaits code c o rest .yield (.throttled a m k)
  | throttle {t a m k p} (hs : c.stack = ⟨.body o, t⟩ :: rest) (ht : AtCheck code c t a m k)
      (hc : c.canQueue a = .ok (some p)) : Awaits code c o rest (.future p) (.throttled a m k)
  | plain {s w k} (hs : c.stack = ⟨.body o, .code s⟩ :: rest) (hop : code.op s = .awaitSuspend w k)
      (hb : c.buildable (.body o) w = true) : Awaits code c o rest w (.code k)

theorem Awaits.stack {code : Code σ μ} {c : Context σ μ} {o : ObjId} {rest : List (Frame σ μ)}
    {w : Waiting} {t : Coro σ μ} (h : Awaits code c o rest w t) :
    ∃ t₀, c.stack = ⟨.body o, t₀⟩ :: rest := by
  cases h with
  | yield hs hop hm hq => exact ⟨_, hs⟩
  | throttle hs ht hc => exact ⟨_, hs⟩
  | plain hs hop hb => exact ⟨_, hs⟩

/-- The calls that act on promise `n` of the program. -/
inductive PromiseAct (n : Nat) : Op σ μ →
    (EslangPromise Continuation → EslangPromise Continuation × List Continuation) → Prop
  | setIfUnset (k : σ) : PromiseAct n (.setIfUnset n k) EslangPromise.setIfUnset
  | setException (e : String) (k : σ) : PromiseAct n (.setException n e k) (·.setException e)
  | reset (k : σ) : PromiseAct n (.resetPromise n k) fun _ => ({}, [])

/-- Code `t` is inside a spawn. -/
def Called (code : Code σ μ) (t : Coro σ μ) (how : SpawnKind) : Prop :=
  ∃ s ctor k, t = .code s ∧ code.op s = .spawn how ctor k

inductive Effect (code : Code σ μ) (c : Context σ μ) : Label → List (Event μ) → Context σ μ → Prop
  | goOn {role t rest} (hs : c.stack = ⟨role, t⟩ :: rest) (s : σ) :
      Effect code c .tick [] (c.continueWith role rest s)
  | fault (f : Fault) (hs : c.stack ≠ []) : Effect code c .tick [] (c.fail f)
  | send {role s rest a m k} (hs : c.stack = ⟨role, .code s⟩ :: rest)
      (hop : code.op s = .send a m k) (hm : c.made a = true) (s' : σ) :
      Effect code c .tick [.sent a (.user m)]
        ((c.queueSend a (.user m)).continueWith role rest s')
  | suspend {o rest w t} (hw : Awaits code c o rest w t) :
      Effect code c .tick [] ({ c with stack := rest }.suspended o w t)
  | throttleSend {o t rest a m k} (hs : c.stack = ⟨.body o, t⟩ :: rest)
      (ht : AtCheck code c t a m k) (hc : c.canQueue a = .ok none) :
      Effect code c .tick [.sent a (.user m)]
        ((c.queueSend a (.user m)).continueWith (.body o) rest k)
  | newSlot {role t rest o} (hs : c.stack = ⟨role, t⟩ :: rest) (ho : role.self = some o) (s' : σ) :
      Effect code c .tick [] ((c.newSlot role o).continueWith role rest s')
  | dropSlot {role s₀ rest s k} (hs : c.stack = ⟨role, .code s₀⟩ :: rest)
      (hop : code.op s₀ = .dropSlot s k) (ho : c.ownsSlot role s = true) (s' : σ) :
      Effect code c .tick [] ((c.dropSlot s).continueWith role rest s')
  | getVals {role s rest ss k} (hs : c.stack = ⟨role, .code s⟩ :: rest)
      (hop : code.op s = .getVals ss k) (ho : ss.all (c.ownsSlot role) = true) (s' : σ) :
      Effect code c .tick (poppedBy ss (c.getVals ss).1)
        ((c.getVals ss).2.continueWith role rest s')
  | spawn {role s rest self how ctor k} (hs : c.stack = ⟨role, .code s⟩ :: rest)
      (hop : code.op s = .spawn how ctor k) (hm : ∀ a, how = .linkNotify a → c.made a = true)
      (hself : role.self = self) : Effect code c .tick [] (c.spawnWith self how ctor)
  | addKillOnDie {role t rest o} (hs : c.stack = ⟨role, t⟩ :: rest) (p : Pid) (s' : σ)
      (ho : role.self = some o) :
      Effect code c .tick [] ((c.addKillOnDie o p).continueWith role rest s')
  | link {role s rest k o c'} (hs : c.stack = ⟨role, .code s⟩ :: rest) (p : Pid)
      (hl : c.link o p = .ok c') (s' : σ) (hop : code.op s = .link p k) (ho : role.self = some o) :
      Effect code c .tick [] (c'.continueWith role rest s')
  | kill {role s rest k} (hs : c.stack = ⟨role, .code s⟩ :: rest) (p : Pid) (s' : σ)
      (hop : code.op s = .queueKill p k) (hself : role.self ≠ none) :
      Effect code c .tick [] ((c.addtoDestroy p "").continueWith role rest s')
  | newPromise {role t rest} (hs : c.stack = ⟨role, t⟩ :: rest) (owner : Option ObjId) (s' : σ) :
      Effect code c .tick [] ((c.newPromise owner).continueWith role rest s')
  | onPromise {role s rest act} (hs : c.stack = ⟨role, .code s⟩ :: rest) (n : Nat)
      (ha : PromiseAct n (code.op s) act) (s' : σ) :
      Effect code c .tick [] ((c.onPromise (.user n) act).continueWith role rest s')
  | asyncOp {role s rest} (hs : c.stack = ⟨role, .code s⟩ :: rest) (h s' : σ)
      (hop : code.op s = .asyncOp h s') :
      Effect code c .tick [] ((c.asyncOp role.self h).continueWith role rest s')
  | asyncDone {role s rest h s'} (hs : c.stack = ⟨role, .code s⟩ :: rest)
      (hop : code.op s = .asyncOp h s') :
      Effect code c .atOnce [] ((c.asyncDone role.self h).continueWith role rest s')
  | started {o s role t' rest' self how} (hs : c.stack = ⟨.ctor o, .code s⟩ :: ⟨role, t'⟩ :: rest')
      (body s' : σ) (hcall : Called code t' how) (hself : role.self = self)
      (hop : code.op s = .started body) :
      Effect code c .tick []
        (((c.spawnArgs o body).spawned self how (c.heap o).pid).continueWith role rest' s')
  | ctorThrew {o s e role t' rest'} (hs : c.stack = ⟨.ctor o, .code s⟩ :: ⟨role, t'⟩ :: rest')
      (hop : code.op s = .throw e) (s' : σ) :
      Effect code c .tick [] ((c.ctorFailed o).continueWith role rest' s')
  | leave {role t rest} (hs : c.stack = ⟨role, t⟩ :: rest) (hr : role = .main ∨ ∃ o, role = .handler o) :
      Effect code c .tick [] { c with stack := rest }
  | bodyReturned {o t rest} (hs : c.stack = ⟨.body o, t⟩ :: rest) :
      Effect code c .tick [] ({ c with stack := rest }.returned o)
  | bodyThrew {o t rest} (hs : c.stack = ⟨.body o, t⟩ :: rest) (e : String) :
      Effect code c .tick [] ({ c with stack := rest }.threw o e)
  | dtorReturned {o s rest} (hs : c.stack = ⟨.dtor o, .code s⟩ :: rest)
      (hop : code.op s = .coReturn) :
      Effect code c .tick [] ({ c with stack := rest }.destroyed o)
  | escaped {role t rest} (hs : c.stack = ⟨role, t⟩ :: rest) (hr : role = .main ∨ ∃ o, role = .handler o)
      (e : String) : Effect code c .tick [] { c with stack := rest, phase := .threw e }
  | finish (hs : c.stack = []) (hp : c.phase = .loop)
      (hn : c.processes.length = c.tombstones.length) :
      Effect code c .tick [] { c with phase := .finished }
  | take {i q} (hs : c.stack = []) (hp : c.phase = .loop) (hq : c.queue = i :: q) :
      Effect code c .tick ((c.popFront q).processQueueItem i).2 ((c.popFront q).processQueueItem i).1
  | toRunOne (hs : c.stack = []) (hp : c.phase = .loop) (hq : c.queue = []) :
      Effect code c .tick [] { c with phase := .runOne }
  | ioReturn (ph : Phase) (hs : c.stack = [])
      (hp : (c.phase = .runOne ∧ (c.io.stopped || c.io.noWork) = true ∧ ph = .poll) ∨
        (c.phase = .handling ∧ ph = .poll) ∨
        (c.phase = .poll ∧ (c.io.stopped || c.io.noWork) = true ∧ ph = .destroying)) :
      Effect code c .tick [] { c with io := c.io.stopIfIdle, phase := ph }
  | drained (hs : c.stack = []) (hp : c.phase = .poll) (hr : c.io.ready = []) :
      Effect code c .tick [] { c with phase := .destroying }
  | run {h hs'} (hs : c.stack = []) (hp : c.phase = .runOne ∨ c.phase = .poll)
      (hst : c.io.stopped = false) (hr : c.io.ready = h :: hs') :
      Effect code c .tick [] ((c.popReady hs').runHandler h)
  | destroy {o reason rest} (hs : c.stack = []) (hp : c.phase = .destroying)
      (hd : c.toDestroy = (o, reason) :: rest) :
      Effect code c .tick ((c.heap o).notifyOnDie.map fun a => .sent a (.pid (c.heap o).pid))
        ({ c with toDestroy := rest }.destroy code.dtor o reason)
  | toLoop (hs : c.stack = []) (hp : c.phase = .destroying) (hd : c.toDestroy = []) :
      Effect code c .tick [] { c with phase := .loop }
  | expire {w} (i : Nat) (hl : c.looking = true) (hw : c.io.timers[i]? = some w) :
      Effect code c (.expire i) []
        { c with io := { c.io with
            timers := c.io.timers.eraseIdx i
            ready := c.io.ready ++ [.timer w.this w.armed] } }
  | async {l : Label} (i : Nat) (h : Handler σ) (hl : c.looking = true)
      (hh : h = .aborted ∨ ∃ o s, h = .user o s ∧ c.io.asyncs[i]? = some (o, s)) :
      Effect code c l []
        { c with io := { c.io with
            asyncs := c.io.asyncs.eraseIdx i
            ready := c.io.ready ++ [h] } }

/-! ## The inversion -/

theorem reply_eq {code : Code σ μ} {c c' : Context σ μ} {rest : List (Frame σ μ)}
    {r : Except String Pid} (h : c.reply code rest r = some c') :
    ∃ role t rest' how s', rest = ⟨role, t⟩ :: rest' ∧ Called code t how ∧
      c' = (match r with
        | .ok p => c.spawned role.self how p
        | .error _ => c).continueWith role rest' s' := by
  unfold reply at h
  split at h
  next role s rest' =>
    split at h
    next how ctor k hop =>
      exact ⟨role, .code s, rest', how, k r, rfl, ⟨s, ctor, k, rfl, hop⟩, (Option.some.inj h).symm⟩
    next => cases h
  next => cases h

theorem tryQueue_effect {code : Code σ μ} {c : Context σ μ} {o : ObjId} {t : Coro σ μ}
    {rest : List (Frame σ μ)} {a : SendAddress} {m : μ} {k : σ}
    (hs : c.stack = ⟨.body o, t⟩ :: rest) (ht : AtCheck code c t a m k) :
    Effect code c .tick (c.tryQueue o rest a m k).2 (c.tryQueue o rest a m k).1 := by
  unfold tryQueue
  split
  next f hc => exact .fault f (by simp [hs])
  next p hc => exact .suspend (.throttle hs ht hc)
  next hc => exact .throttleSend hs ht hc

theorem stepOp_effect {code : Code σ μ} {c c' : Context σ μ} {role : Role} {s : σ}
    {rest : List (Frame σ μ)} {out : List (Event μ)} (hs : c.stack = ⟨role, .code s⟩ :: rest)
    (h : c.stepOp code role rest (code.op s) = some (c', out)) : Effect code c .tick out c' := by
  cases hop : code.op s with
  | send a m k =>
    simp only [hop, stepOp, Option.ite_none_right_eq_some] at h
    obtain ⟨hm, h⟩ := h
    cases h
    exact .send hs hop hm _
  | sendThrottled a m k =>
    cases role with
    | body o =>
      simp only [hop, stepOp, Option.ite_none_right_eq_some] at h
      obtain ⟨hm, h⟩ := h
      split at h
      next hq =>
        cases h
        exact .suspend (.yield hs hop hm (by simpa [waitOnQueue] using hq))
      next hq =>
        obtain ⟨rfl, rfl⟩ := Prod.mk.inj (Option.some.inj h).symm
        exact tryQueue_effect hs (.inr ⟨s, rfl, hop, hm, by simpa [waitOnQueue] using hq⟩)
    | main => simp [hop, stepOp] at h
    | ctor o => simp [hop, stepOp] at h
    | dtor o => simp [hop, stepOp] at h
    | handler o => simp [hop, stepOp] at h
  | waitOnQueue k =>
    simp only [hop, stepOp] at h
    cases h
    exact .goOn hs _
  | canQueue a k =>
    simp only [hop, stepOp, Option.ite_none_right_eq_some] at h
    obtain ⟨hm, h⟩ := h
    split at h
    next f hc => cases h; exact .fault f (by simp [hs])
    next p hc => cases h; exact .goOn hs _
  | makeSendAddress p i k =>
    simp only [hop, stepOp] at h
    cases h
    exact .goOn hs _
  | pid k =>
    simp only [hop, stepOp] at h
    split at h
    next o ho => cases h; exact .goOn hs _
    next => cases h
  | newSlot k =>
    simp only [hop, stepOp] at h
    split at h
    next o ho => cases h; exact .newSlot hs ho _
    next => cases h
  | dropSlot s k =>
    simp only [hop, stepOp, Option.ite_none_right_eq_some, Bool.and_eq_true] at h
    obtain ⟨⟨⟨ho, -⟩, -⟩, h⟩ := h
    cases h
    exact .dropSlot hs hop ho _
  | awaitReady w k =>
    simp only [hop, stepOp, Option.ite_none_right_eq_some] at h
    obtain ⟨hb, h⟩ := h
    split at h
    next f hc => cases h; exact .fault f (by simp [hs])
    next b hc => cases h; exact .goOn hs _
  | awaitSuspend w k =>
    cases role with
    | body o =>
      simp only [hop, stepOp, Option.ite_none_right_eq_some] at h
      obtain ⟨hb, h⟩ := h
      cases h
      exact .suspend (.plain hs hop hb)
    | main => simp [hop, stepOp] at h
    | ctor o => simp [hop, stepOp] at h
    | dtor o => simp [hop, stepOp] at h
    | handler o => simp [hop, stepOp] at h
  | getVals ss k =>
    simp only [hop, stepOp, Option.ite_none_right_eq_some] at h
    obtain ⟨ho, h⟩ := h
    cases h
    exact .getVals hs hop ho _
  | spawn how ctor k =>
    simp only [hop, stepOp] at h
    split at h
    next => cases h; exact .spawn hs hop (by intro a ha; cases ha) rfl
    next o ho => cases h; exact .spawn hs hop (by intro a ha; cases ha) ho
    next a o ho =>
      simp only [Option.ite_none_right_eq_some] at h
      obtain ⟨hm, h⟩ := h
      cases h
      exact .spawn hs hop (by intro a' ha; cases ha; exact hm) ho
    next => cases h
  | addKillOnDie p k =>
    simp only [hop, stepOp] at h
    split at h
    next o ho => cases h; exact .addKillOnDie hs p _ ho
    next => cases h
  | link p k =>
    simp only [hop, stepOp] at h
    split at h
    next o ho =>
      split at h
      next c'' hl => cases h; exact .link hs p hl _ hop ho
      next e hl => cases h; exact .goOn hs _
    next => cases h
  | queueKill p k =>
    simp only [hop, stepOp] at h
    split at h
    next o ho => cases h; exact .kill hs p _ hop (by simp [ho])
    next => cases h
  | newPromise k =>
    simp only [hop, stepOp] at h
    cases h
    exact .newPromise hs _ _
  | setIfUnset n k =>
    simp only [hop, stepOp, Option.ite_none_right_eq_some] at h
    obtain ⟨-, h⟩ := h
    cases h
    exact .onPromise hs n (hop ▸ .setIfUnset k) _
  | setException n e k =>
    simp only [hop, stepOp, Option.ite_none_right_eq_some] at h
    obtain ⟨-, h⟩ := h
    cases h
    exact .onPromise hs n (hop ▸ .setException e k) _
  | resetPromise n k =>
    simp only [hop, stepOp, Option.ite_none_right_eq_some] at h
    obtain ⟨-, h⟩ := h
    cases h
    exact .onPromise hs n (hop ▸ .reset k) _
  | asyncOp h' k =>
    simp only [hop, stepOp] at h
    cases h
    exact .asyncOp hs _ _ hop
  | started body =>
    cases role with
    | ctor o =>
      simp only [hop, stepOp, Option.map_eq_some_iff, Prod.mk.injEq] at h
      obtain ⟨d, hd, rfl, rfl⟩ := h
      obtain ⟨role, t, rest', how, s', rfl, hcall, rfl⟩ := reply_eq hd
      exact .started hs body s' hcall rfl hop
    | main => simp [hop, stepOp] at h
    | body o => simp [hop, stepOp] at h
    | dtor o => simp [hop, stepOp] at h
    | handler o => simp [hop, stepOp] at h
  | coReturn =>
    cases role with
    | main => simp only [hop, stepOp] at h; cases h; exact .leave hs (.inl rfl)
    | handler o => simp only [hop, stepOp] at h; cases h; exact .leave hs (.inr ⟨o, rfl⟩)
    | body o => simp only [hop, stepOp] at h; cases h; exact .bodyReturned hs
    | dtor o => simp only [hop, stepOp] at h; cases h; exact .dtorReturned hs hop
    | ctor o => simp [hop, stepOp] at h
  | throw e =>
    cases role with
    | main => simp only [hop, stepOp] at h; cases h; exact .escaped hs (.inl rfl) e
    | handler o => simp only [hop, stepOp] at h; cases h; exact .escaped hs (.inr ⟨o, rfl⟩) e
    | body o => simp only [hop, stepOp] at h; cases h; exact .bodyThrew hs e
    | dtor o => simp only [hop, stepOp] at h; cases h; exact .fault _ (by simp [hs])
    | ctor o =>
      simp only [hop, stepOp, Option.map_eq_some_iff, Prod.mk.injEq] at h
      obtain ⟨d, hd, rfl, rfl⟩ := h
      obtain ⟨role, t, rest', how, s', rfl, -, rfl⟩ := reply_eq hd
      exact .ctorThrew hs hop s'

theorem stepCode_effect {code : Code σ μ} {c c' : Context σ μ} {f : Frame σ μ}
    {rest : List (Frame σ μ)} {out : List (Event μ)} (hs : c.stack = f :: rest)
    (h : c.stepCode code f rest = some (c', out)) : Effect code c .tick out c' := by
  obtain ⟨role, t⟩ := f
  cases t with
  | code s => exact stepOp_effect hs h
  | throttled a m k =>
    cases role with
    | body o =>
      obtain ⟨rfl, rfl⟩ := Prod.mk.inj (Option.some.inj h).symm
      exact tryQueue_effect hs (.inl rfl)
    | main => simp [stepCode] at h
    | ctor o => simp [stepCode] at h
    | dtor o => simp [stepCode] at h
    | handler o => simp [stepCode] at h

theorem schedule_effect {code : Code σ μ} {c c' : Context σ μ} {out : List (Event μ)}
    (hs : c.stack = []) (h : c.schedule code = some (c', out)) : Effect code c .tick out c' := by
  unfold schedule at h
  split at h
  next hp =>
    split at h
    next hn => cases h; exact .finish hs hp hn
    next =>
      split at h
      next i q hq =>
        obtain ⟨rfl, rfl⟩ := Prod.mk.inj (Option.some.inj h).symm
        exact .take hs hp hq
      next hq => cases h; exact .toRunOne hs hp hq
  next hp =>
    split at h
    next hi => cases h; exact .ioReturn _ hs (.inl ⟨hp, hi, rfl⟩)
    next hi =>
      split at h
      next hd hs' hr => cases h; exact .run hs (.inl hp) (by simp at hi; exact hi.1) hr
      next => cases h
  next hp =>
    cases h
    exact .ioReturn _ hs (.inr (.inl ⟨hp, rfl⟩))
  next hp =>
    split at h
    next hi => cases h; exact .ioReturn _ hs (.inr (.inr ⟨hp, hi, rfl⟩))
    next hi =>
      split at h
      next hd hs' hr => cases h; exact .run hs (.inr hp) (by simp at hi; exact hi.1) hr
      next hr => cases h; exact .drained hs hp hr
  next hp =>
    split at h
    next o reason rest hd => cases h; exact .destroy hs hp hd
    next hd => cases h; exact .toLoop hs hp hd
  next => cases h
  next => cases h

theorem environment_effect {code : Code σ μ} {c c' : Context σ μ} {l : Label}
    (hl : c.looking = true) (h : c.environment l = some c') : Effect code c l [] c' := by
  cases l with
  | tick => cases h
  | atOnce => cases h
  | expire i =>
    obtain ⟨w, hw, rfl⟩ := Option.map_eq_some_iff.mp h
    exact .expire i hl hw
  | complete i =>
    obtain ⟨w, hw, rfl⟩ := Option.map_eq_some_iff.mp h
    exact .async i _ hl (.inr ⟨_, _, rfl, hw⟩)
  | abort i =>
    obtain ⟨w, hw, rfl⟩ := Option.map_eq_some_iff.mp h
    exact .async i _ hl (.inl rfl)

theorem stepAtOnce_effect {code : Code σ μ} {c c' : Context σ μ} {out : List (Event μ)}
    (h : c.stepAtOnce code = some (c', out)) : Effect code c .atOnce out c' := by
  unfold stepAtOnce at h
  split at h
  next role s rest hs =>
    split at h
    next h' k hop =>
      cases h
      exact .asyncDone hs hop
    next => cases h
  next => cases h

/-- **Every step is one of the listed effects**, and none is taken after a fault. -/
theorem step_effect {code : Code σ μ} {c c' : Context σ μ} {l : Label} {out : List (Event μ)}
    (h : c.step code l = some (c', out)) : c.fault = none ∧ Effect code c l out c' := by
  unfold step at h
  split at h
  · cases h
  next hf =>
    refine ⟨by simpa using hf, ?_⟩
    cases l with
    | tick =>
      cases hs : c.stack with
      | nil => exact schedule_effect hs (by simpa [hs] using h)
      | cons f rest => exact stepCode_effect hs (by simpa [hs] using h)
    | atOnce => exact stepAtOnce_effect h
    | _ =>
      simp only [Option.ite_none_right_eq_some, Option.map_eq_some_iff, Prod.mk.injEq] at h
      obtain ⟨hl, d, hd, rfl, rfl⟩ := h
      exact environment_effect hl hd

end Context
end Eslang
