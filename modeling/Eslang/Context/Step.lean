import Eslang.Lib.Transition
import Eslang.Context.Operations

/-! # One step of a context: running code and `Context::run` (`eslang/Context.cpp`)

A step either lets the innermost running code make its next call, or, when no code runs, lets
`Context::run` do its next piece of work. Code that the language would reject (an address nobody
made, a slot of another process, a suspension outside a coroutine) has no step. The environment
chooses when a pending timer expires and when another operation of the io_service completes. The
io_service notices both inside `run_one` and `poll`; it may also complete an operation in the very
call that starts it. A handler that is queued stays queued when its operation is cancelled later. -/
namespace Eslang
set_option autoImplicit false
open Lib

/-- `tick` is the next step of the program; the others are the environment's. -/
inductive Label
  | tick
  /-- The operation that the running code starts completes in the call itself. -/
  | atOnce
  | expire (i : Nat)
  | complete (i : Nat)
  | abort (i : Nat)
deriving DecidableEq, Repr

namespace Context
variable {σ μ : Type}

/-! ## What running code may name -/

def ownsSlot (c : Context σ μ) (role : Role) (s : SlotId) : Bool :=
  decide (s < c.slotCount) && decide (role.self = some (c.slots s).owner)

def knowsPromise (c : Context σ μ) : PromiseRef → Bool
  | .throttle s => decide (s < c.slotCount)
  | .user n => decide (n < c.promiseCount)

/-- A wait that the code can have built. -/
def buildable (c : Context σ μ) (role : Role) (w : Waiting) : Bool :=
  w.slots.all (c.ownsSlot role) && w.wakeOnFuture.all c.knowsPromise &&
    w.readyFuture.all c.knowsPromise

/-- `await_ready`; reading a queue or a promise that is gone is a fault. -/
def awaitReady (c : Context σ μ) (w : Waiting) : Except Fault Bool :=
  match w.slots.find? fun s => (c.slots s).queue.isNone with
  | some s => .error (.slotGone s)
  | none =>
      match w.readyFuture.filter fun f => (c.promise f).isNone with
      | some f => .error (.promiseGone f)
      | none => .ok (w.awaitReady (fun f => (c.promise f).any (·.isReady))
          (fun s => (c.slots s).queue.all (·.empty)))

def newSlot (c : Context σ μ) (role : Role) (o : ObjId) : Context σ μ :=
  let c' := { c with
    slots := Function.update c.slots c.slotCount ⟨o, some {}⟩
    slotCount := c.slotCount + 1 }
  if role = .ctor o then
    c'.setProc o { c.heap o with members := (c.heap o).members ++ [c.slotCount] }
  else c'

/-- Continue the running code with `s`. -/
def continueWith (c : Context σ μ) (role : Role) (rest : List (Frame σ μ)) (s : σ) : Context σ μ :=
  { c with stack := ⟨role, .code s⟩ :: rest }

/-- Hand the result of a spawn to the code that called it. -/
def reply (code : Code σ μ) (c : Context σ μ) (rest : List (Frame σ μ))
    (r : Except String Pid) : Option (Context σ μ) :=
  match rest with
  | ⟨role, .code s⟩ :: rest' =>
      match code.op s with
      | .spawn how _ k =>
          let c := match r with
            | .ok p => c.spawned role.self how p
            | .error _ => c
          some (c.continueWith role rest' (k r))
      | _ => none
  | _ => none

/-- `sendThrottled` from `c_->canQueue(p)` on: wait on the throttle promise, or queue the
message and go on. -/
def tryQueue (c : Context σ μ) (o : ObjId) (rest : List (Frame σ μ)) (a : SendAddress) (m : μ)
    (k : σ) : Context σ μ × List (Event μ) :=
  match c.canQueue a with
  | .error f => (c.fail f, [])
  | .ok (some p) => ({ c with stack := rest }.suspended o (.future p) (.throttled a m k), [])
  | .ok none => ((c.queueSend a (.user m)).continueWith (.body o) rest k, [.sent a (.user m)])

/-! ## One call of the running code -/

def stepOp (code : Code σ μ) (c : Context σ μ) (role : Role) (rest : List (Frame σ μ)) :
    Op σ μ → Option (Context σ μ × List (Event μ))
  | .send a m k =>
      if c.made a then
        let c := c.queueSend a (.user m)
        some (c.continueWith role rest (k c.waitOnQueue), [.sent a (.user m)])
      else none
  | .sendThrottled a m k =>
      match role with
      | .body o =>
          if c.made a then
            if c.waitOnQueue then
              some ({ c with stack := rest }.suspended o .yield (.throttled a m k), [])
            else some (c.tryQueue o rest a m k)
          else none
      | _ => none
  | .waitOnQueue k => some (c.continueWith role rest (k c.waitOnQueue), [])
  | .canQueue a k =>
      if c.made a then
        match c.canQueue a with
        | .error f => some (c.fail f, [])
        | .ok p => some (c.continueWith role rest (k p), [])
      else none
  | .makeSendAddress p i k => some (c.continueWith role rest (k (c.makeSendAddress p i)), [])
  | .pid k =>
      match role.self with
      | some o => some (c.continueWith role rest (k (c.heap o).pid), [])
      | none => none
  | .newSlot k =>
      match role.self with
      | some o => some ((c.newSlot role o).continueWith role rest (k c.slotCount), [])
      | none => none
  | .dropSlot s k =>
      if c.ownsSlot role s && (c.slots s).queue.isSome &&
          !(c.heap (c.slots s).owner).members.contains s then
        some ((c.dropSlot s).continueWith role rest k, [])
      else none
  | .awaitReady w k =>
      if c.buildable role w then
        match c.awaitReady w with
        | .error f => some (c.fail f, [])
        | .ok b => some (c.continueWith role rest (k b), [])
      else none
  | .awaitSuspend w k =>
      match role with
      | .body o =>
          if c.buildable role w then some ({ c with stack := rest }.suspended o w (.code k), [])
          else none
      | _ => none
  | .getVals ss k =>
      if ss.all (c.ownsSlot role) then
        let r := c.getVals ss
        some (r.2.continueWith role rest (k r.1), poppedBy ss r.1)
      else none
  | .spawn how ctor _ =>
      match how, role.self with
      | .plain, self => some (c.spawnWith self how ctor, [])
      | .link, some o => some (c.spawnWith (some o) how ctor, [])
      | .linkNotify a, some o =>
          if c.made a then some (c.spawnWith (some o) how ctor, []) else none
      | _, none => none
  | .addKillOnDie p k =>
      match role.self with
      | some o => some ((c.addKillOnDie o p).continueWith role rest k, [])
      | none => none
  | .link p k =>
      match role.self with
      | some o =>
          match c.link o p with
          | .ok c' => some (c'.continueWith role rest (k (.ok ())), [])
          | .error e => some (c.continueWith role rest (k (.error e)), [])
      | none => none
  | .queueKill p k =>
      match role.self with
      | some _ => some ((c.addtoDestroy p "").continueWith role rest k, [])
      | none => none
  | .newPromise k =>
      some ((c.newPromise role.self).continueWith role rest (k c.promiseCount), [])
  | .setIfUnset n k =>
      if n < c.promiseCount then
        some ((c.onPromise (.user n) EslangPromise.setIfUnset).continueWith role rest k, [])
      else none
  | .setException n e k =>
      if n < c.promiseCount then
        some ((c.onPromise (.user n) (·.setException e)).continueWith role rest k, [])
      else none
  | .resetPromise n k =>
      if n < c.promiseCount then
        some ((c.onPromise (.user n) fun _ => ({}, [])).continueWith role rest k, [])
      else none
  | .asyncOp h k =>
      some ((c.asyncOp role.self h).continueWith role rest k, [])
  | .started body =>
      match role with
      | .ctor o => ((c.spawnArgs o body).reply code rest (.ok (c.heap o).pid)).map (·, [])
      | _ => none
  | .coReturn =>
      match role with
      | .main | .handler _ => some ({ c with stack := rest }, [])
      | .body o => some ({ c with stack := rest }.returned o, [])
      | .dtor o => some ({ c with stack := rest }.destroyed o, [])
      | .ctor _ => none
  | .throw e =>
      match role with
      | .main | .handler _ => some ({ c with stack := rest, phase := .threw e }, [])
      | .body o => some ({ c with stack := rest }.threw o e, [])
      | .dtor _ => some (c.fail (.terminate e), [])
      | .ctor o => ((c.ctorFailed o).reply code rest (.error e)).map (·, [])

def stepCode (code : Code σ μ) (c : Context σ μ) (f : Frame σ μ) (rest : List (Frame σ μ)) :
    Option (Context σ μ × List (Event μ)) :=
  match f.code with
  | .code s => c.stepOp code f.role rest (code.op s)
  | .throttled a m k =>
      match f.role with
      | .body o => some (c.tryQueue o rest a m k)
      | _ => none

/-! ## `Context::run` -/

def processQueueItem (c : Context σ μ) : ToProcessItem μ → Context σ μ × List (Event μ)
  | .message a m =>
      match c.findProc a.pid with
      | some o => (c.send o a m, [.delivered a m])
      | none => (c, [.discarded a m])
  | .resume p expected =>
      match c.findProc p with
      | some o => (if (c.heap o).resumes = expected then c.resume o else c, [])
      | none => (c, [])

/-- A handler of the io_service runs. Each lambda uses the process it captured. -/
def runHandler (c : Context σ μ) : Handler σ → Context σ μ
  | .aborted => c
  | .user owner h =>
      match owner.filter fun o => (c.heap o).freed with
      | some o => c.fail (.processGone o)
      | none => { c with stack := [⟨.handler owner, .code h⟩] }
  | .timer o _ => if (c.heap o).life = .destroyed then c.fail (.processGone o) else c.resume o
  | .continuation f =>
      if (c.heap f.this).life = .destroyed then c.fail (.processGone f.this)
      else if (c.heap f.this).resumes = f.resumes then c.resume f.this
      else c

def popFront (c : Context σ μ) (q : List (ToProcessItem μ)) : Context σ μ :=
  { c with queue := q, phase := .destroying }

def popReady (c : Context σ μ) (hs : List (Handler σ)) : Context σ μ :=
  { c with io := { c.io with ready := hs }, phase := .handling }

def schedule (code : Code σ μ) (c : Context σ μ) : Option (Context σ μ × List (Event μ)) :=
  match c.phase with
  | .loop =>
      if c.processes.length = c.tombstones.length then some ({ c with phase := .finished }, [])
      else
        match c.queue with
        | i :: q => some ((c.popFront q).processQueueItem i)
        | [] => some ({ c with phase := .runOne }, [])
  | .runOne =>
      if c.io.stopped || c.io.noWork then
        some ({ c with io := c.io.stopIfIdle, phase := .poll }, [])
      else
        match c.io.ready with
        | h :: hs => some ((c.popReady hs).runHandler h, [])
        | [] => none
  | .handling => some ({ c with io := c.io.stopIfIdle, phase := .poll }, [])
  | .poll =>
      if c.io.stopped || c.io.noWork then
        some ({ c with io := c.io.stopIfIdle, phase := .destroying }, [])
      else
        match c.io.ready with
        | h :: hs => some ((c.popReady hs).runHandler h, [])
        | [] => some ({ c with phase := .destroying }, [])
  | .destroying =>
      match c.toDestroy with
      | (o, reason) :: rest =>
          some ({ c with toDestroy := rest }.destroy code.dtor o reason,
            (c.heap o).notifyOnDie.map fun a => .sent a (.pid (c.heap o).pid))
      | [] => some ({ c with phase := .loop }, [])
  | .finished => none
  | .threw _ => none

/-- The environment acts while `run_one` or `poll` looks for work. An operation completes, also one
of a process that is gone, or it was cancelled and completes as aborted. -/
def environment (c : Context σ μ) : Label → Option (Context σ μ)
  | .tick | .atOnce => none
  | .expire i => c.io.timers[i]?.map fun w =>
      { c with io := { c.io with
          timers := c.io.timers.eraseIdx i
          ready := c.io.ready ++ [.timer w.this w.armed] } }
  | .complete i => c.io.asyncs[i]?.map fun h =>
      { c with io := { c.io with
          asyncs := c.io.asyncs.eraseIdx i
          ready := c.io.ready ++ [.user h.1 h.2] } }
  | .abort i => c.io.asyncs[i]?.map fun _ =>
      { c with io := { c.io with
          asyncs := c.io.asyncs.eraseIdx i
          ready := c.io.ready ++ [.aborted] } }

/-- The running code starts an operation that completes in the call itself. -/
def stepAtOnce (code : Code σ μ) (c : Context σ μ) : Option (Context σ μ × List (Event μ)) :=
  match c.stack with
  | ⟨role, .code s⟩ :: rest =>
      match code.op s with
      | .asyncOp h k => some ((c.asyncDone role.self h).continueWith role rest k, [])
      | _ => none
  | _ => none

def looking (c : Context σ μ) : Bool :=
  c.stack.isEmpty && (c.phase = .runOne || c.phase = .poll) && !c.io.stopped

def step (code : Code σ μ) (c : Context σ μ) (l : Label) : Option (Context σ μ × List (Event μ)) :=
  if c.fault.isSome then none
  else
    match l with
    | .tick =>
        match c.stack with
        | f :: rest => c.stepCode code f rest
        | [] => c.schedule code
    | .atOnce => c.stepAtOnce code
    | l => if c.looking then (c.environment l).map (·, []) else none

/-- A context on which `main` is about to run: it spawns processes, then calls `run()`. -/
def init (main : σ) : Context σ μ where
  heap := fun _ => { pid := ⟨0, 0⟩, life := .failed, task := .code main }
  slots := fun _ => ⟨0, none⟩
  promises := fun _ => ⟨none, none⟩
  stack := [⟨.main, .code main⟩]

end Context

/-- The transition system of a program. -/
def Code.system {σ μ : Type} (code : Code σ μ) : System (Context σ μ) Label (Event μ) :=
  ⟨fun c l => c.step code l⟩

/-- Runs of a context from the start of `main`, every step under the guard `ok`. -/
abbrev Code.RunsTo {σ μ : Type} (code : Code σ μ) (ok : Context σ μ → Label → Prop) (main : σ)
    (tr : List (Event μ)) (c : Context σ μ) : Prop :=
  code.system.Run ok (Context.init main) tr c

end Eslang
