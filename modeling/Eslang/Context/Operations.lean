import Eslang.Context.State

/-! # The operations of `Context` and `RunningProcess` (`eslang/Context.cpp`, `Context.h`)

Each definition is the source function of the same name as a function on the context state. Where
the source would touch an object that is gone, the state records the fault and the run ends. -/
namespace Eslang
set_option autoImplicit false

namespace Context
variable {σ μ : Type}

def fail (c : Context σ μ) (f : Fault) : Context σ μ := { c with fault := some f }

def setProc (c : Context σ μ) (o : ObjId) (p : RunningProcess σ μ) : Context σ μ :=
  { c with heap := Function.update c.heap o p }

def setQueue (c : Context σ μ) (s : SlotId)
    (q : Option (MessageQueue (MessageBase μ) Continuation)) : Context σ μ :=
  { c with slots := Function.update c.slots s { c.slots s with queue := q } }

def post (c : Context σ μ) (fs : List Continuation) : Context σ μ := { c with io := c.io.post fs }

/-- The addresses that exist: `Slot::address` and `makeSendAddress` pair a slot with the pid of
its owner. -/
def made (c : Context σ μ) (a : SendAddress) : Bool :=
  decide (a.slot < c.slotCount) && decide ((c.heap (c.slots a.slot).owner).pid = a.pid)

/-! ## The process table -/

def findProc (c : Context σ μ) (p : Pid) : Option ObjId :=
  match c.processes[p.idx]? with
  | some (some o) => if (c.heap o).pid.version = p.version then some o else none
  | some none => none
  | none => none

/-- The const `findProc`: an entry that is present is dereferenced without a test. -/
def findProcConst (c : Context σ μ) (p : Pid) : Except Fault (Option ObjId) :=
  match c.processes[p.idx]? with
  | some (some o) => .ok (if (c.heap o).pid.version = p.version then some o else none)
  | some none => .error (.emptyEntry p)
  | none => .ok none

def nextPid (c : Context σ μ) : Pid × Context σ μ :=
  match c.tombstones with
  | t :: ts => (⟨t.idx, (t.version + 1) % 2 ^ 64⟩, { c with tombstones := ts })
  | [] => (⟨c.processes.length, 0⟩, { c with processes := c.processes ++ [none] })

def addtoDestroy (c : Context σ μ) (p : Pid) (reason : String) : Context σ μ :=
  match c.findProc p with
  | none => c
  | some o =>
      { c with
        heap := Function.update c.heap o { c.heap o with life := .killed }
        processes := c.processes.set p.idx none
        toDestroy := c.toDestroy ++ [(o, reason)]
        tombstones := p :: c.tombstones }

/-! ## The queue -/

def queueResume (c : Context σ μ) (p : Pid) (resumes : Nat) : Context σ μ :=
  { c with queue := c.queue ++ [.resume p resumes] }

def queueSend (c : Context σ μ) (a : SendAddress) (m : MessageBase μ) : Context σ μ :=
  { c with queue := c.queue ++ [.message a m] }

def waitOnQueue (c : Context σ μ) : Bool := decide (10 < c.queue.length)

/-- `canQueue`, through the const `findProc`. -/
def canQueue (c : Context σ μ) (a : SendAddress) : Except Fault (Option PromiseRef) :=
  match c.findProcConst a.pid with
  | .error f => .error f
  | .ok none => .ok none
  | .ok (some _) =>
      match (c.slots a.slot).queue with
      | none => .error (.slotGone a.slot)
      | some q => .ok (if q.shouldThrottle then some (.throttle a.slot) else none)

def makeSendAddress (c : Context σ μ) (p : Pid) (member : Nat) : Except String SendAddress :=
  match c.findProc p with
  | none => .error ("No process found for pid " ++ p.toString)
  | some o =>
      match (c.heap o).members[member]? with
      | none => .error ("Bad process type for " ++ p.toString)
      | some s => .ok ⟨p, s⟩

/-! ## Promises -/

def promise (c : Context σ μ) : PromiseRef → Option (EslangPromise Continuation)
  | .throttle s => (c.slots s).queue.map (·.p_)
  | .user n => (c.promises n).promise

def setPromise (c : Context σ μ) (f : PromiseRef) (p : EslangPromise Continuation) :
    Context σ μ :=
  match f with
  | .throttle s => c.setQueue s ((c.slots s).queue.map fun q => { q with p_ := p })
  | .user n => { c with promises := Function.update c.promises n { c.promises n with promise := some p } }

/-- An operation on a promise that may post its continuation. -/
def onPromise (c : Context σ μ) (f : PromiseRef)
    (act : EslangPromise Continuation → EslangPromise Continuation × List Continuation) :
    Context σ μ :=
  match c.promise f with
  | none => c.fail (.promiseGone f)
  | some p => (c.setPromise f (act p).1).post (act p).2

/-- A promise made by code that runs for `owner`. -/
def newPromise (c : Context σ μ) (owner : Option ObjId) : Context σ μ :=
  { c with
    promises := Function.update c.promises c.promiseCount ⟨owner, some {}⟩
    promiseCount := c.promiseCount + 1 }

/-- An asynchronous operation of the program starts; `h` is its completion handler. -/
def asyncOp (c : Context σ μ) (owner : Option ObjId) (h : σ) : Context σ μ :=
  { c with io := { c.io with asyncs := c.io.asyncs ++ [(owner, h)] } }

/-- An asynchronous operation that completes in the call that starts it: its handler is queued. -/
def asyncDone (c : Context σ μ) (owner : Option ObjId) (h : σ) : Context σ μ :=
  { c with io := { c.io with ready := c.io.ready ++ [.user owner h] } }

/-! ## Slots -/

/-- `MessageQueue::push` through `Process::push`. -/
def push (c : Context σ μ) (s : SlotId) (m : MessageBase μ) : Context σ μ :=
  match (c.slots s).queue with
  | none => c.fail (.slotGone s)
  | some q => c.setQueue s (some (q.push m))

/-- `WaitingMessages::get_optional` on one slot. -/
def getOptional (c : Context σ μ) (s : SlotId) : Option (MessageBase μ) × Context σ μ :=
  match (c.slots s).queue with
  | none => (none, c.fail (.slotGone s))
  | some q =>
      match q.pop with
      | none => (none, c)
      | some (m, q', posted) => (some m, (c.setQueue s (some q')).post posted)

def getVals (c : Context σ μ) : List SlotId → List (Option (MessageBase μ)) × Context σ μ
  | [] => ([], c)
  | s :: ss =>
      let r := c.getOptional s
      let rs := r.2.getVals ss
      (r.1 :: rs.1, rs.2)

/-- The messages `getVals` takes, each with its slot. -/
def poppedBy : List SlotId → List (Option (MessageBase μ)) → List (Event μ)
  | s :: ss, some m :: vs => .popped s m :: poppedBy ss vs
  | _ :: ss, none :: vs => poppedBy ss vs
  | [], _ => []
  | _ :: _, [] => []

/-- The destructor of a slot: `~MessageQueue` sets the throttle promise. -/
def dropSlot (c : Context σ μ) (s : SlotId) : Context σ μ :=
  match (c.slots s).queue with
  | none => c
  | some q => (c.setQueue s none).post q.destructor

/-- The slots of a process that still exist go with it, the last declared first. -/
def dropSlots (c : Context σ μ) (o : ObjId) : Context σ μ :=
  ((List.range c.slotCount).reverse.filter fun s => (c.slots s).owner = o).foldl dropSlot c

/-- The promises of a process go with it. -/
def dropPromises (c : Context σ μ) (o : ObjId) : Context σ μ :=
  { c with
    promises := fun n =>
      if (c.promises n).owner = some o then { c.promises n with promise := none }
      else c.promises n }

/-! ## `RunningProcess` -/

/-- `task.resume()` is entered: the body of the process runs on. -/
def enter (c : Context σ μ) (o : ObjId) : Context σ μ :=
  { c.setProc o { c.heap o with resumes := (c.heap o).resumes + 1 } with
    stack := ⟨.body o, (c.heap o).task⟩ :: c.stack }

def cancelTimer (c : Context σ μ) (o : ObjId) : Context σ μ := { c with io := c.io.cancel o }

/-- `RunningProcess::resume` up to the call of `task.resume()`. -/
def resume (c : Context σ μ) (o : ObjId) : Context σ μ :=
  if (c.heap o).dead then c
  else
    match (c.heap o).lastWaiting.bind Waiting.wakeOnFuture with
    | none => (c.cancelTimer o).enter o
    | some f =>
        match c.promise f with
        | none => (c.cancelTimer o).fail (.promiseGone f)
        | some p =>
            match p.process with
            | .error e =>
                (c.cancelTimer o).addtoDestroy (c.heap o).pid ("Caught exception: " ++ e)
            | .ok p' => ((c.cancelTimer o).setPromise f p').enter o

/-- `lastWaiting->sleepFor()`: arm the timer. -/
def armTimer (c : Context σ μ) (o : ObjId) (w : Waiting) : Context σ μ :=
  match w.sleepFor with
  | none => c
  | some ms => { c with io := (c.io.cancel o).asyncWait ⟨o, (c.heap o).resumes, ms⟩ }

/-- `lastWaiting->wakeOnFuture()`: register the continuation. -/
def armFuture (c : Context σ μ) (o : ObjId) (w : Waiting) : Context σ μ :=
  match w.wakeOnFuture with
  | none => c
  | some f => c.onPromise f fun p => p.setContinuation ⟨o, (c.heap o).resumes⟩

def setWaiting (c : Context σ μ) (o : ObjId) (w : Option Waiting) (task : Coro σ μ) :
    Context σ μ :=
  c.setProc o { c.heap o with lastWaiting := w, task := task }

/-- Arrange the next wake-up of a process that now waits on `w`. -/
def arm (c : Context σ μ) (o : ObjId) (w : Waiting) : Context σ μ :=
  if w.isReadyForResume then c.queueResume (c.heap o).pid (c.heap o).resumes
  else (c.armTimer o w).armFuture o w

/-- `RunningProcess::resume` after `task.resume()` returned the wait `w`. -/
def suspended (c : Context σ μ) (o : ObjId) (w : Waiting) (task : Coro σ μ) : Context σ μ :=
  (c.setWaiting o (some w) task).arm o w

/-- `RunningProcess::resume` after `task.resume()` finished the root coroutine. -/
def returned (c : Context σ μ) (o : ObjId) : Context σ μ :=
  (c.setWaiting o none (c.heap o).task).addtoDestroy (c.heap o).pid ""

/-- `RunningProcess::resume` after `task.resume()` threw. -/
def threw (c : Context σ μ) (o : ObjId) (e : String) : Context σ μ :=
  c.addtoDestroy (c.heap o).pid ("Caught exception: " ++ e)

def waitingFor (c : Context σ μ) (o : ObjId) (s : SlotId) : Bool :=
  match (c.heap o).lastWaiting with
  | some w => w.isWaiting s
  | none => false

def send (c : Context σ μ) (o : ObjId) (a : SendAddress) (m : MessageBase μ) : Context σ μ :=
  if c.waitingFor o a.slot && (c.push a.slot m).fault.isNone then (c.push a.slot m).resume o
  else c.push a.slot m

/-! ## Spawning, linking, killing -/

def addKillOnDie (c : Context σ μ) (o : ObjId) (p : Pid) : Context σ μ :=
  c.setProc o { c.heap o with killOnDie := (c.heap o).killOnDie ++ [p] }

def link (c : Context σ μ) (o : ObjId) (b : Pid) : Except String (Context σ μ) :=
  match c.findProc b with
  | none => .error "Proc is already dead"
  | some ob => .ok ((c.addKillOnDie o b).addKillOnDie ob (c.heap o).pid)

/-- The new process object as `ProcessArgs` and the base class constructor leave it. -/
def newProcess (c : Context σ μ) (p : Pid) (self : Option ObjId) (how : SpawnKind) (ctor : σ) :
    RunningProcess σ μ where
  pid := p
  life := .constructing
  killOnDie := match how, self with
    | .link, some o => [(c.heap o).pid]
    | _, _ => []
  notifyOnDie := match how with
    | .linkNotify a => [a]
    | _ => []
  task := .code ctor

/-- A new process object enters its constructor. -/
def construct (c : Context σ μ) (proc : RunningProcess σ μ) (ctor : σ) : Context σ μ :=
  { c with
    heap := Function.update c.heap c.heapSize proc
    heapSize := c.heapSize + 1
    stack := ⟨.ctor c.heapSize, .code ctor⟩ :: c.stack }

/-- `spawnWith` up to the constructor call: take a pid and fill `ProcessArgs`. -/
def spawnWith (c : Context σ μ) (self : Option ObjId) (how : SpawnKind) (ctor : σ) :
    Context σ μ :=
  c.nextPid.2.construct (c.newProcess c.nextPid.1 self how ctor) ctor

/-- `processes_[a.pid.idx()] = std::make_unique<RunningProcess>(...)`. -/
def occupy (c : Context σ μ) (o : ObjId) (body : σ) : Context σ μ :=
  { c with
    heap := Function.update c.heap o { c.heap o with life := .running, task := .code body }
    processes := c.processes.set (c.heap o).pid.idx (some o) }

/-- `spawnArgs` after the constructor. -/
def spawnArgs (c : Context σ μ) (o : ObjId) (body : σ) : Context σ μ :=
  (c.occupy o body).queueResume (c.heap o).pid 0

/-- `Process::spawnLink` and `spawnLinkNotify` after `spawnWith` returned. -/
def spawned (c : Context σ μ) (self : Option ObjId) (how : SpawnKind) (p : Pid) : Context σ μ :=
  match how, self with
  | .plain, _ => c
  | _, some o => c.addKillOnDie o p
  | _, none => c

def setLife (c : Context σ μ) (o : ObjId) (l : Life) : Context σ μ :=
  c.setProc o { c.heap o with life := l }

/-- A constructor that throws destroys the members built so far; the entry of the table stays
empty. -/
def ctorFailed (c : Context σ μ) (o : ObjId) : Context σ μ :=
  ((c.setLife o .failed).dropSlots o).dropPromises o

/-- The first loop of `destroy`. -/
def killLinked (c : Context σ μ) (o : ObjId) (reason : String) : Context σ μ :=
  (c.heap o).killOnDie.foldl (fun c p => c.addtoDestroy p reason) c

/-- The second loop of `destroy`. -/
def notifyDeath (c : Context σ μ) (o : ObjId) : Context σ μ :=
  (c.heap o).notifyOnDie.foldl (fun d a => d.queueSend a (.pid (c.heap o).pid)) c

/-- What `~RunningProcess` starts with: the timer goes, then the program's destructors run. -/
def beginDestructor (c : Context σ μ) (dtor : σ → σ) (o : ObjId) : Context σ μ :=
  { c.cancelTimer o with
    stack := ⟨.dtor o, .code (match (c.heap o).task with
      | .code s => dtor s
      | .throttled _ _ k => dtor k)⟩ :: c.stack }

/-- `Context::destroy` up to the destructors of the program. -/
def destroy (c : Context σ μ) (dtor : σ → σ) (o : ObjId) (reason : String) : Context σ μ :=
  (((c.setLife o .destroyed).killLinked o reason).notifyDeath o).beginDestructor dtor o

/-- The rest of `~RunningProcess` after the destructors of the program. -/
def destroyed (c : Context σ μ) (o : ObjId) : Context σ μ := (c.dropSlots o).dropPromises o

/-! ## The loops

What each round keeps, the loop keeps; and a part of the context that no round changes is the same
after the loop. -/

section
variable {P : Context σ μ → Prop} {α : Type}

theorem dropSlots_rec {c : Context σ μ} (hc : P c) (h : ∀ d s, P d → P (d.dropSlot s)) (o : ObjId) :
    P (c.dropSlots o) :=
  List.foldlRecOn _ _ hc fun d hd s _ => h d s hd

theorem killLinked_rec {c : Context σ μ} {reason : String} (hc : P c)
    (h : ∀ d p, P d → P (d.addtoDestroy p reason)) (o : ObjId) : P (c.killLinked o reason) :=
  List.foldlRecOn _ _ hc fun d hd p _ => h d p hd

theorem notifyDeath_rec {c : Context σ μ} (hc : P c) (h : ∀ d a m, P d → P (d.queueSend a m)) (o : ObjId) :
    P (c.notifyDeath o) :=
  List.foldlRecOn _ _ hc fun d hd a _ => h d a _ hd

variable (F : Context σ μ → α)

theorem getVals_same (h : ∀ d s, F (d.getOptional s).2 = F d) (c : Context σ μ) (ss : List SlotId) :
    F (c.getVals ss).2 = F c := by
  induction ss generalizing c with
  | nil => rfl
  | cons s ss ih => exact (ih _).trans (h c s)

theorem dropSlots_same (h : ∀ d s, F (d.dropSlot s) = F d) (c : Context σ μ) (o : ObjId) :
    F (c.dropSlots o) = F c :=
  dropSlots_rec (P := fun d => F d = F c) rfl (fun d s hd => (h d s).trans hd) o

theorem killLinked_same {reason : String} (h : ∀ d p, F (d.addtoDestroy p reason) = F d) (c : Context σ μ)
    (o : ObjId) : F (c.killLinked o reason) = F c :=
  killLinked_rec (P := fun d => F d = F c) rfl (fun d p hd => (h d p).trans hd) o

theorem notifyDeath_same (h : ∀ d a m, F (d.queueSend a m) = F d) (c : Context σ μ) (o : ObjId) :
    F (c.notifyDeath o) = F c :=
  notifyDeath_rec (P := fun d => F d = F c) rfl (fun d a m hd => (h d a m).trans hd) o

end

/-! ## The cases of `resume` -/

/-- What `RunningProcess::resume` does: nothing for a dead process; else it cancels the timer and
runs the promise of the wait, which may be gone, raise, or be consumed. -/
inductive Resumes (c : Context σ μ) (o : ObjId) : Context σ μ → Prop
  | dead (hd : (c.heap o).dead = true) : Resumes c o c
  | plain (hd : (c.heap o).dead = false)
      (hf : (c.heap o).lastWaiting.bind Waiting.wakeOnFuture = none) :
      Resumes c o ((c.cancelTimer o).enter o)
  | gone {f : PromiseRef} (hd : (c.heap o).dead = false)
      (hf : (c.heap o).lastWaiting.bind Waiting.wakeOnFuture = some f) (hp : c.promise f = none) :
      Resumes c o ((c.cancelTimer o).fail (.promiseGone f))
  | raised {f : PromiseRef} {p : EslangPromise Continuation} {e : String}
      (hd : (c.heap o).dead = false)
      (hf : (c.heap o).lastWaiting.bind Waiting.wakeOnFuture = some f) (hp : c.promise f = some p)
      (he : p.process = .error e) :
      Resumes c o ((c.cancelTimer o).addtoDestroy (c.heap o).pid ("Caught exception: " ++ e))
  | woken {f : PromiseRef} {p p' : EslangPromise Continuation} (hd : (c.heap o).dead = false)
      (hf : (c.heap o).lastWaiting.bind Waiting.wakeOnFuture = some f) (hp : c.promise f = some p)
      (he : p.process = .ok p') :
      Resumes c o (((c.cancelTimer o).setPromise f p').enter o)

theorem resume_resumes (c : Context σ μ) (o : ObjId) : Resumes c o (c.resume o) := by
  unfold resume
  split
  next hd => exact .dead hd
  next hd =>
    have hd : (c.heap o).dead = false := by simpa using hd
    split
    next hf => exact .plain hd hf
    next f hf =>
      split
      next hp => exact .gone hd hf hp
      next p hp =>
        split
        next e he => exact .raised hd hf hp he
        next p' he => exact .woken hd hf hp he

theorem not_dead {c : Context σ μ} {o : ObjId} (hd : (c.heap o).dead = false) :
    (c.heap o).life ≠ .killed ∧ (c.heap o).life ≠ .destroyed := by
  simpa [RunningProcess.dead] using hd

end Context
end Eslang
