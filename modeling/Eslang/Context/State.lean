import Eslang.Waiting
import Mathlib

/-! # The state of a `Context` (`eslang/Context.h`, `Process.h`)

The program is a parameter. Its coroutines, constructors, destructors and io handlers are states
of a type `σ`, and `Code.op` says what a state does next: one call into the library, with the
continuation for each reply. Every C++ program over this library is such a `Code`, and a `Code`
may do anything the library's types allow, in any order.

Objects live in three heaps that never reuse a number: the processes (`heap`), the slots and the
promises of the program. The vector `processes_` and the deque `toDestroy_` hold numbers of
processes, and `life` says where in its life a process is. -/
namespace Eslang
set_option autoImplicit false

/-- How a process is spawned: `spawn`, `spawnLink` or `spawnLinkNotify`. -/
inductive SpawnKind
  | plain
  | link
  | linkNotify (a : SendAddress)
deriving DecidableEq, Repr

/-- One call of the running code into the library, with what follows each reply. -/
inductive Op (σ μ : Type)
  /-- `Process::send`: `queueSend`, then the reply is `waitOnQueue()`. -/
  | send (a : SendAddress) (m : μ) (k : Bool → σ)
  /-- `co_await sendThrottled(a, m)`. -/
  | sendThrottled (a : SendAddress) (m : μ) (k : σ)
  | waitOnQueue (k : Bool → σ)
  | canQueue (a : SendAddress) (k : Option PromiseRef → σ)
  | makeSendAddress (p : Pid) (member : Nat) (k : Except String SendAddress → σ)
  | pid (k : Pid → σ)
  | newSlot (k : SlotId → σ)
  | dropSlot (s : SlotId) (k : σ)
  /-- The readiness test of a `co_await`. -/
  | awaitReady (w : Waiting) (k : Bool → σ)
  /-- Suspension in a wait that was not ready when it was tested; for a method started eagerly and
  awaited later the test was made long before. -/
  | awaitSuspend (w : Waiting) (k : σ)
  /-- `WaitingMessages::await_resume`. -/
  | getVals (ss : List SlotId) (k : List (Option (MessageBase μ)) → σ)
  | spawn (how : SpawnKind) (ctor : σ) (k : Except String Pid → σ)
  | addKillOnDie (p : Pid) (k : σ)
  | link (p : Pid) (k : Except String Unit → σ)
  | queueKill (p : Pid) (k : σ)
  | newPromise (k : Nat → σ)
  | setIfUnset (f : Nat) (k : σ)
  | setException (f : Nat) (e : String) (k : σ)
  /-- `p_ = EslangPromise()`. -/
  | resetPromise (f : Nat) (k : σ)
  /-- Start an asynchronous operation of the io_service with completion handler `h`. -/
  | asyncOp (h : σ) (k : σ)
  /-- The constructor is done; `body` is the coroutine made by `run()`. -/
  | started (body : σ)
  | coReturn
  | throw (e : String)

structure Code (σ μ : Type) where
  op : σ → Op σ μ
  /-- The destructors that run when a coroutine suspended in this state is destroyed. -/
  dtor : σ → σ

/-- Where code is: in the program's own code, or in `sendThrottled`, suspended at one of its two
waits or just resumed from it, about to evaluate `c_->canQueue(p)`. -/
inductive Coro (σ μ : Type)
  | code (s : σ)
  | throttled (a : SendAddress) (m : μ) (k : σ)
deriving DecidableEq, Repr

/-- In the constructor; in `processes_`; moved to `toDestroy_`; taken from it by `destroy`; never
completed because the constructor threw. -/
inductive Life
  | constructing
  | running
  | killed
  | destroyed
  | failed
deriving DecidableEq, Repr

/-- A `RunningProcess` with the `Process` it owns. -/
structure RunningProcess (σ μ : Type) where
  pid : Pid
  life : Life
  killOnDie : List Pid := []
  notifyOnDie : List SendAddress := []
  /-- The slots that are members of the process object, in declaration order. -/
  members : List SlotId := []
  task : Coro σ μ
  lastWaiting : Option Waiting := none
  resumes : Nat := 0

def RunningProcess.dead {σ μ : Type} (p : RunningProcess σ μ) : Bool :=
  p.life = .killed || p.life = .destroyed

/-- The memory of the process has been freed, by `destroy` or because its constructor threw. -/
def RunningProcess.freed {σ μ : Type} (p : RunningProcess σ μ) : Bool :=
  p.life = .destroyed || p.life = .failed

theorem RunningProcess.freed_iff {σ μ : Type} {p : RunningProcess σ μ} :
    p.freed = true ↔ p.life = .destroyed ∨ p.life = .failed := by
  simp [freed]

/-- A slot and its owner; the queue is gone once the slot is destroyed. -/
structure SlotCell (μ : Type) where
  owner : ObjId
  queue : Option (MessageQueue (MessageBase μ) Continuation)

/-- A promise of the program; one owned by a process dies with it. -/
structure PromiseCell where
  owner : Option ObjId
  promise : Option (EslangPromise Continuation)

/-- `ToProcessItem`: exactly one of `resume` and `message` is ever set. -/
inductive ToProcessItem (μ : Type)
  | resume (p : Pid) (expected : Nat)
  | message (a : SendAddress) (m : MessageBase μ)
deriving DecidableEq, Repr

/-! ## The io_service -/

/-- A handler that is queued for execution. An expired timer's handler captures only the process;
`armed` records the `resumes` count of the wait that armed it. -/
inductive Handler (σ : Type)
  | timer (this : ObjId) (armed : Nat)
  | aborted
  | continuation (f : Continuation)
  | user (owner : Option ObjId) (h : σ)
deriving DecidableEq, Repr

/-- A pending `async_wait` of the timer of a process. -/
structure TimerWait where
  this : ObjId
  armed : Nat
  ms : Nat
deriving DecidableEq, Repr

/-- `boost::asio::io_service`: handlers queued for execution, pending timer waits and other pending
operations are its outstanding work. -/
structure IoService (σ : Type) where
  stopped : Bool := false
  ready : List (Handler σ) := []
  timers : List TimerWait := []
  asyncs : List (Option ObjId × σ) := []

namespace IoService
variable {σ : Type}

def noWork (io : IoService σ) : Bool := io.ready.isEmpty && io.timers.isEmpty && io.asyncs.isEmpty

def post (io : IoService σ) (fs : List Continuation) : IoService σ :=
  { io with ready := io.ready ++ fs.map .continuation }

/-- `timer.cancel()`: pending waits complete with `operation_aborted`; a handler that is already
queued is not withdrawn. -/
def cancel (io : IoService σ) (p : ObjId) : IoService σ :=
  { io with
    ready := io.ready ++ (io.timers.filter (·.this = p)).map fun _ => .aborted
    timers := io.timers.filter (·.this ≠ p) }

def asyncWait (io : IoService σ) (w : TimerWait) : IoService σ :=
  { io with timers := io.timers ++ [w] }

/-- The io_service stops itself when no work is left. -/
def stopIfIdle (io : IoService σ) : IoService σ :=
  { io with stopped := io.stopped || io.noWork }

end IoService

/-! ## The whole state -/

/-- On whose behalf code runs. -/
inductive Role
  | main
  | body (p : ObjId)
  | ctor (p : ObjId)
  | dtor (p : ObjId)
  | handler (owner : Option ObjId)
deriving DecidableEq, Repr

/-- The process whose members the code can use. -/
def Role.self : Role → Option ObjId
  | main => none
  | body p | ctor p | dtor p => some p
  | handler owner => owner

structure Frame (σ μ : Type) where
  role : Role
  code : Coro σ μ

/-- Where `Context::run` is: at its loop head, inside `run_one` with nothing run yet, inside a
handler, in the `poll` loop, in the `toDestroy_` loop, returned, or left by an exception. -/
inductive Phase
  | loop
  | runOne
  | handling
  | poll
  | destroying
  | finished
  | threw (e : String)
deriving DecidableEq, Repr

/-- Undefined behaviour that the code can run into, and `std::terminate`. -/
inductive Fault
  | emptyEntry (p : Pid)
  | processGone (p : ObjId)
  | promiseGone (f : PromiseRef)
  | slotGone (s : SlotId)
  | terminate (e : String)
deriving DecidableEq, Repr

/-- What a step does that the outside can see. -/
inductive Event (μ : Type)
  | sent (a : SendAddress) (m : MessageBase μ)
  | popped (s : SlotId) (m : MessageBase μ)
  | delivered (a : SendAddress) (m : MessageBase μ)
  | discarded (a : SendAddress) (m : MessageBase μ)
deriving DecidableEq, Repr

structure Context (σ μ : Type) where
  processes : List (Option ObjId) := []
  /-- The head is `tombstones_.back()`. -/
  tombstones : List Pid := []
  toDestroy : List (ObjId × String) := []
  queue : List (ToProcessItem μ) := []
  io : IoService σ := {}
  heap : ObjId → RunningProcess σ μ
  heapSize : Nat := 0
  slots : SlotId → SlotCell μ
  slotCount : Nat := 0
  promises : Nat → PromiseCell
  promiseCount : Nat := 0
  phase : Phase := .loop
  /-- The code that is running, innermost first: a spawn runs the constructor inside its caller. -/
  stack : List (Frame σ μ) := []
  fault : Option Fault := none

/-- The code that runs, and its role. -/
def Context.top? {σ μ : Type} (c : Context σ μ) : Option (Role × σ) :=
  match c.stack with
  | ⟨role, .code s⟩ :: _ => some (role, s)
  | _ => none

theorem Context.top?_eq_some {σ μ : Type} {c : Context σ μ} {role : Role} {s : σ} :
    c.top? = some (role, s) ↔ ∃ rest, c.stack = ⟨role, .code s⟩ :: rest := by
  unfold top?
  constructor
  · intro h
    split at h
    next r t rest hs =>
      cases h
      exact ⟨rest, hs⟩
    next => cases h
  · rintro ⟨rest, hs⟩
    rw [hs]

end Eslang
