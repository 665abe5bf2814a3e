import Eslang.Slot

/-! # Pids, addresses, promises and waits (`eslang/BaseTypes.h`, `IWaiting.h`, `Waiting.h`)

A `Waiting` is one of the wait types of `Waiting.h`, in any nesting of `WithWaitingTimeout` and
`WithWaitingFuture`; the four virtual functions of `IWaiting` are functions on it. `await_ready`
reads queues and promises and is defined with the context state. -/
namespace Eslang
set_option autoImplicit false

/-- A `RunningProcess*`: the number of the object in allocation order, never reused. -/
abbrev ObjId := Nat

/-- A `SlotId` (`void*`): the number of the slot in allocation order, never reused. -/
abbrev SlotId := Nat

structure Pid where
  idx : Nat
  version : Nat
deriving DecidableEq, Repr

def Pid.toString (p : Pid) : String := Nat.repr p.idx ++ Nat.repr p.version

/-- A `SendAddress`. `TSendAddress` has no public constructor: an address names a slot and the pid
of the process that owns it (`Context.made`). -/
structure SendAddress where
  pid : Pid
  slot : SlotId
deriving DecidableEq, Repr

/-- A message body: one of the program's own, or the pid a death notification carries. -/
inductive MessageBase (μ : Type)
  | user (m : μ)
  | pid (p : Pid)
deriving DecidableEq, Repr

/-- An `EslangPromise*`: the throttle promise of a slot, or a promise of the program. -/
inductive PromiseRef
  | throttle (s : SlotId)
  | user (n : Nat)
deriving DecidableEq, Repr

/-- The lambda that `RunningProcess::resume` registers: it captures the process and its `resumes`
count. -/
structure Continuation where
  this : ObjId
  resumes : Nat
deriving DecidableEq, Repr

inductive Waiting
  | ready
  | always
  | yield
  | maybe (wait : Bool)
  | onFuture (f : PromiseRef)
  | messages (slots : List SlotId)
  | withTimeout (t : Nat) (u : Waiting)
  | withFuture (p : PromiseRef) (u : Waiting)
deriving DecidableEq, Repr

namespace Waiting

def isReadyForResume : Waiting → Bool
  | yield | maybe _ => true
  | withTimeout _ u | withFuture _ u => u.isReadyForResume
  | ready | always | onFuture _ | messages _ => false

def sleepFor : Waiting → Option Nat
  | withTimeout t _ => some t
  | withFuture _ u => u.sleepFor
  | ready | always | yield | maybe _ | onFuture _ | messages _ => none

def wakeOnFuture : Waiting → Option PromiseRef
  | onFuture f => some f
  | withFuture p _ => some p
  | withTimeout _ u => u.wakeOnFuture
  | ready | always | yield | maybe _ | messages _ => none

/-- The slots whose addresses a wait holds. -/
def slots : Waiting → List SlotId
  | messages ss => ss
  | withTimeout _ u | withFuture _ u => u.slots
  | ready | always | yield | maybe _ | onFuture _ => []

def isWaiting (w : Waiting) (s : SlotId) : Bool := w.slots.contains s

/-- `WaitingFuture`: the wait of `sendThrottled` on a throttle promise. -/
def future (p : PromiseRef) : Waiting := withFuture p always

/-- `WaitingTimeout`: the wait of `sleep`. -/
def timeout (t : Nat) : Waiting := withTimeout t always

/-- The promises whose flag `await_ready` reads. -/
def readyFuture : Waiting → Option PromiseRef
  | onFuture f => some f
  | withTimeout _ u | withFuture _ u => u.readyFuture
  | ready | always | yield | maybe _ | messages _ => none

/-- `await_ready` of a wait, given the flag of the promise and which slots are empty. -/
def awaitReady (isReady : PromiseRef → Bool) (isEmpty : SlotId → Bool) : Waiting → Bool
  | ready => true
  | always | yield => false
  | maybe wait => !wait
  | onFuture f => isReady f
  | messages ss => ss.any fun s => !isEmpty s
  | withTimeout _ u | withFuture _ u => u.awaitReady isReady isEmpty

end Waiting
end Eslang
