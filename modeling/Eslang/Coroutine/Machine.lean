import Eslang.Lib.Transition
import Mathlib

/-! # Process, method and generator coroutines (`eslang/ProcessTask.h`, `ProcessTask.cpp`)

The coroutines of one `ProcessTask`: the process coroutine itself, the methods it calls and the
generators it consumes, nested in any way; any coroutine may use any task. The bodies are a parameter:
states of a type `σ`, with `Code` giving the next thing a body does. Promises are numbered in the order
in which they are made, and number 0 is the process.

`stack` is the native call stack. A coroutine is on it while it runs, or while a call that it made
has not returned: the call of a method, which runs the body up to its first suspension, or `next()`
of a generator. A coroutine that resumes its parent from its own suspension (`SuspendRunNext`,
`YieldSuspender`) leaves nothing behind but the return of that call, so the parent takes its place.

An `IWaiting` object is a value of a type `W`; whether a wait is ready when it is awaited, and what
it delivers, is decided by the labels of a run. -/
namespace Eslang.Coroutine
set_option autoImplicit false

/-- A `coroutine_handle`, as the number of its promise. -/
abbrev Handle := Nat

/-- The handle of the `ProcessTask`. -/
def root : Handle := 0

/-- `ProcessPromise`, `MethodTaskPromiseWithReturn` or `GenPromise`. -/
inductive Kind
  | process
  | method
  | gen
deriving DecidableEq, Repr

/-- The next thing a body does, with what follows each reply. -/
inductive Op (σ V W : Type)
  /-- Something the outside can see. -/
  | act (v : V) (k : σ)
  /-- `co_await` of an `IWaiting` object. -/
  | await (w : W) (k : V → σ)
  /-- The call of a method; the reply is the `MethodTask`. -/
  | start (body : σ) (k : Handle → σ)
  /-- `co_await` of a `MethodTask`. -/
  | join (n : Handle) (k : V → σ)
  /-- The call of a generator; the reply is the `GenTask`. -/
  | gen (body : σ) (k : Handle → σ)
  /-- `co_await g.next()`, and `g.take()` if that is true. -/
  | next (g : Handle) (k : Option V → σ)
  | yield (v : V) (k : σ)
  | ret (v : V)

abbrev Code (σ V W : Type) := σ → Op σ V W

/-- Where a coroutine is. -/
inductive Ctl (σ V W : Type)
  | code (s : σ)
  /-- In the call of method `n`. -/
  | calling (n : Handle) (k : Handle → σ)
  /-- In `g.next()`, before its result is awaited. -/
  | resuming (g : Handle) (k : Option V → σ)
  /-- Suspended in an `IWaiting` object. -/
  | waiting (w : W) (k : V → σ)
  /-- Suspended in a `MethodTask`. -/
  | joining (n : Handle) (k : V → σ)
  /-- Suspended in a `NextAwaitable`. -/
  | nexting (g : Handle) (k : Option V → σ)
  /-- Suspended initially, or in a `co_yield`. -/
  | idle (s : σ)
  /-- At the final suspend point. -/
  | done

/-- The task that a coroutine has called or is suspended in. -/
def Ctl.task {σ V W : Type} : Ctl σ V W → Option Handle
  | .calling n _ | .resuming n _ | .joining n _ | .nexting n _ => some n
  | .code _ | .waiting _ _ | .idle _ | .done => none

/-- A promise; `awaited` records that the `MethodTask` was awaited, and `creator` who made the task. -/
structure PromiseBase (σ V W : Type) where
  kind : Kind
  ctl : Ctl σ V W
  waiting : Option W := none
  subCoroutineChild : Option Handle := none
  /-- Whether `processPromise` is set; there is one process. -/
  processPromise : Bool := false
  parent : Option Handle := none
  t_ : Option V := none
  awaited : Bool := false
  creator : Handle := root

structure State (σ V W : Type) where
  promises : Handle → PromiseBase σ V W
  count : Nat
  nextChild : Option Handle := none
  stack : List Handle := []

inductive Event (V : Type)
  | act (i : Handle) (v : V)
  /-- A `co_await` of coroutine `i` evaluates to `v`. -/
  | delivered (i : Handle) (v : V)
  | yielded (g : Handle) (v : V)
  /-- `next()` of `g` was true, and `take()` gave `v`. -/
  | taken (g : Handle) (v : V)
deriving DecidableEq, Repr

inductive Label (V : Type)
  /-- `ProcessTask::resume`; what is resumed receives `v`. -/
  | resume (v : V)
  /-- The running coroutine goes on; a wait is ready or not, and delivers `v`. -/
  | tick (ready : Bool) (v : V)
deriving DecidableEq, Repr

namespace State
variable {σ V W : Type}

def update (s : State σ V W) (i : Handle) (f : PromiseBase σ V W → PromiseBase σ V W) : State σ V W :=
  { s with promises := Function.update s.promises i (f (s.promises i)) }

def goto (s : State σ V W) (i : Handle) (c : Ctl σ V W) : State σ V W :=
  s.update i fun p => { p with ctl := c }

def atFinalSuspend (s : State σ V W) (i : Handle) : Bool :=
  match (s.promises i).ctl with
  | .done => true
  | _ => false

/-- A promise that no coroutine has. -/
def blank : PromiseBase σ V W := { kind := .method, ctl := .done, awaited := true }

/-- The process with its body; the coroutine is suspended initially. -/
def init (body : σ) : State σ V W where
  promises := Function.update (fun _ => blank) root { kind := .process, ctl := .idle body }
  count := 1

def make (s : State σ V W) (p : PromiseBase σ V W) : State σ V W :=
  { s with promises := Function.update s.promises s.count p, count := s.count + 1 }

/-! ## `updateSuspend` -/

/-- `updateProcessPromise`: down the chain of children. A chain of more members than there are
promises is a circle, in which the loop of the source does not end: there is no state after it. -/
def updateProcessPromise (s : State σ V W) (at_ : Handle) : Nat → Option (State σ V W)
  | 0 => none
  | n + 1 =>
      let s := { s.update at_ fun p => { p with processPromise := true } with nextChild := some at_ }
      match (s.promises at_).subCoroutineChild with
      | none => some s
      | some c => s.updateProcessPromise c n

/-- Both overloads of `updateSuspend`: the process itself stands for its `processPromise`. -/
def updateSuspend (s : State σ V W) (parent our : Handle) : Option (State σ V W) :=
  let s := s.update our fun p => { p with parent := some parent }
  let s := s.update parent fun p => { p with subCoroutineChild := some our }
  if !(s.promises our).processPromise &&
      ((s.promises parent).kind = .process || (s.promises parent).processPromise) then
    s.updateProcessPromise our s.count
  else some s

/-- `IWaiting::await_suspend`. -/
def awaitSuspend (s : State σ V W) (i : Handle) (w : W) : State σ V W :=
  let s := s.update i fun p => { p with waiting := some w }
  if (s.promises i).processPromise then { s with nextChild := some i } else s

/-- The test that `MethodTaskBase::await_ready` and `NextAwaitable::await_ready` share. -/
def isSuspended (s : State σ V W) (i : Handle) : Bool :=
  (s.promises i).subCoroutineChild.isSome || (s.promises i).waiting.isSome

/-! ## Replies -/

/-- `NextAwaitable::await_resume`, and `take()` if it is true. -/
def nextReply (s : State σ V W) (g : Handle) : Option (Option V) :=
  if s.atFinalSuspend g then some none else (s.promises g).t_.map some

/-- The events of a reply of `next()`. -/
def takenBy (g : Handle) (r : Option V) : List (Event V) := (r.map (Event.taken g)).toList

/-- `h.resume()` of a suspended coroutine, which comes on top of `rest`; nothing is defined for one that
runs or has finished. It goes on wherever it is suspended: the `t_` of a method that has not returned is
what its constructor left there, and `v` stands for that. -/
def resumeHandle (s : State σ V W) (i : Handle) (v : V) (rest : List Handle) :
    Option (State σ V W × List (Event V)) :=
  let s := { s with stack := i :: rest }
  match (s.promises i).ctl with
  | .idle k => some (s.goto i (.code k), [])
  | .waiting _ k => some (s.goto i (.code (k v)), [.delivered i v])
  | .joining n k =>
      let r := (s.promises n).t_.getD v
      some (s.goto i (.code (k r)), [.delivered i r])
  | .nexting g k => (s.nextReply g).map fun r => (s.goto i (.code (k r)), takenBy g r)
  | .code _ | .calling _ _ | .resuming _ _ | .done => none

/-! ## One step of the running coroutine -/

/-- The call of method `n` has returned, so that there is a `MethodTask` to await. -/
def mayJoin (s : State σ V W) (n : Handle) : Bool :=
  (s.promises n).kind = .method && n < s.count &&
    match (s.promises (s.promises n).creator).ctl with
    | .calling m _ => m ≠ n
    | _ => true

/-- `co_await` of method `n` by `i`. -/
def join (s : State σ V W) (i n : Handle) (k : V → σ) (v : V) (rest : List Handle) :
    Option (State σ V W × List (Event V)) :=
  if s.mayJoin n then
    let s := s.update n fun p => { p with awaited := true }
    if s.atFinalSuspend n || !s.isSuspended n then
      let r := (s.promises n).t_.getD v
      some (s.goto i (.code (k r)), [.delivered i r])
    else (s.updateSuspend i n).map fun s => ({ s.goto i (.joining n k) with stack := rest }, [])
  else none

/-- `co_await` of the result of `g.next()`, once `g` has suspended. -/
def awaitNext (s : State σ V W) (i g : Handle) (k : Option V → σ) (rest : List Handle) :
    Option (State σ V W × List (Event V)) :=
  if s.isSuspended g then
    (s.updateSuspend i g).map fun s => ({ s.goto i (.nexting g k) with stack := rest }, [])
  else (s.nextReply g).map fun r => (s.goto i (.code (k r)), takenBy g r)

/-- `co_yield v` of `g`: `YieldSuspender::await_suspend`. -/
def yieldValue (s : State σ V W) (g : Handle) (v u : V) (k : σ) (rest : List Handle) :
    Option (State σ V W × List (Event V)) :=
  let parent := (s.promises g).parent
  let s := s.update g fun p => { p with t_ := some v, waiting := none, parent := none, ctl := .idle k }
  match parent with
  | none => some ({ s with stack := rest }, [.yielded g v])
  | some p =>
      let s := s.update p fun q => { q with subCoroutineChild := none }
      (s.resumeHandle p u rest).map fun r => (r.1, .yielded g v :: r.2)

/-- `co_return v` of `i`, and its `final_suspend`. -/
def finish (s : State σ V W) (i : Handle) (v u : V) (rest : List Handle) :
    Option (State σ V W × List (Event V)) :=
  match (s.promises i).kind, (s.promises i).parent with
  | .method, some p =>
      let s := s.update i fun q => { q with t_ := some v, ctl := .done }
      let s := s.update p fun q => { q with subCoroutineChild := none }
      s.resumeHandle p u rest
  | .method, none =>
      some ({ s.update i (fun q => { q with t_ := some v, ctl := .done }) with stack := rest }, [])
  | .gen, _ | .process, _ => some ({ s.goto i .done with stack := rest }, [])

/-- Coroutine `i` is on top of the stack; `rest` is below it. -/
def tick (code : Code σ V W) (s : State σ V W) (i : Handle) (rest : List Handle) (ready : Bool)
    (v : V) : Option (State σ V W × List (Event V)) :=
  match (s.promises i).ctl with
  | .calling n k => some (s.goto i (.code (k n)), [])
  | .resuming g k => s.awaitNext i g k rest
  | .code c =>
      match code c with
      | .act a k => some (s.goto i (.code k), [.act i a])
      | .await w k =>
          if ready then some (s.goto i (.code (k v)), [.delivered i v])
          else some ({ (s.awaitSuspend i w).goto i (.waiting w k) with stack := rest }, [])
      | .start body k =>
          let s' := (s.goto i (.calling s.count k)).make { kind := .method, ctl := .code body, creator := i }
          some ({ s' with stack := s.count :: i :: rest }, [])
      | .join n k => s.join i n k v rest
      | .gen body k =>
          some ((s.goto i (.code (k s.count))).make { kind := .gen, ctl := .idle body, creator := i }, [])
      | .next g k =>
          if (s.promises g).kind = .gen then
            (s.goto i (.resuming g k)).resumeHandle g v (i :: rest)
          else none
      | .yield a k => if (s.promises i).kind = .gen then s.yieldValue i a v k rest else none
      | .ret a => s.finish i a v rest
  | .waiting _ _ | .joining _ _ | .nexting _ _ | .idle _ | .done => none

/-! ## `ProcessTask::resume` -/

/-- What `ProcessTask::resume` returns. -/
def result (s : State σ V W) : Option W :=
  if s.atFinalSuspend root then none
  else
    match s.nextChild with
    | some c => (s.promises c).waiting
    | none => (s.promises root).waiting

/-- The context has resumed the process never before, or the last time it got an `IWaiting`; it
dereferences what it gets. -/
def mayResume (s : State σ V W) : Bool :=
  match (s.promises root).ctl with
  | .idle _ => true
  | _ => s.result.isSome

def resumeProcess (s : State σ V W) (v : V) : Option (State σ V W × List (Event V)) :=
  let child := s.nextChild.getD root
  let s := s.update root fun p => { p with waiting := none }
  { s with nextChild := none }.resumeHandle child v []

def step (code : Code σ V W) (s : State σ V W) : Label V → Option (State σ V W × List (Event V))
  | .resume v => if s.stack.isEmpty && s.mayResume then s.resumeProcess v else none
  | .tick ready v =>
      match s.stack with
      | [] => none
      | i :: rest => s.tick code i rest ready v

end State

/-- The coroutines of a process as a transition system. -/
def machine {σ V W : Type} (code : Code σ V W) : Lib.System (State σ V W) (Label V) (Event V) :=
  ⟨State.step code⟩

end Eslang.Coroutine
