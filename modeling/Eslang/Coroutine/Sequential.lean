import Eslang.Coroutine.Machine

/-! # Calls of methods as ordinary sequential calls

The reference that the methods of `ProcessTask.h` are compared with; nothing in it is translated from
the source. There are no pointers: what a coroutine returns to is a list of frames, and a task that was
started and has suspended is kept as a value, a `Residual`, until it is awaited. A call runs its body
up to its first wait that suspends. A `co_await` of a task that has suspended puts the awaiter under
the frames of the residual, so that the rest of it runs to its end before the awaiter goes on with
the returned value. -/
namespace Eslang.Coroutine
set_option autoImplicit false

/-- The coroutines under a running one, the next to go on first, and how each goes on with the value
that is returned to it. -/
abbrev Frames (σ V : Type) := List (Handle × (V → σ))

/-- A computation that has suspended: what it waits for, in which coroutine, and what is under it. -/
structure Residual (σ V W : Type) where
  waiting : W
  innermost : Handle
  k : V → σ
  below : Frames σ V

/-- What a `co_await` of a method finds. -/
inductive Task (σ V W : Type)
  /-- It does not exist, it runs, or it is awaited already. -/
  | busy
  | suspended (r : Residual σ V W)
  | finished (v : V)

/-- A coroutine that has called the method `task`. -/
structure Caller (σ V : Type) where
  task : Handle
  self : Handle
  k : Handle → σ
  below : Frames σ V

inductive Mode (σ V W : Type)
  | initial (body : σ)
  | run (i : Handle) (c : σ) (below : Frames σ V)
  /-- The last call has returned. -/
  | back
  | suspended (r : Residual σ V W)
  | finished

structure Sequential (σ V W : Type) where
  mode : Mode σ V W
  callers : List (Caller σ V) := []
  tasks : Handle → Task σ V W := fun _ => .busy
  count : Nat := 1

namespace Sequential
variable {σ V W : Type}

def init (body : σ) : Sequential σ V W := { mode := .initial body }

def run (s : Sequential σ V W) (i : Handle) (c : σ) (below : Frames σ V) : Sequential σ V W :=
  { s with mode := .run i c below }

def put (s : Sequential σ V W) (n : Handle) (t : Task σ V W) : Sequential σ V W :=
  { s with tasks := Function.update s.tasks n t }

/-- What runs suspends: the last call returns a task that has suspended, or the process suspends. -/
def suspend (s : Sequential σ V W) (r : Residual σ V W) : Sequential σ V W :=
  match s.callers with
  | [] => { s with mode := .suspended r }
  | c :: _ => { s.put c.task (.suspended r) with mode := .back }

/-- `co_await` of the method `n`. -/
def join (s : Sequential σ V W) (i n : Handle) (k : V → σ) (below : Frames σ V) :
    Option (Sequential σ V W × List (Event V)) :=
  match s.tasks n with
  | .finished a => some (s.run i (k a) below, [.delivered i a])
  | .suspended r => some ((s.put n .busy).suspend { r with below := r.below ++ (i, k) :: below }, [])
  | .busy => none

/-- `co_return a`. -/
def ret (s : Sequential σ V W) (i : Handle) (a : V) (below : Frames σ V) :
    Sequential σ V W × List (Event V) :=
  match below, s.callers with
  | (j, k) :: below, _ => ((s.put i (.finished a)).run j (k a) below, [.delivered j a])
  | [], _ :: _ => ({ s.put i (.finished a) with mode := .back }, [])
  | [], [] => ({ s with mode := .finished }, [])

def tick (code : Code σ V W) (s : Sequential σ V W) (i : Handle) (c : σ) (below : Frames σ V)
    (ready : Bool) (v : V) : Option (Sequential σ V W × List (Event V)) :=
  match code c with
  | .act a k => some (s.run i k below, [.act i a])
  | .await w k =>
      if ready then some (s.run i (k v) below, [.delivered i v])
      else some (s.suspend ⟨w, i, k, below⟩, [])
  | .start body k =>
      some ({ s.run s.count body [] with
        callers := ⟨s.count, i, k, below⟩ :: s.callers, count := s.count + 1 }, [])
  | .join n k => s.join i n k below
  | .ret a => some (s.ret i a below)
  | .gen _ _ | .next _ _ | .yield _ _ => none

def step (code : Code σ V W) (s : Sequential σ V W) :
    Label V → Option (Sequential σ V W × List (Event V))
  | .resume v =>
      match s.mode with
      | .initial body => some (s.run root body [], [])
      | .suspended r => some (s.run r.innermost (r.k v) r.below, [.delivered r.innermost v])
      | .run _ _ _ | .back | .finished => none
  | .tick ready v =>
      match s.mode with
      | .run i c below => s.tick code i c below ready v
      | .back =>
          match s.callers with
          | [] => none
          | c :: cs => some ({ s.run c.self (c.k c.task) c.below with callers := cs }, [])
      | .initial _ | .suspended _ | .finished => none

end Sequential

/-- The reference as a transition system, with the labels and the events of the coroutines. -/
def sequential {σ V W : Type} (code : Code σ V W) :
    Lib.System (Sequential σ V W) (Label V) (Event V) :=
  ⟨Sequential.step code⟩

end Eslang.Coroutine
