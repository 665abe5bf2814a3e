import Eslang.Context.Sound

/-! # No message waits in a slot that a suspended process waits on

A message for a slot that its owner waits on is pushed and resumes the owner in the same step, so the
slots of a wait stay empty while the process is suspended in it, if they were empty when it suspended.
`await_ready` sees to that for a wait that is awaited at once. A method that was started eagerly made
its test earlier: a message that arrives before the method is awaited is pushed without a resume.
The log of a run lists tests that fail, pushes and suspensions; `InOrder` says that no push came between a
failed test and the suspension in the wait that was tested. -/
namespace Eslang
set_option autoImplicit false
open Lib

namespace Context
variable {σ μ : Type}

def Dry (c : Context σ μ) (s : SlotId) : Prop := ∀ ms, c.mail.box s = some ms → ms = []

def OwnSlots (c : Context σ μ) : Prop :=
  ∀ o w s, c.Idle o → (c.heap o).lastWaiting = some w → s ∈ w.slots →
    s < c.slotCount ∧ (c.slots s).owner = o

theorem Idle.running {c : Context σ μ} (hu : c.Unstarted) {o : ObjId} (hidle : c.Idle o)
    {w : Waiting} (hw : (c.heap o).lastWaiting = some w) : (c.heap o).life = .running := by
  have hst : c.table.Started o := by
    by_contra hn
    cases hw.symm.trans (hu o hn).1
  by_contra hl
  cases hidle.1.symm.trans (dead_iff.mpr ⟨hst, hl⟩)

def DryWaits (c : Context σ μ) : Prop :=
  c.fault = none → ∀ o w s, c.Idle o → (c.heap o).lastWaiting = some w → s ∈ w.slots → c.Dry s

end Context

/-! ## The order of tests, pushes and suspensions -/

/-- A readiness test over slots that failed, a push to a slot, a suspension in a wait over slots. -/
inductive WaitEvent
  | tested (ss : List SlotId)
  | pushed (s : SlotId)
  | suspended (ss : List SlotId)
deriving DecidableEq, Repr

/-- The slots that were found empty by a test and have seen no push since. -/
def WaitEvent.after (dry : List SlotId) : WaitEvent → List SlotId
  | tested ss => ss ++ dry
  | pushed s => dry.filter (· ≠ s)
  | suspended _ => dry

def dryAfter (log : List WaitEvent) : List SlotId := log.foldl WaitEvent.after []

namespace Context
variable {σ μ : Type}

/-- The slots that the log finds dry are dry. -/
def TestedDry (log : List WaitEvent) (c : Context σ μ) : Prop := ∀ s ∈ dryAfter log, c.Dry s

/-- What a log in order says about the state it leads to. -/
structure Watched (log : List WaitEvent) (c : Context σ μ) : Prop where
  sound : c.Sound
  own : c.OwnSlots
  tested : c.TestedDry log
  dry : c.DryWaits

end Context

/-- Process 0 tests its slot at once and suspends in the wait; process 1 sends it a message later. -/
def receiveAtOnce : Code Nat Unit where
  op n :=
    match n with
    | 0 => .spawn .plain 10 fun _ => 1
    | 1 => .spawn .plain 20 fun _ => 2
    | 10 => .newSlot fun _ => 11
    | 11 => .started 12
    | 12 => .awaitReady (.messages [0]) fun b => if b then 14 else 13
    | 13 => .awaitSuspend (.messages [0]) 14
    | 20 => .started 21
    | 21 => .send ⟨⟨0, 0⟩, 0⟩ () fun _ => 22
    | _ => .coReturn
  dtor _ := 99

end Eslang
