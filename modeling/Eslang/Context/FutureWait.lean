import Eslang.Context.Cells

/-! # The two ways through `co_await WaitOnFuture(&f)` (`eslang/Waiting.h`, `Context.cpp`)

If the flag of `f` is up when the coroutine asks, the `co_await` is over at once and nobody looks at
`f` again. Otherwise the process suspends, and `RunningProcess::resume` calls `f.process()`, which
takes the flag down or raises the stored exception, before it lets the coroutine run. -/
namespace Eslang
set_option autoImplicit false
open Lib

/-- A call that sets a promise: `setIfUnset`, or `setException` with a text. -/
abbrev SetCall := Option String

namespace EslangPromise
variable {κ : Type}

def setBy (p : EslangPromise κ) : SetCall → EslangPromise κ × List κ
  | none => p.setIfUnset
  | some e => p.setException e

/-- The promise after a sequence of calls. -/
def setAll (p : EslangPromise κ) (calls : List SetCall) : EslangPromise κ :=
  calls.foldl (fun p e => (p.setBy e).1) p

theorem setBy_exception (p : EslangPromise κ) (e : SetCall) :
    (p.setBy e).1.exception_ = p.exception_.or e := by
  have hset (q : EslangPromise κ) : q.setIfUnset.1.exception_ = q.exception_ := by
    unfold setIfUnset set
    split <;> rfl
  cases e with
  | none => simpa [setBy] using hset p
  | some e => exact hset _

theorem setAll_exception_congr {p q : EslangPromise κ} (h : p.exception_ = q.exception_)
    (calls : List SetCall) : (p.setAll calls).exception_ = (q.setAll calls).exception_ := by
  induction calls generalizing p q with
  | nil => exact h
  | cons e es ih => exact ih (by rw [setBy_exception, setBy_exception, h])

theorem setContinuation_exception (p : EslangPromise κ) (f : κ) :
    (p.setContinuation f).1.exception_ = p.exception_ := by
  unfold setContinuation set
  dsimp only
  split <;> rfl

theorem setAll_exception (p : EslangPromise κ) (calls : List SetCall) :
    (p.setAll calls).exception_ = none ↔ p.exception_ = none ∧ ∀ e ∈ calls, e = none := by
  induction calls generalizing p with
  | nil => simp [setAll]
  | cons e es ih =>
    have hstep := ih (p.setBy e).1
    rw [setBy_exception] at hstep
    rw [show p.setAll (e :: es) = (p.setBy e).1.setAll es from rfl, hstep]
    cases p.exception_ <;> simp

end EslangPromise

/-- In state `s` a coroutine executes `co_await WaitOnFuture(&f)`, after which it is in `after`. -/
def Code.AwaitsFuture {σ μ : Type} (code : Code σ μ) (s : σ) (f : PromiseRef) (after : σ) : Prop :=
  ∃ k, code.op s = .awaitReady (.onFuture f) k ∧ k true = after ∧
    code.op (k false) = .awaitSuspend (.onFuture f) after

namespace Context
variable {σ μ : Type}

/-- Other code sets `f`, call by call. -/
def sets (c : Context σ μ) (f : PromiseRef) (calls : List SetCall) : Context σ μ :=
  calls.foldl (fun c e => c.onPromise f (·.setBy e)) c

/-- The context when a `co_await WaitOnFuture(&f)` of the running process `o` is over. If the flag is
down, `o` suspends, the calls are made, and `o` is resumed. -/
def coAwait (code : Code σ μ) (c : Context σ μ) (o : ObjId) (f : PromiseRef) (calls : List SetCall) :
    Option (Context σ μ) := do
  let (c₁, _) ← c.step code .tick
  if (c.promise f).any (·.isReady) then some c₁
  else
    let (c₂, _) ← c₁.step code .tick
    some ((c₂.sets f calls).resume o)

/-- How a `co_await` should end when `f` holds `stored`: without an exception the coroutine goes on
and `f` is unset, else the coroutine runs with the exception raised. -/
def AwaitMet (c : Context σ μ) (o : ObjId) (f : PromiseRef) (after : σ) (stored : Option String) : Prop :=
  (stored = none → c.top? = some (.body o, after) ∧ (c.promise f).any (!·.isReady) = true) ∧
    (stored ≠ none → ∃ s, s ≠ after ∧ c.top? = some (.body o, s))

/-- What `f` holds when the `co_await` is over. -/
def storedAt (p : EslangPromise Continuation) (calls : List SetCall) : Option String :=
  if p.isReady then p.exception_ else (p.setAll calls).exception_

/-! ## The steps of a `co_await` -/

section Steps
variable {code : Code σ μ} {c : Context σ μ} {o : ObjId} {s after : σ} {n : Nat}
  {p : EslangPromise Continuation}

theorem buildable_onFuture (hn : n < c.promiseCount) (role : Role) :
    c.buildable role (.onFuture (.user n)) = true := by
  simp [buildable, Waiting.slots, Waiting.wakeOnFuture, Waiting.readyFuture, knowsPromise, hn]

theorem step_awaitReady {k : Bool → σ} (hf : c.fault = none) (hs : c.stack = [⟨.body o, .code s⟩])
    (hop : code.op s = .awaitReady (.onFuture (.user n)) k) (hn : n < c.promiseCount)
    (hp : c.promise (.user n) = some p) :
    c.step code .tick = some (c.continueWith (.body o) [] (k p.isReady), []) := by
  have hready : c.awaitReady (.onFuture (.user n)) = .ok p.isReady := by
    have hgone : (some (PromiseRef.user n)).filter (fun f => (c.promise f).isNone) = none := by
      simp [Option.filter, hp]
    simp [awaitReady, Waiting.slots, Waiting.readyFuture, Waiting.awaitReady, hp, hgone]
  simp [step, hf, hs, stepCode, hop, stepOp, buildable_onFuture hn, hready]

theorem step_awaitSuspend (hf : c.fault = none) (hs : c.stack = [⟨.body o, .code s⟩])
    (hop : code.op s = .awaitSuspend (.onFuture (.user n)) after) (hn : n < c.promiseCount) :
    c.step code .tick =
      some ({ c with stack := [] }.suspended o (.onFuture (.user n)) (.code after), []) := by
  simp [step, hf, hs, stepCode, hop, stepOp, buildable_onFuture hn]

/-- What a process suspended in `WaitOnFuture(&f)` keeps while others set `f`. -/
structure WaitsOn (c : Context σ μ) (o : ObjId) (n : Nat) (after : σ) (p : EslangPromise Continuation) :
    Prop where
  stack : c.stack = []
  dead : (c.heap o).dead = false
  lastWaiting : (c.heap o).lastWaiting = some (.onFuture (.user n))
  task : (c.heap o).task = .code after
  promise : c.promise (.user n) = some p

theorem waitsOn_onPromise (h : c.WaitsOn o n after p)
    (act : EslangPromise Continuation → EslangPromise Continuation × List Continuation) :
    (c.onPromise (.user n) act).WaitsOn o n after (act p).1 := by
  have he : c.onPromise (.user n) act = (c.setPromise (.user n) (act p).1).post (act p).2 := by
    rw [onPromise, h.promise]
  rw [he]
  exact ⟨h.stack, h.dead, h.lastWaiting, h.task, by simp [Context.promise, setPromise, post]⟩

theorem waitsOn_suspended (after : σ) (hd : (c.heap o).dead = false) (hp : c.promise (.user n) = some p) :
    (({ c with stack := [] } : Context σ μ).suspended o (.onFuture (.user n)) (.code after)).WaitsOn o n
      after (p.setContinuation ⟨o, (c.heap o).resumes⟩).1 := by
  have hbase : (({ c with stack := [] } : Context σ μ).setWaiting o (some (.onFuture (.user n)))
      (.code after)).WaitsOn o n after p := by
    refine ⟨rfl, ?_, ?_, ?_, hp⟩
    · simpa [setWaiting, setProc, RunningProcess.dead] using hd
    · simp [setWaiting, setProc]
    · simp [setWaiting, setProc]
  have hres : ((({ c with stack := [] } : Context σ μ).setWaiting o (some (.onFuture (.user n)))
      (.code after)).heap o).resumes = (c.heap o).resumes := by
    simp [setWaiting, setProc]
  have harm : ({ c with stack := [] } : Context σ μ).suspended o (.onFuture (.user n)) (.code after) =
      (({ c with stack := [] } : Context σ μ).setWaiting o (some (.onFuture (.user n)))
        (.code after)).onPromise (.user n) (·.setContinuation ⟨o, (c.heap o).resumes⟩) := by
    rw [suspended, arm]
    simp only [Waiting.isReadyForResume, armTimer, Waiting.sleepFor, armFuture, Waiting.wakeOnFuture, hres]
    rfl
  rw [harm]
  exact waitsOn_onPromise hbase _

theorem waitsOn_sets (h : c.WaitsOn o n after p) (calls : List SetCall) :
    (c.sets (.user n) calls).WaitsOn o n after (p.setAll calls) := by
  induction calls generalizing c p with
  | nil => exact h
  | cons e es ih => exact ih (waitsOn_onPromise h (·.setBy e))

theorem resume_normal (h : c.WaitsOn o n after p) (he : p.exception_ = none) :
    (c.resume o).top? = some (.body o, after) ∧
      ((c.resume o).promise (.user n)).any (!·.isReady) = true := by
  have hproc : p.process = .ok { p with exec_ := if p.set_ then none else p.exec_, set_ := false } := by
    rw [EslangPromise.process, he]
  have hr : c.resume o = ((c.cancelTimer o).setPromise (.user n)
      { p with exec_ := if p.set_ then none else p.exec_, set_ := false }).enter o := by
    simp only [resume, h.dead, h.lastWaiting, Option.bind_some, Waiting.wakeOnFuture, h.promise, hproc]
    rfl
  rw [hr]
  refine ⟨?_, ?_⟩
  · simp [enter, top?, setPromise, cancelTimer, h.task]
  · simp [enter, Context.promise, setPromise, setProc, EslangPromise.isReady]

theorem resume_raised {e : String} (h : c.WaitsOn o n after p) (he : p.exception_ = some e) :
    c.resume o = (c.cancelTimer o).addtoDestroy (c.heap o).pid ("Caught exception: " ++ e) := by
  have hproc : p.process = .error e := by rw [EslangPromise.process, he]
  simp only [resume, h.dead, h.lastWaiting, Option.bind_some, Waiting.wakeOnFuture, h.promise, hproc]
  rfl

end Steps

end Context

/-- **A `co_await WaitOnFuture(&f)` ends as it should exactly if `f` was unset and held no exception
when it began, and no exception was set while the process was suspended.** -/
theorem co_await_future_iff {σ μ : Type} {code : Code σ μ} {c : Context σ μ} {o : ObjId} {s after : σ}
    {n : Nat} {p : EslangPromise Continuation} (hf : c.fault = none)
    (hs : c.stack = [⟨.body o, .code s⟩]) (hd : (c.heap o).dead = false)
    (ha : code.AwaitsFuture s (.user n) after) (hn : n < c.promiseCount)
    (hp : c.promise (.user n) = some p) (calls : List SetCall) :
    ∃ c', c.coAwait code o (.user n) calls = some c' ∧
      (c'.AwaitMet o (.user n) after (Context.storedAt p calls) ↔
        p.isReady = false ∧ p.exception_ = none ∧ ∀ e ∈ calls, e = none) := by
  obtain ⟨k, hready, hk, hsuspend⟩ := ha
  have h₁ := Context.step_awaitReady hf hs hready hn hp
  cases hset : p.isReady with
  | true =>
    -- the fast path: the coroutine goes on, whatever `f` holds, and `f` stays set
    refine ⟨c.continueWith (.body o) [] (k true), by simp [Context.coAwait, h₁, hp, hset], ?_⟩
    have htop : (c.continueWith (.body o) [] (k true)).top? = some (.body o, after) := by
      simp [Context.continueWith, Context.top?, hk]
    have hkeep : (c.continueWith (.body o) [] (k true)).promise (.user n) = some p := hp
    simp only [Bool.true_eq_false, false_and, iff_false]
    rintro ⟨hnormal, hraised⟩
    rw [Context.storedAt, hset, if_pos rfl] at hnormal hraised
    cases he : p.exception_ with
    | none =>
      have hunset := (hnormal he).2
      rw [hkeep] at hunset
      simp [hset] at hunset
    | some e =>
      obtain ⟨t, hne, ht⟩ := hraised (by simp [he])
      rw [htop] at ht
      cases ht
      exact hne rfl
  | false =>
    have h₂ := Context.step_awaitSuspend (c := c.continueWith (.body o) [] (k false))
      (o := o) (s := k false) hf rfl hsuspend hn
    have hwait := Context.waitsOn_sets
      (Context.waitsOn_suspended (c := c.continueWith (.body o) [] (k false)) after hd hp) calls
    rw [hset] at h₁
    have hend : c.coAwait code o (.user n) calls = some (((({ c.continueWith (.body o) [] (k false) with
        stack := [] } : Context σ μ).suspended o (.onFuture (.user n)) (.code after)).sets (.user n)
        calls).resume o) := by
      simp [Context.coAwait, h₁, hp, hset, h₂]
    refine ⟨_, hend, ?_⟩
    have hstored : Context.storedAt p calls =
        ((p.setContinuation ⟨o, (c.heap o).resumes⟩).1.setAll calls).exception_ := by
      rw [Context.storedAt, hset, if_neg Bool.false_ne_true]
      exact EslangPromise.setAll_exception_congr (EslangPromise.setContinuation_exception _ _).symm calls
    have hnone := EslangPromise.setAll_exception (p.setContinuation ⟨o, (c.heap o).resumes⟩).1 calls
    rw [EslangPromise.setContinuation_exception] at hnone
    rw [hstored, ← hnone]
    simp only [true_and]
    constructor
    · rintro ⟨-, hraised⟩
      by_contra hne
      obtain ⟨e, he⟩ := Option.ne_none_iff_exists'.mp hne
      obtain ⟨t, -, ht⟩ := hraised hne
      obtain ⟨rest, hstack⟩ := Context.top?_eq_some.mp ht
      rw [Context.resume_raised hwait he, Context.stack_addtoDestroy] at hstack
      cases hwait.stack.symm.trans hstack
    · intro he
      exact ⟨fun _ => Context.resume_normal hwait he, fun hne => absurd he hne⟩

/-! ## One process and one promise -/

/-- `main` makes a promise, makes the call `e` if there is one, and spawns a process that executes
`co_await WaitOnFuture(&f)` in state 20. -/
def oneWaiter (e : Option SetCall) : Code Nat Unit where
  op
    | 0 => .newPromise fun _ => 1
    | 1 =>
        match e with
        | none => .waitOnQueue fun _ => 2
        | some none => .setIfUnset 0 2
        | some (some e) => .setException 0 e 2
    | 2 => .spawn .plain 10 fun _ => 3
    | 10 => .started 20
    | 20 => .awaitReady (.onFuture (.user 0)) fun b => if b then 22 else 21
    | 21 => .awaitSuspend (.onFuture (.user 0)) 22
    | _ => .coReturn
  dtor := id

theorem oneWaiter_awaits (e : Option SetCall) : (oneWaiter e).AwaitsFuture 20 (.user 0) 22 :=
  ⟨fun b => if b then 22 else 21, rfl, rfl, rfl⟩

/-- The process waits, `setIfUnset` is called twice, and it goes on with the promise unset. -/
theorem co_await_future_set_twice :
    ∃ tr c c', (oneWaiter none).RunsTo System.anyStep 0 tr c ∧
      c.coAwait (oneWaiter none) 0 (.user 0) [none, none] = some c' ∧
      c'.AwaitMet 0 (.user 0) 22 none := by
  obtain ⟨tr, c, hr, hf, hl, hd, ht, hn, hp⟩ := System.exec_reaches (M := (oneWaiter none).system)
    (g := fun _ _ => true) (G := System.anyStep) (fun _ _ _ => trivial) (w := List.replicate 6 .tick)
    (s := Context.init 0)
    (P := fun _ c => c.fault = none ∧ c.stack.length = 1 ∧ (c.heap 0).dead = false ∧
      c.top? = some (.body 0, 20) ∧ 0 < c.promiseCount ∧ c.promise (.user 0) = some {}) (by decide)
  obtain ⟨rest, hs⟩ := Context.top?_eq_some.mp ht
  have hrest : rest = [] := by simpa [hs] using hl
  obtain ⟨c', hc', hmet⟩ := co_await_future_iff hf (hrest ▸ hs) hd (oneWaiter_awaits none) hn hp
    [none, none]
  exact ⟨tr, c, c', hr, hc', hmet.mpr (by decide)⟩

/-- `setException` was called before the process waits: it goes on as if nothing were stored. -/
theorem co_await_future_exception_lost :
    ∃ tr c c', (oneWaiter (some (some "lost"))).RunsTo System.anyStep 0 tr c ∧
      c.promise (.user 0) = some { set_ := true, exception_ := some "lost" } ∧
      c.coAwait (oneWaiter (some (some "lost"))) 0 (.user 0) [] = some c' ∧
      ¬ c'.AwaitMet 0 (.user 0) 22 (some "lost") := by
  obtain ⟨tr, c, hr, hp, hc⟩ := System.exec_reaches (M := (oneWaiter (some (some "lost"))).system)
    (g := fun _ _ => true) (G := System.anyStep) (fun _ _ _ => trivial) (w := List.replicate 6 .tick)
    (s := Context.init 0)
    (P := fun _ c => c.promise (.user 0) = some { set_ := true, exception_ := some "lost" } ∧
      (c.coAwait (oneWaiter (some (some "lost"))) 0 (.user 0) []).any
        (fun c' => c'.top? = some (.body 0, 22)) = true) (by decide)
  cases hc' : c.coAwait (oneWaiter (some (some "lost"))) 0 (.user 0) [] with
  | none => simp [hc'] at hc
  | some c' =>
    refine ⟨tr, c, c', hr, hp, hc', fun hmet => ?_⟩
    have htop : c'.top? = some (.body 0, 22) := by simpa [hc'] using hc
    obtain ⟨s, hne, hs⟩ := hmet.2 (by simp)
    rw [htop] at hs
    cases hs
    exact hne rfl

end Eslang
