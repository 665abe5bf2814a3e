import Eslang.Context.Phases
import Eslang.Context.Releases

/-! # Wake-ups and the lifetime of what they touch

Two objects can be gone when a wake-up comes: the process that a continuation captured, and the promise
of the slot whose owner died. A kill withdraws neither the continuation of the killed process nor the
wait of a sender on its throttle promise, so both are reachable. `continuation_not_destroyed` and
`promise_not_destroyed` say which runs are free of it: nothing posts the continuation of a process that is
destroyed, and when the `toDestroy_` loop is done no survivor waits on a promise that went. -/
namespace Eslang
set_option autoImplicit false
open Lib

namespace Context
variable {σ μ : Type}

/-! ## Continuations of destroyed processes -/

/-- The next step of the io_service executes continuation `k`. -/
def Executes (c : Context σ μ) (k : Continuation) : Prop :=
  c.stack = [] ∧ (c.phase = .runOne ∨ c.phase = .poll) ∧ c.io.stopped = false ∧
    c.io.ready.head? = some (.continuation k)

/-- A process is destroyed only when none of its continuations is posted, and a promise that stores one of a
destroyed process is not set. -/
structure NoLateWake (code : Code σ μ) (c : Context σ μ) (_ : Label) : Prop where
  destroy : ∀ o, c.Destroys o → ∀ n, .continuation ⟨o, n⟩ ∉ c.io.ready
  set : ∀ f k, Sets code c f → c.Stores f k → (c.heap k.this).life ≠ .destroyed

/-- No continuation of a destroyed process is posted. -/
def PostedAlive (c : Context σ μ) : Prop :=
  ∀ k, .continuation k ∈ c.io.ready → (c.heap k.this).life ≠ .destroyed

theorem effect_postedAlive {code : Code σ μ} {c c' : Context σ μ} {l : Label}
    {out : List (Event μ)} (he : Effect code c l out c') (ht : c.table.Ok)
    (hg : c.NoLateWake code l) (h : c.PostedAlive) : c'.PostedAlive := by
  intro k hk hd
  rcases (step_keeps he ht).destroyed hd with hd | hd
  · rcases effect_posts he hk with hk | ⟨f, hset, hstored⟩ | ⟨t, rest, hs⟩
    · exact h k hk hd
    · exact hg.set f k hset hstored hd
    · -- the process that just suspended has its body on the stack
      exact ht.body (o := k.this) (by simp [roles_top hs]) hd
  · rcases effect_posts he hk with hk | ⟨f, hset, -⟩ | ⟨t, rest, hs⟩
    · exact hg.destroy k.this hd k.resumes hk
    · exact hset.stack hd.1
    · simp [Destroys, hs] at hd

theorem postedAlive_init (main : σ) : (init main : Context σ μ).PostedAlive := by
  intro k _
  simp [init]

end Context

/-- **No continuation runs on a destroyed process** in a run that destroys a process only when none of its
continuations is posted, and then sets no promise that stores one. -/
theorem continuation_not_destroyed {σ μ : Type} {code : Code σ μ} {main : σ} {tr : List (Event μ)}
    {c : Context σ μ} (h : code.RunsTo (Context.NoLateWake code) main tr c) {k : Continuation}
    (hk : c.Executes k) : (c.heap k.this).life = .running ∨ (c.heap k.this).life = .killed := by
  have halive : c.PostedAlive := by
    refine h.invariant_of Context.Sound Context.PostedAlive Code.sound
      (Context.postedAlive_init main) fun _ _ _ _ hc hi hg hs => ?_
    exact Context.effect_postedAlive (Context.step_effect hs).2 hc.table hg hi
  have hready : .continuation k ∈ c.io.ready := List.mem_of_head? hk.2.2.2
  have hstarted : c.table.Started k.this := (Code.sound h).refs.wakes (.posted hready)
  have hnot := halive k hready
  cases hl : (c.heap k.this).life with
  | running => exact .inl rfl
  | killed => exact .inr rfl
  | constructing => exact absurd hl hstarted.1
  | failed => exact absurd hl hstarted.2
  | destroyed => exact absurd hl hnot

theorem Code.nothing_destroyed {σ μ : Type} {code : Code σ μ} {main : σ} {tr : List (Event μ)}
    {c : Context σ μ} (h : code.RunsTo (fun c _ => c.toDestroy = []) main tr c) (o : ObjId) :
    (c.heap o).life ≠ .destroyed := by
  refine h.invariant_of Context.Sound (fun c => ∀ o, (c.heap o).life ≠ .destroyed)
    Code.sound (by simp [Context.init]) (fun c l c' out hc hi hg hs o hd => ?_) o
  rcases (Context.step_keeps (Context.step_effect hs).2 hc.table).destroyed hd with hd | hd
  · exact hi o hd
  · simp [Context.Destroys, show c.toDestroy = [] from hg] at hd

/-- `main` makes a promise; process 0 waits on it, process 1 sets it. -/
def setPromiseProgram : Code Nat Unit where
  op
    | 0 => .newPromise fun _ => 1
    | 1 => .spawn .plain 10 fun _ => 2
    | 2 => .spawn .plain 20 fun _ => 3
    | 10 => .started 11
    | 11 => .awaitSuspend (.future (.user 0)) 12
    | 20 => .started 21
    | 21 => .setIfUnset 0 22
    | 22 => .awaitSuspend .always 23
    | _ => .coReturn
  dtor _ := 99

theorem continuation_runs_on_waiter :
    ∃ tr c, setPromiseProgram.RunsTo (Context.NoLateWake setPromiseProgram) 0 tr c ∧
      c.Executes ⟨0, 1⟩ ∧ ((c.heap 0).life = .running ∨ (c.heap 0).life = .killed) := by
  obtain ⟨tr, c, hr, hs, hp, hst, hready⟩ := System.exec_reaches (M := setPromiseProgram.system)
    (g := fun c _ => c.toDestroy.isEmpty) (G := fun c _ => c.toDestroy = [])
    (fun c _ hg => List.isEmpty_iff.mp hg) (w := List.replicate 14 .tick) (s := Context.init 0)
    (P := fun _ c => c.stack.length = 0 ∧ c.phase = .runOne ∧ c.io.stopped = false ∧
      c.io.ready.head? = some (.continuation ⟨0, 1⟩)) (by decide)
  have hk : c.Executes ⟨0, 1⟩ := ⟨List.length_eq_zero_iff.mp hs, .inl hp, hst, hready⟩
  have hrun := hr.guard_of (k := Context.NoLateWake setPromiseProgram)
    (fun c => ∀ o, (c.heap o).life ≠ .destroyed) Code.nothing_destroyed fun c l hk hg =>
      ⟨fun o hdes => by simp [Context.Destroys, show c.toDestroy = [] from hg] at hdes,
        fun f k _ _ => hk _⟩
  exact ⟨tr, c, hrun, hk, continuation_not_destroyed hrun hk⟩

/-- `main` makes a promise; process 0 waits on it, process 1 kills process 0 and then sets it. -/
def killWaiterProgram : Code Nat Unit where
  op
    | 0 => .newPromise fun _ => 1
    | 1 => .spawn .plain 10 fun _ => 2
    | 2 => .spawn .plain 20 fun _ => 3
    | 10 => .started 11
    | 11 => .awaitSuspend (.future (.user 0)) 12
    | 20 => .started 21
    | 21 => .queueKill ⟨0, 0⟩ 22
    | 22 => .setIfUnset 0 23
    | 23 => .awaitSuspend .always 24
    | _ => .coReturn
  dtor _ := 99

/-- The continuation of the killed process is executed after its destruction. -/
theorem continuation_runs_on_destroyed :
    ∃ tr c, killWaiterProgram.RunsTo System.anyStep 0 tr c ∧ c.Executes ⟨0, 1⟩ ∧
      (c.heap 0).life = .destroyed := by
  obtain ⟨tr, c, hr, hs, hp, hst, hready, hl⟩ := System.exec_reaches (M := killWaiterProgram.system)
    (g := fun _ _ => true) (G := System.anyStep) (fun _ _ _ => trivial)
    (w := List.replicate 17 .tick) (s := Context.init 0)
    (P := fun _ c => c.stack.length = 0 ∧ c.phase = .runOne ∧ c.io.stopped = false ∧
      c.io.ready.head? = some (.continuation ⟨0, 1⟩) ∧ (c.heap 0).life = .destroyed) (by decide)
  exact ⟨tr, c, hr, ⟨List.length_eq_zero_iff.mp hs, .inl hp, hst, hready⟩, hl⟩

namespace Context
variable {σ μ : Type}

/-! ## Throttle promises of destroyed processes -/

/-- The `toDestroy_` loop is done, and `run` goes back to its loop head. -/
def LeavesDestroying (c : Context σ μ) : Prop :=
  c.stack = [] ∧ c.phase = .destroying ∧ c.toDestroy = []

theorem effect_serving {code : Code σ μ} {c c' : Context σ μ} {l : Label} {out : List (Event μ)}
    (he : Effect code c l out c') (h : c'.Serving) : c.Serving ∨ c.LeavesDestroying := by
  have hsame (hp : c'.phase = c.phase) : c.Serving := by rwa [Serving, ← hp]
  cases effect_phase he with
  | code hs hp => exact .inl (hsame hp)
  | threw hs hr hp => simp [Serving, hp] at h
  | wait hs hp => exact .inl (hsame hp)
  | inside hs hl hf hd hb => exact .inl (hb.resolve_right fun hp => by simp [Serving, hp] at h)
  | finish hs hp => exact .inl (.inl hp)
  | back hs hp hd => exact .inr ⟨hs, hp, hd⟩

theorem serving_not_destroys {c : Context σ μ} (h : c.Serving ∨ c.LeavesDestroying) {q : ObjId} :
    ¬ c.Destroys q := by
  rintro ⟨-, hp, hq⟩
  rcases h with h | ⟨-, -, h⟩
  · simp [Serving, hp] at h
  · simp [h] at hq

theorem Woken.serving {c : Context σ μ} {o : ObjId} (h : c.Woken o) : c.Serving := by
  cases h with
  | item hs hp hq hf => exact .inl hp
  | message hs hp hq hf hw => exact .inl hp
  | timer hs hp hst hr => exact .inr (hp.imp id .inr)
  | continuation hs hp hst hr => exact .inr (hp.imp id .inr)

/-- When the `toDestroy_` loop is done, no live process waits on the throttle promise of a slot whose
owner has been destroyed; and outside of it none starts to. -/
structure WaitersGone (code : Code σ μ) (c : Context σ μ) (_ : Label) : Prop where
  leave : c.LeavesDestroying → ∀ o s, (c.heap o).dead = false → c.awaited o = some (.throttle s) →
    (c.heap (c.slots s).owner).life ≠ .destroyed
  suspend : c.Serving → ∀ o rest w t s, Awaits code c o rest w t →
    w.wakeOnFuture = some (.throttle s) → (c.heap (c.slots s).owner).life ≠ .destroyed

/-- Outside of the `toDestroy_` loop, the throttle promise an idle process waits on is of a slot whose
owner has not been destroyed. -/
def PromisesAlive (c : Context σ μ) : Prop :=
  c.Serving → ∀ o s, c.Idle o → c.awaited o = some (.throttle s) →
    (c.heap (c.slots s).owner).life ≠ .destroyed

theorem effect_promisesAlive {code : Code σ μ} {c c' : Context σ μ} {l : Label}
    {out : List (Event μ)} (he : Effect code c l out c') (hc : c.Sound)
    (hg : c.WaitersGone code l) (h : c.PromisesAlive) : c'.PromisesAlive := by
  intro hserv o s ho hs hd
  have hk := step_keeps he hc.table
  obtain ⟨-, hown⟩ := effect_owner he
  have hwas := effect_serving he hserv
  cases effect_idle he hc.table hc.refs hc.unstarted ho with
  | same hidle hcell =>
    rw [awaited_of_cells hcell] at hs
    rw [hown s (hc.slotsKnown o s hidle hs)] at hd
    have hd := (hk.destroyed hd).resolve_right (serving_not_destroys hwas)
    rcases hwas with hwas | hleave
    · exact h hwas o s hidle hs hd
    · exact hg.leave hleave o s hidle.1 hs hd
  | @suspend t rest w hw he' =>
    obtain ⟨t₀, htop⟩ := hw.stack
    have hwas := hwas.resolve_right fun hl => by simp [hl.1] at htop
    rw [he', awaited_suspended] at hs
    rw [hown s (awaits_slot hc.addressed hw hs)] at hd
    exact hg.suspend hwas o rest w t s hw hs 
      ((hk.destroyed hd).resolve_right (serving_not_destroys (.inl hwas)))
  | fresh hl hn htask =>
    have hl : (c'.heap o).lastWaiting = none := hl
    simp [awaited, hl] at hs

theorem promisesAlive_init (main : σ) : (init main : Context σ μ).PromisesAlive := by
  intro _ o s _ hs
  simp [init, awaited] at hs

theorem Woken.stack {c : Context σ μ} {o : ObjId} (h : c.Woken o) : c.stack = [] := by
  cases h <;> assumption

end Context

/-- **`resume` calls `process()` on no throttle promise of a destroyed process** in a run in which
whoever waits on the throttle promise of a slot dies in the same `toDestroy_` loop as the owner of the
slot. -/
theorem promise_not_destroyed {σ μ : Type} {code : Code σ μ} {main : σ} {tr : List (Event μ)}
    {c : Context σ μ} (h : code.RunsTo (Context.WaitersGone code) main tr c) {o : ObjId} {s : SlotId}
    (hw : c.Woken o) (hd : (c.heap o).dead = false) (hs : c.awaited o = some (.throttle s)) :
    (c.heap (c.slots s).owner).life ≠ .destroyed := by
  have halive : c.PromisesAlive := by
    refine h.invariant_of Context.Sound Context.PromisesAlive Code.sound
      (Context.promisesAlive_init main) fun _ _ _ _ hc hi hg hs => ?_
    exact Context.effect_promisesAlive (Context.step_effect hs).2 hc hg hi
  exact halive hw.serving o s ⟨hd, by simp [Context.table, hw.stack]⟩ hs

/-- A receiver (process 0, slot 0) that yields twice and then does `last`, and a sender (process 1) that
fills the slot with ten messages and then waits in `sendThrottled`. -/
def fillThenThrottle (last : Op Nat Unit) : Code Nat Unit where
  op n :=
    match n with
    | 0 => .spawn .plain 10 fun _ => 1
    | 1 => .spawn .plain 20 fun _ => 2
    | 10 => .newSlot fun _ => 11
    | 11 => .started 12
    | 12 => .awaitSuspend .yield 13
    | 13 => .awaitSuspend .yield 14
    | 14 => last
    | 15 => .awaitSuspend .always 16
    | 20 => .started 21
    | 31 => .awaitSuspend .yield 32
    | 32 => .sendThrottled ⟨⟨0, 0⟩, 0⟩ () 33
    | 33 => .awaitSuspend .always 34
    | n => if 20 < n ∧ n ≤ 30 then .send ⟨⟨0, 0⟩, 0⟩ () fun _ => n + 1 else .coReturn
  dtor _ := 99

/-- The receiver pops, and the sender it wakes finds the slot in place. -/
theorem promise_of_popping_receiver :
    ∃ tr c, (fillThenThrottle (.getVals [0] fun _ => 15)).RunsTo
      (Context.WaitersGone (fillThenThrottle (.getVals [0] fun _ => 15))) 0 tr c ∧
      c.Woken 1 ∧ c.awaited 1 = some (.throttle 0) ∧
      (c.heap (c.slots 0).owner).life ≠ .destroyed := by
  obtain ⟨tr, c, hr, hs, hp, hst, hready, hd, ha⟩ :=
    System.exec_reaches (M := (fillThenThrottle (.getVals [0] fun _ => 15)).system)
    (g := fun c _ => c.toDestroy.isEmpty) (G := fun c _ => c.toDestroy = [])
    (fun c _ hg => List.isEmpty_iff.mp hg) (w := List.replicate 53 .tick) (s := Context.init 0)
    (P := fun _ c => c.stack.length = 0 ∧ c.phase = .runOne ∧ c.io.stopped = false ∧
      c.io.ready.head? = some (.continuation ⟨1, (c.heap 1).resumes⟩) ∧ (c.heap 1).dead = false ∧
      c.awaited 1 = some (.throttle 0)) (by decide)
  have hw : c.Woken 1 := by
    obtain ⟨ds, hds⟩ := List.head?_eq_some_iff.mp hready
    exact .continuation (List.length_eq_zero_iff.mp hs) (.inl hp) hst hds
  have hrun := hr.guard_of (k := Context.WaitersGone (fillThenThrottle (.getVals [0] fun _ => 15)))
    (fun c => ∀ o, (c.heap o).life ≠ .destroyed) Code.nothing_destroyed fun c l hk hg =>
      ⟨fun _ o s _ _ => hk _, fun _ o rest w t s _ _ => hk _⟩
  exact ⟨tr, c, hrun, hw, ha, promise_not_destroyed hrun hw hd ha⟩

/-- The receiver returns, its destructor wakes the sender, and the sender finds the slot gone. -/
theorem promise_of_destroyed_receiver :
    ∃ tr c, (fillThenThrottle .coReturn).RunsTo System.anyStep 0 tr c ∧ c.Woken 1 ∧
      (c.heap 1).dead = false ∧ c.awaited 1 = some (.throttle 0) ∧
      (c.heap (c.slots 0).owner).life = .destroyed := by
  obtain ⟨tr, c, hr, hs, hp, hst, hready, hd⟩ :=
    System.exec_reaches (M := (fillThenThrottle .coReturn).system)
    (g := fun _ _ => true) (G := System.anyStep) (fun _ _ _ => trivial)
    (w := List.replicate 54 .tick) (s := Context.init 0)
    (P := fun _ c => c.stack.length = 0 ∧ c.phase = .runOne ∧ c.io.stopped = false ∧
      c.io.ready.head? = some (.continuation ⟨1, (c.heap 1).resumes⟩) ∧ (c.heap 1).dead = false ∧
      c.awaited 1 = some (.throttle 0) ∧ (c.heap (c.slots 0).owner).life = .destroyed) (by decide)
  obtain ⟨ds, hds⟩ := List.head?_eq_some_iff.mp hready
  exact ⟨tr, c, hr, .continuation (List.length_eq_zero_iff.mp hs) (.inl hp) hst hds, hd⟩

end Eslang
