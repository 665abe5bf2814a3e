import Eslang.Context.Faults

/-! # Timers never reach a process that is gone

`Context::run` flushes the io_service before it destroys anything, so that "anything that we are about to
kill, if it has timers, they will not be already on the queue". This module shows that the flush does
what the comment says: while the loop destroys, no expired timer is queued, and the timer that is still
pending goes with its process. What the flush cannot catch is a continuation that is still stored in a
promise, and the handler of an operation that completed in the very call that started it, for the loop
over `queue_` destroys without flushing; `timer_never_on_freed` says that this is all that is left. -/
namespace Eslang
set_option autoImplicit false
open Lib

namespace Context
variable {σ μ : Type}

/-! ## Timers of destroyed processes -/

theorem io_destroy (c : Context σ μ) (dtor : σ → σ) (o : ObjId) (reason : String) :
    (c.destroy dtor o reason).io = c.io.cancel o := by
  have hkill := killLinked_same io (fun d p => io_addtoDestroy d p reason) (c.setLife o .destroyed) o
  have hnotify := notifyDeath_same io (fun _ _ _ => rfl)
    ((c.setLife o .destroyed).killLinked o reason) o
  show (((c.setLife o .destroyed).killLinked o reason).notifyDeath o).io.cancel o = _
  rw [hnotify, hkill]
  rfl

/-- No timer, pending or expired, is of a destroyed process. -/
structure TimersAlive (c : Context σ μ) : Prop where
  timers : ∀ o n, (o, n) ∈ c.io.clock → (c.heap o).life ≠ .destroyed
  drained : c.Drained

theorem timer_destroyed {code : Code σ μ} {c c' : Context σ μ} {l : Label} {out : List (Event μ)}
    (h : c.step code l = some (c', out)) (hdr : c.Drained) {o : ObjId} (hd : c.Destroys o) (n : Nat) :
    (o, n) ∉ c'.io.clock := by
  obtain ⟨reason, rest, -, rfl, -⟩ := step_of_destroys hd h
  rw [io_destroy]
  intro hin
  have hexp : (c.io.cancel o).expired = [] := by
    rw [IoService.expired_cancel]
    exact hdr (.inr (.inl hd.2.1))
  have hin : (o, n) ∈ (c.io.cancel o).timers.map fun w => (w.this, w.armed) := by
    have hclock : (c.io.cancel o).clock = (c.io.cancel o).timers.map fun w => (w.this, w.armed) := by
      rw [IoService.clock, hexp, List.append_nil]
    exact hclock ▸ hin
  obtain ⟨w, hw, he⟩ := List.mem_map.mp hin
  have hne := (List.mem_filter.mp hw).2
  cases he
  simp at hne

theorem step_timersAlive {code : Code σ μ} {c c' : Context σ μ} {l : Label} {out : List (Event μ)}
    (hs : c.step code l = some (c', out)) (hc : c.Sound) (h : c.TimersAlive) : c'.TimersAlive := by
  have he := (step_effect hs).2
  have hkeep := step_keeps he hc.table
  refine ⟨fun o n hin hd => ?_, effect_drained he h.drained⟩
  rcases effect_wake he (holds_timer.mpr hin) with hold | ⟨o', t, rest, htop, ho⟩
  · rcases hkeep.destroyed hd with hd | hd
    · exact h.timers o n (holds_timer.mp hold) hd
    · exact timer_destroyed hs h.drained hd n hin
  · have hthis : o = o' := ho.1
    rcases hkeep.destroyed hd with hd | hd
    · exact hc.table.body (o := o') (by simp [roles_top htop]) (hthis ▸ hd)
    · simp [Destroys, htop] at hd

theorem timersAlive_init (main : σ) : (init main : Context σ μ).TimersAlive where
  timers := by simp [init, IoService.clock, IoService.expired]
  drained := drained_init main

end Context

theorem Code.timersAlive {σ μ : Type} {code : Code σ μ} {ok : Context σ μ → Label → Prop}
    {main : σ} {tr : List (Event μ)} {c : Context σ μ} (h : code.RunsTo ok main tr c) :
    c.TimersAlive :=
  h.invariant_of Context.Sound Context.TimersAlive Code.sound (Context.timersAlive_init main)
    fun _ _ _ _ hc hi _ hs => Context.step_timersAlive hs hc hi

namespace Context
variable {σ μ : Type}

/-! ## What a handler finds -/

theorem Runs.mem {c : Context σ μ} {d : Handler σ} (h : c.Runs d) : d ∈ c.io.ready :=
  List.mem_of_head? h.2.2.2

theorem TimersAlive.not_freed {c : Context σ μ} (h : c.TimersAlive) (hc : c.Sound) {o : ObjId} {n : Nat}
    (hw : c.Holds (.timer o n)) : (c.heap o).freed = false := by
  have hst : c.table.Started o := hc.refs.wakes hw
  have hfailed : (c.heap o).life ≠ .failed := hst.2
  simp [RunningProcess.freed, h.timers o n (holds_timer.mp hw), hfailed]

/-- Only a continuation, or the handler of an operation, can find its process gone. -/
theorem TimersAlive.runs {c : Context σ μ} (h : c.TimersAlive) (hc : c.Sound) {d : Handler σ}
    (hr : c.Runs d) {o : ObjId} (ho : d.this = some o) (hl : (c.heap o).freed = true) :
    (∃ n, d = .continuation ⟨o, n⟩) ∨ ∃ s, d = .user (some o) s := by
  cases d with
  | aborted => cases ho
  | timer o' n =>
    cases ho
    have hlive := h.not_freed hc (.expired hr.mem)
    simp [hlive] at hl
  | continuation f =>
    cases ho
    exact .inl ⟨f.resumes, rfl⟩
  | user owner s =>
    cases ho
    exact .inr ⟨s, rfl⟩

/-- A handler of a destroyed process uses an object that is gone. -/
theorem Runs.gone {code : Code σ μ} {c c' : Context σ μ} {out : List (Event μ)} {d : Handler σ}
    (hr : c.Runs d) {o : ObjId} (ho : d.this = some o) (hl : (c.heap o).life = .destroyed)
    (h : c.step code .tick = some (c', out)) : c'.fault = some (.processGone o) := by
  have hf := (step_effect h).1
  obtain ⟨hs, hp, hst, hready⟩ := hr
  obtain ⟨ds, hds⟩ := List.head?_eq_some_iff.mp hready
  have hwork : (c.io.stopped || c.io.noWork) = false := by simp [hst, IoService.noWork, hds]
  have hrun : c' = (c.popReady ds).runHandler d := by
    rcases hp with hp | hp <;>
      simp only [step, hf, hs, schedule, hp, hwork, hds, Option.isSome_none, Bool.false_eq_true,
        if_false, Option.some.injEq, Prod.mk.injEq] at h <;>
      exact h.1.symm
  have hpop : ((c.popReady ds).heap o).life = .destroyed := hl
  rw [hrun]
  cases d with
  | aborted => cases ho
  | timer o' n =>
    cases ho
    simp [runHandler, hpop, fail]
  | continuation f =>
    cases ho
    simp [runHandler, hpop, fail]
  | user owner s =>
    cases ho
    have hfreed : ((c.popReady ds).heap o).freed = true := by simp [RunningProcess.freed, hpop]
    simp [runHandler, hfreed, fail, Option.filter]

theorem Faults.gone {code : Code σ μ} {c : Context σ μ} (hc : c.fault = none) {o : ObjId}
    (h : Faults code c (.processGone o)) :
    ∃ d, c.Runs d ∧ d.this = some o ∧ (c.heap o).freed = true := by
  cases h with
  | lookup hs ha hq =>
    rcases canQueue_error hq with ⟨-, hx⟩ | ⟨-, -, hx⟩ <;> cases hx
  | test hs hop hb hw =>
    rcases awaitReady_error hw with ⟨s, -, -, hx⟩ | ⟨p, -, -, hx⟩ <;> cases hx
  | receive hs hop ho hf =>
    obtain ⟨s, hx⟩ := getVals_slotGone (by simp [hc]) hf
    cases hx
  | handler hr ho hl => exact ⟨_, hr, ho, hl⟩

end Context

/-- **A timer never runs on a process that is gone**: in every run, the process of the timer handler that
runs next has not been freed, no timer of a freed process is pending, and a step that touches a freed
process executes a continuation of that process or the handler of an operation it started. -/
theorem timer_never_on_freed {σ μ : Type} {code : Code σ μ} {main : σ} {tr : List (Event μ)}
    {c : Context σ μ} (h : code.RunsTo System.anyStep main tr c) :
    (∀ o n, c.Runs (.timer o n) → (c.heap o).freed = false) ∧
    (∀ w ∈ c.io.timers, (c.heap w.this).freed = false) ∧
    ∀ l c' out o, c.step code l = some (c', out) → c'.fault = some (.processGone o) →
      (c.heap o).freed = true ∧
        ((∃ n, c.Runs (.continuation ⟨o, n⟩)) ∨ ∃ s, c.Runs (.user (some o) s)) := by
  have halive := Code.timersAlive h
  have hc := Code.sound h
  refine ⟨fun o n hr => halive.not_freed hc (.expired hr.mem), fun w hw => ?_, fun l c' out o hs hx => ?_⟩
  · exact halive.not_freed hc (.pending hw)
  · obtain ⟨d, hr, ho, hl⟩ := (Context.step_faults hs hx).gone (Context.step_effect hs).1
    refine ⟨hl, ?_⟩
    rcases halive.runs hc hr ho hl with ⟨n, rfl⟩ | ⟨s, rfl⟩
    · exact .inl ⟨n, hr⟩
    · exact .inr ⟨s, hr⟩

/-- Two processes sleep; the first to wake kills the other, whose timer has expired as well. -/
def killSleeper : Code Nat Unit where
  op
    | 0 => .spawn .plain 10 fun _ => 1
    | 1 => .spawn .plain 20 fun _ => 2
    | 10 => .started 11
    | 11 => .awaitSuspend (.timeout 5) 12
    | 12 => .queueKill ⟨1, 0⟩ 13
    | 13 => .awaitSuspend .always 14
    | 20 => .started 21
    | 21 => .awaitSuspend (.timeout 5) 22
    | _ => .coReturn
  dtor _ := 99

/-- The handler of the killed process runs before its destruction. -/
theorem timer_of_killed_process :
    ∃ tr c, killSleeper.RunsTo System.anyStep 0 tr c ∧ c.Runs (.timer 1 1) ∧
      (c.heap 1).life = .killed ∧ (c.heap 1).freed = false := by
  obtain ⟨tr, c, hr, hs, hp, hst, hready, hl⟩ := System.exec_reaches (M := killSleeper.system)
    (g := fun _ _ => true) (G := System.anyStep) (fun _ _ _ => trivial)
    (w := List.replicate 12 .tick ++ [.expire 0, .expire 0] ++ List.replicate 4 .tick)
    (s := Context.init 0)
    (P := fun _ c => c.stack.length = 0 ∧ c.phase = .poll ∧ c.io.stopped = false ∧
      c.io.ready.head? = some (.timer 1 1) ∧ (c.heap 1).life = .killed) (by decide)
  have hruns : c.Runs (.timer 1 1) := ⟨List.length_eq_zero_iff.mp hs, .inr hp, hst, hready⟩
  exact ⟨tr, c, hr, hruns, hl, (timer_never_on_freed hr).1 1 1 hruns⟩

/-- A process starts an operation and returns; another one keeps the loop going. -/
def writeAndReturn : Code Nat Unit where
  op
    | 0 => .spawn .plain 10 fun _ => 1
    | 1 => .spawn .plain 20 fun _ => 2
    | 10 => .started 11
    | 11 => .asyncOp 30 12
    | 20 => .started 21
    | 21 => .awaitSuspend .always 22
    | _ => .coReturn
  dtor _ := 99

/-- The operation completes in the call that starts it, and its handler finds the process gone. -/
example : ∃ tr c, writeAndReturn.RunsTo System.anyStep 0 tr c ∧ c.fault = some (.processGone 0) :=
  System.exec_reaches (M := writeAndReturn.system) (g := fun _ _ => true) (G := System.anyStep)
    (fun _ _ _ => trivial) (w := List.replicate 6 .tick ++ [.atOnce] ++ List.replicate 9 .tick)
    (s := Context.init 0) (P := fun _ c => c.fault = some (.processGone 0)) (by decide)

end Eslang
