import Eslang.Context.Census
import Eslang.Context.QueueBound

/-! # When `Context::run` goes round for ever

The loop of `run` waits in `run_one`, but `run_one` and `poll` return at once when the io_service is stopped
or has no work. If then no item is queued and nothing is to be destroyed, a round changes nothing and the next
one is the same. This module shows that there is no other way to hang: from every other loop head some
completion of the outstanding operations lets the loop take an item, run a handler, destroy a process or
return. -/
namespace Eslang
set_option autoImplicit false
open Lib

namespace Context
variable {σ μ : Type}

/-- The io_service has nothing for `run_one` and `poll`, now or later. -/
def IoOver (io : IoService σ) : Prop := io.stopped = true ∨ io.noWork = true

/-- A loop head at which `run` has nothing to do, but does not return. -/
structure Spins (c : Context σ μ) : Prop where
  entries : c.processes.length ≠ c.tombstones.length
  queue : c.queue = []
  toDestroy : c.toDestroy = []
  io : IoOver c.io

/-- From `c` on every run leaves the items and the doomed processes where they are, runs no code and no
handler and does not return; and it never waits: the next step of the loop can be taken. -/
def Hangs (code : Code σ μ) (c : Context σ μ) : Prop :=
  ∀ tr d, code.system.Run System.anyStep c tr d →
    d.queue = c.queue ∧ d.toDestroy = c.toDestroy ∧ d.stack = [] ∧ d.phase ≠ .handling ∧
      d.phase ≠ .finished ∧ (d.step code .tick).isSome

/-! ## A round that changes nothing -/

/-- The states of a round without effect. -/
structure Spinning (d : Context σ μ) : Prop where
  spins : d.Spins
  fault : d.fault = none
  stack : d.stack = []
  phase : d.phase = .loop ∨ d.phase = .runOne ∨ d.phase = .poll ∨ d.phase = .destroying

theorem ioOver_eq {io : IoService σ} (h : IoOver io) : (io.stopped || io.noWork) = true := by
  rcases h with h | h <;> simp [h]

theorem ioOver_stopIfIdle {io : IoService σ} (h : IoOver io) : io.stopIfIdle.stopped = true :=
  ioOver_eq h

theorem step_schedule (code : Code σ μ) {d : Context σ μ} (hf : d.fault = none) (hs : d.stack = []) :
    d.step code .tick = d.schedule code := by
  simp [step, hf, hs]

/-- The step of a round: only the phase moves, and `run_one` leaves the io_service stopped. -/
theorem spinning_tick (code : Code σ μ) {d : Context σ μ} (h : d.Spinning) :
    ∃ d', d.step code .tick = some (d', []) ∧ d'.Spinning := by
  obtain ⟨hspin, hf, hs, hp⟩ := h
  have hover := ioOver_eq hspin.io
  have hstop := ioOver_stopIfIdle hspin.io
  rw [step_schedule code hf hs, schedule]
  rcases hp with hp | hp | hp | hp
  · rw [hp]
    dsimp only
    rw [if_neg hspin.entries]
    split
    next i q hq => simp [hspin.queue] at hq
    next => exact ⟨_, rfl, ⟨hspin.entries, hspin.queue, hspin.toDestroy, hspin.io⟩, hf, hs, .inr (.inl rfl)⟩
  · rw [hp]
    dsimp only
    rw [if_pos hover]
    exact ⟨_, rfl, ⟨hspin.entries, hspin.queue, hspin.toDestroy, .inl hstop⟩, hf, hs, .inr (.inr (.inl rfl))⟩
  · rw [hp]
    dsimp only
    rw [if_pos hover]
    exact ⟨_, rfl, ⟨hspin.entries, hspin.queue, hspin.toDestroy, .inl hstop⟩, hf, hs, .inr (.inr (.inr rfl))⟩
  · rw [hp]
    dsimp only
    split
    next o reason rest hd => simp [hspin.toDestroy] at hd
    next => exact ⟨_, rfl, ⟨hspin.entries, hspin.queue, hspin.toDestroy, hspin.io⟩, hf, hs, .inl rfl⟩

/-- Without work there is nothing for the environment to complete, and a stopped io_service does not look. -/
theorem spinning_environment {d : Context σ μ} (h : d.Spinning) (hl : d.looking = true) (l : Label) :
    d.environment l = none := by
  have hstopped : d.io.stopped = false := by
    simp only [looking, Bool.and_eq_true, Bool.not_eq_true'] at hl
    exact hl.2
  have hwork : d.io.noWork = true := h.spins.io.resolve_left (by simp [hstopped])
  simp only [IoService.noWork, Bool.and_eq_true, List.isEmpty_iff] at hwork
  obtain ⟨⟨-, htimers⟩, hasyncs⟩ := hwork
  cases l with
  | tick => rfl
  | atOnce => rfl
  | expire i => simp [environment, htimers]
  | complete i => simp [environment, hasyncs]
  | abort i => simp [environment, hasyncs]

theorem step_spinning {code : Code σ μ} {d d' : Context σ μ} {l : Label} {out : List (Event μ)}
    (h : d.Spinning) (hstep : d.step code l = some (d', out)) : d'.Spinning := by
  cases l with
  | tick =>
    obtain ⟨e, he, hspin⟩ := spinning_tick code h
    cases he.symm.trans hstep
    exact hspin
  | atOnce => simp [step, h.fault, stepAtOnce, h.stack] at hstep
  | _ =>
    simp only [step, h.fault, Option.isSome_none, Bool.false_eq_true, if_false,
      Option.ite_none_right_eq_some, Option.map_eq_some_iff] at hstep
    obtain ⟨hl, e, he, -⟩ := hstep
    cases (spinning_environment h hl _).symm.trans he

theorem hangs_of_spins {code : Code σ μ} {c : Context σ μ} (hf : c.fault = none) (hs : c.stack = [])
    (hp : c.phase = .loop) (h : c.Spins) : c.Hangs code := by
  intro tr d hrun
  have hspin : d.Spinning := hrun.invariant (fun _ d => d.Spinning) ⟨h, hf, hs, .inl hp⟩
    fun _ _ _ _ _ hd _ hstep => step_spinning hd hstep
  obtain ⟨d', hstep, -⟩ := spinning_tick code hspin
  refine ⟨hspin.spins.queue.trans h.queue.symm, hspin.spins.toDestroy.trans h.toDestroy.symm, hspin.stack,
    ?_, ?_, by simp [hstep]⟩
  · intro hh
    simpa [hh] using hspin.phase
  · intro hh
    simpa [hh] using hspin.phase

/-! ## Every other loop head gets on -/

theorem run_ready (code : Code σ μ) {c : Context σ μ} {d : Handler σ} {ds : List (Handler σ)}
    (hf : c.fault = none) (hs : c.stack = []) (hp : c.phase = .runOne) (hst : c.io.stopped = false)
    (hr : c.io.ready = d :: ds) : ∃ c', c.step code .tick = some (c', []) ∧ c'.phase = .handling := by
  have hwork : (c.io.stopped || c.io.noWork) = false := by simp [hst, IoService.noWork, hr]
  refine ⟨(c.popReady ds).runHandler d, ?_, phase_runHandler (c.popReady ds) d⟩
  rw [step_schedule code hf hs, schedule, hp]
  simp [hwork, hr]

theorem run_of_step {code : Code σ μ} {c d : Context σ μ} {l : Label} {out : List (Event μ)}
    (h : c.step code l = some (d, out)) : code.system.Run System.anyStep c out d :=
  System.Run.step (M := code.system) (l := l) .refl trivial h

/-- With work outstanding some completion makes `run_one` run a handler. -/
theorem runOne_handles (code : Code σ μ) {c : Context σ μ} (hf : c.fault = none) (hs : c.stack = [])
    (hp : c.phase = .runOne) (hio : ¬ IoOver c.io) :
    ∃ tr d, code.system.Run System.anyStep c tr d ∧ d.phase = .handling := by
  have hst : c.io.stopped = false := by
    cases hst : c.io.stopped with
    | false => rfl
    | true => exact absurd (.inl hst) hio
  have hlook : c.looking = true := by simp [looking, hs, hp, hst]
  have hthen : ∀ (l : Label) (io : IoService σ) (d : Handler σ), l ≠ .tick →
      c.environment l = some { c with io := io } → io.stopped = false → io.ready = [d] →
      ∃ tr d, code.system.Run System.anyStep c tr d ∧ d.phase = .handling := by
    intro l io d hl he hst' hr
    have hstep : c.step code l = some ({ c with io := io }, []) := by
      cases l with
      | tick => exact absurd rfl hl
      | atOnce => cases he
      | _ => simp [step, hf, hlook, he]
    obtain ⟨c', hstep', hphase⟩ := run_ready code (c := { c with io := io }) hf hs hp hst' hr
    exact ⟨_, c', (run_of_step hstep).trans (run_of_step hstep'), hphase⟩
  cases hr : c.io.ready with
  | cons d ds =>
    obtain ⟨c', hstep, hphase⟩ := run_ready code hf hs hp hst hr
    exact ⟨_, c', run_of_step hstep, hphase⟩
  | nil =>
    cases htimers : c.io.timers with
    | cons w ws =>
      refine hthen (.expire 0)
        { c.io with timers := ws, ready := [.timer w.this w.armed] } _ (by simp) ?_ hst rfl
      simp [environment, htimers, hr]
    | nil =>
      cases hasyncs : c.io.asyncs with
      | cons a as =>
        refine hthen (.abort 0) { c.io with asyncs := as, ready := [.aborted] } _ (by simp) ?_ hst rfl
        simp [environment, hasyncs, hr]
      | nil => exact absurd (.inr (by simp [IoService.noWork, hr, htimers, hasyncs])) hio

theorem destroying_enters (code : Code σ μ) {c : Context σ μ} (hf : c.fault = none) (hs : c.stack = [])
    (hp : c.phase = .destroying) {x : ObjId × String} {rest : List (ObjId × String)}
    (hd : c.toDestroy = x :: rest) : ∃ d out, c.step code .tick = some (d, out) ∧ d.stack ≠ [] := by
  obtain ⟨s, hstack⟩ := stack_destroy { c with toDestroy := rest } code.dtor x.1 x.2
  have hstep : c.step code .tick = some ({ c with toDestroy := rest }.destroy code.dtor x.1 x.2,
      (c.heap x.1).notifyOnDie.map fun a => .sent a (.pid (c.heap x.1).pid)) := by
    rw [step_schedule code hf hs, schedule, hp]
    simp only [hd]
  exact ⟨_, _, hstep, by rw [hstack]; simp⟩

/-- Without work `run_one` and `poll` return, and the loop over `toDestroy_` starts. -/
theorem runOne_destroys (code : Code σ μ) {c : Context σ μ} (hf : c.fault = none) (hs : c.stack = [])
    (hp : c.phase = .runOne) (hio : IoOver c.io) {x : ObjId × String} {rest : List (ObjId × String)}
    (hd : c.toDestroy = x :: rest) :
    ∃ tr d, code.system.Run System.anyStep c tr d ∧ d.stack ≠ [] := by
  have hpoll : c.step code .tick = some ({ c with io := c.io.stopIfIdle, phase := .poll }, []) := by
    rw [step_schedule code hf hs, schedule, hp]
    simp [ioOver_eq hio]
  have hover := ioOver_eq (.inl (ioOver_stopIfIdle hio))
  have hleave := step_schedule code (d := { c with io := c.io.stopIfIdle, phase := .poll }) hf hs
  simp only [schedule, hover, if_true] at hleave
  obtain ⟨d, out, hdestroy, hne⟩ := destroying_enters code
    (c := { c with io := c.io.stopIfIdle.stopIfIdle, phase := .destroying }) hf hs rfl hd
  exact ⟨_, d, ((run_of_step hpoll).trans (run_of_step hleave)).trans (run_of_step hdestroy), hne⟩

theorem spins_of_hangs {code : Code σ μ} {c : Context σ μ} (hf : c.fault = none) (hs : c.stack = [])
    (hp : c.phase = .loop) (h : c.Hangs code) : c.Spins := by
  have hentries : c.processes.length ≠ c.tombstones.length := by
    intro hn
    have hstep : c.step code .tick = some ({ c with phase := .finished }, []) := by
      rw [step_schedule code hf hs, schedule, hp]
      simp [hn]
    exact (h _ _ (run_of_step hstep)).2.2.2.2.1 rfl
  have hqueue : c.queue = [] := by
    cases hq : c.queue with
    | nil => rfl
    | cons i q =>
      have hstep : c.step code .tick = some ((c.popFront q).processQueueItem i) := by
        rw [step_schedule code hf hs, schedule, hp]
        simp [hentries, hq]
      have hsame : ((c.popFront q).processQueueItem i).1.queue = c.queue := (h _ _ (run_of_step hstep)).1
      rw [queue_processQueueItem, hq] at hsame
      exact absurd hsame.symm (List.cons_ne_self i q)
  have hstep : c.step code .tick = some ({ c with phase := .runOne }, []) := by
    rw [step_schedule code hf hs, schedule, hp]
    simp [hentries, hqueue]
  have hio : IoOver c.io := by
    by_contra hio
    obtain ⟨tr, d, hr, hd⟩ := runOne_handles code (c := { c with phase := .runOne }) hf hs rfl hio
    exact (h _ _ ((run_of_step hstep).trans hr)).2.2.2.1 hd
  refine ⟨hentries, hqueue, ?_, hio⟩
  cases hd : c.toDestroy with
  | nil => rfl
  | cons x rest =>
    obtain ⟨tr, d, hr, hne⟩ :=
      runOne_destroys code (c := { c with phase := .runOne }) hf hs rfl hio hd
    exact absurd (h _ _ ((run_of_step hstep).trans hr)).2.2.1 hne

/-- Between two pieces of code the sizes that `run` compares differ when a process is live or the constructor
of one threw. -/
theorem sizes_differ_iff {c : Context σ μ} (ht : c.table.Ok) (h : c.table.Census) (hs : c.stack = []) :
    c.processes.length ≠ c.tombstones.length ↔
      ∃ o < c.heapSize, (c.heap o).life = .running ∨ (c.heap o).life = .failed := by
  constructor
  · intro hne
    by_contra hnone
    push Not at hnone
    have hlive : c.liveCount = 0 := (liveCount_eq_zero ht).mpr fun o hl =>
      (hnone o (ht.allocated (o := o) (by simp [table, hl]))).1 hl
    have hsizes := sizes_eq ht h (fun o ho => (hnone o ho).2) hs
    omega
  · rintro ⟨o, ho, hl⟩ heq
    have hcount : c.processes.length = c.tombstones.length +
        (c.liveCount + c.table.num .constructing + c.table.num .failed) := h.count
    rcases hl with hl | hl
    · exact (liveCount_eq_zero ht).mp (by omega) o hl
    · have hzero : c.table.num .failed = 0 := by omega
      rw [Table.num, Finset.card_eq_zero, Finset.filter_eq_empty_iff] at hzero
      exact hzero (Finset.mem_range.mpr ho) hl

end Context

/-- **When `run` hangs.** At every loop head of every run, `run` goes round for ever without doing
anything exactly when some process is live or the constructor of one threw, nothing is queued, nothing
is to be destroyed and the io_service is stopped or without work. -/
theorem run_hangs_iff {σ μ : Type} {code : Code σ μ} {ok : Context σ μ → Label → Prop} {main : σ}
    {tr : List (Event μ)} {c : Context σ μ} (h : code.RunsTo ok main tr c) (hf : c.fault = none)
    (hs : c.stack = []) (hp : c.phase = .loop) :
    c.Hangs code ↔ (∃ o < c.heapSize, (c.heap o).life = .running ∨ (c.heap o).life = .failed) ∧
      c.queue = [] ∧ c.toDestroy = [] ∧ (c.io.stopped = true ∨ c.io.noWork = true) := by
  rw [← Context.sizes_differ_iff (code.sound h).table (code.census h) hs]
  constructor
  · intro hhang
    obtain ⟨hn, hq, hd, hio⟩ := Context.spins_of_hangs hf hs hp hhang
    exact ⟨hn, hq, hd, hio⟩
  · rintro ⟨hn, hq, hd, hio⟩
    exact Context.hangs_of_spins hf hs hp ⟨hn, hq, hd, hio⟩

/-- A process that waits for a message nobody sends. -/
def waitsForNobody : Code Nat Unit where
  op
    | 0 => .spawn .plain 10 fun _ => 1
    | 10 => .newSlot fun _ => 11
    | 11 => .started 12
    | 12 => .awaitSuspend (.messages [0]) 13
    | _ => .coReturn
  dtor _ := 99

theorem waitsForNobody_hangs :
    ∃ tr c, waitsForNobody.RunsTo System.anyStep 0 tr c ∧ c.phase = .loop ∧ (c.heap 0).life = .running ∧
      c.Hangs waitsForNobody := by
  obtain ⟨tr, c, hr, hf, hs, hp, hn, hl, hq, hd, hw⟩ := System.exec_reaches (M := waitsForNobody.system)
    (g := fun _ _ => true) (G := System.anyStep) (fun _ _ _ => trivial)
    (w := List.replicate 7 .tick) (s := Context.init 0)
    (P := fun _ c => c.fault = none ∧ c.stack.length = 0 ∧ c.phase = .loop ∧ 0 < c.heapSize ∧
      (c.heap 0).life = .running ∧ c.queue = [] ∧ c.toDestroy = [] ∧ c.io.noWork = true) (by decide)
  exact ⟨tr, c, hr, hp, hl, (run_hangs_iff hr hf (List.length_eq_zero_iff.mp hs) hp).mpr
    ⟨⟨0, hn, .inl hl⟩, hq, hd, .inr hw⟩⟩

end Eslang
