import Eslang.Lib.Fifo
import Eslang.Context.Census
import Eslang.Context.QueueBound
import Eslang.Context.Stale

/-! # The order in which `Context::run` does its work

`run` takes one item of `queue_` a cycle and looks at the io_service only in a cycle that finds `queue_`
empty. `queue_first_come` states this over whole runs: the items are taken in the order in which they
were queued, and no handler of the io_service runs while one of them is left. A process that yields in
such a cycle (`WaitingYield`, "return control to the scheduler for one cycle") queues its resume item
behind everything that is there, and `yield_takes_its_turn` says what runs before it goes on: these
items and nothing else. If it is still alive when they are taken, its own item resumes it (`InTurn`). -/
namespace Eslang
set_option autoImplicit false
open Lib

/-- What a cycle of `run` starts with: an item of `queue_` or a handler of the io_service. -/
inductive LoopEvent (σ μ : Type)
  | took (i : ToProcessItem μ)
  | ran (d : Handler σ)
deriving DecidableEq

def LoopEvent.item? {σ μ : Type} : LoopEvent σ μ → Option (ToProcessItem μ)
  | took i => some i
  | ran _ => none

namespace Context
variable {σ μ : Type}

/-- The item or handler that the next step of `run` takes. -/
def loopEvents (c : Context σ μ) (l : Label) : List (LoopEvent σ μ) :=
  match l, c.stack with
  | .tick, [] =>
      match c.phase with
      | .loop =>
          if c.processes.length = c.tombstones.length then [] else (c.queue.head?.map .took).toList
      | .runOne | .poll =>
          if c.io.stopped || c.io.noWork then [] else (c.io.ready.head?.map .ran).toList
      | .handling | .destroying | .finished | .threw _ => []
  | _, _ => []

/-- The items of `queue_` that a log of `run` takes. -/
def taken (log : List (LoopEvent σ μ)) : List (ToProcessItem μ) := log.filterMap LoopEvent.item?

/-! ## What a step does to `queue_` -/

/-- Only the loop head takes items; every other step appends. -/
theorem effect_appends {code : Code σ μ} {c c' : Context σ μ} {l : Label} {out : List (Event μ)}
    (he : Effect code c l out c') :
    (c.stack = [] ∧ c.phase = .loop) ∨ ∃ items, c'.queue = c.queue ++ items := by
  have keep (h : c'.queue = c.queue) : ∃ items, c'.queue = c.queue ++ items := ⟨[], by simpa using h⟩
  cases he with
  | take hs hp hq => exact .inl ⟨hs, hp⟩
  | send hs hop hm s' => exact .inr ⟨_, rfl⟩
  | throttleSend hs ht hc => exact .inr ⟨_, rfl⟩
  | @suspend o rest w t hw =>
    exact .inr ⟨_, congrArg Mail.queue (mail_suspended { c with stack := rest } o w t)⟩
  | @started o s role t' rest' self how hs body s' hcall hself hop =>
    exact .inr ⟨_, congrArg Mail.queue (mail_spawned (c.spawnArgs o body) self how (c.heap o).pid)⟩
  | @destroy o reason rest hs hp hd =>
    exact .inr ⟨_, congrArg Mail.queue (mail_destroy { c with toDestroy := rest } code.dtor o reason)⟩
  | newSlot hs ho s' => exact .inr (keep (congrArg Mail.queue (mail_newSlot c _ _)))
  | @dropSlot role s₀ rest s k hs hop ho s' => exact .inr (keep (congrArg Mail.queue (mail_dropSlot c s)))
  | @getVals role s rest ss k hs hop ho s' => exact .inr (keep (mail_getVals c ss).1)
  | ctorThrew hs hop s' => exact .inr (keep (mail_dropSlots _ _).1)
  | @dtorReturned o s rest hs hop => exact .inr (keep (mail_dropSlots { c with stack := rest } o).1)
  | @spawn role s rest self how ctor k hs hop hm hself =>
    exact .inr (keep (congrArg Mail.queue (mail_spawnWith c self how ctor)))
  | link hs p hl s' => exact .inr (keep (congrArg Mail.queue (mail_link hl)))
  | kill hs p s' => exact .inr (keep (congrArg Mail.queue (mail_addtoDestroy c p "")))
  | onPromise hs n ha s' => exact .inr (keep (congrArg Mail.queue (mail_onPromise c _ _)))
  | bodyReturned hs => exact .inr (keep (congrArg Mail.queue (mail_addtoDestroy _ _ _)))
  | bodyThrew hs e => exact .inr (keep (congrArg Mail.queue (mail_addtoDestroy _ _ _)))
  | run hs hp hst hr => exact .inr (keep (congrArg Mail.queue (mail_runHandler _ _)))
  | _ => exact .inr (keep rfl)

theorem loopEvents_item_none {c : Context σ μ} {l : Label} (h : ¬ (c.stack = [] ∧ c.phase = .loop)) :
    taken (c.loopEvents l) = [] := by
  unfold loopEvents
  split
  next hs =>
    split
    next hp => exact absurd ⟨hs, hp⟩ h
    any_goals rfl
    all_goals
      split
      · rfl
      · cases c.io.ready <;> rfl
  next => rfl

theorem step_served {code : Code σ μ} {c c' : Context σ μ} {l : Label} {out : List (Event μ)}
    (h : c.step code l = some (c', out)) : Served c.queue (taken (c.loopEvents l)) c'.queue := by
  by_cases hhead : c.stack = [] ∧ c.phase = .loop
  · obtain ⟨hs, hp⟩ := hhead
    have hf := (step_effect h).1
    have hlook : c.looking = false := by simp [looking, hp]
    cases l with
    | tick =>
      simp only [step, hf, Option.isSome_none, Bool.false_eq_true, if_false, hs, schedule, hp] at h
      simp only [loopEvents, hs, hp]
      split at h
      next hn =>
        cases h
        rw [if_pos hn]
        exact ⟨[], by simp [taken]⟩
      next hn =>
        rw [if_neg hn]
        split at h
        next i q hq =>
          have hq' : c'.queue = q := by
            rw [← queue_processQueueItem c q i, Option.some.inj h]
          rw [hq, hq']
          exact .take i q
        next hq =>
          cases h
          exact ⟨[], by simp [hq, taken]⟩
    | atOnce => simp [step, hf, stepAtOnce, hs] at h
    | _ => simp [step, hf, hlook] at h
  · rw [loopEvents_item_none hhead]
    obtain ⟨items, hi⟩ := (effect_appends (step_effect h).2).resolve_left hhead
    rw [hi]
    exact .push _ _

/-! ## When the io_service gets its turn -/

/-- `run` is not inside `run_one` or `poll`. -/
def Outside (c : Context σ μ) : Prop :=
  c.phase ≠ .runOne ∧ c.phase ≠ .handling ∧ c.phase ≠ .poll

theorem loopEvents_ran {c : Context σ μ} {l : Label} {d : Handler σ} (h : .ran d ∈ c.loopEvents l) :
    ¬ c.Outside := by
  unfold loopEvents at h
  split at h
  · split at h
    · split at h
      · cases h
      · cases hq : c.queue <;> simp [hq] at h
    next hp => exact fun ho => ho.1 hp
    next hp => exact fun ho => ho.2.2 hp
    all_goals cases h
  · cases h

theorem loopEvents_cases (c : Context σ μ) (l : Label) :
    c.loopEvents l = [] ∨ ∃ e, c.loopEvents l = [e] := by
  unfold loopEvents
  have hsingle {α : Type} (o : Option α) : o.toList = [] ∨ ∃ e, o.toList = [e] := by
    cases o with
    | none => exact .inl rfl
    | some e => exact .inr ⟨e, rfl⟩
  split
  · split
    any_goals exact .inl rfl
    all_goals
      split
      · exact .inl rfl
      · exact hsingle _
  · exact .inl rfl

/-- `run` turns to the io_service only when `queue_` is empty. -/
theorem step_outside {code : Code σ μ} {c c' : Context σ μ} {l : Label} {out : List (Event μ)}
    (h : c.step code l = some (c', out)) (ho : c.Outside) : c'.Outside ∨ c.queue = [] := by
  have hf := (step_effect h).1
  by_cases hs : c.stack = []
  · have hlook : c.looking = false := by simp [looking, ho.1, ho.2.2]
    cases l with
    | tick =>
      simp only [step, hf, Option.isSome_none, Bool.false_eq_true, if_false, hs, schedule] at h
      split at h
      next hp =>
        split at h
        next => cases h; exact .inl (by simp [Outside])
        next =>
          split at h
          next i q hq =>
            have hphase : c'.phase = .destroying := by
              have := phase_processQueueItem (c.popFront q) i
              rwa [Option.some.inj h] at this
            exact .inl (by simp [Outside, hphase])
          next hq => exact .inr hq
      next hp => exact absurd hp ho.1
      next hp => exact absurd hp ho.2.1
      next hp => exact absurd hp ho.2.2
      next hp =>
        split at h
        next o reason rest hd =>
          cases h
          left
          rw [Outside, phase_destroy]
          simp [hp]
        next => cases h; exact .inl (by simp [Outside])
      next => cases h
      next => cases h
    | atOnce => simp [step, hf, stepAtOnce, hs] at h
    | _ => simp [step, hf, hlook] at h
  · cases effect_phase (step_effect h).2 with
    | code _ hp => exact .inl (by rwa [Outside, hp])
    | threw _ _ hp => exact .inl (by simp [Outside, hp])
    | wait hs' => exact absurd hs' hs
    | inside hs' => exact absurd hs' hs
    | finish hs' => exact absurd hs' hs
    | back hs' => exact absurd hs' hs

/-! ## Whole runs -/

/-- What holds after a run that started outside the io_service with `q` in `queue_`. -/
structure Turns (q : List (ToProcessItem μ)) (log : List (LoopEvent σ μ)) (c : Context σ μ) : Prop where
  served : Served q (taken log) c.queue
  outside : c.Outside ∨ q <+: taken log
  handlers : ∀ l₁ d l₂, log = l₁ ++ .ran d :: l₂ → q <+: taken l₁

theorem step_turns {code : Code σ μ} {q : List (ToProcessItem μ)} {log : List (LoopEvent σ μ)}
    {c c' : Context σ μ} {l : Label} {out : List (Event μ)} (hs : c.step code l = some (c', out))
    (h : Turns q log c) : Turns q (log ++ c.loopEvents l) c' := by
  have hserved : Served q (taken (log ++ c.loopEvents l)) c'.queue := by
    rw [taken, List.filterMap_append]
    exact h.served.trans (step_served hs)
  have hmono {log' : List (LoopEvent σ μ)} : taken log <+: taken (log ++ log') := by
    rw [taken, taken, List.filterMap_append]
    exact List.prefix_append _ _
  refine ⟨hserved, ?_, fun l₁ d l₂ hlog => ?_⟩
  · rcases h.outside with ho | hq
    · refine (step_outside hs ho).imp id fun hnil => ?_
      have hall : q <+: taken log := (hnil ▸ h.served).all_of_empty
      exact hall.trans hmono
    · exact .inr (hq.trans hmono)
  · rcases List.eq_nil_or_concat l₂ with rfl | ⟨l₃, e, rfl⟩
    · rcases c.loopEvents_cases l with hnone | ⟨e, he⟩
      · rw [hnone, List.append_nil] at hlog
        exact h.handlers l₁ d [] hlog
      · rw [he] at hlog
        obtain ⟨rfl, heq⟩ := List.append_inj' hlog rfl
        have hran : .ran d ∈ c.loopEvents l := by rw [he, heq]; exact List.mem_singleton_self _
        exact h.outside.resolve_left (loopEvents_ran hran)
    · rcases c.loopEvents_cases l with hnone | ⟨e', he⟩
      · rw [hnone, List.append_nil] at hlog
        exact h.handlers l₁ d _ hlog
      · rw [he, List.concat_eq_append, ← List.cons_append, ← List.append_assoc] at hlog
        exact h.handlers l₁ d l₃ (List.append_inj' hlog rfl).1

end Context

/-- The observed runs: what `run` takes, in order. -/
abbrev Code.LoopRun {σ μ : Type} (code : Code σ μ) (c : Context σ μ) (log : List (LoopEvent σ μ))
    (d : Context σ μ) : Prop :=
  (code.system.observe Context.loopEvents).Run System.anyStep c log d

theorem Code.turns {σ μ : Type} {code : Code σ μ} {c d : Context σ μ} {log : List (LoopEvent σ μ)}
    (h : code.LoopRun c log d) (ho : c.Outside) : Context.Turns c.queue log d := by
  refine h.invariant (Context.Turns c.queue) ⟨⟨[], by simp [Context.taken]⟩, .inl ho, by simp⟩ ?_
  intro log t l u out hi _ hs
  obtain ⟨rfl, out', hs'⟩ := System.observe_step hs
  exact Context.step_turns hs' hi

/-- **`queue_` is served first come first served, before the io_service**: in every run that starts
outside `run_one` and `poll`, the items taken are the ones that were there, in order, and then those
queued since; and when a handler runs, every item that was there has been taken before it. -/
theorem queue_first_come {σ μ : Type} {code : Code σ μ} {c d : Context σ μ}
    {log : List (LoopEvent σ μ)} (h : code.LoopRun c log d) (ho : c.Outside) :
    (∃ added, c.queue ++ added = Context.taken log ++ d.queue) ∧
      ∀ l₁ x l₂, log = l₁ ++ .ran x :: l₂ → c.queue <+: Context.taken l₁ :=
  ⟨(Code.turns h ho).served, (Code.turns h ho).handlers⟩

namespace Context
variable {σ μ : Type}

theorem step_awaits {code : Code σ μ} {c c' : Context σ μ} {l : Label} {out : List (Event μ)}
    {o : ObjId} {rest : List (Frame σ μ)} {w : Waiting} {t : Coro σ μ} (hw : Awaits code c o rest w t)
    (h : c.step code l = some (c', out)) : c' = { c with stack := rest }.suspended o w t := by
  cases hw with
  | yield hs hop hm hq =>
    have hstep := step_op h hs (by simp [hop])
    have hwait : c.waitOnQueue = true := decide_eq_true hq
    simp only [hop, stepOp, hm, if_true, hwait, Option.some.injEq, Prod.mk.injEq] at hstep
    exact hstep.1.symm
  | @throttle t₀ a m k p hs ht hc =>
    have htry : c.tryQueue o rest a m k = (c', out) := by
      rcases ht with rfl | ⟨s, rfl, hop, hm, hq⟩
      · exact Option.some.inj (step_of_stack hs (by simp) h)
      · have hstep := step_op h hs (by simp [hop])
        have hwait : c.waitOnQueue = false := decide_eq_false (Nat.not_lt.mpr hq)
        simpa only [hop, stepOp, hm, if_true, hwait, Bool.false_eq_true, if_false,
          Option.some.injEq] using hstep
    rw [tryQueue, hc] at htry
    exact (Prod.mk.inj htry).1.symm
  | plain hs hop hb =>
    have hstep := step_op h hs (by simp [hop])
    simp only [hop, stepOp, hb, if_true, Option.some.injEq, Prod.mk.injEq] at hstep
    exact hstep.1.symm

/-! ## A process that waits for its turn -/

/-- `o`, which queued its resume item behind `q` when it suspended, still waits as `cell` says if it lives. -/
structure InTurn (c : Context σ μ) (o : ObjId) (p : Pid) (cell : Cell σ μ)
    (q : List (ToProcessItem μ)) : Prop where
  started : c.table.Started o
  pid : (c.heap o).pid = p
  waits : (c.heap o).life = .running → c.Idle o ∧ c.cells o = cell ∧ .resume p cell.resumes ∉ q

theorem effect_waits {code : Code σ μ} {c c' : Context σ μ} {l : Label} {out : List (Event μ)}
    (he : Effect code c l out c') (ht : c.table.Ok) {o : ObjId} (h : c.Idle o)
    (hst : c.table.Started o) (hd : (c'.heap o).dead = false) :
    c'.Idle o ∧ c'.cells o = c.cells o ∨ c.Woken o := by
  by_cases hb : .body o ∈ c'.table.roles
  · exact .inr ((effect_entered he hb).resolve_left h.2).1
  · refine .inl ⟨⟨hd, hb⟩, ?_⟩
    cases effect_cell he ht o with
    | same hc _ => exact hc
    | suspend hw _ =>
      obtain ⟨t, hs⟩ := hw.stack
      exact absurd (by simp [roles_top hs]) h.2
    | resumed _ _ hb' _ => exact absurd hb' hb
    | returned hb' _ _ => exact absurd hb' h.2
    | created hn _ _ _ => exact absurd (started_lt ht hst) (hn ▸ Nat.lt_irrefl _)
    | started hs _ => exact absurd (ht.ctor (by simp [roles_top hs])) hst.1

theorem loopEvents_live {code : Code σ μ} {c c' : Context σ μ} {l : Label} {out : List (Event μ)}
    (ht : c.table.Ok) (hcen : c.table.Census) {o : ObjId} (hl : (c.heap o).life = .running)
    {i : ToProcessItem μ} {q : List (ToProcessItem μ)} (hs : c.stack = []) (hp : c.phase = .loop)
    (hq : c.queue = i :: q) (h : c.step code l = some (c', out)) : c.loopEvents l = [.took i] := by
  have hf := (step_effect h).1
  have hlook : c.looking = false := by simp [looking, hp]
  cases l with
  | tick => simp [loopEvents, hs, hp, hq, sizes_ne ht hcen hl]
  | atOnce => simp [step, hf, stepAtOnce, hs] at h
  | _ => simp [step, hf, hlook] at h

/-- A process waits for its turn until `run` takes its item or turns to the io_service. -/
theorem step_inTurn {code : Code σ μ} {c c' : Context σ μ} {l : Label} {out : List (Event μ)}
    (hc : c.Sound) (hcen : c.table.Census) {o : ObjId} {p : Pid} {cell : Cell σ μ}
    {q : List (ToProcessItem μ)} (h : c.InTurn o p cell q) {w : Waiting}
    (hw : cell.lastWaiting = some w) (hr : w.isReadyForResume = true)
    (hs : c.step code l = some (c', out)) :
    c'.InTurn o p cell q ∨ ¬ c.Outside ∨
      c.loopEvents l = [.took (.resume p cell.resumes)] ∧ .resume p cell.resumes ∉ q := by
  obtain ⟨-, he⟩ := step_effect hs
  have hk := step_keeps he hc.table
  have ho := started_lt hc.table h.started
  have hpid : (c'.heap o).pid = p := (hk.pid ho).trans h.pid
  by_cases hl' : (c'.heap o).life = .running
  · have hl := hk.running h.started hl'
    obtain ⟨hidle, hcell, hnew⟩ := h.waits hl
    have hd : (c'.heap o).dead = false := by
      by_contra hd
      exact (dead_iff.mp (by simpa using hd)).2 hl'
    have hlast : (c.heap o).lastWaiting = some w := (congrArg Cell.lastWaiting hcell).trans hw
    have hres : (c.heap o).resumes = cell.resumes := congrArg Cell.resumes hcell
    rcases effect_waits he hc.table hidle h.started hd with ⟨hidle', hcell'⟩ | hwoken
    · exact .inl ⟨hk.started h.started, hpid, fun _ => ⟨hidle', hcell'.trans hcell, hnew⟩⟩
    · cases hwoken with
      | @item p' q' hs' hp hq hf =>
        obtain ⟨-, hp'⟩ := (Table.find_eq_some hc.table).mp hf
        have hp' : p' = p := hp'.symm.trans h.pid
        rw [hp', hres] at hq
        exact .inr (.inr ⟨loopEvents_live hc.table hcen hl hs' hp hq hs, hnew⟩)
      | @message a m q' hs' hp hq hf hwait =>
        simp only [waitingFor, hlast, Waiting.isWaiting, List.contains_iff_mem] at hwait
        cases hr.symm.trans (Waiting.not_ready_of_slot hwait)
      | timer hs' hp hst hready => exact .inr (.inl fun hout => hp.elim hout.1 hout.2.2)
      | continuation hs' hp hst hready => exact .inr (.inl fun hout => hp.elim hout.1 hout.2.2)
  · exact .inl ⟨hk.started h.started, hpid, fun hl => absurd hl hl'⟩

theorem inTurn_resumed {code : Code σ μ} {c c' : Context σ μ} {l : Label} {out : List (Event μ)}
    (hc : c.Sound) (hcen : c.table.Census) {o : ObjId} {p : Pid} {cell : Cell σ μ}
    {q q' : List (ToProcessItem μ)} (h : c.InTurn o p cell q) (hl : (c.heap o).life = .running)
    (hplain : cell.lastWaiting.bind Waiting.wakeOnFuture = none) (hs : c.stack = [])
    (hp : c.phase = .loop) (hq : c.queue = .resume p cell.resumes :: q')
    (hstep : c.step code l = some (c', out)) : c'.stack = [⟨.body o, cell.task⟩] := by
  obtain ⟨⟨hd, -⟩, hcell, -⟩ := h.waits hl
  have htake := step_takes hc.table hcen hs hp hq hl hstep
  have hf : (c.popFront q').findProc p = some o := (Table.find_eq_some hc.table).mpr ⟨hl, h.pid⟩
  have hres : ((c.popFront q').heap o).resumes = cell.resumes := congrArg Cell.resumes hcell
  simp only [processQueueItem, hf, hres, if_true, Prod.mk.injEq] at htake
  have hr := resume_resumes (c.popFront q') o
  rw [htake.1] at hr
  have hfut : ((c.popFront q').heap o).lastWaiting.bind Waiting.wakeOnFuture = none :=
    (congrArg (fun w => Option.bind w Waiting.wakeOnFuture) (congrArg Cell.lastWaiting hcell)).trans hplain
  have htask : (c.heap o).task = cell.task := congrArg Cell.task hcell
  cases hr with
  | dead hdead => cases hd.symm.trans hdead
  | plain hd hf => simp [enter, cancelTimer, popFront, hs, htask]
  | gone _ hsome => cases hfut.symm.trans hsome
  | raised _ hsome => cases hfut.symm.trans hsome
  | woken _ hsome => cases hfut.symm.trans hsome

theorem step_head_of_took {c : Context σ μ} {l : Label} {i : ToProcessItem μ}
    (h : c.loopEvents l = [.took i]) : c.stack = [] ∧ c.phase = .loop ∧ ∃ q, c.queue = i :: q := by
  unfold loopEvents at h
  split at h
  next hs =>
    split at h
    next hp =>
      split at h
      · cases h
      · cases hq : c.queue with
        | nil => simp [hq] at h
        | cons j q =>
          simp only [hq, List.head?_cons, Option.map_some, Option.toList_some, List.cons.injEq,
            LoopEvent.took.injEq, and_true] at h
          exact ⟨hs, hp, q, by rw [h]⟩
    all_goals
      first
        | cases h
        | split at h
          · cases h
          · cases hr : c.io.ready <;> simp [hr] at h
  next => cases h

end Context

/-- What holds after a run that starts with the suspension of `o`. -/
structure Yielded {σ μ : Type} (code : Code σ μ) (main : σ) (o : ObjId) (p : Pid) (cell : Cell σ μ)
    (q : List (ToProcessItem μ)) (log : List (LoopEvent σ μ)) (d : Context σ μ) : Prop where
  reached : ∃ tr, code.RunsTo System.anyStep main tr d
  turns : Context.Turns (q ++ [.resume p cell.resumes]) log d
  pending : q ++ [.resume p cell.resumes] <+: Context.taken log ∨ d.InTurn o p cell q

theorem Yielded.step {σ μ : Type} {code : Code σ μ} {main : σ} {o : ObjId} {p : Pid}
    {cell : Cell σ μ} {q : List (ToProcessItem μ)} {log : List (LoopEvent σ μ)} {d d' : Context σ μ}
    {l : Label} {out : List (Event μ)} {w : Waiting} (hw : cell.lastWaiting = some w)
    (hr : w.isReadyForResume = true) (h : Yielded code main o p cell q log d)
    (hs : d.step code l = some (d', out)) :
    Yielded code main o p cell q (log ++ d.loopEvents l) d' := by
  obtain ⟨tr, hrun⟩ := h.reached
  have hturns := Context.step_turns hs h.turns
  have hmono : Context.taken log <+: Context.taken (log ++ d.loopEvents l) := by
    rw [Context.taken, Context.taken, List.filterMap_append]
    exact List.prefix_append _ _
  refine ⟨⟨_, hrun.step trivial hs⟩, hturns, ?_⟩
  rcases h.pending with hdone | hpend
  · exact .inl (hdone.trans hmono)
  rcases Context.step_inTurn (Code.sound hrun) (Code.census hrun) hpend hw hr hs with
    hpend' | hin | ⟨htook, hnew⟩
  · exact .inr hpend'
  · exact .inl ((h.turns.outside.resolve_left hin).trans hmono)
  · -- both lists are what was taken first, and `q` does not contain the item
    have htaken : Context.taken (log ++ d.loopEvents l) =
        Context.taken log ++ [.resume p cell.resumes] := by
      rw [htook, Context.taken, Context.taken, List.filterMap_append]
      rfl
    obtain ⟨added, ha⟩ := hturns.served
    rw [htaken] at ha ⊢
    refine .inl ((List.prefix_or_prefix_of_prefix ⟨added, ha⟩ (List.prefix_append _ d'.queue)).elim
      id fun hle => ?_)
    rcases List.prefix_concat_iff.mp hle with heq | hle
    · exact heq ▸ List.prefix_refl _
    · exact absurd (hle.subset (by simp)) hnew

theorem Code.yielded {σ μ : Type} {code : Code σ μ} {main : σ} {tr : List (Event μ)}
    {c d : Context σ μ} {l : Label} {out : List (Event μ)} {o : ObjId} {rest : List (Frame σ μ)}
    {w : Waiting} {t : Coro σ μ} {log : List (LoopEvent σ μ)}
    (hrun : code.RunsTo (fun c _ => c.QueueFits) main tr c) (hfits : c.QueueFits)
    (hw : Context.Awaits code c o rest w t) (hr : w.isReadyForResume = true)
    (houtside : ({ c with stack := rest }.suspended o w t).Outside)
    (hqueue : ({ c with stack := rest }.suspended o w t).queue =
      c.queue ++ [.resume (c.heap o).pid (c.heap o).resumes])
    (hs : c.step code l = some ({ c with stack := rest }.suspended o w t, out))
    (h : code.LoopRun ({ c with stack := rest }.suspended o w t) log d) :
    Yielded code main o (c.heap o).pid ((c.cells o).suspend (some w) t) c.queue log d := by
  have hsound := Code.sound hrun
  have hbody : .body o ∈ c.table.roles := by
    obtain ⟨t₀, hst⟩ := hw.stack
    simp [Context.roles_top hst]
  have hstarted := hsound.refs.body hbody
  have hkeeps := Context.step_keeps (Context.step_effect hs).2 hsound.table
  have hcell : ({ c with stack := rest }.suspended o w t).cells o = (c.cells o).suspend (some w) t := by
    rw [Context.cells_suspended, Function.update_self]
    rfl
  -- an item that is already there would be one that the process, whose body runs, waits for
  have hnew (hl : (c.heap o).life = .running) :
      .resume (c.heap o).pid (c.heap o).resumes ∉ c.queue := by
    intro hin
    have hf : c.findProc (c.heap o).pid = some o := (Table.find_eq_some hsound.table).mpr ⟨hl, rfl⟩
    obtain ⟨-, -, -, hidle⟩ := (Code.behind hrun).own hsound (Code.versions hrun) hfits hin hf
    exact (hidle rfl (by simp [RunningProcess.dead, hl])).1.2 hbody
  have hany : code.RunsTo System.anyStep main tr c := hrun.mono fun _ _ _ => trivial
  have hwaits : ({ c with stack := rest }.suspended o w t).InTurn o (c.heap o).pid
      ((c.cells o).suspend (some w) t) c.queue := by
    refine ⟨hkeeps.started hstarted, hkeeps.pid (Context.started_lt hsound.table hstarted), fun hl => ?_⟩
    have hd : (({ c with stack := rest }.suspended o w t).heap o).dead = false := by
      simp [RunningProcess.dead, hl]
    exact ⟨hw.idle (Code.shaped hrun) rfl hd, hcell, hnew (hkeeps.running hstarted hl)⟩
  have hturns : Context.Turns
      (c.queue ++ [.resume (c.heap o).pid ((c.cells o).suspend (some w) t).resumes]) []
      ({ c with stack := rest }.suspended o w t) := by
    refine ⟨⟨[], ?_⟩, .inl houtside, by simp⟩
    rw [hqueue]
    simp [Context.taken]
    rfl
  refine h.invariant (Yielded code main o (c.heap o).pid ((c.cells o).suspend (some w) t) c.queue)
    ⟨⟨_, hany.step trivial hs⟩, hturns, .inr hwaits⟩ ?_
  intro log' d₁ l₁ d₂ out₁ hi _ hstep
  obtain ⟨rfl, out', hstep⟩ := System.observe_step hstep
  exact hi.step rfl hr hstep

/-- **A process that yields goes on after the items in front of its own, and nothing else runs before**:
let a process suspend, in a cycle of `queue_`, in a wait that is ready for resume. In every run after
that its resume item is taken directly after the items that were in `queue_`, no handler of the
io_service runs before that, and if the process is still alive then, the item resumes it where it
suspended. -/
theorem yield_takes_its_turn {σ μ : Type} {code : Code σ μ} {main : σ} {tr : List (Event μ)}
    {c c' d : Context σ μ} {l : Label} {out : List (Event μ)} {o : ObjId} {rest : List (Frame σ μ)}
    {w : Waiting} {t : Coro σ μ} {log : List (LoopEvent σ μ)}
    (hrun : code.RunsTo (fun c _ => c.QueueFits) main tr c) (hfits : c.QueueFits)
    (hw : Context.Awaits code c o rest w t) (hr : w.isReadyForResume = true)
    (hplain : w.wakeOnFuture = none) (ho : c.Outside) (hs : c.step code l = some (c', out))
    (h : code.LoopRun c' log d) :
    (∃ added, c.queue ++ .resume (c.heap o).pid (c.heap o).resumes :: added =
        Context.taken log ++ d.queue) ∧
      (∀ l₁ x l₂, log = l₁ ++ .ran x :: l₂ →
        c.queue ++ [.resume (c.heap o).pid (c.heap o).resumes] <+: Context.taken l₁) ∧
      ∀ x l d' out, Context.taken log = c.queue → (d.heap o).life = .running →
        d.loopEvents l = [x] → d.step code l = some (d', out) →
          x = .took (.resume (c.heap o).pid (c.heap o).resumes) ∧ d'.stack = [⟨.body o, t⟩] := by
  obtain rfl := Context.step_awaits hw hs
  have hqueue : ({ c with stack := rest }.suspended o w t).queue =
      c.queue ++ [.resume (c.heap o).pid (c.heap o).resumes] := by
    have hmail : ({ c with stack := rest }.suspended o w t).queue = c.queue ++
        if w.isReadyForResume then [.resume (c.heap o).pid (c.heap o).resumes] else [] :=
      congrArg Mail.queue (Context.mail_suspended { c with stack := rest } o w t)
    simpa [hr] using hmail
  have houtside : ({ c with stack := rest }.suspended o w t).Outside := by
    rwa [Context.Outside, Context.phase_suspended]
  have hturns := Code.turns h houtside
  rw [hqueue] at hturns
  have hyielded := Code.yielded hrun hfits hw hr houtside hqueue hs h
  refine ⟨?_, hturns.handlers, fun x l d' out htaken hl hevents hstep => ?_⟩
  · obtain ⟨added, ha⟩ := hturns.served
    exact ⟨added, by simpa using ha⟩
  have hbefore : ¬ c.queue ++ [.resume (c.heap o).pid (c.heap o).resumes] <+: Context.taken log := by
    intro hle
    rw [htaken] at hle
    simpa using hle.length_le
  have hpend := hyielded.pending.resolve_left hbefore
  obtain ⟨tr', hrun'⟩ := hyielded.reached
  cases x with
  | ran x =>
    have hin := Context.loopEvents_ran (d := x) (by rw [hevents]; exact List.mem_singleton_self _)
    exact absurd (hturns.outside.resolve_left hin) hbefore
  | took i =>
    obtain ⟨hstack, hphase, q, hq⟩ := Context.step_head_of_took hevents
    obtain ⟨added, ha⟩ := hturns.served
    rw [htaken, List.append_assoc, List.append_cancel_left_eq, hq] at ha
    obtain ⟨rfl, -⟩ : .resume (c.heap o).pid (c.heap o).resumes = i ∧ added = q := by simpa using ha
    have hstack' := Context.inTurn_resumed (Code.sound hrun') (Code.census hrun') hpend hl
      (by exact hplain) hstack hphase hq hstep
    exact ⟨rfl, hstack'⟩

/-- Process 0 yields and then sleeps, process 1 sleeps. -/
def yieldThenSleep : Code Nat Unit where
  op
    | 0 => .spawn .plain 10 fun _ => 1
    | 1 => .spawn .plain 20 fun _ => 2
    | 10 => .started 11
    | 11 => .awaitSuspend .yield 12
    | 12 => .awaitSuspend (.timeout 5) 13
    | 20 => .started 21
    | 21 => .awaitSuspend (.timeout 5) 22
    | _ => .coReturn
  dtor _ := 99

/-- The state after `n` ticks. -/
def yieldThenSleepAfter (n : Nat) : Context Nat Unit :=
  ((yieldThenSleep.system.exec (fun _ _ => true) (Context.init 0) (List.replicate n .tick)).map
    Prod.fst).getD (Context.init 0)

theorem sleepers_first_come : ∃ log d, yieldThenSleep.LoopRun (yieldThenSleepAfter 5) log d ∧
    log = [.took (.resume ⟨0, 0⟩ 0), .took (.resume ⟨1, 0⟩ 0), .took (.resume ⟨0, 0⟩ 1),
      .ran (.timer 1 1)] ∧
    ∀ l₁ x l₂, log = l₁ ++ .ran x :: l₂ →
      (yieldThenSleepAfter 5).queue <+: Context.taken l₁ := by
  obtain ⟨log, d, hr, hlog⟩ := System.exec_reaches
    (M := yieldThenSleep.system.observe Context.loopEvents) (g := fun _ _ => true)
    (G := System.anyStep) (fun _ _ _ => trivial)
    (w := List.replicate 10 .tick ++ [.expire 0, .tick]) (s := yieldThenSleepAfter 5)
    (P := fun log _ => log = [.took (.resume ⟨0, 0⟩ 0), .took (.resume ⟨1, 0⟩ 0),
      .took (.resume ⟨0, 0⟩ 1), .ran (.timer 1 1)]) (by decide)
  have hphase : (yieldThenSleepAfter 5).phase = .loop := by decide
  exact ⟨log, d, hr, hlog, (queue_first_come hr (by simp [Context.Outside, hphase])).2⟩

theorem yieldThenSleep_reached : ∃ tr,
    yieldThenSleep.RunsTo (fun c _ => c.QueueFits) 0 tr (yieldThenSleepAfter 6) :=
  ⟨_, System.exec_run (g := fun c _ => decide (c.queue.length < 2 ^ 63))
    (fun c _ hg => show c.queue.length < 2 ^ 63 from of_decide_eq_true hg) (w := List.replicate 6 .tick) rfl⟩

/-- Process 0 yields with the resume item of process 1 in front of its own, and goes on after it. -/
theorem yielder_takes_its_turn : ∃ log d d', yieldThenSleep.LoopRun (yieldThenSleepAfter 7) log d ∧
    log = [.took (.resume ⟨1, 0⟩ 0)] ∧ d.step yieldThenSleep .tick = some (d', []) ∧
    d'.stack = [⟨.body 0, .code 12⟩] := by
  obtain ⟨log, d, hr, hlog, hlive, hevents, hnext⟩ := System.exec_reaches
    (M := yieldThenSleep.system.observe Context.loopEvents) (g := fun _ _ => true)
    (G := System.anyStep) (fun _ _ _ => trivial) (w := List.replicate 4 .tick)
    (s := yieldThenSleepAfter 7)
    (P := fun log d => log = [.took (.resume ⟨1, 0⟩ 0)] ∧ (d.heap 0).life = .running ∧
      d.loopEvents .tick = [.took (.resume ⟨0, 0⟩ 1)] ∧
      (d.step yieldThenSleep .tick).any (fun r => r.2.isEmpty) = true) (by decide)
  obtain ⟨⟨d', out⟩, hd', hout⟩ := (Option.any_eq_true _ _).mp hnext
  obtain rfl : out = [] := List.isEmpty_iff.mp hout
  obtain ⟨tr, hrun⟩ := yieldThenSleep_reached
  have hs : (yieldThenSleepAfter 6).stack = [⟨.body 0, .code 11⟩] := rfl
  have hstep : (yieldThenSleepAfter 6).step yieldThenSleep .tick =
      some (yieldThenSleepAfter 7, []) := rfl
  have hphase : (yieldThenSleepAfter 6).phase = .destroying := by decide
  have hqueue : (yieldThenSleepAfter 6).queue = [.resume ⟨1, 0⟩ 0] := by decide
  have hturn := yield_takes_its_turn hrun (by simp [Context.QueueFits, hqueue])
    (.plain hs rfl (by decide)) rfl rfl (by simp [Context.Outside, hphase]) hstep hr
  have htaken : Context.taken log = (yieldThenSleepAfter 6).queue := by
    rw [hlog, hqueue]
    rfl
  exact ⟨log, d, d', hr, hlog, hd', (hturn.2.2 _ _ d' [] htaken hlive hevents hd').2⟩

end Eslang
