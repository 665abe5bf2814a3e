import Eslang.Context.References

/-! # What a step does to the waits of the processes

A process's `cell` is what decides how it goes on: its coroutine, the wait it is suspended in, its
`resumes` count, and the addresses told of its death. `effect_cell` lists the few steps that
change a cell: the process suspends, is resumed, returns, is created, or leaves its constructor. -/
namespace Eslang
set_option autoImplicit false
open Lib

structure Cell (σ μ : Type) where
  task : Coro σ μ
  lastWaiting : Option Waiting
  resumes : Nat
  notifyOnDie : List SendAddress

def RunningProcess.cell {σ μ : Type} (p : RunningProcess σ μ) : Cell σ μ :=
  ⟨p.task, p.lastWaiting, p.resumes, p.notifyOnDie⟩

def Cell.suspend {σ μ : Type} (p : Cell σ μ) (w : Option Waiting) (t : Coro σ μ) : Cell σ μ :=
  { p with lastWaiting := w, task := t }

def Cell.resume {σ μ : Type} (p : Cell σ μ) : Cell σ μ := { p with resumes := p.resumes + 1 }

namespace Context
variable {σ μ : Type}

def cells (c : Context σ μ) (o : ObjId) : Cell σ μ := (c.heap o).cell

/-! ## Operations that leave the cells alone -/

theorem cells_setProc_eq (c : Context σ μ) (o : ObjId) (p : RunningProcess σ μ) :
    (c.setProc o p).cells = Function.update c.cells o p.cell :=
  field_setProc RunningProcess.cell c o p

theorem cells_setProc (c : Context σ μ) {o : ObjId} {p : RunningProcess σ μ}
    (hp : p.cell = (c.heap o).cell) : (c.setProc o p).cells = c.cells := by
  rw [cells_setProc_eq, hp]
  exact Function.update_eq_self o c.cells

theorem cells_of_heap {c c' : Context σ μ} (h : c'.heap = c.heap) : c'.cells = c.cells := by
  funext o
  simp [cells, h]

@[simp] theorem cells_fail (c : Context σ μ) (f : Fault) : (c.fail f).cells = c.cells := rfl

@[simp] theorem cells_setQueue (c : Context σ μ) (s : SlotId)
    (q : Option (MessageQueue (MessageBase μ) Continuation)) :
    (c.setQueue s q).cells = c.cells := rfl

@[simp] theorem cells_post (c : Context σ μ) (fs : List Continuation) :
    (c.post fs).cells = c.cells := rfl

@[simp] theorem cells_queueResume (c : Context σ μ) (p : Pid) (n : Nat) :
    (c.queueResume p n).cells = c.cells := rfl

@[simp] theorem cells_cancelTimer (c : Context σ μ) (o : ObjId) :
    (c.cancelTimer o).cells = c.cells := rfl

@[simp] theorem cells_setPromise (c : Context σ μ) (f : PromiseRef)
    (p : EslangPromise Continuation) : (c.setPromise f p).cells = c.cells := by
  cases f <;> rfl

@[simp] theorem cells_onPromise (c : Context σ μ) (f : PromiseRef)
    (act : EslangPromise Continuation → EslangPromise Continuation × List Continuation) :
    (c.onPromise f act).cells = c.cells := by
  unfold onPromise
  split <;> simp

@[simp] theorem cells_push (c : Context σ μ) (s : SlotId) (m : MessageBase μ) :
    (c.push s m).cells = c.cells := by
  unfold push
  split <;> simp

@[simp] theorem cells_getVals (c : Context σ μ) (ss : List SlotId) :
    (c.getVals ss).2.cells = c.cells := by
  refine getVals_same cells (fun d s => ?_) c ss
  unfold getOptional
  split
  · rfl
  · split <;> rfl

@[simp] theorem cells_dropSlot (c : Context σ μ) (s : SlotId) : (c.dropSlot s).cells = c.cells := by
  unfold dropSlot
  split <;> rfl

@[simp] theorem cells_dropSlots (c : Context σ μ) (o : ObjId) : (c.dropSlots o).cells = c.cells :=
  dropSlots_same cells cells_dropSlot c o

@[simp] theorem cells_dropPromises (c : Context σ μ) (o : ObjId) :
    (c.dropPromises o).cells = c.cells := rfl

@[simp] theorem cells_addKillOnDie (c : Context σ μ) (o : ObjId) (p : Pid) :
    (c.addKillOnDie o p).cells = c.cells := cells_setProc c rfl

@[simp] theorem cells_setLife (c : Context σ μ) (o : ObjId) (l : Life) :
    (c.setLife o l).cells = c.cells := cells_setProc c rfl

theorem cells_link {c c' : Context σ μ} {o : ObjId} {p : Pid} (hl : c.link o p = .ok c') :
    c'.cells = c.cells := by
  unfold link at hl
  split at hl <;> cases hl
  simp

@[simp] theorem cells_addtoDestroy (c : Context σ μ) (p : Pid) (reason : String) :
    (c.addtoDestroy p reason).cells = c.cells := by
  unfold addtoDestroy
  split
  · rfl
  · exact cells_setProc c rfl

@[simp] theorem cells_armTimer (c : Context σ μ) (o : ObjId) (w : Waiting) :
    (c.armTimer o w).cells = c.cells := cells_of_heap (heap_armTimer c o w)

@[simp] theorem cells_armFuture (c : Context σ μ) (o : ObjId) (w : Waiting) :
    (c.armFuture o w).cells = c.cells := by
  unfold armFuture
  split <;> simp

@[simp] theorem cells_spawned (c : Context σ μ) (self : Option ObjId) (how : SpawnKind) (p : Pid) :
    (c.spawned self how p).cells = c.cells := by
  unfold spawned
  split <;> simp

theorem cells_newSlot (c : Context σ μ) (role : Role) (o : ObjId) :
    (c.newSlot role o).cells = c.cells := by
  unfold newSlot
  split
  · exact cells_setProc _ rfl
  · rfl

@[simp] theorem cells_destroy (c : Context σ μ) (dtor : σ → σ) (o : ObjId) (reason : String) :
    (c.destroy dtor o reason).cells = c.cells := by
  have hkill := killLinked_same cells (fun d p => cells_addtoDestroy d p reason) (c.setLife o .destroyed) o
  exact (notifyDeath_same cells (fun _ _ _ => rfl) _ o).trans (hkill.trans (cells_setLife c o _))

/-! ## Operations that change one cell -/

theorem cells_setWaiting (c : Context σ μ) (o : ObjId) (w : Option Waiting) (t : Coro σ μ) :
    (c.setWaiting o w t).cells = Function.update c.cells o ((c.cells o).suspend w t) :=
  cells_setProc_eq c o _

theorem cells_suspended (c : Context σ μ) (o : ObjId) (w : Waiting) (t : Coro σ μ) :
    (c.suspended o w t).cells = Function.update c.cells o ((c.cells o).suspend (some w) t) := by
  unfold suspended arm
  split <;> simp [cells_setWaiting]

theorem lastWaiting_suspended {c : Context σ μ} {o : ObjId} {w : Waiting} {t : Coro σ μ} :
    ((c.suspended o w t).heap o).lastWaiting = some w := by
  have hcells := congrFun (cells_suspended c o w t) o
  rw [Function.update_self] at hcells
  exact congrArg Cell.lastWaiting hcells

theorem cells_enter (c : Context σ μ) (o : ObjId) :
    (c.enter o).cells = Function.update c.cells o (c.cells o).resume :=
  cells_setProc_eq c o _

theorem cells_resume (c : Context σ μ) (o : ObjId) :
    (c.resume o).cells = c.cells ∨
      ((c.heap o).dead = false ∧ .body o ∈ (c.resume o).table.roles ∧
        (c.resume o).cells = Function.update c.cells o (c.cells o).resume) := by
  have hr := resume_resumes c o
  generalize c.resume o = c' at hr ⊢
  cases hr with
  | dead hd => exact .inl rfl
  | plain hd hf => exact .inr ⟨hd, by simp [table_enter], by simp [cells_enter]⟩
  | gone hd hf hp => exact .inl rfl
  | raised hd hf hp he => exact .inl (by simp)
  | woken hd hf hp he => exact .inr ⟨hd, by simp [table_enter], by simp [cells_enter]⟩

/-! ## The steps that change a cell -/

/-- The next step calls `RunningProcess::resume` on `o`. -/
inductive Woken (c : Context σ μ) (o : ObjId) : Prop
  | item {p : Pid} {q : List (ToProcessItem μ)} (hs : c.stack = []) (hp : c.phase = .loop)
      (hq : c.queue = .resume p (c.heap o).resumes :: q) (hf : c.findProc p = some o)
  | message {a : SendAddress} {m : MessageBase μ} {q : List (ToProcessItem μ)} (hs : c.stack = [])
      (hp : c.phase = .loop) (hq : c.queue = .message a m :: q) (hf : c.findProc a.pid = some o)
      (hw : c.waitingFor o a.slot = true)
  | timer {n : Nat} {ds : List (Handler σ)} (hs : c.stack = [])
      (hp : c.phase = .runOne ∨ c.phase = .poll) (hst : c.io.stopped = false)
      (hr : c.io.ready = .timer o n :: ds)
  | continuation {ds : List (Handler σ)} (hs : c.stack = [])
      (hp : c.phase = .runOne ∨ c.phase = .poll) (hst : c.io.stopped = false)
      (hr : c.io.ready = .continuation ⟨o, (c.heap o).resumes⟩ :: ds)

/-- What a step from `c` to `c'` does to the cell of `o`. -/
inductive CellStep (code : Code σ μ) (c c' : Context σ μ) (o : ObjId) : Prop
  | same (h : c'.cells o = c.cells o)
      (hb : .body o ∈ c.table.roles → .body o ∈ c'.table.roles ∨ (c'.heap o).life ≠ .running)
  | suspend {t : Coro σ μ} {rest : List (Frame σ μ)} {w : Waiting}
      (hw : Awaits code c o rest w t) (he : c' = { c with stack := rest }.suspended o w t)
  | resumed (hw : c.Woken o) (hd : (c.heap o).dead = false) (hb : .body o ∈ c'.table.roles)
      (h : c'.cells o = (c.cells o).resume)
  | returned (hb : .body o ∈ c.table.roles) (hl : (c'.heap o).life ≠ .running)
      (h : c'.cells o = (c.cells o).suspend none (c.cells o).task)
  | created (ho : o = c.heapSize) (hl : (c'.heap o).life = .constructing)
      (hn : (c'.cells o).notifyOnDie = [] ∨
        ∃ a, (c'.cells o).notifyOnDie = [a] ∧ c.made a = true)
      (h : ∃ ctor notes, c'.cells o = ⟨.code ctor, none, 0, notes⟩)
  | started {t : Coro σ μ} {rest : List (Frame σ μ)} {body : σ}
      (hs : c.stack = ⟨.ctor o, t⟩ :: rest)
      (h : c'.cells o = { c.cells o with task := .code body })

theorem CellStep.keep {code : Code σ μ} {c c' : Context σ μ} {o : ObjId} (hc : c'.cells = c.cells)
    (hr : ∀ r ∈ c.table.roles, r ∈ c'.table.roles) : CellStep code c c' o :=
  .same (by rw [hc]) fun hb => .inl (hr _ hb)

theorem CellStep.goOn {code : Code σ μ} {c d : Context σ μ} {role : Role} {t : Coro σ μ}
    {rest : List (Frame σ μ)} {s : σ} {o : ObjId} (hs : c.stack = ⟨role, t⟩ :: rest) (hc : d.cells = c.cells) :
    CellStep code c (d.continueWith role rest s) o :=
  .keep hc (by simp [roles_top hs, table_continueWith])

theorem mem_roles_rest {c : Context σ μ} {role r : Role} {t : Coro σ μ} {rest : List (Frame σ μ)}
    (hs : c.stack = ⟨role, t⟩ :: rest) (hne : r ≠ role) (h : r ∈ c.table.roles) :
    r ∈ rest.map Frame.role := by
  rw [roles_top hs] at h
  exact (List.mem_cons.mp h).resolve_left hne

theorem cellStep_suspended {code : Code σ μ} {c : Context σ μ} {o : ObjId} {t : Coro σ μ}
    {rest : List (Frame σ μ)} {w : Waiting} (hw : Awaits code c o rest w t) (o' : ObjId) :
    CellStep code c ({ c with stack := rest }.suspended o w t) o' := by
  obtain ⟨t₀, hs⟩ := hw.stack
  by_cases he : o' = o
  · subst he
    exact .suspend hw rfl
  · refine .same ?_ fun hb => .inl ?_
    · rw [cells_suspended, Function.update_of_ne he]
      rfl
    · rw [table_suspended]
      exact mem_roles_rest hs (by simp [he]) hb

/-- A body that is popped off the stack when its process is killed. -/
theorem life_kill {t : Table} (ht : t.Ok) {o : ObjId} :
    (t.kill (t.pid o)).life o ≠ .running := by
  intro hl
  cases hf : t.find (t.pid o) with
  | none =>
    rw [Table.kill_of_none hf] at hl
    rw [(Table.find_eq_some ht).mpr ⟨hl, rfl⟩] at hf
    cases hf
  | some o' =>
    rw [Table.kill_of_some hf] at hl
    by_cases he : o = o'
    · simp [he] at hl
    · simp only [Function.update_of_ne he] at hl
      rw [(Table.find_eq_some ht).mpr ⟨hl, rfl⟩] at hf
      exact he (Option.some.inj hf)

theorem roles_subset_resume (c : Context σ μ) (o : ObjId) :
    ∀ r ∈ c.table.roles, r ∈ (c.resume o).table.roles := by
  intro r h
  have hr := resume_resumes c o
  generalize c.resume o = c' at hr ⊢
  cases hr with
  | dead hd => exact h
  | plain hd hf =>
    rw [table_enter]
    exact List.mem_cons_of_mem _ h
  | gone hd hf hp => exact h
  | raised hd hf hp he =>
    rw [table_addtoDestroy, Table.kill_roles]
    exact h
  | woken hd hf hp he =>
    rw [table_enter, table_setPromise]
    exact List.mem_cons_of_mem _ h

theorem cellStep_resume {code : Code σ μ} {c d : Context σ μ} {o : ObjId} (hc : d.cells = c.cells)
    (hl : (d.heap o).dead = (c.heap o).dead) (hr : d.table.roles = c.table.roles) (hw : c.Woken o)
    (o' : ObjId) : CellStep code c (d.resume o) o' := by
  have hroles := roles_subset_resume d o
  rw [hr] at hroles
  rcases cells_resume d o with h | ⟨hd, hb, h⟩
  · exact .keep (h.trans hc) hroles
  · by_cases he : o' = o
    · subst he
      exact .resumed hw (hl ▸ hd) hb (by rw [h, hc, Function.update_self])
    · exact .same (by rw [h, hc, Function.update_of_ne he]) fun hb => .inl (hroles _ hb)

theorem cellStep_take {code : Code σ μ} {c : Context σ μ} {i : ToProcessItem μ} {q : List (ToProcessItem μ)}
    (hs : c.stack = []) (hp : c.phase = .loop) (hq : c.queue = i :: q) (o' : ObjId) :
    CellStep code c ((c.popFront q).processQueueItem i).1 o' := by
  have hkeep : CellStep code c (c.popFront q) o' := .keep rfl (fun _ => id)
  cases i with
  | message a m =>
    simp only [processQueueItem]
    split
    next o hf =>
      simp only [send]
      split
      next hw =>
        have hw : (c.popFront q).waitingFor o a.slot = true := by
          simp only [Bool.and_eq_true] at hw
          exact hw.1
        refine cellStep_resume (by simp; rfl) ?_ (by simp; rfl) (.message hs hp hq hf hw) o'
        unfold push
        split <;> rfl
      next => exact .keep (by simp; rfl) (by simp; exact fun r => id)
    next => exact hkeep
  | resume p n =>
    simp only [processQueueItem]
    split
    next o hf =>
      split
      next hn =>
        have hn : (c.heap o).resumes = n := hn
        exact cellStep_resume (c := c) (d := c.popFront q) rfl rfl rfl (.item hs hp (hn ▸ hq) hf) o'
      next => exact hkeep
    next => exact hkeep

theorem cellStep_run {code : Code σ μ} {c : Context σ μ} {d : Handler σ} {ds : List (Handler σ)}
    (hs : c.stack = []) (hp : c.phase = .runOne ∨ c.phase = .poll) (hst : c.io.stopped = false)
    (hr : c.io.ready = d :: ds) (o' : ObjId) :
    CellStep code c ((c.popReady ds).runHandler d) o' := by
  have hkeep : CellStep code c (c.popReady ds) o' := .keep rfl (fun _ => id)
  cases d with
  | aborted => exact hkeep
  | timer o n =>
    simp only [runHandler]
    split
    · exact .keep rfl (fun _ => id)
    · exact cellStep_resume (c := c) (d := c.popReady ds) rfl rfl rfl (.timer hs hp hst hr) o'
  | continuation f =>
    simp only [runHandler]
    split
    · exact .keep rfl (fun _ => id)
    · split
      next hn =>
        have hf : f = ⟨f.this, (c.heap f.this).resumes⟩ := by
          rw [show (c.heap f.this).resumes = f.resumes from hn]
        exact cellStep_resume (c := c) (d := c.popReady ds) rfl rfl rfl
          (.continuation hs hp hst (hf ▸ hr)) o'
      next => exact hkeep
  | user owner s =>
    simp only [runHandler]
    split
    · exact .keep rfl (fun _ => id)
    · exact .keep rfl (by simp [table, hs])

theorem effect_cell {code : Code σ μ} {c c' : Context σ μ} {l : Label} {out : List (Event μ)}
    (he : Effect code c l out c') (ht : c.table.Ok) (o' : ObjId) : CellStep code c c' o' := by
  cases he with
  | goOn hs s => exact .goOn hs rfl
  | fault f => exact .keep rfl (fun _ => id)
  | send hs hop hm s' => exact .goOn (d := c.queueSend _ _) hs rfl
  | suspend hw => exact cellStep_suspended hw o'
  | throttleSend hs ht hc => exact .goOn (d := c.queueSend _ _) hs rfl
  | newSlot hs ho s' => exact .goOn hs (cells_newSlot c _ _)
  | dropSlot hs hop ho s' => exact .goOn hs (by simp)
  | getVals hs hop ho s' => exact .goOn hs (by simp)
  | @spawn role s rest self how ctor k hs hop hm =>
    have hn : c.nextPid.2.heapSize = c.heapSize ∧ c.nextPid.2.heap = c.heap := by
      unfold nextPid
      split <;> exact ⟨rfl, rfl⟩
    have hheap : (c.spawnWith self how ctor).heap = Function.update c.heap c.heapSize
        (c.newProcess c.nextPid.1 self how ctor) := by
      simp [spawnWith, construct, hn]
    by_cases ho : o' = c.heapSize
    · subst ho
      refine .created rfl (by simp [hheap, newProcess]) ?_ ⟨ctor, _, by
        simp [cells, hheap, newProcess, RunningProcess.cell]; rfl⟩
      cases how with
      | linkNotify a =>
        exact .inr ⟨a, by simp [cells, hheap, newProcess, RunningProcess.cell], hm a rfl⟩
      | plain => exact .inl (by simp [cells, hheap, newProcess, RunningProcess.cell])
      | link => exact .inl (by simp [cells, hheap, newProcess, RunningProcess.cell])
    · refine .same (by simp [cells, hheap, ho]) fun hb => .inl ?_
      have hroles : (c.table.nextPid).2.roles = c.table.roles := by
        unfold Table.nextPid
        split <;> rfl
      rw [table_spawnWith, Table.construct, hroles]
      exact List.mem_cons_of_mem _ hb
  | addKillOnDie hs p s' => exact .goOn hs (by simp)
  | link hs p hl s' => exact .goOn hs (cells_link hl)
  | kill hs p s' => exact .goOn hs (by simp)
  | newPromise hs owner s' => exact .goOn (d := c.newPromise owner) hs rfl
  | onPromise hs n ha s' => exact .goOn hs (by simp)
  | asyncOp hs h' s' => exact .goOn (d := c.asyncOp _ h') hs rfl
  | @asyncDone role s rest h' s' hs hop => exact .goOn (d := c.asyncDone _ h') hs rfl
  | @started o t role t' rest' self how hs body s' =>
    have hcells : (((c.spawnArgs o body).spawned self how (c.heap o).pid).continueWith role rest'
        s').cells = Function.update c.cells o { c.cells o with task := .code body } :=
      (cells_spawned _ _ _ _).trans
        (cells_setProc_eq c o { c.heap o with life := .running, task := .code body })
    by_cases he : o' = o
    · subst he
      exact .started hs (by rw [hcells, Function.update_self])
    · refine .same (by rw [hcells, Function.update_of_ne he]) fun hb => .inl ?_
      rw [table_continueWith]
      exact mem_roles_rest hs (by simp) hb
  | @ctorThrew o s e role t' rest' hs hop s' =>
    have hcells : (c.ctorFailed o).cells = c.cells := by simp [ctorFailed]
    refine .same (congrFun hcells o') fun hb => .inl ?_
    rw [table_continueWith]
    exact mem_roles_rest hs (by simp) hb
  | leave hs hr => exact .same rfl fun hb => .inl (mem_roles_rest hs (by rintro rfl; simp at hr) hb)
  | @bodyReturned o t rest hs =>
    have hok := (table_leave hs (by simp)).ok ht
    have htable : ({ c with stack := rest }.returned o).table =
        { c with stack := rest }.table.kill (c.heap o).pid := by
      rw [returned, table_addtoDestroy, table_setWaiting]
    have hcells : ({ c with stack := rest }.returned o).cells =
        Function.update c.cells o ((c.cells o).suspend none (c.cells o).task) :=
      (cells_addtoDestroy _ _ _).trans (cells_setWaiting _ _ _ _)
    by_cases he : o' = o
    · subst he
      refine .returned (by simp [roles_top hs]) (fun hl => ?_) (by rw [hcells, Function.update_self])
      exact life_kill hok (o := o') (htable ▸ hl)
    · refine .same (by rw [hcells, Function.update_of_ne he]) fun hb => .inl ?_
      rw [htable, Table.kill_roles]
      exact mem_roles_rest hs (by simp [he]) hb
  | @bodyThrew o t rest hs e =>
    have hok := (table_leave hs (by simp)).ok ht
    have htable : ({ c with stack := rest }.threw o e).table =
        { c with stack := rest }.table.kill (c.heap o).pid := by
      rw [threw, table_addtoDestroy]
    refine .same (congrFun (cells_addtoDestroy _ _ _) o') fun hb => ?_
    by_cases he : o' = o
    · subst he
      exact .inr fun hl => life_kill hok (o := o') (htable ▸ hl)
    · rw [htable, Table.kill_roles]
      exact .inl (mem_roles_rest hs (by simp [he]) hb)
  | @dtorReturned o s rest hs hop =>
    refine .same (congrFun (cells_dropSlots { c with stack := rest } o) o') fun hb => .inl ?_
    rw [destroyed, table_dropPromises, table_dropSlots]
    exact mem_roles_rest hs (by simp) hb
  | escaped hs hr e =>
    exact .same rfl fun hb => .inl (mem_roles_rest hs (by rintro rfl; simp at hr) hb)
  | finish hs hp hn => exact .keep rfl (fun _ => id)
  | take hs hp hq => exact cellStep_take hs hp hq o'
  | toRunOne hs hp hq => exact .keep rfl (fun _ => id)
  | ioReturn ph hs hp => exact .keep rfl (fun _ => id)
  | drained hs hp hr => exact .keep rfl (fun _ => id)
  | run hs hp hst hr => exact cellStep_run hs hp hst hr o'
  | destroy hs hp hd =>
    refine .same (by rw [cells_destroy]; rfl) fun hb => ?_
    simp [table, hs] at hb
  | toLoop hs hp hd => exact .keep rfl (fun _ => id)
  | expire i hl hw => exact .keep rfl (fun _ => id)
  | async i h' hl hh => exact .keep rfl (fun _ => id)

/-! ## The stack after a step -/

@[simp] theorem stack_setPromise (c : Context σ μ) (f : PromiseRef)
    (p : EslangPromise Continuation) : (c.setPromise f p).stack = c.stack := by
  cases f <;> rfl

@[simp] theorem stack_onPromise (c : Context σ μ) (f : PromiseRef)
    (act : EslangPromise Continuation → EslangPromise Continuation × List Continuation) :
    (c.onPromise f act).stack = c.stack := by
  unfold onPromise
  split
  · rfl
  · exact stack_setPromise _ _ _

@[simp] theorem stack_addtoDestroy (c : Context σ μ) (p : Pid) (reason : String) :
    (c.addtoDestroy p reason).stack = c.stack := by
  unfold addtoDestroy
  split <;> rfl

@[simp] theorem stack_suspended (c : Context σ μ) (o : ObjId) (w : Waiting) (t : Coro σ μ) :
    (c.suspended o w t).stack = c.stack := by
  have htimer : ∀ d : Context σ μ, (d.armTimer o w).stack = d.stack := by
    intro d
    unfold armTimer
    split <;> rfl
  unfold suspended arm armFuture
  split
  · rfl
  · split <;> simp [htimer] <;> rfl

@[simp] theorem stack_push (c : Context σ μ) (s : SlotId) (m : MessageBase μ) :
    (c.push s m).stack = c.stack := by
  unfold push
  split <;> rfl

@[simp] theorem stack_dropSlots (c : Context σ μ) (o : ObjId) : (c.dropSlots o).stack = c.stack := by
  refine dropSlots_same stack (fun d s => ?_) c o
  unfold dropSlot
  split <;> rfl

theorem stack_destroy (c : Context σ μ) (dtor : σ → σ) (o : ObjId) (reason : String) :
    ∃ s, (c.destroy dtor o reason).stack = ⟨.dtor o, .code s⟩ :: c.stack := by
  have hkill := killLinked_same stack (fun d p => stack_addtoDestroy d p reason) (c.setLife o .destroyed) o
  have hnote := notifyDeath_same stack (fun _ _ _ => rfl) ((c.setLife o .destroyed).killLinked o reason) o
  have hbegin : ∀ d : Context σ μ, ∃ s, (d.beginDestructor dtor o).stack =
      ⟨.dtor o, .code s⟩ :: d.stack := fun d => ⟨_, rfl⟩
  obtain ⟨s, hs⟩ := hbegin (((c.setLife o .destroyed).killLinked o reason).notifyDeath o)
  exact ⟨s, hs.trans (congrArg _ (hnote.trans hkill))⟩

theorem queue_resume (c : Context σ μ) (o : ObjId) : (c.resume o).queue = c.queue := by
  have hr := resume_resumes c o
  generalize c.resume o = c' at hr ⊢
  cases hr with
  | dead hd => rfl
  | plain hd hf => rfl
  | gone hd hf hp => rfl
  | raised hd hf hp he =>
    unfold addtoDestroy
    split <;> rfl
  | @woken f p p' hd hf hp he => cases f <;> rfl

/-- The io_service without the handler that it is about to run, if it is. -/
def takenIo (c : Context σ μ) : IoService σ :=
  if c.phase = .loop then c.io else { c.io with ready := c.io.ready.tail }

theorem takenIo_loop {c : Context σ μ} (hp : c.phase = .loop) : c.takenIo = c.io := by
  simp [takenIo, hp]

theorem takenIo_run {c : Context σ μ} {d : Handler σ} {ds : List (Handler σ)}
    (hp : c.phase = .runOne ∨ c.phase = .poll) (hr : c.io.ready = d :: ds) :
    c.takenIo = (c.popReady ds).io := by
  rcases hp with hp | hp <;> simp [takenIo, hp, hr, popReady]

/-- How the stack changes in a step. Only a resumed body enters with code of its own; in the loop over
`queue_` an item is taken for it. -/
inductive StackStep (code : Code σ μ) (c c' : Context σ μ) : Prop
  | same (h : c'.stack = c.stack)
  | goOn {role : Role} {t : Coro σ μ} {rest : List (Frame σ μ)} {s : σ}
      (hs : c.stack = ⟨role, t⟩ :: rest) (h : c'.stack = ⟨role, .code s⟩ :: rest)
  | pop {f : Frame σ μ} {rest : List (Frame σ μ)} (hs : c.stack = f :: rest) (h : c'.stack = rest)
      (hr : ∀ o, f.role ≠ .ctor o)
  | call {role : Role} {s ctor : σ} {rest : List (Frame σ μ)} {how : SpawnKind} {k}
      (hs : c.stack = ⟨role, .code s⟩ :: rest)
      (h : c'.stack = ⟨.ctor c.heapSize, .code ctor⟩ :: c.stack)
      (hop : code.op s = .spawn how ctor k) (hc : c' = c.spawnWith role.self how ctor)
  | ret {o : ObjId} {t t' : Coro σ μ} {role : Role} {rest : List (Frame σ μ)} {s : σ}
      (hs : c.stack = ⟨.ctor o, t⟩ :: ⟨role, t'⟩ :: rest) (h : c'.stack = ⟨role, .code s⟩ :: rest)
      (hl : ((c'.heap o).life = .running ∧ ∃ i, c'.queue = c.queue ++ [i]) ∨
        (c'.heap o).life = .failed)
  | resumed {o : ObjId} (hs : c.stack = []) (hw : c.Woken o) (hd : (c.heap o).dead = false)
      (hq : c.phase = .loop → ∃ i, c.queue = i :: c'.queue)
      (h : c'.stack = [⟨.body o, (c.heap o).task⟩]) (hio : c'.io = c.takenIo.cancel o)
      (hc : c'.cells o = (c.cells o).resume)
  | enter {role : Role} {s : σ} (hs : c.stack = [])
      (hr : (∃ o, role = .dtor o) ∨ ∃ owner, role = .handler owner ∧
        ∀ o, owner = some o → (c'.heap o).life ≠ .destroyed)
      (h : c'.stack = [⟨role, .code s⟩])

theorem stackStep_resume {code : Code σ μ} {c d : Context σ μ} {o : ObjId} (hs : c.stack = [])
    (hd : d.stack = c.stack) (hl : (d.heap o).dead = (c.heap o).dead) (hc : d.cells o = c.cells o) (hw : c.Woken o)
    (hq : c.phase = .loop → ∃ i, c.queue = i :: d.queue) (hio : d.io = c.takenIo) :
    StackStep code c (d.resume o) := by
  have ht : (d.heap o).task = (c.heap o).task := congrArg Cell.task hc
  have hr := resume_resumes d o
  rw [← queue_resume d o] at hq
  generalize d.resume o = c' at hr hq ⊢
  have hnil : d.stack = [] := hd.trans hs
  cases hr with
  | dead h => exact .same hd
  | plain h hf =>
    refine .resumed hs hw (hl ▸ h) hq ?_ (hio ▸ rfl) ?_
    · simp [enter, cancelTimer, hnil, ht]
    · rw [cells_enter, Function.update_self, cells_cancelTimer, hc]
  | gone h hf hp => exact .same hd
  | raised h hf hp he => exact .same ((stack_addtoDestroy _ _ _).trans hd)
  | @woken f p p' h hf hp he =>
    refine .resumed hs hw (hl ▸ h) hq ?_ (hio ▸ io_setPromise (d.cancelTimer o) f p') ?_
    · have hheap : ((d.cancelTimer o).setPromise f p').heap = d.heap := by cases f <;> rfl
      have hcancel : (d.cancelTimer o).stack = [] := hnil
      simp [enter, hcancel, hheap, ht]
    · rw [cells_enter, Function.update_self, cells_setPromise, cells_cancelTimer, hc]

theorem heap_push (c : Context σ μ) (s : SlotId) (m : MessageBase μ) :
    (c.push s m).heap = c.heap := by
  unfold push
  split <;> rfl

theorem stackStep_take {code : Code σ μ} {c : Context σ μ} {i : ToProcessItem μ} {q : List (ToProcessItem μ)}
    (hs : c.stack = []) (hp : c.phase = .loop) (hq : c.queue = i :: q) :
    StackStep code c ((c.popFront q).processQueueItem i).1 := by
  cases i with
  | message a m =>
    simp only [processQueueItem]
    split
    next o hf =>
      simp only [send]
      split
      next hw =>
        have hw : (c.popFront q).waitingFor o a.slot = true := by
          simp only [Bool.and_eq_true] at hw
          exact hw.1
        have hheap : ((c.popFront q).push a.slot m).heap = c.heap := heap_push _ _ _
        have hqueue : ((c.popFront q).push a.slot m).queue = q := by
          unfold push
          split <;> rfl
        have hio : ((c.popFront q).push a.slot m).io = c.io := by
          unfold push
          split <;> rfl
        exact stackStep_resume hs (stack_push _ _ _) (by rw [hheap])
          (congrFun (cells_of_heap hheap) o)
          (.message hs hp hq hf hw) (fun _ => ⟨_, by rw [hqueue, hq]⟩)
          (hio.trans (takenIo_loop hp).symm)
      next => exact .same (stack_push _ _ _)
    next => exact .same rfl
  | resume p n =>
    simp only [processQueueItem]
    split
    next o hf =>
      split
      next hn =>
        have hn : (c.heap o).resumes = n := hn
        exact stackStep_resume (d := c.popFront q) hs rfl rfl rfl (.item hs hp (hn ▸ hq) hf)
          (fun _ => ⟨_, hq⟩) (takenIo_loop hp).symm
      next => exact .same rfl
    next => exact .same rfl

theorem stackStep_run {code : Code σ μ} {c : Context σ μ} {d : Handler σ} {ds : List (Handler σ)}
    (hs : c.stack = []) (hp : c.phase = .runOne ∨ c.phase = .poll) (hst : c.io.stopped = false)
    (hr : c.io.ready = d :: ds) : StackStep code c ((c.popReady ds).runHandler d) := by
  have hq : c.phase = .loop → ∃ i, c.queue = i :: (c.popReady ds).queue := by
    intro hl
    simp [hl] at hp
  have hio : (c.popReady ds).io = c.takenIo := (takenIo_run hp hr).symm
  cases d with
  | aborted => exact .same rfl
  | timer o n =>
    simp only [runHandler]
    split
    · exact .same rfl
    · exact stackStep_resume (d := c.popReady ds) hs rfl rfl rfl (.timer hs hp hst hr) hq hio
  | continuation f =>
    simp only [runHandler]
    split
    · exact .same rfl
    · split
      next hn =>
        have hf : f = ⟨f.this, (c.heap f.this).resumes⟩ := by
          rw [show (c.heap f.this).resumes = f.resumes from hn]
        exact stackStep_resume (d := c.popReady ds) hs rfl rfl rfl
          (.continuation hs hp hst (hf ▸ hr)) hq hio
      next => exact .same rfl
  | user owner s =>
    simp only [runHandler]
    split
    · exact .same rfl
    next hn =>
      refine .enter hs (.inr ⟨owner, rfl, fun o ho hl => ?_⟩) rfl
      have hl : ((c.popReady ds).heap o).life = .destroyed := hl
      simp [ho, RunningProcess.freed, hl] at hn

theorem effect_stack {code : Code σ μ} {c c' : Context σ μ} {l : Label} {out : List (Event μ)}
    (he : Effect code c l out c') : StackStep code c c' := by
  cases he with
  | goOn hs s => exact .goOn hs rfl
  | fault f => exact .same rfl
  | send hs hop hm s' => exact .goOn hs rfl
  | suspend hw =>
    obtain ⟨t, hs⟩ := hw.stack
    exact .pop hs (stack_suspended _ _ _ _) (by simp)
  | throttleSend hs ht hc => exact .goOn hs rfl
  | newSlot hs ho s' => exact .goOn hs rfl
  | dropSlot hs hop ho s' => exact .goOn hs rfl
  | getVals hs hop ho s' => exact .goOn hs rfl
  | @spawn role s rest self how ctor k hs hop hm hself =>
    have hn : c.nextPid.2.heapSize = c.heapSize ∧ c.nextPid.2.stack = c.stack := by
      unfold nextPid
      split <;> exact ⟨rfl, rfl⟩
    exact .call hs (by simp [spawnWith, construct, hn]) hop (by rw [hself])
  | addKillOnDie hs p s' => exact .goOn hs rfl
  | link hs p hl s' => exact .goOn hs rfl
  | kill hs p s' => exact .goOn hs rfl
  | newPromise hs owner s' => exact .goOn hs rfl
  | onPromise hs n ha s' => exact .goOn hs rfl
  | asyncOp hs h' s' => exact .goOn hs rfl
  | asyncDone hs hop => exact .goOn hs rfl
  | @started o t role t' rest' self how hs body s' =>
    have hl := congrArg (fun t : Table => t.life o) (table_started hs self how body s')
    refine .ret hs rfl (.inl ⟨hl.trans (by simp [Table.occupy]), .resume (c.heap o).pid 0, ?_⟩)
    simp only [spawned]
    split <;> rfl
  | @ctorThrew o s e role t' rest' hs hop s' =>
    refine .ret hs rfl (.inr ?_)
    have hl := congrArg (fun t : Table => t.life o) (table_ctorThrew hs s')
    exact hl.trans (by simp [Table.abandon])
  | leave hs hr => exact .pop hs rfl (by rintro o rfl; simp at hr)
  | bodyReturned hs => exact .pop hs (stack_addtoDestroy _ _ _) (by simp)
  | bodyThrew hs e => exact .pop hs (stack_addtoDestroy _ _ _) (by simp)
  | @dtorReturned o s rest hs hop =>
    exact .pop hs (stack_dropSlots { c with stack := rest } o) (by simp)
  | escaped hs hr e => exact .pop hs rfl (by rintro o rfl; simp at hr)
  | finish hs hp hn => exact .same rfl
  | take hs hp hq => exact stackStep_take hs hp hq
  | toRunOne hs hp hq => exact .same rfl
  | ioReturn ph hs hp => exact .same rfl
  | drained hs hp hr => exact .same rfl
  | run hs hp hst hr => exact stackStep_run hs hp hst hr
  | @destroy o reason rest hs hp hd =>
    obtain ⟨s, h⟩ := stack_destroy { c with toDestroy := rest } code.dtor o reason
    exact .enter (s := s) hs (.inl ⟨o, rfl⟩) (h.trans (by rw [hs]))
  | toLoop hs hp hd => exact .same rfl
  | expire i hl hw => exact .same rfl
  | async i h' hl hh => exact .same rfl

/-! ## Processes that wait -/

/-- A process that has not been started has never waited. -/
def Unstarted (c : Context σ μ) : Prop :=
  ∀ o, ¬ c.table.Started o → (c.cells o).lastWaiting = none ∧ (c.cells o).resumes = 0

theorem effect_unstarted {code : Code σ μ} {c c' : Context σ μ} {l : Label} {out : List (Event μ)}
    (he : Effect code c l out c') (ht : c.table.Ok) (hr : c.Refs) (h : c.Unstarted) :
    c'.Unstarted := by
  intro o ho
  have hold : ¬ c.table.Started o := fun hs => ho ((step_keeps he ht).started hs)
  have hbody : .body o ∉ c.table.roles := fun hb => hold (hr.body hb)
  cases effect_cell he ht o with
  | same hc hb => rw [hc]; exact h o hold
  | suspend hw he' =>
    obtain ⟨t, hs⟩ := hw.stack
    exact absurd (by simp [roles_top hs]) hbody
  | resumed hw hd hb hc => exact absurd ((effect_refs he ht hr).body hb) ho
  | returned hb hl hc => exact absurd hb hbody
  | created ho' hl hn hc =>
    obtain ⟨ctor, notes, hc⟩ := hc
    rw [hc]
    exact ⟨rfl, rfl⟩
  | started hs hc => rw [hc]; exact h o hold

theorem unstarted_init (main : σ) : (init main : Context σ μ).Unstarted := fun _ _ => ⟨rfl, rfl⟩

/-- A process that is not dead and whose body is not running. -/
def Idle (c : Context σ μ) (o : ObjId) : Prop :=
  (c.heap o).dead = false ∧ .body o ∉ c.table.roles

theorem dead_iff {c : Context σ μ} {o : ObjId} :
    (c.heap o).dead = true ↔ c.table.Started o ∧ (c.heap o).life ≠ .running := by
  show (c.heap o).dead = true ↔ ((c.heap o).life ≠ .constructing ∧ (c.heap o).life ≠ .failed) ∧ _
  cases hl : (c.heap o).life <;> simp [RunningProcess.dead, hl]

theorem dead_forward {c c' : Context σ μ} (hk : Keeps c c') {o : ObjId}
    (h : (c.heap o).dead = true) : (c'.heap o).dead = true := by
  rw [dead_iff] at h ⊢
  exact ⟨hk.started h.1, fun hl => h.2 (hk.running h.1 hl)⟩

/-- How a process that idles after a step came to. -/
inductive IdleStep (code : Code σ μ) (c c' : Context σ μ) (o : ObjId) : Prop
  | same (h : c.Idle o) (hc : c'.cells o = c.cells o)
  | suspend {t : Coro σ μ} {rest : List (Frame σ μ)} {w : Waiting}
      (hw : Awaits code c o rest w t) (he : c' = { c with stack := rest }.suspended o w t)
  | fresh (hl : (c'.cells o).lastWaiting = none) (hn : (c'.cells o).resumes = 0)
      (ht : ∃ s, (c'.cells o).task = .code s)

theorem effect_idle {code : Code σ μ} {c c' : Context σ μ} {l : Label} {out : List (Event μ)}
    (he : Effect code c l out c') (ht : c.table.Ok) (hr : c.Refs) (hu : c.Unstarted) {o : ObjId}
    (h : c'.Idle o) : IdleStep code c c' o := by
  have hk := step_keeps he ht
  cases effect_cell he ht o with
  | same hc hb =>
    refine .same ⟨?_, fun hbody => ?_⟩ hc
    · cases hd : (c.heap o).dead with
      | false => rfl
      | true => rw [← h.1, dead_forward hk hd]
    · have hl := (hb hbody).resolve_left h.2
      have hd := dead_iff.mpr ⟨hk.started (hr.body hbody), hl⟩
      simp [h.1] at hd
  | suspend hw he' => exact .suspend hw he'
  | resumed hw hd hb hc => exact absurd hb h.2
  | returned hb hl hc =>
    have hd := dead_iff.mpr ⟨hk.started (hr.body hb), hl⟩
    simp [h.1] at hd
  | created ho hl hn hc =>
    obtain ⟨ctor, notes, hc⟩ := hc
    exact .fresh (by rw [hc]) (by rw [hc]) ⟨ctor, by rw [hc]⟩
  | @started t rest body hs hc =>
    have hcon : (c.heap o).life = .constructing := ht.ctor (by simp [roles_top hs])
    have hnew := hu o fun hst => hst.1 hcon
    exact .fresh (by rw [hc]; exact hnew.1) (by rw [hc]; exact hnew.2) ⟨body, by rw [hc]⟩

end Context
end Eslang
