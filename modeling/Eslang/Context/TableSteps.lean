import Eslang.Context.Effect
import Eslang.Context.Table

/-! # The context moves its table only by the moves of `Table`

`Context.table` is the table of a context. Most operations leave it alone; the others are exactly
the moves of `Table` (`table_addtoDestroy`, `table_spawnWith`, `table_started`, `table_ctorThrew`,
`table_destroy`), so the invariant of the table holds in every reachable state (`table_ok`). -/
namespace Eslang
set_option autoImplicit false
open Lib

namespace Context
variable {σ μ : Type}

def table (c : Context σ μ) : Table where
  processes := c.processes
  tombstones := c.tombstones
  toDestroy := c.toDestroy.map Prod.fst
  size := c.heapSize
  pid := fun o => (c.heap o).pid
  life := fun o => (c.heap o).life
  roles := c.stack.map Frame.role

/-! ## Operations that leave the table alone -/

theorem findProc_table (c : Context σ μ) (p : Pid) : c.findProc p = c.table.find p := rfl

@[simp] theorem table_fail (c : Context σ μ) (f : Fault) : (c.fail f).table = c.table := rfl

@[simp] theorem table_setQueue (c : Context σ μ) (s : SlotId)
    (q : Option (MessageQueue (MessageBase μ) Continuation)) :
    (c.setQueue s q).table = c.table := rfl

@[simp] theorem table_post (c : Context σ μ) (fs : List Continuation) :
    (c.post fs).table = c.table := rfl

@[simp] theorem table_queueResume (c : Context σ μ) (p : Pid) (n : Nat) :
    (c.queueResume p n).table = c.table := rfl

@[simp] theorem table_queueSend (c : Context σ μ) (a : SendAddress) (m : MessageBase μ) :
    (c.queueSend a m).table = c.table := rfl

theorem field_setProc {β : Type} (g : RunningProcess σ μ → β) (c : Context σ μ) (o : ObjId)
    (p : RunningProcess σ μ) :
    (fun o' => g ((c.setProc o p).heap o')) = Function.update (fun o' => g (c.heap o')) o (g p) :=
  funext fun o' => Function.apply_update (fun _ => g) c.heap o p o'

theorem table_setProc_eq (c : Context σ μ) (o : ObjId) (p : RunningProcess σ μ) :
    (c.setProc o p).table =
      { c.table with
        pid := Function.update c.table.pid o p.pid
        life := Function.update c.table.life o p.life } := by
  simp only [table, field_setProc]
  rfl

theorem table_setProc (c : Context σ μ) {o : ObjId} {p : RunningProcess σ μ}
    (hp : p.pid = (c.heap o).pid) (hl : p.life = (c.heap o).life) :
    (c.setProc o p).table = c.table := by
  rw [table_setProc_eq, hp, hl]
  simp [table]

@[simp] theorem table_setPromise (c : Context σ μ) (f : PromiseRef)
    (p : EslangPromise Continuation) : (c.setPromise f p).table = c.table := by
  cases f <;> rfl

@[simp] theorem table_onPromise (c : Context σ μ) (f : PromiseRef)
    (act : EslangPromise Continuation → EslangPromise Continuation × List Continuation) :
    (c.onPromise f act).table = c.table := by
  unfold onPromise
  split <;> simp

@[simp] theorem table_push (c : Context σ μ) (s : SlotId) (m : MessageBase μ) :
    (c.push s m).table = c.table := by
  unfold push
  split <;> simp

@[simp] theorem table_getOptional (c : Context σ μ) (s : SlotId) :
    (c.getOptional s).2.table = c.table := by
  unfold getOptional
  split
  · rfl
  · split <;> simp

@[simp] theorem table_getVals (c : Context σ μ) (ss : List SlotId) :
    (c.getVals ss).2.table = c.table := by
  induction ss generalizing c with
  | nil => rfl
  | cons s ss ih => simp [getVals, ih]

@[simp] theorem table_dropSlot (c : Context σ μ) (s : SlotId) : (c.dropSlot s).table = c.table := by
  unfold dropSlot
  split <;> simp

@[simp] theorem table_dropSlots (c : Context σ μ) (o : ObjId) :
    (c.dropSlots o).table = c.table := dropSlots_same table table_dropSlot c o

@[simp] theorem table_dropPromises (c : Context σ μ) (o : ObjId) :
    (c.dropPromises o).table = c.table := rfl

@[simp] theorem table_addKillOnDie (c : Context σ μ) (o : ObjId) (p : Pid) :
    (c.addKillOnDie o p).table = c.table := table_setProc c rfl rfl

theorem table_link {c c' : Context σ μ} {o : ObjId} {p : Pid} (hl : c.link o p = .ok c') :
    c'.table = c.table := by
  unfold link at hl
  split at hl <;> cases hl
  simp

@[simp] theorem table_armTimer (c : Context σ μ) (o : ObjId) (w : Waiting) :
    (c.armTimer o w).table = c.table := by
  unfold armTimer
  split <;> rfl

@[simp] theorem table_armFuture (c : Context σ μ) (o : ObjId) (w : Waiting) :
    (c.armFuture o w).table = c.table := by
  unfold armFuture
  split <;> simp

@[simp] theorem table_setWaiting (c : Context σ μ) (o : ObjId) (w : Option Waiting)
    (t : Coro σ μ) : (c.setWaiting o w t).table = c.table := table_setProc c rfl rfl

@[simp] theorem table_suspended (c : Context σ μ) (o : ObjId) (w : Waiting) (t : Coro σ μ) :
    (c.suspended o w t).table = c.table := by
  unfold suspended arm
  split <;> simp

@[simp] theorem table_spawned (c : Context σ μ) (self : Option ObjId) (how : SpawnKind) (p : Pid) :
    (c.spawned self how p).table = c.table := by
  unfold spawned
  split <;> simp

theorem table_newSlot (c : Context σ μ) (role : Role) (o : ObjId) :
    (c.newSlot role o).table = c.table := by
  unfold newSlot
  split
  · exact table_setProc _ rfl rfl
  · rfl

theorem table_continueWith (c : Context σ μ) (role : Role) (rest : List (Frame σ μ)) (s : σ) :
    (c.continueWith role rest s).table =
      { c.table with roles := role :: rest.map Frame.role } := rfl

theorem table_goOn {c d : Context σ μ} {role : Role} {t : Coro σ μ} {rest : List (Frame σ μ)}
    (hs : c.stack = ⟨role, t⟩ :: rest) (h : d.table = c.table) (s : σ) :
    (d.continueWith role rest s).table = c.table := by
  rw [table_continueWith, h]
  simp [table, hs]

/-! ## Operations that move the table -/

@[simp] theorem table_addtoDestroy (c : Context σ μ) (p : Pid) (reason : String) :
    (c.addtoDestroy p reason).table = c.table.kill p := by
  cases hf : c.table.find p with
  | none => rw [Table.kill_of_none hf, addtoDestroy, findProc_table, hf]
  | some o =>
    have h := table_setProc_eq c o { c.heap o with life := .killed }
    rw [Table.kill_of_some hf, addtoDestroy, findProc_table, hf]
    simp only [table, setProc, Table.mk.injEq] at h ⊢
    obtain ⟨-, -, -, -, hp, hl, -⟩ := h
    simp [hp, hl]

theorem table_enter (c : Context σ μ) (o : ObjId) :
    (c.enter o).table = { c.table with roles := .body o :: c.table.roles } := by
  have h := table_setProc c (o := o) (p := { c.heap o with resumes := (c.heap o).resumes + 1 })
    rfl rfl
  simp only [table, enter, setProc, Table.mk.injEq] at h ⊢
  simp [h]

theorem table_enter_moves {c : Context σ μ} {o : ObjId} (ho : (c.heap o).life ≠ .destroyed) :
    c.table.Moves (c.enter o).table := by
  rw [table_enter]
  refine .single (.roles (fun o' => by simp) fun o' hb => ?_)
  rcases List.mem_cons.mp hb with hb | hb
  · cases hb
    exact .inr ho
  · exact .inl hb

theorem table_resume_moves (c : Context σ μ) (o : ObjId) : c.table.Moves (c.resume o).table := by
  have hr := resume_resumes c o
  generalize c.resume o = c' at hr ⊢
  cases hr with
  | dead hd => exact .refl
  | plain hd hf => exact table_enter_moves (c := c.cancelTimer o) (not_dead hd).2
  | gone hd hf hp => exact .refl
  | raised hd hf hp he =>
    rw [table_addtoDestroy]
    exact .single (.kill _)
  | @woken f p p' hd hf hp he =>
    have hm : (c.cancelTimer o).table.Moves (((c.cancelTimer o).setPromise f p').enter o).table := by
      rw [← table_setPromise (c.cancelTimer o) f p']
      apply table_enter_moves
      cases f <;> exact (not_dead hd).2
    exact hm

theorem table_send_moves (c : Context σ μ) (o : ObjId) (a : SendAddress) (m : MessageBase μ) :
    c.table.Moves (c.send o a m).table := by
  unfold send
  split
  · rw [← table_push c a.slot m]
    exact table_resume_moves _ o
  · rw [table_push]

theorem table_processQueueItem_moves (c : Context σ μ) (i : ToProcessItem μ) :
    c.table.Moves (c.processQueueItem i).1.table := by
  cases i with
  | message a m =>
    simp only [processQueueItem]
    split
    · exact table_send_moves c _ a m
    · exact .refl
  | resume p n =>
    simp only [processQueueItem]
    split
    · split
      · exact table_resume_moves c _
      · exact .refl
    · exact .refl

theorem table_runHandler_moves {c : Context σ μ} (hs : c.stack = []) (d : Handler σ) :
    c.table.Moves (c.runHandler d).table := by
  cases d with
  | aborted => exact .refl
  | timer o n =>
    simp only [runHandler]
    split
    · exact .refl
    · exact table_resume_moves c o
  | continuation f =>
    simp only [runHandler]
    split
    · exact .refl
    · split
      · exact table_resume_moves c _
      · exact .refl
  | user owner s =>
    simp only [runHandler]
    split
    · exact .refl
    · exact .single (.roles (t := c.table) (fun o => by simp [table, hs]) (fun o hb => by simp at hb))

theorem table_nextPid (c : Context σ μ) :
    c.nextPid.1 = c.table.nextPid.1 ∧ c.nextPid.2.table = c.table.nextPid.2 := by
  unfold nextPid Table.nextPid
  cases ht : c.tombstones <;> simp [table, ht]

theorem table_construct (c : Context σ μ) (proc : RunningProcess σ μ) (ctor : σ)
    (hl : proc.life = .constructing) : (c.construct proc ctor).table = c.table.construct proc.pid := by
  have h := table_setProc_eq c c.heapSize proc
  simp only [table, setProc, construct, Table.construct, Table.mk.injEq] at h ⊢
  obtain ⟨-, -, -, -, hp, hl', -⟩ := h
  simp [hp, hl', hl]

theorem table_spawnWith (c : Context σ μ) (self : Option ObjId) (how : SpawnKind) (ctor : σ) :
    (c.spawnWith self how ctor).table = c.table.nextPid.2.construct c.table.nextPid.1 := by
  obtain ⟨h1, h2⟩ := table_nextPid c
  rw [spawnWith, table_construct _ _ _ rfl, h2, ← h1]
  rfl

theorem table_started {c : Context σ μ} {o : ObjId} {t t' : Coro σ μ} {role : Role}
    {rest' : List (Frame σ μ)} (hs : c.stack = ⟨.ctor o, t⟩ :: ⟨role, t'⟩ :: rest')
    (self : Option ObjId) (how : SpawnKind) (body s' : σ) :
    (((c.spawnArgs o body).spawned self how (c.heap o).pid).continueWith role rest' s').table =
      c.table.occupy o := by
  have h := table_setProc_eq c o { c.heap o with life := .running, task := .code body }
  rw [table_continueWith, table_spawned, spawnArgs, table_queueResume]
  simp only [table, setProc, occupy, Table.occupy, Table.mk.injEq] at h ⊢
  obtain ⟨-, -, -, -, hp, hl, -⟩ := h
  simp [hp, hl, hs]

theorem table_setLife (c : Context σ μ) (o : ObjId) (l : Life) :
    (c.setLife o l).table = { c.table with life := Function.update c.table.life o l } := by
  rw [setLife, table_setProc_eq]
  simp [table]

theorem table_ctorThrew {c : Context σ μ} {o : ObjId} {t t' : Coro σ μ} {role : Role}
    {rest' : List (Frame σ μ)} (hs : c.stack = ⟨.ctor o, t⟩ :: ⟨role, t'⟩ :: rest') (s' : σ) :
    ((c.ctorFailed o).continueWith role rest' s').table = c.table.abandon o := by
  rw [table_continueWith, ctorFailed, table_dropPromises, table_dropSlots, table_setLife]
  simp [table, Table.abandon, hs]

theorem table_kills (c : Context σ μ) (ps : List Pid) (reason : String) :
    (ps.foldl (fun c p => c.addtoDestroy p reason) c).table = ps.foldl Table.kill c.table := by
  induction ps generalizing c with
  | nil => rfl
  | cons p ps ih => simp [ih]

@[simp] theorem table_notifyDeath (c : Context σ μ) (o : ObjId) :
    (c.notifyDeath o).table = c.table := notifyDeath_same table (fun _ _ _ => rfl) c o

theorem table_destroy (c : Context σ μ) (dtor : σ → σ) (o : ObjId) (reason : String)
    {rest : List (ObjId × String)} (hd : c.toDestroy = (o, reason) :: rest) :
    ({ c with toDestroy := rest }.destroy dtor o reason).table =
      let t := (c.heap o).killOnDie.foldl Table.kill (c.table.destroy o)
      { t with roles := .dtor o :: t.roles } := by
  have hlife : ({ c with toDestroy := rest }.setLife o .destroyed).table = c.table.destroy o := by
    rw [table_setLife]
    simp [table, Table.destroy, hd]
  have hkill : ((({ c with toDestroy := rest }.setLife o .destroyed).killLinked o
      reason).notifyDeath o).table = (c.heap o).killOnDie.foldl Table.kill (c.table.destroy o) := by
    rw [table_notifyDeath, killLinked, table_kills, hlife]
    simp [setLife, setProc]
  rw [destroy, ← hkill]
  rfl

/-! ## The invariant in every reachable state -/

theorem table_kill_goOn {c : Context σ μ} {role : Role} {t : Coro σ μ} {rest : List (Frame σ μ)}
    (hs : c.stack = ⟨role, t⟩ :: rest) (p : Pid) (s : σ) :
    ((c.addtoDestroy p "").continueWith role rest s).table = c.table.kill p := by
  rw [table_continueWith, table_addtoDestroy]
  have : role :: rest.map Frame.role = (c.table.kill p).roles := by simp [table, hs]
  rw [this]

theorem table_leave {c : Context σ μ} {role : Role} {t : Coro σ μ} {rest : List (Frame σ μ)}
    (hs : c.stack = ⟨role, t⟩ :: rest) (hr : ∀ o, role ≠ .ctor o) :
    c.table.Move { c with stack := rest }.table := by
  show c.table.Move { c.table with roles := rest.map Frame.role }
  refine .roles (fun o => ?_) (fun o hb => ?_)
  · simp [table, hs, hr o]
  · exact .inl (by simp [table, hs] at hb ⊢; exact .inr hb)

theorem roles_top {c : Context σ μ} {role : Role} {t : Coro σ μ} {rest : List (Frame σ μ)}
    (hs : c.stack = ⟨role, t⟩ :: rest) : c.table.roles = role :: rest.map Frame.role := by
  simp [table, hs]

theorem toDestroy_top {c : Context σ μ} {o : ObjId} {reason : String}
    {rest : List (ObjId × String)} (hd : c.toDestroy = (o, reason) :: rest) :
    c.table.toDestroy = o :: rest.map Prod.fst := by
  simp [table, hd]

/-- One step moves the table by moves of `Table`; the `toDestroy_` loop first takes a process off
`toDestroy_`, and a constructor that throws abandons its process. -/
inductive TableStep (code : Code σ μ) (c c' : Context σ μ) : Prop
  | moves (h : c.table.Moves c'.table)
  | abandon {o : ObjId} {s : σ} {e : String} {rest : List (Frame σ μ)}
      (hs : c.stack = ⟨.ctor o, .code s⟩ :: rest) (hop : code.op s = .throw e)
      (h : c'.table = c.table.abandon o)
  | destroy {o : ObjId} {reason : String} {rest : List (ObjId × String)} (hs : c.stack = [])
      (hp : c.phase = .destroying) (hd : c.toDestroy = (o, reason) :: rest)
      (h : (c.table.destroy o).Moves c'.table)

theorem TableStep.same {code : Code σ μ} {c c' : Context σ μ} (h : c'.table = c.table) :
    TableStep code c c' :=
  .moves (h ▸ .refl)

theorem TableStep.move {code : Code σ μ} {c c' : Context σ μ} (h : c.table.Move c'.table) :
    TableStep code c c' :=
  .moves (.single h)

theorem effect_tableStep {code : Code σ μ} {c c' : Context σ μ} {l : Label} {out : List (Event μ)}
    (he : Effect code c l out c') : TableStep code c c' := by
  cases he with
  | goOn hs s => exact .same (table_goOn hs rfl s)
  | fault f => exact .same rfl
  | send hs hop hm s' => exact .same (table_goOn hs (by simp) s')
  | suspend hw =>
    obtain ⟨t, hs⟩ := hw.stack
    exact .move (by simpa using table_leave hs (by simp))
  | throttleSend hs ht hc => exact .same (table_goOn hs (by simp) _)
  | newSlot hs ho s' => exact .same (table_goOn hs (table_newSlot _ _ _) s')
  | dropSlot hs hop ho s' => exact .same (table_goOn hs (by simp) s')
  | getVals hs hop ho s' => exact .same (table_goOn hs (by simp) s')
  | spawn hs hop hm => exact .move (table_spawnWith c _ _ _ ▸ .spawn)
  | addKillOnDie hs p s' => exact .same (table_goOn hs (by simp) s')
  | link hs p hl s' => exact .same (table_goOn hs (table_link hl) s')
  | kill hs p s' => exact .move (table_kill_goOn hs p s' ▸ .kill p)
  | newPromise hs owner s' => exact .same (table_goOn (d := c.newPromise owner) hs rfl s')
  | onPromise hs n ha s' => exact .same (table_goOn hs (by simp) s')
  | asyncOp hs h' s' => exact .same (table_goOn (d := c.asyncOp _ h') hs rfl s')
  | @asyncDone role s rest h' s' hs hop => exact .same (table_goOn (d := c.asyncDone _ h') hs rfl s')
  | started hs body s' => exact .move (table_started hs _ _ body s' ▸ .occupy (roles_top hs))
  | ctorThrew hs hop s' => exact .abandon hs hop (table_ctorThrew hs s')
  | leave hs hr => exact .move (table_leave hs (by rintro o rfl; simp at hr))
  | bodyReturned hs =>
    refine .moves (.tail (.single (table_leave hs (by simp))) ?_)
    rw [returned, table_addtoDestroy, table_setWaiting]
    exact .kill _
  | bodyThrew hs e =>
    refine .moves (.tail (.single (table_leave hs (by simp))) ?_)
    rw [threw, table_addtoDestroy]
    exact .kill _
  | dtorReturned hs hop =>
    refine .move ?_
    rw [destroyed, table_dropPromises, table_dropSlots]
    exact table_leave hs (by simp)
  | escaped hs hr e => exact .move (table_leave hs (by rintro o rfl; simp at hr))
  | finish hs hp hn => exact .same rfl
  | take hs hp hq => exact .moves (table_processQueueItem_moves (c.popFront _) _)
  | toRunOne hs hp hq => exact .same rfl
  | ioReturn ph hs hp => exact .same rfl
  | drained hs hp hr => exact .same rfl
  | run hs hp hst hr => exact .moves (table_runHandler_moves (c := c.popReady _) hs _)
  | destroy hs hp hd =>
    refine .destroy hs hp hd ?_
    rw [table_destroy c _ _ _ hd]
    refine .tail (Table.Moves.kills _) (.roles (fun o' => by simp) fun o' hb => ?_)
    exact .inl (by simpa using hb)
  | toLoop hs hp hd => exact .same rfl
  | expire i hl hw => exact .same rfl
  | async i h' hl hh => exact .same rfl

theorem TableStep.ok {code : Code σ μ} {c c' : Context σ μ} (h : TableStep code c c')
    (ht : c.table.Ok) : c'.table.Ok := by
  cases h with
  | moves h => exact h.ok ht
  | abandon hs hop h => exact h ▸ Table.abandon_ok ht (roles_top hs)
  | destroy hs hp hd h =>
    exact h.ok (Table.destroy_ok ht (toDestroy_top hd) (by simp [table, hs]))

/-! ### What a step keeps -/

/-- The next step takes `o` off `toDestroy_` and destroys it. -/
def Destroys (c : Context σ μ) (o : ObjId) : Prop :=
  c.stack = [] ∧ c.phase = .destroying ∧ c.toDestroy.head?.map Prod.fst = some o

/-- What a step leaves of the table: `Table.Keeps`, but for the process it destroys. -/
structure Keeps (c c' : Context σ μ) : Prop where
  size : c.heapSize ≤ c'.heapSize
  pid : ∀ {o}, o < c.heapSize → (c'.heap o).pid = (c.heap o).pid
  started : ∀ {o}, c.table.Started o → c'.table.Started o
  running : ∀ {o}, c.table.Started o → (c'.heap o).life = .running → (c.heap o).life = .running
  failed : ∀ {o}, o < c.heapSize → (c.heap o).life = .failed → (c'.heap o).life = .failed
  destroyed : ∀ {o}, (c'.heap o).life = .destroyed → (c.heap o).life = .destroyed ∨ c.Destroys o
  gone : ∀ {o}, (c.heap o).life = .destroyed → (c'.heap o).life = .destroyed

theorem keeps_of_table {c c' : Context σ μ} (hk : c.table.Keeps c'.table) : Keeps c c' :=
  ⟨hk.size, hk.pid, hk.started, hk.running, hk.failed, fun hl => .inl (hk.destroyed.mp hl),
    hk.destroyed.mpr⟩

theorem TableStep.keeps {code : Code σ μ} {c c' : Context σ μ} (h : TableStep code c c')
    (ht : c.table.Ok) : Keeps c c' := by
  cases h with
  | moves h => exact keeps_of_table (h.keeps ht)
  | abandon hs hop h => exact keeps_of_table (h ▸ Table.abandon_keeps ht (roles_top hs))
  | @destroy d reason rest hs hp hd h =>
    have htop := toDestroy_top hd
    have hk := h.keeps (Table.destroy_ok ht htop (by simp [table, hs]))
    have hlife : ∀ {o}, o ≠ d → (c.table.destroy d).life o = (c.heap o).life := fun {o} ho => by
      simp [Table.destroy, table, ho]
    refine ⟨hk.size, hk.pid, fun {o} ho => hk.started ?_, fun {o} ho hr => ?_,
      fun {o} ho hf => hk.failed ho ?_, fun {o} hl => ?_, fun {o} hl => hk.destroyed.mpr ?_⟩
    · by_cases he : o = d
      · simp [Table.Started, Table.destroy, he]
      · rwa [Table.Started, hlife he]
    · by_cases he : o = d
      · have : (c'.heap d).life = .destroyed := hk.destroyed.mpr (by simp [Table.destroy])
        simp [he, this] at hr
      · rw [← hlife he]
        exact hk.running (by rwa [Table.Started, hlife he]) hr
    · have he : o ≠ d := by
        rintro rfl
        have hdoom := ht.doomed (o := o) (by simp [htop])
        exact absurd (hf.symm.trans hdoom) (by simp)
      rwa [hlife he]
    · by_cases he : o = d
      · exact .inr ⟨hs, hp, by simp [hd, he]⟩
      · exact .inl (hlife he ▸ hk.destroyed.mp hl)
    · by_cases he : o = d
      · simp [Table.destroy, he]
      · rwa [hlife he]

theorem Keeps.alive {c c' : Context σ μ} (h : Keeps c c') {o : ObjId} (ho : o < c.heapSize)
    (hl : (c'.heap o).life = .constructing ∨ (c'.heap o).life = .running) :
    (c.heap o).life = .constructing ∨ (c.heap o).life = .running := by
  by_cases hs : c.table.Started o
  · rcases hl with hl | hl
    · exact absurd hl (h.started hs).1
    · exact .inr (h.running hs hl)
  · simp only [Table.Started, not_and_or, not_not] at hs
    rcases hs with hs | hs
    · exact .inl hs
    · have hf := h.failed ho hs
      simp [hf] at hl

theorem step_keeps {code : Code σ μ} {c c' : Context σ μ} {l : Label} {out : List (Event μ)}
    (he : Effect code c l out c') (ht : c.table.Ok) : Keeps c c' :=
  (effect_tableStep he).keeps ht

theorem table_init (main : σ) : (init main : Context σ μ).table.Ok := by
  refine ⟨?_, ?_, ?_, ?_, ?_, ?_, ?_, ?_, ?_, ?_, ?_, ?_, ?_⟩ <;> simp [init, table]

/-! ## When processes are made -/

theorem heapSize_resume (c : Context σ μ) (o : ObjId) : (c.resume o).heapSize = c.heapSize := by
  have hr := resume_resumes c o
  generalize c.resume o = c' at hr ⊢
  cases hr with
  | dead hd => rfl
  | plain hd hf => rfl
  | gone hd hf hp => rfl
  | raised hd hf hp he =>
    exact congrArg Table.size (table_addtoDestroy _ _ _) |>.trans (Table.kill_size _)
  | woken hd hf hp he => exact congrArg Table.size (table_setPromise _ _ _)

theorem heapSize_processQueueItem (c : Context σ μ) (i : ToProcessItem μ) :
    (c.processQueueItem i).1.heapSize = c.heapSize := by
  have hpush : ∀ s m, (c.push s m).heapSize = c.heapSize := fun s m =>
    congrArg Table.size (table_push c s m)
  cases i with
  | message a m =>
    simp only [processQueueItem]
    split
    next o hf =>
      simp only [send]
      split
      · exact (heapSize_resume _ o).trans (hpush _ _)
      · exact hpush _ _
    next => rfl
  | resume p n =>
    simp only [processQueueItem]
    split
    next o hf =>
      split
      · exact heapSize_resume c o
      · rfl
    next => rfl

theorem heapSize_runHandler (c : Context σ μ) (d : Handler σ) :
    (c.runHandler d).heapSize = c.heapSize := by
  cases d with
  | aborted => rfl
  | user owner s =>
    simp only [runHandler]
    split <;> rfl
  | timer o n =>
    simp only [runHandler]
    split
    · rfl
    · exact heapSize_resume _ o
  | continuation f =>
    simp only [runHandler]
    split
    · rfl
    · split
      · exact heapSize_resume _ f.this
      · rfl

theorem heapSize_destroy (c : Context σ μ) (dtor : σ → σ) (o : ObjId) (reason : String) :
    (c.destroy dtor o reason).heapSize = c.heapSize := by
  have hone : ∀ (d : Context σ μ) p, (d.addtoDestroy p reason).heapSize = d.heapSize := fun d p =>
    (congrArg Table.size (table_addtoDestroy d p reason)).trans (Table.kill_size p)
  have hkill := killLinked_same heapSize hone (c.setLife o .destroyed) o
  have hnote := notifyDeath_same heapSize (fun _ _ _ => rfl) ((c.setLife o .destroyed).killLinked o reason) o
  exact hnote.trans hkill

/-- A step makes a process only by calling `spawn`, and then it enters the constructor. -/
theorem effect_size {code : Code σ μ} {c c' : Context σ μ} {l : Label} {out : List (Event μ)}
    (he : Effect code c l out c') :
    c'.heapSize = c.heapSize ∨
      c'.heapSize = c.heapSize + 1 ∧ c'.stack.map Frame.role = .ctor c.heapSize :: c.stack.map Frame.role := by
  have hsame : ∀ {d : Context σ μ}, d.table = c.table → d.heapSize = c.heapSize := congrArg Table.size
  have hkill : ∀ (d : Context σ μ) p reason, (d.addtoDestroy p reason).heapSize = d.heapSize :=
    fun d p reason => (congrArg Table.size (table_addtoDestroy d p reason)).trans (Table.kill_size p)
  cases he with
  | suspend hw => exact .inl (congrArg Table.size (table_suspended _ _ _ _))
  | newSlot hs ho s' => exact .inl (hsame (d := c.newSlot _ _) (table_newSlot _ _ _))
  | dropSlot hs hop ho s' => exact .inl (hsame (d := c.dropSlot _) (table_dropSlot _ _))
  | getVals hs hop ho s' => exact .inl (hsame (d := (c.getVals _).2) (table_getVals _ _))
  | spawn hs hop hm hself =>
    have hn : c.nextPid.2.heapSize = c.heapSize ∧ c.nextPid.2.stack = c.stack := by
      unfold nextPid
      split <;> exact ⟨rfl, rfl⟩
    exact .inr ⟨by simp [spawnWith, construct, hn], by simp [spawnWith, construct, hn]⟩
  | @link role s rest k o d hs p hl s' => exact .inl (hsame (d := d) (table_link hl))
  | kill hs p s' => exact .inl (hkill _ _ _)
  | onPromise hs n ha s' => exact .inl (hsame (d := c.onPromise _ _) (table_onPromise _ _ _))
  | started hs body s' => exact .inl (congrArg Table.size (table_started hs _ _ body s'))
  | ctorThrew hs hop s' => exact .inl (congrArg Table.size (table_ctorThrew hs s'))
  | bodyReturned hs => exact .inl (hkill _ _ _)
  | bodyThrew hs e => exact .inl (hkill _ _ _)
  | dtorReturned hs hop => exact .inl (congrArg Table.size (table_dropSlots { c with stack := _ } _))
  | take hs hp hq => exact .inl (heapSize_processQueueItem _ _)
  | run hs hp hst hr => exact .inl (heapSize_runHandler _ _)
  | destroy hs hp hd => exact .inl (heapSize_destroy _ _ _ _)
  | _ => exact .inl rfl

end Context
end Eslang
