import Eslang.Context.Wakes

/-! # Every process that is named has been allocated

The state names processes in many places: the owners of slots, the handlers and asynchronous
operations of the io_service, the stack, the wake-ups. `Refs` says that all of these were allocated,
and that a body on the stack and a wake-up belong to a process whose constructor has returned. The
part of it that only grows when code makes a slot or starts an asynchronous operation is collected
in `names`, which every other operation leaves alone. -/
namespace Eslang
set_option autoImplicit false
open Lib

def Handler.user? {σ : Type} : Handler σ → Option (Option ObjId × σ)
  | user owner h => some (owner, h)
  | timer _ _ | aborted | continuation _ => none

structure Names (σ : Type) where
  slotCount : Nat
  owner : SlotId → ObjId
  asyncs : List (Option ObjId × σ)
  users : List (Option ObjId × σ)

namespace Context
variable {σ μ : Type}

def names (c : Context σ μ) : Names σ where
  slotCount := c.slotCount
  owner := fun s => (c.slots s).owner
  asyncs := c.io.asyncs
  users := c.io.ready.filterMap Handler.user?

/-! ## Operations that leave the names alone -/

@[simp] theorem names_fail (c : Context σ μ) (f : Fault) : (c.fail f).names = c.names := rfl

@[simp] theorem names_setProc (c : Context σ μ) (o : ObjId) (p : RunningProcess σ μ) :
    (c.setProc o p).names = c.names := rfl

@[simp] theorem names_queueResume (c : Context σ μ) (p : Pid) (n : Nat) :
    (c.queueResume p n).names = c.names := rfl

@[simp] theorem names_queueSend (c : Context σ μ) (a : SendAddress) (m : MessageBase μ) :
    (c.queueSend a m).names = c.names := rfl

@[simp] theorem names_continueWith (c : Context σ μ) (role : Role) (rest : List (Frame σ μ)) (s : σ) :
    (c.continueWith role rest s).names = c.names := rfl

@[simp] theorem names_setLife (c : Context σ μ) (o : ObjId) (l : Life) :
    (c.setLife o l).names = c.names := rfl

@[simp] theorem names_enter (c : Context σ μ) (o : ObjId) : (c.enter o).names = c.names := rfl

@[simp] theorem names_setWaiting (c : Context σ μ) (o : ObjId) (w : Option Waiting) (t : Coro σ μ) :
    (c.setWaiting o w t).names = c.names := rfl

@[simp] theorem names_newPromise (c : Context σ μ) (owner : Option ObjId) :
    (c.newPromise owner).names = c.names := rfl

@[simp] theorem names_dropPromises (c : Context σ μ) (o : ObjId) :
    (c.dropPromises o).names = c.names := rfl

@[simp] theorem names_addKillOnDie (c : Context σ μ) (o : ObjId) (p : Pid) :
    (c.addKillOnDie o p).names = c.names := rfl

@[simp] theorem names_construct (c : Context σ μ) (proc : RunningProcess σ μ) (ctor : σ) :
    (c.construct proc ctor).names = c.names := rfl

@[simp] theorem names_spawnArgs (c : Context σ μ) (o : ObjId) (body : σ) :
    (c.spawnArgs o body).names = c.names := rfl

@[simp] theorem names_popFront (c : Context σ μ) (q : List (ToProcessItem μ)) :
    (c.popFront q).names = c.names := rfl

@[simp] theorem names_setQueue (c : Context σ μ) (s : SlotId)
    (q : Option (MessageQueue (MessageBase μ) Continuation)) :
    (c.setQueue s q).names = c.names := by
  have : (fun s' => ((c.setQueue s q).slots s').owner) = fun s' => (c.slots s').owner := by
    funext s'
    by_cases h : s' = s <;> simp [setQueue, h]
  simp only [names, this]
  rfl

theorem users_continuations (fs : List Continuation) :
    (fs.map (Handler.continuation (σ := σ))).filterMap Handler.user? = [] := by
  simp [Handler.user?]

theorem users_aborted (ws : List TimerWait) :
    (ws.map fun _ => Handler.aborted (σ := σ)).filterMap Handler.user? = [] := by
  simp [Handler.user?]

@[simp] theorem names_post (c : Context σ μ) (fs : List Continuation) :
    (c.post fs).names = c.names := by
  simp only [names, post, IoService.post, List.filterMap_append, users_continuations, List.append_nil]

@[simp] theorem names_cancelTimer (c : Context σ μ) (o : ObjId) :
    (c.cancelTimer o).names = c.names := by
  simp only [names, cancelTimer, IoService.cancel, List.filterMap_append, users_aborted,
    List.append_nil]

@[simp] theorem names_setPromise (c : Context σ μ) (f : PromiseRef)
    (p : EslangPromise Continuation) : (c.setPromise f p).names = c.names := by
  cases f with
  | throttle s => simp [setPromise]
  | user n => rfl

@[simp] theorem names_onPromise (c : Context σ μ) (f : PromiseRef)
    (act : EslangPromise Continuation → EslangPromise Continuation × List Continuation) :
    (c.onPromise f act).names = c.names := by
  unfold onPromise
  split <;> simp

@[simp] theorem names_push (c : Context σ μ) (s : SlotId) (m : MessageBase μ) :
    (c.push s m).names = c.names := by
  unfold push
  split <;> simp

@[simp] theorem names_getOptional (c : Context σ μ) (s : SlotId) :
    (c.getOptional s).2.names = c.names := by
  unfold getOptional
  split
  · rfl
  · split <;> simp

@[simp] theorem names_getVals (c : Context σ μ) (ss : List SlotId) :
    (c.getVals ss).2.names = c.names := by
  induction ss generalizing c with
  | nil => rfl
  | cons s ss ih => simp [getVals, ih]

@[simp] theorem names_dropSlot (c : Context σ μ) (s : SlotId) : (c.dropSlot s).names = c.names := by
  unfold dropSlot
  split <;> simp

@[simp] theorem names_dropSlots (c : Context σ μ) (o : ObjId) : (c.dropSlots o).names = c.names :=
  dropSlots_same names names_dropSlot c o

theorem names_link {c c' : Context σ μ} {o : ObjId} {p : Pid} (hl : c.link o p = .ok c') :
    c'.names = c.names := by
  unfold link at hl
  split at hl <;> cases hl
  rfl

@[simp] theorem names_armTimer (c : Context σ μ) (o : ObjId) (w : Waiting) :
    (c.armTimer o w).names = c.names := by
  unfold armTimer
  split
  · rfl
  · exact names_cancelTimer c o

@[simp] theorem names_armFuture (c : Context σ μ) (o : ObjId) (w : Waiting) :
    (c.armFuture o w).names = c.names := by
  unfold armFuture
  split <;> simp

@[simp] theorem names_suspended (c : Context σ μ) (o : ObjId) (w : Waiting) (t : Coro σ μ) :
    (c.suspended o w t).names = c.names := by
  unfold suspended arm
  split <;> simp

@[simp] theorem names_spawned (c : Context σ μ) (self : Option ObjId) (how : SpawnKind) (p : Pid) :
    (c.spawned self how p).names = c.names := by
  unfold spawned
  split <;> rfl

@[simp] theorem names_addtoDestroy (c : Context σ μ) (p : Pid) (reason : String) :
    (c.addtoDestroy p reason).names = c.names := by
  unfold addtoDestroy
  split <;> rfl

@[simp] theorem names_spawnWith (c : Context σ μ) (self : Option ObjId) (how : SpawnKind)
    (ctor : σ) : (c.spawnWith self how ctor).names = c.names := by
  unfold spawnWith nextPid
  split <;> rfl

@[simp] theorem names_resume (c : Context σ μ) (o : ObjId) : (c.resume o).names = c.names := by
  have hr := resume_resumes c o
  generalize c.resume o = c' at hr ⊢
  cases hr <;> simp

@[simp] theorem names_processQueueItem (c : Context σ μ) (i : ToProcessItem μ) :
    (c.processQueueItem i).1.names = c.names := by
  cases i with
  | message a m =>
    simp only [processQueueItem, send]
    split
    · split <;> simp
    · rfl
  | resume p n =>
    simp only [processQueueItem]
    split
    · split <;> simp
    · rfl

@[simp] theorem names_destroy (c : Context σ μ) (dtor : σ → σ) (o : ObjId) (reason : String) :
    (c.destroy dtor o reason).names = c.names := by
  have hkill := killLinked_same names (fun d p => names_addtoDestroy d p reason) (c.setLife o .destroyed) o
  have hnote := notifyDeath_same names names_queueSend ((c.setLife o .destroyed).killLinked o reason) o
  have hbegin : ∀ d : Context σ μ, (d.beginDestructor dtor o).names = d.names :=
    fun d => names_cancelTimer d o
  exact (hbegin _).trans (hnote.trans (hkill.trans (names_setLife c o _)))

/-! ## The roles of the running code -/

/-- How a role can have come onto the stack in a step from `c` to `c'`. -/
inductive NewRole (c c' : Context σ μ) : Role → Prop
  | old {r} (h : r ∈ c.table.roles) : NewRole c c' r
  | found {o} (h : (c.heap o).life = .running) : NewRole c c' (.body o)
  | woken {w : Wake} (h : c.Holds w) (hl : (c.heap w.this).dead = false) :
      NewRole c c' (.body w.this)
  | ctor (h : c'.heapSize = c.heapSize + 1) : NewRole c c' (.ctor c.heapSize)
  | dtor {o} (h : o ∈ c.table.toDestroy) : NewRole c c' (.dtor o)
  | handler {owner s} (h : (owner, s) ∈ c.names.users) : NewRole c c' (.handler owner)

theorem roles_resume {c : Context σ μ} {o : ObjId} {r : Role}
    (h : r ∈ (c.resume o).table.roles) :
    r ∈ c.table.roles ∨ (r = .body o ∧ (c.heap o).dead = false) := by
  have hr := resume_resumes c o
  generalize c.resume o = c' at hr h
  cases hr with
  | dead hd => exact .inl h
  | plain hd hf =>
    rw [table_enter] at h
    rcases List.mem_cons.mp h with h | h
    · exact .inr ⟨h, hd⟩
    · exact .inl h
  | gone hd hf hp => exact .inl h
  | raised hd hf hp he =>
    rw [table_addtoDestroy, Table.kill_roles] at h
    exact .inl h
  | woken hd hf hp he =>
    rw [table_enter, table_setPromise] at h
    rcases List.mem_cons.mp h with h | h
    · exact .inr ⟨h, hd⟩
    · exact .inl h

theorem roles_processQueueItem {c : Context σ μ} (ht : c.table.Ok) {i : ToProcessItem μ} {r : Role}
    (h : r ∈ (c.processQueueItem i).1.table.roles) :
    r ∈ c.table.roles ∨ ∃ o, r = .body o ∧ (c.heap o).life = .running := by
  have hfound : ∀ {p o}, c.findProc p = some o → (c.heap o).life = .running := fun hf =>
    ((Table.find_eq_some ht).mp (findProc_table c _ ▸ hf)).1
  cases i with
  | message a m =>
    simp only [processQueueItem, send] at h
    split at h
    next o hf =>
      split at h
      · rcases roles_resume h with h | ⟨h, -⟩
        · exact .inl (by simpa using h)
        · exact .inr ⟨o, h, hfound hf⟩
      · exact .inl (by simpa using h)
    next => exact .inl h
  | resume p n =>
    simp only [processQueueItem] at h
    split at h
    next o hf =>
      split at h
      · rcases roles_resume h with h | ⟨h, -⟩
        · exact .inl h
        · exact .inr ⟨o, h, hfound hf⟩
      · exact .inl h
    next => exact .inl h

theorem roles_runHandler {c c' : Context σ μ} {hs : List (Handler σ)} {d : Handler σ} {r : Role}
    (hr : c.io.ready = d :: hs) (h : r ∈ ((c.popReady hs).runHandler d).table.roles) : NewRole c c' r := by
  have hpop : ∀ {r}, r ∈ (c.popReady hs).table.roles → NewRole c c' r := fun h => .old h
  cases d with
  | aborted => exact hpop h
  | timer o n =>
    simp only [runHandler] at h
    split at h
    · exact hpop h
    · rcases roles_resume h with h | ⟨rfl, hd⟩
      · exact hpop h
      · exact .woken (w := .timer o n) (.expired (by simp [hr])) hd
  | continuation f =>
    simp only [runHandler] at h
    split at h
    · exact hpop h
    · split at h
      · rcases roles_resume h with h | ⟨rfl, hd⟩
        · exact hpop h
        · exact .woken (w := .continuation f) (.posted (by simp [hr])) hd
      · exact hpop h
  | user owner s =>
    simp only [runHandler] at h
    split at h
    · exact hpop h
    · simp only [table, List.map_cons, List.map_nil, List.mem_singleton] at h
      subst h
      exact .handler (s := s) (by simp [names, hr, Handler.user?])

theorem effect_role {code : Code σ μ} {c c' : Context σ μ} {l : Label} {out : List (Event μ)}
    (he : Effect code c l out c') (ht : c.table.Ok) {r : Role} (h : r ∈ c'.table.roles) :
    NewRole c c' r := by
  have hsame : c'.table = c.table → NewRole c c' r := fun he => .old (he ▸ h)
  have hpop : ∀ {role t rest}, c.stack = ⟨role, t⟩ :: rest → r ∈ rest.map Frame.role →
      NewRole c c' r := fun hs hr => .old (by rw [roles_top hs]; exact List.mem_cons_of_mem _ hr)
  cases he with
  | goOn hs s => exact hsame (table_goOn hs rfl s)
  | fault f => exact hsame rfl
  | send hs hop hm s' => exact hsame (table_goOn hs (by simp) s')
  | suspend hw =>
    obtain ⟨t, hs⟩ := hw.stack
    exact hpop hs (by rwa [table_suspended] at h)
  | throttleSend hs ht hc => exact hsame (table_goOn hs (by simp) _)
  | newSlot hs ho s' => exact hsame (table_goOn hs (table_newSlot _ _ _) s')
  | dropSlot hs hop ho s' => exact hsame (table_goOn hs (by simp) s')
  | getVals hs hop ho s' => exact hsame (table_goOn hs (by simp) s')
  | @spawn _ _ _ self how ctor _ hs hop hm =>
    obtain ⟨hn, -, -⟩ := c.table.nextPid_eq
    have hroles : (c.table.nextPid).2.roles = c.table.roles := by
      unfold Table.nextPid
      split <;> rfl
    have hsize : (c.spawnWith self how ctor).table.size = c.table.size + 1 := by
      rw [table_spawnWith, Table.construct, hn]
    rw [table_spawnWith, Table.construct, hroles, hn] at h
    rcases List.mem_cons.mp h with rfl | h
    · exact .ctor hsize
    · exact .old h
  | addKillOnDie hs p s' => exact hsame (table_goOn hs (by simp) s')
  | link hs p hl s' => exact hsame (table_goOn hs (table_link hl) s')
  | kill hs p s' =>
    rw [table_kill_goOn hs, Table.kill_roles] at h
    exact .old h
  | newPromise hs owner s' => exact hsame (table_goOn (d := c.newPromise owner) hs rfl s')
  | onPromise hs n ha s' => exact hsame (table_goOn hs (by simp) s')
  | asyncOp hs h' s' => exact hsame (table_goOn (d := c.asyncOp _ h') hs rfl s')
  | @asyncDone role s rest h' s' hs hop => exact hsame (table_goOn (d := c.asyncDone _ h') hs rfl s')
  | started hs body s' =>
    rw [table_started hs] at h
    exact .old (List.mem_of_mem_tail h)
  | ctorThrew hs hop s' =>
    rw [table_ctorThrew hs] at h
    exact .old (List.mem_of_mem_tail h)
  | leave hs hr => exact hpop hs h
  | bodyReturned hs =>
    rw [returned, table_addtoDestroy, table_setWaiting, Table.kill_roles] at h
    exact hpop hs h
  | bodyThrew hs e =>
    rw [threw, table_addtoDestroy, Table.kill_roles] at h
    exact hpop hs h
  | dtorReturned hs hop =>
    rw [destroyed, table_dropPromises, table_dropSlots] at h
    exact hpop hs h
  | escaped hs hr e => exact hpop hs h
  | finish hs hp hn => exact hsame rfl
  | take hs hp hq =>
    rcases roles_processQueueItem (c := c.popFront _) ht h with h | ⟨o, rfl, ho⟩
    · exact .old h
    · exact .found ho
  | toRunOne hs hp hq => exact hsame rfl
  | ioReturn ph hs hp => exact hsame rfl
  | drained hs hp hr => exact hsame rfl
  | run hs hp hst hr => exact roles_runHandler hr h
  | destroy hs hp hd =>
    have hkills : ∀ (ps : List Pid) (t : Table), (ps.foldl Table.kill t).roles = t.roles := by
      intro ps
      induction ps with
      | nil => exact fun _ => rfl
      | cons p ps ih => exact fun t => (ih _).trans (Table.kill_roles p)
    rw [table_destroy c _ _ _ hd] at h
    rcases List.mem_cons.mp h with rfl | h
    · exact .dtor (by simp [toDestroy_top hd])
    · exact .old (by rwa [hkills] at h)
  | toLoop hs hp hd => exact hsame rfl
  | expire i hl hw => exact hsame rfl
  | async i h' hl hh => exact hsame rfl

/-! ## The names after a step -/

inductive NamesStep (code : Code σ μ) (c c' : Context σ μ) : Prop
  | same (h : c'.names = c.names)
  | newSlot {role : Role} {t : Coro σ μ} {rest : List (Frame σ μ)} {o : ObjId}
      (hs : c.stack = ⟨role, t⟩ :: rest) (ho : role.self = some o)
      (h : c'.names = { c.names with
        slotCount := c.slotCount + 1
        owner := Function.update c.names.owner c.slotCount o })
  | asyncOp {role : Role} {s₀ s k : σ} {rest : List (Frame σ μ)}
      (hs : c.stack = ⟨role, .code s₀⟩ :: rest) (hop : code.op s₀ = .asyncOp s k)
      (h : c'.names = { c.names with asyncs := c.names.asyncs ++ [(role.self, s)] })
  | asyncDone {role : Role} {s₀ s k : σ} {rest : List (Frame σ μ)}
      (hs : c.stack = ⟨role, .code s₀⟩ :: rest) (hop : code.op s₀ = .asyncOp s k)
      (h : c'.names = { c.names with users := c.names.users ++ [(role.self, s)] })
  | io (hc : c'.names.slotCount = c.names.slotCount) (ho : c'.names.owner = c.names.owner)
      (ha : c'.names.asyncs ⊆ c.names.asyncs)
      (hu : c'.names.users ⊆ c.names.users ++ c.names.asyncs)

theorem names_runHandler (c : Context σ μ) (h : Handler σ) : (c.runHandler h).names = c.names := by
  cases h with
  | aborted => rfl
  | timer o n =>
    simp only [runHandler]
    split <;> simp
  | continuation f =>
    simp only [runHandler]
    split
    · rfl
    · split <;> simp
  | user owner s =>
    simp only [runHandler]
    split <;> rfl

theorem names_newSlot (c : Context σ μ) (role : Role) (o : ObjId) :
    (c.newSlot role o).names = { c.names with
      slotCount := c.slotCount + 1
      owner := Function.update c.names.owner c.slotCount o } := by
  have ho : ∀ slots : SlotId → SlotCell μ,
      (fun s => (Function.update slots c.slotCount ⟨o, some {}⟩ s).owner) =
        Function.update (fun s => (slots s).owner) c.slotCount o :=
    fun slots => funext fun s => Function.apply_update (fun _ => SlotCell.owner) slots _ _ s
  unfold newSlot
  split <;> simp [names, setProc, ho]

theorem effect_names {code : Code σ μ} {c c' : Context σ μ} {l : Label} {out : List (Event μ)}
    (he : Effect code c l out c') : NamesStep code c c' := by
  cases he with
  | newSlot hs ho s' => exact .newSlot hs ho (names_newSlot c _ _)
  | asyncOp hs h' s' hop => exact .asyncOp hs hop rfl
  | asyncDone hs hop =>
    exact .asyncDone hs hop (by simp [names, asyncDone, continueWith, Handler.user?])
  | @run d ds hs hp hst hr =>
    have hn := names_runHandler (c.popReady ds) d
    refine .io (by rw [hn]; rfl) (by rw [hn]; rfl) (by rw [hn]; exact List.Subset.refl _) ?_
    intro u hu
    rw [hn] at hu
    apply List.mem_append_left _
    simp only [names, popReady, hr, List.mem_filterMap, List.mem_cons] at hu ⊢
    obtain ⟨d, hd, he⟩ := hu
    exact ⟨d, .inr hd, he⟩
  | async i h' hl hh =>
    refine .io rfl rfl (fun u hu => List.mem_of_mem_eraseIdx hu) fun u hu => ?_
    simp only [names, List.filterMap_append, List.mem_append, List.mem_filterMap,
      List.mem_singleton] at hu ⊢
    rcases hu with hu | ⟨d, rfl, hd⟩
    · exact .inl hu
    · rcases hh with rfl | ⟨o, s, rfl, hi⟩
      · cases hd
      · cases hd
        exact .inr (List.mem_of_getElem? hi)
  | goOn hs s => exact .same rfl
  | fault f => exact .same rfl
  | send hs hop hm s' => exact .same rfl
  | suspend hw => exact .same (names_suspended _ _ _ _)
  | throttleSend hs ht hc => exact .same rfl
  | dropSlot hs hop ho s' => exact .same (by simp)
  | getVals hs hop ho s' => exact .same (by simp)
  | spawn hs hop hm => exact .same (by simp)
  | addKillOnDie hs p s' => exact .same rfl
  | link hs p hl s' => exact .same (by simpa using names_link hl)
  | kill hs p s' => exact .same (by simp)
  | newPromise hs owner s' => exact .same rfl
  | onPromise hs n ha s' => exact .same (by simp)
  | started hs body s' => exact .same (by simp)
  | ctorThrew hs hop s' => exact .same (by simp [ctorFailed])
  | leave hs hr => exact .same rfl
  | bodyReturned hs => exact .same (names_addtoDestroy _ _ _)
  | bodyThrew hs e => exact .same (names_addtoDestroy _ _ _)
  | @dtorReturned o s rest hs hop => exact .same (names_dropSlots { c with stack := rest } o)
  | escaped hs hr e => exact .same rfl
  | finish hs hp hn => exact .same rfl
  | take hs hp hq => exact .same (by simp)
  | toRunOne hs hp hq => exact .same rfl
  | ioReturn ph hs hp => exact .same rfl
  | drained hs hp hr => exact .same rfl
  | @destroy o reason rest hs hp hd => exact .same (names_destroy { c with toDestroy := rest } _ o reason)
  | toLoop hs hp hd => exact .same rfl
  | expire i hl hw => exact .same (by simp [names, Handler.user?])

/-- Slots are only added, and a slot keeps its owner. -/
theorem effect_owner {code : Code σ μ} {c c' : Context σ μ} {l : Label} {out : List (Event μ)}
    (he : Effect code c l out c') : c.slotCount ≤ c'.slotCount ∧
      ∀ s, s < c.slotCount → (c'.slots s).owner = (c.slots s).owner := by
  have hnames : c.names.slotCount ≤ c'.names.slotCount ∧
      ∀ s, s < c.names.slotCount → c'.names.owner s = c.names.owner s := by
    cases effect_names he with
    | same hn => rw [hn]; exact ⟨Nat.le_refl _, fun _ _ => rfl⟩
    | newSlot htop ho hn =>
      rw [hn]
      exact ⟨Nat.le_succ _, fun s hs => Function.update_of_ne (Nat.ne_of_lt hs) _ _⟩
    | asyncOp htop hop hn => rw [hn]; exact ⟨Nat.le_refl _, fun _ _ => rfl⟩
    | asyncDone htop hop hn => rw [hn]; exact ⟨Nat.le_refl _, fun _ _ => rfl⟩
    | io hc ho ha hu => rw [hc, ho]; exact ⟨Nat.le_refl _, fun _ _ => rfl⟩
  exact hnames

/-! ## The invariant -/

structure Refs (c : Context σ μ) : Prop where
  self : ∀ {r o}, r ∈ c.table.roles → r.self = some o → o < c.heapSize
  body : ∀ {o}, .body o ∈ c.table.roles → c.table.Started o
  wakes : ∀ {w}, c.Holds w → c.table.Started w.this
  owners : ∀ {s}, s < c.slotCount → (c.slots s).owner < c.heapSize
  asyncs : ∀ {o h}, (some o, h) ∈ c.names.asyncs → o < c.heapSize
  users : ∀ {o h}, (some o, h) ∈ c.names.users → o < c.heapSize

theorem started_lt {c : Context σ μ} (ht : c.table.Ok) {o : ObjId} (h : c.table.Started o) :
    o < c.heapSize := ht.allocated h.2

theorem newRole_refs {c c' : Context σ μ} (ht : c.table.Ok) (hk : Keeps c c') (h : c.Refs) {r : Role}
    (hr : NewRole c c' r) : (∀ o, r.self = some o → o < c'.heapSize) ∧
      ∀ o, r = .body o → c'.table.Started o := by
  have hst : ∀ {o}, c.table.Started o → o < c'.heapSize ∧ c'.table.Started o := fun ho =>
    ⟨Nat.lt_of_lt_of_le (started_lt ht ho) hk.size, hk.started ho⟩
  cases hr with
  | old hr =>
    refine ⟨fun o ho => Nat.lt_of_lt_of_le (h.self hr ho) hk.size, ?_⟩
    rintro o rfl
    exact hk.started (h.body hr)
  | @found o hl =>
    have := hst (show c.table.Started o by simp [Table.Started, table, hl])
    exact ⟨fun o ho => by cases ho; exact this.1, fun o ho => by cases ho; exact this.2⟩
  | woken hw hl =>
    have := hst (h.wakes hw)
    exact ⟨fun o ho => by cases ho; exact this.1, fun o ho => by cases ho; exact this.2⟩
  | ctor hs => exact ⟨fun o ho => by cases ho; rw [hs]; exact Nat.lt_succ_self _, fun o ho => by cases ho⟩
  | @dtor d hd =>
    have := hst (show c.table.Started d by simp [Table.Started, ht.doomed hd])
    exact ⟨fun o ho => by cases ho; exact this.1, fun o ho => by cases ho⟩
  | handler hu =>
    exact ⟨fun o ho => by cases ho; exact Nat.lt_of_lt_of_le (h.users hu) hk.size,
      fun o ho => by cases ho⟩

theorem effect_refs {code : Code σ μ} {c c' : Context σ μ} {l : Label} {out : List (Event μ)}
    (he : Effect code c l out c') (ht : c.table.Ok) (h : c.Refs) : c'.Refs := by
  have hk := step_keeps he ht
  have hroles : ∀ {r}, r ∈ c'.table.roles → _ := fun hr => newRole_refs ht hk h (effect_role he ht hr)
  have hup : ∀ {o}, o < c.heapSize → o < c'.heapSize := fun ho => Nat.lt_of_lt_of_le ho hk.size
  refine ⟨fun hr => (hroles hr).1 _, fun hr => (hroles hr).2 _ rfl, fun {w} hw => ?_, ?_, ?_, ?_⟩
  · rcases effect_wake he hw with hw | ⟨o, t, rest, hs, hw⟩
    · exact hk.started (h.wakes hw)
    · rw [hw.1]
      exact hk.started (h.body (by simp [roles_top hs]))
  all_goals
    have hn := effect_names he
  · intro s hs
    have hs : s < c'.names.slotCount := hs
    show c'.names.owner s < c'.heapSize
    cases hn with
    | same hn =>
      rw [hn] at hs ⊢
      exact hup (h.owners hs)
    | newSlot htop ho hn =>
      rw [hn] at hs ⊢
      by_cases he : s = c.slotCount
      · subst he
        simpa using hup (h.self (by simp [roles_top htop]) ho)
      · simp only [Function.update_of_ne he]
        exact hup (h.owners (by simp at hs; omega))
    | asyncOp htop hop hn =>
      rw [hn] at hs ⊢
      exact hup (h.owners hs)
    | asyncDone htop hop hn =>
      rw [hn] at hs ⊢
      exact hup (h.owners hs)
    | io hc ho ha hu =>
      rw [hc] at hs
      rw [ho]
      exact hup (h.owners hs)
  · intro o d hd
    cases hn with
    | same hn => exact hup (h.asyncs (hn ▸ hd))
    | newSlot htop ho hn => exact hup (h.asyncs (by simpa [hn] using hd))
    | asyncOp htop hop hn =>
      simp only [hn, List.mem_append, List.mem_singleton, Prod.mk.injEq] at hd
      rcases hd with hd | ⟨ho, -⟩
      · exact hup (h.asyncs hd)
      · exact hup (h.self (by simp [roles_top htop]) ho.symm)
    | asyncDone htop hop hn => exact hup (h.asyncs (by simpa [hn] using hd))
    | io hc ho ha hu => exact hup (h.asyncs (ha hd))
  · intro o d hd
    cases hn with
    | same hn => exact hup (h.users (hn ▸ hd))
    | newSlot htop ho hn => exact hup (h.users (by simpa [hn] using hd))
    | asyncOp htop hop hn => exact hup (h.users (by simpa [hn] using hd))
    | asyncDone htop hop hn =>
      simp only [hn, List.mem_append, List.mem_singleton, Prod.mk.injEq] at hd
      rcases hd with hd | ⟨ho, -⟩
      · exact hup (h.users hd)
      · exact hup (h.self (by simp [roles_top htop]) ho.symm)
    | io hc ho ha hu =>
      rcases List.mem_append.mp (hu hd) with hd | hd
      · exact hup (h.users hd)
      · exact hup (h.asyncs hd)

theorem refs_init (main : σ) : (init main : Context σ μ).Refs := by
  refine ⟨?_, ?_, ?_, ?_, ?_, ?_⟩
  · intro r o hr ho
    simp only [init, table, List.map_cons, List.map_nil, List.mem_singleton] at hr
    simp [hr, Role.self] at ho
  · simp [init, table]
  · rintro w (⟨hp, hk⟩ | h | h | h)
    · rename_i f p k
      cases f <;> simp [init, promise] at hp
    all_goals simp [init] at h
  · simp [init]
  · simp [init, names]
  · simp [init, names]

end Context
end Eslang
