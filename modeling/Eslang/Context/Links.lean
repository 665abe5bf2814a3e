import Eslang.Context.Phases

/-! # The lists of processes to kill

`killLists` are the `killOnDie` lists of all processes. They change only where code calls `addKillOnDie` or
`link`, where a process is created by `spawnLink`, and where `spawnLink` or `spawnLinkNotify` returns
(`effect_links`). -/
namespace Eslang
set_option autoImplicit false
open Lib

namespace Context
variable {σ μ : Type}

def killLists (c : Context σ μ) (o : ObjId) : List Pid := (c.heap o).killOnDie

/-! ## Operations that leave the processes alone -/

@[simp] theorem heap_setPromise (c : Context σ μ) (f : PromiseRef) (p : EslangPromise Continuation) :
    (c.setPromise f p).heap = c.heap := by
  cases f <;> rfl

@[simp] theorem heap_onPromise (c : Context σ μ) (f : PromiseRef)
    (act : EslangPromise Continuation → EslangPromise Continuation × List Continuation) :
    (c.onPromise f act).heap = c.heap := by
  unfold onPromise
  split
  · rfl
  · exact heap_setPromise _ _ _

@[simp] theorem heap_getVals (c : Context σ μ) (ss : List SlotId) :
    (c.getVals ss).2.heap = c.heap := by
  have hone : ∀ (d : Context σ μ) (s : SlotId), (d.getOptional s).2.heap = d.heap := by
    intro d s
    unfold getOptional
    split
    · rfl
    · split <;> rfl
  induction ss generalizing c with
  | nil => rfl
  | cons s ss ih => simp [getVals, ih, hone]

@[simp] theorem heap_dropSlot (c : Context σ μ) (s : SlotId) : (c.dropSlot s).heap = c.heap := by
  unfold dropSlot
  split <;> rfl

@[simp] theorem heap_dropSlots (c : Context σ μ) (o : ObjId) : (c.dropSlots o).heap = c.heap :=
  dropSlots_same heap heap_dropSlot c o

/-! ## Operations that leave the lists alone -/

theorem killLists_of_heap {c c' : Context σ μ} (h : c'.heap = c.heap) :
    c'.killLists = c.killLists := by
  funext o
  simp [killLists, h]

theorem killLists_setProc_eq (c : Context σ μ) (o : ObjId) (p : RunningProcess σ μ) :
    (c.setProc o p).killLists = Function.update c.killLists o p.killOnDie :=
  field_setProc RunningProcess.killOnDie c o p

theorem killLists_setProc (c : Context σ μ) {o : ObjId} {p : RunningProcess σ μ}
    (hp : p.killOnDie = (c.heap o).killOnDie) : (c.setProc o p).killLists = c.killLists := by
  rw [killLists_setProc_eq, hp]
  exact Function.update_eq_self o c.killLists

theorem killLists_addtoDestroy (c : Context σ μ) (p : Pid) (reason : String) :
    (c.addtoDestroy p reason).killLists = c.killLists := by
  unfold addtoDestroy
  split
  · rfl
  · exact killLists_setProc c rfl

theorem killLists_suspended (c : Context σ μ) (o : ObjId) (w : Waiting) (t : Coro σ μ) :
    (c.suspended o w t).killLists = c.killLists := by
  refine Eq.trans (killLists_of_heap ?_) (killLists_setProc c (o := o)
    (p := { c.heap o with lastWaiting := some w, task := t }) rfl)
  unfold suspended arm armFuture
  split
  · rfl
  · split
    · exact heap_armTimer _ _ _
    · rw [heap_onPromise, heap_armTimer]
      rfl

theorem killLists_enter (c : Context σ μ) (o : ObjId) : (c.enter o).killLists = c.killLists :=
  killLists_setProc c rfl

theorem killLists_resume (c : Context σ μ) (o : ObjId) : (c.resume o).killLists = c.killLists := by
  have hr := resume_resumes c o
  generalize c.resume o = c' at hr ⊢
  cases hr with
  | dead hd => rfl
  | plain hd hf => exact killLists_enter _ o
  | gone hd hf hp => rfl
  | raised hd hf hp he => exact killLists_addtoDestroy _ _ _
  | woken hd hf hp he => exact (killLists_enter _ o).trans (killLists_of_heap (heap_setPromise _ _ _))

theorem killLists_processQueueItem (c : Context σ μ) (i : ToProcessItem μ) :
    (c.processQueueItem i).1.killLists = c.killLists := by
  have hpush (s : SlotId) (m : MessageBase μ) : (c.push s m).killLists = c.killLists :=
    killLists_of_heap (heap_push c s m)
  cases i with
  | message a m =>
    simp only [processQueueItem, send]
    split
    · split
      · exact (killLists_resume _ _).trans (hpush _ _)
      · exact hpush _ _
    · rfl
  | resume p n =>
    simp only [processQueueItem]
    split
    · split
      · exact killLists_resume _ _
      · rfl
    · rfl

theorem killLists_runHandler (c : Context σ μ) (h : Handler σ) :
    (c.runHandler h).killLists = c.killLists := by
  cases h with
  | aborted => rfl
  | timer o n =>
    simp only [runHandler]
    split
    · rfl
    · exact killLists_resume _ _
  | continuation f =>
    simp only [runHandler]
    split
    · rfl
    · split
      · exact killLists_resume _ _
      · rfl
  | user owner s =>
    simp only [runHandler]
    split <;> rfl

theorem killLists_destroy (c : Context σ μ) (dtor : σ → σ) (o : ObjId) (reason : String) :
    (c.destroy dtor o reason).killLists = c.killLists := by
  have hkill := killLinked_same killLists (fun d p => killLists_addtoDestroy d p reason)
    (c.setLife o .destroyed) o
  exact (notifyDeath_same killLists (fun _ _ _ => rfl) _ o).trans (hkill.trans (killLists_setProc c rfl))

theorem killLists_addKillOnDie (c : Context σ μ) (o : ObjId) (p : Pid) :
    (c.addKillOnDie o p).killLists =
      Function.update c.killLists o (c.killLists o ++ [p]) :=
  killLists_setProc_eq c o _

theorem killLists_newSlot (c : Context σ μ) (role : Role) (o : ObjId) :
    (c.newSlot role o).killLists = c.killLists := by
  unfold newSlot
  split
  · exact killLists_setProc _ rfl
  · rfl

theorem killLists_spawnWith (c : Context σ μ) (self : Option ObjId) (how : SpawnKind) (ctor : σ) :
    (c.spawnWith self how ctor).killLists = Function.update c.killLists c.heapSize
      (c.newProcess c.nextPid.1 self how ctor).killOnDie := by
  have hn : c.nextPid.2.heapSize = c.heapSize ∧ c.nextPid.2.heap = c.heap := by
    unfold nextPid
    split <;> exact ⟨rfl, rfl⟩
  rw [← killLists_setProc_eq c c.heapSize (c.newProcess c.nextPid.1 self how ctor)]
  funext o
  simp [killLists, spawnWith, construct, setProc, hn]

/-! ## The steps that change a list -/

/-- `p` is put on the list of `o`. -/
def addTo (ks : ObjId → List Pid) (o : ObjId) (p : Pid) : ObjId → List Pid :=
  Function.update ks o (ks o ++ [p])

theorem mem_addTo {ks : ObjId → List Pid} {o x : ObjId} {p q : Pid} :
    q ∈ addTo ks o p x ↔ q ∈ ks x ∨ (x = o ∧ q = p) := by
  unfold addTo
  by_cases he : x = o
  · subst he
    simp
  · simp [he]

/-- `spawnLink` and `spawnLinkNotify` put the new pid on the list of the caller. -/
def addBack (ks : ObjId → List Pid) (how : SpawnKind) (self : Option ObjId) (p : Pid) :
    ObjId → List Pid :=
  match how, self with
  | .plain, _ => ks
  | _, some o => addTo ks o p
  | _, none => ks

theorem mem_addBack {ks : ObjId → List Pid} {how : SpawnKind} {self : Option ObjId} {p q : Pid}
    {x : ObjId} (h : q ∈ ks x) : q ∈ addBack ks how self p x := by
  unfold addBack
  split
  · exact h
  · exact mem_addTo.mpr (.inl h)
  · exact h

theorem killLists_started (c : Context σ μ) (o : ObjId) (body : σ) (self : Option ObjId)
    (how : SpawnKind) (p : Pid) : ((c.spawnArgs o body).spawned self how p).killLists =
      addBack c.killLists how self p := by
  have hargs : (c.spawnArgs o body).killLists = c.killLists := killLists_setProc c rfl
  have hadd (x : ObjId) : ((c.spawnArgs o body).addKillOnDie x p).killLists =
      addTo c.killLists x p := by
    rw [killLists_addKillOnDie, hargs]
    rfl
  cases how with
  | plain => exact hargs
  | link =>
    cases self with
    | none => exact hargs
    | some x => exact hadd x
  | linkNotify a =>
    cases self with
    | none => exact hargs
    | some x => exact hadd x

/-- What a step does to the lists. -/
inductive LinkStep (code : Code σ μ) (c c' : Context σ μ) : Prop
  | same (h : c'.killLists = c.killLists)
  | add {role : Role} {t : Coro σ μ} {rest : List (Frame σ μ)} {o : ObjId} {p : Pid}
      (hs : c.stack = ⟨role, t⟩ :: rest) (ho : role.self = some o)
      (h : c'.killLists = addTo c.killLists o p)
  | link {role : Role} {s k} {rest : List (Frame σ μ)} {o b : ObjId} {p : Pid}
      (hs : c.stack = ⟨role, .code s⟩ :: rest) (hop : code.op s = .link p k)
      (ho : role.self = some o) (hf : c.findProc p = some b)
      (h : c'.killLists = addTo (addTo c.killLists o p) b (c.heap o).pid)
  | spawn {role : Role} {s ctor : σ} {k} {rest : List (Frame σ μ)} {how : SpawnKind}
      (hs : c.stack = ⟨role, .code s⟩ :: rest) (hop : code.op s = .spawn how ctor k)
      (h : c'.killLists = Function.update c.killLists c.heapSize
        (c.newProcess c.nextPid.1 role.self how ctor).killOnDie)
  | started {o : ObjId} {s body : σ} {role : Role} {t' : Coro σ μ} {rest : List (Frame σ μ)}
      {how : SpawnKind} (hs : c.stack = ⟨.ctor o, .code s⟩ :: ⟨role, t'⟩ :: rest)
      (hop : code.op s = .started body) (hcall : Called code t' how)
      (h : c'.killLists = addBack c.killLists how role.self (c.heap o).pid)

theorem effect_links {code : Code σ μ} {c c' : Context σ μ} {l : Label} {out : List (Event μ)}
    (he : Effect code c l out c') : LinkStep code c c' := by
  cases he with
  | goOn hs s => exact .same rfl
  | fault f => exact .same rfl
  | send hs hop hm s' => exact .same rfl
  | suspend hw => exact .same (killLists_suspended _ _ _ _)
  | throttleSend hs ht hc => exact .same rfl
  | newSlot hs ho s' => exact .same (killLists_newSlot c _ _)
  | dropSlot hs hop ho s' => exact .same (killLists_of_heap (heap_dropSlot c _))
  | getVals hs hop ho s' => exact .same (killLists_of_heap (heap_getVals c _))
  | @spawn role s rest self how ctor k hs hop hm hself =>
    subst hself
    exact .spawn hs hop (killLists_spawnWith c _ _ _)
  | addKillOnDie hs p s' ho => exact .add hs ho (killLists_addKillOnDie c _ p)
  | @link role s rest k o d hs p hl s' hop ho =>
    have hl' := hl
    unfold link at hl'
    split at hl'
    next => cases hl'
    next b hf =>
      cases hl'
      refine .link hs hop ho hf ?_
      exact (killLists_addKillOnDie _ b _).trans (by rw [killLists_addKillOnDie]; rfl)
  | kill hs p s' => exact .same (killLists_addtoDestroy c p "")
  | newPromise hs owner s' => exact .same rfl
  | onPromise hs n ha s' => exact .same (killLists_of_heap (heap_onPromise c _ _))
  | asyncOp hs h' s' => exact .same rfl
  | asyncDone hs hop => exact .same rfl
  | @started o s role t' rest' self how hs body s' hcall hself hop =>
    subst hself
    exact .started hs hop hcall (killLists_started c o body _ how _)
  | @ctorThrew o s e role t' rest' hs hop s' =>
    have hheap : (c.ctorFailed o).heap = (c.setLife o .failed).heap := heap_dropSlots _ _
    exact .same ((killLists_of_heap hheap).trans (killLists_setProc c rfl))
  | leave hs hr => exact .same rfl
  | bodyReturned hs =>
    exact .same ((killLists_addtoDestroy _ _ _).trans (killLists_setProc _ rfl))
  | bodyThrew hs e => exact .same (killLists_addtoDestroy _ _ _)
  | @dtorReturned o s rest hs hop =>
    exact .same (killLists_of_heap (heap_dropSlots { c with stack := rest } o))
  | escaped hs hr e => exact .same rfl
  | finish hs hp hn => exact .same rfl
  | take hs hp hq => exact .same (killLists_processQueueItem (c.popFront _) _)
  | toRunOne hs hp hq => exact .same rfl
  | ioReturn ph hs hp => exact .same rfl
  | drained hs hp hr => exact .same rfl
  | run hs hp hst hr => exact .same (killLists_runHandler (c.popReady _) _)
  | @destroy o reason rest hs hp hd =>
    exact .same (killLists_destroy { c with toDestroy := rest } code.dtor o reason)
  | toLoop hs hp hd => exact .same rfl
  | expire i hl hw => exact .same rfl
  | async i h' hl hh => exact .same rfl

theorem effect_killLists {code : Code σ μ} {c c' : Context σ μ} {l : Label} {out : List (Event μ)}
    (he : Effect code c l out c') {o : ObjId} (ho : o < c.heapSize) {p : Pid}
    (hp : p ∈ c.killLists o) : p ∈ c'.killLists o := by
  cases effect_links he with
  | same h => rwa [h]
  | add hs ho' h =>
    rw [h]
    exact mem_addTo.mpr (.inl hp)
  | link hs hop ho' hf h =>
    rw [h]
    exact mem_addTo.mpr (.inl (mem_addTo.mpr (.inl hp)))
  | spawn hs hop h => rwa [h, Function.update_of_ne (Nat.ne_of_lt ho)]
  | started hs hop hcall h =>
    rw [h]
    exact mem_addBack hp

end Context
end Eslang
