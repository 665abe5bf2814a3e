import Eslang.Context.Sound

/-! # Where `Context::run` is while code runs

`main` runs before the loop; a body runs inside `processQueueItem` or a handler, a destructor inside the
`toDestroy_` loop, and only constructors run on top of other code. -/
namespace Eslang
set_option autoImplicit false
open Lib

namespace Context
variable {σ μ : Type}

@[simp] theorem phase_push (c : Context σ μ) (s : SlotId) (m : MessageBase μ) :
    (c.push s m).phase = c.phase := by
  unfold push
  split <;> rfl

@[simp] theorem phase_addtoDestroy (c : Context σ μ) (p : Pid) (reason : String) :
    (c.addtoDestroy p reason).phase = c.phase := by
  unfold addtoDestroy
  split <;> rfl

@[simp] theorem phase_setPromise (c : Context σ μ) (f : PromiseRef)
    (p : EslangPromise Continuation) : (c.setPromise f p).phase = c.phase := by
  cases f <;> rfl

@[simp] theorem phase_onPromise (c : Context σ μ) (f : PromiseRef)
    (act : EslangPromise Continuation → EslangPromise Continuation × List Continuation) :
    (c.onPromise f act).phase = c.phase := by
  unfold onPromise
  split
  · rfl
  · exact phase_setPromise _ _ _

@[simp] theorem phase_resume (c : Context σ μ) (o : ObjId) : (c.resume o).phase = c.phase := by
  have hr := resume_resumes c o
  generalize c.resume o = c' at hr ⊢
  cases hr with
  | dead hd => rfl
  | plain hd hf => rfl
  | gone hd hf hp => rfl
  | raised hd hf hp he => exact phase_addtoDestroy _ _ _
  | woken hd hf hp he => exact phase_setPromise _ _ _

@[simp] theorem phase_send (c : Context σ μ) (o : ObjId) (a : SendAddress) (m : MessageBase μ) :
    (c.send o a m).phase = c.phase := by
  unfold send
  split <;> simp

theorem phase_processQueueItem (c : Context σ μ) (i : ToProcessItem μ) :
    (c.processQueueItem i).1.phase = c.phase := by
  cases i with
  | message a m =>
    simp only [processQueueItem]
    split <;> simp
  | resume p n =>
    simp only [processQueueItem]
    split
    · split <;> simp
    · rfl

theorem phase_runHandler (c : Context σ μ) (d : Handler σ) : (c.runHandler d).phase = c.phase := by
  cases d with
  | aborted => rfl
  | timer o n =>
    simp only [runHandler]
    split
    · rfl
    · simp
  | continuation f =>
    simp only [runHandler]
    split
    · rfl
    · split <;> simp
  | user owner s =>
    simp only [runHandler]
    split <;> rfl

@[simp] theorem phase_suspended (c : Context σ μ) (o : ObjId) (w : Waiting) (t : Coro σ μ) :
    (c.suspended o w t).phase = c.phase := by
  have htimer : ∀ d : Context σ μ, (d.armTimer o w).phase = d.phase := by
    intro d
    unfold armTimer
    split <;> rfl
  unfold suspended arm armFuture
  split
  · rfl
  · split <;> simp [htimer] <;> rfl

@[simp] theorem phase_getVals (c : Context σ μ) (ss : List SlotId) :
    (c.getVals ss).2.phase = c.phase := by
  refine getVals_same phase (fun d s => ?_) c ss
  unfold getOptional
  split
  · rfl
  · split <;> rfl

@[simp] theorem phase_dropSlot (c : Context σ μ) (s : SlotId) : (c.dropSlot s).phase = c.phase := by
  unfold dropSlot
  split <;> rfl

@[simp] theorem phase_dropSlots (c : Context σ μ) (o : ObjId) : (c.dropSlots o).phase = c.phase :=
  dropSlots_same phase phase_dropSlot c o

theorem phase_destroy (c : Context σ μ) (dtor : σ → σ) (o : ObjId) (reason : String) :
    (c.destroy dtor o reason).phase = c.phase := by
  have hkill := killLinked_same phase (fun d p => phase_addtoDestroy d p reason) (c.setLife o .destroyed) o
  exact (notifyDeath_same phase (fun _ _ _ => rfl) _ o).trans hkill

def Serving (c : Context σ μ) : Prop :=
  c.phase = .loop ∨ c.phase = .runOne ∨ c.phase = .handling ∨ c.phase = .poll

/-- How `Context::run` goes on in a step. -/
inductive PhaseStep (c c' : Context σ μ) : Prop
  /-- Running code does not move it. -/
  | code (hs : c.stack ≠ []) (h : c'.phase = c.phase)
  /-- An exception left `main` or a handler. -/
  | threw {e : String} {role : Role} {t : Coro σ μ} (hs : c.stack = ⟨role, t⟩ :: c'.stack)
      (hr : role = .main ∨ ∃ owner, role = .handler owner) (h : c'.phase = .threw e)
  /-- It waits in `run_one` or `poll`. -/
  | wait (hs : c.stack = []) (h : c'.phase = c.phase) (hs' : c'.stack = [])
      (ht : c'.table = c.table)
  /-- It goes on inside its loop. -/
  | inside (hs : c.stack = []) (h : c'.phase ≠ .loop) (hf : c'.phase ≠ .finished)
      (hd : c'.phase = .destroying → c.phase = .loop ∨ c.phase = .destroying ∨
        c.io.stopped = true ∨ c.io.ready = [])
      (hb : c.Serving ∨ c'.phase = .destroying)
  /-- It leaves its loop. -/
  | finish (hs : c.stack = []) (hp : c.phase = .loop)
      (hn : c.processes.length = c.tombstones.length) (h : c' = { c with phase := .finished })
  /-- It goes back to its loop head. -/
  | back (hs : c.stack = []) (hp : c.phase = .destroying) (hd : c.toDestroy = [])
      (h : c' = { c with phase := .loop })

theorem effect_phase {code : Code σ μ} {c c' : Context σ μ} {l : Label} {out : List (Event μ)}
    (he : Effect code c l out c') : PhaseStep c c' := by
  cases he with
  | goOn hs s => exact .code (by simp [hs]) rfl
  | fault f hs => exact .code hs rfl
  | send hs hop hm s' => exact .code (by simp [hs]) rfl
  | suspend hw =>
    obtain ⟨t, hs⟩ := hw.stack
    exact .code (by simp [hs]) (phase_suspended _ _ _ _)
  | throttleSend hs ht hc => exact .code (by simp [hs]) rfl
  | newSlot hs ho s' =>
    refine .code (by simp [hs]) ?_
    unfold newSlot
    split <;> rfl
  | dropSlot hs hop ho s' => exact .code (by simp [hs]) (phase_dropSlot _ _)
  | getVals hs hop ho s' => exact .code (by simp [hs]) (phase_getVals _ _)
  | spawn hs hop hm =>
    refine .code (by simp [hs]) ?_
    unfold spawnWith nextPid
    split <;> rfl
  | addKillOnDie hs p s' => exact .code (by simp [hs]) rfl
  | link hs p hl s' =>
    refine .code (by simp [hs]) ?_
    unfold link at hl
    split at hl <;> cases hl
    rfl
  | kill hs p s' => exact .code (by simp [hs]) (phase_addtoDestroy _ _ _)
  | newPromise hs owner s' => exact .code (by simp [hs]) rfl
  | onPromise hs n ha s' => exact .code (by simp [hs]) (phase_onPromise _ _ _)
  | asyncOp hs h' s' => exact .code (by simp [hs]) rfl
  | asyncDone hs hop => exact .code (by simp [hs]) rfl
  | started hs body s' =>
    refine .code (by simp [hs]) ?_
    unfold continueWith spawned
    split <;> rfl
  | ctorThrew hs hop s' =>
    exact .code (by simp [hs]) (phase_dropSlots (c.setLife _ .failed) _)
  | leave hs hr => exact .code (by simp [hs]) rfl
  | bodyReturned hs => exact .code (by simp [hs]) (phase_addtoDestroy _ _ _)
  | bodyThrew hs e => exact .code (by simp [hs]) (phase_addtoDestroy _ _ _)
  | @dtorReturned o s rest hs hop =>
    exact .code (by simp [hs]) (phase_dropSlots { c with stack := rest } o)
  | escaped hs hr e => exact .threw hs hr rfl
  | finish hs hp hn => exact .finish hs hp hn rfl
  | @take i q hs hp hq =>
    have hphase : ((c.popFront q).processQueueItem i).1.phase = .destroying :=
      phase_processQueueItem (c.popFront q) i
    exact .inside hs (by simp [hphase]) (by simp [hphase]) (fun _ => .inl hp) (.inr hphase)
  | toRunOne hs hp hq => exact .inside hs (by simp) (by simp) (by simp) (.inl (.inl hp))
  | ioReturn ph hs hp =>
    rcases hp with ⟨hp, -, rfl⟩ | ⟨hp, rfl⟩ | ⟨-, hstop, rfl⟩
    · exact .inside hs (by simp) (by simp) (by simp) (.inl (.inr (.inl hp)))
    · exact .inside hs (by simp) (by simp) (by simp) (.inl (.inr (.inr (.inl hp))))
    · refine .inside hs (by simp) (by simp) (fun _ => .inr (.inr ?_)) (.inr rfl)
      rw [Bool.or_eq_true] at hstop
      refine hstop.imp id fun hw => ?_
      simp only [IoService.noWork, Bool.and_eq_true, List.isEmpty_iff] at hw
      exact hw.1.1
  | drained hs hp hr =>
    exact .inside hs (by simp) (by simp) (fun _ => .inr (.inr (.inr hr))) (.inr rfl)
  | @run d ds hs hp hst hr =>
    have hphase : ((c.popReady ds).runHandler d).phase = .handling :=
      phase_runHandler (c.popReady ds) d
    exact .inside hs (by simp [hphase]) (by simp [hphase]) (by simp [hphase])
      (.inl (.inr (hp.imp id .inr)))
  | @destroy o reason rest hs hp hd =>
    have hphase := (phase_destroy { c with toDestroy := rest } code.dtor o reason).trans hp
    exact .inside hs (by rw [hphase]; simp) (by rw [hphase]; simp) (fun _ => .inr (.inl hp))
      (.inr hphase)
  | toLoop hs hp hd => exact .back hs hp hd rfl
  | expire i hl hw =>
    have hs : c.stack = [] := by
      simp only [looking, Bool.and_eq_true, List.isEmpty_iff] at hl
      exact hl.1.1
    exact .wait hs rfl hs rfl
  | async i h' hl hh =>
    have hs : c.stack = [] := by
      simp only [looking, Bool.and_eq_true, List.isEmpty_iff] at hl
      exact hl.1.1
    exact .wait hs rfl hs rfl

/-! ## The step that destroys a process -/

theorem step_of_destroys {code : Code σ μ} {c c' : Context σ μ} {l : Label} {out : List (Event μ)}
    {o : ObjId} (hd : c.Destroys o) (h : c.step code l = some (c', out)) :
    ∃ reason rest, c.toDestroy = (o, reason) :: rest ∧
      c' = { c with toDestroy := rest }.destroy code.dtor o reason ∧
      out = (c.heap o).notifyOnDie.map fun a => .sent a (.pid (c.heap o).pid) := by
  obtain ⟨hs, hp, htop⟩ := hd
  obtain ⟨reason, rest, hlist⟩ : ∃ reason rest, c.toDestroy = (o, reason) :: rest := by
    cases htd : c.toDestroy with
    | nil => simp [htd] at htop
    | cons x rest =>
      simp only [htd, List.head?_cons, Option.map_some, Option.some.injEq] at htop
      exact ⟨x.2, rest, by rw [← htop]⟩
  refine ⟨reason, rest, hlist, ?_⟩
  have hlook : c.looking = false := by simp [looking, hp]
  unfold step at h
  split at h
  · cases h
  · cases l with
    | tick =>
      simp only [hs, schedule, hp, hlist, Option.some.injEq, Prod.mk.injEq] at h
      obtain ⟨rfl, rfl⟩ := h
      rw [hs, hp]
      exact ⟨rfl, rfl⟩
    | atOnce => simp [stepAtOnce, hs] at h
    | expire i => simp [hlook] at h
    | complete i => simp [hlook] at h
    | abort i => simp [hlook] at h

theorem destroyed_of_destroys {code : Code σ μ} {c c' : Context σ μ} {l : Label}
    {out : List (Event μ)} (ht : c.table.Ok) {o : ObjId} (hd : c.Destroys o)
    (h : c.step code l = some (c', out)) : (c'.heap o).life = .destroyed := by
  obtain ⟨reason, rest, hlist, rfl, -⟩ := step_of_destroys hd h
  have hok := Table.destroy_ok ht (toDestroy_top hlist) (by simp [table, hd.1])
  have hkeep := (Table.Moves.kills (t := c.table.destroy o) (c.heap o).killOnDie).keeps hok
  have hlife := congrArg Table.life (table_destroy c code.dtor o reason hlist)
  exact (congrFun hlife o).trans (hkeep.destroyed.mpr (by simp [Table.destroy]))

/-! ## The shape of the stack -/

/-- Roles that may stand on the stack in phase `ph`: constructors over one piece of other code. -/
inductive Stacked (ph : Phase) : List Role → Prop
  | empty : Stacked ph []
  | main (h : ph = .loop) : Stacked ph [.main]
  | root {r : Role} (h : ph ≠ .loop) (hm : r ≠ .main) (hc : ∀ o, r ≠ .ctor o) : Stacked ph [r]
  | ctor {o : ObjId} {r : Role} {rs : List Role} (h : Stacked ph (r :: rs)) :
      Stacked ph (.ctor o :: r :: rs)

theorem Stacked.tail {ph : Phase} {r : Role} {rs : List Role} (h : Stacked ph (r :: rs)) :
    Stacked ph rs := by
  cases h with
  | main h => exact .empty
  | root h hm hc => exact .empty
  | ctor h => exact h

theorem Stacked.alone {ph : Phase} {r : Role} {rs : List Role} (h : Stacked ph (r :: rs))
    (hr : ∀ o, r ≠ .ctor o) : rs = [] := by
  cases h with
  | main h => rfl
  | root h hm hc => rfl
  | ctor h => exact absurd rfl (hr _)

def Shaped (c : Context σ μ) : Prop := Stacked c.phase (c.stack.map Frame.role)

theorem effect_shaped {code : Code σ μ} {c c' : Context σ μ} {l : Label} {out : List (Event μ)}
    (he : Effect code c l out c') (h : c.Shaped) : c'.Shaped := by
  have hempty {d : Context σ μ} (hd : d.stack = []) : d.Shaped := by
    rw [Shaped, hd]
    exact .empty
  unfold Shaped at h
  cases effect_phase he with
  | @threw e role t hs hr hp =>
    rw [hs, List.map_cons] at h
    have hnil := h.alone fun o => by rcases hr with rfl | ⟨w, rfl⟩ <;> simp
    exact hempty (List.map_eq_nil_iff.mp hnil)
  | wait hs hp hs' => exact hempty hs'
  | back hs hp hd he' => exact hempty (he' ▸ hs)
  | finish hs hp hn he' => exact hempty (he' ▸ hs)
  | inside hs hp hf =>
    cases effect_stack he with
    | same hst => exact hempty (hst.trans hs)
    | goOn hs' hst => simp [hs] at hs'
    | pop hs' hst => simp [hs] at hs'
    | call hs' hst => simp [hs] at hs'
    | ret hs' hst => simp [hs] at hs'
    | resumed hs' hw hd hq hst =>
      rw [Shaped, hst]
      exact .root hp (by simp) (by simp)
    | enter hs' hr hst =>
      rw [Shaped, hst]
      rcases hr with ⟨o, rfl⟩ | ⟨w, rfl, -⟩
      · exact .root hp (by simp) (by simp)
      · exact .root hp (by simp) (by simp)
  | code hs hp =>
    rw [Shaped, hp]
    cases effect_stack he with
    | same hst => rwa [hst]
    | goOn hs' hst =>
      rw [hs'] at h
      rwa [hst]
    | pop hs' hst =>
      rw [hs'] at h
      rw [hst]
      exact h.tail
    | call hs' hst =>
      rw [hst]
      rw [hs'] at h ⊢
      exact .ctor h
    | ret hs' hst =>
      rw [hs'] at h
      rw [hst]
      exact h.tail
    | resumed hs' hw hd hq hst => exact absurd hs' hs
    | enter hs' hr hst => exact absurd hs' hs

theorem shaped_init (main : σ) : (init main : Context σ μ).Shaped := .main rfl

/-! ## After `run` has returned -/

theorem step_finished {code : Code σ μ} {c c' : Context σ μ} {l : Label} {out : List (Event μ)}
    (h : c.step code l = some (c', out)) (hs : c.stack = []) : c.phase ≠ .finished := by
  intro hp
  have hlook : c.looking = false := by simp [looking, hp]
  unfold step at h
  split at h
  · cases h
  · cases l with
    | tick => simp [hs, schedule, hp] at h
    | atOnce => simp [stepAtOnce, hs] at h
    | expire i => simp [hlook] at h
    | complete i => simp [hlook] at h
    | abort i => simp [hlook] at h

/-- No code runs after `run` has returned. -/
def Ended (c : Context σ μ) : Prop := c.phase = .finished → c.stack = []

theorem finishes {code : Code σ μ} {c c' : Context σ μ} {l : Label} {out : List (Event μ)}
    (h : c.step code l = some (c', out)) (hend : c.Ended) (hp' : c'.phase = .finished) :
    c.stack = [] ∧ c.phase = .loop ∧ c.processes.length = c.tombstones.length ∧
      c' = { c with phase := .finished } := by
  have hnot : c.phase ≠ .finished := fun hp => step_finished h (hend hp) hp
  cases effect_phase (step_effect h).2 with
  | code hs hp => exact absurd (hp.symm.trans hp') hnot
  | threw hs hr hp => simp [hp] at hp'
  | wait hs hp hs' => exact absurd (hp.symm.trans hp') hnot
  | back hs hp hd he => simp [he] at hp'
  | inside hs hp hf => exact absurd hp' hf
  | finish hs hp hn he => exact ⟨hs, hp, hn, he⟩

theorem step_ended {code : Code σ μ} {c c' : Context σ μ} {l : Label} {out : List (Event μ)}
    (h : c.step code l = some (c', out)) (hend : c.Ended) : c'.Ended := by
  intro hp'
  obtain ⟨hs, -, -, rfl⟩ := finishes h hend hp'
  exact hs

theorem ended_init (main : σ) : (init main : Context σ μ).Ended := by
  intro hp
  simp [init] at hp

end Context

theorem Code.ended {σ μ : Type} {code : Code σ μ} {ok : Context σ μ → Label → Prop} {main : σ}
    {tr : List (Event μ)} {c : Context σ μ} (h : code.RunsTo ok main tr c) : c.Ended :=
  h.invariant (fun _ c => c.Ended) (Context.ended_init main)
    fun _ _ _ _ _ hi _ hs => Context.step_ended hs hi

theorem Code.shaped {σ μ : Type} {code : Code σ μ} {ok : Context σ μ → Label → Prop} {main : σ}
    {tr : List (Event μ)} {c : Context σ μ} (h : code.RunsTo ok main tr c) : c.Shaped :=
  h.invariant (fun _ c => c.Shaped) (Context.shaped_init main)
    fun _ _ _ _ _ hi _ hs => Context.effect_shaped (Context.step_effect hs).2 hi

end Eslang
