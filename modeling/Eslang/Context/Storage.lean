import Eslang.Context.Faults
import Eslang.Context.Releases

/-! # When slots and promises go

A slot exists as long as its throttle promise does, so `Context.promise` tells of slots and promises alike
what is there. `effect_gone` says that a step takes nothing away except where an object dies: a
destructor returns, a constructor throws, or the code destroys a slot of its own. -/
namespace Eslang
set_option autoImplicit false
open Lib

namespace Context
variable {σ μ : Type}

/-- The object that a promise, or the slot of a throttle promise, is part of. -/
def ownerOf (c : Context σ μ) : PromiseRef → Option ObjId
  | .throttle s => some (c.slots s).owner
  | .user n => (c.promises n).owner

theorem promise_throttle_none {c : Context σ μ} {s : SlotId} :
    c.promise (.throttle s) = none ↔ (c.slots s).queue = none := by
  simp [promise]

/-! ## Operations that take nothing away -/

/-- `d` has the slots and promises of `c`, and whatever is missing in `d` was missing in `c`. -/
structure Retains (c d : Context σ μ) : Prop where
  gone : ∀ p, d.promise p = none → c.promise p = none
  owner : ∀ p, d.ownerOf p = c.ownerOf p
  known : ∀ p, d.knowsPromise p = c.knowsPromise p

theorem retains_rfl {c d : Context σ μ} (hs : d.slots = c.slots) (hp : d.promises = c.promises)
    (hn : d.slotCount = c.slotCount) (hm : d.promiseCount = c.promiseCount) : Retains c d := by
  refine ⟨fun p h => ?_, fun p => ?_, fun p => ?_⟩
  · cases p with
    | throttle s => simpa [promise, hs] using h
    | user n => simpa [promise, hp] using h
  · cases p <;> simp [ownerOf, hs, hp]
  · cases p <;> simp [knowsPromise, hn, hm]

theorem Retains.refl (c : Context σ μ) : Retains c c := retains_rfl rfl rfl rfl rfl

theorem Retains.trans {c d e : Context σ μ} (h : Retains c d) (h' : Retains d e) : Retains c e :=
  ⟨fun p hp => h.gone p (h'.gone p hp), fun p => (h'.owner p).trans (h.owner p),
    fun p => (h'.known p).trans (h.known p)⟩

theorem owner_setQueue (c : Context σ μ) (s : SlotId)
    (q : Option (MessageQueue (MessageBase μ) Continuation)) (p : PromiseRef) :
    (c.setQueue s q).ownerOf p = c.ownerOf p := by
  cases p with
  | user n => rfl
  | throttle s' =>
    by_cases he : s' = s
    · subst he
      simp [ownerOf, setQueue]
    · simp [ownerOf, setQueue, he]

theorem retains_setQueue {c : Context σ μ} {s : SlotId}
    {q : Option (MessageQueue (MessageBase μ) Continuation)}
    (h : q = none → (c.slots s).queue = none) : Retains c (c.setQueue s q) := by
  refine ⟨fun p hp => ?_, owner_setQueue c s q, fun p => by cases p <;> rfl⟩
  by_cases he : p = .throttle s
  · subst he
    rw [promise_setQueue_self, Option.map_eq_none_iff] at hp
    exact promise_throttle_none.mpr (h hp)
  · rwa [promise_setQueue_ne q he] at hp

theorem retains_setPromise (c : Context σ μ) (f : PromiseRef) (p : EslangPromise Continuation) :
    Retains c (c.setPromise f p) := by
  cases f with
  | throttle s => exact retains_setQueue fun h => by simpa using h
  | user n =>
    refine ⟨fun g hg => ?_, fun g => ?_, fun g => by cases g <;> rfl⟩
    · by_cases he : g = .user n
      · subst he
        simp [setPromise, promise] at hg
      · rwa [promise_setPromise_ne p he] at hg
    · cases g with
      | throttle s => rfl
      | user m =>
        by_cases he : m = n
        · subst he
          simp [ownerOf, setPromise]
        · simp [ownerOf, setPromise, he]

theorem retains_onPromise (c : Context σ μ) (f : PromiseRef)
    (act : EslangPromise Continuation → EslangPromise Continuation × List Continuation) :
    Retains c (c.onPromise f act) := by
  unfold onPromise
  split
  · exact retains_rfl rfl rfl rfl rfl
  · exact (retains_setPromise c f _).trans (retains_rfl rfl rfl rfl rfl)

theorem retains_addtoDestroy (c : Context σ μ) (p : Pid) (reason : String) :
    Retains c (c.addtoDestroy p reason) := by
  unfold addtoDestroy
  split <;> exact retains_rfl rfl rfl rfl rfl

theorem retains_push (c : Context σ μ) (s : SlotId) (m : MessageBase μ) : Retains c (c.push s m) := by
  unfold push
  split
  · exact retains_rfl rfl rfl rfl rfl
  · exact retains_setQueue (by simp)

theorem retains_resume (c : Context σ μ) (o : ObjId) : Retains c (c.resume o) := by
  have htimer : Retains c (c.cancelTimer o) := retains_rfl rfl rfl rfl rfl
  have hr := resume_resumes c o
  generalize c.resume o = d at hr
  cases hr with
  | dead hd => exact .refl c
  | plain hd hf => exact retains_rfl rfl rfl rfl rfl
  | gone hd hf hp => exact retains_rfl rfl rfl rfl rfl
  | raised hd hf hp he =>
    exact htimer.trans (retains_addtoDestroy _ _ _)
  | woken hd hf hp he =>
    exact htimer.trans ((retains_setPromise _ _ _).trans (retains_rfl rfl rfl rfl rfl))

theorem retains_suspended (c : Context σ μ) (o : ObjId) (w : Waiting) (t : Coro σ μ) :
    Retains c (c.suspended o w t) := by
  have htimer : Retains c ((c.setWaiting o (some w) t).armTimer o w) := by
    unfold armTimer
    split <;> exact retains_rfl rfl rfl rfl rfl
  unfold suspended arm
  split
  · exact retains_rfl rfl rfl rfl rfl
  · unfold armFuture
    split
    · exact htimer
    · exact htimer.trans (retains_onPromise _ _ _)

theorem retains_getVals (c : Context σ μ) (ss : List SlotId) : Retains c (c.getVals ss).2 := by
  induction ss generalizing c with
  | nil => exact .refl c
  | cons s ss ih =>
    refine Retains.trans ?_ (ih (c.getOptional s).2)
    unfold getOptional
    split
    · exact retains_rfl rfl rfl rfl rfl
    next q hq =>
      split
      · exact .refl c
      · exact (retains_setQueue (by simp)).trans (retains_rfl rfl rfl rfl rfl)

theorem retains_processQueueItem (c : Context σ μ) (i : ToProcessItem μ) :
    Retains c (c.processQueueItem i).1 := by
  cases i with
  | message a m =>
    simp only [processQueueItem]
    split
    · unfold send
      split
      · exact (retains_push _ _ _).trans (retains_resume _ _)
      · exact retains_push _ _ _
    · exact .refl c
  | resume p n =>
    simp only [processQueueItem]
    split
    · split
      · exact retains_resume _ _
      · exact .refl c
    · exact .refl c

theorem retains_runHandler (c : Context σ μ) (d : Handler σ) : Retains c (c.runHandler d) := by
  cases d with
  | aborted => exact .refl c
  | user owner s =>
    simp only [runHandler]
    split <;> exact retains_rfl rfl rfl rfl rfl
  | timer o n =>
    simp only [runHandler]
    split
    · exact retains_rfl rfl rfl rfl rfl
    · exact retains_resume _ _
  | continuation f =>
    simp only [runHandler]
    split
    · exact retains_rfl rfl rfl rfl rfl
    · split
      · exact retains_resume _ _
      · exact .refl c

theorem retains_destroy (c : Context σ μ) (dtor : σ → σ) (o : ObjId) (reason : String) :
    Retains c (c.destroy dtor o reason) := by
  have hkill : Retains c ((c.setLife o .destroyed).killLinked o reason) :=
    killLinked_rec (P := Retains c) (c := c.setLife o .destroyed) (retains_rfl rfl rfl rfl rfl)
      (fun d p hd => hd.trans (retains_addtoDestroy d p reason)) o
  have hnotify : Retains c (((c.setLife o .destroyed).killLinked o reason).notifyDeath o) :=
    notifyDeath_rec (P := Retains c) hkill (fun d a m hd => hd.trans (retains_rfl rfl rfl rfl rfl)) o
  exact hnotify.trans (retains_rfl rfl rfl rfl rfl)

/-! ## Objects that die -/

theorem gone_dropSlot {c : Context σ μ} {s : SlotId} {p : PromiseRef}
    (h : (c.dropSlot s).promise p = none) : c.promise p = none ∨ p = .throttle s := by
  by_cases he : p = .throttle s
  · exact .inr he
  · left
    unfold dropSlot at h
    split at h
    · exact h
    · have h : (c.setQueue s none).promise p = none := by cases p <;> exact h
      rwa [promise_setQueue_ne none he] at h

theorem store_dropSlot (c : Context σ μ) (s : SlotId) (p : PromiseRef) :
    (c.dropSlot s).ownerOf p = c.ownerOf p ∧ (c.dropSlot s).knowsPromise p = c.knowsPromise p := by
  unfold dropSlot
  split
  · exact ⟨rfl, rfl⟩
  · refine ⟨?_, by cases p <;> rfl⟩
    rw [← owner_setQueue c s none p]
    cases p <;> rfl

theorem gone_dropSlots {c : Context σ μ} {o : ObjId} {p : PromiseRef}
    (h : (c.dropSlots o).promise p = none) : c.promise p = none ∨ c.ownerOf p = some o := by
  have hall : ∀ (ss : List SlotId) (d : Context σ μ), (∀ s ∈ ss, d.ownerOf (.throttle s) = some o) →
      (ss.foldl dropSlot d).promise p = none → d.promise p = none ∨ d.ownerOf p = some o := by
    intro ss
    induction ss with
    | nil => exact fun d _ hp => .inl hp
    | cons s ss ih =>
      intro d hown hp
      have hrest := ih (d.dropSlot s)
        (fun s' hs' => by rw [(store_dropSlot _ _ _).1]; exact hown s' (List.mem_cons_of_mem _ hs')) hp
      rw [(store_dropSlot d s p).1] at hrest
      refine hrest.elim (fun hn => (gone_dropSlot hn).imp id ?_) .inr
      rintro rfl
      exact hown s List.mem_cons_self
  refine hall _ c (fun s hs => ?_) h
  simpa [ownerOf] using (List.mem_filter.mp hs).2

theorem store_destroyed (c : Context σ μ) (o : ObjId) (p : PromiseRef) :
    (c.destroyed o).ownerOf p = c.ownerOf p ∧ (c.destroyed o).knowsPromise p = c.knowsPromise p := by
  have howner := dropSlots_same (fun d => d.ownerOf p) (fun d s => (store_dropSlot d s p).1) c o
  have hknown := dropSlots_same (fun d => d.knowsPromise p) (fun d s => (store_dropSlot d s p).2) c o
  refine ⟨?_, by rw [← hknown]; cases p <;> rfl⟩
  rw [← howner]
  cases p with
  | throttle s => rfl
  | user n =>
    show (if _ then _ else _ : PromiseCell).owner = _
    split <;> rfl

theorem gone_dropPromises {c : Context σ μ} {o : ObjId} {p : PromiseRef}
    (h : (c.dropPromises o).promise p = none) : c.promise p = none ∨ c.ownerOf p = some o := by
  cases p with
  | throttle s => exact .inl h
  | user n =>
    by_cases ho : (c.promises n).owner = some o
    · exact .inr ho
    · exact .inl (by simpa [dropPromises, promise, ho] using h)

theorem gone_destroyed {c : Context σ μ} {o : ObjId} {p : PromiseRef}
    (h : (c.destroyed o).promise p = none) : c.promise p = none ∨ c.ownerOf p = some o := by
  rcases gone_dropPromises h with h | h
  · exact gone_dropSlots h
  · right
    rw [← h]
    exact (dropSlots_same (fun d => d.ownerOf p) (fun d s => (store_dropSlot d s p).1) c o).symm

/-! ## The inversion -/

/-- What a step does to the slots and promises. -/
structure StoreStep (code : Code σ μ) (c c' : Context σ μ) : Prop where
  known : ∀ p, c.knowsPromise p = true → c'.knowsPromise p = true
  owner : ∀ p, c.knowsPromise p = true → c'.ownerOf p = c.ownerOf p
  gone : ∀ p, c'.knowsPromise p = true → c'.promise p = none →
    (c.knowsPromise p = true ∧ c.promise p = none) ∨
      (∃ o, Drops code c o ∧ c.knowsPromise p = true ∧ c.ownerOf p = some o) ∨
      ∃ s, DropsSlot code c s ∧ p = .throttle s

theorem Retains.storeStep {code : Code σ μ} {c c' : Context σ μ} (h : Retains c c') :
    StoreStep code c c' where
  known p hp := (h.known p).trans hp
  owner p _ := h.owner p
  gone p hk hp := .inl ⟨(h.known p).symm.trans hk, h.gone p hp⟩

theorem storeStep_drops {code : Code σ μ} {c d : Context σ μ} {o : ObjId} (hd : Drops code c o)
    (h : Retains c d) : StoreStep code c (d.destroyed o) where
  known p hp := by rw [(store_destroyed d o p).2, h.known p, hp]
  owner p _ := by rw [(store_destroyed d o p).1, h.owner p]
  gone p hk hp := by
    rw [(store_destroyed d o p).2, h.known p] at hk
    rcases gone_destroyed hp with hp | ho
    · exact .inl ⟨hk, h.gone p hp⟩
    · exact .inr (.inl ⟨o, hd, hk, (h.owner p).symm.trans ho⟩)

theorem storeStep_newSlot {code : Code σ μ} (c : Context σ μ) (role : Role) (o : ObjId) :
    StoreStep code c (c.newSlot role o) := by
  have hpromise (p : PromiseRef) (hp : p ≠ .throttle c.slotCount) :
      (c.newSlot role o).promise p = c.promise p ∧ (c.newSlot role o).ownerOf p = c.ownerOf p := by
    unfold newSlot
    cases p with
    | user n => split <;> exact ⟨rfl, rfl⟩
    | throttle s =>
      have hs : s ≠ c.slotCount := fun he => hp (he ▸ rfl)
      split <;> simp [promise, ownerOf, setProc, hs]
  have hcount : (c.newSlot role o).slotCount = c.slotCount + 1 ∧
      (c.newSlot role o).promiseCount = c.promiseCount := by
    unfold newSlot
    split <;> exact ⟨rfl, rfl⟩
  have hnew (p : PromiseRef) (hk : c.knowsPromise p = true) : p ≠ .throttle c.slotCount := by
    rintro rfl
    simp [knowsPromise] at hk
  refine ⟨fun p hk => ?_, fun p hk => (hpromise p (hnew p hk)).2, fun p hk hp => ?_⟩
  · cases p with
    | throttle s =>
      simp only [knowsPromise, hcount.1, decide_eq_true_eq] at hk ⊢
      exact Nat.lt_succ_of_lt hk
    | user n => simpa [knowsPromise, hcount.2] using hk
  · have hne : p ≠ .throttle c.slotCount := by
      rintro rfl
      rw [promise_throttle_none] at hp
      unfold newSlot at hp
      split at hp <;> simp [setProc] at hp
    refine .inl ⟨?_, (hpromise p hne).1 ▸ hp⟩
    cases p with
    | throttle s =>
      have hs : s ≠ c.slotCount := fun he => hne (he ▸ rfl)
      simp only [knowsPromise, hcount.1, decide_eq_true_eq] at hk ⊢
      exact Nat.lt_of_le_of_ne (Nat.lt_succ_iff.mp hk) hs
    | user n => simpa [knowsPromise, hcount.2] using hk

theorem storeStep_newPromise {code : Code σ μ} (c : Context σ μ) (owner : Option ObjId) :
    StoreStep code c (c.newPromise owner) := by
  refine ⟨fun p hk => ?_, fun p hk => ?_, fun p hk hp => ?_⟩
  · cases p with
    | throttle s => exact hk
    | user n =>
      have hk : n < c.promiseCount := of_decide_eq_true hk
      exact decide_eq_true (Nat.lt_succ_of_lt hk)
  · cases p with
    | throttle s => rfl
    | user n =>
      simp only [knowsPromise, decide_eq_true_eq] at hk
      simp [ownerOf, newPromise, Nat.ne_of_lt hk]
  · cases p with
    | throttle s => exact .inl ⟨hk, hp⟩
    | user n =>
      by_cases hn : n = c.promiseCount
      · subst hn
        simp [promise, newPromise] at hp
      · have hk : n < c.promiseCount + 1 := of_decide_eq_true hk
        refine .inl ⟨decide_eq_true (by omega), ?_⟩
        simpa [promise, newPromise, hn] using hp

theorem storeStep_dropSlot {code : Code σ μ} {c : Context σ μ} {s : SlotId}
    (hd : DropsSlot code c s) : StoreStep code c (c.dropSlot s) where
  known p hp := by rw [(store_dropSlot c s p).2, hp]
  owner p _ := (store_dropSlot c s p).1
  gone p hk hp := by
    rw [(store_dropSlot c s p).2] at hk
    exact (gone_dropSlot hp).imp (fun h => ⟨hk, h⟩) fun h => .inr ⟨s, hd, h⟩

theorem StoreStep.trans_spares {code : Code σ μ} {c d e : Context σ μ} (h : StoreStep code c d)
    (h' : Retains d e) : StoreStep code c e where
  known p hp := (h'.known p).trans (h.known p hp)
  owner p hp := (h'.owner p).trans (h.owner p hp)
  gone p hk hp := h.gone p ((h'.known p).symm.trans hk) (h'.gone p hp)

theorem retains_spawnWith (c : Context σ μ) (self : Option ObjId) (how : SpawnKind) (ctor : σ) :
    Retains c (c.spawnWith self how ctor) := by
  unfold spawnWith nextPid
  split <;> exact retains_rfl rfl rfl rfl rfl

theorem retains_link {c c' : Context σ μ} {o : ObjId} {p : Pid} (hl : c.link o p = .ok c') :
    Retains c c' := by
  unfold link at hl
  split at hl <;> cases hl
  exact retains_rfl rfl rfl rfl rfl

theorem effect_store {code : Code σ μ} {c c' : Context σ μ} {l : Label} {out : List (Event μ)}
    (he : Effect code c l out c') : StoreStep code c c' := by
  have hgo (d : Context σ μ) (role : Role) (rest : List (Frame σ μ)) (s : σ) :
      Retains d (d.continueWith role rest s) := retains_rfl rfl rfl rfl rfl
  have hpop (st : List (Frame σ μ)) : Retains c { c with stack := st } := retains_rfl rfl rfl rfl rfl
  cases he with
  | suspend hw => exact ((hpop _).trans (retains_suspended _ _ _ _)).storeStep
  | newSlot hs ho s' => exact (storeStep_newSlot c _ _).trans_spares (hgo _ _ _ _)
  | dropSlot hs hop ho s' =>
    exact (storeStep_dropSlot ⟨_, _, _, _, hs, hop⟩).trans_spares (hgo _ _ _ _)
  | getVals hs hop ho s' => exact ((retains_getVals c _).trans (hgo _ _ _ _)).storeStep
  | spawn hs hop hm hself => exact (retains_spawnWith c _ _ _).storeStep
  | link hs p hl s' hop ho => exact ((retains_link hl).trans (hgo _ _ _ _)).storeStep
  | kill hs p s' hop hself => exact ((retains_addtoDestroy c p "").trans (hgo _ _ _ _)).storeStep
  | newPromise hs owner s' => exact (storeStep_newPromise c owner).trans_spares (hgo _ _ _ _)
  | onPromise hs n ha s' => exact ((retains_onPromise c _ _).trans (hgo _ _ _ _)).storeStep
  | @started o s role t' rest' self how hs body s' hcall hself hop =>
    have hspawn : Retains c ((c.spawnArgs o body).spawned self how (c.heap o).pid) := by
      unfold spawned
      split <;> exact retains_rfl rfl rfl rfl rfl
    exact (hspawn.trans (hgo _ _ _ _)).storeStep
  | @ctorThrew o s e role t' rest' hs hop s' =>
    have hlife : Retains c (c.setLife o .failed) := retains_rfl rfl rfl rfl rfl
    exact (storeStep_drops ⟨s, _, .inr ⟨e, hs, hop⟩⟩ hlife).trans_spares (hgo _ _ _ _)
  | @bodyReturned o t rest hs =>
    have hset : Retains c ({ c with stack := rest }.setWaiting o none (c.heap o).task) :=
      retains_rfl rfl rfl rfl rfl
    exact (hset.trans (retains_addtoDestroy _ _ _)).storeStep
  | bodyThrew hs e => exact ((hpop _).trans (retains_addtoDestroy _ _ _)).storeStep
  | @dtorReturned o s rest hs hop => exact storeStep_drops ⟨s, rest, .inl ⟨hs, hop⟩⟩ (hpop rest)
  | @take i q hs hp hq =>
    have hfront : Retains c (c.popFront q) := retains_rfl rfl rfl rfl rfl
    exact (hfront.trans (retains_processQueueItem _ i)).storeStep
  | @run d ds hs hp hst hr =>
    have hready : Retains c (c.popReady ds) := retains_rfl rfl rfl rfl rfl
    exact (hready.trans (retains_runHandler _ d)).storeStep
  | @destroy o reason rest hs hp hd =>
    have hrest : Retains c { c with toDestroy := rest } := retains_rfl rfl rfl rfl rfl
    exact (hrest.trans (retains_destroy _ _ o reason)).storeStep
  | _ =>
    apply Retains.storeStep
    exact retains_rfl rfl rfl rfl rfl

end Context
end Eslang
