import Eslang.Context.Cells

/-! # Where messages are: the queue of the context and the queues of the slots

`mail` is the queue of the context together with the contents of every slot that still exists. The
steps that move a message are the cases of `MailStep`; every other step leaves the mail alone. -/
namespace Eslang
set_option autoImplicit false
open Lib

structure Mail (μ : Type) where
  queue : List (ToProcessItem μ)
  /-- The contents of a slot; none once the slot is gone. -/
  box : SlotId → Option (List (MessageBase μ))

/-- The event of queueing an item. -/
def ToProcessItem.sent? {μ : Type} : ToProcessItem μ → Option (Event μ)
  | message a m => some (.sent a m)
  | resume _ _ => none

/-- The messages an event takes out of slot `s`. -/
def Event.popped? {μ : Type} (s : SlotId) : Event μ → Option (MessageBase μ)
  | popped s' m => if s' = s then some m else none
  | sent _ _ | delivered _ _ | discarded _ _ => none

/-- The values popped from slot `s` in a trace, in order. -/
def pops {μ : Type} (s : SlotId) (tr : List (Event μ)) : List (MessageBase μ) :=
  tr.filterMap (Event.popped? s)

theorem pops_append {μ : Type} (s : SlotId) (tr tr' : List (Event μ)) :
    pops s (tr ++ tr') = pops s tr ++ pops s tr' := List.filterMap_append

namespace Context
variable {σ μ : Type}

def mail (c : Context σ μ) : Mail μ where
  queue := c.queue
  box := fun s => (c.slots s).queue.map (·.contents)

/-! ## Operations that leave the mail alone -/

theorem box_setQueue (c : Context σ μ) (s : SlotId)
    (q : Option (MessageQueue (MessageBase μ) Continuation)) :
    (c.setQueue s q).mail =
      { c.mail with box := Function.update c.mail.box s (q.map (·.contents)) } := by
  have : (c.setQueue s q).mail.box = Function.update c.mail.box s (q.map (·.contents)) := by
    funext s'
    by_cases h : s' = s
    · subst h
      simp [mail, setQueue]
    · simp [mail, setQueue, h]
  rw [← this]
  rfl

theorem mail_setQueue_same {c : Context σ μ} {s : SlotId}
    {q : Option (MessageQueue (MessageBase μ) Continuation)}
    (h : q.map (·.contents) = c.mail.box s) : (c.setQueue s q).mail = c.mail := by
  rw [box_setQueue, h, Function.update_eq_self]

@[simp] theorem mail_fail (c : Context σ μ) (f : Fault) : (c.fail f).mail = c.mail := rfl

@[simp] theorem mail_post (c : Context σ μ) (fs : List Continuation) :
    (c.post fs).mail = c.mail := rfl

@[simp] theorem mail_cancelTimer (c : Context σ μ) (o : ObjId) :
    (c.cancelTimer o).mail = c.mail := rfl

@[simp] theorem mail_setPromise (c : Context σ μ) (f : PromiseRef)
    (p : EslangPromise Continuation) : (c.setPromise f p).mail = c.mail := by
  cases f with
  | throttle s =>
    apply mail_setQueue_same
    rw [Option.map_map]
    rfl
  | user n => rfl

@[simp] theorem mail_onPromise (c : Context σ μ) (f : PromiseRef)
    (act : EslangPromise Continuation → EslangPromise Continuation × List Continuation) :
    (c.onPromise f act).mail = c.mail := by
  unfold onPromise
  split <;> simp

@[simp] theorem mail_addtoDestroy (c : Context σ μ) (p : Pid) (reason : String) :
    (c.addtoDestroy p reason).mail = c.mail := by
  unfold addtoDestroy
  split <;> rfl

@[simp] theorem mail_spawned (c : Context σ μ) (self : Option ObjId) (how : SpawnKind) (p : Pid) :
    (c.spawned self how p).mail = c.mail := by
  unfold spawned
  split <;> rfl

@[simp] theorem mail_spawnWith (c : Context σ μ) (self : Option ObjId) (how : SpawnKind)
    (ctor : σ) : (c.spawnWith self how ctor).mail = c.mail := by
  unfold spawnWith nextPid
  split <;> rfl

theorem mail_link {c c' : Context σ μ} {o : ObjId} {p : Pid} (hl : c.link o p = .ok c') :
    c'.mail = c.mail := by
  unfold link at hl
  split at hl <;> cases hl
  rfl

@[simp] theorem mail_armTimer (c : Context σ μ) (o : ObjId) (w : Waiting) :
    (c.armTimer o w).mail = c.mail := by
  unfold armTimer
  split <;> rfl

@[simp] theorem mail_armFuture (c : Context σ μ) (o : ObjId) (w : Waiting) :
    (c.armFuture o w).mail = c.mail := by
  unfold armFuture
  split <;> simp

@[simp] theorem mail_resume (c : Context σ μ) (o : ObjId) : (c.resume o).mail = c.mail := by
  have hr := resume_resumes c o
  have henter : ∀ d : Context σ μ, (d.enter o).mail = d.mail := fun _ => rfl
  generalize c.resume o = c' at hr ⊢
  cases hr <;> simp [henter]

@[simp] theorem mail_runHandler (c : Context σ μ) (h : Handler σ) :
    (c.runHandler h).mail = c.mail := by
  cases h with
  | aborted => rfl
  | timer o n =>
    simp only [runHandler]
    split <;> simp
  | continuation f =>
    simp only [runHandler]
    split
    · rfl
    · split <;> simp
  | user owner s =>
    simp only [runHandler]
    split <;> rfl

/-! ## Operations that move messages -/

theorem mail_suspended (c : Context σ μ) (o : ObjId) (w : Waiting) (t : Coro σ μ) :
    (c.suspended o w t).mail =
      { c.mail with
        queue := c.queue ++
          if w.isReadyForResume then [.resume (c.heap o).pid (c.heap o).resumes] else [] } := by
  have hset : (c.setWaiting o (some w) t).mail = c.mail := rfl
  unfold suspended arm
  split
  next h => simp [mail, queueResume, setWaiting, setProc]
  next h =>
    rw [mail_armFuture, mail_armTimer, hset]
    simp [mail]

theorem mail_push (c : Context σ μ) (s : SlotId) (m : MessageBase μ) :
    (c.push s m).mail =
      { c.mail with box := Function.update c.mail.box s ((c.mail.box s).map (· ++ [m])) } := by
  have hbox : c.mail.box s = (c.slots s).queue.map (·.contents) := rfl
  unfold push
  split
  next hq =>
    have hnone : c.mail.box s = none := by simp [hbox, hq]
    rw [hnone, Option.map_none, ← hnone, Function.update_eq_self]
    rfl
  next q hq =>
    rw [box_setQueue]
    simp [hbox, hq]

theorem mail_send (c : Context σ μ) (o : ObjId) (a : SendAddress) (m : MessageBase μ) :
    (c.send o a m).mail =
      { c.mail with box := Function.update c.mail.box a.slot ((c.mail.box a.slot).map (· ++ [m])) } := by
  unfold send
  split
  · rw [mail_resume, mail_push]
  · exact mail_push c a.slot m

theorem mail_newSlot (c : Context σ μ) (role : Role) (o : ObjId) :
    (c.newSlot role o).mail =
      { c.mail with box := Function.update c.mail.box c.slotCount (some []) } := by
  have hbox : ∀ slots : SlotId → SlotCell μ,
      (fun s => (Function.update slots c.slotCount ⟨o, some {}⟩ s).queue.map (·.contents)) =
        Function.update (fun s => (slots s).queue.map (·.contents)) c.slotCount (some []) :=
    fun slots => funext fun s =>
      Function.apply_update (fun _ x => (SlotCell.queue x).map (·.contents)) slots _ _ s
  unfold newSlot
  split <;> simp [mail, setProc, hbox]

theorem mail_dropSlot (c : Context σ μ) (s : SlotId) :
    (c.dropSlot s).mail = { c.mail with box := Function.update c.mail.box s none } := by
  have hbox : c.mail.box s = (c.slots s).queue.map (·.contents) := rfl
  unfold dropSlot
  split
  next hq =>
    have hnone : c.mail.box s = none := by simp [hbox, hq]
    rw [← hnone, Function.update_eq_self]
  next q hq => rw [mail_post, box_setQueue, Option.map_none]

theorem mail_dropSlots (c : Context σ μ) (o : ObjId) :
    (c.dropSlots o).queue = c.queue ∧
      ∀ s, (c.dropSlots o).mail.box s = c.mail.box s ∨ (c.dropSlots o).mail.box s = none := by
  unfold dropSlots
  generalize (List.range c.slotCount).reverse.filter _ = ss
  induction ss generalizing c with
  | nil => exact ⟨rfl, fun _ => .inl rfl⟩
  | cons s ss ih =>
    obtain ⟨hq, hb⟩ := ih (c.dropSlot s)
    have hdrop := mail_dropSlot c s
    refine ⟨hq.trans (congrArg Mail.queue hdrop), fun s' => ?_⟩
    rw [hdrop] at hb
    rcases hb s' with h | h
    · by_cases he : s' = s
      · exact .inr (by simpa [he] using h)
      · exact .inl (by simpa [he] using h)
    · exact .inr h

theorem mail_getOptional (c : Context σ μ) (s : SlotId) :
    (c.getOptional s).2.queue = c.queue ∧
      ∀ s', c.mail.box s' = ((c.getOptional s).2.mail.box s').map
        (pops s' (poppedBy [s] [(c.getOptional s).1]) ++ ·) := by
  have hbox : c.mail.box s = (c.slots s).queue.map (·.contents) := rfl
  unfold getOptional
  split
  next hq => exact ⟨rfl, fun s' => by simp [poppedBy, pops]⟩
  next q hq =>
    split
    next hp => exact ⟨rfl, fun s' => by simp [poppedBy, pops]⟩
    next m q' posted hp =>
      refine ⟨rfl, fun s' => ?_⟩
      rw [mail_post, box_setQueue]
      by_cases he : s' = s
      · subst he
        simp [hbox, hq, MessageQueue.contents_pop hp, poppedBy, pops, Event.popped?]
      · simp [he, Ne.symm he, poppedBy, pops, Event.popped?]

theorem poppedBy_cons (s : SlotId) (ss : List SlotId) (v : Option (MessageBase μ))
    (vs : List (Option (MessageBase μ))) :
    poppedBy (s :: ss) (v :: vs) = poppedBy [s] [v] ++ poppedBy ss vs := by
  cases v <;> rfl

/-- **`get_vals` pops from the front**: what it takes from a slot and what it leaves there is what
was there. -/
theorem mail_getVals (c : Context σ μ) (ss : List SlotId) :
    (c.getVals ss).2.queue = c.queue ∧
      ∀ s, c.mail.box s = ((c.getVals ss).2.mail.box s).map
        (pops s (poppedBy ss (c.getVals ss).1) ++ ·) := by
  induction ss generalizing c with
  | nil => exact ⟨rfl, fun s => by simp [getVals, poppedBy, pops]⟩
  | cons s ss ih =>
    obtain ⟨hq, hb⟩ := mail_getOptional c s
    obtain ⟨hq', hb'⟩ := ih (c.getOptional s).2
    refine ⟨hq'.trans hq, fun s' => ?_⟩
    rw [hb s', hb' s', Option.map_map]
    simp only [getVals]
    rw [poppedBy_cons s ss]
    simp only [pops_append, List.append_assoc]
    rfl

theorem mail_notifyDeath (c : Context σ μ) (o : ObjId) :
    (c.notifyDeath o).mail = { c.mail with
      queue := c.queue ++ (c.heap o).notifyOnDie.map (.message · (.pid (c.heap o).pid)) } := by
  unfold notifyDeath
  generalize (c.heap o).notifyOnDie = as
  generalize (c.heap o).pid = p
  induction as generalizing c with
  | nil => simp [mail]
  | cons a as ih =>
    rw [List.foldl_cons, ih]
    simp [queueSend, mail]

theorem mail_destroy (c : Context σ μ) (dtor : σ → σ) (o : ObjId) (reason : String) :
    (c.destroy dtor o reason).mail = { c.mail with
      queue := c.queue ++ (c.heap o).notifyOnDie.map (.message · (.pid (c.heap o).pid)) } := by
  have hmail := killLinked_same mail (fun d p => mail_addtoDestroy d p reason) (c.setLife o .destroyed) o
  have hround : ∀ (d : Context σ μ) (p : Pid),
      (((d.addtoDestroy p reason).heap o).notifyOnDie, ((d.addtoDestroy p reason).heap o).pid) =
        ((d.heap o).notifyOnDie, (d.heap o).pid) := by
    intro d p
    refine Prod.ext ?_ ?_
    · exact congrArg Cell.notifyOnDie (congrFun (cells_addtoDestroy d p reason) o)
    · have hpid := congrFun (congrArg Table.pid (table_addtoDestroy d p reason)) o
      rwa [Table.kill_pid] at hpid
  have hsame := killLinked_same (fun d => ((d.heap o).notifyOnDie, (d.heap o).pid)) hround
    (c.setLife o .destroyed) o
  have hbegin : ∀ d : Context σ μ, (d.beginDestructor dtor o).mail = d.mail := fun _ => rfl
  have hlife : (c.setLife o .destroyed).mail = c.mail := rfl
  have hcell : ((c.setLife o .destroyed).heap o).notifyOnDie = (c.heap o).notifyOnDie ∧
      ((c.setLife o .destroyed).heap o).pid = (c.heap o).pid := by simp [setLife, setProc]
  simp only [Prod.mk.injEq, hcell] at hsame
  rw [destroy, hbegin, mail_notifyDeath, hsame.1, hsame.2, hmail, hlife]
  have hqueue := congrArg Mail.queue (hmail.trans hlife)
  simp only [mail] at hqueue
  rw [hqueue]

/-! ## The steps that move messages -/

/-- The places that hold an address of the library: a queued message, a death notification to be
sent, and `sendThrottled` in progress. -/
inductive Mentions (c : Context σ μ) (a : SendAddress) : Prop
  | queued {m : MessageBase μ} (h : .message a m ∈ c.queue)
  | note {o : ObjId} (h : a ∈ (c.cells o).notifyOnDie)
  | task {o : ObjId} {m : μ} {k : σ} (h : (c.cells o).task = .throttled a m k)
  | frame {role : Role} {m : μ} {k : σ} (h : ⟨role, .throttled a m k⟩ ∈ c.stack)

/-- Who queues a resume item: a process that suspends in a wait that is ready for resume, and one that
starts. -/
inductive Queues (c c' : Context σ μ) (p : Pid) (n : Nat) : Prop
  | suspend {o : ObjId} {t t' : Coro σ μ} {rest : List (Frame σ μ)} {w : Waiting}
      (hs : c.stack = ⟨.body o, t⟩ :: rest) (hs' : c'.stack = rest) (hp : p = (c.heap o).pid)
      (hn : n = (c.heap o).resumes) (hc : c'.cells o = (c.cells o).suspend (some w) t')
      (hr : w.isReadyForResume = true)
  | start {o : ObjId} {t : Coro σ μ} {rest : List (Frame σ μ)} (hs : c.stack = ⟨.ctor o, t⟩ :: rest)
      (hp : p = (c.heap o).pid) (hn : n = 0)

inductive MailStep (c c' : Context σ μ) (out : List (Event μ)) : Prop
  | quiet (h : c'.mail = c.mail) (ho : out = [])
  | enqueue {i : List (ToProcessItem μ)}
      (h : c'.mail = { c.mail with queue := c.queue ++ i })
      (ho : out = i.filterMap ToProcessItem.sent?)
      (hm : ∀ a m, .message a m ∈ i → c.Mentions a ∨ c.made a = true)
      (hr : ∀ p n, .resume p n ∈ i → Queues c c' p n)
  | newSlot (h : c'.mail = { c.mail with box := Function.update c.mail.box c.slotCount (some []) })
      (hc : c'.slotCount = c.slotCount + 1) (ho : out = [])
  | receive (hq : c'.queue = c.queue)
      (hb : ∀ s, c.mail.box s = (c'.mail.box s).map (pops s out ++ ·))
      (ho : ∀ e ∈ out, ∃ s m, e = .popped s m ∧ s < c.slotCount)
  | drop (hq : c'.queue = c.queue)
      (hb : ∀ s, c'.mail.box s = c.mail.box s ∨ c'.mail.box s = none) (ho : out = [])
  | deliver {a : SendAddress} {m : MessageBase μ} {o : ObjId} {q : List (ToProcessItem μ)}
      (hs : c.stack = []) (hq : c.queue = .message a m :: q) (hf : c.findProc a.pid = some o)
      (h : c'.mail = ⟨q, Function.update c.mail.box a.slot ((c.mail.box a.slot).map (· ++ [m]))⟩)
      (ho : out = [.delivered a m]) (hc : c' = (c.popFront q).send o a m)
      (hp : c.phase = .loop)
  | discard {a : SendAddress} {m : MessageBase μ} {q : List (ToProcessItem μ)} (hs : c.stack = [])
      (hq : c.queue = .message a m :: q) (hf : c.findProc a.pid = none)
      (h : c'.mail = { c.mail with queue := q }) (ho : out = [.discarded a m])
  | resume {p : Pid} {n : Nat} {q : List (ToProcessItem μ)} (hs : c.stack = [])
      (hq : c.queue = .resume p n :: q) (h : c'.mail = { c.mail with queue := q }) (ho : out = [])

theorem mailStep_suspended {c : Context σ μ} {o : ObjId} {t₀ : Coro σ μ} {rest : List (Frame σ μ)}
    (hs : c.stack = ⟨.body o, t₀⟩ :: rest) (w : Waiting) (t : Coro σ μ) :
    MailStep c ({ c with stack := rest }.suspended o w t) [] := by
  refine .enqueue (mail_suspended _ o w t) ?_ ?_ ?_
  · split <;> rfl
  · intro a m h
    split at h <;> simp at h
  · intro p n h
    split at h
    next hw =>
      simp only [List.mem_singleton, ToProcessItem.resume.injEq] at h
      have hcell := congrFun (cells_suspended { c with stack := rest } o w t) o
      rw [Function.update_self] at hcell
      exact .suspend hs (stack_suspended _ _ _ _) h.1 h.2 hcell hw
    next => simp at h

theorem mailStep_take {c : Context σ μ} {i : ToProcessItem μ} {q : List (ToProcessItem μ)}
    (hs : c.stack = []) (hp : c.phase = .loop) (hq : c.queue = i :: q) :
    MailStep c ((c.popFront q).processQueueItem i).1 ((c.popFront q).processQueueItem i).2 := by
  cases i with
  | message a m =>
    simp only [processQueueItem]
    split
    next o hf =>
      exact .deliver hs hq hf (mail_send (c.popFront q) o a m) rfl rfl hp
    next hf => exact .discard hs hq hf rfl rfl
  | resume p n =>
    simp only [processQueueItem]
    split
    · refine .resume hs hq ?_ rfl
      split
      · exact mail_resume _ _
      · rfl
    · exact .resume hs hq rfl rfl

theorem popped_poppedBy {ss : List SlotId} {vs : List (Option (MessageBase μ))} {e : Event μ}
    (h : e ∈ poppedBy ss vs) : ∃ s m, e = .popped s m ∧ s ∈ ss := by
  induction ss generalizing vs with
  | nil => simp [poppedBy] at h
  | cons s ss ih =>
    cases vs with
    | nil => simp [poppedBy] at h
    | cons v vs =>
      rw [poppedBy_cons] at h
      rcases List.mem_append.mp h with h | h
      · cases v with
        | none => simp [poppedBy] at h
        | some m =>
          simp only [poppedBy, List.mem_singleton] at h
          exact ⟨s, m, h, List.mem_cons_self⟩
      · obtain ⟨s', m, he, hm⟩ := ih h
        exact ⟨s', m, he, List.mem_cons_of_mem _ hm⟩

theorem atCheck_made {code : Code σ μ} {c : Context σ μ} {t : Coro σ μ} {a : SendAddress} {m : μ}
    {k : σ} {role : Role} {rest : List (Frame σ μ)} (hs : c.stack = ⟨role, t⟩ :: rest)
    (ht : AtCheck code c t a m k) : c.Mentions a ∨ c.made a = true := by
  rcases ht with rfl | ⟨_, -, -, hm, -⟩
  · exact .inl (.frame (show ⟨role, .throttled a m k⟩ ∈ c.stack by simp [hs]))
  · exact .inr hm

theorem effect_mail {code : Code σ μ} {c c' : Context σ μ} {l : Label} {out : List (Event μ)}
    (he : Effect code c l out c') : MailStep c c' out := by
  cases he with
  | goOn hs s => exact .quiet rfl rfl
  | fault f => exact .quiet rfl rfl
  | @send role s rest a m k hs hop hm s' =>
    refine .enqueue (i := [.message a (.user m)]) rfl rfl (fun a' m' h => ?_) (by simp)
    simp only [List.mem_singleton, ToProcessItem.message.injEq] at h
    exact .inr (h.1 ▸ hm)
  | suspend hw =>
    obtain ⟨t, hs⟩ := hw.stack
    exact mailStep_suspended hs _ _
  | @throttleSend o t rest a m k hs ht hc =>
    refine .enqueue (i := [.message a (.user m)]) rfl rfl (fun a' m' h => ?_) (by simp)
    simp only [List.mem_singleton, ToProcessItem.message.injEq] at h
    exact h.1 ▸ atCheck_made hs ht
  | newSlot hs ho s' =>
    refine .newSlot (mail_newSlot c _ _) ?_ rfl
    exact congrArg Names.slotCount (names_newSlot c _ _)
  | @dropSlot role s₀ rest s k hs hop ho s' =>
    have hd := mail_dropSlot c s
    refine .drop (congrArg Mail.queue hd) (fun s' => ?_) rfl
    show (c.dropSlot s).mail.box s' = _ ∨ (c.dropSlot s).mail.box s' = _
    rw [hd]
    by_cases he : s' = s
    · exact .inr (by simp [he])
    · exact .inl (by simp [he])
  | @getVals role s rest ss k hs hop ho s' =>
    obtain ⟨hq, hb⟩ := mail_getVals c ss
    refine .receive hq hb fun e he => ?_
    obtain ⟨s, m, rfl, hm⟩ := popped_poppedBy he
    have hown := List.all_eq_true.mp ho s hm
    simp only [ownsSlot, Bool.and_eq_true, decide_eq_true_eq] at hown
    exact ⟨s, m, rfl, hown.1⟩
  | spawn hs hop hm => exact .quiet (by simp) rfl
  | addKillOnDie hs p s' => exact .quiet rfl rfl
  | link hs p hl s' =>
    have hmail := mail_link hl
    exact .quiet hmail rfl
  | kill hs p s' => exact .quiet (mail_addtoDestroy _ _ _) rfl
  | newPromise hs owner s' => exact .quiet rfl rfl
  | onPromise hs n ha s' => exact .quiet (mail_onPromise _ _ _) rfl
  | asyncOp hs h' s' => exact .quiet rfl rfl
  | asyncDone hs hop => exact .quiet rfl rfl
  | @started o t role t' rest' self how hs body s' =>
    have hmail := mail_spawned (c.spawnArgs o body) self how (c.heap o).pid
    refine .enqueue (i := [.resume (c.heap o).pid 0]) hmail rfl (by simp) fun p n h => ?_
    simp only [List.mem_singleton, ToProcessItem.resume.injEq] at h
    exact .start hs h.1 h.2
  | @ctorThrew o s e role t' rest' hs hop s' =>
    obtain ⟨hq, hb⟩ := mail_dropSlots (c.setLife o .failed) o
    exact .drop hq hb rfl
  | leave hs hr => exact .quiet rfl rfl
  | bodyReturned hs => exact .quiet (mail_addtoDestroy _ _ _) rfl
  | bodyThrew hs e => exact .quiet (mail_addtoDestroy _ _ _) rfl
  | @dtorReturned o s rest hs hop =>
    obtain ⟨hq, hb⟩ := mail_dropSlots { c with stack := rest } o
    exact .drop hq hb rfl
  | escaped hs hr e => exact .quiet rfl rfl
  | finish hs hp hn => exact .quiet rfl rfl
  | take hs hp hq => exact mailStep_take hs hp hq
  | toRunOne hs hp hq => exact .quiet rfl rfl
  | ioReturn ph hs hp => exact .quiet rfl rfl
  | drained hs hp hr => exact .quiet rfl rfl
  | run hs hp hst hr => exact .quiet (mail_runHandler _ _) rfl
  | @destroy o reason rest hs hp hd =>
    refine .enqueue (mail_destroy { c with toDestroy := rest } code.dtor o reason) ?_ ?_ ?_
    · simp [List.filterMap_map, Function.comp_def, ToProcessItem.sent?]
    · intro a m h
      obtain ⟨a', ha, he⟩ := List.mem_map.mp h
      cases he
      exact .inl (.note (o := o) ha)
    · simp
  | toLoop hs hp hd => exact .quiet rfl rfl
  | expire i hl hw => exact .quiet rfl rfl
  | async i h' hl hh => exact .quiet rfl rfl

/-- A step adds items at the end of `queue_` or takes the first one. -/
theorem effect_queue {code : Code σ μ} {c c' : Context σ μ} {l : Label} {out : List (Event μ)}
    (he : Effect code c l out c') :
    (∃ items, c'.queue = c.queue ++ items ∧ (∀ a m, .message a m ∈ items → .sent a m ∈ out) ∧
        ∀ p n, .resume p n ∈ items → Queues c c' p n) ∨
      c.stack = [] ∧ ∃ i, c.queue = i :: c'.queue := by
  have keep (h : c'.queue = c.queue) :
      ∃ items, c'.queue = c.queue ++ items ∧ (∀ a m, .message a m ∈ items → .sent a m ∈ out) ∧
        ∀ p n, .resume p n ∈ items → Queues c c' p n :=
    ⟨[], by simpa using h, by simp, by simp⟩
  cases effect_mail he with
  | quiet h ho => exact .inl (keep (congrArg Mail.queue h))
  | @enqueue items h ho hm hr =>
    refine .inl ⟨items, congrArg Mail.queue h, fun a m hin => ?_, hr⟩
    rw [ho]
    exact List.mem_filterMap.mpr ⟨_, hin, rfl⟩
  | newSlot h hn ho => exact .inl (keep (congrArg Mail.queue h))
  | receive hq hb ho => exact .inl (keep hq)
  | drop hq hb ho => exact .inl (keep hq)
  | deliver hs hq hf h ho => exact .inr ⟨hs, _, hq.trans (congrArg _ (congrArg Mail.queue h).symm)⟩
  | discard hs hq hf h ho => exact .inr ⟨hs, _, hq.trans (congrArg _ (congrArg Mail.queue h).symm)⟩
  | resume hs hq h ho => exact .inr ⟨hs, _, hq.trans (congrArg _ (congrArg Mail.queue h).symm)⟩

/-! ## Every address in the system was made -/

theorem effect_mentions {code : Code σ μ} {c c' : Context σ μ} {l : Label} {out : List (Event μ)}
    (he : Effect code c l out c') (ht : c.table.Ok) {a : SendAddress} (h : c'.Mentions a) :
    c.Mentions a ∨ c.made a = true := by
  cases h with
  | @queued m h =>
    have hqueue : ∀ {q box}, c'.mail = ⟨q, box⟩ → c'.queue = q := fun h => congrArg Mail.queue h
    cases effect_mail he with
    | quiet hm ho => exact .inl (.queued (m := m) (hqueue hm ▸ h))
    | enqueue hm ho hin =>
      rw [hqueue hm] at h
      rcases List.mem_append.mp h with h | h
      · exact .inl (.queued h)
      · exact hin a m h
    | newSlot hm hc ho =>
      rw [hqueue hm] at h
      exact .inl (.queued h)
    | receive hq hb ho => exact .inl (.queued (m := m) (hq ▸ h))
    | drop hq hb ho => exact .inl (.queued (m := m) (hq ▸ h))
    | deliver hs hq hf hm ho =>
      rw [hqueue hm] at h
      exact .inl (.queued (m := m) (hq ▸ List.mem_cons_of_mem _ h))
    | discard hs hq hf hm ho =>
      rw [hqueue hm] at h
      exact .inl (.queued (m := m) (hq ▸ List.mem_cons_of_mem _ h))
    | resume hs hq hm ho =>
      rw [hqueue hm] at h
      exact .inl (.queued (m := m) (hq ▸ List.mem_cons_of_mem _ h))
  | @note o h =>
    cases effect_cell he ht o with
    | same hc hb => exact .inl (.note (hc ▸ h))
    | suspend hw he =>
      rw [he, cells_suspended, Function.update_self] at h
      exact .inl (.note h)
    | resumed hw hd hb hc => exact .inl (.note (by rw [hc] at h; exact h))
    | returned hb hl hc => exact .inl (.note (by rw [hc] at h; exact h))
    | created ho hl hn hc =>
      rcases hn with hn | ⟨a', hn, hm⟩
      · simp [hn] at h
      · simp only [hn, List.mem_singleton] at h
        exact .inr (h ▸ hm)
    | started hs hc => exact .inl (.note (by rw [hc] at h; exact h))
  | @task o m k h =>
    cases effect_cell he ht o with
    | same hc hb => exact .inl (.task (hc ▸ h))
    | suspend hw he =>
      rw [he, cells_suspended, Function.update_self] at h
      cases h
      cases hw with
      | yield hs hop hm hq => exact .inr hm
      | throttle hs hat hc => exact atCheck_made hs hat
    | resumed hw hd hb hc => exact .inl (.task (by rw [hc] at h; exact h))
    | returned hb hl hc => exact .inl (.task (by rw [hc] at h; exact h))
    | created ho hl hn hc =>
      obtain ⟨ctor, notes, hc⟩ := hc
      simp [hc] at h
    | started hs hc => simp [hc] at h
  | @frame role m k h =>
    cases effect_stack he with
    | same hs => exact .inl (.frame (hs ▸ h))
    | goOn hs hs' =>
      rw [hs'] at h
      rcases List.mem_cons.mp h with h | h
      · cases h
      · exact .inl (.frame (by rw [hs]; exact List.mem_cons_of_mem _ h))
    | pop hs hs' => exact .inl (.frame (by rw [hs]; exact List.mem_cons_of_mem _ (hs' ▸ h)))
    | call hs hs' =>
      rw [hs'] at h
      rcases List.mem_cons.mp h with h | h
      · cases h
      · exact .inl (.frame h)
    | ret hs hs' =>
      rw [hs'] at h
      rcases List.mem_cons.mp h with h | h
      · cases h
      · exact .inl (.frame (by rw [hs]; exact List.mem_cons_of_mem _ (List.mem_cons_of_mem _ h)))
    | @resumed o hs hw hd hq hs' =>
      rw [hs', List.mem_singleton, Frame.mk.injEq] at h
      exact .inl (.task (o := o) h.2.symm)
    | enter hs hr hs' =>
      rw [hs', List.mem_singleton, Frame.mk.injEq] at h
      cases h.2

theorem effect_made {code : Code σ μ} {c c' : Context σ μ} {l : Label} {out : List (Event μ)}
    (he : Effect code c l out c') (ht : c.table.Ok) (hr : c.Refs) {a : SendAddress}
    (h : c.made a = true) : c'.made a = true := by
  have hk := step_keeps he ht
  simp only [made, Bool.and_eq_true, decide_eq_true_eq] at h ⊢
  obtain ⟨hlt, hp⟩ := h
  obtain ⟨hup, hown⟩ := effect_owner he
  rw [hown _ hlt, hk.pid (hr.owners hlt)]
  exact ⟨Nat.lt_of_lt_of_le hlt hup, hp⟩

/-- Every address in the system was made. -/
def Addressed (c : Context σ μ) : Prop := ∀ a, c.Mentions a → c.made a = true

theorem effect_addressed {code : Code σ μ} {c c' : Context σ μ} {l : Label} {out : List (Event μ)}
    (he : Effect code c l out c') (ht : c.table.Ok) (hr : c.Refs) (h : c.Addressed) :
    c'.Addressed := by
  intro a ha
  rcases effect_mentions he ht ha with ha | ha
  · exact effect_made he ht hr (h a ha)
  · exact effect_made he ht hr ha

theorem addressed_init (main : σ) : (init main : Context σ μ).Addressed := by
  rintro a (h | h | h | h)
  all_goals simp [init, cells, RunningProcess.cell] at h

end Context
end Eslang
