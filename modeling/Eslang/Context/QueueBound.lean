import Eslang.Context.Freshness
import Eslang.Context.Delivery

/-! # Awaited sends bound `queue_`

`Process::send` queues its message and returns a `WaitingMaybe` that is true when `queue_` holds more than
ten items; a process that awaits it then queues its own resume item and is suspended until that item is
taken. So behind the first ten items of `queue_` no two messages stand next to each other, and every
resume item stands for a process that waits for one. Both parts of the queue are at most as long as
there are processes. A method that awaits a send when it is started suspends alone, and the process that started
it sends on (`sendsInMethods`). -/
namespace Eslang
set_option autoImplicit false
open Lib

/-- `s` is `co_await w`: the readiness test, then the suspension in the same wait. -/
def Code.AwaitsAtOnce {σ μ : Type} (code : Code σ μ) (s : σ) (w : Waiting) : Prop :=
  ∃ k, code.op s = .awaitReady w k ∧ ∃ k', code.op (k false) = .awaitSuspend w k'

def ToProcessItem.isResume {μ : Type} : ToProcessItem μ → Bool
  | resume _ _ => true
  | message _ _ => false

@[simp] theorem isResume_resume {μ : Type} (p : Pid) (n : Nat) :
    (ToProcessItem.resume p n : ToProcessItem μ).isResume = true := rfl

@[simp] theorem isResume_message {μ : Type} (a : SendAddress) (m : MessageBase μ) :
    (ToProcessItem.message a m).isResume = false := rfl

theorem Waiting.not_ready_of_slot {w : Waiting} {s : SlotId} (h : s ∈ w.slots) :
    w.isReadyForResume = false := by
  induction w with
  | messages ss => rfl
  | withTimeout t u ih => exact ih h
  | withFuture p u ih => exact ih h
  | _ => simp [slots] at h

namespace Context
variable {σ μ : Type}

/-- The running code sends from the body of a process and awaits each send at once, does not call
`sendThrottled` and waits on no promise, and no process that dies has anyone to notify. -/
structure AwaitsSends (code : Code σ μ) (c : Context σ μ) (_ : Label) : Prop where
  send : ∀ role s rest a m k, c.stack = ⟨role, .code s⟩ :: rest → code.op s = .send a m k →
    (∃ o, role = .body o) ∧ ∀ b, code.AwaitsAtOnce (k b) (.maybe b)
  unthrottled : ∀ role t rest, c.stack = ⟨role, t⟩ :: rest → ∃ s, t = .code s ∧
    ∀ a m k, code.op s ≠ .sendThrottled a m k
  wait : ∀ role s rest w k, c.stack = ⟨role, .code s⟩ :: rest → code.op s = .awaitSuspend w k →
    w.wakeOnFuture = none
  notify : ∀ d ∈ c.toDestroy, (c.heap d.1).notifyOnDie = []

theorem AwaitsSends.awaits {code : Code σ μ} {c : Context σ μ} {l : Label}
    (hg : c.AwaitsSends code l) {o : ObjId} {rest : List (Frame σ μ)} {w : Waiting} {t : Coro σ μ}
    (hw : Awaits code c o rest w t) : w.wakeOnFuture = none := by
  cases hw with
  | yield hs hop hm hq => rfl
  | throttle hs ht hc =>
    obtain ⟨s, rfl, hs'⟩ := hg.unthrottled _ _ _ hs
    rcases ht with ht | ⟨s', ht, hop, -, -⟩
    · cases ht
    · cases ht
      exact absurd hop (hs' _ _ _)
  | plain hs hop hb => exact hg.wait _ _ _ _ _ hs hop

/-! ## No promise wakes anyone -/

def NoContinuation (c : Context σ μ) : Prop := ∀ k, ¬ c.Holds (.continuation k)

theorem effect_noContinuation {code : Code σ μ} {c c' : Context σ μ} {l : Label}
    {out : List (Event μ)} (he : Effect code c l out c') (hg : c.AwaitsSends code l)
    (h : c.NoContinuation) : c'.NoContinuation := by
  intro k hk
  rcases effect_registers he hk with hk | ⟨o, rest, w, t, hw, -, -, hr⟩
  · exact h k hk
  · simp [Waiting.registers, hg.awaits hw] at hr

theorem noContinuation_init (main : σ) : (init main : Context σ μ).NoContinuation := by
  rintro k (⟨h, -⟩ | h)
  · rename_i f p
    cases f <;> simp [init, promise] at h
  · cases h

theorem NoContinuation.timersInTime {c : Context σ μ} (h : c.NoContinuation) (l : Label) :
    c.TimersInTime l := by
  intro o ds _ _ _ hr _ n
  exact absurd (.posted (by simp [hr])) (h ⟨o, (c.heap o).resumes⟩)

/-! ## The processes that wait for an item -/

/-- The body of `o` runs, or `o` is suspended in a wait that does not make it ready at once. -/
def Engaged (c : Context σ μ) (o : ObjId) : Prop :=
  .body o ∈ c.table.roles ∨
    c.Idle o ∧ ∃ w, (c.heap o).lastWaiting = some w ∧ w.isReadyForResume = false

/-- The processes that were spawned, dead ones included. -/
def everSpawned (c : Context σ μ) : Finset ObjId :=
  (Finset.range c.heapSize).filter fun o => c.table.Started o

open Classical in
/-- Those of them that an item of `queue_` is to resume, and dead ones. -/
noncomputable def resting (c : Context σ μ) : Finset ObjId :=
  c.everSpawned.filter fun o => ¬ c.Engaged o

theorem mem_everSpawned {c : Context σ μ} (ht : c.table.Ok) {o : ObjId} :
    o ∈ c.everSpawned ↔ c.table.Started o := by
  simp only [everSpawned, Finset.mem_filter, Finset.mem_range, and_iff_right_iff_imp]
  exact fun h => ht.allocated h.2

theorem mem_resting {c : Context σ μ} (ht : c.table.Ok) {o : ObjId} :
    o ∈ c.resting ↔ c.table.Started o ∧ ¬ c.Engaged o := by
  simp only [resting, Finset.mem_filter, mem_everSpawned ht]

/-- Only an item of `queue_` resumes a process that is not engaged. -/
theorem woken_engaged {c : Context σ μ} (hf : c.Fresh) (hno : c.NoContinuation) {o : ObjId}
    (hw : c.Woken o) (hd : (c.heap o).dead = false) :
    c.Engaged o ∨ c.phase = .loop ∧ ∃ p n q, c.queue = .resume p n :: q ∧ c.findProc p = some o := by
  cases hw with
  | item hs hp hq hfind => exact .inr ⟨hp, _, _, _, hq, hfind⟩
  | @message a m q hs hp hq hfind hwait =>
    refine .inl (.inr ⟨⟨hd, by simp [table, hs]⟩, ?_⟩)
    unfold waitingFor at hwait
    split at hwait
    next w hl => exact ⟨w, hl, Waiting.not_ready_of_slot (by simpa [Waiting.isWaiting] using hwait)⟩
    next => cases hwait
  | @timer n ds hs hp hst hr =>
    have hin : (o, n) ∈ c.io.clock := holds_timer.mp (.expired (by simp [hr]))
    obtain ⟨-, hidle, w, hl, hreg⟩ := hf.timer o n hin hd
    simp only [Waiting.registers, Bool.and_eq_true, Bool.not_eq_true'] at hreg
    exact .inl (.inr ⟨hidle, w, hl, hreg.1⟩)
  | continuation hs hp hst hr =>
    exact absurd (.posted (by simp [hr])) (hno ⟨o, (c.heap o).resumes⟩)

/-- A process that is engaged after a step was so before, or the item taken resumed it. -/
theorem effect_engaged {code : Code σ μ} {c c' : Context σ μ} {l : Label} {out : List (Event μ)}
    (he : Effect code c l out c') (hc : c.Sound) (hf : c.Fresh) (hno : c.NoContinuation)
    {o : ObjId} (h : c'.Engaged o) :
    c.Engaged o ∨ ∃ p n, c.queue = .resume p n :: c'.queue ∧ c.findProc p = some o := by
  rcases h with hb | ⟨hidle, w, hl, hw⟩
  · have hb : .body o ∈ c'.stack.map Frame.role := hb
    have hold (h : .body o ∈ c.stack.map Frame.role) : c.Engaged o := .inl h
    cases effect_stack he with
    | same hst => exact .inl (hold (hst ▸ hb))
    | goOn hs hst =>
      rw [hst] at hb
      exact .inl (hold (by rw [hs]; exact hb))
    | pop hs hst =>
      rw [hst] at hb
      exact .inl (hold (by rw [hs]; exact List.mem_cons_of_mem _ hb))
    | call hs hst =>
      rw [hst] at hb
      exact .inl (hold ((List.mem_cons.mp hb).resolve_left (by simp)))
    | ret hs hst =>
      rw [hst] at hb
      exact .inl (hold (by rw [hs]; exact List.mem_cons_of_mem _ hb))
    | @resumed o' hs hwk hd hq hst =>
      simp only [hst, List.map_cons, List.map_nil, List.mem_singleton, Role.body.injEq] at hb
      subst hb
      rcases woken_engaged hf hno hwk hd with h | ⟨hp, p, n, q, hqueue, hfind⟩
      · exact .inl h
      · obtain ⟨i, hi⟩ := hq hp
        rw [hqueue] at hi
        cases hi
        exact .inr ⟨p, n, hqueue, hfind⟩
    | enter hs hr hst =>
      simp only [hst, List.map_cons, List.map_nil, List.mem_singleton] at hb
      rcases hr with ⟨_, rfl⟩ | ⟨_, rfl, -⟩ <;> cases hb
  · cases effect_idle he hc.table hc.refs hc.unstarted hidle with
    | same hi hcell =>
      exact .inl (.inr ⟨hi, w, (congrArg Cell.lastWaiting hcell).symm.trans hl, hw⟩)
    | suspend haw _ =>
      obtain ⟨t, hs⟩ := haw.stack
      exact .inl (.inl (by simp [roles_top hs]))
    | fresh hnone _ _ => cases hnone.symm.trans hl

/-! ## What a step does to `queue_` -/

/-- How `queue_` changes when every send is awaited: a resume item comes with one more process that
rests, and a message from the body of a process. -/
inductive QueueStep (code : Code σ μ) (c c' : Context σ μ) : Prop
  | same (h : c'.queue = c.queue)
  | resume {p : Pid} {n : Nat} {o : ObjId} (h : c'.queue = c.queue ++ [.resume p n])
      (ho : o ∉ c.resting) (ho' : o ∈ c'.resting)
  | send {o : ObjId} {s : σ} {rest : List (Frame σ μ)} {a : SendAddress} {m : μ} {k : Bool → σ}
      (hs : c.stack = ⟨.body o, .code s⟩ :: rest) (hop : code.op s = .send a m k)
      (h : c'.queue = c.queue ++ [.message a (.user m)])
  | take {i : ToProcessItem μ} (h : c.queue = i :: c'.queue)

theorem QueueStep.quiet {code : Code σ μ} {c c' : Context σ μ} (h : c'.mail = c.mail) :
    QueueStep code c c' :=
  .same (congrArg Mail.queue h)

theorem queueStep_suspend {code : Code σ μ} {c : Context σ μ} {o : ObjId} {rest : List (Frame σ μ)}
    {w : Waiting} {t : Coro σ μ} (hc : c.Sound) (hsh : c.Shaped) (hw : Awaits code c o rest w t)
    (hc' : ({ c with stack := rest }.suspended o w t).Sound) :
    QueueStep code c ({ c with stack := rest }.suspended o w t) := by
  obtain ⟨t₀, hs⟩ := hw.stack
  have hqueue : ({ c with stack := rest }.suspended o w t).queue = c.queue ++
      if w.isReadyForResume then [.resume (c.heap o).pid (c.heap o).resumes] else [] :=
    congrArg Mail.queue (mail_suspended { c with stack := rest } o w t)
  by_cases hr : w.isReadyForResume = true
  · have hbody : .body o ∈ c.table.roles := by simp [roles_top hs]
    refine .resume (o := o) (by simpa [hr] using hqueue) ?_ ?_
    · rw [mem_resting hc.table]
      exact fun h => h.2 (.inl hbody)
    · rw [mem_resting hc'.table]
      refine ⟨?_, ?_⟩
      · rw [table_suspended]
        exact hc.refs.body hbody
      · rintro (hb | ⟨-, w', hl, hw'⟩)
        · rw [Shaped, hs, List.map_cons] at hsh
          have hnil := hsh.alone (by simp)
          rw [table_suspended] at hb
          simp [table, hnil] at hb
        · rw [lastWaiting_suspended] at hl
          cases hl
          simp [hr] at hw'
  · exact .same (by simpa [hr] using hqueue)

theorem queueStep_started {code : Code σ μ} {c c' : Context σ μ} {l : Label} {out : List (Event μ)}
    (he : Effect code c l out c') (hc : c.Sound) {o : ObjId} {t t' : Coro σ μ} {role : Role}
    {rest : List (Frame σ μ)} (hs : c.stack = ⟨.ctor o, t⟩ :: ⟨role, t'⟩ :: rest)
    (htable : c'.table = c.table.occupy o) {p : Pid} {n : Nat}
    (hqueue : c'.queue = c.queue ++ [.resume p n]) : QueueStep code c c' := by
  have hlife : c.table.life o = .constructing := (Table.ctor_top hc.table (roles_top hs)).1
  have hnot : ¬ c.table.Started o := fun h => h.1 hlife
  refine .resume hqueue (fun h => hnot ((mem_resting hc.table).mp h).1)
    ((mem_resting (effect_sound he hc).table).mpr ⟨?_, ?_⟩)
  · simp [htable, Table.Started, Table.occupy]
  · rintro (hb | ⟨hidle, w, hl, -⟩)
    · refine hnot (hc.refs.body ?_)
      rw [htable] at hb
      exact List.mem_of_mem_tail hb
    · cases effect_idle he hc.table hc.refs hc.unstarted hidle with
      | same hi hcell =>
        have hnone : (c'.heap o).lastWaiting = none :=
          (congrArg Cell.lastWaiting hcell).trans (hc.unstarted o hnot).1
        cases hnone.symm.trans hl
      | suspend haw _ =>
        obtain ⟨t₀, hs'⟩ := haw.stack
        rw [hs] at hs'
        cases hs'
      | fresh hnone _ _ => cases hnone.symm.trans hl

theorem queue_processQueueItem (c : Context σ μ) (q : List (ToProcessItem μ))
    (i : ToProcessItem μ) : ((c.popFront q).processQueueItem i).1.queue = q := by
  cases i with
  | message a m =>
    simp only [processQueueItem]
    split
    · exact congrArg Mail.queue (mail_send (c.popFront q) _ a m)
    · rfl
  | resume p n =>
    simp only [processQueueItem]
    split
    · dsimp only
      split
      · exact congrArg Mail.queue (mail_resume (c.popFront q) _)
      · rfl
    · rfl

theorem effect_queueStep {code : Code σ μ} {c c' : Context σ μ} {l : Label} {out : List (Event μ)}
    (he : Effect code c l out c') (hc : c.Sound) (hsh : c.Shaped) (hg : c.AwaitsSends code l) :
    QueueStep code c c' := by
  have hc' : c'.Sound := effect_sound he hc
  have he₀ := he
  cases he with
  | @send role s rest a m k hs hop hm s' =>
    obtain ⟨⟨o, rfl⟩, -⟩ := hg.send _ _ _ _ _ _ hs hop
    exact .send hs hop rfl
  | suspend hw => exact queueStep_suspend hc hsh hw hc'
  | throttleSend hs ht hf =>
    obtain ⟨s, rfl, hs'⟩ := hg.unthrottled _ _ _ hs
    rcases ht with ht | ⟨s', ht, hop, -, -⟩
    · cases ht
    · cases ht
      exact absurd hop (hs' _ _ _)
  | @started o s role t' rest' self how hs body s' hcall hself hop =>
    refine queueStep_started (p := (c.heap o).pid) (n := 0) he₀ hc hs
      (table_started hs self how body s') ?_
    exact congrArg Mail.queue (mail_spawned (c.spawnArgs o body) self how (c.heap o).pid)
  | @take i q hs hp hq =>
    refine .take (i := i) ?_
    rw [queue_processQueueItem, hq]
  | @destroy o reason rest hs hp hd =>
    have hqueue := congrArg Mail.queue (mail_destroy { c with toDestroy := rest } code.dtor o reason)
    rw [hg.notify (o, reason) (by simp [hd]), List.map_nil, List.append_nil] at hqueue
    exact .same hqueue
  | newSlot hs ho s' => exact .same (congrArg Mail.queue (mail_newSlot c _ _))
  | @dropSlot role s₀ rest s k hs hop ho s' => exact .same (congrArg Mail.queue (mail_dropSlot c s))
  | @getVals role s rest ss k hs hop ho s' => exact .same (mail_getVals c ss).1
  | ctorThrew hs hop s' => exact .same (mail_dropSlots _ _).1
  | @dtorReturned o s rest hs hop => exact .same (mail_dropSlots { c with stack := rest } o).1
  | spawn hs hop hm => exact .quiet (mail_spawnWith _ _ _ _)
  | link hs p hl s' => exact .same (congrArg Mail.queue (mail_link hl))
  | kill hs p s' => exact .quiet (mail_addtoDestroy _ _ _)
  | onPromise hs n ha s' => exact .quiet (mail_onPromise _ _ _)
  | bodyReturned hs => exact .quiet (mail_addtoDestroy _ _ _)
  | bodyThrew hs e => exact .quiet (mail_addtoDestroy _ _ _)
  | run hs hp hst hr => exact .quiet (mail_runHandler _ _)
  | _ => exact .same rfl

/-! ## A process that has filled the queue is about to suspend -/

/-- The running body awaits the `WaitingMaybe(true)` that its `send` returned. -/
def Pending (code : Code σ μ) (c : Context σ μ) : Prop :=
  ∃ o s rest, c.stack = ⟨.body o, .code s⟩ :: rest ∧
    (code.AwaitsAtOnce s (.maybe true) ∨ ∃ k, code.op s = .awaitSuspend (.maybe true) k)

theorem step_op {code : Code σ μ} {c c' : Context σ μ} {l : Label} {out : List (Event μ)}
    (h : c.step code l = some (c', out)) {role : Role} {s : σ} {rest : List (Frame σ μ)}
    (hs : c.stack = ⟨role, .code s⟩ :: rest) (hno : ∀ d k, code.op s ≠ .asyncOp d k) :
    c.stepOp code role rest (code.op s) = some (c', out) :=
  step_of_stack hs (by rintro _ d k ⟨⟩; exact hno d k) h

theorem step_pending {code : Code σ μ} {c c' : Context σ μ} {l : Label} {out : List (Event μ)}
    (h : c.step code l = some (c', out)) (hp : c.Pending code) :
    (c'.Pending code ∧ c'.queue = c.queue) ∨ ∃ p n, c'.queue = c.queue ++ [.resume p n] := by
  obtain ⟨o, s, rest, hs, ⟨k, hop, k', hk⟩ | ⟨k, hop⟩⟩ := hp
  · have hstep := step_op h hs (by simp [hop])
    have hready : c.awaitReady (.maybe true) = .ok false := rfl
    rw [hop] at hstep
    simp only [stepOp, hready, Option.ite_none_right_eq_some] at hstep
    obtain ⟨-, hstep⟩ := hstep
    cases hstep
    exact .inl ⟨⟨o, k false, rest, rfl, .inr ⟨k', hk⟩⟩, rfl⟩
  · have hstep := step_op h hs (by simp [hop])
    rw [hop] at hstep
    simp only [stepOp, Option.ite_none_right_eq_some] at hstep
    obtain ⟨-, hstep⟩ := hstep
    cases hstep
    exact .inr ⟨_, _, congrArg Mail.queue (mail_suspended { c with stack := rest } o (.maybe true) _)⟩

theorem step_sends {code : Code σ μ} {c c' : Context σ μ} {l : Label} {out : List (Event μ)}
    (h : c.step code l = some (c', out)) (hg : c.AwaitsSends code l) {o : ObjId} {s : σ}
    {rest : List (Frame σ μ)} {a : SendAddress} {m : μ} {k : Bool → σ}
    (hs : c.stack = ⟨.body o, .code s⟩ :: rest) (hop : code.op s = .send a m k)
    (hq : 10 ≤ c.queue.length) : ¬ c.Pending code ∧ c'.Pending code := by
  refine ⟨?_, ?_⟩
  · rintro ⟨o', s', rest', hs', ⟨k', hop', -⟩ | ⟨k', hop'⟩⟩ <;>
    · rw [hs] at hs'
      cases hs'
      rw [hop] at hop'
      cases hop'
  · have hstep := step_op h hs (by simp [hop])
    have hwait : (c.queueSend a (.user m)).waitOnQueue = true := by
      simp only [waitOnQueue, queueSend, List.length_append, List.length_singleton]
      exact decide_eq_true (by omega)
    rw [hop] at hstep
    simp only [stepOp, hwait, Option.ite_none_right_eq_some] at hstep
    obtain ⟨-, hstep⟩ := hstep
    cases hstep
    exact ⟨o, k true, rest, rfl, .inl ((hg.send _ _ _ _ _ _ hs hop).2 true)⟩

/-! ## The accounting -/

/-- Every resume item stands for a process that rests; behind the first ten items no message follows a
message, and the last is one only while its sender is about to suspend. -/
structure Ordered (code : Code σ μ) (c : Context σ μ) : Prop where
  resumes : c.queue.countP ToProcessItem.isResume ≤ c.resting.card
  apart : (c.queue.drop 10).IsChain fun i j => i.isResume = false → j.isResume = true
  last : ∀ i ∈ (c.queue.drop 10).getLast?, i.isResume = false → c.Pending code

theorem resting_subset {code : Code σ μ} {c c' : Context σ μ} {l : Label} {out : List (Event μ)}
    (he : Effect code c l out c') (hc : c.Sound) (hf : c.Fresh) (hno : c.NoContinuation)
    (hq : ∀ p n, c.queue ≠ .resume p n :: c'.queue) : c.resting ⊆ c'.resting := by
  intro o ho
  obtain ⟨hst, hnot⟩ := (mem_resting hc.table).mp ho
  refine (mem_resting (effect_sound he hc).table).mpr ⟨(step_keeps he hc.table).started hst, fun h => ?_⟩
  rcases effect_engaged he hc hf hno h with h | ⟨p, n, h, -⟩
  · exact hnot h
  · exact hq p n h

theorem resting_card_le {code : Code σ μ} {c c' : Context σ μ} {l : Label} {out : List (Event μ)}
    (he : Effect code c l out c') (hc : c.Sound) (hf : c.Fresh) (hno : c.NoContinuation) :
    c.resting.card ≤ c'.resting.card + 1 := by
  by_cases hq : ∃ p n o, c.queue = .resume p n :: c'.queue ∧ c.findProc p = some o
  · obtain ⟨p, n, o, hq, hp⟩ := hq
    refine (Finset.card_le_card (t := insert o c'.resting) fun x hx => ?_).trans
      (Finset.card_insert_le _ _)
    obtain ⟨hst, hnot⟩ := (mem_resting hc.table).mp hx
    by_cases hx' : c'.Engaged x
    · rcases effect_engaged he hc hf hno hx' with h | ⟨p', n', hq', hp'⟩
      · exact absurd h hnot
      · obtain ⟨⟨rfl, -⟩, -⟩ : (p = p' ∧ n = n') ∧ True := by simpa [hq] using hq'
        rw [hp] at hp'
        cases hp'
        exact Finset.mem_insert_self _ _
    · exact Finset.mem_insert_of_mem ((mem_resting (effect_sound he hc).table).mpr
        ⟨(step_keeps he hc.table).started hst, hx'⟩)
  · refine (Finset.card_le_card fun x hx => ?_).trans (Nat.le_succ _)
    obtain ⟨hst, hnot⟩ := (mem_resting hc.table).mp hx
    refine (mem_resting (effect_sound he hc).table).mpr
      ⟨(step_keeps he hc.table).started hst, fun hx' => ?_⟩
    rcases effect_engaged he hc hf hno hx' with h | ⟨p, n, hq', hp⟩
    · exact hnot h
    · exact hq ⟨p, n, x, hq', hp⟩

theorem drop_append_item (q : List (ToProcessItem μ)) (i : ToProcessItem μ) :
    (q ++ [i]).drop 10 = q.drop 10 ++ if 10 ≤ q.length then [i] else [] := by
  rw [List.drop_append]
  split
  next h => rw [Nat.sub_eq_zero_of_le h, List.drop_zero]
  next h =>
    have hnil : [i].drop (10 - q.length) = [] :=
      List.drop_eq_nil_of_le (by rw [List.length_singleton]; omega)
    rw [hnil]

/-- An item that may follow what stands behind the first ten is appended there. -/
theorem apart_append {q : List (ToProcessItem μ)} {i : ToProcessItem μ}
    (h : (q.drop 10).IsChain fun i j => i.isResume = false → j.isResume = true)
    (hi : 10 ≤ q.length → ∀ j ∈ (q.drop 10).getLast?, j.isResume = false → i.isResume = true) :
    ((q ++ [i]).drop 10).IsChain fun i j => i.isResume = false → j.isResume = true := by
  rw [drop_append_item]
  split
  next hl =>
    refine List.isChain_append.mpr ⟨h, List.isChain_singleton i, fun j hj k hk => ?_⟩
    obtain rfl : i = k := by simpa using hk
    exact hi hl j hj
  next => simpa using h

theorem getLast?_append_item {q : List (ToProcessItem μ)} {i j : ToProcessItem μ}
    (h : j ∈ ((q ++ [i]).drop 10).getLast?) : 10 ≤ q.length ∧ j = i := by
  rw [drop_append_item] at h
  split at h
  next hl => exact ⟨hl, by simpa [eq_comm] using h⟩
  next hl => simp [List.drop_eq_nil_of_le (by omega : q.length ≤ 10)] at h

theorem step_ordered {code : Code σ μ} {c c' : Context σ μ} {l : Label} {out : List (Event μ)}
    (hstep : c.step code l = some (c', out)) (hc : c.Sound) (hsh : c.Shaped) (hf : c.Fresh)
    (hno : c.NoContinuation) (hg : c.AwaitsSends code l) (h : c.Ordered code) :
    c'.Ordered code := by
  have he := (step_effect hstep).2
  have hkeep (hle : c.queue.length ≤ c'.queue.length) : c.resting ⊆ c'.resting := by
    refine resting_subset he hc hf hno fun p n hq => ?_
    rw [hq, List.length_cons] at hle
    omega
  cases effect_queueStep he hc hsh hg with
  | same hq =>
    refine ⟨?_, hq ▸ h.apart, fun i hi hr => ?_⟩
    · rw [hq]
      exact h.resumes.trans (Finset.card_le_card (hkeep (by rw [hq])))
    · rcases step_pending hstep (h.last i (hq ▸ hi) hr) with ⟨hp, -⟩ | ⟨p, n, hq'⟩
      · exact hp
      · simpa [hq] using congrArg List.length hq'
  | @resume p n o hq ho ho' =>
    refine ⟨?_, hq ▸ apart_append h.apart fun _ _ _ _ => rfl, fun i hi hr => ?_⟩
    · have hsub : insert o c.resting ⊆ c'.resting :=
        Finset.insert_subset ho' (hkeep (by simp [hq]))
      have hcard := Finset.card_le_card hsub
      rw [Finset.card_insert_of_notMem ho] at hcard
      have hres := h.resumes
      simp only [hq, List.countP_append, List.countP_singleton, isResume_resume, if_true]
      omega
    · rw [hq] at hi
      obtain ⟨-, rfl⟩ := getLast?_append_item hi
      cases hr
  | @send o s rest a m k hs hop hq =>
    refine ⟨?_, hq ▸ apart_append h.apart fun hl j hj hr => ?_, fun i hi _ => ?_⟩
    · have hcard := Finset.card_le_card (hkeep (by simp [hq]))
      have hres := h.resumes
      simp only [hq, List.countP_append, List.countP_singleton, isResume_message,
        Bool.false_eq_true, if_false]
      omega
    · exact absurd (h.last j hj hr) (step_sends hstep hg hs hop hl).1
    · rw [hq] at hi
      exact (step_sends hstep hg hs hop (getLast?_append_item hi).1).2
  | @take i hq =>
    have hlate : (c.queue.drop 10).tail = c'.queue.drop 10 := by rw [hq, List.tail_drop]; rfl
    refine ⟨?_, hlate ▸ h.apart.tail, fun j hj hr => ?_⟩
    · have hres := h.resumes
      rw [hq, List.countP_cons] at hres
      cases i with
      | resume p n =>
        have hcard := resting_card_le he hc hf hno
        rw [isResume_resume, if_pos rfl] at hres
        omega
      | message a m =>
        have hcard := Finset.card_le_card
          (resting_subset he hc hf hno fun p n hq' => by rw [hq] at hq'; cases hq')
        rw [isResume_message, if_neg (by simp)] at hres
        omega
    · rw [← hlate] at hj
      have hlast : j ∈ (c.queue.drop 10).getLast? := by
        rw [List.getLast?_tail] at hj
        split at hj
        · cases hj
        · exact hj
      rcases step_pending hstep (h.last j hlast hr) with ⟨hp, -⟩ | ⟨p, n, hq'⟩
      · exact hp
      · have hlen := congrArg List.length hq'
        rw [hq, List.length_append, List.length_cons, List.length_singleton] at hlen
        omega

theorem ordered_init (code : Code σ μ) (main : σ) : (init main : Context σ μ).Ordered code :=
  ⟨Nat.zero_le _, .nil, by simp [init]⟩

/-- Whether the last item is a message. -/
def endsInMessage (l : List (ToProcessItem μ)) : Nat :=
  if l.getLast?.any (!·.isResume) then 1 else 0

/-- Items that keep apart: at most one message more than resume items, and only if the last item
is a message; one less if the first item is none. -/
theorem length_le_of_apart {l : List (ToProcessItem μ)}
    (h : l.IsChain fun i j => i.isResume = false → j.isResume = true) :
    l.length ≤ 2 * l.countP ToProcessItem.isResume + endsInMessage l ∧
      ((∃ i ∈ l.head?, i.isResume = true) →
        l.length + 1 ≤ 2 * l.countP ToProcessItem.isResume + endsInMessage l) := by
  induction l with
  | nil => simp
  | cons i l ih =>
    obtain ⟨hhead, htail⟩ := List.isChain_cons.mp h
    obtain ⟨h₁, h₂⟩ := ih htail
    cases i with
    | resume p n =>
      have hlast : endsInMessage (.resume p n :: l) = endsInMessage l := by
        cases l <;> simp [endsInMessage]
      simp only [List.length_cons, List.countP_cons, isResume_resume, if_true, hlast]
      exact ⟨by omega, fun _ => by omega⟩
    | message a m =>
      simp only [List.length_cons, List.countP_cons, isResume_message, Bool.false_eq_true, if_false]
      refine ⟨?_, by simp⟩
      cases l with
      | nil => simp [endsInMessage]
      | cons j l =>
        have hj : j.isResume = true := hhead j (by simp) rfl
        have hlast : endsInMessage (.message a m :: j :: l) = endsInMessage (j :: l) := by
          simp [endsInMessage]
        have hlen := h₂ ⟨j, by simp, hj⟩
        rw [hlast]
        omega

/-- **The length of the queue** in an ordered state. -/
theorem Ordered.length_le {code : Code σ μ} {c : Context σ μ} (h : c.Ordered code) (hc : c.Sound) :
    c.queue.length ≤ 10 + 2 * c.everSpawned.card := by
  have hlate := (length_le_of_apart h.apart).1
  have hsub : (c.queue.drop 10).countP ToProcessItem.isResume ≤ c.resting.card :=
    (List.drop_sublist 10 c.queue).countP_le.trans h.resumes
  have hrest : c.resting ⊆ c.everSpawned := fun o ho =>
    (mem_everSpawned hc.table).mpr ((mem_resting hc.table).mp ho).1
  have hlen : c.queue.length ≤ 10 + (c.queue.drop 10).length := by
    rw [List.length_drop]
    omega
  unfold endsInMessage at hlate
  split at hlate
  next hany =>
    obtain ⟨i, hi, hr⟩ := Option.any_eq_true _ _ |>.mp hany
    obtain ⟨o, s, rest, hs, -⟩ := h.last i hi (by simpa using hr)
    have hbody : .body o ∈ c.table.roles := by simp [roles_top hs]
    -- the sender that is about to suspend is one that does not rest
    have hlt : c.resting.card < c.everSpawned.card := by
      refine Finset.card_lt_card (Finset.ssubset_iff_subset_ne.mpr ⟨hrest, fun he => ?_⟩)
      have ho : o ∈ c.resting := he ▸ (mem_everSpawned hc.table).mpr (hc.refs.body hbody)
      exact ((mem_resting hc.table).mp ho).2 (.inl hbody)
    omega
  next =>
    have hcard := Finset.card_le_card hrest
    omega

end Context

/-- **Awaited sends bound the queue.** In every run in which each send is awaited at once, nobody
calls `sendThrottled`, waits on a promise or is notified of a death, `queue_` holds at most ten items
and two more for each of the `n` processes. -/
theorem awaited_sends_bound_queue {σ μ : Type} {code : Code σ μ} {main : σ} {tr : List (Event μ)}
    {c : Context σ μ} (h : code.RunsTo (Context.AwaitsSends code) main tr c) {n : Nat}
    (hn : c.everSpawned.card ≤ n) : c.queue.length ≤ 10 + 2 * n := by
  have hno : ∀ {tr c}, code.RunsTo (Context.AwaitsSends code) main tr c → c.NoContinuation :=
    fun h => h.invariant (fun _ c => c.NoContinuation) (Context.noContinuation_init main)
      fun _ _ _ _ _ hi hg hs => Context.effect_noContinuation (Context.step_effect hs).2 hg hi
  have hfresh : ∀ {tr c}, code.RunsTo (Context.AwaitsSends code) main tr c → c.Fresh := fun h =>
    Code.fresh (h.guard_of Context.NoContinuation hno fun _ l hc _ => hc.timersInTime l)
  have hord : c.Ordered code := h.invariant_of
    (fun c => (c.Sound ∧ c.Shaped) ∧ c.Fresh ∧ c.NoContinuation) (Context.Ordered code)
    (fun h => ⟨⟨Code.sound h, Code.shaped h⟩, hfresh h, hno h⟩) (Context.ordered_init code main)
    fun _ _ _ _ hk hi hg hs =>
      Context.step_ordered hs hk.1.1 hk.1.2 hk.2.1 hk.2.2 hg hi
  have hlen := hord.length_le (Code.sound h)
  omega

/-- A process that sends to its own slot for ever and awaits each send. -/
def sendsToItself : Code Nat Unit where
  op n :=
    match n with
    | 0 => .spawn .plain 1 fun _ => 9
    | 1 => .newSlot fun _ => 2
    | 2 => .started 3
    | 3 => .send ⟨⟨0, 0⟩, 0⟩ () fun b => if b then 4 else 6
    | 4 => .awaitReady (.maybe true) fun b => if b then 3 else 5
    | 5 => .awaitSuspend (.maybe true) 3
    | 6 => .awaitReady (.maybe false) fun b => if b then 3 else 7
    | 7 => .awaitSuspend (.maybe false) 3
    | _ => .coReturn
  dtor _ := 9

/-- Nobody dies, and the running code is that of the process above. -/
def Context.selfSender (c : Context Nat Unit) : Bool :=
  c.toDestroy.isEmpty &&
    match c.stack with
    | ⟨role, .code s⟩ :: _ => decide (s = 3 → role = .body 0) && decide (s ≤ 9)
    | ⟨_, .throttled _ _ _⟩ :: _ => false
    | [] => true

theorem Context.awaitsSends_of_selfSender {c : Context Nat Unit} (h : c.selfSender = true)
    (l : Label) : c.AwaitsSends sendsToItself l := by
  simp only [selfSender, Bool.and_eq_true, List.isEmpty_iff] at h
  obtain ⟨hd, h⟩ := h
  have htop : ∀ role t rest, c.stack = ⟨role, t⟩ :: rest →
      ∃ s ≤ 9, t = .code s ∧ (s = 3 → role = .body 0) := by
    intro role t rest hs
    cases t with
    | code s =>
      rw [hs] at h
      simp only [Bool.and_eq_true, decide_eq_true_eq] at h
      exact ⟨s, h.2, rfl, h.1⟩
    | throttled a m k => simp [hs] at h
  refine ⟨fun role s rest a m k hs hop => ?_, fun role t rest hs => ?_,
    fun role s rest w k hs hop => ?_, by simp [hd]⟩
  · obtain ⟨s', hle, he, hrole⟩ := htop _ _ _ hs
    cases he
    interval_cases s <;> cases hop
    exact ⟨⟨0, hrole rfl⟩, fun b => by cases b <;> exact ⟨_, rfl, _, rfl⟩⟩
  · obtain ⟨s, hle, rfl, -⟩ := htop _ _ _ hs
    refine ⟨s, rfl, fun a m k hop => ?_⟩
    interval_cases s <;> cases hop
  · obtain ⟨s', hle, he, -⟩ := htop _ _ _ hs
    cases he
    interval_cases s <;> cases hop <;> rfl

/-- One process brings `queue_` to the bound. -/
theorem awaited_sends_bound_queue_twelve : ∃ tr c,
    sendsToItself.RunsTo (Context.AwaitsSends sendsToItself) 0 tr c ∧ c.everSpawned.card ≤ 1 ∧
      c.queue.length = 12 ∧ c.queue.length ≤ 10 + 2 * 1 := by
  obtain ⟨tr, c, hr, hn, hq⟩ := System.exec_reaches (M := sendsToItself.system)
    (g := fun c _ => c.selfSender) (G := Context.AwaitsSends sendsToItself)
    (fun c l hg => Context.awaitsSends_of_selfSender hg l)
    (w := List.replicate 28 .tick) (s := Context.init 0)
    (P := fun _ c => c.everSpawned.card ≤ 1 ∧ c.queue.length = 12) (by decide)
  exact ⟨tr, c, hr, hn, hq, awaited_sends_bound_queue hr hn⟩

/-! ## Sends in methods -/

/-- A process that starts twelve methods, each of which awaits one `send` to the slot of the process. -/
inductive SendsInMethods
  | main
  | ctor
  | slot
  | method (i : Nat)
  | waits (i : Nat) (wait : Bool)
  | join
  | done

/-- A method that has to wait is suspended, and the process goes on to start the next one. -/
def sendsInMethods : Code SendsInMethods Unit where
  op
    | .main => .spawn .plain .ctor fun _ => .done
    | .ctor => .newSlot fun _ => .slot
    | .slot => .started (.method 0)
    | .method i => .send ⟨⟨0, 0⟩, 0⟩ () fun wait => .waits i wait
    | .waits i wait => .awaitReady (.maybe wait) fun _ => if i < 11 then .method (i + 1) else .join
    | .join => .awaitSuspend (.maybe true) .done
    | .done => .coReturn
  dtor _ := .done

theorem sendsInMethods_awaits (s : SendsInMethods) (a : SendAddress) (m : Unit)
    (k : Bool → SendsInMethods) (h : sendsInMethods.op s = .send a m k) (wait : Bool) :
    ∃ k', sendsInMethods.op (k wait) = .awaitReady (.maybe wait) k' := by
  cases s <;> cases h
  exact ⟨_, rfl⟩

/-- The methods bring `queue_` to 13 items. -/
theorem sends_in_methods_pass_bound :
    (∀ s a m k, sendsInMethods.op s = .send a m k → ∀ wait, ∃ k',
        sendsInMethods.op (k wait) = .awaitReady (.maybe wait) k') ∧
      ∃ tr c, sendsInMethods.RunsTo System.anyStep .main tr c ∧ c.everSpawned.card = 1 ∧
        c.queue.length = 13 ∧ ¬ c.queue.length ≤ 10 + 2 * 1 := by
  obtain ⟨tr, c, hr, hn, hq⟩ := System.exec_reaches (M := sendsInMethods.system)
    (g := fun _ _ => true) (G := System.anyStep) (fun _ _ _ => trivial)
    (w := List.replicate 30 .tick) (s := Context.init .main)
    (P := fun _ c => c.everSpawned.card = 1 ∧ c.queue.length = 13) (by decide)
  exact ⟨sendsInMethods_awaits, tr, c, hr, hn, hq, by rw [hq]; decide⟩

end Eslang
