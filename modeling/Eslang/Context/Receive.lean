import Eslang.Context.Census
import Eslang.Context.Stale
import Eslang.Context.Suspension

/-! # `recv` never wakes up empty-handed

When all waits of the program are those of `recv`, `tryRecv`, `sleep`, `send`, `sendThrottled`, `WaitingYield` and
`WaitOnFuture`, no wait has both a timer and a promise, so no continuation overtakes a queued timer and every
wake-up is one that the current wait registered. A wait for messages registers none: its process is resumed by
a message for one of its slots, which was pushed just before.

A version is a `uint64_t` that wraps around, but the resume item of a process that is long dead never resumes a
successor: `queue_` would have to hold more items than a `std::deque` can. -/
namespace Eslang
set_option autoImplicit false
open Lib

/-- The waits of `recv` and `tryRecv`, `sleep`, `send`, `sendThrottled`, `WaitingYield` and `WaitOnFuture`. -/
inductive Waiting.Basic : Waiting → Prop
  | messages (ss : List SlotId) : Basic (.messages ss)
  | sleep (t : Nat) : Basic (.timeout t)
  | send (wait : Bool) : Basic (.maybe wait)
  | yield : Basic .yield
  | throttled (p : PromiseRef) : Basic (.future p)
  | waitOnFuture (p : PromiseRef) : Basic (.onFuture p)

theorem Waiting.Basic.not_both {w : Waiting} (h : w.Basic) :
    w.sleepFor = none ∨ w.wakeOnFuture = none := by
  cases h with
  | sleep t => exact .inr rfl
  | _ => exact .inl rfl

namespace Context
variable {σ μ : Type}

def awaitResume (c : Context σ μ) (s : SlotId) : Except String (MessageBase μ) × Context σ μ :=
  match (c.getOptional s).1 with
  | some m => (.ok m, (c.getOptional s).2)
  | none => (.error "Message was not ready", (c.getOptional s).2)

/-- Processes suspend only in basic waits, and `queue_` fits into its `std::deque`. -/
def AwaitsBasic (code : Code σ μ) (c : Context σ μ) (_ : Label) : Prop :=
  (∀ o rest w t, Awaits code c o rest w t → w.Basic) ∧ c.QueueFits

def InBasic (c : Context σ μ) : Prop :=
  ∀ o w, c.Idle o → (c.heap o).lastWaiting = some w → w.Basic

theorem effect_inBasic {code : Code σ μ} {c c' : Context σ μ} {l : Label} {out : List (Event μ)}
    (he : Effect code c l out c') (hc : c.Sound) (hg : c.AwaitsBasic code l) (h : c.InBasic) :
    c'.InBasic := by
  intro o w hidle hw
  cases effect_idle he hc.table hc.refs hc.unstarted hidle with
  | same hi hcell => exact h o w hi ((congrArg Cell.lastWaiting hcell).symm.trans hw)
  | suspend haw he' =>
    rw [he', lastWaiting_suspended] at hw
    cases hw
    exact hg.1 o _ _ _ haw
  | fresh hl _ _ => cases hl.symm.trans hw

theorem inBasic_init (main : σ) : (init main : Context σ μ).InBasic := by
  intro o w _ hw
  simp [init] at hw

/-- A basic wait has either a timer or a promise, so no continuation finds a queued timer. -/
theorem Fresh.timersInTime {c : Context σ μ} (h : c.Fresh) (hb : c.InBasic) (l : Label) :
    c.TimersInTime l := by
  intro o ds hs hp hst hr hd n hin
  obtain ⟨-, hcur⟩ := h.continuation ⟨o, (c.heap o).resumes⟩ (.posted (by simp [hr])) hd
  obtain ⟨hidle, w, hw, hfut⟩ := hcur rfl
  have hexp : .timer o n ∈ c.io.ready := by
    rw [hr]
    exact List.mem_cons_of_mem _ hin
  obtain ⟨-, -, w', hw', hms⟩ := h.timer o n (holds_timer.mp (.expired hexp)) hd
  cases hw.symm.trans hw'
  simp only [Waiting.registers, Bool.and_eq_true] at hfut hms
  rcases (hb o w hidle hw).not_both with hnone | hnone
  · simp [hnone] at hms
  · simp [hnone] at hfut

end Context

theorem Code.fresh_of_basic {σ μ : Type} {code : Code σ μ} {main : σ} {tr : List (Event μ)}
    {c : Context σ μ} (h : code.RunsTo (Context.AwaitsBasic code) main tr c) :
    c.Fresh ∧ c.InBasic :=
  h.invariant_of (fun c => c.Sound ∧ c.Shaped ∧ c.Drained) (fun c => c.Fresh ∧ c.InBasic)
    (fun h => ⟨Code.sound h, Code.shaped h, Code.drained h⟩)
    ⟨Context.fresh_init main, Context.inBasic_init main⟩
    fun c l c' out hc hi hg hs => by
      obtain ⟨-, he⟩ := Context.step_effect hs
      have hin := hi.1.timersInTime hi.2 l
      exact ⟨Context.effect_fresh he hc.1 hc.2.1 hc.2.2 hin hi.1,
        Context.effect_inBasic he hc.1 hg hi.2⟩

namespace Context
variable {σ μ : Type}

/-! ## Receiving from a slot that holds a message -/

theorem getOptional_some {c : Context σ μ} {s : SlotId} {ms : List (MessageBase μ)}
    (hb : c.mail.box s = some ms) (hm : ms ≠ []) : ∃ m, (c.getOptional s).1 = some m := by
  obtain ⟨q, hq, rfl⟩ := Option.map_eq_some_iff.mp hb
  unfold getOptional
  rw [hq]
  cases hp : q.pop with
  | none => exact absurd (MessageQueue.pop_none hp) hm
  | some r => exact ⟨r.1, by simp [hp]⟩

theorem getVals_engaged {ss : List SlotId} {c : Context σ μ} {s : SlotId} (hs : s ∈ ss)
    {ms : List (MessageBase μ)} (hb : c.mail.box s = some ms) (hm : ms ≠ []) :
    ∃ m, some m ∈ (c.getVals ss).1 := by
  induction ss generalizing c with
  | nil => cases hs
  | cons x ss ih =>
    by_cases hx : s = x
    · subst hx
      obtain ⟨m, hget⟩ := getOptional_some hb hm
      exact ⟨m, by simp [getVals, hget]⟩
    · have hin := (List.mem_cons.mp hs).resolve_left hx
      have hpops : pops s (poppedBy [x] [(c.getOptional x).1]) = [] := by
        cases (c.getOptional x).1 with
        | none => rfl
        | some v => simp [poppedBy, pops, Event.popped?, Ne.symm hx]
      have hsame := (mail_getOptional c x).2 s
      rw [hpops] at hsame
      simp only [List.nil_append, Option.map_id'] at hsame
      obtain ⟨m, hget⟩ := ih hin (hsame.symm.trans hb)
      exact ⟨m, List.mem_cons_of_mem _ hget⟩

theorem awaitReady_engaged {c : Context σ μ} {ss : List SlotId}
    (h : c.awaitReady (.messages ss) = .ok true) : ∃ m, some m ∈ (c.getVals ss).1 := by
  unfold awaitReady at h
  split at h
  · cases h
  next hall =>
    split at h
    · cases h
    · obtain ⟨s, hs, hfull⟩ := List.any_eq_true.mp (Except.ok.inj h)
      have hq := List.find?_eq_none.mp hall s hs
      cases he : (c.slots s).queue with
      | none => simp [he] at hq
      | some q =>
        have hb : c.mail.box s = some q.contents := by simp [mail, he]
        apply getVals_engaged hs hb
        simpa [he, MessageQueue.empty, MessageQueue.size_eq] using hfull

/-! ## The resume of a process that waits for messages -/

theorem Fresh.woken_by_message {c : Context σ μ} (h : c.Fresh) (hb : c.Behind) (hc : c.Sound)
    (hv : c.table.Versions) (hg : c.QueueFits) {o : ObjId} {ss : List SlotId}
    (hd : (c.heap o).dead = false) (hw : (c.heap o).lastWaiting = some (.messages ss))
    (hwoken : c.Woken o) :
    ∃ a m q, c.stack = [] ∧ c.phase = .loop ∧ c.queue = .message a m :: q ∧
      c.findProc a.pid = some o ∧ a.slot ∈ ss := by
  cases hwoken with
  | @item p q hs hp hq hf =>
    obtain ⟨-, -, -, hcur⟩ := hb.own hc hv hg (by rw [hq]; exact List.mem_cons_self) hf
    cases (hcur rfl hd).2 _ hw
  | @message a m q hs hp hq hf hwait =>
    refine ⟨a, m, q, hs, hp, hq, hf, ?_⟩
    simpa [waitingFor, hw, Waiting.isWaiting, Waiting.slots] using hwait
  | @timer n ds hs hp hst hr =>
    have hin : (o, n) ∈ c.io.clock := holds_timer.mp (.expired (by rw [hr]; exact List.mem_cons_self))
    obtain ⟨-, -, w, hw', hreg⟩ := h.timer o n hin hd
    cases hw.symm.trans hw'
    cases hreg
  | @continuation ds hs hp hst hr =>
    obtain ⟨-, hcur⟩ := h.continuation ⟨o, (c.heap o).resumes⟩
      (.posted (by rw [hr]; exact List.mem_cons_self)) hd
    obtain ⟨-, w, hw', hreg⟩ := hcur rfl
    cases hw.symm.trans hw'
    cases hreg

/-- A delivery to a slot that its live owner waits on runs the owner with the message in the slot. -/
theorem send_resumes {c : Context σ μ} {o : ObjId} {ss : List SlotId} {a : SendAddress}
    {m : MessageBase μ} (hs : c.stack = []) (hd : (c.heap o).dead = false)
    (hw : (c.heap o).lastWaiting = some (.messages ss)) (ha : a.slot ∈ ss)
    (hf : (c.send o a m).fault = none) :
    (c.send o a m).stack = [⟨.body o, (c.heap o).task⟩] ∧
      ∃ ms, (c.send o a m).mail.box a.slot = some (ms ++ [m]) := by
  have hwait : c.waitingFor o a.slot = true := by
    simpa [waitingFor, hw, Waiting.isWaiting, Waiting.slots] using ha
  cases hq : (c.slots a.slot).queue with
  | none =>
    simp [send, hwait, push, hq, fail] at hf
  | some q =>
    have hbox : c.mail.box a.slot = some q.contents := by simp [mail, hq]
    refine ⟨?_, q.contents, by rw [mail_send]; simp [hbox]⟩
    have hpush : (c.push a.slot m).fault = c.fault := by simp [push, hq, setQueue]
    cases hfault : c.fault with
    | some f => simp [send, hpush, hfault] at hf
    | none =>
      have hheap := heap_push c a.slot m
      have hplain : ((c.push a.slot m).heap o).lastWaiting.bind Waiting.wakeOnFuture = none := by
        rw [hheap, hw]
        rfl
      have hsend : c.send o a m = (c.push a.slot m).resume o := by simp [send, hwait, hpush, hfault]
      rw [hsend]
      have hr := resume_resumes (c.push a.slot m) o
      generalize (c.push a.slot m).resume o = d at hr ⊢
      cases hr with
      | dead hdead => simp [hheap, hd] at hdead
      | plain hdead hfut => simp [enter, cancelTimer, hs, hheap]
      | gone hdead hfut hp => cases hplain.symm.trans hfut
      | raised hdead hfut hp he => cases hplain.symm.trans hfut
      | woken hdead hfut hp he => cases hplain.symm.trans hfut

end Context

/-- **A process that waits for messages is resumed with a message**: what it receives first is engaged, and a
`recv` of one slot does not fail. A readiness test that succeeds has found a message as well. -/
theorem recv_not_empty_handed {σ μ : Type} {code : Code σ μ} {main : σ} {tr : List (Event μ)}
    {c : Context σ μ} (h : code.RunsTo (Context.AwaitsBasic code) main tr c)
    (hfits : c.QueueFits) :
    (∀ o ss l c' out, (c.heap o).dead = false →
        (c.heap o).lastWaiting = some (.messages ss) → c.Woken o →
        c.step code l = some (c', out) → c'.fault = none →
        c'.stack = [⟨.body o, (c.heap o).task⟩] ∧ (∃ m, some m ∈ (c'.getVals ss).1) ∧
          ∀ s, ss = [s] → ∃ m, (c'.awaitResume s).1 = .ok m) ∧
      ∀ ss, c.awaitReady (.messages ss) = .ok true →
        (∃ m, some m ∈ (c.getVals ss).1) ∧ ∀ s, ss = [s] → ∃ m, (c.awaitResume s).1 = .ok m := by
  have hone : ∀ (d : Context σ μ) (s : SlotId) (m : MessageBase μ), some m ∈ (d.getVals [s]).1 →
      (d.awaitResume s).1 = .ok m := by
    intro d s m hm
    have hget : (d.getOptional s).1 = some m := by simpa [Context.getVals, eq_comm] using hm
    simp [Context.awaitResume, hget]
  refine ⟨fun o ss l c' out hd hw hwoken hstep hf => ?_, fun ss hready => ?_⟩
  · have hok := (Code.sound h).table
    obtain ⟨a, m, q, hs, hp, hq, hfind, ha⟩ :=
      (Code.fresh_of_basic h).1.woken_by_message (Code.behind (h.mono fun _ _ hg => hg.2))
        (Code.sound h) (Code.versions h) hfits hd hw hwoken
    obtain ⟨hs', hbox⟩ : c'.stack = [⟨.body o, (c.heap o).task⟩] ∧
        ∃ ms, c'.mail.box a.slot = some (ms ++ [m]) := by
      obtain ⟨hl, -⟩ := (Table.find_eq_some hok).mp hfind
      have htake := Context.step_takes hok (Code.census h) hs hp hq hl hstep
      have hfind : (c.popFront q).findProc a.pid = some o := hfind
      simp only [Context.processQueueItem, hfind, Prod.mk.injEq] at htake
      obtain ⟨rfl, -⟩ := htake
      obtain ⟨hstack, ms, hms⟩ := Context.send_resumes (c := c.popFront q) hs hd hw ha hf
      exact ⟨hstack, ms, hms⟩
    obtain ⟨ms, hbox⟩ := hbox
    obtain ⟨v, hv⟩ := Context.getVals_engaged ha hbox (by simp)
    refine ⟨hs', ⟨v, hv⟩, ?_⟩
    rintro s rfl
    exact ⟨v, hone c' s v hv⟩
  · obtain ⟨v, hv⟩ := Context.awaitReady_engaged hready
    refine ⟨⟨v, hv⟩, ?_⟩
    rintro s rfl
    exact ⟨v, hone c s v hv⟩

/-- The message of process 1 resumes process 0, which receives it. -/
theorem receiveAtOnce_receives :
    ∃ tr c c' out, receiveAtOnce.RunsTo (Context.AwaitsBasic receiveAtOnce) 0 tr c ∧ c.Woken 0 ∧
      c.step receiveAtOnce .tick = some (c', out) ∧ ∃ m, (c'.awaitResume 0).1 = .ok m := by
  have hbasic : ∀ (c : Context Nat Unit) l, c.queue.length < 2 ^ 63 → c.AwaitsBasic receiveAtOnce l := by
    intro c l hfits
    refine ⟨fun o rest w t hw => ?_, hfits⟩
    cases hw with
    | yield hs hop hm hq => exact .yield
    | throttle hs ht hc => exact .throttled _
    | @plain s w k hs hop hb =>
      unfold receiveAtOnce at hop
      simp only at hop
      split at hop <;> cases hop
      exact .messages _
  obtain ⟨tr, c, hr, hs, hp, hd, hw, hq, hfind, hnext⟩ := System.exec_reaches
    (M := receiveAtOnce.system) (g := fun c _ => decide (c.queue.length < 2 ^ 63))
    (G := Context.AwaitsBasic receiveAtOnce) (fun c l hfits => hbasic c l (of_decide_eq_true hfits))
    (w := List.replicate 16 .tick) (s := Context.init 0)
    (P := fun _ c => c.stack.isEmpty = true ∧ c.phase = .loop ∧ (c.heap 0).dead = false ∧
      (c.heap 0).lastWaiting = some (.messages [0]) ∧
      c.queue = [.message ⟨⟨0, 0⟩, 0⟩ (.user ())] ∧ c.findProc ⟨0, 0⟩ = some 0 ∧
      (c.step receiveAtOnce .tick).any (fun r => decide (r.1.fault = none)) = true) (by decide)
  have hwoken : c.Woken 0 :=
    .message (List.isEmpty_iff.mp hs) hp hq hfind (by rw [Context.waitingFor, hw]; rfl)
  cases hstep : c.step receiveAtOnce .tick with
  | none => simp [hstep] at hnext
  | some r =>
    have hf : r.1.fault = none := by simpa [hstep] using hnext
    have hfits : c.QueueFits := by simp [Context.QueueFits, hq]
    have hrecv := (recv_not_empty_handed hr hfits).1 0 [0] .tick r.1 r.2 hd hw hwoken hstep hf
    exact ⟨tr, c, r.1, r.2, hr, hwoken, hstep, hrecv.2.2 0 rfl⟩

end Eslang
