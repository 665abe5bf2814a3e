import Eslang.Coroutine.Wellformed

/-! # Yielded and taken values (`GenPromise`, `GenTask::take`)

A value that a generator yields is taken in the same step if its consumer is suspended in `next()`, and
otherwise by the next step of the consumer, whose call of `next()` then returns. So a value waits to be
taken exactly while the top of the native stack has called a generator that has yielded (`Pending`),
and the values taken from a generator are those that it yielded, but for that one. -/
namespace Eslang.Coroutine
set_option autoImplicit false
open Lib

/-! ## Generators in use -/

namespace Links
variable {W : Type} {l l' : Links W}

/-- A generator between two yields has a consumer: one that called it, or one suspended in it. -/
def Owned (l : Links W) : Prop :=
  ∀ g, l.kind g = .gen → l.shape g ≠ .idle → l.shape g ≠ .done →
    (∃ i, l.shape i = .calls .gen g) ∨ ∃ p, l.parent g = some p

/-- A call of `next()` has returned because generator `g` has yielded. -/
def Pending (l : Links W) (g : Handle) : Prop := l.shape g = .idle ∧ ∃ i, l.shape i = .calls .gen g

theorem Pending.head {g : Handle} (h : l.Pending g) (hl : l.Wf) :
    ∃ i, l.stack.head? = some i ∧ l.shape i = .calls .gen g := by
  obtain ⟨hg, i, hi⟩ := h
  refine ⟨i, (hl.native.callee i _ g hi).resolve_left fun hm => ?_, hi⟩
  have hsh := (hl.native.mem_iff g).mp hm
  simp [hg] at hsh

theorem Wf.not_pending {i g : Handle} {rest : List Handle} (hl : l.Wf) (hs : l.stack = i :: rest)
    (ha : l.shape i = .active) : ¬ l.Pending g := by
  intro h
  obtain ⟨j, hj, hc⟩ := h.head hl
  rw [hs] at hj
  cases hj
  rw [ha] at hc
  cases hc

theorem Wf.returned_shape {i g : Handle} {rest : List Handle} (hl : l.Wf) (hs : l.stack = i :: rest)
    (hc : l.shape i = .calls .gen g) (hn : l.isSuspended g = false) :
    l.shape g = .idle ∨ l.shape g = .done := by
  have hout := (hl.native.mem_iff g).not.mp (hl.native.returned i _ g (by simp [hs]) hc)
  have hkind := (hl.native.called i _ g hc).1
  have hroot : g ≠ root := hl.ne_root (by simp [hkind])
  simp only [isSuspended, Bool.or_eq_false_iff, Option.isSome_eq_false_iff, Option.isNone_iff_eq_none]
    at hn
  cases hsh : l.shape g with
  | idle => exact .inl rfl
  | done => exact .inr rfl
  | active => simp [hsh] at hout
  | calls k c => simp [hsh] at hout
  | awaits k c =>
    have hsub := (hl.chained.sub_iff g c).mpr ⟨k, hsh⟩
    rw [hn.1] at hsub
    cases hsub
  | waits w =>
    have hw := hl.waits.waits g w hsh hroot
    rw [hn.2] at hw
    cases hw

namespace Move

theorem owned (h : l.Move l') (hl : l.Wf) (ho : l.Owned) : l'.Owned := by
  unfold Owned at ho ⊢
  cases h with
  | stay => exact ho
  | collect => exact ho
  | @returned i c k rest hs hc hr =>
    have hret : k = .gen → l.shape c = .idle ∨ l.shape c = .done := by
      rintro rfl
      exact hl.returned_shape hs hc (hr rfl)
    simp only [turn, Function.update_apply]
    grind -ring -linarith
  | wait hs ha => simp only [Function.update_apply]; grind -ring -linarith
  | start hs ha =>
    have hf := hl.fresh l.count le_rfl
    simp only [make, turn, Function.update_apply]
    grind -ring -linarith
  | gen hs ha =>
    have hf := hl.fresh l.count le_rfl
    simp only [make, Function.update_apply]
    grind -ring -linarith
  | call hs ha hk hg => simp only [turn, Function.update_apply]; grind -ring -linarith
  | join hs ha hk hn hj hd hr hm =>
    obtain ⟨A, N, rfl, -⟩ := adopt_spec hm
    simp only [turn, Function.update_apply]
    grind -ring -linarith
  | awaitNext hs hc hr hm =>
    obtain ⟨A, N, rfl, -⟩ := adopt_spec hm
    simp only [turn, Function.update_apply]
    grind -ring -linarith
  | yieldUp hs ha hk hp => simp only [Function.update_apply]; grind -ring -linarith
  | @yieldInto g p rest hs ha hk hp =>
    have hpw := hl.chained.parent_awaits p g hp (.inr hk)
    simp only [Function.update_apply]
    grind -ring -linarith
  | finishUp hs ha hp => simp only [Function.update_apply]; grind -ring -linarith
  | @finishInto i p rest hs ha hk hp =>
    have hpw := hl.chained.parent_awaits p i hp (.inl (by simp [ha]))
    simp only [Function.update_apply]
    grind -ring -linarith
  | resume hs hr hz =>
    have hroot := hl.process_iff root
    rcases hl.resumed hr hz with ⟨w, hw⟩ | ⟨hn, hi⟩
    · simp only [Function.update_apply]
      grind -ring -linarith
    · simp only [hn, Option.getD_none, Function.update_apply]
      grind -ring -linarith

/-- Only a generator that yields to its caller leaves a value to be taken. -/
theorem pending (h : l.Move l') (hl : l.Wf) {g : Handle} (hp : l'.Pending g) :
    ∃ rest, l.stack = g :: rest ∧ l.shape g = .active ∧ l.parent g = none := by
  obtain ⟨hg, j, hj⟩ := hp
  have hold : ∀ i rest, l.stack = i :: rest → l.shape i = .active → l.shape g = .idle →
      ∀ j, l.shape j ≠ .calls .gen g := fun i rest hs ha hi j hj =>
    hl.not_pending hs ha ⟨hi, j, hj⟩
  have hhead : l.shape g = .idle → l.shape j = .calls .gen g → l.stack.head? = some j := by
    intro hi hc
    obtain ⟨b, hb, hbc⟩ := Pending.head (l := l) ⟨hi, j, hc⟩ hl
    rw [hl.native.called_once j b _ _ g hc hbc]
    exact hb
  cases h with
  | stay hs ha => exact absurd hj (hold _ _ hs ha hg j)
  | collect hs ha => exact absurd hj (hold _ _ hs ha hg j)
  | returned hs hc hr =>
    simp only [turn, Function.update_apply] at hg hj
    grind -ring -linarith
  | wait hs ha =>
    simp only [Function.update_apply] at hg hj
    grind -ring -linarith
  | start hs ha =>
    have hcalled := fun j k => hl.native.called j k l.count
    simp only [make, turn, Function.update_apply] at hg hj
    grind -ring -linarith
  | gen hs ha =>
    have hcalled := fun j k => hl.native.called j k l.count
    simp only [make, Function.update_apply] at hg hj
    grind -ring -linarith
  | call hs ha hk hidle =>
    simp only [turn, Function.update_apply] at hg hj
    grind -ring -linarith
  | join hs ha hk hn hj' hd hr hm =>
    obtain ⟨A, N, rfl, -⟩ := adopt_spec hm
    simp only [turn, Function.update_apply] at hg hj
    grind -ring -linarith
  | awaitNext hs hc hr hm =>
    obtain ⟨A, N, rfl, -⟩ := adopt_spec hm
    simp only [turn, Function.update_apply] at hg hj
    grind -ring -linarith
  | @yieldUp g' rest hs ha hk hp =>
    simp only [Function.update_apply] at hg hj
    grind -ring -linarith
  | @yieldInto g' p rest hs ha hk hp =>
    have hcalled := fun j k => hl.native.called j k g'
    simp only [Function.update_apply] at hg hj
    grind -ring -linarith
  | finishUp hs ha hp =>
    simp only [Function.update_apply] at hg hj
    grind -ring -linarith
  | finishInto hs ha hk hp =>
    simp only [Function.update_apply] at hg hj
    grind -ring -linarith
  | resume hs hr hz =>
    simp only [Function.update_apply] at hg hj
    grind -ring -linarith

end Move
end Links

/-! ## What a trace says about one generator -/

section Traces
variable {V : Type}

def Event.yieldOf (g : Handle) : Event V → Option V
  | .yielded h v => if h = g then some v else none
  | .act _ _ | .delivered _ _ | .taken _ _ => none

def Event.takeOf (g : Handle) : Event V → Option V
  | .taken h v => if h = g then some v else none
  | .act _ _ | .delivered _ _ | .yielded _ _ => none

/-- The `yield_value` calls of `g`. -/
def yields (g : Handle) (tr : List (Event V)) : List V := tr.filterMap (Event.yieldOf g)

/-- The values that its consumer took from `g`. -/
def takes (g : Handle) (tr : List (Event V)) : List V := tr.filterMap (Event.takeOf g)

/-- Events of which none is about a generator. -/
def Silent (out : List (Event V)) : Prop := ∀ g, yields g out = [] ∧ takes g out = []

theorem silent_nil : Silent ([] : List (Event V)) := fun _ => ⟨rfl, rfl⟩

end Traces

/-! ## The invariant of a run -/

namespace State
variable {σ V W : Type}

theorem Reply.taken {s : State σ V W} {p g : Handle} {v a : V} {x : σ} {out : List (Event V)}
    (h : s.Reply p v x out) (hp : s.links.shape p = .awaits .gen g) (hg : s.links.shape g ≠ .done)
    (ht : (s.promises g).t_ = some a) :
    out = [.taken g a] ∧ ∃ k, (s.promises p).ctl = .nexting g k ∧ x = k (some a) := by
  cases h with
  | idle hc | wait hc | join hc =>
    rw [shape_of_ctl hc] at hp
    cases hp
  | @next g' k r hc hr =>
    have he := (shape_of_ctl hc).symm.trans hp
    obtain rfl : g' = g := by
      cases he
      rfl
    have hf : s.atFinalSuspend g' = false := by
      rw [Bool.eq_false_iff]
      exact fun hd => hg ((atFinalSuspend_iff s g').mp hd)
    simp only [nextReply, hf, Bool.false_eq_true, if_false, ht, Option.map_some, Option.some.injEq] at hr
    subst hr
    exact ⟨rfl, k, hc, rfl⟩

/-- The process starts two methods that both call `next()` of one generator. -/
def sharing : Code Nat Nat Unit
  | 0 => .gen 10 fun _ => 1
  | 1 => .start 20 fun _ => 2
  | 2 => .start 20 fun _ => 3
  | 10 => .await () fun _ => 11
  | 11 => .yield 1 12
  | 20 => .next 1 fun _ => 21
  | _ => .ret 0

-- the second call resumes the generator while it waits, and both methods take the value
example : ((machine sharing).exec (fun _ _ => true) (init 0) [.resume 0, .tick true 0, .tick true 0,
    .tick true 0, .tick false 0, .tick true 0, .tick true 0, .tick true 0, .tick true 0, .tick true 0,
    .tick true 0, .tick true 0]).any fun r => yields 1 r.2 = [1] ∧ takes 1 r.2 = [1, 1] := by
  decide

end State
end Eslang.Coroutine
