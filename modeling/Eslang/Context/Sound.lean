import Eslang.Context.Mail

/-! # The invariants of every run

Every reachable state of every program keeps the table invariant, names only allocated processes and
made addresses, has no wait of a process that was not started, and waits only on throttle promises
of slots that were made. `Code.sound` collects them. -/
namespace Eslang
set_option autoImplicit false
open Lib

namespace Context
variable {σ μ : Type}

/-! ## Waits on throttle promises name slots that exist or existed -/

/-- The promise on which `RunningProcess::resume` would call `process()`. -/
def awaited (c : Context σ μ) (o : ObjId) : Option PromiseRef :=
  (c.heap o).lastWaiting.bind Waiting.wakeOnFuture

theorem awaited_of_cells {c c' : Context σ μ} {o : ObjId} (h : c'.cells o = c.cells o) :
    c'.awaited o = c.awaited o :=
  congrArg (fun p : Cell σ μ => p.lastWaiting.bind Waiting.wakeOnFuture) h

theorem awaited_suspended (c : Context σ μ) (o : ObjId) (w : Waiting) (t : Coro σ μ) :
    (c.suspended o w t).awaited o = w.wakeOnFuture := by
  have hcells := congrFun (cells_suspended c o w t) o
  rw [Function.update_self] at hcells
  exact congrArg (fun p : Cell σ μ => p.lastWaiting.bind Waiting.wakeOnFuture) hcells

theorem canQueue_some {c : Context σ μ} {a : SendAddress} {p : PromiseRef}
    (h : c.canQueue a = .ok (some p)) :
    p = .throttle a.slot ∧ ∃ q, (c.slots a.slot).queue = some q ∧ 10 ≤ q.size := by
  unfold canQueue at h
  split at h
  · cases h
  · cases h
  · split at h
    · cases h
    next q hq =>
      split at h <;> cases h
      next hs => exact ⟨rfl, q, hq, of_decide_eq_true hs⟩

theorem awaits_slot {code : Code σ μ} {c : Context σ μ} (ha : c.Addressed) {o : ObjId}
    {rest : List (Frame σ μ)} {w : Waiting} {t : Coro σ μ} {s : SlotId}
    (hw : Awaits code c o rest w t) (hs : w.wakeOnFuture = some (.throttle s)) :
    s < c.slotCount := by
  cases hw with
  | yield hs' hop hm hq => cases hs
  | @throttle t₀ a m k p hs' hat hc =>
    obtain ⟨rfl, -⟩ := canQueue_some hc
    cases hs
    have hm := (atCheck_made hs' hat).elim (ha a) id
    simp only [made, Bool.and_eq_true, decide_eq_true_eq] at hm
    exact hm.1
  | plain hs' hop hb =>
    simp only [buildable, hs, Bool.and_eq_true, Option.all_some] at hb
    simpa [knowsPromise] using hb.1.2

def SlotsKnown (c : Context σ μ) : Prop :=
  ∀ o s, c.Idle o → c.awaited o = some (.throttle s) → s < c.slotCount

theorem effect_slotsKnown {code : Code σ μ} {c c' : Context σ μ} {l : Label} {out : List (Event μ)}
    (he : Effect code c l out c') (ht : c.table.Ok) (hr : c.Refs) (ha : c.Addressed)
    (hu : c.Unstarted) (h : c.SlotsKnown) : c'.SlotsKnown := by
  intro o s ho hs
  refine Nat.lt_of_lt_of_le ?_ (effect_owner he).1
  cases effect_idle he ht hr hu ho with
  | same hidle hc => exact h o s hidle (awaited_of_cells hc ▸ hs)
  | suspend hw he' =>
    rw [he', awaited_suspended] at hs
    exact awaits_slot ha hw hs
  | fresh hl hn htask =>
    have hl : (c'.heap o).lastWaiting = none := hl
    simp [awaited, hl] at hs

theorem slotsKnown_init (main : σ) : (init main : Context σ μ).SlotsKnown := by
  intro o s _ hs
  simp [init, awaited] at hs

/-! ## The invariants of every run, together -/

/-- What holds in every reachable state, whatever the program does. -/
structure Sound (c : Context σ μ) : Prop where
  table : c.table.Ok
  refs : c.Refs
  addressed : c.Addressed
  unstarted : c.Unstarted
  slotsKnown : c.SlotsKnown

theorem effect_sound {code : Code σ μ} {c c' : Context σ μ} {l : Label} {out : List (Event μ)}
    (he : Effect code c l out c') (h : c.Sound) : c'.Sound where
  table := (effect_tableStep he).ok h.table
  refs := effect_refs he h.table h.refs
  addressed := effect_addressed he h.table h.refs h.addressed
  unstarted := effect_unstarted he h.table h.refs h.unstarted
  slotsKnown := effect_slotsKnown he h.table h.refs h.addressed h.unstarted h.slotsKnown

theorem sound_init (main : σ) : (init main : Context σ μ).Sound :=
  ⟨table_init main, refs_init main, addressed_init main, unstarted_init main, slotsKnown_init main⟩

end Context

/-- **Every reachable state is sound.** -/
theorem Code.sound {σ μ : Type} {code : Code σ μ} {ok : Context σ μ → Label → Prop} {main : σ}
    {tr : List (Event μ)} {c : Context σ μ} (h : code.RunsTo ok main tr c) : c.Sound :=
  h.invariant (fun _ c => c.Sound) (Context.sound_init main)
    fun _ _ _ _ _ hi _ hs => Context.effect_sound (Context.step_effect hs).2 hi

end Eslang
