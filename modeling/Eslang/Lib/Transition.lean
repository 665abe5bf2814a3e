import Mathlib.Data.List.Basic

/-! # Partial transition functions, their guarded runs and the invariant rule

A `System` is a step function that may refuse a label and that emits observations. `Run M ok s tr t`
is a finite run from `s` to `t` whose every step was taken under a guard `ok` on the state before
it and its label; `tr` collects the observations in order. `exec` is the executable face: it runs a
list of labels and tests a Boolean guard before each step, so a concrete run is a computation
(`exec_run`). -/
namespace Eslang.Lib
set_option autoImplicit false

structure System (S L E : Type) where
  step : S → L → Option (S × List E)

namespace System
variable {S L E : Type}

inductive Run (M : System S L E) (ok : S → L → Prop) (s : S) : List E → S → Prop
  | refl : Run M ok s [] s
  | step {tr : List E} {t : S} {l : L} {u : S} {out : List E} :
      Run M ok s tr t → ok t l → M.step t l = some (u, out) → Run M ok s (tr ++ out) u

/-- The guard of an unrestricted run. -/
def anyStep (_ : S) (_ : L) : Prop := True

theorem Run.mono {M : System S L E} {ok ok' : S → L → Prop} {s t : S} {tr : List E}
    (h : Run M ok s tr t) (hok : ∀ s l, ok s l → ok' s l) : Run M ok' s tr t := by
  induction h with
  | refl => exact .refl
  | step _ hl hs ih => exact .step ih (hok _ _ hl) hs

/-- What holds before the first step and survives every guarded step holds after every run. -/
theorem Run.invariant {M : System S L E} {ok : S → L → Prop} {s t : S} {tr : List E}
    (h : Run M ok s tr t) (Inv : List E → S → Prop) (start : Inv [] s)
    (keep : ∀ tr t l u out, Inv tr t → ok t l → M.step t l = some (u, out) → Inv (tr ++ out) u) :
    Inv tr t := by
  induction h with
  | refl => exact start
  | step _ hl hs ih => exact keep _ _ _ _ _ ih hl hs

/-- The state-only form of `Run.invariant`, relative to an invariant already known of every
state on the way. -/
theorem Run.invariant_of {M : System S L E} {ok : S → L → Prop} {s t : S} {tr : List E}
    (h : Run M ok s tr t) (Known Inv : S → Prop) (known : ∀ {tr t}, Run M ok s tr t → Known t)
    (start : Inv s)
    (keep : ∀ t l u out, Known t → Inv t → ok t l → M.step t l = some (u, out) → Inv u) :
    Inv t := by
  induction h with
  | refl => exact start
  | step hr hl hs ih => exact keep _ _ _ _ (known hr) ih hl hs

/-- A guard may be exchanged for one that follows from it in every state on the way. -/
theorem Run.guard_of {M : System S L E} {ok k : S → L → Prop} {s t : S} {tr : List E}
    (h : Run M ok s tr t) (Known : S → Prop) (known : ∀ {tr t}, Run M ok s tr t → Known t)
    (hok : ∀ s l, Known s → ok s l → k s l) : Run M k s tr t := by
  induction h with
  | refl => exact .refl
  | step hr hl hs ih => exact .step ih (hok _ _ (known hr) hl) hs

/-- The same system under other observations, made of the state before the step. -/
def observe {F : Type} (M : System S L E) (f : S → L → List F) : System S L F where
  step s l := (M.step s l).map fun r => (r.1, f s l)

theorem observe_step {F : Type} {M : System S L E} {f : S → L → List F} {s t : S} {l : L}
    {out : List F} (h : (M.observe f).step s l = some (t, out)) :
    out = f s l ∧ ∃ out', M.step s l = some (t, out') := by
  obtain ⟨r, hr, he⟩ := Option.map_eq_some_iff.mp h
  cases he
  exact ⟨rfl, r.2, hr⟩

theorem observe_of_step {F : Type} {M : System S L E} (f : S → L → List F) {s t : S} {l : L}
    {out : List E} (h : M.step s l = some (t, out)) : (M.observe f).step s l = some (t, f s l) := by
  simp [observe, h]

theorem Run.of_observe {F : Type} {M : System S L E} {f : S → L → List F} {ok : S → L → Prop}
    {s t : S} {log : List F} (h : Run (M.observe f) ok s log t) : ∃ tr, Run M ok s tr t := by
  induction h with
  | refl => exact ⟨[], .refl⟩
  | step _ hl hs ih =>
    obtain ⟨tr, hr⟩ := ih
    obtain ⟨-, out, ho⟩ := observe_step hs
    exact ⟨tr ++ out, .step hr hl ho⟩

/-- The same system under observations made of the states before and after the step. -/
def watch {F : Type} (M : System S L E) (f : S → S → List F) : System S L F where
  step s l := (M.step s l).map fun r => (r.1, f s r.1)

theorem watch_step {F : Type} {M : System S L E} {f : S → S → List F} {s t : S} {l : L}
    {out : List F} (h : (M.watch f).step s l = some (t, out)) :
    out = f s t ∧ ∃ out', M.step s l = some (t, out') := by
  obtain ⟨r, hr, he⟩ := Option.map_eq_some_iff.mp h
  cases he
  exact ⟨rfl, r.2, hr⟩

theorem Run.trans {M : System S L E} {ok : S → L → Prop} {s t u : S} {tr tr' : List E}
    (h : Run M ok s tr t) (h' : Run M ok t tr' u) : Run M ok s (tr ++ tr') u := by
  induction h' with
  | refl => simpa using h
  | step _ hl hs ih => simpa using Run.step ih hl hs

/-! ## Executable runs -/

def exec (M : System S L E) (guard : S → L → Bool) (s : S) : List L → Option (S × List E)
  | [] => some (s, [])
  | l :: ls =>
      if guard s l then
        match M.step s l with
        | none => none
        | some (t, out) => (exec M guard t ls).map fun r => (r.1, out ++ r.2)
      else none

theorem Run.head {M : System S L E} {ok : S → L → Prop} {s t u : S} {l : L} {out tr : List E}
    (hl : ok s l) (hs : M.step s l = some (t, out)) (h : Run M ok t tr u) :
    Run M ok s (out ++ tr) u := by
  induction h with
  | refl => simpa using Run.step Run.refl hl hs
  | step _ hl' hs' ih => simpa using Run.step ih hl' hs'

theorem exec_run {M : System S L E} {g : S → L → Bool} {G : S → L → Prop}
    (hok : ∀ s l, g s l = true → G s l) {w : List L} {s t : S} {tr : List E}
    (h : exec M g s w = some (t, tr)) : Run M G s tr t := by
  induction w generalizing s t tr with
  | nil =>
    simp only [exec, Option.some.injEq, Prod.mk.injEq] at h
    obtain ⟨rfl, rfl⟩ := h
    exact .refl
  | cons l w ih =>
    simp only [exec] at h
    split at h
    case isFalse => cases h
    case isTrue hg =>
      cases hs : M.step s l with
      | none => simp [hs] at h
      | some r =>
        obtain ⟨v, out⟩ := r
        simp only [hs, Option.map_eq_some_iff] at h
        obtain ⟨⟨w, tr'⟩, hw, he⟩ := h
        simp only [Prod.mk.injEq] at he
        obtain ⟨rfl, rfl⟩ := he
        exact Run.head (hok s l hg) hs (ih hw)

/-- The first step of a computed run, and the run after it. -/
theorem exec_cons {M : System S L E} {g : S → L → Bool} {G : S → L → Prop}
    (hok : ∀ s l, g s l = true → G s l) {l : L} {w : List L} {s : S} {P : S → Prop}
    [DecidablePred P] (h : (exec M g s (l :: w)).any (fun r => decide (P r.1)) = true) :
    ∃ t out tr u, M.step s l = some (t, out) ∧ Run M G t tr u ∧ P u := by
  simp only [exec] at h
  split at h
  case isFalse => simp at h
  case isTrue hg =>
    cases hs : M.step s l with
    | none => simp [hs] at h
    | some r =>
      cases he : exec M g r.1 w with
      | none => simp [hs, he] at h
      | some q =>
        exact ⟨r.1, r.2, q.2, q.1, rfl, exec_run hok he, by simpa [hs, he] using h⟩

/-- A run found by computation: the state at its end satisfies a tested property. -/
theorem exec_reaches {M : System S L E} {g : S → L → Bool} {G : S → L → Prop}
    (hok : ∀ s l, g s l = true → G s l) {w : List L} {s : S} {P : List E → S → Prop}
    [∀ tr t, Decidable (P tr t)]
    (h : (exec M g s w).any (fun r => decide (P r.2 r.1)) = true) :
    ∃ tr t, Run M G s tr t ∧ P tr t := by
  cases he : exec M g s w with
  | none => simp [he] at h
  | some r => exact ⟨r.2, r.1, exec_run hok he, by simpa [he] using h⟩

/-! ## Two systems in lock step -/

/-- Related states take the same labels, emit the same observations and stay related, where a label that
the guard refuses is one that `M` does not take. -/
def LockStep {T : Type} (M : System S L E) (guard : S → L → Bool) (N : System T L E)
    (R : S → T → Prop) : Prop :=
  ∀ s t l, R s t → Option.Rel (fun p q => R p.1 q.1 ∧ p.2 = q.2)
    (if guard s l then M.step s l else none) (N.step t l)

/-- **Two systems in lock step have the same executions.** -/
theorem LockStep.exec {T : Type} {M : System S L E} {guard : S → L → Bool} {N : System T L E}
    {R : S → T → Prop} (h : LockStep M guard N R) {s : S} {t : T} (hR : R s t) (w : List L) :
    Option.Rel (fun p q => R p.1 q.1 ∧ p.2 = q.2) (M.exec guard s w)
      (N.exec (fun _ _ => true) t w) := by
  induction w generalizing s t with
  | nil => exact .some ⟨hR, rfl⟩
  | cons l w ih =>
    have hstep := h s t l hR
    have hguard : M.exec guard s (l :: w) =
        (if guard s l then M.step s l else none).bind fun r =>
          (M.exec guard r.1 w).map fun q => (q.1, r.2 ++ q.2) := by
      cases hg : guard s l with
      | false => simp [System.exec, hg]
      | true => cases hs : M.step s l <;> simp [System.exec, hg, hs]
    rw [hguard]
    simp only [System.exec, if_true]
    generalize (if guard s l then M.step s l else none) = p at hstep
    generalize N.step t l = q at hstep
    cases hstep with
    | none => exact .none
    | @some p q hpq =>
      obtain ⟨hR', hout⟩ := hpq
      have hrest := ih hR'
      simp only [Option.bind_some]
      generalize M.exec guard p.1 w = x at hrest
      generalize N.exec (fun _ _ => true) q.1 w = y at hrest
      cases hrest with
      | none => exact .none
      | some hxy =>
        refine .some ⟨hxy.1, ?_⟩
        simp only [hout, hxy.2]

end System
end Eslang.Lib
