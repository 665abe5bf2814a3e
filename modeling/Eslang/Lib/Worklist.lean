import Mathlib.Data.Set.Basic
import Mathlib.Logic.Relation

/-! # Worklists compute a closure

A worklist over a relation `R` keeps the elements it has handled apart from those it still has to handle.
Whatever the order in which it takes them, once nothing is left to do it has handled exactly what is
reachable from where it started. -/
namespace Eslang.Lib
set_option autoImplicit false

variable {α : Type} {R : α → α → Prop} {start done todo done' todo' : Set α}

/-- What `R` reaches from `start`. -/
def Reached (R : α → α → Prop) (start : Set α) (b : α) : Prop :=
  ∃ a ∈ start, Relation.ReflTransGen R a b

structure Worklist (R : α → α → Prop) (start done todo : Set α) : Prop where
  covers : ∀ a ∈ start, a ∈ done ∨ a ∈ todo
  closed : ∀ a ∈ done, ∀ b, R a b → b ∈ done ∨ b ∈ todo
  sound : ∀ a, a ∈ done ∨ a ∈ todo → Reached R start a

theorem Worklist.init : Worklist R start ∅ start where
  covers _ ha := .inr ha
  closed _ ha := absurd ha (Set.notMem_empty _)
  sound a ha := ⟨a, ha.resolve_left (Set.notMem_empty _), .refl⟩

theorem Worklist.step (h : Worklist R start done todo) {a : α} (ha : a ∈ todo)
    (hdone : ∀ b, b ∈ done' ↔ b ∈ done ∨ b = a)
    (hkeep : ∀ b ∈ todo, b ∈ done' ∨ b ∈ todo') (hnext : ∀ b, R a b → b ∈ done' ∨ b ∈ todo')
    (honly : ∀ b ∈ todo', b ∈ todo ∨ R a b) : Worklist R start done' todo' where
  covers b hb := (h.covers b hb).elim (fun hb => .inl ((hdone b).mpr (.inl hb))) (hkeep b)
  closed b hb d hd := by
    rcases (hdone b).mp hb with hb | rfl
    · exact (h.closed b hb d hd).elim (fun hd => .inl ((hdone d).mpr (.inl hd))) (hkeep d)
    · exact hnext d hd
  sound b hb := by
    rcases hb with hb | hb
    · rcases (hdone b).mp hb with hb | rfl
      · exact h.sound b (.inl hb)
      · exact h.sound b (.inr ha)
    · rcases honly b hb with hb | hb
      · exact h.sound b (.inr hb)
      · obtain ⟨s, hs, hr⟩ := h.sound a (.inr ha)
        exact ⟨s, hs, hr.tail hb⟩

theorem Worklist.congr (h : Worklist R start done todo) (hdone : ∀ b, b ∈ done' ↔ b ∈ done)
    (htodo : ∀ b, b ∈ todo' ↔ b ∈ todo) : Worklist R start done' todo' := by
  rwa [Set.ext hdone, Set.ext htodo]

/-- **A worklist with nothing left to do has handled exactly what is reachable.** -/
theorem Worklist.exact (h : Worklist R start done todo) (hnil : ∀ a, a ∉ todo) (b : α) :
    b ∈ done ↔ Reached R start b := by
  refine ⟨fun hb => h.sound b (.inl hb), ?_⟩
  rintro ⟨a, ha, hr⟩
  induction hr with
  | refl => exact (h.covers a ha).resolve_right (hnil a)
  | tail _ hbd ih => exact (h.closed _ ih _ hbd).resolve_right (hnil _)

end Eslang.Lib
