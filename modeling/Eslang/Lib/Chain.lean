import Mathlib

/-! # Chains of a partial successor function

`Leads next a z` says that `z` is reached from `a` along `next`, and `Walk next n a z` that `n` steps
lead from `a` to an end `z`. If no member leads back to itself (`Acyclic`), every chain with finitely
many members ends, in fewer steps than there are members (`Acyclic.walk`); and this stays so when `i`
gets a successor that does not lead to `i` (`Acyclic.update`). -/
namespace Eslang.Lib
set_option autoImplicit false
open Relation

variable {α : Type} {next next' : α → Option α}

def Leads (next : α → Option α) : α → α → Prop := ReflTransGen fun a b => next a = some b

namespace Leads

theorem refl (next : α → Option α) (a : α) : Leads next a a := ReflTransGen.refl

theorem head {a b z : α} (h : next a = some b) (hz : Leads next b z) : Leads next a z :=
  ReflTransGen.head h hz

theorem tail {a b z : α} (h : Leads next a b) (hz : next b = some z) : Leads next a z :=
  ReflTransGen.tail h hz

theorem trans {a b z : α} (h : Leads next a b) (hz : Leads next b z) : Leads next a z :=
  ReflTransGen.trans h hz

theorem of_end {a z : α} (h : Leads next a z) (ha : next a = none) : z = a := by
  rcases ReflTransGen.cases_head h with rfl | ⟨b, hb, -⟩
  · rfl
  · rw [ha] at hb
    cases hb

theorem mono {a z : α} (h : Leads next a z) (hn : ∀ a b, next a = some b → next' a = some b) :
    Leads next' a z :=
  Relation.ReflTransGen.mono (fun a b => hn a b) _ _ h

/-- What is reached stays reached, whatever its successor becomes. -/
theorem upto {a z : α} (h : Leads next a z)
    (hn : ∀ x y, x ≠ z → next x = some y → next' x = some y) : Leads next' a z := by
  induction h using ReflTransGen.head_induction_on with
  | refl => exact refl next' z
  | @head x y hxy _ ih =>
    by_cases hx : x = z
    · rw [hx]
      exact refl next' z
    · exact head (hn x y hx hxy) ih

/-- What leads to a start without predecessor is that start. -/
theorem of_start {a z : α} (h : Leads next a z) (hz : ∀ b, next b ≠ some z) : a = z := by
  rcases ReflTransGen.cases_tail h with rfl | ⟨b, -, hb⟩
  · rfl
  · exact absurd hb (hz b)

/-- Two chains to one member, each member having one predecessor: one is a part of the other. -/
theorem comparable {a b z : α} (hinj : ∀ a b c, next a = some c → next b = some c → a = b)
    (h : Leads next a z) (h' : Leads next b z) : Leads next a b ∨ Leads next b a := by
  induction h using ReflTransGen.trans_induction_on generalizing b with
  | refl a => exact .inr h'
  | single hab =>
    rename_i a c
    rcases ReflTransGen.cases_tail h' with rfl | ⟨d, hd, hdc⟩
    · exact .inl (ReflTransGen.single hab)
    · cases hinj _ _ _ hab hdc
      exact .inr hd
  | trans h₁ h₂ ih₁ ih₂ =>
    rcases ih₂ h' with hcb | hbc
    · exact .inl (ReflTransGen.trans h₁ hcb)
    · exact ih₁ hbc

end Leads

/-- An executable test: the chain from `a` ends within `n` members and does not meet `z`. -/
def endsWithout [DecidableEq α] (next : α → Option α) (z : α) : Nat → α → Bool
  | 0, _ => false
  | n + 1, a =>
      a != z &&
        match next a with
        | none => true
        | some b => endsWithout next z n b

theorem not_leads_of_endsWithout [DecidableEq α] {z : α} {n : Nat} {a : α}
    (h : endsWithout next z n a = true) : ¬ Leads next a z := by
  induction n generalizing a with
  | zero => cases h
  | succ n ih =>
    simp only [endsWithout, Bool.and_eq_true, bne_iff_ne] at h
    intro hz
    rcases ReflTransGen.cases_head hz with rfl | ⟨b, hb, hbz⟩
    · exact h.1 rfl
    · rw [hb] at h
      exact ih h.2 hbz

/-! ## Chains that end -/

/-- Nothing leads back to itself. -/
def Acyclic (next : α → Option α) : Prop := ∀ a, ¬ TransGen (fun a b => next a = some b) a a

inductive Walk (next : α → Option α) : Nat → α → α → Prop
  | stop {a : α} (h : next a = none) : Walk next 0 a a
  | go {n : Nat} {a b z : α} (h : next a = some b) (hw : Walk next n b z) : Walk next (n + 1) a z

namespace Acyclic

theorem mono (h : Acyclic next) (hn : ∀ a b, next' a = some b → next a = some b) : Acyclic next' :=
  fun a ha => h a (TransGen.mono (fun a b => hn a b) _ _ ha)

/-- A chain along a changed successor is an old one, or it passes the change. -/
theorem split_update [DecidableEq α] {i c a b : α}
    (h : TransGen (fun a b => Function.update next i (some c) a = some b) a b) :
    TransGen (fun a b => next a = some b) a b ∨ Leads next a i ∧ Leads next c b := by
  induction h with
  | @single b hb =>
    by_cases ha : a = i
    · rw [ha, Function.update_self] at hb
      cases hb
      exact .inr ⟨ha ▸ Leads.refl _ _, Leads.refl _ _⟩
    · rw [Function.update_of_ne ha] at hb
      exact .inl (.single hb)
  | @tail b d _ hd ih =>
    by_cases hb : b = i
    · rw [hb, Function.update_self] at hd
      cases hd
      rcases ih with ih | ih
      · exact .inr ⟨hb ▸ ih.to_reflTransGen, Leads.refl _ _⟩
      · exact .inr ⟨ih.1, Leads.refl _ _⟩
    · rw [Function.update_of_ne hb] at hd
      exact ih.imp (fun ih => ih.tail hd) fun ih => ⟨ih.1, ih.2.tail hd⟩

theorem update [DecidableEq α] {i c : α} (h : Acyclic next) (hc : ¬ Leads next c i) :
    Acyclic (Function.update next i (some c)) := by
  intro a ha
  rcases split_update ha with ha | ⟨hai, hca⟩
  · exact h a ha
  · exact hc (hca.trans hai)

/-- **A chain without circles among finitely many members ends.** -/
theorem walk [DecidableEq α] (h : Acyclic next) {S : Finset α} {a : α}
    (hS : ∀ b, Leads next a b → b ∈ S) : ∃ n z, Walk next n a z ∧ n < S.card := by
  induction S using Finset.strongInduction generalizing a with
  | H S ih =>
    have ha := hS a (Leads.refl _ a)
    cases hn : next a with
    | none => exact ⟨0, a, .stop hn, Finset.card_pos.mpr ⟨a, ha⟩⟩
    | some b =>
      have hb : ∀ d, Leads next b d → d ∈ S.erase a := by
        intro d hd
        refine Finset.mem_erase.mpr ⟨?_, hS d (Leads.head hn hd)⟩
        rintro rfl
        exact h d (TransGen.head' hn hd)
      obtain ⟨n, z, hw, hlt⟩ := ih (S.erase a) (Finset.erase_ssubset ha) hb
      refine ⟨n + 1, z, .go hn hw, ?_⟩
      rw [Finset.card_erase_of_mem ha] at hlt
      omega

end Acyclic
end Eslang.Lib
