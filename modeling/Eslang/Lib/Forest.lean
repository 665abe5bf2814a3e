import Eslang.Lib.Chain

/-! # Forests given by their upward links

`up a` is the node above `a`, and `Leads up a r` says that `a` lies at or below `r`. If every link goes to a
node of smaller rank, a walk upwards ends; `meets` is such a walk with a bound on its length, and it decides
`Leads` (`meets_iff`). -/
namespace Eslang.Lib
set_option autoImplicit false

variable {α : Type} {up : α → Option α} {rank : α → Nat}

/-- The walk of at most `n` members from `a` upwards meets `r`. -/
def meets [DecidableEq α] (up : α → Option α) (r : α) : Nat → α → Bool
  | 0, _ => false
  | n + 1, a =>
      a == r ||
        match up a with
        | none => false
        | some b => meets up r n b

/-- Every link goes to a smaller rank. -/
def Ranked (up : α → Option α) (rank : α → Nat) : Prop := ∀ a b, up a = some b → rank b < rank a

theorem Ranked.le (h : Ranked up rank) {a r : α} (hr : Leads up a r) : rank r ≤ rank a := by
  induction hr with
  | refl => exact Nat.le_refl _
  | tail _ hb ih => exact Nat.le_trans (Nat.le_of_lt (h _ _ hb)) ih

theorem leads_of_meets [DecidableEq α] {r : α} {n : Nat} {a : α} (h : meets up r n a = true) :
    Leads up a r := by
  induction n generalizing a with
  | zero => cases h
  | succ n ih =>
    simp only [meets, Bool.or_eq_true, beq_iff_eq] at h
    rcases h with rfl | h
    · exact Leads.refl _ _
    · cases hb : up a with
      | none => simp [hb] at h
      | some b => exact Leads.head hb (ih (by simpa [hb] using h))

/-- A walk that may be as long as the rank of its start finds every node above. -/
theorem Ranked.meets [DecidableEq α] (h : Ranked up rank) {a r : α} (hr : Leads up a r) {n : Nat}
    (hn : rank a < n) : Lib.meets up r n a = true := by
  induction n generalizing a with
  | zero => exact absurd hn (Nat.not_lt_zero _)
  | succ n ih =>
    simp only [Lib.meets, Bool.or_eq_true, beq_iff_eq]
    rcases Relation.ReflTransGen.cases_head hr with rfl | ⟨b, hb, hbr⟩
    · exact .inl rfl
    · right
      have hlt := h a b hb
      rw [hb]
      exact ih hbr (by omega)

theorem Ranked.meets_iff [DecidableEq α] (h : Ranked up rank) {a r : α} {n : Nat} (hn : rank a < n) :
    Lib.meets up r n a = true ↔ Leads up a r :=
  ⟨leads_of_meets, fun hr => h.meets hr hn⟩

end Eslang.Lib
