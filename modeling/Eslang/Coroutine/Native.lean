import Eslang.Coroutine.Links

/-! # The native stack and `updateSuspend`

`Stacks` says what the native call stack looks like between two steps, with one lemma for each way in
which a step changes it. `adopt_spec` says what `updateSuspend` leaves behind. -/
namespace Eslang.Coroutine
set_option autoImplicit false
open Lib

namespace Links
variable {W : Type} {l l' : Links W}

/-! ## The native stack -/

/-- A coroutine is on the native stack while it runs, or while a call it made is not answered. Below
each coroutine is the one that called it; a coroutine that was called has no parent. -/
structure Stacks (l : Links W) : Prop where
  nodup : l.stack.Nodup
  mem_iff : ∀ i, i ∈ l.stack ↔ l.shape i = .active ∨ ∃ k c, l.shape i = .calls k c
  chain : l.stack.IsChain fun a b => ∃ k, l.shape b = .calls k a
  called : ∀ i k c, l.shape i = .calls k c →
    l.kind c = k ∧ k ≠ .process ∧ c < l.count ∧ l.parent c = none
  called_once : ∀ i j k k' c, l.shape i = .calls k c → l.shape j = .calls k' c → i = j
  callee : ∀ i k c, l.shape i = .calls k c → c ∈ l.stack ∨ l.stack.head? = some i
  returned : ∀ i k c, l.stack.head? = some i → l.shape i = .calls k c → c ∉ l.stack

namespace Stacks

theorem not_mem_rest {i : Handle} {rest : List Handle} (h : l.Stacks) (hs : l.stack = i :: rest) :
    i ∉ rest := by
  have hn := h.nodup
  rw [hs] at hn
  exact (List.nodup_cons.mp hn).1

theorem caller {i b : Handle} {rest : List Handle} (h : l.Stacks) (hs : l.stack = i :: b :: rest) :
    l.shape b = .calls (l.kind i) i := by
  have hc := h.chain
  rw [hs, List.isChain_cons_cons] at hc
  obtain ⟨⟨k, hk⟩, -⟩ := hc
  rw [hk, (h.called b k i hk).1]

theorem alone {i p : Handle} {rest : List Handle} (h : l.Stacks) (hs : l.stack = i :: rest)
    (hp : l.parent i = some p) : rest = [] := by
  cases rest with
  | nil => rfl
  | cons b rest =>
    have hn := (h.called b _ i (h.caller hs)).2.2.2
    rw [hp] at hn
    cases hn

theorem not_called {i j c : Handle} {k : Kind} {rest : List Handle} (h : l.Stacks)
    (hs : l.stack = i :: rest) (ha : l.shape i = .active) (hc : c ∉ l.stack) :
    l.shape j ≠ .calls k c := by
  intro hj
  rcases h.callee j k c hj with hm | hm
  · exact hc hm
  · rw [hs] at hm
    cases hm
    rw [ha] at hj
    cases hj

theorem pop {i : Handle} {rest : List Handle} (h : l.Stacks) (hs : l.stack = i :: rest)
    (hst : l'.stack = rest) (hk : l'.kind = l.kind) (hn : l'.count = l.count)
    (hsh : ∀ j, j ≠ i → l'.shape j = l.shape j)
    (hi : l'.shape i ≠ .active ∧ ∀ k c, l'.shape i ≠ .calls k c)
    (hp : ∀ j, j ≠ i → ∀ k c, l.shape j = .calls k c → l'.parent c = none) : l'.Stacks := by
  have hir := h.not_mem_rest hs
  obtain ⟨hnodup, hmem, hchain, hcalled, honce, hcallee, hret⟩ := h
  rw [hs] at hnodup hmem hchain hcallee hret
  have hback : ∀ j k c, l'.shape j = .calls k c → j ≠ i ∧ l.shape j = .calls k c := by
    intro j k c hj
    have hji : j ≠ i := fun he => hi.2 k c (he ▸ hj)
    exact ⟨hji, (hsh j hji).symm.trans hj⟩
  constructor
  case nodup => rw [hst]; exact hnodup.of_cons
  case mem_iff => rw [hst]; grind -ring -linarith
  case chain =>
    rw [hst]
    apply (List.isChain_cons.mp hchain).2.imp_of_mem_tail_imp
    intro a b _ hb hab
    rw [hsh b fun he => hir (he ▸ List.mem_of_mem_tail hb)]
    exact hab
  case called =>
    intro j k c hj
    obtain ⟨hji, hj⟩ := hback j k c hj
    rw [hk, hn]
    obtain ⟨h1, h2, h3, -⟩ := hcalled j k c hj
    exact ⟨h1, h2, h3, hp j hji k c hj⟩
  case called_once =>
    intro j j' k k' c hj hj'
    exact honce j j' k k' c (hback j k c hj).2 (hback j' k' c hj').2
  case callee =>
    intro j k c hj
    obtain ⟨hji, hj⟩ := hback j k c hj
    rw [hst]
    rcases hcallee j k c hj with hm | hm
    · rcases List.mem_cons.mp hm with rfl | hm
      · cases rest with
        | nil =>
          have hm := (hmem j).mpr (.inr ⟨k, c, hj⟩)
          simp [hji] at hm
        | cons b rest =>
          obtain ⟨k', hb⟩ := (List.isChain_cons_cons.mp hchain).1
          exact .inr (congrArg some (honce b j k' k c hb hj))
      · exact .inl hm
    · cases hm
      exact absurd rfl hji
  case returned =>
    intro j k c hh hj hc
    obtain ⟨hji, hj⟩ := hback j k c hj
    rw [hst] at hh hc
    cases rest with
    | nil => cases hh
    | cons b rest =>
      cases hh
      obtain ⟨k', hb⟩ := (List.isChain_cons_cons.mp hchain).1
      rw [hb] at hj
      cases hj
      exact hir hc

theorem push {i n : Handle} {rest : List Handle} {k : Kind} (h : l.Stacks)
    (hs : l.stack = i :: rest) (ha : l.shape i = .active) (hns : n ∉ l.stack) (hni : n ≠ i)
    (hst : l'.stack = n :: i :: rest) (hk : ∀ j, j ≠ n → l'.kind j = l.kind j)
    (hkn : l'.kind n = k ∧ k ≠ .process ∧ l'.parent n = none) (hn : n < l'.count ∧ l.count ≤ l'.count)
    (hsh : ∀ j, j ≠ i → j ≠ n → l'.shape j = l.shape j)
    (hi : l'.shape i = .calls k n) (hsn : l'.shape n = .active)
    (hp : ∀ j, j ≠ n → l'.parent j = l.parent j) : l'.Stacks := by
  have hir := h.not_mem_rest hs
  have hnc : ∀ j k, l.shape j ≠ .calls k n := fun j k => h.not_called hs ha hns
  obtain ⟨hnodup, hmem, hchain, hcalled, honce, hcallee, hret⟩ := h
  rw [hs] at hnodup hmem hchain hcallee hret hns
  have hback : ∀ j k' c, l'.shape j = .calls k' c →
      j = i ∧ k' = k ∧ c = n ∨ j ≠ i ∧ c ≠ n ∧ l.shape j = .calls k' c := by
    intro j k' c hj
    by_cases hji : j = i
    · subst hji
      rw [hi] at hj
      cases hj
      exact .inl ⟨rfl, rfl, rfl⟩
    · have hjn : j ≠ n := by
        rintro rfl
        rw [hsn] at hj
        cases hj
      rw [hsh j hji hjn] at hj
      refine .inr ⟨hji, ?_, hj⟩
      rintro rfl
      exact hnc j k' hj
  constructor
  case nodup => rw [hst]; exact List.nodup_cons.mpr ⟨hns, hnodup⟩
  case mem_iff => rw [hst]; grind -ring -linarith
  case chain =>
    rw [hst, List.isChain_cons_cons]
    refine ⟨⟨k, hi⟩, hchain.imp_of_mem_tail_imp ?_⟩
    intro a b _ hb hab
    have hbr : b ∈ rest := hb
    rw [hsh b (fun he => hir (he ▸ hbr)) (fun he => hns (he ▸ List.mem_cons_of_mem i hbr))]
    exact hab
  case called =>
    intro j k' c hj
    rcases hback j k' c hj with ⟨rfl, rfl, rfl⟩ | ⟨-, hcn, hj⟩
    · exact ⟨hkn.1, hkn.2.1, hn.1, hkn.2.2⟩
    · obtain ⟨h1, h2, h3, h4⟩ := hcalled j k' c hj
      rw [hk c hcn, hp c hcn]
      exact ⟨h1, h2, h3.trans_le hn.2, h4⟩
  case called_once =>
    intro j j' k' k'' c hj hj'
    rcases hback j k' c hj with ⟨hji, -, hcn⟩ | ⟨-, hcn, hj⟩ <;>
      rcases hback j' k'' c hj' with ⟨hji', -, hcn'⟩ | ⟨-, hcn', hj'⟩
    · rw [hji, hji']
    · exact absurd hcn hcn'
    · exact absurd hcn' hcn
    · exact honce j j' k' k'' c hj hj'
  case callee =>
    intro j k' c hj
    rw [hst]
    rcases hback j k' c hj with ⟨rfl, rfl, rfl⟩ | ⟨hji, -, hj⟩
    · exact .inl (by simp)
    · rcases hcallee j k' c hj with hm | hm
      · exact .inl (List.mem_cons_of_mem n hm)
      · cases hm
        exact absurd rfl hji
  case returned =>
    intro j k' c hh hj
    rw [hst] at hh
    cases hh
    rw [hsn] at hj
    cases hj

theorem alone_of {z : Handle} (hst : l'.stack = [z]) (hz : l'.shape z = .active)
    (hsh : ∀ j, j ≠ z → l'.shape j ≠ .active ∧ ∀ k c, l'.shape j ≠ .calls k c) : l'.Stacks := by
  have hno : ∀ j k c, l'.shape j ≠ .calls k c := by
    intro j k c hj
    by_cases hjz : j = z
    · rw [hjz, hz] at hj
      cases hj
    · exact (hsh j hjz).2 k c hj
  constructor
  case nodup => simp [hst]
  case mem_iff => rw [hst]; grind -ring -linarith
  case chain => simp [hst]
  case called => exact fun j k c hj => absurd hj (hno j k c)
  case called_once => exact fun j _ k _ c hj => absurd hj (hno j k c)
  case callee => exact fun j k c hj => absurd hj (hno j k c)
  case returned => exact fun j k c _ hj => absurd hj (hno j k c)

theorem replace {i p : Handle} (h : l.Stacks) (hs : l.stack = [i]) (hst : l'.stack = [p])
    (hp : l'.shape p = .active)
    (hi : i ≠ p → l'.shape i ≠ .active ∧ ∀ k c, l'.shape i ≠ .calls k c)
    (hsh : ∀ j, j ≠ p → j ≠ i → l'.shape j = l.shape j) : l'.Stacks := by
  refine alone_of hst hp fun j hj => ?_
  by_cases hji : j = i
  · rw [hji] at hj ⊢
    exact hi hj
  · have hout := (h.mem_iff j).not.mp (by simp [hs, hji])
    rw [hsh j hj hji]
    simpa [not_or] using hout

theorem answer {i : Handle} {rest : List Handle} (h : l.Stacks) (hs : l.stack = i :: rest) :
    (l.turn i .active).Stacks := by
  have hir := h.not_mem_rest hs
  have hback : ∀ j k c, (l.turn i .active).shape j = .calls k c → j ≠ i ∧ l.shape j = .calls k c := by
    intro j k c hj
    have hji : j ≠ i := by
      rintro rfl
      simp [turn] at hj
    exact ⟨hji, by simpa [turn, hji] using hj⟩
  have hi := (h.mem_iff i).mp (by simp [hs])
  constructor
  case nodup => exact h.nodup
  case mem_iff =>
    intro j
    by_cases hji : j = i
    · simp [turn, hji, hs]
    · simpa [turn, hji] using h.mem_iff j
  case chain =>
    have hc := h.chain
    simp only [turn, hs] at hc ⊢
    refine hc.imp_of_mem_tail_imp fun a b _ hb hab => ?_
    rw [Function.update_of_ne (ne_of_mem_of_not_mem hb hir)]
    exact hab
  case called => exact fun j k c hj => h.called j k c (hback j k c hj).2
  case called_once =>
    exact fun j j' k k' c hj hj' => h.called_once j j' k k' c (hback j k c hj).2 (hback j' k' c hj').2
  case callee => exact fun j k c hj => h.callee j k c (hback j k c hj).2
  case returned => exact fun j k c hh hj => h.returned j k c hh (hback j k c hj).2

theorem frame (h : l.Stacks) (hst : l'.stack = l.stack) (hk : ∀ j, j < l.count → l'.kind j = l.kind j)
    (hn : l.count ≤ l'.count) (hsh : ∀ j ∈ l.stack, l'.shape j = l.shape j)
    (hout : ∀ j, j ∉ l.stack → l'.shape j ≠ .active ∧ ∀ k c, l'.shape j ≠ .calls k c)
    (hp : ∀ c, c < l.count → l'.parent c = l.parent c) : l'.Stacks := by
  have hback : ∀ j k c, l'.shape j = .calls k c → l.shape j = .calls k c := by
    intro j k c hj
    have hm : j ∈ l.stack := by_contra fun hm => (hout j hm).2 k c hj
    rw [hsh j hm] at hj
    exact hj
  constructor
  case nodup => rw [hst]; exact h.nodup
  case mem_iff => rw [hst]; grind [h.mem_iff]
  case chain =>
    rw [hst]
    refine h.chain.imp_of_mem_imp fun a b _ hb hab => ?_
    rw [hsh b hb]
    exact hab
  case called =>
    intro j k c hj
    obtain ⟨h1, h2, h3, h4⟩ := h.called j k c (hback j k c hj)
    rw [hk c h3, hp c h3]
    exact ⟨h1, h2, h3.trans_le hn, h4⟩
  case called_once =>
    exact fun j j' k k' c hj hj' => h.called_once j j' k k' c (hback j k c hj) (hback j' k' c hj')
  case callee => rw [hst]; exact fun j k c hj => h.callee j k c (hback j k c hj)
  case returned => rw [hst]; exact fun j k c hh hj => h.returned j k c hh (hback j k c hj)

end Stacks

/-! ## `updateSuspend` -/

theorem attach_spec {c : Handle} {n : Nat} (h : l.attach c n = some l') :
    ∃ A z, l' = { l with attached := A, nextChild := some z } ∧ Leads l.sub c z ∧ l.sub z = none ∧
      ∀ j, A j = true ↔ l.attached j = true ∨ Leads l.sub c j := by
  induction n generalizing l c with
  | zero => cases h
  | succ n ih =>
    simp only [attach] at h
    split at h
    case h_1 hs =>
      cases h
      refine ⟨_, c, rfl, Leads.refl _ c, hs, fun j => ?_⟩
      simp only [Function.update_apply]
      constructor
      · intro hj
        split_ifs at hj with hjc
        · exact .inr (hjc ▸ Leads.refl _ _)
        · exact .inl hj
      · rintro (hj | hj)
        · simp [hj]
        · simp [Leads.of_end hj hs]
    case h_2 d hs =>
      obtain ⟨A, z, hl, hz, hend, hA⟩ := ih h
      refine ⟨A, z, hl, Leads.head hs hz, hend, fun j => ?_⟩
      rw [hA]
      simp only [Function.update_apply]
      constructor
      · rintro (hj | hj)
        · split_ifs at hj with hjc
          · exact .inr (hjc ▸ Leads.refl _ _)
          · exact .inl hj
        · exact .inr (Leads.head hs hj)
      · rintro (hj | hj)
        · simp [hj]
        · rcases Relation.ReflTransGen.cases_head hj with rfl | ⟨b, hb, hbj⟩
          · simp
          · cases hs.symm.trans hb
            exact .inr hbj

/-- What `updateSuspend` does: the process promise, and with it `nextChild`, is handed down exactly if
the parent has it and the child has not. -/
theorem adopt_spec {i c : Handle} (h : l.adopt i c = some l') :
    ∃ A N, l' = { l with
        parent := Function.update l.parent c (some i), sub := Function.update l.sub i (some c)
        attached := A, nextChild := N } ∧
      ((l.attached c = true ∨ l.kind i ≠ .process ∧ l.attached i = false) ∧
          A = l.attached ∧ N = l.nextChild ∨
        (l.attached c = false ∧ (l.kind i = .process ∨ l.attached i = true)) ∧
          ∃ z, N = some z ∧ Leads (Function.update l.sub i (some c)) c z ∧
            Function.update l.sub i (some c) z = none ∧
            ∀ j, A j = true ↔ l.attached j = true ∨ Leads (Function.update l.sub i (some c)) c j) := by
  simp only [adopt] at h
  split at h
  case isTrue hc =>
    obtain ⟨A, z, hl, hz, hend, hA⟩ := attach_spec h
    refine ⟨A, some z, hl, .inr ⟨by simpa using hc, z, rfl, hz, hend, hA⟩⟩
  case isFalse hc =>
    cases h
    refine ⟨_, _, rfl, .inl ⟨?_, rfl, rfl⟩⟩
    simp only [Bool.and_eq_true, Bool.not_eq_true', Bool.or_eq_true, decide_eq_true_eq] at hc
    grind -ring -linarith

end Links
end Eslang.Coroutine
