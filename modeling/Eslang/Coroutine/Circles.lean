import Eslang.Coroutine.Rooted

/-! # The chains of `subCoroutineChild`

As long as each task is used by one coroutine at a time, and no coroutine suspends in a task that already
waits for it, the pointers between coroutines form chains that end (`Pathlike`), so that
`updateProcessPromise` comes to the end of each. A circle needs a coroutine that runs although the process
does not wait for it: the process has been overtaken by a stale `nextChild`. -/
namespace Eslang.Coroutine
set_option autoImplicit false
open Lib Relation

namespace Links
variable {W : Type} {l l' : Links W}

/-! ## One move -/

theorem Wf.sub_stack_eq_none (hl : l.Wf) {i : Handle} (hi : i ∈ l.stack) : l.sub i = none := by
  refine hl.sub_eq_none fun k c hk => ?_
  rcases (hl.native.mem_iff i).mp hi with h | ⟨k', c', h⟩
  · cases h.symm.trans hk
  · cases h.symm.trans hk

theorem Wf.lt_count_of_leads (hl : l.Wf) {c d : Handle} (hc : c < l.count) (h : Leads l.sub c d) :
    d < l.count := by
  induction h with
  | refl => exact hc
  | @tail b d _ hbd _ =>
    obtain ⟨k, hk⟩ := (hl.chained.sub_iff b d).mp hbd
    by_contra hd
    have hp := (hl.chained.awaits_parent b k d hk).2
    rw [(hl.fresh d (not_lt.mp hd)).2.1] at hp
    cases hp

/-- **A move that closes no circle leaves none.** -/
theorem Move.acyclic (h : l.Move l') (ha : Acyclic l.sub)
    (hn : ∀ i rest c, l.stack = i :: rest → l'.sub i = some c → ¬ Leads l.sub c i) :
    Acyclic l'.sub := by
  have hclear : ∀ p, Acyclic (Function.update l.sub p none) := fun p => ha.mono fun a b hab => by
    by_cases hap : a = p
    · rw [hap, Function.update_self] at hab
      cases hab
    · rwa [Function.update_of_ne hap] at hab
  cases h with
  | stay | collect | returned | wait | call | yieldUp | finishUp | resume => exact ha
  | start | gen => exact hclear l.count
  | @join i n rest m hs _ _ _ _ _ _ hm =>
    obtain ⟨A, N, rfl, -⟩ := adopt_spec hm
    exact ha.update (hn i rest n hs (Function.update_self _ _ _))
  | @awaitNext i g rest m hs _ _ hm =>
    obtain ⟨A, N, rfl, -⟩ := adopt_spec hm
    exact ha.update (hn i rest g hs (Function.update_self _ _ _))
  | @yieldInto g p => exact hclear p
  | @finishInto i p => exact hclear p

/-! ## `updateProcessPromise` comes to an end -/

theorem attach_isSome {next : Handle → Option Handle} {n m : Nat} {c z : Handle}
    (h : Walk next n c z) (hl : l.sub = next) (hn : n < m) : (l.attach c m).isSome := by
  induction h generalizing l m with
  | stop hs =>
    obtain ⟨m, rfl⟩ := Nat.exists_eq_succ_of_ne_zero (Nat.ne_of_gt hn)
    simp [attach, hl, hs]
  | @go n a b z hs hw ih =>
    obtain ⟨m, rfl⟩ := Nat.exists_eq_succ_of_ne_zero (Nat.ne_of_gt (Nat.zero_lt_of_lt hn))
    simp only [attach, hl, hs]
    exact ih rfl (Nat.lt_of_succ_lt_succ hn)

/-- Without circles, the walk down the chain of a promise ends. -/
theorem attach_ends {c : Handle} (ha : Acyclic l.sub) (hlt : ∀ d, Leads l.sub c d → d < l.count) :
    (l.attach c l.count).isSome := by
  obtain ⟨n, z, hw, hn⟩ := ha.walk (S := Finset.range l.count) fun d hd => Finset.mem_range.mpr (hlt d hd)
  rw [Finset.card_range] at hn
  exact attach_isSome hw rfl hn

theorem adopt_ends {i c : Handle} (ha : Acyclic l.sub) (hlt : ∀ d, Leads l.sub c d → d < l.count)
    (hn : ¬ Leads l.sub c i) : (l.adopt i c).isSome := by
  have hlead : ∀ d, Leads (Function.update l.sub i (some c)) c d → Leads l.sub c d := by
    intro d hd
    induction hd with
    | refl => exact Leads.refl _ _
    | @tail b d _ hbd ih =>
      have hb : b ≠ i := fun he => hn (he ▸ ih)
      rw [Function.update_of_ne hb] at hbd
      exact ih.tail hbd
  simp only [adopt]
  split
  case isTrue => exact attach_ends (ha.update hn) fun d hd => hlt d (hlead d hd)
  case isFalse => rfl

end Links

/-! ## Runs that close no circle -/

namespace State
variable {σ V W : Type}

/-- The condition on a step: no task in use is taken up, and the task in which a coroutine is about to suspend
does not wait, by itself or through others, for that coroutine. -/
def Uncircled (code : Code σ V W) (s : State σ V W) (_ : Label V) : Prop :=
  s.shares code = false ∧ ∀ i c, s.suspending code = some (i, c) → ¬ Leads s.links.sub c i

theorem suspending_cases {code : Code σ V W} {s : State σ V W} (hw : s.links.Wf)
    (hu : s.shares code = false) {i c : Handle} (h : s.suspending code = some (i, c)) :
    (∃ rest, s.stack = i :: rest) ∧ c < s.count ∧ c ≠ root ∧ c ∉ s.stack ∧ s.links.parent c = none := by
  unfold suspending at h
  split at h
  case h_1 => cases h
  case h_2 j rest hs =>
    split at h
    case h_1 x hx =>
      split at h
      case h_1 n k ho =>
        split at h
        case isFalse => cases h
        case isTrue hc =>
          cases h
          simp only [Bool.and_eq_true, Bool.not_eq_true'] at hc
          obtain ⟨⟨hm, hd⟩, -⟩ := hc
          obtain ⟨⟨hk, hn⟩, hj⟩ := (joinable_of_not_shares hu hs hx ho hm).links
          have hnd : s.links.shape c ≠ .done := fun hdone => by
            rw [(atFinalSuspend_iff s c).mpr hdone] at hd
            cases hd
          exact ⟨⟨rest, hs⟩, Links.Move.lt_count hw hnd, hw.ne_root (by simp [hk]), hn,
            hw.chained.unawaited c hk (hj.resolve_right hnd)⟩
      case h_2 => cases h
    case h_2 g k hg =>
      split at h
      case isFalse => cases h
      case isTrue =>
        cases h
        obtain ⟨hk, -, hlt, hp⟩ := hw.native.called i _ c (shape_of_ctl hg)
        refine ⟨⟨rest, hs⟩, hlt, hw.ne_root (by simp [hk]), ?_, hp⟩
        exact hw.native.returned i _ c (by simp [links, hs]) (shape_of_ctl hg)
    case h_3 => cases h

theorem Uncircled.nested {code : Code σ V W} {s : State σ V W} {l : Label V} (hw : s.links.Wf)
    (h : s.Uncircled code l) : s.links.Nested := by
  intro i rest g hs hc hlead
  have hs' : s.stack = i :: rest := hs
  cases hctl : (s.promises i).ctl with
  | resuming g' k =>
    cases (shape_of_ctl hctl).symm.trans hc
    cases hsus : s.isSuspended g with
    | true => exact h.2 i g (by simp [suspending, hs', hctl, hsus]) hlead
    | false =>
      have hsub : s.links.sub g = none := by
        simp only [isSuspended, Bool.or_eq_false_iff] at hsus
        simpa [links] using hsus.1
      have hgi := Leads.of_end hlead hsub
      apply hw.native.returned i _ g (by simp [hs]) hc
      simp [hs, hgi]
  | code _ | calling _ _ | waiting _ _ | joining _ _ | nexting _ _ | idle _ | done =>
    rw [shape_of_ctl hctl] at hc
    cases hc

/-- The pointers between coroutines, as far as they do not depend on `nextChild`. -/
structure Formed (s : State σ V W) : Prop where
  wf : s.links.Wf
  closed : s.links.Closed
  acyclic : Acyclic s.links.sub

theorem init_formed (body : σ) : (init body : State σ V W).Formed := by
  refine ⟨init_wf body, (init_rooted body).closed, fun a ha => ?_⟩
  obtain ⟨b, hb, -⟩ := TransGen.head'_iff.mp ha
  have hnone : (init body : State σ V W).links.sub a = none := by
    by_cases ha : a = root <;> simp [init, links, blank, ha]
  rw [hnone] at hb
  cases hb

theorem Step.formed {code : Code σ V W} {s t : State σ V W} {l : Label V} {out : List (Event V)}
    (h : s.Step code l t out) (hf : s.Formed) (hu : s.Uncircled code l) : t.Formed := by
  have hwf := h.move.wf hf.wf (hu.nested hf.wf)
  refine ⟨hwf, h.move.closed hf.wf hf.closed, h.move.acyclic hf.acyclic fun i rest c hs hc => ?_⟩
  obtain ⟨k, hk⟩ := (hwf.chained.sub_iff i c).mp hc
  rcases h.head_shape hf.wf hs with h' | ⟨_, _, h'⟩ | ⟨_, d, h', hsus⟩ | ⟨_, _, _, _, _, _, _, h'⟩ |
    ⟨_, _, _, _, _, h'⟩ | ⟨_, _, _, _, h'⟩
  all_goals cases hk.symm.trans h'
  exact hu.2 i c hsus

theorem orphans_cases {code : Code σ V W} {s : State σ V W} (h : s.orphans code = true) :
    ∃ g rest c a p, s.stack = g :: rest ∧ (s.promises g).ctl = .code c ∧ code c = .ret a ∧
      (s.promises g).kind = .gen ∧ (s.promises g).parent = some p := by
  unfold orphans at h
  split at h
  case h_1 => cases h
  case h_2 g rest hs =>
    split at h
    case h_1 c hc =>
      split at h
      case h_1 a ho =>
        obtain ⟨hk, hp⟩ : (s.promises g).kind = .gen ∧ (s.promises g).parent.isSome = true := by
          simpa using h
        obtain ⟨p, hp⟩ := Option.isSome_iff_exists.mp hp
        exact ⟨g, rest, c, a, p, hs, hc, ho, hk, hp⟩
      case h_2 => cases h
    case h_2 => cases h

/-- No coroutine that the process waits for suspends in a circle. -/
theorem uncircled_of_rooted {code : Code σ V W} {s : State σ V W} (l : Label V) (hw : s.links.Wf)
    (hr : s.links.Rooted) (hu : s.shares code = false) : s.Uncircled code l := by
  refine ⟨hu, fun i c hic => ?_⟩
  obtain ⟨⟨rest, hs⟩, -, hroot, hns, hp⟩ := suspending_cases hw hu hic
  refine hr.not_leads_head hw hs hroot ?_ hp
  rintro rfl
  exact hns (by simp [hs])

/-- What the pointers between coroutines form. -/
structure Pathlike (s : State σ V W) : Prop where
  child_parent : ∀ x y, (s.promises x).subCoroutineChild = some y → (s.promises y).parent = some x
  /-- A coroutine on the native stack, in particular the running one, has no child. -/
  running : ∀ i ∈ s.stack, (s.promises i).subCoroutineChild = none
  acyclic : Acyclic fun x => (s.promises x).subCoroutineChild
  /-- `updateProcessPromise` ends, whatever promise it starts at. -/
  ends : ∀ c, c < s.count → (s.updateProcessPromise c s.count).isSome
  handed_down : ∀ x y, (s.promises x).processPromise = true →
    (s.promises x).subCoroutineChild = some y → (s.promises y).processPromise = true

theorem Formed.pathlike {s : State σ V W} (h : s.Formed) : s.Pathlike where
  child_parent x y hxy := by
    obtain ⟨k, hk⟩ := (h.wf.chained.sub_iff x y).mp hxy
    exact (h.wf.chained.awaits_parent x k y hk).2
  running i hi := h.wf.sub_stack_eq_none hi
  acyclic := h.acyclic
  ends c hc := by
    rw [← Option.isSome_map (f := links), links_updateProcessPromise]
    exact Links.attach_ends h.acyclic fun d hd => h.wf.lt_count_of_leads hc hd
  handed_down x y hx hxy := h.closed x y hxy (.inr hx)

theorem step_of_suspending {code : Code σ V W} {s : State σ V W} {i c : Handle}
    (h : s.suspending code = some (i, c)) : ∃ m ctl rest, (m = s ∨ m = s.marking c) ∧
      ∀ ready v, s.step code (.tick ready v) =
        (m.updateSuspend i c).map fun u => ({ u.goto i ctl with stack := rest }, []) := by
  unfold suspending at h
  split at h
  case h_1 => cases h
  case h_2 j rest hs =>
    split at h
    case h_1 x hx =>
      split at h
      case h_1 n k ho =>
        split at h
        case isFalse => cases h
        case isTrue hc =>
          cases h
          simp only [Bool.and_eq_true, Bool.not_eq_true'] at hc
          obtain ⟨⟨hm, hd⟩, hsus⟩ := hc
          refine ⟨s.marking c, .joining c k, rest, .inr rfl, fun ready v => ?_⟩
          have hready : ¬ ((s.marking c).atFinalSuspend c || !(s.marking c).isSuspended c) = true := by
            rw [ready_iff, not_or, ← atFinalSuspend_iff, Bool.not_eq_true, Bool.not_eq_false]
            exact ⟨hd, hsus⟩
          simp only [step, hs, tick, hx, ho, join, hm, if_true]
          exact if_neg hready
      case h_2 => cases h
    case h_2 g k hg =>
      split at h
      case isFalse => cases h
      case isTrue hsus =>
        cases h
        refine ⟨s, .nexting c k, rest, .inl rfl, fun ready v => ?_⟩
        simp only [step, hs, tick, hg, awaitNext, hsus, if_true]
    case h_3 => cases h

theorem Formed.suspends_iff {code : Code σ V W} {s : State σ V W} {i c : Handle} (h : s.Formed)
    (hshare : s.shares code = false) (hic : s.suspending code = some (i, c)) (ready : Bool) (v : V) :
    (∃ t out, s.step code (.tick ready v) = some (t, out) ∧ t.Pathlike) ↔ ¬ Leads s.links.sub c i := by
  obtain ⟨m, ctl, rest, hm, hstep⟩ := step_of_suspending hic
  have hlinks : m.links.sub = s.links.sub ∧ m.links.count = s.links.count := by
    rcases hm with rfl | rfl
    · exact ⟨rfl, rfl⟩
    · rw [marking, links_setAwaited]
      exact ⟨rfl, rfl⟩
  constructor
  · rintro ⟨t, out, ht, hpath⟩ hlead
    rw [hstep] at ht
    obtain ⟨u, hu, he⟩ := Option.map_eq_some_iff.mp ht
    cases he
    obtain ⟨A, N, hul, -⟩ := Links.adopt_spec (adopt_of_updateSuspend hu)
    have hsub : ({ u.goto i ctl with stack := rest } : State σ V W).links.sub =
        Function.update s.links.sub i (some c) := by
      change (u.goto i ctl).links.sub = _
      rw [links_goto, hul, ← hlinks.1]
      rfl
    have hcycle : Leads (Function.update s.links.sub i (some c)) c i :=
      hlead.upto fun x y hx hxy => by rwa [Function.update_of_ne hx]
    apply hpath.acyclic i
    change TransGen (fun a b => ({ u.goto i ctl with stack := rest } : State σ V W).links.sub a = some b) i i
    rw [hsub]
    exact TransGen.head' (Function.update_self _ _ _) hcycle
  · intro hn
    have hlt := (suspending_cases h.wf hshare hic).2.1
    have hsome : (m.updateSuspend i c).isSome := by
      rw [← Option.isSome_map (f := links), links_updateSuspend]
      refine Links.adopt_ends ?_ ?_ ?_
      · rw [hlinks.1]
        exact h.acyclic
      · rw [hlinks.1, hlinks.2]
        exact fun d hd => h.wf.lt_count_of_leads hlt hd
      · rwa [hlinks.1]
    obtain ⟨u, hu⟩ := Option.isSome_iff_exists.mp hsome
    have ht := hstep ready v
    rw [hu, Option.map_some] at ht
    refine ⟨_, _, ht, ((step_cases hshare ht).formed h ⟨hshare, fun j d hjd => ?_⟩).pathlike⟩
    cases hic.symm.trans hjd
    exact hn

end State
end Eslang.Coroutine
