import Eslang.Coroutine.Wellformed

/-! # The chain that a process waits on

As long as no coroutine takes up a task that another one uses, no generator returns under a suspended
consumer, and the process does not wait for an `IWaiting` while `nextChild` is set, the coroutines that
run are at the end of the chain of tasks that starts at the process (`Rooted`). When the process suspends, `ProcessTask::resume` returns the
`IWaiting` of the coroutine at the end of this chain. -/
namespace Eslang.Coroutine
set_option autoImplicit false
open Lib Relation

namespace Links
variable {W : Type} {l l' : Links W}

/-- The process promise has been handed down to the end of each chain. -/
def Closed (l : Links W) : Prop :=
  ∀ x y, l.sub x = some y → x = root ∨ l.attached x = true → l.attached y = true

structure Rooted (l : Links W) : Prop where
  /-- The process awaits, through others, the lowest coroutine of the native stack. -/
  bottom : ∀ x, l.stack.getLast? = some x → Leads l.sub root x
  closed : ∀ x y, l.sub x = some y → x = root ∨ l.attached x = true → l.attached y = true
  alive : ∀ i k c, l.shape i = .awaits k c → l.shape c ≠ .done
  suspended : l.stack = [] → l.shape root = .idle ∨ l.shape root = .done ∨
    ∃ z w, Leads l.sub root z ∧ l.shape z = .waits w ∧ l.waiting z = some w ∧
      l.nextChild = if z = root then none else some z

namespace Wf

theorem sub_injective (hl : l.Wf) (a b c : Handle) (ha : l.sub a = some c) (hb : l.sub b = some c) :
    a = b := by
  obtain ⟨k, hk⟩ := (hl.chained.sub_iff a c).mp ha
  obtain ⟨k', hk'⟩ := (hl.chained.sub_iff b c).mp hb
  have h1 := (hl.chained.awaits_parent a k c hk).2
  have h2 := (hl.chained.awaits_parent b k' c hk').2
  exact Option.some.inj (h1.symm.trans h2)

theorem not_sub (hl : l.Wf) {b c : Handle} (hp : l.parent c = none) : l.sub b ≠ some c := by
  intro hb
  obtain ⟨k, hk⟩ := (hl.chained.sub_iff b c).mp hb
  have hc := (hl.chained.awaits_parent b k c hk).2
  rw [hp] at hc
  cases hc

theorem eq_root_of_leads (hl : l.Wf) {c : Handle} (h : Leads l.sub root c) (hp : l.parent c = none) :
    c = root :=
  (Leads.of_start h fun _ => hl.not_sub hp).symm

end Wf

namespace Rooted

theorem attached_of_leads (hr : l.Rooted) {c : Handle} (h : Leads l.sub root c) (hc : c ≠ root) :
    l.attached c = true := by
  have hreach : ∀ x, Leads l.sub root x → x = root ∨ l.attached x = true := by
    intro x hx
    induction hx with
    | refl => exact .inl rfl
    | @tail x y _ hxy ih => exact .inr (hr.closed x y hxy ih)
  exact (hreach c h).resolve_left hc

theorem not_leads_head (hr : l.Rooted) (hl : l.Wf) {i c : Handle} {rest : List Handle}
    (hs : l.stack = i :: rest) (hc : c ≠ root) (hci : c ≠ i) (hp : l.parent c = none) :
    ¬ Leads l.sub c i := by
  intro hlead
  cases rest with
  | nil =>
    have hroot := hr.bottom i (by simp [hs])
    rcases Leads.comparable hl.sub_injective hroot hlead with h | h
    · exact hc (hl.eq_root_of_leads h hp)
    · exact hc (Leads.of_start h fun _ => hl.not_sub hl.chained.root_parent)
  | cons b rest =>
    have hpi := (hl.native.called b _ i (hl.native.caller hs)).2.2.2
    exact hci (Leads.of_start hlead fun _ => hl.not_sub hpi)

theorem nested (hr : l.Rooted) (hl : l.Wf) : l.Nested := by
  intro i rest g hs hc
  obtain ⟨hk, -, -, hp⟩ := hl.native.called i _ g hc
  refine hr.not_leads_head hl hs (hl.ne_root (by simp [hk])) ?_ hp
  rintro rfl
  apply hl.native.returned g _ g (by simp [hs]) hc
  simp [hs]

end Rooted

/-! ## One move -/

/-- A generator returns although its consumer is suspended in `next()`. -/
def Orphans (l l' : Links W) : Prop :=
  ∃ g rest p, l.stack = g :: rest ∧ l.kind g = .gen ∧ l.parent g = some p ∧ l'.shape g = .done

/-- The process waits for an `IWaiting` although `nextChild` is set. -/
def Overtakes (l l' : Links W) : Prop :=
  ∃ rest w, l.stack = root :: rest ∧ l'.shape root = .waits w ∧ l.nextChild ≠ none

namespace Move

theorem closed_suspend {i c : Handle} {w : Handle → Bool} {m : Links W} (hr : l.Closed) (hl : l.Wf)
    (hm : { l with awaited := w }.adopt i c = some m) (x y : Handle)
    (hxy : m.sub x = some y) (hx : x = root ∨ m.attached x = true) :
    m.attached y = true := by
  have hkind := hl.process_iff i
  obtain ⟨A, N, rfl, hAN⟩ := adopt_spec hm
  change Function.update l.sub i (some c) x = some y at hxy
  change x = root ∨ A x = true at hx
  change A y = true
  rcases hAN with ⟨hcond, rfl, -⟩ | ⟨-, z, -, -, -, hA⟩
  · by_cases hxi : x = i
    · subst hxi
      rw [Function.update_self] at hxy
      cases hxy
      rcases hcond with hc | ⟨hk, ha⟩
      · exact hc
      · rcases hx with hx | hx
        · exact absurd (hkind.mpr hx) hk
        · exact absurd (hx.symm.trans ha) (by simp)
    · rw [Function.update_of_ne hxi] at hxy
      exact hr x y hxy hx
  · rw [hA]
    by_cases hxi : x = i
    · subst hxi
      rw [Function.update_self] at hxy
      cases hxy
      exact .inr (Leads.refl _ _)
    · have hold := hxy
      rw [Function.update_of_ne hxi] at hold
      rcases hx with hx | hx
      · exact .inl (hr x y hold (.inl hx))
      · rcases (hA x).mp hx with hx | hx
        · exact .inl (hr x y hold (.inr hx))
        · exact .inr (Leads.tail hx hxy)

theorem closed (h : l.Move l') (hl : l.Wf) (hc : l.Closed) : l'.Closed := by
  cases h with
  | start hs ha =>
    have hf := hl.fresh l.count le_rfl
    have hns := fun b => hl.not_sub (b := b) hf.2.1
    simp only [Closed, make, turn, Function.update_apply] at hc ⊢
    grind -ring -linarith
  | gen hs ha =>
    have hf := hl.fresh l.count le_rfl
    have hns := fun b => hl.not_sub (b := b) hf.2.1
    simp only [Closed, make, Function.update_apply] at hc ⊢
    grind -ring -linarith
  | @join i n rest m hs ha hk hn hj hd hr' hm =>
    exact fun x y => closed_suspend (m := m) hc hl hm x y
  | @awaitNext i g rest m hs hc' hr' hm =>
    exact fun x y => closed_suspend (m := m) hc hl hm x y
  | yieldInto hs ha hk hp =>
    simp only [Closed, Function.update_apply] at hc ⊢
    grind -ring -linarith
  | finishInto hs ha hk hp =>
    simp only [Closed, Function.update_apply] at hc ⊢
    grind -ring -linarith
  | _ => exact hc

theorem alive (h : l.Move l') (hl : l.Wf) (hr : l.Rooted) (ho : ¬ Orphans l l') :
    ∀ i k c, l'.shape i = .awaits k c → l'.shape c ≠ .done := by
  have hal := hr.alive
  have hap := hl.chained.awaits_parent
  cases h with
  | stay => exact hal
  | collect => exact hal
  | returned hs hc hr =>
    simp only [turn, Function.update_apply]
    grind -ring -linarith
  | wait hs ha =>
    simp only [Function.update_apply]
    grind -ring -linarith
  | start hs ha =>
    simp only [make, turn, Function.update_apply]
    grind -ring -linarith
  | gen hs ha =>
    simp only [make, Function.update_apply]
    grind -ring -linarith
  | call hs ha hk hg =>
    simp only [turn, Function.update_apply]
    grind -ring -linarith
  | join hs ha hk hn hj hd hr' hm =>
    obtain ⟨A, N, rfl, -⟩ := adopt_spec hm
    simp only [turn, Function.update_apply]
    grind -ring -linarith
  | @awaitNext i g rest m hs hc hr' hm =>
    obtain ⟨A, N, rfl, -⟩ := adopt_spec hm
    have hg : l.shape g ≠ .done := fun hd => by
      rw [hl.not_suspended_of_done hc hd] at hr'
      cases hr'
    simp only [turn, Function.update_apply]
    grind -ring -linarith
  | yieldUp hs ha hk hp =>
    simp only [Function.update_apply]
    grind -ring -linarith
  | @yieldInto g p rest hs ha hk hp =>
    have hpw := hl.chained.parent_awaits p g hp (.inr hk)
    simp only [Function.update_apply]
    grind -ring -linarith
  | @finishUp i rest hs ha hp =>
    have horph : l.kind i = .gen → l.parent i = none := fun hk => by
      by_contra hne
      obtain ⟨p, hp'⟩ := Option.ne_none_iff_exists'.mp hne
      exact ho ⟨i, rest, p, hs, hk, hp', Function.update_self _ _ _⟩
    have hroot : l.kind i = .process → l.parent i = none := fun hk => by
      rw [(hl.process_iff i).mp hk]
      exact hl.chained.root_parent
    have hnone : l.parent i = none := by
      cases hk : l.kind i with
      | process => exact hroot hk
      | method => exact hp hk
      | gen => exact horph hk
    simp only [Function.update_apply]
    grind -ring -linarith
  | @finishInto i p rest hs ha hk hp =>
    have hpw := hl.chained.parent_awaits p i hp (.inl (by simp [ha]))
    simp only [Function.update_apply]
    grind -ring -linarith
  | resume hs hr' hz hd =>
    simp only [Function.update_apply]
    grind -ring -linarith

/-- The lowest coroutine suspends in `c`, and the end of the chain of `c` becomes the end of the chain of
the process. -/
theorem suspended_suspend {i c : Handle} {k : Kind} {w : Handle → Bool} {m : Links W} (hl : l.Wf)
    (hr : l.Rooted) (hs : l.stack = [i]) (hi : ∀ k d, l.shape i ≠ .awaits k d) (hcr : c ≠ root)
    (hsus : l.isSuspended c = true) (hd : l.shape c ≠ .done)
    (hnext : l.attached c = true → ∃ z, l.nextChild = some z ∧ Leads l.sub c z ∧ z ≠ i)
    (hm : { l with awaited := w }.adopt i c = some m) :
    ∃ z w, Leads m.sub root z ∧ Function.update m.shape i (.awaits k c) z = .waits w ∧
      m.waiting z = some w ∧ m.nextChild = if z = root then none else some z := by
  have hsi := hl.sub_eq_none hi
  have hroot := hr.bottom i (by simp [hs])
  have hkind := hl.process_iff i
  obtain ⟨A, N, rfl, hAN⟩ := adopt_spec hm
  have hmono : ∀ a b, l.sub a = some b → Function.update l.sub i (some c) a = some b := by
    intro a b hab
    rw [Function.update_of_ne ?_]
    · exact hab
    · rintro rfl
      rw [hsi] at hab
      cases hab
  obtain ⟨z, hz, hcz, hend⟩ : ∃ z, N = some z ∧ Leads (Function.update l.sub i (some c)) c z ∧
      Function.update l.sub i (some c) z = none := by
    rcases hAN with ⟨hcond, rfl, rfl⟩ | ⟨-, z, hz, hcz, hend, -⟩
    · have hac : l.attached c = true := by
        refine hcond.resolve_right fun ⟨hk, ha⟩ => ?_
        have hne : i ≠ root := fun he => hk (hkind.mpr he)
        exact absurd ((hr.attached_of_leads hroot hne).symm.trans ha) (by simp)
      obtain ⟨z, hz, hcz, hzi⟩ := hnext hac
      refine ⟨z, hz, hcz.mono hmono, ?_⟩
      rw [Function.update_of_ne hzi]
      exact (hl.marked.next z hz).2
    · exact ⟨z, hz, hcz, hend⟩
  have hzi : z ≠ i := by
    rintro rfl
    simp at hend
  have hzsub : l.sub z = none := by
    rwa [Function.update_of_ne hzi] at hend
  have hpred : z = c ∨ ∃ b k, l.shape b = .awaits k z := by
    rcases ReflTransGen.cases_tail hcz with h | ⟨b, -, hb⟩
    · exact .inl h
    · by_cases hbi : b = i
      · rw [hbi, Function.update_self] at hb
        exact .inl (Option.some.inj hb).symm
      · rw [Function.update_of_ne hbi] at hb
        obtain ⟨k, hk⟩ := (hl.chained.sub_iff b z).mp hb
        exact .inr ⟨b, k, hk⟩
  have hzroot : z ≠ root := by
    rintro rfl
    rcases hpred with h | ⟨b, k, hk⟩
    · exact hcr h.symm
    · have hp := (hl.chained.awaits_parent b k root hk).2
      rw [hl.chained.root_parent] at hp
      cases hp
  have hout := (hl.native.mem_iff z).not.mp (by simp [hs, hzi])
  obtain ⟨u, hu⟩ : ∃ u, l.shape z = .waits u := by
    cases hsh : l.shape z with
    | waits u => exact ⟨u, rfl⟩
    | active => simp [hsh] at hout
    | calls k c => simp [hsh] at hout
    | awaits k d =>
      rw [(hl.chained.sub_iff z d).mpr ⟨k, hsh⟩] at hzsub
      cases hzsub
    | idle =>
      rcases hpred with rfl | ⟨b, k, hk⟩
      · exact absurd hsh (hl.not_idle_of_isSuspended hsus)
      · have hp := (hl.chained.awaits_parent b k z hk).2
        rw [hl.chained.idle_parent z hsh] at hp
        cases hp
    | done =>
      rcases hpred with rfl | ⟨b, k, hk⟩
      · exact absurd hsh hd
      · exact absurd hsh (hr.alive b k z hk)
  refine ⟨z, u, ?_, ?_, hl.waits.waits z u hu hzroot, ?_⟩
  · exact ((hroot.mono hmono).tail (Function.update_self _ _ _)).trans hcz
  · rw [Function.update_of_ne hzi]
    exact hu
  · rw [if_neg hzroot]
    exact hz

theorem bottom (h : l.Move l') (hl : l.Wf) (hr : l.Rooted) :
    ∀ x, l'.stack.getLast? = some x → Leads l'.sub root x := by
  have hb := hr.bottom
  have hpop : ∀ i rest, l.stack = i :: rest → ∀ x, rest.getLast? = some x → l.stack.getLast? = some x := by
    intro i rest hs x hx
    rw [hs, List.getLast?_cons, hx]
    rfl
  have hmono : ∀ i c, (∀ k d, l.shape i ≠ .awaits k d) → ∀ x, Leads l.sub root x →
      Leads (Function.update l.sub i (some c)) root x := by
    intro i c hi x hx
    refine hx.mono fun a b hab => ?_
    rw [Function.update_of_ne ?_]
    · exact hab
    · rintro rfl
      rw [hl.sub_eq_none hi] at hab
      cases hab
  have hfresh : Function.update l.sub l.count none = l.sub :=
    Function.update_eq_self_iff.mpr
      (hl.sub_eq_none (by simp [(hl.fresh l.count le_rfl).1])).symm
  have hup : ∀ i p rest, l.stack = i :: rest → l.parent i = some p → l.shape p = .awaits (l.kind i) i →
      Leads (Function.update l.sub p none) root p := by
    intro i p rest hs hp hpi
    cases hl.native.alone hs hp
    have hroot := hb i (by simp [hs])
    rcases ReflTransGen.cases_tail hroot with he | ⟨b, hbr, hbi⟩
    · rw [he, hl.chained.root_parent] at hp
      cases hp
    · have hbp : b = p := hl.sub_injective b p i hbi ((hl.chained.sub_iff p i).mpr ⟨_, hpi⟩)
      rw [← hbp]
      exact Leads.upto hbr fun x y hx hxy => by rw [Function.update_of_ne hx]; exact hxy
  cases h with
  | stay | collect | returned => exact hb
  | @wait i rest w hs ha => exact fun x hx => hb x (hpop i rest hs x hx)
  | @start i rest hs ha =>
    intro x hx
    change Leads (Function.update l.sub l.count none) root x
    rw [hfresh]
    apply hb x
    rw [hs]
    simpa using hx
  | gen hs ha =>
    intro x hx
    change Leads (Function.update l.sub l.count none) root x
    rw [hfresh]
    exact hb x hx
  | @call i g rest hs ha hk hg =>
    intro x hx
    apply hb x
    rw [hs]
    simpa using hx
  | @join i n rest m hs ha hk hn hj hd hr' hm =>
    obtain ⟨A, N, rfl, -⟩ := adopt_spec hm
    exact fun x hx => hmono i n (by simp [ha]) x (hb x (hpop i rest hs x hx))
  | @awaitNext i g rest m hs hc hr' hm =>
    obtain ⟨A, N, rfl, -⟩ := adopt_spec hm
    exact fun x hx => hmono i g (by simp [hc]) x (hb x (hpop i rest hs x hx))
  | @yieldUp g rest hs ha hk hp => exact fun x hx => hb x (hpop g rest hs x hx)
  | @yieldInto g p rest hs ha hk hp =>
    have hpg := hl.chained.parent_awaits p g hp (.inr hk)
    cases hl.native.alone hs hp
    intro x hx
    cases hx
    exact hup g p [] hs hp hpg
  | @finishUp i rest hs ha hp => exact fun x hx => hb x (hpop i rest hs x hx)
  | @finishInto i p rest hs ha hk hp =>
    have hpi := hl.chained.parent_awaits p i hp (.inl (by simp [ha]))
    cases hl.native.alone hs hp
    intro x hx
    cases hx
    exact hup i p [] hs hp hpi
  | resume hs hr' hz hd =>
    intro x hx
    cases hx
    rcases hr.suspended hs with hi | hi | ⟨z, w, hroot, -, -, hnext⟩
    · rw [(hl.marked.initial hi).2]
      exact Leads.refl _ root
    · exact absurd hi hd
    · rw [hnext]
      split_ifs with hzr
      · exact Leads.refl _ root
      · exact hroot

/-- When the last coroutine leaves the stack, the process has returned, or the end of its chain is what
`ProcessTask::resume` will continue. -/
theorem suspended (h : l.Move l') (hl : l.Wf) (hr : l.Rooted) (ho : ¬ Orphans l l')
    (hv : ¬ Overtakes l l') (hs' : l'.stack = []) :
    l'.shape root = .idle ∨ l'.shape root = .done ∨
      ∃ z w, Leads l'.sub root z ∧ l'.shape z = .waits w ∧ l'.waiting z = some w ∧
        l'.nextChild = if z = root then none else some z := by
  have hb := hr.bottom
  cases h with
  | stay hs | collect hs | returned hs | gen hs =>
    cases hs.symm.trans hs'
  | start | call | yieldInto | finishInto | resume => cases hs'
  | @wait i rest w hs ha =>
    cases hs'
    have hroot := hb i (by simp [hs])
    refine .inr (.inr ⟨i, w, hroot, Function.update_self _ _ _, Function.update_self _ _ _, ?_⟩)
    change (if l.attached i = true then some i else l.nextChild) = _
    by_cases hi : i = root
    · rw [if_pos hi, hi, hl.marked.process, if_neg (by simp)]
      by_contra hne
      subst hi
      exact hv ⟨[], w, hs, by simp, hne⟩
    · rw [if_neg hi, if_pos (hr.attached_of_leads hroot hi)]
  | @join i n rest m hs ha hk hn hj hd hr' hm =>
    cases hs'
    have hnr : n ≠ root := hl.ne_root (by simp [hk])
    have hna := hl.marked.unawaited n hk hj
    obtain ⟨z, w, h1, h2, h3, h4⟩ := suspended_suspend (k := .method) hl hr hs (by simp [ha]) hnr hr' hd
      (fun h => absurd (h.symm.trans hna) (by simp)) hm
    exact .inr (.inr ⟨z, w, h1, h2, h3, h4⟩)
  | @awaitNext i g rest m hs hc hr' hm =>
    cases hs'
    have hk := (hl.native.called i _ g hc).1
    have hgr : g ≠ root := hl.ne_root (by simp [hk])
    have hg : l.shape g ≠ .done := fun hd => by
      rw [hl.not_suspended_of_done hc hd] at hr'
      cases hr'
    obtain ⟨z, w, h1, h2, h3, h4⟩ := suspended_suspend (k := .gen) (w := l.awaited) hl hr hs
      (by simp [hc]) hgr hr' hg (fun hat => by
        obtain ⟨z, hz, hgz⟩ := hl.marked.called i g (by simp [hs]) hc hat hr'
        refine ⟨z, hz, hgz, ?_⟩
        rintro rfl
        exact hr.nested hl z [] g hs hc hgz) hm
    exact .inr (.inr ⟨z, w, h1, h2, h3, h4⟩)
  | @yieldUp g rest hs ha hk hp =>
    cases hs'
    have hroot := hl.eq_root_of_leads (hb g (by simp [hs])) hp
    rw [(hl.process_iff g).mpr hroot] at hk
    cases hk
  | @finishUp i rest hs ha hp =>
    cases hs'
    have hroot := hb i (by simp [hs])
    have hnone : l.parent i = none := by
      cases hk : l.kind i with
      | process =>
        rw [(hl.process_iff i).mp hk]
        exact hl.chained.root_parent
      | method => exact hp hk
      | gen =>
        by_contra hne
        obtain ⟨p, hp'⟩ := Option.ne_none_iff_exists'.mp hne
        exact ho ⟨i, [], p, hs, hk, hp', Function.update_self _ _ _⟩
    rw [← hl.eq_root_of_leads hroot hnone]
    exact .inr (.inl (Function.update_self _ _ _))

theorem rooted (h : l.Move l') (hl : l.Wf) (hr : l.Rooted) (ho : ¬ Orphans l l')
    (hv : ¬ Overtakes l l') : l'.Rooted where
  bottom := h.bottom hl hr
  closed := h.closed hl hr.closed
  alive := h.alive hl hr ho
  suspended := h.suspended hl hr ho hv

end Move
end Links

/-! ## Runs -/

namespace State
variable {σ V W : Type}

/-- The running coroutine returns, it is a generator, and its consumer is suspended in `next()`. -/
def orphans (code : Code σ V W) (s : State σ V W) : Bool :=
  match s.stack with
  | [] => false
  | g :: _ =>
      match (s.promises g).ctl with
      | .code c =>
          match code c with
          | .ret _ => (s.promises g).kind = .gen && (s.promises g).parent.isSome
          | _ => false
      | _ => false

/-- The process itself is about to wait for an `IWaiting`, and `nextChild` is set. -/
def overtakes (code : Code σ V W) (s : State σ V W) : Bool :=
  match s.stack with
  | [] => false
  | i :: _ =>
      match (s.promises i).ctl with
      | .code c =>
          match code c with
          | .await _ _ => i = root && s.nextChild.isSome
          | _ => false
      | _ => false

/-- The condition on a step: no task in use is taken up, no consumer is left suspended in a generator that has
returned, and the process does not suspend while `nextChild` names another coroutine. -/
def Undisturbed (code : Code σ V W) (s : State σ V W) (l : Label V) : Prop :=
  s.shares code = false ∧ s.orphans code = false ∧ (s.overtakes code = true → ∀ v, l ≠ .tick false v)

theorem Step.not_orphans {code : Code σ V W} {s t : State σ V W} {l : Label V} {out : List (Event V)}
    (h : s.Step code l t out) (hw : s.links.Wf) (hu : s.Undisturbed code l) :
    ¬ Links.Orphans s.links t.links := by
  rintro ⟨g, rest, p, hs, hk, hp, hd⟩
  rcases h.head_shape hw hs with h' | ⟨_, _, h'⟩ | ⟨_, _, h', -⟩ | ⟨_, _, _, _, _, _, _, h'⟩ |
    ⟨_, _, _, _, _, h'⟩ | ⟨c, a, hc, ho, -⟩
  all_goals first | cases hd.symm.trans h' | skip
  have horph : s.orphans code = true := by
    have hs' : s.stack = g :: rest := hs
    have hk' : (s.promises g).kind = .gen := hk
    have hp' : (s.promises g).parent = some p := hp
    simp [orphans, hs', hc, ho, hk', hp']
  rw [hu.2.1] at horph
  cases horph

theorem Step.not_overtakes {code : Code σ V W} {s t : State σ V W} {l : Label V} {out : List (Event V)}
    (h : s.Step code l t out) (hw : s.links.Wf) (hu : s.Undisturbed code l) :
    ¬ Links.Overtakes s.links t.links := by
  rintro ⟨rest, w, hs, hd, hn⟩
  rcases h.head_shape hw hs with h' | ⟨_, _, h'⟩ | ⟨_, _, h', -⟩ | ⟨v, c, w', k, hl, hc, ho, -⟩ |
    ⟨_, _, _, _, _, h'⟩ | ⟨_, _, _, _, h'⟩
  all_goals first | cases hd.symm.trans h' | skip
  have hover : s.overtakes code = true := by
    have hs' : s.stack = root :: rest := hs
    have hn' : s.nextChild ≠ none := hn
    simpa [overtakes, hs', hc, ho, Option.isSome_iff_ne_none] using hn'
  exact hu.2.2 hover v hl

theorem init_rooted (body : σ) : (init body : State σ V W).links.Rooted := by
  have hsub : ∀ i, (init body : State σ V W).links.sub i = none := by
    intro i
    by_cases hi : i = root <;> simp [init, links, blank, hi]
  refine ⟨by simp [init, links], fun x y hxy => ?_, fun i k c hi => ?_, fun _ => .inl ?_⟩
  · rw [hsub] at hxy
    cases hxy
  · have hi' := ((init_wf body).chained.sub_iff i c).mpr ⟨k, hi⟩
    rw [hsub] at hi'
    cases hi'
  · simp [init, links, Ctl.shape]

def SuspendedIn (s : State σ V W) (i c : Handle) : Prop :=
  (∃ k, (s.promises i).ctl = .joining c k) ∨ ∃ k, (s.promises i).ctl = .nexting c k

theorem suspendedIn_of_sub {s : State σ V W} (hw : s.links.Wf) {i c : Handle}
    (h : s.links.sub i = some c) : s.SuspendedIn i c := by
  obtain ⟨k, hk⟩ := (hw.chained.sub_iff i c).mp h
  have hk' : (s.promises i).ctl.shape = .awaits k c := hk
  cases hc : (s.promises i).ctl with
  | joining n f =>
    rw [hc] at hk'
    cases hk'
    exact .inl ⟨f, hc⟩
  | nexting g f =>
    rw [hc] at hk'
    cases hk'
    exact .inr ⟨f, hc⟩
  | code _ | calling _ _ | resuming _ _ | waiting _ _ | idle _ | done =>
    rw [hc] at hk'
    cases hk'

theorem result_of_nextChild {s : State σ V W} {z : Handle} {w : W} (hd : s.atFinalSuspend root = false)
    (hn : s.nextChild = if z = root then none else some z) (hw : (s.promises z).waiting = some w) :
    s.nextChild.getD root = z ∧ s.result = some w := by
  by_cases hz : z = root
  · rw [if_pos hz] at hn
    rw [hz] at hw
    simp [result, hd, hn, hw, hz]
  · rw [if_neg hz] at hn
    simp [result, hd, hn, hw]

/-- An executable test of the condition. -/
def undisturbed (code : Code σ V W) (s : State σ V W) (_ : Label V) : Bool :=
  !s.shares code && (!s.orphans code && !s.overtakes code)

end State
end Eslang.Coroutine
