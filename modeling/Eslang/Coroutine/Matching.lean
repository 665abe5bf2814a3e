import Eslang.Coroutine.Methods
import Eslang.Coroutine.Sequential

/-! # The coroutines that a state of the reference stands for

`Matches` relates a state of the coroutines, with its pointers and its native stack, to a state of
`Sequential`: the frames of the reference are the coroutines that the `parent` pointers lead to, and a
suspended task of the reference is a chain of coroutines that nobody awaits. `Keeps` says what a step
leaves alone, and `Matches.of_keeps` what is left to show for a step. -/
namespace Eslang.Coroutine
set_option autoImplicit false
open Lib Relation

namespace State
variable {σ V W : Type} {s t : State σ V W}

/-! ## Fields that an operation does not write -/

section
variable {α : Type} (F : PromiseBase σ V W → α)

theorem update_keeps {i : Handle} {f : PromiseBase σ V W → PromiseBase σ V W} (hf : ∀ p, F (f p) = F p)
    (n : Handle) : F ((s.update i f).promises n) = F (s.promises n) := by
  by_cases hn : n = i
  · rw [hn]
    simp [update, hf]
  · simp [update, hn]

theorem goto_keeps {i : Handle} {c : Ctl σ V W} (hF : ∀ p : PromiseBase σ V W, F { p with ctl := c } = F p)
    (n : Handle) : F ((s.goto i c).promises n) = F (s.promises n) :=
  update_keeps F hF n

theorem marking_keeps {m : Handle} (hF : ∀ p : PromiseBase σ V W, F { p with awaited := true } = F p)
    (n : Handle) : F ((s.marking m).promises n) = F (s.promises n) :=
  update_keeps F hF n

theorem cleared_keeps (hF : ∀ p : PromiseBase σ V W, F { p with waiting := none } = F p) (n : Handle) :
    F (s.cleared.promises n) = F (s.promises n) :=
  update_keeps F hF n

theorem updateProcessPromise_keeps (hF : ∀ p : PromiseBase σ V W, F { p with processPromise := true } = F p)
    {n : Nat} {c : Handle} (h : s.updateProcessPromise c n = some t) :
    (∀ x, F (t.promises x) = F (s.promises x)) ∧ t.count = s.count ∧ t.stack = s.stack := by
  induction n generalizing s c with
  | zero => cases h
  | succ n ih =>
    simp only [updateProcessPromise] at h
    split at h
    case h_1 =>
      cases h
      exact ⟨fun x => update_keeps F hF x, rfl, rfl⟩
    case h_2 d _ =>
      obtain ⟨hx, hcount, hstack⟩ := ih h
      exact ⟨fun x => (hx x).trans (update_keeps F hF x), hcount, hstack⟩

theorem updateSuspend_keeps {i c : Handle}
    (hF : ∀ p : PromiseBase σ V W, F { p with processPromise := true } = F p)
    (hsub : ∀ p : PromiseBase σ V W, F { p with subCoroutineChild := some c } = F p)
    (h : s.updateSuspend i c = some t) :
    (∀ x, F (t.promises x) =
        F ((s.update c fun p => { p with parent := some i }).promises x)) ∧
      t.count = s.count ∧ t.stack = s.stack := by
  have hx : ∀ x, F (((s.update c fun p => { p with parent := some i }).update i
      fun p => { p with subCoroutineChild := some c }).promises x) =
      F ((s.update c fun p => { p with parent := some i }).promises x) := update_keeps F hsub
  simp only [updateSuspend] at h
  split at h
  case isTrue =>
    obtain ⟨h1, h2, h3⟩ := updateProcessPromise_keeps F hF h
    exact ⟨fun x => (h1 x).trans (hx x), h2, h3⟩
  case isFalse =>
    cases h
    exact ⟨hx, rfl, rfl⟩

end

theorem awaitSuspend_promises (s : State σ V W) (i : Handle) (w : W) :
    (s.awaitSuspend i w).promises = (s.update i fun p => { p with waiting := some w }).promises := by
  unfold awaitSuspend
  dsimp only
  split <;> rfl

/-! ## Frames -/

/-- The coroutines under `i`, down to `b`: each is suspended in the one above it. -/
inductive Stacked (s : State σ V W) : Handle → Frames σ V → Handle → Prop
  | base (i : Handle) : Stacked s i [] i
  | under {i j b : Handle} {k : V → σ} {below : Frames σ V} (hc : (s.promises j).ctl = .joining i k)
      (hp : (s.promises i).parent = some j) (h : Stacked s j below b) : Stacked s i ((j, k) :: below) b

namespace Stacked

theorem append {i j b c : Handle} {k : V → σ} {below below' : Frames σ V} (h : s.Stacked i below b)
    (hc : (s.promises j).ctl = .joining b k) (hp : (s.promises b).parent = some j)
    (h' : s.Stacked j below' c) : s.Stacked i (below ++ (j, k) :: below') c := by
  induction h with
  | base i => exact .under hc hp h'
  | under hc' hp' _ ih => exact .under hc' hp' (ih hc hp)

theorem leads {i b : Handle} {below : Frames σ V} (h : s.Stacked i below b) (hw : s.links.Wf) :
    Leads s.links.sub b i := by
  induction h with
  | base i => exact Leads.refl _ _
  | under hc _ _ ih => exact ih.tail ((hw.chained.sub_iff _ _).mpr ⟨_, shape_of_ctl hc⟩)

/-- A frame is suspended in the coroutine above it, which is the top or in a frame itself. -/
theorem frame {i b j : Handle} {k : V → σ} {below : Frames σ V} (h : s.Stacked i below b)
    (hj : (j, k) ∈ below) : (∃ n, (s.promises j).ctl = .joining n k ∧
      (n = i ∨ ∃ k', (n, k') ∈ below)) ∧ ∃ below', s.Stacked j below' b := by
  induction h with
  | base i => cases hj
  | @under i j' b k' below hc hp h ih =>
    rcases List.mem_cons.mp hj with he | hj
    · cases he
      exact ⟨⟨i, hc, .inl rfl⟩, below, h⟩
    · obtain ⟨⟨n, hn, hor⟩, hbelow⟩ := ih hj
      refine ⟨⟨n, hn, .inr ?_⟩, hbelow⟩
      rcases hor with rfl | ⟨k'', hk''⟩
      · exact ⟨k', List.mem_cons_self⟩
      · exact ⟨k'', List.mem_cons_of_mem _ hk''⟩

end Stacked

/-! ## What a step leaves alone -/

/-- The coroutines other than `X` are where they were, and no parent has changed but those of `Y`, which
had none. -/
structure Keeps (s t : State σ V W) (X Y : List Handle) : Prop where
  ctl : ∀ x, x ∉ X → (t.promises x).ctl = (s.promises x).ctl
  parent : ∀ x, x ∉ Y → (t.promises x).parent = (s.promises x).parent
  orphan : ∀ x ∈ Y, (s.promises x).parent = none

theorem Stacked.keep {i b : Handle} {below : Frames σ V} {X Y : List Handle} (h : s.Stacked i below b)
    (hk : s.Keeps t X Y) (hX : ∀ j k, (j, k) ∈ below → j ∉ X) : t.Stacked i below b := by
  induction h with
  | base i => exact .base i
  | @under i j b k below hc hp h ih =>
    refine .under ?_ ?_ (ih fun j' k' hj => hX j' k' (List.mem_cons_of_mem _ hj))
    · rw [hk.ctl j (hX j k List.mem_cons_self)]
      exact hc
    · rw [hk.parent i ?_]
      · exact hp
      · intro hi
        rw [hk.orphan i hi] at hp
        cases hp

/-- Coroutine `x` is not suspended, or it is on the chain that the process waits on. -/
def Apart (s : State σ V W) (x : Handle) : Prop :=
  ((∀ n k, (s.promises x).ctl ≠ .joining n k) ∧ ∀ w k, (s.promises x).ctl ≠ .waiting w k) ∨
    Leads s.links.sub root x

/-! ## Tasks -/

/-- The method `n` has returned `a`. -/
def Returned (s : State σ V W) (n : Handle) (a : V) : Prop :=
  (s.promises n).kind = .method ∧ (s.promises n).ctl = .done ∧ (s.promises n).t_ = some a

/-- The method `n` has suspended, and nobody awaits it. -/
def Parked (s : State σ V W) (n : Handle) : Prop :=
  (s.promises n).kind = .method ∧ (s.promises n).awaited = false ∧ n ∉ s.stack ∧
    (s.promises n).ctl ≠ .done

inductive Tracked (s : State σ V W) (n : Handle) : Task σ V W → Prop
  | busy (hr : ∀ a, ¬ s.Returned n a) (hp : ¬ s.Parked n) : Tracked s n .busy
  | finished {a : V} (h : s.Returned n a) : Tracked s n (.finished a)
  | suspended {r : Residual σ V W} (hp : s.Parked n)
      (hc : (s.promises r.innermost).ctl = .waiting r.waiting r.k)
      (h : s.Stacked r.innermost r.below n) : Tracked s n (.suspended r)

theorem Parked.not_leads_root {n x : Handle} (h : s.Parked n) (hw : s.links.Wf)
    (hx : Leads s.links.sub n x) : ¬ Leads s.links.sub root x := by
  intro hroot
  have hp := hw.chained.unawaited n h.1 h.2.1
  have hn : n ≠ root := hw.ne_root (by simp [links, h.1])
  rcases Leads.comparable hw.sub_injective hroot hx with h | h
  · exact hn (hw.eq_root_of_leads h hp)
  · exact hn (Leads.of_start h fun _ => hw.not_sub hw.chained.root_parent)

theorem Parked.keep {n : Handle} {r : Residual σ V W} {X Y : List Handle} (h : s.Parked n)
    (hw : s.links.Wf) (hc : (s.promises r.innermost).ctl = .waiting r.waiting r.k)
    (hst : s.Stacked r.innermost r.below n) (hk : s.Keeps t X Y) (hX : ∀ x ∈ X, s.Apart x) :
    (t.promises r.innermost).ctl = .waiting r.waiting r.k ∧ t.Stacked r.innermost r.below n := by
  constructor
  · rw [hk.ctl _ fun hx => ?_]
    · exact hc
    · rcases hX _ hx with hx | hx
      · exact hx.2 _ _ hc
      · exact h.not_leads_root hw (hst.leads hw) hx
  · refine hst.keep hk fun j k hj hx => ?_
    obtain ⟨⟨m, hm, -⟩, below, hbelow⟩ := hst.frame hj
    rcases hX _ hx with hx | hx
    · exact hx.1 _ _ hm
    · exact h.not_leads_root hw (hbelow.leads hw) hx

theorem Tracked.keep {n : Handle} {T : Task σ V W} {X Y : List Handle} (h : s.Tracked n T)
    (hw : s.links.Wf) (hr : ∀ a, t.Returned n a ↔ s.Returned n a) (hp : t.Parked n ↔ s.Parked n)
    (hk : s.Keeps t X Y) (hX : ∀ x ∈ X, s.Apart x) : t.Tracked n T := by
  cases h with
  | busy hr' hp' => exact .busy (fun a ha => hr' a ((hr a).mp ha)) (hp.not.mpr hp')
  | finished h => exact .finished ((hr _).mpr h)
  | suspended h hc hst =>
    obtain ⟨hc', hst'⟩ := h.keep hw hc hst hk hX
    exact .suspended (hp.mpr h) hc' hst'

/-! ## What the reference shows of a state -/

/-- The frames under a coroutine on the native stack: none, if it was called, and down to the process if
it was resumed. -/
def Segment (s : State σ V W) (i : Handle) (below : Frames σ V) : Prop :=
  below = [] ∧ (s.promises i).parent = none ∨ s.Stacked i below root

theorem Segment.keep {i : Handle} {below : Frames σ V} {X Y : List Handle} (h : s.Segment i below)
    (hk : s.Keeps t X Y) (hX : ∀ j k, (j, k) ∈ below → j ∉ X) (hY : i ∉ Y) : t.Segment i below := by
  rcases h with ⟨hb, hp⟩ | h
  · exact .inl ⟨hb, by rw [hk.parent i hY, hp]⟩
  · exact .inr (h.keep hk hX)

theorem Segment.joining {i j : Handle} {k : V → σ} {below : Frames σ V} (h : s.Segment i below)
    (hj : (j, k) ∈ below) : ∃ n, (s.promises j).ctl = .joining n k := by
  rcases h with ⟨rfl, -⟩ | h
  · cases hj
  · obtain ⟨⟨n, hn, -⟩, -⟩ := h.frame hj
    exact ⟨n, hn⟩

theorem Segment.nil_of_parent {i : Handle} {below : Frames σ V} (h : s.Segment i below)
    (hp : (s.promises i).parent = none) : below = [] := by
  rcases h with ⟨hb, -⟩ | h
  · exact hb
  · cases h with
    | base => rfl
    | under _ hp' _ =>
      rw [hp] at hp'
      cases hp'

/-- A coroutine in the middle of a call. -/
def Calls (s : State σ V W) (j : Handle) (c : Caller σ V) : Prop :=
  c.self = j ∧ (s.promises j).ctl = .calling c.task c.k ∧ s.Segment j c.below

theorem Calls.keep {j : Handle} {c : Caller σ V} {X Y : List Handle} (h : s.Calls j c)
    (hk : s.Keeps t X Y) (hX : j ∉ X) (hXs : ∀ x ∈ X, ∀ n k, (s.promises x).ctl ≠ .joining n k)
    (hY : j ∉ Y) : t.Calls j c := by
  obtain ⟨hself, hc, hseg⟩ := h
  refine ⟨hself, by rw [hk.ctl j hX, hc], hseg.keep hk (fun x k hx hxX => ?_) hY⟩
  obtain ⟨n, hn⟩ := hseg.joining hx
  exact hXs x hxX n k hn

/-- What runs, or what the process waits for. -/
inductive Shown (s : State σ V W) : Mode σ V W → List (Caller σ V) → Prop
  | initial {body : σ} (hs : s.stack = []) (hc : (s.promises root).ctl = .idle body) :
      Shown s (.initial body) []
  | run {i : Handle} {rest : List Handle} {c : σ} {below : Frames σ V} {cs : List (Caller σ V)}
      (hs : s.stack = i :: rest) (hc : (s.promises i).ctl = .code c) (hb : s.Segment i below)
      (hcs : List.Forall₂ s.Calls rest cs) : Shown s (.run i c below) cs
  | back {rest : List Handle} {cs : List (Caller σ V)} (hs : s.stack = rest) (hne : rest ≠ [])
      (hcs : List.Forall₂ s.Calls rest cs) : Shown s .back cs
  | suspended {r : Residual σ V W} (hs : s.stack = [])
      (hc : (s.promises r.innermost).ctl = .waiting r.waiting r.k)
      (hb : s.Stacked r.innermost r.below root) : Shown s (.suspended r) []
  | finished (hs : s.stack = []) (hc : (s.promises root).ctl = .done) : Shown s .finished []

/-- A method that has returned has its value. -/
def Valued (s : State σ V W) : Prop :=
  ∀ n, n < s.count → (s.promises n).kind = .method → (s.promises n).ctl = .done →
    (s.promises n).t_.isSome

/-- The state of the coroutines that a state of the reference stands for. -/
structure Matches (s : State σ V W) (r : Sequential σ V W) : Prop where
  sound : s.Sound
  valued : s.Valued
  count : s.count = r.count
  unset : ∀ n, s.count ≤ n → (s.promises n).t_ = none
  tasks : ∀ n, s.Tracked n (r.tasks n)
  shown : s.Shown r.mode r.callers

/-! ## What is common to the steps -/

theorem stack_ctl (hw : s.links.Wf) {i : Handle} (hi : i ∈ s.stack) :
    ((∀ n k, (s.promises i).ctl ≠ .joining n k) ∧ ∀ w k, (s.promises i).ctl ≠ .waiting w k) ∧
      (s.promises i).ctl ≠ .done := by
  have h := (hw.native.mem_iff i).mp hi
  refine ⟨⟨fun n k hc => ?_, fun w k hc => ?_⟩, fun hc => ?_⟩ <;>
    simp [shape_of_ctl hc, Ctl.shape] at h

theorem apart_of_stack (hw : s.links.Wf) {i : Handle} (hi : i ∈ s.stack) : s.Apart i :=
  .inl (stack_ctl hw hi).1

/-- The promise of `n` has changed in nothing that a `co_await` of the method `n` looks at. -/
structure Unmoved (s t : State σ V W) (n : Handle) : Prop where
  kind : (t.promises n).kind = (s.promises n).kind
  value : (t.promises n).t_ = (s.promises n).t_
  done : (t.promises n).ctl = .done ↔ (s.promises n).ctl = .done
  awaited : (s.promises n).ctl ≠ .done → (t.promises n).awaited = (s.promises n).awaited
  stack : n ∈ t.stack ↔ n ∈ s.stack

theorem Tracked.unmoved {n : Handle} {T : Task σ V W} {X Y : List Handle} (h : s.Tracked n T)
    (hw : s.links.Wf) (hk : s.Keeps t X Y) (hX : ∀ x ∈ X, s.Apart x) (hn : s.Unmoved t n) :
    t.Tracked n T := by
  refine h.keep hw (fun a => ?_) ?_ hk hX
  · simp only [Returned, hn.kind, hn.done, hn.value]
  · by_cases hd : (s.promises n).ctl = .done
    · simp [Parked, hn.done, hd]
    · simp only [Parked, hn.kind, hn.awaited hd, hn.stack, ne_eq, hn.done]

theorem Matches.busy {r : Sequential σ V W} (h : s.Matches r) {n : Handle} (hr : ∀ a, ¬ s.Returned n a)
    (hp : ¬ s.Parked n) : r.tasks n = .busy := by
  have ht := h.tasks n
  generalize r.tasks n = T at ht
  cases ht with
  | busy => rfl
  | finished hr' => exact absurd hr' (hr _)
  | suspended hp' => exact absurd hp' hp

theorem Matches.busy_of_stack {r : Sequential σ V W} (h : s.Matches r) {i : Handle} (hi : i ∈ s.stack) :
    r.tasks i = .busy :=
  h.busy (fun _ hr => (stack_ctl h.sound.formed.wf hi).2 hr.2.1) fun hp => hp.2.2.1 hi

/-- A coroutine on the chain of the process is a task that is awaited. -/
theorem Matches.busy_of_leads {r : Sequential σ V W} (h : s.Matches r) {i : Handle}
    (hi : Leads s.links.sub root i) (hd : (s.promises i).ctl ≠ .done) : r.tasks i = .busy :=
  h.busy (fun _ hr => hd hr.2.1) fun hp =>
    hp.not_leads_root h.sound.formed.wf (Leads.refl _ i) hi

theorem ctl_fresh (hw : s.links.Wf) {n : Handle} (hn : s.count ≤ n) : (s.promises n).ctl = .done := by
  have hdone := (hw.fresh n hn).1
  cases hc : (s.promises n).ctl with
  | done => rfl
  | code _ | calling _ _ | resuming _ _ | waiting _ _ | joining _ _ | nexting _ _ | idle _ =>
    rw [shape_of_ctl hc] at hdone
    cases hdone

theorem Matches.busy_of_fresh {r : Sequential σ V W} (h : s.Matches r) {n : Handle} (hn : s.count ≤ n) :
    r.tasks n = .busy := by
  refine h.busy (fun a hr => ?_) fun hp => hp.2.2.2 (ctl_fresh h.sound.formed.wf hn)
  have hv := hr.2.2
  rw [h.unset n hn] at hv
  cases hv

/-- A coroutine that runs is no task that can be awaited. -/
theorem Tracked.running {n : Handle} {x : σ} (hc : (s.promises n).ctl = .code x) (hn : n ∈ s.stack) :
    s.Tracked n .busy := by
  refine .busy (fun a hr => ?_) fun hp => hp.2.2.1 hn
  have hd := hr.2.1
  rw [hc] at hd
  cases hd

namespace Valued

theorem update {i : Handle} {f : PromiseBase σ V W → PromiseBase σ V W} (h : s.Valued)
    (hf : ∀ p, (f p).kind = .method → (f p).ctl = .done →
      (f p).t_.isSome ∨ p.kind = .method ∧ p.ctl = .done ∧ (f p).t_ = p.t_) : (s.update i f).Valued := by
  intro n hn hk hd
  by_cases hni : n = i
  · subst hni
    simp only [State.update, Function.update_self] at hk hd ⊢
    rcases hf _ hk hd with hv | ⟨hk', hd', he⟩
    · exact hv
    · exact he ▸ h n hn hk' hd'
  · simp only [State.update, Function.update_of_ne hni] at hk hd ⊢
    exact h n hn hk hd

theorem goto {i : Handle} {c : Ctl σ V W} (h : s.Valued) (hc : c ≠ .done) : (s.goto i c).Valued :=
  h.update fun _ _ hd => absurd hd hc

theorem make {p : PromiseBase σ V W} (h : s.Valued) (hp : p.ctl ≠ .done) : (s.make p).Valued := by
  intro n hn hk hd
  by_cases hni : n = s.count
  · simp [State.make, hni, hp] at hd
  · simp only [State.make, Function.update_of_ne hni] at hk hd ⊢
    exact h n (Nat.lt_of_le_of_ne (Nat.lt_succ_iff.mp hn) hni) hk hd

theorem updateSuspend {i c : Handle} (h : s.Valued) (hu : s.updateSuspend i c = some t) : t.Valued := by
  intro n hn hk hd
  have hsame := fun {α : Type} (F : PromiseBase σ V W → α) h1 h2 h3 =>
    ((updateSuspend_keeps F h1 h2 hu).1 n).trans (update_keeps F h3 n)
  rw [hsame PromiseBase.kind (fun _ => rfl) (fun _ => rfl) fun _ => rfl] at hk
  rw [hsame PromiseBase.ctl (fun _ => rfl) (fun _ => rfl) fun _ => rfl] at hd
  rw [hsame PromiseBase.t_ (fun _ => rfl) (fun _ => rfl) fun _ => rfl]
  rw [(updateSuspend_keeps (fun _ => ()) (fun _ => rfl) (fun _ => rfl) hu).2.1] at hn
  exact h n hn hk hd

theorem awaitSuspend {i : Handle} {w : W} (h : s.Valued) : (s.awaitSuspend i w).Valued := by
  have hset : (s.update i fun p => { p with waiting := some w }).Valued :=
    h.update fun p hk hd => .inr ⟨hk, hd, rfl⟩
  unfold State.awaitSuspend
  dsimp only
  split
  · exact hset
  · exact hset

end Valued

theorem Step.valued {code : Code σ V W} {l : Label V} {out : List (Event V)} (h : s.Step code l t out)
    (hv : s.Valued) : t.Valued := by
  have hmark : ∀ n, (s.marking n).Valued := fun n => hv.update fun p hk hd => .inr ⟨hk, hd, rfl⟩
  have hchild : ∀ {u : State σ V W} (p : Handle), u.Valued → (u.clearChild p).Valued :=
    fun p hu => hu.update fun p hk hd => .inr ⟨hk, hd, rfl⟩
  have hyield : ∀ g a k, (s.yielding g a k).Valued := fun g a k => hv.update fun p _ _ => .inl rfl
  have hreturn : ∀ i a, (s.returning i a).Valued := fun i a => hv.update fun p _ _ => .inl rfl
  cases h with
  | act | ready | called | answer => exact hv.goto (by simp)
  | wait => exact hv.awaitSuspend.goto (by simp)
  | start => exact (hv.goto (by simp)).make (by simp)
  | collect => exact (hmark _).goto (by simp)
  | join _ _ _ _ _ hu => exact ((hmark _).updateSuspend hu).goto (by simp)
  | gen => exact (hv.goto (by simp)).make (by simp)
  | next => exact (hv.goto (by simp)).goto (by simp)
  | awaitNext _ _ _ hu => exact (hv.updateSuspend hu).goto (by simp)
  | yieldUp => exact hyield _ _ _
  | yieldInto => exact (hchild _ (hyield _ _ _)).goto (by simp)
  | returnUp => exact hreturn _ _
  | returnInto => exact (hchild _ (hreturn _ _)).goto (by simp)
  | @finish i _ _ _ _ _ _ _ _ hk =>
    intro n hn hkn hd
    by_cases hni : n = i
    · subst hni
      exact absurd ((goto_keeps PromiseBase.kind (fun _ => rfl) n).symm.trans hkn) hk
    · simp only [goto, State.update, Function.update_of_ne hni] at hkn hd ⊢
      exact hv n hn hkn hd
  | resume =>
    have hset : (s.update root fun p => { p with waiting := none }).Valued :=
      hv.update fun p hk hd => .inr ⟨hk, hd, rfl⟩
    have hcleared : s.cleared.Valued := hset
    exact hcleared.goto (by simp)

/-- A step after which only the tasks of `Z` have to be looked at. -/
theorem Matches.of_keeps {code : Code σ V W} {l : Label V} {out : List (Event V)}
    {r r' : Sequential σ V W} {X Y Z : List Handle} (h : s.Matches r)
    (hu : s.shares code = false) (hstep : s.step code l = some (t, out)) (hcount : t.count = s.count)
    (hcount' : r'.count = r.count)
    (hk : s.Keeps t X Y) (hX : ∀ x ∈ X, s.Apart x) (hZ : ∀ z ∈ Z, (s.promises z).ctl ≠ .done)
    (hsame : ∀ n, n ∉ Z → s.Unmoved t n ∧ r'.tasks n = r.tasks n)
    (hmoved : ∀ n ∈ Z, t.Tracked n (r'.tasks n)) (hshown : t.Shown r'.mode r'.callers) : t.Matches r' := by
  have hw := h.sound.formed.wf
  refine ⟨h.sound.step hu hstep (.inl hcount), (step_cases hu hstep).valued h.valued,
    by rw [hcount, h.count, hcount'], fun n hn => ?_, fun n => ?_, hshown⟩
  · rw [hcount] at hn
    have hnZ : n ∉ Z := fun hz => hZ n hz (ctl_fresh hw hn)
    rw [(hsame n hnZ).1.value]
    exact h.unset n hn
  · by_cases hnZ : n ∈ Z
    · exact hmoved n hnZ
    · rw [(hsame n hnZ).2]
      exact (h.tasks n).unmoved hw hk hX (hsame n hnZ).1

theorem calls_keep {i : Handle} {rest : List Handle} {cs : List (Caller σ V)} {X Y : List Handle}
    (hs : s.stack = i :: rest)
    (hcs : List.Forall₂ s.Calls rest cs) (hk : s.Keeps t X Y) (hX : ∀ x ∈ X, x ∉ rest)
    (hXs : ∀ x ∈ X, ∀ n k, (s.promises x).ctl ≠ .joining n k) (hY : ∀ x ∈ Y, x ∉ s.stack) :
    List.Forall₂ t.Calls rest cs := by
  have hmem : ∀ j ∈ rest, j ∈ s.stack := fun j hj => by rw [hs]; exact List.mem_cons_of_mem i hj
  clear hs
  induction hcs with
  | nil => exact .nil
  | @cons j c rest cs hjc _ ih =>
    refine .cons (hjc.keep hk ?_ hXs ?_) (ih (fun x hx hr => hX x hx (List.mem_cons_of_mem j hr))
      fun j' hj' => hmem j' (List.mem_cons_of_mem j hj'))
    · exact fun hj => hX j hj List.mem_cons_self
    · exact fun hj => hY j hj (hmem j List.mem_cons_self)

theorem keeps_goto (s : State σ V W) (i : Handle) (c : Ctl σ V W) : s.Keeps (s.goto i c) [i] [] where
  ctl x hx := by simp [goto, update, List.mem_singleton.not.mp hx]
  parent x _ := goto_keeps PromiseBase.parent (fun _ => rfl) x
  orphan x hx := by cases hx

theorem unmoved_of_eq {n : Handle} (he : t.promises n = s.promises n) (hm : n ∈ t.stack ↔ n ∈ s.stack) :
    s.Unmoved t n :=
  ⟨by rw [he], by rw [he], by rw [he], fun _ => by rw [he], hm⟩

theorem Matches.go {code : Code σ V W} {l : Label V} {out : List (Event V)} {r : Sequential σ V W}
    {i : Handle} {rest : List Handle} {x : σ} {below : Frames σ V} {cs : List (Caller σ V)}
    (h : s.Matches r) (hu : s.shares code = false) (hstep : s.step code l = some (t, out))
    (hs : s.stack = i :: rest)
    (hb : s.Segment i below) (hcs : List.Forall₂ s.Calls rest cs) (hstack : t.stack = s.stack)
    (hcount : t.count = s.count) (hx : (t.promises i).ctl = .code x) (hk : s.Keeps t [i] [])
    (hkind : ∀ n, (t.promises n).kind = (s.promises n).kind)
    (hvalue : ∀ n, (t.promises n).t_ = (s.promises n).t_)
    (hawaited : ∀ n, (s.promises n).ctl ≠ .done →
      (t.promises n).awaited = (s.promises n).awaited) :
    t.Matches { r with mode := .run i x below, callers := cs } := by
  have hw := h.sound.formed.wf
  have hi : i ∈ s.stack := by simp [hs]
  obtain ⟨⟨hjoin, -⟩, hdone⟩ := stack_ctl hw hi
  have hXs : ∀ y ∈ [i], ∀ n k, (s.promises y).ctl ≠ .joining n k := by simpa using hjoin
  refine h.of_keeps hu hstep hcount rfl hk (by simpa using apart_of_stack hw hi) (Z := [i])
    (by simpa using hdone) (fun n hn => ⟨?_, rfl⟩) ?_ ?_
  · exact ⟨hkind n, hvalue n, by rw [hk.ctl n hn], hawaited n, by rw [hstack]⟩
  · simp only [List.mem_singleton, forall_eq]
    rw [h.busy_of_stack hi]
    exact .running hx (hstack ▸ hi)
  · refine .run (hstack.trans hs) hx (hb.keep hk (fun j k hj hjX => ?_) (by simp)) ?_
    · obtain ⟨n, hn⟩ := hb.joining hj
      exact hXs j hjX n k hn
    · exact calls_keep hs hcs hk (by simpa using hw.native.not_mem_rest hs) hXs (by simp)

/-! ## The ends of the frames -/

theorem Matches.run_inv {r : Sequential σ V W} {i : Handle} {c : σ} {below : Frames σ V} (h : s.Matches r)
    (hm : r.mode = .run i c below) : ∃ rest, s.stack = i :: rest ∧ (s.promises i).ctl = .code c ∧
      s.Segment i below ∧ List.Forall₂ s.Calls rest r.callers := by
  have hsh := h.shown
  rw [hm] at hsh
  generalize r.callers = cs at hsh
  cases hsh with
  | run hs hc hb hcs => exact ⟨_, hs, hc, hb, hcs⟩

section
variable {r : Sequential σ V W} {i : Handle} {rest : List Handle} {below : Frames σ V}

theorem Matches.task_eq (h : s.Matches r) (hs : s.stack = i :: rest) {cs : List (Caller σ V)}
    (hcs : List.Forall₂ s.Calls rest cs) : ∀ d ds, cs = d :: ds → d.task = i := by
  rintro d ds rfl
  cases hcs with
  | @cons b _ rest _ hb _ =>
    have hcall := h.sound.formed.wf.native.caller hs
    rw [shape_of_ctl hb.2.1] at hcall
    injection hcall

theorem Matches.bottom_awaited (h : s.Matches r) (hs : s.stack = [i]) :
    ¬ ((s.promises i).kind = .method ∧ (s.promises i).awaited = false) := by
  rintro ⟨hk, ha⟩
  have hw := h.sound.formed.wf
  have hroot := hw.eq_root_of_leads (h.sound.rooted.bottom i (by simp [links, hs]))
    (hw.chained.unawaited i hk ha)
  exact hw.ne_root (by simp [links, hk]) hroot

theorem Matches.segment_base (h : s.Matches r) (hs : s.stack = i :: rest) (hb : s.Segment i below) :
    (rest = [] → s.Stacked i below root) ∧ (rest ≠ [] → s.Stacked i below i) := by
  have hw := h.sound.formed.wf
  constructor
  · rintro rfl
    rcases hb with ⟨rfl, hp⟩ | hb
    · rw [hw.eq_root_of_leads (h.sound.rooted.bottom i (by simp [links, hs])) hp]
      exact .base root
    · exact hb
  · intro hne
    obtain ⟨b, rest, rfl⟩ := List.exists_cons_of_ne_nil hne
    rw [hb.nil_of_parent (h.sound.plain.of_called hw hs).2.2.1]
    exact .base i

end

theorem atFinalSuspend_iff_ctl (s : State σ V W) (n : Handle) :
    s.atFinalSuspend n = true ↔ (s.promises n).ctl = .done := by
  unfold atFinalSuspend
  cases (s.promises n).ctl <;> simp

theorem end_unique {y z : Handle} (hy : Leads s.links.sub root y)
    (hz : Leads s.links.sub root z) (hye : s.links.sub y = none) (hze : s.links.sub z = none) : y = z := by
  have hfun : Relator.RightUnique fun a b => s.links.sub a = some b :=
    fun a b d hb hd => Option.some.inj (hb.symm.trans hd)
  rcases ReflTransGen.total_of_right_unique hfun hy hz with h | h
  · exact (Leads.of_end h hye).symm
  · exact Leads.of_end h hze

end State
end Eslang.Coroutine
