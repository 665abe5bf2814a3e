import Eslang.Coroutine.Native

/-! # Well-formed pointers between coroutines

`Wf` collects what the pointers of the promises say about the coroutines, and holds in every state of
a run in which no coroutine waits for itself: `subCoroutineChild` and `parent` are inverse to each other
for every suspended coroutine, `waiting` and `nextChild` are right where they are not stale, and
`ProcessTask::resume` continues a coroutine that waits for an `IWaiting`. -/
namespace Eslang.Coroutine
set_option autoImplicit false
open Lib

namespace Links
variable {W : Type} {l l' : Links W}

/-! ## The invariant -/

/-- The pointers of coroutines that are suspended in a task. A method keeps its parent after it has
finished, and a generator that returns while its consumer is suspended leaves the consumer there. -/
structure Chained (l : Links W) : Prop where
  sub_iff : ∀ i c, l.sub i = some c ↔ ∃ k, l.shape i = .awaits k c
  awaits_parent : ∀ i k c, l.shape i = .awaits k c → l.kind c = k ∧ l.parent c = some i
  parent_awaits : ∀ i c, l.parent c = some i → l.shape c ≠ .done ∨ l.kind c = .gen →
    l.shape i = .awaits (l.kind c) c
  idle_parent : ∀ c, l.shape c = .idle → l.parent c = none
  unawaited : ∀ n, l.kind n = .method → l.awaited n = false → l.parent n = none
  root_parent : l.parent root = none

namespace Chained

theorem turn {i : Handle} {sh : Shape W} (h : l.Chained) (hold : ∀ k c, l.shape i ≠ .awaits k c)
    (hnew : ∀ k c, sh ≠ .awaits k c) (hidle : sh = .idle → l.parent i = none) (hdone : l.shape i ≠ .done) :
    (l.turn i sh).Chained := by
  obtain ⟨hsub, hawp, hpaw, hip, hun, hroot⟩ := h
  constructor
  case sub_iff => simp only [Links.turn, Function.update_apply]; grind -ring -linarith
  case awaits_parent => simp only [Links.turn, Function.update_apply]; grind -ring -linarith
  case parent_awaits => simp only [Links.turn, Function.update_apply]; grind -ring -linarith
  case idle_parent => simp only [Links.turn, Function.update_apply]; grind -ring -linarith
  case unawaited => exact hun
  case root_parent => exact hroot

theorem make {i : Handle} {k : Kind} {sh : Shape W} (h : l.Chained)
    (hf : l.shape l.count = .done ∧ l.parent l.count = none) (hr : root < l.count)
    (hsh : ∀ k c, sh ≠ .awaits k c) : (l.make k sh i).Chained := by
  obtain ⟨hsub, hawp, hpaw, hip, hun, hroot⟩ := h
  constructor
  case sub_iff => simp only [Links.make, Function.update_apply]; grind -ring -linarith
  case awaits_parent => simp only [Links.make, Function.update_apply]; grind -ring -linarith
  case parent_awaits => simp only [Links.make, Function.update_apply]; grind -ring -linarith
  case idle_parent => simp only [Links.make, Function.update_apply]; grind -ring -linarith
  case unawaited => simp only [Links.make, Function.update_apply]; grind -ring -linarith
  case root_parent => simp only [Links.make, Function.update_apply]; grind -ring -linarith

theorem suspend {i c : Handle} {k : Kind} (h : l.Chained) (hi : ∀ k d, l.shape i ≠ .awaits k d)
    (hid : l.shape i ≠ .idle ∧ l.shape i ≠ .done) (hc : l.parent c = none) (hcr : c ≠ root)
    (hci : l.shape c ≠ .idle) (hun : l.kind c = .method → l.awaited c = true)
    (hkc : l.kind c = k) (hsh : l'.shape = Function.update l.shape i (.awaits k c))
    (hp : l'.parent = Function.update l.parent c (some i))
    (hs : l'.sub = Function.update l.sub i (some c)) (hk : l'.kind = l.kind)
    (ha : l'.awaited = l.awaited) : l'.Chained := by
  obtain ⟨hsub, hawp, hpaw, hip, hu, hroot⟩ := h
  constructor
  case sub_iff => simp only [hsh, hs, Function.update_apply]; grind -ring -linarith
  case awaits_parent => simp only [hsh, hp, Function.update_apply]; grind -ring -linarith
  case parent_awaits => simp only [hsh, hp, hk, Function.update_apply]; grind -ring -linarith
  case idle_parent => simp only [hsh, hp, Function.update_apply]; grind -ring -linarith
  case unawaited => simp only [hp, hk, ha, Function.update_apply]; grind -ring -linarith
  case root_parent => simp only [hp, Function.update_apply]; grind -ring -linarith

/-- Coroutine `c` lets its parent `p` go on: `c` has returned or it has lost its parent. -/
theorem release {c p : Handle} {sh : Shape W} (h : l.Chained) (hc : l.shape c = .active)
    (hcp : l.parent c = some p) (hsh : l'.shape = Function.update (Function.update l.shape c sh) p .active)
    (hnew : ∀ k d, sh ≠ .awaits k d)
    (hpar : l'.parent = l.parent ∧ sh = .done ∧ l.kind c = .method ∨
      l'.parent = Function.update l.parent c none)
    (hs : l'.sub = Function.update l.sub p none) (hk : l'.kind = l.kind)
    (ha : l'.awaited = l.awaited) : l'.Chained := by
  obtain ⟨hsub, hawp, hpaw, hip, hu, hroot⟩ := h
  have hp : l.shape p = .awaits (l.kind c) c := hpaw p c hcp (.inl (by simp [hc]))
  have hne : p ≠ c := fun he => by rw [he, hc] at hp; cases hp
  constructor
  case sub_iff => simp only [hsh, hs, Function.update_apply]; grind -ring -linarith
  case awaits_parent =>
    rcases hpar with ⟨hpar, hd, hm⟩ | hpar <;> simp only [hsh, hpar, Function.update_apply] <;>
      grind -ring -linarith
  case parent_awaits =>
    rcases hpar with ⟨hpar, hd, hm⟩ | hpar <;> simp only [hsh, hpar, hk, Function.update_apply] <;>
      grind -ring -linarith
  case idle_parent =>
    rcases hpar with ⟨hpar, hd, hm⟩ | hpar <;> simp only [hsh, hpar, Function.update_apply] <;>
      grind -ring -linarith
  case unawaited =>
    rcases hpar with ⟨hpar, hd, hm⟩ | hpar <;> simp only [hpar, hk, ha, Function.update_apply] <;>
      grind -ring -linarith
  case root_parent =>
    rcases hpar with ⟨hpar, hd, hm⟩ | hpar <;> simp only [hpar, Function.update_apply] <;>
      grind -ring -linarith

end Chained

/-- The `waiting` pointers, as far as they are not stale. -/
structure Waits (l : Links W) : Prop where
  idle : ∀ c, l.shape c = .idle → l.waiting c = none
  called : ∀ i c, l.shape i = .calls .gen c → (∃ w, l.shape c = .waits w) ∨ l.waiting c = none
  waits : ∀ i w, l.shape i = .waits w → i ≠ root → l.waiting i = some w
  process : ∀ w, l.waiting root = some w → l.shape root = .waits w

/-- `processPromise` and `nextChild`. -/
structure Marked (l : Links W) : Prop where
  process : l.attached root = false
  unawaited : ∀ n, l.kind n = .method → l.awaited n = false → l.attached n = false
  next : ∀ z, l.nextChild = some z → l.attached z = true ∧ l.sub z = none
  initial : l.shape root = .idle → l.stack = [] ∧ l.nextChild = none
  /-- A call of a generator that has suspended leaves the end of its chain in `nextChild`. -/
  called : ∀ i g, l.stack.head? = some i → l.shape i = .calls .gen g → l.attached g = true →
    l.isSuspended g = true → ∃ z, l.nextChild = some z ∧ Leads l.sub g z

structure Wf (l : Links W) : Prop where
  process_iff : ∀ i, l.kind i = .process ↔ i = root
  root_lt : root < l.count
  fresh : ∀ i, l.count ≤ i → l.shape i = .done ∧ l.parent i = none ∧ l.attached i = false
  native : l.Stacks
  chained : l.Chained
  waits : l.Waits
  marked : l.Marked

/-- No coroutine awaits `next()` of a generator that waits, by itself or through others, for that
coroutine. -/
def Nested (l : Links W) : Prop :=
  ∀ i rest g, l.stack = i :: rest → l.shape i = .calls .gen g → ¬ Leads l.sub g i

namespace Wf

theorem ne_root (hl : l.Wf) {c : Handle} (hk : l.kind c ≠ .process) : c ≠ root :=
  fun he => hk ((hl.process_iff c).mpr he)

theorem not_idle_of_isSuspended {c : Handle} (hl : l.Wf) (h : l.isSuspended c = true) :
    l.shape c ≠ .idle := by
  intro hi
  have hw := hl.waits.idle c hi
  have hs : l.sub c = none := by
    cases hsc : l.sub c with
    | none => rfl
    | some d =>
      obtain ⟨k, hk⟩ := (hl.chained.sub_iff c d).mp hsc
      rw [hi] at hk
      cases hk
  simp [isSuspended, hw, hs] at h

theorem sub_eq_none {i : Handle} (hl : l.Wf) (h : ∀ k c, l.shape i ≠ .awaits k c) :
    l.sub i = none := by
  cases hs : l.sub i with
  | none => rfl
  | some c =>
    obtain ⟨k, hk⟩ := (hl.chained.sub_iff i c).mp hs
    exact absurd hk (h k c)

theorem not_suspended_of_done {i g : Handle} (hl : l.Wf) (hc : l.shape i = .calls .gen g)
    (hd : l.shape g = .done) : l.isSuspended g = false := by
  have hw := (hl.waits.called i g hc).resolve_left (by simp [hd])
  have hsub := hl.sub_eq_none (i := g) (by simp [hd])
  simp [isSuspended, hw, hsub]

theorem resumed (hl : l.Wf) (hr : l.shape root = .idle ∨ (l.waiting (l.nextChild.getD root)).isSome)
    (hz : (l.shape (l.nextChild.getD root)).resumable) :
    (∃ w, l.shape (l.nextChild.getD root) = .waits w) ∨
      l.nextChild = none ∧ l.shape root = .idle := by
  cases hn : l.nextChild with
  | none =>
    rw [hn] at hr
    rcases hr with hr | hr
    · exact .inr ⟨rfl, hr⟩
    · obtain ⟨w, hw⟩ := Option.isSome_iff_exists.mp hr
      exact .inl ⟨w, hl.waits.process w hw⟩
  | some z =>
    rw [hn] at hr hz
    have hroot : l.shape root ≠ .idle := fun hi => by
      rw [(hl.marked.initial hi).2] at hn
      cases hn
    have hw := hr.resolve_left hroot
    have hsub := (hl.marked.next z hn).2
    simp only [Option.getD_some] at hw hz ⊢
    cases hs : l.shape z with
    | waits w => exact .inl ⟨w, rfl⟩
    | awaits k c =>
      rw [(hl.chained.sub_iff z c).mpr ⟨k, hs⟩] at hsub
      cases hsub
    | idle =>
      rw [hl.waits.idle z hs] at hw
      cases hw
    | active => simp [hs, Shape.resumable] at hz
    | calls k c => simp [hs, Shape.resumable] at hz
    | done => simp [hs, Shape.resumable] at hz

end Wf

namespace Move

theorem native (h : l.Move l') (hl : l.Wf) : l'.Stacks := by
  have hst := hl.native
  cases h with
  | stay => exact hst
  | collect hs ha hk hn hj hd => exact ⟨hst.1, hst.2, hst.3, hst.4, hst.5, hst.6, hst.7⟩
  | returned hs hc hr => exact hst.answer hs
  | wait hs ha =>
    refine hst.pop hs rfl rfl rfl (fun j hj => Function.update_of_ne hj _ _) ?_ ?_
    · simp
    · exact fun j _ k c hj => (hst.called j k c hj).2.2.2
  | @start i rest hs ha =>
    have hnew : l.count ∉ l.stack := fun hm => by
      have := (hst.mem_iff _).mp hm
      simp [(hl.fresh l.count le_rfl).1] at this
    have hi : l.count ≠ i := fun he => hnew (by simp [hs, he])
    refine hst.push (k := .method) hs ha hnew hi rfl ?_ ?_ ?_ ?_ ?_ ?_ ?_
    · exact fun j hj => Function.update_of_ne hj _ _
    · simp [make, turn]
    · simp [make, turn]
    · intro j hji hjn
      simp [make, turn, hji, hjn]
    · simp [make, turn, hi.symm]
    · simp [make, turn]
    · exact fun j hj => Function.update_of_ne hj _ _
  | gen hs ha =>
    refine hst.frame rfl ?_ (Nat.le_succ _) ?_ ?_ ?_
    · exact fun j hj => Function.update_of_ne (Nat.ne_of_lt hj) _ _
    · intro j hj
      refine Function.update_of_ne ?_ _ _
      rintro rfl
      have := (hst.mem_iff _).mp hj
      simp [(hl.fresh l.count le_rfl).1] at this
    · intro j hj
      by_cases hjn : j = l.count
      · simp [make, hjn]
      · have := (hst.mem_iff j).not.mp hj
        simpa [make, hjn, not_or] using this
    · exact fun j hj => Function.update_of_ne (Nat.ne_of_lt hj) _ _
  | @call i g rest hs ha hk hg =>
    have hng : g ∉ l.stack := fun hm => by
      have := (hst.mem_iff _).mp hm
      simp [hg] at this
    have hgi : g ≠ i := fun he => hng (by simp [hs, he])
    have hgc : g < l.count := by
      by_contra hc
      have := (hl.fresh g (not_lt.mp hc)).1
      rw [hg] at this
      cases this
    refine hst.push (k := .gen) hs ha hng hgi rfl (fun _ _ => rfl) ?_ ⟨hgc, le_rfl⟩ ?_ ?_ ?_
      fun _ _ => rfl
    · exact ⟨hk, by simp, hl.chained.idle_parent g hg⟩
    · intro j hji hjg
      simp [turn, hji, hjg]
    · simp [turn, hgi.symm]
    · simp [turn]
  | @join i n rest m hs ha hk hn hj hd hr hm =>
    obtain ⟨A, N, rfl, -⟩ := adopt_spec hm
    refine hst.pop hs rfl rfl rfl (fun j hj => Function.update_of_ne hj _ _) ?_ ?_
    · simp [turn]
    · intro j _ k c hj
      have hcn : c ≠ n := fun he => hst.not_called hs ha hn (he ▸ hj)
      simpa [turn, hcn] using (hst.called j k c hj).2.2.2
  | @awaitNext i g rest m hs hc hr hm =>
    obtain ⟨A, N, rfl, -⟩ := adopt_spec hm
    refine hst.pop hs rfl rfl rfl (fun j hj => Function.update_of_ne hj _ _) ?_ ?_
    · simp [turn]
    · intro j hji k c hj
      have hcg : c ≠ g := fun he => hji (hst.called_once j i k _ c hj (he ▸ hc))
      simpa [turn, hcg] using (hst.called j k c hj).2.2.2
  | yieldUp hs ha hk hp =>
    refine hst.pop hs rfl rfl rfl (fun j hj => Function.update_of_ne hj _ _) ?_ ?_
    · simp
    · exact fun j _ k c hj => (hst.called j k c hj).2.2.2
  | @yieldInto g p rest hs ha hk hp =>
    cases hst.alone hs hp
    refine hst.replace hs rfl (Function.update_self _ _ _) (fun hgp => ?_) fun j hjp hjg => ?_
    · simp [hgp]
    · simp [hjp, hjg]
  | finishUp hs ha hp =>
    refine hst.pop hs rfl rfl rfl (fun j hj => Function.update_of_ne hj _ _) ?_ ?_
    · simp
    · exact fun j _ k c hj => (hst.called j k c hj).2.2.2
  | @finishInto i p rest hs ha hk hp =>
    cases hst.alone hs hp
    refine hst.replace hs rfl (Function.update_self _ _ _) (fun hip => ?_) fun j hjp hji => ?_
    · simp [hip]
    · simp [hjp, hji]
  | resume hs hr hz =>
    refine Stacks.alone_of rfl (Function.update_self _ _ _) fun j hj => ?_
    have := (hst.mem_iff j).not.mp (by simp [hs])
    simpa [hj, not_or] using this

theorem chained (h : l.Move l') (hl : l.Wf) : l'.Chained := by
  have hch := hl.chained
  have hcast : ∀ m m' : Links W, m.Chained → m'.sub = m.sub → m'.shape = m.shape →
      m'.parent = m.parent → m'.kind = m.kind →
      (∀ n, m'.awaited n = false → m.awaited n = false) → m'.Chained := by
    intro m m' hm h1 h2 h3 h4 h5
    refine ⟨?_, ?_, ?_, ?_, ?_, ?_⟩
    · rw [h1, h2]; exact hm.sub_iff
    · rw [h2, h3, h4]; exact hm.awaits_parent
    · rw [h2, h3, h4]; exact hm.parent_awaits
    · rw [h2, h3]; exact hm.idle_parent
    · rw [h3, h4]; exact fun n hk ha => hm.unawaited n hk (h5 n ha)
    · rw [h3]; exact hm.root_parent
  cases h with
  | stay => exact hch
  | @collect i n rest hs ha hk hn hj hd =>
    refine hcast l _ hch rfl rfl rfl rfl fun j hj => ?_
    simp only [Function.update_apply] at hj
    split_ifs at hj
    exact hj
  | returned hs hc hr => exact hch.turn (by simp [hc]) (by simp) (by simp) (by simp [hc])
  | @wait i rest w hs ha =>
    exact hcast (l.turn i (.waits w)) _ (hch.turn (by simp [ha]) (by simp) (by simp) (by simp [ha]))
      rfl rfl rfl rfl fun _ h => h
  | @start i rest hs ha =>
    have hf := hl.fresh l.count le_rfl
    have hi : l.count ≠ i := fun he => by rw [← he, hf.1] at ha; cases ha
    have ht : (l.turn i (.calls .method l.count)).Chained :=
      hch.turn (by simp [ha]) (by simp) (by simp) (by simp [ha])
    refine hcast ((l.turn i (.calls .method l.count)).make .method .active i) _
      (ht.make ⟨?_, hf.2.1⟩ hl.root_lt (by simp)) rfl rfl rfl rfl fun _ h => h
    simpa [turn, hi] using hf.1
  | gen hs ha =>
    have hf := hl.fresh l.count le_rfl
    exact hch.make ⟨hf.1, hf.2.1⟩ hl.root_lt (by simp)
  | @call i g rest hs ha hk hg =>
    have hgi : g ≠ i := fun he => by rw [he, ha] at hg; cases hg
    have ht : (l.turn i (.calls .gen g)).Chained :=
      hch.turn (by simp [ha]) (by simp) (by simp) (by simp [ha])
    refine hcast ((l.turn i (.calls .gen g)).turn g .active) _ (ht.turn ?_ (by simp) (by simp) ?_)
      rfl rfl rfl rfl fun _ h => h
    · simp [turn, hgi, hg]
    · simp [turn, hgi, hg]
  | @join i n rest m hs ha hk hn hj hd hr hm =>
    obtain ⟨A, N, rfl, -⟩ := adopt_spec hm
    have hnr : n ≠ root := hl.ne_root (by simp [hk])
    have hj' : ∀ j, Function.update l.awaited n true j = false → l.awaited j = false := fun j hj => by
      simp only [Function.update_apply] at hj
      split_ifs at hj
      exact hj
    have h1 : ({ l with awaited := Function.update l.awaited n true } : Links W).Chained :=
      hcast l _ hch rfl rfl rfl rfl hj'
    exact h1.suspend (i := i) (c := n) (by simp [ha]) (by simp [ha]) (hch.unawaited n hk hj) hnr
      (hl.not_idle_of_isSuspended hr) (by simp) hk rfl rfl rfl rfl rfl
  | @awaitNext i g rest m hs hc hr hm =>
    obtain ⟨A, N, rfl, -⟩ := adopt_spec hm
    obtain ⟨hk, -, -, hp⟩ := hl.native.called i _ g hc
    have hgr : g ≠ root := hl.ne_root (by simp [hk])
    exact hch.suspend (i := i) (c := g) (by simp [hc]) (by simp [hc]) hp hgr
      (hl.not_idle_of_isSuspended hr) (by simp [hk]) hk rfl rfl rfl rfl rfl
  | @yieldUp g rest hs ha hk hp =>
    exact hcast (l.turn g .idle) _ (hch.turn (by simp [ha]) (by simp) (fun _ => hp) (by simp [ha]))
      rfl rfl rfl rfl fun _ h => h
  | @yieldInto g p rest hs ha hk hp =>
    exact hch.release ha hp rfl (by simp) (.inr rfl) rfl rfl rfl
  | @finishUp i rest hs ha hp =>
    exact hcast (l.turn i .done) _ (hch.turn (by simp [ha]) (by simp) (by simp) (by simp [ha]))
      rfl rfl rfl rfl fun _ h => h
  | @finishInto i p rest hs ha hk hp =>
    exact hch.release ha hp rfl (by simp) (.inl ⟨rfl, rfl, hk⟩) rfl rfl rfl
  | resume hs hr hz =>
    refine hcast (l.turn (l.nextChild.getD root) .active) _ (hch.turn ?_ (by simp) (by simp) ?_)
      rfl rfl rfl rfl fun _ h => h
    · rcases hl.resumed hr hz with ⟨w, hw⟩ | ⟨hn, hi⟩
      · simp [hw]
      · simp [hn, hi]
    · rcases hl.resumed hr hz with ⟨w, hw⟩ | ⟨hn, hi⟩
      · simp [hw]
      · simp [hn, hi]

theorem waits (h : l.Move l') (hl : l.Wf) : l'.Waits := by
  obtain ⟨hidle, hcalled, hwaits, hproc⟩ := hl.waits
  cases h with
  | stay => exact hl.waits
  | collect => exact ⟨hidle, hcalled, hwaits, hproc⟩
  | returned hs hc hr => constructor <;> simp only [turn, Function.update_apply] <;> grind -ring -linarith
  | wait hs ha => constructor <;> simp only [Function.update_apply] <;> grind -ring -linarith
  | start hs ha =>
    have hr := hl.root_lt
    have hcl := hl.native.called
    constructor <;> simp only [make, turn, Function.update_apply] <;> grind -ring -linarith
  | gen hs ha =>
    have hr := hl.root_lt
    have hcl := hl.native.called
    constructor <;> simp only [make, Function.update_apply] <;> grind -ring -linarith
  | call hs ha hk hg => constructor <;> simp only [turn, Function.update_apply] <;> grind -ring -linarith
  | join hs ha hk hn hj hd hr hm =>
    obtain ⟨A, N, rfl, -⟩ := adopt_spec hm
    constructor <;> simp only [turn, Function.update_apply] <;> grind -ring -linarith
  | awaitNext hs hc hr hm =>
    obtain ⟨A, N, rfl, -⟩ := adopt_spec hm
    constructor <;> simp only [turn, Function.update_apply] <;> grind -ring -linarith
  | yieldUp hs ha hk hp => constructor <;> simp only [Function.update_apply] <;> grind -ring -linarith
  | @yieldInto g p rest hs ha hk hp =>
    have hpw := hl.chained.parent_awaits p g hp (.inr hk)
    constructor <;> simp only [Function.update_apply] <;> grind -ring -linarith
  | finishUp hs ha hp => constructor <;> simp only [Function.update_apply] <;> grind -ring -linarith
  | @finishInto i p rest hs ha hk hp =>
    have hpw := hl.chained.parent_awaits p i hp (.inl (by simp [ha]))
    constructor <;> simp only [Function.update_apply] <;> grind -ring -linarith
  | resume hs hr hz =>
    have hno : ∀ j k c, l.shape j ≠ .calls k c := fun j k c hj => by
      have := (hl.native.mem_iff j).mpr (.inr ⟨k, c, hj⟩)
      simp [hs] at this
    constructor <;> simp only [Function.update_apply] <;> grind -ring -linarith

/-- When the top of the stack leaves it, the only call that can be answered next is that of the top. -/
theorem caller_of_head {i b g : Handle} {k : Kind} {rest : List Handle} {sh : Shape W} (hl : l.Wf)
    (hs : l.stack = i :: rest) (hb : rest.head? = some b)
    (hg : Function.update l.shape i sh b = .calls k g) : l.shape b = .calls k i ∧ g = i := by
  cases rest with
  | nil => cases hb
  | cons b' rest =>
    cases hb
    have hne : b ≠ i := fun he => hl.native.not_mem_rest hs (by simp [he])
    rw [Function.update_of_ne hne, hl.native.caller hs] at hg
    obtain ⟨hk, rfl⟩ := Shape.calls.inj hg
    rw [hl.native.caller hs, hk]
    exact ⟨rfl, rfl⟩

theorem reached_eq {i c j : Handle} (hl : l.Wf)
    (hj : Leads (Function.update l.sub i (some c)) c j) (hp : l.parent j = none) : j = c := by
  by_contra hne
  refine hne (Leads.of_start hj fun b hb => ?_).symm
  simp only [Function.update_apply] at hb
  split_ifs at hb
  · cases hb
    exact hne rfl
  · obtain ⟨k, hk⟩ := (hl.chained.sub_iff b j).mp hb
    rw [(hl.chained.awaits_parent b k j hk).2] at hp
    cases hp

/-- The running coroutine `i` suspends in `c`. If `c` has a process promise already, then `nextChild` is
set, and the guard says that it does not lead back to `i`. -/
theorem marked_suspend {i c : Handle} {k : Kind} {rest : List Handle} {w : Handle → Bool} (hl : l.Wf)
    (hs : l.stack = i :: rest) (hi : ∀ k d, l.shape i ≠ .awaits k d) (hcr : c ≠ root)
    (hw : ∀ n, w n = false → l.awaited n = false) (hc : l.kind c = .method → w c = true)
    (hnext : l.attached c = true → ∃ z, l.nextChild = some z ∧ Leads l.sub c z ∧ z ≠ i)
    {m : Links W} (hm : { l with awaited := w }.adopt i c = some m) :
    Marked { m.turn i (.awaits k c) with stack := rest } := by
  obtain ⟨A, N, rfl, hAN⟩ := adopt_spec hm
  have hsi := hl.sub_eq_none hi
  obtain ⟨hproc, hun, hnx, hinit, -⟩ := hl.marked
  have hreach := fun j => reached_eq hl (i := i) (c := c) (j := j)
  have hmono : ∀ a b, l.sub a = some b → Function.update l.sub i (some c) a = some b := by
    intro a b hab
    rw [Function.update_of_ne ?_]
    · exact hab
    · rintro rfl
      rw [hsi] at hab
      cases hab
  have hhead : Function.update l.sub i (some c) i = some c := Function.update_self _ _ _
  constructor
  case process =>
    change A root = false
    rcases hAN with ⟨-, rfl, -⟩ | ⟨-, z, -, -, -, hA⟩
    · exact hproc
    · by_contra hroot
      rcases (hA root).mp (by simpa using hroot) with h | h
      · rw [hproc] at h
        cases h
      · exact hcr (hreach root h hl.chained.root_parent).symm
  case unawaited =>
    intro n hk hn
    change A n = false
    have hn' := hw n hn
    rcases hAN with ⟨-, rfl, -⟩ | ⟨-, z, -, -, -, hA⟩
    · exact hun n hk hn'
    · by_contra hA'
      rcases (hA n).mp (by simpa using hA') with h | h
      · rw [hun n hk hn'] at h
        cases h
      · obtain rfl := hreach n h (hl.chained.unawaited n hk hn')
        change w n = false at hn
        rw [hc hk] at hn
        cases hn
  case next =>
    intro z hz
    change N = some z at hz
    change A z = true ∧ Function.update l.sub i (some c) z = none
    rcases hAN with ⟨hcond, rfl, rfl⟩ | ⟨-, y, hy, hcy, hend, hA⟩
    · obtain ⟨haz, hsz⟩ := hnx z hz
      refine ⟨haz, ?_⟩
      rw [Function.update_of_ne ?_]
      · exact hsz
      · rintro rfl
        rcases hcond with hac | ⟨-, hai⟩
        · obtain ⟨y, hy, -, hne⟩ := hnext hac
          rw [hz] at hy
          cases hy
          exact hne rfl
        · exact absurd (haz.symm.trans hai) (by simp)
    · obtain rfl : y = z := Option.some.inj (hy.symm.trans hz)
      exact ⟨(hA y).mpr (.inr hcy), hend⟩
  case initial =>
    intro hroot
    change Function.update l.shape i (.awaits k c) root = .idle at hroot
    simp only [Function.update_apply] at hroot
    split_ifs at hroot
    have := (hinit hroot).1
    rw [hs] at this
    cases this
  case called =>
    intro b g hb hg hat _
    obtain ⟨-, rfl⟩ := caller_of_head hl hs hb hg
    change A g = true at hat
    change ∃ z, N = some z ∧ Leads (Function.update l.sub g (some c)) g z
    rcases hAN with ⟨hcond, rfl, rfl⟩ | ⟨-, z, hz, hcz, -, -⟩
    · rcases hcond with hac | ⟨-, hai⟩
      · obtain ⟨z, hz, hcz, -⟩ := hnext hac
        exact ⟨z, hz, Leads.head hhead (hcz.mono hmono)⟩
      · exact absurd (hat.symm.trans hai) (by simp)
    · exact ⟨z, hz, Leads.head hhead hcz⟩

theorem marked (h : l.Move l') (hl : l.Wf) (hn : l.Nested) : l'.Marked := by
  obtain ⟨hproc, hun, hnx, hinit, hcalled⟩ := hl.marked
  cases h with
  | stay => exact hl.marked
  | collect hs ha hk hns hj hd =>
    refine ⟨hproc, fun j hkj hjj => hun j hkj ?_, hnx, hinit, hcalled⟩
    simp only [Function.update_apply] at hjj
    split_ifs at hjj
    exact hjj
  | returned hs hc hr =>
    refine ⟨hproc, hun, hnx, ?_, ?_⟩ <;> simp only [turn, Function.update_apply] <;> grind -ring -linarith
  | @wait i rest w hs ha =>
    have hsi := hl.sub_eq_none (i := i) (by simp [ha])
    refine ⟨hproc, hun, ?_, ?_, ?_⟩
    · simp only
      grind -ring -linarith
    · simp only [Function.update_apply]
      grind -ring -linarith
    · intro b g hb hg hat _
      obtain ⟨-, rfl⟩ := caller_of_head hl hs hb hg
      exact ⟨g, if_pos hat, Leads.refl _ g⟩
  | @start i rest hs ha =>
    have hf := hl.fresh l.count le_rfl
    have hr := hl.root_lt
    constructor <;> simp only [make, turn, Function.update_apply] <;> grind -ring -linarith
  | gen hs ha =>
    have hf := hl.fresh l.count le_rfl
    have hr := hl.root_lt
    constructor <;> simp only [make, Function.update_apply] <;> grind -ring -linarith
  | @call i g rest hs ha hk hg =>
    refine ⟨hproc, hun, hnx, ?_, ?_⟩ <;> simp only [turn, Function.update_apply] <;> grind -ring -linarith
  | @join i n rest m hs ha hk hns hj hd hr hm => 
    refine marked_suspend hl hs (by simp [ha]) ?_ ?_ ?_ ?_ hm
    · rintro rfl
      rw [(hl.process_iff root).mpr rfl] at hk
      cases hk
    · intro j hjj
      simp only [Function.update_apply] at hjj
      split_ifs at hjj
      exact hjj
    · simp
    · intro hat
      rw [hun n hk hj] at hat
      cases hat
  | @awaitNext i g rest m hs hc hr hm =>
    have hk := (hl.native.called i _ g hc).1
    refine marked_suspend hl hs (by simp [hc]) ?_ (fun _ h => h) (by simp [hk]) ?_ hm
    · rintro rfl
      rw [(hl.process_iff root).mpr rfl] at hk
      cases hk
    · intro hat
      obtain ⟨z, hz, hgz⟩ := hcalled i g (by simp [hs]) hc hat hr
      refine ⟨z, hz, hgz, ?_⟩
      rintro rfl
      exact hn z rest g hs hc hgz
  | @yieldUp g rest hs ha hk hp =>
    have hsg := hl.sub_eq_none (i := g) (by simp [ha])
    have hgr := hl.process_iff g
    refine ⟨hproc, hun, hnx, ?_, ?_⟩
    · simp only [Function.update_apply]
      grind -ring -linarith
    · intro b g' hb hg _ hsus
      obtain ⟨-, rfl⟩ := caller_of_head hl hs hb hg
      simp [isSuspended, hsg] at hsus
  | @yieldInto g p rest hs ha hk hp =>
    have hgr := hl.process_iff g
    refine ⟨hproc, hun, ?_, ?_, ?_⟩ <;> simp only [Function.update_apply] <;> grind -ring -linarith
  | @finishUp i rest hs ha hp =>
    have hsi := hl.sub_eq_none (i := i) (by simp [ha])
    refine ⟨hproc, hun, hnx, ?_, ?_⟩
    · simp only [Function.update_apply]
      grind -ring -linarith
    · intro b g hb hg _ hsus
      obtain ⟨hbi, rfl⟩ := caller_of_head hl hs hb hg
      have hw := (hl.waits.called b g hbi).resolve_left (by simp [ha])
      simp [isSuspended, hsi, hw] at hsus
  | @finishInto i p rest hs ha hk hp =>
    refine ⟨hproc, hun, ?_, ?_, ?_⟩ <;> simp only [Function.update_apply] <;> grind -ring -linarith
  | resume hs hr hz =>
    refine ⟨hproc, hun, by simp, ?_, ?_⟩ <;> simp only [Function.update_apply] <;> grind -ring -linarith

theorem fresh_suspend {i c : Handle} {k : Kind} {w : Handle → Bool} {m : Links W} (hl : l.Wf) (hi : i < l.count)
    (hc : c < l.count) (hm : { l with awaited := w }.adopt i c = some m) (j : Handle)
    (hj : m.count ≤ j) :
    Function.update m.shape i (.awaits k c) j = .done ∧ m.parent j = none ∧ m.attached j = false := by
  obtain ⟨A, N, rfl, hAN⟩ := adopt_spec hm
  change l.count ≤ j at hj
  obtain ⟨h1, h2, h3⟩ := hl.fresh j hj
  have hji : j ≠ i := (hi.trans_le hj).ne'
  have hjc : j ≠ c := (hc.trans_le hj).ne'
  refine ⟨by simpa [hji] using h1, by simpa [hjc] using h2, ?_⟩
  change A j = false
  rcases hAN with ⟨-, rfl, -⟩ | ⟨-, z, -, -, -, hA⟩
  · exact h3
  · by_contra hA'
    rcases (hA j).mp (by simpa using hA') with h | h
    · rw [h3] at h
      cases h
    · exact hjc (reached_eq hl h h2)

theorem lt_count {i : Handle} (hl : l.Wf) (h : l.shape i ≠ .done) : i < l.count := by
  by_contra hi
  exact h (hl.fresh i (not_lt.mp hi)).1

theorem fresh (h : l.Move l') (hl : l.Wf) (j : Handle) (hj : l'.count ≤ j) :
    l'.shape j = .done ∧ l'.parent j = none ∧ l'.attached j = false := by
  have hf := hl.fresh j
  have hlt := fun i => lt_count (i := i) hl
  cases h with
  | stay => exact hf hj
  | collect => exact hf hj
  | @returned i c k rest hs hc hr =>
    have := hlt i (by simp [hc])
    simp only [turn, Function.update_apply] at hj ⊢
    grind -ring -linarith
  | @wait i rest w hs ha =>
    have := hlt i (by simp [ha])
    simp only [Function.update_apply] at hj ⊢
    grind -ring -linarith
  | @start i rest hs ha =>
    have := hlt i (by simp [ha])
    simp only [make, turn, Function.update_apply] at hj ⊢
    grind -ring -linarith
  | gen hs ha =>
    simp only [make, Function.update_apply] at hj ⊢
    grind -ring -linarith
  | @call i g rest hs ha hk hg =>
    have := hlt i (by simp [ha])
    have := hlt g (by simp [hg])
    simp only [turn, Function.update_apply] at hj ⊢
    grind -ring -linarith
  | @join i n rest m hs ha hk hns hj' hd hr hm =>
    exact fresh_suspend hl (hlt i (by simp [ha])) (hlt n hd) hm j hj
  | @awaitNext i g rest m hs hc hr hm =>
    exact fresh_suspend hl (hlt i (by simp [hc])) (hl.native.called i _ g hc).2.2.1 hm j hj
  | @yieldUp g rest hs ha hk hp =>
    have := hlt g (by simp [ha])
    simp only [Function.update_apply] at hj ⊢
    grind -ring -linarith
  | @yieldInto g p rest hs ha hk hp =>
    have := hlt g (by simp [ha])
    have := hlt p (by simp [hl.chained.parent_awaits p g hp (.inr hk)])
    simp only [Function.update_apply] at hj ⊢
    grind -ring -linarith
  | @finishUp i rest hs ha hp =>
    have := hlt i (by simp [ha])
    simp only [Function.update_apply] at hj ⊢
    grind -ring -linarith
  | @finishInto i p rest hs ha hk hp =>
    have := hlt i (by simp [ha])
    have := hlt p (by simp [hl.chained.parent_awaits p i hp (.inl (by simp [ha]))])
    simp only [Function.update_apply] at hj ⊢
    grind -ring -linarith
  | resume hs hr hz =>
    have := hlt (l.nextChild.getD root) fun hd => by simp [hd, Shape.resumable] at hz
    simp only [Function.update_apply] at hj ⊢
    grind -ring -linarith

theorem process_iff (h : l.Move l') (hl : l.Wf) : root < l'.count ∧
    ∀ i, l'.kind i = .process ↔ i = root := by
  have hr := hl.root_lt
  have hp := hl.process_iff
  cases h with
  | start | gen =>
    refine ⟨hr.trans (Nat.lt_succ_self _), fun i => ?_⟩
    simp only [make, turn, Function.update_apply]
    grind -ring -linarith
  | join hs ha hk hns hj' hd hr' hm | awaitNext hs hc hr' hm =>
    obtain ⟨A, N, rfl, -⟩ := adopt_spec hm
    exact ⟨hr, hp⟩
  | _ => exact ⟨hr, hp⟩

/-- **Every move from a well-formed state that closes no circle leads to one.** -/
theorem wf (h : l.Move l') (hl : l.Wf) (hn : l.Nested) : l'.Wf where
  process_iff := (h.process_iff hl).2
  root_lt := (h.process_iff hl).1
  fresh := h.fresh hl
  native := h.native hl
  chained := h.chained hl
  waits := h.waits hl
  marked := h.marked hl hn

end Move
end Links

/-! ## Runs -/

namespace State
variable {σ V W : Type}

theorem shape_goto (s : State σ V W) (i : Handle) (c : Ctl σ V W) :
    (s.goto i c).links.shape i = c.shape := by
  rw [links_goto]
  exact Function.update_self _ _ _

theorem shape_goto_make {s : State σ V W} {i : Handle} (hi : i < s.count) (c : Ctl σ V W)
    (p : PromiseBase σ V W) : ((s.goto i c).make p).links.shape i = c.shape := by
  simp [links, make, goto, update, hi.ne]

/-- The coroutine that is about to suspend in a task, and this task: what `updateSuspend` will be called
with. -/
def suspending (code : Code σ V W) (s : State σ V W) : Option (Handle × Handle) :=
  match s.stack with
  | [] => none
  | i :: _ =>
      match (s.promises i).ctl with
      | .code c =>
          match code c with
          | .join n _ =>
              if s.mayJoin n && !s.atFinalSuspend n && s.isSuspended n then some (i, n) else none
          | _ => none
      | .resuming g _ => if s.isSuspended g then some (i, g) else none
      | _ => none

/-- What the running coroutine does after a step, by what it did. -/
theorem Step.head_shape {code : Code σ V W} {s t : State σ V W} {l : Label V} {out : List (Event V)}
    {i : Handle} {rest : List Handle} (h : s.Step code l t out) (hw : s.links.Wf)
    (hs : s.stack = i :: rest) :
    t.links.shape i = .active ∨ (∃ k c, t.links.shape i = .calls k c) ∨
      (∃ k c, t.links.shape i = .awaits k c ∧ s.suspending code = some (i, c)) ∨
      (∃ v c w k, l = .tick false v ∧ (s.promises i).ctl = .code c ∧ code c = .await w k ∧
        t.links.shape i = .waits w) ∨
      (∃ c a k, (s.promises i).ctl = .code c ∧ code c = .yield a k ∧ t.links.shape i = .idle) ∨
      ∃ c a, (s.promises i).ctl = .code c ∧ code c = .ret a ∧ t.links.shape i = .done := by
  cases h with
  | act hs' hc ho | ready hs' hc ho | collect hs' hc ho | called hs' hc | answer hs' hc =>
    cases hs.symm.trans hs'
    exact .inl (shape_goto _ i _)
  | @wait _ _ v c w k hs' hc ho =>
    cases hs.symm.trans hs'
    exact .inr (.inr (.inr (.inl ⟨v, c, w, k, rfl, hc, ho, shape_goto _ i (.waiting w k)⟩)))
  | @start _ _ _ _ _ body k hs' hc ho =>
    cases hs.symm.trans hs'
    have hi := Links.Move.lt_count hw (i := i) (by simp [shape_of_ctl hc, Ctl.shape])
    exact .inr (.inl ⟨_, _, shape_goto_make hi (.calling s.count k) _⟩)
  | @join _ n _ _ _ _ k u hs' hc ho hm hd hu =>
    cases hs.symm.trans hs'
    rw [ready_iff, not_or, Bool.not_eq_false, ← atFinalSuspend_iff, Bool.not_eq_true] at hd
    obtain ⟨hfinal, hsus⟩ : s.atFinalSuspend n = false ∧ s.isSuspended n = true := hd
    refine .inr (.inr (.inl ⟨_, _, shape_goto u i (.joining n k), ?_⟩))
    simp [suspending, hs, hc, ho, hm.1, hfinal, hsus]
  | @gen _ _ _ _ _ body k hs' hc ho =>
    cases hs.symm.trans hs'
    have hi := Links.Move.lt_count hw (i := i) (by simp [shape_of_ctl hc, Ctl.shape])
    exact .inl (shape_goto_make hi (.code (k s.count)) _)
  | @next _ g _ _ _ _ x k hs' hc ho hk hg =>
    cases hs.symm.trans hs'
    have hgi : i ≠ g := fun he => by
      rw [he, hg] at hc
      cases hc
    refine .inr (.inl ⟨.gen, g, ?_⟩)
    change ((s.goto i (.resuming g k)).goto g (.code x)).links.shape i = _
    rw [links_goto, links_goto]
    simp [Links.turn, hgi, Ctl.shape]
  | @awaitNext _ g _ _ _ k u hs' hc hn hu =>
    cases hs.symm.trans hs'
    refine .inr (.inr (.inl ⟨_, _, shape_goto u i (.nexting g k), ?_⟩))
    simp [suspending, hs, hc, hn]
  | @yieldUp _ _ _ _ a c k hs' hc ho hk hp =>
    cases hs.symm.trans hs'
    refine .inr (.inr (.inr (.inr (.inl ⟨c, a, k, hc, ho, ?_⟩))))
    change (s.yielding i a k).links.shape i = _
    rw [links_yielding]
    exact Function.update_self _ _ _
  | @yieldInto _ p _ _ _ a c k x _ hs' hc ho hk hp hr =>
    cases hs.symm.trans hs'
    have hpi := hw.chained.parent_awaits p i hp (.inr hk)
    have hne : i ≠ p := fun he => by
      rw [← he, shape_of_ctl hc] at hpi
      cases hpi
    refine .inr (.inr (.inr (.inr (.inl ⟨c, a, k, hc, ho, ?_⟩))))
    rw [links_continueAt, clearChild, links_setSub, links_yielding]
    simp [Links.turn, hne]
  | @returnUp _ _ _ _ a c hs' hc ho hk hp =>
    cases hs.symm.trans hs'
    refine .inr (.inr (.inr (.inr (.inr ⟨c, a, hc, ho, ?_⟩))))
    change (s.returning i a).links.shape i = _
    rw [links_returning]
    exact Function.update_self _ _ _
  | @returnInto _ p _ _ _ a c x _ hs' hc ho hk hp hr =>
    cases hs.symm.trans hs'
    have hpi := hw.chained.parent_awaits p i hp (.inl (by simp [shape_of_ctl hc, Ctl.shape]))
    have hne : i ≠ p := fun he => by
      rw [← he, shape_of_ctl hc] at hpi
      cases hpi
    refine .inr (.inr (.inr (.inr (.inr ⟨c, a, hc, ho, ?_⟩))))
    rw [links_continueAt, clearChild, links_setSub, links_returning]
    simp [Links.turn, hne]
  | @finish _ _ _ _ a c hs' hc ho hk =>
    cases hs.symm.trans hs'
    exact .inr (.inr (.inr (.inr (.inr ⟨c, a, hc, ho, shape_goto s i .done⟩))))
  | resume hs' => cases hs.symm.trans hs'

theorem init_wf (body : σ) : (init body : State σ V W).links.Wf := by
  have hshape : ∀ i, (init body : State σ V W).links.shape i = if i = root then .idle else .done := by
    intro i
    by_cases hi : i = root <;> simp [init, links, blank, hi, Ctl.shape]
  have hkind : ∀ i, (init body : State σ V W).links.kind i = if i = root then .process else .method := by
    intro i
    by_cases hi : i = root <;> simp [init, links, blank, hi]
  have hwaiting : ∀ i, (init body : State σ V W).links.waiting i = none := by
    intro i
    by_cases hi : i = root <;> simp [init, links, blank, hi]
  have hsub : ∀ i, (init body : State σ V W).links.sub i = none := by
    intro i
    by_cases hi : i = root <;> simp [init, links, blank, hi]
  have hattached : ∀ i, (init body : State σ V W).links.attached i = false := by
    intro i
    by_cases hi : i = root <;> simp [init, links, blank, hi]
  have hparent : ∀ i, (init body : State σ V W).links.parent i = none := by
    intro i
    by_cases hi : i = root <;> simp [init, links, blank, hi]
  have hstack : (init body : State σ V W).links.stack = [] := rfl
  have hnext : (init body : State σ V W).links.nextChild = none := rfl
  refine ⟨?_, Nat.one_pos, ?_, ?_, ?_, ?_, ?_⟩
  · intro i
    rw [hkind]
    split_ifs <;> simp [*]
  · intro i hi
    have hne : i ≠ root := Nat.ne_of_gt hi
    exact ⟨by rw [hshape, if_neg hne], hparent i, hattached i⟩
  · constructor <;> simp only [hshape, hstack] <;> grind -ring -linarith
  · constructor <;> simp only [hshape, hsub, hparent] <;> grind -ring -linarith
  · constructor <;> simp only [hshape, hwaiting] <;> grind -ring -linarith
  · constructor <;> simp only [hshape, hattached, hstack, hnext] <;> grind -ring -linarith

/-- The guard of the runs considered: no step takes up a task in use, or suspends a coroutine in a circle. -/
def Nested (code : Code σ V W) (s : State σ V W) (_ : Label V) : Prop :=
  s.shares code = false ∧ s.links.Nested

/-- An executable test of the guard. -/
def nested (code : Code σ V W) (s : State σ V W) (_ : Label V) : Bool :=
  !s.shares code &&
    match s.stack with
    | [] => true
    | i :: _ =>
        match (s.promises i).ctl with
        | .resuming g _ => endsWithout s.links.sub i s.count g
        | _ => true

theorem nested_sound {code : Code σ V W} {s : State σ V W} {l : Label V} (h : s.nested code l = true) :
    s.Nested code l := by
  rw [nested, Bool.and_eq_true, Bool.not_eq_true'] at h
  obtain ⟨hu, h⟩ := h
  refine ⟨hu, fun i rest g hs hc => ?_⟩
  have hs' : s.stack = i :: rest := hs
  simp only [hs'] at h
  split at h
  case h_1 g' k hg =>
    cases (shape_of_ctl hg).symm.trans hc
    exact not_leads_of_endsWithout h
  case h_2 hno =>
    exfalso
    cases hctl : (s.promises i).ctl with
    | resuming g' k => exact hno g' k hctl
    | code _ | calling _ _ | waiting _ _ | joining _ _ | nexting _ _ | idle _ | done =>
      rw [shape_of_ctl hctl] at hc
      cases hc

end State
end Eslang.Coroutine
