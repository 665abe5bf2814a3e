import Eslang.Coroutine.Yields

/-! # Tasks that are awaited by the coroutine that made them

A `MethodTask` or a `GenTask` is an object in the frame of the coroutine that made it, and in ordinary
programs this coroutine is the one that awaits it. `SelfMade` is what then holds of the pointers: whoever calls or
awaits a task made it, so the chain of `subCoroutineChild` runs down the tree of makers, `nextChild` is never
set while a coroutine executes its own code, and no task is taken up while it is in use (`SelfMade.not_shares`). -/
namespace Eslang.Coroutine
set_option autoImplicit false
open Lib

namespace Links
variable {W : Type} {l l' : Links W}

/-- Coroutine `i` is in the call of task `c`, or suspended in it. -/
def InTask (l : Links W) (i c : Handle) : Prop :=
  ∃ k, l.shape i = .calls k c ∨ l.shape i = .awaits k c

structure SelfMade (l : Links W) : Prop where
  older : ∀ x, x ≠ root → l.creator x < x
  tasks : ∀ i c, l.InTask i c → l.creator c = i
  /-- A method is not awaited before its call has returned. -/
  eager : ∀ i c, l.shape i = .calls .method c → l.awaited c = false
  /-- The process promise is handed down from the process. -/
  attached : ∀ x, l.attached x = true → l.creator x = root ∨ l.attached (l.creator x) = true
  next : ∀ z, l.nextChild = some z → l.stack = [] ∨
    ∃ i rest g, l.stack = i :: rest ∧ l.shape i = .calls .gen g ∧ l.attached g = true ∧ l.isSuspended g = true

/-- In the move from `l` to `l'` the running coroutine calls or awaits a task of its own, if any. -/
def Mine (l l' : Links W) : Prop :=
  ∀ i rest c, l.stack = i :: rest → l.shape i = .active → l'.InTask i c → l'.creator c = i

namespace Wf

theorem of_inTask (hl : l.Wf) {i c : Handle} (h : l.InTask i c) : c < l.count ∧ c ≠ root := by
  obtain ⟨k, h | h⟩ := h
  · obtain ⟨hk, hne, hlt, -⟩ := hl.native.called i k c h
    exact ⟨hlt, hl.ne_root (by rw [hk]; exact hne)⟩
  · obtain ⟨-, hp⟩ := hl.chained.awaits_parent i k c h
    refine ⟨?_, ?_⟩
    · by_contra hc
      rw [(hl.fresh c (Nat.not_lt.mp hc)).2.1] at hp
      cases hp
    · rintro rfl
      rw [hl.chained.root_parent] at hp
      cases hp

end Wf

namespace SelfMade

theorem lt (ho : l.SelfMade) (hl : l.Wf) {i c : Handle} (h : l.InTask i c) : i < c := by
  rw [← ho.tasks i c h]
  exact ho.older c (hl.of_inTask h).2

theorem sub_lt (ho : l.SelfMade) (hl : l.Wf) {i c : Handle} (h : l.sub i = some c) : i < c := by
  obtain ⟨k, hk⟩ := (hl.chained.sub_iff i c).mp h
  exact ho.lt hl ⟨k, .inr hk⟩

theorem le_of_leads (ho : l.SelfMade) (hl : l.Wf) {a z : Handle} (h : Leads l.sub a z) : a ≤ z := by
  induction h with
  | refl => exact Nat.le_refl _
  | tail _ hb ih => exact Nat.le_trans ih (Nat.le_of_lt (ho.sub_lt hl hb))

/-- Where each awaits its own tasks, nothing waits for itself. -/
theorem nested (ho : l.SelfMade) (hl : l.Wf) : l.Nested := by
  intro i rest g hs hc hlead
  exact absurd (ho.le_of_leads hl hlead) (Nat.not_le.mpr (ho.lt hl ⟨_, .inl hc⟩))

/-- While a coroutine executes its own code `nextChild` is not set. -/
theorem nextChild_eq_none (ho : l.SelfMade) {i : Handle} {rest : List Handle} (hs : l.stack = i :: rest)
    (ha : l.shape i = .active) : l.nextChild = none := by
  cases hn : l.nextChild with
  | none => rfl
  | some z =>
    rcases ho.next z hn with h | ⟨j, rest', g, h, hc, -⟩
    · simp [hs] at h
    · cases hs.symm.trans h
      simp [ha] at hc

end SelfMade

namespace Move

theorem inTask (h : l.Move l') {j c : Handle} (hj : l'.InTask j c) :
    l.InTask j c ∨ ∃ rest, l.stack = j :: rest ∧ l.shape j = .active := by
  have hkeep : ∀ {i : Handle} {sh : Shape W}, l'.shape = Function.update l.shape i sh →
      (∀ k, sh ≠ .calls k c ∧ sh ≠ .awaits k c) → l.InTask j c := by
    intro i sh hsh hno
    obtain ⟨k, hk⟩ := hj
    rw [hsh] at hk
    by_cases hi : j = i
    · rw [hi, Function.update_self] at hk
      exact absurd hk (by simp [hno k])
    · rw [Function.update_of_ne hi] at hk
      exact ⟨k, hk⟩
  have hnew : ∀ {i : Handle} {rest : List Handle}, l.stack = i :: rest → l.shape i = .active → j = i →
      ∃ rest, l.stack = j :: rest ∧ l.shape j = .active := by
    rintro i rest hs ha rfl
    exact ⟨rest, hs, ha⟩
  cases h with
  | stay => exact .inl hj
  | collect => exact .inl hj
  | returned hs hc hr => exact .inl (hkeep rfl (by simp))
  | wait hs ha => exact .inl (hkeep rfl (by simp))
  | @start i rest hs ha =>
    by_cases hi : j = i
    · exact .inr (hnew hs ha hi)
    · obtain ⟨k, hk⟩ := hj
      simp only [make, turn, Function.update_apply] at hk
      split_ifs at hk
      · simp at hk
      · exact .inl ⟨k, hk⟩
  | gen hs ha => exact .inl (hkeep rfl (by simp))
  | @call i g rest hs ha hk hg =>
    by_cases hi : j = i
    · exact .inr (hnew hs ha hi)
    · obtain ⟨k, hk⟩ := hj
      simp only [turn, Function.update_apply, hi, if_false] at hk
      split_ifs at hk
      · simp at hk
      · exact .inl ⟨k, hk⟩
  | @join i n rest m hs ha hk hn hj' hd hr hm =>
    by_cases hi : j = i
    · exact .inr (hnew hs ha hi)
    · obtain ⟨A, N, rfl, -⟩ := adopt_spec hm
      obtain ⟨k, hk⟩ := hj
      simp only [turn, Function.update_apply, hi, if_false] at hk
      exact .inl ⟨k, hk⟩
  | @awaitNext i g rest m hs hc hr hm =>
    obtain ⟨A, N, rfl, -⟩ := adopt_spec hm
    obtain ⟨k, hk⟩ := hj
    simp only [turn, Function.update_apply] at hk
    split_ifs at hk with hi
    · -- the call of `next()` becomes a suspension in the same generator
      simp only [false_or, Shape.awaits.injEq] at hk
      obtain ⟨rfl, rfl⟩ := hk
      exact .inl ⟨_, .inl (hi ▸ hc)⟩
    · exact .inl ⟨k, hk⟩
  | yieldUp hs ha hk hp => exact .inl (hkeep rfl (by simp))
  | yieldInto hs ha hk hp | finishInto hs ha hk hp =>
    obtain ⟨k, hk⟩ := hj
    simp only [Function.update_apply] at hk
    split_ifs at hk
    · simp at hk
    · simp at hk
    · exact .inl ⟨k, hk⟩
  | finishUp hs ha hp => exact .inl (hkeep rfl (by simp))
  | resume hs hr hz => exact .inl (hkeep rfl (by simp))

theorem creator (h : l.Move l') : l'.creator = l.creator ∧ l'.count = l.count ∨
    ∃ i rest, l.stack = i :: rest ∧ l.shape i = .active ∧
      l'.creator = Function.update l.creator l.count i ∧ l'.count = l.count + 1 := by
  cases h with
  | start hs ha => exact .inr ⟨_, _, hs, ha, rfl, rfl⟩
  | gen hs ha => exact .inr ⟨_, _, hs, ha, rfl, rfl⟩
  | join hs ha hk hn hj hd hr hm | awaitNext hs hc hr hm =>
    obtain ⟨A, N, rfl, -⟩ := adopt_spec hm
    exact .inl ⟨rfl, rfl⟩
  | _ => exact .inl ⟨rfl, rfl⟩

theorem creator_of_lt (h : l.Move l') {c : Handle} (hc : c < l.count) : l'.creator c = l.creator c := by
  rcases h.creator with ⟨he, -⟩ | ⟨i, rest, -, -, he, -⟩
  · rw [he]
  · rw [he, Function.update_of_ne (Nat.ne_of_lt hc)]

/-! ## What is kept -/

theorem older (h : l.Move l') (hl : l.Wf) (ho : l.SelfMade) (x : Handle) (hx : x ≠ root) :
    l'.creator x < x := by
  rcases h.creator with ⟨he, -⟩ | ⟨i, rest, hs, ha, he, -⟩
  · rw [he]
    exact ho.older x hx
  · by_cases hxn : x = l.count
    · have hi : i < l.count := lt_count hl (by simp [ha])
      rw [he, hxn, Function.update_self]
      exact hi
    · rw [he, Function.update_of_ne hxn]
      exact ho.older x hx

theorem tasks (h : l.Move l') (hl : l.Wf) (ho : l.SelfMade) (hm : Mine l l') (i c : Handle)
    (hic : l'.InTask i c) : l'.creator c = i := by
  rcases h.inTask hic with hold | ⟨rest, hs, ha⟩
  · rw [h.creator_of_lt (hl.of_inTask hold).1]
    exact ho.tasks i c hold
  · exact hm i rest c hs ha hic

theorem eager (h : l.Move l') (hl : l.Wf) (ho : l.SelfMade) (i c : Handle)
    (hic : l'.shape i = .calls .method c) : l'.awaited c = false := by
  have hold := ho.eager
  have hcl := hl.native.called
  cases h with
  | stay => exact hold i c hic
  | @collect j n rest hs ha hk hn hj hd =>
    have hne : c ≠ n := fun he => hl.native.not_called hs ha hn (he ▸ hic)
    simpa [hne] using hold i c hic
  | @join j n rest m hs ha hk hn hj hd hr hm =>
    obtain ⟨A, N, rfl, -⟩ := adopt_spec hm
    have hic' : l.shape i = .calls .method c := by
      simp only [turn, Function.update_apply] at hic
      split_ifs at hic
      exact hic
    have hne : c ≠ n := fun he => hl.native.not_called hs ha hn (he ▸ hic')
    simpa [turn, hne] using hold i c hic'
  | @start j rest hs ha =>
    simp only [make, turn, Function.update_apply] at hic ⊢
    grind -ring -linarith
  | @gen j rest hs ha =>
    simp only [make, Function.update_apply] at hic ⊢
    grind -ring -linarith
  | awaitNext hs hc hr hm =>
    obtain ⟨A, N, rfl, -⟩ := adopt_spec hm
    simp only [turn, Function.update_apply] at hic ⊢
    grind -ring -linarith
  | returned hs hc hr | call hs ha hk hg =>
    simp only [turn, Function.update_apply] at hic ⊢
    grind -ring -linarith
  | wait hs ha | yieldUp hs ha hk hp | yieldInto hs ha hk hp | finishUp hs ha hp | finishInto hs ha hk hp
  | resume hs hr hz =>
    simp only [Function.update_apply] at hic ⊢
    grind -ring -linarith

/-- The chain below the task `c`, once `i` is suspended in it, leads away from `i`. -/
theorem le_of_leads_adopted (ho : l.SelfMade) (hl : l.Wf) {i c y : Handle} (hlt : i < c)
    (h : Leads (Function.update l.sub i (some c)) c y) : c ≤ y := by
  induction h with
  | refl => exact Nat.le_refl _
  | @tail y z _ hyz ih =>
    by_cases hyi : y = i
    · exact absurd ih (Nat.not_le.mpr (hyi ▸ hlt))
    · rw [Function.update_of_ne hyi] at hyz
      exact Nat.le_trans ih (Nat.le_of_lt (ho.sub_lt hl hyz))

/-- The process promise goes from a coroutine to the task that it suspends in, and down the chain from
there. -/
theorem attached_handed {i c : Handle} {A : Handle → Bool} (ho : l.SelfMade) (hl : l.Wf) (hc : l.creator c = i)
    (hlt : i < c) (hp : l.kind i = .process ∨ l.attached i = true)
    (hA : ∀ j, A j = true ↔ l.attached j = true ∨ Leads (Function.update l.sub i (some c)) c j) (x : Handle)
    (hx : A x = true) : l.creator x = root ∨ A (l.creator x) = true := by
  rcases (hA x).mp hx with hx | hx
  · exact (ho.attached x hx).imp id fun h => (hA _).mpr (.inl h)
  · rcases Relation.ReflTransGen.cases_tail hx with hxc | ⟨y, hy, hyx⟩
    · rw [hxc, hc]
      rcases hp with hp | hp
      · exact .inl ((hl.process_iff i).mp hp)
      · exact .inr ((hA i).mpr (.inl hp))
    · -- `x` is awaited by `y`, which is on the chain and made `x`
      have hyi : y ≠ i := fun he => Nat.not_le.mpr hlt (he ▸ le_of_leads_adopted ho hl hlt hy)
      rw [Function.update_of_ne hyi] at hyx
      obtain ⟨k, hk⟩ := (hl.chained.sub_iff y x).mp hyx
      rw [ho.tasks y x ⟨k, .inr hk⟩]
      exact .inr ((hA y).mpr (.inr hy))

theorem mine_join {i n : Handle} {rest : List Handle} {m : Links W} (hl : l.Wf) (ho : l.SelfMade)
    (hs : l.stack = i :: rest) (ha : l.shape i = .active) (hk : l.kind n = .method)
    (hm : { l with awaited := Function.update l.awaited n true }.adopt i n = some m)
    (hmine : Mine l { m.turn i (.awaits .method n) with stack := rest }) : l.creator n = i ∧ i < n := by
  have hc := hmine i rest n hs ha ⟨.method, .inr (Function.update_self _ _ _)⟩
  obtain ⟨A, N, rfl, -⟩ := adopt_spec hm
  have hc : l.creator n = i := hc
  exact ⟨hc, hc ▸ ho.older n (hl.ne_root (by simp [hk]))⟩

theorem attached (h : l.Move l') (hl : l.Wf) (ho : l.SelfMade) (hm : Mine l l') (x : Handle)
    (hx : l'.attached x = true) : l'.creator x = root ∨ l'.attached (l'.creator x) = true := by
  have hold := ho.attached
  have hfresh := hl.fresh
  cases h with
  | @start i rest hs ha | @gen i rest hs ha =>
    have hi : i < l.count := lt_count hl (by simp [ha])
    have hxn : x ≠ l.count := by
      rintro rfl
      simp [make, turn] at hx
    have hxlt : x < l.count := by
      by_contra hge
      have hnone := (hfresh x (Nat.not_lt.mp hge)).2.2
      simp only [make, turn, Function.update_of_ne hxn] at hx
      simp [hnone] at hx
    have hcr : l.creator x < l.count := by
      by_cases hxr : x = root
      · have hroot := hl.marked.process
        simp only [make, turn, Function.update_of_ne hxn] at hx
        rw [hxr, hroot] at hx
        cases hx
      · exact Nat.lt_trans (ho.older x hxr) hxlt
    simp only [make, turn, Function.update_of_ne hxn, Function.update_of_ne (Nat.ne_of_lt hcr)] at hx ⊢
    exact hold x hx
  | @join i n rest m hs ha hk hn hj hd hr hmm =>
    obtain ⟨hc, hlt⟩ := mine_join hl ho hs ha hk hmm hm
    obtain ⟨A, N, rfl, ⟨-, rfl, -⟩ | ⟨⟨-, hp⟩, z, -, -, -, hA⟩⟩ := adopt_spec hmm
    · exact hold x hx
    · exact attached_handed ho hl hc hlt hp hA x hx
  | @awaitNext i g rest m hs hc hr hmm =>
    have hin : l.InTask i g := ⟨_, .inl hc⟩
    obtain ⟨A, N, rfl, ⟨-, rfl, -⟩ | ⟨⟨-, hp⟩, z, -, -, -, hA⟩⟩ := adopt_spec hmm
    · exact hold x hx
    · exact attached_handed ho hl (ho.tasks i g hin) (ho.lt hl hin) hp hA x hx
  | _ => exact hold x hx

/-- A suspended coroutine that has the process promise leaves the stack: it was the last one on it, or
its caller is in `next()` of it. -/
theorem next_pop (hl : l.Wf) (ho : l.SelfMade) {i : Handle} {rest : List Handle} (hs : l.stack = i :: rest)
    (hi : l.kind i = .process ∨ l.attached i = true) (hst : l'.stack = rest)
    (hsh : ∀ b, b ≠ i → l'.shape b = l.shape b) (hA : l.attached i = true → l'.attached i = true)
    (hsus : l'.isSuspended i = true) : l'.stack = [] ∨
    ∃ b rest g, l'.stack = b :: rest ∧ l'.shape b = .calls .gen g ∧ l'.attached g = true ∧
      l'.isSuspended g = true := by
  cases rest with
  | nil => exact .inl hst
  | cons b rest =>
    have hcall := hl.native.caller hs
    have hne : b ≠ i := by
      rintro rfl
      exact hl.native.not_mem_rest hs (by simp)
    have hnp := (hl.native.called b _ i hcall).2.1
    have hatt := hi.resolve_left hnp
    have hk : l.kind i = .gen := by
      cases hk : l.kind i with
      | process => exact absurd hk hnp
      | gen => rfl
      | method =>
        have hun := hl.marked.unawaited i hk (ho.eager b i (hk ▸ hcall))
        simp [hatt] at hun
    rw [hk] at hcall
    exact .inr ⟨b, rest, i, hst, (hsh b hne).trans hcall, hA hatt, hsus⟩

theorem next (h : l.Move l') (hl : l.Wf) (ho : l.SelfMade) (z : Handle)
    (hz : l'.nextChild = some z) : l'.stack = [] ∨
    ∃ i rest g, l'.stack = i :: rest ∧ l'.shape i = .calls .gen g ∧ l'.attached g = true ∧
      l'.isSuspended g = true := by
  -- moves of a coroutine that executes its own code do not find `nextChild` set
  have hnone : ∀ {i : Handle} {rest : List Handle}, l.stack = i :: rest → l.shape i = .active →
      l.nextChild ≠ some z := fun hs ha h => by simp [ho.nextChild_eq_none hs ha] at h
  cases h with
  | stay hs ha | collect hs ha | start hs ha | gen hs ha | call hs ha | yieldUp hs ha | yieldInto hs ha
  | finishUp hs ha | finishInto hs ha => exact absurd hz (hnone hs ha)
  | @returned i c k rest hs hc hr =>
    rcases ho.next z hz with h | ⟨j, rest', g, h, hg, -, hsus⟩
    · simp [hs] at h
    · cases hs.symm.trans h
      cases hc.symm.trans hg
      simp [hr rfl] at hsus
  | @wait i rest w hs ha =>
    have hi : l.attached i = true := by
      by_contra hno
      simp only [hno] at hz
      exact hnone hs ha hz
    refine next_pop hl ho hs (.inr hi) rfl (fun b hb => Function.update_of_ne hb _ _) (fun h => h) ?_
    simp [isSuspended]
  | @join i n rest m hs ha hk hn hj hd hr hm =>
    obtain ⟨A, N, rfl, ⟨-, -, rfl⟩ | ⟨⟨-, hp⟩, y, -, -, -, hA⟩⟩ := adopt_spec hm
    · exact absurd hz (hnone hs ha)
    · refine next_pop hl ho hs hp rfl (fun b hb => Function.update_of_ne hb _ _)
        (fun h => (hA i).mpr (.inl h)) ?_
      simp [isSuspended, turn]
  | @awaitNext i g rest m hs hc hr hm =>
    have hgi := ho.tasks i g ⟨_, .inl hc⟩
    obtain ⟨A, N, rfl, ⟨-, hA, rfl⟩ | ⟨⟨-, hp⟩, y, -, -, -, hA⟩⟩ := adopt_spec hm
    · -- `nextChild` was set in the call of `next()`, so the generator has the process promise
      rcases ho.next z hz with h | ⟨j, rest', g', h, hg, hatt, -⟩
      · simp [hs] at h
      · cases hs.symm.trans h
        cases hc.symm.trans hg
        have hi : l.kind i = .process ∨ l.attached i = true := by
          rw [← hgi, hl.process_iff]
          exact ho.attached g hatt
        refine next_pop hl ho hs hi rfl (fun b hb => Function.update_of_ne hb _ _) (fun h => hA ▸ h) ?_
        simp [isSuspended, turn]
    · refine next_pop hl ho hs hp rfl (fun b hb => Function.update_of_ne hb _ _)
        (fun h => (hA i).mpr (.inl h)) ?_
      simp [isSuspended, turn]
  | resume => cases hz

theorem selfMade (h : l.Move l') (hl : l.Wf) (ho : l.SelfMade) (hm : Mine l l') : l'.SelfMade where
  older := h.older hl ho
  tasks := h.tasks hl ho hm
  eager := h.eager hl ho
  attached := h.attached hl ho hm
  next := h.next hl ho

end Move

/-! ## Tasks in use -/

/-- A generator between two yields has its consumer, and a method that was awaited its awaiter. -/
structure Held (l : Links W) : Prop where
  gens : l.Owned
  methods : ∀ n, l.kind n = .method →
    l.shape n ≠ .idle ∧ (l.awaited n = true → l.shape n ≠ .done → ∃ p, l.parent n = some p)

theorem Held.suspended_of_not_done (hh : l.Held) (hl : l.Wf) {n : Handle} (hk : l.kind n = .method)
    (hn : n ∉ l.stack) (hd : l.shape n ≠ .done) : l.isSuspended n = true := by
  have hout := (hl.native.mem_iff n).not.mp hn
  cases hsh : l.shape n with
  | idle => exact absurd hsh (hh.methods n hk).1
  | done => exact absurd hsh hd
  | active => simp [hsh] at hout
  | calls k c => simp [hsh] at hout
  | awaits k c => simp [isSuspended, (hl.chained.sub_iff n c).mpr ⟨k, hsh⟩]
  | waits w => simp [isSuspended, hl.waits.waits n w hsh (hl.ne_root (by simp [hk]))]

theorem Move.held (h : l.Move l') (hl : l.Wf) (hh : l.Held) : l'.Held := by
  refine ⟨h.owned hl hh.gens, fun n hk => ?_⟩
  have hm := hh.methods n
  have hroot := hl.process_iff n
  cases h with
  | stay => exact hm hk
  | @collect i c rest hs ha hkc hn hj hd =>
    have hdone : l.shape c = .done := by
      by_contra hne
      have hsus := hd.resolve_left hne
      rw [hh.suspended_of_not_done hl hkc hn hne] at hsus
      cases hsus
    simp only [Function.update_apply]
    grind -ring -linarith
  | gen hs ha =>
    simp only [make, Function.update_apply] at hk ⊢
    grind -ring -linarith
  | start hs ha =>
    simp only [make, turn, Function.update_apply] at hk ⊢
    grind -ring -linarith
  | join hs ha hkn hn hj hd hr hm' | awaitNext hs hc hr hm' =>
    obtain ⟨A, N, rfl, -⟩ := adopt_spec hm'
    simp only [turn, Function.update_apply] at hk ⊢
    grind -ring -linarith
  | returned hs hc hr | call hs ha hkg hg =>
    simp only [turn, Function.update_apply] at hk ⊢
    grind -ring -linarith
  | wait hs ha | yieldUp hs ha hkg hp | finishUp hs ha hp =>
    simp only [Function.update_apply] at hk ⊢
    grind -ring -linarith
  | @yieldInto g p rest hs ha hkg hp =>
    have hpw := hl.chained.parent_awaits p g hp (.inr hkg)
    simp only [Function.update_apply] at hk ⊢
    grind -ring -linarith
  | @finishInto c p rest hs ha hkc hp =>
    have hpw := hl.chained.parent_awaits p c hp (.inl (by simp [ha]))
    simp only [Function.update_apply] at hk ⊢
    grind -ring -linarith
  | resume hs hr hz =>
    have hnd : l.shape (l.nextChild.getD root) ≠ .done := fun hd => by simp [hd, Shape.resumable] at hz
    simp only [Function.update_apply] at hk ⊢
    grind -ring -linarith

/-- A task that is neither idle nor done, made by a coroutine that executes its own code, is used by none. -/
theorem SelfMade.unused (ho : l.SelfMade) {i c : Handle} (ha : l.shape i = .active) (hc : l.creator c = i)
    (j : Handle) : ¬ l.InTask j c := by
  intro hj
  have he : i = j := hc.symm.trans (ho.tasks j c hj)
  obtain ⟨k, hk⟩ := hj
  rw [← he, ha] at hk
  simp at hk

theorem SelfMade.stack_le (ho : l.SelfMade) (hl : l.Wf) {i : Handle} {rest : List Handle}
    (hs : l.stack = i :: rest) {x : Handle} (hx : x ∈ l.stack) : x ≤ i := by
  have hchain : l.stack.IsChain fun a b => a > b :=
    hl.native.chain.imp fun a b ⟨k, hk⟩ => ho.lt hl ⟨k, .inl hk⟩
  rw [hs] at hx hchain
  have hpair := List.isChain_iff_pairwise.mp hchain
  rcases List.mem_cons.mp hx with rfl | hx
  · exact Nat.le_refl _
  · exact Nat.le_of_lt (List.rel_of_pairwise_cons hpair hx)

end Links

namespace State
variable {σ V W : Type}

/-- **A coroutine that takes up a task of its own takes up none that is in use.** -/
theorem not_shares {code : Code σ V W} {s t : State σ V W} {l : Label V} {out : List (Event V)}
    (hl : s.links.Wf) (ho : s.links.SelfMade) (hh : s.links.Held) (h : s.step code l = some (t, out))
    (hmine : ∀ i rest c n, s.stack = i :: rest → (s.promises i).ctl = .code c →
      (∃ k, code c = .join n k) ∨ (∃ k, code c = .next n k) → n ≠ root ∧ s.links.creator n = i) :
    s.shares code = false := by
  rw [← Bool.not_eq_true]
  intro hu
  unfold shares at hu
  split at hu
  case h_1 => cases hu
  case h_2 i rest hs =>
    split at hu
    case h_2 => cases hu
    case h_1 c hc =>
      have ha : s.links.shape i = .active := shape_of_ctl hc
      have hs' : s.links.stack = i :: rest := hs
      split at hu
      case h_1 n k hop =>
        obtain ⟨hn, hcr⟩ := hmine i rest c n hs hc (.inl ⟨k, hop⟩)
        have hout : n ∉ s.stack := fun hin =>
          Nat.not_le.mpr (hcr ▸ ho.older n hn) (ho.stack_le hl hs' hin)
        obtain ⟨haw, hd⟩ : (s.promises n).awaited = true ∧ s.atFinalSuspend n = false := by
          simpa [List.contains_eq_mem, hout] using hu
        have hk : s.links.kind n = .method := kind_of_join h hs hc hop
        have hnd : s.links.shape n ≠ .done := fun hdone => by
          rw [(atFinalSuspend_iff s n).mpr hdone] at hd
          cases hd
        obtain ⟨p, hp⟩ := (hh.methods n hk).2 haw hnd
        exact ho.unused ha hcr p ⟨_, .inr (hl.chained.parent_awaits p n hp (.inl hnd))⟩
      case h_2 g k hop =>
        obtain ⟨hn, hcr⟩ := hmine i rest c g hs hc (.inr ⟨k, hop⟩)
        obtain ⟨hk, hnd⟩ := kind_of_next h hs hc hop
        have hidle : s.links.shape g ≠ .idle := by
          simp only [links]
          split at hu
          case h_1 => cases hu
          case h_2 hno => cases hctl : (s.promises g).ctl <;> simp_all [Ctl.shape]
        have hnd : s.links.shape g ≠ .done := fun hd => by
          rw [← atFinalSuspend_iff, atFinalSuspend] at hd
          split at hd
          case h_1 hdone => exact hnd hdone
          case h_2 => cases hd
        rcases hh.gens g hk hidle hnd with ⟨j, hj⟩ | ⟨p, hp⟩
        · exact ho.unused ha hcr j ⟨_, .inl hj⟩
        · exact ho.unused ha hcr p ⟨_, .inr (hl.chained.parent_awaits p g hp (.inl hnd))⟩
      case h_3 => cases hu

end State
end Eslang.Coroutine
