import Eslang.Coroutine.Ownership
import Eslang.Lib.Forest

/-! # The lifetime of coroutine frames (`OwnedCoroutine`)

A task owns the frame of its coroutine and destroys it when it goes out of scope; the tasks in that frame go
with it. So the running coroutine can at any time destroy a task that it made, finished or not, and with it a
whole tree of frames; and the context destroys the frame of the process, with all others, while nothing runs.
The promises point at each other all the time (`parent`, `subCoroutineChild`, `nextChild`), and no destructor
clears these pointers. This module shows that none of them is followed into a frame that is gone, that a frame
is destroyed only while it is suspended, and that each is destroyed exactly once. -/
namespace Eslang.Coroutine
set_option autoImplicit false
open Lib

/-- The coroutines of a process, and the frames that have been destroyed. -/
structure FrameState (σ V W : Type) where
  state : State σ V W
  gone : List Handle := []

inductive FrameLabel (V : Type)
  | run (l : Label V)
  /-- The running coroutine destroys the task `n` that it made. -/
  | drop (n : Handle)
  /-- `~ProcessTask`, or `coroutine_.destroy()` when the process has returned. -/
  | destroy
deriving DecidableEq, Repr

namespace State
variable {σ V W : Type}

/-- The coroutine in whose frame the task of `x` is. -/
def maker (s : State σ V W) (x : Handle) : Option Handle :=
  if x = root then none else some (s.promises x).creator

/-- The frames that go with the frame of `n`. -/
def below (s : State σ V W) (n : Handle) : List Handle :=
  (List.range s.count).filter fun x => meets s.maker n s.count x

end State

namespace FrameState
variable {σ V W : Type}

/-- What the destruction of `n` destroys: `n` and the tasks still in its frame, and so on. -/
def released (f : FrameState σ V W) (n : Handle) : List Handle :=
  (f.state.below n).filter fun x => !f.gone.contains x

def release (f : FrameState σ V W) (n : Handle) : FrameState σ V W := { f with gone := f.gone ++ f.released n }

/-- The running coroutine executes its own code, and `n` is a task in its frame. -/
def mayDrop (f : FrameState σ V W) (n : Handle) : Bool :=
  match f.state.stack with
  | [] => false
  | i :: _ =>
      match (f.state.promises i).ctl with
      | .code _ => n < f.state.count && f.state.maker n = some i && !f.gone.contains n
      | _ => false

def step (code : Code σ V W) (f : FrameState σ V W) : FrameLabel V → Option (FrameState σ V W × List Handle)
  | .run l =>
      if f.gone.contains root then none
      else (f.state.step code l).map fun r => ({ f with state := r.1 }, [])
  | .drop n => if f.mayDrop n then some (f.release n, f.released n) else none
  | .destroy =>
      if f.state.stack.isEmpty && !f.gone.contains root then some (f.release root, f.released root) else none

/-- The observations are the frames that are destroyed. -/
def system (code : Code σ V W) : System (FrameState σ V W) (FrameLabel V) Handle := ⟨step code⟩

def init (body : σ) : FrameState σ V W := { state := State.init body }

/-- The task that the running coroutine is about to await. -/
def awaits (code : Code σ V W) (s : State σ V W) : Option (Handle × Handle) :=
  match s.stack with
  | [] => none
  | i :: _ =>
      match (s.promises i).ctl with
      | .code c =>
          match code c with
          | .join n _ | .next n _ => some (i, n)
          | _ => none
      | _ => none

/-- A coroutine awaits tasks that it made itself and that it still has. -/
def OwnTasks (code : Code σ V W) (f : FrameState σ V W) (_ : FrameLabel V) : Prop :=
  ∀ i n, awaits code f.state = some (i, n) → f.state.maker n = some i ∧ n ∉ f.gone

instance (code : Code σ V W) (f : FrameState σ V W) (l : FrameLabel V) : Decidable (OwnTasks code f l) :=
  match h : awaits code f.state with
  | none => isTrue fun i n hn => by simp [h] at hn
  | some (i, n) =>
      decidable_of_iff (f.state.maker n = some i ∧ n ∉ f.gone)
        ⟨fun hp _ _ hn => by cases h.symm.trans hn; exact hp, fun hp => hp i n h⟩

/-- The frames whose promise a step reads or writes: the running coroutine's, the one of the task it awaits or
has called and the chain below it (`updateProcessPromise`), that of the parent it resumes, and those that
`ProcessTask::resume` finds. -/
inductive Touches (code : Code σ V W) (s : State σ V W) : Label V → Handle → Prop
  | running {i rest ready v} (hs : s.stack = i :: rest) : Touches code s (.tick ready v) i
  | task {i n x ready v} (h : awaits code s = some (i, n)) (hx : Leads s.links.sub n x) :
      Touches code s (.tick ready v) x
  | called {i rest g k x ready v} (hs : s.stack = i :: rest) (hc : (s.promises i).ctl = .resuming g k)
      (hx : Leads s.links.sub g x) : Touches code s (.tick ready v) x
  | parent {i rest p ready v} (hs : s.stack = i :: rest) (hp : (s.promises i).parent = some p) :
      Touches code s (.tick ready v) p
  | process {v} : Touches code s (.resume v) root
  | child {z v} (hz : s.nextChild = some z) : Touches code s (.resume v) z

end FrameState

/-! ## What the pointers lead to -/

namespace Links
variable {W : Type} {l l' : Links W} {gone : List Handle}

/-- No pointer that is still of use leads from a frame that is there to one that is gone. -/
structure Sheltered (l : Links W) (gone : List Handle) : Prop where
  stack : ∀ x ∈ l.stack, x ∉ gone
  tasks : ∀ i c, i ∉ gone → l.InTask i c → c ∉ gone
  next : ∀ z, l.nextChild = some z → z ∉ gone
  /-- The tasks of a frame go with it. -/
  closed : ∀ x, x ≠ root → x < l.count → l.creator x ∈ gone → x ∈ gone
  known : ∀ x ∈ gone, x < l.count

namespace Sheltered

/-- A chain of tasks starts in a frame that is there, so it stays there. -/
theorem leads (h : l.Sheltered gone) (hl : l.Wf) {a z : Handle} (ha : a ∉ gone) (hz : Leads l.sub a z) :
    z ∉ gone := by
  induction hz with
  | refl => exact ha
  | @tail y z _ hyz ih =>
    obtain ⟨k, hk⟩ := (hl.chained.sub_iff y z).mp hyz
    exact h.tasks y z ih ⟨k, .inr hk⟩

theorem leads_adopted (h : l.Sheltered gone) (hl : l.Wf) {i c z : Handle} (hc : c ∉ gone)
    (hz : Leads (Function.update l.sub i (some c)) c z) : z ∉ gone := by
  induction hz with
  | refl => exact hc
  | @tail y z _ hyz ih =>
    by_cases hyi : y = i
    · rw [hyi, Function.update_self] at hyz
      cases hyz
      exact hc
    · rw [Function.update_of_ne hyi] at hyz
      obtain ⟨k, hk⟩ := (hl.chained.sub_iff y z).mp hyz
      exact h.tasks y z ih ⟨k, .inr hk⟩

theorem parent (h : l.Sheltered gone) (hl : l.Wf) (ho : l.SelfMade) {i p : Handle} (hi : i ∈ l.stack)
    (ha : l.shape i ≠ .done) (hp : l.parent i = some p) : p ∉ gone := by
  intro hgone
  have haw := hl.chained.parent_awaits p i hp (.inl ha)
  have hin : l.InTask p i := ⟨_, .inr haw⟩
  obtain ⟨hlt, hne⟩ := hl.of_inTask hin
  exact h.stack i hi (h.closed i hne hlt (ho.tasks p i hin ▸ hgone))

end Sheltered

namespace Move

theorem count_le (h : l.Move l') : l.count ≤ l'.count := by
  rcases h.creator with ⟨-, hn⟩ | ⟨i, rest, -, -, -, hn⟩
  · exact Nat.le_of_eq hn.symm
  · exact hn ▸ Nat.le_succ _

theorem mem_stack (h : l.Move l') (hl : l.Wf) {x : Handle} (hx : x ∈ l'.stack) :
    x ∈ l.stack ∨ (∃ i rest, l.stack = i :: rest ∧ l.shape i = .active ∧ l'.InTask i x) ∨
      (∃ i rest, l.stack = i :: rest ∧ l.shape i = .active ∧ l.parent i = some x) ∨
      x = l.nextChild.getD root := by
  have htail : ∀ {i : Handle} {rest : List Handle}, l.stack = i :: rest → x ∈ rest → x ∈ l.stack :=
    fun hs hx => hs ▸ List.mem_cons_of_mem _ hx
  cases h with
  | stay | collect | returned | gen => exact .inl hx
  | wait hs | join hs | awaitNext hs | yieldUp hs | finishUp hs => exact .inl (htail hs hx)
  | @start i rest hs ha =>
    rcases List.mem_cons.mp hx with rfl | hx
    · have hi : i ≠ l.count := Nat.ne_of_lt (lt_count hl (by simp [ha]))
      refine .inr (.inl ⟨i, rest, hs, ha, .method, .inl ?_⟩)
      simp [make, turn, hi]
    · exact .inl (hs ▸ hx)
  | @call i g rest hs ha hk hg =>
    rcases List.mem_cons.mp hx with rfl | hx
    · have hi : i ≠ x := by
        rintro rfl
        simp [ha] at hg
      refine .inr (.inl ⟨i, rest, hs, ha, .gen, .inl ?_⟩)
      simp [turn, hi]
    · exact .inl (hs ▸ hx)
  | yieldInto hs ha hk hp | finishInto hs ha hk hp =>
    rcases List.mem_cons.mp hx with rfl | hx
    · exact .inr (.inr (.inl ⟨_, _, hs, ha, hp⟩))
    · exact .inl (htail hs hx)
  | resume => exact .inr (.inr (.inr (List.mem_singleton.mp hx)))

theorem nextChild (h : l.Move l') {z : Handle} (hz : l'.nextChild = some z) :
    l.nextChild = some z ∨ z ∈ l.stack ∨
      ∃ i c, i ∈ l.stack ∧ l'.InTask i c ∧ Leads (Function.update l.sub i (some c)) c z := by
  cases h with
  | @wait i rest w hs ha =>
    simp only at hz
    split_ifs at hz
    · cases hz
      exact .inr (.inl (by simp [hs]))
    · exact .inl hz
  | @join i n rest m hs ha hk hn hj hd hr hm | @awaitNext i n rest m hs hc hr hm =>
    obtain ⟨A, N, rfl, ⟨-, -, rfl⟩ | ⟨-, y, rfl, hy, -⟩⟩ := adopt_spec hm
    · exact .inl hz
    · cases hz
      exact .inr (.inr ⟨i, n, by simp [hs], ⟨_, .inr (Function.update_self _ _ _)⟩, hy⟩)
  | resume => cases hz
  | _ => exact .inl hz

theorem sheltered (h : l.Move l') (hl : l.Wf) (ho : l.SelfMade) (hs : l.Sheltered gone) (hroot : root ∉ gone)
    (hnew : ∀ i rest c, l.stack = i :: rest → l.shape i = .active → l'.InTask i c → c ∉ gone) :
    l'.Sheltered gone := by
  have htasks : ∀ i c, i ∉ gone → l'.InTask i c → c ∉ gone := by
    intro i c hi hic
    rcases h.inTask hic with hold | ⟨rest, hst, ha⟩
    · exact hs.tasks i c hi hold
    · exact hnew i rest c hst ha hic
  constructor
  case tasks => exact htasks
  case stack =>
    intro x hx
    rcases h.mem_stack hl hx with hx | ⟨i, rest, hst, ha, hix⟩ | ⟨i, rest, hst, ha, hp⟩ | rfl
    · exact hs.stack x hx
    · exact hnew i rest x hst ha hix
    · exact hs.parent hl ho (by simp [hst]) (by simp [ha]) hp
    · cases hn : l.nextChild with
      | none => exact hroot
      | some z => exact hs.next z hn
  case next =>
    intro z hz
    rcases h.nextChild hz with hz | hz | ⟨i, c, hi, hic, hlead⟩
    · exact hs.next z hz
    · exact hs.stack z hz
    · exact hs.leads_adopted hl (htasks i c (hs.stack i hi) hic) hlead
  case closed =>
    intro x hx hlt hgone
    rcases h.creator with ⟨he, hn⟩ | ⟨i, rest, hst, -, he, hn⟩
    · exact hs.closed x hx (hn ▸ hlt) (he ▸ hgone)
    · by_cases hxn : x = l.count
      · rw [he, hxn, Function.update_self] at hgone
        exact absurd hgone (hs.stack i (by simp [hst]))
      · rw [he, Function.update_of_ne hxn] at hgone
        rw [hn] at hlt
        exact hs.closed x hx (Nat.lt_of_le_of_ne (Nat.lt_succ_iff.mp hlt) hxn) hgone
  case known => exact fun x hx => Nat.lt_of_lt_of_le (hs.known x hx) h.count_le

end Move
end Links

/-! ## Steps of the coroutines -/

namespace State
variable {σ V W : Type}

theorem Step.takes_up {code : Code σ V W} {s t : State σ V W} {l : Label V} {out : List (Event V)}
    (h : s.Step code l t out) (hw : s.links.Wf) {i c : Handle} {rest : List Handle} (hs : s.stack = i :: rest)
    (ha : s.links.shape i = .active) (hic : t.links.InTask i c) :
    c = s.count ∨ FrameState.awaits code s = some (i, c) := by
  obtain ⟨k, hk⟩ := hic
  have hshape : ∀ {sh : Shape W}, t.links.shape i = sh → sh = .calls k c ∨ sh = .awaits k c :=
    fun h => h ▸ hk
  have hidle : ∀ sh : Shape W, t.links.shape i = sh → (∀ k, sh ≠ .calls k c ∧ sh ≠ .awaits k c) →
      c = s.count ∨ FrameState.awaits code s = some (i, c) := fun _ hsh hno =>
    absurd (hshape hsh) (by simp [hno k])
  -- the parent of the running coroutine is suspended in it, so it is another one
  have hparent : ∀ {p : Handle}, (s.promises i).parent = some p → i ≠ p := fun hp he => by
    have hpi := hw.chained.parent_awaits _ i hp (.inl (by simp [ha]))
    rw [← he, ha] at hpi
    cases hpi
  cases h with
  | act hs' hc ho | ready hs' hc ho | collect hs' hc ho | called hs' hc | answer hs' hc =>
    cases hs.symm.trans hs'
    exact hidle _ (shape_goto _ i _) (by simp [Ctl.shape])
  | @wait _ _ v c' w k' hs' hc ho =>
    cases hs.symm.trans hs'
    exact hidle _ (shape_goto _ i (.waiting w k')) (by simp [Ctl.shape])
  | @start _ _ _ _ _ body k' hs' hc ho =>
    cases hs.symm.trans hs'
    have hi := Links.Move.lt_count hw (i := i) (by simp [ha])
    have hk' := hshape (shape_goto_make hi (.calling s.count k') _)
    simp only [Ctl.shape, Shape.calls.injEq, reduceCtorEq, or_false] at hk'
    exact .inl hk'.2.symm
  | @join _ n _ _ _ c' k' u hs' hc ho hm hd hu =>
    cases hs.symm.trans hs'
    have hk' := hshape (shape_goto u i (.joining n k'))
    simp only [Ctl.shape, Shape.awaits.injEq, reduceCtorEq, false_or] at hk'
    exact .inr (by simp [FrameState.awaits, hs, hc, ho, hk'.2])
  | @gen _ _ _ _ _ body k' hs' hc ho =>
    cases hs.symm.trans hs'
    have hi := Links.Move.lt_count hw (i := i) (by simp [ha])
    exact hidle _ (shape_goto_make hi (.code (k' s.count)) _) (by simp [Ctl.shape])
  | @next _ g _ _ _ c' x k' hs' hc ho hkg hg =>
    cases hs.symm.trans hs'
    have hgi : i ≠ g := fun he => by
      rw [he, hg] at hc
      cases hc
    have hsh : ((s.goto i (.resuming g k')).goto g (.code x)).links.shape i = .calls .gen g := by
      rw [links_goto, links_goto]
      simp [Links.turn, hgi, Ctl.shape]
    have hk' := hshape hsh
    simp only [Shape.calls.injEq, reduceCtorEq, or_false] at hk'
    exact .inr (by simp [FrameState.awaits, hs, hc, ho, hk'.2])
  | awaitNext hs' hc hn hu =>
    cases hs.symm.trans hs'
    rw [shape_of_ctl hc] at ha
    cases ha
  | @yieldUp _ _ _ _ a _ k' hs' =>
    cases hs.symm.trans hs'
    have hsh : (s.yielding i a k').links.shape i = .idle := by simp [links_yielding]
    exact hidle _ hsh (by simp)
  | @yieldInto _ p _ _ _ a _ k' x _ hs' hc ho hkg hp =>
    cases hs.symm.trans hs'
    refine hidle .idle ?_ (by simp)
    rw [links_continueAt, clearChild, links_setSub, links_yielding]
    simp [Links.turn, hparent hp]
  | @returnUp _ _ _ _ a _ hs' =>
    cases hs.symm.trans hs'
    have hsh : (s.returning i a).links.shape i = .done := by simp [links_returning, Links.turn]
    exact hidle _ hsh (by simp)
  | @returnInto _ p _ _ _ a _ x _ hs' hc ho hkg hp =>
    cases hs.symm.trans hs'
    refine hidle .done ?_ (by simp)
    rw [links_continueAt, clearChild, links_setSub, links_returning]
    simp [Links.turn, hparent hp]
  | finish hs' =>
    cases hs.symm.trans hs'
    exact hidle _ (shape_goto s i .done) (by simp [Ctl.shape])
  | resume hs' => cases hs.symm.trans hs'

theorem creator_of_maker {s : State σ V W} {n i : Handle} (h : s.maker n = some i) :
    n ≠ root ∧ s.links.creator n = i := by
  unfold maker at h
  split_ifs at h with hn
  cases h
  exact ⟨hn, rfl⟩

theorem Step.mine {code : Code σ V W} {s t : State σ V W} {l : Label V} {out : List (Event V)}
    (h : s.Step code l t out) (hw : s.links.Wf) (ho : s.links.SelfMade)
    (hown : ∀ i n, FrameState.awaits code s = some (i, n) → s.maker n = some i) : s.links.Mine t.links := by
  intro i rest c hs ha hic
  have hmove := h.move
  have hlt : c < t.links.count := ((hmove.wf hw (ho.nested hw)).of_inTask hic).1
  by_cases hold : c < s.links.count
  · have haw := (h.takes_up hw hs ha hic).resolve_left (Nat.ne_of_lt hold)
    rw [hmove.creator_of_lt hold]
    exact (creator_of_maker (hown i c haw)).2
  · rcases hmove.creator with ⟨-, hn⟩ | ⟨j, rest', hs', -, he, hn⟩
    · exact absurd (hn ▸ hlt) hold
    · cases hs.symm.trans hs'
      rw [hn] at hlt
      rw [he, Nat.le_antisymm (Nat.lt_succ_iff.mp hlt) (Nat.not_lt.mp hold)]
      exact Function.update_self _ _ _

theorem ranked_maker {s : State σ V W} (ho : s.links.SelfMade) : Ranked s.maker id := by
  intro a b hab
  unfold maker at hab
  split_ifs at hab with ha
  cases hab
  exact ho.older a ha

theorem mem_below {s : State σ V W} (ho : s.links.SelfMade) {n x : Handle} :
    x ∈ s.below n ↔ x < s.count ∧ Leads s.maker x n := by
  rw [below, List.mem_filter, List.mem_range]
  exact and_congr_right fun hx => (ranked_maker ho).meets_iff hx

theorem leads_root {s : State σ V W} (ho : s.links.SelfMade) (x : Handle) : Leads s.maker x root := by
  induction x using Nat.strongRecOn with
  | ind x ih =>
    by_cases hx : x = root
    · exact hx ▸ Leads.refl _ _
    · exact Leads.head (b := s.links.creator x) (by simp [maker, hx, links]) (ih _ (ho.older x hx))

end State

namespace FrameState
variable {σ V W : Type}

theorem mem_released {f : FrameState σ V W} (ho : f.state.links.SelfMade) {n x : Handle} :
    x ∈ f.released n ↔ (x < f.state.count ∧ Leads f.state.maker x n) ∧ x ∉ f.gone := by
  simp [released, State.mem_below ho]

theorem mem_release {f : FrameState σ V W} (ho : f.state.links.SelfMade) {n x : Handle} :
    x ∈ (f.release n).gone ↔ x ∈ f.gone ∨ x < f.state.count ∧ Leads f.state.maker x n := by
  rw [release, List.mem_append, mem_released ho]
  tauto

theorem mayDrop_iff {f : FrameState σ V W} {n : Handle} : f.mayDrop n = true ↔
    ∃ i rest, f.state.stack = i :: rest ∧ f.state.links.shape i = .active ∧ n < f.state.count ∧
      f.state.maker n = some i ∧ n ∉ f.gone := by
  unfold mayDrop
  constructor
  · intro h
    split at h
    · cases h
    next i rest hs =>
      split at h
      next c hc =>
        simp only [Bool.and_eq_true, decide_eq_true_eq, Bool.not_eq_true', List.contains_eq_mem,
          decide_eq_false_iff_not] at h
        exact ⟨i, rest, hs, State.shape_of_ctl hc, h.1.1, h.1.2, h.2⟩
      next => cases h
  · rintro ⟨i, rest, hs, ha, hn, hm, hg⟩
    rw [hs]
    dsimp only
    cases hc : (f.state.promises i).ctl with
    | code c => simp [hn, hm, hg]
    | _ => simp [State.links, hc, Ctl.shape] at ha

/-! ## Destruction -/

/-- What goes with a task of the running coroutine is younger than everything on the native stack. -/
theorem below_not_on_stack {f : FrameState σ V W} (hl : f.state.links.Wf) (ho : f.state.links.SelfMade)
    {i n : Handle} {rest : List Handle} (hs : f.state.stack = i :: rest) (hm : f.state.maker n = some i) {x : Handle}
    (hx : Leads f.state.maker x n) : x ∉ f.state.stack := by
  intro hin
  obtain ⟨hn, hc⟩ := State.creator_of_maker hm
  have hle : n ≤ x := (State.ranked_maker ho).le hx
  have hlt : i < n := hc ▸ ho.older n hn
  exact Nat.lt_irrefl _ (Nat.lt_of_lt_of_le (Nat.lt_of_lt_of_le hlt hle) (ho.stack_le hl hs hin))

theorem release_sheltered {f : FrameState σ V W} (hl : f.state.links.Wf) (ho : f.state.links.SelfMade)
    (hsh : f.state.links.Sheltered f.gone) {n : Handle} (hd : f.mayDrop n = true) :
    f.state.links.Sheltered (f.release n).gone := by
  obtain ⟨i, rest, hs, ha, hn, hm, hg⟩ := mayDrop_iff.mp hd
  obtain ⟨hnr, hc⟩ := State.creator_of_maker hm
  have hs' : f.state.links.stack = i :: rest := hs
  constructor
  case stack =>
    intro x hx hgone
    rcases (mem_release ho).mp hgone with hgone | ⟨-, hlead⟩
    · exact hsh.stack x hx hgone
    · exact below_not_on_stack hl ho hs hm hlead hx
  case tasks =>
    intro j c hj hjc hgone
    have hj' := fun h => hj ((mem_release ho).mpr h)
    rcases (mem_release ho).mp hgone with hgone | ⟨-, hlead⟩
    · exact hsh.tasks j c (fun h => hj' (.inl h)) hjc hgone
    · -- `c` goes with `n`: it is `n` itself, whose maker runs, or its maker goes as well
      have hcj := ho.tasks j c hjc
      rcases Relation.ReflTransGen.cases_head hlead with rfl | ⟨b, hb, hbn⟩
      · obtain ⟨k, hk⟩ := hjc
        rw [← hcj, hc, ha] at hk
        simp at hk
      · rw [(State.creator_of_maker hb).2] at hcj
        obtain ⟨k, hk⟩ := hjc
        have hlt := Links.Move.lt_count hl (i := j) (by rcases hk with hk | hk <;> simp [hk])
        exact hj' (.inr ⟨hlt, hcj ▸ hbn⟩)
  case next =>
    intro z hz
    rw [ho.nextChild_eq_none hs' ha] at hz
    cases hz
  case closed =>
    intro x hx hlt hgone
    apply (mem_release ho).mpr
    rcases (mem_release ho).mp hgone with hgone | ⟨-, hlead⟩
    · exact .inl (hsh.closed x hx hlt hgone)
    · exact .inr ⟨hlt, Leads.head (by simp [State.maker, hx, State.links]) hlead⟩
  case known =>
    intro x hx
    rcases (mem_release ho).mp hx with hx | ⟨hx, -⟩
    · exact hsh.known x hx
    · exact hx

theorem nodup_release {f : FrameState σ V W} (hg : f.gone.Nodup) (n : Handle) : (f.release n).gone.Nodup := by
  refine List.Nodup.append hg ((List.nodup_range.filter _).filter _) fun x hx hx' => ?_
  simp [released] at hx'
  exact hx'.2 hx

/-! ## Runs -/

/-- What holds in every run in which the coroutines await their own tasks. -/
structure Safe (log : List Handle) (f : FrameState σ V W) : Prop where
  wf : f.state.links.Wf
  selfMade : f.state.links.SelfMade
  held : f.state.links.Held
  logged : log = f.gone
  nodup : f.gone.Nodup
  sheltered : root ∉ f.gone → f.state.links.Sheltered f.gone
  /-- Once the process is gone nothing runs, and nothing is left. -/
  ended : root ∈ f.gone → f.state.stack = [] ∧ ∀ x, x ∈ f.gone ↔ x < f.state.count

theorem safe_run {code : Code σ V W} {log : List Handle} {f f' : FrameState σ V W} {l : Label V} {out : List Handle}
    (h : f.Safe log) (hg : OwnTasks code f (.run l)) (hstep : f.step code (.run l) = some (f', out)) :
    f'.Safe (log ++ out) := by
  simp only [step, Option.ite_none_left_eq_some, Option.map_eq_some_iff, List.contains_eq_mem,
    decide_eq_true_eq] at hstep
  obtain ⟨hroot, ⟨t, evs⟩, ht, hf⟩ := hstep
  cases hf
  have hu : f.state.shares code = false := by
    refine State.not_shares h.wf h.selfMade h.held ht fun i rest c n hs hc hop => ?_
    have haw : awaits code f.state = some (i, n) := by
      rcases hop with ⟨k, hop⟩ | ⟨k, hop⟩ <;> simp [awaits, hs, hc, hop]
    exact State.creator_of_maker (hg i n haw).1
  have hst := State.step_cases hu ht
  have hmove := hst.move
  have hmine := hst.mine h.wf h.selfMade fun i n hn => (hg i n hn).1
  have hsh := h.sheltered hroot
  have hnew : ∀ i rest c, f.state.links.stack = i :: rest → f.state.links.shape i = .active →
      t.links.InTask i c → c ∉ f.gone := by
    intro i rest c hs ha hic
    rcases hst.takes_up h.wf hs ha hic with rfl | haw
    · exact fun hin => Nat.lt_irrefl _ (hsh.known _ hin)
    · exact (hg i c haw).2
  exact ⟨hmove.wf h.wf (h.selfMade.nested h.wf), hmove.selfMade h.wf h.selfMade hmine,
    hmove.held h.wf h.held, (List.append_nil log).trans h.logged, h.nodup,
    fun _ => hmove.sheltered h.wf h.selfMade hsh hroot hnew,
    fun hin => absurd hin hroot⟩

theorem safe_drop (code : Code σ V W) {log : List Handle} {f f' : FrameState σ V W} {n : Handle} {out : List Handle}
    (h : f.Safe log) (hstep : f.step code (.drop n) = some (f', out)) : f'.Safe (log ++ out) := by
  simp only [step, Option.ite_none_right_eq_some, Option.some.injEq, Prod.mk.injEq] at hstep
  obtain ⟨hd, rfl, rfl⟩ := hstep
  obtain ⟨i, rest, hs, ha, hn, hm, hg⟩ := mayDrop_iff.mp hd
  have hroot : root ∉ f.gone := fun hin => by
    rw [(h.ended hin).1] at hs
    cases hs
  have hroot' : root ∉ (f.release n).gone := fun hin => by
    rcases (mem_release h.selfMade).mp hin with hin | ⟨-, hlead⟩
    · exact hroot hin
    · exact (State.creator_of_maker hm).1 (Leads.of_end hlead rfl)
  exact ⟨h.wf, h.selfMade, h.held, by rw [h.logged]; rfl, nodup_release h.nodup n,
    fun _ => release_sheltered h.wf h.selfMade (h.sheltered hroot) hd, fun hin => absurd hin hroot'⟩

theorem safe_destroy (code : Code σ V W) {log : List Handle} {f f' : FrameState σ V W} {out : List Handle}
    (h : f.Safe log) (hstep : f.step code .destroy = some (f', out)) : f'.Safe (log ++ out) := by
  simp only [step, Option.ite_none_right_eq_some, Option.some.injEq, Prod.mk.injEq, Bool.and_eq_true,
    List.isEmpty_iff, Bool.not_eq_true', List.contains_eq_mem, decide_eq_false_iff_not] at hstep
  obtain ⟨⟨hs, hroot⟩, rfl, rfl⟩ := hstep
  have hall : ∀ x, x ∈ (f.release root).gone ↔ x < f.state.count := by
    intro x
    rw [mem_release h.selfMade]
    constructor
    · rintro (hx | ⟨hx, -⟩)
      · exact (h.sheltered hroot).known x hx
      · exact hx
    · exact fun hx => .inr ⟨hx, State.leads_root h.selfMade x⟩
  exact ⟨h.wf, h.selfMade, h.held, by rw [h.logged]; rfl, nodup_release h.nodup root,
    fun hin => absurd ((hall root).mpr h.wf.root_lt) hin, fun _ => ⟨hs, hall⟩⟩

theorem init_selfMade (body : σ) : (State.init body : State σ V W).links.SelfMade := by
  have hshape : ∀ i, (State.init body : State σ V W).links.shape i = if i = root then .idle else .done := by
    intro i
    by_cases hi : i = root <;> simp [State.init, State.links, State.blank, hi, Ctl.shape]
  have hno : ∀ i c, ¬ (State.init body : State σ V W).links.InTask i c := by
    rintro i c ⟨k, hk⟩
    rw [hshape] at hk
    split_ifs at hk <;> simp at hk
  constructor
  case older =>
    intro x hx
    have hroot : (State.init body : State σ V W).links.creator x = root := by
      simp [State.init, State.links, State.blank, hx]
    rw [hroot]
    exact Nat.pos_of_ne_zero hx
  case tasks => exact fun i c h => absurd h (hno i c)
  case eager => exact fun i c h => absurd ⟨.method, .inl h⟩ (hno i c)
  case attached =>
    intro x hx
    by_cases hr : x = root <;> simp [State.init, State.links, State.blank, hr] at hx
  case next => exact fun z hz => by cases hz

theorem init_held (body : σ) : (State.init body : State σ V W).links.Held := by
  constructor
  case gens =>
    intro g hg
    by_cases hr : g = root <;> simp [State.init, State.links, State.blank, hr] at hg
  case methods =>
    intro n hk
    by_cases hr : n = root
    · simp [State.init, State.links, hr] at hk
    · simp [State.init, State.links, State.blank, hr, Ctl.shape]

theorem safe_init (body : σ) : (init body : FrameState σ V W).Safe [] := by
  refine ⟨State.init_wf body, init_selfMade body, init_held body, rfl, List.nodup_nil, fun _ => ?_,
    fun h => absurd h ?_⟩
  · exact ⟨by simp [init], by simp [init], by simp [init], by simp [init], by simp [init]⟩
  · simp [init]

theorem run_safe {code : Code σ V W} {body : σ} {log : List Handle} {f : FrameState σ V W}
    (h : (system code).Run (OwnTasks code) (init body) log f) : f.Safe log := by
  refine h.invariant (fun log f => f.Safe log) (safe_init body) fun log f l f' out hs hg hstep => ?_
  cases l with
  | run l => exact safe_run hs hg hstep
  | drop n => exact safe_drop code hs hstep
  | destroy => exact safe_destroy code hs hstep

/-- What the next step of the coroutines reads or writes is there. -/
theorem touched_alive {code : Code σ V W} {log : List Handle} {f : FrameState σ V W} {l : Label V} {x : Handle}
    (h : f.Safe log) (hg : OwnTasks code f (.run l)) (hroot : root ∉ f.gone)
    (hx : Touches code f.state l x) : x ∉ f.gone := by
  have hsh := h.sheltered hroot
  cases hx with
  | @running i rest _ _ hs =>
    have hi : x ∈ f.state.stack := by simp [hs]
    exact hsh.stack x hi
  | task haw hlead => exact hsh.leads h.wf (hg _ _ haw).2 hlead
  | @called i rest g k _ _ _ hs hc hlead =>
    have hi : i ∈ f.state.stack := by simp [hs]
    have hin : f.state.links.InTask i g := ⟨_, .inl (State.shape_of_ctl hc)⟩
    exact hsh.leads h.wf (hsh.tasks i g (hsh.stack i hi) hin) hlead
  | @parent i rest _ _ _ hs hp =>
    have hi : i ∈ f.state.links.stack := by
      have hs' : f.state.links.stack = i :: rest := hs
      simp [hs']
    refine hsh.parent h.wf h.selfMade hi ?_ hp
    rcases (h.wf.native.mem_iff i).mp hi with ha | ⟨k, c, hc⟩
    · simp [ha]
    · simp [hc]
  | process => exact hroot
  | child hz => exact hsh.next x hz

end FrameState

/-- **Coroutine frames are used only while they are there.** In every run in which the coroutines await
tasks that they made themselves, with tasks destroyed at any time by the coroutine that made them: a
step of the coroutines reads and writes only promises of frames that have not been destroyed; what is
destroyed is suspended; no frame is destroyed twice; and when the frame of the process is destroyed,
every frame that was ever made has been. -/
theorem frames_never_dangle {σ V W : Type} {code : Code σ V W} {body : σ} {log : List Handle} {f : FrameState σ V W}
    (h : (FrameState.system code).Run (FrameState.OwnTasks code) (FrameState.init body) log f) :
    (∀ l r x, FrameState.OwnTasks code f (.run l) → f.step code (.run l) = some r →
      FrameState.Touches code f.state l x → x ∉ log) ∧
    (∀ l f' out x, f.step code l = some (f', out) → x ∈ out → x ∉ f.state.stack) ∧
    log.Nodup ∧ (root ∈ log → log.Perm (List.range f.state.count)) := by
  have hs := FrameState.run_safe h
  rw [hs.logged]
  refine ⟨fun l r x hg hstep hx => ?_, fun l f' out x hstep hx => ?_, hs.nodup, fun hroot => ?_⟩
  · refine FrameState.touched_alive hs hg (fun hin => ?_) hx
    simp [FrameState.step, hin] at hstep
  · cases l with
    | run l =>
      simp only [FrameState.step, Option.ite_none_left_eq_some, Option.map_eq_some_iff, Prod.mk.injEq] at hstep
      obtain ⟨-, r, -, -, rfl⟩ := hstep
      cases hx
    | drop n =>
      simp only [FrameState.step, Option.ite_none_right_eq_some, Option.some.injEq, Prod.mk.injEq] at hstep
      obtain ⟨hd, -, rfl⟩ := hstep
      obtain ⟨i, rest, hst, -, -, hm, -⟩ := FrameState.mayDrop_iff.mp hd
      exact FrameState.below_not_on_stack hs.wf hs.selfMade hst hm ((FrameState.mem_released hs.selfMade).mp hx).1.2
    | destroy =>
      simp only [FrameState.step, Option.ite_none_right_eq_some, Bool.and_eq_true, List.isEmpty_iff] at hstep
      simp [hstep.1.1]
  · refine (List.perm_ext_iff_of_nodup hs.nodup List.nodup_range).mpr fun x => ?_
    rw [List.mem_range]
    exact (hs.ended hroot).2 x

/-- The process starts a method that does not finish, destroys it, and consumes a generator. -/
def dropsMethod : Code Nat Nat Nat
  | 0 => .start 10 fun _ => 1
  | 1 => .gen 20 fun _ => 2
  | 2 => .next 2 fun _ => 3
  | 3 => .await 0 fun _ => 4
  | 10 => .await 0 fun _ => 11
  | 20 => .yield 5 21
  | _ => .ret 0

theorem dropsMethod_frames : ∃ log f,
    (FrameState.system dropsMethod).Run (FrameState.OwnTasks dropsMethod) (FrameState.init 0) log f ∧
      log = [1, 0, 2] ∧ log.Perm (List.range f.state.count) := by
  obtain ⟨log, f, hrun, hlog⟩ := System.exec_reaches (M := FrameState.system dropsMethod)
    (g := fun f l => decide (FrameState.OwnTasks dropsMethod f l)) (G := FrameState.OwnTasks dropsMethod)
    (fun _ _ h => of_decide_eq_true h)
    (w := [.run (.resume 0), .run (.tick false 0), .run (.tick false 0), .run (.tick false 0), .drop 1,
      .run (.tick false 0), .run (.tick false 0), .run (.tick false 0), .run (.tick false 0),
      .run (.tick false 0), .destroy])
    (s := FrameState.init 0) (P := fun log _ => log = [1, 0, 2]) (by decide)
  exact ⟨log, f, hrun, hlog, (frames_never_dangle hrun).2.2.2 (by rw [hlog]; decide)⟩

end Eslang.Coroutine
