import Eslang.Coroutine.Step
import Eslang.Lib.Chain

/-! # The pointers between coroutines, and what a step does to them

What a coroutine computes does not matter for the chain of coroutines that a process waits on. `Links`
keeps the pointers, the native stack and, of each coroutine, only what it is doing (`Shape`);
`step_move` says once what a step of the machine can do to them. -/
namespace Eslang.Coroutine
set_option autoImplicit false
open Lib

/-- What a coroutine is doing. -/
inductive Shape (W : Type)
  | active
  /-- In the call of the method `c`, or in `c.next()`. -/
  | calls (k : Kind) (c : Handle)
  /-- Suspended in the method or the generator `c`. -/
  | awaits (k : Kind) (c : Handle)
  | waits (w : W)
  | idle
  | done

def Ctl.shape {σ V W : Type} : Ctl σ V W → Shape W
  | .code _ => .active
  | .calling n _ => .calls .method n
  | .resuming g _ => .calls .gen g
  | .waiting w _ => .waits w
  | .joining n _ => .awaits .method n
  | .nexting g _ => .awaits .gen g
  | .idle _ => .idle
  | .done => .done

def Shape.resumable {W : Type} : Shape W → Bool
  | .idle | .awaits _ _ | .waits _ => true
  | .active | .calls _ _ | .done => false

@[ext] structure Links (W : Type) where
  kind : Handle → Kind
  shape : Handle → Shape W
  waiting : Handle → Option W
  sub : Handle → Option Handle
  attached : Handle → Bool
  parent : Handle → Option Handle
  awaited : Handle → Bool
  creator : Handle → Handle
  count : Nat
  nextChild : Option Handle
  stack : List Handle

namespace State
variable {σ V W : Type}

def links (s : State σ V W) : Links W where
  kind i := (s.promises i).kind
  shape i := (s.promises i).ctl.shape
  waiting i := (s.promises i).waiting
  sub i := (s.promises i).subCoroutineChild
  attached i := (s.promises i).processPromise
  parent i := (s.promises i).parent
  awaited i := (s.promises i).awaited
  creator i := (s.promises i).creator
  count := s.count
  nextChild := s.nextChild
  stack := s.stack

end State

namespace Links
variable {W : Type}

/-- The test of `await_ready`. -/
def isSuspended (l : Links W) (i : Handle) : Bool := (l.sub i).isSome || (l.waiting i).isSome

def attach (l : Links W) (c : Handle) : Nat → Option (Links W)
  | 0 => none
  | n + 1 =>
      let l := { l with attached := Function.update l.attached c true, nextChild := some c }
      match l.sub c with
      | none => some l
      | some d => l.attach d n

def adopt (l : Links W) (i c : Handle) : Option (Links W) :=
  let l := { l with
    parent := Function.update l.parent c (some i), sub := Function.update l.sub i (some c) }
  if !l.attached c && (l.kind i = .process || l.attached i) then l.attach c l.count else some l

/-- A new promise of coroutine `i`. -/
def make (l : Links W) (k : Kind) (sh : Shape W) (i : Handle) : Links W where
  kind := Function.update l.kind l.count k
  shape := Function.update l.shape l.count sh
  waiting := Function.update l.waiting l.count none
  sub := Function.update l.sub l.count none
  attached := Function.update l.attached l.count false
  parent := Function.update l.parent l.count none
  awaited := Function.update l.awaited l.count false
  creator := Function.update l.creator l.count i
  count := l.count + 1
  nextChild := l.nextChild
  stack := l.stack

/-- Coroutine `i` does `sh` from now on. -/
def turn (l : Links W) (i : Handle) (sh : Shape W) : Links W :=
  { l with shape := Function.update l.shape i sh }

inductive Move (l : Links W) : Links W → Prop
  | stay {i : Handle} {rest : List Handle} (hs : l.stack = i :: rest) (ha : l.shape i = .active) :
      Move l l
  /-- A method that has finished is awaited. -/
  | collect {i n : Handle} {rest : List Handle} (hs : l.stack = i :: rest) (ha : l.shape i = .active)
      (hk : l.kind n = .method) (hn : n ∉ l.stack) (hj : l.awaited n = false ∨ l.shape n = .done)
      (hd : l.shape n = .done ∨ l.isSuspended n = false) :
      Move l { l with awaited := Function.update l.awaited n true }
  /-- A call has returned, and its result need not be waited for. -/
  | returned {i c : Handle} {k : Kind} {rest : List Handle} (hs : l.stack = i :: rest)
      (hc : l.shape i = .calls k c) (hr : k = .gen → l.isSuspended c = false) :
      Move l (l.turn i .active)
  | wait {i : Handle} {rest : List Handle} {w : W} (hs : l.stack = i :: rest)
      (ha : l.shape i = .active) :
      Move l { l with
        shape := Function.update l.shape i (.waits w)
        waiting := Function.update l.waiting i (some w)
        nextChild := if l.attached i then some i else l.nextChild
        stack := rest }
  | start {i : Handle} {rest : List Handle} (hs : l.stack = i :: rest) (ha : l.shape i = .active) :
      Move l { (l.turn i (.calls .method l.count)).make .method .active i with
        stack := l.count :: i :: rest }
  | gen {i : Handle} {rest : List Handle} (hs : l.stack = i :: rest) (ha : l.shape i = .active) :
      Move l (l.make .gen .idle i)
  | call {i g : Handle} {rest : List Handle} (hs : l.stack = i :: rest) (ha : l.shape i = .active)
      (hk : l.kind g = .gen) (hg : l.shape g = .idle) :
      Move l { (l.turn i (.calls .gen g)).turn g .active with stack := g :: i :: rest }
  | join {i n : Handle} {rest : List Handle} {m : Links W} (hs : l.stack = i :: rest)
      (ha : l.shape i = .active) (hk : l.kind n = .method) (hn : n ∉ l.stack)
      (hj : l.awaited n = false) (hd : l.shape n ≠ .done) (hr : l.isSuspended n = true)
      (hm : { l with awaited := Function.update l.awaited n true }.adopt i n = some m) :
      Move l { m.turn i (.awaits .method n) with stack := rest }
  | awaitNext {i g : Handle} {rest : List Handle} {m : Links W} (hs : l.stack = i :: rest)
      (hc : l.shape i = .calls .gen g) (hr : l.isSuspended g = true) (hm : l.adopt i g = some m) :
      Move l { m.turn i (.awaits .gen g) with stack := rest }
  | yieldUp {g : Handle} {rest : List Handle} (hs : l.stack = g :: rest) (ha : l.shape g = .active)
      (hk : l.kind g = .gen) (hp : l.parent g = none) :
      Move l { l with
        shape := Function.update l.shape g .idle
        waiting := Function.update l.waiting g none
        stack := rest }
  | yieldInto {g p : Handle} {rest : List Handle} (hs : l.stack = g :: rest)
      (ha : l.shape g = .active) (hk : l.kind g = .gen) (hp : l.parent g = some p) :
      Move l { l with
        shape := Function.update (Function.update l.shape g .idle) p .active
        waiting := Function.update l.waiting g none
        parent := Function.update l.parent g none
        sub := Function.update l.sub p none
        stack := p :: rest }
  /-- The process, a generator, or a method that nothing is suspended in, returns. -/
  | finishUp {i : Handle} {rest : List Handle} (hs : l.stack = i :: rest) (ha : l.shape i = .active)
      (hp : l.kind i = .method → l.parent i = none) :
      Move l { l with shape := Function.update l.shape i .done, stack := rest }
  | finishInto {i p : Handle} {rest : List Handle} (hs : l.stack = i :: rest)
      (ha : l.shape i = .active) (hk : l.kind i = .method) (hp : l.parent i = some p) :
      Move l { l with
        shape := Function.update (Function.update l.shape i .done) p .active
        sub := Function.update l.sub p none
        stack := p :: rest }
  | resume (hs : l.stack = [])
      (hr : l.shape root = .idle ∨ (l.waiting (l.nextChild.getD root)).isSome)
      (hz : (l.shape (l.nextChild.getD root)).resumable) (hd : l.shape root ≠ .done) :
      Move l { l with
        shape := Function.update l.shape (l.nextChild.getD root) .active
        waiting := Function.update l.waiting root none
        nextChild := none
        stack := [l.nextChild.getD root] }

end Links

/-! ## Every step is a move -/

namespace State
variable {σ V W : Type}

theorem links_update (s : State σ V W) (i : Handle) (f : PromiseBase σ V W → PromiseBase σ V W) :
    (s.update i f).links =
      { s.links with
        kind := Function.update s.links.kind i (f (s.promises i)).kind
        shape := Function.update s.links.shape i (f (s.promises i)).ctl.shape
        waiting := Function.update s.links.waiting i (f (s.promises i)).waiting
        sub := Function.update s.links.sub i (f (s.promises i)).subCoroutineChild
        attached := Function.update s.links.attached i (f (s.promises i)).processPromise
        parent := Function.update s.links.parent i (f (s.promises i)).parent
        awaited := Function.update s.links.awaited i (f (s.promises i)).awaited
        creator := Function.update s.links.creator i (f (s.promises i)).creator } := by
  ext j <;> simp only [links, update, Function.update_apply] <;> split_ifs <;> rfl

@[simp] theorem links_goto (s : State σ V W) (i : Handle) (c : Ctl σ V W) :
    (s.goto i c).links = s.links.turn i c.shape := by
  rw [goto, links_update]
  simp [links, Links.turn]

theorem links_setAwaited (s : State σ V W) (n : Handle) :
    (s.update n fun p => { p with awaited := true }).links =
      { s.links with awaited := Function.update s.links.awaited n true } := by
  rw [links_update]
  simp [links]

theorem links_setWaiting (s : State σ V W) (i : Handle) (w : Option W) :
    (s.update i fun p => { p with waiting := w }).links =
      { s.links with waiting := Function.update s.links.waiting i w } := by
  rw [links_update]
  simp [links]

theorem links_setSub (s : State σ V W) (i : Handle) (c : Option Handle) :
    (s.update i fun p => { p with subCoroutineChild := c }).links =
      { s.links with sub := Function.update s.links.sub i c } := by
  rw [links_update]
  simp [links]

theorem links_updateProcessPromise (s : State σ V W) (c : Handle) (n : Nat) :
    (s.updateProcessPromise c n).map links = s.links.attach c n := by
  induction n generalizing s c with
  | zero => rfl
  | succ n ih =>
    have hl : ({ s.update c (fun p => { p with processPromise := true }) with
          nextChild := some c } : State σ V W).links =
        { s.links with
          attached := Function.update s.links.attached c true, nextChild := some c } := by
      have hu := links_update s c fun p => { p with processPromise := true }
      simp only [links] at hu ⊢
      simp_all
    have hsub : ((s.update c fun p => { p with processPromise := true }).promises
        c).subCoroutineChild = s.links.sub c := by
      simp [update, links]
    simp only [updateProcessPromise, Links.attach, hsub]
    cases s.links.sub c with
    | none => exact congrArg some hl
    | some d => rw [ih, hl]

theorem links_updateSuspend (s : State σ V W) (i c : Handle) :
    (s.updateSuspend i c).map links = s.links.adopt i c := by
  have hl : ((s.update c fun p => { p with parent := some i }).update i
        fun p => { p with subCoroutineChild := some c }).links =
      { s.links with
        parent := Function.update s.links.parent c (some i)
        sub := Function.update s.links.sub i (some c) } := by
    rw [links_setSub, links_update]
    simp [links]
  -- the test of `updateSuspend` reads the state after both pointers are written
  have key : ∀ t : State σ V W, ∀ l : Links W, t.links = l →
      (if !(t.promises c).processPromise && ((t.promises i).kind = .process ||
          (t.promises i).processPromise) then t.updateProcessPromise c t.count else some t).map links =
        if !l.attached c && (l.kind i = .process || l.attached i) then l.attach c l.count
        else some l := by
    rintro t l rfl
    rw [apply_ite (Option.map links), links_updateProcessPromise]
    rfl
  exact key _ _ hl

theorem links_yielding (s : State σ V W) (g : Handle) (a : V) (k : σ) :
    (s.yielding g a k).links =
      { s.links with
        shape := Function.update s.links.shape g .idle
        waiting := Function.update s.links.waiting g none
        parent := Function.update s.links.parent g none } := by
  rw [yielding, links_update]
  simp [links, Ctl.shape]

theorem links_returning (s : State σ V W) (i : Handle) (a : V) :
    (s.returning i a).links = s.links.turn i .done := by
  rw [returning, links_update]
  simp [links, Links.turn, Ctl.shape]

theorem links_make (s : State σ V W) (k : Kind) (c : Ctl σ V W) (i : Handle) :
    (s.make { kind := k, ctl := c, creator := i }).links = s.links.make k c.shape i := by
  ext j <;> simp only [links, make, Links.make, Function.update_apply] <;> split_ifs <;> rfl

theorem links_awaitSuspend (s : State σ V W) (i : Handle) (w : W) :
    (s.awaitSuspend i w).links = { s.links with
      waiting := Function.update s.links.waiting i (some w)
      nextChild := if s.links.attached i then some i else s.links.nextChild } := by
  have hl := links_setWaiting s i (some w)
  have hp : ((s.update i fun p => { p with waiting := some w }).promises i).processPromise =
      s.links.attached i := by simp [update, links]
  simp only [awaitSuspend, hp]
  split_ifs
  · change { (s.update i fun p => { p with waiting := some w }).links with nextChild := some i } = _
    rw [hl]
  · exact hl

theorem links_cleared (s : State σ V W) :
    s.cleared.links =
      { s.links with waiting := Function.update s.links.waiting root none, nextChild := none } := by
  change { (s.update root fun p => { p with waiting := none }).links with nextChild := none } = _
  rw [links_setWaiting]

theorem links_continueAt (s : State σ V W) (i : Handle) (x : σ) (rest : List Handle) :
    (s.continueAt i x rest).links = { s.links.turn i .active with stack := i :: rest } :=
  links_goto _ i (.code x)

theorem shape_of_ctl {s : State σ V W} {i : Handle} {c : Ctl σ V W} (h : (s.promises i).ctl = c) :
    s.links.shape i = c.shape :=
  congrArg Ctl.shape h

theorem Reply.resumable {s : State σ V W} {i : Handle} {v : V} {x : σ} {out : List (Event V)}
    (h : s.Reply i v x out) : (s.links.shape i).resumable = true := by
  cases h with
  | idle hc | wait hc | join hc | next hc _ =>
    rw [shape_of_ctl hc]
    rfl

theorem atFinalSuspend_iff (s : State σ V W) (i : Handle) :
    s.atFinalSuspend i = true ↔ s.links.shape i = .done := by
  simp only [atFinalSuspend, links]
  cases (s.promises i).ctl <;> simp [Ctl.shape]

theorem Joinable.links {s : State σ V W} {n : Handle} (h : s.Joinable n) :
    (s.links.kind n = .method ∧ n ∉ s.stack) ∧ (s.links.awaited n = false ∨ s.links.shape n = .done) := by
  obtain ⟨hm, hn, ha⟩ := h
  simp only [mayJoin, Bool.and_eq_true, decide_eq_true_eq] at hm
  exact ⟨⟨hm.1.1, hn⟩, ha.imp_right (atFinalSuspend_iff s n).mp⟩

theorem ready_iff (s : State σ V W) (n : Handle) :
    ((s.marking n).atFinalSuspend n || !(s.marking n).isSuspended n) = true ↔
      s.links.shape n = .done ∨ s.links.isSuspended n = false := by
  have hl := links_setAwaited s n
  have hn : (s.marking n).isSuspended n = s.links.isSuspended n := by
    change (s.marking n).links.isSuspended n = _
    rw [marking, hl]
    rfl
  rw [Bool.or_eq_true, atFinalSuspend_iff, Bool.not_eq_true', hn, marking, hl]

theorem links_goto_active {s : State σ V W} {i : Handle} (ha : s.links.shape i = .active) (x : σ) :
    (s.goto i (.code x)).links = s.links := by
  rw [links_goto, Links.turn, Ctl.shape, ← ha, Function.update_eq_self]

theorem adopt_of_updateSuspend {s u : State σ V W} {i c : Handle}
    (h : s.updateSuspend i c = some u) : s.links.adopt i c = some u.links := by
  rw [← links_updateSuspend, h]
  rfl

theorem result_isSome {s : State σ V W} (h : s.result.isSome) :
    (s.links.waiting (s.nextChild.getD root)).isSome := by
  unfold result at h
  split at h
  case isTrue => cases h
  case isFalse =>
    split at h
    case h_1 c hc => rw [hc]; exact h
    case h_2 hc => rw [hc]; exact h

theorem mayResume_cases {s : State σ V W} (h : s.mayResume = true) :
    s.links.shape root = .idle ∨ (s.links.waiting (s.nextChild.getD root)).isSome := by
  simp only [mayResume] at h
  split at h
  case h_1 hc => exact .inl (shape_of_ctl hc)
  case h_2 => exact .inr (result_isSome h)

theorem not_done_of_mayResume {s : State σ V W} (h : s.mayResume = true) :
    s.links.shape root ≠ .done := by
  intro hd
  have hf := (atFinalSuspend_iff s root).mpr hd
  simp only [mayResume] at h
  split at h
  case h_1 hc => cases (shape_of_ctl hc).symm.trans hd
  case h_2 => simp [result, hf] at h

/-- **Every step is a move.** -/
theorem Step.move {code : Code σ V W} {s t : State σ V W} {l : Label V} {out : List (Event V)}
    (h : s.Step code l t out) : s.links.Move t.links := by
  cases h with
  | @act i _ _ _ _ _ k hs hc _ | @ready i _ _ _ _ k hs hc _ =>
    rw [links_goto_active (shape_of_ctl hc)]
    exact .stay hs (shape_of_ctl hc)
  | @wait i rest v c w k hs hc _ =>
    have hm := Links.Move.wait (w := w) hs (shape_of_ctl hc)
    convert hm using 1
    change { ((s.awaitSuspend i w).goto i (.waiting w k)).links with stack := rest } = _
    rw [links_goto, links_awaitSuspend]
    rfl
  | @start i rest _ _ _ body k hs hc _ =>
    have hm := Links.Move.start hs (shape_of_ctl hc)
    convert hm using 1
    change { ((s.goto i (.calling s.count k)).make _).links with stack := s.count :: i :: rest } = _
    rw [links_make, links_goto]
    rfl
  | called hs hc =>
    rw [links_goto]
    exact .returned hs (shape_of_ctl hc) (by simp)
  | @collect i n rest _ _ r _ k hs hc _ hm hd _ =>
    obtain ⟨⟨hk, hn⟩, hj⟩ := hm.links
    have hl : (s.marking n).links = _ := links_setAwaited s n
    rw [links_goto_active (by rw [hl]; exact shape_of_ctl hc), hl]
    exact .collect hs (shape_of_ctl hc) hk hn hj ((ready_iff s n).mp hd)
  | @join i n rest _ _ _ k u hs hc _ hm hd hu =>
    obtain ⟨⟨hk, hn⟩, hj⟩ := hm.links
    rw [ready_iff, not_or, Bool.not_eq_false] at hd
    have ha := adopt_of_updateSuspend hu
    rw [marking, links_setAwaited] at ha
    have hmv := Links.Move.join hs (shape_of_ctl hc) hk hn (hj.resolve_right hd.1) hd.1 hd.2 ha
    convert hmv using 1
    change { (u.goto i (.joining n k)).links with stack := rest } = _
    rw [links_goto]
    rfl
  | @gen i rest _ _ _ body k hs hc _ =>
    rw [links_make, links_goto_active (shape_of_ctl hc)]
    exact .gen hs (shape_of_ctl hc)
  | @next i g rest _ _ _ x k hs hc _ hk hg =>
    have hm := Links.Move.call hs (shape_of_ctl hc) hk (shape_of_ctl hg)
    convert hm using 1
    change { ((s.goto i (.resuming g k)).goto g (.code x)).links with stack := g :: i :: rest } = _
    rw [links_goto, links_goto]
    rfl
  | answer hs hc hn _ =>
    rw [links_goto]
    exact .returned hs (shape_of_ctl hc) fun _ => hn
  | @awaitNext i g rest _ _ k u hs hc hn hu =>
    have hmv := Links.Move.awaitNext hs (shape_of_ctl hc) hn (adopt_of_updateSuspend hu)
    convert hmv using 1
    change { (u.goto i (.nexting g k)).links with stack := rest } = _
    rw [links_goto]
    rfl
  | @yieldUp g rest _ _ a _ k hs hc _ hk hp =>
    have hm := Links.Move.yieldUp hs (shape_of_ctl hc) hk hp
    have hpar : Function.update s.links.parent g none = s.links.parent :=
      Function.update_eq_self_iff.mpr hp.symm
    convert hm using 1
    change { (s.yielding g a k).links with stack := rest } = _
    rw [links_yielding, hpar]
  | @yieldInto g p rest _ _ a _ k x _ hs hc _ hk hp hr =>
    have hm := Links.Move.yieldInto hs (shape_of_ctl hc) hk hp
    convert hm using 1
    rw [links_continueAt, clearChild, links_setSub, links_yielding]
    rfl
  | @returnUp i rest _ _ a _ hs hc _ hk hp =>
    have hm := Links.Move.finishUp hs (shape_of_ctl hc) fun _ => hp
    convert hm using 1
    change { (s.returning i a).links with stack := rest } = _
    rw [links_returning]
    rfl
  | @returnInto i p rest _ _ a _ x _ hs hc _ hk hp hr =>
    have hm := Links.Move.finishInto hs (shape_of_ctl hc) hk hp
    convert hm using 1
    rw [links_continueAt, clearChild, links_setSub, links_returning]
    rfl
  | @finish i rest _ _ _ _ hs hc _ hk =>
    have hm := Links.Move.finishUp hs (shape_of_ctl hc) fun h => absurd h hk
    convert hm using 1
    change { (s.goto i .done).links with stack := rest } = _
    rw [links_goto]
    rfl
  | @resume v x _ hs hm hr =>
    have hz := hr.resumable
    rw [links_cleared] at hz
    have hmv := Links.Move.resume hs (mayResume_cases hm) hz (not_done_of_mayResume hm)
    convert hmv using 1
    rw [links_continueAt, links_cleared]
    rfl

end State
end Eslang.Coroutine
