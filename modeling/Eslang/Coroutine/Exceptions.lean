import Eslang.Coroutine.Wellformed

/-! # Exceptions that leave a coroutine (`PromiseBase::unhandled_exception`)

`unhandled_exception` throws again, so an exception that a coroutine does not handle leaves the call
that resumed it. The native frames below the running coroutine decide where it arrives: a caller of a
method or of `next()`, a coroutine in the `await_suspend` from which it resumed its parent
(`SuspendRunNext`, `YieldSuspender`), and at last `RunningProcess::resume`, which kills the process. A
`Program` says which states throw, and which have a `try` block around them. -/
namespace Eslang.Coroutine
set_option autoImplicit false
open Lib

structure Program (σ V W E : Type) where
  code : Code σ V W
  throws : σ → Option E
  /-- The handler of the `try` block around what is done in a state. -/
  tries : σ → Option (E → σ)

/-- A native frame of a coroutine. -/
inductive Frame (σ E : Type)
  | run (i : Handle)
  /-- At its final suspend point, in `SuspendRunNext::await_suspend`. -/
  | returned (i : Handle)
  /-- In `YieldSuspender::await_suspend`, with the handler of the `try` block around the `co_yield`. -/
  | yielded (g : Handle) (h : Option (E → σ))

def Frame.running {σ E : Type} : Frame σ E → Option Handle
  | .run i => some i
  | .returned _ | .yielded _ _ => none

/-- In the middle of a `co_yield`, with the consumer above it. -/
def Frame.inverted {σ E : Type} : Frame σ E → Bool
  | .yielded _ _ => true
  | .run _ | .returned _ => false

structure Thread (σ V W E : Type) where
  base : State σ V W
  /-- The native frames above `ProcessTask::resume`, the innermost first. -/
  native : List (Frame σ E) := []
  /-- The handler around what each coroutine is doing. -/
  handler : Handle → Option (E → σ) := fun _ => none
  killed : Bool := false

/-- What is seen of a step: the events of the coroutines, or the coroutines in which an exception was
raised and the one that caught it. -/
inductive Obs (V : Type)
  | event (e : Event V)
  | thrown (path : List Handle) (caught : Option Handle)
deriving DecidableEq, Repr

namespace Thread
variable {σ V W E : Type}

def init (body : σ) : Thread σ V W E := { base := State.init body }

/-- A frame in an `await_suspend` returns when the call it made returns. -/
def settle : List (Frame σ E) → List (Frame σ E)
  | .returned _ :: rest | .yielded _ _ :: rest => settle rest
  | rest => rest

/-- The native frames after a step from the stack `before` to the stack `after`: a call, the return from
a call, no change, or a coroutine that resumes its parent and stays in its frame `left`. -/
def follow (left : Frame σ E) (before after : List Handle) (frames : List (Frame σ E)) :
    List (Frame σ E) :=
  if before.length < after.length then (after.head?.map Frame.run).toList ++ frames
  else if after.length < before.length then settle frames.tail
  else if after.head? = before.head? then frames
  else (after.head?.map Frame.run).toList ++ left :: frames.tail

/-- The state in which the running coroutine is about to go on. -/
def at_ (s : Thread σ V W E) : Option (Handle × σ) :=
  match s.base.stack with
  | [] => none
  | i :: _ =>
      match (s.base.promises i).ctl with
      | .code c => some (i, c)
      | _ => none

/-- The running coroutine enters the `try` block of what it does next. -/
def entered (p : Program σ V W E) (s : Thread σ V W E) : Thread σ V W E :=
  match s.at_ with
  | some (i, c) => { s with handler := Function.update s.handler i (p.tries c) }
  | none => s

def throwing (p : Program σ V W E) (s : Thread σ V W E) : Label V → Option E
  | .tick _ _ => s.at_.bind fun a => p.throws a.2
  | .resume _ => none

/-- The frame in which the running coroutine stays when it resumes its parent. -/
def left (s : Thread σ V W E) (i : Handle) : Frame σ E :=
  if (s.base.promises i).kind = .gen then .yielded i (s.handler i) else .returned i

/-! ## The way of an exception -/

def die (s : Thread σ V W E) (i : Handle) : Thread σ V W E := { s with base := s.base.goto i .done }

def land (s : Thread σ V W E) (i : Handle) (x : σ) (rest : List (Frame σ E)) : Thread σ V W E :=
  { s with
    base := { s.base.goto i (.code x) with stack := i :: rest.filterMap Frame.running }
    native := .run i :: rest }

/-- The exception `e` passes the native frames. The result has the coroutines in which it was raised,
and the one that caught it. -/
def unwind (s : Thread σ V W E) (e : E) :
    List (Frame σ E) → Thread σ V W E × List Handle × Option Handle
  | [] => ({ s with base := { s.base with stack := [] }, native := [], killed := true }, [], none)
  | .run i :: rest =>
      match s.handler i with
      | some h => (s.land i (h e) rest, [i], some i)
      | none =>
          let r := (s.die i).unwind e rest
          (r.1, i :: r.2.1, r.2.2)
  | .returned _ :: rest => s.unwind e rest
  | .yielded g (some h) :: rest => (s.land g (h e) rest, [g], some g)
  | .yielded g none :: rest =>
      let r := (s.die g).unwind e rest
      (r.1, g :: r.2.1, r.2.2)

/-- The native frames after a step of the coroutines to `t`. -/
def nativeAfter (s : Thread σ V W E) (t : State σ V W) : List (Frame σ E) :=
  match s.base.stack with
  | [] => t.stack.map .run
  | i :: _ => follow (s.left i) s.base.stack t.stack s.native

def step (p : Program σ V W E) (s : Thread σ V W E) (l : Label V) :
    Option (Thread σ V W E × List (Obs V)) :=
  if s.killed then none
  else
    match s.throwing p l with
    | some e =>
        let r := (s.entered p).unwind e s.native
        some (r.1, [.thrown r.2.1 r.2.2])
    | none =>
        (s.base.step p.code l).map fun r =>
          ({ s.entered p with base := r.1, native := (s.entered p).nativeAfter r.1 }, r.2.map .event)

end Thread

/-- The coroutines of a process whose bodies may throw. -/
def Program.machine {σ V W E : Type} (p : Program σ V W E) :
    System (Thread σ V W E) (Label V) (Obs V) :=
  ⟨Thread.step p⟩

/-! ## Where an exception should arrive -/

namespace Thread
variable {σ V W E : Type}

/-- Coroutine `p` awaits coroutine `i`, whether `i` has suspended or not. -/
def Awaits (s : Thread σ V W E) (p i : Handle) : Prop := (s.base.promises p).ctl.task = some i

/-- An exception that is raised in `i` is handled there, or raised in the coroutine that awaits `i`, or
leaves the process if no coroutine does: the coroutines in which it is raised, and the one that
catches it. -/
inductive Surfaces (s : Thread σ V W E) : Handle → List Handle → Option Handle → Prop
  | caught {i : Handle} (h : (s.handler i).isSome) : Surfaces s i [i] (some i)
  | passed {i p : Handle} {path : List Handle} {c : Option Handle} (h : s.handler i = none)
      (ha : s.Awaits p i) (hp : Surfaces s p path c) : Surfaces s i (i :: path) c
  | escaped {i : Handle} (h : s.handler i = none) (hn : ∀ p, ¬ s.Awaits p i) :
      Surfaces s i [i] none

/-- A coroutine handles the exception that is above all generators in the middle of a `co_yield`, or there is
no such generator and the lowest coroutine of the native stack is awaited by none. -/
def Direct (s : Thread σ V W E) : Prop :=
  (∃ f ∈ s.native.takeWhile fun f => !f.inverted, f.running.any fun i => (s.handler i).isSome) ∨
    (∀ x, s.base.stack.getLast? = some x → ∀ p, ¬ s.Awaits p x) ∧ ∀ g h, .yielded g h ∉ s.native

end Thread

/-! ## The native frames of a run -/

theorem Links.Move.stack_cases {W : Type} {l l' : Links W} (h : l.Move l') (hl : l.Wf) :
    l'.stack = l.stack ∨ (∃ i, l.stack = i :: l'.stack) ∨ (∃ n, l'.stack = n :: l.stack) ∨
      ∃ i p, l.stack = [i] ∧ l'.stack = [p] ∧ p ≠ i := by
  cases h with
  | stay | collect | gen | returned => exact .inl rfl
  | @wait i rest w hs ha => exact .inr (.inl ⟨i, hs⟩)
  | @start i rest hs ha => exact .inr (.inr (.inl ⟨l.count, by rw [hs]⟩))
  | @call i g rest hs ha hk hg => exact .inr (.inr (.inl ⟨g, by rw [hs]⟩))
  | @join i n rest m hs ha hk hn hj hd hr hm => exact .inr (.inl ⟨i, hs⟩)
  | @awaitNext i g rest m hs hc hr hm => exact .inr (.inl ⟨i, hs⟩)
  | @yieldUp g rest hs ha hk hp => exact .inr (.inl ⟨g, hs⟩)
  | @yieldInto g p rest hs ha hk hp =>
    cases hl.native.alone hs hp
    refine .inr (.inr (.inr ⟨g, p, hs, rfl, fun he => ?_⟩))
    have hpa := hl.chained.parent_awaits p g hp (.inr hk)
    rw [he, ha] at hpa
    cases hpa
  | @finishUp i rest hs ha hp => exact .inr (.inl ⟨i, hs⟩)
  | @finishInto i p rest hs ha hk hp =>
    cases hl.native.alone hs hp
    refine .inr (.inr (.inr ⟨i, p, hs, rfl, fun he => ?_⟩))
    have hpa := hl.chained.parent_awaits p i hp (.inl (by simp [ha]))
    rw [he, ha] at hpa
    cases hpa
  | resume hs hr hz => exact .inr (.inr (.inl ⟨_, by rw [hs]⟩))

namespace Thread
variable {σ V W E : Type}

/-- No frame of a running coroutine. -/
def Residue (rest : List (Frame σ E)) : Prop := ∀ f ∈ rest, f.running = none

theorem settle_residue {rest : List (Frame σ E)} (h : Residue rest) : settle rest = [] := by
  induction rest with
  | nil => rfl
  | cons f rest ih =>
    have hrest := ih fun f' hf' => h f' (List.mem_cons_of_mem f hf')
    cases f with
    | run i => cases h (.run i) (by simp)
    | returned i => exact hrest
    | yielded g k => exact hrest

theorem settle_run (i : Handle) (rest : List (Frame σ E)) : settle (.run i :: rest) = .run i :: rest :=
  rfl

/-- The coroutines of the stack have the innermost frames, in this order. -/
structure Aligned (s : Thread σ V W E) : Prop where
  wf : s.base.links.Wf
  frames : ∃ rest, s.native = s.base.stack.map .run ++ rest ∧ Residue rest ∧
    (s.base.stack = [] → rest = [])

theorem left_running (s : Thread σ V W E) (i : Handle) : (s.left i).running = none := by
  unfold left
  split_ifs <;> rfl

theorem nativeAfter_frames {s : Thread σ V W E} {t : State σ V W} (h : s.Aligned)
    (hm : s.base.links.Move t.links) :
    ∃ rest, s.nativeAfter t = t.stack.map .run ++ rest ∧ Residue rest ∧ (t.stack = [] → rest = []) := by
  obtain ⟨rest, hn, hrest, hempty⟩ := h.frames
  have hcases : t.stack = s.base.stack ∨ (∃ i, s.base.stack = i :: t.stack) ∨
      (∃ n, t.stack = n :: s.base.stack) ∨ ∃ i p, s.base.stack = [i] ∧ t.stack = [p] ∧ p ≠ i :=
    hm.stack_cases h.wf
  cases hs : s.base.stack with
  | nil =>
    refine ⟨[], ?_, by simp [Residue], fun _ => rfl⟩
    simp [nativeAfter, hs]
  | cons i st =>
    rw [hs] at hcases hn hempty
    simp only [nativeAfter, hs, hn]
    rcases hcases with ht | ⟨j, hj⟩ | ⟨n, ht⟩ | ⟨j, p, hj, ht, hne⟩
    · refine ⟨rest, ?_, hrest, fun he => by rw [ht] at he; cases he⟩
      simp [follow, ht]
    · cases hj
      cases hts : t.stack with
      | nil =>
        refine ⟨[], ?_, by simp [Residue], fun _ => rfl⟩
        simpa [follow, hts] using settle_residue hrest
      | cons b st =>
        refine ⟨rest, ?_, hrest, by simp⟩
        simp [follow, settle_run]
    · refine ⟨rest, ?_, hrest, fun he => by rw [ht] at he; cases he⟩
      simp [follow, ht]
    · cases hj
      refine ⟨s.left i :: rest, ?_, ?_, fun he => by rw [ht] at he; cases he⟩
      · simp [follow, ht, hne]
      · intro f hf
        rcases List.mem_cons.mp hf with rfl | hf
        · exact s.left_running i
        · exact hrest f hf

/-! ## An exception on the native stack -/

/-- The exception leaves the coroutines of `st`. -/
def dieAll (s : Thread σ V W E) (st : List Handle) : Thread σ V W E := st.foldl die s

theorem dieAll_frame (s : Thread σ V W E) (st : List Handle) :
    (s.dieAll st).handler = s.handler ∧ (s.dieAll st).killed = s.killed := by
  induction st generalizing s with
  | nil => exact ⟨rfl, rfl⟩
  | cons i st ih => exact ih (s.die i)

theorem unwind_pass {s : Thread σ V W E} {e : E} {st : List Handle} {rest : List (Frame σ E)}
    (h : ∀ i ∈ st, s.handler i = none) :
    s.unwind e (st.map .run ++ rest) =
      (((s.dieAll st).unwind e rest).1, st ++ ((s.dieAll st).unwind e rest).2.1,
        ((s.dieAll st).unwind e rest).2.2) := by
  induction st generalizing s with
  | nil => rfl
  | cons i st ih =>
    have hi := h i (by simp)
    have hrest := ih (s := s.die i) fun j hj => h j (List.mem_cons_of_mem i hj)
    simp only [List.map_cons, List.cons_append, unwind, hi, hrest]
    rfl

theorem unwind_returned {s : Thread σ V W E} {e : E} {rest : List (Frame σ E)} (h : Residue rest)
    (hy : ∀ g k, .yielded g k ∉ rest) : s.unwind e rest = s.unwind e [] := by
  induction rest with
  | nil => rfl
  | cons f rest ih =>
    have hrest := ih (fun f' hf' => h f' (List.mem_cons_of_mem f hf'))
      fun g k hg => hy g k (List.mem_cons_of_mem f hg)
    cases f with
    | run i => cases h (.run i) (by simp)
    | returned i => exact hrest
    | yielded g k => exact absurd (by simp) (hy g k)

theorem exists_first {s : Thread σ V W E} {st : List Handle}
    (h : ∃ i ∈ st, (s.handler i).isSome) :
    ∃ pre j post k, st = pre ++ j :: post ∧ (∀ i ∈ pre, s.handler i = none) ∧ s.handler j = some k := by
  induction st with
  | nil => simp at h
  | cons i st ih =>
    cases hi : s.handler i with
    | some k => exact ⟨[], i, st, k, rfl, by simp, hi⟩
    | none =>
      have hrest : ∃ j ∈ st, (s.handler j).isSome := by
        obtain ⟨j, hj, hk⟩ := h
        rcases List.mem_cons.mp hj with rfl | hj
        · simp [hi] at hk
        · exact ⟨j, hj, hk⟩
      obtain ⟨pre, j, post, k, rfl, hpre, hj⟩ := ih hrest
      refine ⟨i :: pre, j, post, k, rfl, fun a ha => ?_, hj⟩
      rcases List.mem_cons.mp ha with rfl | ha
      · exact hi
      · exact hpre a ha

theorem awaits_of_chain {s : Thread σ V W E} {a b : Handle}
    (h : ∃ k, s.base.links.shape b = .calls k a) : s.Awaits b a := by
  obtain ⟨k, hk⟩ := h
  have hk' : (s.base.promises b).ctl.shape = .calls k a := hk
  unfold Awaits
  cases hc : (s.base.promises b).ctl with
  | calling n _ | resuming n _ =>
    rw [hc] at hk'
    cases hk'
    rfl
  | code _ | waiting _ _ | joining _ _ | nexting _ _ | idle _ | done =>
    rw [hc] at hk'
    cases hk'

theorem surfaces_caught {s : Thread σ V W E} {i : Handle} {pre post : List Handle} {j : Handle}
    {st : List Handle} (hst : i :: st = pre ++ j :: post)
    (hchain : (i :: st).IsChain fun a b => ∃ k, s.base.links.shape b = .calls k a)
    (hpre : ∀ a ∈ pre, s.handler a = none) (hj : (s.handler j).isSome) :
    s.Surfaces i (pre ++ [j]) (some j) := by
  induction pre generalizing i st with
  | nil =>
    cases hst
    exact .caught hj
  | cons a pre ih =>
    simp only [List.cons_append, List.cons.injEq] at hst
    obtain ⟨rfl, rfl⟩ := hst
    have ha := hpre i (by simp)
    cases pre with
    | nil =>
      obtain ⟨hb, -⟩ := List.isChain_cons_cons.mp hchain
      exact .passed ha (awaits_of_chain hb) (.caught hj)
    | cons b pre =>
      obtain ⟨hb, hrest⟩ := List.isChain_cons_cons.mp hchain
      exact .passed ha (awaits_of_chain hb)
        (ih rfl hrest fun a ha' => hpre a (List.mem_cons_of_mem i ha'))

theorem surfaces_escaped {s : Thread σ V W E} {i x : Handle} {st : List Handle}
    (hchain : (i :: st).IsChain fun a b => ∃ k, s.base.links.shape b = .calls k a)
    (hno : ∀ a ∈ i :: st, s.handler a = none) (hx : (i :: st).getLast? = some x)
    (hlast : ∀ p, ¬ s.Awaits p x) : s.Surfaces i (i :: st) none := by
  induction st generalizing i with
  | nil =>
    cases hx
    exact .escaped (hno i (by simp)) hlast
  | cons b st ih =>
    obtain ⟨hb, hrest⟩ := List.isChain_cons_cons.mp hchain
    refine .passed (hno i (by simp)) (awaits_of_chain hb) (ih hrest ?_ ?_)
    · exact fun a ha => hno a (List.mem_cons_of_mem i ha)
    · simpa using hx

end Thread

/-- The coroutines above `j` are dead and `j` goes on: as if they had returned one after the other. -/
theorem Links.Wf.landed {W : Type} {l : Links W} {pre post : List Handle} {j : Handle} (hl : l.Wf)
    (hs : l.stack = pre ++ j :: post) (ha : ∀ i, l.stack.head? = some i → l.shape i = .active) :
    Wf { l with
      shape := fun a => if a = j then .active else if a ∈ pre then .done else l.shape a
      stack := j :: post } := by
  induction pre generalizing l with
  | nil =>
    have hj := ha j (by simp [hs])
    have hshape : (fun a => if a = j then .active else if a ∈ [] then .done else l.shape a) = l.shape := by
      funext a
      by_cases haj : a = j
      · simp [haj, hj]
      · simp [haj]
    rw [hshape, ← show l.stack = j :: post from hs]
    exact hl
  | cons i pre ih =>
    have hi := ha i (by simp [hs])
    obtain ⟨c, rest, hc⟩ : ∃ c rest, pre ++ j :: post = c :: rest := by
      cases pre with
      | nil => exact ⟨j, post, rfl⟩
      | cons c pre => exact ⟨c, pre ++ j :: post, rfl⟩
    have hstack : l.stack = i :: c :: rest := by rw [hs, List.cons_append, hc]
    have hcaller := hl.native.caller hstack
    have hic : c ≠ i := fun he => hl.native.not_mem_rest hstack (by simp [he])
    have hnest : l.Nested := fun a rest' g hs' hg => by
      cases hstack.symm.trans hs'
      rw [hi] at hg
      cases hg
    have hpar : l.kind i = .method → l.parent i = none := fun _ =>
      (hl.native.called c _ i hcaller).2.2.2
    have h1 := (Move.finishUp hstack hi hpar).wf hl hnest
    have hsub : l.sub i = none := hl.sub_eq_none (by simp [hi])
    have hcaller1 : Function.update l.shape i .done c = .calls (l.kind i) i := by
      rw [Function.update_of_ne hic]
      exact hcaller
    have h2 := (Move.returned (l := { l with
        shape := Function.update l.shape i .done, stack := c :: rest }) rfl hcaller1 (fun hk => by
      have hw := (hl.waits.called c i (hk ▸ hcaller)).resolve_left (by simp [hi])
      simp [isSuspended, hsub, hw])).wf h1 fun a rest' g hs' hg hlead => by
        cases hs'
        change Function.update l.shape i .done c = .calls .gen g at hg
        rw [Function.update_of_ne hic, hcaller] at hg
        obtain ⟨-, rfl⟩ := Shape.calls.inj hg
        exact hic (Leads.of_end hlead hsub)
    have h3 := ih h2 (by rw [hc]; rfl) fun a ha' => by
      cases ha'
      exact Function.update_self _ _ _
    have hcmem : c = j ∨ c ∈ pre := by
      cases pre with
      | nil => exact .inl (by simpa using (List.cons.inj hc).1.symm)
      | cons c' pre => exact .inr (by simp [(List.cons.inj hc).1])
    have hshape : (fun a => if a = j then .active else if a ∈ i :: pre then .done else l.shape a) =
        fun a => if a = j then .active else if a ∈ pre then .done else
          Function.update (Function.update l.shape i .done) c .active a := by
      funext a
      by_cases haj : a = j
      · simp [haj]
      · by_cases hap : a ∈ pre
        · simp [haj, hap]
        · have hac : a ≠ c := by
            rintro rfl
            exact hcmem.elim haj hap
          by_cases hai : a = i
          · subst hai
            simp [haj, hap, hac]
          · simp [haj, hap, hai, hac]
    rw [hshape]
    exact h3

namespace Thread
variable {σ V W E : Type}

theorem links_dieAll (s : Thread σ V W E) (st : List Handle) :
    (s.dieAll st).base.links =
      { s.base.links with shape := fun a => if a ∈ st then .done else s.base.links.shape a } := by
  induction st generalizing s with
  | nil => simp [dieAll]
  | cons i st ih =>
    have hstep : (s.dieAll (i :: st)) = (s.die i).dieAll st := rfl
    have hlinks : (s.die i).base.links = s.base.links.turn i .done := State.links_goto _ i .done
    rw [hstep, ih, hlinks]
    ext : 1
    case shape =>
      funext a
      simp only [Links.turn, Function.update_apply, List.mem_cons]
      grind
    all_goals rfl

theorem filterMap_running {post : List Handle} {rest : List (Frame σ E)} (h : Residue rest) :
    (post.map Frame.run ++ rest).filterMap Frame.running = post := by
  rw [List.filterMap_append, List.filterMap_map]
  have hrest : rest.filterMap Frame.running = [] := List.filterMap_eq_nil_iff.mpr h
  rw [hrest, List.append_nil]
  exact List.filterMap_some

theorem land_aligned {s : Thread σ V W E} {pre post : List Handle} {j : Handle} {x : σ}
    {rest : List (Frame σ E)} (h : s.base.links.Wf) (hs : s.base.stack = pre ++ j :: post)
    (ha : ∀ i, s.base.stack.head? = some i → s.base.links.shape i = .active) (hr : Residue rest) :
    ((s.dieAll pre).land j x (post.map .run ++ rest)).Aligned := by
  refine ⟨?_, rest, ?_, hr, by simp [land]⟩
  · have hl := Links.Wf.landed h hs ha
    convert hl using 1
    have hgoto : (((s.dieAll pre).base.goto j (.code x))).links =
        (s.dieAll pre).base.links.turn j .active := State.links_goto _ j (.code x)
    change { ((s.dieAll pre).base.goto j (.code x)).links with
      stack := j :: (post.map Frame.run ++ rest).filterMap Frame.running } = _
    rw [hgoto, links_dieAll, filterMap_running hr]
    ext : 1
    case shape =>
      funext a
      simp only [Links.turn, Function.update_apply]
    all_goals rfl
  · simp [land, filterMap_running hr]

/-! ## Runs -/

theorem entered_eq (p : Program σ V W E) (s : Thread σ V W E) :
    (s.entered p).base = s.base ∧ (s.entered p).native = s.native ∧
      (s.entered p).killed = s.killed := by
  unfold entered
  split <;> exact ⟨rfl, rfl, rfl⟩

theorem throwing_cases {p : Program σ V W E} {s : Thread σ V W E} {l : Label V} {e : E}
    (h : s.throwing p l = some e) :
    ∃ i rest, s.base.stack = i :: rest ∧ s.base.links.shape i = .active := by
  cases l with
  | resume v => cases h
  | tick ready v =>
    obtain ⟨⟨i, c⟩, ha, -⟩ := Option.bind_eq_some_iff.mp h
    simp only [at_] at ha
    split at ha
    case h_1 => cases ha
    case h_2 i' rest hs =>
      split at ha
      case h_1 c' hc => exact ⟨i', rest, hs, State.shape_of_ctl hc⟩
      case h_2 => cases ha

/-- What became of an exception `e`: it was caught by `c`, which goes on with its handler, or it has
killed the process. -/
def Outcome (s t : Thread σ V W E) (e : E) (c : Option Handle) : Prop :=
  t.killed = c.isNone ∧ ∀ j, c = some j → ∃ k, s.handler j = some k ∧
    (t.base.promises j).ctl = .code (k e) ∧ t.base.stack.head? = some j

theorem Aligned.catches {s : Thread σ V W E} (h : s.Aligned)
    (hd : ∃ f ∈ s.native.takeWhile fun f => !f.inverted, f.running.any fun i => (s.handler i).isSome) :
    ∃ i ∈ s.base.stack, (s.handler i).isSome := by
  obtain ⟨R, hn, hR, -⟩ := h.frames
  obtain ⟨f, hf, hi⟩ := hd
  have hmem : f ∈ s.base.stack.map .run ++ R := hn ▸ (List.takeWhile_sublist _).mem hf
  obtain ⟨i, hfi, hi⟩ := (Option.any_eq_true _ _).mp hi
  rcases List.mem_append.mp hmem with hmem | hmem
  · obtain ⟨j, hj, rfl⟩ := List.mem_map.mp hmem
    cases hfi
    exact ⟨_, hj, hi⟩
  · rw [hR f hmem] at hfi
    cases hfi

theorem unwind_direct {s : Thread σ V W E} {e : E} {i : Handle} {rest : List Handle} (h : s.Aligned)
    (hk : s.killed = false) (hs : s.base.stack = i :: rest) (ha : s.base.links.shape i = .active)
    (hd : s.Direct) :
    ((s.unwind e s.native).1.killed = true ∨ (s.unwind e s.native).1.Aligned) ∧
      s.Surfaces i (s.unwind e s.native).2.1 (s.unwind e s.native).2.2 ∧
      s.Outcome (s.unwind e s.native).1 e (s.unwind e s.native).2.2 := by
  obtain ⟨R, hn, hR, -⟩ := h.frames
  have hchain := h.wf.native.chain
  have hchain' : (i :: rest).IsChain fun a b => ∃ k, s.base.links.shape b = .calls k a := by
    rw [← hs]
    exact hchain
  by_cases hcatch : ∃ a ∈ s.base.stack, (s.handler a).isSome
  · obtain ⟨pre, j, post, k, hst, hpre, hj⟩ := exists_first hcatch
    have hun : s.unwind e s.native =
        ((s.dieAll pre).land j (k e) (post.map .run ++ R), pre ++ [j], some j) := by
      have hj' : (s.dieAll pre).handler j = some k := by rw [(s.dieAll_frame pre).1]; exact hj
      rw [hn, hst, List.map_append, List.append_assoc, unwind_pass hpre]
      simp [unwind, hj']
    rw [hun]
    refine ⟨.inr (land_aligned h.wf hst (fun a ha' => ?_) hR), ?_, ?_, ?_⟩
    · rw [hs] at ha'
      cases ha'
      exact ha
    · exact surfaces_caught (hs.symm.trans hst) hchain' hpre (by simp [hj])
    · change (s.dieAll pre).killed = false
      rw [(s.dieAll_frame pre).2, hk]
    · rintro j' ⟨⟩
      exact ⟨k, hj, by simp [land, State.goto, State.update], rfl⟩
  · obtain ⟨hlast, hy⟩ := hd.resolve_left fun hd => hcatch (h.catches hd)
    have hnone : ∀ a ∈ s.base.stack, s.handler a = none := by
      intro a ha'
      by_contra hne
      exact hcatch ⟨a, ha', Option.isSome_iff_ne_none.mpr hne⟩
    have hRy : ∀ g k, .yielded g k ∉ R := fun g k hg => hy g k (by rw [hn]; simp [hg])
    have hun : s.unwind e s.native =
        (((s.dieAll s.base.stack).unwind e []).1, s.base.stack, none) := by
      rw [hn, unwind_pass hnone, unwind_returned hR hRy]
      simp [unwind]
    rw [hun]
    refine ⟨.inl rfl, ?_, rfl, by simp⟩
    obtain ⟨x, hx⟩ : ∃ x, (i :: rest).getLast? = some x := ⟨_, List.getLast?_cons⟩
    rw [hs]
    refine surfaces_escaped hchain' ?_ hx (hlast x (by rw [hs]; exact hx))
    rw [← hs]
    exact hnone

/-- The condition on a step: no coroutine takes up a task in use or waits for itself, and an exception is
thrown only where the native stack leads it to its awaiters. -/
def Contained (p : Program σ V W E) (s : Thread σ V W E) (l : Label V) : Prop :=
  (s.throwing p l = none → s.base.Nested p.code l) ∧
    ∀ e, s.throwing p l = some e → (s.entered p).Direct

theorem entered_aligned {p : Program σ V W E} {s : Thread σ V W E} (h : s.Aligned) :
    (s.entered p).Aligned := by
  obtain ⟨hb, hn, -⟩ := entered_eq p s
  refine ⟨by rw [hb]; exact h.wf, ?_⟩
  rw [hb, hn]
  exact h.frames

theorem step_thrown {p : Program σ V W E} {s t : Thread σ V W E} {l : Label V} {e : E}
    {out : List (Obs V)} (h : s.Aligned) (ht : s.throwing p l = some e)
    (hd : (s.entered p).Direct) (hs : s.step p l = some (t, out)) :
    (t.killed = true ∨ t.Aligned) ∧ ∃ i path c, s.base.stack.head? = some i ∧
      out = [.thrown path c] ∧ (s.entered p).Surfaces i path c ∧ (s.entered p).Outcome t e c := by
  obtain ⟨hb, hn, hk⟩ := entered_eq p s
  unfold step at hs
  split at hs
  case isTrue => cases hs
  case isFalse hkill =>
    rw [ht] at hs
    cases hs
    obtain ⟨i, rest, hstack, ha⟩ := throwing_cases ht
    obtain ⟨h1, h2, h3⟩ := unwind_direct (e := e) (entered_aligned h) (hk.trans (by simpa using hkill))
      (by rw [hb]; exact hstack) (by rw [hb]; exact ha) hd
    rw [hn] at h1 h2 h3
    exact ⟨h1, i, _, _, by rw [hstack]; rfl, rfl, h2, h3⟩

theorem step_aligned {p : Program σ V W E} {s t : Thread σ V W E} {l : Label V} {out : List (Obs V)}
    (h : s.Aligned) (hc : Contained p s l) (hs : s.step p l = some (t, out)) :
    t.killed = true ∨ t.Aligned := by
  cases ht : s.throwing p l with
  | some e => exact (step_thrown h ht (hc.2 e ht) hs).1
  | none =>
    unfold step at hs
    split at hs
    case isTrue => cases hs
    case isFalse =>
      rw [ht] at hs
      obtain ⟨r, hr, he⟩ := Option.map_eq_some_iff.mp hs
      cases he
      obtain ⟨hu, hn⟩ := hc.1 ht
      have hstep : s.base.Step p.code l r.1 r.2 := State.step_cases hu hr
      have hmove : s.base.links.Move r.1.links := hstep.move
      refine .inr ⟨hmove.wf h.wf hn, ?_⟩
      apply nativeAfter_frames (entered_aligned h)
      rw [(entered_eq p s).1]
      exact hmove

theorem run_aligned {p : Program σ V W E} {body : σ} {s : Thread σ V W E} {tr : List (Obs V)}
    (h : p.machine.Run (Contained p) (init body) tr s) : s.killed = true ∨ s.Aligned := by
  refine h.invariant (fun _ s => s.killed = true ∨ s.Aligned) (.inr ?_) ?_
  · exact ⟨State.init_wf body, [], rfl, by simp [Residue], fun _ => rfl⟩
  · intro _ s l t out hi hc hs
    rcases hi with hk | ha
    · simp [Program.machine, step, hk] at hs
    · exact step_aligned ha hc hs

/-! ## Main result -/

/-- **An exception arrives at the coroutines that await the throwing one.** In a run in which tasks are
used by one coroutine at a time, and every exception is thrown where a coroutine on the native stack, above
all generators in the middle of a `co_yield`, handles it, or where the lowest coroutine is awaited by none
and no generator is in the middle of a `co_yield` below it, each exception is raised in
the throwing coroutine, then in the one that awaits it, and so on up to the first that handles it,
which goes on; the process is killed if there is none. -/
theorem exceptions_reach_awaiters {p : Program σ V W E} {body : σ} {s t : Thread σ V W E}
    {tr : List (Obs V)} {l : Label V} {e : E} {out : List (Obs V)}
    (h : p.machine.Run (Contained p) (init body) tr s) (hc : Contained p s l)
    (ht : s.throwing p l = some e) (hs : p.machine.step s l = some (t, out)) :
    ∃ i path c, s.base.stack.head? = some i ∧ out = [.thrown path c] ∧
      (s.entered p).Surfaces i path c ∧ (s.entered p).Outcome t e c := by
  rcases run_aligned h with hk | ha
  · simp [Program.machine, step, hk] at hs
  · exact (step_thrown ha ht (hc.2 e ht) hs).2

/-- An executable test that implies the condition: a coroutine of the stack handles the exception. -/
def contained (p : Program σ V W E) (s : Thread σ V W E) (l : Label V) : Bool :=
  s.base.nested p.code l &&
    ((s.throwing p l).isNone || ((s.entered p).native.takeWhile fun f => !f.inverted).any
      fun f => f.running.any fun i => ((s.entered p).handler i).isSome)

theorem contained_sound {p : Program σ V W E} {s : Thread σ V W E} {l : Label V}
    (h : s.contained p l = true) : Contained p s l := by
  simp only [contained, Bool.and_eq_true, Bool.or_eq_true, List.any_eq_true] at h
  refine ⟨fun _ => State.nested_sound h.1, fun e he => .inl (h.2.resolve_left ?_)⟩
  simp [he]

/-- The process calls a method in a `try` block (state 0), or awaits it in one (state 3); the method
throws at once, or after it has waited. -/
def failing (eager : Bool) : Program Nat Nat Unit Nat where
  code
    | 0 => .start 10 fun _ => 3
    | 3 => .join 1 fun _ => 9
    | 10 => .await () fun _ => 11
    | _ => .ret 0
  throws c := if c = (if eager then 10 else 11) then some 5 else none
  tries c := if c = 0 ∨ c = 3 then some fun e => 20 + e else none

/-- The method throws in its call, and the process catches it there. -/
theorem exceptions_reach_awaiters_eager : ∃ s t path c,
    (failing true).machine.step s (.tick true 0) = some (t, [.thrown path c]) ∧
      (s.entered (failing true)).Surfaces 1 path c ∧
      (s.entered (failing true)).Outcome t 5 c := by
  obtain ⟨tr, s, hrun, hthrow, hstep, hhead, hcont⟩ := System.exec_reaches (M := (failing true).machine)
    (g := contained (failing true)) (G := Contained (failing true)) (fun _ _ => contained_sound)
    (w := [.resume 0, .tick true 0]) (s := init 0)
    (P := fun _ s => s.throwing (failing true) (.tick true 0) = some 5 ∧
      ((failing true).machine.step s (.tick true 0)).isSome = true ∧ s.base.stack.head? = some 1 ∧
      s.contained (failing true) (.tick true 0) = true) (by decide)
  obtain ⟨⟨t, out⟩, hs⟩ := Option.isSome_iff_exists.mp hstep
  obtain ⟨i, path, c, hi, rfl, hsur, hout⟩ :=
    exceptions_reach_awaiters hrun (contained_sound hcont) hthrow hs
  cases hhead.symm.trans hi
  exact ⟨s, t, path, c, hs, hsur, hout⟩

/-- The same program, but the method throws after it has waited: the process is killed, although it
awaits the method in a `try` block. -/
theorem exception_misses_awaiter : ∃ tr s t,
    (failing false).machine.Run (fun s l => s.base.Nested (failing false).code l) (init 0) tr s ∧
      (failing false).machine.step s (.tick true 0) = some (t, [.thrown [1] none]) ∧
      t.killed = true ∧ (s.entered (failing false)).Surfaces 1 [1, 0] (some 0) ∧
      ¬ (s.entered (failing false)).Surfaces 1 [1] none := by
  obtain ⟨tr, s, hrun, hstep, hnone, hawaits, hsome⟩ := System.exec_reaches
    (M := (failing false).machine) (g := fun s l => s.base.nested (failing false).code l)
    (G := fun s l => s.base.Nested (failing false).code l) (fun _ _ => State.nested_sound)
    (w := [.resume 0, .tick true 0, .tick false 0, .tick true 0, .tick true 0, .resume 0]) (s := init 0)
    (P := fun _ s => ((failing false).machine.step s (.tick true 0)).any
        (fun r => r.2 = [.thrown [1] none] ∧ r.1.killed = true) = true ∧
      ((s.entered (failing false)).handler 1).isNone = true ∧
      ((s.entered (failing false)).base.promises 0).ctl.task = some 1 ∧
      ((s.entered (failing false)).handler 0).isSome = true) (by decide)
  rw [Option.any_eq_true] at hstep
  obtain ⟨⟨t, out⟩, hs, hr⟩ := hstep
  obtain ⟨rfl, hk⟩ : out = [.thrown [1] none] ∧ t.killed = true := by simpa using hr
  refine ⟨tr, s, t, hrun, hs, hk, .passed (by simpa using hnone) hawaits (.caught hsome), ?_⟩
  intro h
  cases h with
  | passed _ _ hp => cases hp
  | escaped _ hn => exact hn 0 hawaits

end Thread
end Eslang.Coroutine
