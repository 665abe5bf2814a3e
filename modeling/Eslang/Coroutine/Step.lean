import Eslang.Coroutine.Machine

/-! # One step of the coroutines of a process, by cases

A task can be in use when it is taken up: `next()` of a generator that another coroutine consumes, or
`co_await` of a method that another coroutine awaits. Nothing stops a body from doing so, and the pointers of
the first user are then overwritten (`shares`). `Step` lists what every other step can do, with the tests
under which it does so; later proofs about steps go through `step_cases` and do not open the functions of the
machine again. -/
namespace Eslang.Coroutine
set_option autoImplicit false

namespace State
variable {σ V W : Type}

/-- The part of `co_yield` that belongs to the generator. -/
def yielding (s : State σ V W) (g : Handle) (a : V) (k : σ) : State σ V W :=
  s.update g fun p => { p with t_ := some a, waiting := none, parent := none, ctl := .idle k }

/-- The part of `co_return` that belongs to the method. -/
def returning (s : State σ V W) (i : Handle) (a : V) : State σ V W :=
  s.update i fun p => { p with t_ := some a, ctl := .done }

/-- `co_await` of a method is recorded. -/
def marking (s : State σ V W) (n : Handle) : State σ V W := s.update n fun p => { p with awaited := true }

def clearChild (s : State σ V W) (p : Handle) : State σ V W :=
  s.update p fun q => { q with subCoroutineChild := none }

/-- What `ProcessTask::resume` clears before it resumes anything. -/
def cleared (s : State σ V W) : State σ V W :=
  { s.update root fun p => { p with waiting := none } with nextChild := none }

/-- What a suspended coroutine receives when its handle is resumed. -/
inductive Reply (s : State σ V W) (i : Handle) (v : V) : σ → List (Event V) → Prop
  | idle {k : σ} (hc : (s.promises i).ctl = .idle k) : Reply s i v k []
  | wait {w : W} {k : V → σ} (hc : (s.promises i).ctl = .waiting w k) :
      Reply s i v (k v) [.delivered i v]
  | join {n : Handle} {k : V → σ} (hc : (s.promises i).ctl = .joining n k) :
      Reply s i v (k ((s.promises n).t_.getD v)) [.delivered i ((s.promises n).t_.getD v)]
  | next {g : Handle} {k : Option V → σ} {r : Option V} (hc : (s.promises i).ctl = .nexting g k)
      (hr : s.nextReply g = some r) : Reply s i v (k r) (takenBy g r)

/-- The resumed coroutine `i` on top of `rest`. -/
def continueAt (s : State σ V W) (i : Handle) (x : σ) (rest : List Handle) : State σ V W :=
  { s with stack := i :: rest }.goto i (.code x)

theorem resumeHandle_cases {s t : State σ V W} {i : Handle} {v : V} {rest : List Handle}
    {out : List (Event V)} (h : s.resumeHandle i v rest = some (t, out)) :
    ∃ x, s.Reply i v x out ∧ t = s.continueAt i x rest := by
  simp only [resumeHandle] at h
  split at h
  case h_1 k hc =>
    cases h
    exact ⟨k, .idle hc, rfl⟩
  case h_2 w k hc =>
    cases h
    exact ⟨k v, .wait hc, rfl⟩
  case h_3 n k hc =>
    cases h
    exact ⟨_, .join hc, rfl⟩
  case h_4 g k hc =>
    obtain ⟨r, hr, he⟩ := Option.map_eq_some_iff.mp h
    cases he
    exact ⟨k r, .next hc hr, rfl⟩
  all_goals cases h

/-- The running coroutine takes up a task that is in use: a generator that is suspended elsewhere than
initially or in a `co_yield`, or a method that runs, or that was awaited before and has not returned. -/
def shares (code : Code σ V W) (s : State σ V W) : Bool :=
  match s.stack with
  | [] => false
  | i :: _ =>
      match (s.promises i).ctl with
      | .code c =>
          match code c with
          | .join n _ => s.stack.contains n || (s.promises n).awaited && !s.atFinalSuspend n
          | .next g _ =>
              match (s.promises g).ctl with
              | .idle _ => false
              | _ => true
          | _ => false
      | _ => false

def unshared (code : Code σ V W) (s : State σ V W) (_ : Label V) : Bool := !s.shares code

/-- A method that nobody else awaits. -/
def Joinable (s : State σ V W) (n : Handle) : Prop :=
  s.mayJoin n = true ∧ n ∉ s.stack ∧ ((s.promises n).awaited = false ∨ s.atFinalSuspend n = true)

theorem joinable_of_not_shares {code : Code σ V W} {s : State σ V W} {i n : Handle} {rest : List Handle}
    {c : σ} {k : V → σ} (hu : s.shares code = false) (hs : s.stack = i :: rest)
    (hc : (s.promises i).ctl = .code c) (ho : code c = .join n k) (hm : s.mayJoin n = true) :
    s.Joinable n := by
  have h : n ∉ s.stack ∧ ((s.promises n).awaited = true → s.atFinalSuspend n = true) := by
    simpa [shares, hs, hc, ho] using hu
  refine ⟨hm, h.1, ?_⟩
  cases ha : (s.promises n).awaited with
  | false => exact .inl rfl
  | true => exact .inr (h.2 ha)

theorem Joinable.not_shares {code : Code σ V W} {s : State σ V W} {i n : Handle} {rest : List Handle}
    {c : σ} {k : V → σ} (h : s.Joinable n) (hs : s.stack = i :: rest) (hc : (s.promises i).ctl = .code c)
    (ho : code c = .join n k) : s.shares code = false := by
  have hn : n ∉ i :: rest := hs ▸ h.2.1
  rcases h.2.2 with ha | hd
  · simp_all [shares]
  · simp_all [shares]

theorem kind_of_join {code : Code σ V W} {s t : State σ V W} {l : Label V} {out : List (Event V)}
    {i n : Handle} {rest : List Handle} {c : σ} {k : V → σ} (h : s.step code l = some (t, out))
    (hs : s.stack = i :: rest) (hc : (s.promises i).ctl = .code c) (ho : code c = .join n k) :
    (s.promises n).kind = .method := by
  cases l with
  | resume v => simp [step, hs] at h
  | tick ready v =>
    simp only [step, hs, tick, hc, ho, join] at h
    split at h
    case isFalse => cases h
    case isTrue hm =>
      simp only [mayJoin, Bool.and_eq_true, decide_eq_true_eq] at hm
      exact hm.1.1

theorem kind_of_next {code : Code σ V W} {s t : State σ V W} {l : Label V} {out : List (Event V)}
    {i g : Handle} {rest : List Handle} {c : σ} {k : Option V → σ} (h : s.step code l = some (t, out))
    (hs : s.stack = i :: rest) (hc : (s.promises i).ctl = .code c) (ho : code c = .next g k) :
    (s.promises g).kind = .gen ∧ (s.promises g).ctl ≠ .done := by
  cases l with
  | resume v => simp [step, hs] at h
  | tick ready v =>
    simp only [step, hs, tick, hc, ho] at h
    split at h
    case isFalse => cases h
    case isTrue hk =>
      refine ⟨hk, fun hd => ?_⟩
      have hgi : g ≠ i := fun he => by
        rw [he, hc] at hd
        cases hd
      have hd' : ((s.goto i (.resuming g k)).promises g).ctl = .done := by
        simpa [goto, update, hgi] using hd
      simp [resumeHandle, hd'] at h

theorem idle_of_not_shares {code : Code σ V W} {s : State σ V W} {i g : Handle} {rest : List Handle}
    {c : σ} {k : Option V → σ} (hu : s.shares code = false) (hs : s.stack = i :: rest)
    (hc : (s.promises i).ctl = .code c) (ho : code c = .next g k) :
    ∃ x, (s.promises g).ctl = .idle x := by
  simp only [shares, hs, hc, ho] at hu
  split at hu
  case h_1 x hx => exact ⟨x, hx⟩
  case h_2 => cases hu

inductive Step (code : Code σ V W) (s : State σ V W) : Label V → State σ V W → List (Event V) → Prop
  | act {i : Handle} {rest : List Handle} {ready : Bool} {v a : V} {c k : σ}
      (hs : s.stack = i :: rest) (hc : (s.promises i).ctl = .code c) (ho : code c = .act a k) :
      Step code s (.tick ready v) (s.goto i (.code k)) [.act i a]
  | ready {i : Handle} {rest : List Handle} {v : V} {c : σ} {w : W} {k : V → σ}
      (hs : s.stack = i :: rest) (hc : (s.promises i).ctl = .code c) (ho : code c = .await w k) :
      Step code s (.tick true v) (s.goto i (.code (k v))) [.delivered i v]
  | wait {i : Handle} {rest : List Handle} {v : V} {c : σ} {w : W} {k : V → σ}
      (hs : s.stack = i :: rest) (hc : (s.promises i).ctl = .code c) (ho : code c = .await w k) :
      Step code s (.tick false v)
        { (s.awaitSuspend i w).goto i (.waiting w k) with stack := rest } []
  | start {i : Handle} {rest : List Handle} {ready : Bool} {v : V} {c body : σ} {k : Handle → σ}
      (hs : s.stack = i :: rest) (hc : (s.promises i).ctl = .code c) (ho : code c = .start body k) :
      Step code s (.tick ready v)
        { (s.goto i (.calling s.count k)).make
            { kind := .method, ctl := .code body, creator := i } with
          stack := s.count :: i :: rest } []
  /-- The call of a method has returned. -/
  | called {i n : Handle} {rest : List Handle} {ready : Bool} {v : V} {k : Handle → σ}
      (hs : s.stack = i :: rest) (hc : (s.promises i).ctl = .calling n k) :
      Step code s (.tick ready v) (s.goto i (.code (k n))) []
  | collect {i n : Handle} {rest : List Handle} {ready : Bool} {v r : V} {c : σ} {k : V → σ}
      (hs : s.stack = i :: rest) (hc : (s.promises i).ctl = .code c) (ho : code c = .join n k)
      (hm : s.Joinable n)
      (hd : ((s.marking n).atFinalSuspend n || !(s.marking n).isSuspended n) = true)
      (hr : r = ((s.marking n).promises n).t_.getD v) :
      Step code s (.tick ready v) ((s.marking n).goto i (.code (k r))) [.delivered i r]
  | join {i n : Handle} {rest : List Handle} {ready : Bool} {v : V} {c : σ} {k : V → σ}
      {u : State σ V W} (hs : s.stack = i :: rest) (hc : (s.promises i).ctl = .code c)
      (ho : code c = .join n k) (hm : s.Joinable n)
      (hd : ¬ ((s.marking n).atFinalSuspend n || !(s.marking n).isSuspended n) = true)
      (hu : (s.marking n).updateSuspend i n = some u) :
      Step code s (.tick ready v) { u.goto i (.joining n k) with stack := rest } []
  | gen {i : Handle} {rest : List Handle} {ready : Bool} {v : V} {c body : σ} {k : Handle → σ}
      (hs : s.stack = i :: rest) (hc : (s.promises i).ctl = .code c) (ho : code c = .gen body k) :
      Step code s (.tick ready v)
        ((s.goto i (.code (k s.count))).make { kind := .gen, ctl := .idle body, creator := i }) []
  | next {i g : Handle} {rest : List Handle} {ready : Bool} {v : V} {c x : σ} {k : Option V → σ}
      (hs : s.stack = i :: rest) (hc : (s.promises i).ctl = .code c) (ho : code c = .next g k)
      (hk : (s.promises g).kind = .gen) (hg : (s.promises g).ctl = .idle x) :
      Step code s (.tick ready v)
        { (s.goto i (.resuming g k)).goto g (.code x) with stack := g :: i :: rest } []
  /-- The call of `next()` has returned, and its result is ready. -/
  | answer {i g : Handle} {rest : List Handle} {ready : Bool} {v : V} {r : Option V}
      {k : Option V → σ} (hs : s.stack = i :: rest) (hc : (s.promises i).ctl = .resuming g k)
      (hn : s.isSuspended g = false) (hr : s.nextReply g = some r) :
      Step code s (.tick ready v) (s.goto i (.code (k r))) (takenBy g r)
  | awaitNext {i g : Handle} {rest : List Handle} {ready : Bool} {v : V} {k : Option V → σ}
      {u : State σ V W} (hs : s.stack = i :: rest) (hc : (s.promises i).ctl = .resuming g k)
      (hn : s.isSuspended g = true) (hu : s.updateSuspend i g = some u) :
      Step code s (.tick ready v) { u.goto i (.nexting g k) with stack := rest } []
  | yieldUp {g : Handle} {rest : List Handle} {ready : Bool} {v a : V} {c k : σ}
      (hs : s.stack = g :: rest) (hc : (s.promises g).ctl = .code c) (ho : code c = .yield a k)
      (hk : (s.promises g).kind = .gen) (hp : (s.promises g).parent = none) :
      Step code s (.tick ready v) { s.yielding g a k with stack := rest } [.yielded g a]
  /-- The generator yields into the consumer that is suspended in it. -/
  | yieldInto {g p : Handle} {rest : List Handle} {ready : Bool} {v a : V} {c k x : σ}
      {out : List (Event V)} (hs : s.stack = g :: rest) (hc : (s.promises g).ctl = .code c)
      (ho : code c = .yield a k) (hk : (s.promises g).kind = .gen)
      (hp : (s.promises g).parent = some p)
      (hr : ((s.yielding g a k).clearChild p).Reply p v x out) :
      Step code s (.tick ready v) (((s.yielding g a k).clearChild p).continueAt p x rest)
        (.yielded g a :: out)
  | returnUp {i : Handle} {rest : List Handle} {ready : Bool} {v a : V} {c : σ}
      (hs : s.stack = i :: rest) (hc : (s.promises i).ctl = .code c) (ho : code c = .ret a)
      (hk : (s.promises i).kind = .method) (hp : (s.promises i).parent = none) :
      Step code s (.tick ready v) { s.returning i a with stack := rest } []
  /-- The method returns to the awaiter that is suspended in it. -/
  | returnInto {i p : Handle} {rest : List Handle} {ready : Bool} {v a : V} {c x : σ}
      {out : List (Event V)} (hs : s.stack = i :: rest) (hc : (s.promises i).ctl = .code c)
      (ho : code c = .ret a) (hk : (s.promises i).kind = .method)
      (hp : (s.promises i).parent = some p)
      (hr : ((s.returning i a).clearChild p).Reply p v x out) :
      Step code s (.tick ready v) (((s.returning i a).clearChild p).continueAt p x rest) out
  /-- The process or a generator returns. -/
  | finish {i : Handle} {rest : List Handle} {ready : Bool} {v a : V} {c : σ}
      (hs : s.stack = i :: rest) (hc : (s.promises i).ctl = .code c) (ho : code c = .ret a)
      (hk : (s.promises i).kind ≠ .method) :
      Step code s (.tick ready v) { s.goto i .done with stack := rest } []
  | resume {v : V} {x : σ} {out : List (Event V)} (hs : s.stack = []) (hm : s.mayResume = true)
      (hr : s.cleared.Reply (s.nextChild.getD root) v x out) :
      Step code s (.resume v) (s.cleared.continueAt (s.nextChild.getD root) x []) out

theorem tick_cases {code : Code σ V W} {s t : State σ V W} {i : Handle} {rest : List Handle}
    {ready : Bool} {v : V} {out : List (Event V)} (hu : s.shares code = false) (hs : s.stack = i :: rest)
    (h : s.tick code i rest ready v = some (t, out)) : s.Step code (.tick ready v) t out := by
  unfold tick at h
  split at h
  case h_1 n k hc =>
    cases h
    exact .called hs hc
  case h_2 g k hc =>
    unfold awaitNext at h
    split at h
    case isTrue hn =>
      obtain ⟨u, hu, he⟩ := Option.map_eq_some_iff.mp h
      cases he
      exact .awaitNext hs hc hn hu
    case isFalse hn =>
      obtain ⟨r, hr, he⟩ := Option.map_eq_some_iff.mp h
      cases he
      exact .answer hs hc (by simpa using hn) hr
  case h_3 c hc =>
    split at h
    case h_1 a k ho =>
      cases h
      exact .act hs hc ho
    case h_2 w k ho =>
      cases ready with
      | true =>
        cases h
        exact .ready hs hc ho
      | false =>
        cases h
        exact .wait hs hc ho
    case h_3 body k ho =>
      cases h
      exact .start hs hc ho
    case h_4 n k ho =>
      unfold join at h
      split at h
      case isFalse => cases h
      case isTrue hm =>
        have hj := joinable_of_not_shares hu hs hc ho hm
        dsimp only at h
        split at h
        case isTrue hd =>
          cases h
          exact .collect hs hc ho hj hd rfl
        case isFalse hd =>
          obtain ⟨u, hu', he⟩ := Option.map_eq_some_iff.mp h
          cases he
          exact .join hs hc ho hj hd hu'
    case h_5 body k ho =>
      cases h
      exact .gen hs hc ho
    case h_6 g k ho =>
      obtain ⟨x, hg⟩ := idle_of_not_shares hu hs hc ho
      have hgi : g ≠ i := fun he => by
        rw [he, hc] at hg
        cases hg
      have hg' : ((s.goto i (.resuming g k)).promises g).ctl = .idle x := by
        simpa [goto, update, hgi] using hg
      split at h
      case isFalse => cases h
      case isTrue hk =>
        simp only [resumeHandle, hg', Option.some.injEq, Prod.mk.injEq] at h
        obtain ⟨rfl, rfl⟩ := h
        exact .next hs hc ho hk hg
    case h_7 a k ho =>
      split at h
      case isFalse => cases h
      case isTrue hk =>
        simp only [yieldValue] at h
        split at h
        case h_1 hp =>
          cases h
          exact .yieldUp hs hc ho hk hp
        case h_2 p hp =>
          obtain ⟨q, hq, he⟩ := Option.map_eq_some_iff.mp h
          cases he
          obtain ⟨x, hr, ht⟩ := resumeHandle_cases hq
          rw [ht]
          exact .yieldInto hs hc ho hk hp hr
    case h_8 a ho =>
      simp only [finish] at h
      split at h
      case h_1 p hk hp =>
        obtain ⟨x, hr, rfl⟩ := resumeHandle_cases h
        exact .returnInto hs hc ho hk hp hr
      case h_2 hk hp =>
        cases h
        exact .returnUp hs hc ho hk hp
      case h_3 hk =>
        cases h
        exact .finish hs hc ho (by simp [hk])
      case h_4 hk =>
        cases h
        exact .finish hs hc ho (by simp [hk])
  all_goals cases h

/-- **A step that takes up no task in use is one of the cases.** -/
theorem step_cases {code : Code σ V W} {s t : State σ V W} {l : Label V} {out : List (Event V)}
    (hu : s.shares code = false) (h : s.step code l = some (t, out)) : s.Step code l t out := by
  cases l with
  | resume v =>
    simp only [step] at h
    split at h
    case isFalse => cases h
    case isTrue hm =>
      obtain ⟨hs, hr⟩ : s.stack = [] ∧ s.mayResume = true := by simpa using hm
      obtain ⟨x, hx, rfl⟩ := resumeHandle_cases h
      exact .resume hs hr hx
  | tick ready v =>
    simp only [step] at h
    split at h
    case h_1 => cases h
    case h_2 i rest hs => exact tick_cases hu hs h

end State
end Eslang.Coroutine
