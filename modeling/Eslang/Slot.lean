import Eslang.Future

/-! # `MessageQueue` (`eslang/Slot.h`)

The queue of a slot is split: the first message sits in `stackStorage`, the rest in `others`. The
split is well formed when an empty `stackStorage` means an empty queue, and the structure carries
that as a field. `pop` and the destructor set the throttle promise `p_`; the continuations this
posts are returned. -/
namespace Eslang
set_option autoImplicit false

structure MessageQueue (α κ : Type) where
  stackStorage : Option α := none
  others : List α := []
  p_ : EslangPromise κ := {}
  front_first : stackStorage = none → others = [] := by intro _; rfl

namespace MessageQueue
variable {α κ : Type}

def kThrottle : Nat := 10

def size (q : MessageQueue α κ) : Nat :=
  match q.stackStorage with
  | some _ => 1 + q.others.length
  | none => 0

def empty (q : MessageQueue α κ) : Bool := q.size == 0

def push (q : MessageQueue α κ) (t : α) : MessageQueue α κ :=
  match h : q.stackStorage with
  | some _ => { q with others := q.others ++ [t], front_first := by simp [h] }
  | none => { q with stackStorage := some t, front_first := by simp }

def shouldThrottle (q : MessageQueue α κ) : Bool := decide (kThrottle ≤ q.size)

/-- The part of `pop` before the throttle check: `others.front()` moves up. -/
def advance (q : MessageQueue α κ) : MessageQueue α κ :=
  match q.others with
  | [] => { q with stackStorage := none, others := [], front_first := by simp }
  | t :: ts => { q with stackStorage := some t, others := ts, front_first := by simp }

/-- `if (size() == kThrottle - 1) p_.setIfUnset()`. -/
def wakeThrottled (q : MessageQueue α κ) : MessageQueue α κ × List κ :=
  if q.size = kThrottle - 1 then ({ q with p_ := q.p_.setIfUnset.1 }, q.p_.setIfUnset.2)
  else (q, [])

/-- `pop`; there is no message to move out of an empty queue. -/
def pop (q : MessageQueue α κ) : Option (α × MessageQueue α κ × List κ) :=
  q.stackStorage.map fun ret => (ret, q.advance.wakeThrottled)

/-- The destructor's `p_.setIfUnset()`. -/
def destructor (q : MessageQueue α κ) : List κ := q.p_.setIfUnset.2

/-! ## The queue as a list -/

def contents (q : MessageQueue α κ) : List α := q.stackStorage.toList ++ q.others

theorem size_eq (q : MessageQueue α κ) : q.size = q.contents.length := by
  cases hs : q.stackStorage with
  | none => simp [size, contents, hs, q.front_first hs]
  | some a => simp [size, contents, hs, Nat.add_comm]

@[simp] theorem contents_push (q : MessageQueue α κ) (t : α) :
    (q.push t).contents = q.contents ++ [t] := by
  unfold push
  split
  next a h => simp [contents, h]
  next h => simp [contents, h, q.front_first h]

@[simp] theorem push_p (q : MessageQueue α κ) (t : α) : (q.push t).p_ = q.p_ := by
  unfold push
  split <;> rfl

theorem contents_advance {q : MessageQueue α κ} : q.advance.contents = q.others := by
  unfold advance
  split <;> simp_all [contents]

@[simp] theorem advance_p (q : MessageQueue α κ) : q.advance.p_ = q.p_ := by
  unfold advance
  split <;> rfl

@[simp] theorem contents_wakeThrottled (q : MessageQueue α κ) :
    q.wakeThrottled.1.contents = q.contents := by
  unfold wakeThrottled
  split <;> rfl

/-- **`pop` takes the first message.** -/
theorem contents_pop {q q' : MessageQueue α κ} {a : α} {posted : List κ}
    (h : q.pop = some (a, q', posted)) : q.contents = a :: q'.contents := by
  cases hs : q.stackStorage with
  | none => simp [pop, hs] at h
  | some b =>
    simp only [pop, hs, Option.map_some, Option.some.injEq, Prod.mk.injEq] at h
    obtain ⟨rfl, hq⟩ := h
    have hq' : q' = q.advance.wakeThrottled.1 := by rw [hq]
    rw [hq', contents_wakeThrottled, contents_advance]
    simp [contents, hs]

theorem pop_promise {q q' : MessageQueue α κ} {a : α} {posted : List κ}
    (h : q.pop = some (a, q', posted)) :
    (q'.size = 9 ∧ q'.p_ = q.p_.setIfUnset.1 ∧ posted = q.p_.setIfUnset.2) ∨
      (q'.size ≠ 9 ∧ q'.p_ = q.p_ ∧ posted = []) := by
  simp only [pop, Option.map_eq_some_iff, Prod.mk.injEq] at h
  obtain ⟨b, -, -, hq⟩ := h
  unfold wakeThrottled at hq
  split at hq
  next hs =>
    cases hq
    exact .inl ⟨hs, by simp, by simp⟩
  next hs =>
    cases hq
    exact .inr ⟨hs, by simp, rfl⟩

theorem size_pop {q q' : MessageQueue α κ} {a : α} {posted : List κ}
    (h : q.pop = some (a, q', posted)) : q.size = q'.size + 1 := by
  simp [size_eq, contents_pop h]

theorem pop_mem {q q' : MessageQueue α κ} {a : α} {posted : List κ} {f : κ}
    (h : q.pop = some (a, q', posted)) (hf : f ∈ q'.p_.exec_ ∨ f ∈ posted) : f ∈ q.p_.exec_ := by
  rcases pop_promise h with ⟨-, hp, rfl⟩ | ⟨-, hp, rfl⟩
  · exact EslangPromise.setIfUnset_mem (hp ▸ hf)
  · simpa [hp] using hf

theorem destructor_mem {q : MessageQueue α κ} {f : κ} (hf : f ∈ q.destructor) : f ∈ q.p_.exec_ :=
  EslangPromise.setIfUnset_mem (.inr hf)

theorem pop_none {q : MessageQueue α κ} (h : q.pop = none) : q.contents = [] := by
  cases hs : q.stackStorage with
  | none => simp [contents, hs, q.front_first hs]
  | some b => simp [pop, hs] at h

end MessageQueue
end Eslang
