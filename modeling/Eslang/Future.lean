import Mathlib.Data.Option.Basic

/-! # `EslangPromise` (`eslang/Future.h`)

A promise is one cell: a sticky flag `set_`, at most one stored continuation `exec_` and at most one
stored exception. Continuations are values of an arbitrary type `κ`; the operations that post one
to the io_service return the posted continuations, so the model of the io_service decides where
they go. `ExceptionWrapper` is only ever built by `ExceptionWrapper::make` here, whose
`maybeThrow` always throws, so the wrapper is the text of the exception. -/
namespace Eslang
set_option autoImplicit false

structure EslangPromise (κ : Type) where
  exec_ : Option κ := none
  set_ : Bool := false
  exception_ : Option String := none
deriving DecidableEq, Repr

namespace EslangPromise
variable {κ : Type}

def isReady (p : EslangPromise κ) : Bool := p.set_

def set (p : EslangPromise κ) : EslangPromise κ × List κ :=
  ({ p with set_ := true, exec_ := none }, p.exec_.toList)

def setIfUnset (p : EslangPromise κ) : EslangPromise κ × List κ :=
  if p.set_ then (p, []) else p.set

def setException (p : EslangPromise κ) (e : String) : EslangPromise κ × List κ :=
  { p with exception_ := p.exception_.or (some e) }.setIfUnset

/-- `setContinuation`: overwrites whatever was stored, then posts at once if the flag is up. -/
def setContinuation (p : EslangPromise κ) (f : κ) : EslangPromise κ × List κ :=
  let p := { p with exec_ := some f }
  if p.set_ then p.set else (p, [])

/-- `process()`: a stored exception leaves before anything is reset. -/
def process (p : EslangPromise κ) : Except String (EslangPromise κ) :=
  match p.exception_ with
  | some e => .error e
  | none => .ok { p with exec_ := if p.set_ then none else p.exec_, set_ := false }

/-! ## What the operations do to the stored continuation -/

/-- Between calls a raised flag and a stored continuation never stand together. -/
def Settled (p : EslangPromise κ) : Prop := p.set_ = true → p.exec_ = none

theorem settled_fresh : Settled ({} : EslangPromise κ) := by simp [Settled]

theorem set_settled (p : EslangPromise κ) : Settled p.set.1 := by simp [Settled, set]

theorem setIfUnset_settled {p : EslangPromise κ} (h : Settled p) : Settled p.setIfUnset.1 := by
  unfold setIfUnset
  split
  · exact h
  · exact set_settled p

theorem setException_settled {p : EslangPromise κ} (h : Settled p) (e : String) :
    Settled (p.setException e).1 :=
  setIfUnset_settled h

theorem setContinuation_settled (p : EslangPromise κ) (f : κ) :
    Settled (p.setContinuation f).1 := by
  unfold setContinuation
  cases hs : p.set_
  · simp [Settled]
  · simp [Settled, set]

theorem process_settled {p q : EslangPromise κ} (h : p.process = .ok q) : Settled q := by
  unfold process at h
  split at h
  · cases h
  · cases h
    simp [Settled]

/-- Every continuation an operation stores or posts is one that it was given or that was stored. -/
theorem setIfUnset_mem {p : EslangPromise κ} {f : κ}
    (h : f ∈ p.setIfUnset.1.exec_ ∨ f ∈ p.setIfUnset.2) : f ∈ p.exec_ := by
  unfold setIfUnset set at h
  split at h <;> simpa using h

theorem setException_mem {p : EslangPromise κ} {e : String} {f : κ}
    (h : f ∈ (p.setException e).1.exec_ ∨ f ∈ (p.setException e).2) : f ∈ p.exec_ :=
  setIfUnset_mem (p := { p with exception_ := p.exception_.or (some e) }) h

theorem setContinuation_mem {p : EslangPromise κ} {f g : κ}
    (h : g ∈ (p.setContinuation f).1.exec_ ∨ g ∈ (p.setContinuation f).2) : g = f := by
  unfold setContinuation set at h
  cases hs : p.set_ <;> simp [hs] at h
  · exact h.symm
  · exact h

theorem process_mem {p q : EslangPromise κ} {f : κ} (h : p.process = .ok q)
    (hf : f ∈ q.exec_) : f ∈ p.exec_ := by
  unfold process at h
  split at h
  · cases h
  · cases h
    cases hs : p.set_ <;> simp [hs] at hf ⊢
    exact hf

end EslangPromise
end Eslang
