import Eslang.Future
import Mathlib

/-! # Sequences of calls on an `EslangPromise` (`eslang/Future.h`)

What becomes of a continuation is decided by the calls before and after its `setContinuation`: it is
posted at once, by the next call that sets the promise, or not at all because another one took its
place. A continuation is a value of `κ`, the io_service with the function; a registration is told
from others of the same continuation by the number of its call (`number`). -/
namespace Eslang
set_option autoImplicit false

inductive PromiseCall (κ : Type)
  | setIfUnset
  | setException (e : String)
  | setContinuation (f : κ)
  | process

namespace PromiseCall
variable {κ κ' : Type}

def sets : PromiseCall κ → Bool
  | .setIfUnset | .setException _ => true
  | .setContinuation _ | .process => false

def map (h : κ → κ') : PromiseCall κ → PromiseCall κ'
  | .setIfUnset => .setIfUnset
  | .setException e => .setException e
  | .setContinuation f => .setContinuation (h f)
  | .process => .process

end PromiseCall

namespace EslangPromise
variable {κ κ' : Type}

/-- Whether a call of `process()` returns normally. -/
def returns (p : EslangPromise κ) : Bool :=
  match p.process with
  | .ok _ => true
  | .error _ => false

/-- One call, and what it posts. An exception leaves `process()` before anything has changed. -/
def call (p : EslangPromise κ) : PromiseCall κ → EslangPromise κ × List κ
  | .setIfUnset => p.setIfUnset
  | .setException e => p.setException e
  | .setContinuation f => p.setContinuation f
  | .process =>
      match p.process with
      | .ok q => (q, [])
      | .error _ => (p, [])

/-- A fresh promise after a sequence of calls, and what they have posted, in order. -/
def calls (cs : List (PromiseCall κ)) : EslangPromise κ × List κ :=
  cs.foldl (fun r c => ((r.1.call c).1, r.2 ++ (r.1.call c).2)) ({}, [])

/-- The continuation of each `setContinuation` with the number of the call. -/
def number (cs : List (PromiseCall κ)) : List (PromiseCall (Nat × κ)) :=
  cs.mapIdx fun n c => c.map fun f => (n, f)

/-- Some `setIfUnset` or `setException` has occurred since the last call of `process()` that returned
normally. -/
def Raised (cs : List (PromiseCall κ)) : Prop :=
  ∃ before c later, cs = before ++ c :: later ∧ c.sets = true ∧
    ∀ mid rest, later = mid ++ .process :: rest → (calls (before ++ c :: mid)).1.returns = false

/-- The first call other than `process()` sets the promise. -/
def SetNext (cs : List (PromiseCall κ)) : Prop :=
  ∃ n c rest, cs = List.replicate n PromiseCall.process ++ c :: rest ∧ c.sets = true

/-- After `before`, the registration of `f` and then `n` calls of `process()`. -/
def storing (before : List (PromiseCall κ)) (f : κ) (n : Nat) : List (PromiseCall κ) :=
  before ++ .setContinuation f :: List.replicate n .process

@[simp] theorem calls_nil : calls ([] : List (PromiseCall κ)) = ({}, []) := rfl

@[simp] theorem calls_snoc (cs : List (PromiseCall κ)) (c : PromiseCall κ) :
    calls (cs ++ [c]) = (((calls cs).1.call c).1, (calls cs).2 ++ ((calls cs).1.call c).2) := by
  simp [calls]

@[simp] theorem number_snoc (cs : List (PromiseCall κ)) (c : PromiseCall κ) :
    number (cs ++ [c]) = number cs ++ [c.map fun f => (cs.length, f)] :=
  List.mapIdx_concat

/-! ## One call -/

theorem call_of_sets {p : EslangPromise κ} (h : Settled p) {c : PromiseCall κ} (hc : c.sets = true) :
    (p.call c).1.exec_ = none ∧ (p.call c).1.set_ = true ∧ (p.call c).2 = p.exec_.toList := by
  have hset : ∀ q : EslangPromise κ, Settled q →
      q.setIfUnset.1.exec_ = none ∧ q.setIfUnset.1.set_ = true ∧ q.setIfUnset.2 = q.exec_.toList := by
    intro q hq
    unfold setIfUnset
    split
    case isTrue hs => simp [hq hs, hs]
    case isFalse => simp [set]
  cases c with
  | setIfUnset => exact hset p h
  | setException e => exact hset { p with exception_ := p.exception_.or (some e) } h
  | setContinuation f => cases hc
  | process => cases hc

theorem call_setContinuation (p : EslangPromise κ) (f : κ) :
    (p.call (.setContinuation f)).1.exec_ = (if p.set_ then none else some f) ∧
      (p.call (.setContinuation f)).1.set_ = p.set_ ∧
      (p.call (.setContinuation f)).2 = if p.set_ then [f] else [] := by
  simp only [call, setContinuation]
  split
  case isTrue hs => simp [set, hs]
  case isFalse => simp

theorem call_process {p : EslangPromise κ} (h : Settled p) :
    (p.call .process).1.exec_ = p.exec_ ∧ (p.call .process).1.set_ = (p.set_ && !p.returns) ∧
      (p.call .process).2 = [] := by
  simp only [call, returns, process]
  cases p.exception_ with
  | some e => simp
  | none =>
    cases hs : p.set_ with
    | true => simp [h hs]
    | false => simp

theorem call_settled {p : EslangPromise κ} (h : Settled p) (c : PromiseCall κ) :
    Settled (p.call c).1 := by
  cases c with
  | setIfUnset => exact setIfUnset_settled h
  | setException e => exact setException_settled h e
  | setContinuation f => exact setContinuation_settled p f
  | process =>
    simp only [call]
    split
    next q hq => exact process_settled hq
    next => exact h

/-- What a call stores or posts was stored before or is registered by it, and it does not store what
it posts. -/
theorem call_mem {p : EslangPromise κ} (h : Settled p) (c : PromiseCall κ) :
    (∀ f, f ∈ (p.call c).1.exec_ ∨ f ∈ (p.call c).2 → f ∈ p.exec_ ∨ c = .setContinuation f) ∧
      (p.call c).2.Nodup ∧ ((p.call c).2 = [] ∨ (p.call c).1.exec_ = none) := by
  have htoList : p.exec_.toList.Nodup := by cases p.exec_ <;> simp
  cases hc : c.sets with
  | true =>
    obtain ⟨hexec, -, hpost⟩ := call_of_sets h hc
    rw [hexec, hpost]
    refine ⟨fun f hf => .inl ?_, htoList, .inr rfl⟩
    simpa using hf
  | false =>
    cases c with
    | setIfUnset | setException e => cases hc
    | setContinuation f =>
      obtain ⟨hexec, -, hpost⟩ := call_setContinuation p f
      rw [hexec, hpost]
      cases p.set_ <;> simp
    | process =>
      obtain ⟨hexec, -, hpost⟩ := call_process h
      rw [hexec, hpost]
      exact ⟨fun f hf => .inl (by simpa using hf), List.nodup_nil, .inl rfl⟩

/-! ## All calls -/

theorem calls_settled (cs : List (PromiseCall κ)) : Settled (calls cs).1 := by
  induction cs using List.reverseRecOn with
  | nil => exact settled_fresh
  | append_singleton cs c ih =>
    rw [calls_snoc]
    exact call_settled ih c

theorem raised_snoc (cs : List (PromiseCall κ)) (c : PromiseCall κ) :
    Raised (cs ++ [c]) ↔
      c.sets = true ∨ Raised cs ∧ (c = .process → (calls cs).1.returns = false) := by
  constructor
  · rintro ⟨before, d, later, he, hd, hno⟩
    rcases List.eq_nil_or_concat later with rfl | ⟨later, e, rfl⟩
    · obtain ⟨-, hcd⟩ := List.append_inj' he rfl
      cases hcd
      exact .inl hd
    · rw [List.concat_eq_append] at he hno
      obtain ⟨rfl, hce⟩ := List.append_inj' (he.trans (by simp : _ = (before ++ d :: later) ++ [e])) rfl
      cases hce
      refine .inr ⟨⟨before, d, later, rfl, hd, fun mid rest hm => ?_⟩, ?_⟩
      · exact hno mid (rest ++ [c]) (by simp [hm])
      · rintro rfl
        exact hno later [] rfl
  · rintro (hc | ⟨⟨before, d, later, rfl, hd, hno⟩, hp⟩)
    · exact ⟨cs, c, [], rfl, hc, by simp⟩
    · refine ⟨before, d, later ++ [c], by simp, hd, fun mid rest hm => ?_⟩
      rcases List.eq_nil_or_concat rest with rfl | ⟨rest, e, rfl⟩
      · obtain ⟨rfl, hcp⟩ := List.append_inj' hm rfl
        cases hcp
        exact hp rfl
      · rw [List.concat_eq_append] at hm
        obtain ⟨rfl, -⟩ := List.append_inj' (hm.trans (by simp : _ = (mid ++ .process :: rest) ++ [e])) rfl
        exact hno mid rest rfl

/-- **The flag says whether the promise has been set since it was last processed.** -/
theorem set_iff_raised (cs : List (PromiseCall κ)) : (calls cs).1.set_ = true ↔ Raised cs := by
  induction cs using List.reverseRecOn with
  | nil => simp [Raised]
  | append_singleton cs c ih =>
    have h := calls_settled cs
    rw [raised_snoc, ← ih, calls_snoc]
    cases hc : c.sets with
    | true => simp [(call_of_sets h hc).2.1]
    | false =>
      cases c with
      | setIfUnset | setException e => cases hc
      | setContinuation f => simp [(call_setContinuation (calls cs).1 f).2.1]
      | process => simp [(call_process h).2.1]

/-! ## Registrations -/

theorem posts_append (cs later : List (PromiseCall κ)) : (calls cs).2 <+: (calls (cs ++ later)).2 := by
  induction later using List.reverseRecOn with
  | nil => simp
  | append_singleton later c ih =>
    rw [← List.append_assoc, calls_snoc]
    exact ih.trans (List.prefix_append _ _)

theorem calls_append_mem {cs later : List (PromiseCall κ)} {f : κ}
    (hf : f ∈ (calls (cs ++ later)).1.exec_ ∨ f ∈ (calls (cs ++ later)).2) :
    (f ∈ (calls cs).1.exec_ ∨ f ∈ (calls cs).2) ∨ .setContinuation f ∈ later := by
  induction later using List.reverseRecOn with
  | nil => exact .inl (by simpa using hf)
  | append_singleton later c ih =>
    have hmem := (call_mem (calls_settled (cs ++ later)) c).1 f
    rw [← List.append_assoc, calls_snoc, List.mem_append] at hf
    rw [List.mem_append, List.mem_singleton]
    have hcases : (f ∈ (calls (cs ++ later)).1.exec_ ∨ f ∈ (calls (cs ++ later)).2) ∨
        c = .setContinuation f := by
      rcases hf with hf | hf | hf
      · exact (hmem (.inl hf)).imp_left .inl
      · exact .inl (.inr hf)
      · exact (hmem (.inr hf)).imp_left .inl
    rcases hcases with h | h
    · exact (ih h).imp_right .inl
    · exact .inr (.inr h.symm)

theorem calls_mem {cs : List (PromiseCall κ)} {f : κ}
    (hf : f ∈ (calls cs).1.exec_ ∨ f ∈ (calls cs).2) : .setContinuation f ∈ cs := by
  have hf' : f ∈ (calls ([] ++ cs)).1.exec_ ∨ f ∈ (calls ([] ++ cs)).2 := hf
  simpa using calls_append_mem hf'

theorem number_lt {cs : List (PromiseCall κ)} {x : Nat × κ} (h : .setContinuation x ∈ number cs) :
    x.1 < cs.length := by
  induction cs using List.reverseRecOn with
  | nil => cases h
  | append_singleton cs c ih =>
    rw [number_snoc, List.mem_append, List.mem_singleton] at h
    rw [List.length_append, List.length_singleton]
    rcases h with h | h
    · exact (ih h).trans (Nat.lt_succ_self _)
    · cases c with
      | setContinuation f =>
        cases h
        exact Nat.lt_succ_self _
      | setIfUnset | setException e | process => cases h

/-- No registration is posted twice, and one that is stored has not been posted. -/
theorem posted_once (cs : List (PromiseCall κ)) :
    (calls (number cs)).2.Nodup ∧ ∀ x ∈ (calls (number cs)).1.exec_, x ∉ (calls (number cs)).2 := by
  induction cs using List.reverseRecOn with
  | nil => simp [number]
  | append_singleton cs c ih =>
    obtain ⟨hnodup, hstored⟩ := ih
    rw [number_snoc, calls_snoc]
    obtain ⟨hmem, hcall, hor⟩ := call_mem (calls_settled (number cs)) (c.map fun f => (cs.length, f))
    have hnew : ∀ x, x ∈ (calls (number cs)).1.exec_ ∨ c.map (fun f => (cs.length, f)) = .setContinuation x →
        x ∉ (calls (number cs)).2 := by
      rintro x (hx | hx) hp
      · exact hstored x hx hp
      · cases c with
        | setContinuation f =>
          cases hx
          exact (number_lt (calls_mem (.inr hp))).ne rfl
        | setIfUnset | setException e | process => cases hx
    refine ⟨List.nodup_append'.mpr ⟨hnodup, hcall, fun x hx hx' => ?_⟩, fun x hx hp => ?_⟩
    · exact hnew x (hmem x (.inr hx')) hx
    · rcases List.mem_append.mp hp with hp | hp
      · exact hnew x (hmem x (.inl hx)) hp
      · rcases hor with h | h
        · rw [h] at hp
          cases hp
        · rw [h] at hx
          cases hx

theorem storing_succ (before : List (PromiseCall κ)) (f : κ) (n : Nat) :
    storing before f (n + 1) = storing before f n ++ [.process] := by
  rw [storing, List.replicate_succ', ← List.cons_append, ← List.append_assoc]
  rfl

theorem calls_storing {before : List (PromiseCall κ)} (h : ¬ Raised before) (f : κ) (n : Nat) :
    (calls (storing before f n)).1.exec_ = some f ∧ (calls (storing before f n)).1.set_ = false ∧
      (calls (storing before f n)).2 = (calls before).2 := by
  have hset : (calls before).1.set_ = false := by
    rw [← set_iff_raised] at h
    simpa using h
  induction n with
  | zero =>
    obtain ⟨h1, h2, h3⟩ := call_setContinuation (calls before).1 f
    rw [hset] at h1 h2 h3
    have hzero : storing before f 0 = before ++ [.setContinuation f] := rfl
    rw [hzero, calls_snoc, h1, h2, h3]
    simp
  | succ n ih =>
    obtain ⟨h1, h2, h3⟩ := ih
    obtain ⟨h4, h5, h6⟩ := call_process (calls_settled (storing before f n))
    rw [storing_succ, calls_snoc, h4, h5, h6, h2]
    exact ⟨h1, rfl, by simpa using h3⟩

theorem calls_raised {before : List (PromiseCall κ)} (h : Raised before) (f : κ) :
    (calls (before ++ [.setContinuation f])).2 = (calls before).2 ++ [f] := by
  have hpost := (call_setContinuation (calls before).1 f).2.2
  rw [(set_iff_raised before).mpr h, if_pos rfl] at hpost
  rw [calls_snoc, hpost]

theorem calls_storing_set {before : List (PromiseCall κ)} (h : ¬ Raised before) (f : κ) (n : Nat)
    {c : PromiseCall κ} (hc : c.sets = true) :
    (calls (storing before f n ++ [c])).2 =
      (calls before).2 ++ [f] := by
  obtain ⟨hexec, -, hpost⟩ := calls_storing h f n
  have hcall := (call_of_sets (calls_settled (storing before f n)) hc).2.2
  rw [calls_snoc, hcall, hexec, hpost]
  rfl

theorem calls_storing_replace {before : List (PromiseCall κ)} (h : ¬ Raised before) (f g : κ) (n : Nat) :
    (calls (storing before f n ++ [.setContinuation g])).1.exec_ = some g ∧
      (calls (storing before f n ++ [.setContinuation g])).2 = (calls before).2 := by
  obtain ⟨-, hset, hpost⟩ := calls_storing h f n
  obtain ⟨hexec, -, hcall⟩ := call_setContinuation
    (calls (storing before f n)).1 g
  rw [hset] at hexec hcall
  rw [calls_snoc, hexec, hcall, hpost]
  simp

theorem process_ne_of_sets {c : PromiseCall κ} (h : c.sets = true) : c ≠ .process := by
  rintro rfl
  cases h

theorem split_processes (cs : List (PromiseCall κ)) :
    ∃ n rest, cs = List.replicate n PromiseCall.process ++ rest ∧
      (rest = [] ∨ ∃ c rest', rest = c :: rest' ∧ c ≠ .process) := by
  induction cs with
  | nil => exact ⟨0, [], rfl, .inl rfl⟩
  | cons c cs ih =>
    by_cases hc : c = .process
    · obtain ⟨n, rest, rfl, hrest⟩ := ih
      exact ⟨n + 1, rest, by rw [hc, List.replicate_succ, List.cons_append], hrest⟩
    · exact ⟨0, c :: cs, rfl, .inr ⟨c, cs, rfl, hc⟩⟩

theorem split_processes_unique {n m : Nat} {a b : PromiseCall κ} {cs ds : List (PromiseCall κ)}
    (ha : a ≠ .process) (hb : b ≠ .process)
    (h : List.replicate n PromiseCall.process ++ a :: cs =
      List.replicate m PromiseCall.process ++ b :: ds) : a = b := by
  induction n generalizing m with
  | zero =>
    cases m with
    | zero => exact (List.cons.inj h).1
    | succ m => exact absurd (List.cons.inj h).1 ha
  | succ n ih =>
    cases m with
    | zero => exact absurd (List.cons.inj h).1.symm hb
    | succ m => exact ih (List.cons.inj h).2

theorem posted_iff {before later : List (PromiseCall κ)} {f : κ}
    (hb : .setContinuation f ∉ before) (hl : .setContinuation f ∉ later) :
    f ∈ (calls (before ++ .setContinuation f :: later)).2 ↔ Raised before ∨ SetNext later := by
  have hfresh : f ∉ (calls before).2 := fun h => hb (calls_mem (.inr h))
  by_cases hr : Raised before
  · refine iff_of_true ?_ (.inl hr)
    rw [List.append_cons]
    apply (posts_append _ later).subset
    simp [calls_raised hr f, - calls_snoc]
  · rw [or_iff_right hr]
    obtain ⟨n, rest, rfl, hrest⟩ := split_processes later
    have hsplit : before ++ .setContinuation f :: (List.replicate n .process ++ rest) =
        storing before f n ++ rest := by simp [storing]
    rw [hsplit]
    rcases hrest with rfl | ⟨c, rest, rfl, hc⟩
    · refine iff_of_false ?_ ?_
      · rw [List.append_nil, (calls_storing hr f n).2.2]
        exact hfresh
      · rintro ⟨m, c, rest, he, hsets⟩
        have hmem : c ∈ List.replicate n PromiseCall.process ++ [] := by simp [he]
        rw [List.append_nil] at hmem
        exact process_ne_of_sets hsets (List.eq_of_mem_replicate hmem)
    · rw [List.append_cons _ c rest]
      cases hsets : c.sets with
      | true =>
        refine iff_of_true ?_ ⟨n, c, rest, rfl, hsets⟩
        apply (posts_append _ rest).subset
        rw [calls_storing_set hr f n hsets]
        simp
      | false =>
        obtain ⟨g, rfl⟩ : ∃ g, c = .setContinuation g := by
          cases c with
          | setIfUnset | setException e => cases hsets
          | setContinuation g => exact ⟨g, rfl⟩
          | process => exact absurd rfl hc
        have hg : g ≠ f := fun he => hl (by simp [he])
        obtain ⟨hexec, hpost⟩ := calls_storing_replace hr f g n
        refine iff_of_false (fun hf => ?_) ?_
        · rcases calls_append_mem (.inr hf) with h | h
          · rw [hexec, hpost] at h
            simp [hg, hfresh] at h
          · exact hl (by simp [h])
        · rintro ⟨m, c, rest', he, hc'⟩
          rw [← split_processes_unique hc (process_ne_of_sets hc') he] at hc'
          cases hc'

/-! ## The numbers of the calls do not matter -/

def map (h : κ → κ') (p : EslangPromise κ) : EslangPromise κ' :=
  { exec_ := p.exec_.map h, set_ := p.set_, exception_ := p.exception_ }

theorem call_map (h : κ → κ') (p : EslangPromise κ) (c : PromiseCall κ) :
    (p.map h).call (c.map h) = ((p.call c).1.map h, (p.call c).2.map h) := by
  obtain ⟨exec, set, exception⟩ := p
  cases c with
  | setIfUnset | setException e =>
    cases exec <;> cases set <;>
      simp [call, PromiseCall.map, map, setException, setIfUnset, EslangPromise.set]
  | setContinuation f =>
    cases set <;> simp [call, PromiseCall.map, map, setContinuation, EslangPromise.set]
  | process =>
    cases exception <;> cases set <;> simp [call, PromiseCall.map, map, process]

theorem calls_map (h : κ → κ') (cs : List (PromiseCall κ)) :
    calls (cs.map (PromiseCall.map h)) = ((calls cs).1.map h, (calls cs).2.map h) := by
  induction cs using List.reverseRecOn with
  | nil => rfl
  | append_singleton cs c ih =>
    rw [List.map_append, List.map_singleton, calls_snoc, ih, call_map, calls_snoc]
    simp

theorem map_number (cs : List (PromiseCall κ)) :
    (number cs).map (PromiseCall.map Prod.snd) = cs := by
  induction cs using List.reverseRecOn with
  | nil => rfl
  | append_singleton cs c ih =>
    rw [number_snoc, List.map_append, ih, List.map_singleton]
    cases c <;> rfl

theorem raised_number (cs : List (PromiseCall κ)) : Raised (number cs) ↔ Raised cs := by
  rw [← set_iff_raised, ← set_iff_raised]
  have h := calls_map Prod.snd (number cs)
  rw [map_number] at h
  rw [h]
  rfl

theorem setNext_map (h : κ → κ') (cs : List (PromiseCall κ)) :
    SetNext (cs.map (PromiseCall.map h)) ↔ SetNext cs := by
  have hsets : ∀ c : PromiseCall κ, (c.map h).sets = c.sets := fun c => by cases c <;> rfl
  have hprocess : ∀ c : PromiseCall κ, c.map h = .process → c = .process := fun c hc => by
    cases c with
    | process => rfl
    | setIfUnset | setException e | setContinuation f => cases hc
  constructor
  · rintro ⟨n, c, rest, he, hc⟩
    obtain ⟨ps, qs, rfl, hps, hqs⟩ := List.map_eq_append_iff.mp he
    obtain ⟨d, ds, rfl, rfl, -⟩ := List.map_eq_cons_iff.mp hqs
    obtain ⟨hlen, hall⟩ := List.eq_replicate_iff.mp hps
    rw [List.length_map] at hlen
    have hps' : ps = List.replicate n .process :=
      List.eq_replicate_iff.mpr ⟨hlen, fun x hx => hprocess x (hall _ (List.mem_map_of_mem hx))⟩
    exact ⟨n, d, ds, by rw [hps'], by rw [← hsets, hc]⟩
  · rintro ⟨n, c, rest, rfl, hc⟩
    refine ⟨n, c.map h, rest.map (PromiseCall.map h), ?_, by rw [hsets, hc]⟩
    rw [List.map_append, List.map_replicate, List.map_cons]
    rfl

theorem number_cons (before later : List (PromiseCall κ)) (f : κ) : ∃ numbered,
    number (before ++ .setContinuation f :: later) =
        number before ++ .setContinuation (before.length, f) :: numbered ∧
      .setContinuation (before.length, f) ∉ numbered ∧ numbered.map (PromiseCall.map Prod.snd) = later := by
  induction later using List.reverseRecOn with
  | nil => exact ⟨[], number_snoc before _, by simp, rfl⟩
  | append_singleton later c ih =>
    obtain ⟨numbered, he, hnot, hmap⟩ := ih
    have hlen : (before ++ .setContinuation f :: later).length = before.length + later.length + 1 := by
      simp [Nat.add_assoc]
    refine ⟨numbered ++ [c.map fun g => (before.length + later.length + 1, g)], ?_, ?_, ?_⟩
    · rw [← List.cons_append, ← List.append_assoc, number_snoc, he, hlen]
      simp
    · rw [List.mem_append, List.mem_singleton, not_or]
      refine ⟨hnot, fun h => ?_⟩
      cases c with
      | setContinuation g =>
        injection h with h
        have := congrArg Prod.fst h
        simp only at this
        omega
      | setIfUnset | setException e | process => cases h
    · rw [List.map_append, hmap, List.map_singleton]
      cases c <;> rfl

/-! ## Main result -/

/-- **What becomes of the continuations of a promise.** After every sequence of calls the flag and a
stored continuation do not stand together, and no registration has been posted twice. A continuation is
posted at once if the promise has been set since it was last processed; otherwise it stays stored under
calls of `process()`, the next call that sets the promise posts it, and the next `setContinuation`
replaces it. So a registration is posted in the end unless another one replaces it first. -/
theorem continuation_accounting (before : List (PromiseCall κ)) (f : κ) :
    (¬ ((calls before).1.set_ = true ∧ (calls before).1.exec_.isSome)) ∧
    (calls (number before)).2.Nodup ∧
    (Raised before → (calls (before ++ [PromiseCall.setContinuation f])).2 = (calls before).2 ++ [f]) ∧
    (¬ Raised before → ∀ n,
      (calls (storing before f n)).1.exec_ = some f ∧ (calls (storing before f n)).2 = (calls before).2 ∧
      (∀ c, c.sets = true → (calls (storing before f n ++ [c])).2 = (calls before).2 ++ [f]) ∧
      ∀ g, (calls (storing before f n ++ [PromiseCall.setContinuation g])).1.exec_ = some g ∧
        (calls (storing before f n ++ [PromiseCall.setContinuation g])).2 = (calls before).2) ∧
    ∀ later,
      (before.length, f) ∈ (calls (number (before ++ PromiseCall.setContinuation f :: later))).2 ↔
        Raised before ∨ SetNext later := by
  refine ⟨fun h => ?_, (posted_once before).1, fun h => calls_raised h f, ?_, fun later => ?_⟩
  · have hexec := calls_settled before h.1
    rw [hexec] at h
    cases h.2
  · intro h n
    obtain ⟨hexec, -, hpost⟩ := calls_storing h f n
    exact ⟨hexec, hpost, fun c hc => calls_storing_set h f n hc, fun g => calls_storing_replace h f g n⟩
  · obtain ⟨numbered, he, hnot, rfl⟩ := number_cons before later f
    have hbefore : .setContinuation (before.length, f) ∉ number before := fun h => (number_lt h).ne rfl
    rw [he, posted_iff hbefore hnot, raised_number, setNext_map]

/-- A call of `process()` that throws leaves the flag up, and the next continuation is posted at once. -/
theorem continuation_accounting_thrown :
    Raised ([.setException "lost", .process] : List (PromiseCall Nat)) ∧
      (calls [.setException "lost", .process, .setContinuation 7]).2 = [7] := by
  have hraised : Raised ([.setException "lost", .process] : List (PromiseCall Nat)) :=
    (set_iff_raised _).mp rfl
  exact ⟨hraised, (continuation_accounting [.setException "lost", .process] 7).2.2.1 hraised⟩

end EslangPromise
end Eslang
