import Eslang.Www.Parser
import Mathlib

/-! # `WwwParser::convert` and `convertHeaderOnly` (`eslang_www/Www.cpp`)

Both run a serializer of Beast, which is a parameter: each pass asks it for the next buffers, yields
a copy of each and consumes as many octets as the visitor counted. `convertHeaderOnly` splits the
header from the body and stops once the header is done. What they yield, put together, is the
message or its header, however the serializer cuts it into buffers. -/
namespace Eslang.Www
set_option autoImplicit false

/-- `http::response_serializer` with states `S`. `next` returns the new state and, if it calls its
visitor, the error code and the buffers it hands over. -/
structure Serializer (Resp S : Type) where
  make : Resp → S
  split : S → S
  isDone : S → Bool
  isHeaderDone : S → Bool
  next : S → S × Option (ErrorCode × List Bytes)
  consume : S → Nat → S

def ErrorCode.message : ErrorCode → String
  | .success => "Success"
  | .needMore => "need more"
  | .other message => message

def checkOrThrow (ec : ErrorCode) : Option String :=
  if ec = .success then none else some ("Bad error code:" ++ ec.message)

structure SerializeVisitor where
  buffs : List Bytes := []
  last : Nat := 0

namespace SerializeVisitor

/-- The loop of `operator()`. -/
def visit (v : SerializeVisitor) (bs : List Bytes) : SerializeVisitor :=
  bs.foldl (fun v b => ⟨v.buffs ++ [b], v.last + b.length⟩) { v with last := 0 }

theorem foldl_visit (v : SerializeVisitor) (bs : List Bytes) :
    bs.foldl (fun v b => ⟨v.buffs ++ [b], v.last + b.length⟩) v =
      ⟨v.buffs ++ bs, v.last + bs.flatten.length⟩ := by
  induction bs generalizing v with
  | nil => simp
  | cons b bs ih =>
    rw [List.foldl_cons, ih]
    simp [Nat.add_assoc]

theorem visit_eq (bs : List Bytes) : visit {} bs = ⟨bs, bs.flatten.length⟩ := by
  rw [visit, foldl_visit]
  simp

end SerializeVisitor

namespace Serializer
variable {Resp S : Type} (sr : Serializer Resp S)

/-- One pass of the loops, from `next` to `consume`: the state, what is yielded, and the exception
that the visitor throws. -/
def pass (s : S) : S × List Bytes × Option String :=
  match sr.next s with
  | (s', none) => (sr.consume s' 0, [], none)
  | (s', some (ec, bs)) =>
      match checkOrThrow ec with
      | some e => (s', [], some e)
      | none =>
          let v := SerializeVisitor.visit {} bs
          (sr.consume s' v.last, v.buffs, none)

/-- The loops of `convert` and `convertHeaderOnly`, run to their end within `fuel` passes. -/
def loop (headerOnly : Bool) : Nat → S → Option (List Bytes × Option String)
  | 0, _ => none
  | fuel + 1, s =>
      if sr.isDone s then some ([], none)
      else
        let r := sr.pass s
        if r.2.2.isSome || (headerOnly && sr.isHeaderDone r.1) then some r.2
        else (loop headerOnly fuel r.1).map fun q => (r.2.1 ++ q.1, q.2)

def convert (fuel : Nat) (response : Resp) : Option (List Bytes × Option String) :=
  sr.loop false fuel (sr.make response)

def convertHeaderOnly (fuel : Nat) (response : Resp) : Option (List Bytes × Option String) :=
  sr.loop true fuel (sr.split (sr.make response))

/-! ## What Beast promises -/

/-- The octets that a serializer has still to hand out: those of the header and those behind it;
whether it is split; and a bound on the passes it still takes. -/
structure View (S : Type) where
  header : S → Bytes
  body : S → Bytes
  isSplit : S → Bool
  rank : S → Nat

/-- The octets that the next buffers are taken from. -/
def View.offered {S : Type} (v : View S) (s : S) : Bytes :=
  if v.isSplit s = true ∧ v.header s ≠ [] then v.header s else v.header s ++ v.body s

/-- How many octets a call of `next` handed over. -/
def handed {S : Type} (r : S × Option (ErrorCode × List Bytes)) : Nat :=
  match r.2 with
  | none => 0
  | some (_, bs) => bs.flatten.length

/-- A serializer is done when nothing is left. It hands out the octets in order, those of the header
first and alone if it is split, and drops those that are consumed; it gets on when all that it
handed out is consumed. -/
structure Lawful (v : View S) : Prop where
  done : ∀ {s}, sr.isDone s = true → v.header s = [] ∧ v.body s = []
  headerDone : ∀ s, sr.isHeaderDone s = true ↔ v.header s = []
  next : ∀ {s}, sr.isDone s = false → v.header (sr.next s).1 = v.header s ∧
    v.body (sr.next s).1 = v.body s ∧ v.isSplit (sr.next s).1 = v.isSplit s
  hands : ∀ {s s' ec bs}, sr.isDone s = false → sr.next s = (s', some (ec, bs)) →
    bs.flatten <+: v.offered s
  consume : ∀ s n, v.header (sr.consume s n) = (v.header s).drop n ∧
    v.body (sr.consume s n) = (v.body s).drop (n - (v.header s).length) ∧
    v.isSplit (sr.consume s n) = v.isSplit s
  split : ∀ s, v.header (sr.split s) = v.header s ∧ v.isSplit (sr.split s) = true
  progress : ∀ {s}, sr.isDone s = false →
    v.rank (sr.consume (sr.next s).1 (handed (sr.next s))) < v.rank s

variable {sr} {v : View S}

/-! ## One pass -/

/-- What a pass yields and what is then left make up what was left before. -/
theorem pass_spec (h : sr.Lawful v) {s : S} (hs : sr.isDone s = false) :
    ((sr.pass s).2.2 = none →
      (sr.pass s).2.1.flatten <+: v.offered s ∧
      v.header (sr.pass s).1 = (v.header s).drop (sr.pass s).2.1.flatten.length ∧
      v.body (sr.pass s).1 =
        (v.body s).drop ((sr.pass s).2.1.flatten.length - (v.header s).length) ∧
      v.isSplit (sr.pass s).1 = v.isSplit s ∧ v.rank (sr.pass s).1 < v.rank s) ∧
    ((sr.pass s).2.2 ≠ none → (sr.pass s).2.1 = []) := by
  obtain ⟨hheader, hbody, hsplit⟩ := h.next hs
  have hrank := h.progress hs
  unfold pass
  split
  next s' hn =>
    simp only [hn, handed] at hheader hbody hsplit hrank
    obtain ⟨ch, cb, cs⟩ := h.consume s' 0
    refine ⟨fun _ => ⟨List.nil_prefix, ?_, ?_, ?_, hrank⟩, fun he => absurd rfl he⟩
    · simpa [hheader] using ch
    · simpa [hbody] using cb
    · rw [cs, hsplit]
  next s' ec bs hn =>
    simp only [hn, handed] at hheader hbody hsplit hrank
    split
    next e he => exact ⟨fun hno => by simp at hno, fun _ => rfl⟩
    next =>
      simp only [SerializeVisitor.visit_eq]
      obtain ⟨ch, cb, cs⟩ := h.consume s' bs.flatten.length
      refine ⟨fun _ => ⟨h.hands hs hn, ?_, ?_, ?_, hrank⟩, fun he => absurd rfl he⟩
      · rw [ch, hheader]
      · rw [cb, hbody, hheader]
      · rw [cs, hsplit]

theorem prefix_drop {x a b : Bytes} (h : x <+: a ++ b) :
    x ++ (a.drop x.length ++ b.drop (x.length - a.length)) = a ++ b := by
  obtain ⟨t, ht⟩ := h
  rw [← List.drop_append, ← ht, List.drop_left]

theorem offered_prefix {s : S} : v.offered s <+: v.header s ++ v.body s := by
  unfold View.offered
  split
  · exact List.prefix_append _ _
  · exact List.prefix_refl _

/-! ## The loops -/

theorem loop_ends (h : sr.Lawful v) {headerOnly : Bool} {fuel : Nat} {s : S}
    (hf : v.rank s < fuel) : ∃ r, sr.loop headerOnly fuel s = some r := by
  induction fuel generalizing s with
  | zero => omega
  | succ fuel ih =>
    rw [loop]
    cases hd : sr.isDone s with
    | true => exact ⟨_, rfl⟩
    | false =>
      simp only [Bool.false_eq_true, if_false]
      split
      next => exact ⟨_, rfl⟩
      next hgo =>
        have he : (sr.pass s).2.2 = none := by
          rw [Bool.or_eq_true, not_or] at hgo
          simpa using hgo.1
        obtain ⟨-, -, -, -, hrank⟩ := (pass_spec h hd).1 he
        obtain ⟨q, hq⟩ := ih (s := (sr.pass s).1) (by omega)
        exact ⟨_, by rw [hq]; rfl⟩

/-- **The loop of `convert`.** What it yields is the front of what was left, and all of it unless an
exception ends it. -/
theorem loop_message (h : sr.Lawful v) {fuel : Nat} {s : S} {r : List Bytes × Option String}
    (hr : sr.loop false fuel s = some r) :
    r.1.flatten <+: v.header s ++ v.body s ∧
      (r.2 = none → r.1.flatten = v.header s ++ v.body s) := by
  induction fuel generalizing s r with
  | zero => cases hr
  | succ fuel ih =>
    rw [loop] at hr
    cases hd : sr.isDone s with
    | true =>
      simp only [hd, if_true, Option.some.injEq] at hr
      subst hr
      obtain ⟨hheader, hbody⟩ := h.done hd
      simp [hheader, hbody]
    | false =>
      obtain ⟨hok, hthrew⟩ := pass_spec h hd
      simp only [hd, Bool.false_eq_true, if_false, Bool.false_and, Bool.or_false] at hr
      cases he : (sr.pass s).2.2 with
      | some e =>
        obtain rfl : (sr.pass s).2 = r := by simpa [he] using hr
        refine ⟨?_, fun hno => ?_⟩
        · rw [hthrew (by simp [he])]
          exact List.nil_prefix
        · simp [he] at hno
      | none =>
        simp only [he, Option.isSome_none, Bool.false_eq_true, if_false] at hr
        obtain ⟨q, hq, rfl⟩ := Option.map_eq_some_iff.mp hr
        obtain ⟨hpre, hheader, hbody, -, -⟩ := hok he
        have hsum := prefix_drop (hpre.trans offered_prefix)
        obtain ⟨hqpre, hqall⟩ := ih hq
        rw [hheader, hbody] at hqpre hqall
        refine ⟨?_, fun hno => ?_⟩
        · rw [List.flatten_append, ← hsum]
          exact (List.prefix_append_right_inj _).mpr hqpre
        · rw [List.flatten_append, hqall hno, hsum]

/-- **The loop of `convertHeaderOnly`.** Of a serializer that is split it yields the front of the
header, and all of it unless an exception ends it. -/
theorem loop_header (h : sr.Lawful v) {fuel : Nat} {s : S} {r : List Bytes × Option String}
    (hs : v.isSplit s = true) (hne : v.header s ≠ []) (hr : sr.loop true fuel s = some r) :
    r.1.flatten <+: v.header s ∧ (r.2 = none → r.1.flatten = v.header s) := by
  induction fuel generalizing s r with
  | zero => cases hr
  | succ fuel ih =>
    rw [loop] at hr
    have hd : sr.isDone s = false := by
      cases hd : sr.isDone s with
      | false => rfl
      | true => exact absurd (h.done hd).1 hne
    obtain ⟨hok, hthrew⟩ := pass_spec h hd
    simp only [hd, Bool.false_eq_true, if_false, Bool.true_and] at hr
    cases he : (sr.pass s).2.2 with
    | some e =>
      obtain rfl : (sr.pass s).2 = r := by simpa [he] using hr
      refine ⟨?_, fun hno => ?_⟩
      · rw [hthrew (by simp [he])]
        exact List.nil_prefix
      · simp [he] at hno
    | none =>
      obtain ⟨hpre, hheader, -, hsplit, -⟩ := hok he
      rw [View.offered, if_pos ⟨hs, hne⟩] at hpre
      obtain ⟨t, ht⟩ := hpre
      have hleft : v.header (sr.pass s).1 = t := by rw [hheader, ← ht, List.drop_left]
      simp only [he, Option.isSome_none, Bool.false_or] at hr
      by_cases hdone : sr.isHeaderDone (sr.pass s).1 = true
      · have htail : t = [] := hleft.symm.trans ((h.headerDone _).mp hdone)
        obtain rfl : (sr.pass s).2 = r := by simpa [hdone] using hr
        have hall : (sr.pass s).2.1.flatten = v.header s := by rw [← ht, htail, List.append_nil]
        exact ⟨hall ▸ List.prefix_refl _, fun _ => hall⟩
      · simp only [if_neg hdone] at hr
        obtain ⟨q, hq, rfl⟩ := Option.map_eq_some_iff.mp hr
        have hmore : v.header (sr.pass s).1 ≠ [] := fun hnil => hdone ((h.headerDone _).mpr hnil)
        obtain ⟨hqpre, hqall⟩ := ih (hsplit.trans hs) hmore hq
        rw [hleft] at hqpre hqall
        refine ⟨?_, fun hno => ?_⟩
        · rw [List.flatten_append, ← ht]
          exact (List.prefix_append_right_inj _).mpr hqpre
        · rw [List.flatten_append, hqall hno, ht]

def octets (sr : Serializer Resp S) (v : View S) (response : Resp) : Bytes :=
  v.header (sr.make response) ++ v.body (sr.make response)

theorem convert_octets (h : sr.Lawful v) {fuel : Nat} {response : Resp} {pieces : List Bytes}
    (hr : sr.convert fuel response = some (pieces, none)) :
    pieces.flatten = sr.octets v response :=
  (loop_message h hr).2 rfl

theorem convertHeaderOnly_octets (h : sr.Lawful v) {fuel : Nat} {response : Resp}
    {pieces : List Bytes} (hne : v.header (sr.make response) ≠ [])
    (hr : sr.convertHeaderOnly fuel response = some (pieces, none)) :
    pieces.flatten = v.header (sr.make response) := by
  obtain ⟨hheader, hsplit⟩ := h.split (sr.make response)
  rw [← hheader] at hne ⊢
  exact (loop_header h hsplit hne hr).2 rfl

end Serializer

end Eslang.Www
