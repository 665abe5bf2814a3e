import Eslang.Lib.Transition
import Mathlib

/-! # `Buffer` and `BufferCollection` (`eslang_io/Tcp.h`)

A `Buffer` is a view of a `Buff`: a pointer to it, an offset and a length. `Buff`s are counted by
their `refs_`, and several `Buffer`s may share one. A `Heap` holds the `Buff`s ever made and the
`Buffer` objects ever constructed, each under its number; a destroyed object leaves an empty place.

`Buff::append` has an empty body, so `Buffer::append` makes a view longer than its storage. -/
namespace Eslang.Buffers
set_option autoImplicit false
open Lib

abbrev BuffId := Nat
abbrev ObjectId := Nat

structure Buff where
  data_ : List UInt8
  refs_ : Nat := 0
deriving DecidableEq, Repr

namespace Buff

def size (s : Buff) : Nat := s.data_.length

/-- `void append(void* data, size_t len) {}`. -/
def append (s : Buff) (_data : List UInt8) : Buff := s

/-- `intrusive_ptr_add_ref`. -/
def addRef (s : Buff) : Buff := { s with refs_ := s.refs_ + 1 }

/-- `intrusive_ptr_release`; at zero the `Buff` is deleted. -/
def release (s : Buff) : Buff := { s with refs_ := s.refs_ - 1 }

end Buff

structure Buffer where
  buffer_ : BuffId
  offset_ : Nat := 0
  length_ : Nat
deriving DecidableEq, Repr

namespace Buffer

def size (b : Buffer) : Nat := b.length_

/-- `consume`, for `n` at most `size()`. -/
def consume (b : Buffer) (n : Nat) : Buffer :=
  { b with length_ := b.length_ - n, offset_ := b.offset_ + n }

/-- What `append` does to the view itself. -/
def extend (b : Buffer) (n : Nat) : Buffer := { b with length_ := b.length_ + n }

/-- The bytes from `data()` to `data() + size()`, where these lie in the storage. -/
def view (b : Buffer) (s : Buff) : Option (List UInt8) :=
  if b.offset_ + b.length_ ≤ s.size then some ((s.data_.drop b.offset_).take b.length_) else none

end Buffer

structure Heap where
  buffs : List Buff := []
  objects : List (Option Buffer) := []
deriving DecidableEq, Repr

namespace Heap

def object (h : Heap) (o : ObjectId) : Option Buffer := h.objects[o]?.join

/-- The bytes that object `o` views. -/
def viewed (h : Heap) (o : ObjectId) : Option (List UInt8) :=
  (h.object o).bind fun b => h.buffs[b.buffer_]?.bind b.view

def onBuff (h : Heap) (i : BuffId) (f : Buff → Buff) : Heap :=
  { h with buffs := h.buffs.modify i f }

/-- A new `Buff` with the one `Buffer` that refers to it. -/
def alloc (h : Heap) (bytes : List UInt8) : Heap where
  buffs := h.buffs ++ [({ data_ := bytes } : Buff).addRef]
  objects := h.objects ++ [some { buffer_ := h.buffs.length, length_ := bytes.length }]

def makeCopy (h : Heap) (bytes : List UInt8) : Heap := h.alloc bytes

def make (h : Heap) (bytes : List UInt8) : Heap := h.alloc bytes

/-- The copy constructor of `Buffer`. -/
def copy (h : Heap) (b : Buffer) : Heap :=
  { h.onBuff b.buffer_ Buff.addRef with objects := h.objects ++ [some b] }

/-- The destructor of `Buffer`. -/
def destroy (h : Heap) (o : ObjectId) (b : Buffer) : Heap :=
  { h.onBuff b.buffer_ Buff.release with objects := h.objects.set o none }

def consume (h : Heap) (o : ObjectId) (b : Buffer) (n : Nat) : Heap :=
  { h with objects := h.objects.set o (some (b.consume n)) }

/-- `a.append(b)`, for object `o` with view `a`. -/
def append (h : Heap) (o : ObjectId) (a b : Buffer) (data : List UInt8) : Heap :=
  { h.onBuff a.buffer_ (·.append data) with objects := h.objects.set o (some (a.extend b.size)) }

/-- `BufferCollection::combine`. -/
def combine (h : Heap) (vs : List (List UInt8)) : Heap := h.make vs.flatten

end Heap

/-! ## Histories -/

/-- An operation on `Buffer` objects. -/
inductive Op
  | makeCopy (bytes : List UInt8)
  | make (bytes : List UInt8)
  | copy (o : ObjectId)
  | consume (o : ObjectId) (n : Nat)
  | append (o p : ObjectId)
  | combine (os : List ObjectId)
  | destroy (o : ObjectId)
deriving DecidableEq, Repr

namespace Heap

/-- One operation. An object must exist, `consume` takes at most `size()`, and `combine` reads
nothing past the end of a storage. -/
def step (h : Heap) : Op → Option (Heap × List Empty)
  | .makeCopy bytes => some (h.makeCopy bytes, [])
  | .make bytes => some (h.make bytes, [])
  | .copy o => (h.object o).map fun b => (h.copy b, [])
  | .consume o n => ((h.object o).filter fun b => n ≤ b.size).map fun b => (h.consume o b n, [])
  | .append o p => do
      let a ← h.object o
      let b ← h.object p
      some (h.append o a b ((h.viewed p).getD []), [])
  | .combine os => (os.mapM h.viewed).map fun vs => (h.combine vs, [])
  | .destroy o => (h.object o).map fun b => (h.destroy o b, [])

/-- Every `Buffer` lies in its storage. -/
def WellFormed (h : Heap) : Prop :=
  ∀ o b, h.object o = some b → ∃ s, h.buffs[b.buffer_]? = some s ∧ b.offset_ + b.length_ ≤ s.size

/-- Every object but `o` views the same bytes before and after. -/
def SameBut (o : ObjectId) (h h' : Heap) : Prop :=
  ∀ p, p < h.objects.length → p ≠ o → h'.viewed p = h.viewed p

end Heap

/-- What an operation is for, on the bytes that objects view. -/
def Op.Meets (h h' : Heap) : Op → Prop
  | .makeCopy bytes | .make bytes =>
      h'.viewed h.objects.length = some bytes ∧ h.SameBut h.objects.length h'
  | .copy o => h'.viewed h.objects.length = h.viewed o ∧ h.SameBut h.objects.length h'
  | .consume o n => h'.viewed o = (h.viewed o).map (·.drop n) ∧ h.SameBut o h'
  | .append o p =>
      (∃ x y, h.viewed o = some x ∧ h.viewed p = some y ∧ h'.viewed o = some (x ++ y)) ∧
        h.SameBut o h'
  | .combine os =>
      (∃ vs, os.mapM h.viewed = some vs ∧ h'.viewed h.objects.length = some vs.flatten) ∧
        h.SameBut h.objects.length h'
  | .destroy o => h.SameBut o h'

def machine : System Heap Op Empty := ⟨Heap.step⟩

/-- An `append` is of an empty `Buffer`. -/
def emptyAppend (h : Heap) : Op → Bool
  | .append _ p => (h.object p).all fun b => b.size = 0
  | _ => true

namespace Heap

/-! ## Storage never changes -/

/-- Every `Buff` of `h` has the same bytes in `h'`. -/
def Keeps (h h' : Heap) : Prop :=
  ∀ (i : BuffId) (s : Buff), h.buffs[i]? = some s →
    ∃ s' : Buff, h'.buffs[i]? = some s' ∧ s'.data_ = s.data_

theorem keeps_onBuff (h : Heap) (i : BuffId) {f : Buff → Buff} (hf : ∀ s, (f s).data_ = s.data_) :
    h.Keeps (h.onBuff i f) := by
  intro j s hj
  by_cases hij : i = j
  · exact ⟨f s, by simp [onBuff, hj, hij], hf s⟩
  · exact ⟨s, by simp [onBuff, hj, hij], rfl⟩

theorem keeps_alloc (h : Heap) (bytes : List UInt8) : h.Keeps (h.alloc bytes) := by
  intro i s hi
  have hlt : i < h.buffs.length := (List.getElem?_eq_some_iff.mp hi).1
  exact ⟨s, by simp [alloc, List.getElem?_append_left hlt, hi], rfl⟩

/-- Every `Buffer` ends where its storage ends. -/
def Tight (h : Heap) : Prop :=
  ∀ o b, h.object o = some b → ∃ s, h.buffs[b.buffer_]? = some s ∧ b.offset_ + b.length_ = s.size

theorem Tight.wellFormed {h : Heap} (ht : h.Tight) : h.WellFormed := by
  intro o b ho
  obtain ⟨s, hs, he⟩ := ht o b ho
  exact ⟨s, hs, he.le⟩

theorem Tight.viewed {h : Heap} (ht : h.Tight) {o : ObjectId} {b : Buffer}
    (ho : h.object o = some b) :
    ∃ s, h.buffs[b.buffer_]? = some s ∧ b.offset_ + b.length_ = s.size ∧
      h.viewed o = some (s.data_.drop b.offset_) := by
  obtain ⟨s, hs, he⟩ := ht o b ho
  refine ⟨s, hs, he, ?_⟩
  have hlen : (s.data_.drop b.offset_).length ≤ b.length_ := by
    simp only [List.length_drop, Buff.size] at he ⊢
    omega
  simp [Heap.viewed, ho, hs, Buffer.view, he, List.take_of_length_le hlen]

theorem viewed_keep {h h' : Heap} (hk : h.Keeps h') (ht : h.Tight) {o : ObjectId}
    (ho : h'.object o = h.object o) : h'.viewed o = h.viewed o := by
  cases hb : h.object o with
  | none => simp [Heap.viewed, ho, hb]
  | some b =>
    obtain ⟨s, hs, -⟩ := ht o b hb
    obtain ⟨s', hs', hd⟩ := hk _ _ hs
    have hv : b.view s' = b.view s := by rw [Buffer.view, Buffer.view, Buff.size, Buff.size, hd]
    simp [Heap.viewed, ho, hb, hs, hs', hv]

theorem tight_keep {h h' : Heap} (hk : h.Keeps h') (ht : h.Tight) {o : ObjectId} {b : Buffer}
    (ho : h.object o = some b) :
    ∃ s, h'.buffs[b.buffer_]? = some s ∧ b.offset_ + b.length_ = s.size := by
  obtain ⟨s, hs, he⟩ := ht o b ho
  obtain ⟨s', hs', hd⟩ := hk _ _ hs
  exact ⟨s', hs', by rw [he, Buff.size, Buff.size, hd]⟩

theorem tight_empty : Tight {} := by
  intro o b ho
  simp [object] at ho

/-! ## Objects -/

theorem object_lt {h : Heap} {o : ObjectId} {b : Buffer} (ho : h.object o = some b) :
    o < h.objects.length := by
  by_contra hlt
  simp [object, List.getElem?_eq_none (Nat.le_of_not_lt hlt)] at ho

theorem object_append {h : Heap} {bs : List Buff} {b : Buffer} (o : ObjectId) :
    object ⟨bs, h.objects ++ [some b]⟩ o =
      if o = h.objects.length then some b else h.object o := by
  unfold object
  rcases Nat.lt_trichotomy o h.objects.length with hlt | rfl | hgt
  · simp [List.getElem?_append_left hlt, hlt.ne]
  · simp
  · have hlen : (h.objects ++ [some b]).length ≤ o := by simpa using hgt
    rw [List.getElem?_eq_none hlen, List.getElem?_eq_none hgt.le, if_neg hgt.ne']

theorem object_set {h : Heap} {bs : List Buff} {c : Option Buffer} {o : ObjectId} {b : Buffer}
    (ho : h.object o = some b) (p : ObjectId) :
    object ⟨bs, h.objects.set o c⟩ p = if p = o then c else h.object p := by
  have hlt := object_lt ho
  unfold object
  by_cases hp : p = o
  · subst hp
    simp [hlt]
  · simp [List.getElem?_set_ne (Ne.symm hp), hp]

theorem sameBut_new {h : Heap} {bs : List Buff} {b : Buffer} (ht : h.Tight)
    (hk : h.Keeps ⟨bs, h.objects ++ [some b]⟩) :
    h.SameBut h.objects.length ⟨bs, h.objects ++ [some b]⟩ := by
  intro p _ hne
  exact viewed_keep hk ht (by rw [object_append, if_neg hne])

theorem tight_new {h : Heap} {bs : List Buff} {b : Buffer} (ht : h.Tight)
    (hk : h.Keeps ⟨bs, h.objects ++ [some b]⟩)
    (hb : ∃ s, bs[b.buffer_]? = some s ∧ b.offset_ + b.length_ = s.size) :
    Tight ⟨bs, h.objects ++ [some b]⟩ := by
  intro p c hp
  rw [object_append] at hp
  split at hp
  · cases hp
    exact hb
  · exact tight_keep hk ht hp

theorem sameBut_set {h : Heap} {bs : List Buff} {c : Option Buffer} {o : ObjectId} {b : Buffer}
    (ht : h.Tight) (ho : h.object o = some b) (hk : h.Keeps ⟨bs, h.objects.set o c⟩) :
    h.SameBut o ⟨bs, h.objects.set o c⟩ := by
  intro p _ hne
  exact viewed_keep hk ht (by rw [object_set ho, if_neg hne])

theorem tight_set {h : Heap} {bs : List Buff} {c : Option Buffer} {o : ObjectId} {b : Buffer}
    (ht : h.Tight) (ho : h.object o = some b) (hk : h.Keeps ⟨bs, h.objects.set o c⟩)
    (hc : ∀ b', c = some b' → ∃ s, bs[b'.buffer_]? = some s ∧ b'.offset_ + b'.length_ = s.size) :
    Tight ⟨bs, h.objects.set o c⟩ := by
  intro p b' hp
  rw [object_set ho] at hp
  split at hp
  · exact hc b' hp
  · exact tight_keep hk ht hp

/-! ## Each operation -/

theorem alloc_meets {h : Heap} (ht : h.Tight) (bytes : List UInt8) :
    (h.alloc bytes).viewed h.objects.length = some bytes ∧
      h.SameBut h.objects.length (h.alloc bytes) ∧ (h.alloc bytes).Tight := by
  have hk := keeps_alloc h bytes
  have hb : (h.alloc bytes).buffs[h.buffs.length]? = some (({ data_ := bytes } : Buff).addRef) := by
    simp [alloc]
  have hn : (h.alloc bytes).object h.objects.length =
      some { buffer_ := h.buffs.length, length_ := bytes.length } := by
    simp [alloc, object]
  have ht' : (h.alloc bytes).Tight :=
    tight_new ht hk ⟨_, hb, by simp [Buff.size, Buff.addRef]⟩
  refine ⟨?_, sameBut_new ht hk, ht'⟩
  obtain ⟨s, hs, -, hv⟩ := ht'.viewed hn
  cases hs.symm.trans hb
  simpa [Buff.addRef] using hv

theorem copy_meets {h : Heap} (ht : h.Tight) {o : ObjectId} {b : Buffer}
    (ho : h.object o = some b) :
    (h.copy b).viewed h.objects.length = h.viewed o ∧ h.SameBut h.objects.length (h.copy b) ∧
      (h.copy b).Tight := by
  have hk : h.Keeps (h.copy b) := keeps_onBuff h b.buffer_ (fun _ => rfl)
  have hn : (h.copy b).object h.objects.length = some b := by simp [copy, onBuff, object]
  have ht' : (h.copy b).Tight := tight_new ht hk (tight_keep hk ht ho)
  refine ⟨?_, sameBut_new ht hk, ht'⟩
  obtain ⟨s, hs, -, hv⟩ := ht.viewed ho
  obtain ⟨s', hs', hd⟩ := hk _ _ hs
  obtain ⟨s'', hs'', -, hv'⟩ := ht'.viewed hn
  cases hs''.symm.trans hs'
  rw [hv, hv', hd]

theorem destroy_meets {h : Heap} (ht : h.Tight) {o : ObjectId} {b : Buffer}
    (ho : h.object o = some b) : h.SameBut o (h.destroy o b) ∧ (h.destroy o b).Tight := by
  have hk : h.Keeps (h.destroy o b) := keeps_onBuff h b.buffer_ (fun _ => rfl)
  exact ⟨sameBut_set ht ho hk, tight_set ht ho hk (by simp)⟩

theorem consume_meets {h : Heap} (ht : h.Tight) {o : ObjectId} {b : Buffer} {n : Nat}
    (ho : h.object o = some b) (hn : n ≤ b.size) :
    (h.consume o b n).viewed o = (h.viewed o).map (·.drop n) ∧ h.SameBut o (h.consume o b n) ∧
      (h.consume o b n).Tight := by
  have hk : h.Keeps (h.consume o b n) := fun i s hs => ⟨s, hs, rfl⟩
  have ho' : (h.consume o b n).object o = some (b.consume n) := by
    simp [consume, object_set ho]
  obtain ⟨s, hs, he, hv⟩ := ht.viewed ho
  have he' : (b.consume n).offset_ + (b.consume n).length_ = s.size := by
    simp only [Buffer.size, Buffer.consume] at hn ⊢
    omega
  have ht' : (h.consume o b n).Tight := by
    refine tight_set ht ho hk fun b' hb' => ?_
    cases hb'
    exact ⟨s, hs, he'⟩
  refine ⟨?_, sameBut_set ht ho hk, ht'⟩
  obtain ⟨s', hs', -, hv'⟩ := ht'.viewed ho'
  cases hs'.symm.trans hs
  rw [hv, hv']
  simp [Buffer.consume, List.drop_drop]

theorem append_meets {h : Heap} (ht : h.Tight) {o p : ObjectId} {a b : Buffer}
    (ho : h.object o = some a) (hp : h.object p = some b) (hb : b.size = 0) (data : List UInt8) :
    (Op.append o p).Meets h (h.append o a b data) ∧ (h.append o a b data).Tight := by
  have hk : h.Keeps (h.append o a b data) := keeps_onBuff h a.buffer_ (fun _ => rfl)
  have hext : a.extend b.size = a := by simp [Buffer.extend, hb]
  have ho' : (h.append o a b data).object o = h.object o := by
    simp [append, onBuff, object_set ho, hext, ho]
  have ht' : (h.append o a b data).Tight := by
    refine tight_set ht ho hk fun b' hb' => ?_
    cases hb'
    rw [hext]
    exact tight_keep hk ht ho
  obtain ⟨s, -, -, hx⟩ := ht.viewed ho
  obtain ⟨s', -, he, hy⟩ := ht.viewed hp
  have hy' : h.viewed p = some [] := by
    rw [hy, List.drop_eq_nil_of_le]
    simp only [Buffer.size, Buff.size] at hb he
    omega
  refine ⟨⟨⟨_, _, hx, hy', ?_⟩, sameBut_set ht ho hk⟩, ht'⟩
  rw [viewed_keep hk ht ho', hx, List.append_nil]

/-- **`append` of anything else leaves a view that runs past its storage.** -/
theorem append_not_wellFormed {h : Heap} (ht : h.Tight) {o : ObjectId} {a b : Buffer}
    (ho : h.object o = some a) (hb : b.size ≠ 0) (data : List UInt8) :
    ¬ (h.append o a b data).WellFormed := by
  intro hw
  have hk : h.Keeps (h.append o a b data) := keeps_onBuff h a.buffer_ (fun _ => rfl)
  have ho' : (h.append o a b data).object o = some (a.extend b.size) := by
    simp [append, onBuff, object_set ho]
  obtain ⟨s, hs, he⟩ := hw o _ ho'
  obtain ⟨s', hs', he'⟩ := tight_keep hk ht ho
  cases hs.symm.trans hs'
  simp only [Buffer.extend, Buffer.size] at he hb
  omega

theorem step_meets {h h' : Heap} (ht : h.Tight) {op : Op} {out : List Empty}
    (hs : h.step op = some (h', out)) (hg : emptyAppend h op = true) :
    op.Meets h h' ∧ h'.Tight := by
  cases op with
  | makeCopy bytes =>
    cases hs
    obtain ⟨hv, hsame, ht'⟩ := alloc_meets ht bytes
    exact ⟨⟨hv, hsame⟩, ht'⟩
  | make bytes =>
    cases hs
    obtain ⟨hv, hsame, ht'⟩ := alloc_meets ht bytes
    exact ⟨⟨hv, hsame⟩, ht'⟩
  | copy o =>
    obtain ⟨b, ho, he⟩ := Option.map_eq_some_iff.mp hs
    cases he
    obtain ⟨hv, hsame, ht'⟩ := copy_meets ht ho
    exact ⟨⟨hv, hsame⟩, ht'⟩
  | consume o n =>
    obtain ⟨b, ho, he⟩ := Option.map_eq_some_iff.mp hs
    cases he
    obtain ⟨ho, hn⟩ := Option.filter_eq_some_iff.mp ho
    obtain ⟨hv, hsame, ht'⟩ := consume_meets ht ho (by simpa using hn)
    exact ⟨⟨hv, hsame⟩, ht'⟩
  | append o p =>
    obtain ⟨a, ho, hs⟩ := Option.bind_eq_some_iff.mp hs
    obtain ⟨b, hp, hs⟩ := Option.bind_eq_some_iff.mp hs
    cases hs
    exact append_meets ht ho hp (by simpa [emptyAppend, hp] using hg) _
  | combine os =>
    obtain ⟨vs, hvs, he⟩ := Option.map_eq_some_iff.mp hs
    cases he
    obtain ⟨hv, hsame, ht'⟩ := alloc_meets ht vs.flatten
    exact ⟨⟨⟨vs, hvs, hv⟩, hsame⟩, ht'⟩
  | destroy o =>
    obtain ⟨b, ho, he⟩ := Option.map_eq_some_iff.mp hs
    cases he
    exact destroy_meets ht ho

/-- A step that leaves every view in its storage appended nothing. -/
theorem emptyAppend_of_wellFormed {h h' : Heap} (ht : h.Tight) {op : Op} {out : List Empty}
    (hs : h.step op = some (h', out)) (hw : h'.WellFormed) : emptyAppend h op = true := by
  cases op with
  | append o p =>
    obtain ⟨a, ho, hs⟩ := Option.bind_eq_some_iff.mp hs
    obtain ⟨b, hp, hs⟩ := Option.bind_eq_some_iff.mp hs
    cases hs
    by_contra hg
    exact append_not_wellFormed ht ho (by simpa [emptyAppend, hp] using hg) _ hw
  | _ => rfl

theorem run_tight {h : Heap} {tr : List Empty}
    (hr : machine.Run (fun h op => emptyAppend h op = true) {} tr h) : h.Tight :=
  hr.invariant (fun _ h => h.Tight) tight_empty fun _ _ _ _ _ ht hg hs => (step_meets ht hs hg).2

end Heap

/-- **In every history that appends only empty `Buffer`s every view lies in its storage, and the
next operation does what it should exactly if it keeps to that.** -/
theorem buffers_well_formed {h : Heap} {tr : List Empty}
    (hr : machine.Run (fun h op => emptyAppend h op = true) {} tr h) :
    h.WellFormed ∧ ∀ op h' out, machine.step h op = some (h', out) →
      (op.Meets h h' ∧ h'.WellFormed ↔ emptyAppend h op = true) := by
  have ht := Heap.run_tight hr
  refine ⟨ht.wellFormed, fun op h' out hs => ⟨fun hm => ?_, fun hg => ?_⟩⟩
  · exact Heap.emptyAppend_of_wellFormed ht hs hm.2
  · obtain ⟨hm, ht'⟩ := Heap.step_meets ht hs hg
    exact ⟨hm, ht'.wellFormed⟩

/-- A `Buffer` and a copy of it; the copy consumes a byte and an empty `Buffer` is appended to it. -/
theorem buffers_well_formed_shared :
    ∃ tr h, machine.Run (fun h op => emptyAppend h op = true) {} tr h ∧ h.WellFormed ∧
      h.viewed 0 = some [1, 2] ∧ h.viewed 1 = some [2] := by
  obtain ⟨tr, h, hr, hv⟩ := System.exec_reaches (M := machine) (g := emptyAppend)
    (G := fun h op => emptyAppend h op = true) (fun _ _ hg => hg)
    (w := [.makeCopy [1, 2], .copy 0, .consume 1 1, .make [], .append 1 2])
    (s := {}) (P := fun _ h => h.viewed 0 = some [1, 2] ∧ h.viewed 1 = some [2]) (by decide)
  exact ⟨tr, h, hr, (buffers_well_formed hr).1, hv⟩

/-- Two `Buffer`s of one byte each, and the second is appended to the first. -/
theorem append_runs_past_end :
    ∃ tr h, machine.Run System.anyStep {} tr h ∧ ¬ h.WellFormed := by
  obtain ⟨tr, h, hr, rfl⟩ := System.exec_reaches (M := machine) (g := fun _ _ => true)
    (G := System.anyStep) (fun _ _ _ => trivial) (w := [.makeCopy [1], .makeCopy [2], .append 0 1])
    (s := {}) (P := fun _ h => h = ⟨[⟨[1], 1⟩, ⟨[2], 1⟩], [some ⟨0, 0, 2⟩, some ⟨1, 0, 1⟩]⟩) (by decide)
  refine ⟨tr, _, hr, fun hw => ?_⟩
  obtain ⟨s, hs, hle⟩ := hw 0 ⟨0, 0, 2⟩ rfl
  cases hs
  simp [Buff.size] at hle

end Eslang.Buffers
