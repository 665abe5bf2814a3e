import Eslang.Tcp.Buffers
import Eslang.Tcp.Socket
import Mathlib

/-! # Who owns the storage of a write (`TSocketProcess::run`, `TSocketProcess::write`)

The socket process of `Socket` together with the `Buffer` objects of the program. An object is the
program's own, or it was moved into a message and lies in the queue of one of the two payload slots.
The coroutine moves a popped message into `ret`, hands a `Buffer` to `write` by value and destroys
both before it suspends again; `async_write` keeps the address of the storage and no reference. -/
namespace Eslang.Buffers
set_option autoImplicit false

namespace Heap

/-! ## Reference counts -/

/-- `refs_` of a `Buff`. -/
def refs (h : Heap) (i : BuffId) : Nat := (h.buffs[i]?.map Buff.refs_).getD 0

/-- How many objects refer to `Buff` number `i`. -/
def holders (h : Heap) (i : BuffId) : Nat := h.objects.countP fun b => b.any (·.buffer_ = i)

/-- Every object refers to a `Buff`, and `refs_` counts the objects that do. -/
structure Counted (h : Heap) : Prop where
  placed : ∀ o b, h.object o = some b → b.buffer_ < h.buffs.length
  counted : ∀ (i : BuffId) (s : Buff), h.buffs[i]? = some s → s.refs_ = h.holders i

theorem object_mem {h : Heap} {o : ObjectId} {b : Buffer} (ho : h.object o = some b) :
    some b ∈ h.objects :=
  List.mem_of_getElem? (Option.join_eq_some_iff.mp ho)

theorem mem_object {h : Heap} {b : Buffer} (hb : some b ∈ h.objects) : ∃ o, h.object o = some b := by
  obtain ⟨o, ho⟩ := List.getElem?_of_mem hb
  exact ⟨o, by simp [object, ho]⟩

theorem holders_pos_iff {h : Heap} {i : BuffId} :
    0 < h.holders i ↔ ∃ o b, h.object o = some b ∧ b.buffer_ = i := by
  unfold holders
  rw [List.countP_pos_iff]
  constructor
  · rintro ⟨c, hc, hi⟩
    cases c with
    | none => cases hi
    | some b =>
      obtain ⟨o, ho⟩ := mem_object hc
      exact ⟨o, b, ho, by simpa using hi⟩
  · rintro ⟨o, b, ho, rfl⟩
    exact ⟨some b, object_mem ho, by simp⟩

theorem counted_empty : Counted {} where
  placed := by
    intro o b ho
    simp [object] at ho
  counted := by simp

theorem counted_alloc {h : Heap} (hc : h.Counted) (bytes : List UInt8) : (h.alloc bytes).Counted where
  placed := by
    intro o b ho
    have hlen : (h.alloc bytes).buffs.length = h.buffs.length + 1 := by simp [alloc]
    rw [hlen]
    rw [alloc, object_append] at ho
    split at ho
    · cases ho
      exact Nat.lt_succ_self _
    · exact (hc.placed o b ho).trans (Nat.lt_succ_self _)
  counted := by
    intro i s hi
    have hold : (h.alloc bytes).holders i = h.holders i + if h.buffs.length = i then 1 else 0 := by
      simp [holders, alloc, List.countP_append, List.countP_cons]
    rw [hold]
    rcases Nat.lt_trichotomy i h.buffs.length with hlt | rfl | hgt
    · rw [alloc, List.getElem?_append_left hlt] at hi
      rw [hc.counted i s hi, if_neg hlt.ne']
      rfl
    · have hnone : h.holders h.buffs.length = 0 := by
        by_contra hpos
        obtain ⟨o, b, ho, hb⟩ := holders_pos_iff.mp (Nat.pos_of_ne_zero hpos)
        exact absurd (hc.placed o b ho) (by simp [hb])
      have hs : s = ({ data_ := bytes } : Buff).addRef := by simpa [alloc, eq_comm] using hi
      rw [hnone, hs, if_pos rfl]
      rfl
    · have hlen : (h.alloc bytes).buffs.length ≤ i := by simpa [alloc] using hgt
      rw [List.getElem?_eq_none hlen] at hi
      cases hi

theorem counted_onBuff {h : Heap} {objs : List (Option Buffer)} {j : BuffId} {f : Buff → Buff}
    (hc : h.Counted)
    (hp : ∀ o b, object ⟨h.buffs, objs⟩ o = some b → b.buffer_ < h.buffs.length)
    (hj : ∀ s, h.buffs[j]? = some s → (f s).refs_ = holders ⟨h.buffs, objs⟩ j)
    (hne : ∀ i, i ≠ j → holders ⟨h.buffs, objs⟩ i = h.holders i) :
    Counted { h.onBuff j f with objects := objs } where
  placed := by
    intro o b ho
    simpa [onBuff] using hp o b ho
  counted := by
    intro i s hi
    simp only [onBuff, List.getElem?_modify] at hi
    obtain ⟨s', hs', rfl⟩ := Option.map_eq_some_iff.mp hi
    split
    next hij =>
      subst hij
      exact hj s' hs'
    next hij =>
      rw [hc.counted i s' hs']
      exact (hne i (Ne.symm hij)).symm

theorem counted_copy {h : Heap} (hc : h.Counted) {o : ObjectId} {b : Buffer}
    (ho : h.object o = some b) : (h.copy b).Counted := by
  have hold : ∀ i, holders ⟨h.buffs, h.objects ++ [some b]⟩ i =
      h.holders i + if b.buffer_ = i then 1 else 0 := by
    intro i
    simp [holders, List.countP_append, List.countP_cons]
  refine counted_onBuff hc ?_ ?_ ?_
  · intro p c hp
    rw [object_append] at hp
    split at hp
    · cases hp
      exact hc.placed o _ ho
    · exact hc.placed p c hp
  · intro s hs
    rw [hold, if_pos rfl, Buff.addRef, hc.counted _ s hs]
  · intro i hi
    rw [hold, if_neg (Ne.symm hi)]
    rfl

theorem counted_destroy {h : Heap} (hc : h.Counted) {o : ObjectId} {b : Buffer}
    (ho : h.object o = some b) : (h.destroy o b).Counted := by
  have hlt := object_lt ho
  have hget : h.objects[o] = some b := by simpa [object, hlt] using ho
  have hold : ∀ i, holders ⟨h.buffs, h.objects.set o none⟩ i =
      h.holders i - if b.buffer_ = i then 1 else 0 := by
    intro i
    simp [holders, List.countP_set hlt, hget]
  refine counted_onBuff hc ?_ ?_ ?_
  · intro p c hp
    rw [object_set ho] at hp
    split at hp
    · cases hp
    · exact hc.placed p c hp
  · intro s hs
    rw [hold, if_pos rfl, Buff.release, hc.counted _ s hs]
  · intro i hi
    rw [hold, if_neg (Ne.symm hi)]
    rfl

theorem counted_reshape {h : Heap} (hc : h.Counted) {o : ObjectId} {b c : Buffer}
    (ho : h.object o = some b) (hb : c.buffer_ = b.buffer_) :
    Counted ⟨h.buffs, h.objects.set o (some c)⟩ where
  placed := by
    intro p d hp
    rw [object_set ho] at hp
    split at hp
    · cases hp
      exact hb ▸ hc.placed o b ho
    · exact hc.placed p d hp
  counted := by
    intro i s hi
    have hlt := object_lt ho
    have hget : h.objects[o] = some b := by simpa [object, hlt] using ho
    have hpos : b.buffer_ = i → 0 < h.holders i := fun he => holders_pos_iff.mpr ⟨o, b, ho, he⟩
    have hold : holders ⟨h.buffs, h.objects.set o (some c)⟩ i = h.holders i := by
      have hset : holders ⟨h.buffs, h.objects.set o (some c)⟩ i =
          h.holders i - (if b.buffer_ = i then 1 else 0) + if b.buffer_ = i then 1 else 0 := by
        simp [holders, List.countP_set hlt, hget, hb]
      rw [hset]
      split
      next he => have := hpos he; omega
      next => rfl
    rw [hold]
    exact hc.counted i s hi

/-- No object appears; what is gone is gone, and storage is only added. -/
def Shrinks (h h' : Heap) : Prop :=
  h.buffs.length ≤ h'.buffs.length ∧ ∀ o b, h'.object o = some b → h.object o = some b

theorem Shrinks.refl (h : Heap) : h.Shrinks h := ⟨le_rfl, fun _ _ ho => ho⟩

theorem Shrinks.trans {h h' h'' : Heap} (h₁ : h.Shrinks h') (h₂ : h'.Shrinks h'') : h.Shrinks h'' :=
  ⟨h₁.1.trans h₂.1, fun o b ho => h₁.2 o b (h₂.2 o b ho)⟩

theorem shrinks_destroy {h : Heap} {o : ObjectId} {b : Buffer} (ho : h.object o = some b) :
    h.Shrinks (h.destroy o b) := by
  refine ⟨by simp [destroy, onBuff], fun p c hp => ?_⟩
  rw [destroy, object_set ho] at hp
  split at hp
  · cases hp
  · exact hp

def release (h : Heap) (o : ObjectId) : Heap :=
  match h.object o with
  | none => h
  | some b => h.destroy o b

def releaseAll (h : Heap) (os : List ObjectId) : Heap := os.foldl release h

theorem release_spec {h : Heap} (hc : h.Counted) (o : ObjectId) :
    (h.release o).Counted ∧ h.Shrinks (h.release o) ∧ (h.release o).object o = none := by
  unfold release
  split
  next hn => exact ⟨hc, .refl h, hn⟩
  next b ho => exact ⟨counted_destroy hc ho, shrinks_destroy ho, by rw [destroy, object_set ho, if_pos rfl]⟩

theorem releaseAll_spec {h : Heap} (hc : h.Counted) (os : List ObjectId) :
    (h.releaseAll os).Counted ∧ h.Shrinks (h.releaseAll os) ∧
      ∀ o ∈ os, (h.releaseAll os).object o = none := by
  induction os generalizing h with
  | nil => exact ⟨hc, .refl h, by simp⟩
  | cons p os ih =>
    obtain ⟨hc₁, hs₁, hp⟩ := release_spec hc p
    obtain ⟨hc₂, hs₂, hos⟩ := ih hc₁
    refine ⟨hc₂, hs₁.trans hs₂, fun o ho => ?_⟩
    rcases List.mem_cons.mp ho with rfl | ho
    · cases hb : ((h.release o).releaseAll os).object o with
      | none => exact hb
      | some b => cases hp.symm.trans (hs₂.2 o b hb)
    · exact hos o ho

/-- Every object was there with the same storage, or is new; a new one shares storage or has a
`Buff` of its own. -/
def Evolves (h h' : Heap) : Prop :=
  h.buffs.length ≤ h'.buffs.length ∧ ∀ o b', h'.object o = some b' →
    (∃ b, h.object o = some b ∧ b.buffer_ = b'.buffer_) ∨
      (h.objects.length ≤ o ∧ o < h'.objects.length ∧
        (h.buffs.length ≤ b'.buffer_ ∨ ∃ p b, h.object p = some b ∧ b.buffer_ = b'.buffer_))

theorem evolves_alloc (h : Heap) (bytes : List UInt8) : h.Evolves (h.alloc bytes) := by
  refine ⟨by simp [alloc], fun o b' ho => ?_⟩
  have hlt := object_lt ho
  rw [alloc, object_append] at ho
  split at ho
  next he =>
    cases ho
    exact .inr ⟨he.ge, hlt, .inl le_rfl⟩
  next => exact .inl ⟨b', ho, rfl⟩

theorem evolves_copy {h : Heap} {o : ObjectId} {b : Buffer} (ho : h.object o = some b) :
    h.Evolves (h.copy b) := by
  refine ⟨by simp [copy, onBuff], fun p b' hp => ?_⟩
  have hlt := object_lt hp
  rw [copy, object_append] at hp
  split at hp
  next he =>
    cases hp
    exact .inr ⟨he.ge, hlt, .inr ⟨o, b, ho, rfl⟩⟩
  next => exact .inl ⟨b', hp, rfl⟩

theorem Shrinks.evolves {h h' : Heap} (hs : h.Shrinks h') : h.Evolves h' :=
  ⟨hs.1, fun o b' ho => .inl ⟨b', hs.2 o b' ho, rfl⟩⟩

theorem evolves_reshape {h : Heap} {o : ObjectId} {b c : Buffer} (ho : h.object o = some b)
    (hb : c.buffer_ = b.buffer_) : h.Evolves ⟨h.buffs, h.objects.set o (some c)⟩ := by
  refine ⟨le_rfl, fun p b' hp => ?_⟩
  rw [object_set ho] at hp
  split at hp
  next he =>
    cases hp
    exact .inl ⟨b, he ▸ ho, hb.symm⟩
  next => exact .inl ⟨b', hp, rfl⟩

theorem onBuff_append (h : Heap) (i : BuffId) (data : List UInt8) :
    h.onBuff i (·.append data) = h := by
  have hid : (fun s : Buff => s.append data) = id := rfl
  simp [onBuff, hid]

theorem step_counted {h h' : Heap} (hc : h.Counted) {op : Op} {out : List Empty}
    (hs : h.step op = some (h', out)) : h'.Counted ∧ h.Evolves h' := by
  cases op with
  | makeCopy bytes =>
    cases hs
    exact ⟨counted_alloc hc bytes, evolves_alloc h bytes⟩
  | make bytes =>
    cases hs
    exact ⟨counted_alloc hc bytes, evolves_alloc h bytes⟩
  | copy o =>
    obtain ⟨b, ho, he⟩ := Option.map_eq_some_iff.mp hs
    cases he
    exact ⟨counted_copy hc ho, evolves_copy ho⟩
  | consume o n =>
    obtain ⟨b, ho, he⟩ := Option.map_eq_some_iff.mp hs
    cases he
    have ho := (Option.filter_eq_some_iff.mp ho).1
    exact ⟨counted_reshape hc ho rfl, evolves_reshape ho rfl⟩
  | append o p =>
    obtain ⟨a, ho, hs⟩ := Option.bind_eq_some_iff.mp hs
    obtain ⟨b, hp, hs⟩ := Option.bind_eq_some_iff.mp hs
    cases hs
    rw [append, onBuff_append]
    exact ⟨counted_reshape hc ho rfl, evolves_reshape ho rfl⟩
  | combine os =>
    obtain ⟨vs, hvs, he⟩ := Option.map_eq_some_iff.mp hs
    cases he
    exact ⟨counted_alloc hc _, evolves_alloc h _⟩
  | destroy o =>
    obtain ⟨b, ho, he⟩ := Option.map_eq_some_iff.mp hs
    cases he
    exact ⟨counted_destroy hc ho, (shrinks_destroy ho).evolves⟩

end Heap

/-- The objects that an operation reads or writes. -/
def Op.targets : Op → List ObjectId
  | .makeCopy _ | .make _ => []
  | .copy o | .consume o _ | .destroy o => [o]
  | .append o p => [o, p]
  | .combine os => os

namespace Heap

theorem release_length (h : Heap) (o : ObjectId) : (h.release o).objects.length = h.objects.length := by
  unfold release
  split
  · rfl
  · simp [destroy]

theorem release_object {h : Heap} {o p : ObjectId} (hp : p ≠ o) :
    (h.release o).object p = h.object p := by
  unfold release
  split
  · rfl
  next b ho => rw [destroy, object_set ho, if_neg hp]

theorem releaseAll_length (h : Heap) (os : List ObjectId) :
    (h.releaseAll os).objects.length = h.objects.length := by
  induction os generalizing h with
  | nil => rfl
  | cons o os ih => exact (ih (h.release o)).trans (release_length h o)

theorem releaseAll_object {h : Heap} {os : List ObjectId} {p : ObjectId} (hp : p ∉ os) :
    (h.releaseAll os).object p = h.object p := by
  induction os generalizing h with
  | nil => rfl
  | cons o os ih =>
    exact (ih (List.not_mem_of_not_mem_cons hp)).trans (release_object (List.ne_of_not_mem_cons hp))

theorem object_new {h : Heap} {bs : List Buff} {b : Buffer} {o : ObjectId}
    (ho : o < h.objects.length) : object ⟨bs, h.objects ++ [some b]⟩ o = h.object o := by
  rw [object_append, if_neg ho.ne]

theorem step_keeps {h h' : Heap} {op : Op} {out : List Empty} (hs : h.step op = some (h', out)) :
    h.objects.length ≤ h'.objects.length ∧
      ∀ o, o < h.objects.length → o ∉ op.targets → h'.object o = h.object o := by
  cases op with
  | makeCopy bytes =>
    cases hs
    exact ⟨by simp [makeCopy, alloc], fun o ho _ => object_new ho⟩
  | make bytes =>
    cases hs
    exact ⟨by simp [make, alloc], fun o ho _ => object_new ho⟩
  | copy p =>
    obtain ⟨b, hp, he⟩ := Option.map_eq_some_iff.mp hs
    cases he
    exact ⟨by simp [copy], fun o ho _ => object_new ho⟩
  | consume p n =>
    obtain ⟨b, hp, he⟩ := Option.map_eq_some_iff.mp hs
    cases he
    have hp := (Option.filter_eq_some_iff.mp hp).1
    refine ⟨by simp [consume], fun o _ hne => ?_⟩
    rw [consume, object_set hp, if_neg (by simpa [Op.targets] using hne)]
  | append p q =>
    obtain ⟨a, hp, hs⟩ := Option.bind_eq_some_iff.mp hs
    obtain ⟨b, hq, hs⟩ := Option.bind_eq_some_iff.mp hs
    cases hs
    refine ⟨by simp [append], fun o _ hne => ?_⟩
    have hne : o ≠ p := fun h => hne (by simp [Op.targets, h])
    rw [append, object_set hp, if_neg hne]
  | combine os =>
    obtain ⟨vs, hvs, he⟩ := Option.map_eq_some_iff.mp hs
    cases he
    exact ⟨by simp [combine, make, alloc], fun o ho _ => object_new ho⟩
  | destroy p =>
    obtain ⟨b, hp, he⟩ := Option.map_eq_some_iff.mp hs
    cases he
    refine ⟨by simp [destroy], fun o _ hne => ?_⟩
    rw [destroy, object_set hp, if_neg (by simpa [Op.targets] using hne)]

end Heap

end Eslang.Buffers

namespace Eslang.Tcp
open Lib Buffers

/-! ## The machine -/

/-- The storage that an outstanding `async_write` reads, and whether `combine()` made it. -/
structure InFlight where
  buff : BuffId
  combined : Bool
deriving DecidableEq, Repr

structure Ledger where
  heap : Heap := {}
  /-- The objects of the program outside the socket process. -/
  own : List ObjectId := []
  /-- The objects in the queues of `send_data` and `send_many_data`. -/
  sendData : List ObjectId := []
  sendMany : List (List ObjectId) := []
  inFlight : List InFlight := []
deriving DecidableEq, Repr

namespace Ledger

/-- The program works on its own objects; what it makes is its own. -/
def program (g : Ledger) (op : Buffers.Op) : Option Ledger :=
  if op.targets.all g.own.contains then
    (g.heap.step op).map fun r =>
      { g with
        heap := r.1
        own := g.own ++ List.range' g.heap.objects.length (r.1.objects.length - g.heap.objects.length) }
  else none

/-- A message takes objects of the program away; nobody keeps those of a message that is dropped. -/
def dropped (g : Ledger) (os : List ObjectId) : Ledger :=
  { g with heap := g.heap.releaseAll os, own := g.own.filter (!os.contains ·) }

def queueData (g : Ledger) (o : ObjectId) : Ledger :=
  { g with sendData := g.sendData ++ [o], own := g.own.filter (!([o] : List ObjectId).contains ·) }

def queueMany (g : Ledger) (os : List ObjectId) : Ledger :=
  { g with sendMany := g.sendMany ++ [os], own := g.own.filter (!os.contains ·) }

/-- `write(ret.value())`: the parameter is a copy, which dies with the call. -/
def write (g : Ledger) (o : ObjectId) : Ledger :=
  match g.heap.object o with
  | none => g
  | some b =>
      { g with
        heap := (g.heap.copy b).release g.heap.objects.length
        inFlight := g.inFlight ++ [⟨b.buffer_, false⟩] }

/-- `write(ret.value().combine())`: the parameter is the only reference to the new storage. -/
def writeCombined (g : Ledger) (os : List ObjectId) : Ledger :=
  { g with
    heap := (g.heap.combine (os.filterMap g.heap.viewed)).release g.heap.objects.length
    inFlight := g.inFlight ++ [⟨g.heap.buffs.length, true⟩] }

/-- The end of the block: `ret` is destroyed. -/
def leave (g : Ledger) (ret : Option ObjectId × Option (List ObjectId)) : Ledger :=
  { g with heap := g.heap.releaseAll (ret.1.toList ++ ret.2.getD []) }

/-- `get_vals`: the messages move into `ret`. -/
def pop (g : Ledger) (one many : Bool) : Ledger × Option ObjectId × Option (List ObjectId) :=
  ({ g with
      sendData := if one then g.sendData.tail else g.sendData
      sendMany := if many then g.sendMany.tail else g.sendMany },
    if one then g.sendData.head? else none, if many then g.sendMany.head? else none)

/-- The code after `tryRecv`, from `await_resume` to the end of the block, beside
`Socket.received`. -/
def received (g : Ledger) (s : Socket) : Ledger :=
  let (g, ret) := g.pop s.send_data.pop.isSome s.send_many_data.pop.isSome
  match s.except_, ret with
  | some _, ret => g.leave ret
  | none, (some o, r) => (g.write o).leave (some o, r)
  | none, (none, some os) => (g.writeCombined os).leave (none, some os)
  | none, (none, none) => g

end Ledger

structure Owned where
  socket : Socket
  ledger : Ledger := {}

namespace Owned

inductive Label
  /-- A step of the socket process, or of its environment other than a payload. -/
  | socket (l : Socket.Label)
  | program (op : Buffers.Op)
  | sendData (o : ObjectId)
  | sendMany (os : List ObjectId)
deriving DecidableEq, Repr

/-- Whether the label carries a payload of which the objects are not named. -/
def anonymous : Socket.Label → Bool
  | .message (.data _) | .message (.many _) => true
  | _ => false

/-- What a step of the socket process means for the objects. -/
def follow (g : Ledger) (s : Socket) : Socket.Label → Ledger
  | .tick _ => if s.point = .tryRecv then g.received s else g
  | .writeDone _ => { g with inFlight := g.inFlight.tail }
  | _ => g

/-- A message with payload `m` made of the objects `os` arrives. -/
def deliver (x : Owned) (m : Socket.Message) (os : List ObjectId) (queued : Ledger) :
    Option (Owned × List Event) :=
  if os.all x.ledger.own.contains && decide os.Nodup then
    (x.socket.step (.message m)).map fun r =>
      (⟨r.1, if x.socket.dead then x.ledger.dropped os else queued⟩, r.2)
  else none

def step (x : Owned) : Label → Option (Owned × List Event)
  | .socket l =>
      if anonymous l then none
      else (x.socket.step l).map fun r => (⟨r.1, follow x.ledger x.socket l⟩, r.2)
  | .program op =>
      if x.socket.running then none
      else (x.ledger.program op).map fun g => (⟨x.socket, g⟩, [])
  | .sendData o => do
      let b ← x.ledger.heap.viewed o
      x.deliver (.data b) [o] (x.ledger.queueData o)
  | .sendMany os => do
      let bs ← os.mapM x.ledger.heap.viewed
      x.deliver (.many ⟨bs⟩) os (x.ledger.queueMany os)

def machine : System Owned Label Event := ⟨step⟩

def spawned (traits : Traits) (options : SocketOptions) (pid : Pid) (onReady : SendAddress) : Owned :=
  { socket := Socket.spawned traits options pid onReady }

end Owned

/-! ## Nobody else owns the storage -/

namespace Ledger

def Holds (g : Ledger) (o : ObjectId) : Prop :=
  o ∈ g.own ∨ o ∈ g.sendData ∨ ∃ os ∈ g.sendMany, o ∈ os

/-- Every object has an owner, which may be `ret` while the coroutine runs, and a combined storage
has none. -/
structure Sound (g : Ledger) (ret : List ObjectId) : Prop where
  counted : g.heap.Counted
  held : ∀ o b, g.heap.object o = some b → g.Holds o ∨ o ∈ ret
  placed : ∀ f ∈ g.inFlight, f.buff < g.heap.buffs.length
  alone : ∀ f ∈ g.inFlight, f.combined = true →
    ∀ o b, g.heap.object o = some b → b.buffer_ ≠ f.buff

theorem sound_empty : Sound {} [] where
  counted := Heap.counted_empty
  held := by
    intro o b ho
    simp [Heap.object] at ho
  placed := by simp
  alone := by simp

theorem Sound.program {g g' : Ledger} {ret : List ObjectId} (hg : g.Sound ret) {op : Buffers.Op}
    (h : g.program op = some g') : g'.Sound ret := by
  unfold Ledger.program at h
  split at h
  next =>
    obtain ⟨⟨h', out⟩, hs, rfl⟩ := Option.map_eq_some_iff.mp h
    obtain ⟨hc, hlen, hev⟩ := Heap.step_counted hg.counted hs
    refine ⟨hc, fun o b ho => ?_, fun f hf => (hg.placed f hf).trans_le hlen, fun f hf hcomb o b ho => ?_⟩
    · rcases hev o b ho with ⟨b₀, ho₀, -⟩ | ⟨hge, hlt, -⟩
      · rcases hg.held o b₀ ho₀ with (hown | hq) | hret
        · exact .inl (.inl (List.mem_append_left _ hown))
        · exact .inl (.inr hq)
        · exact .inr hret
      · refine .inl (.inl (List.mem_append_right _ (List.mem_range'_1.mpr ⟨hge, ?_⟩)))
        exact hlt.trans_eq (Nat.add_sub_cancel' (hge.trans hlt.le)).symm
    · rcases hev o b ho with ⟨b₀, ho₀, hb⟩ | ⟨-, -, hfresh | ⟨p, b₀, hp, hb⟩⟩
      · exact hb ▸ hg.alone f hf hcomb o b₀ ho₀
      · exact ((hg.placed f hf).trans_le hfresh).ne'
      · exact hb ▸ hg.alone f hf hcomb p b₀ hp
  next => cases h

theorem Sound.shrink {g g' : Ledger} {ret ret' : List ObjectId} (hg : g.Sound ret)
    (hc : g'.heap.Counted) (hs : g.heap.Shrinks g'.heap) (hf : ∀ f ∈ g'.inFlight, f ∈ g.inFlight)
    (hh : ∀ o b, g'.heap.object o = some b → g.Holds o ∨ o ∈ ret → g'.Holds o ∨ o ∈ ret') :
    g'.Sound ret' where
  counted := hc
  held := fun o b ho => hh o b ho (hg.held o b (hs.2 o b ho))
  placed := fun f hm => (hg.placed f (hf f hm)).trans_le hs.1
  alone := fun f hm hcomb o b ho => hg.alone f (hf f hm) hcomb o b (hs.2 o b ho)

theorem Sound.dropped {g : Ledger} (hg : g.Sound []) (os : List ObjectId) :
    (g.dropped os).Sound [] := by
  obtain ⟨hc, hs, hgone⟩ := Heap.releaseAll_spec hg.counted os
  refine hg.shrink hc hs (fun _ hf => hf) fun o b ho hold => ?_
  rcases hold with (hown | hq) | hret
  · refine .inl (.inl (List.mem_filter.mpr ⟨hown, ?_⟩))
    by_contra hmem
    rw [Bool.not_eq_true, Bool.not_eq_false', List.contains_iff_mem] at hmem
    cases (hgone o hmem).symm.trans ho
  · exact .inl (.inr hq)
  · exact .inr hret

theorem Sound.queueData {g : Ledger} (hg : g.Sound []) (o : ObjectId) : (g.queueData o).Sound [] := by
  refine hg.shrink hg.counted (.refl _) (fun _ hf => hf) fun p b _ hold => ?_
  rcases hold with (hown | hd | hm) | hret
  · by_cases hp : p = o
    · exact .inl (.inr (.inl (by simp [Ledger.queueData, hp])))
    · exact .inl (.inl (List.mem_filter.mpr ⟨hown, by simp [hp]⟩))
  · exact .inl (.inr (.inl (List.mem_append_left _ hd)))
  · exact .inl (.inr (.inr hm))
  · exact .inr hret

theorem Sound.queueMany {g : Ledger} (hg : g.Sound []) (os : List ObjectId) :
    (g.queueMany os).Sound [] := by
  refine hg.shrink hg.counted (.refl _) (fun _ hf => hf) fun p b _ hold => ?_
  rcases hold with (hown | hd | ⟨qs, hqs, hp⟩) | hret
  · by_cases hp : p ∈ os
    · exact .inl (.inr (.inr ⟨os, by simp [Ledger.queueMany], hp⟩))
    · exact .inl (.inl (List.mem_filter.mpr ⟨hown, by simp [hp]⟩))
  · exact .inl (.inr (.inl hd))
  · exact .inl (.inr (.inr ⟨qs, List.mem_append_left _ hqs, hp⟩))
  · exact .inr hret

/-- A write of `f` starts, and the objects that it used on the way are gone. -/
theorem Sound.inFlight {g : Ledger} {ret : List ObjectId} (hg : g.Sound ret) {h : Heap} {f : InFlight}
    (hc : h.Counted) (hs : g.heap.Shrinks h) (hlen : f.buff < h.buffs.length)
    (halone : f.combined = true → ∀ p c, h.object p = some c → c.buffer_ ≠ f.buff) :
    Sound { g with heap := h, inFlight := g.inFlight ++ [f] } ret where
  counted := hc
  held p c hp := hg.held p c (hs.2 p c hp)
  placed f' hf := by
    rcases List.mem_append.mp hf with hf | hf
    · exact (hg.placed f' hf).trans_le hs.1
    · rw [List.mem_singleton.mp hf]
      exact hlen
  alone f' hf hcomb p c hp := by
    rcases List.mem_append.mp hf with hf | hf
    · exact hg.alone f' hf hcomb p c (hs.2 p c hp)
    · rw [List.mem_singleton.mp hf] at hcomb ⊢
      exact halone hcomb p c hp

/-- A copy that is destroyed at once leaves nothing but the address of its storage. -/
theorem Sound.write {g : Ledger} {ret : List ObjectId} (hg : g.Sound ret) (o : ObjectId) :
    (g.write o).Sound ret := by
  unfold Ledger.write
  split
  next => exact hg
  next b ho =>
    have hev := Heap.evolves_copy ho
    obtain ⟨hc, hs, hgone⟩ :=
      Heap.release_spec (Heap.counted_copy hg.counted ho) g.heap.objects.length
    have hshrink : g.heap.Shrinks ((g.heap.copy b).release g.heap.objects.length) := by
      refine ⟨hev.1.trans hs.1, fun p c hp => ?_⟩
      have hp' := hs.2 p c hp
      rw [Heap.copy, Heap.object_append] at hp'
      split at hp'
      next he => cases hgone.symm.trans (he ▸ hp)
      next => exact hp'
    have hlen : b.buffer_ < ((g.heap.copy b).release g.heap.objects.length).buffs.length :=
      (hg.counted.placed o b ho).trans_le hshrink.1
    exact hg.inFlight hc hshrink hlen (by simp)

/-- The storage that `combine()` made has no owner once `write` has returned. -/
theorem Sound.writeCombined {g : Ledger} {ret : List ObjectId} (hg : g.Sound ret)
    (os : List ObjectId) : (g.writeCombined os).Sound ret := by
  have hev := Heap.evolves_alloc g.heap (os.filterMap g.heap.viewed).flatten
  obtain ⟨hc, hs, hgone⟩ := Heap.release_spec
    (Heap.counted_alloc hg.counted (os.filterMap g.heap.viewed).flatten) g.heap.objects.length
  have hshrink : g.heap.Shrinks (g.writeCombined os).heap := by
    refine ⟨hev.1.trans hs.1, fun p c hp => ?_⟩
    have hp' := hs.2 p c hp
    rw [Heap.alloc, Heap.object_append] at hp'
    split at hp'
    next he => cases hgone.symm.trans (he ▸ hp)
    next => exact hp'
  have hlen : g.heap.buffs.length < (g.writeCombined os).heap.buffs.length := by
    refine lt_of_lt_of_le ?_ hs.1
    simp [Heap.alloc]
  exact hg.inFlight hc hshrink hlen fun _ p c hp => (hg.counted.placed p c (hshrink.2 p c hp)).ne

theorem Sound.leave {g : Ledger} {r : Option ObjectId × Option (List ObjectId)}
    (hg : g.Sound (r.1.toList ++ r.2.getD [])) : (g.leave r).Sound [] := by
  obtain ⟨hc, hs, hgone⟩ := Heap.releaseAll_spec hg.counted (r.1.toList ++ r.2.getD [])
  refine hg.shrink hc hs (fun _ hf => hf) fun o b ho hold => ?_
  rcases hold with hold | hret
  · exact .inl hold
  · cases (hgone o hret).symm.trans ho

theorem Sound.pop {g : Ledger} (hg : g.Sound []) (one many : Bool) :
    (g.pop one many).1.Sound ((g.pop one many).2.1.toList ++ (g.pop one many).2.2.getD []) := by
  refine hg.shrink hg.counted (.refl _) (fun _ hf => hf) fun o b _ hold => ?_
  rcases hold with (hown | hd | ⟨os, hos, ho⟩) | hret
  · exact .inl (.inl hown)
  · cases one with
    | false => exact .inl (.inr (.inl hd))
    | true =>
      cases hq : g.sendData with
      | nil => simp [hq] at hd
      | cons p ps =>
        rcases List.mem_cons.mp (hq ▸ hd) with rfl | hps
        · exact .inr (by simp [Ledger.pop, hq])
        · exact .inl (.inr (.inl (by simpa [Ledger.pop, hq] using hps)))
  · cases many with
    | false => exact .inl (.inr (.inr ⟨os, hos, ho⟩))
    | true =>
      cases hq : g.sendMany with
      | nil => simp [hq] at hos
      | cons p ps =>
        rcases List.mem_cons.mp (hq ▸ hos) with rfl | hps
        · exact .inr (by simp [Ledger.pop, hq, ho])
        · exact .inl (.inr (.inr ⟨os, by simpa [Ledger.pop, hq] using hps, ho⟩))
  · cases hret

theorem Sound.received {g : Ledger} (hg : g.Sound []) (s : Socket) : (g.received s).Sound [] := by
  have hpop := hg.pop s.send_data.pop.isSome s.send_many_data.pop.isSome
  unfold Ledger.received
  generalize g.pop s.send_data.pop.isSome s.send_many_data.pop.isSome = r at hpop
  obtain ⟨g', one, many⟩ := r
  cases s.except_ with
  | some e => exact hpop.leave
  | none =>
    cases one with
    | some o => exact (hpop.write o).leave
    | none =>
      cases many with
      | some os => exact (hpop.writeCombined os).leave
      | none => exact hpop

end Ledger

theorem Owned.follow_sound {g : Ledger} (hg : g.Sound []) (s : Socket) (l : Socket.Label) :
    (Owned.follow g s l).Sound [] := by
  unfold Owned.follow
  split
  next =>
    split
    · exact hg.received s
    · exact hg
  next => exact hg.shrink hg.counted (.refl _) (fun _ hf => List.mem_of_mem_tail hf) fun _ _ _ hold => hold
  next => exact hg

theorem Owned.deliver_sound {x x' : Owned} {m : Socket.Message} {os : List ObjectId} {queued : Ledger}
    {out : List Event} (hx : x.ledger.Sound []) (hq : queued.Sound [])
    (h : x.deliver m os queued = some (x', out)) : x'.ledger.Sound [] := by
  unfold Owned.deliver at h
  split at h
  next =>
    obtain ⟨r, -, he⟩ := Option.map_eq_some_iff.mp h
    cases he
    dsimp only
    split
    · exact hx.dropped os
    · exact hq
  next => cases h

theorem Owned.step_sound {x x' : Owned} {l : Owned.Label} {out : List Event}
    (hx : x.ledger.Sound []) (h : x.step l = some (x', out)) : x'.ledger.Sound [] := by
  cases l with
  | socket l =>
    simp only [Owned.step] at h
    split at h
    next => cases h
    next =>
      obtain ⟨r, -, he⟩ := Option.map_eq_some_iff.mp h
      cases he
      exact Owned.follow_sound hx x.socket l
  | program op =>
    simp only [Owned.step] at h
    split at h
    next => cases h
    next =>
      obtain ⟨g, hg, he⟩ := Option.map_eq_some_iff.mp h
      cases he
      exact hx.program hg
  | sendData o =>
    obtain ⟨b, -, h⟩ := Option.bind_eq_some_iff.mp h
    exact Owned.deliver_sound hx (hx.queueData o) h
  | sendMany os =>
    obtain ⟨bs, -, h⟩ := Option.bind_eq_some_iff.mp h
    exact Owned.deliver_sound hx (hx.queueMany os) h

/-! ## The objects of the queues and of the writes -/

namespace Socket

/-- The part of the state that payloads pass through. -/
def Members.outgoing (m : Members) :
    MessageQueue Buffer Nat × MessageQueue BufferCollection Nat × List Buffer :=
  (m.send_data, m.send_many_data, m.writes)

theorem tick_outgoing {s : Socket} (hp : s.point ≠ .tryRecv) (busy : Bool) :
    (s.tick busy).1.members.outgoing = s.members.outgoing := by
  have hawait (t : Socket) (w : Waiting) (pt : Point) :
      (t.await w pt).members.outgoing = t.members.outgoing := by
    rw [members_await]
    rfl
  have hsuspend (t : Socket) (w : Waiting) (pt : Point) :
      (t.suspend w pt).members.outgoing = t.members.outgoing := by
    rw [members_suspend]
    rfl
  unfold tick
  split
  next =>
    split
    · rfl
    · exact hawait _ _ _
  next => rfl
  next => exact hawait _ _ _
  next => split <;> rfl
  next =>
    split
    · rfl
    · split
      · rfl
      · dsimp only
        split
        · exact hsuspend _ _ _
        · rfl
  next =>
    split
    · exact hsuspend _ _ _
    · rfl
  next =>
    split
    · exact hsuspend _ _ _
    · rfl
  next =>
    split
    · exact hawait _ _ _
    · exact hawait _ _ _
  next => split <;> rfl
  next h => exact absurd h hp
  next => rfl
  next => rfl

end Socket

namespace Ledger

/-- The objects that messages were made of. -/
def queued (g : Ledger) : List ObjectId := g.sendData ++ g.sendMany.flatten

/-- No object has two owners, and those in the queues are alive. -/
structure Distinct (g : Ledger) : Prop where
  nodup : (g.own ++ g.queued).Nodup
  bound : ∀ o ∈ g.own ++ g.queued, o < g.heap.objects.length
  alive : ∀ o ∈ g.queued, (g.heap.object o).isSome

theorem Distinct.sublist {g g' : Ledger} {ret : List ObjectId} (hg : g.Distinct)
    (hown : g'.own.Sublist g.own) (hq : g.queued.Perm (ret ++ g'.queued))
    (hlen : g.heap.objects.length ≤ g'.heap.objects.length)
    (hk : ∀ o, o < g.heap.objects.length → o ∉ ret → g'.heap.object o = g.heap.object o) :
    g'.Distinct := by
  have hsub : (g'.own ++ g'.queued).Subperm (g.own ++ g.queued) :=
    (hown.subperm.append (List.sublist_append_right ret g'.queued).subperm).trans
      ((List.Perm.append_left g.own hq.symm).subperm)
  have hdisj : (ret ++ g'.queued).Nodup := hq.nodup_iff.mp (List.nodup_append.mp hg.nodup).2.1
  obtain ⟨l, hperm, hl⟩ := hsub
  refine ⟨hperm.nodup_iff.mp (hg.nodup.sublist hl),
    fun o ho => (hg.bound o (hl.subset (hperm.mem_iff.mpr ho))).trans_le hlen, fun o ho => ?_⟩
  have hmem : o ∈ g.queued := hq.mem_iff.mpr (List.mem_append_right ret ho)
  have hret : o ∉ ret := fun hr => (List.nodup_append.mp hdisj).2.2 o hr o ho rfl
  rw [hk o (hg.bound o (List.mem_append_right _ hmem)) hret]
  exact hg.alive o hmem

theorem distinct_empty : Distinct {} := ⟨by simp [queued], by simp [queued], by simp [queued]⟩

theorem Distinct.dropped {g : Ledger} (hg : g.Distinct) {os : List ObjectId}
    (hos : ∀ o ∈ os, o ∈ g.own) : (g.dropped os).Distinct := by
  refine ⟨hg.nodup.sublist (List.filter_sublist.append_right _), fun o ho => ?_, fun o ho => ?_⟩
  · rw [Ledger.dropped, Heap.releaseAll_length]
    exact hg.bound o ((List.filter_sublist.append_right _).subset ho)
  · have hne : o ∉ os := fun h => (List.nodup_append.mp hg.nodup).2.2 o (hos o h) o ho rfl
    rw [Ledger.dropped, Heap.releaseAll_object hne]
    exact hg.alive o ho

theorem Distinct.queue {g g' : Ledger} (hg : g.Distinct) {os : List ObjectId}
    (hheap : g'.heap = g.heap) (hown : g'.own = g.own.filter (!os.contains ·))
    (hq : g'.queued.Perm (os ++ g.queued)) (hos : ∀ o ∈ os, o ∈ g.own) (hnd : os.Nodup)
    (halive : ∀ o ∈ os, (g.heap.object o).isSome) : g'.Distinct := by
  have hparts := List.nodup_append.mp hg.nodup
  have hmem : ∀ o ∈ g'.own ++ g'.queued, o ∈ g.own ++ g.queued := by
    intro o ho
    rw [hown] at ho
    rcases List.mem_append.mp ho with ho | ho
    · exact List.mem_append_left _ (List.mem_filter.mp ho).1
    · rcases List.mem_append.mp (hq.mem_iff.mp ho) with ho | ho
      · exact List.mem_append_left _ (hos o ho)
      · exact List.mem_append_right _ ho
  refine ⟨?_, fun o ho => hheap ▸ hg.bound o (hmem o ho), fun o ho => ?_⟩
  · rw [hown, (List.Perm.append_left _ hq).nodup_iff, List.nodup_append, List.nodup_append]
    refine ⟨hparts.1.sublist List.filter_sublist, ⟨hnd, hparts.2.1, fun a ha b hb => ?_⟩, fun a ha b hb => ?_⟩
    · exact hparts.2.2 a (hos a ha) b hb
    · obtain ⟨ha, hnot⟩ := List.mem_filter.mp ha
      rcases List.mem_append.mp hb with hb | hb
      · rintro rfl
        simp [hb] at hnot
      · exact hparts.2.2 a ha b hb
  · rw [hheap]
    rcases List.mem_append.mp (hq.mem_iff.mp ho) with ho | ho
    · exact halive o ho
    · exact hg.alive o ho

theorem Distinct.program {g g' : Ledger} (hg : g.Distinct) {op : Buffers.Op}
    (h : g.program op = some g') : g'.Distinct := by
  unfold Ledger.program at h
  split at h
  next htargets =>
    obtain ⟨⟨h', out⟩, hs, rfl⟩ := Option.map_eq_some_iff.mp h
    obtain ⟨hlen, hkeep⟩ := Heap.step_keeps hs
    have hparts := List.nodup_append.mp hg.nodup
    refine ⟨?_, fun o ho => ?_, fun o ho => ?_⟩
    · have hnew : ∀ o ∈ List.range' g.heap.objects.length (h'.objects.length - g.heap.objects.length),
          o ∉ g.own ++ g.queued := by
        intro o ho hold
        exact absurd (hg.bound o hold) (Nat.not_lt.mpr (List.mem_range'_1.mp ho).1)
      show (g.own ++ _ ++ g.queued).Nodup
      rw [List.append_assoc, (List.Perm.append_left g.own List.perm_append_comm).nodup_iff,
        ← List.append_assoc, List.nodup_append]
      refine ⟨hg.nodup, List.nodup_range', fun a ha b hb => ?_⟩
      rintro rfl
      exact hnew a hb ha
    · rcases List.mem_append.mp ho with ho | ho
      · rcases List.mem_append.mp ho with ho | ho
        · exact (hg.bound o (List.mem_append_left _ ho)).trans_le hlen
        · exact (List.mem_range'_1.mp ho).2.trans_eq (Nat.add_sub_cancel' hlen)
      · exact (hg.bound o (List.mem_append_right _ ho)).trans_le hlen
    · have hne : o ∉ op.targets := by
        intro ht
        have hown : o ∈ g.own := by simpa using List.all_eq_true.mp htargets o ht
        exact hparts.2.2 o hown o ho rfl
      rw [hkeep o (hg.bound o (List.mem_append_right _ ho)) hne]
      exact hg.alive o ho
  next => cases h

theorem pop_queued (g : Ledger) (one many : Bool) :
    g.queued.Perm (((g.pop one many).2.1.toList ++ (g.pop one many).2.2.getD []) ++
      (g.pop one many).1.queued) := by
  have hone : g.sendData = (if one then g.sendData.head? else none).toList ++
      if one then g.sendData.tail else g.sendData := by
    cases one <;> cases g.sendData <;> rfl
  have hmany : g.sendMany.flatten = (if many then g.sendMany.head? else none).getD [] ++
      (if many then g.sendMany.tail else g.sendMany).flatten := by
    cases many <;> cases g.sendMany <;> simp
  unfold queued
  nth_rewrite 1 [hone, hmany]
  rw [pop, List.append_assoc, List.append_assoc, ← List.append_assoc _ (Option.getD _ _),
    ← List.append_assoc (Option.getD _ _)]
  exact List.Perm.append_left _ (List.Perm.append_right _ List.perm_append_comm)

theorem leave_object {g : Ledger} {r : Option ObjectId × Option (List ObjectId)} {o : ObjectId}
    (ho : o ∉ r.1.toList ++ r.2.getD []) : (g.leave r).heap.object o = g.heap.object o :=
  Heap.releaseAll_object ho

theorem write_object {g : Ledger} {o p : ObjectId} (hp : p < g.heap.objects.length) :
    g.heap.objects.length ≤ (g.write o).heap.objects.length ∧
      (g.write o).heap.object p = g.heap.object p := by
  unfold Ledger.write
  split
  · exact ⟨le_rfl, rfl⟩
  · refine ⟨?_, ?_⟩
    · rw [Heap.release_length]
      simp [Heap.copy]
    · rw [Heap.release_object hp.ne]
      exact Heap.object_new hp

theorem writeCombined_object {g : Ledger} {os : List ObjectId} {p : ObjectId}
    (hp : p < g.heap.objects.length) :
    g.heap.objects.length ≤ (g.writeCombined os).heap.objects.length ∧
      (g.writeCombined os).heap.object p = g.heap.object p := by
  unfold Ledger.writeCombined
  refine ⟨?_, ?_⟩
  · rw [Heap.release_length]
    simp [Heap.combine, Heap.make, Heap.alloc]
  · rw [Heap.release_object hp.ne]
    exact Heap.object_new hp

end Ledger

/-- The ledger has an object for every payload that is queued, and a storage for every write. -/
structure Owned.Mirrors (s : Socket) (g : Ledger) : Prop where
  distinct : g.Distinct
  sendData : s.send_data.contents.length = g.sendData.length
  sendMany : s.send_many_data.contents.length = g.sendMany.length
  inFlight : s.writes.length = g.inFlight.length

theorem Ledger.received_frame (g : Ledger) (s : Socket) :
    (g.received s).own = g.own ∧
      (g.received s).sendData = (g.pop s.send_data.pop.isSome s.send_many_data.pop.isSome).1.sendData ∧
      (g.received s).sendMany = (g.pop s.send_data.pop.isSome s.send_many_data.pop.isSome).1.sendMany ∧
      g.heap.objects.length ≤ (g.received s).heap.objects.length ∧
      ∀ o, o < g.heap.objects.length →
        o ∉ (g.pop s.send_data.pop.isSome s.send_many_data.pop.isSome).2.1.toList ++
          (g.pop s.send_data.pop.isSome s.send_many_data.pop.isSome).2.2.getD [] →
        (g.received s).heap.object o = g.heap.object o := by
  have hown : (g.pop s.send_data.pop.isSome s.send_many_data.pop.isSome).1.own = g.own := rfl
  have hheap : (g.pop s.send_data.pop.isSome s.send_many_data.pop.isSome).1.heap = g.heap := rfl
  unfold Ledger.received
  generalize g.pop s.send_data.pop.isSome s.send_many_data.pop.isSome = r at hown hheap ⊢
  obtain ⟨g', one, many⟩ := r
  dsimp only at hown hheap ⊢
  rw [← hown, ← hheap]
  have hleave (q : Ledger) (r : Option ObjectId × Option (List ObjectId)) :
      (q.leave r).heap.objects.length = q.heap.objects.length := Heap.releaseAll_length _ _
  cases s.except_ with
  | some e => exact ⟨rfl, rfl, rfl, (hleave _ _).ge, fun o _ hne => leave_object hne⟩
  | none =>
    cases one with
    | some o =>
      refine ⟨?_, ?_, ?_, ?_, fun p hp hne => (leave_object hne).trans (write_object hp).2⟩
      · simp only [leave, Ledger.write]
        split <;> rfl
      · simp only [leave, Ledger.write]
        split <;> rfl
      · simp only [leave, Ledger.write]
        split <;> rfl
      · rw [hleave]
        simp only [Ledger.write]
        split
        · exact le_rfl
        · rw [Heap.release_length]
          simp [Heap.copy]
    | none =>
      cases many with
      | some os =>
        refine ⟨rfl, rfl, rfl, ?_, fun p hp hne => (leave_object hne).trans (writeCombined_object hp).2⟩
        rw [hleave, Ledger.writeCombined, Heap.release_length]
        simp [Heap.combine, Heap.make, Heap.alloc]
      | none => exact ⟨rfl, rfl, rfl, le_rfl, fun _ _ _ => rfl⟩

theorem Ledger.Distinct.received {g : Ledger} (hg : g.Distinct) (s : Socket) :
    (g.received s).Distinct := by
  obtain ⟨hown, hdata, hmany, hlen, hkeep⟩ := g.received_frame s
  refine hg.sublist (hown ▸ List.Sublist.refl _) ?_ hlen hkeep
  have hq : (g.received s).queued =
      (g.pop s.send_data.pop.isSome s.send_many_data.pop.isSome).1.queued := by
    rw [queued, queued, hdata, hmany]
  rw [hq]
  exact g.pop_queued _ _

theorem Socket.received_outgoing (s : Socket) :
    s.received.1.send_data.contents = s.send_data.contents.tail ∧
      s.received.1.send_many_data.contents = s.send_many_data.contents.tail ∧
      s.received.1.writes.length = s.writes.length +
        if s.except_ = none ∧ (s.send_data.pop.isSome ∨ s.send_many_data.pop.isSome) then 1 else 0 := by
  have hpop {α : Type} (q : MessageQueue α Nat) :
      ((q.pop.map fun r => r.2.1).getD q).contents = q.contents.tail := by
    cases hq : q.pop with
    | none => simp [MessageQueue.pop_none hq]
    | some r => simp [MessageQueue.contents_pop hq]
  have hd := hpop s.send_data
  have hm := hpop s.send_many_data
  unfold Socket.received
  dsimp only [Socket.getVals]
  cases hx : s.except_ with
  | some e => simp [Socket.throw, hd, hm]
  | none =>
    cases h₁ : s.send_data.pop with
    | some r =>
      rw [h₁] at hd
      refine ⟨hd, hm, ?_⟩
      simp [Socket.write]
    | none =>
      rw [h₁] at hd
      cases h₂ : s.send_many_data.pop with
      | some r =>
        rw [h₂] at hm
        refine ⟨hd, hm, ?_⟩
        simp [Socket.write]
      | none =>
        rw [h₂] at hm
        refine ⟨hd, hm, ?_⟩
        simp

theorem MessageQueue.head_of_pop {α β κ : Type} {q : MessageQueue α κ} {os : List β}
    (hlen : q.contents.length = os.length) (hp : q.pop.isSome) : ∃ o, os.head? = some o := by
  obtain ⟨r, hr⟩ := Option.isSome_iff_exists.mp hp
  rw [MessageQueue.contents_pop hr] at hlen
  cases os with
  | nil => cases hlen
  | cons o os => exact ⟨o, rfl⟩

theorem Owned.Mirrors.received_inFlight {s : Socket} {g : Ledger} (h : Mirrors s g) :
    (g.received s).inFlight.length = g.inFlight.length +
      if s.except_ = none ∧ (s.send_data.pop.isSome ∨ s.send_many_data.pop.isSome) then 1 else 0 := by
  unfold Ledger.received
  cases hx : s.except_ with
  | some e => simp [Ledger.pop, Ledger.leave]
  | none =>
    cases h₁ : s.send_data.pop.isSome with
    | true =>
      obtain ⟨o, ho⟩ := MessageQueue.head_of_pop h.sendData h₁
      have hq : o ∈ g.queued := List.mem_append_left _ (List.mem_of_mem_head? ho)
      obtain ⟨b, hb⟩ := Option.isSome_iff_exists.mp (h.distinct.alive o hq)
      simp [Ledger.pop, Ledger.leave, Ledger.write, ho, hb]
    | false =>
      cases h₂ : s.send_many_data.pop.isSome with
      | true =>
        obtain ⟨os, hos⟩ := MessageQueue.head_of_pop h.sendMany h₂
        simp [Ledger.pop, Ledger.leave, Ledger.writeCombined, hos]
      | false => simp [Ledger.pop]

theorem Owned.Mirrors.received {s : Socket} {g : Ledger} (h : Mirrors s g) :
    Mirrors s.received.1 (g.received s) := by
  obtain ⟨-, hdata, hmany, -⟩ := g.received_frame s
  obtain ⟨hsd, hsm, hw⟩ := s.received_outgoing
  have htail {α β κ : Type} {q : MessageQueue α κ} {os : List β} (hlen : q.contents.length = os.length) :
      q.contents.tail.length = (if q.pop.isSome then os.tail else os).length := by
    cases hq : q.pop with
    | none =>
      rw [MessageQueue.pop_none hq] at hlen ⊢
      simpa using hlen
    | some r => simp [hlen]
  refine ⟨h.distinct.received s, ?_, ?_, ?_⟩
  · rw [hsd, hdata]
    exact htail h.sendData
  · rw [hsm, hmany]
    exact htail h.sendMany
  · rw [hw, h.inFlight, h.received_inFlight]

theorem Owned.Mirrors.of_outgoing {s s' : Socket} {g : Ledger} (h : Mirrors s g)
    (he : s'.members.outgoing = s.members.outgoing) : Mirrors s' g := by
  simp only [Socket.Members.outgoing, Socket.members, Prod.mk.injEq] at he
  obtain ⟨hd, hm, hw⟩ := he
  exact ⟨h.distinct, hd ▸ h.sendData, hm ▸ h.sendMany, hw ▸ h.inFlight⟩

theorem Socket.onRead_outgoing (s : Socket) (error : Option ErrorCode) (bytes : Buffer) :
    (s.onRead error bytes).1.members.outgoing = s.members.outgoing := by
  have hvalue (t : Socket) : t.setValue.members.outgoing = t.members.outgoing :=
    congrArg Members.outgoing (members_setValue t)
  unfold onRead
  split
  · rfl
  · exact hvalue _
  · rw [members_setError]
    rfl
  · split
    · dsimp only
      split
      · exact hvalue _
      · rfl
    · rfl

theorem Owned.Mirrors.followed {s s' : Socket} {g : Ledger} {l : Socket.Label} {out : List Event}
    (h : Mirrors s g) (hl : anonymous l = false) (heff : Socket.Effect s l s' out) :
    Mirrors s' (Owned.follow g s l) := by
  cases heff with
  | tick busy hr =>
    unfold Owned.follow
    dsimp only
    split
    next hp =>
      have htick : s.tick busy = s.received := by rw [Socket.tick, hp]
      rw [htick]
      exact h.received
    next hp => exact h.of_outgoing (Socket.tick_outgoing hp busy)
  | item hr hq hd => exact h.of_outgoing (congrArg Socket.Members.outgoing (Socket.members_resumeAt _ _))
  | lateItem hr hq hd => exact h.of_outgoing rfl
  | continuation hr hp =>
    exact h.of_outgoing (congrArg Socket.Members.outgoing (Socket.members_resumeAt _ _))
  | message m hr hd =>
    cases m with
    | data b => cases hl
    | many c => cases hl
    | init a =>
      exact h.of_outgoing
        ((congrArg Socket.Members.outgoing (Socket.members_send s (.init a))).trans rfl)
  | lateMessage m hr hd => exact h
  | handshakeDone error hr hh hc =>
    exact h.of_outgoing ((congrArg Socket.Members.outgoing
      (Socket.members_onHandshake { s with handshaking := false } error)).trans rfl)
  | readDone error bytes hr hn hc hb => exact h.of_outgoing (Socket.onRead_outgoing _ error bytes)
  | @writeDone error b bs hr hw hc =>
    have hw' : ({ s with writes := bs }.onWrite error).members.outgoing =
        (s.send_data, s.send_many_data, bs) := by
      unfold Socket.onWrite
      split
      · rfl
      · rw [Socket.members_setError]
        rfl
      · exact congrArg Socket.Members.outgoing (Socket.members_setValue _)
    simp only [Socket.Members.outgoing, Socket.members, Prod.mk.injEq] at hw'
    obtain ⟨hsd, hsm, hws⟩ := hw'
    have hlen := h.inFlight
    rw [hw] at hlen
    refine ⟨⟨h.distinct.nodup, h.distinct.bound, h.distinct.alive⟩, ?_, ?_, ?_⟩
    · rw [hsd]
      exact h.sendData
    · rw [hsm]
      exact h.sendMany
    · rw [hws]
      simp only [Owned.follow, List.length_tail, ← hlen, List.length_cons, Nat.add_sub_cancel]
  | targetReady hr => exact h.of_outgoing (congrArg Socket.Members.outgoing (Socket.members_onPromise _ _ _))
  | otherSender set hr => exact h.of_outgoing rfl
  | kill hr => exact h.of_outgoing rfl

theorem Socket.send_outgoing (s : Socket) (m : Message) :
    (s.send m).members.outgoing = (s.push m).members.outgoing :=
  congrArg Members.outgoing (members_send s m)

theorem Owned.Mirrors.delivered {x x' : Owned} {m : Socket.Message} {os : List ObjectId}
    {queued : Ledger} {out : List Event} (h : Mirrors x.socket x.ledger)
    (hq : ∀ s : Socket, (∀ o ∈ os, o ∈ x.ledger.own) → os.Nodup →
      s.members.outgoing = (x.socket.push m).members.outgoing → Mirrors s queued)
    (hs : x.deliver m os queued = some (x', out)) : Mirrors x'.socket x'.ledger := by
  unfold Owned.deliver at hs
  split at hs
  next hown =>
    obtain ⟨⟨s', out'⟩, hstep, he⟩ := Option.map_eq_some_iff.mp hs
    have heff := Socket.step_effect hstep
    cases he
    rw [Bool.and_eq_true, decide_eq_true_eq] at hown
    have hos : ∀ o ∈ os, o ∈ x.ledger.own := by simpa using hown.1
    cases heff with
    | message _ hr hd =>
      simp only [hd]
      exact hq _ hos hown.2 (Socket.send_outgoing x.socket m)
    | lateMessage _ hr hd =>
      simp only [hd]
      exact ⟨h.distinct.dropped hos, h.sendData, h.sendMany, h.inFlight⟩
  next => cases hs

theorem isSome_of_mapM {α β : Type} {f : α → Option β} {l : List α} {bs : List β}
    (h : l.mapM f = some bs) {a : α} (ha : a ∈ l) : (f a).isSome := by
  induction l generalizing bs with
  | nil => cases ha
  | cons c l ih =>
    rw [List.mapM_cons] at h
    obtain ⟨b, hb, h⟩ := Option.bind_eq_some_iff.mp h
    obtain ⟨bs', hbs', -⟩ := Option.bind_eq_some_iff.mp h
    rcases List.mem_cons.mp ha with rfl | ha
    · simp [hb]
    · exact ih hbs' ha

theorem Owned.step_mirrors {x x' : Owned} {l : Owned.Label} {out : List Event}
    (hx : Mirrors x.socket x.ledger) (h : x.step l = some (x', out)) :
    Mirrors x'.socket x'.ledger := by
  cases l with
  | socket l =>
    simp only [Owned.step] at h
    split at h
    next => cases h
    next hl =>
      obtain ⟨⟨s', out'⟩, hs, he⟩ := Option.map_eq_some_iff.mp h
      cases he
      exact hx.followed (by simpa using hl) (Socket.step_effect hs)
  | program op =>
    simp only [Owned.step] at h
    split at h
    next => cases h
    next =>
      obtain ⟨g, hg, he⟩ := Option.map_eq_some_iff.mp h
      cases he
      have hd := hx.distinct.program hg
      unfold Ledger.program at hg
      split at hg
      next =>
        obtain ⟨r, -, rfl⟩ := Option.map_eq_some_iff.mp hg
        exact ⟨hd, hx.sendData, hx.sendMany, hx.inFlight⟩
      next => cases hg
  | sendData o =>
    obtain ⟨b, hb, h⟩ := Option.bind_eq_some_iff.mp h
    refine hx.delivered (fun s hos hnd hout => ?_) h
    have halive : ∀ p ∈ [o], (x.ledger.heap.object p).isSome := by
      intro p hp
      obtain rfl := List.mem_singleton.mp hp
      obtain ⟨buf, hbuf, -⟩ := Option.bind_eq_some_iff.mp hb
      simp [hbuf]
    have hperm : (x.ledger.queueData o).queued.Perm ([o] ++ x.ledger.queued) := by
      simp only [Ledger.queued, Ledger.queueData, List.append_assoc]
      exact List.perm_middle
    simp only [Socket.Members.outgoing, Socket.members, Prod.mk.injEq] at hout
    obtain ⟨hd, hm, hw⟩ := hout
    refine ⟨hx.distinct.queue rfl rfl hperm hos hnd halive, ?_, ?_, ?_⟩
    · rw [hd]
      simp [Socket.push, Ledger.queueData, hx.sendData]
    · rw [hm]
      exact hx.sendMany
    · rw [hw]
      exact hx.inFlight
  | sendMany os =>
    obtain ⟨bs, hbs, h⟩ := Option.bind_eq_some_iff.mp h
    refine hx.delivered (fun s hos hnd hout => ?_) h
    have halive : ∀ p ∈ os, (x.ledger.heap.object p).isSome := by
      intro p hp
      obtain ⟨v, hv⟩ := Option.isSome_iff_exists.mp (isSome_of_mapM hbs hp)
      obtain ⟨buf, hbuf, -⟩ := Option.bind_eq_some_iff.mp hv
      simp [hbuf]
    have hperm : (x.ledger.queueMany os).queued.Perm (os ++ x.ledger.queued) := by
      simp only [Ledger.queued, Ledger.queueMany, List.flatten_append, List.flatten_singleton]
      rw [← List.append_assoc]
      exact List.perm_append_comm
    simp only [Socket.Members.outgoing, Socket.members, Prod.mk.injEq] at hout
    obtain ⟨hd, hm, hw⟩ := hout
    refine ⟨hx.distinct.queue rfl rfl hperm hos hnd halive, ?_, ?_, ?_⟩
    · rw [hd]
      exact hx.sendData
    · rw [hm]
      simp [Socket.push, Ledger.queueMany, hx.sendMany]
    · rw [hw]
      exact hx.inFlight

/-! ## Every run -/

/-- Somebody outside the coroutine holds a `Buffer` on the storage: the program, or a message that
is still queued. -/
def Ledger.Shares (g : Ledger) (i : BuffId) : Prop :=
  ∃ o b, g.Holds o ∧ g.heap.object o = some b ∧ b.buffer_ = i

theorem Ledger.Sound.refs_eq {g : Ledger} {ret : List ObjectId} (hg : g.Sound ret) {f : InFlight}
    (hf : f ∈ g.inFlight) : g.heap.refs f.buff = g.heap.holders f.buff := by
  have hget := List.getElem?_eq_getElem (hg.placed f hf)
  rw [Heap.refs, hget, ← hg.counted.counted f.buff _ hget]
  rfl

/-- **The storage of an outstanding write is alive exactly if it was not made by `combine()` and
somebody outside the socket process shares it.** -/
theorem written_storage_owned {traits : Traits} {options : SocketOptions} {pid : Pid}
    {onReady : SendAddress} {tr : List Event} {x : Owned}
    (h : Owned.machine.Run System.anyStep (Owned.spawned traits options pid onReady) tr x) :
    x.ledger.inFlight.length = x.socket.writes.length ∧
      ∀ f ∈ x.ledger.inFlight,
        (1 ≤ x.ledger.heap.refs f.buff ↔ f.combined = false ∧ x.ledger.Shares f.buff) := by
  have hg : x.ledger.Sound [] :=
    h.invariant (fun _ x => x.ledger.Sound []) Ledger.sound_empty
      fun _ _ _ _ _ hx _ hs => Owned.step_sound hx hs
  have hm : Owned.Mirrors x.socket x.ledger :=
    h.invariant (fun _ x => Owned.Mirrors x.socket x.ledger) ⟨Ledger.distinct_empty, rfl, rfl, rfl⟩
      fun _ _ _ _ _ hx _ hs => Owned.step_mirrors hx hs
  refine ⟨hm.inFlight.symm, fun f hf => ?_⟩
  rw [hg.refs_eq hf, Nat.one_le_iff_ne_zero, ← Nat.pos_iff_ne_zero, Heap.holders_pos_iff]
  constructor
  · rintro ⟨o, b, ho, hb⟩
    refine ⟨?_, o, b, ?_, ho, hb⟩
    · by_contra hcomb
      exact hg.alone f hf (by simpa using hcomb) o b ho hb
    · rcases hg.held o b ho with hold | hret
      · exact hold
      · cases hret
  · rintro ⟨-, o, b, -, ho, hb⟩
    exact ⟨o, b, ho, hb⟩

/-- The labels that take the socket process to its first `tryRecv`. -/
def Owned.untilTryRecv : List Owned.Label :=
  [.item, .tick false, .tick false, .message (.init ⟨⟨1, 0⟩, 1⟩), .tick false, .tick false,
    .tick false].map .socket

/-- The sender keeps a copy of the `Buffer` that it sends. -/
theorem written_storage_owned_by_sender :
    ∃ tr x, Owned.machine.Run System.anyStep (Owned.spawned .plain {} ⟨0, 0⟩ ⟨⟨1, 0⟩, 0⟩) tr x ∧
      x.socket.isWriting = true ∧ x.ledger.inFlight = [⟨0, false⟩] ∧
      1 ≤ x.ledger.heap.refs 0 ∧ x.ledger.Shares 0 := by
  obtain ⟨tr, x, hr, hw, hf, href⟩ := System.exec_reaches (M := Owned.machine) (g := fun _ _ => true)
    (G := System.anyStep) (fun _ _ _ => trivial)
    (w := Owned.untilTryRecv ++ ([.program (.makeCopy [7]), .program (.copy 0), .sendData 0,
      .socket (.tick false)] : List Owned.Label))
    (s := Owned.spawned .plain {} ⟨0, 0⟩ ⟨⟨1, 0⟩, 0⟩)
    (P := fun _ x => x.socket.isWriting = true ∧ x.ledger.inFlight = [⟨0, false⟩] ∧
      1 ≤ x.ledger.heap.refs 0) (by decide)
  exact ⟨tr, x, hr, hw, hf, href,
    (((written_storage_owned hr).2 ⟨0, false⟩ (by simp [hf])).mp href).2⟩

/-- The sender keeps nothing: the storage is deleted while it is written. -/
theorem written_storage_deleted :
    ∃ tr x, Owned.machine.Run System.anyStep (Owned.spawned .plain {} ⟨0, 0⟩ ⟨⟨1, 0⟩, 0⟩) tr x ∧
      x.socket.isWriting = true ∧ x.ledger.inFlight = [⟨0, false⟩] ∧ x.ledger.heap.refs 0 = 0 :=
  System.exec_reaches (M := Owned.machine) (g := fun _ _ => true) (fun _ _ _ => trivial)
    (w := Owned.untilTryRecv ++ ([.program (.makeCopy [7]), .sendData 0, .socket (.tick false)] :
      List Owned.Label))
    (s := Owned.spawned .plain {} ⟨0, 0⟩ ⟨⟨1, 0⟩, 0⟩)
    (P := fun _ x => x.socket.isWriting = true ∧ x.ledger.inFlight = [⟨0, false⟩] ∧
      x.ledger.heap.refs 0 = 0) (by decide)

end Eslang.Tcp
