import Eslang.Tcp.Socket

/-! # What becomes of the payloads for the peer

`tryRecv` over `send_data` and `send_many_data` pops one payload of each slot that is not empty, and
the loop writes one of them: `if (get<0>(ret)) ... else if (get<1>(ret))`. As long as the two slots
are never both non-empty when the loop pops, every popped payload is written, in order
(`popped_written`). Both fill up behind a write in flight (`popped_not_written`). -/
namespace Eslang.Tcp
set_option autoImplicit false
open Lib

def Event.poppedBuffer : Event → Option Buffer
  | .popped p => some p.toBuffer
  | _ => none

def Event.writtenBuffer : Event → Option Buffer
  | .written b => some b
  | _ => none

/-- The payloads that the loop popped, in order, each as the `Buffer` it is written as. -/
def poppedBuffers (tr : List Event) : List Buffer := tr.filterMap Event.poppedBuffer

/-- The arguments of the calls of `write`, in order. -/
def writtenBuffers (tr : List Event) : List Buffer := tr.filterMap Event.writtenBuffer

theorem poppedBuffers_append (tr out : List Event) :
    poppedBuffers (tr ++ out) = poppedBuffers tr ++ poppedBuffers out := List.filterMap_append

theorem writtenBuffers_append (tr out : List Event) :
    writtenBuffers (tr ++ out) = writtenBuffers tr ++ writtenBuffers out := List.filterMap_append

theorem poppedBuffers_popped (ps : List Payload) :
    poppedBuffers (ps.map .popped) = ps.map Payload.toBuffer := by
  simp [poppedBuffers, List.filterMap_map, Function.comp_def, Event.poppedBuffer]

theorem writtenBuffers_popped (ps : List Payload) : writtenBuffers (ps.map .popped) = [] := by
  simp [writtenBuffers, List.filterMap_map, Function.comp_def, Event.writtenBuffer]

/-! ## The conditions on a run -/

namespace Socket

/-- The process is killed, or sees EOF or an error. -/
def Label.disturbs : Label → Bool
  | .kill | .handshakeDone (some _) | .readDone (some _) _ | .writeDone (some _) => true
  | _ => false

/-- When the loop is about to pop, one of the two slots is empty. -/
def PopsOne (s : Socket) (_ : Label) : Prop :=
  s.running = true → s.point = .tryRecv → s.send_data.empty = true ∨ s.send_many_data.empty = true

instance (s : Socket) (l : Label) : Decidable (s.PopsOne l) :=
  inferInstanceAs (Decidable (_ → _ → _ ∨ _))

/-! ## What a step pops and writes -/

theorem pop_of_empty {α κ : Type} {q : MessageQueue α κ} (h : q.empty = true) : q.pop = none := by
  have hsize : q.size = 0 := by simpa [MessageQueue.empty] using h
  cases hp : q.pop with
  | none => rfl
  | some r =>
    have hlt := MessageQueue.size_pop hp
    omega

theorem received_balanced {s : Socket} (he : s.except_ = none)
    (h : s.send_data.empty = true ∨ s.send_many_data.empty = true) :
    writtenBuffers s.received.2 = poppedBuffers s.received.2 ∧ s.received.1.except_ = none := by
  have hret : s.send_data.pop = none ∨ s.send_many_data.pop = none := h.imp pop_of_empty pop_of_empty
  have hx : s.getVals.1.except_ = none := he
  unfold received
  dsimp only
  rw [hx]
  dsimp only
  split
  next b c hb =>
    have hd : s.send_data.pop.map Prod.fst = some b := congrArg Prod.fst hb
    have hm : s.send_many_data.pop = none := by
      refine hret.resolve_left fun hn => ?_
      rw [hn] at hd
      cases hd
    refine ⟨?_, he⟩
    rw [writtenBuffers_append, poppedBuffers_append, writtenBuffers_popped, poppedBuffers_popped]
    simp [getVals, hd, hm, popped, Payload.toBuffer, writtenBuffers, poppedBuffers, Event.writtenBuffer,
      Event.poppedBuffer]
  next c hc =>
    refine ⟨?_, he⟩
    rw [writtenBuffers_append, poppedBuffers_append, writtenBuffers_popped, poppedBuffers_popped, hc]
    simp [popped, Payload.toBuffer, writtenBuffers, poppedBuffers, Event.writtenBuffer,
      Event.poppedBuffer]
  next hn =>
    refine ⟨?_, rfl⟩
    rw [writtenBuffers_popped, poppedBuffers_popped, hn]
    rfl

theorem tick_balanced {s : Socket} {busy : Bool} (he : s.except_ = none) (hr : s.running = true)
    (h : s.PopsOne (.tick busy)) :
    writtenBuffers (s.tick busy).2 = poppedBuffers (s.tick busy).2 ∧ (s.tick busy).1.except_ = none := by
  have hawait (t : Socket) (w : Waiting) (pt : Point) : (t.await w pt).except_ = t.except_ :=
    congrArg Members.except_ (members_await t w pt)
  have hsuspend (t : Socket) (w : Waiting) (pt : Point) : (t.suspend w pt).except_ = t.except_ :=
    congrArg Members.except_ (members_suspend t w pt)
  unfold tick
  split
  next =>
    split
    · exact ⟨rfl, he⟩
    · exact ⟨rfl, (hawait _ _ _).trans he⟩
  next => exact ⟨rfl, he⟩
  next => exact ⟨rfl, (hawait _ _ _).trans he⟩
  next => split <;> exact ⟨rfl, he⟩
  next =>
    split
    · exact ⟨rfl, he⟩
    · split
      · exact ⟨rfl, he⟩
      · dsimp only
        split
        · exact ⟨rfl, (hsuspend _ _ _).trans he⟩
        · exact ⟨rfl, he⟩
  next =>
    split
    · exact ⟨rfl, (hsuspend _ _ _).trans he⟩
    · exact ⟨rfl, he⟩
  next =>
    split
    · exact ⟨rfl, (hsuspend _ _ _).trans he⟩
    · exact ⟨rfl, he⟩
  next =>
    split
    · exact ⟨rfl, (hawait _ _ _).trans he⟩
    · exact ⟨rfl, (hawait _ _ _).trans he⟩
  next => split <;> exact ⟨rfl, he⟩
  next hp => exact received_balanced he (h hr hp)
  next => exact ⟨rfl, he⟩
  next => exact ⟨rfl, he⟩

theorem effect_balanced {s s' : Socket} {l : Label} {out : List Event} (heff : Effect s l s' out)
    (he : s.except_ = none) (hl : l.disturbs = false) (h : s.PopsOne l) :
    writtenBuffers out = poppedBuffers out ∧ s'.except_ = none := by
  have hkeep {t : Socket} (ht : t.members = s.members) : t.except_ = none :=
    (congrArg Members.except_ ht).trans he
  cases heff with
  | tick busy hr => exact tick_balanced he hr h
  | item hr hq hd => exact ⟨rfl, hkeep (members_resumeAt _ _)⟩
  | lateItem hr hq hd => exact ⟨rfl, he⟩
  | continuation hr hp => exact ⟨rfl, hkeep (members_resumeAt _ _)⟩
  | message m hr hd =>
    have hpush : (s.push m).except_ = none := by cases m <;> exact he
    exact ⟨rfl, (congrArg Members.except_ (members_send s m)).trans hpush⟩
  | lateMessage m hr hd => exact ⟨rfl, he⟩
  | handshakeDone error hr hh hc =>
    exact ⟨rfl, (congrArg Members.except_ (members_onHandshake _ error)).trans he⟩
  | readDone error bytes hr hn hc hb =>
    cases error with
    | some ec => cases hl
    | none =>
      simp only [onRead]
      split
      · split
        · exact ⟨rfl, (congrArg Members.except_ (members_setValue _)).trans he⟩
        · exact ⟨rfl, he⟩
      · exact ⟨rfl, he⟩
  | writeDone error hr hw hc =>
    cases error with
    | some ec => cases hl
    | none => exact ⟨rfl, (congrArg Members.except_ (members_setValue _)).trans he⟩
  | targetReady hr => exact ⟨rfl, hkeep (members_onPromise s _ _)⟩
  | otherSender set hr => exact ⟨rfl, he⟩
  | kill hr => cases hl

end Socket

/-! ## Every run -/

/-- **Every popped payload is written once.** In every run of a socket process that is not killed, sees no EOF
and no error, and never pops while both slots are non-empty, the calls of `write` are the popped payloads,
in order. -/
theorem popped_written {traits : Traits} {options : SocketOptions} {pid : Pid} {onReady : SendAddress}
    {tr : List Event} {s : Socket}
    (h : system.Run (fun s l => l.disturbs = false ∧ s.PopsOne l)
      (Socket.spawned traits options pid onReady) tr s) :
    writtenBuffers tr = poppedBuffers tr := by
  refine (h.invariant (fun tr s => writtenBuffers tr = poppedBuffers tr ∧ s.except_ = none)
    ⟨rfl, rfl⟩ ?_).1
  intro tr t l u out ht hl hstep
  obtain ⟨hout, hx⟩ := Socket.effect_balanced (Socket.step_effect hstep) ht.2 hl.1 hl.2
  rw [writtenBuffers_append, poppedBuffers_append, ht.1, hout]
  exact ⟨rfl, hx⟩

/-- The target is known, and the process waits in `tryRecv`. -/
def untilTryRecv : List Socket.Label :=
  [.item, .tick false, .tick false, .message (.init ⟨⟨1, 0⟩, 1⟩), .tick false, .tick false, .tick false]

/-- A `Buffer`, and after its write a `BufferCollection`. -/
theorem popped_written_one_by_one :
    ∃ tr s, system.Run (fun s l => l.disturbs = false ∧ s.PopsOne l)
        (Socket.spawned .plain {} ⟨0, 0⟩ ⟨⟨1, 0⟩, 0⟩) tr s ∧
      poppedBuffers tr = [[1], [2, 3]] ∧ writtenBuffers tr = [[1], [2, 3]] := by
  obtain ⟨tr, s, hr, hp⟩ := System.exec_reaches (M := system)
    (g := fun s l => !l.disturbs && decide (s.PopsOne l))
    (G := fun s l => l.disturbs = false ∧ s.PopsOne l) (fun s l hg => by simpa using hg)
    (w := untilTryRecv ++ ([.message (.data [1]), .tick false, .tick false, .tick false,
      .message (.many ⟨[[2], [3]]⟩), .writeDone none, .continuation, .tick false, .tick false, .tick false,
      .tick false] : List Socket.Label))
    (s := Socket.spawned .plain {} ⟨0, 0⟩ ⟨⟨1, 0⟩, 0⟩)
    (P := fun tr _ => poppedBuffers tr = [[1], [2, 3]]) (by decide +kernel)
  exact ⟨tr, s, hr, hp, (popped_written hr).trans hp⟩

/-- Behind the write of `[1]` a `Buffer` and a `BufferCollection` arrive: the loop pops both and writes the
`Buffer`. -/
theorem popped_not_written :
    ∃ tr s, system.Run (fun _ l => l.disturbs = false)
        (Socket.spawned .plain {} ⟨0, 0⟩ ⟨⟨1, 0⟩, 0⟩) tr s ∧
      poppedBuffers tr = [[1], [2], [3]] ∧ writtenBuffers tr = [[1], [2]] :=
  System.exec_reaches (M := system) (g := fun _ l => !l.disturbs)
    (fun _ _ hg => by simpa using hg)
    (w := untilTryRecv ++ ([.message (.data [1]), .tick false, .tick false, .tick false,
      .message (.data [2]), .message (.many ⟨[[3]]⟩), .writeDone none, .continuation, .tick false,
      .tick false, .tick false, .tick false] : List Socket.Label))
    (s := Socket.spawned .plain {} ⟨0, 0⟩ ⟨⟨1, 0⟩, 0⟩)
    (P := fun tr _ => poppedBuffers tr = [[1], [2], [3]] ∧ writtenBuffers tr = [[1], [2]]) (by decide +kernel)

end Eslang.Tcp
