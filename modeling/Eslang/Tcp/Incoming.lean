import Eslang.Tcp.Socket

/-! # What the peer sends is forwarded intact

A read is re-armed from three places, and what it delivered waits in `nextRead` or in the frame of
`sendThrottled`. The part of the state that these places use is an `Intake`; `effect_intake` says
once what a step can do to it. At most one read is outstanding, and while one is, nothing waits to
be forwarded: so the forwarded data, followed by what waits, is what was read
(`received_stream_intact`). -/
namespace Eslang.Tcp
set_option autoImplicit false
open Lib

/-! ## The part of the state that reads and forwarding use -/

/-- The message of a `sendThrottled` call that has not queued it yet. -/
def Point.sending : Point → Option ReceiveData
  | .yielding rd | .throttled rd => some rd
  | _ => none

def Point.early : Point → Bool
  | .initial | .handshake | .started | .recvInit => true
  | _ => false

structure Intake where
  throttled : Bool
  toSend : Option SendAddress
  nextRead : Option ReceiveData
  eof : Bool
  reads : Nat
  point : Point

def ReceiveData.bytes (rd : ReceiveData) : Buffer := rd.data.getD []

def Socket.Members.intake (m : Socket.Members) : Intake :=
  ⟨m.throttled, m.toSend, m.nextRead, m.eof_, m.reads, m.point⟩

def Socket.intake (s : Socket) : Intake := s.members.intake

/-- The bytes that were read and are not yet queued to the target. -/
def Intake.held (i : Intake) : Buffer :=
  (i.point.sending.map ReceiveData.bytes).getD [] ++ (i.nextRead.map ReceiveData.bytes).getD []

def Event.forwardedBytes : Event → Option Buffer
  | .forwarded _ rd => some rd.bytes
  | _ => none

def Event.readBytes : Event → Option Buffer
  | .read bytes => some bytes
  | _ => none

/-- The data of the messages queued to the target, in order. -/
def forwardedData (tr : List Event) : Buffer := (tr.filterMap Event.forwardedBytes).flatten

/-- The bytes of the completed reads, in order. -/
def readData (tr : List Event) : Buffer := (tr.filterMap Event.readBytes).flatten

theorem forwardedData_append (tr out : List Event) :
    forwardedData (tr ++ out) = forwardedData tr ++ forwardedData out := by
  simp [forwardedData]

theorem readData_append (tr out : List Event) :
    readData (tr ++ out) = readData tr ++ readData out := by
  simp [readData]

/-! ## What a step does to it -/

/-- Nothing is read or forwarded. -/
def Silent (out : List Event) : Prop :=
  forwardedData out = [] ∧ readData out = [] ∧ ∀ a rd, .forwarded a rd ∉ out

inductive IntakeStep (i : Intake) : Intake → List Event → Prop
  | same {out : List Event} (ho : Silent out) : IntakeStep i i out
  /-- The coroutine goes on, and does not enter or leave `sendThrottled`. -/
  | goOn {pt : Point} {out : List Event} (ho : Silent out) (hs : pt.sending = i.point.sending)
      (he : pt.early = true → i.point.early = true)
      (hret : pt = .returned → i.eof = true ∨ i.point = .returned) :
      IntakeStep i { i with point := pt } out
  | start {a : SendAddress} (hp : i.point = .recvInit) :
      IntakeStep i { i with toSend := some a, reads := i.reads + 1, point := .loop } []
  | take {rd : ReceiveData} {pt : Point} (hp : i.point = .loop) (he : i.eof = false)
      (hn : i.nextRead = some rd) (hpt : pt.sending = some rd) :
      IntakeStep i { i with nextRead := some { rd with data := none }, point := pt } []
  | forward {rd : ReceiveData} (hp : i.point.sending = some rd) :
      IntakeStep i { i with nextRead := none, reads := i.reads + 1, point := .branch }
        [.forwarded i.toSend rd]
  /-- A read ends in an error. -/
  | fail {eof : Bool} (hr : 0 < i.reads) (he : i.eof = true → eof = true) :
      IntakeStep i { i with eof := eof, reads := i.reads - 1 } []
  | nothing (hr : 0 < i.reads) : IntakeStep i i [.read []]
  | keep {p : Pid} {bytes : Buffer} (hr : 0 < i.reads) (ht : i.throttled = true) :
      IntakeStep i { i with nextRead := some ⟨p, some bytes⟩, reads := i.reads - 1 } [.read bytes]
  | pass {p : Pid} {bytes : Buffer} (hr : 0 < i.reads) (ht : i.throttled = false) :
      IntakeStep i i [.read bytes, .forwarded i.toSend ⟨p, some bytes⟩]

namespace Socket

theorem intake_setValue (s : Socket) : s.setValue.intake = s.intake :=
  congrArg Members.intake (members_setValue s)

theorem intake_setError (s : Socket) (ec : ErrorCode) : (s.setError ec).intake = s.intake :=
  (congrArg Members.intake (members_setError s ec)).trans rfl

theorem intake_suspend (s : Socket) (w : Waiting) (pt : Point) :
    (s.suspend w pt).intake = { s.intake with point := pt } :=
  congrArg Members.intake (members_suspend s w pt)

theorem intake_await (s : Socket) (w : Waiting) (pt : Point) :
    (s.await w pt).intake = { s.intake with point := pt } :=
  congrArg Members.intake (members_await s w pt)

theorem intake_throw (s : Socket) (e : String) :
    (s.throw e).intake = { s.intake with point := .threw e } := rfl

theorem intake_send (s : Socket) (m : Message) : (s.send m).intake = s.intake := by
  have hpush : (s.push m).intake = s.intake := by cases m <;> rfl
  exact (congrArg Members.intake (members_send s m)).trans hpush

theorem intake_onWrite (s : Socket) (ec : Option ErrorCode) : (s.onWrite ec).intake = s.intake := by
  unfold onWrite
  split
  · rfl
  · exact intake_setError _ _
  · exact intake_setValue _

theorem silent_nil : Silent [] := ⟨rfl, rfl, by simp⟩

theorem silent_popped (ps : List Payload) : Silent (ps.map .popped) := by
  refine ⟨?_, ?_, by simp⟩
  · simp [forwardedData, List.filterMap_map, Function.comp_def, Event.forwardedBytes]
  · simp [readData, List.filterMap_map, Function.comp_def, Event.readBytes]

theorem silent_written (ps : List Payload) (b : Buffer) : Silent (ps.map .popped ++ [.written b]) := by
  obtain ⟨hf, hr, ha⟩ := silent_popped ps
  refine ⟨?_, ?_, fun a rd h => ?_⟩
  · rw [forwardedData_append, hf]
    rfl
  · rw [readData_append, hr]
    rfl
  · rcases List.mem_append.mp h with h | h
    · exact ha a rd h
    · simp at h

theorem intake_received (s : Socket) :
    ∃ pt : Point, (pt = .loop ∨ ∃ e, pt = .threw e) ∧
      s.received.1.intake = { s.intake with point := pt } ∧ Silent s.received.2 := by
  unfold received
  dsimp only
  split
  next e _ => exact ⟨.threw e, .inr ⟨e, rfl⟩, rfl, silent_popped _⟩
  next =>
    split
    · exact ⟨.loop, .inl rfl, rfl, silent_written _ _⟩
    · exact ⟨.loop, .inl rfl, rfl, silent_written _ _⟩
    · exact ⟨.loop, .inl rfl, rfl, silent_popped _⟩

theorem tick_intake (s : Socket) (busy : Bool) :
    IntakeStep s.intake (s.tick busy).1.intake (s.tick busy).2 := by
  have hgo (pt : Point) {out : List Event} (ho : Silent out) (hs : pt.sending = s.point.sending)
      (he : pt.early = true → s.point.early = true) (hret : pt ≠ .returned) :
      IntakeStep s.intake { s.intake with point := pt } out :=
    .goOn ho hs he fun h => absurd h hret
  unfold tick
  split
  next hp =>
    split
    · exact hgo .started silent_nil (by simp [hp, Point.sending]) (by simp [hp, Point.early]) (by simp)
    · rw [intake_await]
      exact hgo .handshake silent_nil (by simp [hp, Point.sending]) (by simp [hp, Point.early]) (by simp)
  next hp => exact hgo .started silent_nil (by simp [hp, Point.sending]) (by simp [hp, Point.early]) (by simp)
  next hp =>
    rw [intake_await]
    exact hgo .recvInit ⟨rfl, rfl, by simp⟩ (by simp [hp, Point.sending]) (by simp [hp, Point.early]) (by simp)
  next hp =>
    split
    · rw [intake_throw]
      exact hgo (.threw _) silent_nil (by simp [hp, Point.sending]) (by simp [Point.early]) (by simp)
    · exact .start hp
  next hp =>
    split
    next he =>
      show IntakeStep s.intake { s.intake with point := .returned } []
      have hs : Point.returned.sending = s.point.sending := by simp [hp, Point.sending]
      exact .goOn silent_nil hs (by simp [Point.early]) fun _ => .inl he
    next he =>
      have he : s.eof_ = false := by simpa using he
      split
      · exact hgo .branch silent_nil (by simp [hp, Point.sending]) (by simp [Point.early]) (by simp)
      next rd hn =>
        dsimp only
        split
        · rw [intake_suspend]
          exact .take hp he hn rfl
        · exact .take hp he hn rfl
  next rd hp =>
    split
    · rw [intake_suspend]
      exact hgo (.throttled rd) silent_nil (by simp [hp, Point.sending]) (by simp [Point.early]) (by simp)
    · exact .forward (by show s.point.sending = some rd; rw [hp]; rfl)
  next rd hp =>
    split
    · rw [intake_suspend]
      exact hgo (.throttled rd) silent_nil (by simp [hp, Point.sending]) (by simp [Point.early]) (by simp)
    · exact .forward (by show s.point.sending = some rd; rw [hp]; rfl)
  next hp =>
    split
    · rw [intake_await]
      exact hgo .onFuture silent_nil (by simp [hp, Point.sending]) (by simp [Point.early]) (by simp)
    · rw [intake_await]
      exact hgo .tryRecv silent_nil (by simp [hp, Point.sending]) (by simp [Point.early]) (by simp)
  next hp =>
    split
    · rw [intake_throw]
      exact hgo (.threw _) silent_nil (by simp [hp, Point.sending]) (by simp [Point.early]) (by simp)
    · exact hgo .loop silent_nil (by simp [hp, Point.sending]) (by simp [Point.early]) (by simp)
  next hp =>
    obtain ⟨pt, hpt, hi, ho⟩ := intake_received s
    rw [hi]
    rcases hpt with rfl | ⟨e, rfl⟩
    · exact hgo .loop ho (by simp [hp, Point.sending]) (by simp [Point.early]) (by simp)
    · exact hgo (.threw e) ho (by simp [hp, Point.sending]) (by simp [Point.early]) (by simp)
  next => exact .same silent_nil
  next => exact .same silent_nil

theorem onRead_intake (s : Socket) (error : Option ErrorCode) (bytes : Buffer) (hr : 0 < s.reads) :
    IntakeStep s.intake ({ s with reads := s.reads - 1 }.onRead error bytes).1.intake
      ({ s with reads := s.reads - 1 }.onRead error bytes).2 := by
  have hrearm : { s with reads := s.reads - 1 }.asyncRead.intake = s.intake := by
    have hreads : s.reads - 1 + 1 = s.reads := by omega
    simp [asyncRead, intake, hreads]
  unfold onRead
  split
  next => exact .fail hr id
  next =>
    rw [intake_setValue]
    exact .fail hr fun _ => rfl
  next =>
    rw [intake_setError]
    exact .fail hr id
  next =>
    dsimp only
    split
    next =>
      split
      next ht =>
        rw [intake_setValue]
        exact .keep hr ht
      next ht =>
        rw [hrearm]
        exact .pass hr (eq_false_of_ne_true ht)
    next hb =>
      have hb : bytes = [] := by simpa using hb
      rw [hrearm, hb]
      exact .nothing hr

theorem effect_intake {s s' : Socket} {l : Label} {out : List Event} (he : Effect s l s' out) :
    IntakeStep s.intake s'.intake out := by
  have hsame {s' : Socket} (h : s'.intake = s.intake) : IntakeStep s.intake s'.intake [] := by
    rw [h]
    exact .same silent_nil
  cases he with
  | tick busy hr => exact tick_intake s busy
  | item hr hq hd => exact hsame (congrArg Members.intake (members_resumeAt _ _))
  | lateItem hr hq hd => exact hsame rfl
  | continuation hr hp => exact hsame (congrArg Members.intake (members_resumeAt _ _))
  | message m hr hd => exact hsame (intake_send s m)
  | lateMessage m hr hd => exact hsame rfl
  | handshakeDone error hr hh hc =>
    exact hsame ((congrArg Members.intake (members_onHandshake _ error)).trans rfl)
  | readDone error bytes hr hn hc hb => exact onRead_intake s error bytes hn
  | writeDone error hr hw hc => exact hsame (intake_onWrite _ error)
  | targetReady hr => exact hsame (congrArg Members.intake (members_onPromise s _ _))
  | otherSender set hr => exact hsame rfl
  | kill hr => exact hsame rfl

end Socket

/-! ## The invariant -/

/-- The events `tr` of a run and the intake at its end. -/
structure Flow (tr : List Event) (i : Intake) : Prop where
  reads_le : i.reads ≤ 1
  early : i.point.early = true →
    i.reads = 0 ∧ i.nextRead = none ∧ i.eof = false ∧ ∀ a rd, .forwarded a rd ∉ tr
  /-- While a read is outstanding, nothing waits to be forwarded. -/
  armed : 0 < i.reads → i.nextRead = none ∧ i.point.sending = none ∧ i.eof = false
  /-- `nextRead` was moved from when `sendThrottled` was called. -/
  sending : i.point.sending.isSome → ∃ p, i.nextRead = some ⟨p, none⟩
  eof : i.eof = true → i.nextRead = none ∧ i.point.sending = none
  returned : i.point = .returned → i.eof = true
  /-- A target is known when something is or will be forwarded, and it stays the same. -/
  target : 0 < i.reads ∨ i.nextRead.isSome → i.toSend.isSome
  addressed : ∀ a rd, .forwarded a rd ∈ tr → a = i.toSend ∧ a.isSome
  stream : forwardedData tr ++ i.held = readData tr

theorem flow_spawned (traits : Traits) (options : SocketOptions) (pid : Pid) (onReady : SendAddress) :
    Flow [] (Socket.spawned traits options pid onReady).intake := by
  have hi : (Socket.spawned traits options pid onReady).intake =
      ⟨options.throttled, none, none, false, 0, .initial⟩ := rfl
  rw [hi]
  exact {
    reads_le := Nat.zero_le 1
    early := fun _ => ⟨rfl, rfl, rfl, by simp⟩
    armed := fun h => absurd h (Nat.lt_irrefl 0)
    sending := by simp [Point.sending]
    eof := by simp
    returned := by simp
    target := by simp
    addressed := by simp
    stream := rfl }

theorem Flow.stream_silent {tr out : List Event} {i : Intake} (h : Flow tr i) {held : Buffer}
    (ho : Silent out) (hh : held = i.held) :
    forwardedData (tr ++ out) ++ held = readData (tr ++ out) := by
  rw [forwardedData_append, readData_append, ho.1, ho.2.1, hh, List.append_nil, List.append_nil]
  exact h.stream

theorem Silent.mem {tr out : List Event} (ho : Silent out) {a : Option SendAddress} {rd : ReceiveData}
    (h : .forwarded a rd ∈ tr ++ out) : .forwarded a rd ∈ tr :=
  (List.mem_append.mp h).resolve_right (ho.2.2 a rd)

/-- With nothing held, what is read next and forwarded at once comes next in both. -/
theorem Flow.stream_read {tr out : List Event} {i : Intake} (h : Flow tr i) (hr : 0 < i.reads)
    {held : Buffer} (ho : forwardedData out ++ held = readData out) :
    forwardedData (tr ++ out) ++ held = readData (tr ++ out) := by
  obtain ⟨hn, hs, -⟩ := h.armed hr
  have hstream := h.stream
  have hheld : i.held = [] := by simp [Intake.held, hn, hs]
  rw [hheld, List.append_nil] at hstream
  rw [forwardedData_append, readData_append, List.append_assoc, ho, hstream]

theorem IntakeStep.flow {tr out : List Event} {i i' : Intake} (hstep : IntakeStep i i' out)
    (h : Flow tr i) : Flow (tr ++ out) i' := by
  have hle := h.reads_le
  have hzero (hs : ¬(i.nextRead = none ∧ i.point.sending = none)) : i.reads = 0 := by
    by_contra hpos
    obtain ⟨hn, hsend, -⟩ := h.armed (Nat.pos_of_ne_zero hpos)
    exact hs ⟨hn, hsend⟩
  cases hstep with
  | same ho =>
    exact { h with
      early := fun hp => ⟨(h.early hp).1, (h.early hp).2.1, (h.early hp).2.2.1,
        fun a rd hm => (h.early hp).2.2.2 a rd (ho.mem hm)⟩
      addressed := fun a rd hm => h.addressed a rd (ho.mem hm)
      stream := h.stream_silent ho rfl }
  | @goOn pt _ ho hs he hret =>
    exact {
      reads_le := hle
      early := fun hp => ⟨(h.early (he hp)).1, (h.early (he hp)).2.1, (h.early (he hp)).2.2.1,
        fun a rd hm => (h.early (he hp)).2.2.2 a rd (ho.mem hm)⟩
      armed := fun hp => ⟨(h.armed hp).1, hs.trans (h.armed hp).2.1, (h.armed hp).2.2⟩
      sending := fun hp => h.sending (hs ▸ hp)
      eof := fun hp => ⟨(h.eof hp).1, hs.trans (h.eof hp).2⟩
      returned := fun hp => (hret hp).elim id h.returned
      target := h.target
      addressed := fun a rd hm => h.addressed a rd (ho.mem hm)
      stream := h.stream_silent ho (by simp [Intake.held, hs]) }
  | start hp =>
    obtain ⟨hr, hn, he, hnone⟩ := h.early (by rw [hp]; rfl)
    exact {
      reads_le := by simp [hr]
      early := by simp [Point.early]
      armed := fun _ => ⟨hn, rfl, he⟩
      sending := by simp [Point.sending]
      eof := fun _ => ⟨hn, rfl⟩
      returned := by simp
      target := fun _ => rfl
      addressed := fun a rd hm => absurd (Socket.silent_nil.mem hm) (hnone a rd)
      stream := h.stream_silent Socket.silent_nil (by simp [Intake.held, hp, Point.sending]) }
  | @take rd pt hp he hn hpt =>
    have hr : i.reads = 0 := hzero (by simp [hn])
    have hs : i.point.sending = none := by rw [hp]; rfl
    have hnot : pt.early = false ∧ pt ≠ .returned := by
      cases pt <;> simp [Point.sending, Point.early] at hpt ⊢
    exact {
      reads_le := hle
      early := by simp [hnot.1]
      armed := fun hpos => absurd hpos (by simp [hr])
      sending := fun _ => ⟨_, rfl⟩
      eof := by simp [he]
      returned := fun h' => absurd h' hnot.2
      target := fun _ => h.target (.inr (by simp [hn]))
      addressed := fun a rd hm => h.addressed a rd (Socket.silent_nil.mem hm)
      stream := h.stream_silent Socket.silent_nil (by simp [Intake.held, hpt, hs, hn, ReceiveData.bytes]) }
  | @forward rd hp =>
    have hr : i.reads = 0 := hzero (by simp [hp])
    obtain ⟨p, hn⟩ := h.sending (by simp [hp])
    have hto : i.toSend.isSome := h.target (.inr (by simp [hn]))
    have heof : i.eof = false := by
      by_contra he
      have hsend := (h.eof (by simpa using he)).2
      rw [hp] at hsend
      cases hsend
    -- the message leaves the frame of `sendThrottled`, and `nextRead` held nothing
    have hstream := h.stream
    simp only [Intake.held, hp, hn, Option.map_some, Option.getD_some] at hstream
    exact {
      reads_le := by simp [hr]
      early := by simp [Point.early]
      armed := fun _ => ⟨rfl, rfl, heof⟩
      sending := by simp [Point.sending]
      eof := fun _ => ⟨rfl, rfl⟩
      returned := by simp
      target := fun _ => hto
      addressed := fun a rd' hm => by
        rcases List.mem_append.mp hm with hm | hm
        · exact h.addressed a rd' hm
        · simp only [List.mem_singleton, Event.forwarded.injEq] at hm
          exact ⟨hm.1, hm.1 ▸ hto⟩
      stream := by
        rw [forwardedData_append, readData_append, ← hstream]
        simp [Intake.held, Point.sending, forwardedData, readData, Event.forwardedBytes, Event.readBytes,
          ReceiveData.bytes] }
  | @fail eof hr he =>
    obtain ⟨hn, hs, hne⟩ := h.armed hr
    exact {
      reads_le := by dsimp only; omega
      early := fun hp => absurd hr (by simp [(h.early hp).1])
      armed := fun hp => by dsimp only at hp; omega
      sending := fun hp => absurd hp (by simp [hs])
      eof := fun _ => ⟨hn, hs⟩
      returned := fun hp => he (h.returned hp)
      target := fun _ => h.target (.inl hr)
      addressed := fun a rd hm => h.addressed a rd (Socket.silent_nil.mem hm)
      stream := h.stream_silent Socket.silent_nil rfl }
  | nothing hr =>
    exact { h with
      early := fun hp => absurd hr (by simp [(h.early hp).1])
      addressed := fun a rd hm => h.addressed a rd (by simpa using hm)
      stream := h.stream_read hr (by simp [Intake.held, h.armed hr, forwardedData, readData,
        Event.forwardedBytes, Event.readBytes]) }
  | @keep p bytes hr ht =>
    obtain ⟨hn, hs, hne⟩ := h.armed hr
    exact {
      reads_le := by dsimp only; omega
      early := fun hp => absurd hr (by simp [(h.early hp).1])
      armed := fun hp => by dsimp only at hp; omega
      sending := fun hp => absurd hp (by simp [hs])
      eof := by simp [hne]
      returned := h.returned
      target := fun _ => h.target (.inl hr)
      addressed := fun a rd hm => h.addressed a rd (by simpa using hm)
      stream := h.stream_read hr (by simp [Intake.held, hs, forwardedData, readData, Event.forwardedBytes,
        Event.readBytes, ReceiveData.bytes]) }
  | @pass p bytes hr ht =>
    have hto := h.target (.inl hr)
    exact { h with
      early := fun hp => absurd hr (by simp [(h.early hp).1])
      addressed := fun a rd hm => by
        rcases List.mem_append.mp hm with hm | hm
        · exact h.addressed a rd hm
        · simp only [List.mem_cons, reduceCtorEq, Event.forwarded.injEq, List.not_mem_nil, or_false,
            false_or] at hm
          exact ⟨hm.1, hm.1 ▸ hto⟩
      stream := h.stream_read hr (by simp [Intake.held, h.armed hr, forwardedData, readData,
        List.filterMap_cons, Event.forwardedBytes, Event.readBytes, ReceiveData.bytes]) }

/-! ## Every run -/

theorem run_flow {traits : Traits} {options : SocketOptions} {pid : Pid} {onReady : SendAddress}
    {tr : List Event} {s : Socket}
    (h : system.Run System.anyStep (Socket.spawned traits options pid onReady) tr s) :
    Flow tr s.intake := by
  refine h.invariant (fun tr s => Flow tr s.intake) (flow_spawned traits options pid onReady) ?_
  intro tr t l u out ht _ hstep
  exact (Socket.effect_intake (Socket.step_effect hstep)).flow ht

/-- **What is read is forwarded intact.** In every run of a socket process, throttled or not, at most one
read is outstanding, all messages are queued to one target, and their data, followed by the data held in
`nextRead` or by a suspended `sendThrottled`, are what the completed reads delivered; when the loop has
ended, which it does on EOF only, nothing is held. -/
theorem received_stream_intact {traits : Traits} {options : SocketOptions} {pid : Pid}
    {onReady : SendAddress} {tr : List Event} {s : Socket}
    (h : system.Run System.anyStep (Socket.spawned traits options pid onReady) tr s) :
    s.reads ≤ 1 ∧ (∀ a rd, .forwarded a rd ∈ tr → a = s.toSend ∧ a.isSome) ∧
      forwardedData tr ++ s.intake.held = readData tr ∧
      (s.point = .returned → s.eof_ = true ∧ forwardedData tr = readData tr) := by
  have hflow := run_flow h
  refine ⟨hflow.reads_le, hflow.addressed, hflow.stream, fun hp => ?_⟩
  have he : s.eof_ = true := hflow.returned hp
  obtain ⟨hn, hs⟩ := hflow.eof he
  have hstream := hflow.stream
  have hheld : s.intake.held = [] := by simp [Intake.held, hn, hs]
  rw [hheld, List.append_nil] at hstream
  exact ⟨he, hstream⟩

/-- Two reads with data, one of them throttled by a full slot, an empty read and EOF. -/
theorem received_stream_three_bytes :
    ∃ tr s, system.Run System.anyStep (Socket.spawned .plain {} ⟨0, 0⟩ ⟨⟨1, 0⟩, 0⟩) tr s ∧
      s.point = .returned ∧ readData tr = [1, 2, 3] ∧ forwardedData tr = [1, 2, 3] := by
  obtain ⟨tr, s, hr, hp, hread⟩ := System.exec_reaches (M := system) (g := fun _ _ => true)
    (G := System.anyStep) (fun _ _ _ => trivial)
    (w := [.item, .tick false, .tick false, .message (.init ⟨⟨1, 0⟩, 1⟩), .tick false, .tick false,
      .tick false, .readDone none [1, 2], .continuation, .tick false, .tick false, .tick true, .targetReady,
      .continuation, .tick false, .tick false, .readDone none [], .readDone none [3], .continuation,
      .tick false, .tick true, .item, .tick false, .tick false, .readDone (some .eof) [], .continuation,
      .tick false, .tick false])
    (s := Socket.spawned .plain {} ⟨0, 0⟩ ⟨⟨1, 0⟩, 0⟩)
    (P := fun tr s => s.point = .returned ∧ readData tr = [1, 2, 3]) (by decide)
  exact ⟨tr, s, hr, hp, hread, ((received_stream_intact hr).2.2.2 hp).2.trans hread⟩

end Eslang.Tcp
