import Eslang.Lib.Transition
import Eslang.Waiting
import Mathlib

/-! # `TSocketProcess` (`eslang_io/Tcp.cpp`)

One socket process with the parts of the context and of the io_service that it can see: its
`RunningProcess`, the resume items queued for it, its posted continuations and its outstanding
operations. The rest of the program is the environment: it sends messages to the three slots, lets
operations complete in any way, fills and drains the slot that received data is forwarded to, and
kills the process. While the coroutine runs nothing else happens; one `tick` takes it from one
`co_await` or loop head to the next.

An asynchronous operation is outstanding until the io_service runs its handler, and until then its
buffer belongs to it. -/
namespace Eslang.Tcp
set_option autoImplicit false

/-! ## The types of `Tcp.h` -/

/-- A `Buffer`: the bytes from `data()` to `data() + size()`. -/
abbrev Buffer := List UInt8

structure BufferCollection where
  buffers : List Buffer
deriving DecidableEq, Repr

def BufferCollection.combine (c : BufferCollection) : Buffer := c.buffers.flatten

/-- The `Buffer` of a `ReceiveData` holds no storage once the value was moved from. -/
structure ReceiveData where
  sender : Pid
  data : Option Buffer
deriving DecidableEq, Repr

structure SocketOptions where
  throttled : Bool := true
deriving DecidableEq, Repr

/-- `PlainSocketTraits` and `SslSocketTraits`. -/
inductive Traits
  | plain
  | ssl
deriving DecidableEq, Repr

inductive ErrorCode
  | operationAborted
  | eof
  | other (message : String)
deriving DecidableEq, Repr

def ErrorCode.message : ErrorCode → String
  | operationAborted => "Operation canceled"
  | eof => "End of file"
  | other m => m

/-! ## The state -/

/-- Where the coroutine of `run()` is: at a `co_await`, or between two of them. At a `co_await` it
is suspended, or it runs and is about to evaluate `await_resume`. -/
inductive Point
  | initial
  /-- In `start()`, in `WaitOnFuture(&p_)` of its own promise. -/
  | handshake
  | started
  | recvInit
  /-- The test of the `while` loop. -/
  | loop
  /-- In `sendThrottled`, at its `WaitingYield`. -/
  | yielding (rd : ReceiveData)
  /-- In `sendThrottled`, at the `WaitingFuture` of its loop. -/
  | throttled (rd : ReceiveData)
  /-- `if (isWriting)`. -/
  | branch
  | onFuture
  | tryRecv
  | returned
  | threw (e : String)
deriving DecidableEq, Repr

/-- The three slots of a `SocketProcess`, in declaration order. -/
def sendDataSlot : SlotId := 0
def sendManyDataSlot : SlotId := 1
def initSlot : SlotId := 2

def memberPromise : PromiseRef := .user 0

/-- The promise that is local to `SslSocketTraits::start`. -/
def handshakePromise : PromiseRef := .user 1

/-- A continuation is the `resumes` count that it captured. -/
structure Socket where
  traits : Traits
  options_ : SocketOptions
  pid : Pid
  onReady : SendAddress
  eof_ : Bool := false
  p_ : EslangPromise Nat := {}
  except_ : Option String := none
  toSend : Option SendAddress := none
  nextRead : Option ReceiveData := none
  isWriting : Bool := false
  send_data : MessageQueue Buffer Nat := {}
  send_many_data : MessageQueue BufferCollection Nat := {}
  init : MessageQueue SendAddress Nat := {}
  handshake_p : EslangPromise Nat := {}
  point : Point := .initial
  running : Bool := false
  dead : Bool := false
  lastWaiting : Option Waiting := none
  resumes : Nat := 0
  /-- The resume items for the process in `queue_`. -/
  queued : List Nat := []
  /-- The posted continuations of the process. -/
  posted : List Nat := []
  /-- The throttle promise of the slot that `toSend` names. -/
  throttle : EslangPromise Nat := {}
  handshaking : Bool := false
  /-- Outstanding `async_read_some`. -/
  reads : Nat := 0
  /-- Outstanding `async_write`, each with the bytes it writes. -/
  writes : List Buffer := []

/-- A spawned socket process: `spawnArgs` queues its first resume. -/
def Socket.spawned (traits : Traits) (options : SocketOptions) (pid : Pid) (onReady : SendAddress) :
    Socket :=
  { traits, options_ := options, pid, onReady, queued := [0] }

/-- A payload for the peer, as `tryRecv` pops it. -/
inductive Payload
  | one (b : Buffer)
  | many (c : BufferCollection)
deriving DecidableEq, Repr

/-- The `Buffer` that the payload is written as. -/
def Payload.toBuffer : Payload → Buffer
  | one b => b
  | many c => c.combine

inductive Event
  /-- `send(onReady, Tcp::Socket(pid()))`. -/
  | ready (a : SendAddress) (p : Pid)
  /-- A read completed without an error. -/
  | read (bytes : Buffer)
  /-- `queueSend` to `*toSend`. -/
  | forwarded (a : Option SendAddress) (rd : ReceiveData)
  | popped (p : Payload)
  /-- `write(b)` is called. -/
  | written (b : Buffer)
deriving DecidableEq, Repr

namespace Socket

/-! ## `RunningProcess` -/

def promise (s : Socket) : PromiseRef → EslangPromise Nat
  | .user 0 => s.p_
  | .user _ => s.handshake_p
  | .throttle _ => s.throttle

def setPromise (s : Socket) (f : PromiseRef) (p : EslangPromise Nat) : Socket :=
  match f with
  | .user 0 => { s with p_ := p }
  | .user _ => { s with handshake_p := p }
  | .throttle _ => { s with throttle := p }

def post (s : Socket) (ks : List Nat) : Socket := { s with posted := s.posted ++ ks }

/-- One call on a promise of the process, with what it posts. -/
def onPromise (s : Socket) (f : PromiseRef)
    (act : EslangPromise Nat → EslangPromise Nat × List Nat) : Socket :=
  (s.setPromise f (act (s.promise f)).1).post (act (s.promise f)).2

/-- The end of `resume`, after the coroutine has suspended at `pt` in the wait `w`. -/
def suspend (s : Socket) (w : Waiting) (pt : Point) : Socket :=
  let s := { s with point := pt, running := false, lastWaiting := some w }
  if w.isReadyForResume then { s with queued := s.queued ++ [s.resumes] }
  else
    match w.wakeOnFuture with
    | none => s
    | some f => s.onPromise f (·.setContinuation s.resumes)

/-- `resume()` up to `task.resume()`. -/
def resume (s : Socket) : Socket :=
  if s.dead then s
  else
    match s.lastWaiting.bind Waiting.wakeOnFuture with
    | none => { s with resumes := s.resumes + 1, running := true }
    | some f =>
        match (s.promise f).process with
        | .error _ => { s with dead := true }
        | .ok p => { s.setPromise f p with resumes := s.resumes + 1, running := true }

/-- The coroutine is left by an exception. -/
def throw (s : Socket) (e : String) : Socket :=
  { s with point := .threw e, running := false, dead := true }

def isEmpty (s : Socket) (slot : SlotId) : Bool :=
  if slot = sendDataSlot then s.send_data.empty
  else if slot = sendManyDataSlot then s.send_many_data.empty
  else s.init.empty

/-- `co_await` of `w` at `pt`. -/
def await (s : Socket) (w : Waiting) (pt : Point) : Socket :=
  if w.awaitReady (fun f => (s.promise f).isReady) s.isEmpty then { s with point := pt }
  else s.suspend w pt

/-! ## The members of `TSocketProcess` -/

def setValue (s : Socket) : Socket := s.onPromise memberPromise (·.setIfUnset)

def setException (s : Socket) (e : String) : Socket :=
  { s.setValue with except_ := s.except_.or (some e) }

def setError (s : Socket) (ec : ErrorCode) : Socket :=
  s.setException ("Listener threw " ++ ec.message)

def asyncRead (s : Socket) : Socket := { s with reads := s.reads + 1 }

/-- `sizeof(readBuff)`. -/
def readBuffSize : Nat := 16000

/-- The handler of `async_read_some`; `bytes` is what the read put into `readBuff`. -/
def onRead (s : Socket) (error : Option ErrorCode) (bytes : Buffer) : Socket × List Event :=
  match error with
  | some .operationAborted => (s, [])
  | some .eof => ({ s with eof_ := true }.setValue, [])
  | some ec => (s.setError ec, [])
  | none =>
      if 0 < bytes.length then
        let rd : ReceiveData := ⟨s.pid, some bytes⟩
        if s.options_.throttled then
          ({ s with nextRead := some rd }.setValue, [.read bytes])
        else (s.asyncRead, [.read bytes, .forwarded s.toSend rd])
      else (s.asyncRead, [.read bytes])

def write (s : Socket) (buff : Buffer) : Socket :=
  { s with isWriting := true, p_ := {}, writes := s.writes ++ [buff] }

def onWrite (s : Socket) (ec : Option ErrorCode) : Socket :=
  match ec with
  | some .operationAborted => s
  | some ec => { s with isWriting := false }.setError ec
  | none => { s with isWriting := false }.setValue

def onHandshake (s : Socket) (error : Option ErrorCode) : Socket :=
  match error with
  | some .operationAborted => s
  | some ec =>
      s.onPromise handshakePromise (·.setException ("SSL handshake threw " ++ ec.message))
  | none => s.onPromise handshakePromise (·.setIfUnset)

def getVals (s : Socket) : Socket × Option Buffer × Option BufferCollection :=
  ({ s with
    send_data := (s.send_data.pop.map fun r => r.2.1).getD s.send_data
    send_many_data := (s.send_many_data.pop.map fun r => r.2.1).getD s.send_many_data },
    s.send_data.pop.map Prod.fst, s.send_many_data.pop.map Prod.fst)

/-- The payloads in the result of `tryRecv`. -/
def popped (ret : Option Buffer × Option BufferCollection) : List Payload :=
  (ret.1.map .one).toList ++ (ret.2.map .many).toList

/-- The code after `tryRecv`, from `await_resume` to the loop head. -/
def received (s : Socket) : Socket × List Event :=
  let (s, ret) := s.getVals
  let out := (popped ret).map .popped
  match s.except_ with
  | some e => (s.throw e, out)
  | none =>
      match ret with
      | (some b, _) => ({ s.write b with point := .loop }, out ++ [.written b])
      | (none, some c) => ({ s.write c.combine with point := .loop }, out ++ [.written c.combine])
      | (none, none) => ({ s with point := .loop }, out)

/-- The running coroutine goes on from its `point`. `busy` is the answer of the context, should the
code ask whether `queue_` is long (`waitOnQueue`) or the slot of `toSend` is full (`canQueue`). -/
def tick (s : Socket) (busy : Bool) : Socket × List Event :=
  match s.point with
  | .initial =>
      match s.traits with
      | .plain => ({ s with point := .started }, [])
      | .ssl => ({ s with handshaking := true }.await (.onFuture handshakePromise) .handshake, [])
  | .handshake => ({ s with point := .started }, [])
  | .started => (s.await (.messages [initSlot]) .recvInit, [.ready s.onReady s.pid])
  | .recvInit =>
      match s.init.pop with
      | none => (s.throw "Message was not ready", [])
      | some (a, q, _) => ({ s with init := q, toSend := some a, point := .loop }.asyncRead, [])
  | .loop =>
      if s.eof_ then ({ s with point := .returned, running := false, dead := true }, [])
      else
        match s.nextRead with
        | none => ({ s with point := .branch }, [])
        | some rd =>
            let s := { s with nextRead := some { rd with data := none } }
            if busy then (s.suspend .yield (.yielding rd), [])
            else ({ s with point := .throttled rd }, [])
  | .yielding rd | .throttled rd =>
      if busy then (s.suspend (.future (.throttle ((s.toSend.map (·.slot)).getD 0))) (.throttled rd), [])
      else ({ s with nextRead := none, point := .branch }.asyncRead, [.forwarded s.toSend rd])
  | .branch =>
      if s.isWriting then (s.await (.onFuture memberPromise) .onFuture, [])
      else
        (s.await (.withFuture memberPromise (.messages [sendDataSlot, sendManyDataSlot])) .tryRecv, [])
  | .onFuture =>
      match s.except_ with
      | some e => (s.throw e, [])
      | none => ({ s with point := .loop }, [])
  | .tryRecv => s.received
  | .returned | .threw _ => (s, [])

/-! ## Messages and steps -/

inductive Message
  | data (b : Buffer)
  | many (c : BufferCollection)
  | init (a : SendAddress)
deriving DecidableEq, Repr

def Message.slot : Message → SlotId
  | data _ => sendDataSlot
  | many _ => sendManyDataSlot
  | init _ => initSlot

def push (s : Socket) : Message → Socket
  | .data b => { s with send_data := s.send_data.push b }
  | .many c => { s with send_many_data := s.send_many_data.push c }
  | .init a => { s with init := s.init.push a }

def waitingFor (s : Socket) (slot : SlotId) : Bool :=
  s.lastWaiting.any (·.isWaiting slot)

/-- `RunningProcess::send`. -/
def send (s : Socket) (m : Message) : Socket :=
  if s.waitingFor m.slot then (s.push m).resume else s.push m

/-- `resume` if the count is the current one. -/
def resumeAt (s : Socket) (n : Nat) : Socket := if s.resumes = n then s.resume else s

inductive Label
  | tick (busy : Bool)
  /-- The next resume item for the process is taken from `queue_`. -/
  | item
  | continuation
  | message (m : Message)
  | handshakeDone (error : Option ErrorCode)
  | readDone (error : Option ErrorCode) (bytes : Buffer)
  | writeDone (error : Option ErrorCode)
  /-- The target pops a message or is destroyed. -/
  | targetReady
  /-- Another sender used the throttle promise of the target. -/
  | otherSender (set : Bool)
  | kill
deriving DecidableEq, Repr

/-- An operation of the socket is aborted only by the destructor of the process. -/
def mayComplete (s : Socket) (error : Option ErrorCode) : Bool :=
  error ≠ some .operationAborted || s.dead

/-- A step of the environment; the coroutine is suspended. -/
def environment (s : Socket) : Label → Option (Socket × List Event)
  | .tick _ => none
  | .item =>
      match s.queued with
      | [] => none
      | n :: ns =>
          if s.dead then some ({ s with queued := ns }, [])
          else some ({ s with queued := ns }.resumeAt n, [])
  | .continuation =>
      match s.posted with
      | [] => none
      | n :: ns => some ({ s with posted := ns }.resumeAt n, [])
  | .message m => if s.dead then some (s, []) else some (s.send m, [])
  | .handshakeDone error =>
      if s.handshaking && s.mayComplete error then
        some ({ s with handshaking := false }.onHandshake error, [])
      else none
  | .readDone error bytes =>
      if 0 < s.reads && s.mayComplete error && bytes.length ≤ readBuffSize then
        some ({ s with reads := s.reads - 1 }.onRead error bytes)
      else none
  | .writeDone error =>
      match s.writes with
      | [] => none
      | _ :: bs =>
          if s.mayComplete error then some ({ s with writes := bs }.onWrite error, []) else none
  | .targetReady => some (s.onPromise (.throttle 0) (·.setIfUnset), [])
  | .otherSender set => some ({ s with throttle := { set_ := set } }, [])
  | .kill => some ({ s with dead := true }, [])

def step (s : Socket) (l : Label) : Option (Socket × List Event) :=
  if s.running then
    match l with
    | .tick busy => some (s.tick busy)
    | _ => none
  else s.environment l

/-! ## What the calls into the library leave alone -/

/-- The state of the process itself: its members, its operations and where its code is. -/
structure Members where
  throttled : Bool
  eof_ : Bool
  except_ : Option String
  toSend : Option SendAddress
  nextRead : Option ReceiveData
  isWriting : Bool
  send_data : MessageQueue Buffer Nat
  send_many_data : MessageQueue BufferCollection Nat
  init : MessageQueue SendAddress Nat
  handshaking : Bool
  reads : Nat
  writes : List Buffer
  point : Point

def members (s : Socket) : Members where
  throttled := s.options_.throttled
  eof_ := s.eof_
  except_ := s.except_
  toSend := s.toSend
  nextRead := s.nextRead
  isWriting := s.isWriting
  send_data := s.send_data
  send_many_data := s.send_many_data
  init := s.init
  handshaking := s.handshaking
  reads := s.reads
  writes := s.writes
  point := s.point

@[simp] theorem members_setPromise (s : Socket) (f : PromiseRef) (p : EslangPromise Nat) :
    (s.setPromise f p).members = s.members := by
  unfold setPromise
  split <;> rfl

@[simp] theorem members_onPromise (s : Socket) (f : PromiseRef)
    (act : EslangPromise Nat → EslangPromise Nat × List Nat) :
    (s.onPromise f act).members = s.members :=
  members_setPromise s f _

@[simp] theorem members_setValue (s : Socket) : s.setValue.members = s.members :=
  members_onPromise s _ _

theorem members_setError (s : Socket) (ec : ErrorCode) :
    (s.setError ec).members =
      { s.members with except_ := s.except_.or (some ("Listener threw " ++ ec.message)) } := by
  have hv := members_setValue s
  simp only [members, Members.mk.injEq] at hv ⊢
  simp [setError, setException, hv]

theorem members_suspend (s : Socket) (w : Waiting) (pt : Point) :
    (s.suspend w pt).members = { s.members with point := pt } := by
  unfold suspend
  dsimp only
  split
  · rfl
  · split
    · rfl
    · rw [members_onPromise]
      rfl

theorem members_await (s : Socket) (w : Waiting) (pt : Point) :
    (s.await w pt).members = { s.members with point := pt } := by
  unfold await
  split
  · rfl
  · exact members_suspend s w pt

@[simp] theorem members_resume (s : Socket) : s.resume.members = s.members := by
  unfold resume
  split
  · rfl
  · split
    · rfl
    · split
      · rfl
      · exact members_setPromise s _ _

@[simp] theorem members_resumeAt (s : Socket) (n : Nat) : (s.resumeAt n).members = s.members := by
  unfold resumeAt
  split
  · exact members_resume s
  · rfl

theorem members_send (s : Socket) (m : Message) : (s.send m).members = (s.push m).members := by
  unfold send
  split
  · exact members_resume _
  · rfl

@[simp] theorem members_onHandshake (s : Socket) (ec : Option ErrorCode) :
    (s.onHandshake ec).members = s.members := by
  unfold onHandshake
  split <;> simp

/-! ## Inversion -/

/-- What a step does, with the condition under which it is taken. -/
inductive Effect (s : Socket) : Label → Socket → List Event → Prop
  | tick (busy : Bool) (hr : s.running = true) :
      Effect s (.tick busy) (s.tick busy).1 (s.tick busy).2
  | item {n : Nat} {ns : List Nat} (hr : s.running = false) (hq : s.queued = n :: ns)
      (hd : s.dead = false) : Effect s .item ({ s with queued := ns }.resumeAt n) []
  | lateItem {n : Nat} {ns : List Nat} (hr : s.running = false) (hq : s.queued = n :: ns)
      (hd : s.dead = true) : Effect s .item { s with queued := ns } []
  | continuation {n : Nat} {ns : List Nat} (hr : s.running = false) (hp : s.posted = n :: ns) :
      Effect s .continuation ({ s with posted := ns }.resumeAt n) []
  | message (m : Message) (hr : s.running = false) (hd : s.dead = false) :
      Effect s (.message m) (s.send m) []
  | lateMessage (m : Message) (hr : s.running = false) (hd : s.dead = true) :
      Effect s (.message m) s []
  | handshakeDone (error : Option ErrorCode) (hr : s.running = false) (hh : s.handshaking = true)
      (hc : s.mayComplete error = true) :
      Effect s (.handshakeDone error) ({ s with handshaking := false }.onHandshake error) []
  | readDone (error : Option ErrorCode) (bytes : Buffer) (hr : s.running = false) (hn : 0 < s.reads)
      (hc : s.mayComplete error = true) (hb : bytes.length ≤ readBuffSize) :
      Effect s (.readDone error bytes) ({ s with reads := s.reads - 1 }.onRead error bytes).1
        ({ s with reads := s.reads - 1 }.onRead error bytes).2
  | writeDone (error : Option ErrorCode) {b : Buffer} {bs : List Buffer} (hr : s.running = false)
      (hw : s.writes = b :: bs) (hc : s.mayComplete error = true) :
      Effect s (.writeDone error) ({ s with writes := bs }.onWrite error) []
  | targetReady (hr : s.running = false) :
      Effect s .targetReady (s.onPromise (.throttle 0) (·.setIfUnset)) []
  | otherSender (set : Bool) (hr : s.running = false) :
      Effect s (.otherSender set) { s with throttle := { set_ := set } } []
  | kill (hr : s.running = false) : Effect s .kill { s with dead := true } []

theorem environment_effect {s s' : Socket} {l : Label} {out : List Event} (hr : s.running = false)
    (h : s.environment l = some (s', out)) : Effect s l s' out := by
  cases l with
  | tick busy => cases h
  | item =>
    simp only [environment] at h
    split at h
    next => cases h
    next n ns hq =>
      split at h
      next hd =>
        cases h
        exact .lateItem hr hq hd
      next hd =>
        cases h
        exact .item hr hq (by simpa using hd)
  | continuation =>
    simp only [environment] at h
    split at h
    next => cases h
    next n ns hp =>
      cases h
      exact .continuation hr hp
  | message m =>
    simp only [environment] at h
    split at h
    next hd =>
      cases h
      exact .lateMessage m hr hd
    next hd =>
      cases h
      exact .message m hr (by simpa using hd)
  | handshakeDone error =>
    simp only [environment] at h
    split at h
    next hg =>
      cases h
      rw [Bool.and_eq_true] at hg
      exact .handshakeDone error hr hg.1 hg.2
    next => cases h
  | readDone error bytes =>
    simp only [environment] at h
    split at h
    next hg =>
      simp only [Bool.and_eq_true, decide_eq_true_eq] at hg
      have hread := Effect.readDone error bytes hr hg.1.1 hg.1.2 hg.2
      rwa [Option.some.inj h] at hread
    next => cases h
  | writeDone error =>
    simp only [environment] at h
    split at h
    next => cases h
    next b bs hw =>
      split at h
      next hc =>
        cases h
        exact .writeDone error hr hw hc
      next => cases h
  | targetReady =>
    cases h
    exact .targetReady hr
  | otherSender set =>
    cases h
    exact .otherSender set hr
  | kill =>
    cases h
    exact .kill hr

theorem step_effect {s s' : Socket} {l : Label} {out : List Event} (h : s.step l = some (s', out)) :
    Effect s l s' out := by
  unfold step at h
  split at h
  next hr =>
    cases l with
    | tick busy =>
      have htick := Effect.tick busy hr
      rwa [Option.some.inj h] at htick
    | _ => cases h
  next hr => exact environment_effect (by simpa using hr) h

end Socket

/-- The socket process as a transition system. -/
def system : Lib.System Socket Socket.Label Event := ⟨Socket.step⟩

end Eslang.Tcp
