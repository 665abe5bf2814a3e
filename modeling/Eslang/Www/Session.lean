import Eslang.Context.Pids
import Eslang.Www.Parser
import Mathlib

/-! # `SessionRunner::run` and its `StreamBatcher` (`eslang_www/Www.cpp`, `eslang_io/Tcp.h`)

A session receives Buffers from its socket process, parses requests, asks its handler for each
response and collects the pieces of the response in a `StreamBatcher`, whose destructor sends them
to the socket process. It is a process of a `Context`, which is part of the state: the session sends
through `makeSendAddress` of that context, other code of the program changes it whenever the session
is suspended, and `Context::destroy` takes the session from it. The messages of Beast and the
handler are parameters: a handler may answer what it likes, after any suspension, or throw. -/
namespace Eslang.Www
set_option autoImplicit false
open Lib

/-- What the code uses of the messages of Beast. `convert` and `convertHeaderOnly` are the pieces
that `WwwParser` yields of a serialised response, and the exception that ends them. -/
structure Http (Req Resp : Type) where
  keepAlive : Req → Bool
  version : Req → Nat
  setVersion : Resp → Nat → Resp
  setServer : Resp → String → Resp
  setKeepAlive : Resp → Bool → Resp
  chunked : Resp → Bool
  convert : Resp → List Bytes × Option String
  convertHeaderOnly : Resp → List Bytes × Option String
  makeChunk : Bytes → List Bytes
  makeChunkLast : List Bytes

/-- A `SessionRunner`: its own process, the pid of its socket process, where the slots `init` and
`send_many_data` stand among the members of a `SocketProcess`, and the messages it sends there. -/
structure SessionRunner (P Req Resp σ μ : Type) where
  beast : RequestParser P
  release : P → Req
  http : Http Req Resp
  code : Code σ μ
  self : ObjId
  s_ : Pid
  init : Nat
  sendManyData : Nat
  address : μ
  batch : List Bytes → μ

/-- Where `run` is. The requests that `push` has still to yield and the exception it then ends with
stay with the points inside its loop; a `StreamBatcher` is in scope while `getChunked` runs. -/
inductive Point (Req : Type)
  | starting
  | receiving
  | parsing (reqs : List Req) (failed : Option String)
  | responding (req : Req) (reqs : List Req) (failed : Option String)
  | chunking (req : Req) (reqs : List Req) (failed : Option String) (buffs : List Bytes)
  | returned
  | threw (e : String)
  | destroyed
  | terminated (e : String)
deriving DecidableEq, Repr

structure Session (P Req σ μ : Type) where
  context : Context σ μ
  parser : WwwParser P
  keepAlive : Bool := true
  point : Point Req := .starting

/-- `received`, `response`, `chunk`, `chunksEnd` and `raise` are what the socket and the handler do;
`others` is the rest of the program running while the session is suspended. -/
inductive Act (Resp σ μ : Type)
  | start
  | received (data : Bytes)
  | next
  | response (resp : Resp)
  | chunk (buff : Bytes)
  | chunksEnd
  | raise (e : String)
  | others (c : Context σ μ)
  | destroy

/-- The header of a chunked response, a Buffer of `getChunked`, the whole content of the batcher at
the end of a chunked response, and the end of a request. -/
inductive Note (Req : Type)
  | header (pieces : List Bytes)
  | chunk (buff : Bytes)
  | ended (buffs : List Bytes)
  | answered (req : Req)
deriving DecidableEq, Repr

namespace SessionRunner
variable {P Req Resp σ μ : Type} (r : SessionRunner P Req Resp σ μ)

def clear (c : Context σ μ) (buffs : List Bytes) : Except String (Context σ μ) :=
  if buffs.isEmpty then .ok c
  else
    match c.makeSendAddress r.s_ r.sendManyData with
    | .error e => .error e
    | .ok a => .ok (c.queueSend a (.user (r.batch buffs)))

/-- `~StreamBatcher`, then on to `next`, which `notes` go with; an exception that leaves the
destructor terminates. -/
def endScope (s : Session P Req σ μ) (buffs : List Bytes) (next : Point Req)
    (notes : List (Note Req)) : Session P Req σ μ × List (Note Req) :=
  match r.clear s.context buffs with
  | .ok c => ({ s with context := c, point := next }, notes)
  | .error e => ({ s with point := .terminated e }, [])

def loopHead (keepAlive : Bool) : Point Req := if keepAlive then .receiving else .returned

/-- `Tcp::initRecvSocket`, then the loop. -/
def start (s : Session P Req σ μ) : Session P Req σ μ :=
  match s.context.makeSendAddress r.s_ r.init with
  | .error e => { s with point := .threw e }
  | .ok a => { s with
      context := s.context.queueSend a (.user r.address)
      point := loopHead s.keepAlive }

/-- The fields that `run` sets in a response. -/
def prepare (req : Req) (resp : Resp) : Resp :=
  r.http.setKeepAlive (r.http.setServer (r.http.setVersion resp (r.http.version req)) "Eslang")
    (r.http.keepAlive req)

/-- From the handler's response to the end of the request, or to the first wait for a chunk. -/
def respond (s : Session P Req σ μ) (req : Req) (reqs : List Req) (failed : Option String)
    (resp : Resp) : Session P Req σ μ × List (Note Req) :=
  if r.http.chunked resp then
    match r.http.convertHeaderOnly resp with
    | (pieces, none) => ({ s with point := .chunking req reqs failed pieces }, [.header pieces])
    | (pieces, some e) => r.endScope s pieces (.threw e) []
  else
    match r.http.convert resp with
    | (pieces, none) => r.endScope s pieces (.parsing reqs failed) [.answered req]
    | (pieces, some e) => r.endScope s pieces (.threw e) []

/-- A step of the session's own coroutine. While it is `chunking`, `chunksEnd` and `raise` stand for a
`getChunked` that returns or throws before it has suspended since its last Buffer. They are also there
after a suspension, where the source resumes the session neither way: `GenPromise::final_suspend` leaves
it waiting, and the exception goes to `ProcessTask::resume`. -/
def body (s : Session P Req σ μ) : Point Req → Act Resp σ μ →
    Option (Session P Req σ μ × List (Note Req))
  | .starting, .start => some (r.start s, [])
  | .receiving, .received data =>
      (push r.beast r.release data (data.length + 1) s.parser).map fun q =>
        ({ s with parser := q.parser, point := .parsing q.requests q.threw }, [])
  | .parsing [] none, .next => some ({ s with point := loopHead s.keepAlive }, [])
  | .parsing [] (some e), .next => some ({ s with point := .threw e }, [])
  | .parsing (req :: reqs) failed, .next =>
      some ({ s with
        keepAlive := s.keepAlive || r.http.keepAlive req
        point := .responding req reqs failed }, [])
  | .responding req reqs failed, .response resp =>
      some (r.respond s req reqs failed (r.prepare req resp))
  | .responding _ _ _, .raise e => some ({ s with point := .threw e }, [])
  | .chunking req reqs failed buffs, .chunk buff =>
      some ({ s with point := .chunking req reqs failed (buffs ++ r.http.makeChunk buff) },
        [.chunk buff])
  | .chunking req reqs failed buffs, .chunksEnd =>
      let buffs := buffs ++ r.http.makeChunkLast
      let e := r.endScope s buffs (.parsing reqs failed) [.answered req]
      some (e.1, .ended buffs :: e.2)
  | .chunking _ _ _ buffs, .raise e => some (r.endScope s buffs (.threw e) [])
  | _, _ => none

/-- What the rest of the program keeps: the link made in the constructor, and that the pid of the
socket names a `SocketProcess` or nothing. -/
def hosts (c : Context σ μ) : Bool :=
  (c.heap r.self).killOnDie.contains r.s_ &&
    (c.findProc r.s_).all fun o => decide (r.sendManyData < (c.heap o).members.length)

/-- The coroutine is suspended or has ended, and its frame is there. -/
def resting : Point Req → Bool
  | .parsing _ _ | .destroyed | .terminated _ => false
  | _ => true

/-- `Context::destroy` of the session, with the destructors of its coroutine frame. -/
def destroy (s : Session P Req σ μ) (reason : String) (rest : List (ObjId × String)) :
    Session P Req σ μ × List (Note Req) :=
  let s' := { s with
    context := { s.context with toDestroy := rest }.destroy r.code.dtor r.self reason }
  match s.point with
  | .chunking _ _ _ buffs => r.endScope s' buffs .destroyed []
  | _ => ({ s' with point := .destroyed }, [])

def step (s : Session P Req σ μ) : Act Resp σ μ → Option (Session P Req σ μ × List (Note Req))
  | .others c =>
      if resting s.point && r.hosts c then some ({ s with context := c }, []) else none
  | .destroy =>
      match s.context.toDestroy with
      | (o, reason) :: rest =>
          if o = r.self ∧ resting s.point then some (r.destroy s reason rest) else none
      | [] => none
  | act => if (s.context.heap r.self).dead then none else r.body s s.point act

def system : System (Session P Req σ μ) (Act Resp σ μ) (Note Req) := ⟨r.step⟩

/-- The session as its constructor leaves it in a context. -/
def initial (c : Context σ μ) : Session P Req σ μ where
  context := c
  parser := { parser_ := r.beast.emplace }

/-! ## What a step can do -/

/-- The steps of a session, case by case. -/
inductive Moves (s : Session P Req σ μ) :
    Act Resp σ μ → Session P Req σ μ → List (Note Req) → Prop
  | start (hp : s.point = .starting) : Moves s .start (r.start s) []
  | received {data : Bytes} {q : Pushed P Req} (hp : s.point = .receiving)
      (hq : push r.beast r.release data (data.length + 1) s.parser = some q) :
      Moves s (.received data)
        { s with parser := q.parser, point := .parsing q.requests q.threw } []
  | again (hp : s.point = .parsing [] none) :
      Moves s .next { s with point := loopHead s.keepAlive } []
  | failed {e : String} (hp : s.point = .parsing [] (some e)) :
      Moves s .next { s with point := .threw e } []
  | request {req : Req} {reqs : List Req} {failed : Option String}
      (hp : s.point = .parsing (req :: reqs) failed) :
      Moves s .next { s with
        keepAlive := s.keepAlive || r.http.keepAlive req
        point := .responding req reqs failed } []
  | respond {req : Req} {reqs : List Req} {failed : Option String} {resp : Resp}
      {s' : Session P Req σ μ} {notes : List (Note Req)} (hp : s.point = .responding req reqs failed)
      (he : r.respond s req reqs failed (r.prepare req resp) = (s', notes)) :
      Moves s (.response resp) s' notes
  | raise {req : Req} {reqs : List Req} {failed : Option String} {e : String}
      (hp : s.point = .responding req reqs failed) :
      Moves s (.raise e) { s with point := .threw e } []
  | chunk {req : Req} {reqs : List Req} {failed : Option String} {buffs : List Bytes}
      {buff : Bytes} (hp : s.point = .chunking req reqs failed buffs) :
      Moves s (.chunk buff)
        { s with point := .chunking req reqs failed (buffs ++ r.http.makeChunk buff) }
        [.chunk buff]
  | chunksEnd {req : Req} {reqs : List Req} {failed : Option String} {buffs : List Bytes}
      {s' : Session P Req σ μ} {notes : List (Note Req)}
      (hp : s.point = .chunking req reqs failed buffs)
      (he : r.endScope s (buffs ++ r.http.makeChunkLast) (.parsing reqs failed) [.answered req] =
        (s', notes)) :
      Moves s .chunksEnd s' (.ended (buffs ++ r.http.makeChunkLast) :: notes)
  | raiseChunked {req : Req} {reqs : List Req} {failed : Option String} {buffs : List Bytes}
      {e : String} {s' : Session P Req σ μ} {notes : List (Note Req)}
      (hp : s.point = .chunking req reqs failed buffs)
      (he : r.endScope s buffs (.threw e) [] = (s', notes)) : Moves s (.raise e) s' notes
  | others {c : Context σ μ} (hp : resting s.point = true) (hc : r.hosts c = true) :
      Moves s (.others c) { s with context := c } []
  | destroy {reason : String} {rest : List (ObjId × String)} {s' : Session P Req σ μ}
      {notes : List (Note Req)} (hp : resting s.point = true)
      (he : r.destroy s reason rest = (s', notes)) : Moves s .destroy s' notes

variable {r}

theorem body_moves {s s' : Session P Req σ μ} {act : Act Resp σ μ} {notes : List (Note Req)}
    {p : Point Req} (hp : s.point = p) (h : r.body s p act = some (s', notes)) :
    r.Moves s act s' notes := by
  unfold body at h
  split at h
  case h_1 => cases h; exact .start hp
  case h_2 =>
    obtain ⟨q, hq, he⟩ := Option.map_eq_some_iff.mp h
    cases he
    exact .received hp hq
  case h_3 => cases h; exact .again hp
  case h_4 => cases h; exact .failed hp
  case h_5 => cases h; exact .request hp
  case h_6 => exact .respond hp (Option.some.inj h)
  case h_7 => cases h; exact .raise hp
  case h_8 => cases h; exact .chunk hp
  case h_9 =>
    obtain ⟨rfl, rfl⟩ := Prod.mk.inj (Option.some.inj h)
    exact .chunksEnd hp rfl
  case h_10 => exact .raiseChunked hp (Option.some.inj h)
  case h_11 => cases h

theorem step_moves {s s' : Session P Req σ μ} {act : Act Resp σ μ} {notes : List (Note Req)}
    (h : r.step s act = some (s', notes)) : r.Moves s act s' notes := by
  unfold step at h
  split at h
  next c =>
    split at h
    next hc =>
      cases h
      rw [Bool.and_eq_true] at hc
      exact .others hc.1 hc.2
    next => cases h
  next =>
    split at h
    next o reason rest hd =>
      split at h
      next hc => exact .destroy hc.2 (Option.some.inj h)
      next => cases h
    next => cases h
  next =>
    split at h
    next => cases h
    next => exact body_moves rfl h

/-- What `~StreamBatcher` does: the session is where it was to go, or the program terminates. -/
theorem endScope_cases {s s' : Session P Req σ μ} {buffs : List Bytes} {next : Point Req}
    {notes notes' : List (Note Req)} (h : r.endScope s buffs next notes = (s', notes')) :
    (∃ c, r.clear s.context buffs = .ok c ∧ s' = { s with context := c, point := next } ∧
      notes' = notes) ∨
    ∃ e, r.clear s.context buffs = .error e ∧ s' = { s with point := .terminated e } ∧
      notes' = [] := by
  unfold endScope at h
  split at h
  next c hc =>
    cases h
    exact .inl ⟨c, hc, rfl, rfl⟩
  next e he =>
    cases h
    exact .inr ⟨e, he, rfl, rfl⟩

theorem respond_cases {s s' : Session P Req σ μ} {req : Req} {reqs : List Req}
    {failed : Option String} {resp : Resp} {notes : List (Note Req)}
    (h : r.respond s req reqs failed resp = (s', notes)) :
    (∃ pieces, s' = { s with point := .chunking req reqs failed pieces } ∧
      notes = [.header pieces]) ∨
    (∃ pieces, r.endScope s pieces (.parsing reqs failed) [.answered req] = (s', notes)) ∨
    ∃ pieces e, r.endScope s pieces (.threw e) [] = (s', notes) := by
  unfold respond at h
  split at h
  · split at h
    · cases h
      exact .inl ⟨_, rfl, rfl⟩
    · exact .inr (.inr ⟨_, _, h⟩)
  · split at h
    · exact .inr (.inl ⟨_, h⟩)
    · exact .inr (.inr ⟨_, _, h⟩)

theorem destroy_cases {s s' : Session P Req σ μ} {reason : String} {rest : List (ObjId × String)}
    {notes : List (Note Req)} (h : r.destroy s reason rest = (s', notes)) :
    ∃ c, c = { s.context with toDestroy := rest }.destroy r.code.dtor r.self reason ∧
    ((∃ req reqs failed buffs, s.point = .chunking req reqs failed buffs ∧
      r.endScope { s with context := c } buffs .destroyed [] = (s', notes)) ∨
    s' = { s with context := c, point := .destroyed } ∧ notes = []) := by
  unfold destroy at h
  dsimp only at h
  refine ⟨_, rfl, ?_⟩
  split at h
  next req reqs failed buffs hp => exact .inl ⟨req, reqs, failed, buffs, hp, h⟩
  next =>
    cases h
    exact .inr ⟨rfl, rfl⟩

/-! ## The loop flag -/

/-- The flag of the loop is up, and `run` has not ended. -/
def Looping (s : Session P Req σ μ) : Prop := s.keepAlive = true ∧ s.point ≠ .returned

theorem endScope_looping {s s' : Session P Req σ μ} {buffs : List Bytes} {next : Point Req}
    {notes notes' : List (Note Req)} (hk : s.keepAlive = true) (hn : next ≠ .returned)
    (h : r.endScope s buffs next notes = (s', notes')) : Looping s' := by
  rcases endScope_cases h with ⟨c, -, rfl, -⟩ | ⟨e, -, rfl, -⟩
  · exact ⟨hk, hn⟩
  · exact ⟨hk, by simp⟩

theorem start_looping {s : Session P Req σ μ} (hk : s.keepAlive = true) : Looping (r.start s) := by
  unfold start
  split
  · exact ⟨hk, by simp⟩
  · exact ⟨hk, by simp [loopHead, hk]⟩

/-- No step lowers the flag: a request can only raise it. -/
theorem moves_looping {s s' : Session P Req σ μ} {act : Act Resp σ μ} {notes : List (Note Req)}
    (h : r.Moves s act s' notes) (hs : Looping s) : Looping s' := by
  obtain ⟨hk, hp⟩ := hs
  cases h with
  | start => exact start_looping hk
  | received => exact ⟨hk, by simp⟩
  | again => exact ⟨hk, by simp [loopHead, hk]⟩
  | failed => exact ⟨hk, by simp⟩
  | request => exact ⟨by simp [hk], by simp⟩
  | respond _ he =>
    rcases respond_cases he with ⟨pieces, rfl, -⟩ | ⟨pieces, he⟩ | ⟨pieces, e, he⟩
    · exact ⟨hk, by simp⟩
    · exact endScope_looping hk (by simp) he
    · exact endScope_looping hk (by simp) he
  | raise => exact ⟨hk, by simp⟩
  | chunk => exact ⟨hk, by simp⟩
  | chunksEnd _ he => exact endScope_looping hk (by simp) he
  | raiseChunked _ he => exact endScope_looping hk (by simp) he
  | others => exact ⟨hk, hp⟩
  | destroy _ he =>
    obtain ⟨c, -, ⟨_, _, _, buffs, -, he⟩ | ⟨rfl, -⟩⟩ := destroy_cases he
    · exact endScope_looping (s := { s with context := c }) hk (by simp) he
    · exact ⟨hk, by simp⟩

theorem run_looping {ok : Session P Req σ μ → Act Resp σ μ → Prop} {c : Context σ μ}
    {tr : List (Note Req)} {s : Session P Req σ μ} (h : r.system.Run ok (r.initial c) tr s) :
    Looping s :=
  h.invariant (fun _ s => Looping s) ⟨rfl, by simp [initial]⟩
    fun _ _ _ _ _ hs _ hst => moves_looping (step_moves hst) hs

/-- **Keep-alive over a session.** Look at the session between two Buffers, where it waits for the
next one or has ended. That it has ended if it answered a request that is not keep-alive, and waits
if it did not, is the case exactly as long as every request answered is keep-alive. -/
theorem keep_alive_honoured_iff {c : Context σ μ} {tr : List (Note Req)} {s : Session P Req σ μ}
    (h : r.system.Run System.anyStep (r.initial c) tr s)
    (hp : s.point = .receiving ∨ s.point = .returned) :
    ((s.point = .returned ↔ ∃ req, .answered req ∈ tr ∧ r.http.keepAlive req = false) ∧
      (s.point = .receiving ↔ ∀ req, .answered req ∈ tr → r.http.keepAlive req = true)) ↔
      ∀ req, .answered req ∈ tr → r.http.keepAlive req = true := by
  have hnot : s.point ≠ .returned := (run_looping h).2
  have hrecv : s.point = .receiving := hp.resolve_right hnot
  constructor
  · intro hall
    exact hall.2.mp hrecv
  · intro hall
    refine ⟨⟨fun hret => absurd hret hnot, ?_⟩, fun _ => hall, fun _ => hrecv⟩
    rintro ⟨req, hreq, hk⟩
    simp [hall req hreq] at hk

end SessionRunner

/-! ## A session on its own

A context with the socket process and the session linked to it. A request is its octets, and is
keep-alive if its version is 1.1. -/

def plainHttp : Http Bytes Bool where
  keepAlive req := req[13]? == some 49
  version _ := 11
  setVersion resp _ := resp
  setServer resp _ := resp
  setKeepAlive resp _ := resp
  chunked resp := resp
  convert _ := ([[72, 84, 84, 80]], none)
  convertHeaderOnly _ := ([[72, 84, 84, 80]], none)
  makeChunk b := [b]
  makeChunkLast := [[48, 13, 10, 13, 10]]

/-- The socket is process 0, with its slots `send_data`, `send_many_data` and `init`; the session is
process 1. -/
def linkedContext : Context Unit (List Bytes) where
  processes := [some 0, some 1]
  heap o := if o = 0 then
      { pid := ⟨0, 0⟩, life := .running, killOnDie := [⟨1, 0⟩], members := [0, 1, 2], task := .code () }
    else { pid := ⟨1, 0⟩, life := .running, killOnDie := [⟨0, 0⟩], task := .code () }
  heapSize := 2
  slots _ := ⟨0, some {}⟩
  slotCount := 3
  promises _ := ⟨none, none⟩

def plainSession : SessionRunner Bytes Bytes Bool Unit (List Bytes) where
  beast := headerParser
  release := id
  http := plainHttp
  code := { op := fun _ => .coReturn, dtor := id }
  self := 1
  s_ := ⟨0, 0⟩
  init := 2
  sendManyData := 1
  address := []
  batch := id

/-- The acts by which a session answers one request without chunks. -/
def answerOne (request : Bytes) : List (Act Bool Unit (List Bytes)) :=
  [.received request, .next, .response false, .next]

/-- `GET / HTTP/1.0`, which asks for the connection to be closed. -/
def getOnce : Bytes := [71, 69, 84, 32, 47, 32, 72, 84, 84, 80, 47, 49, 46, 48, 13, 10, 13, 10]

namespace SessionRunner

theorem keep_alive_honoured_iff_kept : ∃ tr s,
    plainSession.system.Run System.anyStep (plainSession.initial linkedContext) tr s ∧
      s.point = .receiving ∧ .answered getRoot ∈ tr ∧
      ((s.point = .returned ↔ ∃ req, .answered req ∈ tr ∧ plainHttp.keepAlive req = false) ∧
        (s.point = .receiving ↔ ∀ req, .answered req ∈ tr → plainHttp.keepAlive req = true)) := by
  obtain ⟨tr, s, hrun, hp, htr⟩ := System.exec_reaches (M := plainSession.system)
    (g := fun _ _ => true) (G := System.anyStep) (fun _ _ _ => trivial)
    (w := .start :: answerOne getRoot) (s := plainSession.initial linkedContext)
    (P := fun tr s => s.point = .receiving ∧ tr = [.answered getRoot]) (by decide)
  refine ⟨tr, s, hrun, hp, by simp [htr], (keep_alive_honoured_iff hrun (.inl hp)).mpr ?_⟩
  intro req hreq
  obtain rfl : req = getRoot := by simpa [htr] using hreq
  decide

/-- The session answers a request that is not keep-alive and waits for the next one. -/
theorem keep_alive_not_honoured : ∃ tr s,
    plainSession.system.Run System.anyStep (plainSession.initial linkedContext) tr s ∧
      .answered getOnce ∈ tr ∧ plainHttp.keepAlive getOnce = false ∧ s.point = .receiving := by
  obtain ⟨tr, s, hrun, hp, htr⟩ := System.exec_reaches (M := plainSession.system)
    (g := fun _ _ => true) (G := System.anyStep) (fun _ _ _ => trivial)
    (w := .start :: answerOne getOnce) (s := plainSession.initial linkedContext)
    (P := fun tr s => s.point = .receiving ∧ tr = [.answered getOnce]) (by decide)
  exact ⟨tr, s, hrun, by simp [htr], by decide, hp⟩

end SessionRunner

end Eslang.Www
