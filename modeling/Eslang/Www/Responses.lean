import Eslang.Www.Chunks
import Eslang.Www.Serializer
import Mathlib

/-! # Requests in, responses out

A session reads several requests from one Buffer, or one request from several Buffers, and its
handler may suspend before and inside each response. A log of the session has what it received, what
its handler answered and what its coroutine put into the queue of the context. Read back, the log
says that each request parsed gets one `BufferCollection`, in the order of the requests, and that
this collection holds the octets of its response. -/
namespace Eslang.Www
set_option autoImplicit false
open Lib

/-- What happens in a session: a Buffer arrives, the handler answers (`resp` has the fields that
`run` sets), `getChunked` yields, ends or throws, and a message is queued for a process. -/
inductive Entry (Req Resp μ : Type)
  | received (data : Bytes)
  | response (req : Req) (resp : Resp)
  | chunk (buff : Bytes)
  | chunksEnd
  | chunksThrew
  | queued (p : Pid) (m : MessageBase μ)

/-- A request and what the `StreamBatcher` of its response took: all of a response that is not
chunked, else its header, the chunks of the Buffers `yielded` and, if `getChunked` ended, the last
chunk. -/
structure Exchange (Req Resp : Type) where
  request : Req
  response : Resp
  yielded : List Bytes := []
  ended : Bool := true

/-- What a log tells: the state of the parser, the requests it found, the chunked response under
way, and the exchanges whose `StreamBatcher` was closed. -/
structure Ledger (P Req Resp : Type) where
  parser : WwwParser P
  parsed : List Req := []
  open_ : Option (Req × Resp × List Bytes) := none
  closed : List (Exchange Req Resp) := []

/-- The receiver and the content of a queued message. -/
def mail? {μ : Type} : ToProcessItem μ → Option (Pid × MessageBase μ)
  | .message a m => some (a.pid, m)
  | .resume _ _ => none

namespace SessionRunner
variable {P Req Resp σ μ : Type} (r : SessionRunner P Req Resp σ μ)

/-! ## The log -/

/-- What a step of the session's coroutine appends to the queue of its context. -/
def queuedBy (s : Session P Req σ μ) (act : Act Resp σ μ) : List (Pid × MessageBase μ) :=
  match act, r.step s act with
  | .others _, _ => []
  | .destroy, _ => []
  | _, some (s', _) => (s'.context.queue.drop s.context.queue.length).filterMap mail?
  | _, none => []

def told (s : Session P Req σ μ) (act : Act Resp σ μ) : List (Entry Req Resp μ) :=
  match s.point, act with
  | .receiving, .received data => [.received data]
  | .responding req _ _, .response resp => [.response req (r.prepare req resp)]
  | .chunking _ _ _ _, .chunk buff => [.chunk buff]
  | .chunking _ _ _ _, .chunksEnd => [.chunksEnd]
  | .chunking _ _ _ _, .raise _ => [.chunksThrew]
  | _, _ => []

/-- The entries of a step. -/
def entries (s : Session P Req σ μ) (act : Act Resp σ μ) : List (Entry Req Resp μ) :=
  r.told s act ++ (r.queuedBy s act).map fun q => .queued q.1 q.2

/-- The messages queued, in order. -/
def queued (log : List (Entry Req Resp μ)) : List (Pid × MessageBase μ) :=
  log.filterMap fun e => match e with
    | .queued p m => some (p, m)
    | _ => none

/-- The chunked response under way is closed. -/
def close (l : Ledger P Req Resp) (ended : Bool) : Ledger P Req Resp :=
  match l.open_ with
  | some (req, resp, yielded) =>
      { l with open_ := none, closed := l.closed ++ [⟨req, resp, yielded, ended⟩] }
  | none => l

def add (l : Ledger P Req Resp) : Entry Req Resp μ → Ledger P Req Resp
  | .received data =>
      match push r.beast r.release data (data.length + 1) l.parser with
      | some q => { l with parser := q.parser, parsed := l.parsed ++ q.requests }
      | none => l
  | .response req resp =>
      if r.http.chunked resp then
        if (r.http.convertHeaderOnly resp).2.isNone then { l with open_ := some (req, resp, []) }
        else { l with closed := l.closed ++ [⟨req, resp, [], false⟩] }
      else { l with closed := l.closed ++ [⟨req, resp, [], true⟩] }
  | .chunk buff => { l with open_ := l.open_.map fun o => (o.1, o.2.1, o.2.2 ++ [buff]) }
  | .chunksEnd => close l true
  | .chunksThrew => close l false
  | .queued _ _ => l

/-- The ledger of a log. -/
def ledger (log : List (Entry Req Resp μ)) : Ledger P Req Resp :=
  log.foldl r.add { parser := { parser_ := r.beast.emplace } }

/-- What the batcher of an exchange held when it was closed. -/
def pieces (x : Exchange Req Resp) : List Bytes :=
  if r.http.chunked x.response then
    (r.http.convertHeaderOnly x.response).1 ++ r.chunks x.yielded ++
      (if x.ended then r.http.makeChunkLast else [])
  else (r.http.convert x.response).1

/-- The message that `StreamBatcher::clear` sends for the Buffers `buffs`, if it sends one. -/
def mailOf (buffs : List Bytes) : List (Pid × MessageBase μ) :=
  if buffs.isEmpty then [] else [(r.s_, .user (r.batch buffs))]

/-- The first message of a session: the address for what its socket receives. -/
def hello : Pid × MessageBase μ := (r.s_, .user r.address)

/-- Nothing threw while the response was serialised and `getChunked` ran. -/
def Clean (x : Exchange Req Resp) : Prop :=
  if r.http.chunked x.response then
    (r.http.convertHeaderOnly x.response).2 = none ∧ x.ended = true
  else (r.http.convert x.response).2 = none

/-- `run` is in its loop, and these requests are parsed but not answered. -/
def outstanding : Point Req → Option (List Req)
  | .receiving => some []
  | .parsing reqs _ => some reqs
  | .responding req reqs _ => some (req :: reqs)
  | .chunking req reqs _ _ => some (req :: reqs)
  | _ => none

variable {r}

/-! ## What `clear` queues -/

theorem makeSendAddress_pid {c : Context σ μ} {p : Pid} {i : Nat} {a : SendAddress}
    (h : c.makeSendAddress p i = .ok a) : a.pid = p := by
  unfold Context.makeSendAddress at h
  split at h
  · cases h
  · split at h
    · cases h
    · cases h
      rfl

theorem drop_queueSend (c : Context σ μ) (a : SendAddress) (m : MessageBase μ) :
    ((c.queueSend a m).queue.drop c.queue.length).filterMap mail? = [(a.pid, m)] := by
  simp [Context.queueSend, mail?]

theorem clear_mail {c c' : Context σ μ} {buffs : List Bytes} (h : r.clear c buffs = .ok c') :
    (c'.queue.drop c.queue.length).filterMap mail? = r.mailOf buffs := by
  unfold clear at h
  unfold mailOf
  split at h
  next he =>
    cases h
    simp [he]
  next he =>
    split at h
    next => cases h
    next a ha =>
      cases h
      rw [drop_queueSend, makeSendAddress_pid ha, if_neg he]

/-! ## The log of a step -/

theorem queued_append (log more : List (Entry Req Resp μ)) :
    queued (log ++ more) = queued log ++ queued more :=
  List.filterMap_append

theorem ledger_append (log more : List (Entry Req Resp μ)) :
    r.ledger (log ++ more) = more.foldl r.add (r.ledger log) :=
  List.foldl_append

theorem queued_mails (qs : List (Pid × MessageBase μ)) :
    queued (qs.map fun q => (.queued q.1 q.2 : Entry Req Resp μ)) = qs := by
  induction qs with
  | nil => rfl
  | cons q qs ih =>
    rw [List.map_cons, queued, List.filterMap_cons]
    exact congrArg (q :: ·) ih

theorem foldl_mails (l : Ledger P Req Resp) (qs : List (Pid × MessageBase μ)) :
    (qs.map fun q => (.queued q.1 q.2 : Entry Req Resp μ)).foldl r.add l = l := by
  induction qs with
  | nil => rfl
  | cons q qs ih => exact ih

theorem queued_told (s : Session P Req σ μ) (act : Act Resp σ μ) : queued (r.told s act) = [] := by
  unfold told
  split <;> rfl

theorem queued_entries (s : Session P Req σ μ) (act : Act Resp σ μ) :
    queued (r.entries s act) = r.queuedBy s act := by
  rw [entries, queued_append, queued_told, List.nil_append, queued_mails]

theorem foldl_entries (l : Ledger P Req Resp) (s : Session P Req σ μ) (act : Act Resp σ μ) :
    (r.entries s act).foldl r.add l = (r.told s act).foldl r.add l := by
  rw [entries, List.foldl_append, foldl_mails]

/-- The step is one of the session's coroutine. -/
def own : Act Resp σ μ → Bool
  | .others _ | .destroy => false
  | _ => true

theorem queuedBy_own {s s' : Session P Req σ μ} {act : Act Resp σ μ} {notes : List (Note Req)}
    (h : r.step s act = some (s', notes)) (hact : own act = true) :
    r.queuedBy s act = (s'.context.queue.drop s.context.queue.length).filterMap mail? := by
  cases act <;> simp_all [queuedBy, own]

theorem queuedBy_same {s s' : Session P Req σ μ} {act : Act Resp σ μ} {notes : List (Note Req)}
    (h : r.step s act = some (s', notes)) (hact : own act = true)
    (hc : s'.context = s.context) : r.queuedBy s act = [] := by
  rw [queuedBy_own h hact, hc]
  simp

/-! ## The invariant -/

/-- The ledger and the messages sent fit the state of the session. -/
structure Kept (r : SessionRunner P Req Resp σ μ) (l : Ledger P Req Resp)
    (sent : List (Pid × MessageBase μ)) (s : Session P Req σ μ) : Prop where
  parser : l.parser = s.parser
  starting : s.point = .starting → sent = [] ∧ l.closed = [] ∧ l.parsed = []
  sent : (∀ e, s.point ≠ .terminated e) → ∃ first,
    sent = first ++ l.closed.flatMap (fun x => r.mailOf (r.pieces x)) ∧
    first <+: [r.hello] ∧ ((outstanding s.point).isSome = true ∨ l.closed ≠ [] → first = [r.hello])
  order : ∃ rest, l.parsed = l.closed.map (·.request) ++ rest ∧
    ∀ reqs, outstanding s.point = some reqs → rest = reqs
  clean : (outstanding s.point).isSome = true → ∀ x ∈ l.closed, r.Clean x
  chunking : ∀ {req reqs failed buffs}, s.point = .chunking req reqs failed buffs →
    ∃ resp yielded, l.open_ = some (req, resp, yielded) ∧ r.http.chunked resp = true ∧
      (r.http.convertHeaderOnly resp).2 = none ∧
      buffs = (r.http.convertHeaderOnly resp).1 ++ r.chunks yielded

theorem Kept.leave {l : Ledger P Req Resp} {sent : List (Pid × MessageBase μ)}
    {s s' : Session P Req σ μ} (h : r.Kept l sent s) (hp : s'.parser = s.parser)
    (ht : ∀ e, s.point ≠ .terminated e) (hs : s'.point ≠ .starting)
    (hout : outstanding s'.point = none) : r.Kept l sent s' where
  parser := h.parser.trans hp.symm
  starting he := absurd he hs
  sent _ := by
    obtain ⟨first, hsent, hfirst, hhello⟩ := h.sent ht
    exact ⟨first, hsent, hfirst, fun hin => hhello (.inr (hin.resolve_left (by simp [hout])))⟩
  order := by
    obtain ⟨rest, hrest, -⟩ := h.order
    exact ⟨rest, hrest, by simp [hout]⟩
  clean := by simp [hout]
  chunking he := by simp [he, outstanding] at hout

theorem Kept.goOn {l : Ledger P Req Resp} {sent : List (Pid × MessageBase μ)}
    {s s' : Session P Req σ μ} (h : r.Kept l sent s) (hp : s'.parser = s.parser)
    (hout : outstanding s'.point = outstanding s.point)
    (hin : (outstanding s.point).isSome = true)
    (hc : ∀ req reqs failed buffs, s'.point ≠ .chunking req reqs failed buffs) :
    r.Kept l sent s' where
  parser := h.parser.trans hp.symm
  starting he := by
    rw [← hout, he] at hin
    cases hin
  sent _ := by
    obtain ⟨first, hsent, hfirst, hhello⟩ := h.sent (by rintro e he; simp [he, outstanding] at hin)
    exact ⟨first, hsent, hfirst, fun _ => hhello (.inl hin)⟩
  order := by
    obtain ⟨rest, hrest, hreqs⟩ := h.order
    exact ⟨rest, hrest, fun reqs hr => hreqs reqs (hout ▸ hr)⟩
  clean _ := h.clean hin
  chunking he := absurd he (hc _ _ _ _)

theorem Kept.elsewhere {l : Ledger P Req Resp} {sent : List (Pid × MessageBase μ)}
    {s s' : Session P Req σ μ} (h : r.Kept l sent s) (hp : s'.parser = s.parser)
    (hpoint : s'.point = s.point) : r.Kept l sent s' where
  parser := h.parser.trans hp.symm
  starting := by simpa only [hpoint] using h.starting
  sent := by simpa only [hpoint] using h.sent
  order := by simpa only [hpoint] using h.order
  clean := by simpa only [hpoint] using h.clean
  chunking he := h.chunking (hpoint ▸ he)

/-- The scope of the batcher of an exchange ends: its message is the next one sent. -/
theorem Kept.endScope {l l' : Ledger P Req Resp} {sent : List (Pid × MessageBase μ)}
    {s s' : Session P Req σ μ} {act : Act Resp σ μ} {x : Exchange Req Resp} {reqs : List Req}
    {next : Point Req} {buffs : List Bytes} {notes notes' notes'' : List (Note Req)}
    (h : r.Kept l sent s) (hact : own act = true) (hstep : r.step s act = some (s', notes''))
    (hin : outstanding s.point = some (x.request :: reqs))
    (he : r.endScope s buffs next notes = (s', notes')) (hb : r.pieces x = buffs)
    (hl : l'.parser = l.parser ∧ l'.parsed = l.parsed ∧ l'.closed = l.closed ++ [x])
    (hnext : outstanding next = some reqs ∧ r.Clean x ∨ ∃ e, next = .threw e)
    (hc : ∀ req reqs failed buffs, next ≠ .chunking req reqs failed buffs) :
    r.Kept l' (sent ++ r.queuedBy s act) s' := by
  obtain ⟨hparser, hparsed, hclosed⟩ := hl
  obtain ⟨first, hsent, hfirst, hhello⟩ :=
    h.sent (by rintro e he; simp [he, outstanding] at hin)
  have hhello : first = [r.hello] := hhello (.inl (by simp [hin]))
  obtain ⟨rest, hrest, hreqs⟩ := h.order
  obtain rfl : rest = x.request :: reqs := hreqs _ hin
  have horder : l'.parsed = l'.closed.map (·.request) ++ reqs := by
    rw [hparsed, hrest, hclosed]
    simp
  have hstart : next ≠ .starting := by
    rintro rfl
    rcases hnext with ⟨hnext, -⟩ | ⟨e, hnext⟩ <;> cases hnext
  rcases endScope_cases he with ⟨c, hclear, rfl, -⟩ | ⟨e, -, rfl, -⟩
  · refine ⟨hparser.trans h.parser, fun hp => absurd hp hstart, fun _ => ⟨first, ?_, hfirst, fun _ =>
      hhello⟩, ⟨reqs, horder, ?_⟩, ?_, fun hp => absurd hp (hc _ _ _ _)⟩
    · rw [queuedBy_own hstep hact, hclosed, List.flatMap_append, hsent, List.append_assoc]
      simp [hb, clear_mail hclear]
    · intro reqs' hr
      rcases hnext with ⟨hnext, -⟩ | ⟨e, rfl⟩
      · exact Option.some.inj (hnext.symm.trans hr)
      · cases hr
    · intro hsome y hy
      rcases hnext with ⟨-, hx⟩ | ⟨e, rfl⟩
      · rw [hclosed, List.mem_append, List.mem_singleton] at hy
        rcases hy with hy | rfl
        · exact h.clean (by simp [hin]) y hy
        · exact hx
      · cases hsome
  · exact ⟨hparser.trans h.parser, by simp, fun ht => absurd rfl (ht e),
      ⟨reqs, horder, by simp [outstanding]⟩, by simp [outstanding], by simp⟩

/-! ## The steps -/

theorem start_kept {l : Ledger P Req Resp} {sent : List (Pid × MessageBase μ)}
    {s : Session P Req σ μ} {notes : List (Note Req)} (hp : s.point = .starting)
    (hstep : r.step s .start = some (r.start s, notes)) (h : r.Kept l sent s) :
    r.Kept l (sent ++ r.queuedBy s .start) (r.start s) := by
  obtain ⟨rfl, hclosed, hparsed⟩ := h.starting hp
  rw [queuedBy_own hstep rfl]
  unfold start
  split
  next e he =>
    refine ⟨h.parser, by simp, fun _ => ⟨[], ?_, List.nil_prefix, by simp [outstanding, hclosed]⟩,
      ⟨[], by simp [hclosed, hparsed], by simp [outstanding]⟩, by simp [outstanding], by simp⟩
    simp [hclosed]
  next a ha =>
    refine ⟨h.parser, ?_, fun _ => ⟨[r.hello], ?_, List.prefix_refl _, fun _ => rfl⟩,
      ⟨[], by simp [hclosed, hparsed], ?_⟩, by simp [hclosed], ?_⟩
    · cases s.keepAlive <;> simp [loopHead]
    · rw [drop_queueSend, makeSendAddress_pid ha, hclosed]
      rfl
    · cases s.keepAlive <;> simp [loopHead, outstanding]
    · cases s.keepAlive <;> simp [loopHead]

theorem pieces_whole {req : Req} {resp : Resp} (hc : r.http.chunked resp = false) :
    r.pieces ⟨req, resp, [], true⟩ = (r.http.convert resp).1 := by
  simp [pieces, hc]

theorem respond_kept {l : Ledger P Req Resp} {sent : List (Pid × MessageBase μ)}
    {s s' : Session P Req σ μ} {req : Req} {reqs : List Req} {failed : Option String} {resp : Resp}
    {notes : List (Note Req)} (hp : s.point = .responding req reqs failed)
    (hstep : r.step s (.response resp) = some (s', notes))
    (he : r.respond s req reqs failed (r.prepare req resp) = (s', notes)) (h : r.Kept l sent s) :
    r.Kept (r.add l (.response req (r.prepare req resp) : Entry Req Resp μ))
      (sent ++ r.queuedBy s (.response resp)) s' := by
  generalize r.prepare req resp = prepared at he
  have hin : outstanding s.point = some (req :: reqs) := by rw [hp]; rfl
  unfold respond at he
  unfold add
  split at he
  next hchunked =>
    split at he
    next pieces hconv =>
      cases he
      rw [queuedBy_same hstep rfl rfl, List.append_nil]
      simp only [hchunked, hconv, if_true, Option.isNone_none]
      obtain ⟨first, hsent, hfirst, hhello⟩ := h.sent (by simp [hp])
      obtain ⟨rest, hrest, hreqs⟩ := h.order
      refine ⟨h.parser, by simp, fun _ => ⟨first, hsent, hfirst, fun _ => hhello (.inl (by simp [hin]))⟩,
        ⟨rest, hrest, fun _ hr => hreqs _ (hin.trans hr)⟩, fun _ => h.clean (by simp [hin]), ?_⟩
      intro req' reqs' failed' buffs hp'
      cases hp'
      exact ⟨prepared, [], rfl, hchunked, by rw [hconv], by simp [hconv, chunks]⟩
    next pieces e hconv =>
      simp only [hchunked, hconv, if_true, Option.isNone_some, Bool.false_eq_true, if_false]
      refine h.endScope (x := ⟨req, prepared, [], false⟩) rfl hstep hin he ?_ ⟨rfl, rfl, rfl⟩
        (.inr ⟨e, rfl⟩) (by simp)
      simp [SessionRunner.pieces, hchunked, hconv, chunks]
  next hchunked =>
    have hchunked : r.http.chunked prepared = false := by simpa using hchunked
    simp only [hchunked, Bool.false_eq_true, if_false]
    split at he
    next pieces hconv =>
      refine h.endScope (x := ⟨req, prepared, [], true⟩) rfl hstep hin he ?_ ⟨rfl, rfl, rfl⟩
        (.inl ⟨rfl, ?_⟩) (by simp)
      · rw [pieces_whole hchunked, hconv]
      · simp [Clean, hchunked, hconv]
    next pieces e hconv =>
      refine h.endScope (x := ⟨req, prepared, [], true⟩) rfl hstep hin he ?_ ⟨rfl, rfl, rfl⟩
        (.inr ⟨e, rfl⟩) (by simp)
      rw [pieces_whole hchunked, hconv]

theorem close_kept {l : Ledger P Req Resp} {sent : List (Pid × MessageBase μ)}
    {s s' : Session P Req σ μ} {act : Act Resp σ μ} {req : Req} {reqs : List Req}
    {failed : Option String} {buffs : List Bytes} {next : Point Req}
    {notes notes' notes'' : List (Note Req)} (ended : Bool) (h : r.Kept l sent s)
    (hp : s.point = .chunking req reqs failed buffs) (hact : own act = true)
    (hstep : r.step s act = some (s', notes''))
    (he : r.endScope s (buffs ++ if ended then r.http.makeChunkLast else []) next notes =
      (s', notes'))
    (hnext : next = .parsing reqs failed ∧ ended = true ∨ ∃ e, next = .threw e) :
    r.Kept (close l ended) (sent ++ r.queuedBy s act) s' := by
  obtain ⟨resp, yielded, hopen, hchunked, hconv, rfl⟩ := h.chunking hp
  have hin : outstanding s.point = some (req :: reqs) := by rw [hp]; rfl
  have hclose : close l ended =
      { l with open_ := none, closed := l.closed ++ [⟨req, resp, yielded, ended⟩] } := by
    simp only [close, hopen]
  rw [hclose]
  refine h.endScope (x := ⟨req, resp, yielded, ended⟩) hact hstep hin he ?_ ⟨rfl, rfl, rfl⟩ ?_ ?_
  · simp [SessionRunner.pieces, hchunked]
  · rcases hnext with ⟨rfl, hended⟩ | ⟨e, rfl⟩
    · exact .inl ⟨rfl, by simp [Clean, hchunked, hconv, hended]⟩
    · exact .inr ⟨e, rfl⟩
  · rintro req' reqs' failed' buffs' rfl
    rcases hnext with ⟨hnext, -⟩ | ⟨e, hnext⟩ <;> cases hnext

theorem told_eq {s : Session P Req σ μ} {act : Act Resp σ μ} {p : Point Req} (hp : s.point = p) :
    r.told s act = r.told { s with point := p } act := by
  subst hp
  rfl

theorem told_others (s : Session P Req σ μ) (c : Context σ μ) : r.told s (.others c) = [] := by
  unfold told
  split <;> simp_all

theorem told_destroy (s : Session P Req σ μ) : r.told s .destroy = [] := by
  unfold told
  split <;> simp_all

theorem step_kept {l : Ledger P Req Resp} {sent : List (Pid × MessageBase μ)}
    {s s' : Session P Req σ μ} {act : Act Resp σ μ} {notes : List (Note Req)}
    (hstep : r.step s act = some (s', notes)) (h : r.Kept l sent s) :
    r.Kept ((r.told s act).foldl r.add l) (sent ++ r.queuedBy s act) s' := by
  cases step_moves hstep with
  | start hp =>
    rw [told_eq hp]
    exact start_kept hp hstep h
  | @received data q hp hq =>
    rw [told_eq hp, queuedBy_same hstep rfl rfl, List.append_nil]
    obtain ⟨first, hsent, hfirst, hhello⟩ := h.sent (by simp [hp])
    obtain ⟨rest, hrest, hreqs⟩ := h.order
    obtain rfl : rest = [] := hreqs [] (by rw [hp]; rfl)
    simp only [told, List.foldl_cons, List.foldl_nil, add, h.parser, hq]
    refine ⟨rfl, by simp, fun _ => ⟨first, hsent, hfirst, fun _ => hhello (.inl (by rw [hp]; rfl))⟩,
      ⟨q.requests, by simp [hrest], fun _ hr => Option.some.inj hr⟩,
      fun _ => h.clean (by rw [hp]; rfl), by simp⟩
  | again hp =>
    rw [told_eq hp, queuedBy_same hstep rfl rfl, List.append_nil]
    cases hk : s.keepAlive with
    | true =>
      refine h.goOn rfl ?_ ?_ (by simp [loopHead])
      · rw [hp]
        rfl
      · rw [hp]
        rfl
    | false => exact h.leave rfl (by simp [hp]) (by simp [loopHead]) rfl
  | failed hp =>
    rw [told_eq hp, queuedBy_same hstep rfl rfl, List.append_nil]
    exact h.leave rfl (by simp [hp]) (by simp) rfl
  | request hp =>
    rw [told_eq hp, queuedBy_same hstep rfl rfl, List.append_nil]
    exact h.goOn rfl (by rw [hp]; rfl) (by rw [hp]; rfl) (by simp)
  | respond hp he =>
    rw [told_eq hp]
    exact respond_kept hp hstep he h
  | raise hp =>
    rw [told_eq hp, queuedBy_same hstep rfl rfl, List.append_nil]
    exact h.leave rfl (by simp [hp]) (by simp) rfl
  | @chunk req reqs failed buffs buff hp =>
    rw [told_eq hp, queuedBy_same hstep rfl rfl, List.append_nil]
    obtain ⟨first, hsent, hfirst, hhello⟩ := h.sent (by simp [hp])
    obtain ⟨rest, hrest, hreqs⟩ := h.order
    obtain ⟨resp, yielded, hopen, hchunked, hconv, rfl⟩ := h.chunking hp
    simp only [told, List.foldl_cons, List.foldl_nil, add, hopen, Option.map_some]
    refine ⟨h.parser, by simp, fun _ => ⟨first, hsent, hfirst, fun _ => hhello (.inl (by rw [hp]; rfl))⟩,
      ⟨rest, hrest, fun _ hr => hreqs _ (by rw [hp]; exact hr)⟩,
      fun _ => h.clean (by rw [hp]; rfl), ?_⟩
    intro req' reqs' failed' buffs' hp'
    cases hp'
    exact ⟨resp, yielded ++ [buff], rfl, hchunked, hconv, by simp [chunks]⟩
  | chunksEnd hp he =>
    rw [told_eq hp]
    exact close_kept true h hp rfl hstep he (.inl ⟨rfl, rfl⟩)
  | raiseChunked hp he =>
    rw [told_eq hp]
    exact close_kept false h hp rfl hstep (by simpa using he) (.inr ⟨_, rfl⟩)
  | others hp hc =>
    rw [told_others, show r.queuedBy s (.others _) = [] from rfl, List.append_nil]
    exact h.elsewhere rfl rfl
  | destroy hp he =>
    have hrunning : ∀ e, s.point ≠ .terminated e := by
      rintro e ht
      simp [ht, resting] at hp
    rw [told_destroy, show r.queuedBy s .destroy = [] from rfl, List.append_nil]
    obtain ⟨c, -, ⟨_, _, _, buffs, -, he⟩ | ⟨rfl, -⟩⟩ := destroy_cases he
    · rcases endScope_cases he with ⟨d, -, rfl, -⟩ | ⟨e, -, rfl, -⟩
      · exact h.leave rfl hrunning (by simp) rfl
      · exact h.leave rfl hrunning (by simp) rfl
    · exact h.leave rfl hrunning (by simp) rfl

/-! ## Every run -/

theorem run_kept {ok : Session P Req σ μ → Act Resp σ μ → Prop} {c : Context σ μ}
    {log : List (Entry Req Resp μ)} {s : Session P Req σ μ}
    (h : (r.system.observe r.entries).Run ok (r.initial c) log s) :
    r.Kept (r.ledger log) (queued log) s := by
  refine h.invariant (fun log s => r.Kept (r.ledger log) (queued log) s) ?_ ?_
  · have hout : outstanding (r.initial c).point = none := rfl
    exact ⟨rfl, fun _ => ⟨rfl, rfl, rfl⟩, fun _ => ⟨[], rfl, List.nil_prefix, by simp [hout, ledger]⟩,
      ⟨[], rfl, by simp [hout]⟩, by simp [hout], by simp [initial]⟩
  · intro log s act s' out hs _ hst
    obtain ⟨rfl, notes, hstep⟩ := System.observe_step hst
    rw [ledger_append, queued_append, foldl_entries, queued_entries]
    exact step_kept hstep hs

/-- The messages of `http` are serialised by `sr`. -/
structure Serialises {S : Type} (http : Http Req Resp) (sr : Serializer Resp S) : Prop where
  convert : ∀ resp, ∃ fuel, sr.convert fuel resp = some (http.convert resp)
  convertHeaderOnly : ∀ resp, ∃ fuel,
    sr.convertHeaderOnly fuel resp = some (http.convertHeaderOnly resp)

/-- The octets of the response of an exchange: the message, or the header, a chunk for each Buffer
yielded and the last chunk. -/
def wire {S : Type} (r : SessionRunner P Req Resp σ μ) (sr : Serializer Resp S)
    (v : Serializer.View S) (x : Exchange Req Resp) : Bytes :=
  if r.http.chunked x.response then
    v.header (sr.make x.response) ++ x.yielded.flatMap Chunked.chunk ++ Chunked.last
  else sr.octets v x.response

section
variable {S : Type} {sr : Serializer Resp S} {v : Serializer.View S}

theorem flatten_pieces (hsr : sr.Lawful v) (hser : Serialises r.http sr)
    (hheader : ∀ resp, v.header (sr.make resp) ≠ [])
    (hchunk : ∀ b, (r.http.makeChunk b).flatten = Chunked.chunk b)
    (hlast : r.http.makeChunkLast.flatten = Chunked.last) {x : Exchange Req Resp}
    (hx : r.Clean x) : (r.pieces x).flatten = r.wire sr v x := by
  unfold Clean at hx
  unfold pieces wire
  split at hx
  next hchunked =>
    obtain ⟨hconv, hended⟩ := hx
    obtain ⟨fuel, hfuel⟩ := hser.convertHeaderOnly x.response
    have hpair : r.http.convertHeaderOnly x.response =
        ((r.http.convertHeaderOnly x.response).1, none) := by rw [← hconv]
    rw [hpair] at hfuel
    rw [if_pos hchunked, if_pos hchunked, if_pos hended, List.append_assoc, List.flatten_append,
      flatten_body hchunk hlast, Serializer.convertHeaderOnly_octets hsr (hheader _) hfuel,
      List.append_assoc]
  next hchunked =>
    obtain ⟨fuel, hfuel⟩ := hser.convert x.response
    have hpair : r.http.convert x.response = ((r.http.convert x.response).1, none) := by rw [← hx]
    rw [hpair] at hfuel
    rw [if_neg hchunked, if_neg hchunked, Serializer.convert_octets hsr hfuel]

theorem wire_ne_nil (hheader : ∀ resp, v.header (sr.make resp) ≠ []) (x : Exchange Req Resp) :
    r.wire sr v x ≠ [] := by
  unfold wire
  split
  · simp [hheader]
  · simp [Serializer.octets, hheader]

theorem mailOf_pieces {x : Exchange Req Resp} (hx : (r.pieces x).flatten ≠ []) :
    r.mailOf (r.pieces x) = [(r.s_, .user (r.batch (r.pieces x)))] := by
  unfold mailOf
  rw [if_neg]
  rintro he
  rw [List.isEmpty_iff] at he
  simp [he] at hx

/-- **Responses in the order of the requests.** The exchanges closed so far are those of the first
requests parsed, in order, and what the session has queued is its address and then the Buffers of
each exchange. When it waits for the next Buffer every request parsed was answered, each by one
message to the socket that carries the octets of the response. -/
theorem responses_in_order (hsr : sr.Lawful v) (hser : Serialises r.http sr)
    (hheader : ∀ resp, v.header (sr.make resp) ≠ [])
    (hchunk : ∀ b, (r.http.makeChunk b).flatten = Chunked.chunk b)
    (hlast : r.http.makeChunkLast.flatten = Chunked.last) {c : Context σ μ}
    {log : List (Entry Req Resp μ)} {s : Session P Req σ μ}
    (h : (r.system.observe r.entries).Run System.anyStep (r.initial c) log s) :
    (r.ledger log).closed.map (·.request) <+: (r.ledger log).parsed ∧
    ((∀ e, s.point ≠ .terminated e) → ∃ first, first <+: [r.hello] ∧
      ((outstanding s.point).isSome = true ∨ (r.ledger log).closed ≠ [] → first = [r.hello]) ∧
      queued log = first ++ (r.ledger log).closed.flatMap fun x => r.mailOf (r.pieces x)) ∧
    (s.point = .receiving →
      (r.ledger log).closed.map (·.request) = (r.ledger log).parsed ∧
      queued log = r.hello :: (r.ledger log).closed.map
        (fun x => (r.s_, .user (r.batch (r.pieces x)))) ∧
      ∀ x ∈ (r.ledger log).closed, (r.pieces x).flatten = r.wire sr v x) := by
  have hk := run_kept h
  obtain ⟨rest, hrest, hreqs⟩ := hk.order
  refine ⟨hrest ▸ List.prefix_append _ _, fun ht => ?_, fun hp => ?_⟩
  · obtain ⟨first, hsent, hfirst, hhello⟩ := hk.sent ht
    exact ⟨first, hfirst, hhello, hsent⟩
  · have hin : outstanding s.point = some [] := by rw [hp]; rfl
    obtain rfl : rest = [] := hreqs [] hin
    obtain ⟨first, hsent, -, hhello⟩ := hk.sent (by simp [hp])
    have hbytes : ∀ x ∈ (r.ledger log).closed, (r.pieces x).flatten = r.wire sr v x := fun x hx =>
      flatten_pieces hsr hser hheader hchunk hlast (hk.clean (by simp [hin]) x hx)
    have hmail : ∀ x ∈ (r.ledger log).closed,
        r.mailOf (r.pieces x) = [(r.s_, .user (r.batch (r.pieces x)))] := fun x hx =>
      mailOf_pieces (hbytes x hx ▸ wire_ne_nil hheader x)
    refine ⟨by simp [hrest], ?_, hbytes⟩
    rw [hsent, hhello (.inl (by simp [hin])), List.singleton_append, List.flatMap_congr hmail,
      List.map_eq_flatMap]

end

end SessionRunner

/-! ## A serializer of two buffers -/

/-- The header and the body that are left, and whether the serializer is split. A whole response has
the body `ok`. -/
def twoBuffers : Serializer Bool (Bytes × Bytes × Bool) where
  make resp := ([72, 84, 84, 80], if resp then [] else [111, 107], false)
  split s := (s.1, s.2.1, true)
  isDone s := s.1.isEmpty && s.2.1.isEmpty
  isHeaderDone s := s.1.isEmpty
  next s := (s, some (.success, if s.2.2 && !s.1.isEmpty then [s.1] else [s.1, s.2.1]))
  consume s n := (s.1.drop n, s.2.1.drop (n - s.1.length), s.2.2)

def twoBuffersView : Serializer.View (Bytes × Bytes × Bool) where
  header s := s.1
  body s := s.2.1
  isSplit s := s.2.2
  rank s := s.1.length + s.2.1.length

theorem twoBuffers_lawful : twoBuffers.Lawful twoBuffersView where
  done {s} h := by
    rw [← List.isEmpty_iff, ← List.isEmpty_iff]
    exact Bool.and_eq_true_iff.mp h
  headerDone s := List.isEmpty_iff
  next _ := ⟨rfl, rfl, rfl⟩
  hands {s s' ec bs} _ hn := by
    obtain ⟨header, body, split⟩ := s
    cases hn
    cases split <;> cases header <;> simp [Serializer.View.offered, twoBuffersView]
  consume s n := ⟨rfl, rfl, rfl⟩
  split s := ⟨rfl, rfl⟩
  progress {s} hd := by
    obtain ⟨header, body, split⟩ := s
    cases split <;> cases header <;> cases body <;>
      simp_all [twoBuffers, twoBuffersView, Serializer.handed]

def serialisedHttp : Http Bytes Bool :=
  { chunkedHttp with
    convert := fun resp => (twoBuffers.convert 7 resp).getD ([], none)
    convertHeaderOnly := fun resp => (twoBuffers.convertHeaderOnly 7 resp).getD ([], none) }

def serialisedSession : SessionRunner Bytes Bytes Bool Unit (List Bytes) :=
  { plainSession with http := serialisedHttp }

namespace SessionRunner

theorem serialisedHttp_serialises : Serialises serialisedHttp twoBuffers where
  convert resp := ⟨7, by cases resp <;> rfl⟩
  convertHeaderOnly resp := ⟨7, by cases resp <;> rfl⟩

/-- A response that is not chunked, then one in two chunks. -/
theorem two_responses_in_order : ∃ log s,
    (serialisedSession.system.observe serialisedSession.entries).Run System.anyStep
      (serialisedSession.initial linkedContext) log s ∧ s.point = .receiving ∧
      (serialisedSession.ledger log).parsed = [getRoot, getOnce] ∧
      (queued log).length = 3 ∧
      ∀ x ∈ (serialisedSession.ledger log).closed,
        (serialisedSession.pieces x).flatten = serialisedSession.wire twoBuffers twoBuffersView x := by
  obtain ⟨log, s, hrun, hp, hparsed⟩ := System.exec_reaches
    (M := serialisedSession.system.observe serialisedSession.entries) (g := fun _ _ => true)
    (G := System.anyStep) (fun _ _ _ => trivial)
    (w := .start :: answerOne getRoot ++
      [.received getOnce, .next, .response true, .chunk [1, 2], .chunk [3], .chunksEnd, .next])
    (s := serialisedSession.initial linkedContext)
    (P := fun log s => s.point = .receiving ∧
      (serialisedSession.ledger log).parsed = [getRoot, getOnce]) (by decide)
  obtain ⟨-, -, hall⟩ := responses_in_order twoBuffers_lawful serialisedHttp_serialises
    (fun _ => List.cons_ne_nil _ _) chunkedHttp_makeChunk rfl hrun
  obtain ⟨hclosed, hqueued, hbytes⟩ := hall hp
  refine ⟨log, s, hrun, hp, hparsed, ?_, hbytes⟩
  have hlen := congrArg List.length hclosed
  rw [hparsed, List.length_map] at hlen
  simp [hqueued, hlen]

end SessionRunner

end Eslang.Www
