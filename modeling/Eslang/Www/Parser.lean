import Mathlib

/-! # `WwwParser::push` (`eslang_www/Www.cpp`)

`push` hands each received `Buffer` to the request parser of Beast, which is a parameter, and yields
the requests that become complete. `currentRead_` is a `multi_buffer`: `prepare` makes room behind
its readable bytes and `consume` drops readable bytes. The bytes copied into the prepared room are
never committed, so nothing is ever readable and the loop of `push` runs once for each `Buffer`:
what `put` leaves unconsumed is lost. -/
namespace Eslang.Www
set_option autoImplicit false

abbrev Bytes := List UInt8

/-- The `error_code` that `put` leaves. -/
inductive ErrorCode
  | success
  | needMore
  | other (message : String)
deriving DecidableEq, Repr

/-- `http::request_parser` with states `P`: `put` returns the new state, the number of bytes
consumed and the error code. -/
structure RequestParser (P : Type) where
  emplace : P
  put : P → Bytes → P × Nat × ErrorCode
  isDone : P → Bool

/-- `multi_buffer`: the readable bytes, and the room behind them. -/
structure MultiBuffer where
  input : Bytes := []
  output : Bytes := []
deriving DecidableEq, Repr

namespace MultiBuffer

def size (b : MultiBuffer) : Nat := b.input.length

/-- `buffer_copy(prepare(data.size()), data)`: the copy goes into the room, which `commit` alone
would make readable. -/
def prepareCopy (b : MultiBuffer) (data : Bytes) : MultiBuffer := { b with output := data }

def consume (b : MultiBuffer) (n : Nat) : MultiBuffer := { b with input := b.input.drop n }

end MultiBuffer

structure WwwParser (P : Type) where
  currentRead_ : MultiBuffer := {}
  parser_ : P

/-- What a call of `push` did: the parser it leaves, the requests it yielded in order, and the
exception that ended it. -/
structure Pushed (P Req : Type) where
  parser : WwwParser P
  requests : List Req := []
  threw : Option String := none

section
variable {P Req : Type} (beast : RequestParser P) (release : P → Req)

/-- One pass of the loop body of `push`, without its exit test. -/
def pushOnce (w : WwwParser P) (data : Bytes) : Pushed P Req × Bool :=
  let r := beast.put w.parser_ data
  let w := { w with
    currentRead_ := (w.currentRead_.prepareCopy data).consume r.2.1
    parser_ := r.1 }
  match r.2.2 with
  | .needMore => ({ parser := w }, true)
  | .other message => ({ parser := w, threw := some ("Bad error code:" ++ message) }, true)
  | .success =>
      if beast.isDone w.parser_ then
        ({ parser := { w with parser_ := beast.emplace }, requests := [release w.parser_] }, false)
      else ({ parser := w }, false)

/-- `WwwParser::push`, run to its end within `fuel` passes of the loop. -/
def push (data : Bytes) : Nat → WwwParser P → Option (Pushed P Req)
  | 0, _ => none
  | fuel + 1, w =>
      let r := pushOnce beast release w data
      if r.2 || r.1.parser.currentRead_.size == 0 then some r.1
      else (push data fuel r.1.parser).map fun q => { q with requests := r.1.requests ++ q.requests }

/-- The Buffers of a connection go to `push` in order; an exception ends the session. The result is
the requests yielded. -/
def pushAll (fuel : Nat) : WwwParser P → List Bytes → Option (List Req)
  | _, [] => some []
  | w, data :: rest =>
      match push beast release data fuel w with
      | none => none
      | some r =>
          match r.threw with
          | some _ => some r.requests
          | none => (pushAll fuel r.parser rest).map (r.requests ++ ·)

/-- The state in which the request parser meets the next `Buffer`. -/
def afterPut (p : P) (data : Bytes) : P :=
  if beast.isDone (beast.put p data).1 then beast.emplace else (beast.put p data).1

/-- Every `Buffer` is consumed whole by the `put` that gets it. -/
def Swallows : P → List Bytes → Prop
  | _, [] => True
  | p, data :: rest =>
      (beast.put p data).2.1 = data.length ∧ Swallows (afterPut beast p data) rest

instance decidableSwallows (p : P) (bufs : List Bytes) : Decidable (Swallows beast p bufs) :=
  match bufs with
  | [] => isTrue trivial
  | data :: rest =>
      haveI := decidableSwallows (afterPut beast p data) rest
      inferInstanceAs (Decidable (_ ∧ _))

end

/-- What the code relies on of Beast. `consumed p` is what a parser in state `p` has consumed of
its request and `isRequest` are the valid requests. -/
structure Lawful {P : Type} (beast : RequestParser P) (isRequest : Bytes → Prop)
    (consumed : P → Bytes) : Prop where
  /-- No request is empty, and none is the beginning of another. -/
  nonempty : ¬ isRequest []
  prefixFree : ∀ {r r'}, isRequest r → isRequest r' → r <+: r' → r = r'
  emplace : consumed beast.emplace = []
  /-- `put` consumes a prefix of the bytes it is given and returns its length. -/
  put_length : ∀ p data, (beast.put p data).2.1 ≤ data.length
  put_consumed : ∀ p data,
    consumed (beast.put p data).1 = consumed p ++ data.take (beast.put p data).2.1
  /-- It never consumes beyond the end of the current request. -/
  put_within : ∀ {p data r}, isRequest r → consumed p <+: r → r <+: consumed p ++ data →
    consumed (beast.put p data).1 <+: r
  /-- `need_more` means that the request is not complete. -/
  put_needMore : ∀ {p data}, (beast.put p data).2.2 = .needMore →
    ¬ isRequest (consumed (beast.put p data).1)
  /-- Bytes of a valid request raise no other error. -/
  put_accepts : ∀ {p data r message}, isRequest r → consumed p <+: r →
    consumed p ++ data <+: r ∨ r <+: consumed p ++ data → (beast.put p data).2.2 ≠ .other message
  isDone_iff : ∀ p, beast.isDone p = true ↔ isRequest (consumed p)

/-! ## One pass for each Buffer -/

section
variable {P Req : Type} {beast : RequestParser P} {release : P → Req}

theorem pushOnce_currentRead (release : P → Req) {w : WwwParser P} (hw : w.currentRead_.input = [])
    (data : Bytes) :
    (pushOnce beast release w data).1.parser.currentRead_.input = [] := by
  unfold pushOnce
  dsimp only
  split
  · simp [MultiBuffer.consume, MultiBuffer.prepareCopy, hw]
  · simp [MultiBuffer.consume, MultiBuffer.prepareCopy, hw]
  · split <;> simp [MultiBuffer.consume, MultiBuffer.prepareCopy, hw]

/-- With nothing readable, `push` ends after its first pass. -/
theorem push_eq {w : WwwParser P} (hw : w.currentRead_.input = []) (data : Bytes) (fuel : Nat) :
    push beast release data (fuel + 1) w = some (pushOnce beast release w data).1 := by
  have hsize : (pushOnce beast release w data).1.parser.currentRead_.size = 0 := by
    rw [MultiBuffer.size, pushOnce_currentRead release hw, List.length_nil]
  simp [push, hsize]

theorem pushOnce_other (release : P → Req) {w : WwwParser P} {data : Bytes} {message : String}
    (h : (beast.put w.parser_ data).2.2 = .other message) :
    (pushOnce beast release w data).1.requests = [] ∧
      (pushOnce beast release w data).1.threw = some ("Bad error code:" ++ message) := by
  simp [pushOnce, h]

/-- The request that a pass with a successful `put` yields, if any. -/
def completed (beast : RequestParser P) (release : P → Req) (p : P) (data : Bytes) : List Req :=
  if beast.isDone (beast.put p data).1 then [release (beast.put p data).1] else []

theorem pushOnce_lawful (release : P → Req) {isRequest : Bytes → Prop} {consumed : P → Bytes}
    (law : Lawful beast isRequest consumed) {w : WwwParser P} {data : Bytes}
    (h : ∀ message, (beast.put w.parser_ data).2.2 ≠ .other message) :
    (pushOnce beast release w data).1.threw = none ∧
      (pushOnce beast release w data).1.parser.parser_ = afterPut beast w.parser_ data ∧
      (pushOnce beast release w data).1.requests = completed beast release w.parser_ data := by
  cases hec : (beast.put w.parser_ data).2.2 with
  | other message => exact absurd hec (h message)
  | needMore =>
    have hd : beast.isDone (beast.put w.parser_ data).1 = false := by
      rw [← Bool.not_eq_true, law.isDone_iff]
      exact law.put_needMore hec
    simp [pushOnce, hec, afterPut, completed, hd]
  | success =>
    cases hd : beast.isDone (beast.put w.parser_ data).1 <;>
      simp [pushOnce, hec, afterPut, completed, hd]

theorem pushAll_other {w : WwwParser P} (hw : w.currentRead_.input = []) {data : Bytes}
    {message : String} (h : (beast.put w.parser_ data).2.2 = .other message) (rest : List Bytes)
    (fuel : Nat) : pushAll beast release (fuel + 1) w (data :: rest) = some [] := by
  obtain ⟨hr, ht⟩ := pushOnce_other release h
  rw [pushAll, push_eq hw]
  simp only [ht, hr]

theorem pushAll_lawful (release : P → Req) {isRequest : Bytes → Prop} {consumed : P → Bytes}
    (law : Lawful beast isRequest consumed) {w : WwwParser P} (hw : w.currentRead_.input = [])
    {data : Bytes} (h : ∀ message, (beast.put w.parser_ data).2.2 ≠ .other message)
    (rest : List Bytes) (fuel : Nat) :
    ∃ w' : WwwParser P, w'.currentRead_.input = [] ∧ w'.parser_ = afterPut beast w.parser_ data ∧
      pushAll beast release (fuel + 1) w (data :: rest) =
        (pushAll beast release (fuel + 1) w' rest).map
          (completed beast release w.parser_ data ++ ·) := by
  obtain ⟨ht, hp, hr⟩ := pushOnce_lawful release law h
  refine ⟨_, pushOnce_currentRead release hw data, hp, ?_⟩
  rw [pushAll, push_eq hw]
  simp only [ht, hr]

end

/-! ## Nothing is lost when every Buffer is consumed whole -/

section
variable {P Req : Type} {beast : RequestParser P} {isRequest : Bytes → Prop} {consumed : P → Bytes}
  (law : Lawful beast isRequest consumed) (message : Bytes → Req)
include law

/-- The parser stands inside the first of the requests that are still to come. -/
def Inside (read : Bytes) : List Bytes → Prop
  | [] => read = []
  | r :: _ => read <+: r ∧ read ≠ r

theorem inside_nil {rs : List Bytes} (hrs : ∀ r ∈ rs, isRequest r) : Inside [] rs := by
  cases rs with
  | nil => rfl
  | cons r rs =>
    refine ⟨List.nil_prefix, ?_⟩
    rintro rfl
    exact law.nonempty (hrs [] (by simp))

theorem consumed_whole {p : P} {data : Bytes} (hn : (beast.put p data).2.1 = data.length) :
    consumed (beast.put p data).1 = consumed p ++ data := by
  rw [law.put_consumed, hn, List.take_length]

theorem consumed_prefix {p : P} {data r : Bytes} {tail rest : Bytes} (hr : isRequest r)
    (hp : consumed p <+: r) (hn : (beast.put p data).2.1 = data.length)
    (hcut : consumed p ++ data ++ rest = r ++ tail) : consumed p ++ data <+: r := by
  have hd : consumed p ++ data <+: r ++ tail := hcut ▸ List.prefix_append _ _
  rcases List.prefix_or_prefix_of_prefix hd (List.prefix_append r tail) with h | h
  · exact h
  · rw [← consumed_whole law hn]
    exact law.put_within hr hp h

/-- From inside the first of the requests `rs`, Buffers that carry just the rest of them and are
consumed whole yield them all. -/
theorem pushAll_swallowed {rs bufs : List Bytes} {w : WwwParser P}
    (hw : w.currentRead_.input = []) (hrs : ∀ r ∈ rs, isRequest r)
    (hin : Inside (consumed w.parser_) rs) (hcut : consumed w.parser_ ++ bufs.flatten = rs.flatten)
    (hs : Swallows beast w.parser_ bufs) (fuel : Nat) :
    pushAll beast (fun p => message (consumed p)) (fuel + 1) w bufs = some (rs.map message) := by
  induction bufs generalizing w rs with
  | nil =>
    cases rs with
    | nil => rfl
    | cons r rs =>
      have hlen := congrArg List.length hcut
      have hlt := hin.1.length_le
      simp only [List.flatten_nil, List.append_nil, List.flatten_cons, List.length_append] at hlen
      exact absurd (hin.1.eq_of_length (by omega)) hin.2
  | cons data rest ih =>
    obtain ⟨hn, hs⟩ := hs
    have hwhole := consumed_whole law hn
    rw [List.flatten_cons, ← List.append_assoc] at hcut
    cases rs with
    | nil =>
      obtain ⟨hpd, hrest⟩ := List.append_eq_nil_iff.mp hcut
      obtain ⟨hp, hd⟩ := List.append_eq_nil_iff.mp hpd
      have hnd : beast.isDone (beast.put w.parser_ data).1 = false := by
        rw [← Bool.not_eq_true, law.isDone_iff, hwhole, hp, hd]
        exact law.nonempty
      by_cases he : ∃ m, (beast.put w.parser_ data).2.2 = .other m
      · obtain ⟨m, hm⟩ := he
        exact pushAll_other hw hm rest fuel
      · obtain ⟨w', hw', hp', heq⟩ := pushAll_lawful
          (fun p => message (consumed p)) law hw (not_exists.mp he) rest fuel
        have hc : consumed w'.parser_ = [] := by
          rw [hp', afterPut, if_neg (by simp [hnd]), hwhole, hpd]
        have hnone := ih hw' hrs hc (by simp [hc, hrest]) (hp' ▸ hs)
        rw [heq, hnone]
        simp [completed, hnd]
    | cons r rs =>
      have hr : isRequest r := hrs r (by simp)
      have hpre := consumed_prefix law hr hin.1 hn hcut
      obtain ⟨w', hw', hp', heq⟩ := pushAll_lawful (fun p => message (consumed p)) law hw
        (fun m => law.put_accepts hr hin.1 (.inl hpre)) rest fuel
      rw [heq]
      by_cases hdone : consumed w.parser_ ++ data = r
      · have hd : beast.isDone (beast.put w.parser_ data).1 = true := by
          rw [law.isDone_iff, hwhole, hdone]
          exact hr
        have hc : consumed w'.parser_ = [] := by simp [hp', afterPut, hd, law.emplace]
        have hrest : rest.flatten = rs.flatten := by
          rw [hdone, List.flatten_cons] at hcut
          exact List.append_cancel_left hcut
        have hrs' : ∀ r ∈ rs, isRequest r := fun r h => hrs r (by simp [h])
        rw [ih hw' hrs' (hc ▸ inside_nil law hrs') (by simp [hc, hrest]) (hp' ▸ hs)]
        simp [completed, hd, hwhole, hdone]
      · have hd : beast.isDone (beast.put w.parser_ data).1 = false := by
          rw [← Bool.not_eq_true, law.isDone_iff, hwhole]
          intro h
          exact hdone (law.prefixFree h hr hpre)
        have hc : consumed w'.parser_ = consumed w.parser_ ++ data := by
          simp [hp', afterPut, hd, hwhole]
        rw [ih hw' hrs (hc ▸ ⟨hpre, hdone⟩) (by rw [hc]; exact hcut) (hp' ▸ hs)]
        simp [completed, hd]

/-! ## What is lost otherwise -/

theorem swallows_empty {bufs : List Bytes} (h : bufs.flatten = []) (p : P) :
    Swallows beast p bufs := by
  induction bufs generalizing p with
  | nil => trivial
  | cons data rest ih =>
    obtain ⟨rfl, hrest⟩ : data = [] ∧ rest.flatten = [] := by
      simpa [List.append_eq_nil_iff] using h
    exact ⟨Nat.le_zero.mp (law.put_length p []), ih hrest _⟩

/-- The octets of the requests yielded are at most those received, and all of them only if every
Buffer was consumed whole. -/
theorem pushAll_octets {bufs : List Bytes} {w : WwwParser P} (hw : w.currentRead_.input = [])
    {rs : List Bytes} (fuel : Nat) (h : pushAll beast consumed (fuel + 1) w bufs = some rs) :
    rs.flatten.length ≤ (consumed w.parser_).length + bufs.flatten.length ∧
      ((consumed w.parser_).length + bufs.flatten.length ≤ rs.flatten.length →
        Swallows beast w.parser_ bufs) := by
  induction bufs generalizing w rs with
  | nil =>
    obtain rfl : [] = rs := by simpa [pushAll] using h
    exact ⟨by simp, fun _ => trivial⟩
  | cons data rest ih =>
    by_cases he : ∃ m, (beast.put w.parser_ data).2.2 = .other m
    · obtain ⟨m, hm⟩ := he
      rw [pushAll_other hw hm rest fuel] at h
      obtain rfl : [] = rs := by simpa using h
      refine ⟨Nat.zero_le _, fun hlen => swallows_empty law ?_ _⟩
      have hzero : (data :: rest).flatten.length = 0 := by
        rw [List.flatten_nil, List.length_nil] at hlen
        omega
      exact List.eq_nil_of_length_eq_zero hzero
    · obtain ⟨w', hw', hp', heq⟩ := pushAll_lawful consumed law hw
        (not_exists.mp he) rest fuel
      rw [heq] at h
      obtain ⟨ys, hys, rfl⟩ := Option.map_eq_some_iff.mp h
      obtain ⟨hle, hall⟩ := ih hw' hys
      have hn := law.put_length w.parser_ data
      have hc := congrArg List.length (law.put_consumed w.parser_ data)
      rw [List.length_append, List.length_take, Nat.min_eq_left hn] at hc
      have hstep : (completed beast consumed w.parser_ data).flatten.length +
          (consumed w'.parser_).length =
          (consumed w.parser_).length + (beast.put w.parser_ data).2.1 := by
        cases hd : beast.isDone (beast.put w.parser_ data).1 <;>
          simp [completed, hp', afterPut, hd, law.emplace, hc]
      simp only [List.flatten_append, List.length_append, List.flatten_cons] at hle ⊢
      refine ⟨by omega, fun hlen => ⟨by omega, ?_⟩⟩
      rw [← hp']
      exact hall (by omega)

end

/-- **Requests under fragmentation.** Cut a stream of valid requests into Buffers in any way: the
requests yielded are those of the stream, whatever a request is taken to say, exactly if the
request parser consumes each of these Buffers whole. -/
theorem push_fragments_iff {P : Type} {beast : RequestParser P} {isRequest : Bytes → Prop}
    {consumed : P → Bytes} (law : Lawful beast isRequest consumed) {rs bufs : List Bytes}
    (hrs : ∀ r ∈ rs, isRequest r) (hcut : bufs.flatten = rs.flatten) (fuel : Nat) :
    (∀ (Req : Type) (message : Bytes → Req),
      pushAll beast (fun p => message (consumed p)) (fuel + 1) { parser_ := beast.emplace } bufs =
        some (rs.map message)) ↔ Swallows beast beast.emplace bufs := by
  constructor
  · intro h
    have hid : pushAll beast consumed (fuel + 1) { parser_ := beast.emplace } bufs = some rs := by
      simpa using h Bytes id
    apply (pushAll_octets law rfl fuel hid).2
    rw [law.emplace, hcut]
    simp
  · intro hs Req message
    refine pushAll_swallowed law message rfl hrs ?_ ?_ hs fuel
    · rw [law.emplace]
      exact inside_nil law hrs
    · rw [law.emplace, hcut]
      rfl

/-! ## Requests without a body

As Beast does, the parser looks for the empty line that ends the header and consumes nothing
before it has arrived. -/

/-- A header ends with the first empty line. -/
def isHeader (r : Bytes) : Bool :=
  decide ([13, 10, 13, 10] <:+ r) &&
    (List.range r.length).all fun n => !decide ([13, 10, 13, 10] <:+ r.take n)

def headerParser : RequestParser Bytes where
  emplace := []
  put p data :=
    match (List.range (data.length + 1)).find? fun n => isHeader (p ++ data.take n) with
    | some n => (p ++ data.take n, n, .success)
    | none => (p, 0, .needMore)
  isDone := isHeader

theorem isHeader_prefixFree {r r' : Bytes} (h : isHeader r = true) (h' : isHeader r' = true)
    (hp : r <+: r') : r = r' := by
  by_contra hne
  have hlt : r.length < r'.length := by
    refine lt_of_le_of_ne hp.length_le fun he => hne (hp.eq_of_length he)
  have hearly := List.all_eq_true.mp (Bool.and_eq_true_iff.mp h').2 r.length (by simpa using hlt)
  rw [← List.prefix_iff_eq_take.mp hp] at hearly
  simp [isHeader] at h hearly
  exact hearly h.1

theorem headerParser_put (p data : Bytes) :
    (∃ n ≤ data.length, headerParser.put p data = (p ++ data.take n, n, .success) ∧
      isHeader (p ++ data.take n) = true ∧ ∀ m < n, isHeader (p ++ data.take m) = false) ∨
    (headerParser.put p data = (p, 0, .needMore) ∧
      ∀ n ≤ data.length, isHeader (p ++ data.take n) = false) := by
  cases hf : (List.range (data.length + 1)).find? fun n => isHeader (p ++ data.take n) with
  | none =>
    refine .inr ⟨by simp [headerParser, hf], fun n hn => ?_⟩
    simpa using List.find?_range_eq_none.mp hf n (by omega)
  | some n =>
    obtain ⟨hn, hmem, hfirst⟩ := List.find?_range_eq_some.mp hf
    have hle : n < data.length + 1 := List.mem_range.mp hmem
    refine .inl ⟨n, by omega, by simp [headerParser, hf], hn, fun m hm => ?_⟩
    simpa using hfirst m hm

theorem headerParser_lawful : Lawful headerParser (fun r => isHeader r = true) id where
  nonempty := by decide
  prefixFree := isHeader_prefixFree
  emplace := rfl
  put_length := by
    intro p data
    rcases headerParser_put p data with ⟨n, hn, he, -, -⟩ | ⟨he, -⟩
    · rw [he]
      exact hn
    · rw [he]
      exact Nat.zero_le _
  put_consumed := by
    intro p data
    rcases headerParser_put p data with ⟨n, -, he, -, -⟩ | ⟨he, -⟩
    · rw [he]
      rfl
    · rw [he]
      simp
  put_within := by
    intro p data r hr hp hd
    obtain ⟨tail, rfl⟩ := hp
    have htail : tail <+: data := (List.prefix_append_right_inj p).mp hd
    rcases headerParser_put p data with ⟨n, hn, he, -, hfirst⟩ | ⟨he, -⟩
    · rw [he]
      have hle : n ≤ tail.length := by
        by_contra hlt
        have hno := hfirst tail.length (by omega)
        rw [← List.prefix_iff_eq_take.mp htail] at hno
        simp [hno] at hr
      apply (List.prefix_append_right_inj p).mpr
      rw [List.prefix_iff_eq_take.mp htail]
      exact List.take_prefix_take_left hle
    · rw [he]
      exact List.prefix_append p tail
  put_needMore := by
    intro p data hec
    rcases headerParser_put p data with ⟨n, -, he, -, -⟩ | ⟨he, hno⟩
    · rw [he] at hec
      cases hec
    · rw [he]
      simpa using hno 0 (Nat.zero_le _)
  put_accepts := by
    intro p data r message _ _ _
    rcases headerParser_put p data with ⟨n, -, he, -, -⟩ | ⟨he, -⟩ <;> simp [he]
  isDone_iff := fun p => Iff.rfl

/-- `GET / HTTP/1.1`, and the empty line. -/
def getRoot : Bytes := [71, 69, 84, 32, 47, 32, 72, 84, 84, 80, 47, 49, 46, 49, 13, 10, 13, 10]

theorem push_fragments_iff_separate :
    Swallows headerParser headerParser.emplace [getRoot, [], getRoot] ∧
      pushAll headerParser id 100 { parser_ := headerParser.emplace } [getRoot, [], getRoot] =
        some [getRoot, getRoot] := by
  have hs : Swallows headerParser headerParser.emplace [getRoot, [], getRoot] := by decide
  have hrs : ∀ r ∈ [getRoot, getRoot], isHeader r = true := by decide
  have hcut : [getRoot, [], getRoot].flatten = [getRoot, getRoot].flatten := rfl
  exact ⟨hs, (push_fragments_iff headerParser_lawful hrs hcut 99).mpr hs Bytes id⟩

/-- Two requests in one Buffer: the second is lost. -/
theorem pipelined_request_lost :
    Lawful headerParser (fun r => isHeader r = true) id ∧
      (∀ r ∈ [getRoot, getRoot], isHeader r = true) ∧
      [getRoot ++ getRoot].flatten = [getRoot, getRoot].flatten ∧
      pushAll headerParser id 100 { parser_ := headerParser.emplace } [getRoot ++ getRoot] =
        some [getRoot] :=
  ⟨headerParser_lawful, by decide, rfl, by decide⟩

end Eslang.Www
