import Eslang.Lib.Chunked
import Eslang.Www.Session
import Mathlib

/-! # What a chunked response carries

The notes of a session tell, for each chunked response, its header, the Buffers that `getChunked`
yielded and the content of the `StreamBatcher` at its end. Beast serialises each Buffer as one
chunk, an empty one as a chunk of size zero, which a client takes for the end of the body. -/
namespace Eslang.Www
set_option autoImplicit false
open Lib

/-- A chunked response: the pieces of its header, the Buffers yielded by `getChunked`, and all that
was pushed into the `StreamBatcher`. -/
structure ChunkedResponse where
  header : List Bytes
  yielded : List Bytes
  pushed : List Bytes
deriving DecidableEq, Repr

/-- The chunked response under way and those that are complete. -/
structure Transcript where
  open_ : Option (List Bytes × List Bytes) := none
  complete : List ChunkedResponse := []
deriving DecidableEq, Repr

namespace Transcript
variable {Req : Type}

def add (t : Transcript) : Note Req → Transcript
  | .header pieces => { t with open_ := some (pieces, []) }
  | .chunk buff => { t with open_ := t.open_.map fun o => (o.1, o.2 ++ [buff]) }
  | .ended buffs =>
      match t.open_ with
      | some (header, yielded) => ⟨none, t.complete ++ [⟨header, yielded, buffs⟩]⟩
      | none => t
  | .answered _ => t

/-- The chunked responses that the notes tell of. -/
def read (notes : List (Note Req)) : Transcript := notes.foldl add {}

theorem read_append (notes more : List (Note Req)) :
    read (notes ++ more) = more.foldl add (read notes) :=
  List.foldl_append

end Transcript

namespace SessionRunner
variable {P Req Resp σ μ : Type} {r : SessionRunner P Req Resp σ μ}

/-- The pieces pushed after the header for the Buffers `yielded`. -/
def chunks (r : SessionRunner P Req Resp σ μ) (yielded : List Bytes) : List Bytes :=
  yielded.flatMap r.http.makeChunk

/-- The batcher of the response under way holds its header and the chunks so far, and each complete
response pushed its header, its chunks and the last chunk. -/
structure Recorded (r : SessionRunner P Req Resp σ μ) (t : Transcript) (p : Point Req) : Prop where
  chunking : ∀ {req reqs failed buffs}, p = .chunking req reqs failed buffs →
    ∃ header yielded, t.open_ = some (header, yielded) ∧ buffs = header ++ r.chunks yielded
  complete : ∀ {q}, q ∈ t.complete →
    q.pushed = q.header ++ r.chunks q.yielded ++ r.http.makeChunkLast

theorem Recorded.leave {t : Transcript} {p p' : Point Req} (h : r.Recorded t p)
    (hp : ∀ req reqs failed buffs, p' ≠ .chunking req reqs failed buffs) : r.Recorded t p' :=
  ⟨fun he => absurd he (hp _ _ _ _), h.complete⟩

theorem Recorded.endScope {t : Transcript} {s s' : Session P Req σ μ} {p : Point Req}
    {buffs : List Bytes} {next : Point Req} {notes notes' : List (Note Req)} (h : r.Recorded t p)
    (he : r.endScope s buffs next notes = (s', notes'))
    (hn : ∀ req reqs failed buffs, next ≠ .chunking req reqs failed buffs)
    (hnotes : notes = [] ∨ ∃ req, notes = [.answered req]) :
    r.Recorded (notes'.foldl Transcript.add t) s'.point := by
  have hsame : notes.foldl Transcript.add t = t := by
    rcases hnotes with rfl | ⟨req, rfl⟩ <;> rfl
  rcases endScope_cases he with ⟨c, -, rfl, rfl⟩ | ⟨e, -, rfl, rfl⟩
  · rw [hsame]
    exact h.leave hn
  · exact h.leave (by simp)

theorem moves_recorded {t : Transcript} {s s' : Session P Req σ μ} {act : Act Resp σ μ}
    {notes : List (Note Req)} (h : r.Moves s act s' notes) (ht : r.Recorded t s.point) :
    r.Recorded (notes.foldl Transcript.add t) s'.point := by
  cases h with
  | start =>
    refine ht.leave fun _ _ _ _ => ?_
    unfold SessionRunner.start loopHead
    split
    · simp
    · dsimp only
      split <;> simp
  | received => exact ht.leave (by simp)
  | again =>
    refine ht.leave fun _ _ _ _ => ?_
    unfold loopHead
    dsimp only
    split <;> simp
  | failed => exact ht.leave (by simp)
  | request => exact ht.leave (by simp)
  | respond _ he =>
    rcases respond_cases he with ⟨pieces, rfl, rfl⟩ | ⟨pieces, he⟩ | ⟨pieces, e, he⟩
    · refine ⟨fun hp => ⟨pieces, [], rfl, ?_⟩, ht.complete⟩
      cases hp
      simp [chunks]
    · exact ht.endScope he (by simp) (.inr ⟨_, rfl⟩)
    · exact ht.endScope he (by simp) (.inl rfl)
  | raise => exact ht.leave (by simp)
  | @chunk req reqs failed buffs buff hp =>
    obtain ⟨header, yielded, ho, hb⟩ := ht.chunking hp
    refine ⟨fun hp' => ⟨header, yielded ++ [buff], by simp [Transcript.add, ho], ?_⟩, ht.complete⟩
    cases hp'
    simp [hb, chunks]
  | chunksEnd hp he =>
    obtain ⟨header, yielded, ho, hb⟩ := ht.chunking hp
    rw [List.foldl_cons]
    refine Recorded.endScope (p := .receiving) ⟨by simp, fun {q} hq => ?_⟩ he (by simp)
      (.inr ⟨_, rfl⟩)
    simp only [Transcript.add, ho, List.mem_append, List.mem_singleton] at hq
    rcases hq with hq | rfl
    · exact ht.complete hq
    · simp [hb]
  | raiseChunked _ he => exact ht.endScope he (by simp) (.inl rfl)
  | others => exact ⟨ht.chunking, ht.complete⟩
  | destroy _ he =>
    obtain ⟨c, -, ⟨_, _, _, buffs, -, he⟩ | ⟨rfl, rfl⟩⟩ := destroy_cases he
    · exact ht.endScope he (by simp) (.inl rfl)
    · exact ht.leave (by simp)

theorem run_recorded {ok : Session P Req σ μ → Act Resp σ μ → Prop} {c : Context σ μ}
    {tr : List (Note Req)} {s : Session P Req σ μ} (h : r.system.Run ok (r.initial c) tr s) :
    r.Recorded (Transcript.read tr) s.point := by
  refine h.invariant (fun tr s => r.Recorded (Transcript.read tr) s.point)
    ⟨by simp [initial], by simp [Transcript.read]⟩ fun tr _ _ _ out hs _ hst => ?_
  rw [Transcript.read_append]
  exact moves_recorded (step_moves hst) hs

theorem flatten_body (hchunk : ∀ b, (r.http.makeChunk b).flatten = Chunked.chunk b)
    (hlast : r.http.makeChunkLast.flatten = Chunked.last) (yielded : List Bytes) :
    (r.chunks yielded ++ r.http.makeChunkLast).flatten =
      yielded.flatMap Chunked.chunk ++ Chunked.last := by
  rw [List.flatten_append, hlast, chunks]
  congr 1
  induction yielded with
  | nil => rfl
  | cons b bs ih => rw [List.flatMap_cons, List.flatten_append, hchunk, ih, List.flatMap_cons]

/-- **Chunked responses.** What a session pushes after the header of a chunked response decodes to
the Buffers that the handler yielded, with no byte left over, exactly if none of them is empty. -/
theorem chunked_body_decodes_iff (hchunk : ∀ b, (r.http.makeChunk b).flatten = Chunked.chunk b)
    (hlast : r.http.makeChunkLast.flatten = Chunked.last) {c : Context σ μ} {tr : List (Note Req)}
    {s : Session P Req σ μ} (h : r.system.Run System.anyStep (r.initial c) tr s)
    {q : ChunkedResponse} (hq : q ∈ (Transcript.read tr).complete) :
    q.header <+: q.pushed ∧
      (Chunked.decode (q.pushed.drop q.header.length).flatten = some (q.yielded.flatten, []) ↔
        ∀ b ∈ q.yielded, b ≠ []) := by
  have hpushed := (run_recorded h).complete hq
  rw [List.append_assoc] at hpushed
  refine ⟨hpushed ▸ List.prefix_append _ _, ?_⟩
  rw [hpushed, List.drop_left, flatten_body hchunk hlast]
  exact Chunked.decode_eq_iff q.yielded

end SessionRunner

/-! ## A handler that yields chunks -/

/-- Beast gives a chunk as its size line, its data and the line end behind it. -/
def chunkedHttp : Http Bytes Bool :=
  { plainHttp with
    makeChunk := fun b => [Chunked.hex b.length ++ [13, 10], b, [13, 10]]
    makeChunkLast := [[48, 13, 10], [13, 10]] }

def chunkedSession : SessionRunner Bytes Bytes Bool Unit (List Bytes) :=
  { plainSession with http := chunkedHttp }

/-- The acts by which a session answers a request with the chunks `bs`. -/
def answerChunked (bs : List Bytes) : List (Act Bool Unit (List Bytes)) :=
  [.start, .received getRoot, .next, .response true] ++ bs.map .chunk ++ [.chunksEnd]

namespace SessionRunner

theorem chunkedHttp_makeChunk (b : Bytes) :
    (chunkedHttp.makeChunk b).flatten = Chunked.chunk b := by
  simp [chunkedHttp, Chunked.chunk]

theorem chunked_body_decodes_iff_two : ∃ tr s q,
    chunkedSession.system.Run System.anyStep (chunkedSession.initial linkedContext) tr s ∧
      q ∈ (Transcript.read tr).complete ∧ q.yielded = [[1, 2], [3]] ∧
      Chunked.decode (q.pushed.drop q.header.length).flatten = some ([1, 2, 3], []) := by
  obtain ⟨tr, s, hrun, q, hq, hy⟩ := System.exec_reaches (M := chunkedSession.system)
    (g := fun _ _ => true) (G := System.anyStep) (fun _ _ _ => trivial)
    (w := answerChunked [[1, 2], [3]]) (s := chunkedSession.initial linkedContext)
    (P := fun tr _ => ∃ q ∈ (Transcript.read tr).complete, q.yielded = [[1, 2], [3]]) (by decide)
  have hdec := (chunked_body_decodes_iff chunkedHttp_makeChunk rfl hrun hq).2.mpr
    (by rw [hy]; decide)
  rw [hy] at hdec
  exact ⟨tr, s, q, hrun, hq, hy, hdec⟩

/-- An empty Buffer between two others: the client takes it for the end of the body. -/
theorem chunked_body_cut_short : ∃ tr s q,
    chunkedSession.system.Run System.anyStep (chunkedSession.initial linkedContext) tr s ∧
      q ∈ (Transcript.read tr).complete ∧ q.yielded = [[1, 2], [], [3]] ∧
      Chunked.decode (q.pushed.drop q.header.length).flatten =
        some ([1, 2], [49, 13, 10, 3, 13, 10, 48, 13, 10, 13, 10]) := by
  obtain ⟨tr, s, hrun, q, hq, hy, hd⟩ := System.exec_reaches (M := chunkedSession.system)
    (g := fun _ _ => true) (G := System.anyStep) (fun _ _ _ => trivial)
    (w := answerChunked [[1, 2], [], [3]]) (s := chunkedSession.initial linkedContext)
    (P := fun tr _ => ∃ q ∈ (Transcript.read tr).complete, q.yielded = [[1, 2], [], [3]] ∧
      Chunked.decode (q.pushed.drop q.header.length).flatten =
        some ([1, 2], [49, 13, 10, 3, 13, 10, 48, 13, 10, 13, 10])) (by decide)
  exact ⟨tr, s, q, hrun, hq, hy, hd⟩

end SessionRunner

end Eslang.Www
