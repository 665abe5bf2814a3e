import Mathlib

/-! # The chunked transfer coding

A chunk is its size in hexadecimal, CRLF, its data and CRLF; a body is a sequence of chunks up to
and including the first chunk of size zero, which has an empty trailer here. `decode` reads one body
from the front of a byte string and returns what is left behind it. -/
namespace Eslang.Lib.Chunked
set_option autoImplicit false

/-! ## Hexadecimal sizes -/

def hexDigit (d : Nat) : UInt8 := if d < 10 then UInt8.ofNat (48 + d) else UInt8.ofNat (87 + d)

def hexValue (b : UInt8) : Option Nat :=
  if 48 ≤ b ∧ b ≤ 57 then some (b.toNat - 48)
  else if 97 ≤ b ∧ b ≤ 102 then some (b.toNat - 87)
  else if 65 ≤ b ∧ b ≤ 70 then some (b.toNat - 55)
  else none

def hex (n : Nat) : List UInt8 :=
  if n = 0 then [hexDigit 0] else ((Nat.digits 16 n).map hexDigit).reverse

theorem hexValue_hexDigit {d : Nat} (hd : d < 16) : hexValue (hexDigit d) = some d := by
  interval_cases d <;> decide

/-- The digits up to CRLF, as a number on top of `acc`. -/
def readDigits (acc : Nat) : List UInt8 → Option (Nat × List UInt8)
  | [] => none
  | b :: bs =>
      match hexValue b with
      | some d => readDigits (acc * 16 + d) bs
      | none => if b = 13 ∧ bs.head? = some 10 then some (acc, bs.tail) else none

/-- A size is at least one digit. -/
def readSize (bs : List UInt8) : Option (Nat × List UInt8) :=
  if (bs.head?.bind hexValue).isSome then readDigits 0 bs else none

theorem readDigits_append {ds : List Nat} (hds : ∀ d ∈ ds, d < 16) (acc : Nat)
    (tail : List UInt8) :
    readDigits acc (ds.map hexDigit ++ 13 :: 10 :: tail) =
      some (ds.foldl (fun n d => n * 16 + d) acc, tail) := by
  induction ds generalizing acc with
  | nil => simp [readDigits, show hexValue 13 = none by decide]
  | cons d ds ih =>
    have hd : hexValue (hexDigit d) = some d := hexValue_hexDigit (hds d (by simp))
    simp only [List.map_cons, List.cons_append, readDigits, hd, List.foldl_cons]
    exact ih (fun e he => hds e (by simp [he])) _

theorem foldl_digits (n : Nat) :
    (Nat.digits 16 n).reverse.foldl (fun n d => n * 16 + d) 0 = n := by
  rw [List.foldl_reverse]
  have h := Nat.ofDigits_digits 16 n
  rw [Nat.ofDigits_eq_foldr] at h
  simpa [mul_comm, add_comm] using h

/-- A size that was written reads back. -/
theorem readSize_hex (n : Nat) (tail : List UInt8) :
    readSize (hex n ++ 13 :: 10 :: tail) = some (n, tail) := by
  by_cases hn : n = 0
  · subst hn
    have h : readDigits 0 ([0].map hexDigit ++ 13 :: 10 :: tail) = some (0, tail) :=
      readDigits_append (by simp) 0 tail
    simpa [readSize, hex, hexValue_hexDigit] using h
  · have hlt : ∀ d ∈ (Nat.digits 16 n).reverse, d < 16 := fun d hd =>
      Nat.digits_lt_base (by norm_num) (List.mem_reverse.mp hd)
    have hread := readDigits_append hlt 0 tail
    rw [foldl_digits] at hread
    have hhex : hex n = (Nat.digits 16 n).reverse.map hexDigit := by
      rw [hex, if_neg hn, List.map_reverse]
    obtain ⟨d, ds, hds⟩ := List.exists_cons_of_ne_nil (l := (Nat.digits 16 n).reverse)
      (by simpa using Nat.digits_ne_nil_iff_ne_zero.mpr hn)
    rw [hhex, readSize, if_pos, hread]
    simp [hds, hexValue_hexDigit (hlt d (by simp [hds]))]

/-! ## Bodies -/

def chunk (data : List UInt8) : List UInt8 := hex data.length ++ 13 :: 10 :: data ++ [13, 10]

/-- The chunk of size zero with an empty trailer. -/
def last : List UInt8 := [48, 13, 10, 13, 10]

def stripCrlf : List UInt8 → Option (List UInt8)
  | 13 :: 10 :: bs => some bs
  | _ => none

/-- The body at the front of a byte string of at most `fuel` chunks, and what is behind it. -/
def decodeChunks : Nat → List UInt8 → Option (List UInt8 × List UInt8)
  | 0, _ => none
  | fuel + 1, bs =>
      match readSize bs with
      | none => none
      | some (n, data) =>
          match stripCrlf (data.drop n) with
          | none => none
          | some rest =>
              if n = 0 then some ([], rest)
              else (decodeChunks fuel rest).map fun r => (data.take n ++ r.1, r.2)

/-- Every chunk takes bytes, so the length of the string is fuel enough. -/
def decode (bs : List UInt8) : Option (List UInt8 × List UInt8) := decodeChunks (bs.length + 1) bs

theorem last_eq_chunk : last = chunk [] := by decide

theorem decodeChunks_chunk {data : List UInt8} (hd : data ≠ []) (fuel : Nat) (tail : List UInt8) :
    decodeChunks (fuel + 1) (chunk data ++ tail) =
      (decodeChunks fuel tail).map fun r => (data ++ r.1, r.2) := by
  have hlen : data.length ≠ 0 := fun h => hd (List.length_eq_zero_iff.mp h)
  have hread : readSize (chunk data ++ tail) = some (data.length, data ++ 13 :: 10 :: tail) := by
    simpa [chunk] using readSize_hex data.length (data ++ 13 :: 10 :: tail)
  simp [decodeChunks, hread, stripCrlf, hlen]

theorem decodeChunks_last (fuel : Nat) (tail : List UInt8) :
    decodeChunks (fuel + 1) (last ++ tail) = some ([], tail) := by
  have hread : readSize (last ++ tail) = some (0, 13 :: 10 :: tail) := by
    simpa [last_eq_chunk, chunk] using readSize_hex 0 (13 :: 10 :: tail)
  simp [decodeChunks, hread, stripCrlf]

/-- Chunks that are not empty read back up to the first empty one. -/
theorem decodeChunks_chunks {datas : List (List UInt8)} (hne : ∀ d ∈ datas, d ≠ []) (fuel : Nat)
    (tail : List UInt8) :
    decodeChunks (datas.length + fuel + 1) (datas.flatMap chunk ++ last ++ tail) =
      some (datas.flatten, tail) := by
  induction datas with
  | nil => simpa using decodeChunks_last fuel tail
  | cons d ds ih =>
    have hd := decodeChunks_chunk (hne d (by simp)) (ds.length + fuel + 1)
      (ds.flatMap chunk ++ last ++ tail)
    rw [ih fun e he => hne e (by simp [he])] at hd
    simpa [List.flatMap_cons, Nat.add_right_comm] using hd

theorem length_le_flatMap_chunk (datas : List (List UInt8)) :
    datas.length ≤ (datas.flatMap chunk).length := by
  induction datas with
  | nil => simp
  | cons d ds ih =>
    simp only [List.flatMap_cons, List.length_append, List.length_cons, chunk]
    omega

/-- **Round trip up to the first empty chunk.** -/
theorem decode_chunks {datas : List (List UInt8)} (hne : ∀ d ∈ datas, d ≠ [])
    (tail : List UInt8) :
    decode (datas.flatMap chunk ++ last ++ tail) = some (datas.flatten, tail) := by
  have hlen := length_le_flatMap_chunk datas
  obtain ⟨k, hk⟩ : ∃ k, (datas.flatMap chunk ++ last ++ tail).length = datas.length + k :=
    Nat.exists_eq_add_of_le (by simp only [List.length_append]; omega)
  rw [decode, hk]
  exact decodeChunks_chunks hne k tail

/-- **Round trip.** A body made of chunks reads back with nothing left exactly if no chunk before
the last is empty. -/
theorem decode_eq_iff (datas : List (List UInt8)) :
    decode (datas.flatMap chunk ++ last) = some (datas.flatten, []) ↔ ∀ d ∈ datas, d ≠ [] := by
  constructor
  · intro h d hd hnil
    subst hnil
    -- the decoder stops at the first empty chunk and leaves at least the last one
    obtain ⟨pre, post, rfl, hpre⟩ := List.eq_append_cons_of_mem hd
    have hne : ∀ d ∈ pre, d ≠ [] := fun d hd he => hpre (he ▸ hd)
    have hdec := decode_chunks hne (post.flatMap chunk ++ last)
    rw [last_eq_chunk] at h hdec
    simp only [List.flatMap_append, List.flatMap_cons, List.append_assoc] at h hdec
    rw [h] at hdec
    have htail := congrArg Prod.snd (Option.some.inj hdec)
    have hlast : chunk [] ≠ [] := by decide
    simp [hlast] at htail
  · intro hne
    simpa using decode_chunks hne []

end Eslang.Lib.Chunked
