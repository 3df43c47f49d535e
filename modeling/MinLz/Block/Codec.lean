import MinLz.Block.Decode
import MinLz.Block.EncodeL1
import MinLz.Block.EncodeL2
import MinLz.Block.EncodeL3
import MinLz.Block.Format

/-! # The block API

A `Vec<u8>` is the list of its bytes. The encoders write into the part of it
that `resize` has just filled with zeros; the decoder writes into spare capacity,
whose content `mem` is arbitrary.
-/

namespace MinLz.Block

inductive Level where
  | fastest
  | balanced
  | smallest
  deriving DecidableEq, Repr

def encodeBlock : Level → Slice → Slice → Exec (Slice × Nat)
  | .fastest => L1.encodeBlock
  | .balanced => L2.encodeBlock
  | .smallest => L3.encodeBlock

/-- Bytes fresh from `resize(_, 0)`. -/
def zeros (n : Nat) : Slice := ⟨n, fun _ => 0⟩

def encodeUncompressed (dst : List UInt8) (src : Slice) : List UInt8 :=
  if src.len = 0 then dst ++ [0] else dst ++ [0, 0] ++ src.toList

def appendEncoded (level : Level) (dst : List UInt8) (src : Slice) : Exec (List UInt8) := do
  match maxEncodedLen src.len with
  | none => .error (.error .tooLarge)
  | some max =>
      if src.len < minNonLiteralBlockSize then return encodeUncompressed dst src
      let head := dst ++ 0 :: putUvarint src.len
      let (body, n) ← encodeBlock level (zeros (← sub (dst.length + max) head.length)) src
      if n > 0 then return (head ++ body.toList).take (head.length + n)
      else return encodeUncompressed dst src

def encode (level : Level) (src : Slice) : Exec (List UInt8) := appendEncoded level [] src

def tryEncode (level : Level) (dst : List UInt8) (src : Slice) : Exec (List UInt8 × Bool) := do
  match maxEncodedLen src.len with
  | none => .error (.error .tooLarge)
  | some max =>
      if src.len < minNonLiteralBlockSize then return (dst, false)
      let head := dst ++ 0 :: putUvarint src.len
      let (body, n) ← encodeBlock level (zeros (← sub (dst.length + max) head.length)) src
      if n > 0 ∧ head.length - dst.length + n < src.len then
        return ((head ++ body.toList).take (head.length + n), true)
      else return (dst, false)

/-- Whether the block is all literals, its body and its decoded length. -/
def parseHeader (src : List UInt8) : Exec (Bool × List UInt8 × Nat) :=
  match src with
  | [] => corrupt "empty input"
  | [b] => if b = 0 then .ok (true, [], 0) else corrupt "invalid single-byte block"
  | b :: afterMagic =>
      if b ≠ 0 then corrupt "snappy/s2 stream not supported"
      else
        match getUvarint afterMagic with
        | none => corrupt "bad decoded-length varint"
        | some (v, n) =>
            if v > 0xffffffff then corrupt "decoded length exceeds u32"
            else if v > maxBlockSize then .error (.error .tooLarge)
            else
              let body := afterMagic.drop n
              if body = [] then corrupt "empty block body"
              else if v = 0 then .ok (true, body, body.length)
              else if v < body.length then corrupt "compressed larger than decoded size"
              else .ok (false, body, v)

def appendDecoded (mem : Nat → UInt8) (dst src : List UInt8) : Exec (List UInt8) := do
  let (literals, body, dlen) ← parseHeader src
  if literals then return dst ++ body
  let out ← minlzDecode mem dlen (Slice.ofList body)
  return dst ++ out.list 0 dlen

def decode (mem : Nat → UInt8) (src : List UInt8) : Exec (List UInt8) := appendDecoded mem [] src

def decodedLen (src : List UInt8) : Exec Nat := do
  let (_, _, dlen) ← parseHeader src
  return dlen

def isMinlz (src : List UInt8) : Exec (Option Nat) :=
  match src with
  | [] => corrupt "empty input"
  | b :: _ => if b ≠ 0 then .ok none else do return some (← decodedLen src)

/-- A stream chunk holds a block without its leading marker. -/
def appendEncodedChunkBody (level : Level) (dst : List UInt8) (src : Slice) :
    Exec (List UInt8 × Bool) := do
  if src.len < minNonLiteralBlockSize then return (dst, false)
  match maxEncodedLen src.len with
  | none => .error (.error .tooLarge)
  | some max =>
      let head := dst ++ putUvarint src.len
      let (body, n) ← encodeBlock level (zeros (← sub (dst.length + max) head.length)) src
      if n > 0 ∧ head.length - dst.length + n < src.len then
        return ((head ++ body.toList).take (head.length + n), true)
      else return (dst, false)

def splitChunkBody (body : List UInt8) : Exec (Nat × List UInt8) :=
  match getUvarint body with
  | none => corrupt "bad chunk length varint"
  | some (v, n) =>
      if v > 0xffffffff then corrupt "chunk decoded length exceeds u32"
      else if v > maxBlockSize then .error (.error .tooLarge)
      else
        let compressed := body.drop n
        if v = 0 then corrupt "zero decoded length in chunk"
        else if v < compressed.length then corrupt "compressed larger than decoded size"
        else .ok (v, compressed)

def appendDecodedChunkBody (mem : Nat → UInt8) (dst body : List UInt8) : Exec (List UInt8) := do
  let (dlen, compressed) ← splitChunkBody body
  let out ← minlzDecode mem dlen (Slice.ofList compressed)
  return dst ++ out.list 0 dlen

def decodedLenChunkBody (body : List UInt8) : Exec Nat := do
  let (dlen, _) ← splitChunkBody body
  return dlen

theorem splitChunkBody_varint {body compressed : List UInt8} {dlen : Nat}
    (h : splitChunkBody body = .ok (dlen, compressed)) :
    (getUvarint body).map Prod.fst = some dlen := by
  rw [splitChunkBody] at h
  cases read : getUvarint body with
  | none =>
      rw [read] at h
      cases h
  | some r =>
      obtain ⟨v, n⟩ := r
      rw [read] at h
      simp only at h
      split_ifs at h <;> cases h
      rfl

end MinLz.Block
