import MinLz.Index.Stored
import MinLz.Stream.Splitting

/-! # The pieces of a stream

A writer puts out each block and each user chunk as one chunk. `Ledger` ties what is in
its sink, what it has counted and what its index holds to these pieces.
-/

namespace MinLz.Stream

open Block (maxBlockSize)
open Machine (Overflow maxSigned)
open Effects
open Index (Thinned)

/-- What a stream carries, in order. -/
inductive Item where
  | byte (b : UInt8)
  | chunk (id : UInt8) (data : List UInt8)
  deriving DecidableEq, Repr

/-- What a writer puts out as one chunk before the end of the stream. -/
inductive Piece where
  | stored (block : List UInt8)
  | coded (block body : List UInt8)
  | user (id : UInt8) (data : List UInt8)
  deriving DecidableEq, Repr

namespace Piece

def chunk : Piece → Chunk
  | stored block => dataChunk chunkTypeUncompressedData block block
  | coded block body => dataChunk chunkTypeMinlzCompressedData block body
  | user id data => ⟨id, data⟩

def bytes (p : Piece) : List UInt8 := p.chunk.bytes

/-- The bytes of the payload that the piece carries. -/
def block : Piece → List UInt8
  | stored block => block
  | coded block _ => block
  | user _ _ => []

def items : Piece → List Item
  | stored block => block.map .byte
  | coded block _ => block.map .byte
  | user id data => [.chunk id data]

/-- A writer with these options can put out the piece. -/
def Valid (b : WriterBuilder) : Piece → Prop
  | stored block => block ≠ [] ∧ block.length ≤ b.blockSize
  | coded block body => (block ≠ [] ∧ block.length ≤ b.blockSize) ∧
      Block.appendEncodedChunkBody b.level [] (Slice.ofList block) = .ok (body, true)
  | user id data => (minUserSkippableChunk ≤ id ∧ id ≤ maxUserNonSkippableChunk) ∧
      data.length ≤ maxUserChunkSize

/-- The piece carries this block. -/
def IsBlock (b : WriterBuilder) (data : List UInt8) (p : Piece) : Prop :=
  p.Valid b ∧ p.block = data ∧ p.items = data.map .byte

end Piece

/-- The bytes of the payload that the pieces carry. -/
def payload (ps : List Piece) : List UInt8 := ps.flatMap Piece.block

def bytesOf (ps : List Piece) : List UInt8 := ps.flatMap Piece.bytes

def itemsOf (ps : List Piece) : List Item := ps.flatMap Piece.items

/-- Where the blocks start when the first piece is at `pos`. -/
def marks (pos : OffsetPair) : List Piece → List OffsetPair
  | [] => []
  | p :: ps =>
      let rest := marks ⟨pos.compressed + p.bytes.length, pos.uncompressed + p.block.length⟩ ps
      if p.block = [] then rest else pos :: rest

/-- The offsets of the first piece of a stream. -/
def front : OffsetPair := ⟨chunkHeaderSize + magicBodyLen, 0⟩

theorem payload_snoc (ps : List Piece) (p : Piece) : payload (ps ++ [p]) = payload ps ++ p.block := by
  simp [payload]

theorem bytesOf_snoc (ps : List Piece) (p : Piece) : bytesOf (ps ++ [p]) = bytesOf ps ++ p.bytes := by
  simp [bytesOf]

theorem itemsOf_snoc (ps : List Piece) (p : Piece) : itemsOf (ps ++ [p]) = itemsOf ps ++ p.items := by
  simp [itemsOf]

theorem marks_snoc (pos : OffsetPair) (ps : List Piece) (p : Piece) :
    marks pos (ps ++ [p]) = marks pos ps ++ if p.block = [] then []
      else [⟨pos.compressed + (bytesOf ps).length, pos.uncompressed + (payload ps).length⟩] := by
  induction ps generalizing pos with
  | nil => simp [marks, bytesOf, payload]
  | cons q ps ih =>
      have offsets : OffsetPair.mk (pos.compressed + q.bytes.length + (bytesOf ps).length)
          (pos.uncompressed + q.block.length + (payload ps).length) =
          ⟨pos.compressed + (bytesOf (q :: ps)).length,
            pos.uncompressed + (payload (q :: ps)).length⟩ := by
        simp [bytesOf, payload, Nat.add_assoc]
      rw [List.cons_append, marks, marks, ih]
      simp only [offsets]
      split <;> rfl

theorem bytes_pos (p : Piece) : 0 < p.bytes.length := by
  rw [Piece.bytes, Chunk.length_bytes]
  omega

/-- Each mark is before the end of the pieces, and past where they start. -/
theorem mem_marks {pos q : OffsetPair} {ps : List Piece} (h : q ∈ marks pos ps) :
    pos.compressed ≤ q.compressed ∧ q.compressed < pos.compressed + (bytesOf ps).length ∧
      q.uncompressed ≤ pos.uncompressed + (payload ps).length := by
  induction ps generalizing pos with
  | nil => cases h
  | cons p ps ih =>
      have some := bytes_pos p
      have size : (bytesOf (p :: ps)).length = p.bytes.length + (bytesOf ps).length := by
        simp [bytesOf]
      have length : (payload (p :: ps)).length = p.block.length + (payload ps).length := by
        simp [payload]
      have rest (h : q ∈ marks ⟨pos.compressed + p.bytes.length,
          pos.uncompressed + p.block.length⟩ ps) : pos.compressed ≤ q.compressed ∧
            q.compressed < pos.compressed + (bytesOf (p :: ps)).length ∧
            q.uncompressed ≤ pos.uncompressed + (payload (p :: ps)).length := by
        have inside := ih h
        simp only at inside
        omega
      rw [marks] at h
      split at h
      · exact rest h
      · cases h with
        | head => omega
        | tail _ h => exact rest h

theorem marks_rising (pos : OffsetPair) (ps : List Piece) :
    (marks pos ps).Pairwise fun a b => a.compressed < b.compressed := by
  induction ps generalizing pos with
  | nil => exact List.Pairwise.nil
  | cons p ps ih =>
      rw [marks]
      split
      · exact ih _
      · refine List.Pairwise.cons (fun q h => ?_) (ih _)
        have some := bytes_pos p
        have later := (mem_marks h).1
        simp only at later
        omega

end MinLz.Stream
