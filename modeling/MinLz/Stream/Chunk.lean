import MinLz.Stream.Format

/-! # A stream as a list of chunks

Each chunk says how long it is, so that a byte string falls into chunks in one way.
What is left at its end is less than one chunk.
-/

namespace MinLz.Stream

open Block (maxBlockSize)

/-- A chunk without its length, which is that of its body. -/
structure Chunk where
  kind : UInt8
  body : List UInt8
  deriving DecidableEq, Repr

namespace Chunk

def bytes (c : Chunk) : List UInt8 := c.kind :: chunkLength c.body.length ++ c.body

/-- The body has a length that its three bytes can hold. -/
def Fits (c : Chunk) : Prop := c.body.length < 2 ^ 24

theorem length_bytes (c : Chunk) : c.bytes.length = c.body.length + 4 := by
  simp [bytes, chunkLength]

/-- The chunk at the head of `data` and what follows it. -/
def next (data : List UInt8) : Option (Chunk × List UInt8) :=
  match data with
  | kind :: b0 :: b1 :: b2 :: rest =>
      let len := readChunkLen b0 b1 b2
      if len ≤ rest.length then some (⟨kind, rest.take len⟩, rest.drop len) else none
  | _ => none

theorem next_bytes {c : Chunk} (fits : c.Fits) (rest : List UInt8) :
    next (c.bytes ++ rest) = some (c, rest) := by
  have len := readChunkLen_chunkLength c.body.length
  rw [Nat.mod_eq_of_lt fits] at len
  simp only [bytes, chunkLength, List.cons_append, List.nil_append, next, len]
  rw [if_pos (by rw [List.length_append]; omega), List.take_left, List.drop_left]

theorem next_some {data rest : List UInt8} {c : Chunk} (h : next data = some (c, rest)) :
    data = c.bytes ++ rest ∧ c.Fits := by
  rcases data with _ | ⟨kind, _ | ⟨b0, _ | ⟨b1, _ | ⟨b2, tail⟩⟩⟩⟩
  case cons.cons.cons.cons =>
    simp only [next] at h
    split at h
    · next le =>
        cases h
        have length : (tail.take (readChunkLen b0 b1 b2)).length = readChunkLen b0 b1 b2 := by
          rw [List.length_take, Nat.min_eq_left le]
        constructor
        · simp only [bytes, length, chunkLength_readChunkLen, List.cons_append, List.nil_append,
            List.take_append_drop]
        · rw [Fits, length]
          exact readChunkLen_lt b0 b1 b2
    · cases h
  all_goals cases h

theorem length_next {data rest : List UInt8} {c : Chunk} (h : next data = some (c, rest)) :
    rest.length + 4 ≤ data.length := by
  obtain ⟨rfl, _⟩ := next_some h
  rw [List.length_append, length_bytes]
  omega

end Chunk

/-- The chunks of a stream, up to the first that is not all there. -/
def chunks (data : List UInt8) : List Chunk :=
  match _h : Chunk.next data with
  | none => []
  | some (c, rest) => c :: chunks rest
termination_by data.length
decreasing_by
  have := Chunk.length_next _h
  omega

theorem chunks_next {data rest : List UInt8} {c : Chunk} (h : Chunk.next data = some (c, rest)) :
    chunks data = c :: chunks rest := by
  rw [chunks]
  split
  · next none => rw [none] at h; cases h
  · next c' rest' some =>
      rw [some] at h
      cases h
      rfl

theorem chunks_end {data : List UInt8} (h : Chunk.next data = none) : chunks data = [] := by
  rw [chunks]
  split
  · rfl
  · next c rest some => rw [some] at h; cases h

theorem chunks_bytes {c : Chunk} (fits : c.Fits) (rest : List UInt8) :
    chunks (c.bytes ++ rest) = c :: chunks rest := chunks_next (Chunk.next_bytes fits rest)

theorem chunks_append {cs : List Chunk} (fit : ∀ c ∈ cs, c.Fits) (rest : List UInt8) :
    chunks (cs.flatMap Chunk.bytes ++ rest) = cs ++ chunks rest := by
  induction cs with
  | nil => rfl
  | cons c cs ih =>
      rw [List.flatMap_cons, List.append_assoc, chunks_bytes (fit c List.mem_cons_self),
        ih (fun d hd => fit d (List.mem_cons_of_mem c hd)), List.cons_append]

/-- Cutting a stream short cuts its list of chunks short. -/
theorem chunks_prefix {part whole : List UInt8} (h : part <+: whole) :
    chunks part <+: chunks whole := by
  obtain ⟨tail, rfl⟩ := h
  induction part using chunks.induct with
  | case1 part none =>
      rw [chunks_end none]
      exact List.nil_prefix
  | case2 part c rest some ih =>
      obtain ⟨rfl, fits⟩ := Chunk.next_some some
      rw [List.append_assoc, chunks_bytes fits, chunks_bytes fits]
      exact List.cons_prefix_cons.mpr ⟨rfl, ih⟩

def chunkTypeLegacyCompressedData : UInt8 := 0x00

namespace Chunk

/-- A chunk whose body is a checksum and a block. -/
def IsData (c : Chunk) : Prop :=
  c.kind = chunkTypeLegacyCompressedData ∨ c.kind = chunkTypeMinlzCompressedData ∨
    c.kind = chunkTypeMinlzCompressedDataCompCrc ∨ c.kind = chunkTypeUncompressedData

instance (c : Chunk) : Decidable c.IsData := inferInstanceAs (Decidable (_ ∨ _ ∨ _ ∨ _))

/-- The decoded length that a data chunk declares: that of the block itself when it is
    stored uncompressed, else the varint at the head of the block. -/
def declared (c : Chunk) : Option Nat :=
  if c.body.length < checksumSize then none
  else if c.kind = chunkTypeUncompressedData then some (c.body.length - checksumSize)
  else (Block.getUvarint (c.body.drop checksumSize)).map Prod.fst

/-- How far a chunk moves the position in the decoded stream. -/
def blockLen (c : Chunk) : Nat := if c.IsData then c.declared.getD 0 else 0

/-- A data chunk declares a length that a block can have. -/
def Declares (c : Chunk) : Prop := c.IsData → ∃ n ≤ maxBlockSize, c.declared = some n

end Chunk

/-- How far the chunks move the position in the decoded stream. -/
def totalLen (cs : List Chunk) : Nat := (cs.map Chunk.blockLen).sum

/-- The bytes that the chunks take. -/
def totalBytes (cs : List Chunk) : Nat := (cs.flatMap Chunk.bytes).length

theorem Chunk.isData_of_len {c : Chunk} (h : 0 < c.blockLen) : c.IsData := by
  rw [Chunk.blockLen] at h
  split at h
  · next data => exact data
  · omega

theorem totalLen_append (cs : List Chunk) (c : Chunk) :
    totalLen (cs ++ [c]) = totalLen cs + c.blockLen := by
  simp [totalLen]

theorem totalBytes_append (cs : List Chunk) (c : Chunk) :
    totalBytes (cs ++ [c]) = totalBytes cs + (4 + c.body.length) := by
  simp only [totalBytes, List.flatMap_append, List.length_append, List.flatMap_singleton,
    Chunk.length_bytes, Nat.add_comm]

end MinLz.Stream
