import MinLz.Block.Codec
import MinLz.Block.DecodeFormat
import MinLz.Lib.Effects
import MinLz.Stream.Chunk
import MinLz.Stream.Crc

/-! # What a stream decodes to

The content of a stream is that of its data chunks, in order. A byte of a chunk whose
checksum does not hold, or which cannot be decoded, has a position in the stream but
no value.
-/

namespace MinLz

namespace Block

open Effects

/-- What a chunk body decodes to, however it is decoded. -/
def decodedChunk (body : List UInt8) : Option (List UInt8) :=
  match splitChunkBody body with
  | .ok (dlen, compressed) => Token.decode (Slice.ofList compressed) dlen
  | .error _ => none

theorem splitChunkBody_refused (block : List UInt8) :
    Exits (splitChunkBody block) (fun _ => True) fun e => ∃ r, e = .error r := by
  rw [splitChunkBody]
  cases getUvarint block with
  | none => exact exits_error ⟨_, rfl⟩
  | some r =>
      obtain ⟨v, k⟩ := r
      simp only
      split_ifs
      · exact exits_error ⟨_, rfl⟩
      · exact exits_error ⟨_, rfl⟩
      · exact exits_error ⟨_, rfl⟩
      · exact exits_error ⟨_, rfl⟩
      · exact exits_ok trivial

theorem appendDecodedChunkBody_cases (mem : Nat → UInt8) (dst body : List UInt8) :
    match decodedChunk body with
    | some out => appendDecodedChunkBody mem dst body = .ok (dst ++ out) ∧
        decodedLenChunkBody body = .ok out.length
    | none => ∃ e, appendDecodedChunkBody mem dst body = .error (.error e) := by
  rw [decodedChunk, appendDecodedChunkBody, decodedLenChunkBody]
  cases split : splitChunkBody body with
  | error e =>
      obtain ⟨r, rfl⟩ := (splitChunkBody_refused body).error split
      exact ⟨r, rfl⟩
  | ok r =>
      obtain ⟨dlen, compressed⟩ := r
      have yields := Decode.minlzDecode_yields (Slice.ofList compressed) dlen mem
      simp only [ok_bind]
      cases decodes : Token.decode (Slice.ofList compressed) dlen with
      | none =>
          rw [decodes] at yields
          obtain ⟨e, failed⟩ := yields
          exact ⟨_, by rw [failed]; rfl⟩
      | some out =>
          rw [decodes] at yields
          obtain ⟨dst', run, rfl⟩ := yields
          simp only [run, ok_bind, pure_ok, Slice.length_list, true_and]

end Block

namespace Stream

/-- The types of a chunk with a compressed block. -/
def IsCoded (kind : UInt8) : Prop :=
  kind = chunkTypeMinlzCompressedData ∨ kind = chunkTypeMinlzCompressedDataCompCrc

instance (kind : UInt8) : Decidable (IsCoded kind) := inferInstanceAs (Decidable (_ ∨ _))

/-- The types of a chunk that a reader takes a block from. -/
def HasBlock (kind : UInt8) : Prop := IsCoded kind ∨ kind = chunkTypeUncompressedData

instance (kind : UInt8) : Decidable (HasBlock kind) := inferInstanceAs (Decidable (_ ∨ _))

namespace Chunk

/-- The block that a chunk holds. -/
def block (c : Chunk) : Option (List UInt8) :=
  if c.body.length < checksumSize then none
  else
    let body := c.body.drop checksumSize
    if c.kind = chunkTypeUncompressedData then some body
    else if IsCoded c.kind then Block.decodedChunk body
    else none

def checksum (c : Chunk) : Nat := readU32Le c.body

/-- The bytes that the checksum is about: the block, or its compressed form after the
    varint of its length. -/
def covered (c : Chunk) (block : List UInt8) : List UInt8 :=
  if c.kind = chunkTypeMinlzCompressedDataCompCrc then
    let body := c.body.drop checksumSize
    body.drop ((getUvarint body).elim 0 Prod.snd)
  else block

/-- The chunk holds this block, and its checksum says so. -/
def Verifies (c : Chunk) (block : List UInt8) : Prop :=
  c.block = some block ∧ (Crc.maskedCrc32c (c.covered block)).toNat = c.checksum

/-- The block of a chunk, for a reader that may look away from the checksum. -/
def accepted (ignoreCrc : Bool) (c : Chunk) : Option (List UInt8) :=
  c.block.filter fun out =>
    ignoreCrc || (Crc.maskedCrc32c (c.covered out)).toNat = c.checksum

/-- The bytes of a chunk at their positions; those that are not to be delivered are
    only counted. -/
def content (ignoreCrc : Bool) (c : Chunk) : List (Option UInt8) :=
  match c.accepted ignoreCrc with
  | some out => out.map some
  | none => List.replicate c.blockLen none

theorem accepted_verifies {c : Chunk} {out : List UInt8} (h : c.accepted false = some out) :
    c.Verifies out := by
  simpa [accepted, Option.filter_eq_some_iff, Verifies] using h

theorem isData_of_hasBlock {c : Chunk} (h : HasBlock c.kind) : c.IsData := by
  rw [IsData]
  rcases h with (h | h) | h <;> simp only [h, true_or, or_true]

theorem coded_ne {kind : UInt8} (coded : IsCoded kind) : kind ≠ chunkTypeUncompressedData := by
  rintro rfl
  exact absurd coded (by decide)

theorem blockLen_coded {c : Chunk} {n : Nat} (coded : IsCoded c.kind)
    (long : ¬c.body.length < checksumSize)
    (h : Block.decodedLenChunkBody (c.body.drop checksumSize) = .ok n) : c.blockLen = n := by
  rw [Block.decodedLenChunkBody] at h
  obtain ⟨⟨dlen, body⟩, splits, equal⟩ := Effects.bind_eq_ok h
  cases equal
  rw [blockLen, if_pos (isData_of_hasBlock (.inl coded)), declared, if_neg long,
    if_neg (coded_ne coded), Block.splitChunkBody_varint splits]
  rfl

theorem blockLen_stored {c : Chunk} (stored : c.kind = chunkTypeUncompressedData)
    (long : ¬c.body.length < checksumSize) : c.blockLen = c.body.length - checksumSize := by
  rw [blockLen, if_pos (isData_of_hasBlock (.inr stored)), declared, if_neg long, if_pos stored]
  rfl

theorem length_block {c : Chunk} {out : List UInt8} (h : c.block = some out) :
    out.length = c.blockLen := by
  rw [block] at h
  split at h
  · cases h
  · next long =>
      simp only at h
      split at h
      · next stored =>
          cases h
          rw [blockLen_stored stored long, List.length_drop]
      · next not_stored =>
          split at h
          · next coded =>
              have cases := Block.appendDecodedChunkBody_cases (fun _ => 0) []
                (c.body.drop checksumSize)
              rw [h] at cases
              exact (blockLen_coded coded long cases.2).symm
          · cases h

theorem length_content (ignoreCrc : Bool) (c : Chunk) :
    (c.content ignoreCrc).length = c.blockLen := by
  rw [content]
  cases accepts : c.accepted ignoreCrc with
  | none => exact List.length_replicate
  | some out =>
      rw [List.length_map]
      exact length_block (Option.filter_eq_some_iff.mp accepts).1

theorem content_other {c : Chunk} (ignoreCrc : Bool) (h : ¬c.IsData) : c.content ignoreCrc = [] := by
  apply List.eq_nil_of_length_eq_zero
  rw [length_content, blockLen, if_neg h]

end Chunk

/-- What the stream decodes to, as far as its chunks are all there. -/
def content (ignoreCrc : Bool) (data : List UInt8) : List (Option UInt8) :=
  (chunks data).flatMap (Chunk.content ignoreCrc)

theorem content_next {ignoreCrc : Bool} {data rest : List UInt8} {c : Chunk}
    (h : Chunk.next data = some (c, rest)) :
    content ignoreCrc data = c.content ignoreCrc ++ content ignoreCrc rest := by
  rw [content, chunks_next h, List.flatMap_cons, content]

theorem content_end (ignoreCrc : Bool) {data : List UInt8} (h : Chunk.next data = none) :
    content ignoreCrc data = [] := by
  rw [content, chunks_end h, List.flatMap_nil]

end Stream

end MinLz
