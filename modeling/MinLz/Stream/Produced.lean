import MinLz.Block.CodecCorrect
import MinLz.Stream.Content
import MinLz.Stream.Writer

/-! # What a writer produces

The bytes that a writer has handed to its sink are a stream identifier and chunks that
carry its payload, up to what it still buffers. When it is closed, the chunk that ends
the stream follows.
-/

namespace MinLz

namespace Stream

open Block (maxBlockSize)
open Machine (Overflow)
open Effects Loop

/-- What a writer asks of the block codec: a body that is kept decodes to its block. -/
def KeptDecodes (level : Block.Level) : Prop :=
  ∀ block body, block.length ≤ maxBlockSize →
    Block.appendEncodedChunkBody level [] (Slice.ofList block) = .ok (body, true) →
    body.length < block.length ∧
      ∀ mem out, Block.appendDecodedChunkBody mem out body = .ok (out ++ block)

theorem keptDecodes_of {level : Block.Level}
    (appends : ∀ block : List UInt8, block.length ≤ maxBlockSize →
      Block.AppendsChunk level [] (Slice.ofList block)) : KeptDecodes level := by
  intro block body small kept
  rcases appends block small with refused | ⟨body', appended, shorter, decodes⟩
  · cases refused.symm.trans kept
  · cases appended.symm.trans kept
    refine ⟨shorter, fun mem out => ?_⟩
    rw [List.nil_append, decodes, Slice.toList_ofList]

theorem keptDecodes_balanced : KeptDecodes .balanced :=
  keptDecodes_of fun _ small => Block.appendEncodedChunkBody_ok small [] fun long =>
    Block.L2.encodeBlock_ok (Block.room_chunk long small) rfl

def identifier (blockSize : Nat) : Chunk :=
  ⟨chunkTypeStreamIdentifier, magicBody ++ [blockSizeIndicator blockSize]⟩

theorem identifier_fits (blockSize : Nat) : (identifier blockSize).Fits := by
  show magicBodyLen < 2 ^ 24
  decide

def dataChunk (kind : UInt8) (block body : List UInt8) : Chunk :=
  ⟨kind, Slice.leBytes 4 (Crc.maskedCrc32c block).toNat ++ body⟩

/-- The chunk that ends a stream of `total` bytes. -/
def eofOf (total : Nat) : Chunk := ⟨chunkTypeEof, Leb128.encode total⟩

/-- Its bytes, the length in one of them. -/
def eofMarker (total : Nat) : List UInt8 :=
  let tmp := Leb128.encode total
  [chunkTypeEof, UInt8.ofNat tmp.length, 0, 0] ++ tmp

/-- The chunk does not end the stream, and carries these bytes. -/
structure Chunk.Carries (c : Chunk) (bytes : List UInt8) : Prop where
  fits : c.Fits
  goes_on : c.kind ≠ chunkTypeEof
  content : ∀ ignoreCrc, c.content ignoreCrc = bytes.map some

theorem bytes_identifier (blockSize : Nat) :
    (identifier blockSize).bytes = makeStreamHeader blockSize := rfl

theorem bytes_dataChunk (kind : UInt8) (block body : List UInt8) :
    (dataChunk kind block body).bytes = dataHeader kind body.length block ++ body := by
  simp [Chunk.bytes, dataChunk, dataHeader, checksumSize]

theorem eofBytes_eq {total : Nat} (small : total < 2 ^ 64) :
    eofBytes total = .ok (eofMarker total) := by
  have room : maxVarintLen64 ≤ (List.replicate maxVarintLen64 (0 : UInt8)).length := by simp
  have put := putUvarint_room small room
  simp [eofBytes, put, word, eofMarker]

theorem emitEof_eq {σ : Type} (m : Overflow) (sink : Sink σ) {s : Writer σ}
    (small : s.uncompWritten < 2 ^ 64) :
    emitEof m sink s = writeAllTracked m sink (eofMarker s.uncompWritten) s := by
  unfold emitEof
  rw [get_bind, eofBytes_eq small]
  rfl

theorem bytes_eofOf (total : Nat) : (eofOf total).bytes = eofMarker total := by
  have short := Leb128.length_encode total
  have low : (Leb128.encode total).length >>> 8 = 0 ∧ (Leb128.encode total).length >>> 16 = 0 := by
    simp only [Nat.shiftRight_eq_div_pow]
    omega
  simp [Chunk.bytes, eofOf, eofMarker, chunkLength, low]

theorem eofOf_fits (total : Nat) : (eofOf total).Fits := by
  have short := Leb128.length_encode total
  show (Leb128.encode total).length < 2 ^ 24
  omega

theorem checksum_dataChunk (kind : UInt8) (block body : List UInt8) :
    (dataChunk kind block body).checksum = (Crc.maskedCrc32c block).toNat := by
  set crc := (Crc.maskedCrc32c block).toNat with value
  have small : crc < 256 ^ 4 := (Crc.maskedCrc32c block).toNat_lt
  have holds : (Slice.ofList (Slice.leBytes 4 crc ++ body)).Holds 0 (Slice.leBytes 4 crc) := by
    intro k h
    have inside : k < (Slice.leBytes 4 crc ++ body).length := by
      rw [List.length_append]
      omega
    simp only [Slice.ofList, Nat.zero_add]
    rw [List.getD_eq_getElem _ _ inside, List.getElem_append_left h]
  have read := holds.word
  rw [Nat.mod_eq_of_lt small] at read
  exact read

theorem drop_dataChunk (kind : UInt8) (block body : List UInt8) :
    (dataChunk kind block body).body.drop checksumSize = body :=
  List.drop_left' (Slice.length_leBytes 4 _)

/-- A reader takes the block that the body of a data chunk holds. -/
theorem accepted_dataChunk {kind : UInt8} {block body : List UInt8}
    (plain : kind = chunkTypeUncompressedData ∨ kind = chunkTypeMinlzCompressedData)
    (holds : (dataChunk kind block body).block = some block) (ignoreCrc : Bool) :
    (dataChunk kind block body).accepted ignoreCrc = some block := by
  have covered : (dataChunk kind block body).covered block = block := by
    rw [Chunk.covered, if_neg]
    rcases plain with rfl | rfl <;> simp only [dataChunk] <;> decide
  rw [Chunk.accepted, holds, Option.filter_some, covered, checksum_dataChunk, if_pos (by simp)]

/-- A data chunk with a body that holds the block. -/
theorem carries_dataChunk {kind : UInt8} {block body : List UInt8} (small : body.length ≤ maxBlockSize)
    (plain : kind = chunkTypeUncompressedData ∨ kind = chunkTypeMinlzCompressedData)
    (holds : (dataChunk kind block body).block = some block) :
    (dataChunk kind block body).Carries block := by
  have cap : maxBlockSize < 2 ^ 23 + 1 := by decide
  refine ⟨?_, ?_, fun ignoreCrc => ?_⟩
  · simp only [Chunk.Fits, dataChunk, List.length_append, Slice.length_leBytes]
    omega
  · rcases plain with rfl | rfl <;> simp only [dataChunk] <;> decide
  · rw [Chunk.content, accepted_dataChunk plain holds]

theorem holds_stored (block : List UInt8) :
    (dataChunk chunkTypeUncompressedData block block).block = some block := by
  rw [Chunk.block, drop_dataChunk, if_neg (by simp [dataChunk, checksumSize])]
  rfl

theorem carries_stored {block : List UInt8} (small : block.length ≤ maxBlockSize) :
    (dataChunk chunkTypeUncompressedData block block).Carries block :=
  carries_dataChunk small (.inl rfl) (holds_stored block)

theorem holds_coded {level : Block.Level} (codec : KeptDecodes level) {block body : List UInt8}
    (small : block.length ≤ maxBlockSize)
    (kept : Block.appendEncodedChunkBody level [] (Slice.ofList block) = .ok (body, true)) :
    (dataChunk chunkTypeMinlzCompressedData block body).block = some block := by
  have decodes := (codec block body small kept).2
  rw [Chunk.block, drop_dataChunk, if_neg (by simp [dataChunk, checksumSize])]
  have cases := Block.appendDecodedChunkBody_cases (fun _ => 0) [] body
  show Block.decodedChunk body = some block
  cases decoded : Block.decodedChunk body with
  | none =>
      rw [decoded, decodes] at cases
      obtain ⟨e, absurd⟩ := cases
      cases absurd
  | some out =>
      rw [decoded, decodes] at cases
      obtain ⟨same, _⟩ := cases
      cases same
      rfl

theorem carries_coded {level : Block.Level} (codec : KeptDecodes level) {block body : List UInt8}
    (small : block.length ≤ maxBlockSize)
    (kept : Block.appendEncodedChunkBody level [] (Slice.ofList block) = .ok (body, true)) :
    (dataChunk chunkTypeMinlzCompressedData block body).Carries block := by
  have shorter := (codec block body small kept).1
  exact carries_dataChunk (by omega) (.inr rfl) (holds_coded codec small kept)

theorem carries_user {id : UInt8} {data : List UInt8}
    (user : minUserSkippableChunk ≤ id ∧ id ≤ maxUserNonSkippableChunk)
    (small : data.length ≤ maxUserChunkSize) : (⟨id, data⟩ : Chunk).Carries [] := by
  have high : ∀ kind, kind < minUserSkippableChunk → id ≠ kind := by
    rintro kind low rfl
    exact absurd low (UInt8.not_lt.mpr user.1)
  have cap : maxUserChunkSize < 2 ^ 24 := by decide
  refine ⟨lt_of_le_of_lt small cap, high _ (by decide), fun ignoreCrc => ?_⟩
  rw [Chunk.content_other]
  · rfl
  · rintro (h | h | h | h) <;> exact high _ (by decide) h

/-- The chunks carry these bytes one after the other. -/
structure Carry (cs : List Chunk) (bytes : List UInt8) : Prop where
  fit : ∀ c ∈ cs, c.Fits
  go_on : ∀ c ∈ cs, c.kind ≠ chunkTypeEof
  content : ∀ ignoreCrc, cs.flatMap (Chunk.content ignoreCrc) = bytes.map some

theorem carry_nil : Carry [] [] :=
  ⟨fun _ h => absurd h List.not_mem_nil, fun _ h => absurd h List.not_mem_nil, fun _ => rfl⟩

theorem Carry.snoc {cs : List Chunk} {c : Chunk} {bytes more : List UInt8} (h : Carry cs bytes)
    (last : c.Carries more) : Carry (cs ++ [c]) (bytes ++ more) := by
  refine ⟨fun d hd => ?_, fun d hd => ?_, fun ignoreCrc => ?_⟩
  · rcases List.mem_append.mp hd with hd | hd
    · exact h.fit d hd
    · rw [List.mem_singleton.mp hd]
      exact last.fits
  · rcases List.mem_append.mp hd with hd | hd
    · exact h.go_on d hd
    · rw [List.mem_singleton.mp hd]
      exact last.goes_on
  · rw [List.flatMap_append, List.flatMap_singleton, h.content, last.content, List.map_append]

/-- Bytes have been appended to the sink; the count of them and the index may have moved. -/
def Puts (s : Writer (List UInt8)) (p : List UInt8) (s' : Writer (List UInt8)) : Prop :=
  ∃ idx n, s' = { s with w := s.w ++ p, index := idx, compWritten := n }

theorem Puts.trans {s s1 s2 : Writer (List UInt8)} {p q : List UInt8} (h : Puts s p s1)
    (h2 : Puts s1 q s2) : Puts s (p ++ q) s2 := by
  obtain ⟨idx1, n1, rfl⟩ := h
  obtain ⟨idx2, n2, rfl⟩ := h2
  exact ⟨idx2, n2, by simp only [List.append_assoc]⟩

/-- The run satisfies `Q` if it does not fail. -/
abbrev Leaves {α : Type} (x : Emit (List UInt8) α) (s : Writer (List UInt8))
    (Q : α → Writer (List UInt8) → Prop) : Prop :=
  Runs x s Q fun _ _ => True

section Calls

variable (m : Overflow) {s : Writer (List UInt8)}

/-- A step that leaves the state alone and that a panic or an error may end. -/
theorem Leaves.lift {α β : Type} {x : Except (Stop IoError) α} {f : α → Emit (List UInt8) β}
    {Q : β → Writer (List UInt8) → Prop} (next : ∀ a, x = .ok a → Leaves (f a) s Q) :
    Leaves ((liftM x : Emit (List UInt8) α) >>= f) s Q := by
  cases run : x with
  | ok a => exact Runs.step rfl (next a run)
  | error e => exact runs_error (bind_error rfl) trivial

theorem word_eq_ok {ε α : Type} {x : Option α} {a : α}
    (h : (word x : Except (Stop ε) α) = .ok a) : x = some a := by
  cases x with
  | some b =>
      cases h
      rfl
  | none => cases h

theorem putRaw_vec (p : List UInt8) : putRaw Sink.vec p s = .ok () { s with w := s.w ++ p } := rfl

theorem countWritten_leaves (n : Nat) :
    Leaves (countWritten m n) s fun _ s' => Puts s [] s' := by
  refine Runs.step rfl (Leaves.lift fun total _ => ?_)
  exact runs_ok rfl ⟨s.index, total, by simp⟩

theorem writeAllTracked_leaves (p : List UInt8) :
    Leaves (writeAllTracked m Sink.vec p) s fun _ s' => Puts s p s' := by
  refine Runs.step (putRaw_vec p) ((countWritten_leaves m _).mono ?_ fun _ _ h => h)
  rintro _ _ ⟨idx, n, rfl⟩
  exact ⟨idx, n, by simp only [List.append_nil]⟩

theorem addToIndex_leaves : Leaves (addToIndex m) s fun _ s' => Puts s [] s' := by
  refine Runs.step rfl ?_
  split
  · exact runs_pure ⟨s.index, s.compWritten, by simp⟩
  · exact Leaves.lift fun idx _ => runs_ok rfl ⟨some idx, s.compWritten, by simp⟩

theorem encodeBody_kept {block body : List UInt8} (h : encodeBody s block = .ok (some body)) :
    Block.appendEncodedChunkBody s.level [] (Slice.ofList block) = .ok (body, true) := by
  rw [encodeBody] at h
  split at h
  · cases h
  · obtain ⟨⟨obuf, ok⟩, run, h⟩ := bind_eq_ok h
    cases ok with
    | false => cases h
    | true =>
        cases h
        cases call : Block.appendEncodedChunkBody s.level [] (Slice.ofList block) with
        | ok r =>
            rw [call] at run
            cases run
            rfl
        | error e =>
            rw [call] at run
            cases e <;> cases run

theorem emitBlock_leaves {block : List UInt8} (codec : KeptDecodes s.level)
    (small : block.length ≤ maxBlockSize) :
    Leaves (emitBlock m Sink.vec block) s
      fun _ s' => ∃ c : Chunk, c.Carries block ∧ Puts s c.bytes s' := by
  refine (addToIndex_leaves m).bind fun _ s1 added => ?_
  have level : s1.level = s.level := by
    obtain ⟨idx, n, rfl⟩ := added
    rfl
  refine Runs.step rfl (Leaves.lift fun kept encodes => ?_)
  cases kept with
  | none =>
      refine (writeAllTracked_leaves m _).bind fun _ s2 header => ?_
      refine (writeAllTracked_leaves m _).mono (fun _ s3 body => ?_) fun _ _ h => h
      refine ⟨_, carries_stored small, ?_⟩
      rw [bytes_dataChunk]
      exact added.trans (header.trans body)
  | some body =>
      refine (writeAllTracked_leaves m _).bind fun _ s2 header => ?_
      refine (writeAllTracked_leaves m _).mono (fun _ s3 put => ?_) fun _ _ h => h
      refine ⟨_, carries_coded codec small (level ▸ encodeBody_kept encodes), ?_⟩
      rw [bytes_dataChunk]
      exact added.trans (header.trans put)

end Calls

/-- Once the writer has begun, its sink holds a stream that carries the payload so far. -/
structure Wrote (b : WriterBuilder) (s : Writer (List UInt8)) (payload : List UInt8) : Prop where
  blockSize : s.blockSize = b.blockSize
  level : s.level = b.level
  flushOnWrite : s.flushOnWrite = b.flushOnWrite
  total : s.uncompWritten = payload.length % 2 ^ 64
  started : if s.wroteHeader then
      ∃ cs, s.w = (identifier b.blockSize :: cs).flatMap Chunk.bytes ∧ Carry cs payload
    else s.w = [] ∧ payload = []

/-- The writer has written this much, and it has begun. -/
def Begun (b : WriterBuilder) (s : Writer (List UInt8)) (payload : List UInt8) : Prop :=
  Wrote b s payload ∧ s.wroteHeader = true

section Writes

variable (m : Overflow) {b : WriterBuilder} {s : Writer (List UInt8)} {payload : List UInt8}

theorem Begun.chunks (h : Begun b s payload) :
    ∃ cs, s.w = (identifier b.blockSize :: cs).flatMap Chunk.bytes ∧ Carry cs payload := by
  have started := h.1.started
  rwa [if_pos h.2] at started

/-- A chunk that has been written, and whose bytes have been counted. -/
theorem Begun.snoc (h : Begun b s payload) {c : Chunk} {bytes : List UInt8} (carries : c.Carries bytes)
    {s1 : Writer (List UInt8)} (puts : Puts s c.bytes s1) {total : Nat}
    (counted : total = (s.uncompWritten + bytes.length) % 2 ^ 64) :
    Begun b { s1 with uncompWritten := total } (payload ++ bytes) ∧ s1.ibuf = s.ibuf := by
  obtain ⟨cs, w, carry⟩ := h.chunks
  obtain ⟨idx, n, rfl⟩ := puts
  have total := h.1.total
  refine ⟨⟨⟨h.1.blockSize, h.1.level, h.1.flushOnWrite, ?_, ?_⟩, h.2⟩, rfl⟩
  · rw [List.length_append]
    simp only
    omega
  · simp only
    rw [if_pos h.2]
    refine ⟨cs ++ [c], ?_, carry.snoc carries⟩
    rw [w, ← List.cons_append, List.flatMap_append, List.flatMap_singleton]

theorem Wrote.ensureHeader (h : Wrote b s payload) :
    Leaves (ensureHeader m Sink.vec) s fun _ s' => Begun b s' payload ∧ s'.ibuf = s.ibuf := by
  refine Runs.step rfl ?_
  cases header : s.wroteHeader with
  | true => exact runs_ok rfl ⟨⟨h, header⟩, rfl⟩
  | false =>
      have started := h.started
      rw [header, if_neg Bool.false_ne_true] at started
      obtain ⟨empty, rfl⟩ := started
      refine (writeAllTracked_leaves m _).bind fun _ s1 puts => ?_
      obtain ⟨idx, n, rfl⟩ := puts
      refine runs_ok rfl ⟨⟨⟨h.blockSize, h.level, h.flushOnWrite, h.total, ?_⟩, rfl⟩, rfl⟩
      simp only [if_true]
      refine ⟨[], ?_, carry_nil⟩
      rw [empty, h.blockSize, List.flatMap_singleton, bytes_identifier, List.nil_append]

theorem countAccepted_leaves (n : Nat) :
    Leaves (countAccepted m n) s
      fun _ s' => s' = { s with uncompWritten := (s.uncompWritten + n) % 2 ^ 64 } := by
  refine Runs.step rfl (Leaves.lift fun total counted => ?_)
  have cast : ((s.uncompWritten : Int) + n) = ((s.uncompWritten + n : Nat) : Int) := by
    push_cast
    rfl
  have value : total = (s.uncompWritten + n) % 2 ^ 64 := by
    have some := word_eq_ok counted
    rw [cast] at some
    exact Machine.unsigned_eq_some some
  exact runs_ok rfl (by rw [value])

variable (codec : KeptDecodes b.level) (large : b.blockSize ≤ maxBlockSize) (pos : 0 < b.blockSize)

include codec large pos

theorem Begun.writeBlock {data : List UInt8} (some : data ≠ []) (h : Begun b s payload) :
    Leaves (writeBlock m Sink.vec data) s fun r s' => s'.ibuf = s.ibuf ∧ ∃ n, 0 < n ∧
      r = .next (data.drop n) ∧ Begun b s' (payload ++ data.take n) := by
  rw [Stream.writeBlock, if_neg some]
  refine Runs.step rfl ?_
  set n := min data.length s.blockSize with taken
  have size := h.1.blockSize
  have length : (data.take n).length = n := by
    rw [List.length_take]
    omega
  have positive : 0 < n := by
    have := List.length_pos_iff.mpr some
    omega
  refine (emitBlock_leaves m (h.1.level ▸ codec) (by omega)).bind ?_
  rintro _ s1 ⟨c, carries, puts⟩
  refine (countAccepted_leaves m n).bind ?_
  rintro _ _ rfl
  have counted : s1.uncompWritten = s.uncompWritten := by
    obtain ⟨idx, k, rfl⟩ := puts
    rfl
  obtain ⟨begun, same⟩ := h.snoc carries puts
    (show (s1.uncompWritten + n) % 2 ^ 64 = _ by rw [counted, length])
  exact runs_pure ⟨same, n, positive, rfl, begun⟩

theorem Wrote.writeBlocks (data : List UInt8) (h : Wrote b s payload) :
    Leaves (writeBlocks m Sink.vec data) s
      fun _ s' => Begun b s' (payload ++ data) ∧ s'.ibuf = s.ibuf := by
  refine (h.ensureHeader m).bind ?_
  rintro _ s1 ⟨begun, same⟩
  refine runs_runM (fun rest s' => s'.ibuf = s.ibuf ∧
      ∃ done, Begun b s' done ∧ done ++ rest = payload ++ data)
    (fun rest _ => rest.length) ?_ ⟨same, payload, begun, rfl⟩ (Nat.lt_succ_self _)
  rintro rest s2 ⟨same, done, begun, split⟩
  by_cases none : rest = []
  · rw [Stream.writeBlock, if_pos none]
    rw [none, List.append_nil] at split
    exact runs_pure ⟨split ▸ begun, same⟩
  · refine (begun.writeBlock m codec large pos none).mono ?_ fun _ _ h => h
    rintro _ s3 ⟨same', n, positive, rfl, begun⟩
    refine ⟨⟨same'.trans same, _, begun, ?_⟩, ?_⟩
    · rw [List.append_assoc, List.take_append_drop, split]
    · have := List.length_pos_iff.mpr none
      show (rest.drop n).length < rest.length
      rw [List.length_drop]
      omega

theorem Wrote.flushIbuf (h : Wrote b s payload) :
    Leaves (flushIbuf m Sink.vec) s
      fun _ s' => Wrote b s' (payload ++ s.ibuf) ∧ s'.ibuf = [] := by
  refine Runs.step rfl ?_
  simp only
  split
  · next none => exact runs_pure ⟨by rwa [none, List.append_nil], none⟩
  · refine Runs.step rfl ?_
    have emptied : Wrote b { s with ibuf := [] } payload :=
      ⟨h.blockSize, h.level, h.flushOnWrite, h.total, h.started⟩
    refine (emptied.writeBlocks m codec large pos s.ibuf).mono ?_ fun _ _ h => h
    rintro _ s1 ⟨begun, same⟩
    exact ⟨begun.1, same⟩

end Writes

/-- The writer has been given these bytes, and has written all but those it buffers. -/
structure Holds (b : WriterBuilder) (s : Writer (List UInt8)) (total : List UInt8) : Prop where
  wrote : ∃ payload, Wrote b s payload ∧ payload ++ s.ibuf = total
  room : s.ibuf.length < s.blockSize
  direct : s.flushOnWrite = true → s.ibuf = []

section Calls

variable (m : Overflow) {b : WriterBuilder} {s : Writer (List UInt8)} {total : List UInt8}

theorem checkWriter_leaves {α : Type} {f : Emit (List UInt8) α} {Q : α → Writer (List UInt8) → Prop}
    (next : Leaves f s Q) : Leaves (checkWriter >>= fun _ => f) s Q := by
  cases failed : s.err with
  | some e =>
      have stops : checkWriter s = .error (.error e) s := by
        refine (get_bind _ _).trans ?_
        rw [failed]
        rfl
      exact runs_error (bind_error stops) trivial
  | none =>
      refine Runs.step (?_ : checkWriter s = .ok () s) next
      refine (get_bind _ _).trans ?_
      rw [failed]
      rfl

/-- With its buffer empty, the writer holds what it has written. -/
theorem Wrote.holds {payload : List UInt8} (h : Wrote b s payload) (pos : 0 < b.blockSize)
    (empty : s.ibuf = []) : Holds b s payload := by
  refine ⟨⟨payload, h, by rw [empty, List.append_nil]⟩, ?_, fun _ => empty⟩
  rw [empty, h.blockSize]
  exact pos

variable (codec : KeptDecodes b.level) (large : b.blockSize ≤ maxBlockSize) (pos : 0 < b.blockSize)

include codec large pos

theorem Holds.flushIbuf (h : Holds b s total) :
    Leaves (flushIbuf m Sink.vec) s fun _ s' => Wrote b s' total ∧ s'.ibuf = [] := by
  obtain ⟨payload, wrote, rfl⟩ := h.wrote
  exact wrote.flushIbuf m codec large pos

/-- Whole blocks go past the buffer. -/
theorem Holds.bypass (h : Holds b s total) (empty : s.ibuf = []) (p : List UInt8) :
    Leaves (writeBlocks m Sink.vec p) s fun _ s' => Holds b s' (total ++ p) := by
  obtain ⟨payload, wrote, rfl⟩ := h.wrote
  refine (wrote.writeBlocks m codec large pos p).mono ?_ fun _ _ h => h
  rintro _ s' ⟨begun, same⟩
  rw [empty, List.append_nil]
  exact begun.1.holds pos (same.trans empty)

/-- The buffer takes what it has room for, and is written out when it is full. -/
theorem Holds.buffer (h : Holds b s total) (buffers : s.flushOnWrite = false) {p : List UInt8}
    (fits : p.length ≤ s.blockSize - s.ibuf.length) :
    Leaves (do
      if (s.ibuf ++ p).length = s.blockSize then Stream.flushIbuf m Sink.vec else pure ())
      { s with ibuf := s.ibuf ++ p } fun _ s' => Holds b s' (total ++ p) := by
  obtain ⟨payload, wrote, rfl⟩ := h.wrote
  have room := h.room
  have wrote1 : Wrote b { s with ibuf := s.ibuf ++ p } payload :=
    ⟨wrote.blockSize, wrote.level, wrote.flushOnWrite, wrote.total, wrote.started⟩
  split
  · refine (wrote1.flushIbuf m codec large pos).mono ?_ fun _ _ h => h
    rintro _ s' ⟨wrote', empty⟩
    rw [List.append_assoc]
    exact wrote'.holds pos empty
  · next short =>
      refine runs_pure ⟨⟨payload, wrote1, (List.append_assoc _ _ _).symm⟩, ?_, fun direct => ?_⟩
      · rw [List.length_append] at short
        simp only [List.length_append]
        omega
      · exact absurd (buffers.symm.trans direct) Bool.false_ne_true

theorem Holds.writeStep (h : Holds b s total) (buffers : s.flushOnWrite = false) {p : List UInt8}
    (some : p ≠ []) (written : Nat) :
    Leaves (writeStep m Sink.vec (p, written)) s fun r s' => ∃ n, 0 < n ∧ n ≤ p.length ∧
      r = .next (p.drop n, written + n) ∧ Holds b s' (total ++ p.take n) := by
  have size : s.blockSize = b.blockSize := by
    obtain ⟨_, wrote, _⟩ := h.wrote
    exact wrote.blockSize
  have cap : maxBlockSize < 2 ^ 64 := by decide
  have room := h.room
  have length := List.length_pos_iff.mpr some
  have cast : (s.blockSize : Int) - s.ibuf.length = ((s.blockSize - s.ibuf.length : Nat) : Int) := by
    omega
  rw [Stream.writeStep]
  simp only [if_neg some]
  refine Runs.step rfl (Leaves.lift fun free run => ?_)
  rw [cast, Machine.unsigned_ok m (by omega)] at run
  cases run
  split
  · next whole =>
      have rest := Nat.mod_lt p.length (show 0 < s.blockSize by omega)
      refine (h.bypass m codec large pos whole.1 _).bind fun _ s' holds => ?_
      exact runs_pure ⟨_, by omega, by omega, rfl, holds⟩
  · refine Runs.step rfl (Runs.step rfl ?_)
    set n := min p.length (s.blockSize - s.ibuf.length) with taken
    have size : (p.take n).length = n := by
      rw [List.length_take]
      omega
    have next := h.buffer m codec large pos buffers (p := p.take n) (by omega)
    by_cases full : (s.ibuf ++ p.take n).length = s.blockSize
    · rw [if_pos full] at next
      refine (if_pos full).symm ▸ next.bind fun _ s' holds => ?_
      exact runs_pure ⟨n, by omega, by omega, rfl, holds⟩
    · rw [if_neg full] at next
      refine (if_neg full).symm ▸ runs_pure ⟨n, by omega, by omega, rfl, next.ok rfl⟩

theorem Holds.write (h : Holds b s total) (p : List UInt8) :
    Leaves (write m Sink.vec p) s fun n s' => Holds b s' (total ++ p) ∧ n = p.length := by
  refine checkWriter_leaves ?_
  split
  · next none => exact runs_pure ⟨by rwa [none, List.append_nil], by rw [none]; rfl⟩
  · refine Runs.step rfl ?_
    cases direct : s.flushOnWrite with
    | true =>
        refine (h.bypass m codec large pos (h.direct direct) p).bind fun _ s' holds => ?_
        exact runs_pure ⟨holds, rfl⟩
    | false =>
        refine runs_runM (fun t s' => s'.flushOnWrite = false ∧ t.2 + t.1.length = p.length ∧
            ∃ front, Holds b s' front ∧ front ++ t.1 = total ++ p)
          (fun t _ => t.1.length) ?_ ⟨direct, Nat.zero_add _, total, h, rfl⟩ (Nat.lt_succ_self _)
        rintro ⟨rest, written⟩ s1 ⟨buffers, count, front, holds, split⟩
        by_cases none : rest = []
        · subst none
          rw [List.append_nil] at split
          have ends : Stream.writeStep m Sink.vec ([], written) s1 = .ok (.done written) s1 := rfl
          refine runs_ok ends ⟨split ▸ holds, ?_⟩
          rw [List.length_nil, Nat.add_zero] at count
          exact count
        · refine (holds.writeStep m codec large pos buffers none written).mono ?_ fun _ _ h => h
          rintro _ s2 ⟨n, positive, within, rfl, holds2⟩
          have same : s2.flushOnWrite = s1.flushOnWrite := by
            obtain ⟨_, wrote1, _⟩ := holds.wrote
            obtain ⟨_, wrote2, _⟩ := holds2.wrote
            rw [wrote1.flushOnWrite, wrote2.flushOnWrite]
          refine ⟨⟨same.trans buffers, ?_, _, holds2, ?_⟩, ?_⟩
          · simp only [List.length_drop] at count ⊢
            omega
          · rw [List.append_assoc, List.take_append_drop, split]
          · show (rest.drop n).length < rest.length
            rw [List.length_drop]
            omega

theorem Holds.flush (h : Holds b s total) :
    Leaves (flush m Sink.vec) s fun _ s' => Holds b s' total := by
  refine checkWriter_leaves ((h.flushIbuf m codec large pos).bind ?_)
  rintro _ s' ⟨wrote, empty⟩
  exact runs_ok rfl (wrote.holds pos empty)

theorem Holds.addUserChunk (h : Holds b s total) (id : UInt8) (data : List UInt8) :
    Leaves (addUserChunk m Sink.vec id data) s fun _ s' => Holds b s' total := by
  rw [Stream.addUserChunk]
  split
  · exact runs_error rfl trivial
  · next user =>
      split
      · exact runs_error rfl trivial
      · next small =>
          have carries := carries_user (not_not.mp user) (Nat.not_lt.mp small)
          refine checkWriter_leaves ((h.flushIbuf m codec large pos).bind ?_)
          rintro _ s1 ⟨wrote, empty⟩
          refine (wrote.ensureHeader m).bind ?_
          rintro _ s2 ⟨begun, same⟩
          refine (writeAllTracked_leaves m _).bind fun _ s3 header => ?_
          refine (writeAllTracked_leaves m _).mono (fun _ s4 body => ?_) fun _ _ h => h
          have puts := header.trans body
          have counted : s4.uncompWritten = (s2.uncompWritten + 0) % 2 ^ 64 := by
            have total := begun.1.total
            obtain ⟨idx, n, rfl⟩ := puts
            simp only
            omega
          obtain ⟨after, kept⟩ := begun.snoc carries puts counted
          rw [List.append_nil] at after
          exact after.1.holds pos (kept.trans (same.trans empty))

end Calls

section Closing

variable (m : Overflow) {b : WriterBuilder} {s : Writer (List UInt8)} {total : List UInt8}

/-- Something has been appended to the sink. -/
def Adds (s s' : Writer (List UInt8)) : Prop := ∃ p, Puts s p s'

theorem adds_refl (s : Writer (List UInt8)) : Adds s s := ⟨[], s.index, s.compWritten, by simp⟩

theorem Adds.trans {s s1 s2 : Writer (List UInt8)} (h : Adds s s1) (h2 : Adds s1 s2) : Adds s s2 := by
  obtain ⟨p, puts⟩ := h
  obtain ⟨q, puts2⟩ := h2
  exact ⟨p ++ q, puts.trans puts2⟩

theorem writeAllTracked_adds (p : List UInt8) :
    Leaves (writeAllTracked m Sink.vec p) s fun _ s' => Adds s s' :=
  (writeAllTracked_leaves m p).mono (fun _ _ puts => ⟨p, puts⟩) fun _ _ h => h

theorem putZeros_adds (n : Nat) : Leaves (putZeros m Sink.vec n) s fun _ s' => Adds s s' := by
  refine runs_runM (fun _ s' => Adds s s') (fun k _ => k) ?_ (adds_refl s) (Nat.lt_succ_self _)
  rintro k s1 adds
  split
  · next some =>
      refine (writeAllTracked_adds m _).bind fun _ s2 adds2 => ?_
      refine runs_pure ⟨adds.trans adds2, ?_⟩
      show k - min k 4096 < k
      omega
  · exact runs_pure adds

theorem putPadding_adds (n : Nat) : Leaves (putPadding m Sink.vec n) s fun _ s' => Adds s s' := by
  refine (writeAllTracked_adds m _).bind fun _ s1 adds => ?_
  exact (putZeros_adds m _).mono (fun _ _ more => adds.trans more) fun _ _ h => h

theorem emitPadding_adds : Leaves (emitPadding m Sink.vec) s fun _ s' => Adds s s' := by
  refine Runs.step rfl ?_
  simp only
  split
  · exact runs_pure (adds_refl s)
  · exact putPadding_adds m _

theorem buildIndexBytes_adds (buildIndex : Bool) :
    Leaves (buildIndexBytes m buildIndex) s fun _ s' => Adds s s' := by
  refine Runs.step rfl ?_
  split
  · exact runs_pure (adds_refl s)
  · cases s.index with
    | none => exact runs_error rfl trivial
    | some idx =>
        refine Leaves.lift fun r _ => Runs.step rfl ?_
        have kept : Adds s { s with index := some r.1 } := ⟨[], some r.1, s.compWritten, by simp⟩
        split
        · refine (countWritten_leaves m _).bind fun _ s1 puts => ?_
          exact runs_pure (kept.trans ⟨[], puts⟩)
        · exact runs_pure kept

theorem putIndex_adds (indexBytes : List UInt8) :
    Leaves (putIndex Sink.vec indexBytes) s fun _ s' => Adds s s' := by
  refine Runs.step rfl ?_
  split
  · exact runs_ok (putRaw_vec _) ⟨indexBytes, s.index, s.compWritten, rfl⟩
  · exact runs_pure (adds_refl s)

/-- A stream that carries the payload, with its end and what may follow. -/
def IsStream (blockSize : Nat) (payload stream : List UInt8) : Prop :=
  ∃ cs tail, stream = (identifier blockSize :: cs).flatMap Chunk.bytes ++
    ((eofOf (payload.length % 2 ^ 64)).bytes ++ tail) ∧ Carry cs payload

theorem IsStream.adds {blockSize : Nat} {payload : List UInt8} {s s' : Writer (List UInt8)}
    (h : IsStream blockSize payload s.w) (adds : Adds s s') : IsStream blockSize payload s'.w := by
  obtain ⟨cs, tail, w, carry⟩ := h
  obtain ⟨p, idx, n, rfl⟩ := adds
  exact ⟨cs, tail ++ p, by simp only [w, List.append_assoc], carry⟩

theorem Begun.emitEof (h : Begun b s total) :
    Leaves (emitEof m Sink.vec) s fun _ s' => IsStream b.blockSize total s'.w := by
  have small : s.uncompWritten < 2 ^ 64 := by
    rw [h.1.total]
    exact Nat.mod_lt _ (by norm_num)
  refine ((writeAllTracked_leaves m _).same (emitEof_eq m _ small)).mono ?_ fun _ _ h => h
  rintro _ s' ⟨idx, n, rfl⟩
  obtain ⟨cs, w, carry⟩ := h.chunks
  refine ⟨cs, [], ?_, carry⟩
  simp only
  rw [w, h.1.total, bytes_eofOf, List.append_nil]

theorem Holds.closeInner (codec : KeptDecodes b.level) (large : b.blockSize ≤ maxBlockSize)
    (pos : 0 < b.blockSize) (h : Holds b s total) (buildIndex : Bool) :
    Leaves (closeInner m Sink.vec buildIndex) s
      fun _ s' => IsStream b.blockSize total s'.w := by
  refine (h.flushIbuf m codec large pos).bind ?_
  rintro _ s1 ⟨wrote, _⟩
  refine (wrote.ensureHeader m).bind ?_
  rintro _ s2 ⟨begun, _⟩
  refine (begun.emitEof m).bind fun _ s3 stream => ?_
  refine (buildIndexBytes_adds m buildIndex).bind fun bytes s4 index => ?_
  refine (emitPadding_adds m).bind fun _ s5 padding => ?_
  refine (putIndex_adds bytes).bind fun _ s6 appended => ?_
  exact runs_ok rfl (stream.adds (index.trans (padding.trans appended)))

end Closing

inductive WriterCall where
  | write (p : List UInt8)
  | flush
  | addUserChunk (id : UInt8) (data : List UInt8)
  deriving DecidableEq, Repr

section Streams

variable {σ : Type} (m : Overflow) (sink : Sink σ)

def WriterCall.run : WriterCall → Emit σ Unit
  | .write p => do
      let _ ← Stream.write m sink p
      return ()
  | .flush => Stream.flush m sink
  | .addUserChunk id data => Stream.addUserChunk m sink id data

/-- The bytes that a call adds to the payload. -/
def WriterCall.payload : WriterCall → List UInt8
  | .write p => p
  | .flush => []
  | .addUserChunk _ _ => []

/-- Calls that succeed, with the payload that they add, or that change nothing. -/
inductive Writes : Writer σ → List UInt8 → Writer σ → Prop where
  | refl (s : Writer σ) : Writes s [] s
  | step {s s1 s2 : Writer σ} {call : WriterCall} {more : List UInt8}
      (run : call.run m sink s = .ok () s1) (rest : Writes s1 more s2) :
      Writes s (call.payload ++ more) s2
  | refused {s s2 : Writer σ} {call : WriterCall} {e : Stop IoError} {more : List UInt8}
      (run : call.run m sink s = .error e s) (rest : Writes s more s2) : Writes s more s2

end Streams

/-- A writer with these options has produced the stream, for this payload. -/
inductive Produced (m : Overflow) (b : WriterBuilder) (payload stream : List UInt8) : Prop where
  | finished {s s1 s2 : Writer (List UInt8)} (built : b.build [] = .ok s)
      (writes : Writes m Sink.vec s payload s1) (closed : finish m Sink.vec s1 = .ok stream s2)
  | indexed {s s1 s2 : Writer (List UInt8)} {index : List UInt8} (built : b.build [] = .ok s)
      (writes : Writes m Sink.vec s payload s1) (closed : closeIndex m Sink.vec s1 = .ok index s2)
      (written : s2.w = stream)

section Produced

variable {m : Overflow} {b : WriterBuilder}

theorem build_holds {s : Writer (List UInt8)} (built : b.build [] = .ok s) :
    Holds b s [] ∧ b.blockSize ≤ maxBlockSize ∧ 0 < b.blockSize := by
  have some : 0 < minBlockSize := by decide
  rw [WriterBuilder.build] at built
  split at built
  · cases built
  · next valid =>
      split at built
      · cases built
      · cases built
        have pos : 0 < b.blockSize := by omega
        have wrote : Wrote b (newWriter [] b) [] := ⟨rfl, rfl, rfl, rfl, rfl, rfl⟩
        exact ⟨wrote.holds pos rfl, by omega, pos⟩

theorem Writes.holds {s s1 : Writer (List UInt8)} {payload total : List UInt8}
    (writes : Writes m Sink.vec s payload s1) (codec : KeptDecodes b.level)
    (large : b.blockSize ≤ maxBlockSize) (pos : 0 < b.blockSize) (h : Holds b s total) :
    Holds b s1 (total ++ payload) := by
  induction writes generalizing total with
  | refl => rwa [List.append_nil]
  | @step s s1 s2 call more run rest ih =>
      rw [← List.append_assoc]
      apply ih
      cases call with
      | write p =>
          have leaves : Leaves (WriterCall.run m Sink.vec (.write p)) s
              fun _ s' => Holds b s' (total ++ p) :=
            (h.write m codec large pos p).bind fun n s' holds => runs_pure holds.1
          exact leaves.ok run
      | flush =>
          rw [WriterCall.payload, List.append_nil]
          exact (h.flush m codec large pos).ok run
      | addUserChunk id data =>
          rw [WriterCall.payload, List.append_nil]
          exact (h.addUserChunk m codec large pos id data).ok run
  | refused _ _ ih => exact ih h

theorem Produced.isStream {payload stream : List UInt8} (h : Produced m b payload stream)
    (codec : KeptDecodes b.level) : IsStream b.blockSize payload stream := by
  cases h with
  | @finished _ s1 _ built writes closed =>
      obtain ⟨empty, large, pos⟩ := build_holds built
      have holds := writes.holds codec large pos empty
      have leaves : Leaves (finish m Sink.vec) s1 fun w s' => IsStream b.blockSize payload w := by
        refine checkWriter_leaves (Runs.step rfl ?_)
        refine (holds.closeInner m codec large pos _).bind fun _ s' stream => ?_
        exact Runs.step rfl (runs_pure stream)
      exact leaves.ok closed
  | @indexed _ s1 _ _ built writes closed written =>
      obtain ⟨empty, large, pos⟩ := build_holds built
      have holds := writes.holds codec large pos empty
      have leaves : Leaves (closeIndex m Sink.vec) s1
          fun _ s' => IsStream b.blockSize payload s'.w := by
        refine checkWriter_leaves (Runs.step rfl ?_)
        split
        · exact runs_error rfl trivial
        · exact holds.closeInner m codec large pos true
      exact written ▸ leaves.ok closed

end Produced

end Stream

end MinLz
