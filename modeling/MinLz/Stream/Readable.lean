import MinLz.Stream.Closing
import MinLz.Stream.NextChunk

/-! # What a reader makes of the chunks of a writer

A chunk that holds a block is read or skipped if the block and the chunk are within the
limits. The identifier allows blocks of the writer's size, and the chunk that ends the
stream states what the blocks come to.
-/

namespace MinLz.Stream

open Block (maxBlockSize)
open Machine (Overflow maxSigned)
open Effects

variable {σ : Type} (mem : Nat → UInt8)

theorem reject_ok {bad : Prop} [Decidable bad] {e : Error} (h : ¬bad) : reject bad e = .ok () :=
  if_neg h

theorem verifyCrc_equal {data : List UInt8} {checksum : Nat}
    (h : (Crc.maskedCrc32c data).toNat = checksum) : verifyCrc data checksum = .ok () := by
  rw [verifyCrc, reject]
  exact if_neg fun differs => differs h

theorem takeBody_append (c : Chunk) (rest : List UInt8) :
    takeBody c.kind c.body.length (c.body ++ rest) = .ok (c, rest) := by
  rw [takeBody, if_pos (by rw [List.length_append]; omega), List.take_left, List.drop_left]

theorem accepted_block {ignoreCrc : Bool} {c : Chunk} {out : List UInt8}
    (h : c.accepted ignoreCrc = some out) :
    c.block = some out ∧ ¬c.body.length < checksumSize ∧
      (ignoreCrc = false → (Crc.maskedCrc32c (c.covered out)).toNat = c.checksum) := by
  obtain ⟨holds, checked⟩ := Option.filter_eq_some_iff.mp h
  refine ⟨holds, fun short => ?_, fun crc => ?_⟩
  · rw [Chunk.block, if_pos short] at holds
    cases holds
  · rw [crc] at checked
    simpa using checked

theorem coded_block {c : Chunk} {out : List UInt8} (coded : IsCoded c.kind)
    (h : c.block = some out) :
    Block.appendDecodedChunkBody mem [] (c.body.drop checksumSize) = .ok out ∧
      Block.decodedLenChunkBody (c.body.drop checksumSize) = .ok out.length := by
  rw [Chunk.block] at h
  split at h
  · cases h
  · simp only [if_neg (Chunk.coded_ne coded)] at h
    have cases := Block.appendDecodedChunkBody_cases mem [] (c.body.drop checksumSize)
    rw [h] at cases
    exact cases

theorem stored_block {c : Chunk} {out : List UInt8} (stored : c.kind = chunkTypeUncompressedData)
    (h : c.block = some out) : out = c.body.drop checksumSize := by
  rw [Chunk.block] at h
  split at h
  · cases h
  · simp only at h
    cases h
    rfl

/-- The chunk is no larger than the buffer of the reader. -/
def Chunk.Buffered (c : Chunk) (self : Reader σ) : Prop :=
  IsCoded c.kind → c.body.length ≤ maxBufSize self

theorem frame_accepted {self : Reader σ} {c : Chunk} {rest out : List UInt8} {ignoreCrc : Bool}
    (block : HasBlock c.kind) (h : c.accepted ignoreCrc = some out)
    (head : self.r = c.body ++ rest) (fits : out.length ≤ self.maxBlock)
    (buffered : c.Buffered self) : frame self c.kind c.body.length = .ok (out.length, c, rest) := by
  obtain ⟨holds, long, _⟩ := accepted_block h
  rw [frame]
  split
  · next coded =>
      have declares := (coded_block (fun _ => 0) coded holds).2
      rw [frameCompressed, head, reject_ok long, reject_ok (Nat.not_lt.mpr (buffered coded)),
        takeBody_append]
      show (ofBlock (Block.decodedLenChunkBody (c.body.drop checksumSize)) >>= _) = _
      rw [declares]
      show (reject (out.length > self.maxBlock) .tooLarge >>= _) = _
      rw [reject_ok (Nat.not_lt.mpr fits)]
      rfl
  · next not_coded =>
      have stored := block.resolve_left not_coded
      have length : c.body.length - checksumSize = out.length := by
        rw [stored_block stored holds, List.length_drop]
      rw [frameUncompressed, head, reject_ok long, length, reject_ok (Nat.not_lt.mpr fits),
        ← stored, takeBody_append]
      rfl

/-- The checksum of a coded chunk is about what it says it is about. -/
theorem toCrc_covered {c : Chunk} {out : List UInt8} (coded : IsCoded c.kind)
    (h : c.block = some out) :
    toCrc c.kind (c.body.drop checksumSize) out = .ok (c.covered out) := by
  have declares := (coded_block (fun _ => 0) coded h).2
  by_cases kind : c.kind = chunkTypeMinlzCompressedDataCompCrc
  · obtain ⟨⟨dlen, compressed⟩, split, _⟩ := bind_eq_ok declares
    have varint : (getUvarint (c.body.drop checksumSize)).map Prod.fst = some dlen :=
      Block.splitChunkBody_varint split
    obtain ⟨⟨v, n⟩, read, _⟩ := Option.map_eq_some_iff.mp varint
    simp only [toCrc, Chunk.covered, if_pos kind, stripDlenVarint, read, Option.elim_some]
  · simp only [toCrc, Chunk.covered, if_neg kind]

theorem bind_of_ok {α β : Type} {x : Exec α} {a : α} (h : x = .ok a) (f : α → Exec β) :
    (x >>= f) = f a := by
  subst h
  rfl

theorem unpack_accepted {c : Chunk} {out : List UInt8} {ignoreCrc : Bool}
    (block : HasBlock c.kind) (h : c.accepted ignoreCrc = some out) :
    unpack mem ignoreCrc c.kind c = .ok out := by
  obtain ⟨holds, long, checked⟩ := accepted_block h
  by_cases coded : IsCoded c.kind
  · have covers := toCrc_covered coded holds
    rw [unpack, if_pos coded, unpackCompressed, (coded_block mem coded holds).1]
    refine (bind_of_ok rfl _).trans ?_
    cases ignoreCrc with
    | true => exact if_pos rfl
    | false =>
        have verified := verifyCrc_equal (checked rfl)
        refine (if_neg Bool.false_ne_true).trans ?_
        exact (bind_of_ok covers _).trans (bind_of_ok verified _)
  · have stored := block.resolve_left coded
    have covers : c.covered out = out := by
      rw [Chunk.covered, stored, if_neg (by decide)]
    rw [unpack, if_neg coded, unpackUncompressed, ← stored_block stored holds]
    cases ignoreCrc with
    | true => exact if_pos rfl
    | false =>
        have verified := verifyCrc_equal (checked rfl)
        rw [covers] at verified
        refine (if_neg Bool.false_ne_true).trans ?_
        exact bind_of_ok verified _

theorem nextChunk_takes {α : Type} {compressed : UInt8 → Nat → Handle σ α}
    {uncompressed : Nat → Handle σ α} {other : α} {step : Reader σ → UInt8 → Nat → Exec (α × Reader σ)}
    (ends : ∀ kind len s, Ends (dispatch (compressed kind len) (uncompressed len) other kind len) s
      (step s kind len)) {s s' : Reader σ} {c : Chunk} {rest : List UInt8} {a : α}
    (head : s.r = c.bytes ++ rest) (fits : c.Fits) (placed : ¬Misplaced s c.kind)
    (run : step (s.headed c.kind (c.body ++ rest)) c.kind c.body.length = .ok (a, s')) :
    nextChunk compressed uncompressed other s = .ok (some a) s' := by
  have len := readChunkLen_chunkLength c.body.length
  rw [Nat.mod_eq_of_lt fits] at len
  have head' : s.r = c.kind :: UInt8.ofNat c.body.length :: UInt8.ofNat (c.body.length >>> 8) ::
      UInt8.ofNat (c.body.length >>> 16) :: (c.body ++ rest) := head
  rw [nextChunk_header head', if_neg placed]
  simp only [len]
  have taken := ends c.kind c.body.length (s.headed c.kind (c.body ++ rest))
  rw [run] at taken
  exact map_ok (sticky_ok taken.run_ok)

/-- A chunk that a reader passes over. -/
structure Chunk.Skipped (c : Chunk) : Prop where
  fits : c.Fits
  skippable : ¬c.kind ≤ maxNonSkippableChunk
  other : c.kind ≠ chunkTypeStreamIdentifier
  not_user : ¬(minUserSkippableChunk ≤ c.kind ∧ c.kind ≤ maxUserNonSkippableChunk)

theorem otherChunk_skippable (self : Reader σ) {kind : UInt8} (len : Nat)
    (skippable : ¬kind ≤ maxNonSkippableChunk) (other : kind ≠ chunkTypeStreamIdentifier) :
    otherChunk self kind len = skippableChunk self kind len := by
  have not_eof : kind ≠ chunkTypeEof := by
    rintro rfl
    exact skippable (by decide)
  rw [otherChunk, if_neg not_eof, if_neg other, if_neg skippable]

theorem otherChunk_skipped (self : Reader σ) {c : Chunk} {rest : List UInt8} (h : c.Skipped)
    (head : self.r = c.body ++ rest) :
    otherChunk self c.kind c.body.length = .ok { self with r := rest } := by
  have uncalled : callbackFor self c.kind = none := if_neg h.not_user
  have allowed : ¬(minUserNonSkippableChunk ≤ c.kind ∧ c.kind ≤ maxUserNonSkippableChunk) :=
    fun inside => h.not_user ⟨UInt8.le_trans (by decide) inside.1, inside.2⟩
  rw [otherChunk_skippable self _ h.skippable h.other, skippableChunk, uncalled]
  simp only
  rw [reject_ok allowed, head, takeBody_append]
  rfl

/-- What a reader makes of a user chunk: its callback succeeds, or it has none and need not. -/
def Heeds (callbacks : UInt8 → Option (UserChunkCb σ)) (call : UInt8 → List UInt8 → σ → σ)
    (id : UInt8) : Prop :=
  match callbacks id with
  | some cb => ∀ data world, cb id data world = (.ok (), call id data world)
  | none => id ≤ maxUserSkippableChunk ∧ ∀ data world, call id data world = world

theorem otherChunk_user (self : Reader σ) {c : Chunk} {rest : List UInt8}
    {call : UInt8 → List UInt8 → σ → σ}
    (user : minUserSkippableChunk ≤ c.kind ∧ c.kind ≤ maxUserNonSkippableChunk)
    (heeds : Heeds self.callbacks call c.kind) (head : self.r = c.body ++ rest) :
    otherChunk self c.kind c.body.length =
      .ok { self with r := rest, world := call c.kind c.body self.world } := by
  have skippable : ¬c.kind ≤ maxNonSkippableChunk := fun low =>
    absurd (UInt8.le_trans user.1 low) (by decide)
  have other : c.kind ≠ chunkTypeStreamIdentifier := by
    intro same
    exact absurd (same ▸ user.2) (by decide)
  have known : callbackFor self c.kind = self.callbacks c.kind := if_pos user
  rw [otherChunk_skippable self _ skippable other, skippableChunk, known]
  rw [Heeds] at heeds
  cases called : self.callbacks c.kind with
  | some cb =>
      rw [called] at heeds
      simp only [calledChunk, head, takeBody_append, heeds c.body self.world]
  | none =>
      rw [called] at heeds
      have allowed : ¬(minUserNonSkippableChunk ≤ c.kind ∧ c.kind ≤ maxUserNonSkippableChunk) :=
        fun inside => absurd (UInt8.le_trans inside.1 heeds.1) (by decide)
      simp only
      rw [reject_ok allowed, head, takeBody_append, heeds.2]
      rfl

theorem otherChunk_eof (self : Reader σ) {rest : List UInt8} (strict : self.ignoreStreamId = false)
    (head : self.r = (eofOf self.blockEnd.toNat).body ++ rest) :
    otherChunk self chunkTypeEof (eofOf self.blockEnd.toNat).body.length =
      .ok { self with r := rest, expectEof := false, headerRead := false } := by
  set total := self.blockEnd.toNat with stated
  have small : total < 2 ^ 64 := self.blockEnd.toNat_lt
  have short : (eofOf total).body.length ≤ 10 := Leb128.length_encode total
  have read : getUvarint (eofOf total).body = some (total, (eofOf total).body.length) := by
    have put := Block.getUvarint_put small []
    rw [List.append_nil] at put
    exact put
  have checked : checkTotal self (eofOf total).body = .ok () := by
    rw [checkTotal, strict, if_neg Bool.false_ne_true, read]
    simp only
    rw [reject_ok (not_not.mpr rfl)]
    exact reject_ok (not_not.mpr stated)
  have took : takeBody chunkTypeEof (eofOf total).body.length self.r = .ok (eofOf total, rest) := by
    rw [head]
    exact takeBody_append (eofOf total) rest
  rw [otherChunk, if_pos rfl, eofChunk]
  refine (bind_of_ok (reject_ok (Nat.not_lt.mpr short)) _).trans ((bind_of_ok took _).trans ?_)
  refine bind_of_ok (a := ()) ?_ _
  simp only
  split
  · exact checked
  · rfl

/-- The indicator of a block size allows blocks that large. -/
theorem indicator_covers {blockSize : Nat} (least : minBlockSize ≤ blockSize)
    (large : blockSize ≤ maxBlockSize) :
    blockSizeIndicator blockSize &&& 0xc0 = 0 ∧
      ∃ n, blockSizeFromIndicator (blockSizeIndicator blockSize) = some n ∧ blockSize ≤ n ∧
        n ≤ maxBlockSize := by
  have low : minBlockSize = 2 ^ 12 := rfl
  have high : maxBlockSize = 2 ^ 23 := rfl
  have more : 11 < Nat.size (blockSize - 1) := Nat.lt_size.mpr (by omega)
  have less : Nat.size (blockSize - 1) ≤ 23 := Nat.size_le.mpr (by omega)
  have below : blockSize - 1 < 2 ^ Nat.size (blockSize - 1) := Nat.lt_size_self _
  rw [blockSizeIndicator]
  generalize Nat.size (blockSize - 1) = bits at more less below
  have indicated : UInt8.ofNat (bits - 10) &&& 0xc0 = 0 ∧
      blockSizeFromIndicator (UInt8.ofNat (bits - 10)) = some (2 ^ bits) ∧
        2 ^ bits ≤ maxBlockSize := by
    interval_cases bits <;> decide
  exact ⟨indicated.1, _, indicated.2.1, by omega, indicated.2.2⟩

theorem otherChunk_identifier (self : Reader σ) {rest : List UInt8} {blockSize : Nat}
    (least : minBlockSize ≤ blockSize) (large : blockSize ≤ maxBlockSize)
    (user : self.maxBlockUser = maxBlockSize)
    (head : self.r = (identifier blockSize).body ++ rest) :
    ∃ n, blockSize ≤ n ∧ n ≤ maxBlockSize ∧
      otherChunk self chunkTypeStreamIdentifier (identifier blockSize).body.length = .ok { self with
        r := rest, maxBlock := n, blockStart := 0, decoded := [], decodedPos := 0
        expectEof := true } := by
  obtain ⟨clear, n, indicates, covers, fits⟩ := indicator_covers least large
  have took : takeBody chunkTypeStreamIdentifier magicBodyLen self.r =
      .ok (identifier blockSize, rest) := by
    rw [head]
    exact takeBody_append (identifier blockSize) rest
  have states : identifierBlockSize (identifier blockSize).body = .ok n := by
    have magic : (identifier blockSize).body.take magicBody.length = magicBody := rfl
    have indicator : (identifier blockSize).body.getD (magicBodyLen - 1) 0 =
        blockSizeIndicator blockSize := rfl
    rw [identifierBlockSize, indicator]
    refine (bind_of_ok (reject_ok (not_not.mpr magic)) _).trans ?_
    refine (bind_of_ok (reject_ok (not_not.mpr clear)) _).trans ?_
    rw [indicates]
    rfl
  refine ⟨n, covers, fits, ?_⟩
  rw [otherChunk, if_neg (by decide), if_pos rfl, identifierChunk]
  refine (bind_of_ok (reject_ok (not_not.mpr rfl)) _).trans ((bind_of_ok took _).trans ?_)
  refine (bind_of_ok states _).trans (bind_of_ok (reject_ok ?_) _)
  rw [user]
  exact Nat.not_lt.mpr fits

theorem Piece.Valid.fits {b : WriterBuilder} {p : Piece} (valid : p.Valid b)
    (large : b.blockSize ≤ maxBlockSize) (codec : Contract b.level) : p.chunk.Fits := by
  have cap : maxBlockSize < 2 ^ 24 - 4 := by decide
  cases p with
  | stored block =>
      have small := valid.2
      simp only [Chunk.Fits, Piece.chunk, dataChunk, List.length_append, Slice.length_leBytes]
      omega
  | coded block body =>
      have small := valid.1.2
      have shorter := codec.kept (small.trans large) valid.2
      simp only [Chunk.Fits, Piece.chunk, dataChunk, List.length_append, Slice.length_leBytes]
      omega
  | user id data =>
      exact lt_of_le_of_lt valid.2 (by decide)

/-- The chunk of a block is read if the block is within the limit. -/
theorem Piece.Valid.block_read {b : WriterBuilder} {p : Piece} (valid : p.Valid b)
    (large : b.blockSize ≤ maxBlockSize) (codec : Contract b.level) (filled : p.block ≠ []) :
    HasBlock p.chunk.kind ∧ (∀ ignoreCrc, p.chunk.accepted ignoreCrc = some p.block) ∧
      p.block.length ≤ b.blockSize ∧ ∀ self : Reader σ, b.blockSize ≤ self.maxBlock →
        self.maxBlock ≤ maxBlockSize → p.chunk.Buffered self := by
  cases p with
  | stored block =>
      refine ⟨.inr rfl, accepted_dataChunk (.inl rfl) (holds_stored block), valid.2, ?_⟩
      exact fun _ _ _ coded => absurd coded (by decide : ¬IsCoded chunkTypeUncompressedData)
  | coded block body =>
      have small := valid.1.2.trans large
      have shorter := codec.kept small valid.2
      have within := valid.1.2
      refine ⟨.inl (.inl rfl), accepted_dataChunk (.inr rfl)
        (holds_coded (keptDecodes_of codec) small valid.2), valid.1.2, fun self covers limit _ => ?_⟩
      have some : self.maxBlock ≠ 0 := by omega
      rw [maxBufSize, Block.maxEncodedLen, if_neg (by omega), if_neg some]
      simp only [Piece.chunk, dataChunk, List.length_append, Slice.length_leBytes, Option.getD_some,
        checksumSize]
      omega
  | user id data => exact absurd rfl filled

/-- The stream of these pieces, with chunks after the one that ends it. -/
def whole (b : WriterBuilder) (ps : List Piece) (after : List Chunk) : List UInt8 :=
  (identifier b.blockSize).bytes ++ (bytesOf ps ++
    ((eofOf ((payload ps).length % 2 ^ 64)).bytes ++ after.flatMap Chunk.bytes))

/-- The chunk that holds an index. -/
def indexChunk (payload : List UInt8) : Chunk :=
  ⟨Index.chunkTypeIndex, Index.indexHeader ++ payload ++ Slice.leBytes 4 (payload.length + 20) ++
    Index.indexTrailer⟩

theorem bytes_indexChunk (payload : List UInt8) :
    (indexChunk payload).bytes = Index.putChunk payload := by
  have header : Index.indexHeader.length = 6 := rfl
  have trailer : Index.indexTrailer.length = 6 := rfl
  have frame : Index.skippableFrameHeader = 4 := rfl
  have size : 4 + Index.indexHeader.length + payload.length + 4 + Index.indexTrailer.length =
      payload.length + 20 := by omega
  have length : (indexChunk payload).body.length = payload.length + 20 - 4 := by
    simp only [indexChunk, List.length_append, Slice.length_leBytes]
    omega
  rw [Chunk.bytes, length, Index.putChunk]
  simp only [size, frame, indexChunk, List.append_assoc, List.cons_append]

theorem skipped_index {payload : List UInt8} (fits : payload.length + 16 < 2 ^ 24) :
    (indexChunk payload).Skipped := by
  refine ⟨?_, (by decide : ¬Index.chunkTypeIndex ≤ maxNonSkippableChunk),
    (by decide : Index.chunkTypeIndex ≠ chunkTypeStreamIdentifier),
    (by decide : ¬(minUserSkippableChunk ≤ Index.chunkTypeIndex ∧
      Index.chunkTypeIndex ≤ maxUserNonSkippableChunk))⟩
  have header : Index.indexHeader.length = 6 := rfl
  have trailer : Index.indexTrailer.length = 6 := rfl
  simp only [Chunk.Fits, indexChunk, List.length_append, Slice.length_leBytes]
  omega

theorem skipped_padding {n : Nat} (few : n ≤ maxBlockSize) : (padding n).Skipped := by
  have cap : maxBlockSize < 2 ^ 24 := by decide
  refine ⟨?_, (by decide : ¬chunkTypePadding ≤ maxNonSkippableChunk),
    (by decide : chunkTypePadding ≠ chunkTypeStreamIdentifier),
    (by decide : ¬(minUserSkippableChunk ≤ chunkTypePadding ∧
      chunkTypePadding ≤ maxUserNonSkippableChunk))⟩
  simp only [Chunk.Fits, padding, List.length_replicate]
  omega

/-- What a writer has closed is a whole stream, and a reader passes over what is after its end. -/
theorem Closed.isWhole {m : Overflow} {b : WriterBuilder} {ps : List Piece} {buildIndex : Bool}
    {bytes stream : List UInt8} (h : Closed m b ps buildIndex bytes stream)
    (appends : b.appendIndex = true → buildIndex = true) :
    ∃ after, stream = whole b ps after ∧ ∀ c ∈ after, c.Skipped := by
  obtain ⟨pad, pads, rfl⟩ := h.stream
  have padded : ∃ cs : List Chunk, pad = cs.flatMap Chunk.bytes ∧ ∀ c ∈ cs, c.Skipped := by
    rcases pads.2 with rfl | ⟨_, n, few, rfl⟩
    · exact ⟨[], rfl, fun _ none => absurd none List.not_mem_nil⟩
    · exact ⟨[padding n], (List.flatMap_singleton _ _).symm,
        List.forall_mem_singleton.mpr (skipped_padding few)⟩
  have indexed : ∃ cs : List Chunk, appended b bytes = cs.flatMap Chunk.bytes ∧
      ∀ c ∈ cs, c.Skipped := by
    rw [appended]
    split
    · next wanted =>
        have index := h.index
        rw [appends wanted, if_pos rfl] at index
        obtain ⟨payload, rfl, fits⟩ := index.chunk
        exact ⟨[indexChunk payload], by rw [List.flatMap_singleton, bytes_indexChunk],
          List.forall_mem_singleton.mpr (skipped_index fits)⟩
    · exact ⟨[], rfl, fun _ none => absurd none List.not_mem_nil⟩
  obtain ⟨zeros, rfl, skipped⟩ := padded
  obtain ⟨tail, last, skipped'⟩ := indexed
  refine ⟨zeros ++ tail, ?_, fun c mem => (List.mem_append.mp mem).elim (skipped c) (skipped' c)⟩
  rw [last, ended, whole, bytes_identifier, bytes_eofOf, List.flatMap_append]
  simp only [List.append_assoc]

end MinLz.Stream
