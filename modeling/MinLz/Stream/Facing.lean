import MinLz.Stream.Readable
import MinLz.Stream.Skip

/-! # A reader within a whole stream

A reader is before the stream, between two of its pieces, or past its end. A chunk
without a block takes it from one phase to the next, and so does a block, which is then
at hand. No chunk of a whole stream makes it fail.
-/

namespace MinLz.Stream

open Block (maxBlockSize)
open Machine (Overflow)
open Effects

variable {σ : Type} (mem : Nat → UInt8)

/-- What a reader has in front of it in a whole stream. -/
inductive Phase where
  | fresh
  /-- the pieces of `suf`, with those of `pre` behind it -/
  | inside (pre suf : List Piece)
  /-- chunks after the end -/
  | past (cs : List Chunk)

/-- A stream of valid pieces, with chunks after its end that a reader passes over. -/
structure Readable (b : WriterBuilder) (ps : List Piece) (after : List Chunk) : Prop where
  least : minBlockSize ≤ b.blockSize
  large : b.blockSize ≤ maxBlockSize
  codec : Contract b.level
  valid : ∀ p ∈ ps, p.Valid b
  skipped : ∀ c ∈ after, c.Skipped

/-- What the callbacks of these items make of the world. -/
def heard (call : UInt8 → List UInt8 → σ → σ) (its : List Item) (world : σ) : σ :=
  its.foldl (fun world it => match it with
    | .byte _ => world
    | .chunk id data => call id data world) world

/-- The chunk that ends a stream of these pieces, and what is after it. -/
def ending (ps : List Piece) (after : List Chunk) : List UInt8 :=
  (eofOf ((payload ps).length % 2 ^ 64)).bytes ++ after.flatMap Chunk.bytes

namespace Phase

variable (b : WriterBuilder) (ps : List Piece) (after : List Chunk)

/-- The bytes that come next. -/
def source : Phase → List UInt8
  | fresh => whole b ps after
  | inside _ suf => bytesOf suf ++ ending ps after
  | past cs => cs.flatMap Chunk.bytes

/-- The pieces that come next. -/
def ahead : Phase → List Piece
  | fresh => ps
  | inside _ suf => suf
  | past _ => []

/-- One chunk takes a reader from a phase to another, and carries these items. -/
inductive Next : Phase → Phase → List Item → Prop where
  | opens : Next fresh (inside [] ps) []
  | passes (pre suf : List Piece) (p : Piece) :
      Next (inside pre (p :: suf)) (inside (pre ++ [p]) suf) p.items
  | ends (pre : List Piece) : Next (inside pre []) (past after) []
  | drops (c : Chunk) (cs : List Chunk) : Next (past (c :: cs)) (past cs) []

end Phase

/-- The block at hand ends these bytes. -/
def Spans (before : List UInt8) (s : Reader σ) : Prop :=
  ∃ d, before = d ++ s.decoded ∧ s.blockStart = d.length.toUInt64

/-- The flags and the block of a reader in this phase. -/
def Phase.Stage (b : WriterBuilder) (ps : List Piece) (after : List Chunk) :
    Phase → Reader σ → Prop
  | fresh, s => (s.headerRead = false ∧ s.expectEof = false) ∧ Drained s
  | inside pre suf, s => (s.headerRead = true ∧ s.expectEof = true) ∧ ps = pre ++ suf ∧
      (b.blockSize ≤ s.maxBlock ∧ s.maxBlock ≤ maxBlockSize) ∧ Spans (payload pre) s
  | past cs, s => (s.headerRead = false ∧ s.expectEof = false) ∧ Drained s ∧
      (∀ c ∈ cs, c ∈ after) ∧ Spans (payload ps) s

/-- A reader that heeds the user chunks by `call` is in this phase of a stream. -/
structure Facing (b : WriterBuilder) (ps : List Piece) (after : List Chunk)
    (call : UInt8 → List UInt8 → σ → σ) (phase : Phase) (s : Reader σ) : Prop where
  r : s.r = phase.source b ps after
  err : s.err = none
  user : s.maxBlockUser = maxBlockSize
  strict : s.ignoreStreamId = false
  heeds : ∀ id data, Piece.user id data ∈ ps → Heeds s.callbacks call id
  pos : s.decodedPos ≤ s.decoded.length
  small : s.decoded.length ≤ maxBlockSize
  stage : phase.Stage b ps after s

section Spans

variable {before : List UInt8} {s : Reader σ}

theorem Spans.blockEnd (h : Spans before s) : s.blockEnd = before.length.toUInt64 := by
  obtain ⟨d, rfl, start⟩ := h
  rw [Reader.blockEnd, start, List.length_append]
  exact (UInt64.ofNat_add _ _).symm

theorem Spans.blockEnd_toNat (h : Spans before s) :
    s.blockEnd.toNat = before.length % 2 ^ 64 := by
  rw [h.blockEnd]
  rfl

theorem Spans.loaded (h : Spans before s) (out rest : List UInt8) (pos : Nat) :
    Spans (before ++ out) (s.loaded out rest pos) :=
  ⟨before, rfl, h.blockEnd⟩

theorem Spans.same {s' : Reader σ} (h : Spans before s) (decoded : s'.decoded = s.decoded)
    (start : s'.blockStart = s.blockStart) : Spans before s' := by
  obtain ⟨d, split, at_d⟩ := h
  exact ⟨d, decoded ▸ split, start ▸ at_d⟩

end Spans

theorem heard_append (call : UInt8 → List UInt8 → σ → σ) (left right : List Item) (world : σ) :
    heard call (left ++ right) world = heard call right (heard call left world) :=
  List.foldl_append

section Step

variable {b : WriterBuilder} {ps : List Piece} {after : List Chunk}
  {call : UInt8 → List UInt8 → σ → σ} {phase next : Phase} {its : List Item} {s : Reader σ}
  {α : Type} {compressed : UInt8 → Nat → Handle σ α} {uncompressed : Nat → Handle σ α} {other : α}
  {step : Reader σ → UInt8 → Nat → Exec (α × Reader σ)}

theorem bytesOf_cons (p : Piece) (ps : List Piece) : bytesOf (p :: ps) = p.bytes ++ bytesOf ps :=
  List.flatMap_cons

theorem Phase.Next.items (h : Phase.Next ps after phase next its) :
    itemsOf (phase.ahead ps) = its ++ itemsOf (next.ahead ps) := by
  cases h with
  | opens => rfl
  | passes pre suf p => exact List.flatMap_cons
  | ends pre => rfl
  | drops c cs => rfl

/-- The chunk at the front of `s` has no block and leads to `s'` in the next phase. -/
structure Crosses (b : WriterBuilder) (ps : List Piece) (after : List Chunk)
    (call : UInt8 → List UInt8 → σ → σ) (next : Phase) (its : List Item) (c : Chunk)
    (rest : List UInt8) (s s' : Reader σ) : Prop where
  head : s.r = c.bytes ++ rest
  fits : c.Fits
  placed : ¬Misplaced s c.kind
  plain : ¬HasBlock c.kind
  run : otherChunk (s.headed c.kind (c.body ++ rest)) c.kind c.body.length = .ok s'
  facing : Facing b ps after call next s'
  drained : Drained s'
  source : s'.r = rest
  world : s'.world = heard call its s.world

/-- The stream identifier of the stream. -/
theorem Facing.opens (sound : Readable b ps after) (h : Facing b ps after call .fresh s) :
    ∃ c rest s', Crosses b ps after call (.inside [] ps) [] c rest s s' := by
  obtain ⟨n, covers, limit, run⟩ := otherChunk_identifier (s.headed chunkTypeStreamIdentifier
    ((identifier b.blockSize).body ++ (bytesOf ps ++ ending ps after))) sound.least sound.large
    h.user rfl
  refine ⟨identifier b.blockSize, bytesOf ps ++ ending ps after, _, h.r, identifier_fits _,
    fun misplaced => misplaced.2.1 rfl, (by decide : ¬HasBlock chunkTypeStreamIdentifier), run, ?_,
    rfl, rfl, rfl⟩
  refine ⟨rfl, h.err, h.user, h.strict, h.heeds, le_rfl, Nat.zero_le _, ?_⟩
  refine ⟨⟨?_, rfl⟩, rfl, ⟨covers, limit⟩, [], rfl, rfl⟩
  show (s.headerRead || chunkTypeStreamIdentifier == chunkTypeStreamIdentifier) = true
  rw [beq_self_eq_true, Bool.or_true]

/-- A user chunk, which is handed to its callback. -/
theorem Facing.hears (sound : Readable b ps after) {pre suf : List Piece} {id : UInt8}
    {data : List UInt8} (h : Facing b ps after call (.inside pre (.user id data :: suf)) s)
    (drained : Drained s) :
    ∃ c rest s', Crosses b ps after call (.inside (pre ++ [.user id data]) suf)
      (Piece.user id data).items c rest s s' := by
  obtain ⟨flags, split, limits, reached⟩ := h.stage
  have here : Piece.user id data ∈ ps := split ▸ List.mem_append_right _ List.mem_cons_self
  obtain ⟨ids, few⟩ := sound.valid _ here
  have head : s.r = (Chunk.mk id data).bytes ++ (bytesOf suf ++ ending ps after) := by
    rw [h.r, Phase.source, bytesOf_cons, List.append_assoc]
    rfl
  have plain : ¬HasBlock id := by
    rintro ((same | same) | same) <;> exact absurd (same ▸ ids.1) (by decide)
  have run := otherChunk_user (s.headed id (data ++ (bytesOf suf ++ ending ps after)))
    (c := ⟨id, data⟩) ids (h.heeds id data here) rfl
  have fits : (Chunk.mk id data).Fits := (sound.valid _ here).fits sound.large sound.codec
  refine ⟨_, _, _, head, fits, fun misplaced => ?_, plain, run, ?_, drained, rfl, rfl⟩
  · exact absurd (misplaced.1.symm.trans flags.1) Bool.false_ne_true
  · refine ⟨rfl, h.err, h.user, h.strict, h.heeds, h.pos, h.small, ⟨?_, flags.2⟩, ?_, limits, ?_⟩
    · show (s.headerRead || _) = true
      rw [flags.1, Bool.true_or]
    · rw [split, List.append_assoc]
      rfl
    · rw [payload_snoc]
      exact (List.append_nil (payload pre)).symm ▸ reached.same rfl rfl

/-- The chunk that ends the stream, whose total is that of the blocks. -/
theorem Facing.ends {pre : List Piece} (h : Facing b ps after call (.inside pre []) s)
    (drained : Drained s) :
    ∃ c rest s', Crosses b ps after call (.past after) [] c rest s s' := by
  obtain ⟨flags, split, limits, reached⟩ := h.stage
  rw [List.append_nil] at split
  rw [← split] at reached
  have total := reached.blockEnd_toNat
  have head : s.r = (eofOf ((payload ps).length % 2 ^ 64)).bytes ++ after.flatMap Chunk.bytes := h.r
  rw [← total] at head
  have run := otherChunk_eof (s.headed chunkTypeEof
    ((eofOf s.blockEnd.toNat).body ++ after.flatMap Chunk.bytes)) h.strict rfl
  have short : (eofOf s.blockEnd.toNat).body.length ≤ 10 := Leb128.length_encode _
  refine ⟨eofOf s.blockEnd.toNat, _, _, head, lt_of_le_of_lt short (by decide),
    fun misplaced => misplaced.2.2.2 rfl, (by decide : ¬HasBlock chunkTypeEof), run, ?_, drained,
    rfl, rfl⟩
  exact ⟨rfl, h.err, h.user, h.strict, h.heeds, h.pos, h.small, ⟨rfl, rfl⟩, drained,
    fun _ mem => mem, reached.same rfl rfl⟩

/-- A chunk after the end. -/
theorem Facing.drops (sound : Readable b ps after) {c : Chunk} {cs : List Chunk}
    (h : Facing b ps after call (.past (c :: cs)) s) (drained : Drained s) :
    ∃ c rest s', Crosses b ps after call (.past cs) [] c rest s s' := by
  obtain ⟨flags, _, within, reached⟩ := h.stage
  have skipped := sound.skipped c (within c List.mem_cons_self)
  have head : s.r = c.bytes ++ cs.flatMap Chunk.bytes := by
    rw [h.r, Phase.source, List.flatMap_cons]
  have plain : ¬HasBlock c.kind := by
    rintro ((same | same) | same) <;> exact skipped.skippable (same ▸ by decide)
  have run := otherChunk_skipped (s.headed c.kind (c.body ++ cs.flatMap Chunk.bytes)) skipped rfl
  refine ⟨c, _, _, head, skipped.fits, fun misplaced => skipped.skippable misplaced.2.2.1, plain,
    run, ?_, drained, rfl, rfl⟩
  refine ⟨rfl, h.err, h.user, h.strict, h.heeds, h.pos, h.small, ⟨?_, flags.2⟩, drained,
    fun d mem => within d (List.mem_cons_of_mem _ mem), reached.same rfl rfl⟩
  show (s.headerRead || c.kind == chunkTypeStreamIdentifier) = false
  rw [flags.1, Bool.false_or]
  exact beq_eq_false_iff_ne.mpr skipped.other

/-- A piece without a byte is a user chunk. -/
theorem Piece.Valid.dull {p : Piece} (valid : p.Valid b) (dull : ∀ byte, Item.byte byte ∉ p.items) :
    ∃ id data, p = .user id data := by
  cases p with
  | stored block =>
      obtain ⟨byte, tail, rfl⟩ := List.exists_cons_of_ne_nil valid.1
      exact absurd List.mem_cons_self (dull byte)
  | coded block body =>
      obtain ⟨byte, tail, rfl⟩ := List.exists_cons_of_ne_nil valid.1.1
      exact absurd List.mem_cons_self (dull byte)
  | user id data => exact ⟨id, data, rfl⟩

/-- A chunk without a block, read or skipped, leads to the next phase. -/
theorem Facing.passes (sound : Readable b ps after) (h : Facing b ps after call phase s)
    (ends : ∀ kind len s, Ends (dispatch (compressed kind len) (uncompressed len) other kind len) s
      (step s kind len))
    (plain : ∀ self kind len, ¬HasBlock kind →
      step self kind len = otherChunk self kind len >>= fun s' => .ok (other, s'))
    (drained : Drained s) (leads : Phase.Next ps after phase next its)
    (dull : ∀ byte, Item.byte byte ∉ its) :
    ∃ s', nextChunk compressed uncompressed other s = .ok (some other) s' ∧
      Facing b ps after call next s' ∧ Drained s' ∧ s'.r.length < s.r.length ∧
      s'.world = heard call its s.world := by
  have chunk : ∃ c rest s', Crosses b ps after call next its c rest s s' := by
    cases leads with
    | opens => exact h.opens sound
    | passes pre suf p =>
        obtain ⟨_, split, _⟩ := h.stage
        have valid := sound.valid p (split ▸ List.mem_append_right _ List.mem_cons_self)
        obtain ⟨id, data, rfl⟩ := valid.dull dull
        exact h.hears sound drained
    | ends pre => exact h.ends drained
    | drops c cs => exact h.drops sound drained
  obtain ⟨c, rest, s', passes⟩ := chunk
  refine ⟨s', nextChunk_takes ends passes.head passes.fits passes.placed ?_, passes.facing,
    passes.drained, ?_, passes.world⟩
  · rw [plain _ _ _ passes.plain, passes.run]
    rfl
  · rw [passes.source, passes.head, List.length_append, Chunk.length_bytes]
    omega

end Step

section Block

variable {b : WriterBuilder} {ps : List Piece} {after : List Chunk}
  {call : UInt8 → List UInt8 → σ → σ} {pre suf : List Piece} {p : Piece} {s : Reader σ}

/-- The chunk of a block that comes next is whole, placed well and within the limits. -/
theorem Facing.block (sound : Readable b ps after)
    (h : Facing b ps after call (.inside pre (p :: suf)) s)
    (filled : p.block ≠ []) :
    s.r = p.chunk.bytes ++ (bytesOf suf ++ ending ps after) ∧ p.chunk.Fits ∧
      ¬Misplaced s p.chunk.kind ∧ HasBlock p.chunk.kind ∧
      (∀ ignoreCrc, p.chunk.accepted ignoreCrc = some p.block) ∧
      ∀ body, frame (s.headed p.chunk.kind (p.chunk.body ++ body)) p.chunk.kind p.chunk.body.length =
        .ok (p.block.length, p.chunk, body) := by
  obtain ⟨flags, split, limits, reached⟩ := h.stage
  have valid := sound.valid p (split ▸ List.mem_append_right _ List.mem_cons_self)
  obtain ⟨holds, accepted, small, buffered⟩ :=
    valid.block_read (σ := σ) sound.large sound.codec filled
  refine ⟨?_, valid.fits sound.large sound.codec, fun misplaced => ?_, holds, accepted, fun body => ?_⟩
  · rw [h.r, Phase.source, bytesOf_cons, List.append_assoc]
    rfl
  · exact absurd (misplaced.1.symm.trans flags.1) Bool.false_ne_true
  · exact frame_accepted holds (accepted false) rfl (small.trans limits.1)
      (buffered _ limits.1 limits.2)

/-- The reader with the block at hand. -/
theorem Facing.loaded (sound : Readable b ps after)
    (h : Facing b ps after call (.inside pre (p :: suf)) s)
    (body : List UInt8) {pos : Nat} (le : pos ≤ p.block.length) :
    Facing b ps after call (.inside (pre ++ [p]) suf)
      ((s.headed p.chunk.kind body).loaded p.block (bytesOf suf ++ ending ps after) pos) := by
  obtain ⟨flags, split, limits, reached⟩ := h.stage
  have valid := sound.valid p (split ▸ List.mem_append_right _ List.mem_cons_self)
  have small : p.block.length ≤ b.blockSize := by
    cases p with
    | stored block => exact valid.2
    | coded block body => exact valid.1.2
    | user id data => exact Nat.zero_le _
  refine ⟨rfl, h.err, h.user, h.strict, h.heeds, le, small.trans sound.large, ⟨?_, flags.2⟩, ?_,
    limits, ?_⟩
  · show (s.headerRead || _) = true
    rw [flags.1, Bool.true_or]
  · rw [split, List.append_assoc]
    rfl
  · rw [payload_snoc]
    exact Spans.loaded (s := s.headed p.chunk.kind body) (reached.same rfl rfl) _ _ _

/-- The block that comes next is read. -/
theorem Facing.reads (sound : Readable b ps after)
    (h : Facing b ps after call (.inside pre (p :: suf)) s)
    (filled : p.block ≠ []) :
    ∃ s', nextChunk (handleCompressedChunk mem) handleUncompressedChunk () s = .ok (some ()) s' ∧
      Facing b ps after call (.inside (pre ++ [p]) suf) s' ∧ s'.decoded = p.block ∧
      s'.decodedPos = 0 ∧ s'.r.length < s.r.length ∧ s'.world = s.world := by
  obtain ⟨head, fits, placed, holds, accepted, framed⟩ := h.block sound filled
  have unpacked := unpack_accepted mem holds (accepted s.ignoreCrc)
  refine ⟨_, nextChunk_takes (dispatch_read_ends mem) head fits placed ?_,
    h.loaded sound (p.chunk.body ++ (bytesOf suf ++ ending ps after)) (Nat.zero_le _), rfl, rfl, ?_,
    rfl⟩
  · rw [readChunk, if_pos holds]
    refine (bind_of_ok (framed _) _).trans ?_
    exact bind_of_ok unpacked _
  · rw [head, List.length_append, Chunk.length_bytes]
    show (bytesOf suf ++ ending ps after).length < _
    omega

end Block

/-- The items in front of a reader in this phase, those of the block at hand first. -/
def inFront (ps : List Piece) (phase : Phase) (s : Reader σ) : List Item :=
  (s.decoded.drop s.decodedPos).map .byte ++ itemsOf (phase.ahead ps)

/-- The reader has only passed items without a byte, whose callbacks it has called. -/
def Passed (ps : List Piece) (call : UInt8 → List UInt8 → σ → σ) (phase : Phase) (s : Reader σ)
    (phase' : Phase) (s' : Reader σ) : Prop :=
  ∃ gone, inFront ps phase s = gone ++ inFront ps phase' s' ∧ (∀ byte, Item.byte byte ∉ gone) ∧
    s'.world = heard call gone s.world

section Calls

variable {b : WriterBuilder} {ps : List Piece} {after : List Chunk}
  {call : UInt8 → List UInt8 → σ → σ} {phase phase' : Phase} {pre suf : List Piece} {s s' : Reader σ}

theorem passed_refl (phase : Phase) (s : Reader σ) : Passed ps call phase s phase s :=
  ⟨[], rfl, fun _ none => absurd none List.not_mem_nil, rfl⟩

theorem Passed.trans {phase'' : Phase} {s'' : Reader σ} (h : Passed ps call phase s phase' s')
    (h' : Passed ps call phase' s' phase'' s'') : Passed ps call phase s phase'' s'' := by
  obtain ⟨gone, front, dull, world⟩ := h
  obtain ⟨gone', front', dull', world'⟩ := h'
  refine ⟨gone ++ gone', ?_, fun byte mem => ?_, ?_⟩
  · rw [front, front', List.append_assoc]
  · exact (List.mem_append.mp mem).elim (dull byte) (dull' byte)
  · rw [world', world, heard_append]

theorem inFront_drained (phase : Phase) (drained : Drained s) :
    inFront ps phase s = itemsOf (phase.ahead ps) := by
  rw [inFront, List.drop_eq_nil_of_le (Nat.le_of_eq drained.symm)]
  rfl

theorem items_dull {p : Piece} (none : p.block = []) (byte : UInt8) : Item.byte byte ∉ p.items := by
  cases p with
  | stored block =>
      cases (none : block = [])
      exact List.not_mem_nil
  | coded block body =>
      cases (none : block = [])
      exact List.not_mem_nil
  | user id data => simp [Piece.items]

theorem items_block {p : Piece} (filled : p.block ≠ []) : p.items = p.block.map .byte := by
  cases p with
  | stored block => rfl
  | coded block body => rfl
  | user id data => exact absurd rfl filled

theorem exists_next (phase : Phase) (more : phase ≠ .past []) :
    ∃ next its, Phase.Next ps after phase next its := by
  cases phase with
  | fresh => exact ⟨_, _, .opens⟩
  | inside pre suf =>
      cases suf with
      | nil => exact ⟨_, _, .ends pre⟩
      | cons p suf => exact ⟨_, _, .passes pre suf p⟩
  | past cs =>
      cases cs with
      | nil => exact absurd rfl more
      | cons c cs => exact ⟨_, _, .drops c cs⟩

/-- Reading a chunk of a whole stream brings the reader on, and never fails. -/
theorem Facing.takes (sound : Readable b ps after) (h : Facing b ps after call phase s)
    (drained : Drained s) (more : phase ≠ .past []) :
    ∃ s' next, nextChunk (handleCompressedChunk mem) handleUncompressedChunk () s =
      .ok (some ()) s' ∧ Facing b ps after call next s' ∧ Passed ps call phase s next s' ∧
      s'.r.length < s.r.length := by
  have dull {next : Phase} {its : List Item} (leads : Phase.Next ps after phase next its)
      (none : ∀ byte, Item.byte byte ∉ its) : ∃ s' next,
        nextChunk (handleCompressedChunk mem) handleUncompressedChunk () s = .ok (some ()) s' ∧
        Facing b ps after call next s' ∧ Passed ps call phase s next s' ∧
        s'.r.length < s.r.length := by
    have plain (self : Reader σ) (kind : UInt8) (len : Nat) (other : ¬HasBlock kind) :
        readChunk mem self kind len = otherChunk self kind len >>= fun s' => .ok ((), s') :=
      if_neg other
    obtain ⟨s', run, facing, drained', shorter, world⟩ :=
      h.passes sound (dispatch_read_ends mem) plain drained leads none
    refine ⟨s', next, run, facing, ⟨its, ?_, none, world⟩, shorter⟩
    rw [inFront_drained _ drained, inFront_drained _ drained', leads.items]
  obtain ⟨next, its, leads⟩ : ∃ next its, Phase.Next ps after phase next its := exists_next phase more
  cases leads with
  | opens => exact dull .opens fun _ => List.not_mem_nil
  | ends pre => exact dull (.ends pre) fun _ => List.not_mem_nil
  | drops c cs => exact dull (.drops c cs) fun _ => List.not_mem_nil
  | passes pre suf p =>
      by_cases none : p.block = []
      · exact dull (.passes pre suf p) (items_dull none)
      · obtain ⟨s', run, facing, decoded, start, shorter, world⟩ := h.reads mem sound none
        refine ⟨s', _, run, facing, ⟨[], ?_, fun _ => List.not_mem_nil, world⟩, shorter⟩
        rw [inFront_drained _ drained, inFront, decoded, start, List.drop_zero, ← items_block none]
        exact List.flatMap_cons

theorem Facing.fill (sound : Readable b ps after) (h : Facing b ps after call phase s) :
    Runs (fillDecoded mem) s
      (fun more s' => ∃ phase', Facing b ps after call phase' s' ∧ Passed ps call phase s phase' s' ∧
        (if more then s'.decodedPos < s'.decoded.length else phase' = .past [] ∧ Drained s'))
      fun _ _ => False := by
  refine (runs_get s).bind ?_
  rintro _ _ ⟨rfl, rfl⟩
  refine runs_runM (fun _ s' => ∃ phase', Facing b ps after call phase' s' ∧
    Passed ps call phase s phase' s') (fun _ s => s.r.length) ?_ ⟨phase, h, passed_refl phase s⟩
    (Nat.lt_succ_self _)
  rintro _ s1 ⟨phase1, h1, passed⟩
  refine (runs_get s1).bind ?_
  rintro _ _ ⟨rfl, rfl⟩
  split
  · next unread => exact runs_pure ⟨phase1, h1, passed, by rwa [if_pos rfl]⟩
  · next all =>
      have drained : Drained s1 := Nat.le_antisymm h1.pos (Nat.not_lt.mp all)
      by_cases more : phase1 = .past []
      · subst more
        have run : nextChunk (handleCompressedChunk mem) handleUncompressedChunk () s1 =
            .ok none s1 := by
          have empty : s1.r = [] := h1.r
          have between : s1.expectEof = false := h1.stage.1.2
          rw [nextChunk_short (by rw [empty]; decide), if_pos ⟨empty, between⟩]
        refine Runs.step run (runs_pure ⟨_, h1, passed, ?_⟩)
        rw [if_neg Bool.false_ne_true]
        exact ⟨rfl, drained⟩
      · obtain ⟨s2, next, run, h2, passed2, shorter⟩ := h1.takes mem sound drained more
        exact Runs.step run (runs_pure ⟨⟨next, h2, passed.trans passed2⟩, shorter⟩)

/-- Moving within the block at hand. -/
theorem Facing.move (h : Facing b ps after call phase s) {pos : Nat} (le : pos ≤ s.decoded.length)
    (some : phase = .inside pre suf) : Facing b ps after call phase { s with decodedPos := pos } := by
  subst some
  exact ⟨h.r, h.err, h.user, h.strict, h.heeds, le, h.small, h.stage⟩

theorem inFront_ended (drained : Drained s) : inFront ps (.past []) s = [] :=
  inFront_drained _ drained

/-- A reader with unread bytes is in the midst of the pieces. -/
theorem Facing.midst (h : Facing b ps after call phase s) (unread : s.decodedPos < s.decoded.length) :
    ∃ pre suf, phase = .inside pre suf := by
  have undrained : ¬Drained s := fun drained => absurd unread (drained ▸ Nat.lt_irrefl _)
  cases phase with
  | fresh => exact absurd h.stage.2 undrained
  | inside pre suf => exact ⟨pre, suf, rfl⟩
  | past cs => exact absurd h.stage.2.1 undrained

/-- A read hands out what comes next, and nothing only where the stream has ended. -/
theorem Facing.read (m : Overflow) (sound : Readable b ps after) (h : Facing b ps after call phase s)
    {len : Nat} (room : len ≠ 0) :
    Runs (read m mem len) s
      (fun bytes s' => bytes.length ≤ len ∧ ∃ phase' gone, Facing b ps after call phase' s' ∧
        inFront ps phase s = gone ++ (bytes.map .byte ++ inFront ps phase' s') ∧
        (∀ byte, Item.byte byte ∉ gone) ∧ s'.world = heard call gone s.world ∧
        (bytes = [] → inFront ps phase' s' = []))
      fun _ _ => False := by
  refine Runs.step (checkErr_clear h.err) ?_
  rw [if_neg room]
  refine (h.fill mem sound).bind fun more s1 filled => ?_
  obtain ⟨phase1, h1, ⟨gone, front, dull, world⟩, unread⟩ := filled
  cases more with
  | false =>
      rw [if_neg Bool.false_ne_true] at unread
      obtain ⟨rfl, drained⟩ := unread
      exact runs_pure ⟨Nat.zero_le _, _, gone, h1, front, dull, world, fun _ => inFront_ended drained⟩
  | true =>
      rw [if_pos rfl] at unread
      obtain ⟨pre, suf, rfl⟩ := h1.midst unread
      refine Runs.step rfl (Runs.step (lift_ok (available_ok m h1.pos h1.small)) (Runs.step rfl ?_))
      set n := min (s1.decoded.length - s1.decodedPos) len with taken
      have size : ((s1.decoded.drop s1.decodedPos).take n).length = n := by
        rw [List.length_take, List.length_drop]
        omega
      refine runs_pure ⟨by rw [size]; omega, _, gone, h1.move (by omega) rfl, ?_, dull, world, ?_⟩
      · rw [front, inFront, inFront, ← List.append_assoc (List.map _ _), ← List.map_append]
        simp only
        rw [← List.drop_drop, List.take_append_drop]
      · intro none
        rw [none] at size
        simp only [List.length_nil] at size
        omega

end Calls

end MinLz.Stream
