import MinLz.Index.Sorted
import MinLz.Stream.RoundTrip
import MinLz.Stream.SeekerCursor

/-! # Seeking in the stream of a writer

A writer that appends its index leaves a stream that a seeker can open without one. The
index at its end has entries for blocks of the stream, so that the seeker is a cursor
over what has been written.
-/

namespace MinLz.Stream

open Block (maxBlockSize)
open Machine (Overflow maxSigned)
open Effects
open Index (Thinned)

section Reading

variable {σ : Type} (mem : Nat → UInt8) {b : WriterBuilder} {ps : List Piece} {after : List Chunk}
  {call : UInt8 → List UInt8 → σ → σ} {phase : Phase} {s : Reader σ}

/-- Unread bytes come before what is left after the block. -/
theorem rest_unread (unread : s.decodedPos < s.decoded.length)
    (rest : Rest mem s.drain (bytesIn (inFront ps phase s.drain))) :
    Rest mem s (bytesIn (inFront ps phase s)) := by
  rw [inFront_drained _ (rfl : Drained s.drain)] at rest
  rw [inFront, bytesIn_append, bytesIn_bytes]
  exact .block unread rest

/-- A reader within a whole stream has the bytes in front of it left. -/
theorem Facing.rest (sound : Readable b ps after) (h : Facing b ps after call phase s) :
    Rest mem s (bytesIn (inFront ps phase s)) := by
  have step : ∀ n, (∀ (phase : Phase) (s : Reader σ), s.r.length < n → Facing b ps after call phase s →
      Drained s → Rest mem s (bytesIn (inFront ps phase s))) →
      ∀ (phase : Phase) (s : Reader σ), s.r.length < n → Facing b ps after call phase s →
        Rest mem s (bytesIn (inFront ps phase s)) := by
    intro n drained phase s bound h
    by_cases unread : s.decodedPos < s.decoded.length
    · obtain ⟨pre, suf, rfl⟩ := h.midst unread
      have moved : Facing b ps after call (.inside pre suf) s.drain := h.move le_rfl rfl
      exact rest_unread mem unread (drained _ _ bound moved rfl)
    · exact drained phase s bound h (Nat.le_antisymm h.pos (Nat.not_lt.mp unread))
  have go : ∀ n (phase : Phase) (s : Reader σ), s.r.length < n → Facing b ps after call phase s →
      Drained s → Rest mem s (bytesIn (inFront ps phase s)) := by
    intro n
    induction n with
    | zero => exact fun _ _ short => absurd short (Nat.not_lt_zero _)
    | succ n ih =>
        intro phase s bound h drained
        by_cases more : phase = .past []
        · subst more
          have run : nextRead mem s = .ok none s := by
            have empty : s.r = [] := h.r
            have between : s.expectEof = false := h.stage.1.2
            rw [nextRead, nextChunk_short (by rw [empty]; decide), if_pos ⟨empty, between⟩]
          rw [inFront_ended drained]
          exact .ended drained run
        · obtain ⟨s', next, run, h', ⟨gone, front, dull, _⟩, shorter⟩ := h.takes mem sound drained more
          rw [front, bytesIn_append, bytesIn_dull dull, List.nil_append]
          exact .chunk drained run (step n ih next s' (by omega) h')
  exact step _ (go _) phase s (Nat.lt_succ_self _) h

end Reading

section Marks

variable {b : WriterBuilder} {ps : List Piece} {after : List Chunk}

theorem Piece.Valid.blockLen {p : Piece} (valid : p.Valid b) (large : b.blockSize ≤ maxBlockSize)
    (codec : Contract b.level) : p.chunk.blockLen = p.block.length := by
  by_cases filled : p.block = []
  · cases p with
    | stored block => exact absurd filled valid.1
    | coded block body => exact absurd filled valid.1.1
    | user id data =>
        refine if_neg fun data => ?_
        have low := valid.1.1
        rcases data with same | same | same | same <;>
          exact absurd ((show id = _ from same) ▸ low) (by decide)
  · obtain ⟨_, accepted, _⟩ := valid.block_read (σ := Unit) large codec filled
    exact (Chunk.length_block (Option.filter_eq_some_iff.mp (accepted true)).1).symm

/-- The blocks of the pieces start where the blocks of their chunks do. -/
theorem marks_starts (large : b.blockSize ≤ maxBlockSize) (codec : Contract b.level)
    (valid : ∀ p ∈ ps, p.Valid b) (pos : OffsetPair) (cs : List Chunk) {q : OffsetPair}
    (mark : q ∈ marks pos ps) : q ∈ starts pos (ps.map Piece.chunk ++ cs) := by
  induction ps generalizing pos with
  | nil => cases mark
  | cons p ps ih =>
      rw [List.forall_mem_cons] at valid
      have length := valid.1.blockLen large codec
      rw [marks] at mark
      rw [List.map_cons, List.cons_append, starts, length]
      have later := ih valid.2 ⟨pos.compressed + p.bytes.length, pos.uncompressed + p.block.length⟩
      by_cases none : p.block = []
      · rw [if_pos none] at mark
        rw [if_pos (by rw [none]; rfl)]
        exact later mark
      · rw [if_neg none] at mark
        rw [if_neg (fun zero => none (List.eq_nil_of_length_eq_zero zero))]
        cases mark with
        | head => exact List.mem_cons_self
        | tail _ mark => exact List.mem_cons_of_mem _ (later mark)

theorem marks_first (some : payload ps ≠ []) (pos : OffsetPair) :
    ∃ c rest, marks pos ps = ⟨c, pos.uncompressed⟩ :: rest := by
  induction ps generalizing pos with
  | nil => exact absurd rfl some
  | cons p ps ih =>
      rw [marks]
      by_cases none : p.block = []
      · rw [if_pos none]
        have later : payload ps ≠ [] := by
          rwa [payload, List.flatMap_cons, none, List.nil_append] at some
        obtain ⟨c, rest, first⟩ := ih later ⟨pos.compressed + p.bytes.length,
          pos.uncompressed + p.block.length⟩
        exact ⟨c, rest, by rw [first, none]; rfl⟩
      · rw [if_neg none]
        exact ⟨_, _, rfl⟩

theorem chunks_whole (sound : Readable b ps after) :
    chunks (whole b ps after) = identifier b.blockSize ::
      (ps.map Piece.chunk ++ eofOf ((payload ps).length % 2 ^ 64) :: after) := by
  have fits : ∀ c ∈ ps.map Piece.chunk ++ eofOf ((payload ps).length % 2 ^ 64) :: after, c.Fits := by
    intro c here
    rcases List.mem_append.mp here with piece | tail
    · obtain ⟨p, mem, rfl⟩ := List.mem_map.mp piece
      exact (sound.valid p mem).fits sound.large sound.codec
    · cases tail with
      | head =>
          have short : (eofOf ((payload ps).length % 2 ^ 64)).body.length ≤ 10 :=
            Leb128.length_encode _
          exact lt_of_le_of_lt short (by decide)
      | tail _ tail => exact (sound.skipped c tail).fits
  have bytes : whole b ps after = (identifier b.blockSize).bytes ++
      ((ps.map Piece.chunk ++ eofOf ((payload ps).length % 2 ^ 64) :: after).flatMap Chunk.bytes ++
        []) := by
    rw [whole, List.append_nil, List.flatMap_append, List.flatMap_map, List.flatMap_cons]
    rfl
  rw [bytes, chunks_bytes (identifier_fits _), chunks_append fits, chunks_end rfl, List.append_nil]

theorem whole_only (sound : Readable b ps after) :
    ∀ c ∈ ps.map Piece.chunk ++ eofOf ((payload ps).length % 2 ^ 64) :: after,
      c.kind ≠ chunkTypeStreamIdentifier := by
  intro c here
  rcases List.mem_append.mp here with piece | tail
  · obtain ⟨p, mem, rfl⟩ := List.mem_map.mp piece
    have valid := sound.valid p mem
    cases p with
    | stored block => exact (by decide : chunkTypeUncompressedData ≠ chunkTypeStreamIdentifier)
    | coded block body => exact (by decide : chunkTypeMinlzCompressedData ≠ chunkTypeStreamIdentifier)
    | user id data =>
        intro same
        exact absurd ((show id = _ from same) ▸ valid.1.2) (by decide)
  · cases tail with
    | head => exact (by decide : chunkTypeEof ≠ chunkTypeStreamIdentifier)
    | tail _ tail => exact (sound.skipped c tail).other

/-- A new reader is at the start of its source. -/
theorem before_new (source : List UInt8) : Before source (withBuilder {} source ()) :=
  have built : ({} : ReaderBuilder Unit).build source () = .ok (withBuilder {} source ()) := rfl
  ⟨⟨⟨_, live_build built⟩, rfl, rfl, rfl, rfl⟩, rfl, ⟨rfl, rfl⟩, rfl⟩

theorem oneStream_whole (mem : Nat → UInt8) (sound : Readable b ps after)
    (skippable : ∀ id data, Piece.user id data ∈ ps → id ≤ maxUserSkippableChunk)
    (small : (payload ps).length ≤ maxSigned) :
    ∃ e, OneStream mem (whole b ps after) (payload ps) e := by
  have facing : Facing b ps after (fun _ _ world => world) .fresh
      (withBuilder ({} : ReaderBuilder Unit) (whole b ps after) ()) :=
    ⟨rfl, rfl, rfl, rfl, fun id data here => ⟨skippable id data here, fun _ _ => rfl⟩, le_rfl,
      Nat.zero_le _, ⟨rfl, rfl⟩, rfl⟩
  have rest := facing.rest mem sound
  have front : inFront ps .fresh (withBuilder ({} : ReaderBuilder Unit) (whole b ps after) ()) =
      itemsOf ps := rfl
  rw [front, bytesIn_itemsOf] at rest
  exact oneStream_of (before_new _) rest (chunks_whole sound) rfl (whole_only sound) small

end Marks

section Indexing

variable {m : Overflow} {b : WriterBuilder} {ps : List Piece} {bytes stream : List UInt8}

/-- The index that a writer has appended is found, and is one of the stream. -/
theorem Closed.indexed (h : Closed m b ps b.appendIndex bytes stream) (appends : b.appendIndex = true)
    (least : minBlockSize ≤ b.blockSize) (codec : Contract b.level) (short : stream.length < 2 ^ 60) :
    ∃ index, Index.seekerIndex m stream [] = .ok index ∧ Indexed stream (payload ps) index := by
  obtain ⟨after, whole_eq, skipped⟩ := h.isWhole id
  obtain ⟨pad, _, stream_eq⟩ := h.stream
  have sound : Readable b ps after := ⟨least, h.large, codec, h.valid, skipped⟩
  have indexing := h.index
  rw [if_pos appends] at indexing
  have length : (ended b ps).length ≤ stream.length := by
    rw [stream_eq, List.append_assoc, List.length_append]
    exact Nat.le_add_right _ _
  obtain ⟨self, r, thinned, reduced, load⟩ := indexing.loads (by omega)
  obtain ⟨body, rfl, fits⟩ := indexing.chunk
  obtain ⟨index, total, entries, loads⟩ : ∃ index : Index,
      index.totalUncompressed = some (payload ps).length ∧ index.offsets = r.offsets ∧
        Index.load m (Index.putChunk body) {} = .ok [] index := by
    have loads := load [] {}
    rw [List.append_nil] at loads
    exact ⟨⟨_, _, _, _⟩, rfl, rfl, loads⟩
  have sorted := ((Index.load_sound m _ _).2 _ _ loads).2.2.1
  have found := Index.loadStream_putChunk m (ended b ps ++ pad) fits loads
  have last : stream = ended b ps ++ pad ++ Index.putChunk body := by
    rw [stream_eq, appended, if_pos appends]
  rw [← last] at found
  refine ⟨index, ?_, total, fun q mark => ?_, sorted.imp Nat.le_of_lt, fun some => ?_⟩
  · simp only [Index.seekerIndex, ne_eq, not_true_eq_false, if_false, found]
  · have marked := thinned.sublist.subset (reduced.sublist.subset (entries ▸ mark))
    have none : (identifier b.blockSize).blockLen = 0 := rfl
    rw [whole_eq, chunks_whole sound, starts, if_pos none]
    exact marks_starts h.large codec h.valid _ _ marked
  · obtain ⟨c, rest, first⟩ := marks_first some front
    have head := reduced.first.trans thinned.first
    rw [first, List.head?_cons] at head
    obtain ⟨others, shape⟩ := List.head?_eq_some_iff.mp head
    exact ⟨c, others, entries.trans shape⟩

end Indexing

section Written

variable (m : Overflow) (mem : Nat → UInt8)

/-- The stream of a writer that appends its index has a seeker without any other index,
    and the seeker is a cursor over what was written, whatever the calls. -/
theorem written_seekable {b : WriterBuilder} {w : Writer (List UInt8)} (built : b.build [] = .ok w)
    (appends : b.appendIndex = true) (codec : Contract b.level) {calls : List WriterCall}
    (skippable : ∀ id data, Item.chunk id data ∈ calls.flatMap WriterCall.items →
      id ≤ maxUserSkippableChunk)
    {stream : List UInt8} {w' : Writer (List UInt8)} (ran : session m calls w = .ok stream w')
    (short : stream.length < 2 ^ 60) :
    ∃ reader seeker, ({} : ReaderBuilder Unit).build stream () = .ok reader ∧
      ReadSeeker.new m reader stream [] = .ok seeker ∧
      ∀ ops, Follows (bytesIn (calls.flatMap WriterCall.items)) 0 ops (replies m mem ops seeker) := by
  obtain ⟨ps, bytes, same, closed⟩ := (session_runs m built calls).ok ran
  have least := build_least built
  obtain ⟨index, found, indexed⟩ := closed.indexed appends least codec short
  obtain ⟨after, whole_eq, skipped⟩ := closed.isWhole id
  have sound : Readable b ps after := ⟨least, closed.large, codec, closed.valid, skipped⟩
  have indexing := closed.index
  rw [if_pos appends] at indexing
  have low : ∀ id data, Piece.user id data ∈ ps → id ≤ maxUserSkippableChunk := fun id data here =>
    skippable id data (same ▸ List.mem_flatMap.mpr ⟨_, here, List.mem_singleton.mpr rfl⟩)
  obtain ⟨e, one⟩ := oneStream_whole mem sound low indexing.total
  rw [← whole_eq] at one
  rw [← same, bytesIn_itemsOf]
  refine ⟨withBuilder {} stream (), ⟨withBuilder {} stream (), index, stream⟩, rfl, ?_, fun ops => ?_⟩
  · rw [ReadSeeker.new, found]
    rfl
  · refine At.follows m one indexed ⟨rfl, rfl, .before (before_new stream) rfl, rfl, ?_⟩ ops
    exact fun begun => absurd begun Bool.false_ne_true

/-- Five bytes around a user chunk, and their index. -/
theorem written_seekable_few : ∃ stream w' reader seeker,
    session .panics [.write [1, 2, 3], .addUserChunk 0x80 [7], .write [4, 5]]
      (newWriter [] { level := .fastest, appendIndex := true }) = .ok stream w' ∧
    ({} : ReaderBuilder Unit).build stream () = .ok reader ∧
    ReadSeeker.new .panics reader stream [] = .ok seeker ∧
    ∀ ops, Follows [1, 2, 3, 4, 5] 0 ops (replies .panics (fun _ => 0) ops seeker) := by
  have small : ((session .panics [.write [1, 2, 3], .addUserChunk 0x80 [7], .write [4, 5]]).run'
      (newWriter [] { level := .fastest, appendIndex := true })).any (·.length < 2 ^ 60) = true := by
    decide +kernel
  obtain ⟨stream, result, short⟩ := (Option.any_eq_true _ _).mp small
  obtain ⟨w', ran⟩ := ok_of_run' result
  have skippable : ∀ id data, Item.chunk id data ∈ [WriterCall.write [1, 2, 3],
      .addUserChunk 0x80 [7], .write [4, 5]].flatMap WriterCall.items → id ≤ maxUserSkippableChunk := by
    intro id data here
    have chunk : ¬(WriterCall.addUserChunk 0x80 [7]).Refused ∧ id = 0x80 ∧ data = [7] := by
      simpa [WriterCall.items] using here
    rw [chunk.2.1]
    decide
  obtain ⟨reader, seeker, opened⟩ := written_seekable .panics (fun _ => 0)
    (b := { level := .fastest, appendIndex := true }) rfl rfl contract_fastest skippable ran
    (of_decide_eq_true short)
  exact ⟨stream, w', reader, seeker, ran, opened⟩

end Written

end MinLz.Stream
