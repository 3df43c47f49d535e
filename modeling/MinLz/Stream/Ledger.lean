import MinLz.Index.Scan
import MinLz.Stream.Pieces

/-! # The ledger of a writer

What a writer has put out is its header and pieces with whole blocks of its payload. Its
counts are those of the bytes, modulo `2^64`, and its index is that of the blocks. On a
vector it only fails when the codec does or when the stream or its payload comes close to
the range of the counts, or to a quarter of it with an index.
-/

namespace MinLz.Stream

open Block (maxBlockSize)
open Machine (Overflow maxSigned)
open Effects Loop
open Index (Thinned)

/-- What a writer asks of the block codec: a body that is kept is shorter than its block
    and decodes to it. -/
def Contract (level : Block.Level) : Prop :=
  ∀ block : List UInt8, block.length ≤ maxBlockSize →
    Block.AppendsChunk level [] (Slice.ofList block)

def Item.cost : Item → Nat
  | .byte _ => 9
  | .chunk _ data => 4 + data.length

/-- A bound for what the items take in a stream. -/
def cost (its : List Item) : Nat := 10 + (its.map Item.cost).sum

/-- How long a stream may become: its bytes can be counted, and where there is an index the
    predictions of the offsets as well. -/
def WriterBuilder.streamLimit (b : WriterBuilder) : Nat :=
  if b.generateIndex || b.appendIndex then 2 ^ 62 else 2 ^ 64

theorem streamLimit_le (b : WriterBuilder) : b.streamLimit ≤ 2 ^ 64 := by
  rw [WriterBuilder.streamLimit]
  split <;> norm_num

/-- The items are too many for a writer, if its codec is sound. What the stream ends with
    takes less than `2^26` bytes. -/
def Excess (b : WriterBuilder) (its : List Item) : Prop :=
  Contract b.level → b.streamLimit ≤ cost its + 2 ^ 26

theorem cost_append (a c : List Item) : cost (a ++ c) = cost a + (c.map Item.cost).sum := by
  simp [cost, Nat.add_assoc]

theorem Excess.more {b : WriterBuilder} {its : List Item} (h : Excess b its) (more : List Item) :
    Excess b (its ++ more) := by
  intro codec
  have past := h codec
  rw [cost_append]
  omega

theorem cost_bytes (block : List UInt8) :
    ((block.map Item.byte).map Item.cost).sum = 9 * block.length := by
  induction block with
  | nil => rfl
  | cons x xs ih =>
      simp only [List.map_cons, List.sum_cons, List.length_cons, Item.cost] at ih ⊢
      omega

theorem Contract.kept {level : Block.Level} (codec : Contract level) {block body : List UInt8}
    (small : block.length ≤ maxBlockSize)
    (kept : Block.appendEncodedChunkBody level [] (Slice.ofList block) = .ok (body, true)) :
    body.length < block.length :=
  (keptDecodes_of codec block body small kept).1

/-- With a sound codec a piece takes no more than its items cost. -/
theorem Piece.Valid.length_le {b : WriterBuilder} {p : Piece} (valid : p.Valid b)
    (large : b.blockSize ≤ maxBlockSize) (codec : Contract b.level) :
    p.bytes.length ≤ (p.items.map Item.cost).sum ∧
      9 * p.block.length ≤ (p.items.map Item.cost).sum := by
  rw [Piece.bytes, Chunk.length_bytes]
  cases p with
  | stored block =>
      have some := List.length_pos_iff.mpr valid.1
      simp only [Piece.chunk, dataChunk, List.length_append, Slice.length_leBytes, Piece.items,
        Piece.block, cost_bytes]
      omega
  | coded block body =>
      have shorter := codec.kept (valid.1.2.trans large) valid.2
      simp only [Piece.chunk, dataChunk, List.length_append, Slice.length_leBytes, Piece.items,
        Piece.block, cost_bytes]
      omega
  | user id data =>
      simp only [Piece.chunk, Piece.items, Piece.block, List.map_cons, List.map_nil,
        List.sum_singleton, Item.cost, List.length_nil]
      omega

theorem lengths_le {b : WriterBuilder} {ps : List Piece} (valid : ∀ p ∈ ps, p.Valid b)
    (large : b.blockSize ≤ maxBlockSize) (codec : Contract b.level) :
    10 + (bytesOf ps).length ≤ cost (itemsOf ps) ∧ (payload ps).length ≤ cost (itemsOf ps) := by
  induction ps with
  | nil => exact ⟨le_rfl, Nat.zero_le _⟩
  | cons p ps ih =>
      rw [List.forall_mem_cons] at valid
      have first := valid.1.length_le large codec
      have rest := ih valid.2
      simp only [cost, bytesOf, payload, itemsOf, List.flatMap_cons, List.length_append,
        List.map_append, List.sum_append] at first rest ⊢
      omega

section Counts

variable (m : Overflow)

/-- A count that leaves its range wraps or panics. -/
theorem count_runs {α : Type} (a n : Nat) {f : Nat → Emit (List UInt8) α}
    {s : Writer (List UInt8)} {Q : α → Writer (List UInt8) → Prop}
    {E : Stop IoError → Writer (List UInt8) → Prop} (next : Runs (f ((a + n) % 2 ^ 64)) s Q E)
    (large : 2 ^ 64 ≤ a + n → ∀ e, E e s) :
    Runs ((liftM (word (m.unsigned ((a : Int) + n)) : Except (Stop IoError) Nat) :
      Emit (List UInt8) Nat) >>= f) s Q E := by
  have cast : (a : Int) + n = ((a + n : Nat) : Int) := by push_cast; rfl
  rw [cast, Machine.unsigned_nat]
  split
  · exact Runs.step rfl next
  · next past =>
      rw [not_or] at past
      exact runs_error (bind_error rfl) (large (Nat.not_lt.mp past.1) _)

theorem countWritten_runs (n : Nat) {s : Writer (List UInt8)} :
    Runs (countWritten m n) s
      (fun _ s' => s' = { s with compWritten := (s.compWritten + n) % 2 ^ 64 })
      (fun _ _ => 2 ^ 64 ≤ s.compWritten + n) :=
  Runs.step rfl (count_runs m _ n (runs_ok rfl rfl) fun large _ => large)

theorem countAccepted_runs (n : Nat) {s : Writer (List UInt8)} :
    Runs (countAccepted m n) s
      (fun _ s' => s' = { s with uncompWritten := (s.uncompWritten + n) % 2 ^ 64 })
      (fun _ _ => 2 ^ 64 ≤ s.uncompWritten + n) :=
  Runs.step rfl (count_runs m _ n (runs_ok rfl rfl) fun large _ => large)

/-- The writer after these bytes and their count. -/
def Writer.putting (s : Writer (List UInt8)) (p : List UInt8) : Writer (List UInt8) :=
  { s with w := s.w ++ p, compWritten := (s.compWritten + p.length) % 2 ^ 64 }

theorem putting_putting (s : Writer (List UInt8)) (p q : List UInt8) :
    (s.putting p).putting q = s.putting (p ++ q) := by
  simp only [Writer.putting, List.append_assoc, List.length_append, Nat.mod_add_mod, Nat.add_assoc]

theorem writeAllTracked_runs (p : List UInt8) {s : Writer (List UInt8)} :
    Runs (writeAllTracked m Sink.vec p) s (fun _ s' => s' = s.putting p)
      (fun _ _ => 2 ^ 64 ≤ s.compWritten + p.length) :=
  Runs.step (putRaw_vec p) (countWritten_runs m p.length)

/-- Two parts that are written one after the other. -/
theorem writeBoth_runs (p q : List UInt8) {s : Writer (List UInt8)} :
    Runs (writeAllTracked m Sink.vec p >>= fun _ => writeAllTracked m Sink.vec q) s
      (fun _ s' => s' = s.putting (p ++ q))
      (fun _ _ => 2 ^ 64 ≤ s.compWritten + (p ++ q).length) := by
  rw [List.length_append]
  refine ((writeAllTracked_runs m p).mono (fun _ _ h => h) fun _ _ large => ?_).bind ?_
  · omega
  · rintro _ _ rfl
    refine (writeAllTracked_runs m q).mono ?_ fun _ _ large => ?_
    · rintro _ _ rfl
      exact putting_putting s p q
    · have counted : (s.putting p).compWritten = (s.compWritten + p.length) % 2 ^ 64 := rfl
      omega

end Counts

/-- The writer has put out these pieces. -/
structure Ledger (b : WriterBuilder) (s : Writer (List UInt8)) (ps : List Piece) : Prop where
  options : SameOptions (newWriter [] b) s
  err : s.err = none
  large : b.blockSize ≤ maxBlockSize
  sink : s.w = if s.wroteHeader then makeStreamHeader b.blockSize ++ bytesOf ps else []
  unbegun : s.wroteHeader = false → ps = []
  valid : ∀ p ∈ ps, p.Valid b
  written : s.compWritten = s.w.length % 2 ^ 64
  accepted : s.uncompWritten = (payload ps).length % 2 ^ 64
  within : s.index.isSome → (payload ps).length ≤ maxSigned + maxBlockSize
  entries : ∀ idx ∈ s.index, s.w.length < 2 ^ 64 → Thinned (marks front ps) idx

theorem length_header (blockSize : Nat) : (makeStreamHeader blockSize).length = 10 := rfl

section Ledger

variable (m : Overflow) {b : WriterBuilder} {s : Writer (List UInt8)} {ps : List Piece}

theorem Ledger.begun (h : Ledger b s ps) (begun : s.wroteHeader = true) :
    s.w = makeStreamHeader b.blockSize ++ bytesOf ps := by
  rw [h.sink, if_pos begun]

theorem Ledger.length (h : Ledger b s ps) (begun : s.wroteHeader = true) :
    s.w.length = 10 + (bytesOf ps).length := by
  rw [h.begun begun, List.length_append, length_header]

/-- Where the next block starts, as the index is told. -/
theorem Ledger.mark (h : Ledger b s ps) (begun : s.wroteHeader = true) :
    OffsetPair.mk s.w.length (payload ps).length =
      ⟨front.compressed + (bytesOf ps).length, front.uncompressed + (payload ps).length⟩ := by
  rw [h.length begun]
  simp [front, chunkHeaderSize, magicBodyLen, magicBody]

theorem Ledger.indexed (h : Ledger b s ps) :
    s.index.isSome = (b.generateIndex || b.appendIndex) := by
  rw [h.options.indexed, newWriter]
  cases b.generateIndex || b.appendIndex <;> rfl

theorem Ledger.addToIndex (h : Ledger b s ps) (begun : s.wroteHeader = true) :
    Runs (addToIndex m) s
      (fun _ s' => ∃ idx, s' = { s with index := idx } ∧ idx.isSome = s.index.isSome ∧
        (idx.isSome → (payload ps).length ≤ maxSigned) ∧
        ∀ i ∈ idx, s.w.length < 2 ^ 64 →
          Thinned (marks front ps ++ [⟨s.w.length, (payload ps).length⟩]) i)
      (fun _ _ => s.index.isSome ∧ (maxSigned < s.w.length ∨ maxSigned < (payload ps).length)) := by
  have limit := Index.maxSigned_eq
  have cap : maxBlockSize < 2 ^ 24 := by decide
  refine Runs.step rfl ?_
  cases known : s.index with
  | none =>
      refine runs_pure ⟨none, by rw [← known], rfl, ?_, ?_⟩
      · exact fun none => absurd none Bool.false_ne_true
      · exact fun _ none => absurd none (Option.not_mem_none _)
  | some idx =>
      have within := h.within (by rw [known]; rfl)
      have accepted := h.accepted
      have kept : (some idx).isSome := rfl
      rw [Nat.mod_eq_of_lt (by omega)] at accepted
      simp only
      by_cases exact : s.w.length < 2 ^ 64
      · have written := h.written
        rw [Nat.mod_eq_of_lt exact] at written
        have thinned := h.entries idx known exact
        rcases Index.add_cases m thinned ⟨s.w.length, (payload ps).length⟩ with
          ⟨idx', added, thinned'⟩ | ⟨⟨e, refused⟩, falls⟩
        · simp only [← written, ← accepted] at added
          rw [added]
          refine Runs.step rfl (runs_ok rfl ⟨some idx', rfl, rfl, fun _ => ?_, ?_⟩)
          · exact accepted ▸ (Index.add_bounds added).2
          · rintro _ ⟨rfl⟩ _
            exact thinned'
        · simp only [← written, ← accepted] at refused
          rw [refused]
          refine runs_error (bind_error rfl) ⟨kept, ?_⟩
          by_contra inside
          simp only at falls
          obtain ⟨latest, entry, less⟩ := falls (by omega)
          have before := (mem_marks (thinned.sublist.mem entry)).2.1
          have length := congrArg OffsetPair.compressed (h.mark begun)
          simp only at length
          omega
      · cases added : Index.add m idx s.compWritten s.uncompWritten with
        | error e =>
            have past : maxSigned < s.w.length := by omega
            cases e with
            | fault f => exact runs_error (bind_error rfl) ⟨kept, .inl past⟩
            | error e => exact runs_error (bind_error rfl) ⟨kept, .inl past⟩
        | ok idx' =>
            refine Runs.step rfl (runs_ok rfl ⟨some idx', rfl, rfl, fun _ => ?_, ?_⟩)
            · have bounds := (Index.add_bounds added).2
              omega
            · exact fun _ _ small => absurd small exact

theorem encodeBody_exits {block : List UInt8} (large : b.blockSize ≤ maxBlockSize)
    (level : s.level = b.level) (filled : block ≠ []) (small : block.length ≤ b.blockSize) :
    Exits (encodeBody s block)
      (fun kept => match kept with
        | none => True
        | some body => (Piece.coded block body).Valid b)
      (fun _ => ¬Contract b.level) := by
  cases run : encodeBody s block with
  | ok kept =>
      refine exits_ok ?_
      cases kept with
      | none => trivial
      | some body => exact ⟨⟨filled, small⟩, level ▸ encodeBody_kept run⟩
  | error e =>
      refine exits_error fun codec => ?_
      rw [encodeBody] at run
      split at run
      · cases run
      · rw [level] at run
        rcases codec block (small.trans large) with refused | ⟨body, appended, _⟩
        · rw [refused] at run
          cases run
        · rw [appended] at run
          cases run

/-- The index after one more block, or as it was after another piece. -/
def Indexes (s : Writer (List UInt8)) (ps : List Piece) (block : List UInt8)
    (idx : Option Index) : Prop :=
  idx.isSome = s.index.isSome ∧
    (idx.isSome → (payload ps).length + block.length ≤ maxSigned + maxBlockSize) ∧
    ∀ i ∈ idx, s.w.length < 2 ^ 64 → Thinned (marks front ps ++ if block = [] then []
      else [⟨s.w.length, (payload ps).length⟩]) i

/-- The ledger with one more piece. -/
theorem Ledger.snoc (h : Ledger b s ps) (begun : s.wroteHeader = true) {p : Piece}
    (valid : p.Valid b) {idx : Option Index} (indexes : Indexes s ps p.block idx) :
    Ledger b { ({ s with index := idx } : Writer _).putting p.bytes with
      uncompWritten := (s.uncompWritten + p.block.length) % 2 ^ 64 } (ps ++ [p]) := by
  have options := h.options
  refine ⟨⟨options.blockSize, options.level, options.uncompressed, options.padding,
    options.flushOnWrite, options.appendIndex, indexes.1.trans options.indexed⟩, h.err, h.large,
    ?_, fun none => ?_, ?_, ?_, ?_, fun some => ?_, fun i entry small => ?_⟩
  · rw [bytesOf_snoc, ← List.append_assoc, ← h.begun begun]
    exact (if_pos begun).symm
  · exact absurd (begun.symm.trans none) (by decide)
  · intro q mem
    rcases List.mem_append.mp mem with mem | mem
    · exact h.valid q mem
    · rwa [List.mem_singleton.mp mem]
  · have written := h.written
    simp only [Writer.putting, List.length_append]
    omega
  · have accepted := h.accepted
    rw [payload_snoc, List.length_append]
    simp only
    omega
  · rw [payload_snoc, List.length_append]
    exact indexes.2.1 some
  · simp only [Writer.putting, List.length_append] at small
    rw [marks_snoc, ← h.mark begun]
    exact indexes.2.2 i entry (by omega)

theorem Ledger.excess (h : Ledger b s ps) (begun : s.wroteHeader = true) (kept : s.index.isSome)
    (past : maxSigned < s.w.length ∨ maxSigned < (payload ps).length) : Excess b (itemsOf ps) := by
  intro codec
  rw [h.indexed] at kept
  rw [WriterBuilder.streamLimit, if_pos kept]
  have limit := Index.maxSigned_eq
  have lengths := lengths_le h.valid h.large codec
  have length := h.length begun
  omega

/-- A piece whose bytes cannot be counted. -/
theorem Ledger.excess_snoc (h : Ledger b s ps) (begun : s.wroteHeader = true) {p : Piece}
    (valid : p.Valid b) (past : 2 ^ 64 ≤ s.compWritten + p.bytes.length) :
    Excess b (itemsOf ps ++ p.items) := by
  intro codec
  have lengths := lengths_le h.valid h.large codec
  have last := valid.length_le h.large codec
  have length := h.length begun
  have written := h.written
  have most := streamLimit_le b
  rw [cost_append]
  omega

/-- A block is put out as one piece that carries it. -/
theorem Ledger.emitBlock (h : Ledger b s ps) (begun : s.wroteHeader = true) {block : List UInt8}
    (filled : block ≠ []) (small : block.length ≤ b.blockSize) :
    Runs (emitBlock m Sink.vec block) s
      (fun _ s' => ∃ (p : Piece) (idx : Option Index), p.IsBlock b block ∧ Indexes s ps block idx ∧
        s' = ({ s with index := idx } : Writer _).putting p.bytes)
      (fun _ _ => Excess b (itemsOf ps ++ block.map .byte)) := by
  have large := h.large
  refine ((h.addToIndex m begun).mono (fun _ _ h => h)
    fun _ _ past => (h.excess begun past.1 past.2).more _).bind ?_
  rintro _ _ ⟨idx, rfl, same, within, entries⟩
  have indexes : Indexes s ps block idx := by
    refine ⟨same, fun some => ?_, fun i entry fits => ?_⟩
    · have := within some
      omega
    · rw [if_neg filled]
      exact entries i entry fits
  refine Runs.step rfl ((runs_lift (((encodeBody_exits large h.options.level filled small).mono
    (fun kept h => ⟨h, rfl⟩) fun _ broken codec => absurd codec broken))).bind ?_
    (P := fun kept s' => (match kept with
      | none => True
      | some body => (Piece.coded block body).Valid b) ∧ s' = { s with index := idx }))
  rintro kept _ ⟨encoded, rfl⟩
  have emits (p : Piece) (body : List UInt8) (kind : UInt8) (carries : p.IsBlock b block)
      (bytes : p.bytes = dataHeader kind body.length block ++ body) :
      Runs (do
        writeAllTracked m Sink.vec (dataHeader kind body.length block)
        writeAllTracked m Sink.vec body) { s with index := idx }
        (fun _ s' => ∃ (p : Piece) (idx : Option Index), p.IsBlock b block ∧
          Indexes s ps block idx ∧ s' = ({ s with index := idx } : Writer _).putting p.bytes)
        (fun _ _ => Excess b (itemsOf ps ++ block.map .byte)) := by
    refine (writeBoth_runs m _ _).mono ?_ fun _ _ past => ?_
    · rintro _ _ rfl
      exact ⟨p, idx, carries, indexes, by rw [bytes]⟩
    · rw [← bytes] at past
      exact carries.2.2 ▸ h.excess_snoc begun carries.1 past
  cases kept with
  | none =>
      exact emits (.stored block) block _ ⟨⟨filled, small⟩, rfl, rfl⟩ (bytes_dataChunk _ _ _)
  | some body => exact emits (.coded block body) body _ ⟨encoded, rfl, rfl⟩ (bytes_dataChunk _ _ _)

/-- A payload that cannot be counted. -/
theorem Ledger.excess_payload (h : Ledger b s ps) {p : Piece} (valid : p.Valid b)
    (past : 2 ^ 64 ≤ s.uncompWritten + p.block.length) : Excess b (itemsOf ps ++ p.items) := by
  intro codec
  have lengths := lengths_le h.valid h.large codec
  have last := valid.length_le h.large codec
  have accepted := h.accepted
  have most := streamLimit_le b
  rw [cost_append]
  omega

end Ledger

/-- The writer has begun and has put out pieces with these items. -/
def Laid (b : WriterBuilder) (s : Writer (List UInt8)) (its : List Item) : Prop :=
  ∃ ps, Ledger b s ps ∧ itemsOf ps = its

/-- The same, once the header has been written. -/
def Begins (b : WriterBuilder) (s : Writer (List UInt8)) (its : List Item) : Prop :=
  Laid b s its ∧ s.wroteHeader = true

theorem blocks_sized {n : Nat} (pos : 0 < n) (data : List UInt8) :
    (blocks n data).flatten = data ∧ ∀ block ∈ blocks n data, block ≠ [] ∧ block.length ≤ n := by
  induction size : data.length using Nat.strong_induction_on generalizing data with
  | _ k ih =>
      by_cases none : data = []
      · rw [none, blocks_nil]
        exact ⟨rfl, fun _ h => absurd h List.not_mem_nil⟩
      · have some := List.length_pos_iff.mpr none
        have rest := ih _ (by rw [List.length_drop]; omega) (data.drop n) rfl
        rw [blocks_cons pos none, List.flatten_cons, rest.1, List.take_append_drop]
        refine ⟨rfl, List.forall_mem_cons.mpr ⟨⟨?_, List.length_take_le n data⟩, rest.2⟩⟩
        intro empty
        rw [List.take_eq_nil_iff] at empty
        rcases empty with zero | empty
        · omega
        · exact none empty

section Calls

variable (m : Overflow) {b : WriterBuilder} {s : Writer (List UInt8)} {its : List Item}

theorem Laid.ensureHeader (h : Laid b s its) :
    Runs (ensureHeader m Sink.vec) s (fun _ s' => Begins b s' its ∧ s'.ibuf = s.ibuf)
      (fun _ _ => Excess b its) := by
  obtain ⟨ps, ledger, rfl⟩ := h
  refine Runs.step rfl ?_
  cases header : s.wroteHeader with
  | true => exact runs_ok rfl ⟨⟨⟨ps, ledger, rfl⟩, header⟩, rfl⟩
  | false =>
      have empty := ledger.sink
      rw [header, if_neg Bool.false_ne_true] at empty
      have none := ledger.unbegun header
      subst none
      have written := ledger.written
      have options := ledger.options
      have size : s.blockSize = b.blockSize := options.blockSize
      rw [empty] at written
      refine ((writeAllTracked_runs m _).mono (fun _ _ h => h) fun _ _ past => ?_).bind ?_
      · rw [written, length_header] at past
        exact absurd past (by decide)
      · rintro _ _ rfl
        refine runs_ok rfl ⟨⟨⟨[], ?_, rfl⟩, rfl⟩, rfl⟩
        refine ⟨⟨options.blockSize, options.level, options.uncompressed, options.padding,
          options.flushOnWrite, options.appendIndex, options.indexed⟩, ledger.err, ledger.large, ?_,
          fun none => (by cases none), ledger.valid, ?_, ledger.accepted, ledger.within, ?_⟩
        · simp only [Writer.putting, empty, size, if_true]
          rfl
        · simp only [Writer.putting, empty, written]
          rfl
        · exact fun idx entry _ => ledger.entries idx entry (by rw [empty]; decide)

theorem Begins.emitBlock (h : Begins b s its) {block : List UInt8} (filled : block ≠ [])
    (small : block.length ≤ b.blockSize) :
    Runs (do
      emitBlock m Sink.vec block
      countAccepted m block.length) s
      (fun _ s' => Begins b s' (its ++ block.map .byte) ∧ s'.ibuf = s.ibuf)
      (fun _ _ => Excess b (its ++ block.map .byte)) := by
  obtain ⟨⟨ps, ledger, rfl⟩, begun⟩ := h
  refine (ledger.emitBlock m begun filled small).bind ?_
  rintro _ _ ⟨p, idx, ⟨valid, rfl, items⟩, indexes, rfl⟩
  refine (countAccepted_runs m _).mono ?_ fun _ _ past => ?_
  · rintro _ _ rfl
    have after := ledger.snoc begun valid indexes
    exact ⟨⟨⟨ps ++ [p], after, by rw [itemsOf_snoc, items]⟩, begun⟩, rfl⟩
  · exact items ▸ ledger.excess_payload valid past

theorem Begins.emitBlocks (h : Begins b s its) {bs : List (List UInt8)}
    (sized : ∀ block ∈ bs, block ≠ [] ∧ block.length ≤ b.blockSize) :
    Runs (emitBlocks m Sink.vec bs) s
      (fun _ s' => Begins b s' (its ++ bs.flatten.map .byte) ∧ s'.ibuf = s.ibuf)
      (fun _ _ => Excess b (its ++ bs.flatten.map .byte)) := by
  induction bs generalizing s its with
  | nil =>
      simp only [List.flatten_nil, List.map_nil, List.append_nil]
      exact runs_pure ⟨h, rfl⟩
  | cons block bs ih =>
      rw [List.forall_mem_cons] at sized
      rw [Stream.emitBlocks, ← bind_assoc, List.flatten_cons, List.map_append, ← List.append_assoc]
      refine ((h.emitBlock m sized.1.1 sized.1.2).mono (fun _ _ h => h)
        fun _ _ past => past.more _).bind ?_
      rintro _ s1 ⟨laid, same⟩
      refine (ih laid sized.2).mono ?_ fun _ _ h => h
      rintro _ s2 ⟨laid, same'⟩
      exact ⟨laid, same'.trans same⟩

/-- Only what has been put out counts, not what is buffered. -/
theorem Laid.buffered (h : Laid b s its) (buf : List UInt8) : Laid b { s with ibuf := buf } its := by
  obtain ⟨ps, ledger, rfl⟩ := h
  have options := ledger.options
  exact ⟨ps, ⟨⟨options.blockSize, options.level, options.uncompressed, options.padding,
    options.flushOnWrite, options.appendIndex, options.indexed⟩, ledger.err, ledger.large,
    ledger.sink, ledger.unbegun, ledger.valid, ledger.written, ledger.accepted, ledger.within,
    ledger.entries⟩, rfl⟩

variable (pos : 0 < b.blockSize)

include pos

theorem Laid.put (h : Laid b s its) (data : List UInt8) :
    Runs (put m Sink.vec data) s
      (fun _ s' => Laid b s' (its ++ data.map .byte) ∧ s'.ibuf = s.ibuf)
      (fun _ _ => Excess b (its ++ data.map .byte)) := by
  rw [Stream.put]
  split
  · next none =>
      rw [none, List.map_nil, List.append_nil]
      exact runs_pure ⟨h, rfl⟩
  · refine ((h.ensureHeader m).mono (fun _ _ h => h) fun _ _ past => past.more _).bind ?_
    rintro _ s1 ⟨begun, same⟩
    obtain ⟨ps, ledger, rfl⟩ := begun.1
    have size : s1.blockSize = b.blockSize := ledger.options.blockSize
    obtain ⟨whole, sized⟩ := blocks_sized (size.symm ▸ pos : 0 < s1.blockSize) data
    have fits : ∀ block ∈ blocks s1.blockSize data, block ≠ [] ∧ block.length ≤ b.blockSize :=
      fun block here => size ▸ sized block here
    have emitted := begun.emitBlocks m fits
    rw [whole] at emitted
    refine Runs.step rfl (emitted.mono ?_ fun _ _ h => h)
    rintro _ s2 ⟨laid, same'⟩
    exact ⟨laid.1, same'.trans same⟩

theorem Laid.flushIbuf (h : Laid b s its) :
    Runs (flushIbuf m Sink.vec) s
      (fun _ s' => Laid b s' (its ++ s.ibuf.map .byte) ∧ s'.ibuf = [])
      (fun _ _ => Excess b (its ++ s.ibuf.map .byte)) := by
  obtain ⟨ps, ledger, rfl⟩ := h
  refine Runs.step rfl ?_
  simp only
  split
  · next none =>
      rw [none, List.map_nil, List.append_nil]
      exact runs_pure ⟨⟨ps, ledger, rfl⟩, none⟩
  · next filled =>
      refine Runs.step rfl ?_
      have size : s.blockSize = b.blockSize := ledger.options.blockSize
      have emptied : Laid b { s with ibuf := [] } (itemsOf ps) :=
        Laid.buffered ⟨ps, ledger, rfl⟩ []
      have written := writeBlocks_eq m Sink.vec (s := { s with ibuf := [] }) (size ▸ pos) filled
      exact (emptied.put m pos s.ibuf).same written

end Calls

/-- What a call adds to the stream. -/
def WriterCall.items : WriterCall → List Item
  | .write p => p.map .byte
  | .flush => []
  | .addUserChunk id data =>
      if WriterCall.Refused (.addUserChunk id data) then [] else [.chunk id data]

/-- The writer has been given these items, and has put out all but the bytes it buffers. -/
structure Takes (b : WriterBuilder) (s : Writer (List UInt8)) (its : List Item) : Prop where
  laid : ∃ done, Laid b s done ∧ done ++ s.ibuf.map .byte = its
  room : s.ibuf.length < s.blockSize
  direct : s.flushOnWrite = true → s.ibuf = []

section Takes

variable (m : Overflow) {b : WriterBuilder} {s : Writer (List UInt8)} {its : List Item}

/-- With its buffer empty, the writer has put out all it has been given. -/
theorem Laid.takes (h : Laid b s its) (pos : 0 < b.blockSize) (empty : s.ibuf = []) :
    Takes b s its := by
  obtain ⟨ps, ledger, rfl⟩ := h
  refine ⟨⟨itemsOf ps, ⟨ps, ledger, rfl⟩, by rw [empty, List.map_nil, List.append_nil]⟩, ?_,
    fun _ => empty⟩
  have size : s.blockSize = b.blockSize := ledger.options.blockSize
  rw [empty, size]
  exact pos

theorem Takes.err (h : Takes b s its) : s.err = none := by
  obtain ⟨_, ⟨_, ledger, _⟩, _⟩ := h.laid
  exact ledger.err

variable (pos : 0 < b.blockSize)

include pos

theorem Takes.feed (h : Takes b s its) (buffers : s.flushOnWrite = false) (p : List UInt8) :
    Runs (feed m Sink.vec p) s (fun _ s' => Takes b s' (its ++ p.map .byte))
      (fun _ _ => Excess b (its ++ p.map .byte)) := by
  obtain ⟨done, laid, rfl⟩ := h.laid
  have size : s.blockSize = b.blockSize := by
    obtain ⟨_, ledger, _⟩ := laid
    exact ledger.options.blockSize
  have direct : b.flushOnWrite = false := by
    obtain ⟨_, ledger, _⟩ := laid
    exact ledger.options.flushOnWrite.symm.trans buffers
  set all := s.ibuf ++ p with buffered
  set n := wholeLen s.blockSize all.length with whole
  have split : done ++ s.ibuf.map .byte ++ p.map .byte =
      done ++ (all.take n).map .byte ++ (all.drop n).map .byte := by
    rw [List.append_assoc, List.append_assoc, ← List.map_append, ← List.map_append,
      List.take_append_drop]
  have puts := ((laid.buffered []).put m pos (all.take n)).mono (fun _ _ h => h)
    fun _ _ past => past.more ((all.drop n).map .byte)
  rw [split]
  refine Runs.same (puts.bind ?_) (feed_run m Sink.vec p s)
  rintro _ s1 ⟨laid1, -⟩
  have size1 : s1.blockSize = b.blockSize := by
    obtain ⟨_, ledger, _⟩ := laid1
    exact ledger.options.blockSize
  have direct1 : s1.flushOnWrite = false := by
    obtain ⟨_, ledger, _⟩ := laid1
    exact ledger.options.flushOnWrite.trans direct
  refine runs_ok (buffers_run (all.drop n) s1) ⟨⟨_, laid1.buffered _, rfl⟩, ?_, ?_⟩
  · have rest := Nat.mod_lt all.length (size ▸ pos : 0 < s.blockSize)
    have less := Nat.mod_le all.length s.blockSize
    simp only [List.length_drop]
    rw [whole, wholeLen, size1, ← size]
    omega
  · exact fun flushes => absurd (direct1.symm.trans flushes) Bool.false_ne_true

theorem Takes.write (h : Takes b s its) (p : List UInt8) :
    Runs (write m Sink.vec p) s (fun _ s' => Takes b s' (its ++ p.map .byte))
      (fun _ _ => Excess b (its ++ p.map .byte)) := by
  obtain ⟨done, laid, split⟩ := h.laid
  obtain ⟨ps, ledger, rfl⟩ := id laid
  have options := ledger.options
  have size : s.blockSize = b.blockSize := options.blockSize
  have cap : maxBlockSize < 2 ^ 64 := by decide
  have large := ledger.large
  cases direct : s.flushOnWrite with
  | false =>
      have ready : Ready s := ⟨ledger.err, direct, h.room, by omega⟩
      refine Runs.same ?_ (write_feeds m Sink.vec ready p)
      exact (h.feed m pos direct p).bind fun _ s' taken => runs_pure taken
  | true =>
      have empty := h.direct direct
      rw [empty, List.map_nil, List.append_nil] at split
      subst split
      refine Runs.step (checkWriter_clear ledger.err) ?_
      split
      · next none =>
          rw [none, List.map_nil, List.append_nil]
          exact runs_pure h
      · next filled =>
          refine Runs.step rfl ?_
          rw [direct, if_pos rfl]
          have puts := (laid.put m pos p).same (writeBlocks_eq m Sink.vec (size ▸ pos) filled)
          refine puts.bind ?_
          rintro _ s' ⟨laid', same⟩
          exact runs_pure (laid'.takes pos (same.trans empty))

theorem Takes.flushIbuf (h : Takes b s its) :
    Runs (flushIbuf m Sink.vec) s (fun _ s' => Laid b s' its ∧ s'.ibuf = [])
      (fun _ _ => Excess b its) := by
  obtain ⟨done, laid, rfl⟩ := h.laid
  exact laid.flushIbuf m pos

theorem Takes.flush (h : Takes b s its) :
    Runs (flush m Sink.vec) s (fun _ s' => Takes b s' its) (fun _ _ => Excess b its) := by
  refine Runs.step (checkWriter_clear h.err) ((h.flushIbuf m pos).bind ?_)
  rintro _ s1 ⟨laid, empty⟩
  exact runs_ok rfl (laid.takes pos empty)

theorem Takes.addUserChunk (h : Takes b s its) {id : UInt8} {data : List UInt8}
    (taken : ¬WriterCall.Refused (.addUserChunk id data)) :
    Runs (addUserChunk m Sink.vec id data) s (fun _ s' => Takes b s' (its ++ [.chunk id data]))
      (fun _ _ => Excess b (its ++ [.chunk id data])) := by
  obtain ⟨outside, long⟩ := not_or.mp taken
  have valid : (Piece.user id data).Valid b := ⟨not_not.mp outside, Nat.not_lt.mp long⟩
  rw [Stream.addUserChunk, if_neg outside, if_neg long]
  refine Runs.step (checkWriter_clear h.err) ?_
  refine ((h.flushIbuf m pos).mono (fun _ _ h => h) fun _ _ past => past.more _).bind ?_
  rintro _ s1 ⟨laid, empty⟩
  refine ((laid.ensureHeader m).mono (fun _ _ h => h) fun _ _ past => past.more _).bind ?_
  rintro _ s2 ⟨⟨⟨ps, ledger, rfl⟩, begun⟩, same⟩
  refine (writeBoth_runs m _ _).mono ?_ fun _ _ past => ledger.excess_snoc begun valid past
  rintro _ _ rfl
  have indexes : Indexes s2 ps [] s2.index :=
    ⟨rfl, ledger.within, fun i entry small => (List.append_nil _).symm ▸ ledger.entries i entry small⟩
  have after := ledger.snoc begun valid indexes
  have counted : (s2.uncompWritten + 0) % 2 ^ 64 = s2.uncompWritten := by
    have accepted := ledger.accepted
    omega
  have laid : Laid b (s2.putting (Piece.user id data).bytes) (itemsOf ps ++ [.chunk id data]) := by
    refine ⟨ps ++ [.user id data], ?_, itemsOf_snoc _ _⟩
    simp only [Piece.block, List.length_nil, counted] at after
    exact after
  exact laid.takes pos (same.trans empty)

theorem Takes.call (h : Takes b s its) {call : WriterCall} (taken : ¬call.Refused) :
    Runs (call.run m Sink.vec) s (fun _ s' => Takes b s' (its ++ call.items))
      (fun _ _ => Excess b (its ++ call.items)) := by
  cases call with
  | write p => exact (h.write m pos p).bind fun _ _ taken => runs_pure taken
  | flush =>
      rw [WriterCall.items, List.append_nil]
      exact h.flush m pos
  | addUserChunk id data =>
      rw [WriterCall.items, if_neg taken]
      exact h.addUserChunk m pos taken

theorem Takes.runWrites (h : Takes b s its) (calls : List WriterCall) :
    Runs (runWrites m Sink.vec calls) s
      (fun _ s' => Takes b s' (its ++ calls.flatMap WriterCall.items))
      (fun _ _ => Excess b (its ++ calls.flatMap WriterCall.items)) := by
  induction calls generalizing s its with
  | nil =>
      rw [List.flatMap_nil, List.append_nil]
      exact runs_pure h
  | cons call calls ih =>
      rw [Stream.runWrites, List.flatMap_cons, ← List.append_assoc]
      by_cases refused : call.Refused
      · rw [if_neg (not_not.mpr refused)]
        have nothing : call.items = [] := by
          cases call with
          | write p => exact refused.elim
          | flush => exact refused.elim
          | addUserChunk id data => exact if_pos refused
        rw [nothing, List.append_nil]
        exact Runs.step rfl (ih h)
      · rw [if_pos refused]
        refine ((h.call m pos refused).mono (fun _ _ h => h) fun _ _ past => past.more _).bind ?_
        exact fun _ s1 taken => ih taken

end Takes

/-- A writer that has just been built. -/
theorem build_takes {b : WriterBuilder} {s : Writer (List UInt8)} (built : b.build [] = .ok s) :
    Takes b s [] ∧ 0 < b.blockSize ∧ b.padding ≤ maxBlockSize := by
  have some : 0 < minBlockSize := by decide
  have cap : maxBlockSize < 2 ^ 24 := by decide
  rw [WriterBuilder.build] at built
  split at built
  · cases built
  · next valid =>
      split at built
      · cases built
      · next padded =>
          cases built
          have pos : 0 < b.blockSize := by omega
          have large : b.blockSize ≤ maxBlockSize := by omega
          refine ⟨Laid.takes ⟨[], ?_, rfl⟩ pos rfl, pos, Nat.not_lt.mp padded⟩
          refine ⟨sameOptions_refl _, rfl, large, rfl, fun _ => rfl, fun _ h => (by cases h), rfl, rfl,
            fun _ => Nat.zero_le _, fun idx entry _ => ?_⟩
          simp only [newWriter] at entry
          split at entry
          · cases entry
            exact Index.thinned_reset large
          · cases entry

end MinLz.Stream
