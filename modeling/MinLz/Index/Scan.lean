import MinLz.Index.Stored
import MinLz.Stream.Content

/-! # Indexing a finished stream

`index_stream` walks the chunks of a stream and adds an entry for each block that is
not empty. It never decodes a block: what a data chunk declares is believed.
-/

namespace MinLz

namespace Stream

/-- Where the blocks that are not empty start, the first chunk being at `pos`. -/
def starts (pos : OffsetPair) : List Chunk → List OffsetPair
  | [] => []
  | c :: cs =>
      let rest := starts ⟨pos.compressed + c.bytes.length, pos.uncompressed + c.blockLen⟩ cs
      if c.blockLen = 0 then rest else pos :: rest

theorem starts_append (pos : OffsetPair) (cs : List Chunk) (c : Chunk) :
    starts pos (cs ++ [c]) = starts pos cs ++ if c.blockLen = 0 then []
      else [⟨pos.compressed + totalBytes cs, pos.uncompressed + totalLen cs⟩] := by
  induction cs generalizing pos with
  | nil => simp [starts, totalBytes, totalLen]
  | cons d cs ih =>
      rw [List.cons_append, starts, starts, ih]
      simp only [totalBytes, totalLen, List.flatMap_cons, List.length_append, List.map_cons,
        List.sum_cons, Nat.add_assoc]
      split_ifs <;> rfl

theorem mem_starts {pos q : OffsetPair} {cs : List Chunk} (h : q ∈ starts pos cs) :
    ∃ before c after, cs = before ++ c :: after ∧ 0 < c.blockLen ∧
      q = ⟨pos.compressed + totalBytes before, pos.uncompressed + totalLen before⟩ := by
  induction cs generalizing pos with
  | nil => cases h
  | cons d cs ih =>
      have later (h : q ∈ starts ⟨pos.compressed + d.bytes.length, pos.uncompressed + d.blockLen⟩ cs) :
          ∃ before c after, d :: cs = before ++ c :: after ∧ 0 < c.blockLen ∧
            q = ⟨pos.compressed + totalBytes before, pos.uncompressed + totalLen before⟩ := by
        obtain ⟨before, c, after, rfl, some, rfl⟩ := ih h
        refine ⟨d :: before, c, after, rfl, some, ?_⟩
        simp only [totalBytes, totalLen, List.flatMap_cons, List.length_append, List.map_cons,
          List.sum_cons, Nat.add_assoc]
      rw [starts] at h
      split at h
      · exact later h
      · next some =>
          rcases List.mem_cons.mp h with rfl | h
          · exact ⟨[], d, cs, rfl, Nat.pos_of_ne_zero some, rfl⟩
          · exact later h

/-- The blocks start one after the other. -/
theorem starts_rising (pos : OffsetPair) (cs : List Chunk) :
    (starts pos cs).Pairwise fun a b => a.compressed < b.compressed := by
  induction cs generalizing pos with
  | nil => exact List.Pairwise.nil
  | cons d cs ih =>
      rw [starts]
      split
      · exact ih _
      · refine List.Pairwise.cons ?_ (ih _)
        intro q hq
        obtain ⟨before, c, after, _, _, rfl⟩ := mem_starts hq
        have := d.length_bytes
        simp only
        omega

end Stream

namespace Index

open Machine (Overflow maxSigned)
open MinLz.Stream
open Block (maxBlockSize)
open Effects Loop

/-- `"S2sTwO"` -/
def magicBodyS2 : List UInt8 := [0x53, 0x32, 0x73, 0x54, 0x77, 0x4f]

/-- `"sNaPpY"` -/
def magicBodySnappy : List UInt8 := [0x73, 0x4e, 0x61, 0x50, 0x70, 0x59]

/-- What `index_stream` has found in the chunks before `data`. -/
structure Scan where
  idx : Index := new
  compPos : Nat := 0
  uncompPos : Nat := 0
  readHeader : Bool := false
  data : List UInt8

variable (m : Overflow)

/-- The length a compressed block declares; one of the legacy type may be larger than
    what it decodes to, so that only its varint is looked at. -/
def blockLen (kind : UInt8) (block : List UInt8) : Exec Nat :=
  let bad : Error := .invalid "bad block size header"
  if kind = chunkTypeLegacyCompressedData then
    match readUvarint m block with
    | .ok (v, _) => .ok v
    | .error (.fault f) => .error (.fault f)
    | .error (.error _) => fail bad
  else
    match Block.decodedLenChunkBody block with
    | .ok v => .ok v
    | .error (.fault f) => .error (.fault f)
    | .error (.error _) => fail bad

/-- The first block is the estimate of them all. -/
def seed (idx : Index) (len : Nat) : Index :=
  if idx.estBlockUncomp = 0 then { idx with estBlockUncomp := len } else idx

/-- Add an entry for a block of `len` bytes, unless it is empty. -/
def addBlock (s : Scan) (start len : Nat) : Exec Scan := do
  if len = 0 then return s
  let idx ← add m (seed s.idx len) start s.uncompPos
  return { s with idx, uncompPos := ← word (m.unsigned (s.uncompPos + len)) }

/-- A chunk at `start`, by its type. -/
def scanChunk (s : Scan) (start : Nat) (kind : UInt8) (body : List UInt8) : Exec Scan := do
  if kind = chunkTypeLegacyCompressedData ∨ kind = chunkTypeMinlzCompressedData ∨
      kind = chunkTypeMinlzCompressedDataCompCrc then
    reject (body.length < checksumSize) (.invalid "data chunk shorter than CRC")
    let len ← blockLen m kind (← sliceFrom body checksumSize)
    reject (len > maxBlockSize) (.invalid "block exceeds max size")
    addBlock m s start len
  else if kind = chunkTypeUncompressedData then
    reject (body.length < checksumSize) (.invalid "uncompressed chunk shorter than CRC")
    let len := body.length - checksumSize
    reject (len > maxBlockSize) (.invalid "uncompressed block exceeds max size")
    addBlock m s start len
  else if kind = chunkTypeStreamIdentifier then
    reject (body.length ≠ magicBodyLen) (.badFormat "bad stream identifier length")
    reject (¬magicBody <+: body ∧ body ≠ magicBodyS2 ∧ body ≠ magicBodySnappy)
      (.badFormat "unknown stream magic")
    return s
  else if kind = chunkTypeEof then return s
  else
    reject (kind ≤ maxNonSkippableChunk) (.badFormat "reserved unskippable chunk")
    return s

/-- A pass of the loop; at the end of the input it stores the index. -/
def scanStep (s : Scan) : Exec (Iter Scan (List UInt8)) := do
  match s.data with
  | [] =>
      let (_, out) ← appendTo m s.idx [] (some s.uncompPos) (some s.compPos)
      return .done out
  | kind :: b0 :: b1 :: b2 :: rest =>
      let start := s.compPos
      let compPos ← word (m.unsigned (start + 4))
      reject (s.readHeader = false ∧ kind ≠ chunkTypeStreamIdentifier ∧ kind ≠ chunkTypeEof)
        (.badFormat "missing stream identifier")
      let len := readChunkLen b0 b1 b2
      let compPos ← word (m.unsigned (compPos + len))
      reject (rest.length < len) .truncated
      let s := { s with compPos, readHeader := true, data := rest.drop len }
      return .next (← scanChunk m s start kind (rest.take len))
  | _ => fail (.io ⟨.unexpectedEof, "unexpected end of file"⟩)

def indexStream (data : List UInt8) : Exec (List UInt8) :=
  run (.fault .unfinished) (scanStep m) (data.length + 1) { data }

/-- The index before and after its first entry, which sets its block estimate. -/
def Entered (calls : List OffsetPair) (idx : Index) : Prop :=
  idx = new ∧ calls = [] ∨ Thinned calls idx

theorem Entered.seed {calls : List OffsetPair} {idx : Index} {len : Nat}
    (h : Entered calls idx) (pos : 1 ≤ len) (small : len ≤ maxBlockSize) :
    Thinned calls (seed idx len) := by
  rcases h with ⟨rfl, rfl⟩ | thinned
  · have cap : maxBlockSize ≤ 2 ^ 48 := by decide
    exact ⟨List.Sublist.refl _, rfl, List.Pairwise.nil, List.Pairwise.nil,
      fun q hq => absurd hq List.not_mem_nil, pos, small.trans cap⟩
  · have some := thinned.pos
    rwa [Index.seed, if_neg (by omega)]

theorem add_bounds {m : Overflow} {self r : Index} {c u : Nat} (run : add m self c u = .ok r) :
    c ≤ maxSigned ∧ u ≤ maxSigned := by
  rw [add] at run
  split at run
  · cases run
  · omega

/-- What a block adds to the scan. -/
structure Advanced (s : Scan) (calls : List OffsetPair) (start len : Nat) (s' : Scan) : Prop where
  data : s'.data = s.data
  compPos : s'.compPos = s.compPos
  uncompPos : s'.uncompPos = s.uncompPos + len
  small : s'.uncompPos ≤ maxSigned + maxBlockSize
  entered : Entered (calls ++ if len = 0 then [] else [⟨start, s.uncompPos⟩]) s'.idx

theorem advanced_none {s : Scan} {calls : List OffsetPair} (start : Nat)
    (small : s.uncompPos ≤ maxSigned + maxBlockSize) (entered : Entered calls s.idx) :
    Advanced s calls start 0 s :=
  ⟨rfl, rfl, rfl, small, by rwa [if_pos rfl, List.append_nil]⟩

theorem addBlock_exits {s : Scan} {calls : List OffsetPair} (start : Nat) {len : Nat}
    (fits : len ≤ maxBlockSize) (small : s.uncompPos ≤ maxSigned + maxBlockSize)
    (entered : Entered calls s.idx) :
    Exits (addBlock m s start len) (Advanced s calls start len) Refused := by
  by_cases empty : len = 0
  · subst empty
    exact exits_ok (advanced_none start small entered)
  · have thinned := entered.seed (Nat.pos_of_ne_zero empty) fits
    rw [addBlock, if_neg empty]
    rcases add_cases m thinned ⟨start, s.uncompPos⟩ with ⟨idx, run, added⟩ | ⟨⟨e, run⟩, _⟩ <;>
      simp only at run
    · have bounds := add_bounds run
      have limit := maxSigned_eq
      have block : maxBlockSize ≤ 2 ^ 48 := by decide
      have cast : ((s.uncompPos : Int) + len) = ((s.uncompPos + len : Nat) : Int) := by
        push_cast
        rfl
      rw [run, ok_bind, cast, word_ok m (by omega)]
      refine exits_ok ⟨rfl, rfl, rfl, ?_, .inr ?_⟩
      · simp only
        omega
      · rwa [if_neg empty]
    · rw [run]
      exact exits_error (refused e)

theorem blockLen_exits (kind : UInt8) (block : List UInt8) :
    Exits (blockLen m kind block)
      (fun n => (Block.getUvarint block).map Prod.fst = some n) Refused := by
  rw [blockLen]
  split
  · rw [readUvarint_eq]
    cases read : Leb128.decode block with
    | error e => exact exits_error (refused _)
    | ok r =>
        refine exits_ok ?_
        rw [Block.getUvarint, read]
        rfl
  · cases split : Block.splitChunkBody block with
    | error e =>
        obtain ⟨r, rfl⟩ := (Block.splitChunkBody_refused block).error split
        rw [Block.decodedLenChunkBody, split]
        exact exits_error (refused _)
    | ok r =>
        rw [Block.decodedLenChunkBody, split]
        exact exits_ok (Block.splitChunkBody_varint split)

theorem declares_len {c : Chunk} {n : Nat} (data : c.IsData) (small : n ≤ maxBlockSize)
    (h : c.declared = some n) : c.blockLen = n ∧ c.Declares := by
  rw [Chunk.blockLen, if_pos data, h]
  exact ⟨rfl, fun _ => ⟨n, small, h⟩⟩

/-- A chunk is refused, or advances the scan by what it declares. -/
theorem scanChunk_exits {s : Scan} {calls : List OffsetPair} (start : Nat) (c : Chunk)
    (small : s.uncompPos ≤ maxSigned + maxBlockSize) (entered : Entered calls s.idx) :
    Exits (scanChunk m s start c.kind c.body)
      (fun s' => Advanced s calls start c.blockLen s' ∧ c.Declares) Refused := by
  have other (h : ¬c.IsData) : Advanced s calls start c.blockLen s ∧ c.Declares := by
    rw [Chunk.blockLen, if_neg h]
    exact ⟨advanced_none start small entered, fun data => absurd data h⟩
  rw [scanChunk]
  split
  · next compressed =>
      have data : c.IsData := by
        rw [Chunk.IsData]
        tauto
      have coded : c.kind ≠ chunkTypeUncompressedData := by
        rintro kind
        rw [kind] at compressed
        exact absurd compressed (by decide)
      refine (reject_exits _ _).bind fun _ long => ?_
      rw [sliceFrom_ok (by omega), ok_bind]
      refine (blockLen_exits m c.kind _).bind fun n read => ?_
      refine (reject_exits _ _).bind fun _ fits => ?_
      have declared : c.declared = some n := by
        rw [Chunk.declared, if_neg long, if_neg coded, read]
      obtain ⟨len, declares⟩ := declares_len data (Nat.not_lt.mp fits) declared
      rw [len]
      exact (addBlock_exits m start (Nat.not_lt.mp fits) small entered).mono
        (fun _ h => ⟨h, declares⟩) (fun _ h => h)
  · next coded =>
      split
      · next kind =>
          refine (reject_exits _ _).bind fun _ long => ?_
          refine (reject_exits _ _).bind fun _ fits => ?_
          have declared : c.declared = some (c.body.length - checksumSize) := by
            rw [Chunk.declared, if_neg long, if_pos kind]
          obtain ⟨len, declares⟩ :=
            declares_len (.inr (.inr (.inr kind))) (Nat.not_lt.mp fits) declared
          rw [len]
          exact (addBlock_exits m start (Nat.not_lt.mp fits) small entered).mono
            (fun _ h => ⟨h, declares⟩) (fun _ h => h)
      · next stored =>
          have skipped := other (by
            rw [Chunk.IsData]
            tauto)
          split
          · refine (reject_exits _ _).bind fun _ _ => ?_
            refine (reject_exits _ _).bind fun _ _ => ?_
            exact exits_ok skipped
          · split
            · exact exits_ok skipped
            · refine (reject_exits _ _).bind fun _ _ => ?_
              exact exits_ok skipped

/-- The scan has taken the chunks `done`. -/
structure Scanned (data : List UInt8) (done : List Chunk) (s : Scan) : Prop where
  input : done.flatMap Chunk.bytes ++ s.data = data
  fit : ∀ c ∈ done, c.Fits
  declares : ∀ c ∈ done, c.Declares
  compPos : s.compPos = totalBytes done
  uncompPos : s.uncompPos = totalLen done
  small : s.uncompPos ≤ maxSigned + maxBlockSize
  entered : Entered (starts {} done) s.idx

/-- What the index that a scan stores says about the stream. -/
structure Describes (data : List UInt8) (out : List UInt8) : Prop where
  whole : (chunks data).flatMap Chunk.bytes = data
  declares : ∀ c ∈ chunks data, c.Declares
  loads : ∃ offsets est, offsets.Sublist (starts {} (chunks data)) ∧ ∀ t start,
    load m (out ++ t) start =
      .ok t ⟨some (totalLen (chunks data)), some data.length, offsets, est⟩

variable {m}

/-- Entries that are apart in the decoded stream can be stored when the stream is short. -/
theorem Entered.storable {calls : List OffsetPair} {idx : Index} (h : Entered calls idx)
    (rising : calls.Pairwise fun a b => a.compressed < b.compressed)
    (below : ∀ p ∈ calls, p.compressed < 2 ^ 60) :
    ∃ r, reduce m idx = .ok r ∧ Storable r ∧ r.offsets.Sublist calls ∧
      r.offsets.head? = calls.head? := by
  rcases h with ⟨rfl, rfl⟩ | thinned
  · exact ⟨new, rfl, ⟨Nat.zero_le _, Nat.zero_le _, fun p hp => absurd hp List.not_mem_nil,
      trivial, trivial⟩, List.Sublist.refl _, rfl⟩
  · obtain ⟨r, reduced, h, storable⟩ := thinned.reduce
    have kept := h.sublist.trans thinned.sublist
    have total := length_mul_le maxSigned thinned.spaced (fun q hq => (thinned.bounded q hq).2)
    have limit := maxSigned_eq
    have est : r.estBlockUncomp / 2 ≤ 2 ^ 62 := by
      have := thinned.small
      rcases h.est with same | grown <;> omega
    exact ⟨r, reduced, storable (predictable_small (by omega) (by omega) (rising.sublist kept)
      (fun p hp => (below p (kept.mem hp)).trans (by norm_num))), kept, h.first.trans thinned.first⟩

/-- At the end all chunks have been taken. -/
theorem Scanned.all {data : List UInt8} {done : List Chunk} {s : Scan} (h : Scanned data done s)
    (none : s.data = []) : chunks data = done ∧ done.flatMap Chunk.bytes = data := by
  have input := h.input
  rw [none, List.append_nil] at input
  have split := chunks_append h.fit []
  rw [List.append_nil, input, chunks_end (show Chunk.next [] = .none from rfl),
    List.append_nil] at split
  exact ⟨split, input⟩

/-- What has been scanned is stored when its total is in range. -/
theorem scanned_put {data : List UInt8} {done : List Chunk} {s : Scan} (short : data.length < 2 ^ 60)
    (h : Scanned data done s) (none : s.data = []) (fits : s.uncompPos ≤ maxSigned) :
    ∃ self out, appendTo m s.idx [] (some s.uncompPos) (some s.compPos) = .ok (self, out) ∧
      self.totalUncompressed = some (totalLen (chunks data)) ∧
      self.totalCompressed = some data.length ∧
      self.offsets.Sublist (starts {} (chunks data)) ∧
      self.offsets.head? = (starts {} (chunks data)).head? ∧
      ∀ t start, load m (out ++ t) start = .ok t self := by
  have limit := maxSigned_eq
  obtain ⟨all, input⟩ := h.all none
  have size : s.compPos = data.length := by rw [h.compPos, totalBytes, input]
  obtain ⟨r, reduced, storable, kept, first⟩ := h.entered.storable (starts_rising {} done)
    (fun p hp => by
      obtain ⟨before, c, after, rfl, _, rfl⟩ := mem_starts hp
      rw [← input, List.flatMap_append, List.length_append] at short
      simp only [totalBytes]
      omega)
  obtain ⟨chunk, put, _, back⟩ := appendTo_ok m [] fits
    (fun t (ht : t ∈ some s.compPos) => by cases ht; omega) reduced storable
  rw [← all] at kept first
  exact ⟨_, chunk, put, by rw [h.uncompPos, all], by rw [size], kept, first, back⟩

theorem scanned_end {data : List UInt8} {done : List Chunk} {s : Scan} (short : data.length < 2 ^ 60)
    (h : Scanned data done s) (none : s.data = []) :
    Exits (appendTo m s.idx [] (some s.uncompPos) (some s.compPos))
      (fun r => Describes m data r.2) Refused := by
  by_cases fits : s.uncompPos ≤ maxSigned
  · obtain ⟨self, out, put, uncomp, comp, kept, _, back⟩ := scanned_put short h none fits
    obtain ⟨all, input⟩ := h.all none
    rw [put]
    refine exits_ok ⟨by rw [all, input], by rw [all]; exact h.declares,
      self.offsets, self.estBlockUncomp, kept, fun t start => ?_⟩
    rw [back, ← uncomp, ← comp]
  · rw [appendTo, if_pos (.inl (by simpa using fits))]
    exact exits_error (refused _)

theorem scanned_next {data rest : List UInt8} {done : List Chunk} {s : Scan} {c : Chunk}
    (h : Scanned data done s) (next : Chunk.next s.data = some (c, rest)) {s' : Scan}
    (advanced : Advanced ⟨s.idx, s.compPos + 4 + c.body.length, s.uncompPos, true, rest⟩
      (starts {} done) s.compPos c.blockLen s') (declares : c.Declares) :
    Scanned data (done ++ [c]) s' := by
  obtain ⟨bytes, fits⟩ := Chunk.next_some next
  have one {P : Chunk → Prop} (old : ∀ d ∈ done, P d) (new : P c) : ∀ d ∈ done ++ [c], P d := by
    intro d hd
    rcases List.mem_append.mp hd with before | last
    · exact old d before
    · exact List.mem_singleton.mp last ▸ new
  refine ⟨?_, one h.fit fits, one h.declares declares, ?_, ?_, advanced.small, ?_⟩
  · rw [advanced.data, List.flatMap_append, List.flatMap_singleton, List.append_assoc, ← bytes,
      h.input]
  · rw [advanced.compPos, totalBytes_append, h.compPos, Nat.add_assoc]
  · rw [advanced.uncompPos, totalLen_append, h.uncompPos]
  · have entered := advanced.entered
    rw [h.compPos, h.uncompPos] at entered
    rw [starts_append]
    simpa using entered

theorem scanStep_exits {data : List UInt8} {Q : List UInt8 → Prop} (short : data.length < 2 ^ 60)
    (ends : ∀ done s, Scanned data done s → s.data = [] →
      Exits (appendTo m s.idx [] (some s.uncompPos) (some s.compPos)) (fun r => Q r.2) Refused)
    {s : Scan} (h : ∃ done, Scanned data done s) :
    Exits (scanStep m s) (Pass (fun s => ∃ done, Scanned data done s) (fun s => s.data.length)
      Q s) Refused := by
  obtain ⟨done, h⟩ := h
  rw [scanStep]
  rcases left : s.data with _ | ⟨kind, _ | ⟨b0, _ | ⟨b1, _ | ⟨b2, rest⟩⟩⟩⟩
  case nil =>
    refine (ends done s h left).bind fun r describes => ?_
    exact exits_ok describes
  case cons.cons.cons.cons =>
    have small := readChunkLen_lt b0 b1 b2
    have position : s.compPos ≤ data.length := by
      rw [h.compPos, totalBytes, ← h.input, List.length_append]
      omega
    have cast (a b : Nat) : ((a : Int) + b) = ((a + b : Nat) : Int) := by
      push_cast
      rfl
    have four : ((s.compPos : Int) + 4) = ((s.compPos + 4 : Nat) : Int) := by
      push_cast
      rfl
    simp only
    rw [four, word_ok m (by omega), ok_bind]
    refine (reject_exits _ _).bind fun _ _ => ?_
    rw [cast, word_ok m (by omega), ok_bind]
    refine (reject_exits _ _).bind fun _ enough => ?_
    have next : Chunk.next s.data = some (⟨kind, rest.take (readChunkLen b0 b1 b2)⟩,
        rest.drop (readChunkLen b0 b1 b2)) := by
      rw [left, Chunk.next, if_pos (by omega)]
    have length : (rest.take (readChunkLen b0 b1 b2)).length = readChunkLen b0 b1 b2 := by
      rw [List.length_take, Nat.min_eq_left (by omega)]
    refine (scanChunk_exits m s.compPos ⟨kind, rest.take (readChunkLen b0 b1 b2)⟩
      (s := ⟨s.idx, _, s.uncompPos, true, rest.drop (readChunkLen b0 b1 b2)⟩) h.small
      h.entered).bind ?_
    rintro s' ⟨advanced, declares⟩
    refine exits_ok ⟨⟨_, scanned_next h next ?_ declares⟩, ?_⟩
    · simp only [length]
      exact advanced
    · simp only [advanced.data, left, List.length_drop, List.length_cons]
      omega
  all_goals exact exits_error (refused _)

theorem scanned_start (data : List UInt8) : Scanned data [] { data } :=
  ⟨rfl, fun _ hc => absurd hc List.not_mem_nil, fun _ hc => absurd hc List.not_mem_nil,
    rfl, rfl, Nat.zero_le _, .inl ⟨rfl, rfl⟩⟩

/-- Indexing a short stream describes it or is refused; it never faults. -/
theorem indexStream_exits {data : List UInt8} (short : data.length < 2 ^ 60) :
    Exits (indexStream m data) (Describes m data) Refused :=
  exits_run (fun s => ∃ done, Scanned data done s) (fun s => s.data.length)
    (fun _ => scanStep_exits short fun _ _ => scanned_end short) ⟨[], scanned_start data⟩
    (Nat.lt_succ_self _)

variable (m)

/-- A chunk that a scan takes: a block that can be decoded, a stream identifier, the end of
    a stream, or one that may be skipped. -/
inductive Scannable (c : Chunk) : Prop where
  | block {out : List UInt8} (has : HasBlock c.kind) (holds : c.block = some out)
      (fits : out.length ≤ maxBlockSize)
  | opens (kind : c.kind = chunkTypeStreamIdentifier) (length : c.body.length = magicBodyLen)
      (magic : magicBody <+: c.body)
  | ends (kind : c.kind = chunkTypeEof)
  | skipped (high : ¬c.kind ≤ maxNonSkippableChunk) (other : c.kind ≠ chunkTypeStreamIdentifier)

theorem addBlock_ok {s : Scan} {calls : List OffsetPair} {start len : Nat} (fits : len ≤ maxBlockSize)
    (entered : Entered calls s.idx) (bound : start ≤ maxSigned ∧ s.uncompPos ≤ maxSigned)
    (rises : ∀ q ∈ calls, q.compressed ≤ start) :
    ∃ s', addBlock m s start len = .ok s' ∧ s'.readHeader = s.readHeader := by
  by_cases empty : len = 0
  · exact ⟨s, if_pos empty, rfl⟩
  · have thinned := entered.seed (Nat.pos_of_ne_zero empty) fits
    have limit := maxSigned_eq
    have block : maxBlockSize ≤ 2 ^ 48 := by decide
    have cast : ((s.uncompPos : Int) + len) = ((s.uncompPos + len : Nat) : Int) := by
      push_cast
      rfl
    rw [addBlock, if_neg empty]
    rcases add_cases m thinned ⟨start, s.uncompPos⟩ with ⟨idx, run, _⟩ | ⟨_, falls⟩
    · simp only at run
      rw [run, ok_bind, cast, word_ok m (by omega)]
      exact ⟨_, rfl, rfl⟩
    · obtain ⟨latest, mem, less⟩ := falls bound
      have before := rises latest (thinned.sublist.mem mem)
      exact absurd less (Nat.not_lt.mpr before)

theorem blockLen_ok {kind : UInt8} {block : List UInt8} {n : Nat}
    (other : kind ≠ chunkTypeLegacyCompressedData) (h : Block.decodedLenChunkBody block = .ok n) :
    blockLen m kind block = .ok n := by
  rw [blockLen, if_neg other, h]

theorem scanChunk_ok {s : Scan} {calls : List OffsetPair} {start : Nat} {c : Chunk}
    (h : Scannable c) (entered : Entered calls s.idx)
    (bound : start ≤ maxSigned ∧ s.uncompPos ≤ maxSigned) (rises : ∀ q ∈ calls, q.compressed ≤ start) :
    ∃ s', scanChunk m s start c.kind c.body = .ok s' ∧ s'.readHeader = s.readHeader := by
  cases h with
  | @block out has holds fits =>
      have long : ¬c.body.length < checksumSize := by
        intro short
        rw [Chunk.block, if_pos short] at holds
        cases holds
      have length := Chunk.length_block holds
      rw [scanChunk]
      rcases has with coded | stored
      · have other : c.kind ≠ chunkTypeLegacyCompressedData := by
          rcases coded with same | same <;> rw [same] <;> decide
        have cases := Block.appendDecodedChunkBody_cases (fun _ => 0) [] (c.body.drop checksumSize)
        rw [Chunk.block, if_neg long, if_neg (Chunk.coded_ne coded), if_pos coded] at holds
        rw [holds] at cases
        rw [if_pos (.inr coded), reject_ok _ long, sliceFrom_ok (by omega)]
        simp only [ok_bind, blockLen_ok m other cases.2, reject_ok _ (Nat.not_lt.mpr fits)]
        exact addBlock_ok m fits entered bound rises
      · have stored_len := Chunk.blockLen_stored stored long
        rw [if_neg (by rw [stored]; decide), if_pos stored, reject_ok _ long, ← stored_len, ← length]
        simp only [ok_bind, reject_ok _ (Nat.not_lt.mpr fits)]
        exact addBlock_ok m fits entered bound rises
  | opens kind length magic =>
      refine ⟨s, ?_, rfl⟩
      rw [scanChunk, kind, if_neg (by decide), if_neg (by decide), if_pos rfl,
        reject_ok _ (not_not.mpr length), reject_ok _ fun bad => bad.1 magic]
      rfl
  | ends kind =>
      refine ⟨s, ?_, rfl⟩
      rw [scanChunk, kind]
      rfl
  | skipped high other =>
      have not_low (kind : UInt8) (low : kind ≤ maxNonSkippableChunk) : c.kind ≠ kind :=
        fun same => high (same ▸ low)
      have uncoded : ¬(c.kind = chunkTypeLegacyCompressedData ∨ c.kind = chunkTypeMinlzCompressedData ∨
          c.kind = chunkTypeMinlzCompressedDataCompCrc) := by
        rintro (same | same | same) <;> exact not_low _ (by decide) same
      refine ⟨s, ?_, rfl⟩
      rw [scanChunk, if_neg uncoded, if_neg (not_low _ (by decide)), if_neg other,
        if_neg (not_low _ (by decide)), reject_ok _ high]
      rfl

/-- A stream that is not refused: it falls into such chunks, starts with a stream
    identifier or an end, and is not too long. -/
structure Indexable (data : List UInt8) : Prop where
  whole : (chunks data).flatMap Chunk.bytes = data
  first : ∀ c ∈ (chunks data).head?, c.kind = chunkTypeStreamIdentifier ∨ c.kind = chunkTypeEof
  scannable : ∀ c ∈ chunks data, Scannable c
  short : data.length < 2 ^ 60
  total : totalLen (chunks data) ≤ maxSigned

theorem starts_below {cs : List Chunk} : ∀ q ∈ starts {} cs, q.compressed ≤ totalBytes cs := by
  intro q mem
  obtain ⟨before, c, after, rfl, _, rfl⟩ := mem_starts mem
  simp only [totalBytes, List.flatMap_append, List.length_append]
  omega

theorem scanStep_ok {data : List UInt8} {done : List Chunk} {s : Scan} (good : Indexable data)
    (h : Scanned data done s) (begun : done ≠ [] → s.readHeader = true) :
    ∃ r, scanStep m s = .ok r ∧ ∀ s', r = .next s' → s'.readHeader = true := by
  have limit := maxSigned_eq
  have short := good.short
  have split : chunks data = done ++ chunks s.data := by
    rw [← chunks_append h.fit, h.input]
  have counted : s.uncompPos ≤ maxSigned := by
    have total := good.total
    rw [split, totalLen, List.map_append, List.sum_append] at total
    rw [h.uncompPos, totalLen]
    omega
  have tail : (chunks s.data).flatMap Chunk.bytes = s.data := by
    have whole := good.whole.trans h.input.symm
    rw [split, List.flatMap_append] at whole
    exact List.append_cancel_left whole
  cases next : Chunk.next s.data with
  | none =>
      rw [chunks_end next] at tail
      obtain ⟨self, out, put, _⟩ := scanned_put (m := m) short h tail.symm counted
      rw [scanStep, ← tail]
      refine ⟨.done out, ?_, fun s' same => by cases same⟩
      simp only [List.flatMap_nil]
      rw [put]
      rfl
  | some x =>
      obtain ⟨c, rest⟩ := x
      obtain ⟨bytes, fits⟩ := Chunk.next_some next
      rw [chunks_next next] at split
      have here : c ∈ chunks data := split ▸ List.mem_append_right _ List.mem_cons_self
      have placed : ¬(s.readHeader = false ∧ c.kind ≠ chunkTypeStreamIdentifier ∧
          c.kind ≠ chunkTypeEof) := by
        rintro ⟨unread, not_opens, not_ends⟩
        by_cases fresh : done = []
        · rcases good.first c (by rw [split, fresh]; rfl) with opens | ends
          · exact not_opens opens
          · exact not_ends ends
        · exact absurd (unread.symm.trans (begun fresh)) Bool.false_ne_true
      have inside : s.compPos + c.bytes.length + rest.length = data.length := by
        rw [h.compPos, totalBytes, ← h.input, bytes, List.length_append, List.length_append,
          Nat.add_assoc]
      have length := c.length_bytes
      have size := readChunkLen_chunkLength c.body.length
      rw [Nat.mod_eq_of_lt fits] at size
      have four : ((s.compPos : Int) + 4) = ((s.compPos + 4 : Nat) : Int) := by
        push_cast
        rfl
      have all : (((s.compPos + 4 : Nat) : Int) + c.body.length) =
          ((s.compPos + 4 + c.body.length : Nat) : Int) := by
        push_cast
        rfl
      have enough : ¬(c.body ++ rest).length < c.body.length := by
        rw [List.length_append]
        omega
      rw [scanStep, bytes]
      simp only [Chunk.bytes, chunkLength, List.cons_append, List.nil_append, size]
      rw [four, word_ok m (by omega), ok_bind, reject_ok _ placed, ok_bind, all, word_ok m (by omega),
        ok_bind, reject_ok _ enough, ok_bind, List.take_left, List.drop_left]
      obtain ⟨s', run, header⟩ : ∃ s', scanChunk m ⟨s.idx, s.compPos + 4 + c.body.length,
          s.uncompPos, true, rest⟩ s.compPos c.kind c.body = .ok s' ∧ s'.readHeader = true :=
        scanChunk_ok m (good.scannable c here) h.entered ⟨by omega, counted⟩
          fun q mem => h.compPos ▸ starts_below q mem
      rw [run]
      exact ⟨_, rfl, fun s'' same => by cases same; exact header⟩

/-- The stored index of a stream, with an entry at its first block. -/
def Lists (data out : List UInt8) : Prop :=
  ∃ idx self, appendTo m idx [] (some (totalLen (chunks data))) (some data.length) = .ok (self, out) ∧
    (∀ t start, load m (out ++ t) start = .ok t self) ∧
    self.totalUncompressed = some (totalLen (chunks data)) ∧
    self.offsets.Sublist (starts {} (chunks data)) ∧
    self.offsets.head? = (starts {} (chunks data)).head?

theorem scanned_lists {data : List UInt8} {done : List Chunk} {s : Scan} (good : Indexable data)
    (h : Scanned data done s) (none : s.data = []) :
    Exits (appendTo m s.idx [] (some s.uncompPos) (some s.compPos)) (fun r => Lists m data r.2)
      Refused := by
  obtain ⟨all, input⟩ := h.all none
  have size : s.compPos = data.length := by rw [h.compPos, totalBytes, input]
  have total : s.uncompPos = totalLen (chunks data) := by rw [h.uncompPos, all]
  obtain ⟨self, out, put, uncomp, _, kept, first, back⟩ :=
    scanned_put (m := m) good.short h none (total ▸ good.total)
  rw [put]
  rw [total, size] at put
  exact exits_ok ⟨s.idx, self, put, back, uncomp, kept, first⟩

theorem indexStream_ok {data : List UInt8} (good : Indexable data) :
    ∃ out, indexStream m data = .ok out ∧ Lists m data out := by
  have runs : Exits (indexStream m data) (Lists m data) (fun _ => False) := by
    refine exits_run (fun s => ∃ done, Scanned data done s ∧ (done ≠ [] → s.readHeader = true))
      (fun s => s.data.length) ?_ ⟨[], scanned_start data, fun none => absurd rfl none⟩
      (Nat.lt_succ_self _)
    rintro s ⟨done, h, begun⟩
    obtain ⟨r, run, header⟩ := scanStep_ok m good h begun
    have pass := (scanStep_exits good.short (fun _ _ => scanned_lists m good) ⟨done, h⟩).ok run
    rw [run]
    cases r with
    | next s' =>
        obtain ⟨⟨done', h'⟩, shorter⟩ := pass
        exact exits_ok ⟨⟨done', h', fun _ => header s' rfl⟩, shorter⟩
    | done out => exact exits_ok pass
  cases run : indexStream m data with
  | ok out => exact ⟨out, rfl, runs.ok run⟩
  | error e => exact (runs.error run).elim

/-- The index of a stream loads, with the totals of the stream and with entries that
    strictly increase, each where a block that is not empty starts. -/
theorem indexStream_loads {data out : List UInt8} (short : data.length < 2 ^ 60)
    (indexed : indexStream m data = .ok out) :
    (chunks data).flatMap Chunk.bytes = data ∧ (∀ c ∈ chunks data, c.Declares) ∧
      ∃ r, (∀ start, load m out start = .ok [] r) ∧
        r.totalCompressed = some data.length ∧
        r.totalUncompressed = some (totalLen (chunks data)) ∧
        (∀ q ∈ r.offsets, ∃ before c after, chunks data = before ++ c :: after ∧ c.IsData ∧
          0 < c.blockLen ∧ q.compressed = totalBytes before ∧
          q.uncompressed = totalLen before) ∧
        r.offsets.Pairwise fun a b =>
          a.compressed < b.compressed ∧ a.uncompressed < b.uncompressed := by
  obtain ⟨whole, declares, offsets, est, kept, loads⟩ := (indexStream_exits short).ok indexed
  have loads (start : Index) := List.append_nil out ▸ loads [] start
  refine ⟨whole, declares, _, loads, rfl, rfl, fun q hq => ?_, ?_⟩
  · obtain ⟨before, c, after, split, some, rfl⟩ := mem_starts (kept.mem hq)
    exact ⟨before, c, after, split, Chunk.isData_of_len some, some, Nat.zero_add _, Nat.zero_add _⟩
  · obtain ⟨_, _, storable⟩ := (load_exits m out {}).ok (loads {})
    exact (predictable_strict storable.predictable).and (ascends_strict storable.ascends)

/-- Two compressed blocks that declare 1 MiB each, and a stored one of a byte. -/
def threeBlocks : List UInt8 :=
  [0xff, 6, 0, 0, 0x4d, 0x69, 0x6e, 0x4c, 0x7a, 10] ++
    [2, 7, 0, 0, 9, 9, 9, 9, 0x80, 0x80, 0x40] ++ [2, 7, 0, 0, 9, 9, 9, 9, 0x80, 0x80, 0x40] ++
    [1, 5, 0, 0, 9, 9, 9, 9, 42] ++ [0x20, 1, 0, 0, 1]

/-- The chunk that stores their index. -/
def threeBlocksIndex : List UInt8 :=
  putChunk [0x82, 0x80, 0x80, 2, 92, 0x80, 0x80, 0x80, 1, 6, 0, 20, 0xe9, 0xff, 63, 0xf5, 0xff, 31]

theorem indexStream_loads_three : ∃ r,
    indexStream .panics threeBlocks = .ok threeBlocksIndex ∧
      load .panics threeBlocksIndex {} = .ok [] r ∧
      r.totalCompressed = some 46 ∧ r.totalUncompressed = some ((2 <<< 20) + 1) ∧
      r.offsets = [⟨10, 0⟩, ⟨21, 1 <<< 20⟩, ⟨32, 2 <<< 20⟩] ∧
      (∀ q ∈ r.offsets, ∃ before c after, chunks threeBlocks = before ++ c :: after ∧ c.IsData ∧
        0 < c.blockLen ∧ q.compressed = totalBytes before ∧ q.uncompressed = totalLen before) := by
  have indexed : indexStream .panics threeBlocks = .ok threeBlocksIndex := by rfl
  obtain ⟨_, _, r, loads, comp, uncomp, entries, _⟩ :=
    indexStream_loads .panics (by decide) indexed
  have known : load .panics threeBlocksIndex {} = .ok [] ⟨some ((2 <<< 20) + 1), some 46,
      [⟨10, 0⟩, ⟨21, 1 <<< 20⟩, ⟨32, 2 <<< 20⟩], 1 <<< 20⟩ := by rfl
  cases (loads {}).symm.trans known
  exact ⟨_, indexed, known, comp, rfl, rfl, entries⟩

end Index

end MinLz
