import MinLz.Stream.SeekWritten
import MinLz.Stream.ToEnd

/-! # Seeking with the index of a finished stream

`index_stream` takes each stream that a reader reads to its end, if it starts with a stream
identifier or an end, and counts what the reader delivers. Where the identifier is the only
one, a seeker with that index is a cursor over it. A seeker is not over streams one after
the other: it has the offsets of all, and the reader those in its stream.
-/

namespace MinLz.Stream

open Block (maxBlockSize)
open Machine (Overflow maxSigned)
open Effects
open Index (Scannable Indexable indexStream)

section Taking

variable {mem : Nat → UInt8} {s s' : Reader Unit} {left rest : List UInt8} {c : Chunk}

theorem hasBlock_of_block {out : List UInt8} (h : c.block = some out) : HasBlock c.kind := by
  rw [Chunk.block] at h
  split at h
  · cases h
  · simp only at h
    split at h
    · next stored => exact .inr stored
    · split at h
      · next coded => exact .inl coded
      · cases h

theorem Took.scannable (took : Took s c rest s') (limit : s.maxBlock ≤ maxBlockSize) :
    Scannable c := by
  cases took with
  | block _ accepted fits =>
      have holds := (accepted_block accepted).1
      exact .block (hasBlock_of_block holds) holds (fits.trans limit)
  | ended kind => exact .ends kind
  | opened kind run =>
      obtain ⟨length, magic, _⟩ := identifierChunk_opens (rfl : _ = c.body ++ rest) run
      exact .opens kind length magic
  | passed _ other high => exact .skipped high other

theorem Took.plain (took : Took s c rest s') (plain : Plain s) (live : ∃ ahead, Live s' ahead) :
    Plain s' ∧ s'.r = rest := by
  cases took with
  | block => exact ⟨⟨live, plain.user, plain.strict, plain.checks, plain.silent⟩, rfl⟩
  | ended => exact ⟨⟨live, plain.user, plain.strict, plain.checks, plain.silent⟩, rfl⟩
  | opened _ run =>
      obtain ⟨_, _, n, rfl⟩ := identifierChunk_opens (rfl : _ = c.body ++ rest) run
      exact ⟨⟨live, plain.user, plain.strict, plain.checks, plain.silent⟩, rfl⟩
  | passed => exact ⟨⟨live, plain.user, plain.strict, plain.checks, plain.silent⟩, rfl⟩

/-- What a reader reads to the end falls into chunks that a scan takes. -/
theorem Rest.scannable (h : Rest mem s left) (plain : Plain s) :
    (chunks s.r).flatMap Chunk.bytes = s.r ∧ ∀ c ∈ chunks s.r, Scannable c := by
  induction h with
  | ended _ run =>
      rw [(nextRead_none mem run).1, chunks_end rfl]
      exact ⟨rfl, fun _ none => absurd none List.not_mem_nil⟩
  | @chunk s s' _ drained run _ ih =>
      obtain ⟨c, rest, next, took⟩ := took_cases mem plain.silent run
      obtain ⟨plain', behind⟩ := took.plain plain (plain.takes drained run).1
      obtain ⟨whole, all⟩ := ih plain'
      obtain ⟨_, live⟩ := plain.live
      rw [behind] at whole all
      rw [chunks_next next]
      refine ⟨?_, List.forall_mem_cons.mpr ⟨took.scannable live.limit, all⟩⟩
      rw [List.flatMap_cons, whole]
      exact (Chunk.next_some next).1.symm
  | block _ _ ih => exact ih (plain.at le_rfl)

theorem length_contents (ignoreCrc : Bool) (cs : List Chunk) :
    (cs.flatMap (Chunk.content ignoreCrc)).length = totalLen cs := by
  rw [List.length_flatMap, totalLen]
  simp only [Chunk.length_content]

/-- The chunks count as many bytes as the reader delivers. -/
theorem Rest.totalLen_eq (h : Rest mem s left) (plain : Plain s) (drained : Drained s) :
    totalLen (chunks s.r) = left.length := by
  obtain ⟨ahead, live⟩ := plain.live
  have front : content s.ignoreCrc s.r = left.map some :=
    (live.drained drained.not_unread).trans (h.ahead_eq live)
  have same := congrArg List.length front
  rwa [content, length_contents, List.length_map] at same

theorem Rest.indexable {source payload : List UInt8} (h : Rest mem s payload)
    (before : Before source s) (first : ∀ c ∈ (chunks source).head?,
      c.kind = chunkTypeStreamIdentifier ∨ c.kind = chunkTypeEof)
    (short : source.length < 2 ^ 60) (small : payload.length ≤ maxSigned) : Indexable source := by
  obtain ⟨whole, all⟩ := h.scannable before.plain
  have total := h.totalLen_eq before.plain before.drained
  rw [before.r] at whole all total
  exact ⟨whole, first, all, short, total ▸ small⟩

end Taking

section Indexing

variable {m : Overflow} {source payload out : List UInt8}

theorem starts_first {cs : List Chunk} (some : totalLen cs ≠ 0) (pos : OffsetPair) :
    ∃ c rest, starts pos cs = ⟨c, pos.uncompressed⟩ :: rest := by
  induction cs generalizing pos with
  | nil => exact absurd rfl some
  | cons c cs ih =>
      rw [starts]
      by_cases none : c.blockLen = 0
      · rw [if_pos none, none]
        refine ih ?_ _
        rwa [totalLen, List.map_cons, List.sum_cons, none, Nat.zero_add] at some
      · rw [if_neg none]
        exact ⟨_, _, rfl⟩

/-- The index that `index_stream` stores is one of the stream. -/
theorem indexed_of_lists (lists : Index.Lists m source out)
    (total : totalLen (chunks source) = payload.length) :
    ∃ index, (∀ start, Index.load m out start = .ok [] index) ∧
      Index.seekerIndex m source out = .ok index ∧ Indexed source payload index := by
  obtain ⟨idx, self, put, loads, counted, kept, first⟩ := lists
  have loads (start : Index) : Index.load m out start = .ok [] self := by
    have whole := loads [] start
    rwa [List.append_nil] at whole
  have sorted := ((Index.load_sound m out {}).2 _ _ (loads {})).2.2.1
  refine ⟨self, loads, Index.seekerIndex_stored put (loads {}) source, counted.trans (by rw [total]),
    fun q mark => kept.mem mark, sorted.imp Nat.le_of_lt, fun some => ?_⟩
  have length : totalLen (chunks source) ≠ 0 := by
    rw [total]
    exact fun none => some (List.eq_nil_of_length_eq_zero none)
  obtain ⟨c, rest, head⟩ := starts_first length {}
  rw [head, List.head?_cons] at first
  obtain ⟨others, shape⟩ := List.head?_eq_some_iff.mp first
  exact ⟨c, others, shape⟩

end Indexing

section Decoded

variable (m : Overflow) (mem : Nat → UInt8) {source payload : List UInt8}

/-- A stream that a reader decodes is indexed when it starts with an identifier or an end,
    with the length of its payload as the total; a seeker with that index is a cursor over
    the payload when the identifier at the start is the only one. -/
theorem decoded_seekable {reader : Reader Unit}
    (built : ({} : ReaderBuilder Unit).build source () = .ok reader)
    (decodes : DecodesTo m mem reader payload) (short : source.length < 2 ^ 60)
    (small : payload.length ≤ maxSigned)
    (first : ∀ c ∈ (chunks source).head?,
      c.kind = chunkTypeStreamIdentifier ∨ c.kind = chunkTypeEof) :
    ∃ out index, indexStream m source = .ok out ∧ (∀ start, Index.load m out start = .ok [] index) ∧
      index.totalUncompressed = some payload.length ∧
      ((∃ c cs, chunks source = c :: cs ∧ c.kind = chunkTypeStreamIdentifier ∧
          ∀ d ∈ cs, d.kind ≠ chunkTypeStreamIdentifier) →
        ∃ seeker, ReadSeeker.new m reader source out = .ok seeker ∧
          ∀ ops, Follows payload 0 ops (replies m mem ops seeker)) := by
  cases built
  have before := before_new source
  obtain ⟨_, live⟩ := before.plain.live
  have rest := (decodesTo_iff live).mp decodes
  have total := rest.totalLen_eq before.plain before.drained
  rw [before.r] at total
  obtain ⟨out, stored, lists⟩ := Index.indexStream_ok m (rest.indexable before first short small)
  obtain ⟨index, loads, found, indexed⟩ := indexed_of_lists lists total
  refine ⟨out, index, stored, loads, indexed.total, ?_⟩
  rintro ⟨c, cs, split, kind, only⟩
  obtain ⟨e, one⟩ := oneStream_of before rest split kind only small
  refine ⟨⟨withBuilder {} source (), index, source⟩, ?_, fun ops => ?_⟩
  · rw [ReadSeeker.new, found]
    rfl
  · exact At.follows m one indexed ⟨rfl, rfl, .before before rfl, rfl,
      fun begun => absurd begun Bool.false_ne_true⟩ ops

/-- The calls on a seeker over two streams, with the index of both. -/
def betweenStreams : Except (Stop IoError) (List (Except (Stop IoError) Reply)) := do
  let out ← ofIndex (indexStream .panics twoStreams)
  let seeker ← ReadSeeker.new .panics (withBuilder {} twoStreams ()) twoStreams out
  return replies .panics (fun _ => 0) [.seek (.start 2), .read 4, .read 4] seeker

/-- Padding alone is read to its end and not indexed; over two streams a seeker that is at
    the second finds its end wrong. -/
theorem not_seekable :
    (∃ reader, ({} : ReaderBuilder Unit).build [chunkTypePadding, 0, 0, 0] () = .ok reader ∧
      DecodesTo .panics (fun _ => 0) reader [] ∧
      ∀ out, indexStream .panics [chunkTypePadding, 0, 0, 0] ≠ .ok out) ∧
    ∃ reader out seeker, ({} : ReaderBuilder Unit).build twoStreams () = .ok reader ∧
      DecodesTo .panics (fun _ => 0) reader [42, 43, 42, 43] ∧
      indexStream .panics twoStreams = .ok out ∧
      ReadSeeker.new .panics reader twoStreams out = .ok seeker ∧
      ¬Follows [42, 43, 42, 43] 0 [.seek (.start 2), .read 4, .read 4]
        (replies .panics (fun _ => 0) [.seek (.start 2), .read 4, .read 4] seeker) := by
  constructor
  · have padding : outcomes .panics (fun _ => 0) [1] (withBuilder {} [chunkTypePadding, 0, 0, 0] ()) =
        [.ok []] := by decide +kernel
    refine ⟨_, rfl, ?_, fun out stored => ?_⟩
    · exact decodesTo_of_outcomes [] [] padding rfl List.not_mem_nil Nat.one_ne_zero
    · cases stored
  · have blocks : outcomes .panics (fun _ => 0) [4, 4, 4] (withBuilder {} twoStreams ()) =
        [.ok [42, 43], .ok [42, 43], .ok []] := by decide +kernel
    have replied : betweenStreams = .ok [.ok (.offset 2), .ok (.bytes [42, 43]),
        .error (.error Error.corrupt.toIo)] := by decide +kernel
    obtain ⟨out, stored, replied⟩ := bind_eq_ok replied
    obtain ⟨seeker, opened, replied⟩ := bind_eq_ok replied
    have same := Except.ok.inj replied
    have stored : indexStream .panics twoStreams = .ok out := by
      cases run : indexStream .panics twoStreams with
      | ok out' =>
          rw [run] at stored
          cases stored
          rfl
      | error e =>
          rw [run] at stored
          cases e <;> cases stored
    refine ⟨_, out, seeker, rfl, ?_, stored, opened, fun follows => ?_⟩
    · exact decodesTo_of_outcomes [4, 4] [[42, 43], [42, 43]] blocks rfl
        (by decide) (by decide)
    · rw [same] at follows
      cases follows with
      | cons _ rest =>
          cases rest with
          | cons _ rest =>
              cases rest with
              | cons last _ => cases last

/-- The stream of two bytes, to its end. -/
theorem decoded_seekable_two : ∃ out index seeker,
    indexStream .panics (twoBytes ++ [chunkTypeEof, 1, 0, 0, 2]) = .ok out ∧
    (∀ start, Index.load .panics out start = .ok [] index) ∧ index.totalUncompressed = some 2 ∧
    ReadSeeker.new .panics (withBuilder {} (twoBytes ++ [chunkTypeEof, 1, 0, 0, 2]) ())
      (twoBytes ++ [chunkTypeEof, 1, 0, 0, 2]) out = .ok seeker ∧
    ∀ ops, Follows [42, 43] 0 ops (replies .panics (fun _ => 0) ops seeker) := by
  have blocks : outcomes .panics (fun _ => 0) [2, 2]
      (withBuilder {} (twoBytes ++ [chunkTypeEof, 1, 0, 0, 2]) ()) = [.ok [42, 43], .ok []] := by
    decide +kernel
  have split : chunks (twoBytes ++ [chunkTypeEof, 1, 0, 0, 2]) =
      [⟨chunkTypeStreamIdentifier, (twoBytes.drop 4).take 6⟩,
        ⟨chunkTypeUncompressedData, twoBytes.drop 14⟩, ⟨chunkTypeEof, [2]⟩] := by
    rw [chunks_next (rfl : Chunk.next _ = some (_, _)), chunks_next (rfl : Chunk.next _ = some (_, _)),
      chunks_next (rfl : Chunk.next _ = some (_, _)), chunks_end rfl]
    rfl
  obtain ⟨out, index, stored, loads, total, seeks⟩ := decoded_seekable .panics (fun _ => 0) rfl
    (decodesTo_of_outcomes [2] [[42, 43]] blocks rfl (by decide) (by decide)) (by decide) (by decide)
    (by rw [split]; decide)
  obtain ⟨seeker, opened, follows⟩ := seeks ⟨_, _, split, rfl, by decide⟩
  exact ⟨out, index, seeker, stored, loads, total, opened, follows⟩

end Decoded

end MinLz.Stream
