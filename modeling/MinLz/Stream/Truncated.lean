import MinLz.Stream.Produced
import MinLz.Stream.Skip

/-! # A stream that has been cut

Once a reader has seen the identifier of a stream, it has to see its end too. In a
stream that is cut before that, its source runs out inside a chunk or while the end is
still to come, and either is an error.
-/

namespace MinLz.Stream

open Machine (Overflow)
open Effects Loop

/-- Where the first chunk that ends a stream ends. -/
def eofEnd : List Chunk → Nat
  | [] => 0
  | c :: cs => c.bytes.length + if c.kind = chunkTypeEof then 0 else eofEnd cs

/-- A part that ends before the end of the stream has no chunk that says so. -/
theorem cut_goes_on {part stream : List UInt8} (cut : part <+: stream)
    (short : part.length < eofEnd (chunks stream)) : ∀ c ∈ chunks part, c.kind ≠ chunkTypeEof := by
  obtain ⟨tail, rfl⟩ := cut
  induction part using chunks.induct with
  | case1 part none =>
      rw [chunks_end none]
      exact fun c hc => absurd hc List.not_mem_nil
  | case2 part c rest some ih =>
      obtain ⟨rfl, fits⟩ := Chunk.next_some some
      rw [List.append_assoc, chunks_bytes fits, eofEnd] at short
      rw [chunks_bytes fits]
      rw [List.length_append] at short
      split at short
      · omega
      · next goes_on =>
          intro d hd
          rcases List.mem_cons.mp hd with rfl | hd
          · exact goes_on
          · exact ih (by omega) d hd

theorem prefix_before {α : Type} {l a t : List α} {e : α} (h : l <+: a ++ e :: t) (not_in : e ∉ l) :
    l <+: a := by
  have long : a ++ [e] <+: a ++ e :: t := ⟨t, by rw [List.append_assoc, List.singleton_append]⟩
  rcases List.prefix_or_prefix_of_prefix h long with within | past
  · rcases List.prefix_concat_iff.mp within with rfl | within
    · exact absurd (List.mem_append_right a List.mem_cons_self) not_in
    · exact within
  · exact absurd (past.subset (List.mem_append_right a List.mem_cons_self)) not_in

/-- The chunks of a part that ends before the end of the stream. -/
theorem IsStream.cut {blockSize : Nat} {payload stream part : List UInt8}
    (h : IsStream blockSize payload stream) (cut : part <+: stream)
    (short : part.length < eofEnd (chunks stream)) :
    (∀ c ∈ chunks part, c.kind ≠ chunkTypeEof) ∧
      ∃ cs, chunks part <+: identifier blockSize :: cs ∧ Carry cs payload := by
  have goes_on := cut_goes_on cut short
  refine ⟨goes_on, ?_⟩
  obtain ⟨cs, tail, rfl, carry⟩ := h
  have fit : ∀ c ∈ identifier blockSize :: cs, c.Fits := by
    intro c hc
    rcases List.mem_cons.mp hc with rfl | hc
    · exact identifier_fits blockSize
    · exact carry.fit c hc
  have inside := chunks_prefix cut
  rw [chunks_append fit, chunks_bytes (eofOf_fits _)] at inside
  exact ⟨cs, prefix_before inside fun h => goes_on _ h rfl, carry⟩

theorem IsStream.content_cut {blockSize : Nat} {payload stream part : List UInt8}
    (h : IsStream blockSize payload stream) (cut : part <+: stream)
    (short : part.length < eofEnd (chunks stream)) (ignoreCrc : Bool) :
    content ignoreCrc part <+: payload.map some := by
  obtain ⟨_, cs, ⟨more, split⟩, carry⟩ := h.cut cut short
  have bare : (identifier blockSize).content ignoreCrc = [] :=
    Chunk.content_other ignoreCrc (by rw [identifier, Chunk.IsData]; simp only; decide)
  have whole : (identifier blockSize :: cs).flatMap (Chunk.content ignoreCrc) = payload.map some := by
    rw [List.flatMap_cons, bare, carry.content, List.nil_append]
  rw [← whole, ← split, List.flatMap_append]
  exact List.prefix_append _ _

variable {σ : Type} (m : Overflow) (mem : Nat → UInt8)

/-- The reader is in a stream, or before its identifier, and the end is not to come. -/
structure Pending (s : Reader σ) : Prop where
  goes_on : ∀ c ∈ chunks s.r, c.kind ≠ chunkTypeEof
  inside : s.expectEof = true ∨
    s.r ≠ [] ∧ ∀ c rest, Chunk.next s.r = some (c, rest) → c.kind = chunkTypeStreamIdentifier

theorem identifier_refused {ignoreCrc : Bool} {c : Chunk} (kind : c.kind = chunkTypeStreamIdentifier) :
    c.accepted ignoreCrc = none := by
  have none : c.block = none := by
    rw [Chunk.block]
    split
    · rfl
    · simp only [kind]
      rfl
  rw [Chunk.accepted, none]
  rfl

theorem Pending.takes {s : Reader σ} (h : Pending s) :
    Runs (nextChunk (handleCompressedChunk mem) handleUncompressedChunk ()) s
      (fun got s' => got = some () ∧ Pending s' ∧ s'.r.length < s.r.length) fun _ _ => True := by
  have turn := turn_nextChunk (dispatch_read_ends mem) (readChunk_exits mem) s
  cases run : nextChunk (handleCompressedChunk mem) handleUncompressedChunk () s with
  | error e s' => exact runs_error run trivial
  | ok got s' =>
      rw [run] at turn
      refine runs_ok run ?_
      cases turn with
      | ends empty between =>
          rcases h.inside with expects | ⟨some, _⟩
          · rw [expects] at between
            cases between
          · exact absurd empty some
      | took head accepts =>
          obtain ⟨c, rest, next, rfl, cases⟩ := readChunk_cases mem head accepts
          have goes_on := h.goes_on
          have length := Chunk.length_next next
          rw [chunks_next next] at goes_on
          refine ⟨rfl, ?_⟩
          rcases cases with ⟨out, accepted, _, rfl⟩ | ⟨_, passes⟩
          · refine ⟨⟨fun d hd => goes_on d (List.mem_cons_of_mem c hd), .inl ?_⟩, by
              simp only [Reader.loaded]
              omega⟩
            rcases h.inside with expects | ⟨_, first⟩
            · exact expects
            · rw [identifier_refused (first c rest next)] at accepted
              cases accepted
          · refine ⟨⟨fun d hd => goes_on d (List.mem_cons_of_mem c (passes.r ▸ hd)), .inl ?_⟩, by
              rw [passes.r]
              omega⟩
            rw [passes.expectEof (goes_on c List.mem_cons_self)]
            rcases h.inside with expects | ⟨_, first⟩
            · exact Bool.or_eq_true_iff.mpr (.inr expects)
            · rw [first c rest next]
              rfl

theorem Pending.fill {s : Reader σ} (h : Pending s) :
    Runs (fillDecoded mem) s (fun more s' => more = true ∧ Pending s') fun _ _ => True := by
  refine (runs_get s).bind ?_
  rintro _ _ ⟨rfl, rfl⟩
  refine runs_runM (fun _ s => Pending s) (fun _ s => s.r.length) ?_ h (Nat.lt_succ_self _)
  rintro _ s h
  refine (runs_get s).bind ?_
  rintro _ _ ⟨rfl, rfl⟩
  split
  · exact runs_pure ⟨rfl, h⟩
  · refine (h.takes mem).bind ?_
    rintro _ s' ⟨rfl, taken⟩
    exact runs_pure taken

/-- A read that succeeds delivers something. -/
theorem Pending.read {s : Reader σ} {ahead : List (Option UInt8)} (h : Pending s)
    (live : Live s ahead) {len : Nat} (room : 0 < len) :
    Runs (read m mem len) s (fun bytes s' => bytes ≠ [] ∧ Pending s') Fails := by
  refine checkErr_live live ?_
  rw [if_neg (by omega)]
  refine Runs.bind (((live.fill mem).and (h.fill mem)).mono (fun _ _ h => h) fun _ _ h => h.1) ?_
  rintro _ s' ⟨⟨live, unread⟩, rfl, pending⟩
  rw [if_pos rfl] at unread
  refine Runs.step rfl (Runs.step (lift_ok (available_ok m live.pos live.small)) (Runs.step rfl ?_))
  refine runs_pure ⟨List.length_pos_iff.mp ?_, pending.goes_on, pending.inside⟩
  rw [List.length_take, List.length_drop]
  omega

theorem pending_build {b : ReaderBuilder σ} {part : List UInt8} {world : σ} {s : Reader σ}
    (built : b.build part world = .ok s) (some : part ≠ [])
    (goes_on : ∀ c ∈ chunks part, c.kind ≠ chunkTypeEof) {blockSize : Nat} {cs : List Chunk}
    (first : chunks part <+: identifier blockSize :: cs) : Pending s := by
  rw [ReaderBuilder.build] at built
  split at built
  · cases built
  · cases built
    refine ⟨goes_on, .inr ⟨some, fun c rest next => ?_⟩⟩
    rw [show (withBuilder b part world).r = part from rfl] at next
    rw [chunks_next next] at first
    rw [(List.cons_prefix_cons.mp first).1]
    rfl

theorem prefix_of_map_some {α : Type} {l l' : List α} (h : l.map some <+: l'.map some) :
    ∃ t, l' = l ++ t := by
  obtain ⟨t, split⟩ := h
  obtain ⟨front, back, rfl, same, _⟩ := List.map_eq_append_iff.mp split.symm
  rw [List.map_injective_iff.mpr (Option.some_injective α) same]
  exact ⟨back, rfl⟩

/-- Reads with room for a byte deliver the payload in order until one of them fails. -/
theorem Pending.outcomes {s : Reader σ} {ahead : List (Option UInt8)} (h : Pending s)
    (live : Live s ahead) {payload : List UInt8} (inside : ahead <+: payload.map some)
    (lens : List Nat) (room : ∀ len ∈ lens, 0 < len) (enough : payload.length < lens.length) :
    ∃ (blocks : List (List UInt8)) (e : IoError) (later : List (Except (Stop IoError) (List UInt8))),
      outcomes m mem lens s = blocks.map .ok ++ .error (.error e) :: later ∧
        [] ∉ blocks ∧ blocks.flatten <+: payload := by
  induction lens generalizing s ahead payload with
  | nil => exact absurd enough (Nat.not_lt_zero _)
  | cons len lens ih =>
      have delivers := live.read m mem len
      have goes_on := h.read m mem live (room len List.mem_cons_self)
      rw [Stream.outcomes]
      cases run : Stream.read m mem len s with
      | error e s' =>
          obtain ⟨⟨r, rfl⟩, _⟩ := delivers.error run
          exact ⟨[], r, _, rfl, List.not_mem_nil, List.nil_prefix⟩
      | ok bytes s' =>
          obtain ⟨taken, live'⟩ := delivers.ok run
          obtain ⟨more, pending⟩ := goes_on.ok run
          obtain ⟨rest, rfl⟩ := prefix_of_map_some (taken.trans inside)
          have shorter := List.length_pos_iff.mpr more
          rw [List.length_append, List.length_cons] at enough
          have left : ahead.drop bytes.length <+: rest.map some := by
            have dropped := inside.drop bytes.length
            rwa [List.map_append, List.drop_left' (List.length_map some)] at dropped
          obtain ⟨blocks, e, later, run, nonempty, flat⟩ := ih pending live' left
            (fun len hlen => room len (List.mem_cons_of_mem _ hlen)) (by omega)
          refine ⟨bytes :: blocks, e, later, ?_, ?_, ?_⟩
          · simp only [run, List.map_cons, List.cons_append]
          · exact List.not_mem_cons_of_ne_of_not_mem (Ne.symm more) nonempty
          · rw [List.flatten_cons]
            exact (List.prefix_append_right_inj bytes).mpr flat

/-- However a stream of a writer is cut before its end, a reader of what is left delivers
    a prefix of the payload and then fails. -/
theorem cut_fails {m : Overflow} {b : WriterBuilder} (codec : KeptDecodes b.level)
    {payload stream part : List UInt8} (produced : Produced m b payload stream)
    (cut : part <+: stream) (some : part ≠ []) (short : part.length < eofEnd (chunks stream))
    (m' : Overflow) (mem : Nat → UInt8) {rb : ReaderBuilder σ} {world : σ} {s : Reader σ}
    (built : rb.build part world = .ok s) (lens : List Nat) (room : ∀ len ∈ lens, 0 < len)
    (enough : payload.length < lens.length) :
    ∃ (blocks : List (List UInt8)) (e : IoError) (later : List (Except (Stop IoError) (List UInt8))),
      outcomes m' mem lens s = blocks.map .ok ++ .error (.error e) :: later ∧
        [] ∉ blocks ∧ blocks.flatten <+: payload := by
  have stream := produced.isStream codec
  obtain ⟨goes_on, cs, first, _⟩ := stream.cut cut short
  have pending := pending_build built some goes_on first
  exact pending.outcomes m' mem (live_build built) (stream.content_cut cut short _) lens room enough

/-- The options of a writer of small blocks that keeps no index. -/
def unindexed : WriterBuilder := { blockSize := minBlockSize, generateIndex := false }

theorem produced_twoBytes :
    Produced .panics unindexed [42, 43] (twoBytes ++ [chunkTypeEof, 1, 0, 0, 2]) := by
  have built : unindexed.build ([] : List UInt8) = .ok (newWriter [] unindexed) := rfl
  have wrote : (WriterCall.write [42, 43]).run .panics Sink.vec (newWriter [] unindexed) =
      .ok () { newWriter [] unindexed with ibuf := [42, 43] } := rfl
  have closed : (finish .panics Sink.vec).run' { newWriter [] unindexed with ibuf := [42, 43] } =
      some (twoBytes ++ [chunkTypeEof, 1, 0, 0, 2]) := by decide +kernel
  obtain ⟨s2, run⟩ := ok_of_run' closed
  exact .finished built (.step wrote (.refl _)) run

/-- The stream of two bytes without its last byte. -/
theorem cut_fails_twoBytes :
    ∃ (blocks : List (List UInt8)) (e : IoError) (later : List (Except (Stop IoError) (List UInt8))),
      outcomes .panics (fun _ => 0) [1, 1, 1]
          (withBuilder {} (twoBytes ++ [chunkTypeEof, 1, 0, 0]) ()) =
        blocks.map .ok ++ .error (.error e) :: later ∧
        [] ∉ blocks ∧ blocks.flatten <+: [42, 43] := by
  have built : ({} : ReaderBuilder Unit).build (twoBytes ++ [chunkTypeEof, 1, 0, 0]) () =
      .ok (withBuilder {} (twoBytes ++ [chunkTypeEof, 1, 0, 0]) ()) := rfl
  have short : (twoBytes ++ [chunkTypeEof, 1, 0, 0]).length <
      eofEnd (chunks (twoBytes ++ [chunkTypeEof, 1, 0, 0, 2])) := by decide +kernel
  exact cut_fails keptDecodes_balanced produced_twoBytes ⟨[2], by decide⟩ (by decide) short .panics
    (fun _ => 0) built [1, 1, 1] (by decide) (by decide)

end MinLz.Stream
