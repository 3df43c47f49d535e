import MinLz.Stream.Seeking

/-! # A seeker is a cursor

Over one stream with an index of its blocks, each call of a seeker returns what a cursor
over the payload may return and leaves the seeker where the cursor is.
-/

namespace MinLz.Stream

open Block (maxBlockSize)
open Machine (Overflow maxSigned checkedAdd Fits)
open Effects Loop

/-- The index has entries for blocks of the source, the first one of them included. -/
structure Indexed (source payload : List UInt8) (index : Index) : Prop where
  total : index.totalUncompressed = some payload.length
  marks : ∀ q ∈ index.offsets, q ∈ starts {} (chunks source)
  sorted : Index.Sorted index.offsets
  first : payload ≠ [] → ∃ c rest, index.offsets = ⟨c, 0⟩ :: rest

/-- The reader is at `pos` in the payload and says so. -/
structure Stands (mem : Nat → UInt8) (source payload : List UInt8) (e : Reader Unit) (pos : Nat)
    (s : Reader Unit) : Prop where
  walk : Walk mem source payload e pos s
  offset : s.currentOffset = pos.toUInt64
  /-- it stops inside the stream at bytes or behind them -/
  some : s.headerRead = true → payload ≠ []

/-- The seeker is at `pos` in the payload of its source. -/
structure At (mem : Nat → UInt8) (source payload : List UInt8) (e : Reader Unit) (index : Index)
    (pos : Nat) (seeker : ReadSeeker Unit) : Prop where
  source_eq : seeker.source = source
  index_eq : seeker.index = index
  stands : Stands mem source payload e pos seeker.reader

section Reading

variable {mem : Nat → UInt8} {source payload : List UInt8} {e s : Reader Unit} {pos : Nat}

theorem Inside.stands (h : Inside mem payload e pos s) (some : payload ≠ []) :
    Stands mem source payload e pos s :=
  ⟨.inside h, h.offset, fun _ => some⟩

theorem Past.stands (h : Past mem payload s) : Stands mem source payload e payload.length s :=
  ⟨.past h rfl, h.offset, fun begun => absurd (h.flags.1.symm.trans begun) Bool.false_ne_true⟩

/-- A block at hand is part of the payload. -/
theorem Inside.some (h : Inside mem payload e pos s) (filled : 0 < s.decoded.length) :
    payload ≠ [] := by
  obtain ⟨u, _, _, _, fits, _⟩ := h.block
  exact List.length_pos_iff.mp (by omega)

theorem Stands.read (m : Overflow) (one : OneStream mem source payload e)
    (h : Stands mem source payload e pos s) (len : Nat) :
    Runs (read m mem len) s
      (fun bytes s' => ∃ n ≤ len, bytes = (payload.drop pos).take n ∧ pos + n ≤ payload.length ∧
        (len ≠ 0 → n = 0 → pos = payload.length) ∧ Stands mem source payload e (pos + n) s')
      fun _ _ => False := by
  refine Runs.step (checkErr_clear h.walk.plain.err) ?_
  split
  · next none => exact runs_pure ⟨0, Nat.zero_le _, rfl, h.walk.le, fun some => absurd none some, h⟩
  · refine (h.walk.fill one).bind fun more s1 filled => ?_
    cases more with
    | false =>
        rw [if_neg Bool.false_ne_true] at filled
        obtain ⟨past, rfl⟩ := filled
        exact runs_pure ⟨0, Nat.zero_le _, rfl, le_rfl, fun _ _ => rfl, past.stands⟩
    | true =>
        rw [if_pos rfl] at filled
        obtain ⟨inside, unread⟩ := filled
        obtain ⟨u, _, at_pos, _, fits, _⟩ := inside.block
        refine Runs.step rfl (Runs.step
          (lift_ok (available_ok m inside.plain.within inside.plain.small)) (Runs.step rfl ?_))
        set n := min (s1.decoded.length - s1.decodedPos) len with taken
        have moved := inside.at at_pos (by omega : s1.decodedPos + n ≤ s1.decoded.length)
        rw [← Nat.add_assoc, ← at_pos] at moved
        refine runs_pure ⟨n, Nat.min_le_right _ _, ?_, by omega, by omega,
          moved.stands (inside.some (by omega))⟩
        rw [inside.rest.at_hand.1, List.take_append_of_le_length
          (by rw [List.length_drop]; exact Nat.min_le_left _ _)]

end Reading

section Seeker

variable {mem : Nat → UInt8} {source payload : List UInt8} {e : Reader Unit} {index : Index}
  {pos : Nat} {self : ReadSeeker Unit}

theorem onReader_runs (self : ReadSeeker Unit) {α : Type} {x : Action Unit α}
    {Q : α → Reader Unit → Prop}
    {E : Stop IoError → Reader Unit → Prop} (h : Runs x self.reader Q E) :
    Runs (onReader x) self
      (fun a self' => self' = { self with reader := self'.reader } ∧ Q a self'.reader)
      (fun e self' => self' = { self with reader := self'.reader } ∧ E e self'.reader) := by
  cases run : x self.reader with
  | ok a reader =>
      refine runs_ok (?_ : onReader x self = .ok a { self with reader }) ⟨rfl, h.ok run⟩
      rw [onReader, run]
  | error e reader =>
      refine runs_error (?_ : onReader x self = .error e { self with reader }) ⟨rfl, h.error run⟩
      rw [onReader, run]

theorem At.offset (one : OneStream mem source payload e) (h : At mem source payload e index pos self) :
    self.reader.currentOffset.toNat = pos := by
  have limit : maxSigned < 2 ^ 64 := by decide
  have le := h.stands.walk.le
  have small := one.small
  rw [h.stands.offset]
  exact Nat.mod_eq_of_lt (by omega)

theorem addOffset_exits {offset : Nat} (small : offset ≤ maxSigned) (delta : Int) {n : Nat}
    (le : n ≤ maxSigned) :
    Exits (addOffset offset delta) (fun t => t = offset + delta)
      (fun e => (∃ err, e = .error err) ∧
        ((offset : Int) + delta < 0 ∨ (n : Int) < offset + delta)) := by
  have limit := Index.maxSigned_eq
  have signed : Exits (toI64 offset) (· = offset) (fun _ => False) := by
    rw [toI64, if_pos small]
    exact exits_ok rfl
  refine (signed.mono (fun _ same => same) fun _ none => none.elim).bind ?_
  rintro _ rfl
  rw [checkedAdd]
  split_ifs with fits
  · exact exits_ok rfl
  · refine exits_error ⟨⟨_, rfl⟩, ?_⟩
    rw [Fits] at fits
    omega

theorem absoluteOffset_exits (one : OneStream mem source payload e)
    (indexed : Indexed source payload index)
    (h : At mem source payload e index pos self) (move : SeekFrom) :
    Exits (absoluteOffset self move) (fun t => t = move.target payload pos)
      (fun e => (∃ err, e = .error err) ∧
        (move.target payload pos < 0 ∨ (payload.length : Int) < move.target payload pos)) := by
  have small := one.small
  have le := h.stands.walk.le
  cases move with
  | start offset =>
      rw [absoluteOffset, toI64]
      split_ifs with fits
      · exact exits_ok rfl
      · refine exits_error ⟨⟨_, rfl⟩, .inr ?_⟩
        simp only [SeekFrom.target]
        omega
  | current delta =>
      rw [absoluteOffset, h.offset one]
      exact addOffset_exits (by omega) delta small
  | fromEnd delta =>
      rw [absoluteOffset, h.index_eq, indexed.total]
      exact addOffset_exits small delta small

/-- The target of a seek is where the cursor goes, if there is such a place. -/
theorem seekTarget_exits (one : OneStream mem source payload e)
    (indexed : Indexed source payload index)
    (h : At mem source payload e index pos self) (move : SeekFrom) :
    Exits (seekTarget self move) (Seeks payload pos move)
      (fun e => (∃ err, e = .error err) ∧ ∀ offset, ¬Seeks payload pos move offset) := by
  refine ((absoluteOffset_exits one indexed h move).mono (fun _ h => h) ?_).bind ?_
  · rintro _ ⟨error, outside⟩
    refine ⟨error, fun offset seeks => ?_⟩
    have same := seeks.1
    have le := seeks.2
    omega
  · rintro t rfl
    split_ifs with negative past
    · refine exits_error ⟨⟨_, rfl⟩, fun offset seeks => ?_⟩
      have same := seeks.1
      omega
    · rw [h.index_eq, indexed.total, Option.any_some, decide_eq_true_iff] at past
      refine exits_error ⟨⟨_, rfl⟩, fun offset seeks => ?_⟩
      have same := seeks.1
      have le := seeks.2
      omega
    · rw [h.index_eq, indexed.total, Option.any_some, decide_eq_true_iff] at past
      exact exits_ok ⟨by omega, by omega⟩

/-- With the identifier read, the seeker is inside the stream, or there is nothing in it. -/
theorem readIdentifier_runs (one : OneStream mem source payload e)
    (h : At mem source payload e index pos self) :
    Runs (readIdentifier mem) self
      (fun _ self' => self' = { self with reader := self'.reader } ∧
        ((∃ pos', Inside mem payload e pos' self'.reader) ∧ payload ≠ [] ∨
          Past mem payload self'.reader ∧ payload = []))
      fun _ _ => False := by
  refine Runs.step rfl ?_
  have rewinds (plain : Plain self.reader) (drained : Drained self.reader)
      (flags : self.reader.headerRead = false ∧ self.reader.expectEof = false) :
      Runs (do
        placeSource 0
        let _ ← onReader (fillBuf mem)) self
        (fun _ self' => self' = { self with reader := self'.reader } ∧
          ((∃ pos', Inside mem payload e pos' self'.reader) ∧ payload ≠ [] ∨
            Past mem payload self'.reader ∧ payload = []))
        fun _ _ => False := by
    obtain ⟨ahead, live⟩ := plain.live
    set s : Reader Unit := { self.reader with r := self.source.drop 0 } with placed
    have before : Before source s :=
      ⟨⟨⟨_, live.err, live.pos, live.small, live.limit, live.user, rfl⟩, plain.user, plain.strict,
        plain.checks, plain.silent⟩, h.source_eq, flags, drained⟩
    refine Runs.step rfl ?_
    have filled : Runs (fillBuf mem) s
        (fun _ s' => (∃ pos', Inside mem payload e pos' s') ∧ payload ≠ [] ∨
        Past mem payload s' ∧ payload = []) fun _ _ => False := by
      refine Runs.step (checkErr_clear before.plain.err) ?_
      refine ((Walk.before before rfl).fill one).bind fun more s1 filled => ?_
      cases more with
      | false =>
          rw [if_neg Bool.false_ne_true] at filled
          exact runs_pure (.inr ⟨filled.1, List.eq_nil_of_length_eq_zero filled.2.symm⟩)
      | true =>
          rw [if_pos rfl] at filled
          have some := filled.1.some (Nat.zero_lt_of_lt filled.2)
          exact Runs.step rfl (runs_pure (.inl ⟨⟨0, filled.1⟩, some⟩))
    refine ((onReader_runs { self with reader := s } filled).mono (fun _ _ h => h)
      fun _ _ h => h.2).bind ?_
    rintro _ self' ⟨same, reached⟩
    exact runs_pure ⟨same, reached⟩
  cases h.stands.walk with
  | before before =>
      rw [if_pos before.flags.1]
      exact rewinds before.plain before.drained before.flags
  | inside inside =>
      rw [if_neg (by rw [inside.begun.1]; decide)]
      exact runs_pure ⟨rfl, .inl ⟨⟨pos, inside⟩, h.stands.some inside.begun.1⟩⟩
  | past past =>
      rw [if_pos past.flags.1]
      exact rewinds past.plain past.drained past.flags

/-- The entry that is found for an offset is that of a block at or before it. -/
theorem Indexed.find (indexed : Indexed source payload index) (some : payload ≠ []) (offset : Nat) :
    index.find offset ∈ starts {} (chunks source) ∧ (index.find offset).uncompressed ≤ offset := by
  obtain ⟨c, rest, offsets⟩ := indexed.first some
  have first : (⟨c, 0⟩ : OffsetPair) ∈ Index.upTo offset index.offsets := by
    rw [offsets, Index.upTo_cons_of_le (p := ⟨c, 0⟩) (Nat.zero_le _)]
    exact List.mem_cons_self
  rw [(Index.find_last index offset indexed.sorted).1]
  obtain ⟨q, last⟩ : ∃ q, (Index.upTo offset index.offsets).getLast? = .some q := by
    rw [List.getLast?_eq_some_getLast (List.ne_nil_of_mem first)]
    exact ⟨_, rfl⟩
  have here := List.mem_of_getLast? last
  rw [last, Option.getD_some]
  rw [Index.upTo, List.mem_filter, decide_eq_true_iff] at here
  exact ⟨indexed.marks q here.1, here.2⟩

/-- Two readers of one stream differ in their place only. -/
theorem Inside.placed_eq {s t : Reader Unit} {pos' : Nat} (h : Inside mem payload e pos' s)
    (there : Inside mem payload e pos t) (drained : Drained t) :
    ({ s with r := t.r, decoded := [], decodedPos := 0, blockStart := pos.toUInt64 } : Reader Unit) =
      t.settle := by
  have start := there.end_eq drained
  have err := h.plain.err.trans there.plain.err.symm
  have user := h.plain.user.trans there.plain.user.symm
  have strict := h.plain.strict.trans there.plain.strict.symm
  have checks := h.plain.checks.trans there.plain.checks.symm
  have silent := h.plain.silent.trans there.plain.silent.symm
  have header := h.begun.1.trans there.begun.1.symm
  have expects := h.begun.2.trans there.begun.2.symm
  have limit := h.limit.trans there.limit.symm
  rw [Reader.settle, start]
  clear h there drained start
  cases s
  cases t
  simp only at *
  subst user strict checks err silent header expects limit
  rfl

/-- With nothing in the stream, the reader starts again from the identifier. -/
theorem Past.restarts {s : Reader Unit} (h : Past mem payload s) :
    Stands mem source payload e 0
      { s with r := source, decoded := [], decodedPos := 0, blockStart := 0 } := by
  obtain ⟨ahead, live⟩ := h.plain.live
  refine ⟨.before ⟨⟨⟨_, live.err, le_rfl, Nat.zero_le _, live.limit, live.user, rfl⟩, h.plain.user,
    h.plain.strict, h.plain.checks, h.plain.silent⟩, rfl, h.flags, rfl⟩ rfl, rfl, fun begun => ?_⟩
  exact absurd (h.flags.1.symm.trans begun) Bool.false_ne_true

theorem Indexed.none (one : OneStream mem source payload e) (indexed : Indexed source payload index)
    (none : payload = []) (offset : Nat) : index.find offset = {} := by
  have empty : index.offsets = [] := by
    refine List.eq_nil_iff_forall_not_mem.mpr fun q here => ?_
    have mark := indexed.marks q here
    obtain ⟨n, _, same⟩ := one.placed
    have dry : Drained e := by
      rw [Drained, one.bare.1, one.bare.2.1]
      rfl
    have rest : Rest mem e [] := none ▸ one.rest
    rw [same, rest.none_starts one.plain.live dry] at mark
    cases mark
  rw [Index.find, if_pos empty]

/-- Placed where the index says, the reader is one that has read its way. -/
theorem seekBlock_runs (m : Overflow) (one : OneStream mem source payload e)
    (indexed : Indexed source payload index) (source_eq : self.source = source)
    (index_eq : self.index = index) {offset : Nat} (le : offset ≤ payload.length)
    (here : (∃ pos', Inside mem payload e pos' self.reader) ∧ payload ≠ [] ∨
      Past mem payload self.reader ∧ payload = []) :
    Runs (seekBlock m mem offset) self (fun _ self' => At mem source payload e index offset self')
      fun _ _ => False := by
  subst source_eq index_eq
  have reached : ∀ entry, self.index.find offset = entry → entry.uncompressed ≤ offset ∧
      ∃ s : Reader Unit, s = { self.reader with
          r := self.source.drop entry.compressed, decoded := [], decodedPos := 0
          blockStart := entry.uncompressed.toUInt64 } ∧
        Stands mem self.source payload e entry.uncompressed s ∧
        (entry.uncompressed < offset → Inside mem payload e entry.uncompressed s) := by
    rintro entry found
    rcases here with ⟨⟨pos', inside'⟩, some⟩ | ⟨past, none⟩
    · obtain ⟨mark, before⟩ := indexed.find some offset
      rw [found] at mark before
      obtain ⟨t, inside, drained, placed⟩ := one.marks mark
      have settled := inside.settle drained
      have same := inside'.placed_eq inside drained
      rw [placed] at same
      exact ⟨before, t.settle, same.symm, settled.stands some, fun _ => settled⟩
    · rw [indexed.none one none] at found
      subst found
      refine ⟨Nat.zero_le _, _, rfl, past.restarts, fun more => ?_⟩
      rw [none] at le
      exact absurd more (Nat.not_lt.mpr le)
  obtain ⟨before, s, placed, stands, inside⟩ := reached _ rfl
  set entry := self.index.find offset with found
  have asserted : ¬(m = .panics ∧ entry.uncompressed > offset) :=
    fun h => absurd h.2 (Nat.not_lt.mpr before)
  refine Runs.step rfl (Runs.step rfl (Runs.step
    (?_ : _ = EStateM.Result.ok () { self with reader := s }) ?_))
  · rw [placed]
    rfl
  · simp only [← found, if_neg asserted]
    split
    · next more =>
        have some : payload ≠ [] := List.length_pos_iff.mp (by omega)
        refine ((onReader_runs { self with reader := s } ((inside more).skip m (by omega))).mono
          (fun _ _ h => h) fun _ _ h => h.2).bind ?_
        rintro _ self' ⟨same, moved⟩
        rw [Nat.add_sub_cancel' before] at moved
        rw [same]
        exact runs_pure ⟨rfl, rfl, moved.stands some⟩
    · have exact_ : entry.uncompressed = offset := by omega
      rw [exact_] at stands
      exact runs_pure ⟨rfl, rfl, stands⟩

/-- Within the block at hand only the position changes. -/
theorem Inside.fast {s : Reader Unit} (one : OneStream mem source payload e)
    (h : Inside mem payload e pos s) {offset : Nat}
    (within : s.blockStart.toNat ≤ offset ∧ offset < s.blockEnd.toNat) :
    Inside mem payload e offset { s with decodedPos := offset - s.blockStart.toNat } ∧ payload ≠ [] := by
  have limit : maxSigned < 2 ^ 64 := by decide
  have small := one.small
  obtain ⟨u, start, at_pos, _, fits, _⟩ := h.block
  have first : s.blockStart.toNat = u := by
    rw [start]
    exact Nat.mod_eq_of_lt (by omega)
  have last : s.blockEnd.toNat = u + s.decoded.length := by
    rw [Reader.blockEnd, start, ← UInt64.ofNat_add]
    exact Nat.mod_eq_of_lt (by omega)
  rw [first, last] at within
  have moved := h.at at_pos (by omega : offset - u ≤ s.decoded.length)
  rw [Nat.add_sub_cancel' within.1] at moved
  rw [first]
  exact ⟨moved, h.some (by omega)⟩

theorem At.seek (m : Overflow) (one : OneStream mem source payload e)
    (indexed : Indexed source payload index) (h : At mem source payload e index pos self)
    (move : SeekFrom) :
    Runs (seekUncompressed m mem move) self
      (fun offset self' => Seeks payload pos move offset ∧ At mem source payload e index offset self')
      (fun e' self' => (∃ err, e' = .error err) ∧ (∀ offset, ¬Seeks payload pos move offset) ∧
        At mem source payload e index pos self') := by
  have clear : onReader clearEof self = .ok () self := by
    have none : clearEof self.reader = .ok () self.reader := by
      refine (get_bind _ _).trans ?_
      rw [h.stands.walk.plain.err]
      rfl
    rw [onReader, none]
  refine Runs.step clear (Runs.step rfl ?_)
  refine (runs_lift (Q := fun offset s => Seeks payload pos move offset ∧ s = self) ?_).bind ?_
  · exact (seekTarget_exits one indexed h move).mono (fun _ seeks => ⟨seeks, rfl⟩)
      fun _ out => ⟨out.1, out.2, h⟩
  rintro offset _ ⟨seeks, rfl⟩
  refine ((readIdentifier_runs one h).mono (fun _ _ h => h) fun _ _ => False.elim).bind ?_
  rintro _ self1 ⟨same, here⟩
  have source_eq : self1.source = source := by
    rw [same]
    exact h.source_eq
  have index_eq : self1.index = index := by
    rw [same]
    exact h.index_eq
  refine Runs.step rfl ?_
  simp only
  split
  · next within =>
      rcases here with ⟨⟨pos', inside⟩, _⟩ | ⟨past, none⟩
      · obtain ⟨moved, some⟩ := inside.fast one within
        exact Runs.step rfl (runs_pure ⟨seeks, source_eq, index_eq, moved.stands some⟩)
      · have ended : self1.reader.blockEnd.toNat = 0 := by
          have offset_eq := past.offset
          rw [Reader.currentOffset, past.drained, none] at offset_eq
          rw [Reader.blockEnd, offset_eq]
          rfl
        omega
  · refine ((seekBlock_runs m one indexed source_eq index_eq seeks.2 here).mono (fun _ _ h => h)
      fun _ _ => False.elim).bind fun _ self2 reached => ?_
    exact runs_pure ⟨seeks, reached⟩

theorem unlessInterrupted_runs {σ α : Type} {x : Action σ α} {s : Reader σ}
    {Q : α → Reader σ → Prop} (h : Runs x s Q fun _ _ => False) :
    Runs (unlessInterrupted x) s (fun r s' => ∃ a, r = some a ∧ Q a s') fun _ _ => False := by
  cases run : x s with
  | ok a s' => exact runs_ok (by rw [unlessInterrupted, run]) ⟨a, rfl, h.ok run⟩
  | error e s' => exact (h.error run).elim

/-- A buffer is filled up to the end of the payload. -/
theorem At.fill (m : Overflow) (one : OneStream mem source payload e)
    (h : At mem source payload e index pos self) (len : Nat) :
    Runs (onReader (runM (.fault .unfinished) (readAtStep m mem len) (len + 1) [])) self
      (fun bytes self' => bytes = (payload.drop pos).take len ∧
        At mem source payload e index (min (pos + len) payload.length) self')
      fun _ _ => False := by
  have filled : Runs (runM (.fault .unfinished) (readAtStep m mem len) (len + 1) []) self.reader
      (fun bytes s' => bytes = (payload.drop pos).take len ∧
        Stands mem source payload e (min (pos + len) payload.length) s') fun _ _ => False := by
    refine runs_runM (fun bytes s => bytes.length ≤ len ∧
        bytes = (payload.drop pos).take bytes.length ∧
      Stands mem source payload e (pos + bytes.length) s) (fun bytes _ => len - bytes.length) ?_
      ⟨Nat.zero_le _, rfl, h.stands⟩ (by simp)
    rintro bytes s ⟨le, taken, stands⟩
    have inside := stands.walk.le
    rw [readAtStep]
    split
    · next room =>
        refine (unlessInterrupted_runs (stands.read m one _)).bind ?_
        rintro _ s' ⟨_, rfl, n, most, rfl, fits, ends, stands'⟩
        have size : ((payload.drop (pos + bytes.length)).take n).length = n := by
          rw [List.length_take, List.length_drop]
          omega
        simp only
        split
        · next none =>
            rw [none, List.length_nil] at size
            have finish := ends (by omega) size.symm
            rw [← size, Nat.add_zero] at stands'
            rw [finish] at stands'
            refine runs_pure ⟨?_, ?_⟩
            · have all : (payload.drop pos).length = bytes.length := by
                rw [List.length_drop]
                omega
              rw [taken, ← all, List.take_length, List.take_of_length_le (by omega)]
            · rw [Nat.min_eq_right (by omega)]
              exact stands'
        · next some =>
            have pos_n : 0 < n := by
              rw [← size]
              exact List.length_pos_iff.mpr some
            refine runs_pure ⟨⟨?_, ?_, ?_⟩, ?_⟩
            · rw [List.length_append, size]
              omega
            · rw [List.length_append, size, List.take_add, List.drop_drop, ← taken]
            · rw [List.length_append, size, ← Nat.add_assoc]
              exact stands'
            · simp only [List.length_append, size]
              omega
    · next full =>
        obtain rfl : bytes.length = len := by omega
        refine runs_pure ⟨taken, ?_⟩
        rw [Nat.min_eq_left inside]
        exact stands
  refine (onReader_runs _ filled).mono ?_ fun _ _ h => h.2
  rintro bytes self' ⟨same, taken, stands⟩
  rw [same]
  exact ⟨taken, h.source_eq, h.index_eq, stands⟩

theorem At.readAt (m : Overflow) (one : OneStream mem source payload e)
    (indexed : Indexed source payload index) (h : At mem source payload e index pos self)
    (len offset : Nat) :
    Runs (readAt m mem len offset) self
      (fun bytes self' => Seeks payload pos (.start offset) offset ∧
        bytes = (payload.drop offset).take len ∧
        At mem source payload e index (min (offset + len) payload.length) self')
      (fun e' self' => (∃ err, e' = .error err) ∧ ¬Seeks payload pos (.start offset) offset ∧
        At mem source payload e index pos self') := by
  refine ((h.seek m one indexed (.start offset)).mono (fun _ _ h => h)
    fun _ _ out => ⟨out.1, out.2.1 offset, out.2.2⟩).bind ?_
  rintro offset' self1 ⟨seeks, here⟩
  have same : (offset : Int) = offset' := seeks.1
  obtain rfl : offset' = offset := by omega
  refine ((here.fill m one len).mono ?_ fun _ _ => False.elim)
  exact fun _ _ filled => ⟨seeks, filled.1, filled.2⟩

/-- One call does what the cursor does. -/
theorem At.run (m : Overflow) (one : OneStream mem source payload e)
    (indexed : Indexed source payload index) (h : At mem source payload e index pos self)
    (call : SeekerCall) :
    Runs (call.run m mem) self
      (fun reply self' => ∃ pos', Cursor payload pos call (.ok reply) pos' ∧
        At mem source payload e index pos' self')
      (fun e' self' => ∃ err pos', e' = .error err ∧
        Cursor payload pos call (.error (.error err)) pos' ∧
        At mem source payload e index pos' self') := by
  cases call with
  | read len =>
      refine ((onReader_runs _ (h.stands.read m one len)).mono (fun _ _ h => h)
        fun _ _ h => h.2.elim).bind ?_
      rintro bytes self' ⟨same, n, most, rfl, inside, ends, stands⟩
      rw [same]
      exact runs_pure ⟨_, .read most inside ends, h.source_eq, h.index_eq, stands⟩
  | seek move =>
      refine ((h.seek m one indexed move).mono (fun _ _ h => h) ?_).bind ?_
      · rintro _ _ ⟨⟨err, rfl⟩, out, same⟩
        exact ⟨err, pos, rfl, .seekOut out, same⟩
      · rintro offset self' ⟨seeks, here⟩
        exact runs_pure ⟨offset, .seek seeks, here⟩
  | readAt len offset =>
      refine ((h.readAt m one indexed len offset).mono (fun _ _ h => h) ?_).bind ?_
      · rintro _ _ ⟨⟨err, rfl⟩, out, same⟩
        exact ⟨err, pos, rfl, .readAtOut out, same⟩
      · rintro _ self' ⟨seeks, rfl, here⟩
        exact runs_pure ⟨_, .readAt seeks, here⟩
  | readExactAt len offset =>
      refine Runs.bind (P := fun bytes self' => ∃ pos',
        Cursor payload pos (.readExactAt len offset) (.ok (.bytes bytes)) pos' ∧
        At mem source payload e index pos' self') ?_ ?_
      · refine ((h.readAt m one indexed len offset).mono (fun _ _ h => h) ?_).bind ?_
        · rintro _ _ ⟨⟨err, rfl⟩, out, same⟩
          exact ⟨err, pos, rfl, .readExactAtOut out, same⟩
        · rintro _ self' ⟨seeks, rfl, here⟩
          have le := seeks.2
          split
          · next short =>
              rw [List.length_take, List.length_drop] at short
              rw [Nat.min_eq_right (by omega)] at here
              exact runs_error rfl ⟨_, _, rfl, .readExactAtShort seeks (by omega), here⟩
          · next full =>
              rw [List.length_take, List.length_drop] at full
              rw [Nat.min_eq_left (by omega)] at here
              exact runs_pure ⟨_, .readExactAt (by omega), here⟩
      · rintro bytes self' ⟨pos', does, here⟩
        exact runs_pure ⟨pos', does, here⟩

/-- All calls together do what the cursor does. -/
theorem At.follows (m : Overflow) (one : OneStream mem source payload e)
    (indexed : Indexed source payload index) (h : At mem source payload e index pos self)
    (calls : List SeekerCall) : Follows payload pos calls (replies m mem calls self) := by
  induction calls generalizing pos self with
  | nil => exact .nil pos
  | cons call calls ih =>
      rw [replies]
      cases run : call.run m mem self with
      | ok reply self' =>
          obtain ⟨pos', does, here⟩ := (h.run m one indexed call).ok run
          exact .cons does (ih here)
      | error e' self' =>
          obtain ⟨err, pos', rfl, does, here⟩ := (h.run m one indexed call).error run
          exact .cons does (ih here)

end Seeker

end MinLz.Stream
