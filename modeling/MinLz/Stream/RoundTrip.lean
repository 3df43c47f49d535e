import MinLz.Stream.Facing

/-! # What a reader makes of the stream of a writer

The calls of a writer put items into a stream, bytes and user chunks. A reader with
callbacks for the user chunks gets these items back, in order, and then nothing more.
-/

namespace MinLz.Stream

open Block (maxBlockSize)
open Machine (Overflow maxSigned)
open Effects

/-- A callback that notes the user chunks it is called for. -/
def record : UserChunkCb (List Item) := fun id data log => (.ok (), log ++ [.chunk id data])

/-- Read into a buffer of each size in turn, and note what has been read. -/
def pulls (m : Overflow) (mem : Nat → UInt8) : List Nat → Action (List Item) (List (List UInt8))
  | [] => return []
  | len :: lens => do
      let bytes ← read m mem len
      modify fun self => { self with world := self.world ++ bytes.map .byte }
      return bytes :: (← pulls m mem lens)

/-- The bytes among the items. -/
def bytesIn (its : List Item) : List UInt8 :=
  its.filterMap fun it => match it with
    | .byte b => some b
    | .chunk _ _ => none

/-- A default reader with callbacks for the user chunks gets these items from the stream.
    Reads into nonempty buffers hand out bytes until all of the items have been noted, and
    then nothing. -/
def GetsBack (m : Overflow) (mem : Nat → UInt8) (stream : List UInt8) (its : List Item) : Prop :=
  ∀ callbacks : UInt8 → Option (UserChunkCb (List Item)),
    (∀ id data, Item.chunk id data ∈ its → callbacks id = some record) →
    ∃ s, ReaderBuilder.build { callbacks } stream [] = .ok s ∧
      ∀ sizes : List Nat, (∀ len ∈ sizes, len ≠ 0) → ∃ blocks n s',
        pulls m mem sizes s = .ok (blocks ++ List.replicate n []) s' ∧
        (∀ bytes ∈ blocks, bytes ≠ []) ∧
        s'.world <+: its ∧ bytesIn s'.world = blocks.flatten ∧
        (0 < n ∨ (bytesIn its).length < sizes.length → s'.world = its)

/-- The calls and the end of the stream. -/
def session (m : Overflow) (calls : List WriterCall) : Emit (List UInt8) (List UInt8) := do
  runWrites m Sink.vec calls
  finish m Sink.vec

/-- The calls succeed on a new writer, and a reader gets back what they have written. -/
def RoundTrips (m : Overflow) (mem : Nat → UInt8) (b : WriterBuilder) (calls : List WriterCall) :
    Prop :=
  ∃ w stream w', b.build [] = .ok w ∧ session m calls w = .ok stream w' ∧
    GetsBack m mem stream (calls.flatMap WriterCall.items)

theorem bytesIn_append (left right : List Item) :
    bytesIn (left ++ right) = bytesIn left ++ bytesIn right :=
  List.filterMap_append

theorem bytesIn_bytes (bytes : List UInt8) : bytesIn (bytes.map .byte) = bytes := by
  induction bytes with
  | nil => rfl
  | cons byte bytes ih => exact congrArg (byte :: ·) ih

theorem bytesIn_dull {its : List Item} (dull : ∀ byte, Item.byte byte ∉ its) : bytesIn its = [] := by
  refine List.filterMap_eq_nil_iff.mpr fun it mem => ?_
  cases it with
  | byte b => exact absurd mem (dull b)
  | chunk id data => rfl

theorem bytesIn_itemsOf (ps : List Piece) : bytesIn (itemsOf ps) = payload ps := by
  induction ps with
  | nil => rfl
  | cons p ps ih =>
      rw [itemsOf, payload, List.flatMap_cons, List.flatMap_cons, bytesIn_append]
      refine congrArg₂ _ ?_ ih
      cases p with
      | stored block => exact bytesIn_bytes block
      | coded block body => exact bytesIn_bytes block
      | user id data => rfl

/-- The callback notes the items without a byte. -/
theorem heard_record {its : List Item} (dull : ∀ byte, Item.byte byte ∉ its) (log : List Item) :
    heard (fun id data log => log ++ [Item.chunk id data]) its log = log ++ its := by
  induction its generalizing log with
  | nil => exact (List.append_nil log).symm
  | cons it its ih =>
      cases it with
      | byte b => exact absurd List.mem_cons_self (dull b)
      | chunk id data =>
          have rest := ih (fun byte mem => dull byte (List.mem_cons_of_mem _ mem))
            (log ++ [.chunk id data])
          rw [List.append_assoc] at rest
          exact rest

section Pulls

variable (m : Overflow) (mem : Nat → UInt8) {b : WriterBuilder} {ps : List Piece}
  {after : List Chunk} {phase : Phase} {s : Reader (List Item)}

/-- The log of what is heard makes no difference to what comes. -/
theorem Facing.noted {onUser : UInt8 → List UInt8 → List Item → List Item}
    (h : Facing b ps after onUser phase s) (log : List Item) :
    Facing b ps after onUser phase { s with world := log } where
  r := h.r
  err := h.err
  user := h.user
  strict := h.strict
  heeds := h.heeds
  pos := h.pos
  small := h.small
  stage := by cases phase <;> exact h.stage

/-- A read that hands out bytes, noted, and the reads after it. -/
theorem pulls_cons {len : Nat} {lens : List Nat} {bytes : List UInt8} {rest : List (List UInt8)}
    {s1 s' : Reader (List Item)} (run : Stream.read m mem len s = .ok bytes s1)
    (more : pulls m mem lens { s1 with world := s1.world ++ bytes.map .byte } = .ok rest s') :
    pulls m mem (len :: lens) s = .ok (bytes :: rest) s' := by
  refine (bind_ok run).trans ?_
  show (pulls m mem lens >>= fun more => pure (bytes :: more))
    { s1 with world := s1.world ++ bytes.map .byte } = _
  exact (bind_ok more).trans rfl

theorem Facing.pulls (sound : Readable b ps after)
    (h : Facing b ps after (fun id data log => log ++ [Item.chunk id data]) phase s)
    {sizes : List Nat} (room : ∀ len ∈ sizes, len ≠ 0) :
    ∃ blocks n s' more, pulls m mem sizes s = .ok (blocks ++ List.replicate n []) s' ∧
      (∀ bytes ∈ blocks, bytes ≠ []) ∧ s'.world = s.world ++ more ∧ more <+: inFront ps phase s ∧
      bytesIn more = blocks.flatten ∧
      (0 < n ∨ (bytesIn (inFront ps phase s)).length < sizes.length → more = inFront ps phase s) := by
  induction sizes generalizing phase s with
  | nil =>
      refine ⟨[], 0, s, [], rfl, fun _ none => absurd none List.not_mem_nil,
        (List.append_nil _).symm, List.nil_prefix, rfl, fun all => ?_⟩
      exact absurd all (by simp)
  | cons len lens ih =>
      rw [List.forall_mem_cons] at room
      cases run : Stream.read m mem len s with
      | error e s1 => exact ((h.read mem m sound room.1).error run).elim
      | ok bytes s1 =>
          obtain ⟨_, phase1, gone, h1, front, dull, world, ended⟩ := (h.read mem m sound room.1).ok run
          rw [heard_record dull] at world
          set s2 : Reader (List Item) := { s1 with world := s1.world ++ bytes.map .byte } with noted
          have h2 : Facing b ps after (fun id data log => log ++ [Item.chunk id data]) phase1 s2 :=
            h1.noted _
          obtain ⟨blocks, n, s', more, rest, filled, log, ahead, same, all⟩ := ih h2 room.2
          have pulled := pulls_cons m mem run rest
          have noted' : s'.world = s.world ++ (gone ++ (bytes.map .byte ++ more)) := by
            rw [log, noted]
            simp only [world, List.append_assoc]
          have prefixed : gone ++ (bytes.map .byte ++ more) <+: inFront ps phase s := by
            rw [front]
            exact List.prefix_append_right_inj _ |>.mpr ((List.prefix_append_right_inj _).mpr ahead)
          have size : (bytesIn (inFront ps phase s)).length =
              bytes.length + (bytesIn (inFront ps phase1 s2)).length := by
            rw [front, bytesIn_append, bytesIn_append, bytesIn_dull dull, bytesIn_bytes,
              List.nil_append, List.length_append]
            rfl
          by_cases none : bytes = []
          · subst none
            have nothing : inFront ps phase1 s2 = [] := ended rfl
            rw [nothing, List.prefix_nil] at ahead
            subst ahead
            have empty : blocks = [] := by
              cases blocks with
              | nil => rfl
              | cons block blocks =>
                  have first : block = [] := (List.append_eq_nil_iff.mp same.symm).1
                  exact absurd first (filled block List.mem_cons_self)
            subst empty
            refine ⟨[], n + 1, s', _, pulled, filled, noted', prefixed, ?_, fun _ => ?_⟩
            · exact bytesIn_dull (by simpa using dull)
            · have nothing' : inFront ps phase1 s1 = [] := nothing
              rw [front, nothing']
          · have some : 0 < bytes.length := List.length_pos_iff.mpr none
            refine ⟨bytes :: blocks, n, s', _, pulled, ?_, noted', prefixed, ?_, fun enough => ?_⟩
            · exact List.forall_mem_cons.mpr ⟨none, filled⟩
            · rw [bytesIn_append, bytesIn_append, bytesIn_dull dull, bytesIn_bytes, same]
              rfl
            · rw [all (enough.imp_right fun fewer => ?_), front]
              · rfl
              · rw [size, List.length_cons] at fewer
                omega

theorem build_least {b : WriterBuilder} {w : Writer (List UInt8)} (built : b.build [] = .ok w) :
    minBlockSize ≤ b.blockSize := by
  rw [WriterBuilder.build] at built
  split at built
  · cases built
  · next valid => exact Nat.not_lt.mp (not_or.mp valid).1

/-- A reader gets the items back from a stream that a writer has closed. -/
theorem Closed.delivers {buildIndex : Bool} {bytes stream : List UInt8}
    (h : Closed m b ps buildIndex bytes stream) (appends : b.appendIndex = true → buildIndex = true)
    (least : minBlockSize ≤ b.blockSize) (codec : Contract b.level) :
    GetsBack m mem stream (itemsOf ps) := by
  intro callbacks registered
  obtain ⟨after, rfl, skipped⟩ := h.isWhole appends
  have sound : Readable b ps after := ⟨least, h.large, codec, h.valid, skipped⟩
  have valid : ¬(maxBlockSize = 0 ∨ maxBlockSize > maxBlockSize) := by decide
  refine ⟨_, if_neg valid, fun sizes room => ?_⟩
  set s : Reader (List Item) := withBuilder { callbacks } (whole b ps after) [] with start
  have facing : Facing b ps after (fun id data log => log ++ [Item.chunk id data]) .fresh s := by
    refine ⟨rfl, rfl, rfl, rfl, fun id data here => ?_, le_rfl, Nat.zero_le _, ⟨rfl, rfl⟩, rfl⟩
    have known : s.callbacks id = some record :=
      registered id data (List.mem_flatMap.mpr ⟨_, here, List.mem_singleton.mpr rfl⟩)
    rw [Heeds, known]
    exact fun _ _ => rfl
  obtain ⟨blocks, n, s', more, run, filled, log, ahead, same, all⟩ :=
    facing.pulls m mem sound room
  rw [show s.world = [] from rfl, List.nil_append] at log
  have front : inFront ps .fresh s = itemsOf ps := rfl
  rw [front] at ahead all
  rw [← log] at ahead same all
  exact ⟨blocks, n, s', run, filled, ahead, same, all⟩

end Pulls

variable (m : Overflow) (mem : Nat → UInt8)

/-- Whenever the calls on a new writer and `finish` succeed, a reader gets back what they
    have written. They do succeed while the stream stays below its limit. -/
theorem written_delivered {b : WriterBuilder} {w : Writer (List UInt8)} (built : b.build [] = .ok w)
    (codec : Contract b.level) (calls : List WriterCall) :
    (∀ stream w', session m calls w = .ok stream w' →
        GetsBack m mem stream (calls.flatMap WriterCall.items)) ∧
      (cost (calls.flatMap WriterCall.items) + 2 ^ 26 < b.streamLimit →
        RoundTrips m mem b calls) := by
  have runs := session_runs m built calls
  have delivers (stream : List UInt8) (w' : Writer (List UInt8))
      (ran : session m calls w = .ok stream w') :
      GetsBack m mem stream (calls.flatMap WriterCall.items) := by
    obtain ⟨ps, bytes, same, closed⟩ := runs.ok ran
    rw [← same]
    exact closed.delivers m mem id (build_least built) codec
  refine ⟨delivers, fun small => ?_⟩
  cases ran : session m calls w with
  | ok stream w' => exact ⟨w, stream, w', built, ran, delivers stream w' ran⟩
  | error e w' => exact absurd (runs.error ran codec) (Nat.not_le.mpr small)

/-- A writer that appends an index cannot end a stream whose payload is too long for it. -/
theorem session_too_long {b : WriterBuilder} {w : Writer (List UInt8)} (built : b.build [] = .ok w)
    (indexed : b.appendIndex = true) {calls : List WriterCall}
    (long : maxSigned < (bytesIn (calls.flatMap WriterCall.items)).length) (stream : List UInt8)
    (w' : Writer (List UInt8)) : session m calls w ≠ .ok stream w' := by
  intro ran
  obtain ⟨ps, bytes, same, closed⟩ := (session_runs m built calls).ok ran
  have index := closed.index
  rw [indexed, if_pos rfl] at index
  have total := index.total
  rw [← same, bytesIn_itemsOf] at long
  omega

theorem contract_fastest : Contract .fastest :=
  fun _ small => Block.appendEncodedChunkBody_ok small [] fun long =>
    Block.L1.encodeBlock_ok (Block.room_chunk long small) rfl

/-- Two writes that come to `2^63` bytes. -/
def tooLong : List WriterCall := [.write (List.replicate maxSigned 0), .write [0]]

/-- With an index to append, a stream of `2^63` bytes is not written. -/
theorem not_roundTrips :
    WriterBuilder.build { level := .fastest, appendIndex := true } ([] : List UInt8) =
      .ok (newWriter [] { level := .fastest, appendIndex := true }) ∧ Contract .fastest ∧
    ¬RoundTrips .panics (fun _ => 0) { level := .fastest, appendIndex := true } tooLong := by
  have built : WriterBuilder.build { level := .fastest, appendIndex := true } ([] : List UInt8) =
      .ok (newWriter [] { level := .fastest, appendIndex := true }) := rfl
  refine ⟨built, contract_fastest, ?_⟩
  rintro ⟨w, stream, w', built', ran, _⟩
  refine session_too_long .panics built' rfl ?_ stream w' ran
  have items : tooLong.flatMap WriterCall.items =
      (List.replicate maxSigned 0).map .byte ++ ([0] : List UInt8).map .byte := by
    rw [tooLong, List.flatMap_cons, List.flatMap_cons, List.flatMap_nil, List.append_nil]
    rfl
  rw [items, bytesIn_append, bytesIn_bytes, bytesIn_bytes, List.length_append, List.length_replicate]
  exact Nat.lt_succ_self _

/-- Five bytes and a user chunk. -/
theorem written_delivered_few : RoundTrips .panics (fun _ => 0) { level := .fastest }
    [.write [1, 2, 3], .addUserChunk 0x80 [7], .flush, .write [4, 5]] :=
  (written_delivered .panics (fun _ => 0) (b := { level := .fastest }) rfl contract_fastest
    [.write [1, 2, 3], .addUserChunk 0x80 [7], .flush, .write [4, 5]]).2 (by decide)

end MinLz.Stream
