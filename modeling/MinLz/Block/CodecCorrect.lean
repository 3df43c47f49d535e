import MinLz.Block.Codec
import MinLz.Block.DecodeFormat
import MinLz.Block.EncodeL1Correct
import MinLz.Block.EncodeL2Correct

/-! # Blocks round trip

An encoder that keeps `Encodes` in the slice it is handed makes a block, or a
chunk body, that the decoder turns back into the source.
-/

namespace MinLz.Block

open Loop

/-- What appending `src` as a block promises. -/
def AppendsBlock (level : Level) (dst : List UInt8) (src : Slice) : Prop :=
  ∃ block max, appendEncoded level dst src = .ok (dst ++ block) ∧
    maxEncodedLen src.len = some max ∧ block.length ≤ max ∧
    ∀ mem out, appendDecoded mem out block = .ok (out ++ src.toList)

/-- What appending `src` as a chunk body promises. -/
def AppendsChunk (level : Level) (dst : List UInt8) (src : Slice) : Prop :=
  appendEncodedChunkBody level dst src = .ok (dst, false) ∨
  ∃ body, appendEncodedChunkBody level dst src = .ok (dst ++ body, true) ∧
    body.length < src.len ∧ ∀ mem out, appendDecodedChunkBody mem out body = .ok (out ++ src.toList)

/-- What trying to append `src` promises: only a block smaller than `src` is appended, and it
    is the one that appending makes. -/
def TriesBlock (level : Level) (dst : List UInt8) (src : Slice) : Prop :=
  tryEncode level dst src = .ok (dst, false) ∨
  ∃ block, tryEncode level dst src = .ok (dst ++ block, true) ∧ block.length < src.len ∧
    appendEncoded level dst src = .ok (dst ++ block) ∧
    ∀ mem out, appendDecoded mem out block = .ok (out ++ src.toList)

theorem AppendsBlock.encode {level : Level} {src : Slice} (h : AppendsBlock level [] src) :
    ∃ block, encode level src = .ok block ∧ ∀ mem, decode mem block = .ok src.toList := by
  obtain ⟨block, _, run, _, _, decodes⟩ := h
  exact ⟨block, run, fun mem => decodes mem []⟩

/-- The length of the slice handed to the encoder of a block. -/
def blockRoom (n : Nat) : Nat := n + 1 - (putUvarint n).length

/-- The same for a chunk body, which has no marker byte. -/
def chunkRoom (n : Nat) : Nat := n + 2 - (putUvarint n).length

theorem length_putUvarint {n : Nat} (bound : n ≤ maxBlockSize) :
    1 ≤ (putUvarint n).length ∧ (putUvarint n).length ≤ 4 ∧
    (n < 512 → (putUvarint n).length ≤ 2) := by
  have limit : n < 2 ^ 28 := Nat.lt_of_le_of_lt bound (by decide)
  exact ⟨Leb128.encode_pos n, Leb128.length_encode_le (n := 4) (by decide) limit, fun short =>
    Leb128.length_encode_le (n := 2) (by decide) (short.trans (by decide))⟩

theorem room_block {n : Nat} (long : 16 ≤ n) (bound : n ≤ maxBlockSize) : Room n (blockRoom n) := by
  have head := length_putUvarint bound
  refine ⟨long, bound, ?_, ?_⟩
  · rw [blockRoom]
    omega
  · intro short
    have := head.2.2 short
    rw [blockRoom]
    omega

theorem room_chunk {n : Nat} (long : 16 ≤ n) (bound : n ≤ maxBlockSize) : Room n (chunkRoom n) := by
  have room := room_block long bound
  have slice := room.slice
  have short := room.short
  have le : blockRoom n ≤ chunkRoom n := by
    rw [blockRoom, chunkRoom]
    omega
  exact ⟨long, bound, by omega, fun h => by have := short h; omega⟩

theorem minlzDecode_of_token {src : Slice} {body : List UInt8}
    (decodes : Token.decode (Slice.ofList body) src.len = some src.toList) (mem : Nat → UInt8) :
    ∃ dst, minlzDecode mem src.len (Slice.ofList body) = .ok dst ∧
      dst.list 0 src.len = src.toList := by
  have yields := Decode.minlzDecode_yields (Slice.ofList body) src.len mem
  rwa [decodes] at yields

section Decoding

variable {src : Slice} (bound : src.len ≤ maxBlockSize)
include bound

theorem getUvarint_len (body : List UInt8) :
    getUvarint (putUvarint src.len ++ body) = some (src.len, (putUvarint src.len).length) :=
  getUvarint_put (lt_of_le_of_lt bound (by decide)) body

theorem appendDecoded_block {body : List UInt8} (some : 1 ≤ body.length)
    (short : body.length ≤ src.len)
    (decodes : Token.decode (Slice.ofList body) src.len = .some src.toList) (mem : Nat → UInt8)
    (out : List UInt8) :
    appendDecoded mem out (0 :: putUvarint src.len ++ body) = .ok (out ++ src.toList) := by
  obtain ⟨dst, run, same⟩ := minlzDecode_of_token decodes mem
  have limit : src.len ≤ 0xffffffff := bound.trans (by decide)
  have full : body ≠ [] := List.ne_nil_of_length_pos some
  have varint := Leb128.encode_pos src.len
  have parsed : parseHeader (0 :: putUvarint src.len ++ body) = .ok (false, body, src.len) := by
    rw [List.cons_append, parseHeader]
    · rw [if_neg (by simp), getUvarint_len bound]
      simp only [List.drop_left, full, if_false]
      rw [if_neg (by omega), if_neg (by omega), if_neg (by omega), if_neg (by omega)]
    · intro empty
      have := congrArg List.length empty
      rw [List.length_append, List.length_nil, putUvarint] at this
      omega
  rw [appendDecoded, parsed]
  simp [run, same]

theorem appendDecodedChunkBody_chunk {body : List UInt8} (long : 1 ≤ src.len)
    (short : body.length ≤ src.len)
    (decodes : Token.decode (Slice.ofList body) src.len = .some src.toList) (mem : Nat → UInt8)
    (out : List UInt8) :
    appendDecodedChunkBody mem out (putUvarint src.len ++ body) = .ok (out ++ src.toList) := by
  obtain ⟨dst, run, same⟩ := minlzDecode_of_token decodes mem
  have limit : src.len ≤ 0xffffffff := bound.trans (by decide)
  have parsed : splitChunkBody (putUvarint src.len ++ body) = .ok (src.len, body) := by
    rw [splitChunkBody, getUvarint_len bound]
    simp only [List.drop_left]
    rw [if_neg (by omega), if_neg (by omega), if_neg (by omega), if_neg (by omega)]
  rw [appendDecodedChunkBody, parsed]
  simp [run, same]

end Decoding

theorem appendDecoded_uncompressed (mem : Nat → UInt8) (out : List UInt8) (src : Slice) :
    appendDecoded mem out (encodeUncompressed [] src) = .ok (out ++ src.toList) := by
  rw [encodeUncompressed]
  by_cases empty : src.len = 0
  · have none : src.toList = [] := List.eq_nil_of_length_eq_zero (by rw [src.length_toList, empty])
    simp [empty, none, appendDecoded, parseHeader]
  · have full : src.toList ≠ [] := by
      intro none
      have := src.length_toList
      rw [none] at this
      exact empty this.symm
    have zero : getUvarint (0 :: src.toList) = some (0, 1) :=
      getUvarint_put (v := 0) (by decide) src.toList
    simp [empty, appendDecoded, parseHeader, zero, full]

theorem encodeUncompressed_append (dst : List UInt8) (src : Slice) :
    encodeUncompressed dst src = dst ++ encodeUncompressed [] src := by
  rw [encodeUncompressed, encodeUncompressed]
  split_ifs <;> simp

theorem length_encodeUncompressed (src : Slice) :
    (encodeUncompressed [] src).length ≤ src.len + 2 ∧
    (src.len = 0 → (encodeUncompressed [] src).length ≤ 1) := by
  rw [encodeUncompressed]
  split_ifs <;> simp
  omega

/-- The bytes that a truncated encoding leaves. -/
theorem take_body (head : List UInt8) {body : Slice} {n : Nat} (fits : n ≤ body.len) :
    (head ++ body.toList).take (head.length + n) = head ++ body.list 0 n := by
  rw [List.take_length_add_append, Slice.toList, Slice.take_list _ _ _ _ fits]

section Appending

variable {level : Level} {src : Slice} (bound : src.len ≤ maxBlockSize)
include bound

theorem maxEncodedLen_eq (long : 1 ≤ src.len) : maxEncodedLen src.len = some (src.len + 2) := by
  rw [maxEncodedLen, if_neg (by omega), if_neg (by omega)]

theorem appendsBlock_uncompressed {dst : List UInt8}
    (run : appendEncoded level dst src = .ok (encodeUncompressed dst src)) :
    AppendsBlock level dst src := by
  have size := length_encodeUncompressed src
  rw [encodeUncompressed_append] at run
  by_cases empty : src.len = 0
  · exact ⟨_, 1, run, by rw [empty]; rfl, size.2 empty, fun mem out =>
      appendDecoded_uncompressed mem out src⟩
  · exact ⟨_, _, run, maxEncodedLen_eq bound (by omega), size.1, fun mem out =>
      appendDecoded_uncompressed mem out src⟩

theorem appendEncoded_ok (dst : List UInt8)
    (enc : 16 ≤ src.len →
      Encodes src (blockRoom src.len) (encodeBlock level (zeros (blockRoom src.len)) src)) :
    AppendsBlock level dst src := by
  by_cases tiny : src.len < minNonLiteralBlockSize
  · apply appendsBlock_uncompressed bound
    rw [appendEncoded]
    by_cases empty : src.len = 0
    · simp [maxEncodedLen, empty, minNonLiteralBlockSize]
    · simp [maxEncodedLen_eq bound (by omega), tiny]
  · have long : 16 ≤ src.len := Nat.not_lt.mp tiny
    have head := length_putUvarint bound
    have room : dst.length + (src.len + 2) - (dst ++ 0 :: putUvarint src.len).length =
        blockRoom src.len := by
      rw [blockRoom, List.length_append, List.length_cons]
      omega
    obtain ⟨⟨body, n⟩, run, len, result⟩ := enc long
    have whole : appendEncoded level dst src = .ok (if n > 0 then
        dst ++ (0 :: putUvarint src.len ++ body.list 0 n) else encodeUncompressed dst src) := by
      rw [appendEncoded, maxEncodedLen_eq bound (by omega)]
      simp only [tiny, if_false]
      rw [sub_ok (by rw [List.length_append, List.length_cons]; omega), ok_bind, room, run]
      simp only [ok_bind]
      split_ifs with some
      · rw [take_body _ (by omega), List.append_assoc]
        rfl
      · rfl
    by_cases some : n > 0
    · obtain ⟨fits, decodes⟩ := result.resolve_left (by omega)
      rw [blockRoom] at fits
      rw [if_pos some] at whole
      refine ⟨_, _, whole, maxEncodedLen_eq bound (by omega), ?_, fun mem out => ?_⟩
      · simp only [List.length_append, List.length_cons, Slice.length_list]
        omega
      · exact appendDecoded_block bound (by rwa [Slice.length_list])
          (by rw [Slice.length_list]; omega) decodes mem out
    · rw [if_neg some] at whole
      exact appendsBlock_uncompressed bound whole

theorem tryEncode_ok (dst : List UInt8)
    (enc : 16 ≤ src.len →
      Encodes src (blockRoom src.len) (encodeBlock level (zeros (blockRoom src.len)) src)) :
    TriesBlock level dst src := by
  by_cases tiny : src.len < minNonLiteralBlockSize
  · left
    rw [tryEncode]
    by_cases empty : src.len = 0
    · simp [maxEncodedLen, empty, minNonLiteralBlockSize]
    · simp [maxEncodedLen_eq bound (by omega), tiny]
  · have long : 16 ≤ src.len := Nat.not_lt.mp tiny
    have room : dst.length + (src.len + 2) - (dst ++ 0 :: putUvarint src.len).length =
        blockRoom src.len := by
      rw [blockRoom, List.length_append, List.length_cons]
      omega
    have head := length_putUvarint bound
    obtain ⟨⟨body, n⟩, run, len, result⟩ := enc long
    have short : (dst ++ 0 :: putUvarint src.len).length - dst.length =
        1 + (putUvarint src.len).length := by
      rw [List.length_append, List.length_cons]
      omega
    have whole : tryEncode level dst src =
        .ok (if n > 0 ∧ 1 + (putUvarint src.len).length + n < src.len then
          (dst ++ (0 :: putUvarint src.len ++ body.list 0 n), true) else (dst, false)) := by
      rw [tryEncode, maxEncodedLen_eq bound (by omega)]
      simp only [tiny, if_false]
      rw [sub_ok (by rw [List.length_append, List.length_cons]; omega), ok_bind, room, run]
      simp only [ok_bind, short]
      split_ifs with some
      · rw [take_body _ (by omega), List.append_assoc]
        rfl
      · rfl
    split_ifs at whole with some
    · obtain ⟨fits, decodes⟩ := result.resolve_left (by omega)
      have appended : appendEncoded level dst src =
          .ok (dst ++ (0 :: putUvarint src.len ++ body.list 0 n)) := by
        rw [appendEncoded, maxEncodedLen_eq bound (by omega)]
        simp only [tiny, if_false]
        rw [sub_ok (by rw [List.length_append, List.length_cons]; omega), ok_bind, room, run]
        simp only [ok_bind, if_pos some.1]
        rw [take_body _ (by omega), List.append_assoc]
        rfl
      refine .inr ⟨_, whole, ?_, appended, fun mem out => ?_⟩
      · simp only [List.length_append, List.length_cons, Slice.length_list]
        omega
      · exact appendDecoded_block bound (by rw [Slice.length_list]; omega)
          (by rw [Slice.length_list]; omega) decodes mem out
    · exact .inl whole

theorem appendEncodedChunkBody_ok (dst : List UInt8)
    (enc : 16 ≤ src.len →
      Encodes src (chunkRoom src.len) (encodeBlock level (zeros (chunkRoom src.len)) src)) :
    AppendsChunk level dst src := by
  by_cases tiny : src.len < minNonLiteralBlockSize
  · left
    rw [appendEncodedChunkBody]
    simp [tiny]
  · have long : 16 ≤ src.len := Nat.not_lt.mp tiny
    have head := length_putUvarint bound
    have room : dst.length + (src.len + 2) - (dst ++ putUvarint src.len).length =
        chunkRoom src.len := by
      rw [chunkRoom, List.length_append]
      omega
    obtain ⟨⟨body, n⟩, run, len, result⟩ := enc long
    have whole : appendEncodedChunkBody level dst src =
        .ok (if n > 0 ∧ (putUvarint src.len).length + n < src.len then
          (dst ++ (putUvarint src.len ++ body.list 0 n), true) else (dst, false)) := by
      rw [appendEncodedChunkBody, maxEncodedLen_eq bound (by omega)]
      simp only [tiny, if_false]
      rw [sub_ok (by rw [List.length_append]; omega), ok_bind, room, run]
      simp only [ok_bind, List.length_append, Nat.add_sub_cancel_left]
      split_ifs with some
      · rw [← List.length_append, take_body _ (by omega), List.append_assoc]
        rfl
      · rfl
    split_ifs at whole with some
    · obtain ⟨fits, decodes⟩ := result.resolve_left (by omega)
      refine .inr ⟨_, whole, ?_, fun mem out => ?_⟩
      · simpa using some.2
      · exact appendDecodedChunkBody_chunk bound (by omega)
          (by rw [Slice.length_list]; omega) decodes mem out
    · exact .inl whole

end Appending

/-- At the fastest level every block and chunk body round trips, whatever is in
    `dst`; as runs that return, they make no access outside `src` or their slice
    and no subtraction underflows. -/
theorem fastest_round_trips (dst : List UInt8) (src : Slice) (bound : src.len ≤ maxBlockSize) :
    AppendsBlock .fastest dst src ∧ AppendsChunk .fastest dst src :=
  ⟨appendEncoded_ok bound dst fun long => L1.encodeBlock_ok (room_block long bound) rfl,
    appendEncodedChunkBody_ok bound dst fun long => L1.encodeBlock_ok (room_chunk long bound) rfl⟩

/-- A run of equal bytes, of which the encoder makes a literal, a repeat and two bytes more. -/
theorem fastest_round_trips_run :
    AppendsBlock .fastest [7] (Slice.ofList (List.replicate 32 9)) ∧
      AppendsChunk .fastest [7] (Slice.ofList (List.replicate 32 9)) ∧
      appendEncoded .fastest [7] (Slice.ofList (List.replicate 32 9)) =
        .ok [7, 0, 32, 0, 9, 228, 8, 9, 9] := by
  obtain ⟨block, chunk⟩ := fastest_round_trips [7] (Slice.ofList (List.replicate 32 9)) (by decide)
  exact ⟨block, chunk, by decide +kernel⟩

/-- The same at the balanced level. -/
theorem balanced_round_trips (dst : List UInt8) (src : Slice) (bound : src.len ≤ maxBlockSize) :
    AppendsBlock .balanced dst src ∧ AppendsChunk .balanced dst src :=
  ⟨appendEncoded_ok bound dst fun long => L2.encodeBlock_ok (room_block long bound) rfl,
    appendEncodedChunkBody_ok bound dst fun long => L2.encodeBlock_ok (room_chunk long bound) rfl⟩

/-- The same bytes as a literal and one long repeat. -/
theorem balanced_round_trips_run :
    AppendsBlock .balanced [7] (Slice.ofList (List.replicate 32 9)) ∧
      AppendsChunk .balanced [7] (Slice.ofList (List.replicate 32 9)) ∧
      appendEncoded .balanced [7] (Slice.ofList (List.replicate 32 9)) =
        .ok [7, 0, 32, 0, 9, 61, 0, 13] := by
  obtain ⟨block, chunk⟩ := balanced_round_trips [7] (Slice.ofList (List.replicate 32 9)) (by decide)
  exact ⟨block, chunk, by decide +kernel⟩

theorem fastest_tries (dst : List UInt8) (src : Slice) (bound : src.len ≤ maxBlockSize) :
    TriesBlock .fastest dst src :=
  tryEncode_ok bound dst fun long => L1.encodeBlock_ok (room_block long bound) rfl

theorem balanced_tries (dst : List UInt8) (src : Slice) (bound : src.len ≤ maxBlockSize) :
    TriesBlock .balanced dst src :=
  tryEncode_ok bound dst fun long => L2.encodeBlock_ok (room_block long bound) rfl

/-- A block with a zero varint for its length, whose literals are past the cap. -/
def LongLiteral (src : List UInt8) : Prop :=
  ∃ rest n, src = 0 :: rest ∧ getUvarint rest = some (0, n) ∧
    maxBlockSize < (rest.drop n).length

theorem parseHeader_long {src rest : List UInt8} {n : Nat} (zero : src = 0 :: rest)
    (read : getUvarint rest = some (0, n)) (long : maxBlockSize < (rest.drop n).length) :
    parseHeader src = .ok (true, rest.drop n, (rest.drop n).length) := by
  subst zero
  have some : rest.drop n ≠ [] := List.length_pos_iff.mp (by omega)
  have more : rest ≠ [] := by
    rintro rfl
    exact some List.drop_nil
  obtain ⟨b, tail, rfl⟩ := List.exists_cons_of_ne_nil more
  simp only [parseHeader]
  rw [if_neg (by simp), read]
  simp only
  rw [if_neg (by simp), if_neg (by simp), if_neg some, if_pos trivial]

/-- What the header of a block says. -/
theorem parseHeader_ok {src body : List UInt8} {literals : Bool} {dlen : Nat}
    (h : parseHeader src = .ok (literals, body, dlen)) :
    src.head? = some 0 ∧ (literals = true → dlen = body.length) ∧
      (¬LongLiteral src → dlen ≤ maxBlockSize) := by
  rcases src with _ | ⟨b, _ | ⟨b1, tail⟩⟩
  · cases h
  · simp only [parseHeader] at h
    split at h
    · next zero =>
        cases h
        exact ⟨by rw [zero]; rfl, fun _ => rfl, fun _ => Nat.zero_le _⟩
    · cases h
  · simp only [parseHeader] at h
    split at h
    · cases h
    · next zero =>
        obtain rfl : b = 0 := not_not.mp zero
        cases read : getUvarint (b1 :: tail) with
        | none =>
            rw [read] at h
            cases h
        | some r =>
            obtain ⟨v, n⟩ := r
            rw [read] at h
            simp only at h
            split_ifs at h with large capped empty literal shorter <;> cases h
            · refine ⟨rfl, fun _ => rfl, fun short => Nat.not_lt.mp fun long => short ?_⟩
              exact ⟨b1 :: tail, n, rfl, by rw [read, literal], long⟩
            · exact ⟨rfl, fun h => absurd h Bool.false_ne_true, fun _ => Nat.not_lt.mp capped⟩

/-- What is decoded has the length that the header says. -/
theorem decode_ok {mem : Nat → UInt8} {src out : List UInt8} (h : decode mem src = .ok out) :
    ∃ literals body, parseHeader src = .ok (literals, body, out.length) := by
  rw [decode, appendDecoded] at h
  cases header : parseHeader src with
  | error e =>
      rw [header] at h
      cases h
  | ok r =>
      obtain ⟨literals, body, dlen⟩ := r
      rw [header, ok_bind] at h
      cases literals with
      | true =>
          cases h
          exact ⟨true, body, by rw [(parseHeader_ok header).2.1 rfl]; rfl⟩
      | false =>
          simp only [Bool.false_eq_true, if_false] at h
          cases run : minlzDecode mem dlen (Slice.ofList body) with
          | error e =>
              rw [run] at h
              cases h
          | ok dst =>
              rw [run] at h
              cases h
              exact ⟨false, body, by rw [List.nil_append, Slice.length_list]⟩

/-- What is decoded has the length that the header gives and the format allows, unless it
    is a run of literals that is too long: that is not checked. -/
theorem decode_capped_iff (mem : Nat → UInt8) (src : List UInt8) :
    (∀ out, decode mem src = .ok out → decodedLen src = .ok out.length ∧
      isMinlz src = .ok (some out.length) ∧ out.length ≤ maxBlockSize) ↔ ¬LongLiteral src := by
  constructor
  · rintro capped ⟨rest, n, zero, read, long⟩
    have header := parseHeader_long zero read long
    have accepted : decode mem src = .ok (rest.drop n) := by
      rw [decode, appendDecoded, header]
      rfl
    have := (capped _ accepted).2.2
    omega
  · intro short out accepted
    obtain ⟨literals, body, header⟩ := decode_ok accepted
    obtain ⟨zero, _, cap⟩ := parseHeader_ok header
    have length : decodedLen src = .ok out.length := by
      rw [decodedLen, header]
      rfl
    refine ⟨length, ?_, cap short⟩
    cases src with
    | nil => cases zero
    | cons b rest =>
        cases zero
        rw [isMinlz, if_neg (by simp), length]
        rfl

/-- A literal block of one byte more than a block may have. -/
theorem decode_past_cap :
    decode (fun _ => 0) (0 :: 0 :: List.replicate (maxBlockSize + 1) 7) =
        .ok (List.replicate (maxBlockSize + 1) 7) ∧
      ¬(List.replicate (maxBlockSize + 1) (7 : UInt8)).length ≤ maxBlockSize := by
  constructor
  · have header : parseHeader (0 :: 0 :: List.replicate (maxBlockSize + 1) 7) =
        .ok (true, List.replicate (maxBlockSize + 1) 7, maxBlockSize + 1) := by
      have read : getUvarint (0 :: List.replicate (maxBlockSize + 1) 7) = some (0, 1) := rfl
      have long := parseHeader_long rfl read (by
        rw [List.drop_succ_cons, List.drop_zero, List.length_replicate]
        omega)
      rwa [List.drop_succ_cons, List.drop_zero, List.length_replicate] at long
    rw [decode, appendDecoded, header]
    rfl
  · rw [List.length_replicate]
    omega

end MinLz.Block
