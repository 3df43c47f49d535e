import MinLz.Block.CodecCorrect
import MinLz.Block.RoomL3

/-! # The smallest level

The encoder of the smallest level stores at most six bytes more than its source has,
and the decoder takes back what it returns. The slices that the API hands it have no
such room. A run in them is right if what it stores fits, and stops where the slice
ends if it does not.
-/

namespace MinLz.Block

open Effects

/-- A run stores `bs` from the start of its slice and returns `n`, if the slice is long
    enough for `bs`; if not, it stops at a store past the end of the slice. -/
def Stores (encode : Slice → Exec (Slice × Nat)) (bs : List UInt8) (n : Nat) : Prop :=
  ∀ dst, (bs.length ≤ dst.len → encode dst = .ok (dst.splice 0 bs, n)) ∧
    (dst.len < bs.length → StoresPast (encode dst))

theorem list_splice_zero (dst : Slice) (bs : List UInt8) :
    (dst.splice 0 bs).list 0 bs.length = bs := by
  have taken := Slice.list_splice dst 0 bs.length bs le_rfl
  rwa [Nat.zero_add, List.take_length] at taken

/-- Nothing is stored for a tiny source. -/
theorem Stores.long {src : Slice} {bs : List UInt8} {n : Nat}
    (stores : Stores (fun dst => encodeBlock .smallest dst src) bs n) (some : 0 < bs.length) :
    ¬src.len < minNonLiteralBlockSize := by
  intro tiny
  have run : encodeBlock .smallest (zeros 0) src = .ok (zeros 0, 0) := if_pos tiny
  exact ((stores (zeros 0)).2 some).ne_ok _ run

theorem stores_ok {src : Slice} (bound : src.len ≤ maxBlockSize) : ∃ bs n,
    Stores (fun dst => encodeBlock .smallest dst src) bs n ∧ bs.length ≤ src.len + 6 ∧
      (n = 0 ∨ n = bs.length ∧ Token.decode (Slice.ofList bs) src.len = some src.toList) := by
  by_cases tiny : src.len < minNonLiteralBlockSize
  · refine ⟨[], 0, fun dst => ⟨fun _ => ?_, fun short => absurd short (Nat.not_lt_zero _)⟩,
      Nat.zero_le _, .inl rfl⟩
    rw [Slice.splice_nil]
    exact if_pos tiny
  · have long : 16 ≤ src.len := Nat.not_lt.mp tiny
    have limit : src.len < 2 ^ 24 := Nat.lt_of_le_of_lt bound (by decide)
    obtain ⟨bs, n, result, puts⟩ := L3.inner_puts limit long
    have block (dst : Slice) : encodeBlock .smallest dst src = L3.inner dst src := if_neg tiny
    have exits : Exits (L3.inner (zeros (src.len + 6)) src) _ _ := L3.inner_ok limit long rfl
    have fits : bs.length ≤ src.len + 6 := by
      by_contra past
      have bad := (puts (zeros (src.len + 6)) (Nat.zero_le _)).2 (by simp only [zeros]; omega)
      cases run : L3.inner (zeros (src.len + 6)) src with
      | error e => exact absurd (exits.error run).1 (lt_irrefl _)
      | ok r => exact bad.ne_ok r run
    refine ⟨bs, n, fun dst => ?_, fits, ?_⟩
    · simp only [block]
      simpa only [Nat.zero_add] using puts dst (Nat.zero_le _)
    · have run := (puts (zeros (src.len + 6)) (Nat.zero_le _)).1 (by simp only [zeros]; omega)
      rcases result with none | whole
      · exact .inl none
      · rcases (exits.ok run).2 with none | ⟨_, decodes⟩
        · exact .inl none
        · refine .inr ⟨whole, ?_⟩
          rwa [whole, list_splice_zero] at decodes

/-- A run of the smallest encoder ends, and makes no access outside `src`. It stores the
    same bytes whatever its slice, at most six more than `src` has, and fails only where the
    slice ends before them. The decoder takes them back to `src`, unless it returns 0. -/
theorem smallest_stores (src : Slice) (bound : src.len ≤ maxBlockSize) : ∃ bs n,
    Stores (fun dst => encodeBlock .smallest dst src) bs n ∧ bs.length ≤ src.len + 6 ∧
      (n = 0 ∨ n = bs.length ∧ ∀ mem, ∃ out,
        minlzDecode mem src.len (Slice.ofList bs) = .ok out ∧ out.list 0 src.len = src.toList) := by
  obtain ⟨bs, n, stores, fits, result⟩ := stores_ok bound
  refine ⟨bs, n, stores, fits, ?_⟩
  rcases result with none | ⟨whole, decodes⟩
  · exact .inl none
  · exact .inr ⟨whole, minlzDecode_of_token decodes⟩

/-- What is stored for forty zeros. -/
theorem zeros_stored {bs : List UInt8} {n : Nat}
    (stores : Stores (fun dst => encodeBlock .smallest dst (zeros 40)) bs n)
    (fits : bs.length ≤ 46) (whole : n = 0 ∨ n = bs.length) : bs = [0, 0, 236, 9] ∧ n = 4 := by
  have run : encodeBlock .smallest (zeros 46) (zeros 40) = .ok ((zeros 46).splice 0 bs, n) :=
    (stores (zeros 46)).1 fits
  have known : (encodeBlock .smallest (zeros 46) (zeros 40)).toOption.map
      (fun r => (r.1.list 0 4, r.2)) = some ([0, 0, 236, 9], 4) := by decide +kernel
  rw [run] at known
  obtain ⟨bytes, rfl⟩ := Prod.mk.inj (Option.some.inj known)
  have length : bs.length = 4 := by omega
  refine ⟨?_, rfl⟩
  rw [← bytes, ← length, list_splice_zero]

/-- Forty zeros are stored in four bytes; a slice of three is too short for them. -/
theorem smallest_stores_zeros :
    Stores (fun dst => encodeBlock .smallest dst (zeros 40)) [0, 0, 236, 9] 4 ∧
      StoresPast (encodeBlock .smallest (zeros 3) (zeros 40)) ∧
      ∀ mem, ∃ out, minlzDecode mem 40 (Slice.ofList [0, 0, 236, 9]) = .ok out ∧
        out.list 0 40 = (zeros 40).toList := by
  obtain ⟨bs, n, stores, fits, result⟩ := smallest_stores (zeros 40) (by decide)
  obtain ⟨rfl, rfl⟩ := zeros_stored stores fits (result.imp_right And.left)
  refine ⟨stores, (stores (zeros 3)).2 (by decide), ?_⟩
  rcases result with none | ⟨_, decodes⟩
  · cases none
  · exact decodes

section Appending

variable {src : Slice} {bs : List UInt8} {n : Nat} (bound : src.len ≤ maxBlockSize)
  (stores : Stores (fun dst => encodeBlock .smallest dst src) bs n)
include bound stores

theorem encodes_of_stores {size : Nat} (fits : bs.length ≤ size) :
    Encodes src size (encodeBlock .smallest (zeros size) src) := by
  exact ⟨_, (stores (zeros size)).1 fits,
    (L3.encodeBlock_ok bound).ok ((stores (zeros size)).1 fits)⟩

theorem appendEncoded_past (dst : List UInt8) (past : blockRoom src.len < bs.length) :
    StoresPast (appendEncoded .smallest dst src) := by
  have tiny := stores.long (Nat.zero_lt_of_lt past)
  have long : 16 ≤ src.len := Nat.not_lt.mp tiny
  have head := length_putUvarint bound
  have room : dst.length + (src.len + 2) - (dst ++ 0 :: putUvarint src.len).length =
      blockRoom src.len := by
    rw [blockRoom, List.length_append, List.length_cons]
    omega
  rw [appendEncoded, maxEncodedLen_eq bound (by omega)]
  simp only
  rw [if_neg tiny, sub_ok (by rw [List.length_append, List.length_cons]; omega),
    ok_bind, room]
  exact ((stores (zeros (blockRoom src.len))).2 past).bind

theorem appendEncodedChunkBody_past (dst : List UInt8) (past : chunkRoom src.len < bs.length) :
    StoresPast (appendEncodedChunkBody .smallest dst src) := by
  have tiny := stores.long (Nat.zero_lt_of_lt past)
  have long : 16 ≤ src.len := Nat.not_lt.mp tiny
  have head := length_putUvarint bound
  have room : dst.length + (src.len + 2) - (dst ++ putUvarint src.len).length =
      chunkRoom src.len := by
    rw [chunkRoom, List.length_append]
    omega
  rw [appendEncodedChunkBody, if_neg tiny, maxEncodedLen_eq bound (by omega)]
  simp only
  rw [sub_ok (by rw [List.length_append]; omega), ok_bind, room]
  exact ((stores (zeros (chunkRoom src.len))).2 past).bind

/-- At the smallest level a block and a chunk body round trip exactly when what the encoder
    stores fits in the slice that it is handed. When it does not, it is stored past the end. -/
theorem smallest_round_trips (dst : List UInt8) :
    (AppendsBlock .smallest dst src ↔ bs.length ≤ blockRoom src.len) ∧
    (AppendsChunk .smallest dst src ↔ bs.length ≤ chunkRoom src.len) ∧
    (blockRoom src.len < bs.length → StoresPast (appendEncoded .smallest dst src)) ∧
    (chunkRoom src.len < bs.length → StoresPast (appendEncodedChunkBody .smallest dst src)) := by
  refine ⟨⟨fun appends => ?_, fun fits => ?_⟩, ⟨fun appends => ?_, fun fits => ?_⟩,
    appendEncoded_past bound stores dst, appendEncodedChunkBody_past bound stores dst⟩
  · by_contra past
    obtain ⟨block, max, run, _⟩ := appends
    exact (appendEncoded_past bound stores dst (Nat.lt_of_not_le past)).ne_ok _ run
  · exact appendEncoded_ok bound dst fun _ => encodes_of_stores bound stores fits
  · by_contra past
    have bad := appendEncodedChunkBody_past bound stores dst (Nat.lt_of_not_le past)
    rcases appends with run | ⟨body, run, _⟩
    · exact bad.ne_ok _ run
    · exact bad.ne_ok _ run
  · exact appendEncodedChunkBody_ok bound dst fun _ => encodes_of_stores bound stores fits

end Appending

theorem smallest_round_trips_zeros :
    AppendsBlock .smallest [7] (zeros 40) ∧ AppendsChunk .smallest [7] (zeros 40) ∧
      appendEncoded .smallest [7] (zeros 40) = .ok [7, 0, 40, 0, 0, 236, 9] := by
  have bound : (zeros 40).len ≤ maxBlockSize := by decide
  obtain ⟨bs, n, stores, fits, result⟩ := stores_ok bound
  obtain ⟨rfl, rfl⟩ := zeros_stored stores fits (result.imp_right And.left)
  obtain ⟨block, chunk, _⟩ := smallest_round_trips bound stores [7]
  exact ⟨block.mpr (by decide), chunk.mpr (by decide), by decide +kernel⟩

end MinLz.Block
