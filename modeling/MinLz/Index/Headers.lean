import MinLz.Index.Stored

/-! # Bare and framed indexes

An index may be kept without the chunk around it. `ReadSeeker::new` tells the two
forms apart by the index header; no bare index looks framed, since the header would
have to lie across its varints.
-/

namespace MinLz.Index

open Machine (Overflow maxSigned ofWord Fits zigzag)
open MinLz.Stream (chunkLength readChunkLen)
open Effects Loop

/-- The payload of a chunk; `none` when it is malformed. -/
def removeIndexHeaders (b : List UInt8) : Exec (Option (List UInt8)) := do
  if b.length ≤ 4 + indexHeader.length + indexTrailer.length + 4 then return none
  if (← byteAt b 0) ≠ chunkTypeIndex then return none
  let chunkLen := readChunkLen (← byteAt b 1) (← byteAt b 2) (← byteAt b 3)
  let b ← sliceFrom b 4
  if b.length < chunkLen then return none
  let b ← sliceTo b chunkLen
  if (← sliceTo b indexHeader.length) ≠ indexHeader then return none
  let b ← sliceFrom b indexHeader.length
  if ¬indexTrailer <:+ b then return none
  let b ← sliceTo b (b.length - indexTrailer.length)
  if b.length < 4 then return none
  return some (← sliceTo b (b.length - 4))

/-- Wrap a payload into a chunk again. -/
def restoreIndexHeaders (input : List UInt8) : List UInt8 :=
  if input = [] then [] else putChunk input

/-- Whether `b` starts like a framed index. -/
def looksLikeFullIndexChunk (b : List UInt8) : Bool :=
  if b.length < 4 + indexHeader.length then false
  else if b[0]? ≠ some chunkTypeIndex ∧ b[0]? ≠ some legacyIndexChunk then false
  else (b.drop 4).take indexHeader.length = indexHeader

/-- The index of a new `ReadSeeker` over `data`. -/
def seekerIndex (m : Overflow) (data indexBytes : List UInt8) : Exec Index :=
  let loading : Load Unit :=
    if indexBytes ≠ [] then
      if looksLikeFullIndexChunk indexBytes then discard (load m indexBytes)
      else
        let restored := restoreIndexHeaders indexBytes
        if restored = [] then
          liftM (fail (.io ⟨.invalidData, "minlz: empty index payload"⟩) : Exec Unit)
        else discard (load m restored)
    else loadStream m data
  match loading {} with
  | .ok _ index => .ok index
  | .error e _ => .error e

theorem removeIndexHeaders_putChunk {payload : List UInt8} (some : payload ≠ [])
    (small : payload.length + 16 < 2 ^ 24) :
    removeIndexHeaders (putChunk payload) = .ok (.some payload) := by
  have header : indexHeader.length = 6 := rfl
  have trailer : indexTrailer.length = 6 := rfl
  have pos := List.length_pos_of_ne_nil some
  obtain ⟨b1, b2, b3, rest, bytes, chunkLen, rest_eq⟩ := putChunk_bytes payload []
  rw [List.append_nil] at bytes rest_eq
  have length : rest.length = payload.length + 10 := by
    rw [rest_eq]
    simp only [List.length_append, Slice.length_leBytes]
    omega
  have from_four : sliceFrom (chunkTypeIndex :: b1 :: b2 :: b3 :: (indexHeader ++ rest)) 4 =
      .ok (indexHeader ++ rest) := sliceFrom_ok (Nat.le_add_left _ _)
  have whole : (indexHeader ++ rest).length = payload.length + 16 := by
    rw [List.length_append]
    omega
  have long : ¬(chunkTypeIndex :: b1 :: b2 :: b3 :: (indexHeader ++ rest)).length ≤
      4 + indexHeader.length + indexTrailer.length + 4 := by
    simp only [List.length_cons, whole]
    omega
  have body : (indexHeader ++ rest).take (payload.length + 16) = indexHeader ++ rest := by
    rw [← whole, List.take_length]
  have ends : ¬¬indexTrailer <:+ rest := by
    rw [not_not, rest_eq, ← List.append_assoc]
    exact List.suffix_append _ _
  have cut : rest.take (rest.length - indexTrailer.length) =
      payload ++ Slice.leBytes 4 (payload.length + 20) := by
    rw [rest_eq, ← List.append_assoc, List.length_append, Nat.add_sub_cancel, List.take_left]
  have stored : (payload ++ Slice.leBytes 4 (payload.length + 20)).length =
      payload.length + 4 := by
    rw [List.length_append, Slice.length_leBytes]
  rw [bytes, removeIndexHeaders, if_neg long]
  simp only [ok_bind, byteAt, List.getElem?_cons_zero, List.getElem?_cons_succ]
  rw [if_neg (not_not.mpr rfl), from_four, ok_bind, chunkLen, Nat.mod_eq_of_lt small,
    if_neg (by omega), sliceTo_ok (by omega), ok_bind, body,
    sliceTo_ok (by rw [List.length_append]; omega), ok_bind, List.take_left,
    if_neg (not_not.mpr rfl), sliceFrom_ok (by rw [List.length_append]; omega), ok_bind,
    List.drop_left, if_neg ends, sliceTo_ok (Nat.sub_le _ _), ok_bind, cut, if_neg (by omega),
    stored, Nat.add_sub_cancel, sliceTo_ok (by omega), ok_bind, List.take_left]
  rfl

theorem looksLike_putChunk (payload : List UInt8) :
    looksLikeFullIndexChunk (putChunk payload) = true := by
  have header : indexHeader.length = 6 := rfl
  obtain ⟨b1, b2, b3, rest, bytes, _⟩ := putChunk_bytes payload []
  rw [List.append_nil] at bytes
  rw [bytes, looksLikeFullIndexChunk, if_neg, if_neg]
  · simp only [List.drop_succ_cons, List.drop_zero, List.take_left, decide_true]
  · exact fun h => h.1 rfl
  · simp only [List.length_cons, List.length_append]
    omega

/-- A framed index has its header where it belongs. -/
theorem looksLike_bytes {b : List UInt8} (framed : looksLikeFullIndexChunk b = true) :
    (b[0]? = some 0x40 ∨ b[0]? = some 0x99) ∧ b[4]? = some 0x73 ∧ b[5]? = some 0x32 ∧
      b[6]? = some 0x69 := by
  rw [looksLikeFullIndexChunk] at framed
  split at framed
  · cases framed
  · split at framed
    · cases framed
    · next kind =>
        have header : (b.drop 4).take 6 = indexHeader := of_decide_eq_true framed
        have byte (i : Nat) (h : i < 6) : b[4 + i]? = indexHeader[i]? := by
          rw [← header, List.getElem?_take_of_lt h, List.getElem?_drop]
        refine ⟨?_, byte 0 (by omega), byte 1 (by omega), byte 2 (by omega)⟩
        by_contra neither
        exact kind ⟨fun h => neither (.inl h), fun h => neither (.inr h)⟩

theorem varint_past {v : Int} {t : List UInt8} {i : Nat} {x : UInt8}
    (at_i : (putVarint v ++ t)[i]? = some x) (low : x.toNat < 128) :
    (putVarint v).length = i + 1 ∧ (putVarint v)[i]? = some x ∨
      (putVarint v).length ≤ i ∧ t[i - (putVarint v).length]? = some x :=
  Leb128.encode_past (zigzag v) at_i low

/-- The position of a byte behind an encoding of `n` bytes. -/
theorem behind {v : Int} {t : List UInt8} {i n : Nat} {x : UInt8}
    (at_i : (putVarint v ++ t)[i]? = some x) (length : (putVarint v).length = n) (le : n ≤ i) :
    t[i - n]? = some x := by
  rwa [List.getElem?_append_right (by omega), length] at at_i

/-- A total that starts as a framed index does is a single byte, since an even value never
    starts with 0x99. -/
theorem single_total {total : Int} {t : List UInt8} (fits : Fits total) (pos : 0 ≤ total)
    (kind : (putVarint total ++ t)[0]? = some 0x40 ∨ (putVarint total ++ t)[0]? = some 0x99) :
    (putVarint total).length = 1 := by
  have some : 1 ≤ (putVarint total).length := Leb128.encode_pos (zigzag total)
  rw [List.getElem?_append_left some] at kind
  rcases kind with current | legacy
  · rw [← List.append_nil (putVarint total)] at current
    rcases varint_past current (by decide) with ⟨one, _⟩ | ⟨none, _⟩
    · exact one
    · omega
  · have even := Machine.zigzag_nonneg pos fits
    have low := Leb128.encode_head (zigzag total) legacy
    have byte : (0x99 : UInt8).toNat = 153 := rfl
    omega

/-- The header of a framed index would lie across the varints of a bare one: it is
    read as a count that is odd or as a flag that is neither 0 nor 1. -/
theorem looksLike_payload {totalUncomp totalComp est : Int} {count : Nat} {has : UInt8}
    {columns : List UInt8} (uncomp : Fits totalUncomp) (uncomp_pos : 0 ≤ totalUncomp)
    (range : Fits count) (valid : has = 0 ∨ has = 1) :
    looksLikeFullIndexChunk (putVarint totalUncomp ++ (putVarint totalComp ++ (putVarint est ++
      (putVarint count ++ (has :: columns))))) = false := by
  by_contra framed
  rw [Bool.not_eq_false] at framed
  obtain ⟨kind, four, five, six⟩ := looksLike_bytes framed
  have pos (v : Int) : 1 ≤ (putVarint v).length := Leb128.encode_pos (zigzag v)
  have pos_comp := pos totalComp
  have pos_est := pos est
  have pos_count := pos count
  have single := single_total uncomp uncomp_pos kind
  have three := behind four single (by omega)
  have four := behind five single (by omega)
  have five := behind six single (by omega)
  have flag {x : UInt8} {i : Nat} (first : i = 0) (at_i : (has :: columns)[i]? = some x) :
      x.toNat ≤ 1 := by
    subst first
    obtain rfl := Option.some.inj at_i
    rcases valid with rfl | rfl <;> decide
  have byte_three : (0x73 : UInt8).toNat = 115 := rfl
  have byte_four : (0x32 : UInt8).toNat = 50 := rfl
  have byte_five : (0x69 : UInt8).toNat = 105 := rfl
  have odd {x : UInt8} (first : (putVarint count)[0]? = some x)
      (one : (putVarint count).length = 1) : x.toNat = 2 * count := by
    rw [Leb128.encode_single (zigzag count) first one,
      Machine.zigzag_nonneg (Int.natCast_nonneg count) range, Int.toNat_natCast]
  -- where the varints end, by the first byte of the header that ends one
  rcases varint_past three (by decide) with ⟨comp_end, _⟩ | ⟨comp_le, three⟩
  · have four := behind four comp_end (by omega)
    have five := behind five comp_end (by omega)
    rcases varint_past four (by decide) with ⟨est_end, _⟩ | ⟨est_le, _⟩
    · have five := behind five est_end (by omega)
      rcases varint_past five (by decide) with ⟨count_end, first⟩ | ⟨count_le, _⟩
      · have := odd first count_end
        omega
      · omega
    · omega
  · have four := behind four rfl (by omega)
    have five := behind five rfl (by omega)
    rcases varint_past three (by decide) with ⟨est_end, _⟩ | ⟨est_le, three⟩
    · have four := behind four est_end (by omega)
      have five := behind five est_end (by omega)
      rcases varint_past four (by decide) with ⟨count_end, _⟩ | ⟨count_le, _⟩
      · have := flag (by omega) (behind five count_end (by omega))
        omega
      · omega
    · have four := behind four rfl (by omega)
      rcases varint_past three (by decide) with ⟨count_end, _⟩ | ⟨count_le, three⟩
      · have := flag (by omega) (behind four count_end (by omega))
        omega
      · have := flag (by omega) three
        omega

/-- A chunk that loads at all gives the same index whatever was loaded before. -/
theorem loads_again {m : Overflow} {self r start r' : Index} {buf b rest : List UInt8}
    {totalUncomp totalComp : Option Nat}
    (put : appendTo m self buf totalUncomp totalComp = .ok (r, buf ++ b))
    (loads : load m b start = .ok rest r') :
    ∃ payload, b = putChunk payload ∧ payload ≠ [] ∧ payload.length + 16 < 2 ^ 24 ∧
      looksLikeFullIndexChunk payload = false ∧ ∀ again, load m b again = .ok rest r' := by
  have entries := maxIndexEntries_eq
  have limit := maxSigned_eq
  obtain ⟨uncomp, comp, ⟨reduced, reduces, rfl⟩, payload, stored, out⟩ := appendTo_chunk m put
  obtain rfl := List.append_cancel_left out
  have few := reduce_few m reduces
  have size := length_putPayload m stored
  simp only at size few
  have small : payload.length + 16 < 2 ^ 24 := by omega
  obtain ⟨_, wire, has, columns, first, second, valid, rfl⟩ := putPayload_fields m stored
  obtain ⟨total, known, total_fits, _⟩ := optToWire_ok uncomp
  obtain ⟨_, known', comp_fits, _⟩ := optToWire_ok comp
  cases first.symm.trans known
  cases second.symm.trans known'
  have range : Fits (reduced.offsets.length : Nat) := Machine.fits_small (by omega)
  rw [← List.append_nil (putChunk _)] at loads
  obtain ⟨tail, c, s, c', again, totals, _⟩ := load_putChunk m loads
  simp only [List.append_assoc] at totals again
  obtain ⟨total_pos, est_pos, _, _, rfl, rfl⟩ := (loadTotals_reads m total_fits comp_fits
    (Machine.fits_ofWord reduced.estBlockUncomp) range (has :: columns ++ tail) start).ok totals
  have some := Leb128.encode_pos (zigzag wire)
  refine ⟨_, rfl, ?_, small, looksLike_payload total_fits total_pos range valid, fun self' => ?_⟩
  · apply List.ne_nil_of_length_pos
    simp only [List.length_append, List.length_cons]
    omega
  · rw [List.append_nil] at again
    apply again self'
    obtain ⟨n, total_eq⟩ := Int.eq_ofNat_of_zero_le total_pos
    obtain ⟨e, est_eq⟩ := Int.eq_ofNat_of_zero_le est_pos
    have est_fits := Machine.fits_ofWord reduced.estBlockUncomp
    rw [Fits] at total_fits est_fits
    rw [total_eq, est_eq, Int.toNat_natCast, Int.toNat_natCast, Int.toNat_natCast]
    exact loadTotals_put m self' (by omega) comp_fits (by omega) few _

/-- Framed or bare, a chunk that can be loaded gives one index, and a payload that
    fits a chunk survives being wrapped. -/
theorem headers_round_trip (m : Overflow) :
    (∀ (self r start r' : Index) (buf b rest : List UInt8) (totalUncomp totalComp : Option Nat),
      appendTo m self buf totalUncomp totalComp = .ok (r, buf ++ b) →
      load m b start = .ok rest r' →
      ∃ p, removeIndexHeaders b = .ok (some p) ∧ restoreIndexHeaders p = b ∧
        looksLikeFullIndexChunk b = true ∧ looksLikeFullIndexChunk p = false ∧
        ∀ data, seekerIndex m data b = .ok r' ∧ seekerIndex m data p = .ok r') ∧
    ∀ q : List UInt8, q ≠ [] → (restoreIndexHeaders q).length - skippableFrameHeader < 2 ^ 24 →
      removeIndexHeaders (restoreIndexHeaders q) = .ok (some q) := by
  constructor
  · intro self r start r' buf b rest totalUncomp totalComp put loads
    obtain ⟨payload, rfl, some, small, bare, again⟩ := loads_again put loads
    have framed : putChunk payload ≠ [] := List.cons_ne_nil _ _
    have restored : restoreIndexHeaders payload = putChunk payload := if_neg some
    have index : discard (load m (putChunk payload)) {} = .ok ⟨⟩ r' := bind_ok (again {})
    refine ⟨payload, removeIndexHeaders_putChunk some small, restored,
      looksLike_putChunk payload, bare, fun data => ⟨?_, ?_⟩⟩
    · simp only [seekerIndex, if_pos framed, looksLike_putChunk, if_true, index]
    · simp only [seekerIndex, if_pos some, bare, restored, if_neg framed, Bool.false_eq_true,
        if_false, index]
  · intro q some small
    have frame : skippableFrameHeader = 4 := rfl
    rw [restoreIndexHeaders, if_neg some] at small ⊢
    rw [length_putChunk] at small
    exact removeIndexHeaders_putChunk some (by omega)

theorem headers_round_trip_pair :
    (∃ p, removeIndexHeaders pairChunk = .ok (some p) ∧ restoreIndexHeaders p = pairChunk ∧
      looksLikeFullIndexChunk p = false ∧
      seekerIndex .panics [] pairChunk = .ok pair ∧ seekerIndex .panics [] p = .ok pair) ∧
    removeIndexHeaders (restoreIndexHeaders [1, 2, 3]) = .ok (some [1, 2, 3]) := by
  have put : appendTo .panics pair [] (some (3 <<< 20)) none = .ok (pair, [] ++ pairChunk) := rfl
  have loads : load .panics pairChunk {} = .ok [] pair := rfl
  obtain ⟨chunks, payloads⟩ := headers_round_trip .panics
  obtain ⟨p, removed, restored, _, bare, opens⟩ := chunks _ _ _ _ _ _ _ _ _ put loads
  exact ⟨⟨p, removed, restored, bare, opens []⟩, payloads [1, 2, 3] (by decide) (by decide)⟩

/-- A condition that does not hold rejects nothing. -/
theorem rejects_not {α : Type} {bad : Prop} [Decidable bad] (e : Error) (next : Load α) (self : Index)
    (h : ¬bad) : (do reject bad e; next : Load α) self = next self := by
  rw [reject_ok e h]
  rfl

/-- An index chunk at the end of the data is found there. -/
theorem loadStream_putChunk (m : Overflow) {payload rest : List UInt8} {self index : Index}
    (front : List UInt8) (fits : payload.length + 16 < 2 ^ 24)
    (loads : load m (putChunk payload) self = .ok rest index) :
    loadStream m (front ++ putChunk payload) self = .ok () index := by
  have header : indexHeader.length = 6 := rfl
  have trailer : indexTrailer.length = 6 := rfl
  obtain ⟨size, length⟩ : ∃ size, size = payload.length + 20 := ⟨_, rfl⟩
  obtain ⟨body, chunk, short⟩ : ∃ body, putChunk payload =
      body ++ (Slice.leBytes 4 size ++ indexTrailer) ∧ body.length + 10 = size := by
    refine ⟨chunkTypeIndex :: chunkLength (size - 4) ++ indexHeader ++ payload, ?_, ?_⟩
    · have same : 4 + indexHeader.length + payload.length + 4 + indexTrailer.length = size := by omega
      simp only [putChunk, same, List.append_assoc, skippableFrameHeader]
    · simp only [chunkLength, List.length_append, List.length_cons, List.length_nil]
      omega
  have whole : (front ++ putChunk payload).length = front.length + size := by
    rw [List.length_append, length_putChunk, length]
  have tail : (front ++ putChunk payload).drop (front.length + size - 10) =
      Slice.leBytes 4 size ++ indexTrailer := by
    have behind : front.length + size - 10 = (front ++ body).length := by
      rw [List.length_append]
      omega
    rw [chunk, ← List.append_assoc, behind, List.drop_left]
  have word : (Slice.ofList (Slice.leBytes 4 size ++ indexTrailer)).word 4 0 = size := by
    have holds : (Slice.ofList (Slice.leBytes 4 size ++ indexTrailer)).Holds 0
        (Slice.leBytes 4 size) := by
      intro k h
      have inside : k < (Slice.leBytes 4 size ++ indexTrailer).length := by
        rw [List.length_append]
        omega
      simp only [Slice.ofList, Nat.zero_add]
      rw [List.getD_eq_getElem _ _ inside, List.getElem_append_left h]
    have read := holds.word
    rwa [Nat.mod_eq_of_lt (by omega)] at read
  have last : (front ++ putChunk payload).drop (front.length + size - size) = putChunk payload := by
    rw [Nat.add_sub_cancel, List.drop_left]
  have marked : ((Slice.leBytes 4 size ++ indexTrailer).drop 4).take indexTrailer.length =
      indexTrailer := by
    rw [List.drop_left' (Slice.length_leBytes 4 _), List.take_length]
  have limit : MinLz.Stream.maxUserChunkSize + skippableFrameHeader = 2 ^ 24 + 3 := by decide
  have enough : ¬(front.length + size < 10) := by omega
  have capped : ¬(size > MinLz.Stream.maxUserChunkSize + skippableFrameHeader) := by omega
  have inside : ¬(front.length + size < size) := by omega
  simp only [loadStream, whole, tail, word, last]
  rw [rejects_not _ _ _ enough, rejects_not _ _ _ (not_not.mpr marked), rejects_not _ _ _ capped,
    rejects_not _ _ _ inside]
  exact bind_ok loads

/-- A stored index is what a seeker has that is given it. -/
theorem seekerIndex_stored {m : Overflow} {idx self : Index} {out : List UInt8}
    {totalUncomp totalComp : Option Nat}
    (put : appendTo m idx [] totalUncomp totalComp = .ok (self, out))
    (loads : load m out {} = .ok [] self) (data : List UInt8) : seekerIndex m data out = .ok self := by
  obtain ⟨payload, rfl, _, _, _, again⟩ := loads_again put loads
  have framed : putChunk payload ≠ [] := List.cons_ne_nil _ _
  have index : discard (load m (putChunk payload)) {} = .ok ⟨⟩ self := bind_ok (again {})
  simp only [seekerIndex, if_pos framed, looksLike_putChunk, if_true, index]

end MinLz.Index
