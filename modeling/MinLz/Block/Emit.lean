import MinLz.Block.LoadStore
import MinLz.Block.Format

/-! # Emitting tokens

Each emitter writes at position `d` of the slice and returns the position after
what it wrote; the caller's `&mut dst[d..]` is the check it starts with. The
encoding of each token is stated once as a list of bytes: an emitter writes
that list when it fits, and stores past the end when it does not.
-/

namespace MinLz.Block

/-- The header of a literal run, by `n = lit.len() - 1`. -/
def literalHeader (dst : Slice) (d n : Nat) : Exec (Slice × Nat) := do
  if n ≤ 28 then
    let dst ← store8 dst d (n <<< 3 ||| tagLiteral)
    return (dst, d + 1)
  else if n ≤ 283 then
    let dst ← store8 dst (d + 1) (n - 29)
    let dst ← store8 dst d (29 <<< 3 ||| tagLiteral)
    return (dst, d + 2)
  else if n ≤ 65564 then
    let n2 := n - 29
    let dst ← store8 dst (d + 2) (n2 >>> 8)
    let dst ← store8 dst (d + 1) n2
    let dst ← store8 dst d (30 <<< 3 ||| tagLiteral)
    return (dst, d + 3)
  else if n ≤ 16777244 then
    let n2 := n - 29
    let dst ← store8 dst (d + 3) (n2 >>> 16)
    let dst ← store8 dst (d + 2) (n2 >>> 8)
    let dst ← store8 dst (d + 1) n2
    let dst ← store8 dst d (31 <<< 3 ||| tagLiteral)
    return (dst, d + 4)
  else .error (.fault .panic)

def emitLiteral (dst : Slice) (d : Nat) (lit : List UInt8) : Exec (Slice × Nat) := do
  sliceFrom dst d
  if lit.length = 0 then return (dst, d)
  let (dst, header) ← literalHeader dst d (lit.length - 1)
  let dst ← copyFromSlice dst header lit
  return (dst, header + lit.length)

def emitRepeat (dst : Slice) (d length : Nat) : Exec (Slice × Nat) := do
  sliceFrom dst d
  if length < 30 then
    let dst ← store8 dst d ((← sub length 1) <<< 3 ||| tagRepeat)
    return (dst, d + 1)
  let length := length - 30
  if length < 256 then
    let dst ← store8 dst (d + 1) length
    let dst ← store8 dst d (29 <<< 3 ||| tagRepeat)
    return (dst, d + 2)
  if length < 65536 then
    let dst ← store8 dst (d + 2) (length >>> 8)
    let dst ← store8 dst (d + 1) length
    let dst ← store8 dst d (30 <<< 3 ||| tagRepeat)
    return (dst, d + 3)
  let dst ← store8 dst (d + 3) (length >>> 16)
  let dst ← store8 dst (d + 2) (length >>> 8)
  let dst ← store8 dst (d + 1) length
  let dst ← store8 dst d (31 <<< 3 ||| tagRepeat)
  return (dst, d + 4)

def encodeCopy2 (dst : Slice) (d offset length : Nat) : Exec (Slice × Nat) := do
  let length ← sub length 4
  let offsetField ← sub offset minCopy2Offset
  let dst ← store16 dst (d + 1) offsetField
  if length ≤ 60 then
    let dst ← store8 dst d (length <<< 2 ||| tagCopy2)
    return (dst, d + 3)
  let length := length - 60
  if length < 256 then
    let dst ← store8 dst (d + 3) length
    let dst ← store8 dst d (61 <<< 2 ||| tagCopy2)
    return (dst, d + 4)
  if length < 65536 then
    let dst ← store8 dst (d + 4) (length >>> 8)
    let dst ← store8 dst (d + 3) length
    let dst ← store8 dst d (62 <<< 2 ||| tagCopy2)
    return (dst, d + 5)
  let dst ← store8 dst (d + 5) (length >>> 16)
  let dst ← store8 dst (d + 4) (length >>> 8)
  let dst ← store8 dst (d + 3) length
  let dst ← store8 dst d (63 <<< 2 ||| tagCopy2)
  return (dst, d + 6)

/-- Writes the tag only; fused literals are the caller's to append. -/
def encodeCopy3 (dst : Slice) (d offset length lits : Nat) : Exec (Slice × Nat) := do
  let length ← sub length 4
  let encoded := (← sub offset minCopy3Offset) <<< 11 ||| tagCopy3 ||| lits <<< 3
  if length ≤ 60 then
    let dst ← store32 dst d (encoded ||| length <<< 5)
    return (dst, d + 4)
  let length := length - 60
  if length < 256 then
    let dst ← store32 dst d (encoded ||| 61 <<< 5)
    let dst ← store8 dst (d + 4) length
    return (dst, d + 5)
  if length < 65536 then
    let dst ← store32 dst d (encoded ||| 62 <<< 5)
    let dst ← store16 dst (d + 4) length
    return (dst, d + 6)
  let dst ← store32 dst d (encoded ||| 63 <<< 5)
  let dst ← store8 dst (d + 4) length
  let dst ← store8 dst (d + 5) (length >>> 8)
  let dst ← store8 dst (d + 6) (length >>> 16)
  return (dst, d + 7)

def emitCopy (dst : Slice) (d offset length : Nat) : Exec (Slice × Nat) := do
  sliceFrom dst d
  if offset > maxCopy2Offset then encodeCopy3 dst d offset length 0
  else if offset ≤ maxCopy1Offset then
    let off ← sub offset 1
    if length < 15 + 4 then
      let dst ← store16 dst d (off <<< 6 ||| (← sub length 4) <<< 2 ||| tagCopy1)
      return (dst, d + 2)
    else if length < 256 + 18 then
      let dst ← store16 dst d (off <<< 6 ||| 15 <<< 2 ||| tagCopy1)
      let dst ← store8 dst (d + 2) (length - 18)
      return (dst, d + 3)
    else
      -- a Copy1 of 18 bytes, the rest as a repeat of it
      let dst ← store16 dst d (off <<< 6 ||| 14 <<< 2 ||| tagCopy1)
      emitRepeat dst (d + 2) (length - 18)
  else encodeCopy2 dst d offset length

/-- The tag and offset of a fused Copy2. -/
def fused2Head (dst : Slice) (d rawLen litField offField : Nat) : Exec (Slice × Nat) := do
  let tag := tagCopy2Fused ||| rawLen <<< 5 ||| litField <<< 3
  let dst ← store16 dst (d + 1) offField
  let dst ← store8 dst d tag
  return (dst, d + 3)

def emitCopyLits2 (dst : Slice) (d : Nat) (lits : List UInt8) (offset length : Nat) :
    Exec (Slice × Nat) := do
  sliceFrom dst d
  let offField ← sub offset minCopy2Offset
  let rawLen ← sub length 4
  let litField ← sub lits.length 1
  if rawLen > copy2LitMaxLen - 4 then
    -- a fused Copy2 of the longest length it can have, the rest as a repeat of it
    let (dst, n) ← fused2Head dst d (copy2LitMaxLen - 4) litField offField
    let dst ← copyFromSlice dst n lits
    emitRepeat dst (n + lits.length) (rawLen - (copy2LitMaxLen - 4))
  else
    let (dst, n) ← fused2Head dst d rawLen litField offField
    let dst ← copyFromSlice dst n lits
    return (dst, n + lits.length)

def emitCopyLits3 (dst : Slice) (d : Nat) (lits : List UInt8) (offset length : Nat) :
    Exec (Slice × Nat) := do
  sliceFrom dst d
  let (dst, n) ← encodeCopy3 dst d offset length lits.length
  let dst ← copyFromSlice dst n lits
  return (dst, n + lits.length)

def emitLiteralSizeN (n : Nat) : Nat :=
  if n = 0 then 0
  else if n ≤ 29 then 1
  else if n < 29 + (1 <<< 8) then 2
  else if n < 29 + (1 <<< 16) then 3
  else 4

def emitRepeatSize (length : Nat) : Nat :=
  if length = 0 then 0
  else if length ≤ 29 then 1
  else
    let length := length - 29
    if length ≤ 256 then 2
    else if length ≤ 65536 then 3
    else 4

def emitCopy2Size (length : Nat) : Exec Nat := do
  let length ← sub length 4
  if length ≤ 60 then return 3
  let length := length - 60
  if length < 256 then return 4
  if length < 65536 then return 5
  return 6

def emitCopySize (offset length : Nat) : Exec Nat :=
  if offset > 65536 + 63 then
    if length ≤ 64 then return 4
    else return 4 + (Nat.log2 (length - 64) + 1 + 7) / 8
  else if offset ≤ maxCopy1Offset then
    if length ≤ 18 then return 2
    else if length < 18 + 256 then return 3
    else return 2 + emitRepeatSize (length - 18)
  else emitCopy2Size length

/-- Extra bytes of a length past its short form: `v` in as few bytes as it
    takes, one at least. -/
def extraBytes (v : Nat) : Nat := if v < 256 then 1 else if v < 65536 then 2 else 3

/-- The head of a run of `length` bytes with `k` extra length bytes. -/
def runHead (kind length k : Nat) : List UInt8 :=
  if k = 0 then Slice.leBytes 1 ((length - 1) * 8 + kind)
  else Slice.leBytes 1 ((28 + k) * 8 + kind) ++ Slice.leBytes k (length - 30)

def literalExtra (n : Nat) : Nat :=
  if n ≤ 29 then 0 else if n ≤ 284 then 1 else if n ≤ 65565 then 2 else 3

def literalBytes (lit : List UInt8) : List UInt8 :=
  if lit.length = 0 then [] else runHead 0 lit.length (literalExtra lit.length) ++ lit

def repeatExtra (length : Nat) : Nat := if length < 30 then 0 else extraBytes (length - 30)

def repeatBytes (length : Nat) : List UInt8 := runHead 4 length (repeatExtra length)

def copyExtra (length : Nat) : Nat := if length ≤ 64 then 0 else extraBytes (length - 64)

/-- The length field of Copy2 and Copy3. -/
def copyField (length : Nat) : Nat := if length ≤ 64 then length - 4 else 60 + copyExtra length

def copy1Bytes (offset length : Nat) : List UInt8 :=
  if length < 19 then Slice.leBytes 2 ((offset - 1) * 64 + (length - 4) * 4 + 1)
  else Slice.leBytes 2 ((offset - 1) * 64 + 61) ++ Slice.leBytes 1 (length - 18)

def copy2Bytes (offset length : Nat) : List UInt8 :=
  Slice.leBytes 1 (copyField length * 4 + 2) ++ Slice.leBytes 2 (offset - minCopy2Offset) ++
    Slice.leBytes (copyExtra length) (length - 64)

def copy3Bytes (offset length lits : Nat) : List UInt8 :=
  Slice.leBytes 4 ((offset - minCopy3Offset) * 2048 + copyField length * 32 + lits * 8 + 7) ++
    Slice.leBytes (copyExtra length) (length - 64)

def fused2Bytes (lits : List UInt8) (offset length : Nat) : List UInt8 :=
  Slice.leBytes 1 ((length - 4) * 32 + (lits.length - 1) * 8 + 3) ++
    Slice.leBytes 2 (offset - minCopy2Offset) ++ lits

def copyBytes (offset length : Nat) : List UInt8 :=
  if offset > maxCopy2Offset then copy3Bytes offset length 0
  else if offset ≤ maxCopy1Offset then
    if length < 274 then copy1Bytes offset length
    else copy1Bytes offset 18 ++ repeatBytes (length - 18)
  else copy2Bytes offset length

def copyLits2Bytes (lits : List UInt8) (offset length : Nat) : List UInt8 :=
  if length ≤ copy2LitMaxLen then fused2Bytes lits offset length
  else fused2Bytes lits offset copy2LitMaxLen ++ repeatBytes (length - copy2LitMaxLen)

def copyLits3Bytes (lits : List UInt8) (offset length : Nat) : List UInt8 :=
  copy3Bytes offset length lits.length ++ lits

/-- A store past the end of its slice, raw or checked. -/
def PastEnd (e : Stop) : Prop := e = .fault .store ∨ e = .fault .room

/-- A run that stopped at a store past the end of its slice. -/
def StoresPast {α : Type} (r : Exec α) : Prop := ∃ e, r = .error e ∧ PastEnd e

/-- An emitter that writes `bs` at `d` when it fits and stores past the end otherwise. -/
structure Writes (r : Exec (Slice × Nat)) (dst : Slice) (d : Nat) (bs : List UInt8) : Prop where
  fits : d + bs.length ≤ dst.len → r = .ok (dst.splice d bs, d + bs.length)
  past : dst.len < d + bs.length → StoresPast r

section Stores

variable {α β : Type} {b : Slice} {i : Nat} {bs : List UInt8}

theorem StoresPast.ne_ok {r : Exec α} (h : StoresPast r) (a : α) : r ≠ .ok a := by
  obtain ⟨e, rfl, _⟩ := h
  exact fun same => by cases same

theorem StoresPast.bind {r : Exec α} {f : α → Exec β} (h : StoresPast r) : StoresPast (r >>= f) := by
  obtain ⟨e, rfl, past⟩ := h
  exact ⟨e, rfl, past⟩

theorem store_past {f : Slice → Exec α} (h : i + bs.length ≤ b.len → StoresPast (f (b.splice i bs))) :
    StoresPast (store b i bs >>= f) := by
  rw [store]
  split
  · next fits => exact h fits
  · exact ⟨_, rfl, .inl rfl⟩

theorem sliceFrom_past {f : Unit → Exec α} (h : i ≤ b.len → StoresPast (f ())) :
    StoresPast (sliceFrom b i >>= f) := by
  rw [sliceFrom]
  split
  · next fits => exact h fits
  · exact ⟨_, rfl, .inr rfl⟩

end Stores

theorem runHead_zero (kind length : Nat) :
    runHead kind length 0 = Slice.leBytes 1 ((length - 1) * 8 + kind) := rfl

theorem runHead_succ (kind length k : Nat) : runHead kind length (k + 1) =
    Slice.leBytes 1 ((29 + k) * 8 + kind) ++ Slice.leBytes (k + 1) (length - 30) := by
  rw [runHead, if_neg (Nat.succ_ne_zero k), Nat.add_comm k 1, ← Nat.add_assoc]

theorem length_runHead (kind length k : Nat) : (runHead kind length k).length = 1 + k := by
  cases k with
  | zero => simp [runHead_zero]
  | succ k => simp [runHead_succ]

theorem emitRepeat_writes (dst : Slice) (d : Nat) {length : Nat} (pos : 1 ≤ length) :
    Writes (emitRepeat dst d length) dst d (repeatBytes length) := by
  have small := Bits.shiftLeft_or 3 (length - 1) (b := tagRepeat) (by decide)
  constructor
  · intro fits
    rw [repeatBytes, length_runHead] at fits ⊢
    rw [emitRepeat, sliceFrom_ok (by omega)]
    simp only [ok_bind, store8, sub_ok pos, repeatExtra, extraBytes] at fits ⊢
    split_ifs at fits ⊢ <;>
      simp (disch := (simp only [Slice.len_splice, Slice.length_leBytes]; omega)) only
        [store_ok, ok_bind]
    · rw [small, runHead_zero]
      rfl
    · rw [Slice.splice_before _ (by simp), runHead_succ]
      rfl
    · rw [Slice.splice_before _ (by simp), Slice.splice_before _ (by simp), runHead_succ,
        Slice.leBytes_two]
      rfl
    · rw [Slice.splice_before _ (by simp), Slice.splice_before _ (by simp),
        Slice.splice_before _ (by simp), runHead_succ, Slice.leBytes_three]
      rfl
  · intro past
    rw [repeatBytes, length_runHead, repeatExtra, extraBytes] at past
    refine sliceFrom_past (fun _ => ?_)
    simp only [store8, sub_ok pos, ok_bind]
    split_ifs at past ⊢
    all_goals
      repeat refine store_past (fun _ => ?_)
      exfalso
      simp only [Slice.len_splice, Slice.length_leBytes] at *
      omega

/-- One emission after another. -/
theorem Writes.append {r : Exec (Slice × Nat)} {f : Slice × Nat → Exec (Slice × Nat)} {dst : Slice}
    {d : Nat} {as bs : List UInt8} (first : Writes r dst d as)
    (next : Writes (f (dst.splice d as, d + as.length)) (dst.splice d as) (d + as.length) bs) :
    Writes (r >>= f) dst d (as ++ bs) := by
  have assoc : d + (as ++ bs).length = d + as.length + bs.length := by
    rw [List.length_append, Nat.add_assoc]
  constructor
  · intro fits
    rw [assoc] at fits ⊢
    rw [first.fits (by omega), ok_bind, next.fits fits, Slice.splice_append]
  · intro past
    rw [assoc] at past
    by_cases fits : d + as.length ≤ dst.len
    · rw [first.fits fits, ok_bind]
      exact next.past past
    · exact (first.past (Nat.lt_of_not_le fits)).bind

theorem copyFromSlice_writes (dst : Slice) (d : Nat) (bs : List UInt8) :
    Writes (do
      let dst ← copyFromSlice dst d bs
      return (dst, d + bs.length)) dst d bs := by
  constructor
  · intro fits
    rw [copyFromSlice_ok fits]
    rfl
  · intro past
    rw [copyFromSlice, if_neg (by omega)]
    exact ⟨_, rfl, .inr rfl⟩

/-- The caller's slicing adds nothing to an emitter that writes something. -/
theorem Writes.sliced {r : Exec (Slice × Nat)} {dst : Slice} {d : Nat} {bs : List UInt8}
    (h : Writes r dst d bs) : Writes (sliceFrom dst d >>= fun _ => r) dst d bs := by
  constructor
  · intro fits
    rw [sliceFrom_ok (by omega), ok_bind]
    exact h.fits fits
  · intro past
    exact sliceFrom_past (fun _ => h.past past)

theorem literalHeader_writes (dst : Slice) (d : Nat) {n : Nat} (short : n < 2 ^ 24 + 29) :
    Writes (literalHeader dst d n) dst d (runHead 0 (n + 1) (literalExtra (n + 1))) := by
  have small := Bits.shiftLeft_or 3 n (b := tagLiteral) (by decide)
  constructor
  · intro fits
    rw [length_runHead, literalExtra] at fits ⊢
    simp only [Nat.reduceLeDiff, literalHeader, store8] at fits ⊢
    split_ifs at fits ⊢ <;> try omega
    all_goals
      simp (disch := (simp only [Slice.len_splice, Slice.length_leBytes]; omega)) only
        [store_ok, ok_bind]
    · rw [small, runHead_zero]
      rfl
    · rw [Slice.splice_before _ (by simp), runHead_succ]
      rfl
    · rw [Slice.splice_before _ (by simp), Slice.splice_before _ (by simp), runHead_succ,
        Slice.leBytes_two]
      rfl
    · rw [Slice.splice_before _ (by simp), Slice.splice_before _ (by simp),
        Slice.splice_before _ (by simp), runHead_succ, Slice.leBytes_three]
      rfl
  · intro past
    rw [length_runHead, literalExtra] at past
    simp only [Nat.reduceLeDiff, literalHeader, store8] at past ⊢
    split_ifs at past ⊢ <;> try omega
    all_goals
      repeat refine store_past (fun _ => ?_)
      exfalso
      simp only [Slice.len_splice, Slice.length_leBytes] at *
      omega

theorem emitLiteral_writes (dst : Slice) (d : Nat) {lit : List UInt8}
    (short : lit.length < 2 ^ 24 + 30) :
    Writes (emitLiteral dst d lit) dst d (literalBytes lit) := by
  cases lit with
  | nil =>
      constructor
      · intro fits
        rw [emitLiteral, sliceFrom_ok (by simpa [literalBytes] using fits)]
        simp [literalBytes, Slice.splice_nil, pure, Except.pure]
      · intro past
        refine sliceFrom_past (fun fits => ?_)
        simp only [literalBytes, List.length_nil, if_true] at past
        omega
  | cons x lit =>
      have header := literalHeader_writes dst d (n := lit.length) (by simp at short; omega)
      exact (header.append (copyFromSlice_writes _ _ _)).sliced

/-- The two spellings of a long copy's remaining length. -/
theorem copy_range {length : Nat} (long : 4 ≤ length) :
    length - 64 = length - 4 - 60 ∧ (length ≤ 64 ↔ length - 4 ≤ 60) := by omega

theorem encodeCopy2_writes (dst : Slice) (d : Nat) {offset length : Nat}
    (far : minCopy2Offset ≤ offset) (long : 4 ≤ length) :
    Writes (encodeCopy2 dst d offset length) dst d (copy2Bytes offset length) := by
  have small := Bits.shiftLeft_or 2 (length - 4) (b := tagCopy2) (by decide)
  obtain ⟨rest, short⟩ := copy_range long
  have size : (copy2Bytes offset length).length = 3 + copyExtra length := by
    simp [copy2Bytes]
    omega
  constructor
  · intro fits
    rw [size, copyExtra, extraBytes] at fits
    rw [size, encodeCopy2, sub_ok long, ok_bind, sub_ok far, ok_bind]
    simp only [store8, store16, copy2Bytes, copyField, copyExtra, extraBytes, rest, short] at fits ⊢
    split_ifs at fits ⊢
    all_goals
      simp (disch := (simp only [Slice.len_splice, Slice.length_leBytes]; omega)) only
        [store_ok, ok_bind]
    · rw [small, Slice.splice_before _ (by simp)]
      rfl
    · rw [Slice.splice_after (i := d + 1) _ (by simp), Slice.splice_before _ (by simp)]
      rfl
    · rw [Slice.splice_before (i := d + 3) _ (by simp), Slice.splice_after (i := d + 1) _ (by simp),
        Slice.splice_before _ (by simp), Slice.leBytes_two (length - 4 - 60)]
      rfl
    · rw [Slice.splice_before (i := d + 4) _ (by simp), Slice.splice_before (i := d + 3) _ (by simp),
        Slice.splice_after (i := d + 1) _ (by simp), Slice.splice_before _ (by simp),
        Slice.leBytes_three]
      rfl
  · intro past
    rw [size, copyExtra, extraBytes] at past
    simp only [encodeCopy2, sub_ok long, sub_ok far, ok_bind, store8, store16]
    refine store_past (fun _ => ?_)
    split_ifs at past ⊢ <;> try omega
    all_goals
      repeat refine store_past (fun _ => ?_)
      exfalso
      simp only [Slice.len_splice, Slice.length_leBytes] at *
      omega

theorem encodeCopy3_writes (dst : Slice) (d : Nat) {offset length lits : Nat}
    (far : minCopy3Offset ≤ offset) (long : 4 ≤ length) (few : lits ≤ 3) :
    Writes (encodeCopy3 dst d offset length lits) dst d (copy3Bytes offset length lits) := by
  have tag (l : Nat) (hl : l < 64) :
      (offset - minCopy3Offset) <<< 11 ||| tagCopy3 ||| lits <<< 3 ||| l <<< 5 =
        (offset - minCopy3Offset) * 2048 + l * 32 + lits * 8 + 7 := by
    have lit : tagCopy3 ||| lits <<< 3 = 7 + lits * 8 := Bits.or_shiftLeft 3 lits (by decide)
    have low : 7 + lits * 8 ||| l <<< 5 = 7 + lits * 8 + l * 32 := Bits.or_shiftLeft 5 l (by omega)
    rw [Nat.or_assoc, Nat.or_assoc, ← Nat.or_assoc tagCopy3, lit, low,
      Bits.shiftLeft_or 11 _ (by omega)]
    omega
  obtain ⟨rest, short⟩ := copy_range long
  have size : (copy3Bytes offset length lits).length = 4 + copyExtra length := by
    simp [copy3Bytes]
  constructor
  · intro fits
    rw [size, copyExtra, extraBytes] at fits
    rw [size, encodeCopy3, sub_ok long, ok_bind, sub_ok far, ok_bind]
    simp only [store8, store16, store32, copy3Bytes, copyField, copyExtra, extraBytes, rest,
      short] at fits ⊢
    split_ifs at fits ⊢
    all_goals
      simp (disch := (simp only [Slice.len_splice, Slice.length_leBytes]; omega)) only
        [store_ok, ok_bind]
    · rw [tag _ (by omega)]
      simp [Slice.leBytes, pure, Except.pure]
    · rw [tag _ (by omega), Slice.splice_after _ (by simp)]
      rfl
    · rw [tag _ (by omega), Slice.splice_after _ (by simp)]
      rfl
    · rw [tag _ (by omega), Slice.splice_after _ (by simp), Slice.splice_after _ (by simp),
        Slice.splice_after _ (by simp), Slice.leBytes_three]
      rfl
  · intro past
    rw [size, copyExtra, extraBytes] at past
    simp only [encodeCopy3, sub_ok long, sub_ok far, ok_bind, store8, store16, store32]
    split_ifs at past ⊢ <;> try omega
    all_goals
      repeat refine store_past (fun _ => ?_)
      exfalso
      simp only [Slice.len_splice, Slice.length_leBytes] at *
      omega

theorem store_writes {dst : Slice} {d : Nat} {as bs : List UInt8}
    {f : Slice → Exec (Slice × Nat)}
    (next : Writes (f (dst.splice d as)) (dst.splice d as) (d + as.length) bs) :
    Writes (store dst d as >>= f) dst d (as ++ bs) := by
  have assoc : d + (as ++ bs).length = d + as.length + bs.length := by
    rw [List.length_append, Nat.add_assoc]
  constructor
  · intro fits
    rw [assoc] at fits ⊢
    rw [store_ok (by omega), ok_bind, next.fits fits, Slice.splice_append]
  · intro past
    rw [assoc] at past
    exact store_past (fun _ => next.past past)

theorem store_only_writes (dst : Slice) (d : Nat) (bs : List UInt8) :
    Writes (store dst d bs >>= fun dst => pure (dst, d + bs.length)) dst d bs := by
  constructor
  · intro fits
    rw [store_ok fits]
    rfl
  · intro past
    refine store_past (fun _ => ?_)
    omega

theorem emitCopy_writes (dst : Slice) (d : Nat) {offset length : Nat} (pos : 1 ≤ offset)
    (long : 4 ≤ length) :
    Writes (emitCopy dst d offset length) dst d (copyBytes offset length) := by
  apply Writes.sliced
  rw [copyBytes]
  by_cases far : offset > maxCopy2Offset
  · rw [if_pos far, if_pos far]
    rw [maxCopy2Offset_eq] at far
    exact encodeCopy3_writes dst d (by rw [minCopy3Offset_eq]; omega) long (Nat.zero_le _)
  · rw [if_neg far, if_neg far]
    by_cases near : offset ≤ maxCopy1Offset
    · have tag (l : Nat) (hl : l < 16) :
          (offset - 1) <<< 6 ||| l <<< 2 ||| tagCopy1 = (offset - 1) * 64 + l * 4 + 1 := by
        have low : l <<< 2 ||| tagCopy1 = l * 4 + 1 := Bits.shiftLeft_or 2 l (by decide)
        rw [Nat.or_assoc, low, Bits.shiftLeft_or 6 _ (by omega)]
        omega
      rw [if_pos near, if_pos near, sub_ok pos, ok_bind, sub_ok long]
      by_cases short : length < 15 + 4
      · rw [if_pos short, if_pos (by omega), copy1Bytes, if_pos short, ok_bind, tag _ (by omega)]
        exact store_only_writes dst d _
      · rw [if_neg short]
        by_cases middle : length < 256 + 18
        · rw [if_pos middle, if_pos middle, copy1Bytes, if_neg short, tag _ (by omega)]
          exact store_writes (store_only_writes _ _ _)
        · rw [if_neg middle, if_neg middle, copy1Bytes, if_pos (by omega), tag _ (by omega)]
          exact store_writes (emitRepeat_writes _ _ (by omega))
    · rw [if_neg near, if_neg near]
      rw [maxCopy1Offset_eq] at near
      exact encodeCopy2_writes dst d (by rw [minCopy2Offset_eq]; omega) long

theorem fused2Head_writes (dst : Slice) (d rawLen offField : Nat) {litField : Nat}
    (few : litField ≤ 3) :
    Writes (fused2Head dst d rawLen litField offField) dst d
      (Slice.leBytes 1 (rawLen * 32 + litField * 8 + 3) ++ Slice.leBytes 2 offField) := by
  have tag : tagCopy2Fused ||| rawLen <<< 5 ||| litField <<< 3 = rawLen * 32 + litField * 8 + 3 := by
    have lit : tagCopy2Fused ||| litField <<< 3 = 3 + litField * 8 :=
      Bits.or_shiftLeft 3 _ (by decide)
    rw [Nat.or_assoc, Nat.or_comm (rawLen <<< 5), ← Nat.or_assoc, lit,
      Bits.or_shiftLeft 5 _ (by omega)]
    omega
  constructor
  · intro fits
    simp only [List.length_append, Slice.length_leBytes] at fits ⊢
    simp only [fused2Head, store8, store16, tag]
    simp (disch := (simp only [Slice.len_splice, Slice.length_leBytes]; omega)) only
      [store_ok, ok_bind]
    rw [Slice.splice_before _ (by simp)]
    rfl
  · intro past
    simp only [List.length_append, Slice.length_leBytes] at past
    refine store_past (fun _ => store_past (fun _ => ?_))
    simp only [Slice.len_splice, Slice.length_leBytes] at *
    omega

theorem emitCopyLits2_writes (dst : Slice) (d : Nat) {lits : List UInt8} {offset length : Nat}
    (far : minCopy2Offset ≤ offset) (long : 4 ≤ length) (one : 1 ≤ lits.length)
    (few : lits.length ≤ 4) :
    Writes (emitCopyLits2 dst d lits offset length) dst d (copyLits2Bytes lits offset length) := by
  apply Writes.sliced
  rw [sub_ok far, ok_bind, sub_ok long, ok_bind, sub_ok one, ok_bind]
  rw [copyLits2Bytes, copy2LitMaxLen_eq]
  by_cases short : length ≤ 11
  · rw [if_pos short, if_neg (by omega)]
    have head := fused2Head_writes dst d (length - 4) (offset - minCopy2Offset)
      (show lits.length - 1 ≤ 3 by omega)
    exact head.append (copyFromSlice_writes _ _ _)
  · rw [if_neg short, if_pos (by omega)]
    have head := fused2Head_writes dst d 7 (offset - minCopy2Offset)
      (show lits.length - 1 ≤ 3 by omega)
    have rest : length - 4 - (11 - 4) = length - 11 := by omega
    have literal := head.append
      (f := fun (dst, n) => do
        let dst ← copyFromSlice dst n lits
        return (dst, n + lits.length)) (copyFromSlice_writes _ _ _)
    have chained := literal.append (f := fun (dst, n) => emitRepeat dst n (length - 11))
      (emitRepeat_writes _ _ (by omega))
    simp only [bind_assoc, pure_bind] at chained
    rw [rest]
    exact chained

theorem emitCopyLits3_writes (dst : Slice) (d : Nat) {lits : List UInt8} {offset length : Nat}
    (far : minCopy3Offset ≤ offset) (long : 4 ≤ length) (few : lits.length ≤ 3) :
    Writes (emitCopyLits3 dst d lits offset length) dst d (copyLits3Bytes lits offset length) :=
  ((encodeCopy3_writes dst d far long few).append (copyFromSlice_writes _ _ _)).sliced

end MinLz.Block
