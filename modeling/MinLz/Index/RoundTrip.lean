import MinLz.Index.Loaded

/-! # Storing and loading an index

The two predictors move in lockstep: what is stored for an entry is its distance
from the prediction, and adding the prediction back restores it. An index that a
chunk can hold is stored without overflow and loads back unchanged.
-/

namespace MinLz.Index

open Machine (Overflow maxSigned ofWord Fits zigzag unzigzag checkedAdd)
open MinLz.Stream (chunkLength readChunkLen)
open Effects Loop

theorem length_putVarint (v : Int) : (putVarint v).length ≤ 10 := Leb128.length_encode _

theorem signed_word (m : Overflow) {x : Int} (h : Fits x) : word (m.signed x) = .ok x := by
  rw [Machine.signed_ok m h]
  rfl

theorem unsigned_word (m : Overflow) {x : Nat} (h : x < 2 ^ 64) :
    word (m.unsigned x) = .ok x := by
  rw [Machine.unsigned_ok m h]
  rfl

section Columns

variable (m : Overflow)

/-- The entries as the first pass leaves them. -/
abbrev uncompressedOnly (l : List OffsetPair) : List OffsetPair :=
  l.map fun p => { uncompressed := p.uncompressed }

theorem ascends_cons {est : Nat} {prev : Option OffsetPair} {info : OffsetPair}
    {rest : List OffsetPair} (h : Ascends est prev (info :: rest)) :
    Ascends est prev [info] ∧ Ascends est (some info) rest := by
  cases prev with
  | none => exact ⟨trivial, h⟩
  | some p => exact ⟨⟨h.1, h.2.1, trivial⟩, h.2.2⟩

theorem nextUncompressed_none (est : Int) (v : Nat) : nextUncompressed est none v = .ok v := by
  simp only [nextUncompressed, ok_bind]
  rw [if_neg (by omega), Int.toNat_natCast]
  rfl

theorem nextUncompressed_some {est u : Int} {p : OffsetPair} {v : Nat}
    (less : p.uncompressed < v) (small : v ≤ maxSigned) (fits : Fits (p.uncompressed + est))
    (sum : u + (p.uncompressed + est) = v) : nextUncompressed est (some p) u = .ok v := by
  simp only [nextUncompressed, Machine.ofWord_small (by omega : p.uncompressed ≤ maxSigned),
    Machine.checkedAdd_ok fits, Option.bind_some,
    Machine.checkedAdd_ok (sum ▸ Machine.fits_small small), sum]
  rw [if_neg (by omega), ok_bind, if_neg (by omega), Int.toNat_natCast]
  rfl

theorem deltaUncompressed_ok {est : Nat} {prev prev' : Option OffsetPair} {info : OffsetPair}
    (same : prev.map (·.uncompressed) = prev'.map (·.uncompressed))
    (ascends : Ascends est prev [info]) (small : info.uncompressed ≤ maxSigned) :
    ∃ u, Fits u ∧ deltaUncompressed m est prev info = .ok u ∧
      nextUncompressed est prev' u = .ok info.uncompressed := by
  have limit := maxSigned_eq
  cases prev with
  | none =>
      cases prev' with
      | some p' => cases same
      | none =>
          refine ⟨info.uncompressed, Machine.fits_small small,
            by rw [deltaUncompressed, Machine.ofWord_small small], nextUncompressed_none _ _⟩
  | some p =>
      cases prev' with
      | none => cases same
      | some p' =>
          obtain ⟨less, reach, _⟩ := ascends
          have equal : p.uncompressed = p'.uncompressed := Option.some.inj same
          have fits : Fits ((p.uncompressed : Int) + est) := by
            rw [Fits]
            omega
          have delta : Fits ((info.uncompressed : Int) - (p.uncompressed + est)) := by
            rw [Fits]
            omega
          refine ⟨_, delta, ?_, ?_⟩
          · simp only [deltaUncompressed, Machine.ofWord_small (by omega : p.uncompressed ≤ maxSigned),
              Machine.ofWord_small (by omega : est ≤ maxSigned), Machine.ofWord_small small,
              signed_word m fits, ok_bind, signed_word m delta]
          · exact nextUncompressed_some (by omega) small (equal ▸ fits) (by omega)

theorem deltaCompressed_ok {cPredict : Int} {prev : Option OffsetPair} {info : OffsetPair}
    (pos : 0 ≤ cPredict) (reach : cPredict ≤ maxSigned)
    (predictable : Predictable cPredict prev [info]) (small : info.compressed ≤ maxSigned) :
    ∃ c next, Fits c ∧ deltaCompressed m cPredict prev info = .ok (c, next) ∧
      nextCompressed cPredict prev c = .ok (info.compressed, next) ∧
      0 ≤ next ∧ next ≤ maxSigned ∧
      next = match prev with
        | none => cPredict
        | some p => cPredict + ((info.compressed : Int) - (p.compressed + cPredict)).tdiv 2 := by
  have limit := maxSigned_eq
  cases prev with
  | none =>
      refine ⟨info.compressed, cPredict, Machine.fits_small small,
        by rw [deltaCompressed, Machine.ofWord_small small], ?_, pos, reach, rfl⟩
      simp only [nextCompressed, ok_bind]
      rw [if_neg (by omega), Int.toNat_natCast]
      rfl
  | some p =>
      obtain ⟨less, within, _⟩ := predictable
      have bounds := predict_bounds pos less within small
      have fits : Fits ((p.compressed : Int) + cPredict) := by
        rw [Fits]
        omega
      have delta : Fits ((info.compressed : Int) - (p.compressed + cPredict)) := by
        rw [Fits]
        omega
      have next : Fits (cPredict + ((info.compressed : Int) - (p.compressed + cPredict)).tdiv 2) := by
        rw [Fits]
        omega
      refine ⟨_, _, delta, ?_, ?_, bounds.1, bounds.2, rfl⟩
      · simp only [deltaCompressed, Machine.ofWord_small (by omega : p.compressed ≤ maxSigned),
          Machine.ofWord_small small, signed_word m fits, ok_bind, signed_word m delta,
          signed_word m next, pure_ok]
      · have back : (info.compressed : Int) - (p.compressed + cPredict) + (p.compressed + cPredict) =
            info.compressed := by omega
        simp only [nextCompressed, Machine.ofWord_small (by omega : p.compressed ≤ maxSigned),
          Machine.checkedAdd_ok next, Machine.checkedAdd_ok fits, Option.bind_some,
          Machine.checkedAdd_ok (back ▸ Machine.fits_small small), back]
        rw [if_neg (by omega), ok_bind]
        simp only
        rw [if_neg (by omega), Int.toNat_natCast]
        rfl

/-- The uncompressed column, written out and read back. -/
theorem putUncompressed_ok {est : Nat} (prev prev' : Option OffsetPair) {l : List OffsetPair}
    (same : prev.map (·.uncompressed) = prev'.map (·.uncompressed)) (ascends : Ascends est prev l)
    (small : ∀ p ∈ l, p.uncompressed ≤ maxSigned) :
    ∃ bytes, putUncompressed m est prev l = .ok bytes ∧
      ∀ t, fillUncompressed m 1 est prev' (l.map fun _ => {}) (bytes ++ t) =
        (uncompressedOnly l, .ok t) := by
  induction l generalizing prev prev' with
  | nil => exact ⟨[], rfl, fun t => rfl⟩
  | cons info rest ih =>
      obtain ⟨one, tail⟩ := ascends_cons ascends
      obtain ⟨u, fits, put, next⟩ := deltaUncompressed_ok m same one (small info List.mem_cons_self)
      obtain ⟨bytes, run, back⟩ := ih (some info)
        (some { uncompressed := info.uncompressed }) rfl tail
        (fun p hp => small p (List.mem_cons_of_mem info hp))
      refine ⟨putVarint u ++ bytes, ?_, fun t => ?_⟩
      · rw [putUncompressed, put, ok_bind, run]
        rfl
      · have taken : takeUncompressed m 1 est prev' (putVarint u ++ (bytes ++ t)) =
            .ok (info.uncompressed, bytes ++ t) := by
          have stored : (1 : UInt8) ≠ 0 := by decide
          simp only [takeUncompressed, if_pos stored, takeVarint_put m fits, ok_bind, next, pure_ok]
        rw [List.append_assoc, List.map_cons, fillUncompressed, taken]
        simp only
        rw [back]
        rfl

theorem regularUncompressed_ok {est : Nat} {prev prev' : Option OffsetPair} {info : OffsetPair}
    (same : prev.map (·.uncompressed) = prev'.map (·.uncompressed))
    (ascends : Ascends est prev [info]) :
    ∃ e, regularUncompressed m est prev = .ok e ∧
      (info.uncompressed = e → nextUncompressed est prev' 0 = .ok info.uncompressed) := by
  have limit := maxSigned_eq
  cases prev with
  | none =>
      cases prev' with
      | some p' => cases same
      | none =>
          refine ⟨0, rfl, fun zero => ?_⟩
          rw [zero]
          exact nextUncompressed_none est 0
  | some p =>
      cases prev' with
      | none => cases same
      | some p' =>
          obtain ⟨less, reach, _⟩ := ascends
          have equal : p.uncompressed = p'.uncompressed := Option.some.inj same
          have fits : Fits ((p.uncompressed : Int) + est) := by
            rw [Fits]
            omega
          have cast : (p.uncompressed : Int) + est = (p.uncompressed + est : Nat) :=
            (Nat.cast_add _ _).symm
          refine ⟨p.uncompressed + est, ?_, fun regular => ?_⟩
          · rw [regularUncompressed, cast, unsigned_word m (by omega)]
          · exact nextUncompressed_some (by omega) (by omega) (equal ▸ fits) (by omega)

/-- A regular spacing needs no column. -/
theorem hasUncomp_ok {est : Nat} (prev prev' : Option OffsetPair) {l : List OffsetPair}
    (same : prev.map (·.uncompressed) = prev'.map (·.uncompressed))
    (ascends : Ascends est prev l) :
    hasUncomp m est prev l = .ok true ∨ hasUncomp m est prev l = .ok false ∧
      ∀ t, fillUncompressed m 0 est prev' (l.map fun _ => {}) t = (uncompressedOnly l, .ok t) := by
  induction l generalizing prev prev' with
  | nil => exact .inr ⟨rfl, fun t => rfl⟩
  | cons info rest ih =>
      obtain ⟨one, tail⟩ := ascends_cons ascends
      obtain ⟨e, expected, next⟩ := regularUncompressed_ok m same one
      rw [hasUncomp, expected, ok_bind]
      by_cases regular : info.uncompressed = e
      · rw [if_neg (not_not.mpr regular)]
        have rest := ih (some info) (some { uncompressed := info.uncompressed }) rfl tail
        refine rest.imp_right fun h => ⟨h.1, fun t => ?_⟩
        have taken : takeUncompressed m 0 est prev' t = .ok (info.uncompressed, t) := by
          simp only [takeUncompressed, ne_eq, not_true_eq_false, if_false, ok_bind, next regular,
            pure_ok]
        rw [List.map_cons, fillUncompressed, taken]
        simp only
        rw [h.2]
        rfl
      · rw [if_pos regular]
        exact .inl rfl

/-- The compressed column, written out and read back. -/
theorem putCompressed_ok {cPredict : Int} {prev : Option OffsetPair} {l : List OffsetPair}
    (pos : 0 ≤ cPredict) (reach : cPredict ≤ maxSigned) (predictable : Predictable cPredict prev l)
    (small : ∀ p ∈ l, p.compressed ≤ maxSigned) :
    ∃ bytes, putCompressed m cPredict prev l = .ok bytes ∧
      ∀ t, fillCompressed m cPredict prev (uncompressedOnly l) (bytes ++ t) = (l, .ok t) := by
  induction l generalizing cPredict prev with
  | nil => exact ⟨[], rfl, fun t => rfl⟩
  | cons info rest ih =>
      have one : Predictable cPredict prev [info] := by
        cases prev with
        | none => trivial
        | some p => exact ⟨predictable.1, predictable.2.1, trivial⟩
      obtain ⟨c, next, fits, put, read, pos', reach', predict⟩ :=
        deltaCompressed_ok m pos reach one (small info List.mem_cons_self)
      have tail : Predictable next (some info) rest := by
        cases prev with
        | none => exact predict ▸ predictable
        | some p => exact predict ▸ predictable.2.2
      obtain ⟨bytes, run, back⟩ := ih pos' reach' tail
        (fun p hp => small p (List.mem_cons_of_mem info hp))
      refine ⟨putVarint c ++ bytes, ?_, fun t => ?_⟩
      · rw [putCompressed, put, ok_bind]
        simp only
        rw [run]
        rfl
      · have taken : takeCompressed m cPredict prev (putVarint c ++ (bytes ++ t)) =
            .ok ((info.compressed, next), bytes ++ t) := by
          simp only [takeCompressed, takeVarint_put m fits, ok_bind, read, pure_ok]
        rw [List.append_assoc, uncompressedOnly, List.map_cons, fillCompressed, taken]
        simp only
        rw [back]

end Columns

section Chunk

variable (m : Overflow)

theorem reject_ok {bad : Prop} [Decidable bad] (e : Error) (h : ¬bad) : reject bad e = .ok () :=
  if_neg h

/-- The wire value of a total. -/
theorem optToWire_ok {total : Option Nat} (bound : ∀ x ∈ total, x ≤ maxSigned) :
    ∃ v, optToWire total = .ok v ∧ Fits v ∧ wireToOpt v = total := by
  cases total with
  | none => exact ⟨-1, rfl, by norm_num [Fits], rfl⟩
  | some x =>
      have small := bound x rfl
      refine ⟨x, if_pos small, Machine.fits_small small, ?_⟩
      rw [wireToOpt, if_neg (by omega), Int.toNat_natCast]

theorem loadTotals_put {totalUncomp est count : Nat} {totalComp : Int} (s : Index)
    (uncomp : totalUncomp ≤ maxSigned) (comp : Fits totalComp) (small : est ≤ maxSigned)
    (few : count ≤ maxIndexEntries) (t : List UInt8) :
    loadTotals m (putVarint totalUncomp ++ (putVarint totalComp ++ (putVarint est ++
      (putVarint count ++ t)))) s =
      .ok t ⟨some totalUncomp, wireToOpt totalComp, List.replicate count {}, est⟩ := by
  have limit := maxSigned_eq
  have entries := maxIndexEntries_eq
  have fits : Fits count := Machine.fits_small (by omega)
  refine (bind_ok (lift_ok (takeVarint_put m (Machine.fits_small uncomp) _))).trans ?_
  refine (bind_ok (lift_ok (reject_ok _ (by omega)))).trans ?_
  refine (bind_ok rfl).trans ?_
  refine (bind_ok (lift_ok (takeVarint_put m comp _))).trans ?_
  refine (bind_ok rfl).trans ?_
  refine (bind_ok (lift_ok (takeVarint_put m (Machine.fits_small small) _))).trans ?_
  refine (bind_ok (lift_ok (reject_ok _ (by omega)))).trans ?_
  refine (bind_ok rfl).trans ?_
  refine (bind_ok (lift_ok (takeVarint_put m fits _))).trans ?_
  refine (bind_ok (lift_ok (reject_ok _ (by omega)))).trans ?_
  rfl

/-- The entries are loaded from the columns whichever way the first is stored. -/
theorem loadEntries_columns {r s : Index} {has : UInt8} {us cs : List UInt8}
    (valid : has.toNat ≤ 1) (est : r.estBlockUncomp ≤ maxSigned)
    (room : s.offsets = List.replicate r.offsets.length {})
    (estimate : s.estBlockUncomp = r.estBlockUncomp)
    (back_us : ∀ t, fillUncompressed m has r.estBlockUncomp none (r.offsets.map fun _ => {})
      (us ++ t) = (uncompressedOnly r.offsets, .ok t))
    (back_cs : ∀ t, fillCompressed m (r.estBlockUncomp / 2 : Nat) none
      (uncompressedOnly r.offsets) (cs ++ t) = (r.offsets, .ok t)) (t : List UInt8) :
    loadEntries m (has :: (us ++ (cs ++ t))) s = .ok t { s with offsets := r.offsets } := by
  have half : (r.estBlockUncomp : Int).tdiv 2 = (r.estBlockUncomp / 2 : Nat) := by
    rw [Int.tdiv_eq_ediv_of_nonneg (by omega)]
    rfl
  refine (bind_ok (lift_ok (reject_ok _ (List.cons_ne_nil _ _)))).trans ?_
  refine (bind_ok (lift_ok rfl)).trans ?_
  refine (bind_ok (lift_ok (sliceFrom_ok (Nat.le_add_left _ _)))).trans ?_
  refine (bind_ok (lift_ok (reject_ok _ (by omega)))).trans ?_
  refine (bind_ok rfl).trans ?_
  refine (bind_ok rfl).trans ?_
  simp only [estimate, room, Machine.ofWord_small est, List.drop_succ_cons, List.drop_zero]
  rw [← List.map_const', back_us]
  refine (bind_ok rfl).trans ?_
  refine (bind_ok rfl).trans ?_
  refine (bind_ok rfl).trans ?_
  simp only [half]
  rw [back_cs, ← estimate]
  rfl

theorem putPayload_ok {r : Index} (loaded : Loaded r) :
    ∃ payload, putPayload m r = .ok payload ∧
      ∀ t s, ∃ b s', loadTotals m (payload ++ t) s = .ok b s' ∧ loadEntries m b s' = .ok t r := by
  have limit := maxSigned_eq
  obtain ⟨⟨totalUncomp, uncomp, uncomp_small⟩, comp, est, few, bounded, ascends, predictable⟩ :=
    loaded
  obtain ⟨totalComp, wire, comp_fits, comp_back⟩ := optToWire_ok comp
  obtain ⟨cs, stored_cs, back_cs⟩ := putCompressed_ok m (by omega) (by omega)
    predictable (fun p hp => (bounded p hp).1)
  have small (p) (hp : p ∈ r.offsets) := (bounded p hp).2
  obtain ⟨irregular, us, columns, stored_us, back_us⟩ : ∃ irregular us,
      hasUncomp m r.estBlockUncomp none r.offsets = .ok irregular ∧
      columnUncompressed m r.estBlockUncomp irregular r.offsets = .ok us ∧
      ∀ t, fillUncompressed m (if irregular then 1 else 0) r.estBlockUncomp none
        (r.offsets.map fun _ => {}) (us ++ t) = (uncompressedOnly r.offsets, .ok t) := by
    rcases hasUncomp_ok m none none rfl ascends with stored | ⟨omitted, back⟩
    · obtain ⟨us, put, back⟩ := putUncompressed_ok m none none rfl ascends small
      exact ⟨true, us, stored, put, back⟩
    · exact ⟨false, [], omitted, rfl, back⟩
  refine ⟨putVarint totalUncomp ++ putVarint totalComp ++ putVarint r.estBlockUncomp ++
    putVarint r.offsets.length ++ [if irregular then 1 else 0] ++ us ++ cs, ?_, fun t s => ?_⟩
  · have total : optToWire r.totalUncompressed = .ok totalUncomp := by
      rw [uncomp]
      exact if_pos uncomp_small
    have half : r.estBlockUncomp / 2 ≤ maxSigned := by omega
    simp only [putPayload, total, ok_bind, wire, columns, stored_us, Machine.ofWord_small half,
      stored_cs, Machine.ofWord_small est, pure_ok]
  · have valid : (if irregular then 1 else 0 : UInt8).toNat ≤ 1 := by
      cases irregular <;> decide
    simp only [List.append_assoc, List.singleton_append]
    refine ⟨_, _, loadTotals_put m s uncomp_small comp_fits est few _, ?_⟩
    refine (loadEntries_columns m (r := r) valid est ?_ ?_ back_us back_cs t).trans ?_
    · rfl
    · rfl
    · rw [comp_back, ← uncomp]

theorem length_putChunk (payload : List UInt8) :
    (putChunk payload).length = payload.length + 20 := by
  simp only [putChunk, chunkLength, List.length_append, List.length_cons, List.length_nil,
    Slice.length_leBytes, indexHeader, indexTrailer]
  omega

/-- A chunk, with its size as the three length bytes have it. -/
theorem putChunk_bytes (payload t : List UInt8) :
    ∃ b1 b2 b3 rest, putChunk payload ++ t = chunkTypeIndex :: b1 :: b2 :: b3 ::
        (indexHeader ++ rest) ∧
      readChunkLen b1 b2 b3 = (payload.length + 16) % 2 ^ 24 ∧
      rest = payload ++ (Slice.leBytes 4 (payload.length + 20) ++ (indexTrailer ++ t)) := by
  have size : 4 + indexHeader.length + payload.length + 4 + indexTrailer.length =
      payload.length + 20 := by
    have header : indexHeader.length = 6 := rfl
    have trailer : indexTrailer.length = 6 := rfl
    omega
  refine ⟨_, _, _, _, ?_, Stream.readChunkLen_chunkLength (payload.length + 16), rfl⟩
  simp only [putChunk, chunkLength, skippableFrameHeader, size, List.cons_append,
    List.append_assoc, List.nil_append]
  rfl

theorem loadFrame_put (payload t : List UInt8) :
    loadFrame (putChunk payload ++ t) = .ok (payload ++
      (Slice.leBytes 4 (payload.length + 20) ++ (indexTrailer ++ t))) := by
  have header : indexHeader.length = 6 := rfl
  have trailer : indexTrailer.length = 6 := rfl
  obtain ⟨b1, b2, b3, rest, bytes, chunkLen, rest_eq⟩ := putChunk_bytes payload t
  have length : payload.length + 10 ≤ rest.length := by
    rw [rest_eq]
    simp only [List.length_append, Slice.length_leBytes]
    omega
  have from_four : sliceFrom (chunkTypeIndex :: b1 :: b2 :: b3 :: (indexHeader ++ rest)) 4 =
      .ok (indexHeader ++ rest) := sliceFrom_ok (Nat.le_add_left _ _)
  have long : ¬(chunkTypeIndex :: b1 :: b2 :: b3 :: (indexHeader ++ rest)).length ≤
      4 + indexHeader.length + indexTrailer.length := by
    simp only [List.length_cons, List.length_append]
    omega
  have inside : ¬(indexHeader ++ rest).length < (payload.length + 16) % 2 ^ 24 := by
    have := Nat.mod_le (payload.length + 16) (2 ^ 24)
    rw [List.length_append]
    omega
  have known : ¬(chunkTypeIndex ≠ chunkTypeIndex ∧ chunkTypeIndex ≠ legacyIndexChunk) :=
    fun h => h.1 rfl
  rw [bytes, loadFrame, reject_ok _ long]
  simp only [ok_bind, byteAt, List.getElem?_cons_zero, List.getElem?_cons_succ]
  rw [reject_ok _ known, ok_bind, from_four, ok_bind, chunkLen, reject_ok _ inside, ok_bind,
    sliceTo_ok (by rw [List.length_append]; omega), ok_bind, List.take_left,
    reject_ok _ (not_not.mpr rfl), ok_bind, sliceFrom_ok (by rw [List.length_append]; omega),
    List.drop_left, rest_eq]

theorem loadTrailer_put (size : Nat) (t : List UInt8) :
    loadTrailer (Slice.leBytes 4 size ++ (indexTrailer ++ t)) = .ok t := by
  have four : (Slice.leBytes 4 size).length = 4 := Slice.length_leBytes 4 size
  have trailer : indexTrailer.length = 6 := rfl
  have drop : (Slice.leBytes 4 size ++ (indexTrailer ++ t)).drop 4 = indexTrailer ++ t :=
    List.drop_left' four
  rw [loadTrailer, reject_ok _ (by simp only [List.length_append]; omega), ok_bind,
    sliceFrom_ok (by simp only [List.length_append]; omega), ok_bind, drop,
    sliceTo_ok (by rw [List.length_append]; omega), ok_bind, List.take_left,
    reject_ok _ (not_not.mpr rfl), ok_bind, sliceFrom_ok (by rw [List.length_append]; omega),
    List.drop_left]

/-- The fields of a payload, whatever the index. -/
theorem putPayload_fields {r : Index} {payload : List UInt8} (put : putPayload m r = .ok payload) :
    ∃ totalUncomp totalComp has columns, optToWire r.totalUncompressed = .ok totalUncomp ∧
      optToWire r.totalCompressed = .ok totalComp ∧ (has = 0 ∨ has = 1) ∧
      payload = putVarint totalUncomp ++ (putVarint totalComp ++
        (putVarint (ofWord r.estBlockUncomp) ++ (putVarint r.offsets.length ++
          (has :: columns)))) := by
  obtain ⟨totalUncomp, uncomp, put⟩ := bind_eq_ok put
  obtain ⟨totalComp, comp, put⟩ := bind_eq_ok put
  obtain ⟨irregular, _, put⟩ := bind_eq_ok put
  obtain ⟨us, _, put⟩ := bind_eq_ok put
  obtain ⟨cs, _, put⟩ := bind_eq_ok put
  refine ⟨totalUncomp, totalComp, if irregular then 1 else 0, us ++ cs, uncomp, comp, ?_, ?_⟩
  · cases irregular <;> decide
  · have fields := (Except.ok.inj put).symm
    simpa only [List.append_assoc, List.cons_append, List.nil_append] using fields

theorem length_putUncompressed {est : Nat} {prev : Option OffsetPair} {l : List OffsetPair}
    {bytes : List UInt8} (put : putUncompressed m est prev l = .ok bytes) :
    bytes.length ≤ 10 * l.length := by
  induction l generalizing prev bytes with
  | nil =>
      cases put
      exact le_rfl
  | cons info rest ih =>
      obtain ⟨u, _, put⟩ := bind_eq_ok put
      obtain ⟨tail, run, put⟩ := bind_eq_ok put
      cases put
      have size := ih run
      have first := length_putVarint u
      rw [List.length_append, List.length_cons]
      omega

theorem length_putCompressed {cPredict : Int} {prev : Option OffsetPair} {l : List OffsetPair}
    {bytes : List UInt8} (put : putCompressed m cPredict prev l = .ok bytes) :
    bytes.length ≤ 10 * l.length := by
  induction l generalizing cPredict prev bytes with
  | nil =>
      cases put
      exact le_rfl
  | cons info rest ih =>
      obtain ⟨c, _, put⟩ := bind_eq_ok put
      obtain ⟨tail, run, put⟩ := bind_eq_ok put
      cases put
      have size := ih run
      have first := length_putVarint c.1
      rw [List.length_append, List.length_cons]
      omega

theorem length_putPayload {r : Index} {payload : List UInt8} (put : putPayload m r = .ok payload) :
    payload.length ≤ 41 + 20 * r.offsets.length := by
  obtain ⟨totalUncomp, _, put⟩ := bind_eq_ok put
  obtain ⟨totalComp, _, put⟩ := bind_eq_ok put
  obtain ⟨irregular, _, put⟩ := bind_eq_ok put
  obtain ⟨us, column, put⟩ := bind_eq_ok put
  obtain ⟨cs, column', put⟩ := bind_eq_ok put
  cases put
  have size_cs := length_putCompressed m column'
  have size_us : us.length ≤ 10 * r.offsets.length := by
    rw [columnUncompressed] at column
    split at column
    · exact length_putUncompressed m column
    · cases column
      exact Nat.zero_le _
  have l1 := length_putVarint totalUncomp
  have l2 := length_putVarint totalComp
  have l3 := length_putVarint (ofWord r.estBlockUncomp)
  have l4 := length_putVarint r.offsets.length
  simp only [List.length_append, List.length_singleton]
  omega

theorem appendTo_chunk {self r : Index} {buf out : List UInt8} {totalUncomp totalComp : Option Nat}
    (put : appendTo m self buf totalUncomp totalComp = .ok (r, out)) :
    (∀ t ∈ totalUncomp, t ≤ maxSigned) ∧ (∀ t ∈ totalComp, t ≤ maxSigned) ∧
      (∃ reduced, reduce m self = .ok reduced ∧
        r = ⟨totalUncomp, totalComp, reduced.offsets, reduced.estBlockUncomp⟩) ∧
      ∃ payload, putPayload m r = .ok payload ∧ out = buf ++ putChunk payload := by
  rw [appendTo] at put
  split at put
  · cases put
  · next inside =>
      simp only [Option.any_eq_true, decide_eq_true_eq, not_or, not_exists, not_and] at inside
      obtain ⟨reduced, run, put⟩ := bind_eq_ok put
      obtain ⟨payload, stored, put⟩ := bind_eq_ok put
      cases put
      exact ⟨fun t ht => Nat.not_lt.mp (inside.1 t ht), fun t ht => Nat.not_lt.mp (inside.2 t ht),
        ⟨reduced, run, rfl⟩, payload, stored, rfl⟩

theorem loadTotals_reads {totalUncomp totalComp est count : Int} (uncomp : Fits totalUncomp)
    (comp : Fits totalComp) (fits : Fits est) (range : Fits count) (t : List UInt8) (s : Index) :
    Runs (loadTotals m (putVarint totalUncomp ++ (putVarint totalComp ++ (putVarint est ++
      (putVarint count ++ t))))) s (fun rest r => 0 ≤ totalUncomp ∧ 0 ≤ est ∧ 0 ≤ count ∧
        count ≤ maxIndexEntries ∧ rest = t ∧ r = ⟨some totalUncomp.toNat, wireToOpt totalComp,
          List.replicate count.toNat {}, est.toNat⟩) (fun e _ => Refused e) := by
  have varint {v : Int} (h : Fits v) (t : List UInt8) :
      Exits (takeVarint m (putVarint v ++ t)) (fun r => r = (v, t)) Refused := by
    rw [takeVarint_put m h]
    exact exits_ok rfl
  refine (runs_input (varint uncomp _) s).bind ?_
  rintro _ _ ⟨rfl, rfl⟩
  refine (runs_input (reject_exits _ _) _).bind ?_
  rintro _ _ ⟨rfl, uncomp_pos⟩
  refine (runs_modify _ _).bind ?_
  rintro _ _ rfl
  refine (runs_input (varint comp _) _).bind ?_
  rintro _ _ ⟨rfl, rfl⟩
  refine (runs_modify _ _).bind ?_
  rintro _ _ rfl
  refine (runs_input (varint fits _) _).bind ?_
  rintro _ _ ⟨rfl, rfl⟩
  refine (runs_input (reject_exits _ _) _).bind ?_
  rintro _ _ ⟨rfl, est_pos⟩
  refine (runs_modify _ _).bind ?_
  rintro _ _ rfl
  refine (runs_input (varint range _) _).bind ?_
  rintro _ _ ⟨rfl, rfl⟩
  refine (runs_input (reject_exits _ _) _).bind ?_
  rintro _ _ ⟨rfl, within⟩
  refine (runs_modify _ _).bind ?_
  rintro _ _ rfl
  exact runs_pure ⟨by omega, by omega, by omega, by omega, rfl, rfl⟩

/-- A load that succeeds on a chunk has read its totals, its entries and its end. -/
theorem load_putChunk {r self : Index} {payload t rest : List UInt8}
    (loads : load m (putChunk payload ++ t) self = .ok rest r) :
    ∃ tail b s b', (∀ self', loadTotals m (payload ++ tail) self' = .ok b s →
        load m (putChunk payload ++ t) self' = .ok rest r) ∧
      loadTotals m (payload ++ tail) self = .ok b s ∧ loadEntries m b s = .ok b' r := by
  have frame := loadFrame_put payload t
  obtain ⟨_, _, lifted, loads⟩ := run_bind_ok loads
  obtain ⟨framed, rfl⟩ := lift_eq_ok lifted
  cases frame.symm.trans framed
  obtain ⟨b, s, totals, loads⟩ := run_bind_ok loads
  obtain ⟨b', s', entries, loads⟩ := run_bind_ok loads
  obtain ⟨trailer, rfl⟩ := lift_eq_ok loads
  refine ⟨_, b, s, b', fun self' totals' => ?_, totals, entries⟩
  refine (bind_ok (lift_ok frame)).trans ?_
  refine (bind_ok totals').trans ?_
  refine (bind_ok entries).trans ?_
  exact lift_ok trailer

/-- What can be stored loads back, whatever was in the index and follows the chunk. -/
theorem putChunk_loads {r : Index} (loaded : Loaded r) :
    ∃ payload, putPayload m r = .ok payload ∧ ∀ t s, load m (putChunk payload ++ t) s = .ok t r := by
  obtain ⟨payload, put, back⟩ := putPayload_ok m loaded
  refine ⟨payload, put, fun t s => ?_⟩
  obtain ⟨b, s', totals, entries⟩ := back (Slice.leBytes 4 (payload.length + 20) ++
    (indexTrailer ++ t)) s
  refine (bind_ok (lift_ok (loadFrame_put payload t))).trans ?_
  refine (bind_ok totals).trans ?_
  refine (bind_ok entries).trans ?_
  exact lift_ok (loadTrailer_put _ t)

end Chunk

end MinLz.Index
