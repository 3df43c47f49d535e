import MinLz.Index.Codec

/-! # What a load leaves

A load never leaves its input and never overflows. When it succeeds, the entries
strictly increase, fit the signed range, and are in step with the predictor that
would encode them again.
-/

namespace MinLz.Index

open Machine (Overflow maxSigned ofWord Fits zigzag unzigzag checkedAdd)
open Effects Loop

/-- An error of the format, as opposed to a fault. -/
def Refused (e : Stop) : Prop := ∃ r, e = .error r

theorem refused (r : Error) : Refused (.error r) := ⟨r, rfl⟩

section Varint

variable (m : Overflow)

/-- The index errors for the two ways a varint fails to decode. -/
def varintError : Leb128.Failure → Error
  | .truncated => .truncated
  | .overflow => .invalid "varint overflow"

theorem readUvarint_go (l : List UInt8) : ∀ i x, i ≤ maxVarintLen64 →
    readUvarint.go m i x (7 * i) l =
      (Leb128.decode.go i x (7 * i) l).mapError (Stop.error ∘ varintError) := by
  induction l with
  | nil => intro i x _; rfl
  | cons byte rest ih =>
      intro i x le
      have limit : maxVarintLen64 = 10 := rfl
      rw [readUvarint.go, Leb128.decode.go, show Leb128.maxLength = maxVarintLen64 from rfl]
      by_cases full : i = maxVarintLen64
      · rw [if_pos full, if_pos full]
        rfl
      · rw [if_neg full, if_neg full, Machine.shl_ok m _ (by omega), Machine.shl_ok m _ (by omega)]
        by_cases last : byte.toNat < 0x80
        · rw [if_pos last, if_pos last]
          by_cases past : i = maxVarintLen64 - 1 ∧ byte.toNat > 1
          · rw [if_pos past, if_pos past]
            rfl
          · rw [if_neg past, if_neg past]
            rfl
        · rw [if_neg last, if_neg last]
          exact ih (i + 1) _ (by omega)

theorem readUvarint_eq (b : List UInt8) :
    readUvarint m b = (Leb128.decode b).mapError (Stop.error ∘ varintError) :=
  readUvarint_go m b 0 0 (Nat.zero_le _)

theorem takeVarint_exits (b : List UInt8) :
    Exits (takeVarint m b) (fun r => Fits r.1 ∧ r.2.length < b.length) Refused := by
  rw [takeVarint, readVarint, readUvarint_eq]
  cases e : Leb128.decode b with
  | error f => exact exits_error (refused _)
  | ok r =>
      obtain ⟨pos, le, _, bound⟩ := Leb128.decode_ok e
      simp only [Except.mapError, ok_bind, pure_ok, sliceFrom, if_pos le]
      refine exits_ok ⟨Machine.fits_unzigzag bound, ?_⟩
      rw [List.length_drop]
      omega

theorem takeVarint_put {v : Int} (fits : Fits v) (t : List UInt8) :
    takeVarint m (putVarint v ++ t) = .ok (v, t) := by
  have read : Leb128.decode (putVarint v ++ t) = .ok (zigzag v, (putVarint v).length) :=
    Leb128.decode_encode (Machine.zigzag_lt fits) t
  rw [takeVarint, readVarint, readUvarint_eq, read]
  simp only [Except.mapError, ok_bind, pure_ok, sliceFrom, List.length_append,
    Nat.le_add_right, if_true, List.drop_left, Machine.unzigzag_zigzag fits]

end Varint

/-- Each entry is past the one before it, which is within range of the estimate. -/
def Ascends (est : Nat) : Option OffsetPair → List OffsetPair → Prop
  | _, [] => True
  | none, info :: rest => Ascends est (some info) rest
  | some p, info :: rest =>
      p.uncompressed < info.uncompressed ∧ p.uncompressed + est ≤ maxSigned ∧
        Ascends est (some info) rest

/-- Each entry is past the one before it, whose prediction is within range. -/
def Predictable (cPredict : Int) : Option OffsetPair → List OffsetPair → Prop
  | _, [] => True
  | none, info :: rest => Predictable cPredict (some info) rest
  | some p, info :: rest =>
      p.compressed < info.compressed ∧ p.compressed + cPredict ≤ maxSigned ∧
        Predictable (cPredict + (info.compressed - (p.compressed + cPredict)).tdiv 2)
          (some info) rest

instance decidablePredictable : (cPredict : Int) → (prev : Option OffsetPair) →
    (l : List OffsetPair) → Decidable (Predictable cPredict prev l)
  | _, none, [] => isTrue trivial
  | _, some _, [] => isTrue trivial
  | cPredict, none, info :: rest => decidablePredictable cPredict (some info) rest
  | cPredict, some p, info :: rest =>
      haveI := decidablePredictable
        (cPredict + (info.compressed - (p.compressed + cPredict)).tdiv 2) (some info) rest
      inferInstanceAs (Decidable (_ ∧ _ ∧ _))

abbrev Bounded (offsets : List OffsetPair) : Prop :=
  ∀ p ∈ offsets, p.compressed ≤ maxSigned ∧ p.uncompressed ≤ maxSigned

/-- An index that a chunk can hold. -/
structure Storable (r : Index) : Prop where
  est : r.estBlockUncomp ≤ maxSigned
  few : r.offsets.length ≤ maxIndexEntries
  bounded : Bounded r.offsets
  ascends : Ascends r.estBlockUncomp none r.offsets
  predictable : Predictable (r.estBlockUncomp / 2 : Nat) none r.offsets

theorem ascends_sorted {est : Nat} {prev : Option OffsetPair} {l : List OffsetPair}
    (h : Ascends est prev l) :
    (prev.toList ++ l).Pairwise fun a b => a.uncompressed < b.uncompressed := by
  induction l generalizing prev with
  | nil => cases prev <;> simp
  | cons info rest ih =>
      cases prev with
      | none => exact ih h
      | some p =>
          have tail := ih h.2.2
          refine List.Pairwise.cons ?_ tail
          intro q hq
          cases hq with
          | head => exact h.1
          | tail _ hq => exact h.1.trans (List.rel_of_pairwise_cons tail hq)

theorem predictable_sorted {cPredict : Int} {prev : Option OffsetPair} {l : List OffsetPair}
    (h : Predictable cPredict prev l) :
    (prev.toList ++ l).Pairwise fun a b => a.compressed < b.compressed := by
  induction l generalizing cPredict prev with
  | nil => cases prev <;> simp
  | cons info rest ih =>
      cases prev with
      | none => exact ih h
      | some p =>
          have tail := ih h.2.2
          refine List.Pairwise.cons ?_ tail
          intro q hq
          cases hq with
          | head => exact h.1
          | tail _ hq => exact h.1.trans (List.rel_of_pairwise_cons tail hq)

/-- The prediction stays between zero and the largest offset. -/
theorem predict_bounds {cPredict : Int} {p c : Nat} (pos : 0 ≤ cPredict) (less : p < c)
    (reach : p + cPredict ≤ maxSigned) (bound : c ≤ maxSigned) :
    0 ≤ cPredict + ((c : Int) - (p + cPredict)).tdiv 2 ∧
      cPredict + ((c : Int) - (p + cPredict)).tdiv 2 ≤ maxSigned := by
  rcases Machine.tdiv_two ((c : Int) - (p + cPredict)) with ⟨_, half⟩ | ⟨_, half⟩ <;> omega

theorem nextUncompressed_exits {est u : Int} {prev : Option OffsetPair}
    (bounded : ∀ p ∈ prev, p.uncompressed ≤ maxSigned) (fits : Fits u) :
    Exits (nextUncompressed est prev u) (fun v => v ≤ maxSigned ∧
      ∀ p ∈ prev, p.uncompressed < v ∧ Fits (p.uncompressed + est) ∧
        (v : Int) = u + (p.uncompressed + est)) Refused := by
  have limit := maxSigned_eq
  cases prev with
  | none =>
      rw [Fits] at fits
      simp only [nextUncompressed, ok_bind]
      split
      · exact exits_error (refused _)
      · exact exits_ok ⟨by omega, fun p hp => by cases hp⟩
  | some p =>
      have small := bounded p rfl
      simp only [nextUncompressed, Machine.ofWord_small small]
      cases sum : (checkedAdd p.uncompressed est).bind (checkedAdd u) with
      | none => exact exits_error (refused _)
      | some v =>
          obtain ⟨step, first, second⟩ := Option.bind_eq_some_iff.mp sum
          obtain ⟨inner, rfl⟩ := Machine.checkedAdd_eq_some.mp first
          obtain ⟨outer, rfl⟩ := Machine.checkedAdd_eq_some.mp second
          by_cases le : u + (p.uncompressed + est) ≤ p.uncompressed
          · simp only [if_pos le]
            exact exits_error (refused _)
          · have range := outer
            rw [Fits] at range
            simp only [if_neg le, ok_bind]
            rw [if_neg (by omega)]
            refine exits_ok ⟨by omega, fun q hq => ?_⟩
            cases hq
            exact ⟨by omega, inner, by omega⟩

theorem nextCompressed_exits {cPredict c : Int} {prev : Option OffsetPair}
    (bounded : ∀ p ∈ prev, p.compressed ≤ maxSigned) (pos : 0 ≤ cPredict)
    (small : cPredict ≤ maxSigned) (fits : Fits c) :
    Exits (nextCompressed cPredict prev c) (fun r => r.1 ≤ maxSigned ∧ 0 ≤ r.2 ∧ r.2 ≤ maxSigned ∧
      (prev = none → r.2 = cPredict) ∧
      ∀ p ∈ prev, p.compressed < r.1 ∧ p.compressed + cPredict ≤ maxSigned ∧
        c = r.1 - (p.compressed + cPredict) ∧ r.2 = cPredict + c.tdiv 2) Refused := by
  have limit := maxSigned_eq
  cases prev with
  | none =>
      rw [Fits] at fits
      simp only [nextCompressed, ok_bind]
      split
      · exact exits_error (refused _)
      · exact exits_ok ⟨by simp only; omega, pos, small, fun _ => rfl, fun p hp => by cases hp⟩
  | some p =>
      have below := bounded p rfl
      simp only [nextCompressed, Machine.ofWord_small below]
      cases predict : checkedAdd cPredict (c.tdiv 2) with
      | none => exact exits_error (refused _)
      | some predictNext =>
          obtain ⟨range, rfl⟩ := Machine.checkedAdd_eq_some.mp predict
          cases sum : (checkedAdd p.compressed cPredict).bind (checkedAdd c) with
          | none => exact exits_error (refused _)
          | some v =>
              obtain ⟨step, first, second⟩ := Option.bind_eq_some_iff.mp sum
              obtain ⟨inner, rfl⟩ := Machine.checkedAdd_eq_some.mp first
              obtain ⟨outer, rfl⟩ := Machine.checkedAdd_eq_some.mp second
              by_cases le : c + (p.compressed + cPredict) ≤ p.compressed
              · simp only [if_pos le]
                exact exits_error (refused _)
              · rw [Fits] at inner outer range
                have half := Machine.tdiv_two c
                simp only [if_neg le, ok_bind]
                rw [if_neg (by omega)]
                refine exits_ok ⟨by simp only; omega, by simp only; omega, by simp only; omega,
                  fun e => absurd e (by simp), fun q hq => ?_⟩
                cases hq
                exact ⟨by simp only; omega, by omega, by simp only; omega, rfl⟩

section Fill

variable (m : Overflow)

theorem takeUncompressed_exits (has : UInt8) (est : Int) {prev : Option OffsetPair}
    (bounded : ∀ p ∈ prev, p.uncompressed ≤ maxSigned) (b : List UInt8) :
    Exits (takeUncompressed m has est prev b) (fun r => r.1 ≤ maxSigned ∧
      ∀ p ∈ prev, p.uncompressed < r.1 ∧ Fits (p.uncompressed + est)) Refused := by
  have read : Exits (show Exec (Int × List UInt8) from
      if has ≠ 0 then takeVarint m b else .ok (0, b)) (fun r => Fits r.1) Refused := by
    by_cases stored : has ≠ 0
    · rw [if_pos stored]
      exact (takeVarint_exits m b).mono (fun r h => h.1) (fun e h => h)
    · rw [if_neg stored]
      exact exits_ok ⟨by norm_num, by norm_num⟩
  refine read.bind fun r fits => ?_
  refine (nextUncompressed_exits bounded fits).bind fun v h => ?_
  exact exits_ok ⟨h.1, fun p hp => ⟨(h.2 p hp).1, (h.2 p hp).2.1⟩⟩

theorem takeCompressed_exits {cPredict : Int} {prev : Option OffsetPair}
    (bounded : ∀ p ∈ prev, p.compressed ≤ maxSigned) (pos : 0 ≤ cPredict)
    (small : cPredict ≤ maxSigned) (b : List UInt8) :
    Exits (takeCompressed m cPredict prev b) (fun r => r.1.1 ≤ maxSigned ∧ 0 ≤ r.1.2 ∧
      r.1.2 ≤ maxSigned ∧ (prev = none → r.1.2 = cPredict) ∧
      ∀ p ∈ prev, p.compressed < r.1.1 ∧ p.compressed + cPredict ≤ maxSigned ∧
        r.1.2 = cPredict + ((r.1.1 : Int) - (p.compressed + cPredict)).tdiv 2) Refused := by
  refine (takeVarint_exits m b).bind fun r taken => ?_
  refine (nextCompressed_exits bounded pos small taken.1).bind fun v h => ?_
  obtain ⟨below, pos', small', first, step⟩ := h
  refine exits_ok ⟨below, pos', small', first, fun p hp => ?_⟩
  obtain ⟨less, reach, delta, predict⟩ := step p hp
  exact ⟨less, reach, delta ▸ predict⟩

/-- What a pass that ends well has stored. -/
theorem fillUncompressed_exits (has : UInt8) (est : Nat) (prev : Option OffsetPair)
    (bounded : ∀ p ∈ prev, p.uncompressed ≤ maxSigned) (slots : List OffsetPair)
    (b : List UInt8) :
    (fillUncompressed m has est prev slots b).1.map (·.compressed) = slots.map (·.compressed) ∧
    Exits (fillUncompressed m has est prev slots b).2 (fun _ =>
      Ascends est prev (fillUncompressed m has est prev slots b).1 ∧
      ∀ p ∈ (fillUncompressed m has est prev slots b).1, p.uncompressed ≤ maxSigned) Refused := by
  induction slots generalizing prev b with
  | nil => cases prev <;> exact ⟨rfl, exits_ok ⟨trivial, fun p hp => by cases hp⟩⟩
  | cons slot rest ih =>
      have next := takeUncompressed_exits m has est bounded b
      rw [fillUncompressed]
      cases taken : takeUncompressed m has est prev b with
      | error e => exact ⟨rfl, exits_error (next.error taken)⟩
      | ok r =>
          obtain ⟨small, step⟩ := next.ok taken
          have tail := ih (some { slot with uncompressed := r.1 })
            (fun p hp => by cases hp; exact small) r.2
          simp only [List.map_cons, tail.1, true_and]
          refine tail.2.mono (fun _ h => ⟨?_, ?_⟩) (fun e h => h)
          · cases prev with
            | none => exact h.1
            | some p =>
                obtain ⟨less, reach⟩ := step p rfl
                rw [Fits] at reach
                exact ⟨less, by rw [maxSigned_eq]; omega, h.1⟩
          · intro p hp
            cases hp with
            | head => exact small
            | tail _ hp => exact h.2 p hp

theorem fillCompressed_exits (cPredict : Int) (prev : Option OffsetPair)
    (bounded : ∀ p ∈ prev, p.compressed ≤ maxSigned) (pos : 0 ≤ cPredict)
    (small : cPredict ≤ maxSigned) (slots : List OffsetPair) (b : List UInt8) :
    (fillCompressed m cPredict prev slots b).1.map (·.uncompressed) =
      slots.map (·.uncompressed) ∧
    Exits (fillCompressed m cPredict prev slots b).2 (fun _ =>
      Predictable cPredict prev (fillCompressed m cPredict prev slots b).1 ∧
      ∀ p ∈ (fillCompressed m cPredict prev slots b).1, p.compressed ≤ maxSigned) Refused := by
  induction slots generalizing cPredict prev b with
  | nil => cases prev <;> exact ⟨rfl, exits_ok ⟨trivial, fun p hp => by cases hp⟩⟩
  | cons slot rest ih =>
      have next := takeCompressed_exits m bounded pos small b
      rw [fillCompressed]
      cases taken : takeCompressed m cPredict prev b with
      | error e => exact ⟨rfl, exits_error (next.error taken)⟩
      | ok r =>
          obtain ⟨below, pos', small', first, step⟩ := next.ok taken
          have tail := ih r.1.2 (some { slot with compressed := r.1.1 })
            (fun p hp => by cases hp; exact below) pos' small' r.2
          simp only [List.map_cons, tail.1, true_and]
          refine tail.2.mono (fun _ h => ⟨?_, ?_⟩) (fun e h => h)
          · cases prev with
            | none =>
                rw [first rfl] at h ⊢
                exact h.1
            | some p =>
                obtain ⟨less, reach, predict⟩ := step p rfl
                have tail := h.1
                rw [predict] at tail ⊢
                exact ⟨less, reach, tail⟩
          · intro p hp
            cases hp with
            | head => exact below
            | tail _ hp => exact h.2 p hp

end Fill

theorem ascends_congr {est : Nat} (prev prev' : Option OffsetPair) {l l' : List OffsetPair}
    (first : prev.map (·.uncompressed) = prev'.map (·.uncompressed))
    (same : l.map (·.uncompressed) = l'.map (·.uncompressed)) (h : Ascends est prev l) :
    Ascends est prev' l' := by
  induction l generalizing prev prev' l' with
  | nil =>
      cases l' with
      | nil => cases prev' <;> trivial
      | cons q rest => cases same
  | cons info rest ih =>
      cases l' with
      | nil => cases same
      | cons q rest' =>
          obtain ⟨head, tail⟩ := List.cons.inj same
          have next := fun h => ih (some info) (some q) (congrArg some head) tail h
          cases prev with
          | none =>
              cases prev' with
              | none => exact next h
              | some p' => cases first
          | some p =>
              cases prev' with
              | none => cases first
              | some p' =>
                  have equal := Option.some.inj first
                  simp only at equal head
                  exact ⟨equal ▸ head ▸ h.1, equal ▸ h.2.1, next h.2.2⟩

theorem reject_exits (bad : Prop) [Decidable bad] (e : Error) :
    Exits (reject bad e) (fun _ => ¬bad) Refused := by
  unfold reject
  split
  · exact exits_error (refused e)
  · next fine => exact exits_ok fine

theorem byteAt_exits {b : List UInt8} {i : Nat} (h : i < b.length) :
    Exits (byteAt b i) (fun _ => True) Refused := by
  rw [byteAt, List.getElem?_eq_getElem h]
  exact exits_ok trivial

theorem sliceFrom_ok {b : List UInt8} {n : Nat} (h : n ≤ b.length) :
    sliceFrom b n = .ok (b.drop n) := if_pos h

theorem sliceTo_ok {b : List UInt8} {n : Nat} (h : n ≤ b.length) :
    sliceTo b n = .ok (b.take n) := if_pos h

theorem sliceFrom_exits {b : List UInt8} {n : Nat} (h : n ≤ b.length) :
    Exits (sliceFrom b n) (fun r => r = b.drop n) Refused := by
  rw [sliceFrom_ok h]
  exact exits_ok rfl

theorem loadFrame_exits (bytes : List UInt8) :
    Exits (loadFrame bytes) (fun _ => True) Refused := by
  have header : indexHeader.length = 6 := rfl
  have trailer : indexTrailer.length = 6 := rfl
  refine (reject_exits _ _).bind fun _ long => ?_
  refine (byteAt_exits (by omega)).bind fun kind _ => ?_
  refine (reject_exits _ _).bind fun _ _ => ?_
  refine (byteAt_exits (by omega)).bind fun b1 _ => ?_
  refine (byteAt_exits (by omega)).bind fun b2 _ => ?_
  refine (byteAt_exits (by omega)).bind fun b3 _ => ?_
  have room : indexHeader.length ≤ (bytes.drop 4).length := by
    rw [List.length_drop]
    omega
  rw [sliceFrom_ok (by omega), ok_bind]
  refine (reject_exits _ _).bind fun _ _ => ?_
  rw [sliceTo_ok room, ok_bind]
  refine (reject_exits _ _).bind fun _ _ => ?_
  rw [sliceFrom_ok room]
  exact exits_ok trivial

theorem loadTrailer_exits (b : List UInt8) : Exits (loadTrailer b) (fun _ => True) Refused := by
  have trailer : indexTrailer.length = 6 := rfl
  refine (reject_exits _ _).bind fun _ long => ?_
  have room : indexTrailer.length ≤ (b.drop 4).length := by
    rw [List.length_drop]
    omega
  rw [sliceFrom_ok (by omega), ok_bind, sliceTo_ok room, ok_bind]
  refine (reject_exits _ _).bind fun _ _ => ?_
  rw [sliceFrom_ok room]
  exact exits_ok trivial

/-- A step that reads the input and leaves the index alone. -/
theorem runs_input {α : Type} {x : Exec α} {P : α → Prop} (h : Exits x P Refused) (s : Index) :
    Runs (liftM x : Load α) s (fun a s' => s = s' ∧ P a) (fun e _ => Refused e) :=
  runs_lift (h.mono (fun _ ha => ⟨rfl, ha⟩) (fun _ he => he))

/-- An index whose totals and estimate have been read and whose entries have not. -/
structure Sized (r : Index) : Prop where
  uncompressed : ∃ total, r.totalUncompressed = some total ∧ total ≤ maxSigned
  compressed : ∀ total ∈ r.totalCompressed, total ≤ maxSigned
  est : r.estBlockUncomp ≤ maxSigned
  zeros : ∃ n, n ≤ maxIndexEntries ∧ r.offsets = List.replicate n {}

theorem loadTotals_exits (m : Overflow) (b : List UInt8) (s : Index) :
    Runs (loadTotals m b) s (fun _ r => Sized r) (fun e _ => Refused e) := by
  have limit := maxSigned_eq
  have small {v : Int} (fits : Fits v) (pos : ¬v < 0) : v.toNat ≤ maxSigned := by
    rw [Fits] at fits
    omega
  refine (runs_input (takeVarint_exits m b) s).bind ?_
  rintro ⟨total, b⟩ _ ⟨rfl, fits, _⟩
  refine (runs_input (reject_exits _ _) _).bind ?_
  rintro _ _ ⟨rfl, total_pos⟩
  refine (runs_modify _ _).bind ?_
  rintro _ _ rfl
  refine (runs_input (takeVarint_exits m b) _).bind ?_
  rintro ⟨comp, b⟩ _ ⟨rfl, comp_fits, _⟩
  refine (runs_modify _ _).bind ?_
  rintro _ _ rfl
  refine (runs_input (takeVarint_exits m b) _).bind ?_
  rintro ⟨est, b⟩ _ ⟨rfl, est_fits, _⟩
  refine (runs_input (reject_exits _ _) _).bind ?_
  rintro _ _ ⟨rfl, est_pos⟩
  refine (runs_modify _ _).bind ?_
  rintro _ _ rfl
  refine (runs_input (takeVarint_exits m b) _).bind ?_
  rintro ⟨count, b⟩ _ ⟨rfl, _⟩
  refine (runs_input (reject_exits _ _) _).bind ?_
  rintro _ _ ⟨rfl, range⟩
  refine (runs_modify _ _).bind ?_
  rintro _ _ rfl
  refine runs_pure ⟨⟨_, rfl, small fits total_pos⟩, ?_, small est_fits est_pos, _, ?_, rfl⟩
  · intro t ht
    simp only [wireToOpt] at ht
    split at ht
    · cases ht
    · next pos =>
        cases ht
        exact small comp_fits pos
  · simp only [not_or] at range
    omega

/-- What can be stored, with totals that can be stored with it. -/
structure Loaded (r : Index) : Prop where
  uncompressed : ∃ total, r.totalUncompressed = some total ∧ total ≤ maxSigned
  compressed : ∀ total ∈ r.totalCompressed, total ≤ maxSigned
  storable : Storable r

theorem loadEntries_exits (m : Overflow) (b : List UInt8) {s : Index} (sized : Sized s) :
    Runs (loadEntries m b) s (fun _ r => Loaded r ∧ r = { s with offsets := r.offsets })
      (fun e _ => Refused e) := by
  have limit := maxSigned_eq
  refine (runs_input (reject_exits _ _) s).bind ?_
  rintro _ _ ⟨rfl, filled⟩
  have some_byte : 1 ≤ b.length := List.length_pos_of_ne_nil filled
  refine (runs_input (byteAt_exits some_byte) _).bind ?_
  rintro has _ ⟨rfl, _⟩
  refine (runs_input (sliceFrom_exits some_byte) _).bind ?_
  rintro b _ ⟨rfl, _⟩
  refine (runs_input (reject_exits _ _) _).bind ?_
  rintro _ _ ⟨rfl, _⟩
  refine (runs_get _).bind ?_
  rintro _ _ ⟨rfl, rfl⟩
  refine (runs_get _).bind ?_
  rintro _ _ ⟨rfl, rfl⟩
  rw [Machine.ofWord_small sized.est]
  obtain ⟨n, few, zeros⟩ := sized.zeros
  have ups := fillUncompressed_exits m has s.estBlockUncomp none
    (fun p hp => by cases hp) s.offsets b
  generalize fillUncompressed m has s.estBlockUncomp none s.offsets b = us at ups ⊢
  refine (runs_modify _ _).bind ?_
  rintro _ _ rfl
  refine (runs_input ups.2 _).bind ?_
  rintro b' _ ⟨rfl, ascends, u_bounded⟩
  refine (runs_get _).bind ?_
  rintro _ _ ⟨rfl, rfl⟩
  have half : (s.estBlockUncomp : Int).tdiv 2 = (s.estBlockUncomp / 2 : Nat) := by
    rw [Int.tdiv_eq_ediv_of_nonneg (by omega)]
    rfl
  have est := sized.est
  rw [half]
  have cs := fillCompressed_exits m (s.estBlockUncomp / 2 : Nat) none
    (fun p hp => by cases hp) (by omega) (by omega) us.1 b'
  generalize fillCompressed m (s.estBlockUncomp / 2 : Nat) none us.1 b' = r at cs ⊢
  refine (runs_modify _ _).bind ?_
  rintro _ _ rfl
  refine runs_lift (cs.2.mono ?_ fun e h => h)
  rintro _ ⟨predictable, c_bounded⟩
  refine ⟨⟨sized.uncompressed, sized.compressed, est, ?_, ?_, ?_, predictable⟩, rfl⟩
  · have sizes := congrArg List.length cs.1
    have sizes' := congrArg List.length ups.1
    rw [List.length_map, List.length_map] at sizes sizes'
    rw [zeros, List.length_replicate] at sizes'
    simp only
    omega
  · intro p hp
    refine ⟨c_bounded p hp, ?_⟩
    have same : p.uncompressed ∈ us.1.map (·.uncompressed) :=
      cs.1 ▸ List.mem_map_of_mem hp
    obtain ⟨q, hq, equal⟩ := List.mem_map.mp same
    exact equal ▸ u_bounded q hq
  · exact ascends_congr none none rfl cs.1.symm ascends

theorem load_exits (m : Overflow) (bytes : List UInt8) (s : Index) :
    Runs (load m bytes) s (fun _ r => Loaded r) (fun e _ => Refused e) := by
  refine (runs_input (loadFrame_exits bytes) s).bind ?_
  rintro b _ ⟨rfl, _⟩
  refine (loadTotals_exits m b _).bind fun b r sized => ?_
  refine (loadEntries_exits m b sized).bind fun b r loaded => ?_
  exact runs_lift ((loadTrailer_exits b).mono (fun _ _ => loaded.1) (fun _ h => h))

end MinLz.Index
