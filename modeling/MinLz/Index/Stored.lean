import MinLz.Index.RoundTrip
import MinLz.Index.Thinning

/-! # Which indexes can be stored

What a load accepts can be stored again. What `add` has built can be stored when
its compressed offsets strictly increase and stay far enough from the signed range
for the predictions, which `add` does not check.
-/

namespace MinLz.Index

open Machine (Overflow maxSigned ofWord Fits)
open Effects Loop

variable (m : Overflow)

theorem spaced_ascends {est : Nat} {l : List OffsetPair} (pos : 1 ≤ est) (spaced : Spaced est l)
    (bounded : Bounded l) : Ascends est none l := by
  have go : ∀ (p : OffsetPair) (l : List OffsetPair), Spaced est (p :: l) → Bounded l →
      Ascends est (some p) l := by
    intro p l
    induction l generalizing p with
    | nil => intro _ _; trivial
    | cons info rest ih =>
        intro spaced bounded
        have apart := List.rel_of_pairwise_cons spaced List.mem_cons_self
        have small := (bounded info List.mem_cons_self).2
        exact ⟨by omega, by omega, ih info spaced.of_cons
          (fun q hq => bounded q (List.mem_cons_of_mem info hq))⟩
  cases l with
  | nil => trivial
  | cons p rest => exact go p rest spaced (fun q hq => bounded q (List.mem_cons_of_mem p hq))

/-- Offsets far from the signed range keep every prediction within it. -/
theorem predictable_small {cPredict : Int} {l : List OffsetPair} (pos : 0 ≤ cPredict)
    (small : cPredict ≤ 2 ^ 62) (rising : l.Pairwise fun a b => a.compressed < b.compressed)
    (below : ∀ p ∈ l, p.compressed < 2 ^ 62) : Predictable cPredict none l := by
  have limit := maxSigned_eq
  have go : ∀ (p : OffsetPair) (l : List OffsetPair) (cPredict : Int), 0 ≤ cPredict →
      cPredict ≤ 2 ^ 62 → (p :: l).Pairwise (fun a b => a.compressed < b.compressed) →
      (∀ q ∈ p :: l, q.compressed < 2 ^ 62) → Predictable cPredict (some p) l := by
    intro p l
    induction l generalizing p with
    | nil => intro _ _ _ _ _; trivial
    | cons info rest ih =>
        intro cPredict pos small rising below
        have less := List.rel_of_pairwise_cons rising List.mem_cons_self
        have first := below p List.mem_cons_self
        have second := below info (List.mem_cons_of_mem p List.mem_cons_self)
        have half := Machine.tdiv_two ((info.compressed : Int) - (p.compressed + cPredict))
        exact ⟨less, by omega, ih info _ (by omega) (by omega) rising.of_cons
          (fun q hq => below q (List.mem_cons_of_mem p hq))⟩
  cases l with
  | nil => trivial
  | cons p rest => exact go p rest cPredict pos small rising below

/-- `append_to` writes the chunk of an index that can be stored. -/
theorem appendTo_ok {self r : Index} {totalUncomp : Nat} {totalComp : Option Nat}
    (buf : List UInt8) (uncomp : totalUncomp ≤ maxSigned)
    (comp : ∀ t ∈ totalComp, t ≤ maxSigned) (reduced : reduce m self = .ok r)
    (storable : Storable r) :
    ∃ chunk, appendTo m self buf (some totalUncomp) totalComp =
        .ok (⟨some totalUncomp, totalComp, r.offsets, r.estBlockUncomp⟩, buf ++ chunk) ∧
      chunk.length ≤ 61 + 20 * r.offsets.length ∧
      ∀ t s, load m (chunk ++ t) s =
        .ok t ⟨some totalUncomp, totalComp, r.offsets, r.estBlockUncomp⟩ := by
  have loaded : Loaded ⟨some totalUncomp, totalComp, r.offsets, r.estBlockUncomp⟩ :=
    ⟨⟨totalUncomp, rfl, uncomp⟩, comp,
      ⟨storable.est, storable.few, storable.bounded, storable.ascends, storable.predictable⟩⟩
  obtain ⟨payload, put, back⟩ := putChunk_loads m loaded
  have size := length_putPayload m put
  refine ⟨putChunk payload, ?_, ?_, back⟩
  · have inside : ¬((some totalUncomp).any (· > maxSigned) ∨ totalComp.any (· > maxSigned)) := by
      simp only [Option.any_some, Option.any_eq_true, decide_eq_true_eq, not_or]
      refine ⟨by omega, ?_⟩
      rintro ⟨t, ht, above⟩
      have := comp t ht
      omega
    rw [appendTo, if_neg inside, reduced]
    simp only [ok_bind, put, pure_ok]
  · rw [length_putChunk]
    simp only at size
    omega

theorem ascends_strict {est : Nat} {l : List OffsetPair} (h : Ascends est none l) :
    l.Pairwise fun a b => a.uncompressed < b.uncompressed := ascends_sorted h

theorem predictable_strict {cPredict : Int} {l : List OffsetPair} (h : Predictable cPredict none l) :
    l.Pairwise fun a b => a.compressed < b.compressed := predictable_sorted h

/-- Whatever its input, `load` neither leaves it nor overflows, and what it accepts
    is in order, within the signed range and stored again without a loss. -/
theorem load_sound (bytes : List UInt8) (self : Index) :
    (∀ f r, load m bytes self ≠ .error (.fault f) r) ∧
    ∀ rest r, load m bytes self = .ok rest r →
      r.offsets.length ≤ maxIndexEntries ∧
      r.offsets.Pairwise (fun a b => a.compressed < b.compressed) ∧
      r.offsets.Pairwise (fun a b => a.uncompressed < b.uncompressed) ∧
      Bounded r.offsets ∧
      (r.offsets.length < maxIndexEntries → ∀ buf, ∃ chunk,
        appendTo m r buf r.totalUncompressed r.totalCompressed = .ok (r, buf ++ chunk) ∧
        ∀ t self', load m (chunk ++ t) self' = .ok t r) := by
  have run := load_exits m bytes self
  constructor
  · intro f r failed
    obtain ⟨e, error⟩ := run.error failed
    cases error
  · intro rest r loads
    obtain ⟨⟨total, known, small⟩, comp, storable⟩ := run.ok loads
    refine ⟨storable.few, predictable_strict storable.predictable,
      ascends_strict storable.ascends, storable.bounded, fun few buf => ?_⟩
    have reduced : reduce m r = .ok r := by
      rw [reduce, if_pos few]
      rfl
    obtain ⟨chunk, put, _, back⟩ := appendTo_ok m buf small comp reduced storable
    have same : (⟨some total, r.totalCompressed, r.offsets, r.estBlockUncomp⟩ : Index) = r := by
      rw [← known]
    rw [same] at put back
    exact ⟨chunk, known ▸ put, back⟩

/-- Two blocks, the second 1 MiB behind the first. -/
def pair : Index where
  totalUncompressed := some (3 <<< 20)
  offsets := [⟨10, 0⟩, ⟨30, 1 <<< 20⟩]
  estBlockUncomp := 1 <<< 20

/-- The chunk it is stored in. -/
def pairChunk : List UInt8 :=
  putChunk [0x80, 0x80, 0x80, 3, 1, 0x80, 0x80, 0x80, 1, 4, 0, 20, 0xd7, 0xff, 63]

theorem load_sound_pair :
    load .panics (pairChunk ++ [9]) {} = .ok [9] pair ∧
    pair.offsets.Pairwise (fun a b => a.compressed < b.compressed) ∧
    ∃ chunk, appendTo .panics pair [7] (some (3 <<< 20)) none = .ok (pair, [7] ++ chunk) ∧
      load .panics (chunk ++ [1]) {} = .ok [1] pair := by
  have loads : load .panics (pairChunk ++ [9]) {} = .ok [9] pair := rfl
  obtain ⟨_, rising, _, _, stores⟩ := (load_sound .panics (pairChunk ++ [9]) {}).2 [9] pair loads
  obtain ⟨chunk, put, back⟩ := stores (by decide) [7]
  exact ⟨loads, rising, chunk, put, back [1] {}⟩

/-- An index that has been built by `add` is stored as its `reduce`, which can be
    loaded if only the predictions are within range. -/
theorem Thinned.reduce {m : Overflow} {calls : List OffsetPair} {self : Index}
    (inv : Thinned calls self) :
    Returns (reduce m self) (fun r => Reduced self r ∧
      (Predictable (r.estBlockUncomp / 2 : Nat) none r.offsets → Storable r)) := by
  have limit := maxSigned_eq
  refine (reduce_ok m inv.spaced inv.bounded).mono fun r reduced => ⟨reduced, fun predictable => ?_⟩
  have bounded : Bounded r.offsets := fun p hp => inv.bounded p (reduced.sublist.mem hp)
  have total := length_mul_le maxSigned inv.spaced (fun q hq => (inv.bounded q hq).2)
  have pos := inv.pos
  have small := inv.small
  have est : r.estBlockUncomp ≤ maxSigned := by
    rcases reduced.est with same | grown <;> omega
  have grown := reduced.grown
  exact ⟨est, reduced.few, bounded, spaced_ascends (by omega) reduced.spaced bounded, predictable⟩

/-- What `append_to` keeps of the entries that it finds, and that it writes no others. -/
structure Writes (self : Index) (buf : List UInt8) (r : Index) (out : List UInt8) : Prop where
  sublist : r.offsets.Sublist self.offsets
  first : r.offsets.head? = self.offsets.head?
  spaced : Spaced r.estBlockUncomp r.offsets
  grown : self.estBlockUncomp ≤ r.estBlockUncomp
  few : r.offsets.length ≤ maxIndexEntries
  chunk : ∃ payload, putPayload m r = .ok payload ∧ out = buf ++ putChunk payload

theorem appendTo_writes {self r : Index} {buf out : List UInt8} {totalUncomp totalComp : Option Nat}
    (spaced : Spaced self.estBlockUncomp self.offsets) (bounded : Bounded self.offsets)
    (put : appendTo m self buf totalUncomp totalComp = .ok (r, out)) : Writes m self buf r out := by
  obtain ⟨_, _, ⟨reduced, run, rfl⟩, chunk⟩ := appendTo_chunk m put
  obtain ⟨_, again, h⟩ := reduce_ok m spaced bounded
  cases run.symm.trans again
  exact ⟨h.sublist, h.first, h.spaced, h.grown, h.few, chunk⟩

/-- Whatever is added after a reset, the entries are a subsequence of the calls that starts
    with the first of them and keeps the spacing. So do the entries that `append_to` writes,
    of these and of any other list, and they are no more than can be loaded. -/
theorem add_keeps_spacing (maxBlock : Nat) (calls : List OffsetPair)
    (small : maxBlock ≤ Block.maxBlockSize) (bounded : Bounded calls)
    (rising : calls.Pairwise fun a b => a.compressed ≤ b.compressed) :
    (∃ self, addAll m (reset maxBlock) calls = .ok self ∧ self.offsets.Sublist calls ∧
      self.offsets.head? = calls.head? ∧ Spaced self.estBlockUncomp self.offsets ∧
      (∃ r, reduce m self = .ok r ∧ r.offsets.Sublist calls ∧ r.offsets.head? = calls.head? ∧
        Spaced r.estBlockUncomp r.offsets ∧ self.estBlockUncomp ≤ r.estBlockUncomp ∧
        r.offsets.length ≤ maxIndexEntries) ∧
      ∀ buf totalUncomp totalComp r out,
        appendTo m self buf totalUncomp totalComp = .ok (r, out) → Writes m self buf r out) ∧
    ∀ self : Index, Spaced self.estBlockUncomp self.offsets → Bounded self.offsets →
      (∃ r, reduce m self = .ok r ∧ r.offsets.Sublist self.offsets ∧
        r.offsets.head? = self.offsets.head? ∧ Spaced r.estBlockUncomp r.offsets ∧
        r.offsets.length ≤ maxIndexEntries) ∧
      ∀ buf totalUncomp totalComp r out,
        appendTo m self buf totalUncomp totalComp = .ok (r, out) → Writes m self buf r out := by
  constructor
  · obtain ⟨self, run, inv⟩ := addAll_ok m calls (thinned_reset small) bounded rising
    obtain ⟨r, reduced, h⟩ := reduce_ok m inv.spaced inv.bounded
    exact ⟨self, run, inv.sublist, inv.first, inv.spaced,
      ⟨r, reduced, h.sublist.trans inv.sublist, h.first.trans inv.first, h.spaced, h.grown, h.few⟩,
      fun _ _ _ _ _ put => appendTo_writes m inv.spaced inv.bounded put⟩
  · intro self spaced bounded
    obtain ⟨r, reduced, h⟩ := reduce_ok m spaced bounded
    exact ⟨⟨r, reduced, h.sublist, h.first, h.spaced, h.few⟩,
      fun _ _ _ _ _ put => appendTo_writes m spaced bounded put⟩

/-- An entry for each of many blocks. -/
def everyBlock (n : Nat) : List OffsetPair :=
  (List.range n).map fun i => ⟨i * 10, i * minIndexDist⟩

theorem everyBlock_spaced (n : Nat) : Spaced minIndexDist (everyBlock n) := by
  rw [everyBlock, Spaced, List.pairwise_map]
  refine List.pairwise_lt_range.imp fun {a b} less => ?_
  have next : (a + 1) * minIndexDist ≤ b * minIndexDist := Nat.mul_le_mul_right _ less
  rwa [Nat.add_one_mul] at next

theorem everyBlock_bounded {n : Nat} (few : n ≤ 2 ^ 40) : Bounded (everyBlock n) := by
  intro p mem
  obtain ⟨i, inside, rfl⟩ := List.mem_map.mp mem
  rw [List.mem_range] at inside
  have dist := minIndexDist_eq
  have limit := maxSigned_eq
  constructor
  · show i * 10 ≤ maxSigned
    omega
  · show i * minIndexDist ≤ maxSigned
    rw [dist]
    omega

/-- Two entries of which both are written, and a list that is too long to be loaded. -/
theorem add_keeps_spacing_pair :
    (∃ self r out, addAll .panics (reset 4096) [⟨10, 0⟩, ⟨30, 1 <<< 20⟩] = .ok self ∧
      self.offsets.Sublist [⟨10, 0⟩, ⟨30, 1 <<< 20⟩] ∧ self.offsets.head? = some ⟨10, 0⟩ ∧
      appendTo .panics self [7] (some (3 <<< 20)) none = .ok (r, out) ∧
      r.offsets.length = 2 ∧ Writes .panics self [7] r out) ∧
    ∃ r, reduce .panics { offsets := everyBlock 100000, estBlockUncomp := minIndexDist } = .ok r ∧
      r.offsets.Sublist (everyBlock 100000) ∧ r.offsets.head? = (everyBlock 100000).head? ∧
      Spaced r.estBlockUncomp r.offsets ∧ r.offsets.length ≤ maxIndexEntries := by
  have both := add_keeps_spacing .panics 4096 [⟨10, 0⟩, ⟨30, 1 <<< 20⟩] (by decide) (by decide)
    (by decide)
  constructor
  · obtain ⟨self, run, kept, first, _, _, writes⟩ := both.1
    have same : addAll .panics (reset 4096) [⟨10, 0⟩, ⟨30, 1 <<< 20⟩] =
        .ok { offsets := [⟨10, 0⟩, ⟨30, 1 <<< 20⟩], estBlockUncomp := 1 <<< 20 } := by decide +kernel
    cases run.symm.trans same
    exact ⟨_, _, _, same, kept, first, rfl, rfl, writes [7] (some (3 <<< 20)) none _ _ rfl⟩
  · have many (n : Nat) (few : n ≤ 2 ^ 40) : ∃ r,
        reduce .panics { offsets := everyBlock n, estBlockUncomp := minIndexDist } = .ok r ∧
        r.offsets.Sublist (everyBlock n) ∧ r.offsets.head? = (everyBlock n).head? ∧
        Spaced r.estBlockUncomp r.offsets ∧ r.offsets.length ≤ maxIndexEntries :=
      (both.2 { offsets := everyBlock n, estBlockUncomp := minIndexDist } (everyBlock_spaced n)
        (everyBlock_bounded few)).1
    exact many 100000 (by norm_num)

/-- Entries with strictly increasing offsets far below the signed range survive
    being thinned, stored and loaded. -/
theorem add_round_trips (maxBlock : Nat) (calls : List OffsetPair)
    (small : maxBlock ≤ Block.maxBlockSize)
    (rising : calls.Pairwise fun a b => a.compressed < b.compressed)
    (below : ∀ p ∈ calls, p.compressed < 2 ^ 60 ∧ p.uncompressed < 2 ^ 60) :
    ∃ self, addAll m (reset maxBlock) calls = .ok self ∧
      ∀ (totalUncomp : Nat) (totalComp : Option Nat) (buf : List UInt8),
        totalUncomp ≤ maxSigned → (∀ t ∈ totalComp, t ≤ maxSigned) →
        ∃ r chunk, appendTo m self buf (some totalUncomp) totalComp = .ok (r, buf ++ chunk) ∧
          chunk.length - skippableFrameHeader < 2 ^ 24 ∧
          r.totalUncompressed = some totalUncomp ∧ r.totalCompressed = totalComp ∧
          ∀ t self', load m (chunk ++ t) self' = .ok t r := by
  have limit := maxSigned_eq
  have bounded : Bounded calls := fun p hp => by
    have := below p hp
    omega
  obtain ⟨self, run, inv⟩ := addAll_ok m calls (thinned_reset small) bounded
    (rising.imp fun h => h.le)
  refine ⟨self, run, fun totalUncomp totalComp buf uncomp comp => ?_⟩
  rw [List.nil_append] at inv
  obtain ⟨r, reduced, h, storable⟩ := inv.reduce
  have kept := h.sublist.trans inv.sublist
  have total := length_mul_le (2 ^ 60) inv.spaced
    (fun q hq => (below q (inv.sublist.mem hq)).2.le)
  have est : r.estBlockUncomp / 2 ≤ 2 ^ 62 := by
    have := inv.small
    rcases h.est with same | grown <;> omega
  have few := h.few
  rw [maxIndexEntries_eq] at few
  obtain ⟨chunk, put, size, back⟩ := appendTo_ok m buf uncomp comp reduced
    (storable (predictable_small (by omega) (by omega) (rising.sublist kept)
      (fun p hp => (below p (kept.mem hp)).1.trans (by norm_num))))
  refine ⟨_, chunk, put, ?_, rfl, rfl, back⟩
  have frame : skippableFrameHeader = 4 := rfl
  omega

theorem add_round_trips_pair : ∃ self r chunk,
    addAll .panics (reset 4096) [⟨10, 0⟩, ⟨30, 1 <<< 20⟩] = .ok self ∧
      appendTo .panics self [7] (some (3 <<< 20)) none = .ok (r, [7] ++ chunk) ∧
      load .panics (chunk ++ [1]) {} = .ok [1] r := by
  obtain ⟨self, run, store⟩ := add_round_trips .panics 4096 [⟨10, 0⟩, ⟨30, 1 <<< 20⟩] (by decide)
    (by decide) (by decide)
  obtain ⟨r, chunk, put, _, _, _, back⟩ := store (3 <<< 20) none [7] (by decide) (by decide)
  exact ⟨self, r, chunk, run, put, back [1] {}⟩

/-- A chunk that is accepted with the entries it was written for has been predictable. -/
theorem loaded_predictable {m : Overflow} {self r r' start : Index} {totalUncomp : Nat}
    {totalComp : Option Nat} {buf chunk rest : List UInt8}
    (put : appendTo m self buf (some totalUncomp) totalComp = .ok (r, buf ++ chunk))
    (est : r.estBlockUncomp ≤ maxSigned) (few : r.offsets.length ≤ maxIndexEntries)
    (loads : load m chunk start = .ok rest r') (same : r'.offsets = r.offsets) :
    Predictable (r.estBlockUncomp / 2 : Nat) none r.offsets := by
  have entries := maxIndexEntries_eq
  have limit := maxSigned_eq
  obtain ⟨uncomp, comp, ⟨reduced, _, rfl⟩, payload, stored, out⟩ := appendTo_chunk m put
  simp only at est few
  obtain rfl := List.append_cancel_left out
  obtain ⟨_, wire, has, columns, first, second, _, rfl⟩ := putPayload_fields m stored
  obtain ⟨_, known, fits, _⟩ := optToWire_ok comp
  obtain ⟨_, known', fits', _⟩ := optToWire_ok uncomp
  cases first.symm.trans known'
  cases second.symm.trans known
  rw [← List.append_nil (putChunk _)] at loads
  obtain ⟨tail, b, s, b', _, totals, filled⟩ := load_putChunk m loads
  simp only [List.append_assoc, Machine.ofWord_small est] at totals
  obtain ⟨_, _, _, _, _, read⟩ := (loadTotals_reads m fits' fits (Machine.fits_small est)
    (Machine.fits_small (by omega)) (has :: columns ++ tail) start).ok totals
  have sized := (loadTotals_exits m _ start).ok totals
  obtain ⟨loaded, frame⟩ := (loadEntries_exits m b sized).ok filled
  have predictable := loaded.storable.predictable
  rw [same] at predictable
  rw [frame, read, Int.toNat_natCast] at predictable
  exact predictable

/-- What `add` has accepted can be stored and loaded again exactly when the stored
    entries strictly increase and each prediction is within the signed range. -/
theorem add_storable_iff (maxBlock : Nat) (calls : List OffsetPair) (self start : Index)
    (totalUncomp : Nat) (totalComp : Option Nat) (buf : List UInt8)
    (small : maxBlock ≤ Block.maxBlockSize)
    (run : addAll .panics (reset maxBlock) calls = .ok self) (uncomp : totalUncomp ≤ maxSigned)
    (comp : ∀ t ∈ totalComp, t ≤ maxSigned) :
    (∃ r chunk, appendTo .panics self buf (some totalUncomp) totalComp = .ok (r, buf ++ chunk) ∧
      ∃ r', load .panics chunk start = .ok [] r' ∧ r'.offsets = r.offsets) ↔
    ∃ r, reduce .panics self = .ok r ∧
      Predictable (r.estBlockUncomp / 2 : Nat) none r.offsets := by
  have inv := addAll_inv .panics (thinned_reset small) run
  obtain ⟨reduced, reduces, h, storable⟩ := inv.reduce
  have limit := maxSigned_eq
  constructor
  · rintro ⟨r, chunk, put, r', loads, same⟩
    obtain ⟨_, _, ⟨reduced', reduces', rfl⟩, _⟩ := appendTo_chunk .panics put
    have total := length_mul_le maxSigned inv.spaced (fun q hq => (inv.bounded q hq).2)
    have block := inv.small
    cases reduces.symm.trans reduces'
    have est : reduced.estBlockUncomp ≤ maxSigned := by
      rcases h.est with same | grown <;> omega
    exact ⟨reduced, reduces, (loaded_predictable put est h.few loads same :)⟩
  · rintro ⟨r, reduces', predictable⟩
    cases reduces.symm.trans reduces'
    obtain ⟨chunk, put, _, back⟩ := appendTo_ok .panics buf uncomp comp reduces
      (storable predictable)
    refine ⟨_, chunk, put, _, ?_, rfl⟩
    have loads := back [] start
    rwa [List.append_nil] at loads

theorem add_storable_iff_pair :
    ∃ r chunk, appendTo .panics { offsets := [⟨10, 0⟩, ⟨30, 1 <<< 20⟩], estBlockUncomp := 1 <<< 20 }
        [] (some (3 <<< 20)) none = .ok (r, [] ++ chunk) ∧
      ∃ r', load .panics chunk {} = .ok [] r' ∧ r'.offsets = r.offsets :=
  (add_storable_iff (1 <<< 20) [⟨10, 0⟩, ⟨30, 1 <<< 20⟩] _ {} (3 <<< 20) none [] (by decide)
    (by rw [reset_large (by decide)]; rfl) (by decide) (by decide)).mpr ⟨_, rfl, by decide⟩

/-- Two entries at one compressed offset are accepted and stored, and never loaded. -/
theorem add_equal_not_loaded : ∃ self r chunk,
    addAll .panics (reset (1 <<< 20)) [⟨5, 0⟩, ⟨5, 1 <<< 20⟩] = .ok self ∧
      appendTo .panics self [] (some (2 <<< 20)) (some 10) = .ok (r, chunk) ∧
      ∀ rest r', load .panics chunk {} ≠ .ok rest r' := by
  rw [reset_large (by decide)]
  refine ⟨_, _, _, rfl, rfl, fun rest r' loads => ?_⟩
  cases loads

end MinLz.Index
