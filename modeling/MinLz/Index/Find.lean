import MinLz.Index.Offsets

/-! # Lookup in an index

Long lists are bisected and short ones scanned. On sorted entries both find the
last one at or before the offset, so the length does not matter.
-/

namespace MinLz.Index

/-- The entries at or before an offset. -/
def upTo (offset : Nat) (offsets : List OffsetPair) : List OffsetPair :=
  offsets.filter (·.uncompressed ≤ offset)

abbrev Sorted (offsets : List OffsetPair) : Prop :=
  offsets.Pairwise fun a b => a.uncompressed ≤ b.uncompressed

variable {offset : Nat} {p : OffsetPair} {rest offsets : List OffsetPair}

theorem upTo_cons_of_le (le : p.uncompressed ≤ offset) :
    upTo offset (p :: rest) = p :: upTo offset rest :=
  List.filter_cons_of_pos (decide_eq_true le)

theorem upTo_cons_of_lt (sorted : Sorted (p :: rest)) (past : offset < p.uncompressed) :
    upTo offset (p :: rest) = [] := by
  rw [upTo, List.filter_eq_nil_iff]
  intro q hq
  have le : p.uncompressed ≤ q.uncompressed := by
    cases hq with
    | head => exact le_rfl
    | tail _ hq => exact List.rel_of_pairwise_cons sorted hq
  simp only [decide_eq_true_eq]
  omega

variable (offset)

theorem findScanning_eq (best : OffsetPair) (sorted : Sorted offsets) :
    findScanning offset best offsets = (upTo offset offsets).getLast?.getD best := by
  induction offsets generalizing best with
  | nil => rfl
  | cons p rest ih =>
      rw [findScanning]
      split
      · next past =>
          rw [upTo_cons_of_lt sorted past]
          rfl
      · next le =>
          rw [ih p sorted.of_cons, upTo_cons_of_le (Nat.not_lt.mp le), List.getLast?_cons,
            Option.getD_some]

/-- The entries at or before an offset come first. -/
theorem partitioned_upTo (sorted : Sorted offsets) :
    Search.Partitioned (fun i => offsets[i]?.any (·.uncompressed ≤ offset)) offsets.length
      (upTo offset offsets).length := by
  induction offsets with
  | nil => exact ⟨le_rfl, fun i hi => absurd hi (Nat.not_lt_zero i), fun _ _ _ => rfl⟩
  | cons p rest ih =>
      obtain ⟨inside, below, above⟩ := ih sorted.of_cons
      by_cases le : p.uncompressed ≤ offset
      · rw [upTo_cons_of_le le]
        refine ⟨Nat.succ_le_succ inside, ?_, ?_⟩
        · intro i hi
          cases i with
          | zero => exact decide_eq_true le
          | succ i => exact below i (Nat.lt_of_succ_lt_succ hi)
        · intro i hi len
          cases i with
          | zero => exact absurd hi (Nat.not_succ_le_zero _)
          | succ i => exact above i (Nat.le_of_succ_le_succ hi) (Nat.lt_of_succ_lt_succ len)
      · have past := Nat.lt_of_not_le le
        rw [upTo_cons_of_lt sorted past]
        refine ⟨Nat.zero_le _, fun i hi => absurd hi (Nat.not_lt_zero i), ?_⟩
        intro i _ hi
        cases i with
        | zero => exact decide_eq_false le
        | succ i =>
            have here : i < rest.length := Nat.lt_of_succ_lt_succ hi
            have := List.rel_of_pairwise_cons sorted (List.getElem_mem here)
            simp only [List.getElem?_cons_succ, List.getElem?_eq_getElem here, Option.any_some]
            exact decide_eq_false (by omega)

theorem take_upTo (sorted : Sorted offsets) :
    offsets.take (upTo offset offsets).length = upTo offset offsets := by
  induction offsets with
  | nil => rfl
  | cons p rest ih =>
      by_cases le : p.uncompressed ≤ offset
      · rw [upTo_cons_of_le le, List.length_cons, List.take_succ_cons, ih sorted.of_cons]
      · rw [upTo_cons_of_lt sorted (Nat.lt_of_not_le le)]
        rfl

theorem findBisecting_eq (sorted : Sorted offsets) :
    findBisecting offsets offset = (upTo offset offsets).getLast?.getD {} := by
  have part := partitioned_upTo offset sorted
  have first := take_upTo offset sorted
  have inside := part.inside
  rw [findBisecting, Search.partitionPoint_eq part]
  split
  · next none => rw [List.eq_nil_of_length_eq_zero none, List.getLast?_nil, Option.getD_none]
  · next some =>
      have last : (upTo offset offsets).getLast? = offsets[(upTo offset offsets).length - 1]? := by
        rw [List.getLast?_eq_getElem?]
        conv_lhs => rw [← first]
        rw [List.getElem?_take_of_lt (by rw [first]; omega), first]
      rw [last, List.getD_eq_getElem?_getD]

/-- `find` is the last entry at or before the offset, whichever way it looks. -/
theorem find_last (self : Index) (offset : Nat) (sorted : Sorted self.offsets) :
    self.find offset = (upTo offset self.offsets).getLast?.getD {} ∧
    findBisecting self.offsets offset = findScanning offset {} self.offsets := by
  have scan := findScanning_eq offset {} sorted
  have bisect := findBisecting_eq offset sorted
  refine ⟨?_, bisect.trans scan.symm⟩
  rw [find]
  split_ifs with empty long
  · rw [empty]
    rfl
  · exact bisect
  · exact scan

/-- Entries at one offset: the last of them is found. -/
theorem find_last_tie :
    ({ offsets := [⟨10, 5⟩, ⟨20, 5⟩, ⟨30, 9⟩] } : Index).find 6 =
      (upTo 6 [⟨10, 5⟩, ⟨20, 5⟩, ⟨30, 9⟩]).getLast?.getD {} ∧
    findBisecting [⟨10, 5⟩, ⟨20, 5⟩, ⟨30, 9⟩] 6 =
      findScanning 6 {} [⟨10, 5⟩, ⟨20, 5⟩, ⟨30, 9⟩] :=
  find_last { offsets := [⟨10, 5⟩, ⟨20, 5⟩, ⟨30, 9⟩] } 6 (by decide)

end MinLz.Index
