import MinLz.Stream.Rest

/-! # Reading a stream to its end

Reads that succeed until one hands out nothing have handed out the whole payload. That is
so exactly when the payload is what the reader has in front of it.
-/

namespace MinLz.Stream

open Machine (Overflow)
open Effects Loop

variable {σ : Type} (m : Overflow) (mem : Nat → UInt8)

/-- Reads succeed and hand out these bytes, and then one with room hands out nothing. -/
def DecodesTo (s : Reader σ) (payload : List UInt8) : Prop :=
  ∃ last len s', Reads m mem s payload last ∧ len ≠ 0 ∧ read m mem len last = .ok [] s'

section ToEnd

variable {m mem} {s s' : Reader σ} {payload left : List UInt8} {ahead : List (Option UInt8)}

/-- What is left before moving within the block at hand. -/
theorem Rest.unmove {n : Nat} (within : s.decodedPos ≤ s.decoded.length) (le : n ≤ s.unread)
    (h : Rest mem { s with decodedPos := s.decodedPos + n } left) :
    Rest mem s ((s.decoded.drop s.decodedPos).take n ++ left) := by
  obtain ⟨hand, rest⟩ := h.at_hand
  have length : (s.decoded.drop s.decodedPos).length = s.unread := List.length_drop
  by_cases none : s.unread = 0
  · obtain rfl : n = 0 := Nat.le_zero.mp (none ▸ le)
    rw [List.take_zero, List.nil_append]
    exact h
  · have unread : s.decodedPos < s.decoded.length := by
      rw [Reader.unread] at none
      omega
    rw [hand, ← List.append_assoc]
    have whole : (s.decoded.drop s.decodedPos).take n ++ s.decoded.drop (s.decodedPos + n) =
        s.decoded.drop s.decodedPos := by
      rw [← List.drop_drop, List.take_append_drop]
    simp only at whole ⊢
    rw [whole]
    exact .block unread rest

/-- Filling the block leaves as much in front of the reader as before. -/
theorem Live.refill (live : Live s ahead) :
    Runs (fillDecoded mem) s
      (fun more s' => Live s' ahead ∧ (∀ left, Rest mem s' left → Rest mem s left) ∧
        if more then s'.decodedPos < s'.decoded.length else Rest mem s' [])
      fun _ _ => True := by
  refine (runs_get s).bind ?_
  rintro _ _ ⟨rfl, rfl⟩
  refine runs_runM (fun _ t => Live t ahead ∧ ∀ left, Rest mem t left → Rest mem s left)
    (fun _ t => t.r.length) ?_ ⟨live, fun _ h => h⟩ (Nat.lt_succ_self _)
  rintro _ t ⟨live, back⟩
  refine (runs_get t).bind ?_
  rintro _ _ ⟨rfl, rfl⟩
  split
  · next unread => exact runs_pure ⟨live, back, by rwa [if_pos rfl]⟩
  · next all =>
      have drained : Drained t := Nat.le_antisymm live.pos (Nat.not_lt.mp all)
      cases run : nextRead mem t with
      | error e t' => exact (runs_error run trivial : Runs (nextRead mem) t _ _).bind fun _ _ h => h
      | ok got t' =>
          have takes := (live.takes mem all).ok run
          refine Runs.step run ?_
          cases got with
          | none =>
              obtain ⟨rfl, _⟩ := takes
              refine runs_pure ⟨live, back, ?_⟩
              rw [if_neg Bool.false_ne_true]
              exact .ended drained run
          | some _ =>
              obtain ⟨live', shorter⟩ := takes
              exact runs_pure ⟨⟨live', fun left h => back left (.chunk drained run h)⟩, shorter⟩

/-- A read hands out the front of what is left; one with room that hands out nothing is at
    the end. -/
theorem Live.reread (live : Live s ahead) (len : Nat) :
    Runs (Stream.read m mem len) s
      (fun bytes s' => (∃ ahead, Live s' ahead) ∧
        (∀ left, Rest mem s' left → Rest mem s (bytes ++ left)) ∧
        (len ≠ 0 → bytes = [] → Rest mem s []))
      fun _ _ => True := by
  refine Runs.step (checkErr_clear live.err) ?_
  split
  · next none => exact runs_pure ⟨⟨_, live⟩, fun _ h => h, fun some => absurd none some⟩
  · refine live.refill.bind fun more s1 ⟨live, back, filled⟩ => ?_
    cases more with
    | false =>
        rw [if_neg Bool.false_ne_true] at filled
        exact runs_pure ⟨⟨_, live⟩, back, fun _ _ => back [] filled⟩
    | true =>
        rw [if_pos rfl] at filled
        refine Runs.step rfl (Runs.step (lift_ok (available_ok m live.pos live.small)) ?_)
        refine Runs.step rfl ?_
        set n := min (s1.decoded.length - s1.decodedPos) len with taken
        have le : n ≤ s1.unread := Nat.min_le_left _ _
        refine runs_pure ⟨⟨_, live.move le⟩, fun left h => back _ (h.unmove live.pos le), ?_⟩
        intro some none
        have length := congrArg List.length none
        rw [List.length_take, List.length_drop, List.length_nil] at length
        omega

/-- A read hands out bytes while there are any. -/
theorem Rest.read (h : Rest mem s payload) (live : Live s ahead) {len : Nat} (room : len ≠ 0) :
    ∃ n s', Stream.read m mem len s = .ok (payload.take n) s' ∧ Rest mem s' (payload.drop n) ∧
      (∃ ahead, Live s' ahead) ∧ (payload ≠ [] → 0 < n) := by
  have runs : Runs (Stream.read m mem len) s
      (fun bytes s' => ∃ n, bytes = payload.take n ∧ Rest mem s' (payload.drop n) ∧
        (∃ ahead, Live s' ahead) ∧ (payload ≠ [] → 0 < n)) fun _ _ => False := by
    refine Runs.step (checkErr_clear live.err) ?_
    rw [if_neg room]
    refine (h.fill (K := fun _ => True) (fun _ _ _ _ _ => trivial) trivial live).bind ?_
    rintro more s1 ⟨_, rest, live, filled⟩
    cases more with
    | false =>
        rw [if_neg Bool.false_ne_true] at filled
        exact runs_pure ⟨0, rfl, rest, ⟨_, live⟩, fun some => absurd filled.1 some⟩
    | true =>
        rw [if_pos rfl] at filled
        refine Runs.step rfl (Runs.step (lift_ok (available_ok m live.pos live.small)) ?_)
        refine Runs.step rfl ?_
        set n := min (s1.decoded.length - s1.decodedPos) len with taken
        have le : n ≤ s1.unread := Nat.min_le_left _ _
        refine runs_pure ⟨n, ?_, rest.move le, ⟨_, live.move le⟩, fun _ => by omega⟩
        rw [rest.at_hand.1, List.take_append_of_le_length (by rw [List.length_drop]; exact le)]
  cases run : Stream.read m mem len s with
  | error e s' => exact (runs.error run).elim
  | ok bytes s' =>
      obtain ⟨n, rfl, facts⟩ := runs.ok run
      exact ⟨n, s', rfl, facts⟩

/-- Reading to the end hands out what the reader has in front of it. -/
theorem decodesTo_iff (live : Live s ahead) : DecodesTo m mem s payload ↔ Rest mem s payload := by
  constructor
  · rintro ⟨last, len, s', reads, room, empty⟩
    induction reads generalizing ahead with
    | refl s => exact ((live.reread len).ok empty).2.2 room rfl
    | step run some _ ih =>
        obtain ⟨⟨_, live'⟩, back, _⟩ := (live.reread _).ok run
        exact back _ (ih live' empty)
  · intro rest
    induction size : payload.length using Nat.strong_induction_on generalizing s payload ahead with
    | _ k ih =>
        obtain ⟨n, s', run, rest', ⟨_, live'⟩, more⟩ := rest.read (m := m) live Nat.one_ne_zero
        by_cases none : payload = []
        · subst none
          rw [List.take_nil] at run
          exact ⟨s, 1, s', .refl s, Nat.one_ne_zero, run⟩
        · have moved := more none
          have pos := List.length_pos_iff.mpr none
          have shorter : (payload.drop n).length < k := by
            rw [List.length_drop]
            omega
          obtain ⟨last, len, t, reads, room, empty⟩ := ih _ shorter live' rest' rfl
          refine ⟨last, len, t, ?_, room, empty⟩
          rw [← List.take_append_drop n payload]
          refine .step run ?_ reads
          intro nothing
          have length := congrArg List.length nothing
          rw [List.length_take, List.length_nil] at length
          omega

theorem decodesTo_of_outcomes (lens : List Nat) (blocks : List (List UInt8)) {len : Nat}
    (h : outcomes m mem (lens ++ [len]) s = blocks.map .ok ++ [.ok []])
    (even : lens.length = blocks.length) (some : [] ∉ blocks) (room : len ≠ 0) :
    DecodesTo m mem s blocks.flatten := by
  induction lens generalizing blocks s with
  | nil =>
      obtain rfl := List.eq_nil_of_length_eq_zero even.symm
      rw [List.nil_append, outcomes] at h
      split at h
      · next bytes s1 run =>
          cases h
          exact ⟨s, len, s1, .refl s, room, run⟩
      · cases h
      · cases h
  | cons first lens ih =>
      obtain ⟨block, blocks, rfl⟩ := List.exists_cons_of_length_eq_add_one even.symm
      rw [List.cons_append, outcomes, List.map_cons, List.cons_append] at h
      rw [List.mem_cons, not_or] at some
      split at h
      · next bytes s1 run =>
          obtain ⟨same, rest⟩ := List.cons.inj h
          cases same
          obtain ⟨last, n, t, reads, room', empty⟩ := ih _ rest (Nat.succ.inj even) some.2
          exact ⟨last, n, t, .step run (Ne.symm some.1) reads, room', empty⟩
      · cases h
      · cases h

end ToEnd

end MinLz.Stream
