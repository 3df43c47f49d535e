import MinLz.Block.Format
import MinLz.Lib.Lz77

/-! # What a block means

A block is a sequence of tokens. `header` reads one token's header bytes,
`step` applies the token to the output so far, and `decodeFrom` runs to the end
of the block. This is the meaning that the decoder's two loops and the three
encoders are compared with; it is written with plain arithmetic on words and
knows nothing of how either side moves bytes.
-/

namespace MinLz.Block

/-- A parsed token header. A literal run has `length` literals; any other token
    has `lits` fused literals and then copies `length` bytes from `offset` back. -/
structure Header where
  literal : Bool
  lits : Nat
  length : Nat
  offset : Nat
  /-- position after the header -/
  s : Nat
  deriving DecidableEq, Repr

namespace Token

/-- The header `h` with its length read from `k` extra bytes, stored less its
    `base`; with none, `h` has its length already. -/
def withLength (b : Slice) (h : Header) (k base : Nat) : Option Header :=
  if h.s + k ≤ b.len then
    some { h with length := if k = 0 then h.length else b.word k h.s + base, s := h.s + k }
  else none

/-- The header at `s`; a repeat takes over the previous `offset`. -/
def header (b : Slice) (s offset : Nat) : Option Header :=
  let tag := (b.get s).toNat
  if tag % 4 = 0 then
    withLength b ⟨tag / 4 % 2 = 0, 0, tag / 8 + 1, offset, s + 1⟩ (tag / 8 - 28) 30
  else if tag % 4 = 1 then
    let value := b.word 2 s
    withLength b ⟨false, 0, value / 4 % 16 + 4, value / 64 + 1, s + 2⟩ (value / 4 % 16 / 15) 18
  else if tag % 4 = 2 then
    withLength b ⟨false, 0, tag / 4 + 4, b.word 2 (s + 1) + minCopy2Offset, s + 3⟩ (tag / 4 - 60) 64
  else
    let value := b.word 4 s
    if b.len < s + 4 then none
    else if value / 4 % 2 = 0 then
      some ⟨false, value / 8 % 4 + 1, value / 32 % 8 + 4, value / 256 % 65536 + minCopy2Offset,
        s + 3⟩
    else
      withLength b ⟨false, value / 8 % 4, value / 32 % 64 + 4, value / 2048 + minCopy3Offset, s + 4⟩
        (value / 32 % 64 - 60) 64

structure State where
  s : Nat
  out : List UInt8
  offset : Nat

/-- Apply the token at `st.s` when its literals are in the block, its copy
    starts inside the output and `dlen` bytes of output have room for it. -/
def step (b : Slice) (dlen : Nat) (st : State) : Option State :=
  match header b st.s st.offset with
  | none => none
  | some h =>
    if h.literal then
      if st.out.length + h.length ≤ dlen ∧ h.s + h.length ≤ b.len then
        some ⟨h.s + h.length, st.out ++ b.list h.s h.length, h.offset⟩
      else none
    else
      let out := st.out ++ b.list h.s h.lits
      if h.s + h.lits ≤ b.len ∧ 1 ≤ h.offset ∧ h.offset ≤ out.length ∧
          out.length + h.length ≤ dlen then
        some ⟨h.s + h.lits, Lz77.copy h.offset h.length out, h.offset⟩
      else none

section Kinds

variable {b : Slice} {s : Nat} (offset : Nat)

theorem header_run (kind : (b.get s).toNat % 4 = 0) : header b s offset =
    withLength b ⟨(b.get s).toNat / 4 % 2 = 0, 0, (b.get s).toNat / 8 + 1, offset, s + 1⟩
      ((b.get s).toNat / 8 - 28) 30 := by
  simp [header, kind]

theorem header_copy1 (kind : (b.get s).toNat % 4 = 1) : header b s offset =
    withLength b ⟨false, 0, b.word 2 s / 4 % 16 + 4, b.word 2 s / 64 + 1, s + 2⟩
      (b.word 2 s / 4 % 16 / 15) 18 := by
  simp [header, kind]

theorem header_copy2 (kind : (b.get s).toNat % 4 = 2) : header b s offset =
    withLength b ⟨false, 0, (b.get s).toNat / 4 + 4, b.word 2 (s + 1) + minCopy2Offset, s + 3⟩
      ((b.get s).toNat / 4 - 60) 64 := by
  simp [header, kind]

theorem header_fused2 (kind : (b.get s).toNat % 4 = 3) (inside : s + 4 ≤ b.len)
    (short : b.word 4 s / 4 % 2 = 0) : header b s offset =
    some ⟨false, b.word 4 s / 8 % 4 + 1, b.word 4 s / 32 % 8 + 4,
      b.word 4 s / 256 % 65536 + minCopy2Offset, s + 3⟩ := by
  simp [header, kind, short, Nat.not_lt.mpr inside]

theorem header_copy3 (kind : (b.get s).toNat % 4 = 3) (inside : s + 4 ≤ b.len)
    (long : b.word 4 s / 4 % 2 = 1) : header b s offset =
    withLength b ⟨false, b.word 4 s / 8 % 4, b.word 4 s / 32 % 64 + 4,
      b.word 4 s / 2048 + minCopy3Offset, s + 4⟩ (b.word 4 s / 32 % 64 - 60) 64 := by
  simp [header, kind, long, Nat.not_lt.mpr inside]

theorem header_truncated (kind : (b.get s).toNat % 4 = 3) (past : b.len < s + 4) :
    header b s offset = none := by
  simp [header, kind, past]

end Kinds

theorem withLength_eq_some {b : Slice} {h h' : Header} {k base : Nat}
    (e : withLength b h k base = some h') :
    h'.s = h.s + k ∧ h'.s ≤ b.len ∧ h'.offset = h.offset ∧ h'.lits = h.lits ∧
      (h'.length = h.length ∨ base ≤ h'.length) := by
  simp only [withLength] at e
  split at e
  · next inside =>
      cases e
      refine ⟨rfl, inside, rfl, rfl, ?_⟩
      simp only
      split
      · exact .inl rfl
      · exact .inr (Nat.le_add_left _ _)
  · cases e

/-- A header is read from inside the block and takes one to seven bytes; fused
    literals come with a copy of four bytes or more. -/
theorem header_bounds {b : Slice} {s offset : Nat} {h : Header} (e : header b s offset = some h) :
    s < h.s ∧ h.s ≤ b.len ∧ h.s ≤ s + 7 ∧ (1 ≤ offset → 1 ≤ h.offset) ∧ h.lits ≤ 4 ∧
      (0 < h.lits → 4 ≤ h.length) := by
  have byte := (b.get s).toNat_lt
  simp only [header] at e
  split_ifs at e
  all_goals first
    | obtain ⟨hs, inside, ho, hl, hn⟩ := withLength_eq_some e
      simp only [minCopy2Offset, minCopy3Offset] at *
      exact ⟨by omega, by omega, by omega, by omega, by omega, by omega⟩
    | cases e
      simp only [minCopy2Offset]
      exact ⟨by omega, by omega, by omega, by omega, by omega, by omega⟩

theorem step_bounds {b : Slice} {dlen : Nat} {st st' : State}
    (e : step b dlen st = some st') : st.s < st'.s ∧ st'.s ≤ b.len := by
  simp only [step] at e
  split at e
  · cases e
  · next h eh =>
      obtain ⟨forward, _⟩ := header_bounds eh
      split_ifs at e <;> cases e <;> exact ⟨by simp only; omega, by simp only; omega⟩

/-- The output of the whole block, if every token of it is well formed and the
    tokens produce exactly `dlen` bytes. -/
def decodeFrom (b : Slice) (dlen : Nat) (st : State) : Option (List UInt8) :=
  if _inside : st.s < b.len then
    match _e : step b dlen st with
    | none => none
    | some st' => decodeFrom b dlen st'
  else if st.out.length = dlen then some st.out else none
termination_by b.len - st.s
decreasing_by
  have := step_bounds ‹_›
  omega

def start : State := ⟨0, [], 1⟩

def decode (b : Slice) (dlen : Nat) : Option (List UInt8) := decodeFrom b dlen start

theorem decodeFrom_step {b : Slice} {dlen : Nat} {st st' : State} (hs : st.s < b.len)
    (e : step b dlen st = some st') : decodeFrom b dlen st = decodeFrom b dlen st' := by
  rw [decodeFrom, dif_pos hs]
  split
  · next h => rw [e] at h; cases h
  · next h => rw [e] at h; cases h; rfl

/-- Token after token of `b`. -/
def Steps (b : Slice) (dlen : Nat) : State → State → Prop :=
  Relation.ReflTransGen (fun st st' => step b dlen st = some st')

theorem Steps.decodeFrom_eq {b : Slice} {dlen : Nat} {st st' : State} (steps : Steps b dlen st st') :
    decodeFrom b dlen st = decodeFrom b dlen st' := by
  induction steps with
  | refl => rfl
  | tail _ e ih =>
      obtain ⟨forward, inside⟩ := step_bounds e
      exact ih.trans (decodeFrom_step (Nat.lt_of_lt_of_le forward inside) e)

theorem decodeFrom_stuck {b : Slice} {dlen : Nat} {st : State} (hs : st.s < b.len)
    (e : step b dlen st = none) : decodeFrom b dlen st = none := by
  rw [decodeFrom, dif_pos hs]
  split
  · rfl
  · next h => rw [e] at h; cases h

theorem decodeFrom_end {b : Slice} {dlen : Nat} {st : State} (hs : b.len ≤ st.s) :
    decodeFrom b dlen st = if st.out.length = dlen then some st.out else none := by
  rw [decodeFrom, dif_neg (Nat.not_lt.mpr hs)]

end Token

end MinLz.Block
