import MinLz.Block.Encoder

/-! # The fastest encoder

One body serves blocks past 64 KiB and, with two table sizes, smaller ones; a
`Variant` holds what differs. A function of the body that can end the whole
block does so through `Exit`.
-/

namespace MinLz.Block

/-- `s.wrapping_sub(repeat).wrapping_add(1)` on 64-bit words. -/
def repeatPosition (s offset : Nat) : Nat := (s + 2 ^ 64 - offset + 1) % 2 ^ 64

namespace L1

structure Variant where
  tableBits : Nat
  hash : Nat → Nat
  hash_lt : ∀ u, hash u < 2 ^ tableBits
  /-- a position as a table entry -/
  entry : Nat → Nat
  skipLog : Nat
  /-- a candidate is within the longest offset of a position -/
  near : Nat → Nat → Bool
  maxFused : Nat
  emitFused : Slice → Nat → List UInt8 → Nat → Nat → Exec (Slice × Nat)

structure State where
  dst : Slice
  d : Nat
  table : Table
  s : Nat
  cv : Nat
  nextEmit : Nat
  offset : Nat

inductive Search where
  | found (st : State) (candidate : Nat)
  | exit (e : Exit State)

section Body

variable (v : Variant) (src : Slice) (sLimit dstLimit : Nat)

/-- The match of the last offset one byte ahead, already verified. -/
def emitRepeatMatch (st : State) : Exec (Iter State Search) := do
  let i ← sub (st.s + 1) st.offset
  let (_, base) ← extendBack src st.nextEmit i (st.s + 1)
  if st.d + (← sub base st.nextEmit) > dstLimit then return .done (.exit (.giveUp st.dst))
  let (dst, d) ← emitLiteral st.dst st.d (← range src st.nextEmit base)
  let cand := (← sub st.s st.offset) + 4 + 1
  let s ← extendWords src (st.s + 4 + 1) cand
  let (dst, d) ← emitRepeat dst d (← sub s base)
  let st := { st with dst, d, s, nextEmit := s }
  if s ≥ sLimit then return .done (.exit (.finish st))
  return .next { st with cv := ← load64 src s }

def searchStep (st : State) : Exec (Iter State Search) := do
  let nextS := st.s + (← sub st.s st.nextEmit) >>> v.skipLog + 4
  if nextS > sLimit then return .done (.exit (.finish st))
  let hash0 := v.hash st.cv
  let hash1 := v.hash (st.cv >>> 8)
  let c0 ← st.table.get hash0
  let c1 ← st.table.get hash1
  let table ← st.table.set hash0 (v.entry st.s)
  let table ← table.set hash1 (v.entry (st.s + 1))
  let hash2 := v.hash (st.cv >>> 16)
  let st := { st with table }
  let prev := repeatPosition st.s st.offset
  if ← hit src (prev ≤ st.s) (st.cv >>> 8) prev then
    return ← emitRepeatMatch src sLimit dstLimit st
  if ← hit src (v.near c0 st.s) st.cv c0 then return .done (.found st c0)
  let c2 ← table.get hash2
  let table ← table.set hash2 (v.entry (st.s + 2))
  let st := { st with table }
  if ← hit src (v.near c1 (st.s + 1)) (st.cv >>> 8) c1 then
    return .done (.found { st with s := st.s + 1 } c1)
  if ← hit src (v.near c2 (st.s + 2)) (st.cv >>> 16) c2 then
    return .done (.found { st with s := st.s + 2 } c2)
  return .next { st with cv := ← load64 src nextS, s := nextS }

/-- Extend the match found at `candidate` both ways and emit it. -/
def emitMatch (st : State) (candidate : Nat) : Exec (Option State) := do
  let (candidatePos, base) ← extendBack src st.nextEmit candidate st.s
  let offset ← sub base candidatePos
  let s ← extendWords src (base + 4) (candidatePos + 4)
  let length ← sub s base
  let st := { st with s, offset }
  if st.nextEmit ≠ base then
    let litCount ← sub base st.nextEmit
    if litCount > v.maxFused ∨ offset < minCopy2Offset then
      if st.d + litCount > dstLimit then return none
      let (dst, d) ← emitLiteral st.dst st.d (← range src st.nextEmit base)
      let (dst, d) ← emitCopy dst d offset length
      return some { st with dst, d }
    else
      let (dst, d) ← v.emitFused st.dst st.d (← range src st.nextEmit base) offset length
      return some { st with dst, d }
  else
    let (dst, d) ← emitCopy st.dst st.d offset length
    return some { st with dst, d }

/-- One pass of the immediate-match loop; done with the state to search from. -/
def immediateStep (st : State) : Exec (Iter State (State ⊕ Exit State)) := do
  let st := { st with nextEmit := st.s }
  if st.s ≥ sLimit then return .done (.inr (.finish st))
  let x ← load64 src (← sub st.s 2)
  if st.d > dstLimit then return .done (.inr (.giveUp st.dst))
  let m2Hash := v.hash x
  let currHash := v.hash (x >>> 16)
  let cand ← st.table.get currHash
  let table ← st.table.set m2Hash (v.entry (st.s - 2))
  let table ← table.set currHash (v.entry st.s)
  let st := { st with table }
  if !(← hit src (v.near cand st.s) (x >>> 16) cand) then
    return .done (.inl { st with cv := ← load64 src (st.s + 1), s := st.s + 1 })
  let offset ← sub st.s cand
  let s ← extendWords src (st.s + 4) (cand + 4)
  let (dst, d) ← emitCopy st.dst st.d offset (← sub s st.s)
  return .next { st with dst, d, s, offset }

def outerStep (st : State) : Exec (Iter State (Exit State)) := do
  match ← loop (searchStep v src sLimit dstLimit) (src.len + 1) st with
  | .exit e => return .done e
  | .found st candidate =>
      match ← emitMatch v src dstLimit st candidate with
      | none => return .done (.giveUp st.dst)
      | some st =>
          match ← loop (immediateStep v src sLimit dstLimit) (src.len + 1) st with
          | .inl st => return .next st
          | .inr e => return .done e

end Body

/-- Both functions of the source; they return 0 for a block that is not compressible. -/
def encodeBlockWith (v : Variant) (dst src : Slice) : Exec (Slice × Nat) := do
  let sLimit ← sub src.len inputMargin
  let dstLimit ← sub (← sub src.len (src.len >>> 5)) 6
  let st := ⟨dst, 0, Table.zeros v.tableBits, 1, ← load64 src 1, 0, 1⟩
  match ← loop (outerStep v src sLimit dstLimit) (src.len + 1) st with
  | .giveUp dst => return (dst, 0)
  | .finish st => emitRemainder src dstLimit st.dst st.d st.nextEmit

def big : Variant where
  tableBits := 15
  hash u := hash6 u 15
  hash_lt u := hash64_lt _ _ u (by decide) (by decide)
  entry s := s % 2 ^ 32
  skipLog := 6
  near c s := c + maxCopy3Offset ≥ s
  maxFused := maxCopy3Lits
  emitFused dst d lits offset length :=
    if offset ≤ maxCopy2Offset then emitCopyLits2 dst d lits offset length
    else emitCopyLits3 dst d lits offset length

/-- Blocks up to 64 KiB, with a table of `2 ^ bits` entries. -/
def small (bits : Nat) (pos : 0 < bits) (le : bits ≤ 64) : Variant where
  tableBits := bits
  hash u := hash5 u bits
  hash_lt u := hash64_lt _ _ u pos le
  entry s := s % 2 ^ 16
  skipLog := 5
  near _ _ := true
  maxFused := maxCopy2Lits
  emitFused := emitCopyLits2

def encodeBlockBig (dst src : Slice) : Exec (Slice × Nat) := encodeBlockWith big dst src

def encodeBlock64k (bits : Nat) (pos : 0 < bits) (le : bits ≤ 64) (dst src : Slice) :
    Exec (Slice × Nat) :=
  encodeBlockWith (small bits pos le) dst src

def smallTableMaxLen : Nat := 2 <<< 10

def encodeBlock (dst src : Slice) : Exec (Slice × Nat) :=
  if src.len < minNonLiteralBlockSize then .ok (dst, 0)
  else if src.len ≤ smallTableMaxLen then encodeBlock64k 10 (by decide) (by decide) dst src
  else if src.len ≤ 65536 then encodeBlock64k 13 (by decide) (by decide) dst src
  else encodeBlockBig dst src

end L1

end MinLz.Block
