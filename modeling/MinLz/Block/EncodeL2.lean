import MinLz.Block.Encoder

/-! # The balanced encoder

Two tables, one over long and one over four-byte sequences. As for the fastest
encoder, one body serves blocks past 64 KiB and smaller ones.
-/

namespace MinLz.Block.L2

structure Variant where
  longBits : Nat
  shortBits : Nat
  longHash : Nat → Nat
  longHash_lt : ∀ u, longHash u < 2 ^ longBits
  shortHash_lt : ∀ u, hash4 u shortBits < 2 ^ shortBits
  /-- a position as a table entry -/
  entry : Nat → Nat
  /-- `candidate > min_src_pos` at a position -/
  nearer : Nat → Nat → Bool
  /-- `candidate >= min_src_pos` at a position -/
  near : Nat → Nat → Bool
  /-- an offset that takes a Copy3 -/
  far : Nat → Bool
  /-- a match of this offset and length, after this last offset, does not pay -/
  bail : Nat → Nat → Nat → Bool

structure State where
  dst : Slice
  d : Nat
  long : Table
  short : Table
  s : Nat
  cv : Nat
  nextEmit : Nat
  offset : Nat

inductive Search where
  | found (st : State) (candidate nextS : Nat)
  | exit (e : Exit State)

def repeatMask : Nat := 0x000000ffffffff00

section Body

variable (v : Variant) (src : Slice) (sLimit dstLimit : Nat)

/-- Enter `i` in the long table and the position after it in the short one. -/
def indexPair (st : State) (i : Nat) : Exec State := do
  let cv ← load64 src i
  let long ← st.long.set (v.longHash cv) (v.entry i)
  let short ← st.short.set (hash4 (cv >>> 8) v.shortBits) (v.entry (i + 1))
  return { st with long, short }

def indexLong (st : State) (i : Nat) : Exec State := do
  let long ← st.long.set (v.longHash (← load64 src i)) (v.entry i)
  return { st with long }

/-- Index the positions of a repeat from both of its ends. -/
def indexRepeat (st : State) (base : Nat) : Exec State :=
  loop (fun (st, idx0, idx1) => do
    if idx0 < idx1 then
      let st ← indexPair v src st idx0
      let st ← indexPair v src st idx1
      return .next (st, idx0 + 2, idx1 - 2)
    else return .done st) (src.len + 1) (st, base + 1, st.s - 2)

/-- Index the ends of a match, and every other position of its two halves. -/
def indexMatch (st : State) (base : Nat) : Exec State := do
  let idx0 := base + 1
  let idx1 ← sub st.s 2
  let st ← indexPair v src st idx0
  let st ← indexPair v src st idx1
  let idx0 := idx0 + 1
  let idx1 := idx1 - 1
  loop (fun (st, idx0, idx2) => do
    if idx2 < idx1 then
      let st ← indexLong v src st idx0
      let st ← indexLong v src st idx2
      return .next (st, idx0 + 2, idx2 + 2)
    else return .done st) (src.len + 1) (st, idx0, (idx0 + idx1 + 1) >>> 1)

/-- The four bytes after the first agree with those at the last offset. -/
def repeatHit (st : State) : Exec Bool := do
  if st.offset > 0 ∧ st.s ≥ st.offset then
    let prevV ← load64 src (← sub st.s st.offset)
    return st.cv &&& repeatMask = prevV &&& repeatMask
  else return false

/-- The match of the last offset one byte ahead, already verified. -/
def emitRepeatMatch (st : State) : Exec (Iter State Search) := do
  let i ← sub (st.s + 1) st.offset
  let (_, base) ← extendBack src st.nextEmit i (st.s + 1)
  if st.d + (← sub base st.nextEmit) > dstLimit then return .done (.exit (.giveUp st.dst))
  let (dst, d) ← emitLiteral st.dst st.d (← range src st.nextEmit base)
  let cand := (← sub st.s st.offset) + 4 + 1
  let s ← extendAll src (st.s + 4 + 1) cand
  let (dst, d) ← emitRepeat dst d (← sub s base)
  let st := { st with dst, d, s, nextEmit := s }
  if s ≥ sLimit then return .done (.exit (.finish st))
  let st ← indexRepeat v src st base
  return .next { st with cv := ← load64 src s }

def searchStep (st : State) : Exec (Iter State Search) := do
  let nextS := st.s + (← sub st.s st.nextEmit) >>> 7 + 1
  if nextS > sLimit then return .done (.exit (.finish st))
  let hashL := v.longHash st.cv
  let hashS := hash4 st.cv v.shortBits
  let candL ← st.long.get hashL
  let candS ← st.short.get hashS
  let long ← st.long.set hashL (v.entry st.s)
  let short ← st.short.set hashS (v.entry st.s)
  let st := { st with long, short }
  let valLong ← load64 src candL
  let valShort ← load64 src candS
  if v.nearer candL st.s ∧ st.cv = valLong then return .done (.found st candL nextS)
  if ← repeatHit src st then return ← emitRepeatMatch v src sLimit dstLimit st
  if v.near candL st.s ∧ st.cv % 2 ^ 32 = valLong % 2 ^ 32 then
    return .done (.found st candL nextS)
  if v.near candS st.s ∧ st.cv % 2 ^ 32 = valShort % 2 ^ 32 then
    let hashL2 := v.longHash (st.cv >>> 8)
    let candL2 ← st.long.get hashL2
    let long ← st.long.set hashL2 (v.entry (st.s + 1))
    let st := { st with long }
    if ← hit src (v.nearer candL2 st.s) (st.cv >>> 8) candL2 then
      return .done (.found { st with s := st.s + 1 } candL2 nextS)
    return .done (.found st candS nextS)
  return .next { st with cv := ← load64 src nextS, s := nextS }

/-- The literals before a match and the match, fused where they can be. -/
def emitMatch (dst : Slice) (d : Nat) (lits : List UInt8) (offset length : Nat) :
    Exec (Slice × Nat) := do
  if lits = [] then emitCopy dst d offset length
  else if v.far offset then
    if lits.length > maxCopy3Lits then
      let (dst, d) ← emitLiteral dst d lits
      emitCopy dst d offset length
    else emitCopyLits3 dst d lits offset length
  else if lits.length > maxCopy2Lits ∨ offset < 64 then
    let (dst, d) ← emitLiteral dst d lits
    emitCopy dst d offset length
  else emitCopyLits2 dst d lits offset length

/-- Extend the match found at `candidate` both ways and emit it, or pass over it. -/
def matchStep (st : State) (candidate nextS : Nat) : Exec (Iter State (Exit State)) := do
  let (candidatePos, base) ← extendBack src st.nextEmit candidate st.s
  if st.d + (← sub base st.nextEmit) > dstLimit then return .done (.giveUp st.dst)
  let offset ← sub base candidatePos
  let s ← extendAll src (base + 4) (candidatePos + 4)
  let length ← sub s base
  if v.bail offset length st.offset then
    let s := nextS + 1
    if s ≥ sLimit then return .done (.finish { st with s })
    return .next { st with s, cv := ← load64 src s }
  let (dst, d) ← emitMatch v st.dst st.d (← range src st.nextEmit base) offset length
  let st := { st with dst, d, s, offset, nextEmit := s }
  if s ≥ sLimit then return .done (.finish st)
  if d > dstLimit then return .done (.giveUp dst)
  let st ← indexMatch v src st base
  return .next { st with cv := ← load64 src s }

def outerStep (st : State) : Exec (Iter State (Exit State)) := do
  match ← loop (searchStep v src sLimit dstLimit) (src.len + 1) st with
  | .exit e => return .done e
  | .found st candidate nextS => matchStep v src sLimit dstLimit st candidate nextS

end Body

/-- Both functions of the source; they return 0 for a block that is not compressible. -/
def encodeBetterInner (v : Variant) (dst src : Slice) : Exec (Slice × Nat) := do
  let sLimit ← sub src.len inputMargin
  let dstLimit ← sub (← sub src.len (src.len >>> 5)) 6
  let st := ⟨dst, 0, Table.zeros v.longBits, Table.zeros v.shortBits, 1, ← load64 src 1, 0, 1⟩
  match ← loop (outerStep v src sLimit dstLimit) (src.len + 1) st with
  | .giveUp dst => return (dst, 0)
  | .finish st => emitRemainder src dstLimit st.dst st.d st.nextEmit

/-- `s as isize - MAX_COPY3_OFFSET as isize + 1` -/
def minSrcPos (s : Nat) : Int := s - maxCopy3Offset + 1

theorem hash6_lt (u : Nat) : hash6 u 15 < 2 ^ 15 := hash64_lt _ _ u (by decide) (by decide)

theorem hash7_lt (u : Nat) : hash7 u 17 < 2 ^ 17 := hash64_lt _ _ u (by decide) (by decide)

theorem hash4_lt_small (u : Nat) : hash4 u 12 < 2 ^ 12 := hash4_lt u (by decide) (by decide)

theorem hash4_lt_big (u : Nat) : hash4 u 14 < 2 ^ 14 := hash4_lt u (by decide) (by decide)

def big : Variant where
  longBits := 17
  shortBits := 14
  longHash u := hash7 u 17
  longHash_lt := hash7_lt
  shortHash_lt := hash4_lt_big
  entry s := s % 2 ^ 32
  nearer c s := (c : Int) > minSrcPos s
  near c s := (c : Int) ≥ minSrcPos s
  far offset := offset > maxCopy2Offset
  bail offset length last := offset > 65535 ∧ length ≤ 4 ∧ last ≠ offset

/-- Blocks up to 64 KiB; every offset is short enough. -/
def small : Variant where
  longBits := 15
  shortBits := 12
  longHash u := hash6 u 15
  longHash_lt := hash6_lt
  shortHash_lt := hash4_lt_small
  entry s := s % 2 ^ 16
  nearer _ _ := true
  near _ _ := true
  far _ := false
  bail _ _ _ := false

def encodeBlockBig (dst src : Slice) : Exec (Slice × Nat) := encodeBetterInner big dst src

def encodeBlock64k (dst src : Slice) : Exec (Slice × Nat) := encodeBetterInner small dst src

def encodeBlock (dst src : Slice) : Exec (Slice × Nat) :=
  if src.len < minNonLiteralBlockSize then .ok (dst, 0)
  else if src.len ≤ 64 <<< 10 then encodeBlock64k dst src
  else encodeBlockBig dst src

end MinLz.Block.L2
