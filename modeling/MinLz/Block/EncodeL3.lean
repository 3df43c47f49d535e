import MinLz.Block.Encoder

/-! # The smallest encoder

Each table entry holds the last two positions of its hash. A search weighs every
candidate it meets and keeps the best; what follows it is split in two, `turn`
for the decisions and `emitBest` for the stores.
-/

namespace MinLz.Block.L3

def inputMarginL3 : Nat := 8 + 2
def lTableBits : Nat := 20
def sTableBits : Nat := 18
def maxSkip : Nat := 64

def getCur (x : Nat) : Nat := x &&& 0xffffffff

def getPrev (x : Nat) : Nat := x >>> 32

/-- The current position goes to the low half and the one before it to the high half. -/
def packEntry (newCur prevEntry : Nat) : Nat := newCur ||| (prevEntry <<< 32) % 2 ^ 64

structure Match where
  offset : Nat := 0
  s : Nat := 0
  length : Nat := 0
  score : Int := 0
  isRep : Bool := false
  nextRep : Bool := false

structure State where
  long : Table
  short : Table
  s : Nat
  cv : Nat
  nextEmit : Nat
  offset : Nat

/-- `a.wrapping_sub(b)` on 64-bit words. -/
def wrappingSub (a b : Nat) : Nat := (a + 2 ^ 64 - b) % 2 ^ 64

def score (m : Match) (nextEmit : Nat) : Exec Int := do
  let lits ← sub m.s nextEmit
  let score : Int := m.length - emitLiteralSizeN lits - m.s
  let offset : Int := m.s - m.offset
  if m.isRep then return score - emitRepeatSize m.length
  let fusedCopy2 := lits ≤ maxCopy2Lits ∧ offset < 65536 + 63 ∧ m.length ≤ copy2LitMaxLen
  let fusedCopy3 := lits ≤ maxCopy3Lits
  let bonus : Int := if (lits > 0 ∧ offset > 1024) ∧ (fusedCopy2 ∨ fusedCopy3) then 1 else 0
  if offset ≤ 0 then return -2 ^ 63
  return score + bonus - (← emitCopySize offset.toNat m.length)

section Matches

variable (src : Slice) (nextEmit sLimit : Nat)

/-- The match at `offset` and `s`, whose first `k` bytes are known to agree. -/
def extendMatch (offset s k : Nat) (isRep : Bool) : Exec Match := do
  let ahead ← extendAll src (s + k) (offset + k)
  let (i, base) ← extendBack src nextEmit offset s
  return { offset := i, s := base, length := ahead - base, isRep }

/-- Whether the last offset would match again just after the match. -/
def findNextRep (m : Match) : Exec Match := do
  if m.s + m.length < sLimit then
    let a := m.s + m.length + 1
    let b := m.offset + m.length + 1
    if a + 4 ≤ src.len ∧ b + 4 ≤ src.len then
      return { m with nextRep := (← load32 src a) = (← load32 src b) }
    else return m
  else return m

def matchAt (offset s first : Nat) (best : Match) : Exec Match := do
  if (best.length ≠ 0 ∧ wrappingSub best.s best.offset = wrappingSub s offset) ∨
      s - offset ≥ maxCopy3Offset ∨ s ≤ offset ∨ offset = 0 ∨ offset + 4 > src.len then
    return { offset, s }
  if (← load32 src offset) ≠ first % 2 ^ 32 then return { offset, s }
  let m ← extendMatch src nextEmit offset s 4 false
  let score ← score m nextEmit
  let m := { m with score, length := if score ≤ -(m.s : Int) then 0 else m.length }
  findNextRep src sLimit m

def checkMask : Nat := (1 <<< (8 * 3)) - 1

def matchAtRepeat (offset s first : Nat) (best : Match) : Exec Match := do
  if best.isRep ∨ offset = 0 ∨ s ≤ offset ∨ offset + 3 > src.len then return { offset, s }
  if offset + 4 > src.len then return { offset, s }
  if (← load32 src offset) &&& checkMask ≠ first % 2 ^ 32 &&& checkMask then return { offset, s }
  let m ← extendMatch src nextEmit offset s 3 true
  let m ← findNextRep src sLimit m
  return { m with score := ← score m nextEmit }

def bestOf (a b : Match) : Match :=
  if b.length = 0 then a
  else if a.length = 0 then b
  else if a.score > b.score then a
  else if b.score > a.score then b
  else if a.s ≠ b.s then if a.s < b.s then a else b
  else if a.nextRep ≠ b.nextRep then if a.nextRep then a else b
  else if a.offset > b.offset then a else b

/-- Weigh the match at each of the two positions of a table entry. -/
def tryEntry (entry s first : Nat) (best : Match) : Exec Match := do
  let best := bestOf best (← matchAt src nextEmit sLimit (getCur entry) s first best)
  return bestOf best (← matchAt src nextEmit sLimit (getPrev entry) s first best)

def tryRepeat (offset s first : Nat) (best : Match) : Exec Match := do
  let at_ ← sub s offset
  return bestOf best (← matchAtRepeat src nextEmit sLimit at_ s first best)

/-- The match `backL` bytes before a position of a table entry. -/
def tryBack (position backL sBack cvBack : Nat) (best : Match) : Exec Match := do
  if position > backL then
    return bestOf best (← matchAt src nextEmit sLimit (position - backL) sBack cvBack best)
  else return best

end Matches

section Body

variable (src : Slice) (sLimit dstLimit : Nat)

/-- The candidates at `s + 1` and `s + 2`. -/
def lookAhead (st : State) (best : Match) : Exec Match := do
  let s1 := st.s + 1
  if s1 + 8 ≤ src.len then
    let nextShort ← st.short.get (hash4 (st.cv >>> 8) sTableBits)
    let cv1 ← load64 src s1
    let nextLong ← st.long.get (hash8 cv1 lTableBits)
    let best ← tryEntry src st.nextEmit sLimit nextShort s1 cv1 best
    let best ← tryEntry src st.nextEmit sLimit nextLong s1 cv1 best
    let s2 := st.s + 2
    if s2 + 8 ≤ src.len then
      let cv2 ← load64 src s2
      let nextLong2 ← st.long.get (hash8 cv2 lTableBits)
      let best ← if st.offset > 0 ∧ s2 ≥ st.offset then
          tryRepeat src st.nextEmit sLimit st.offset s2 cv2 best
        else pure best
      let nextShort2 ← st.short.get (hash4 cv2 sTableBits)
      let best ← tryEntry src st.nextEmit sLimit nextShort2 s2 cv2 best
      tryEntry src st.nextEmit sLimit nextLong2 s2 cv2 best
    else return best
  else return best

/-- The candidates near the end of the best match. -/
def lookNearEnd (st : State) (best : Match) : Exec Match := do
  let sAt ← sub (best.s + best.length) 1
  if sAt < sLimit ∧ best.length > 3 then
    let sBack := best.s + 1
    let backL := best.length - 2
    if sBack + 8 ≤ src.len ∧ sAt + 8 ≤ src.len then
      let cvBack ← load64 src sBack
      let cvAt ← load64 src sAt
      let next ← st.long.get (hash8 cvAt lTableBits)
      let best ← tryBack src st.nextEmit sLimit (getCur next) backL sBack cvBack best
      let best ← tryBack src st.nextEmit sLimit (getPrev next) backL sBack cvBack best
      let nextS ← st.short.get (hash4 cvAt sTableBits)
      let best ← tryBack src st.nextEmit sLimit (getCur nextS) backL sBack cvBack best
      tryBack src st.nextEmit sLimit (getPrev nextS) backL sBack cvBack best
    else return best
  else return best

/-- The best match at a position, with the entries found there. -/
def bestAt (st : State) (candL candS : Nat) : Exec Match := do
  let best ← if st.s > 0 then do
      let best ← tryEntry src st.nextEmit sLimit candL st.s st.cv {}
      tryEntry src st.nextEmit sLimit candS st.s st.cv best
    else pure {}
  let best ← if st.offset > 0 ∧ st.s ≥ st.offset then do
      let best ← tryRepeat src st.nextEmit sLimit st.offset st.s st.cv best
      if st.s + 1 ≥ st.offset ∧ st.s < sLimit then
        tryRepeat src st.nextEmit sLimit st.offset (st.s + 1) (st.cv >>> 8) best
      else pure best
    else pure best
  if best.length > 0 then
    let best ← lookAhead src sLimit st best
    lookNearEnd src sLimit st best
  else return best

/-- One position of a search; done with a match, or with none when the source has run out. -/
def searchStep (st : State) : Exec (Iter State (State × Option Match)) := do
  let step := (← sub st.s st.nextEmit) >>> 8
  let nextS := if step + 1 > maxSkip then st.s + maxSkip else st.s + step + 1
  if nextS > sLimit then return .done (st, none)
  let hashL := hash8 st.cv lTableBits
  let hashS := hash4 st.cv sTableBits
  let candL ← st.long.get hashL
  let candS ← st.short.get hashS
  let best ← bestAt src sLimit st candL candS
  let long ← st.long.set hashL (packEntry st.s candL)
  let short ← st.short.set hashS (packEntry st.s candS)
  let st := { st with long, short }
  if best.length > 0 then return .done (st, some best)
  return .next { st with cv := ← load64 src nextS, s := nextS }

/-- A match that does not justify what its encoding costs. -/
def bails (best : Match) (offset lits : Nat) : Bool :=
  !best.isRep ∧ best.length ≤ 4 ∧ (offset > 65535 ∨
    (offset > maxCopy1Offset ∧ offset ≤ maxCopy2Offset ∧ lits > maxCopy2Lits))

/-- What a turn of the outer loop comes to before it stores anything. -/
inductive Turn where
  /-- the source has run out -/
  | exhausted (st : State)
  /-- the literals alone are past the limit -/
  | overLimit
  | pass (st : State)
  | emit (st : State) (best : Match) (lits : List UInt8) (offset : Nat)

def turn (st : State) (d : Nat) : Exec Turn := do
  let (st, found) ← loop (searchStep src sLimit) (src.len + 1) st
  match found with
  | none => return .exhausted st
  | some best =>
      if d + (← sub best.s st.nextEmit) > dstLimit then return .overLimit
      let lits ← range src st.nextEmit best.s
      let offset ← sub best.s best.offset
      if bails best offset lits.length then
        let s := st.s + 2
        if s ≥ sLimit then return .exhausted { st with s }
        return .pass { st with s, cv := ← load64 src s }
      return .emit st best lits offset

/-- A copy as `emit_copy` writes it, or a Copy2 where that is longer but ends sooner. -/
def emitCopyOr2 (dst : Slice) (d offset length : Nat) : Exec (Slice × Nat) :=
  if length > 18 ∧ length ≤ 64 ∧ offset ≥ 64 ∧ offset ≤ maxCopy2Offset then do
    sliceFrom dst d
    encodeCopy2 dst d offset length
  else emitCopy dst d offset length

/-- `must_split_emit`, for an offset that fits a Copy2 -/
def mustSplit (lits offset length : Nat) : Bool :=
  lits > maxCopy2Lits ∨ offset < 64 ∨ (offset ≤ maxCopy1Offset ∧ length > copy2LitMaxLen)

/-- A match is cut to the longest fused Copy2; the rest is left to the next search. -/
def takenLength (best : Match) (lits offset : Nat) : Nat :=
  if !best.isRep ∧ lits ≠ 0 ∧ offset ≤ maxCopy2Offset ∧ !mustSplit lits offset best.length then
    min best.length 11
  else best.length

def emitBest (dst : Slice) (d : Nat) (best : Match) (lits : List UInt8) (offset : Nat) :
    Exec (Slice × Nat) := do
  if best.isRep then
    let (dst, d) ← emitLiteral dst d lits
    emitRepeat dst d best.length
  else if lits = [] then emitCopyOr2 dst d offset best.length
  else if offset ≤ maxCopy2Offset then
    if mustSplit lits.length offset best.length then
      let (dst, d) ← emitLiteral dst d lits
      emitCopyOr2 dst d offset best.length
    else emitCopyLits2 dst d lits offset (min best.length 11)
  else if lits.length > maxCopy3Lits then
    let (dst, d) ← emitLiteral dst d lits
    emitCopy dst d offset best.length
  else emitCopyLits3 dst d lits offset best.length

/-- Index the positions from `i` up to where the next search starts. -/
def fillTables (st : State) (i : Nat) : Exec State :=
  loop (fun (st, i) => do
    if i < st.s then
      let cv0 ← load64 src i
      let long0 := hash8 cv0 lTableBits
      let short0 := hash4 cv0 sTableBits
      let long ← st.long.set long0 (packEntry i (← st.long.get long0))
      let short ← st.short.set short0 (packEntry i (← st.short.get short0))
      return .next ({ st with long, short }, i + 1)
    else return .done st) (src.len + 1) (st, i)

/-- The state after a match that reaches up to `s`. -/
def resume (st : State) (s offset : Nat) : Exec State := do
  let st ← fillTables src { st with s, nextEmit := s, offset } (st.s + 1)
  return { st with cv := ← load64 src s }

def outerStep (r : State × Slice × Nat) :
    Exec (Iter (State × Slice × Nat) (Exit (State × Slice × Nat))) := do
  let (st, dst, d) := r
  match ← turn src sLimit dstLimit st d with
  | .exhausted st => return .done (.finish (st, dst, d))
  | .overLimit => return .done (.giveUp dst)
  | .pass st => return .next (st, dst, d)
  | .emit st best lits offset =>
      let (dst, d) ← emitBest dst d best lits offset
      let s := best.s + takenLength best lits.length offset
      if s ≥ sLimit then return .done (.finish ({ st with s, nextEmit := s, offset }, dst, d))
      if d > dstLimit then return .done (.giveUp dst)
      return .next (← resume src st s offset, dst, d)

end Body

def start (src : Slice) : Exec State := do
  return ⟨Table.zeros lTableBits, Table.zeros sTableBits, 1, ← load64 src 1, 0, 1⟩

def inner (dst src : Slice) : Exec (Slice × Nat) := do
  let sLimit ← sub src.len inputMarginL3
  let dstLimit ← sub src.len 5
  let st ← start src
  let bound := (src.len + 1) * (src.len + 1)
  match ← loop (outerStep src sLimit dstLimit) bound (st, dst, 0) with
  | .giveUp dst => return (dst, 0)
  | .finish (st, dst, d) =>
      if st.nextEmit < src.len then
        let litLen := src.len - st.nextEmit
        if d + litLen + emitLiteralSizeN litLen > dstLimit then return (dst, 0)
        emitLiteral dst d (← range src st.nextEmit src.len)
      else return (dst, d)

def encodeBlock (dst src : Slice) : Exec (Slice × Nat) :=
  if src.len < minNonLiteralBlockSize then .ok (dst, 0) else inner dst src

end MinLz.Block.L3
