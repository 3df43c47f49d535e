import MinLz.Block.Token

/-! # The block decoder

Two loops over one token at a time. The fast loop runs while sixteen source
bytes remain and moves whole words, writing past the output position; the tail
loop checks every byte it reads. A raw read of the destination may only see
bytes that are already output, a raw write has to end within the padding.
-/

namespace MinLz.Block

/-- Writable bytes past `dlen` that the caller allocates. -/
def overshootPad : Nat := 16

def corrupt {α : Type} (reason : String) : Exec α := .error (.error (.corrupt reason))

/-- A raw read of `n` source bytes. -/
def read (src : Slice) (i n : Nat) : Exec (List UInt8) :=
  if i + n ≤ src.len then .ok (src.list i n) else .error (.fault .load)

/-- A raw read of `n` destination bytes when `d` bytes are written. -/
def readBack (dst : Slice) (d i n : Nat) : Exec (List UInt8) :=
  if i + n ≤ d then .ok (dst.list i n) else .error (.fault .load)

namespace Decode

structure State where
  dst : Slice
  d : Nat
  s : Nat
  offset : Nat

/-- The length forms of runs, Copy2 and Copy3: up to `limit` the field `x` says
    the length itself, past it one, two or three more bytes do. -/
def fastLength (src : Slice) (s x limit small base : Nat) : Exec (Nat × Nat) := do
  if x ≤ limit then return (small, s)
  else if x = limit + 1 then return ((← load 1 src s) + base, s + 1)
  else if x = limit + 2 then return ((← load 2 src s) + base, s + 2)
  else return ((← load 4 src (s - 1)) >>> 8 + base, s + 3)

def fastHeader (src : Slice) (s offset : Nat) : Exec Header := do
  let tag ← load 1 src s
  match tag &&& 3 with
  | 0 =>
      let x := tag >>> 3
      let (length, s) ← fastLength src (s + 1) x 28 (x + 1) 30
      return ⟨tag &&& 4 = 0, 0, length, offset, s⟩
  | 1 =>
      let lo16 ← load 2 src s
      let lenField := (lo16 >>> 2) &&& 15
      let offset := (lo16 >>> 6) + 1
      if lenField = 15 then return ⟨false, 0, (← load 1 src (s + 2)) + 18, offset, s + 3⟩
      else return ⟨false, 0, lenField + 4, offset, s + 2⟩
  | 2 =>
      let raw := tag >>> 2
      let offset ← load 2 src (s + 1)
      let (length, s) ← fastLength src (s + 3) raw 60 (raw + 4) 64
      return ⟨false, 0, length, offset + minCopy2Offset, s⟩
  | _ =>
      let val ← load 4 src s
      let litLen := (val >>> 3) &&& 3
      if val &&& 4 = 0 then
        return ⟨false, litLen + 1, ((val >>> 5) &&& 7) + 4, ((val >>> 8) &&& 0xffff) + minCopy2Offset,
          s + 3⟩
      else
        let lengthTmp := (val >>> 5) &&& 63
        let offset := (val >>> 11) + minCopy3Offset
        let (length, s) ← fastLength src (s + 4) lengthTmp 60 (lengthTmp + 4) 64
        return ⟨false, litLen, length, offset, s⟩

/-- `if s > src_len { return Err(..) }` -/
def truncated (src : Slice) (s : Nat) : Exec Unit :=
  if s > src.len then corrupt "truncated input" else .ok ()

def le16 (src : Slice) (i : Nat) : Exec Nat := do
  return (← index src i).toNat ||| (← index src (i + 1)).toNat <<< 8

def le24 (src : Slice) (i : Nat) : Exec Nat := do
  return (← index src i).toNat ||| (← index src (i + 1)).toNat <<< 8 |||
    (← index src (i + 2)).toNat <<< 16

def le32 (src : Slice) (i : Nat) : Exec Nat := do
  return (← index src i).toNat ||| (← index src (i + 1)).toNat <<< 8 |||
    (← index src (i + 2)).toNat <<< 16 ||| (← index src (i + 3)).toNat <<< 24

/-- `fastLength` with each byte checked. -/
def tailLength (src : Slice) (s x limit small base : Nat) : Exec (Nat × Nat) := do
  if x ≤ limit then return (small, s)
  else if x = limit + 1 then
    truncated src (s + 1)
    return ((← index src s).toNat + base, s + 1)
  else if x = limit + 2 then
    truncated src (s + 2)
    return ((← le16 src s) + base, s + 2)
  else
    truncated src (s + 3)
    return ((← le24 src s) + base, s + 3)

def tailHeader (src : Slice) (s offset : Nat) : Exec Header := do
  let tag := (← index src s).toNat
  match tag &&& 3 with
  | 0 =>
      let x := tag >>> 3
      let (length, s) ← tailLength src (s + 1) x 28 (x + 1) 30
      return ⟨tag &&& 4 = 0, 0, length, offset, s⟩
  | 1 =>
      truncated src (s + 2)
      let lo16 ← le16 src s
      let lenField := ((← index src s).toNat >>> 2) &&& 15
      let offset := (lo16 >>> 6) + 1
      if lenField = 15 then
        truncated src (s + 3)
        return ⟨false, 0, (← index src (s + 2)).toNat + 18, offset, s + 3⟩
      else return ⟨false, 0, lenField + 4, offset, s + 2⟩
  | 2 =>
      truncated src (s + 3)
      let raw := (← index src s).toNat >>> 2
      let offset ← le16 src (s + 1)
      let (length, s) ← tailLength src (s + 3) raw 60 (raw + 4) 64
      return ⟨false, 0, length, offset + minCopy2Offset, s⟩
  | _ =>
      truncated src (s + 4)
      let val ← le32 src s
      let litLen := (val >>> 3) &&& 3
      if val &&& 4 = 0 then
        return ⟨false, litLen + 1, ((val >>> 5) &&& 7) + 4, ((val >>> 8) &&& 0xffff) + minCopy2Offset,
          s + 3⟩
      else
        let lengthTmp := (val >>> 5) &&& 63
        let offset := (val >>> 11) + minCopy3Offset
        let (length, s) ← tailLength src (s + 4) lengthTmp 60 (lengthTmp + 4) 64
        return ⟨false, litLen, length, offset, s⟩

/-- `!(length > dlen - d || length > src_len - s)` -/
def literalFits (src : Slice) (dlen d s length : Nat) : Exec Bool := do
  if length > (← sub dlen d) then return false
  return length ≤ (← sub src.len s)

/-- A literal run, moved by `move`. -/
def literalRun (move : Slice → Nat → Slice → Nat → Nat → Exec Slice) (src : Slice) (dlen : Nat)
    (st : State) (length : Nat) : Exec State := do
  if !(← literalFits src dlen st.d st.s length) then corrupt "literal length out of bounds"
  let dst ← move src st.s st.dst st.d length
  return { st with dst, d := st.d + length, s := st.s + length }

/-- `docopy`: `length` bytes from `dst[d - offset..]`, moved by `move`. -/
def docopy (reason : String) (move : Slice → Nat → Nat → Nat → Exec Slice) (dlen : Nat)
    (st : State) (length : Nat) : Exec State := do
  if st.d < st.offset then corrupt reason
  if length > (← sub dlen st.d) then corrupt reason
  let dst ← move st.dst st.d st.offset length
  return { st with dst, d := st.d + length }

def copyShortLiteral (src : Slice) (s : Nat) (dst : Slice) (d length : Nat) : Exec Slice := do
  if length ≤ 16 ∧ s + 16 ≤ src.len then store dst d (← read src s 16)
  else store dst d (← read src s length)

def copyLiteral (src : Slice) (s : Nat) (dst : Slice) (d length : Nat) : Exec Slice := do
  store dst d (← read src s length)

/-- `dst[d + i] = dst[d - offset + i]` for each `i` below `length` in turn. -/
def forwardCopy (dst : Slice) (d offset length : Nat) : Exec Slice :=
  loop (fun (dst, i) => do
    if i < length then
      let v ← readBack dst (d + i) ((← sub d offset) + i) 1
      return .next (← store dst (d + i) v, i + 1)
    else return .done dst) (length + 1) (dst, 0)

def fastCopy (dst : Slice) (d offset length : Nat) : Exec Slice := do
  if offset > length then
    if length ≤ 16 ∧ offset ≥ 16 then store dst d (← readBack dst d (← sub d offset) 16)
    else store dst d (← readBack dst d (← sub d offset) length)
  else forwardCopy dst d offset length

def tailCopy (dst : Slice) (d offset length : Nat) : Exec Slice := do
  if offset > length then store dst d (← readBack dst d (← sub d offset) length)
  else forwardCopy dst d offset length

/-- Fused literals, always moved as four bytes. -/
def fastFused (src : Slice) (dlen : Nat) (st : State) (lits : Nat) : Exec State := do
  if lits > 0 then
    if (← sub dlen st.d) < 4 then corrupt "truncated output tail"
    let dst ← store32 st.dst st.d (← load32 src st.s)
    return { st with dst, s := st.s + lits, d := st.d + lits }
  else return st

def tailFused (src : Slice) (dlen : Nat) (st : State) (lits : Nat) : Exec State := do
  if lits > 0 then
    if lits > (← sub dlen st.d) then corrupt "literal length out of bounds"
    if st.s + lits > src.len then corrupt "literal length out of bounds"
    let dst ← copyLiteral src st.s st.dst st.d lits
    return { st with dst, s := st.s + lits, d := st.d + lits }
  else return st

def fastToken (src : Slice) (dlen : Nat) (st : State) : Exec State := do
  let h ← fastHeader src st.s st.offset
  let st := { st with s := h.s, offset := h.offset }
  if h.literal then literalRun copyShortLiteral src dlen st h.length
  else
    let st ← fastFused src dlen st h.lits
    docopy "match copy out of bounds" fastCopy dlen st h.length

def tailToken (src : Slice) (dlen : Nat) (st : State) : Exec State := do
  let h ← tailHeader src st.s st.offset
  let st := { st with s := h.s, offset := h.offset }
  if h.literal then literalRun copyLiteral src dlen st h.length
  else
    let st ← tailFused src dlen st h.lits
    if st.offset = 0 then corrupt "match offset out of bounds"
    docopy "match offset out of bounds" tailCopy dlen st h.length

/-- `while s <= fast_limit`, run only when `src_len >= 16`. -/
def fastStep (src : Slice) (dlen : Nat) (st : State) : Exec (Iter State State) := do
  if st.s ≤ src.len - 16 then return .next (← fastToken src dlen st)
  else return .done st

def tailStep (src : Slice) (dlen : Nat) (st : State) : Exec (Iter State State) := do
  if st.s < src.len then return .next (← tailToken src dlen st)
  else return .done st

/-- A destination of `dlen` bytes and their padding, whatever it holds. -/
def initial (mem : Nat → UInt8) (dlen : Nat) : State := ⟨⟨dlen + overshootPad, mem⟩, 0, 0, 1⟩

def tailLoop (src : Slice) (dlen : Nat) (st : State) : Exec Slice := do
  let st ← loop (tailStep src dlen) (src.len + 1) st
  if st.d ≠ dlen then corrupt "output length mismatch"
  return st.dst

end Decode

open Decode in
def minlzDecode (mem : Nat → UInt8) (dlen : Nat) (src : Slice) : Exec Slice := do
  let st := initial mem dlen
  let st ← if src.len ≥ 16 then loop (fastStep src dlen) (src.len + 1) st else pure st
  tailLoop src dlen st

/-- The decoder without its fast loop. -/
def plainDecode (mem : Nat → UInt8) (dlen : Nat) (src : Slice) : Exec Slice :=
  Decode.tailLoop src dlen (Decode.initial mem dlen)

end MinLz.Block
