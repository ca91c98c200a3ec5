import Cebus.Lib.SipHash

/-!
# The streaming hasher (`hasher.c`)

`uint64_t` and `size_t` accumulators are `BitVec 64`; byte counts and indices
into a caller's buffer, which stay below the buffer's size, are `ℕ`.
-/

namespace Cebus

/-- `cb_hasher` (`hasher.h`, lines 6–19). -/
@[ext]
structure Hasher where
  k0 : BitVec 64
  k1 : BitVec 64
  len : BitVec 64
  v0 : BitVec 64
  v1 : BitVec 64
  v2 : BitVec 64
  v3 : BitVec 64
  tail : BitVec 64
  nTail : ℕ
deriving DecidableEq

namespace Hasher

/-! ## Macros -/

/-- `ROT_LEFT(x, b)` (line 11). -/
def rotLeft (x : BitVec 64) (b : ℕ) : BitVec 64 := (x <<< b) ||| (x >>> (64 - b))

/-- `p[i]`. -/
def byteAt (p : List UInt8) (i : ℕ) : UInt8 := p.getD i 0

/-- `U8TO16_LE(p, start)` (line 13); the `uint16_t` operands are promoted to a
    32-bit `int`. -/
def u8to16Le (p : List UInt8) (start : ℕ) : BitVec 32 :=
  ((byteAt p start).toBitVec.setWidth 32 <<< 0) |||
    ((byteAt p (start + 1)).toBitVec.setWidth 32 <<< 8)

/-- `U8TO32_LE(p, start)` (line 16). -/
def u8to32Le (p : List UInt8) (start : ℕ) : BitVec 32 :=
  u8to16Le p start ||| (u8to16Le p (start + 2) <<< 16)

/-- `U8TO64_LE(p, start)` (line 19). -/
def u8to64LeMacro (p : List UInt8) (start : ℕ) : BitVec 64 :=
  (u8to32Le p start).setWidth 64 ||| ((u8to32Le p (start + 4)).setWidth 64 <<< 32)

/-! ## Rounds -/

/-- `compress` (lines 25–51). -/
def compress (hasher : Hasher) : Hasher :=
  let v0 := hasher.v0
  let v1 := hasher.v1
  let v2 := hasher.v2
  let v3 := hasher.v3
  let v0 := v0 + v1
  let v1 := rotLeft v1 13
  let v1 := v1 ^^^ v0
  let v0 := rotLeft v0 32
  let v2 := v2 + v3
  let v3 := rotLeft v3 16
  let v3 := v3 ^^^ v2
  let v0 := v0 + v3
  let v3 := rotLeft v3 21
  let v3 := v3 ^^^ v0
  let v2 := v2 + v1
  let v1 := rotLeft v1 17
  let v1 := v1 ^^^ v2
  let v2 := rotLeft v2 32
  { hasher with v0 := v0, v1 := v1, v2 := v2, v3 := v3 }

/-- `sip24_compress` (lines 53–57). -/
def sip24Compress (hasher : Hasher) : Hasher := compress (compress hasher)

/-- `sip24_finalize` (lines 59–65). -/
def sip24Finalize (hasher : Hasher) : Hasher :=
  compress (compress (compress (compress hasher)))

/-! ## Reading a partial word -/

/-- The body of `u8to64_le` (lines 67–89) up to its assertion: `(out, i)`. -/
def u8to64LeParts (buf : List UInt8) (start len : ℕ) : BitVec 64 × ℕ :=
  let out := 0#64
  let i := 0
  let (out, i) :=
    if i + 3 < len then ((u8to32Le buf (start + i)).setWidth 64, i + 4) else (out, i)
  let (out, i) :=
    if i + 1 < len then
      (out ||| ((u8to16Le buf (start + i)).setWidth 64 <<< (i * 8)), i + 2)
    else (out, i)
  if i < len then
    (out ||| ((byteAt buf (start + i)).toBitVec.setWidth 64 <<< (i * 8)), i + 1)
  else (out, i)

/-- `u8to64_le`; `u8to64LeParts_index` is its `assert(i == len)`. -/
def u8to64Le (buf : List UInt8) (start len : ℕ) : BitVec 64 := (u8to64LeParts buf start len).1

/-! ## The hasher's operations -/

/-- Mixing one message word: `v3 ^= m; sip24_compress(hasher); v0 ^= m`. -/
def absorbWord (hasher : Hasher) (m : BitVec 64) : Hasher :=
  let hasher := sip24Compress { hasher with v3 := hasher.v3 ^^^ m }
  { hasher with v0 := hasher.v0 ^^^ m }

/-- The `while (i < length - left)` loop of `cb_hasher_write` (lines 133–140). -/
def writeLoop (bytes : List UInt8) (bound : ℕ) (hasher : Hasher) (i : ℕ) : Hasher × ℕ :=
  if i < bound then writeLoop bytes bound (absorbWord hasher (u8to64LeMacro bytes i)) (i + 8)
  else (hasher, i)
termination_by bound - i

/-- `cb_hasher_write` once the tail is flushed (lines 128–144). -/
def writeInput (hasher : Hasher) (bytes : List UInt8) (needed : ℕ) : Hasher :=
  let length := bytes.length - needed
  let left := length % 8
  let (hasher, i) := writeLoop bytes (length - left) hasher needed
  { hasher with tail := u8to64Le bytes i left, nTail := left }

/-- `cb_hasher_write(hasher, buf, len)` (lines 105–145) on the `len` bytes at `buf`. -/
def write (hasher : Hasher) (bytes : List UInt8) : Hasher :=
  let len := bytes.length
  let hasher := { hasher with len := hasher.len + BitVec.ofNat 64 len }
  if hasher.nTail ≠ 0 then
    let needed := 8 - hasher.nTail
    let hasher := { hasher with
      tail := hasher.tail ||| (u8to64Le bytes 0 (min len needed) <<< (8 * hasher.nTail)) }
    if len < needed then { hasher with nTail := hasher.nTail + len }
    else writeInput { absorbWord hasher hasher.tail with nTail := 0 } bytes needed
  else writeInput hasher bytes 0

/-- `cb_hasher_reset` (lines 201–210). -/
def reset (hasher : Hasher) : Hasher :=
  { hasher with
    len := 0
    tail := 0
    nTail := 0
    v0 := hasher.k0 ^^^ 0x736f6d6570736575
    v1 := hasher.k1 ^^^ 0x646f72616e646f6d
    v2 := hasher.k0 ^^^ 0x6c7967656e657261
    v3 := hasher.k1 ^^^ 0x7465646279746573 }

/-- `cb_hasher_init` (lines 147–156). -/
def init (k0 k1 : BitVec 64) : Hasher :=
  reset { k0 := k0, k1 := k1, len := 0, tail := 0, nTail := 0, v0 := 0, v1 := 0, v2 := 0, v3 := 0 }

/-- `cb_hasher_finish` (lines 187–199), with the hasher it leaves behind. -/
def finish (hasher : Hasher) : BitVec 64 × Hasher :=
  let b := ((hasher.len &&& 0xff) <<< 56) ||| hasher.tail
  let hasher := absorbWord hasher b
  let hasher := sip24Finalize { hasher with v2 := hasher.v2 ^^^ 0xff }
  (hasher.v0 ^^^ hasher.v1 ^^^ hasher.v2 ^^^ hasher.v3, hasher)

end Hasher

end Cebus
