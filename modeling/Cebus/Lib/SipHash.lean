import Cebus.Lib.BlockStream
import Mathlib.Tactic.Linarith

/-!
# SipHash-c-d

The keyed hash function SipHash with `c` compression and `d` finalisation
rounds on byte strings, as its designers define it: the message, followed by
zero bytes and its length modulo 256, is parsed into little-endian 64-bit words
that are compressed one by one into a state of four words.

* `littleEndian_append`: a word put together from two byte strings.
* `hash_eq_finish`: the hash in terms of the complete blocks and the leftover,
  as a streaming implementation computes it.
-/

namespace SipHash

open BlockStream

/-- A 64-bit word. -/
abbrev Word := BitVec 64

/-- The word with little-endian byte string `bs`. -/
def littleEndian : List UInt8 → Word
  | [] => 0#64
  | b :: bs => b.toBitVec.setWidth 64 ||| (littleEndian bs <<< 8)

/-- The internal state. -/
@[ext]
structure State where
  v0 : Word
  v1 : Word
  v2 : Word
  v3 : Word
deriving DecidableEq

/-- SipRound. -/
def sipRound (s : State) : State :=
  let v0 := s.v0 + s.v1
  let v1 := s.v1.rotateLeft 13 ^^^ v0
  let v0 := v0.rotateLeft 32
  let v2 := s.v2 + s.v3
  let v3 := s.v3.rotateLeft 16 ^^^ v2
  let v0 := v0 + v3
  let v3 := v3.rotateLeft 21 ^^^ v0
  let v2 := v2 + v1
  let v1 := v1.rotateLeft 17 ^^^ v2
  let v2 := v2.rotateLeft 32
  ⟨v0, v1, v2, v3⟩

/-- The state for the key `(k0, k1)` before any message word. -/
def init (k0 k1 : Word) : State :=
  ⟨k0 ^^^ 0x736f6d6570736575, k1 ^^^ 0x646f72616e646f6d,
    k0 ^^^ 0x6c7967656e657261, k1 ^^^ 0x7465646279746573⟩

/-- Compression of the message word `m`. -/
def compressWord (c : ℕ) (s : State) (m : Word) : State :=
  let s := sipRound^[c] { s with v3 := s.v3 ^^^ m }
  { s with v0 := s.v0 ^^^ m }

/-- Finalisation. -/
def finalize (d : ℕ) (s : State) : Word :=
  let s := sipRound^[d] { s with v2 := s.v2 ^^^ 0xff }
  s.v0 ^^^ s.v1 ^^^ s.v2 ^^^ s.v3

/-- What follows the message: null bytes up to the last byte of a word, and
    the message length modulo 256. -/
def padding (msg : List UInt8) : List UInt8 :=
  List.replicate (7 - msg.length % 8) 0 ++ [UInt8.ofNat msg.length]

/-- Compression of every complete 8-byte word of `bs`. -/
def compressBytes (c : ℕ) (s : State) (bs : List UInt8) : State :=
  absorb 8 (fun s b => compressWord c s (littleEndian b)) s bs

/-- SipHash-c-d of `msg` under the key `(k0, k1)`. -/
def hash (c d : ℕ) (k0 k1 : Word) (msg : List UInt8) : Word :=
  finalize d (compressBytes c (init k0 k1) (msg ++ padding msg))

/-! ## Little-endian words -/

@[simp] theorem littleEndian_nil : littleEndian [] = 0#64 := rfl

theorem littleEndian_append (l₁ l₂ : List UInt8) :
    littleEndian (l₁ ++ l₂) = littleEndian l₁ ||| (littleEndian l₂ <<< (8 * l₁.length)) := by
  induction l₁ with
  | nil => simp [littleEndian]
  | cons b l₁ ih =>
    have hs : 8 * l₁.length + 8 = 8 * (b :: l₁).length := by simp; omega
    rw [List.cons_append, littleEndian, littleEndian, ih, BitVec.shiftLeft_or_distrib,
      ← BitVec.shiftLeft_add, BitVec.or_assoc, hs]

/-- Trailing null bytes do not change the word. -/
theorem littleEndian_zeros (k : ℕ) : littleEndian (List.replicate k 0) = 0#64 := by
  induction k with
  | zero => rfl
  | succ k ih => rw [List.replicate_succ, littleEndian, ih]; rfl

/-- The last word of a message whose leftover is `l`. -/
theorem littleEndian_last (l : List UInt8) (b : UInt8) (hl : l.length ≤ 7) :
    littleEndian (l ++ (List.replicate (7 - l.length) 0 ++ [b])) =
      littleEndian l ||| (b.toBitVec.setWidth 64 <<< 56) := by
  have hk : 8 * (7 - l.length) + 8 * l.length = 56 := by omega
  rw [littleEndian_append, littleEndian_append, littleEndian_zeros, BitVec.zero_or,
    List.length_replicate, ← BitVec.shiftLeft_add, hk]
  simp [littleEndian]

/-! ## Streaming form -/

/-- **The hash from its streaming state**: the complete words of the message
    compressed, then the last word built from the leftover and the length. -/
theorem hash_eq_finish (c d : ℕ) (k0 k1 : Word) (msg : List UInt8) :
    hash c d k0 k1 msg =
      finalize d (compressWord c (compressBytes c (init k0 k1) msg)
        (littleEndian (leftover 8 msg) ||| ((BitVec.ofNat 64 (msg.length % 256)) <<< 56))) := by
  have hl : (leftover 8 msg).length = msg.length % 8 := length_leftover msg
  have hp : (leftover 8 msg ++ padding msg).length = 8 := by
    simp only [padding, List.length_append, List.length_replicate, List.length_singleton, hl]
    omega
  have hb : (UInt8.ofNat msg.length).toBitVec.setWidth 64 = BitVec.ofNat 64 (msg.length % 256) := by
    apply BitVec.eq_of_toNat_eq
    simp
  rw [hash, compressBytes, absorb_padded (by norm_num) _ _ _ _ hp, padding, ← hl,
    littleEndian_last _ _ (by omega), hb]
  rfl

end SipHash
