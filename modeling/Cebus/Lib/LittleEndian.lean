import Mathlib.Algebra.Group.Nat.Defs
import Mathlib.Data.Nat.Notation

/-!
# Little-endian numbers

* `toBytes_ofBytes`, `ofBytes_toBytes`: bytes and numbers, there and back.
* `ofBytes_take`: the first bytes are the number modulo a power.
-/

namespace LittleEndian

/-- The number with these bytes, the least significant one first. -/
def ofBytes : List UInt8 → ℕ
  | [] => 0
  | b :: bs => b.toNat + 256 * ofBytes bs

/-- The `k` bytes of a number modulo `256 ^ k`. -/
def toBytes : ℕ → ℕ → List UInt8
  | 0, _ => []
  | k + 1, n => UInt8.ofNat n :: toBytes k (n / 256)

@[simp] theorem length_toBytes (k n : ℕ) : (toBytes k n).length = k := by
  induction k generalizing n with
  | zero => rfl
  | succ k ih => rw [toBytes, List.length_cons, ih]

theorem ofBytes_lt (bs : List UInt8) : ofBytes bs < 256 ^ bs.length := by
  induction bs with
  | nil => exact Nat.one_pos
  | cons b bs ih =>
    have hb := b.toNat_lt
    rw [ofBytes, List.length_cons, Nat.pow_succ]
    omega

/-- **Storing what was loaded.** -/
theorem toBytes_ofBytes (bs : List UInt8) : toBytes bs.length (ofBytes bs) = bs := by
  induction bs with
  | nil => rfl
  | cons b bs ih =>
    have hb := b.toNat_lt
    have hdiv : (b.toNat + 256 * ofBytes bs) / 256 = ofBytes bs := by omega
    have hmod : UInt8.ofNat (b.toNat + 256 * ofBytes bs) = b := by
      rw [← UInt8.toNat_inj, UInt8.toNat_ofNat']
      omega
    rw [List.length_cons, ofBytes, toBytes, hdiv, hmod, ih]

/-- **Loading what was stored.** -/
theorem ofBytes_toBytes (k n : ℕ) : ofBytes (toBytes k n) = n % 256 ^ k := by
  induction k generalizing n with
  | zero => rw [Nat.pow_zero, Nat.mod_one]; rfl
  | succ k ih =>
    have hbyte : (UInt8.ofNat n).toNat = n % 256 := by simp
    rw [toBytes, ofBytes, ih, hbyte, Nat.pow_succ, Nat.mul_comm (256 ^ k), Nat.mod_mul]

theorem ofBytes_take (k : ℕ) (bs : List UInt8) : ofBytes (bs.take k) = ofBytes bs % 256 ^ k := by
  induction bs generalizing k with
  | nil => rw [List.take_nil, ofBytes, Nat.zero_mod]
  | cons b bs ih =>
    cases k with
    | zero => rw [Nat.pow_zero, Nat.mod_one]; rfl
    | succ k =>
      have hb := b.toNat_lt
      have hdiv : (b.toNat + 256 * ofBytes bs) / 256 = ofBytes bs := by omega
      rw [List.take_succ_cons, ofBytes, ofBytes, ih, Nat.pow_succ, Nat.mul_comm (256 ^ k),
        Nat.mod_mul, hdiv]
      omega

end LittleEndian
