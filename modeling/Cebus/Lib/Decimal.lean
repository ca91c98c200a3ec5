import Mathlib.Algebra.Group.Nat.Defs
import Mathlib.Data.Nat.Notation
import Mathlib.Data.Int.Notation
import Mathlib.Tactic.SplitIfs

/-!
# Decimal numbers

* `ofInt_injective`: numbers with the same decimals are the same.
* `length_ofInt_le`: how many characters a number below a power of ten takes.
* `ofInt_ascii`: the characters are digits and the sign.
-/

namespace Decimal

/-- The decimals of a number. -/
def ofNat (n : ℕ) : List Char := Nat.toDigits 10 n

/-- The decimals of a number after its sign. -/
def ofInt (z : ℤ) : List Char :=
  if z < 0 then '-' :: ofNat z.natAbs else ofNat z.natAbs

theorem isDigit_of_mem_ofNat {n : ℕ} {c : Char} (h : c ∈ ofNat n) : c.isDigit :=
  Nat.isDigit_of_mem_toDigits (by decide) (by decide) h

theorem ofNat_injective {m n : ℕ} (h : ofNat m = ofNat n) : m = n := by
  have := congrArg (fun cs => Nat.ofDigitChars 10 cs 0) h
  simpa [ofNat] using this

/-- The decimals of a number do not begin with a sign. -/
theorem ofNat_ne_sign (m n : ℕ) : ofNat m ≠ '-' :: ofNat n := by
  intro h
  have hsign : '-' ∈ ofNat m := by
    rw [h]
    exact List.mem_cons_self
  have := isDigit_of_mem_ofNat hsign
  revert this
  decide

/-- **Numbers with the same decimals are the same.** -/
theorem ofInt_injective {a b : ℤ} (h : ofInt a = ofInt b) : a = b := by
  unfold ofInt at h
  split_ifs at h with ha hb hb
  · have := ofNat_injective (List.cons.inj h).2
    omega
  · exact (ofNat_ne_sign _ _ h.symm).elim
  · exact (ofNat_ne_sign _ _ h).elim
  · have := ofNat_injective h
    omega

theorem length_ofInt_le {z : ℤ} {k : ℕ} (hk : 0 < k) (h : z.natAbs < 10 ^ k) :
    (ofInt z).length ≤ k + 1 := by
  have hlen : (ofNat z.natAbs).length ≤ k := (Nat.length_toDigits_le_iff (by decide) hk).2 h
  unfold ofInt
  split_ifs
  · rw [List.length_cons]
    omega
  · omega

/-- The characters are digits and the sign. -/
theorem ofInt_ascii {z : ℤ} {c : Char} (h : c ∈ ofInt z) : 0 < c.toNat ∧ c.toNat < 128 := by
  have hdigit (hc : c.isDigit) : 0 < c.toNat ∧ c.toNat < 128 := by
    obtain ⟨hlo, hhi⟩ := Char.isDigit_iff_toNat.1 hc
    have hzero : '0'.toNat = 48 := rfl
    have hnine : '9'.toNat = 57 := rfl
    omega
  unfold ofInt at h
  split_ifs at h with hz
  · rcases List.mem_cons.1 h with rfl | h
    · decide
    · exact hdigit (isDigit_of_mem_ofNat h)
  · exact hdigit (isDigit_of_mem_ofNat h)

end Decimal
