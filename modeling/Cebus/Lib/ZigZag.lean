import Mathlib.Data.Nat.Notation

/-!
# Signed words as unsigned ones

The zigzag order of the integers 0, -1, 1, -2, 2, … gives words near zero small numbers.

* `decode_encode`: a word comes back from its place in the order.
-/

namespace ZigZag

variable {w : ℕ}

/-- The place of a signed word. -/
def encode (v : BitVec w) : BitVec w := (v <<< 1) ^^^ v.sshiftRight (w - 1)

/-- The signed word at a place. -/
def decode (u : BitVec w) : BitVec w := (u >>> 1) ^^^ (~~~(u &&& 1#w) + 1#w)

/-- A word of equal bits. -/
def fill (w : ℕ) : Bool → BitVec w
  | true => BitVec.allOnes w
  | false => 0#w

theorem getLsbD_fill (b : Bool) {i : ℕ} (hi : i < w) : (fill w b).getLsbD i = b := by
  cases b with
  | true => rw [fill, BitVec.getLsbD_allOnes, decide_eq_true hi]
  | false => rw [fill, BitVec.getLsbD_zero]

/-- Only the sign of the word is left of it. -/
theorem sshiftRight_eq (v : BitVec w) : v.sshiftRight (w - 1) = fill w v.msb := by
  apply BitVec.eq_of_getLsbD_eq
  intro i hi
  rw [getLsbD_fill _ hi, BitVec.getLsbD_sshiftRight, decide_eq_false (by omega), Bool.not_false,
    Bool.true_and]
  by_cases hlt : w - 1 + i < w
  · obtain rfl : i = 0 := by omega
    rw [if_pos hlt, Nat.add_zero, ← BitVec.msb_eq_getLsbD_last]
  · rw [if_neg hlt]

/-- The mask that an odd or even place gives. -/
theorem mask_eq (u : BitVec w) : ~~~(u &&& 1#w) + 1#w = fill w (u.getLsbD 0) := by
  have hbit : u &&& 1#w = if u.getLsbD 0 then 1#w else 0#w := by
    apply BitVec.eq_of_getLsbD_eq
    intro i hi
    rw [BitVec.getLsbD_and, BitVec.getLsbD_one]
    cases h : u.getLsbD 0 with
    | true => cases i <;> simp [h, hi]
    | false => cases i <;> simp [h]
  rw [← BitVec.neg_eq_not_add, hbit]
  cases u.getLsbD 0 with
  | true => exact BitVec.neg_one_eq_allOnes
  | false => exact BitVec.neg_zero w

/-- **A signed word comes back from its place.** -/
theorem decode_encode (v : BitVec w) : decode (encode v) = v := by
  apply BitVec.eq_of_getLsbD_eq
  intro i hi
  have hodd : (encode v).getLsbD 0 = v.msb := by
    rw [encode, sshiftRight_eq, BitVec.getLsbD_xor, getLsbD_fill _ (by omega)]
    simp
  rw [decode, mask_eq, hodd, BitVec.getLsbD_xor, getLsbD_fill _ hi, BitVec.getLsbD_ushiftRight,
    encode, sshiftRight_eq, BitVec.getLsbD_xor]
  by_cases hlast : 1 + i < w
  · rw [getLsbD_fill _ hlast, BitVec.getLsbD_shiftLeft, decide_eq_true hlast,
      decide_eq_false (by omega), Nat.add_sub_cancel_left]
    simp
  · obtain rfl : i = w - 1 := by omega
    rw [BitVec.getLsbD_of_ge _ _ (by omega), BitVec.getLsbD_of_ge _ _ (by omega),
      BitVec.msb_eq_getLsbD_last]
    simp

end ZigZag
