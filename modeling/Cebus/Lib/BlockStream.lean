import Mathlib.Data.List.Basic
import Mathlib.Tactic.Ring

/-!
# Block-wise folding of a byte stream

A streaming digest consumes its input in blocks of `n` symbols and keeps the
incomplete last block for the next call. `absorb` is what the complete blocks
of an input do to a state, `leftover` is the incomplete block.

* `absorb_append`, `leftover_append`: feeding `l₁ ++ l₂` is feeding `l₁` and
  then `leftover l₁ ++ l₂`, so the way an input is split does not matter.
-/

namespace BlockStream

variable {α σ : Type*} {n : ℕ}

/-- Fold `f` over the complete `n`-blocks of `l`. -/
def absorb (n : ℕ) (f : σ → List α → σ) (s : σ) (l : List α) : σ :=
  if n = 0 ∨ l.length < n then s else absorb n f (f s (l.take n)) (l.drop n)
termination_by l.length
decreasing_by simp only [List.length_drop]; omega

/-- The incomplete block at the end of `l`. -/
def leftover (n : ℕ) (l : List α) : List α := l.drop (l.length / n * n)

theorem absorb_short (f : σ → List α → σ) (s : σ) {l : List α} (h : l.length < n) :
    absorb n f s l = s := by
  rw [absorb, if_pos (Or.inr h)]

/-- One complete block in front of the input is absorbed first. -/
theorem absorb_block (f : σ → List α → σ) (s : σ) {b l : List α} (hn : 0 < n)
    (hb : b.length = n) : absorb n f s (b ++ l) = absorb n f (f s b) l := by
  rw [absorb, if_neg (by simp; omega), ← hb, List.take_left, List.drop_left]

theorem length_leftover (l : List α) : (leftover n l).length = l.length % n := by
  have := Nat.div_add_mod' l.length n
  simp only [leftover, List.length_drop]
  omega

theorem leftover_short {l : List α} (h : l.length < n) : leftover n l = l := by
  simp [leftover, Nat.div_eq_of_lt h]

/-- A complete block in front of the input does not change its leftover. -/
theorem leftover_block {b l : List α} (hn : 0 < n) (hb : b.length = n) :
    leftover n (b ++ l) = leftover n l := by
  have h : (b ++ l).length / n * n = b.length + l.length / n * n := by
    rw [List.length_append, hb, Nat.add_div_left _ hn]
    ring
  rw [leftover, leftover, h, ← List.drop_drop, List.drop_left]

/-- Every input at least one block long starts with a complete block. -/
theorem exists_block {l : List α} (h : n ≤ l.length) :
    ∃ b t, l = b ++ t ∧ b.length = n ∧ t.length + n = l.length :=
  ⟨l.take n, l.drop n, (List.take_append_drop n l).symm, by simp [h], by simp; omega⟩

/-- **Splitting an input.** Absorbing `l₁ ++ l₂` is absorbing `l₁`, then what
    was left of it followed by `l₂`. -/
theorem absorb_append (hn : 0 < n) (f : σ → List α → σ) (s : σ) (l₁ l₂ : List α) :
    absorb n f s (l₁ ++ l₂) = absorb n f (absorb n f s l₁) (leftover n l₁ ++ l₂) := by
  induction hk : l₁.length using Nat.strong_induction_on generalizing l₁ s with
  | _ k ih =>
    by_cases h : l₁.length < n
    · rw [absorb_short f s h, leftover_short h]
    · obtain ⟨b, t, rfl, hb, ht⟩ := exists_block (Nat.le_of_not_lt h)
      rw [List.append_assoc, absorb_block f s hn hb, absorb_block f s hn hb, leftover_block hn hb]
      exact ih t.length (by omega) (f s b) t rfl

theorem leftover_append (hn : 0 < n) (l₁ l₂ : List α) :
    leftover n (l₁ ++ l₂) = leftover n (leftover n l₁ ++ l₂) := by
  induction hk : l₁.length using Nat.strong_induction_on generalizing l₁ with
  | _ k ih =>
    by_cases h : l₁.length < n
    · rw [leftover_short h]
    · obtain ⟨b, t, rfl, hb, ht⟩ := exists_block (Nat.le_of_not_lt h)
      rw [List.append_assoc, leftover_block hn hb, leftover_block hn hb]
      exact ih t.length (by omega) t rfl

/-- Padding the leftover to a complete block absorbs exactly one more block. -/
theorem absorb_padded (hn : 0 < n) (f : σ → List α → σ) (s : σ) (l p : List α)
    (hp : (leftover n l ++ p).length = n) :
    absorb n f s (l ++ p) = f (absorb n f s l) (leftover n l ++ p) := by
  have h := absorb_block f (absorb n f s l) (l := []) hn hp
  rw [List.append_nil] at h
  rw [absorb_append hn, h, absorb_short f _ (by simpa using hn)]

end BlockStream
