import Mathlib.Algebra.Group.Nat.Defs
import Mathlib.Data.Nat.Notation

/-!
# Timestamps with a counter

A clock that does not go back may show a time again, but only in calls that follow each
other. A counter beside it that comes back to a value only after more calls than that
makes the pairs distinct.

* `eq_of_between`: the times between two equal ones are equal to them.
* `counter_ne`: the counters of two calls at one time are different.
-/

namespace Timestamps

variable {α : Type*} {r : α → α → Prop} {times : List α} {m : ℕ}

/-- No time comes in `m` calls in a row. -/
def ShortRuns (m : ℕ) (times : List α) : Prop :=
  ∀ n t, List.replicate n t <:+: times → n < m

section

variable [Std.Antisymm r]

theorem eq_of_between (h : times.Pairwise r) {i k j : ℕ} (hj : j < times.length) (hik : i ≤ k)
    (hkj : k ≤ j) (heq : times[i] = times[j]) : times[k] = times[i] := by
  obtain rfl | hik := Nat.eq_or_lt_of_le hik
  · rfl
  obtain rfl | hkj := Nat.eq_or_lt_of_le hkj
  · exact heq.symm
  have hr := List.pairwise_iff_getElem.mp h
  have hlo := hr i k (by omega) (by omega) hik
  have hhi := hr k j (by omega) hj hkj
  rw [← heq] at hhi
  exact Std.Antisymm.antisymm _ _ hhi hlo

/-- **Equal times are near to each other.** -/
theorem sub_lt_of_eq (h : times.Pairwise r) (hruns : ShortRuns m times) {i j : ℕ} (hij : i < j)
    (hj : j < times.length) (heq : times[i] = times[j]) : j - i < m := by
  have hblock : (times.drop i).take (j - i + 1) = List.replicate (j - i + 1) times[i] := by
    rw [List.eq_replicate_iff]
    constructor
    · rw [List.length_take, List.length_drop]
      omega
    · intro t ht
      obtain ⟨k, hk, rfl⟩ := List.getElem_of_mem ht
      rw [List.length_take, List.length_drop] at hk
      rw [List.getElem_take, List.getElem_drop]
      exact eq_of_between h hj (by omega) (by omega) heq
  have hinfix : List.replicate (j - i + 1) times[i] <:+: times := by
    rw [← hblock]
    exact (List.take_prefix _ _).isInfix.trans (List.drop_suffix _ _).isInfix
  have := hruns _ _ hinfix
  omega

/-- **Calls at one time have different counters.** -/
theorem counter_ne (h : times.Pairwise r) (hruns : ShortRuns m times) {i j : ℕ} (hij : i < j)
    (hj : j < times.length) (heq : times[i] = times[j]) (c : ℕ) :
    (c + i) % m ≠ (c + j) % m := by
  intro hmod
  have hlt := sub_lt_of_eq h hruns hij hj heq
  have hdvd : (j - i) % m = 0 := by
    have hsub := Nat.sub_mod_eq_zero_of_mod_eq hmod.symm
    rwa [show c + j - (c + i) = j - i by omega] at hsub
  rw [Nat.mod_eq_of_lt hlt] at hdvd
  omega

end

end Timestamps
