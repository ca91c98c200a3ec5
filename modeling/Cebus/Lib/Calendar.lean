import Mathlib.Algebra.BigOperators.Intervals
import Mathlib.Algebra.Order.BigOperators.Group.Finset

/-!
# The proleptic Gregorian calendar

Days are numbered from 0, the first of January of year 1.

* `daysBeforeYear_succ`: the closed form of the number of days before a year.
* `dayNumber_injective`: a day has only one date.
-/

namespace Calendar

/-- Leap years are divisible by 4, except centuries not divisible by 400. -/
def IsLeapYear (y : ℕ) : Prop := 4 ∣ y ∧ (¬ 100 ∣ y ∨ 400 ∣ y)

instance (y : ℕ) : Decidable (IsLeapYear y) :=
  inferInstanceAs (Decidable (4 ∣ y ∧ (¬ 100 ∣ y ∨ 400 ∣ y)))

/-- The length of month `m` of year `y`; there are no days outside `1 … 12`. -/
def daysInMonth (y : ℕ) : ℕ → ℕ
  | 1 => 31
  | 2 => if IsLeapYear y then 29 else 28
  | 3 => 31
  | 4 => 30
  | 5 => 31
  | 6 => 30
  | 7 => 31
  | 8 => 31
  | 9 => 30
  | 10 => 31
  | 11 => 30
  | 12 => 31
  | _ => 0

/-- The number of days of a year. -/
def daysInYear (y : ℕ) : ℕ := if IsLeapYear y then 366 else 365

/-- Days from the first of January to the first day of month `m`. -/
def daysBeforeMonth (y m : ℕ) : ℕ := ∑ i ∈ Finset.Ico 1 m, daysInMonth y i

/-- Days from year 1 to the first day of year `y`. -/
def daysBeforeYear (y : ℕ) : ℕ := ∑ i ∈ Finset.Ico 1 y, daysInYear i

/-- `(year, month, day)` is a date. -/
def IsDate (year month day : ℕ) : Prop :=
  1 ≤ year ∧ 1 ≤ month ∧ month ≤ 12 ∧ 1 ≤ day ∧ day ≤ daysInMonth year month

instance (y m d : ℕ) : Decidable (IsDate y m d) :=
  inferInstanceAs (Decidable (1 ≤ y ∧ 1 ≤ m ∧ m ≤ 12 ∧ 1 ≤ d ∧ d ≤ daysInMonth y m))

/-- The number of days from 0001-01-01 to `(year, month, day)`. -/
def dayNumber (year month day : ℕ) : ℕ :=
  daysBeforeYear year + daysBeforeMonth year month + (day - 1)

/-! ## Months -/

theorem daysBeforeMonth_succ (y : ℕ) {m : ℕ} (hm : 1 ≤ m) :
    daysBeforeMonth y (m + 1) = daysBeforeMonth y m + daysInMonth y m :=
  Finset.sum_Ico_succ_top hm _

theorem daysBeforeMonth_mono (y : ℕ) : Monotone (daysBeforeMonth y) := fun _ _ h =>
  Finset.sum_le_sum_of_subset (Finset.Ico_subset_Ico le_rfl h)

/-- The twelve months make up the year. -/
theorem daysBeforeMonth_thirteen (y : ℕ) : daysBeforeMonth y 13 = daysInYear y := by
  by_cases h : IsLeapYear y <;>
    simp [daysBeforeMonth, daysInYear, Finset.sum_Ico_succ_top, daysInMonth, h]

/-! ## Years -/

theorem daysBeforeYear_mono : Monotone daysBeforeYear := fun _ _ h =>
  Finset.sum_le_sum_of_subset (Finset.Ico_subset_Ico le_rfl h)

theorem daysBeforeYear_step {y : ℕ} (hy : 1 ≤ y) :
    daysBeforeYear (y + 1) = daysBeforeYear y + daysInYear y :=
  Finset.sum_Ico_succ_top hy _

/-- The days of `y` complete years. -/
theorem daysBeforeYear_succ (y : ℕ) :
    daysBeforeYear (y + 1) + y / 100 = 365 * y + y / 4 + y / 400 := by
  induction y with
  | zero => simp [daysBeforeYear]
  | succ y ih =>
    have h100 : 400 ∣ y + 1 → 100 ∣ y + 1 := Nat.dvd_trans ⟨4, rfl⟩
    have h4 : 100 ∣ y + 1 → 4 ∣ y + 1 := Nat.dvd_trans ⟨25, rfl⟩
    -- the quotients go up where 4, 100 and 400 divide the year that is added
    rw [daysBeforeYear_step (by omega), daysInYear, Nat.succ_div, Nat.succ_div, Nat.succ_div]
    by_cases d400 : 400 ∣ y + 1
    · have hleap : IsLeapYear (y + 1) := ⟨h4 (h100 d400), Or.inr d400⟩
      rw [if_pos hleap, if_pos d400, if_pos (h100 d400), if_pos (h4 (h100 d400))]
      omega
    by_cases d100 : 100 ∣ y + 1
    · have hleap : ¬IsLeapYear (y + 1) := fun h => h.2.elim (absurd d100) d400
      rw [if_neg hleap, if_neg d400, if_pos d100, if_pos (h4 d100)]
      omega
    by_cases d4 : 4 ∣ y + 1
    · have hleap : IsLeapYear (y + 1) := ⟨d4, Or.inl d100⟩
      rw [if_pos hleap, if_neg d400, if_neg d100, if_pos d4]
      omega
    · have hleap : ¬IsLeapYear (y + 1) := fun h => d4 h.1
      rw [if_neg hleap, if_neg d400, if_neg d100, if_neg d4]
      omega

/-! ## A day has only one date -/

/-- A number between two consecutive values of a monotone function determines
    the argument. -/
theorem eq_of_between {f : ℕ → ℕ} (hf : Monotone f) {a b n : ℕ} (ha : f a ≤ n)
    (ha' : n < f (a + 1)) (hb : f b ≤ n) (hb' : n < f (b + 1)) : a = b := by
  by_contra hne
  rcases Nat.lt_or_gt_of_ne hne with h | h
  · have := hf (show a + 1 ≤ b from h)
    omega
  · have := hf (show b + 1 ≤ a from h)
    omega

/-- A date lies in its month. -/
theorem IsDate.day_lt {y m d : ℕ} (h : IsDate y m d) :
    daysBeforeMonth y m + (d - 1) < daysBeforeMonth y (m + 1) := by
  obtain ⟨-, h2, -, h4, h5⟩ := h
  rw [daysBeforeMonth_succ y h2]
  omega

/-- A date lies in its year. -/
theorem IsDate.dayNumber_lt {y m d : ℕ} (h : IsDate y m d) :
    dayNumber y m d < daysBeforeYear (y + 1) := by
  have h1 := h.day_lt
  have h2 := daysBeforeMonth_mono y (show m + 1 ≤ 13 by have := h.2.2.1; omega)
  rw [daysBeforeMonth_thirteen] at h2
  rw [daysBeforeYear_step h.1, dayNumber]
  omega

/-- **Uniqueness**: two dates with the same day number are equal. -/
theorem dayNumber_injective {y m d y' m' d' : ℕ} (h : IsDate y m d) (h' : IsDate y' m' d')
    (heq : dayNumber y m d = dayNumber y' m' d') : y = y' ∧ m = m' ∧ d = d' := by
  have hy : y = y' := eq_of_between daysBeforeYear_mono (n := dayNumber y m d)
    (by unfold dayNumber; omega) h.dayNumber_lt (by rw [heq]; unfold dayNumber; omega)
    (heq ▸ h'.dayNumber_lt)
  subst hy
  have hday : daysBeforeMonth y m + (d - 1) = daysBeforeMonth y m' + (d' - 1) := by
    unfold dayNumber at heq
    omega
  have hm : m = m' := eq_of_between (daysBeforeMonth_mono y) (by omega) h.day_lt (by omega)
    (hday ▸ h'.day_lt)
  subst hm
  have h4 := h.2.2.2.1
  have h4' := h'.2.2.2.1
  exact ⟨rfl, rfl, by omega⟩

end Calendar
