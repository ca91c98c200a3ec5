import Cebus.Utils.TimeDecode

/-!
# Encoding a date

`cb_is_leap_year` takes every year divisible by 4 for a leap year, so the
encoder's month table is that of the calendar in every year except the
centuries not divisible by 400.

* `fromYmd_guarded`: the tick count the encoder computes, in terms of the month
  table of the year it takes the given one for.
* `survivesEncoding_iff`: the dates that survive encoding and decoding are all
  those that do not lie behind the missing 29 February of such a century year.
-/

namespace Cebus.Time

open Calendar

/-- Year, month and day survive encoding: the result is valid exactly for the
    dates of the years 1 to 9999, and then it is the first tick of the day and
    decodes to the same date. -/
def SurvivesEncoding (y m d : UInt32) : Prop :=
  ∃ dt, fromYmd y m d = some dt ∧
    (valid dt = true ↔ IsDate y.toNat m.toNat d.toNat ∧ y.toNat ≤ 9999) ∧
    (valid dt = true →
      dt.ticks.toNat = ticksPerDay.toNat * dayNumber y.toNat m.toNat d.toNat ∧
        ymd dt = some ⟨y, m, d⟩)

/-- The date lies at or behind the 29 February that a century year not
    divisible by 400 does not have. -/
def BehindMissingLeapDay (y m d : ℕ) : Prop :=
  (1 ≤ y ∧ y ≤ 9999 ∧ y % 100 = 0 ∧ y % 400 ≠ 0) ∧
    (m = 2 ∧ d = 29 ∨ 3 ≤ m ∧ m ≤ 12 ∧ 1 ≤ d ∧ d ≤ daysInMonth y m)

/-! ## The encoder's leap rule -/

theorem isLeapYear_eq (y : UInt32) : isLeapYear y = decide (4 ∣ y.toNat) := by
  have hmod : ∀ k : UInt32, y % k = 0 ↔ y.toNat % k.toNat = 0 := by
    intro k
    rw [← UInt32.toNat_inj, UInt32.toNat_mod]; rfl
  unfold isLeapYear
  simp only [hmod, show (400 : UInt32).toNat = 400 from rfl,
    show (100 : UInt32).toNat = 100 from rfl, show (4 : UInt32).toNat = 4 from rfl]
  split_ifs <;> simp <;> omega

/-- A year with the month lengths the encoder gives to year `y`. -/
def tableYear (y : ℕ) : ℕ := if 4 ∣ y then 4 else 1

theorem encoderTable_eq (y : UInt32) :
    (if isLeapYear y then daysYear366 else daysYear365) = monthTable (tableYear y.toNat) := by
  have h4 : IsLeapYear 4 := by decide
  have h1 : ¬ IsLeapYear 1 := by decide
  rw [isLeapYear_eq, tableYear]
  by_cases h : 4 ∣ y.toNat <;> simp [h, monthTable, h4, h1]

theorem daysInMonth_congr {y y' : ℕ} (h : IsLeapYear y ↔ IsLeapYear y') (m : ℕ) :
    daysInMonth y m = daysInMonth y' m := by
  unfold daysInMonth
  simp only [h]

theorem daysBeforeMonth_congr {y y' : ℕ} (h : IsLeapYear y ↔ IsLeapYear y') (m : ℕ) :
    daysBeforeMonth y m = daysBeforeMonth y' m :=
  Finset.sum_congr rfl fun i _ => daysInMonth_congr h i

/-- A leap year has one day more in February, -/
theorem daysInMonth_leap {y y' : ℕ} (h : ¬ IsLeapYear y) (h' : IsLeapYear y') (m : ℕ) :
    daysInMonth y' m = daysInMonth y m + if m = 2 then 1 else 0 := by
  unfold daysInMonth
  split <;> simp [h, h']
  assumption

/-- and therefore one day more before every month from March on. -/
theorem daysBeforeMonth_leap {y y' : ℕ} (h : ¬ IsLeapYear y) (h' : IsLeapYear y') (m : ℕ) :
    daysBeforeMonth y' (m + 1) = daysBeforeMonth y (m + 1) + if 3 ≤ m + 1 then 1 else 0 := by
  induction m with
  | zero => simp [daysBeforeMonth]
  | succ m ih =>
    rw [daysBeforeMonth_succ y' (by omega), daysBeforeMonth_succ y (by omega), ih,
      daysInMonth_leap h h']
    split_ifs <;> omega

/-! ## The tick count -/

/-- `cb_year_days` counts the days before the year. -/
theorem toNat_yearDays (y : UInt32) (h1 : 1 ≤ y.toNat) (h2 : y.toNat ≤ 9999) :
    (yearDays y).toNat = daysBeforeYear y.toNat := by
  have hs := daysBeforeYear_succ (y.toNat - 1)
  rw [Nat.sub_add_cancel h1] at hs
  have hy : (y - 1).toNat = y.toNat - 1 :=
    UInt32.toNat_sub_of_le _ _ (UInt32.le_iff_toNat_le.mpr h1)
  have hcent : ((y - 1) / 100).toNat = (y.toNat - 1) / 100 := by
    rw [UInt32.toNat_div, hy]; rfl
  have hprod : ((y - 1) * (365 * 4 + 1) / 4).toNat = (y.toNat - 1) * 1461 / 4 := by
    rw [UInt32.toNat_div, UInt32.toNat_mul, hy, show (365 * 4 + 1 : UInt32).toNat = 1461 from rfl,
      show (4 : UInt32).toNat = 4 from rfl]
    omega
  have hsub : ((y - 1) * (365 * 4 + 1) / 4 - (y - 1) / 100).toNat =
      (y.toNat - 1) * 1461 / 4 - (y.toNat - 1) / 100 := by
    rw [UInt32.toNat_sub_of_le _ _ (UInt32.le_iff_toNat_le.mpr (by omega)), hprod, hcent]
  rw [yearDays, UInt32.toNat_toUInt64, UInt32.toNat_add, hsub, UInt32.toNat_div, hcent,
    show (4 : UInt32).toNat = 4 from rfl, Nat.div_div_eq_div_mul]
  have hdiv : (y.toNat - 1) * 1461 / 4 = 365 * (y.toNat - 1) + (y.toNat - 1) / 4 := by omega
  rw [hdiv]
  omega

/-- The dates that pass the range checks of `cb_date_time_from_ymd`. -/
def InRange (y m d : UInt32) : Prop :=
  1 ≤ y.toNat ∧ y.toNat ≤ 9999 ∧ 1 ≤ m.toNat ∧ m.toNat ≤ 12 ∧ 1 ≤ d.toNat

theorem inRange_iff (y m d : UInt32) :
    InRange y m d ↔ ¬ (y < dateMinYear ∨ y > dateMaxYear ∨ m < 1 ∨ m > 12 ∨ d < 1) := by
  simp only [InRange, gt_iff_lt, UInt32.lt_iff_toNat_lt, show dateMinYear.toNat = 1 from rfl,
    show dateMaxYear.toNat = 9999 from rfl, show (1 : UInt32).toNat = 1 from rfl,
    show (12 : UInt32).toNat = 12 from rfl]
  omega

/-- The tick count of a date, whose month is one of the table. -/
theorem dateToTicks_eq (y d : UInt32) {m : UInt32} (h1 : 1 ≤ m.toNat) (h2 : m.toNat ≤ 12) :
    ∃ first : UInt32, first.toNat = daysBeforeMonth (tableYear y.toNat) m.toNat ∧
      dateToTicks y m d = some (if d.toNat ≤ daysInMonth (tableYear y.toNat) m.toNat then
        (yearDays y + first.toUInt64 + d.toUInt64 - 1).toUInt32.toUInt64 * ticksPerDay
        else ticksInvalid) := by
  obtain ⟨last, hl, hln⟩ := monthTable_get (tableYear y.toNat) h2
  obtain ⟨first, hf, hfn⟩ := monthTable_get (tableYear y.toNat) (m := m.toNat - 1) (by omega)
  rw [Nat.sub_add_cancel h1] at hfn
  rw [daysBeforeMonth_succ _ h1, ← hfn] at hln
  have hm1 : (m - 1).toNat = m.toNat - 1 :=
    UInt32.toNat_sub_of_le _ _ (UInt32.le_iff_toNat_le.mpr h1)
  have hdim : (last - first).toNat = daysInMonth (tableYear y.toNat) m.toNat := by
    rw [UInt32.toNat_sub_of_le _ _ (UInt32.le_iff_toNat_le.mpr (by omega)), hln]
    omega
  have hcmp : d > last - first ↔ ¬ d.toNat ≤ daysInMonth (tableYear y.toNat) m.toNat := by
    rw [gt_iff_lt, UInt32.lt_iff_toNat_lt, hdim, not_le]
  refine ⟨first, hfn, ?_⟩
  simp only [dateToTicks, encoderTable_eq, hl, hm1, hf, Option.bind_eq_bind, Option.bind_some]
  split_ifs with hd hc hc
  · exact absurd hc (hcmp.mp hd)
  · rfl
  · rfl
  · exact absurd (hcmp.mpr hc) hd

/-- **What the encoder computes** for a date that passes its range checks. -/
theorem fromYmd_guarded {y m d : UInt32} (h : InRange y m d) :
    if d.toNat ≤ daysInMonth (tableYear y.toNat) m.toNat then
      ∃ dt, fromYmd y m d = some dt ∧ valid dt = true ∧
        dt.ticks.toNat = ticksPerDay.toNat * (daysBeforeYear y.toNat +
          daysBeforeMonth (tableYear y.toNat) m.toNat + (d.toNat - 1))
    else fromYmd y m d = some invalidDt := by
  obtain ⟨h1, h2, h3, h4, h5⟩ := h
  have hg := (inRange_iff y m d).mp ⟨h1, h2, h3, h4, h5⟩
  obtain ⟨first, hfn, hticks⟩ := dateToTicks_eq y d h3 h4
  rw [fromYmd, if_neg hg, hticks]
  split_ifs with hd
  · have hyd := toNat_yearDays y h1 h2
    have hbound := daysBeforeYear_succ (y.toNat - 1)
    rw [Nat.sub_add_cancel h1] at hbound
    have hb12 := daysBeforeMonth_le (tableYear y.toNat) (m.toNat - 1)
    rw [Nat.sub_add_cancel h3] at hb12
    have hd31 := daysInMonth_le (tableYear y.toNat) m.toNat
    have hsum : (yearDays y + first.toUInt64 + d.toUInt64 - 1).toUInt32.toNat =
        daysBeforeYear y.toNat + first.toNat + (d.toNat - 1) := by
      have hadd : (yearDays y + first.toUInt64 + d.toUInt64).toNat =
          daysBeforeYear y.toNat + first.toNat + d.toNat := by
        rw [UInt64.toNat_add, UInt64.toNat_add, hyd, UInt32.toNat_toUInt64, UInt32.toNat_toUInt64]
        omega
      have hsub := UInt64.toNat_sub_of_le (yearDays y + first.toUInt64 + d.toUInt64) 1
        (UInt64.le_iff_toNat_le.mpr (by rw [hadd]; simp; omega))
      rw [UInt64.toNat_toUInt32, hsub, hadd, show (1 : UInt64).toNat = 1 from rfl]
      omega
    have hdays : ticksPerDay.toNat = 864000000000 := rfl
    have hval : (((yearDays y + first.toUInt64 + d.toUInt64 - 1).toUInt32).toUInt64 *
        ticksPerDay).toNat = ticksPerDay.toNat * (daysBeforeYear y.toNat + first.toNat +
          (d.toNat - 1)) := by
      rw [UInt64.toNat_mul, UInt32.toNat_toUInt64, hsum, hdays]
      omega
    refine ⟨_, rfl, ?_, by rw [← hfn]; exact hval⟩
    -- the count is a multiple of the ticks of a day, which the invalid one is not
    refine decide_eq_true fun heq => ?_
    have hn := congrArg UInt64.toNat heq
    rw [hval, hdays, show ticksInvalid.toNat = 18446744073709551615 from rfl] at hn
    omega
  · rfl

/-! ## The dates that survive -/

/-- Outside the range checks nothing is valid and nothing is a date. -/
theorem survivesEncoding_of_not_inRange {y m d : UInt32} (h : ¬ InRange y m d) :
    SurvivesEncoding y m d := by
  have hinv : valid invalidDt = false := by decide
  refine ⟨invalidDt, ?_, ?_, by simp [hinv]⟩
  · rw [fromYmd, if_pos (not_not.mp (mt (inRange_iff y m d).mpr h))]
  · rw [hinv]
    refine ⟨by simp, fun ⟨⟨a1, a2, a3, a4, _⟩, a6⟩ => absurd ⟨a1, a6, a2, a3, a4⟩ h⟩

/-- The first tick of a date's day decodes to the date. -/
theorem ymd_of_dayNumber {y m d : UInt32} (h : IsDate y.toNat m.toNat d.toNat) {dt : DateTime}
    (ht : dt.ticks.toNat = ticksPerDay.toNat * dayNumber y.toNat m.toNat d.toNat) :
    ymd dt = some ⟨y, m, d⟩ := by
  obtain ⟨r, hr, hdate, hnum⟩ := ymd_spec dt
  rw [DateTime.days, ht, Nat.mul_div_cancel_left _ (by decide)] at hnum
  obtain ⟨e1, e2, e3⟩ := dayNumber_injective hdate h hnum
  rw [hr]
  exact congrArg some (Ymd.ext (UInt32.toNat_inj.mp e1) (UInt32.toNat_inj.mp e2)
    (UInt32.toNat_inj.mp e3))

/-- In range, a date survives exactly when the encoder's table has the length of
    its month and, if the date exists, the days before it. -/
theorem survivesEncoding_iff_table {y m d : UInt32} (h : InRange y m d) :
    SurvivesEncoding y m d ↔
      (d.toNat ≤ daysInMonth (tableYear y.toNat) m.toNat ↔ d.toNat ≤ daysInMonth y.toNat m.toNat) ∧
      (d.toNat ≤ daysInMonth y.toNat m.toNat →
        daysBeforeMonth (tableYear y.toNat) m.toNat = daysBeforeMonth y.toNat m.toNat) := by
  have hspec := fromYmd_guarded h
  obtain ⟨h1, h2, h3, h4, h5⟩ := h
  have hdate : IsDate y.toNat m.toNat d.toNat ∧ y.toNat ≤ 9999 ↔
      d.toNat ≤ daysInMonth y.toNat m.toNat :=
    ⟨fun a => a.1.2.2.2.2, fun a => ⟨⟨h1, h3, h4, h5, a⟩, h2⟩⟩
  by_cases hd : d.toNat ≤ daysInMonth (tableYear y.toNat) m.toNat
  · rw [if_pos hd] at hspec
    obtain ⟨dt, hdt, hv, ht⟩ := hspec
    constructor
    · rintro ⟨dt', hdt', hiff, hres⟩
      obtain rfl : dt = dt' := Option.some.inj (hdt.symm.trans hdt')
      refine ⟨⟨fun _ => hdate.mp (hiff.mp hv), fun _ => hd⟩, fun _ => ?_⟩
      have hmul := ht.symm.trans (hres hv).1
      have := Nat.eq_of_mul_eq_mul_left (by decide) hmul
      unfold dayNumber at this
      omega
    · rintro ⟨hiff, heq⟩
      have hreal := hiff.mp hd
      have ht' : dt.ticks.toNat = ticksPerDay.toNat * dayNumber y.toNat m.toNat d.toNat := by
        rw [ht, heq hreal, dayNumber]
      exact ⟨dt, hdt, ⟨fun _ => hdate.mpr hreal, fun _ => hv⟩,
        fun _ => ⟨ht', ymd_of_dayNumber (hdate.mpr hreal).1 ht'⟩⟩
  · rw [if_neg hd] at hspec
    have hinv : valid invalidDt = false := by decide
    constructor
    · rintro ⟨dt', hdt', hiff, -⟩
      obtain rfl : invalidDt = dt' := Option.some.inj (hspec.symm.trans hdt')
      have hnd : ¬ d.toNat ≤ daysInMonth y.toNat m.toNat := fun hreal => by
        have := hiff.mpr (hdate.mpr hreal)
        rw [hinv] at this
        cases this
      exact ⟨⟨fun a => absurd a hd, fun a => absurd a hnd⟩, fun a => absurd a hnd⟩
    · rintro ⟨hiff, -⟩
      refine ⟨invalidDt, hspec, ?_, by simp [hinv]⟩
      rw [hinv, hdate]
      exact ⟨by simp, fun a => absurd (hiff.mpr a) hd⟩

/-- The encoder takes a year for something it is not only if it is a century
    not divisible by 400. -/
theorem tableYear_spec (y : ℕ) :
    (IsLeapYear y ↔ IsLeapYear (tableYear y)) ∧ ¬ (y % 100 = 0 ∧ y % 400 ≠ 0) ∨
      ¬ IsLeapYear y ∧ IsLeapYear (tableYear y) ∧ y % 100 = 0 ∧ y % 400 ≠ 0 := by
  have h4 : IsLeapYear 4 := by decide
  have h1 : ¬ IsLeapYear 1 := by decide
  unfold tableYear
  split_ifs with h
  · by_cases hc : y % 100 = 0 ∧ y % 400 ≠ 0
    · exact Or.inr ⟨fun hl => by unfold IsLeapYear at hl; omega, h4, hc⟩
    · exact Or.inl ⟨⟨fun _ => h4, fun _ => by unfold IsLeapYear; omega⟩, hc⟩
  · exact Or.inl ⟨⟨fun hl => absurd hl.1 h, fun hl => absurd hl h1⟩, by omega⟩

/-- **Exactly the dates that do not lie behind a missing leap day survive
    encoding.** -/
theorem survivesEncoding_iff (y m d : UInt32) :
    SurvivesEncoding y m d ↔ ¬ BehindMissingLeapDay y.toNat m.toNat d.toNat := by
  by_cases hr : InRange y m d
  · rw [survivesEncoding_iff_table hr]
    obtain ⟨h1, h2, h3, h4, h5⟩ := hr
    obtain ⟨hleap, hc⟩ | ⟨hny, hty, hc⟩ := tableYear_spec y.toNat
    · rw [daysInMonth_congr hleap, daysBeforeMonth_congr hleap]
      exact ⟨fun _ hb => hc hb.1.2.2, fun _ => ⟨Iff.rfl, fun _ => rfl⟩⟩
    · have hb := daysBeforeMonth_leap hny hty (m.toNat - 1)
      rw [Nat.sub_add_cancel h3] at hb
      rw [daysInMonth_leap hny hty, hb]
      unfold BehindMissingLeapDay
      by_cases h2m : m.toNat = 2
      · have hfeb : daysInMonth y.toNat m.toNat = 28 := by rw [h2m]; simp [daysInMonth, hny]
        rw [if_pos h2m, if_neg (by omega), hfeb]
        omega
      · rw [if_neg h2m]
        split_ifs with h3m <;> omega
  · refine ⟨fun _ => ?_, fun _ => survivesEncoding_of_not_inRange hr⟩
    rintro ⟨⟨h1, h2, -, -⟩, h⟩
    exact hr ⟨h1, h2, by omega, by omega, by omega⟩

/-- The first of March 1900 is encoded as the day that follows it. -/
theorem not_forall_survivesEncoding : ¬ ∀ y m d : UInt32, SurvivesEncoding y m d := by
  intro h
  obtain ⟨dt, hdt, -, hdec⟩ := h 1900 3 1
  have henc : fromYmd 1900 3 1 = some ⟨599317920000000000⟩ := by decide +kernel
  obtain rfl := Option.some.inj (hdt.symm.trans henc)
  have hymd := (hdec (by decide)).2
  have hnext : ymd ⟨599317920000000000⟩ = some ⟨1900, 3, 2⟩ := by decide +kernel
  rw [hnext] at hymd
  exact absurd hymd (by decide)

end Cebus.Time
