import Cebus.Utils.TimeEncode

/-!
# Encoding a date and a time

`cb_date_time_from_ymd_hms` compares the hour with 24 and the minute with 60, which it accepts,
and does not check the date: it reads the month tables at any month, and adds the time to the
tick count that stands for an invalid date.

* `fromYmdHms_eq`: what it computes once the time has passed its checks.
* `composedExactly_iff`: the dates and times that it validates and composes exactly.
-/

namespace Cebus.Time

open Calendar

/-! ## Model -/

/-- `cb_time_to_ticks` (lines 62–66); the sum is 32 bits wide. -/
def timeToTicks (hour minute second : UInt32) : UInt64 :=
  let seconds := (hour * (60 * 60) + minute * 60 + second).toUInt64
  seconds * ticksPerSecond

/-- `cb_date_time_from_ymd_hms` (lines 205–224). -/
def fromYmdHms (year month day hour minute second : UInt32) : Option DateTime :=
  if hour.toUInt64 > hoursPerDay ∨ minute.toUInt64 > minutesPerHour ∨
      second.toUInt64 > secondsPerMinute then
    some invalidDt
  else if second ≠ 60 then do
    let ticks ← dateToTicks year month day
    return ⟨ticks + timeToTicks hour minute second⟩
  else
    -- a leap second
    fromYmdHms year month day hour minute 59
termination_by if second = 60 then 1 else 0
decreasing_by simp_all

/-! ## What should be computed -/

/-- `cb_date_time_from_ymd` returns a valid date. -/
def IsValidDate (y m d : UInt32) : Prop := ∃ date, fromYmd y m d = some date ∧ valid date = true

/-- No table is read out of range, the result is valid for a valid date and a time of the day,
    and then it is the sum of their ticks. -/
def ComposedExactly (y m d hour minute second : UInt32) : Prop :=
  ∃ dt, fromYmdHms y m d hour minute second = some dt ∧
    (valid dt = true ↔
      IsValidDate y m d ∧ hour.toNat ≤ 23 ∧ minute.toNat ≤ 59 ∧ second.toNat ≤ 60) ∧
    (valid dt = true → ∀ date, fromYmd y m d = some date →
      dt.ticks.toNat = date.ticks.toNat +
        (3600 * hour.toNat + 60 * minute.toNat +
          if second.toNat = 60 then 59 else second.toNat) * 10 ^ 7)

/-- The time is refused; or there is such a month and such a time of the day, and the date is
    valid or, at midnight, the day behind the last one of the month. -/
def ComposesWell (y m d hour minute second : UInt32) : Prop :=
  (24 < hour.toNat ∨ 60 < minute.toNat ∨ 60 < second.toNat) ∨
    (1 ≤ m.toNat ∧ m.toNat ≤ 12) ∧ (hour.toNat ≤ 23 ∧ minute.toNat ≤ 59) ∧
      (IsValidDate y m d ∨
        daysInMonth (tableYear y.toNat) m.toNat < d.toNat ∧ hour = 0 ∧ minute = 0 ∧ second = 0)

/-! ## The time -/

/-- The second that is added, after a leap second has been read as the one before. -/
def plainSecond (second : UInt32) : UInt32 := if second = 60 then 59 else second

theorem toNat_plainSecond (second : UInt32) :
    (plainSecond second).toNat = if second.toNat = 60 then 59 else second.toNat := by
  have hiff : second = 60 ↔ second.toNat = 60 := by
    rw [← UInt32.toNat_inj]
    rfl
  unfold plainSecond
  simp only [hiff]
  split_ifs
  · rfl
  · rfl

theorem toNat_plainSecond_eq_zero (second : UInt32) :
    (plainSecond second).toNat = 0 ↔ second.toNat = 0 := by
  have hplain := toNat_plainSecond second
  split_ifs at hplain with hleap
  · omega
  · rw [hplain]

/-- The checks of the time. -/
theorem refused_iff (hour minute second : UInt32) :
    (hour.toUInt64 > hoursPerDay ∨ minute.toUInt64 > minutesPerHour ∨
        second.toUInt64 > secondsPerMinute) ↔
      24 < hour.toNat ∨ 60 < minute.toNat ∨ 60 < second.toNat := by
  simp only [gt_iff_lt, UInt64.lt_iff_toNat_lt, UInt32.toNat_toUInt64]
  rfl

/-- **What is computed** from a time that passes the checks. -/
theorem fromYmdHms_eq (y m d : UInt32) {hour minute second : UInt32}
    (h : ¬(24 < hour.toNat ∨ 60 < minute.toNat ∨ 60 < second.toNat)) :
    fromYmdHms y m d hour minute second = (dateToTicks y m d).map fun ticks =>
      ⟨ticks + timeToTicks hour minute (plainSecond second)⟩ := by
  have hplain {s : UInt32} (hs : ¬(24 < hour.toNat ∨ 60 < minute.toNat ∨ 60 < s.toNat))
      (hne : s ≠ 60) : fromYmdHms y m d hour minute s = (dateToTicks y m d).map fun ticks =>
        ⟨ticks + timeToTicks hour minute s⟩ := by
    rw [fromYmdHms, if_neg (mt (refused_iff _ _ _).mp hs), if_pos hne]
    cases dateToTicks y m d with
    | none => rfl
    | some ticks => rfl
  unfold plainSecond
  split_ifs with hleap
  · rw [fromYmdHms, if_neg (mt (refused_iff _ _ _).mp h), if_neg (not_not.mpr hleap)]
    refine hplain ?_ (by decide)
    have h59 : (59 : UInt32).toNat = 59 := rfl
    omega
  · exact hplain h hleap

/-- The ticks of a time. -/
theorem toNat_timeToTicks {hour minute second : UInt32}
    (h : ¬(24 < hour.toNat ∨ 60 < minute.toNat ∨ 60 < second.toNat)) :
    (timeToTicks hour minute second).toNat =
      (3600 * hour.toNat + 60 * minute.toNat + second.toNat) * 10 ^ 7 := by
  have hseconds : (hour * (60 * 60) + minute * 60 + second).toNat =
      3600 * hour.toNat + 60 * minute.toNat + second.toNat := by
    have h60 : (60 : UInt32).toNat = 60 := rfl
    simp only [UInt32.toNat_add, UInt32.toNat_mul, h60]
    omega
  have hticks : ticksPerSecond.toNat = 10 ^ 7 := rfl
  rw [timeToTicks, UInt64.toNat_mul, UInt32.toNat_toUInt64, hseconds, hticks]
  omega

/-! ## The date -/

/-- Outside of the months the tables are read out of range. -/
theorem dateToTicks_eq_none (y d : UInt32) {m : UInt32} (h : ¬(1 ≤ m.toNat ∧ m.toNat ≤ 12)) :
    dateToTicks y m d = none := by
  have hlen : (monthTable (tableYear y.toNat)).length = 13 := by
    unfold monthTable
    split_ifs <;> rfl
  simp only [dateToTicks, encoderTable_eq]
  by_cases hzero : m.toNat = 0
  · have hm : m = 0 := UInt32.toNat_inj.mp hzero
    have hfirst : (monthTable (tableYear y.toNat))[(m - 1).toNat]? = none := by
      rw [hm]
      exact List.getElem?_eq_none (by rw [hlen]; decide)
    rw [hfirst]
    cases (monthTable (tableYear y.toNat))[m.toNat]? with
    | none => rfl
    | some last => rfl
  · have hlast : (monthTable (tableYear y.toNat))[m.toNat]? = none :=
      List.getElem?_eq_none (by omega)
    rw [hlast]
    rfl

/-- The valid dates. -/
theorem isValidDate_iff (y m d : UInt32) :
    IsValidDate y m d ↔ InRange y m d ∧ d.toNat ≤ daysInMonth (tableYear y.toNat) m.toNat := by
  have hinv : valid invalidDt = false := by decide
  by_cases hr : InRange y m d
  · have hspec := fromYmd_guarded hr
    split_ifs at hspec with hd
    · obtain ⟨dt, hdt, hv, -⟩ := hspec
      exact iff_of_true ⟨dt, hdt, hv⟩ ⟨hr, hd⟩
    · refine iff_of_false ?_ (fun h => hd h.2)
      rintro ⟨dt, hdt, hv⟩
      obtain rfl := Option.some.inj (hspec.symm.trans hdt)
      rw [hinv] at hv
      cases hv
  · refine iff_of_false ?_ (fun h => hr h.1)
    rintro ⟨dt, hdt, hv⟩
    rw [fromYmd, if_pos (not_not.mp (mt (inRange_iff y m d).mpr hr))] at hdt
    obtain rfl := Option.some.inj hdt
    rw [hinv] at hv
    cases hv

/-- A valid date has the ticks of the encoder, and they leave room for a day. -/
theorem ticks_of_isValidDate {y m d : UInt32} (h : IsValidDate y m d) {date : DateTime}
    (hdate : fromYmd y m d = some date) :
    dateToTicks y m d = some date.ticks ∧ date.ticks.toNat < 2 ^ 62 := by
  obtain ⟨hr, hd⟩ := (isValidDate_iff y m d).mp h
  have hspec := fromYmd_guarded hr
  rw [if_pos hd] at hspec
  obtain ⟨dt, hdt, -, hticks⟩ := hspec
  obtain rfl := Option.some.inj (hdt.symm.trans hdate)
  obtain ⟨h1, h2, h3, h4, h5⟩ := hr
  constructor
  · rw [fromYmd, if_neg ((inRange_iff y m d).mp ⟨h1, h2, h3, h4, h5⟩)] at hdt
    obtain ⟨ticks, heq, rfl⟩ := Option.map_eq_some_iff.mp hdt
    exact heq
  · have hyear := daysBeforeYear_succ (y.toNat - 1)
    rw [Nat.sub_add_cancel h1] at hyear
    have hmonth := daysBeforeMonth_le (tableYear y.toNat) (m.toNat - 1)
    rw [Nat.sub_add_cancel h3] at hmonth
    have hday := daysInMonth_le (tableYear y.toNat) m.toNat
    have hticksPerDay : ticksPerDay.toNat = 864000000000 := rfl
    rw [hticks, hticksPerDay]
    omega

/-! ## The sum -/

/-- The ticks of some days and of a time are even, which the invalid count is not. -/
theorem valid_of_days (days : UInt32) {time : UInt64} {n : ℕ} (h : time.toNat = n * 10 ^ 7) :
    valid ⟨days.toUInt64 * ticksPerDay + time⟩ = true := by
  refine decide_eq_true fun heq => ?_
  have hticksPerDay : ticksPerDay.toNat = 864000000000 := rfl
  have hinvalid : ticksInvalid.toNat = 18446744073709551615 := rfl
  have hn := congrArg UInt64.toNat heq
  rw [UInt64.toNat_add, UInt64.toNat_mul, UInt32.toNat_toUInt64, hticksPerDay, h, hinvalid] at hn
  omega

/-- Any time but midnight makes the invalid count a valid one. -/
theorem valid_invalid_add (time : UInt64) :
    valid ⟨ticksInvalid + time⟩ = true ↔ time.toNat ≠ 0 := by
  have hzero : ticksInvalid + time = ticksInvalid ↔ time.toNat = 0 := by
    rw [UInt64.add_eq_left, ← UInt64.toNat_inj]
    rfl
  rw [valid, decide_eq_true_eq, Ne, hzero]

/-- The ticks of a time that has passed its checks, in which a leap second counts for the one
    before. -/
theorem toNat_plainTime {hour minute second : UInt32}
    (h : ¬(24 < hour.toNat ∨ 60 < minute.toNat ∨ 60 < second.toNat)) :
    (timeToTicks hour minute (plainSecond second)).toNat =
      (3600 * hour.toNat + 60 * minute.toNat +
        if second.toNat = 60 then 59 else second.toNat) * 10 ^ 7 := by
  have hsecond := toNat_plainSecond second
  rw [← hsecond]
  refine toNat_timeToTicks ?_
  split_ifs at hsecond
  · omega
  · omega

/-- **A day that the month may have** is composed exactly if the date is valid and the time is one
    of the day. -/
theorem composedExactly_of_day {y m d hour minute second days : UInt32}
    (h : ¬(24 < hour.toNat ∨ 60 < minute.toNat ∨ 60 < second.toNat))
    (hdate : dateToTicks y m d = some (days.toUInt64 * ticksPerDay)) :
    ComposedExactly y m d hour minute second ↔
      (hour.toNat ≤ 23 ∧ minute.toNat ≤ 59) ∧ IsValidDate y m d := by
  have heq := fromYmdHms_eq y m d h
  rw [hdate] at heq
  have htime := toNat_plainTime h
  have hvalid := valid_of_days days htime
  constructor
  · rintro ⟨dt, hdt, hiff, -⟩
    obtain rfl := Option.some.inj (heq.symm.trans hdt)
    obtain ⟨hv, hhour, hminute, -⟩ := hiff.mp hvalid
    exact ⟨⟨hhour, hminute⟩, hv⟩
  · rintro ⟨⟨hhour, hminute⟩, hv⟩
    refine ⟨_, heq, iff_of_true hvalid ⟨hv, hhour, hminute, by omega⟩, fun _ date hymd => ?_⟩
    obtain ⟨hsame, hlt⟩ := ticks_of_isValidDate hv hymd
    rw [hdate] at hsame
    rw [Option.some.inj hsame, UInt64.toNat_add, htime]
    split_ifs
    · omega
    · omega

/-- **A day behind the month** is composed exactly with midnight. -/
theorem composedExactly_of_late {y m d hour minute second : UInt32}
    (h : ¬(24 < hour.toNat ∨ 60 < minute.toNat ∨ 60 < second.toNat))
    (hno : ¬IsValidDate y m d) (hdate : dateToTicks y m d = some ticksInvalid) :
    ComposedExactly y m d hour minute second ↔ hour = 0 ∧ minute = 0 ∧ second = 0 := by
  have heq := fromYmdHms_eq y m d h
  rw [hdate] at heq
  have hzero : (timeToTicks hour minute (plainSecond second)).toNat = 0 ↔
      hour = 0 ∧ minute = 0 ∧ second = 0 := by
    have htime := toNat_plainTime h
    rw [← toNat_plainSecond] at htime
    simp only [← UInt32.toNat_inj, UInt32.toNat_zero, ← toNat_plainSecond_eq_zero second]
    rw [htime]
    clear htime heq
    omega
  have hvalid := valid_invalid_add (timeToTicks hour minute (plainSecond second))
  rw [Ne, hzero] at hvalid
  constructor
  · rintro ⟨dt, hdt, hiff, -⟩
    obtain rfl := Option.some.inj (heq.symm.trans hdt)
    by_contra hne
    exact hno (hiff.mp (hvalid.mpr hne)).1
  · intro hmidnight
    have hinvalid := mt hvalid.mp (not_not.mpr hmidnight)
    exact ⟨_, heq, iff_of_false hinvalid (fun hall => hno hall.1), fun hv => absurd hv hinvalid⟩

/-- **Date and time are validated and composed exactly** if the time is refused at once, or if
    the month and the time are in range and the date is valid or, at midnight, the day is behind
    the end of the month. -/
theorem composedExactly_iff (y m d hour minute second : UInt32) :
    ComposedExactly y m d hour minute second ↔ ComposesWell y m d hour minute second := by
  by_cases h : 24 < hour.toNat ∨ 60 < minute.toNat ∨ 60 < second.toNat
  · refine iff_of_true ?_ (Or.inl h)
    have hinvalid : ¬valid invalidDt = true := by decide
    refine ⟨invalidDt, by rw [fromYmdHms, if_pos ((refused_iff _ _ _).mpr h)], ?_,
      fun hv => absurd hv hinvalid⟩
    exact iff_of_false hinvalid fun hall => by omega
  · rw [ComposesWell, or_iff_right h]
    by_cases hmonth : 1 ≤ m.toNat ∧ m.toNat ≤ 12
    · rw [and_iff_right hmonth]
      obtain ⟨first, -, hdate⟩ := dateToTicks_eq y d hmonth.1 hmonth.2
      split_ifs at hdate with hday
      · rw [composedExactly_of_day h hdate, or_iff_left]
        rintro ⟨hlate, -⟩
        exact Nat.not_le.mpr hlate hday
      · have hno : ¬IsValidDate y m d := fun hv => hday ((isValidDate_iff y m d).mp hv).2
        rw [composedExactly_of_late h hno hdate, or_iff_right hno,
          and_iff_right (Nat.not_le.mp hday)]
        refine (and_iff_right_of_imp ?_).symm
        rintro ⟨hhour, hminute, -⟩
        rw [hhour, hminute]
        exact ⟨Nat.zero_le _, Nat.zero_le _⟩
    · refine iff_of_false ?_ (fun hwell => hmonth hwell.1)
      rintro ⟨dt, hdt, -⟩
      rw [fromYmdHms_eq y m d h, dateToTicks_eq_none y d hmonth] at hdt
      cases hdt

/-- One o'clock on the 30th of February is valid. -/
theorem not_forall_composedExactly :
    ¬∀ y m d hour minute second : UInt32, ComposedExactly y m d hour minute second := by
  intro h
  have hwell := (composedExactly_iff 2023 2 30 1 0 0).mp (h 2023 2 30 1 0 0)
  have hdate : ¬IsValidDate 2023 2 30 := by
    rw [isValidDate_iff]
    rintro ⟨-, hday⟩
    exact absurd hday (by decide)
  obtain hrefused | ⟨-, -, hvalid | ⟨-, hhour, -⟩⟩ := hwell
  · exact absurd hrefused (by decide)
  · exact hdate hvalid
  · exact absurd hhour (by decide)

end Cebus.Time
