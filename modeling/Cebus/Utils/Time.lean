import Mathlib.Data.Nat.Notation

/-!
# Date and time (`time.c`)

Tick counts are `UInt64` and date parts `UInt32`, as in `time.h`. The
constants of `time_internal.h` that end in `UL` make their product a 64-bit one,
which the assignment to a `uint32_t` then truncates. Reading a month table
outside its thirteen entries is `none`.
-/

namespace Cebus.Time

/-! ## `time_internal.h` -/

/-- `CB_TICKS_INVALID` (line 3). -/
def ticksInvalid : UInt64 := -1

/-- `CB_SECONDS_PER_MINUTE` (line 6). -/
def secondsPerMinute : UInt64 := 60

/-- `CB_MINUTES_PER_HOUR` (line 9). -/
def minutesPerHour : UInt64 := 60

/-- `CB_HOURS_PER_DAY` (line 15). -/
def hoursPerDay : UInt64 := 24

/-- `CB_DAYS_PER_YEAR` (line 18). -/
def daysPerYear : UInt64 := 365

/-- `CB_DAYS_PER_4_YEARS` (line 21). -/
def daysPer4Years : UInt64 := daysPerYear * 4 + 1

/-- `CB_DAYS_PER_100_YEARS` (line 24). -/
def daysPer100Years : UInt64 := daysPer4Years * 25 - 1

/-- `CB_DAYS_PER_400_YEARS` (line 27). -/
def daysPer400Years : UInt64 := daysPer100Years * 4 + 1

/-- `CB_TICKS_PER_MILLISECOND` (line 33). -/
def ticksPerMillisecond : UInt64 := 10000

/-- `CB_TICKS_PER_SECOND` (line 36). -/
def ticksPerSecond : UInt64 := ticksPerMillisecond * 1000

/-- `CB_TICKS_PER_MINUTE` (line 39). -/
def ticksPerMinute : UInt64 := ticksPerSecond * secondsPerMinute

/-- `CB_TICKS_PER_HOUR` (line 42). -/
def ticksPerHour : UInt64 := ticksPerMinute * minutesPerHour

/-- `CB_TICKS_PER_DAY` (line 45). -/
def ticksPerDay : UInt64 := ticksPerHour * hoursPerDay

/-- `CB_DAYS_TO_1970` (line 54). -/
def daysTo1970 : UInt64 :=
  daysPer400Years * 4 + daysPer100Years * 3 + daysPer4Years * 17 + daysPerYear

/-- `CB_EPOCH_TICKS` (line 57). -/
def epochTicks : UInt64 := daysTo1970 * ticksPerDay

/-- `CB_DATE_MIN_YEAR` (line 48). -/
def dateMinYear : UInt32 := 1

/-- `CB_DATE_MAX_YEAR` (line 51). -/
def dateMaxYear : UInt32 := 9999

/-! ## Types -/

/-- `cb_date_time` (`time.h`). -/
structure DateTime where
  ticks : UInt64
deriving DecidableEq

/-- `cb_ymd`. -/
@[ext]
structure Ymd where
  year : UInt32
  month : UInt32
  day : UInt32
deriving DecidableEq

/-- `cb_hms`. -/
@[ext]
structure Hms where
  hours : UInt32
  minutes : UInt32
  seconds : UInt32
deriving DecidableEq

/-- `days_year_365` (line 10). -/
def daysYear365 : List UInt32 := [0, 31, 59, 90, 120, 151, 181, 212, 243, 273, 304, 334, 365]

/-- `days_year_366` (line 15). -/
def daysYear366 : List UInt32 := [0, 31, 60, 91, 121, 152, 182, 213, 244, 274, 305, 335, 366]

/-- `invalid_dt` (line 19). -/
def invalidDt : DateTime := ⟨ticksInvalid⟩

/-- `cb_date_part` (line 21). -/
inductive DatePart
  | day
  | dayOfYear
  | month
  | year
deriving DecidableEq

/-! ## Encoding -/

/-- `cb_is_leap_year` (lines 29–38). -/
def isLeapYear (year : UInt32) : Bool :=
  if year % 400 = 0 then true
  else if year % 4 = 0 ∨ year % 100 = 0 then true
  else false

/-- `cb_year_days` (lines 41–47); all operands are 32 bits wide. -/
def yearDays (year : UInt32) : UInt64 :=
  let y := year - 1
  let cent := y / 100
  (y * (365 * 4 + 1) / 4 - cent + cent / 4).toUInt64

/-- `cb_date_to_ticks` (lines 49–60). -/
def dateToTicks (year month day : UInt32) : Option UInt64 := do
  let daysYear := if isLeapYear year then daysYear366 else daysYear365
  let last ← daysYear[month.toNat]?
  let first ← daysYear[(month - 1).toNat]?
  let daysMonth := last - first
  if day > daysMonth then
    return ticksInvalid
  let days := (yearDays year + first.toUInt64 + day.toUInt64 - 1).toUInt32
  return days.toUInt64 * ticksPerDay

/-- `cb_date_time_from_ymd` (lines 192–203). -/
def fromYmd (year month day : UInt32) : Option DateTime :=
  if year < dateMinYear ∨ year > dateMaxYear ∨ month < 1 ∨ month > 12 ∨ day < 1 then
    some invalidDt
  else
    (dateToTicks year month day).map DateTime.mk

/-- `cb_date_time_valid` (lines 267–270). -/
def valid (dt : DateTime) : Bool := dt.ticks ≠ ticksInvalid

/-! ## Decoding -/

/-- The variables shared by `cb_date_time_ymd` and `cb_date_time_get_date_part`
    after their identical period divisions; `days` is left within the year. -/
structure Periods where
  years400 : UInt32
  years100 : UInt32
  years4 : UInt32
  years : UInt32
  days : UInt32

/-- The period divisions (lines 76–101 and 130–154). -/
def periods (dt : DateTime) : Periods :=
  let days := (dt.ticks / ticksPerDay).toUInt32
  let years400 := (days.toUInt64 / daysPer400Years).toUInt32
  let days := (days.toUInt64 - years400.toUInt64 * daysPer400Years).toUInt32
  let years100 := (days.toUInt64 / daysPer100Years).toUInt32
  let years100 := if years100 = 4 then 3 else years100
  let days := (days.toUInt64 - years100.toUInt64 * daysPer100Years).toUInt32
  let years4 := (days.toUInt64 / daysPer4Years).toUInt32
  let days := (days.toUInt64 - years4.toUInt64 * daysPer4Years).toUInt32
  let years := (days.toUInt64 / daysPerYear).toUInt32
  let years := if years = 4 then 3 else years
  let days := (days.toUInt64 - years.toUInt64 * daysPerYear).toUInt32
  ⟨years400, years100, years4, years, days⟩

/-- The year of the period counts (lines 99 and 152). -/
def Periods.year (p : Periods) : UInt32 :=
  p.years400 * 400 + p.years100 * 100 + p.years4 * 4 + p.years + 1

/-- The month table chosen by the leap rule relative to year 1 (lines 107 and 158). -/
def Periods.daysYear (p : Periods) : List UInt32 :=
  if p.years = 3 ∧ (p.years4 ≠ 24 ∨ p.years100 = 3) then daysYear366 else daysYear365

/-- `while (days >= days_year[month]) ++month;` (lines 114–115 and 165–166),
    at most `fuel` tests; fourteen lead out of the table. -/
def monthLoop (daysYear : List UInt32) (days : UInt32) : ℕ → UInt32 → Option UInt32
  | 0, _ => none
  | fuel + 1, month =>
    match daysYear[month.toNat]? with
    | none => none
    | some d => if days ≥ d then monthLoop daysYear days fuel (month + 1) else some month

/-- The month search from its first guess `(days >> 5) + 1`. -/
def Periods.month (p : Periods) : Option UInt32 :=
  monthLoop p.daysYear p.days 14 ((p.days >>> 5) + 1)

/-- The day within the month (lines 120 and 168). -/
def Periods.day (p : Periods) (month : UInt32) : Option UInt32 :=
  p.daysYear[(month - 1).toNat]?.map fun d => p.days - d + 1

/-- `cb_date_time_ymd` (lines 123–170). -/
def ymd (dt : DateTime) : Option Ymd := do
  let p := periods dt
  let month ← p.month
  let day ← p.day month
  return { year := p.year, month := month, day := day }

/-- `cb_date_time_get_date_part` (lines 68–121). -/
def getDatePart (dt : DateTime) (part : DatePart) : Option UInt32 := do
  let p := periods dt
  if part = .year then
    return p.year
  if part = .dayOfYear then
    return p.days + 1
  let month ← p.month
  if part = .month then
    return month
  p.day month

/-- `cb_date_time_hms` (lines 172–184). -/
def hms (dt : DateTime) : Hms :=
  let seconds := dt.ticks / ticksPerSecond
  let minutes := seconds / secondsPerMinute
  let hours := minutes / minutesPerHour
  { seconds := (seconds - minutes * secondsPerMinute).toUInt32
    minutes := (minutes - hours * minutesPerHour).toUInt32
    hours := (hours % 24).toUInt32 }

/-- `cb_date_time_year` (lines 232–235). -/
def year (dt : DateTime) : Option UInt32 := getDatePart dt .year

/-- `cb_date_time_month` (lines 237–240). -/
def month (dt : DateTime) : Option UInt32 := getDatePart dt .month

/-- `cb_date_time_day` (lines 242–245). -/
def day (dt : DateTime) : Option UInt32 := getDatePart dt .day

/-- `cb_date_time_hours` (lines 247–250). -/
def hours (dt : DateTime) : UInt32 := (dt.ticks / ticksPerHour % hoursPerDay).toUInt32

/-- `cb_date_time_minutes` (lines 252–255). -/
def minutes (dt : DateTime) : UInt32 := (dt.ticks / ticksPerMinute % minutesPerHour).toUInt32

/-- `cb_date_time_seconds` (lines 257–260). -/
def seconds (dt : DateTime) : UInt32 := (dt.ticks / ticksPerSecond % secondsPerMinute).toUInt32

end Cebus.Time
