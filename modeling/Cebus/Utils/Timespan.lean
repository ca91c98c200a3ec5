import Mathlib.Algebra.Group.Nat.Defs
import Mathlib.Tactic.Ring

/-!
# Time spans (`timespan.c`)

A span has 64 bits of seconds and 32 bits of nanoseconds, and is built from and read in four
units. The products with an `int` constant are 64 bits wide for the seconds and 32 bits wide for
the nanoseconds.

* `span_eq`, `toNat_read`: the parts of a span, and what is read of it.
* `convertsExactly`: what is read is exact for each pair of units.
-/

namespace Cebus

/-! ## Model -/

/-- `timespan` (`timespan.h`, lines 7–11). -/
structure Timespan where
  secs : UInt64
  nsecs : UInt32
deriving DecidableEq

namespace Timespan

/-- `NANOS_PER_SEC` (line 5). -/
def nanosPerSec : ℕ := 1000000000

/-- `NANOS_PER_MILLI` (line 6). -/
def nanosPerMilli : ℕ := 1000000

/-- `NANOS_PER_MICRO` (line 7). -/
def nanosPerMicro : ℕ := 1000

/-- `MILLIS_PER_SEC` (line 8). -/
def millisPerSec : ℕ := 1000

/-- `MICROS_PER_SEC` (line 9). -/
def microsPerSec : ℕ := 1000000

/-- `timespan_from_secs` (lines 11–18). -/
def fromSecs (secs : UInt64) : Timespan := { secs, nsecs := 0 }

/-- The seconds and the nanoseconds of a count of parts of a second. -/
def fromParts (perSec nanosPerPart : ℕ) (parts : UInt64) : Timespan where
  secs := parts / UInt64.ofNat perSec
  nsecs := (parts % UInt64.ofNat perSec).toUInt32 * UInt32.ofNat nanosPerPart

/-- `timespan_from_millis` (lines 20–27). -/
def fromMillis (millis : UInt64) : Timespan := fromParts millisPerSec nanosPerMilli millis

/-- `timespan_from_micros` (lines 29–36). -/
def fromMicros (usecs : UInt64) : Timespan := fromParts microsPerSec nanosPerMicro usecs

/-- `timespan_from_nanos` (lines 38–45). -/
def fromNanos (nsecs : UInt64) : Timespan where
  secs := nsecs / UInt64.ofNat nanosPerSec
  nsecs := (nsecs % UInt64.ofNat nanosPerSec).toUInt32

/-- `timespan_as_secs` (lines 57–60). -/
def asSecs (ts : Timespan) : UInt64 := ts.secs

/-- A span in parts of a second. -/
def asParts (perSec nanosPerPart : ℕ) (ts : Timespan) : UInt64 :=
  ts.secs * UInt64.ofNat perSec + (ts.nsecs / UInt32.ofNat nanosPerPart).toUInt64

/-- `timespan_as_millis` (lines 62–65). -/
def asMillis (ts : Timespan) : UInt64 := asParts millisPerSec nanosPerMilli ts

/-- `timespan_as_micros` (lines 67–70). -/
def asMicros (ts : Timespan) : UInt64 := asParts microsPerSec nanosPerMicro ts

/-- `timespan_as_nanos` (lines 72–75). -/
def asNanos (ts : Timespan) : UInt64 := ts.secs * UInt64.ofNat nanosPerSec + ts.nsecs.toUInt64

end Timespan

/-- The units of the conversions. -/
inductive TimeUnit
  | seconds
  | milliseconds
  | microseconds
  | nanoseconds
deriving DecidableEq

namespace TimeUnit

/-- The length of a unit in nanoseconds. -/
def nanos : TimeUnit → ℕ
  | seconds => 10 ^ 9
  | milliseconds => 10 ^ 6
  | microseconds => 10 ^ 3
  | nanoseconds => 1

/-- How many of a unit are in a second. -/
def perSec : TimeUnit → ℕ
  | seconds => 1
  | milliseconds => 10 ^ 3
  | microseconds => 10 ^ 6
  | nanoseconds => 10 ^ 9

/-- The span that is built from a count of a unit. -/
def span : TimeUnit → UInt64 → Timespan
  | seconds => Timespan.fromSecs
  | milliseconds => Timespan.fromMillis
  | microseconds => Timespan.fromMicros
  | nanoseconds => Timespan.fromNanos

/-- The count of a unit that is read of a span. -/
def read : TimeUnit → Timespan → UInt64
  | seconds => Timespan.asSecs
  | milliseconds => Timespan.asMillis
  | microseconds => Timespan.asMicros
  | nanoseconds => Timespan.asNanos

/-! ## What should be computed -/

/-- The count `x` of the unit `u` is read exactly in the unit `v`. -/
structure ConvertsExactly (u v : TimeUnit) (x : UInt64) : Prop where
  nsecs : (u.span x).nsecs.toNat < 10 ^ 9
  /-- in a unit that is not finer the sum and its terms do not wrap around -/
  fits : u.nanos ≤ v.nanos →
    (u.span x).secs.toNat * v.perSec + (u.span x).nsecs.toNat / v.nanos < 2 ^ 64
  coarser : u.nanos ≤ v.nanos → (v.read (u.span x)).toNat = x.toNat * u.nanos / v.nanos
  finer : v.nanos < u.nanos → (v.read (u.span x)).toNat = x.toNat * (u.nanos / v.nanos) % 2 ^ 64
  same : u.read (u.span x) = x

/-! ## Units -/

variable {u v : TimeUnit} {p q n r x : ℕ}

theorem perSec_pos (u : TimeUnit) : 0 < u.perSec := by
  cases u <;> decide

theorem nanos_pos (u : TimeUnit) : 0 < u.nanos := by
  cases u <;> decide

/-- The units of a second make up a second. -/
theorem perSec_mul_nanos (u : TimeUnit) : u.perSec * u.nanos = 10 ^ 9 := by
  cases u <;> rfl

/-- A unit is a multiple of each one that is not coarser. -/
theorem exists_mul_of_le (h : u.nanos ≤ v.nanos) :
    ∃ r, 0 < r ∧ v.nanos = u.nanos * r ∧ u.perSec = v.perSec * r := by
  refine ⟨v.nanos / u.nanos, Nat.div_pos h u.nanos_pos, ?_⟩
  cases u <;> cases v <;> first | exact ⟨rfl, rfl⟩ | exact absurd h (by decide)

/-! ## Quotients and remainders -/

/-- Parts of a second, read in larger ones. -/
theorem recombine_coarser (hp : p = q * r) (hr : 0 < r) (hn : 0 < n) :
    x / p * q + x % p * n / (n * r) = x / r := by
  have hparts : x % p * n / (n * r) = x % p / r := by
    rw [Nat.mul_comm (x % p) n, Nat.mul_div_mul_left _ _ hn]
  have hx : x = x % p + r * (x / p * q) := by
    have hdiv := Nat.mod_add_div x p
    have hmul : p * (x / p) = r * (x / p * q) := by
      rw [hp]
      ring
    omega
  rw [hparts]
  conv_rhs => rw [hx, Nat.add_mul_div_left _ _ hr]
  omega

/-- Parts of a second, read in smaller ones. -/
theorem recombine_finer (hq : q = p * r) (hn : 0 < n) :
    x / p * q + x % p * (n * r) / n = x * r := by
  have hparts : x % p * (n * r) / n = x % p * r := by
    rw [Nat.mul_left_comm, Nat.mul_div_cancel_left _ hn]
  have hsecs : x / p * q = p * (x / p) * r := by
    rw [hq]
    ring
  rw [hparts, hsecs, ← Nat.add_mul, Nat.div_add_mod]

/-! ## Spans -/

/-- What a count leaves of a second. -/
theorem mod_mul_lt (x : ℕ) (u : TimeUnit) : x % u.perSec * u.nanos < 10 ^ 9 := by
  rw [← u.perSec_mul_nanos]
  exact Nat.mul_lt_mul_of_pos_right (Nat.mod_lt x u.perSec_pos) u.nanos_pos

/-- The remainder fits in 32 bits, and so does its product. -/
theorem toNat_remainder (perSec nanosPerPart : ℕ) (x : UInt64) (hpos : 0 < perSec)
    (hlt : perSec < 2 ^ 32) (hnanos : nanosPerPart < 2 ^ 32)
    (hfits : x.toNat % perSec * nanosPerPart < 2 ^ 32) :
    ((x % UInt64.ofNat perSec).toUInt32 * UInt32.ofNat nanosPerPart).toNat =
      x.toNat % perSec * nanosPerPart := by
  have hmod := Nat.mod_lt x.toNat hpos
  have hrem : (x % UInt64.ofNat perSec).toUInt32.toNat = x.toNat % perSec := by
    rw [UInt64.toNat_toUInt32, UInt64.toNat_mod,
      UInt64.toNat_ofNat_of_lt' (Nat.lt_trans hlt (by decide))]
    omega
  rw [UInt32.toNat_mul, hrem, UInt32.toNat_ofNat_of_lt' hnanos, Nat.mod_eq_of_lt hfits]

/-- **The parts of a span.** -/
theorem span_eq (u : TimeUnit) (x : UInt64) :
    (u.span x).secs.toNat = x.toNat / u.perSec ∧
      (u.span x).nsecs.toNat = x.toNat % u.perSec * u.nanos := by
  have hlt := mod_mul_lt x.toNat u
  cases u with
  | seconds => exact ⟨(Nat.div_one _).symm, by rw [perSec, Nat.mod_one, Nat.zero_mul]; rfl⟩
  | milliseconds =>
    exact ⟨UInt64.toNat_div x 1000,
      toNat_remainder _ _ x (by decide) (by decide) (by decide) (Nat.lt_trans hlt (by decide))⟩
  | microseconds =>
    exact ⟨UInt64.toNat_div x 1000000,
      toNat_remainder _ _ x (by decide) (by decide) (by decide) (Nat.lt_trans hlt (by decide))⟩
  | nanoseconds =>
    have hone := toNat_remainder (10 ^ 9) 1 x (by decide) (by decide) (by decide)
      (Nat.lt_trans hlt (by decide))
    refine ⟨UInt64.toNat_div x 1000000000, ?_⟩
    rw [← UInt32.mul_one (span nanoseconds x).nsecs]
    exact hone

/-- The sum of the seconds and the nanoseconds in parts of a second. -/
theorem toNat_asParts (perSec nanosPerPart : ℕ) (ts : Timespan) (hlt : perSec < 2 ^ 64)
    (hnanos : nanosPerPart < 2 ^ 32) :
    (ts.asParts perSec nanosPerPart).toNat =
      (ts.secs.toNat * perSec + ts.nsecs.toNat / nanosPerPart) % 2 ^ 64 := by
  rw [Timespan.asParts, UInt64.toNat_add, UInt64.toNat_mul, UInt32.toNat_toUInt64,
    UInt32.toNat_div, UInt64.toNat_ofNat_of_lt' hlt, UInt32.toNat_ofNat_of_lt' hnanos,
    Nat.mod_add_mod]

/-- **What is read of a span.** -/
theorem toNat_read (v : TimeUnit) {ts : Timespan} (h : ts.nsecs.toNat < 10 ^ 9) :
    (v.read ts).toNat = (ts.secs.toNat * v.perSec + ts.nsecs.toNat / v.nanos) % 2 ^ 64 := by
  cases v with
  | seconds =>
    have hsecs := ts.secs.toNat_lt
    rw [perSec, nanos, Nat.div_eq_of_lt h, Nat.mul_one, Nat.add_zero, Nat.mod_eq_of_lt hsecs]
    rfl
  | milliseconds => exact toNat_asParts _ _ ts (by decide) (by decide)
  | microseconds => exact toNat_asParts _ _ ts (by decide) (by decide)
  | nanoseconds =>
    have hparts := toNat_asParts (10 ^ 9) 1 ts (by decide) (by decide)
    rw [Timespan.asParts, show UInt32.ofNat 1 = 1 from rfl, UInt32.div_one] at hparts
    exact hparts

/-- **The conversions are exact** for each pair of units. -/
theorem convertsExactly (u v : TimeUnit) (x : UInt64) : ConvertsExactly u v x := by
  obtain ⟨hsecs, hnsecs⟩ := span_eq u x
  have hlt : (u.span x).nsecs.toNat < 10 ^ 9 := hnsecs ▸ mod_mul_lt x.toNat u
  have hx := x.toNat_lt
  have hcoarser {v : TimeUnit} (h : u.nanos ≤ v.nanos) :
      (u.span x).secs.toNat * v.perSec + (u.span x).nsecs.toNat / v.nanos =
        x.toNat * u.nanos / v.nanos := by
    obtain ⟨r, hr, hnanos, hper⟩ := exists_mul_of_le h
    rw [hsecs, hnsecs, hnanos, recombine_coarser hper hr u.nanos_pos, Nat.mul_comm x.toNat,
      Nat.mul_div_mul_left _ _ u.nanos_pos]
  have hfits {v : TimeUnit} (h : u.nanos ≤ v.nanos) :
      (u.span x).secs.toNat * v.perSec + (u.span x).nsecs.toNat / v.nanos < 2 ^ 64 := by
    have hle : x.toNat * u.nanos / v.nanos ≤ x.toNat :=
      Nat.div_le_of_le_mul (by rw [Nat.mul_comm]; exact Nat.mul_le_mul_right _ h)
    rw [hcoarser h]
    omega
  refine ⟨hlt, hfits, fun h => ?_, fun h => ?_, ?_⟩
  · rw [toNat_read v hlt, Nat.mod_eq_of_lt (hfits h), hcoarser h]
  · obtain ⟨r, -, hnanos, hper⟩ := exists_mul_of_le (Nat.le_of_lt h)
    rw [toNat_read v hlt, hsecs, hnsecs, hnanos, recombine_finer hper v.nanos_pos,
      Nat.mul_div_cancel_left _ v.nanos_pos]
  · rw [← UInt64.toNat_inj, toNat_read u hlt, Nat.mod_eq_of_lt (hfits (Nat.le_refl _)),
      hcoarser (Nat.le_refl _), Nat.mul_div_cancel _ u.nanos_pos]

end TimeUnit

end Cebus
