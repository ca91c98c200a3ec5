import Cebus.Peer.DescriptorRoundTrip
import Mathlib.Data.Nat.Prime.Basic

/-!
# Timestamps and their scale

`cb_date_time_from_proto` adds the value of a `bcl.DateTime` to the epoch and looks neither at
its scale nor at whether the value is there.

* `eq_mul_even_iff`: scaling by an even unit changes every word but 0.
* `readInScale_iff`: the messages that it reads in the scale they were sent in.
-/

namespace Cebus

open LinkedList (Fault)

namespace Proto

/-! ## Scales -/

/-- `TimeSpanScale` (`bcl.proto`, lines 34–43), without `MINMAX`, which has no unit. -/
inductive TimeSpanScale
  | days
  | hours
  | minutes
  | seconds
  | milliseconds
  | ticks
deriving DecidableEq

/-- The number of a scale on the wire. -/
def TimeSpanScale.number : TimeSpanScale → Int32
  | .days => 0
  | .hours => 1
  | .minutes => 2
  | .seconds => 3
  | .milliseconds => 4
  | .ticks => 5

/-- The ticks of a scale's unit. -/
def TimeSpanScale.unit : TimeSpanScale → UInt64
  | .days => Time.ticksPerDay
  | .hours => Time.ticksPerHour
  | .minutes => Time.ticksPerMinute
  | .seconds => Time.ticksPerSecond
  | .milliseconds => Time.ticksPerMillisecond
  | .ticks => 1

/-- The message is in this scale; an absent scale means days. -/
def DateTime.SentIn (proto : DateTime) (scale : TimeSpanScale) : Prop :=
  if proto.scale.has then proto.scale.value = scale.number else scale = .days

/-- The date that is meant: the value, 0 if absent, in units of the scale from 1970/01/01. -/
def DateTime.meant (proto : DateTime) (scale : TimeSpanScale) : Time.DateTime :=
  let value := if proto.value.has then proto.value.value else 0
  ⟨Time.epochTicks + value.toUInt64 * scale.unit⟩

/-- Every unit but the tick is even. -/
theorem TimeSpanScale.unit_even {scale : TimeSpanScale} (h : scale ≠ .ticks) :
    scale.unit.toNat % 2 = 0 := by
  cases scale with
  | ticks => exact absurd rfl h
  | days => decide
  | hours => decide
  | minutes => decide
  | seconds => decide
  | milliseconds => decide

end Proto

/-! ## Reading a timestamp -/

/-- A message is read as the date that is meant in the scale it is in. -/
def ReadInScale (proto : Proto.DateTime) : Prop :=
  ∀ scale, proto.SentIn scale → dateTimeFromProto (some proto) = .ok (proto.meant scale)

/-- Scaling by an even unit changes every word but 0, as the unit less one is odd and has an
    inverse modulo `2 ^ 64`. -/
theorem eq_mul_even_iff (value : UInt64) {unit : UInt64} (h : unit.toNat % 2 = 0) :
    value = value * unit ↔ value = 0 := by
  constructor
  · intro heq
    have hnat : value.toNat = value.toNat * unit.toNat % 2 ^ 64 := by
      rw [← UInt64.toNat_mul, ← heq]
    have hcoprime : Nat.Coprime (2 ^ 64) (unit.toNat + (2 ^ 64 - 1)) :=
      Nat.Coprime.pow_left 64 (Nat.coprime_two_left.mpr (Nat.odd_iff.mpr (by omega)))
    have hdvd : 2 ^ 64 ∣ value.toNat * (unit.toNat + (2 ^ 64 - 1)) := by
      rw [Nat.mul_add]
      omega
    have hzero := Nat.eq_zero_of_dvd_of_lt (hcoprime.dvd_of_dvd_mul_right hdvd) value.toNat_lt
    exact UInt64.toNat_inj.mp hzero
  · rintro rfl
    exact (UInt64.zero_mul).symm

/-- The date that is meant in a scale is read if the value is 0, or if it is there and the scale is
    that of the ticks. -/
theorem dateTimeFromProto_eq_meant_iff (proto : Proto.DateTime) (scale : Proto.TimeSpanScale) :
    dateTimeFromProto (some proto) = .ok (proto.meant scale) ↔
      proto.value.value = 0 ∨ proto.value.has = true ∧ scale = .ticks := by
  have hread : dateTimeFromProto (some proto) = .ok (proto.meant scale) ↔
      proto.value.value.toUInt64 =
        (if proto.value.has then proto.value.value else 0).toUInt64 * scale.unit := by
    simp only [dateTimeFromProto, Proto.DateTime.meant, Except.ok.injEq, Time.DateTime.mk.injEq]
    rw [UInt64.add_comm, UInt64.add_right_inj]
  have hzero : proto.value.value.toUInt64 = 0 ↔ proto.value.value = 0 := by
    constructor
    · intro h
      rw [← Int64.toInt64_toUInt64 proto.value.value, h]
      rfl
    · intro h
      rw [h]
      rfl
  rw [hread, ← hzero]
  cases proto.value.has with
  | false =>
    simp only [Bool.false_eq_true, if_false, false_and, or_false]
    rw [show (0 : Int64).toUInt64 = 0 from rfl, UInt64.zero_mul]
  | true =>
    simp only [if_true, true_and]
    by_cases hticks : scale = .ticks
    · rw [hticks]
      exact iff_of_true (UInt64.mul_one _).symm (Or.inr rfl)
    · rw [eq_mul_even_iff _ (Proto.TimeSpanScale.unit_even hticks), or_iff_left hticks]

/-- **A timestamp is read in the scale it was sent in** if its value is 0, or is there and in
    ticks; every date comes back from its message. -/
theorem readInScale_iff (proto : Proto.DateTime) :
    (ReadInScale proto ↔ proto.value.value = 0 ∨
      ∀ scale, proto.SentIn scale → proto.value.has = true ∧ scale = .ticks) ∧
    ∀ date, dateTimeFromProto (some (dateTimeProtoInit date)) = .ok date := by
  refine ⟨?_, dateTime_roundTrip⟩
  unfold ReadInScale
  simp only [dateTimeFromProto_eq_meant_iff, forall_or_left]

/-- One day after the epoch is read as one tick after it. -/
theorem not_forall_readInScale : ¬∀ proto : Proto.DateTime, ReadInScale proto := by
  intro h
  obtain hzero | hticks := (readInScale_iff ⟨⟨true, 1⟩, ⟨true, 0⟩⟩).1.mp (h _)
  · exact absurd hzero (by decide)
  · exact absurd (hticks .days rfl) (by decide)

end Cebus
