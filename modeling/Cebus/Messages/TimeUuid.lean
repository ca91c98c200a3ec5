import Cebus.Lib.Timestamps
import Cebus.Messages.TransportMessage

/-!
# Time-based uuids (`uuid.c`)

What the clock reads is passed to the generator.

* `layout_injective`: the bytes of a uuid keep 60 bits of the time and 14 bits of the
  counter.
* `generateTimes_distinct`: the uuids of a generator are distinct, of version 1 and of the
  variant `10`.
-/

namespace Cebus

/-! ## Model -/

/-- `cb_time_uuid_gen` (`uuid.h`). -/
structure TimeUuidGen where
  nodeId : List UInt8
  length_nodeId : nodeId.length = 6
  clockId : UInt16
  epochTicks : UInt64

/-- `cb_uuid_eq` (lines 127–131). -/
def uuidEq (lhs rhs : Uuid) : Bool := lhs.bits = rhs.bits

/-- `cb_time_uuid_gen_ticks` (lines 45–72). -/
def timeUuidGenTicks (gen : TimeUuidGen) (ticks : UInt64) : Uuid :=
  let rticks := ticks - gen.epochTicks
  { bits := [(rticks >>> 24).toUInt8, (rticks >>> 16).toUInt8, (rticks >>> 8).toUInt8,
      rticks.toUInt8, (rticks >>> 40).toUInt8, (rticks >>> 32).toUInt8,
      (rticks >>> 56).toUInt8 &&& 0x0F ||| 0x10, (rticks >>> 48).toUInt8,
      (gen.clockId >>> 8).toUInt8 &&& 0x3F ||| 0x80, gen.clockId.toUInt8] ++ gen.nodeId
    length_bits := by rw [List.length_append, gen.length_nodeId]; rfl }

/-- `cb_uuid_generate_time` (lines 74–78) when the clock is at `ticks`. -/
def uuidGenerateTime (gen : TimeUuidGen) (ticks : UInt64) : TimeUuidGen × Uuid :=
  let gen := { gen with clockId := gen.clockId + 1 }
  (gen, timeUuidGenTicks gen ticks)

/-- `cb_message_id_next` (`message_id.c`, lines 41–44). -/
def messageIdNext (gen : TimeUuidGen) (ticks : UInt64) : TimeUuidGen × MessageId :=
  let (gen, value) := uuidGenerateTime gen ticks
  (gen, ⟨value⟩)

/-- The uuids of successive calls, one for each reading of the clock. -/
def generateTimes (gen : TimeUuidGen) : List UInt64 → List Uuid
  | [] => []
  | ticks :: rest =>
    let (gen, uuid) := uuidGenerateTime gen ticks
    uuid :: generateTimes gen rest

/-- The message ids of successive calls. -/
def nextIds (gen : TimeUuidGen) : List UInt64 → List MessageId
  | [] => []
  | ticks :: rest =>
    let (gen, id) := messageIdNext gen ticks
    id :: nextIds gen rest

/-- The version is in the high half of byte 6. -/
def Uuid.version (uuid : Uuid) : UInt8 := uuid.bits.getD 6 0 >>> 4

/-- The variant is in the two high bits of byte 8. -/
def Uuid.variant (uuid : Uuid) : UInt8 := uuid.bits.getD 8 0 >>> 6

/-! ## The layout -/

/-- Setting a bit above the ones that a mask keeps. -/
theorem toNat_and_or {k i : ℕ} {mask bit : UInt8} (hmask : mask.toNat = 2 ^ k - 1)
    (hbit : bit.toNat = 2 ^ i) (hki : k ≤ i) (b : UInt8) :
    (b &&& mask ||| bit).toNat = b.toNat % 2 ^ k + 2 ^ i := by
  have hlt : b.toNat % 2 ^ k < 2 ^ i :=
    Nat.lt_of_lt_of_le (Nat.mod_lt _ (Nat.two_pow_pos k)) (Nat.pow_le_pow_right (by decide) hki)
  have hor := Nat.two_pow_add_eq_or_of_lt hlt 1
  rw [UInt8.toNat_or, UInt8.toNat_and, hmask, hbit, Nat.and_two_pow_sub_one_eq_mod,
    Nat.or_comm]
  rw [Nat.mul_one] at hor
  rw [← hor, Nat.add_comm]

theorem toNat_version_byte (b : UInt8) :
    (b &&& 0x0F ||| 0x10).toNat = b.toNat % 16 + 16 :=
  toNat_and_or (k := 4) (i := 4) rfl rfl (Nat.le_refl 4) b

theorem toNat_variant_byte (b : UInt8) :
    (b &&& 0x3F ||| 0x80).toNat = b.toNat % 64 + 128 :=
  toNat_and_or (k := 6) (i := 7) rfl rfl (by decide) b

theorem version_timeUuidGenTicks (gen : TimeUuidGen) (ticks : UInt64) :
    (timeUuidGenTicks gen ticks).version = 1 := by
  have hbyte := toNat_version_byte ((ticks - gen.epochTicks) >>> 56).toUInt8
  have hshift :
      ((((ticks - gen.epochTicks) >>> 56).toUInt8 &&& 0x0F ||| 0x10) >>> 4).toNat = 1 := by
    rw [UInt8.toNat_shiftRight, hbyte, Nat.shiftRight_eq_div_pow]
    show _ / 16 = 1
    omega
  exact UInt8.toNat_inj.mp hshift

theorem variant_timeUuidGenTicks (gen : TimeUuidGen) (ticks : UInt64) :
    (timeUuidGenTicks gen ticks).variant = 2 := by
  have hbyte := toNat_variant_byte (gen.clockId >>> 8).toUInt8
  have hshift : (((gen.clockId >>> 8).toUInt8 &&& 0x3F ||| 0x80) >>> 6).toNat = 2 := by
    rw [UInt8.toNat_shiftRight, hbyte, Nat.shiftRight_eq_div_pow]
    show _ / 64 = 2
    omega
  exact UInt8.toNat_inj.mp hshift

theorem toNat_byte_eq {x y n : UInt64} {k : ℕ} (hn : n.toNat % 64 = k)
    (h : (x >>> n).toUInt8 = (y >>> n).toUInt8) :
    x.toNat / 2 ^ k % 256 = y.toNat / 2 ^ k % 256 := by
  have hbyte (z : UInt64) : (z >>> n).toUInt8.toNat = z.toNat / 2 ^ k % 256 := by
    rw [UInt64.toNat_toUInt8, UInt64.toNat_shiftRight, hn, Nat.shiftRight_eq_div_pow]
  rw [← hbyte, ← hbyte, h]

/-- Quotients with the same low byte and the same rest are equal. -/
theorem div_eq_of_byte {x y k : ℕ} (hbyte : x / 2 ^ k % 256 = y / 2 ^ k % 256)
    (hrest : x / 2 ^ (k + 8) = y / 2 ^ (k + 8)) : x / 2 ^ k = y / 2 ^ k := by
  have hdiv (z : ℕ) : z / 2 ^ (k + 8) = z / 2 ^ k / 256 := by
    rw [Nat.pow_add, ← Nat.div_div_eq_div_mul]
  rw [hdiv, hdiv] at hrest
  omega

/-- Numbers of 60 bits with the same bytes, where the last one counts in part. -/
theorem eq_of_bytes {x y : ℕ} (hx : x < 2 ^ 60) (hy : y < 2 ^ 60) (h0 : x % 256 = y % 256)
    (h1 : x / 2 ^ 8 % 256 = y / 2 ^ 8 % 256) (h2 : x / 2 ^ 16 % 256 = y / 2 ^ 16 % 256)
    (h3 : x / 2 ^ 24 % 256 = y / 2 ^ 24 % 256) (h4 : x / 2 ^ 32 % 256 = y / 2 ^ 32 % 256)
    (h5 : x / 2 ^ 40 % 256 = y / 2 ^ 40 % 256) (h6 : x / 2 ^ 48 % 256 = y / 2 ^ 48 % 256)
    (h7 : x / 2 ^ 56 % 256 % 16 = y / 2 ^ 56 % 256 % 16) : x = y := by
  have h7' : x / 2 ^ 56 = y / 2 ^ 56 := by omega
  have h4' := div_eq_of_byte h4 (div_eq_of_byte h5 (div_eq_of_byte h6 h7'))
  have h1' := div_eq_of_byte h1 (div_eq_of_byte h2 (div_eq_of_byte h3 h4'))
  omega

/-- **A uuid tells the 60 bits of the time and the low 14 bits of the counter.** -/
theorem layout_injective {gen gen' : TimeUuidGen} {t t' : UInt64}
    (h : timeUuidGenTicks gen t = timeUuidGenTicks gen' t')
    (ht : (t - gen.epochTicks).toNat < 2 ^ 60) (ht' : (t' - gen'.epochTicks).toNat < 2 ^ 60) :
    t - gen.epochTicks = t' - gen'.epochTicks ∧
      gen.clockId.toNat % 2 ^ 14 = gen'.clockId.toNat % 2 ^ 14 := by
  have hbits := congrArg Uuid.bits h
  simp only [timeUuidGenTicks, List.cons_append, List.cons.injEq] at hbits
  obtain ⟨b3, b2, b1, b0, b5, b4, b7, b6, c1, c0, -⟩ := hbits
  constructor
  · have hlow := congrArg UInt8.toNat b0
    rw [UInt64.toNat_toUInt8, UInt64.toNat_toUInt8] at hlow
    have hhigh := congrArg UInt8.toNat b7
    rw [toNat_version_byte, toNat_version_byte] at hhigh
    have hbyte (z : UInt64) : (z >>> 56).toUInt8.toNat = z.toNat / 2 ^ 56 % 256 := by
      rw [UInt64.toNat_toUInt8, UInt64.toNat_shiftRight, Nat.shiftRight_eq_div_pow]
      rfl
    rw [hbyte, hbyte] at hhigh
    exact UInt64.toNat_inj.mp (eq_of_bytes ht ht' hlow (toNat_byte_eq rfl b1)
      (toNat_byte_eq rfl b2) (toNat_byte_eq rfl b3) (toNat_byte_eq rfl b4) (toNat_byte_eq rfl b5)
      (toNat_byte_eq rfl b6) (Nat.add_right_cancel hhigh))
  · have hlow := congrArg UInt8.toNat c0
    rw [UInt16.toNat_toUInt8, UInt16.toNat_toUInt8] at hlow
    have hhigh := congrArg UInt8.toNat c1
    rw [toNat_variant_byte, toNat_variant_byte] at hhigh
    have hbyte (z : UInt16) : (z >>> 8).toUInt8.toNat = z.toNat / 2 ^ 8 % 256 := by
      rw [UInt16.toNat_toUInt8, UInt16.toNat_shiftRight, Nat.shiftRight_eq_div_pow]
      rfl
    rw [hbyte, hbyte] at hhigh
    omega

/-! ## The runs -/

theorem generateTimes_cons (gen : TimeUuidGen) (ticks : UInt64) (rest : List UInt64) :
    generateTimes gen (ticks :: rest) =
      (uuidGenerateTime gen ticks).2 :: generateTimes (uuidGenerateTime gen ticks).1 rest := rfl

@[simp] theorem length_generateTimes (gen : TimeUuidGen) (ts : List UInt64) :
    (generateTimes gen ts).length = ts.length := by
  induction ts generalizing gen with
  | nil => rfl
  | cons ticks rest ih => rw [generateTimes_cons, List.length_cons, ih, List.length_cons]

theorem map_value_nextIds (gen : TimeUuidGen) (ts : List UInt64) :
    (nextIds gen ts).map MessageId.value = generateTimes gen ts := by
  induction ts generalizing gen with
  | nil => rfl
  | cons ticks rest ih => exact congrArg _ (ih _)

/-- The counter has gone up by one for each call. -/
theorem getElem_generateTimes (gen : TimeUuidGen) {ts : List UInt64} {i : ℕ} (hi : i < ts.length)
    (hi' : i < (generateTimes gen ts).length) :
    (generateTimes gen ts)[i] =
      timeUuidGenTicks { gen with clockId := gen.clockId + UInt16.ofNat (i + 1) } ts[i] := by
  induction ts generalizing gen i with
  | nil => cases hi
  | cons ticks rest ih =>
    rcases i with _ | i
    · rfl
    · simp only [generateTimes_cons, List.getElem_cons_succ]
      rw [ih (uuidGenerateTime gen ticks).1 (Nat.lt_of_succ_lt_succ hi), uuidGenerateTime]
      simp only [UInt16.add_assoc]
      rw [show (1 : UInt16) = UInt16.ofNat 1 by rfl, ← UInt16.ofNat_add, Nat.add_comm 1]

section

variable {gen : TimeUuidGen} {ts : List UInt64}

/-- Two calls with the same time have different counters, also in the 14 bits that the variant
    leaves. -/
theorem generateTimes_pairwise (hmono : ts.Pairwise (· ≤ ·))
    (hrange : ∀ t ∈ ts, gen.epochTicks ≤ t ∧ (t - gen.epochTicks).toNat < 2 ^ 60)
    (hruns : Timestamps.ShortRuns (2 ^ 14) ts) : (generateTimes gen ts).Pairwise (· ≠ ·) := by
  rw [List.pairwise_iff_getElem]
  intro i j hi hj hij heq
  have hj' : j < ts.length := by rwa [length_generateTimes] at hj
  have hi' : i < ts.length := Nat.lt_trans hij hj'
  rw [getElem_generateTimes gen hi', getElem_generateTimes gen hj'] at heq
  obtain ⟨hlei, hlti⟩ := hrange ts[i] (List.getElem_mem hi')
  obtain ⟨hlej, hltj⟩ := hrange ts[j] (List.getElem_mem hj')
  obtain ⟨htime, hclock⟩ := layout_injective heq hlti hltj
  have hticks : ts[i] = ts[j] := by
    have h := congrArg (· + gen.epochTicks) htime
    simpa only [UInt64.sub_add_cancel] using h
  have hcounter := Timestamps.counter_ne hmono hruns hij hj' hticks (gen.clockId.toNat + 1)
  simp only [UInt16.toNat_add, UInt16.toNat_ofNat'] at hclock
  omega

/-- **The uuids and message ids of a generator never repeat**, and are of version 1 and of the
    variant `10`. -/
theorem generateTimes_distinct (gen : TimeUuidGen) (ts : List UInt64)
    (hmono : ts.Pairwise (· ≤ ·))
    (hrange : ∀ t ∈ ts, gen.epochTicks ≤ t ∧ (t - gen.epochTicks).toNat < 2 ^ 60)
    (hruns : Timestamps.ShortRuns (2 ^ 14) ts) :
    (generateTimes gen ts).Pairwise (fun a b => uuidEq a b = false) ∧
      (nextIds gen ts).Pairwise (fun a b => uuidEq a.value b.value = false) ∧
      ∀ uuid ∈ generateTimes gen ts, uuid.version = 1 ∧ uuid.variant = 2 := by
  have huuids : (generateTimes gen ts).Pairwise (fun a b => uuidEq a b = false) := by
    apply (generateTimes_pairwise hmono hrange hruns).imp
    intro a b hne
    exact decide_eq_false fun hbits => hne (by cases a; cases b; cases hbits; rfl)
  refine ⟨huuids, ?_, fun uuid huuid => ?_⟩
  · rw [← map_value_nextIds, List.pairwise_map] at huuids
    exact huuids
  · obtain ⟨i, hi, rfl⟩ := List.getElem_of_mem huuid
    rw [getElem_generateTimes gen (by rwa [length_generateTimes] at hi)]
    exact ⟨version_timeUuidGenTicks _ _, variant_timeUuidGenTicks _ _⟩

end

/-- Three calls, two of them at one time, with a counter that comes back to 0. -/
theorem generateTimes_three :
    (generateTimes ⟨[1, 2, 3, 4, 5, 6], rfl, 0xFFFF, 1000⟩ [1005, 1005, 1007]).Pairwise
      (fun a b => uuidEq a b = false) :=
  (generateTimes_distinct ⟨[1, 2, 3, 4, 5, 6], rfl, 0xFFFF, 1000⟩ [1005, 1005, 1007] (by decide)
    (by simp) fun n t h => by
      have hlen : n ≤ 3 := by simpa using h.length_le
      exact Nat.lt_of_le_of_lt hlen (Nat.lt_trans (by omega : 3 < 14) Nat.lt_two_pow_self)).1

end Cebus
