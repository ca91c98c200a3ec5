import Cebus.Lib.Base128
import Cebus.Lib.LittleEndian
import Cebus.Lib.ZigZag
import Mathlib.Tactic.SplitIfs

/-!
# Numbers on the wire (`protobuf-c.c`)

The functions that write a number into a buffer are given as the bytes that they write;
what they return is how many these are. Signed numbers stand for their bits.

* `uint32Pack_eq`, `int32Pack_eq`, `uint64Pack_eq`, `tagPack_eq`: what is written are the
  digits of the number in base 128.
* `uint32Size_eq`, `int32Size_eq`, `uint64Size_eq`, `getTagSize_eq`: how many bytes
  these are.
* `toNat_parseUint32`, `toNat_parseUint64`: what is read of any digits.
-/

namespace Cebus.ProtobufC

/-! ## Sizes -/

/-- `get_tag_size` (lines 244–258). -/
def getTagSize (number : UInt32) : ℕ :=
  if number.toNat < 2 ^ 4 then 1
  else if number.toNat < 2 ^ 11 then 2
  else if number.toNat < 2 ^ 18 then 3
  else if number.toNat < 2 ^ 25 then 4
  else 5

/-- `uint32_size` (lines 269–283). -/
def uint32Size (v : UInt32) : ℕ :=
  if v.toNat < 2 ^ 7 then 1
  else if v.toNat < 2 ^ 14 then 2
  else if v.toNat < 2 ^ 21 then 3
  else if v.toNat < 2 ^ 28 then 4
  else 5

/-- `int32_size` (lines 294–310). -/
def int32Size (v : UInt32) : ℕ :=
  if v.toInt32 < 0 then 10
  else if v.toNat < 2 ^ 7 then 1
  else if v.toNat < 2 ^ 14 then 2
  else if v.toNat < 2 ^ 21 then 3
  else if v.toNat < 2 ^ 28 then 4
  else 5

/-- `zigzag32` (lines 321–327). -/
def zigzag32 (v : UInt32) : UInt32 := (v <<< 1) ^^^ (v.toInt32 >>> 31).toUInt32

/-- `sint32_size` (lines 339–343). -/
def sint32Size (v : UInt32) : ℕ := uint32Size (zigzag32 v)

/-- `uint64_size` (lines 354–374). -/
def uint64Size (v : UInt64) : ℕ :=
  let upper := (v >>> 32).toUInt32
  if upper = 0 then uint32Size v.toUInt32
  else if upper.toNat < 2 ^ 3 then 5
  else if upper.toNat < 2 ^ 10 then 6
  else if upper.toNat < 2 ^ 17 then 7
  else if upper.toNat < 2 ^ 24 then 8
  else if upper.toNat < 2 ^ 31 then 9
  else 10

/-- `zigzag64` (lines 385–391). -/
def zigzag64 (v : UInt64) : UInt64 := (v <<< 1) ^^^ (v.toInt64 >>> 63).toUInt64

/-- `sint64_size` (lines 403–407). -/
def sint64Size (v : UInt64) : ℕ := uint64Size (zigzag64 v)

/-! ## Writing -/

/-- At most `k` bytes that another one follows, and the last one. -/
def packBytes : ℕ → UInt32 → List UInt8
  | 0, value => [value.toUInt8]
  | k + 1, value =>
    if 0x80 ≤ value then (value ||| 0x80).toUInt8 :: packBytes k (value >>> 7)
    else [value.toUInt8]

/-- `uint32_pack` (lines 783–807). -/
def uint32Pack (value : UInt32) : List UInt8 := packBytes 4 value

/-- `int32_pack` (lines 820–835). -/
def int32Pack (value : UInt32) : List UInt8 :=
  if value.toInt32 < 0 then
    [(value ||| 0x80).toUInt8,
      ((value.toInt32 >>> 7).toUInt32 ||| 0x80).toUInt8,
      ((value.toInt32 >>> 14).toUInt32 ||| 0x80).toUInt8,
      ((value.toInt32 >>> 21).toUInt32 ||| 0x80).toUInt8,
      ((value.toInt32 >>> 28).toUInt32 ||| 0x80).toUInt8,
      0xff, 0xff, 0xff, 0xff, 0x01]
  else uint32Pack value

/-- `sint32_pack` (lines 848–852). -/
def sint32Pack (value : UInt32) : List UInt8 := uint32Pack (zigzag32 value)

/-- `uint64_pack` (lines 865–892); its loop takes at most four turns. -/
def uint64Pack (value : UInt64) : List UInt8 :=
  let hi := (value >>> 32).toUInt32
  let lo := value.toUInt32
  if hi = 0 then uint32Pack lo
  else
    [(lo ||| 0x80).toUInt8, ((lo >>> 7) ||| 0x80).toUInt8, ((lo >>> 14) ||| 0x80).toUInt8,
      ((lo >>> 21) ||| 0x80).toUInt8] ++
    if hi < 8 then [((hi <<< 4) ||| (lo >>> 28)).toUInt8]
    else (((hi &&& 7) <<< 4) ||| (lo >>> 28) ||| 0x80).toUInt8 :: packBytes 4 (hi >>> 3)

/-- `sint64_pack` (lines 905–909). -/
def sint64Pack (value : UInt64) : List UInt8 := uint64Pack (zigzag64 value)

/-- `fixed32_pack` (lines 922–936). -/
def fixed32Pack (value : UInt32) : List UInt8 := LittleEndian.toBytes 4 value.toNat

/-- `fixed64_pack` (lines 953–963). -/
def fixed64Pack (value : UInt64) : List UInt8 := LittleEndian.toBytes 8 value.toNat

/-- `boolean_pack` (lines 978–983). -/
def booleanPack (value : Bool) : List UInt8 := [if value then 1 else 0]

/-- `tag_pack` (lines 1074–1081). -/
def tagPack (id : UInt32) : List UInt8 :=
  if id.toNat < 2 ^ (32 - 3) then uint32Pack (id <<< 3) else uint64Pack (id.toUInt64 <<< 3)

/-- The wire type goes into the first byte of the tag: `out[0] |= wire_type`. -/
def setWireType (wireType : UInt8) : List UInt8 → List UInt8
  | [] => []
  | b :: bs => (b ||| wireType) :: bs

/-! ## Reading -/

/-- The lower seven bits of bytes, the first ones at `shift`. -/
def orBytes32 (shift : UInt32) : List UInt8 → UInt32
  | [] => 0
  | b :: bs => ((b &&& 0x7f).toUInt32 <<< shift) ||| orBytes32 (shift + 7) bs

/-- `parse_uint32` (lines 2405–2421); nothing is taken off the fifth byte. -/
def parseUint32 (data : List UInt8) : UInt32 :=
  orBytes32 0 (data.take 4) |||
    match data[4]? with
    | some b => b.toUInt32 <<< 28
    | none => 0

/-- `unzigzag32` (lines 2429–2434). -/
def unzigzag32 (v : UInt32) : UInt32 := (v >>> 1) ^^^ (~~~(v &&& 1) + 1)

/-- `parse_fixed_uint32` (lines 2436–2449). -/
def parseFixedUint32 (data : List UInt8) : UInt32 :=
  UInt32.ofNat (LittleEndian.ofBytes (data.take 4))

/-- The lower seven bits of bytes, the first ones at `shift`. -/
def orBytes64 (shift : UInt64) : List UInt8 → UInt64
  | [] => 0
  | b :: bs => ((b &&& 0x7f).toUInt64 <<< shift) ||| orBytes64 (shift + 7) bs

/-- `parse_uint64` (lines 2451–2469), of at most ten bytes. -/
def parseUint64 (data : List UInt8) : UInt64 :=
  if data.length < 5 then (parseUint32 data).toUInt64 else orBytes64 0 data

/-- `unzigzag64` (lines 2471–2476). -/
def unzigzag64 (v : UInt64) : UInt64 := (v >>> 1) ^^^ (~~~(v &&& 1) + 1)

/-- `parse_fixed_uint64` (lines 2478–2489). -/
def parseFixedUint64 (data : List UInt8) : UInt64 :=
  UInt64.ofNat (LittleEndian.ofBytes (data.take 8))

/-- `parse_boolean` (lines 2491–2499). -/
def parseBoolean (data : List UInt8) : Bool := data.any fun b => b &&& 0x7f ≠ 0

variable {bs : List UInt8} {k : ℕ}

/-! ## The bytes of a number -/

theorem or_high (n : ℕ) : (n ||| 128) % 256 = n % 128 + 128 := by
  have hlow : (n ||| 128) % 2 ^ 7 = n % 128 := by
    rw [Nat.or_mod_two_pow]
    exact Nat.or_zero _
  have hbit : (n ||| 128) / 2 ^ 7 % 2 = 1 := by
    rw [← Nat.shiftRight_eq_div_pow, Nat.shiftRight_or_distrib, Nat.or_mod_two_pow (n := 1)]
    obtain heven | hodd := Nat.mod_two_eq_zero_or_one (n >>> 7)
    · rw [Nat.pow_one, heven]
      rfl
    · rw [Nat.pow_one, hodd]
      rfl
  omega

/-- A byte that another one follows. -/
theorem toNat_high (v : UInt32) : (v ||| 0x80).toUInt8.toNat = v.toNat % 128 + 128 := by
  rw [UInt32.toNat_toUInt8, UInt32.toNat_or]
  exact or_high v.toNat

theorem toNat_shiftRight_seven (v : UInt32) : (v >>> 7).toNat = v.toNat / 128 := by
  rw [UInt32.toNat_shiftRight]
  exact Nat.shiftRight_eq_div_pow v.toNat 7

theorem packBytes_eq {v : UInt32} (h : v.toNat < 128 ^ (k + 1)) :
    packBytes k v = Base128.encode v.toNat := by
  induction k generalizing v with
  | zero =>
    rw [packBytes]
    refine Base128.singleton_eq_encode (by simpa using h) ?_
    rw [UInt32.toNat_toUInt8]
    omega
  | succ k ih =>
    rw [packBytes]
    split_ifs with hle
    · refine Base128.cons_eq_encode hle (toNat_high v) ?_
      rw [← toNat_shiftRight_seven]
      apply ih
      rw [toNat_shiftRight_seven, Nat.div_lt_iff_lt_mul (by decide)]
      exact h
    · have hlt : v.toNat < 128 := Nat.not_le.mp hle
      refine Base128.singleton_eq_encode hlt ?_
      rw [UInt32.toNat_toUInt8]
      omega

theorem uint32Pack_eq (v : UInt32) : uint32Pack v = Base128.encode v.toNat :=
  packBytes_eq (Nat.lt_trans v.toNat_lt (by decide))

/-- The bits of an `int32_t` as those of an `int64_t`. -/
def signExtend (v : UInt32) : ℕ :=
  if v.toNat < 2 ^ 31 then v.toNat else v.toNat + (2 ^ 64 - 2 ^ 32)

theorem toInt32_neg_iff (v : UInt32) : v.toInt32 < 0 ↔ ¬v.toNat < 2 ^ 31 := by
  have hlt := v.toNat_lt
  have hint : v.toInt32.toInt = v.toBitVec.toInt := rfl
  have hnat : v.toBitVec.toNat = v.toNat := rfl
  rw [Int32.lt_iff_toInt_lt, hint, BitVec.toInt_eq_toNat_cond, hnat]
  simp only [Int32.toInt_zero]
  split_ifs with h
  · omega
  · omega

theorem toNat_sshiftRight {v : UInt32} {s : Int32} (hneg : v.toInt32 < 0)
    (hs : (s.toBitVec.smod 32).toNat = k) :
    (v.toInt32 >>> s).toUInt32.toNat = 2 ^ 32 - 1 - (2 ^ 32 - 1 - v.toNat) / 2 ^ k := by
  have hnat : (v.toInt32 >>> s).toUInt32.toNat = (v.toInt32 >>> s).toBitVec.toNat := rfl
  have hbits : v.toInt32.toBitVec = v.toBitVec := rfl
  have hmsb : v.toBitVec.msb = true := by
    rw [BitVec.msb_eq_decide, decide_eq_true_eq]
    exact Nat.not_lt.mp ((toInt32_neg_iff v).mp hneg)
  rw [hnat, Int32.toBitVec_shiftRight, hbits, BitVec.sshiftRight', hs,
    BitVec.sshiftRight_eq_of_msb_true hmsb, BitVec.toNat_not, BitVec.toNat_ushiftRight,
    BitVec.toNat_not, Nat.shiftRight_eq_div_pow]
  rfl

theorem int32Pack_eq (v : UInt32) : int32Pack v = Base128.encode (signExtend v) := by
  have hlt := v.toNat_lt
  rw [int32Pack, signExtend]
  by_cases hneg : v.toInt32 < 0
  · have hge := (toInt32_neg_iff v).mp hneg
    have h7 : (v.toInt32 >>> 7).toUInt32.toNat = v.toNat / 2 ^ 7 + (2 ^ 32 - 2 ^ 25) := by
      rw [toNat_sshiftRight (k := 7) hneg rfl]
      omega
    have h14 : (v.toInt32 >>> 14).toUInt32.toNat = v.toNat / 2 ^ 14 + (2 ^ 32 - 2 ^ 18) := by
      rw [toNat_sshiftRight (k := 14) hneg rfl]
      omega
    have h21 : (v.toInt32 >>> 21).toUInt32.toNat = v.toNat / 2 ^ 21 + (2 ^ 32 - 2 ^ 11) := by
      rw [toNat_sshiftRight (k := 21) hneg rfl]
      omega
    have h28 : (v.toInt32 >>> 28).toUInt32.toNat = v.toNat / 2 ^ 28 + (2 ^ 32 - 2 ^ 4) := by
      rw [toNat_sshiftRight (k := 28) hneg rfl]
      omega
    have htop : (v.toNat + (2 ^ 64 - 2 ^ 32)) / 128 / 128 / 128 / 128 / 128 = 2 ^ 29 - 1 := by
      omega
    rw [if_pos hneg, if_neg hge]
    refine Base128.cons_eq_encode (by omega) ?_ (Base128.cons_eq_encode (by omega) ?_
      (Base128.cons_eq_encode (by omega) ?_ (Base128.cons_eq_encode (by omega) ?_
      (Base128.cons_eq_encode (by omega) ?_ ?_))))
    · rw [toNat_high]
      omega
    · rw [toNat_high, h7]
      omega
    · rw [toNat_high, h14]
      omega
    · rw [toNat_high, h21]
      omega
    · rw [toNat_high, h28]
      omega
    · rw [htop]
      exact Base128.cons_eq_encode (by decide) rfl (Base128.cons_eq_encode (by decide) rfl
        (Base128.cons_eq_encode (by decide) rfl (Base128.cons_eq_encode (by decide) rfl
        (Base128.singleton_eq_encode (by decide) rfl))))
  · rw [if_neg hneg, if_pos (not_not.mp (mt (toInt32_neg_iff v).mpr hneg)), uint32Pack_eq]

/-- Four bits above four others. -/
theorem toNat_shiftLeft_or {hi lo : UInt32} (hhi : hi.toNat < 8) (hlo : lo.toNat < 16) :
    ((hi <<< 4) ||| lo).toNat = 16 * hi.toNat + lo.toNat := by
  have hshift : (hi <<< 4).toNat = (hi.toNat <<< 4) % 2 ^ 32 := UInt32.toNat_shiftLeft hi 4
  have hor := Nat.two_pow_add_eq_or_of_lt (show lo.toNat < 2 ^ 4 from hlo) hi.toNat
  rw [UInt32.toNat_or, hshift, Nat.shiftLeft_eq, Nat.mod_eq_of_lt (by omega), Nat.mul_comm, ← hor]

theorem uint64Pack_eq (v : UInt64) : uint64Pack v = Base128.encode v.toNat := by
  have hv := v.toNat_lt
  have hshift : (v >>> 32).toNat = v.toNat >>> 32 := UInt64.toNat_shiftRight v 32
  have hhi : (v >>> 32).toUInt32.toNat = v.toNat / 2 ^ 32 := by
    rw [UInt64.toNat_toUInt32, hshift, Nat.shiftRight_eq_div_pow]
    omega
  have hlo : v.toUInt32.toNat = v.toNat % 2 ^ 32 := UInt64.toNat_toUInt32 v
  rw [uint64Pack]
  generalize (v >>> 32).toUInt32 = hi at hhi ⊢
  generalize v.toUInt32 = lo at hlo ⊢
  have h7 : (lo >>> 7).toNat = lo.toNat >>> 7 := UInt32.toNat_shiftRight lo 7
  have h14 : (lo >>> 14).toNat = lo.toNat >>> 14 := UInt32.toNat_shiftRight lo 14
  have h21 : (lo >>> 21).toNat = lo.toNat >>> 21 := UInt32.toNat_shiftRight lo 21
  have h28 : (lo >>> 28).toNat = lo.toNat >>> 28 := UInt32.toNat_shiftRight lo 28
  have hmask : (hi &&& 7).toNat = hi.toNat % 2 ^ 3 := by
    rw [UInt32.toNat_and]
    exact Nat.and_two_pow_sub_one_eq_mod hi.toNat 3
  have hrest : (hi >>> 3).toNat = hi.toNat >>> 3 := UInt32.toNat_shiftRight hi 3
  simp only [Nat.shiftRight_eq_div_pow] at h7 h14 h21 h28 hrest
  by_cases hzero : hi = 0
  · obtain rfl := hzero
    rw [if_pos rfl, uint32Pack_eq]
    congr 1
    rw [UInt32.toNat_zero] at hhi
    omega
  · have hpos : hi.toNat ≠ 0 := fun h => hzero (UInt32.toNat_inj.mp h)
    rw [if_neg hzero, List.cons_append, List.cons_append, List.cons_append, List.cons_append,
      List.nil_append]
    refine Base128.cons_eq_encode (by omega) ?_ (Base128.cons_eq_encode (by omega) ?_
      (Base128.cons_eq_encode (by omega) ?_ (Base128.cons_eq_encode (by omega) ?_ ?_)))
    · rw [toNat_high]
      omega
    · rw [toNat_high]
      omega
    · rw [toNat_high]
      omega
    · rw [toNat_high]
      omega
    · by_cases hsmall : hi < 8
      · have hlt : hi.toNat < 8 := hsmall
        rw [if_pos hsmall]
        refine Base128.singleton_eq_encode (by omega) ?_
        rw [UInt32.toNat_toUInt8, toNat_shiftLeft_or hlt (by omega)]
        omega
      · have hge : ¬hi.toNat < 8 := hsmall
        rw [if_neg hsmall]
        refine Base128.cons_eq_encode (by omega) ?_ ?_
        · rw [toNat_high, toNat_shiftLeft_or (by omega) (by omega)]
          omega
        · rw [packBytes_eq (by omega)]
          congr 1
          omega

theorem tagPack_eq (id : UInt32) : tagPack id = Base128.encode (8 * id.toNat) := by
  have hlt := id.toNat_lt
  rw [tagPack]
  split_ifs with hsmall
  · have hshift : (id <<< 3).toNat = (id.toNat <<< 3) % 2 ^ 32 := UInt32.toNat_shiftLeft id 3
    rw [uint32Pack_eq, hshift, Nat.shiftLeft_eq]
    congr 1
    omega
  · have hshift : (id.toUInt64 <<< 3).toNat = (id.toUInt64.toNat <<< 3) % 2 ^ 64 :=
      UInt64.toNat_shiftLeft id.toUInt64 3
    rw [uint64Pack_eq, hshift, Nat.shiftLeft_eq, UInt32.toNat_toUInt64]
    congr 1
    omega

/-- The key of a field: its number and a wire type. -/
theorem setWireType_encode {w : UInt8} {n : ℕ} (hw : w.toNat < 8) :
    setWireType w (Base128.encode (8 * n)) = Base128.encode (8 * n + w.toNat) := by
  have hor (m : ℕ) : 8 * m ||| w.toNat = 8 * m + w.toNat :=
    (Nat.two_pow_add_eq_or_of_lt (i := 3) hw m).symm
  by_cases hlt : 8 * n < 128
  · rw [Base128.encode_of_lt hlt, setWireType]
    refine Base128.singleton_eq_encode (by omega) ?_
    rw [UInt8.toNat_or, Base128.toNat_low hlt, hor]
  · rw [Base128.encode_of_le (by omega), setWireType]
    refine Base128.cons_eq_encode (by omega) ?_ ?_
    · have hbyte : 8 * n % 128 + 128 = 8 * (n % 16 + 16) := by omega
      rw [UInt8.toNat_or, Base128.toNat_high, hbyte, hor]
      omega
    · congr 1
      omega

/-! ## How many bytes -/

theorem getTagSize_eq (id : UInt32) :
    getTagSize id = (Base128.encode (8 * id.toNat)).length := by
  have hlt := id.toNat_lt
  rw [getTagSize]
  split_ifs with h1 h2 h3 h4
  · rw [Base128.encode_of_lt (by omega)]
    rfl
  · exact (Base128.length_encode_eq (k := 0) (by omega) (by omega)).symm
  · exact (Base128.length_encode_eq (k := 1) (by omega) (by omega)).symm
  · exact (Base128.length_encode_eq (k := 2) (by omega) (by omega)).symm
  · exact (Base128.length_encode_eq (k := 3) (by omega) (by omega)).symm

theorem uint32Size_eq (v : UInt32) : uint32Size v = (Base128.encode v.toNat).length := by
  have hlt := v.toNat_lt
  rw [uint32Size]
  split_ifs with h1 h2 h3 h4
  · rw [Base128.encode_of_lt (by omega)]
    rfl
  · exact (Base128.length_encode_eq (k := 0) (by omega) (by omega)).symm
  · exact (Base128.length_encode_eq (k := 1) (by omega) (by omega)).symm
  · exact (Base128.length_encode_eq (k := 2) (by omega) (by omega)).symm
  · exact (Base128.length_encode_eq (k := 3) (by omega) (by omega)).symm

theorem int32Size_eq (v : UInt32) : int32Size v = (Base128.encode (signExtend v)).length := by
  have hlt := v.toNat_lt
  rw [int32Size, signExtend]
  by_cases hneg : v.toInt32 < 0
  · have hge := (toInt32_neg_iff v).mp hneg
    rw [if_pos hneg, if_neg hge]
    exact (Base128.length_encode_eq (k := 8) (by omega) (by omega)).symm
  · rw [if_neg hneg, if_pos (not_not.mp (mt (toInt32_neg_iff v).mpr hneg)), ← uint32Size_eq]
    rfl

theorem uint64Size_eq (v : UInt64) : uint64Size v = (Base128.encode v.toNat).length := by
  have hv := v.toNat_lt
  have hshift : (v >>> 32).toNat = v.toNat >>> 32 := UInt64.toNat_shiftRight v 32
  have hhi : (v >>> 32).toUInt32.toNat = v.toNat / 2 ^ 32 := by
    rw [UInt64.toNat_toUInt32, hshift, Nat.shiftRight_eq_div_pow]
    omega
  have hlo : v.toUInt32.toNat = v.toNat % 2 ^ 32 := UInt64.toNat_toUInt32 v
  rw [uint64Size]
  generalize (v >>> 32).toUInt32 = hi at hhi ⊢
  by_cases hzero : hi = 0
  · obtain rfl := hzero
    rw [UInt32.toNat_zero] at hhi
    rw [if_pos rfl, uint32Size_eq]
    congr 2
    omega
  · have hpos : hi.toNat ≠ 0 := fun h => hzero (UInt32.toNat_inj.mp h)
    rw [if_neg hzero]
    split_ifs with h3 h10 h17 h24 h31
    · exact (Base128.length_encode_eq (k := 3) (by omega) (by omega)).symm
    · exact (Base128.length_encode_eq (k := 4) (by omega) (by omega)).symm
    · exact (Base128.length_encode_eq (k := 5) (by omega) (by omega)).symm
    · exact (Base128.length_encode_eq (k := 6) (by omega) (by omega)).symm
    · exact (Base128.length_encode_eq (k := 7) (by omega) (by omega)).symm
    · exact (Base128.length_encode_eq (k := 8) (by omega) (by omega)).symm

/-! ## Reading numbers -/

/-- The lower seven bits of a byte below the rest, in a word of `w` bits. -/
theorem or_mod (w s b n : ℕ) :
    ((b % 128) <<< s % 2 ^ w ||| 2 ^ (s + 7) * n % 2 ^ w) =
      2 ^ s * (b % 128 + 128 * n) % 2 ^ w := by
  have hlt : (b % 128) <<< s < 2 ^ (s + 7) := by
    rw [Nat.shiftLeft_eq, Nat.pow_add, Nat.mul_comm]
    exact Nat.mul_lt_mul_of_pos_left (Nat.mod_lt b (by decide)) (Nat.two_pow_pos s)
  rw [← Nat.or_mod_two_pow, Nat.or_comm, ← Nat.two_pow_add_eq_or_of_lt hlt, Nat.shiftLeft_eq,
    Nat.pow_add]
  congr 1
  have h128 : 2 ^ 7 = 128 := rfl
  rw [h128, Nat.mul_add, Nat.mul_assoc, Nat.add_comm, Nat.mul_comm (b % 128)]

theorem toNat_and_mask (b : UInt8) : (b &&& 0x7f).toNat = b.toNat % 128 := by
  rw [UInt8.toNat_and]
  exact Nat.and_two_pow_sub_one_eq_mod b.toNat 7

theorem toNat_orBytes32 {s : UInt32} (h : s.toNat + 7 * bs.length < 39) :
    (orBytes32 s bs).toNat = 2 ^ s.toNat * Base128.value bs % 2 ^ 32 := by
  induction bs generalizing s with
  | nil => rfl
  | cons b bs ih =>
    have hadd : (s + 7).toNat = (s.toNat + 7) % 2 ^ 32 := UInt32.toNat_add s 7
    rw [List.length_cons] at h
    rw [orBytes32, UInt32.toNat_or, ih (by omega), UInt32.toNat_shiftLeft, UInt8.toNat_toUInt32,
      toNat_and_mask, Base128.value_cons, hadd, Nat.mod_eq_of_lt (show s.toNat < 32 by omega),
      Nat.mod_eq_of_lt (show s.toNat + 7 < 2 ^ 32 by omega), or_mod]

theorem toNat_orBytes64 {s : UInt64} (h : s.toNat + 7 * bs.length < 71) :
    (orBytes64 s bs).toNat = 2 ^ s.toNat * Base128.value bs % 2 ^ 64 := by
  induction bs generalizing s with
  | nil => rfl
  | cons b bs ih =>
    have hadd : (s + 7).toNat = (s.toNat + 7) % 2 ^ 64 := UInt64.toNat_add s 7
    rw [List.length_cons] at h
    rw [orBytes64, UInt64.toNat_or, ih (by omega), UInt64.toNat_shiftLeft, UInt8.toNat_toUInt64,
      toNat_and_mask, Base128.value_cons, hadd, Nat.mod_eq_of_lt (show s.toNat < 64 by omega),
      Nat.mod_eq_of_lt (show s.toNat + 7 < 2 ^ 64 by omega), or_mod]

theorem toNat_parseUint32 (bs : List UInt8) :
    (parseUint32 bs).toNat = Base128.value bs % 2 ^ 32 := by
  have htake : (bs.take 4).length ≤ 4 := List.length_take_le 4 bs
  have hzero : (0 : UInt32).toNat = 0 := rfl
  have hlow : (orBytes32 0 (bs.take 4)).toNat = Base128.value (bs.take 4) := by
    have hlt := Nat.lt_of_lt_of_le (Base128.value_lt (bs.take 4))
      (Nat.pow_le_pow_right (by decide) htake)
    rw [toNat_orBytes32 (by omega), hzero, Nat.pow_zero, Nat.one_mul, Nat.mod_eq_of_lt (by omega)]
  have hvalue := Base128.value_take 4 bs
  rw [parseUint32, UInt32.toNat_or, hlow]
  cases hfifth : bs[4]? with
  | none =>
    rw [List.take_of_length_le (List.getElem?_eq_none_iff.mp hfifth)] at hvalue ⊢
    rw [hzero, Nat.or_zero]
    omega
  | some b =>
    obtain ⟨hlt, rfl⟩ := List.getElem?_eq_some_iff.mp hfifth
    have hsplit : bs = bs.take 4 ++ bs[4] :: bs.drop 5 := by
      rw [← List.drop_eq_getElem_cons hlt, List.take_append_drop]
    have hfour : (bs.take 4).length = 4 := List.length_take_of_le (by omega)
    have hshift : (bs[4].toUInt32 <<< 28).toNat = (bs[4].toUInt32.toNat <<< 28) % 2 ^ 32 :=
      UInt32.toNat_shiftLeft bs[4].toUInt32 28
    have hbound := Base128.value_lt (bs.take 4)
    rw [hfour] at hbound
    have hor := Nat.two_pow_add_eq_or_of_lt (i := 28) hbound (bs[4].toNat % 16)
    have hbyte : bs[4].toNat <<< 28 % 2 ^ 32 = 2 ^ 28 * (bs[4].toNat % 16) := by
      rw [Nat.shiftLeft_eq]
      omega
    rw [hshift, UInt8.toNat_toUInt32, hbyte, Nat.or_comm, ← hor]
    conv_rhs => rw [hsplit, Base128.value_append, hfour, Base128.value_cons]
    omega

theorem toNat_parseUint64 (h : bs.length ≤ 10) :
    (parseUint64 bs).toNat = Base128.value bs % 2 ^ 64 := by
  rw [parseUint64]
  split_ifs with hshort
  · have hlt := Nat.lt_of_lt_of_le (Base128.value_lt bs)
      (Nat.pow_le_pow_right (by decide) (Nat.le_of_lt_succ hshort))
    rw [UInt32.toNat_toUInt64, toNat_parseUint32]
    omega
  · have hzero : (0 : UInt64).toNat = 0 := rfl
    rw [toNat_orBytes64 (by omega), hzero, Nat.pow_zero, Nat.one_mul]

/-! ## There and back -/

theorem parseUint32_encode (v : UInt32) : parseUint32 (Base128.encode v.toNat) = v := by
  apply UInt32.toNat_inj.mp
  rw [toNat_parseUint32, Base128.value_encode, Nat.mod_eq_of_lt v.toNat_lt]

/-- Of a sign-extended number the lower half is read. -/
theorem parseUint32_signExtend (v : UInt32) :
    parseUint32 (Base128.encode (signExtend v)) = v := by
  have hlt := v.toNat_lt
  apply UInt32.toNat_inj.mp
  rw [toNat_parseUint32, Base128.value_encode, signExtend]
  split_ifs with hsmall
  · omega
  · omega

theorem length_encode_uint64 (v : UInt64) : (Base128.encode v.toNat).length ≤ 10 := by
  have hlt := v.toNat_lt
  exact Base128.length_encode_le_iff.mpr (by omega)

theorem parseUint64_encode (v : UInt64) : parseUint64 (Base128.encode v.toNat) = v := by
  apply UInt64.toNat_inj.mp
  rw [toNat_parseUint64 (length_encode_uint64 v), Base128.value_encode,
    Nat.mod_eq_of_lt v.toNat_lt]

theorem unzigzag32_zigzag32 (v : UInt32) : unzigzag32 (zigzag32 v) = v :=
  UInt32.toBitVec_inj.mp (ZigZag.decode_encode v.toBitVec)

theorem unzigzag64_zigzag64 (v : UInt64) : unzigzag64 (zigzag64 v) = v :=
  UInt64.toBitVec_inj.mp (ZigZag.decode_encode v.toBitVec)

theorem parseFixedUint32_fixed32Pack (v : UInt32) : parseFixedUint32 (fixed32Pack v) = v := by
  have hlen : (fixed32Pack v).length = 4 := LittleEndian.length_toBytes 4 v.toNat
  rw [parseFixedUint32, List.take_of_length_le (Nat.le_of_eq hlen), fixed32Pack,
    LittleEndian.ofBytes_toBytes, show 256 ^ 4 = 2 ^ 32 from rfl, Nat.mod_eq_of_lt v.toNat_lt,
    UInt32.ofNat_toNat]

theorem parseFixedUint64_fixed64Pack (v : UInt64) : parseFixedUint64 (fixed64Pack v) = v := by
  have hlen : (fixed64Pack v).length = 8 := LittleEndian.length_toBytes 8 v.toNat
  rw [parseFixedUint64, List.take_of_length_le (Nat.le_of_eq hlen), fixed64Pack,
    LittleEndian.ofBytes_toBytes, show 256 ^ 8 = 2 ^ 64 from rfl, Nat.mod_eq_of_lt v.toNat_lt,
    UInt64.ofNat_toNat]

theorem parseBoolean_booleanPack (v : Bool) : parseBoolean (booleanPack v) = v := by
  cases v with
  | false => rfl
  | true => rfl

end Cebus.ProtobufC
