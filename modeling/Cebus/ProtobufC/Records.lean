import Cebus.Lib.Framing
import Cebus.ProtobufC.Encoding
import Cebus.ProtobufC.Unpack

/-!
# Reading records

What the first loop of `protobuf_c_message_unpack` reads at a place is a record, or nothing,
so the bytes of a message are a row of records.

* `parseTagAndWiretype_eq`: how a tag is read.
* `scanRecord_bytes`: a record that is written is read again, whatever follows it.
-/

namespace Cebus.ProtobufC

variable {data rest : List UInt8} {b : UInt8} {i n len : ℕ}

/-! ## The end of a number -/

theorem and_high_iff (b : UInt8) : b &&& 0x80 = 0 ↔ Base128.Low b := by
  have hbits (n : Fin 256) : n.val &&& 128 = 0 ↔ n.val < 128 := by
    revert n
    decide +kernel
  rw [← UInt8.toNat_inj, UInt8.toNat_and]
  exact hbits ⟨b.toNat, b.toNat_lt⟩

theorem and_tag_iff (b : UInt8) : b &&& 0xf8 = 0 ↔ b.toNat < 8 := by
  have hbits (n : Fin 256) : n.val &&& 248 = 0 ↔ n.val < 8 := by
    revert n
    decide +kernel
  rw [← UInt8.toNat_inj, UInt8.toNat_and]
  exact hbits ⟨b.toNat, b.toNat_lt⟩

theorem terminator_eq (n : ℕ) (data : List UInt8) :
    terminator n data = Base128.firstLow (data.take n) := by
  rw [terminator, Base128.firstLow]
  congr 1
  funext b
  exact decide_eq_decide.mpr (and_high_iff b)

theorem firstLow_take_iff :
    Base128.firstLow (data.take n) = some i ↔ Base128.firstLow data = some i ∧ i < n := by
  rw [Base128.firstLow, Base128.firstLow, List.findIdx?_eq_some_iff_getElem,
    List.findIdx?_eq_some_iff_getElem]
  simp only [List.length_take, List.getElem_take]
  constructor
  · rintro ⟨hi, hlow, hhigh⟩
    exact ⟨⟨by omega, hlow, hhigh⟩, by omega⟩
  · rintro ⟨⟨hi, hlow, hhigh⟩, hn⟩
    exact ⟨by omega, hlow, hhigh⟩

theorem terminator_eq_some_iff :
    terminator n data = some i ↔ Base128.firstLow data = some i ∧ i < n := by
  rw [terminator_eq, firstLow_take_iff]

theorem firstLow_lt (h : Base128.firstLow data = some i) : i < data.length :=
  (List.findIdx?_eq_some_iff_getElem.mp h).1

theorem terminator_append {word : List UInt8} (h : Base128.CodeWord word) (hlen : word.length ≤ n)
    (rest : List UInt8) : terminator n (word ++ rest) = some (word.length - 1) := by
  have hpos : 0 < word.length := by
    obtain ⟨front, last, rfl, -, -⟩ := h
    simp
  rw [terminator_eq_some_iff]
  exact ⟨Base128.firstLow_append h, by omega⟩

/-! ## Tags -/

theorem firstLow_cons_low (h : Base128.Low b) : Base128.firstLow (b :: rest) = some 0 := by
  rw [Base128.firstLow, List.findIdx?_cons, if_pos (decide_eq_true h)]

theorem firstLow_cons_high (h : ¬Base128.Low b) :
    Base128.firstLow (b :: rest) = (Base128.firstLow rest).map (· + 1) := by
  rw [Base128.firstLow, List.findIdx?_cons, if_neg (by simpa using h)]
  rfl

theorem and_mask_of_low (h : Base128.Low b) : b &&& 0x7f = b := by
  rw [← UInt8.toNat_inj, toNat_and_mask, Nat.mod_eq_of_lt h]

/-- The bytes that `tagLoop` takes are those up to the first low one. -/
theorem tagLoop_eq (w : UInt8) (tag shift : UInt32) (rv : ℕ) (bs : List UInt8) :
    tagLoop w tag shift rv bs = (Base128.firstLow bs).map fun i =>
      (tag ||| orBytes32 shift (bs.take (i + 1)), w, rv + i + 1) := by
  induction bs generalizing tag shift rv with
  | nil => rfl
  | cons b bs ih =>
    rw [tagLoop]
    by_cases hlow : Base128.Low b
    · rw [if_neg (not_not.mpr ((and_high_iff b).mpr hlow)), firstLow_cons_low hlow, Option.map_some,
        List.take_succ_cons, List.take_zero, orBytes32, orBytes32, and_mask_of_low hlow,
        UInt32.or_zero]
    · rw [if_pos (mt (and_high_iff b).mp hlow), ih, firstLow_cons_high hlow, Option.map_map]
      congr 1
      funext i
      simp only [Function.comp_apply, List.take_succ_cons, orBytes32, UInt32.or_assoc]
      congr 2
      omega

/-- The four bits of a tag in its first byte. -/
theorem toNat_firstBits (b : UInt8) : ((b &&& 0x7f).toUInt32 >>> 3).toNat = b.toNat % 128 / 8 := by
  have hshift : ((b &&& 0x7f).toUInt32 >>> 3).toNat = (b &&& 0x7f).toUInt32.toNat >>> 3 :=
    UInt32.toNat_shiftRight _ 3
  rw [hshift, UInt8.toNat_toUInt32, toNat_and_mask, Nat.shiftRight_eq_div_pow]

theorem tag_or_bytes (b : UInt8) {bs : List UInt8} (hlen : bs.length ≤ 4) :
    ((b &&& 0x7f).toUInt32 >>> 3) ||| orBytes32 4 bs =
      UInt32.ofNat (Base128.value (b :: bs) / 8) := by
  have hlt := Nat.lt_of_lt_of_le (Base128.value_lt bs) (Nat.pow_le_pow_right (by decide) hlen)
  have hfour : (4 : UInt32).toNat = 4 := rfl
  have hor := Nat.two_pow_add_eq_or_of_lt (show b.toNat % 128 / 8 < 2 ^ 4 by omega)
    (Base128.value bs)
  apply UInt32.toNat_inj.mp
  rw [UInt32.toNat_or, toNat_firstBits, toNat_orBytes32 (by omega), hfour,
    Nat.mod_eq_of_lt (show 2 ^ 4 * Base128.value bs < 2 ^ 32 by omega), Nat.or_comm, ← hor,
    UInt32.toNat_ofNat_of_lt', Base128.value_cons]
  · omega
  · rw [Base128.value_cons, UInt32.size]
    omega

/-- **How a tag is read**: what stands up to the first low byte, if it is among the first
    five, is the number of the field and three bits for the wire type. -/
theorem parseTagAndWiretype_eq (b : UInt8) (bs : List UInt8) :
    parseTagAndWiretype (b :: bs) =
      if b.toNat < 8 then none
      else (Base128.firstLow ((b :: bs).take 5)).map fun i =>
        (UInt32.ofNat (Base128.value ((b :: bs).take (i + 1)) / 8), b &&& 7, i + 1) := by
  rw [parseTagAndWiretype, List.take_succ_cons]
  simp only [and_tag_iff]
  split_ifs with hsmall hlow
  · rfl
  · rw [firstLow_cons_low ((and_high_iff b).mp hlow), Option.map_some, List.take_succ_cons,
      List.take_zero, ← tag_or_bytes b (show [].length ≤ 4 by decide), orBytes32, UInt32.or_zero]
  · rw [tagLoop_eq, firstLow_cons_high (mt (and_high_iff b).mpr hlow), Option.map_map]
    cases hend : Base128.firstLow (bs.take 4) with
    | none => rfl
    | some i =>
      have hi := (firstLow_take_iff.mp hend).2
      rw [Option.map_some, Option.map_some, Function.comp_apply, List.take_succ_cons,
        ← tag_or_bytes b (by rw [List.length_take]; omega), List.take_take,
        Nat.min_eq_left (by omega), Nat.add_comm 1 i]

/-- A tag takes at least one byte and none that is not there. -/
theorem parseTagAndWiretype_used {tag : UInt32} {w : UInt8} {used : ℕ}
    (h : parseTagAndWiretype data = some (tag, w, used)) :
    0 < used ∧ used ≤ data.length ∧ w.toNat < 8 := by
  cases data with
  | nil => cases h
  | cons b bs =>
    rw [parseTagAndWiretype_eq] at h
    split_ifs at h with hsmall
    obtain ⟨i, hend, heq⟩ := Option.map_eq_some_iff.mp h
    obtain ⟨hend', -⟩ := firstLow_take_iff.mp hend
    have hlt := firstLow_lt hend'
    have hmask : (b &&& 7).toNat = b.toNat % 8 := by
      rw [UInt8.toNat_and]
      exact Nat.and_two_pow_sub_one_eq_mod b.toNat 3
    simp only [Prod.mk.injEq] at heq
    obtain ⟨-, rfl, rfl⟩ := heq
    exact ⟨Nat.succ_pos i, hlt, by omega⟩

/-- **A tag that is written is read again.** -/
theorem parseTagAndWiretype_encode {tag : UInt32} {w : UInt8} (htag : tag ≠ 0)
    (hw : w.toNat < 8) (rest : List UInt8) :
    parseTagAndWiretype (Base128.encode (8 * tag.toNat + w.toNat) ++ rest) =
      some (tag, w, (Base128.encode (8 * tag.toNat + w.toNat)).length) := by
  have hlt := tag.toNat_lt
  have hpos : tag.toNat ≠ 0 := fun h => htag (UInt32.toNat_inj.mp h)
  have hlen : (Base128.encode (8 * tag.toNat + w.toNat)).length ≤ 5 :=
    Base128.length_encode_le_iff.mpr (by omega)
  have hvalue := Base128.value_encode (8 * tag.toNat + w.toNat)
  have hend : Base128.firstLow (Base128.encode (8 * tag.toNat + w.toNat) ++ rest) =
      some ((Base128.encode (8 * tag.toNat + w.toNat)).length - 1) :=
    Base128.firstLow_append (Base128.codeWord_encode _)
  have hlength := Base128.length_encode_pos (8 * tag.toNat + w.toNat)
  have hfirst : ∃ b bs, Base128.encode (8 * tag.toNat + w.toNat) = b :: bs ∧ ¬b.toNat < 8 ∧
      b.toNat % 8 = w.toNat := by
    by_cases hone : 8 * tag.toNat + w.toNat < 128
    · refine ⟨_, _, Base128.encode_of_lt hone, ?_⟩
      rw [Base128.toNat_low hone]
      omega
    · refine ⟨_, _, Base128.encode_of_le (Nat.not_lt.mp hone), ?_⟩
      rw [Base128.toNat_high]
      omega
  obtain ⟨b, bs, hcons, hb, hmod⟩ := hfirst
  generalize Base128.encode (8 * tag.toNat + w.toNat) = word at *
  subst hcons
  rw [List.cons_append, parseTagAndWiretype_eq, if_neg hb, ← List.cons_append,
    firstLow_take_iff.mpr ⟨hend, by omega⟩, Option.map_some,
    Nat.sub_add_cancel hlength, List.take_left, hvalue]
  have hnumber : (8 * tag.toNat + w.toNat) / 8 = tag.toNat := by omega
  have hmask : b &&& 7 = w := by
    rw [← UInt8.toNat_inj, UInt8.toNat_and, ← hmod]
    exact Nat.and_two_pow_sub_one_eq_mod b.toNat 3
  rw [hnumber, hmask, UInt32.ofNat_toNat]

/-! ## Data -/

theorem scanLengthPrefixedData_le {p : ℕ} (h : scanLengthPrefixedData data = some (len, p)) :
    p ≤ len ∧ len ≤ data.length ∧ ∃ i, terminator 5 data = some i ∧ p = i + 1 := by
  rw [scanLengthPrefixedData] at h
  cases hend : terminator 5 data with
  | none => rw [hend] at h; cases h
  | some i =>
    rw [hend] at h
    dsimp only at h
    split_ifs at h with hlarge hshort
    simp only [Option.some.injEq, Prod.mk.injEq] at h
    exact ⟨by omega, by omega, i, rfl, h.2.symm⟩

/-- A length and so many bytes are read again. -/
theorem scanLengthPrefixedData_delimited {payload : List UInt8} (h : payload.length < 2 ^ 31)
    (rest : List UInt8) :
    scanLengthPrefixedData (delimited payload ++ rest) =
      some ((delimited payload).length, (Base128.encode payload.length).length) := by
  have hlen : (Base128.encode payload.length).length ≤ 5 :=
    Base128.length_encode_le_iff.mpr (by omega)
  have hpos := Base128.length_encode_pos payload.length
  have hvalue := Base128.value_encode payload.length
  rw [scanLengthPrefixedData, delimited, List.append_assoc,
    terminator_append (Base128.codeWord_encode payload.length) hlen]
  have hzero : (0 : UInt64).toNat = 0 := rfl
  have hnumber : (orBytes64 0 (Base128.encode payload.length)).toNat = payload.length := by
    rw [toNat_orBytes64 (by omega), hvalue, hzero, Nat.pow_zero, Nat.one_mul,
      Nat.mod_eq_of_lt (by omega)]
  simp only [Nat.sub_add_cancel hpos, List.take_left, hnumber, List.length_append]
  rw [if_neg (by omega), if_neg (by omega)]

/-- What follows a tag, and how many bytes hold its length. -/
theorem scanData_le {w : UInt8} {p : ℕ} (h : scanData w data = some (len, p)) :
    p ≤ len ∧ len ≤ data.length := by
  rw [scanData] at h
  split_ifs at h with h0 h1 h8 h2 h5 h4
  · obtain ⟨i, hend, heq⟩ := Option.map_eq_some_iff.mp h
    have hlt := firstLow_lt (terminator_eq_some_iff.mp hend).1
    simp only [Prod.mk.injEq] at heq
    omega
  · simp only [Option.some.injEq, Prod.mk.injEq] at h
    omega
  · obtain ⟨hle, hlen, -⟩ := scanLengthPrefixedData_le h
    exact ⟨hle, hlen⟩
  · simp only [Option.some.injEq, Prod.mk.injEq] at h
    omega

/-- Of the data of a wire type only the bytes matter that belong to it. -/
theorem scanData_congr {w : UInt8} {p : ℕ} {data' : List UInt8}
    (h : scanData w data = some (len, p)) (htake : data.take len = data'.take len)
    (hlen : len ≤ data'.length) : scanData w data' = some (len, p) := by
  have hend {n i : ℕ} (hi : terminator n data = some i) (hlt : i < len) :
      terminator n data' = some i := by
    rw [terminator_eq_some_iff] at hi ⊢
    have hcut := firstLow_take_iff.mpr ⟨hi.1, hlt⟩
    rw [htake] at hcut
    exact ⟨(firstLow_take_iff.mp hcut).1, hi.2⟩
  rw [scanData] at h ⊢
  split_ifs at h ⊢ with h0 h1 h8 h8' h2 h5 h4 h4'
  · obtain ⟨i, hi, heq⟩ := Option.map_eq_some_iff.mp h
    have hlt : i < len := by
      simp only [Prod.mk.injEq] at heq
      omega
    rw [hend hi hlt, Option.map_some, heq]
  · simp only [Option.some.injEq, Prod.mk.injEq] at h
    omega
  · exact h
  · obtain ⟨hle, -, i, hi, rfl⟩ := scanLengthPrefixedData_le h
    have hnumber : data'.take (i + 1) = data.take (i + 1) := by
      rw [← Nat.min_eq_left hle, ← List.take_take, ← htake, List.take_take]
    rw [scanLengthPrefixedData, hi] at h
    rw [scanLengthPrefixedData, hend hi hle]
    dsimp only at h ⊢
    rw [hnumber]
    split_ifs at h with hlarge hshort
    simp only [Option.some.injEq, Prod.mk.injEq] at h
    rw [if_neg hlarge, if_neg (by omega), h.1]
  · simp only [Option.some.injEq, Prod.mk.injEq] at h
    omega
  · exact h

theorem scanData_take {w : UInt8} {p : ℕ} (h : scanData w data = some (len, p)) :
    scanData w (data.take len) = some (len, p) := by
  have hlen := (scanData_le h).2
  exact scanData_congr h (by rw [List.take_take, Nat.min_self]) (by rw [List.length_take]; omega)

/-! ## Records -/

/-- A record, and what follows it. -/
def scanRecord (data : List UInt8) : Option (UnknownField × List UInt8) :=
  (parseTagAndWiretype data).bind fun (tag, wireType, used) =>
    (scanData wireType (data.drop used)).map fun (len, _) =>
      (⟨tag, wireType, (data.drop used).take len⟩, (data.drop used).drop len)

/-- How many bytes of a record hold the length of the others. -/
def UnknownField.prefixLen (record : UnknownField) : ℕ :=
  if record.wireType = WireType.lengthPrefixed then
    (terminator 5 record.data).elim 0 (· + 1)
  else 0

/-- What a record holds. -/
def UnknownField.payload (record : UnknownField) : List UInt8 :=
  record.data.drop record.prefixLen

theorem scanRecord_eq_some_iff {record : UnknownField} :
    scanRecord data = some (record, rest) ↔
      ∃ tag w used len p, parseTagAndWiretype data = some (tag, w, used) ∧
        scanData w (data.drop used) = some (len, p) ∧
        record = ⟨tag, w, (data.drop used).take len⟩ ∧ rest = (data.drop used).drop len := by
  rw [scanRecord, Option.bind_eq_some_iff]
  constructor
  · rintro ⟨⟨tag, w, used⟩, htag, h⟩
    obtain ⟨⟨len, p⟩, hscan, heq⟩ := Option.map_eq_some_iff.mp h
    obtain ⟨rfl, rfl⟩ := Prod.mk.inj heq
    exact ⟨tag, w, used, len, p, htag, hscan, rfl, rfl⟩
  · rintro ⟨tag, w, used, len, p, htag, hscan, rfl, rfl⟩
    refine ⟨(tag, w, used), htag, ?_⟩
    dsimp only
    rw [hscan]
    rfl

theorem prefixLen_eq {record : UnknownField} {p : ℕ}
    (h : scanData record.wireType record.data = some (len, p)) : record.prefixLen = p := by
  rw [scanData] at h
  by_cases h2 : record.wireType = WireType.lengthPrefixed
  · have h0 : record.wireType ≠ WireType.varint := by rw [h2]; decide
    have h1 : record.wireType ≠ WireType.bits64 := by rw [h2]; decide
    rw [if_neg h0, if_neg h1, if_pos h2] at h
    obtain ⟨-, -, i, hi, rfl⟩ := scanLengthPrefixedData_le h
    rw [UnknownField.prefixLen, if_pos h2, hi]
    rfl
  · rw [UnknownField.prefixLen, if_neg h2]
    split_ifs at h with h0 h1 h8 h5 h4
    · obtain ⟨i, -, heq⟩ := Option.map_eq_some_iff.mp h
      exact (Prod.mk.inj heq).2
    · exact (Prod.mk.inj (Option.some.inj h)).2
    · exact (Prod.mk.inj (Option.some.inj h)).2

/-- A record that the scan gives back is as long as its wire type says. -/
theorem scanData_of_scanRecord {record : UnknownField}
    (h : scanRecord data = some (record, rest)) :
    scanData record.wireType record.data = some (record.data.length, record.prefixLen) := by
  obtain ⟨tag, w, used, len, p, -, hscan, rfl, -⟩ := scanRecord_eq_some_iff.mp h
  have hlen := (scanData_le hscan).2
  rw [prefixLen_eq (scanData_take hscan)]
  simp only [List.length_take, Nat.min_eq_left hlen]
  exact scanData_take hscan

/-- A record leaves less than there was. -/
theorem scanRecord_length {record : UnknownField} (h : scanRecord data = some (record, rest)) :
    record.data.length + 1 + rest.length ≤ data.length := by
  obtain ⟨tag, w, used, len, p, htag, hscan, rfl, rfl⟩ := scanRecord_eq_some_iff.mp h
  have hused := parseTagAndWiretype_used htag
  have hlen := (scanData_le hscan).2
  rw [List.length_drop] at hlen
  simp only [List.length_take, List.length_drop]
  omega

/-- Bytes are scanned record by record. -/
def recordScanner : Scanner UInt8 UnknownField where
  scan := scanRecord
  shorter := fun _ _ _ h => by
    have hlength := scanRecord_length h
    omega

/-- A record that can be read again. -/
def UnknownField.framed (record : UnknownField) : Bool :=
  record.tag ≠ 0 && scanData record.wireType record.data =
    some (record.data.length, record.prefixLen)

theorem scanData_lt {w : UInt8} {p : ℕ} (h : scanData w data = some (len, p)) : w.toNat < 8 := by
  rw [scanData] at h
  split_ifs at h with h0 h1 h8 h2 h5 h4
  all_goals subst w; decide

/-- **A record that is written is read again**, whatever follows it. -/
theorem scanRecord_bytes {record : UnknownField} (h : record.framed = true) (rest : List UInt8) :
    scanRecord (record.bytes ++ rest) = some (record, rest) := by
  rw [UnknownField.framed, Bool.and_eq_true, decide_eq_true_eq, decide_eq_true_eq] at h
  obtain ⟨htag, hscan⟩ := h
  have hw := scanData_lt hscan
  rw [scanRecord_eq_some_iff, UnknownField.bytes, setWireType_encode hw, List.append_assoc]
  refine ⟨_, _, _, record.data.length, record.prefixLen, parseTagAndWiretype_encode htag hw _,
    ?_, ?_, ?_⟩
  · rw [List.drop_left]
    exact scanData_congr hscan (by rw [List.take_left, List.take_length])
      (by rw [List.length_append]; omega)
  · rw [List.drop_left, List.take_left]
  · rw [List.drop_left, List.drop_left]

/-- Records that are written one behind the other are read again. -/
theorem items_bytes {records : List UnknownField}
    (h : ∀ record ∈ records, record.framed = true) :
    recordScanner.items (records.flatMap UnknownField.bytes) = some records :=
  Scanner.items_flatMap fun record hrecord rest => scanRecord_bytes (h record hrecord) rest

end Cebus.ProtobufC
