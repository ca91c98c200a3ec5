import Cebus.ProtobufC.Encoding

/-!
# Packing into a buffer

A message is written as its records, into as many bytes as its size says, and nothing
else in memory changes.

* `messagePack_writes`: what a message writes.
-/

namespace Cebus.ProtobufC

variable {δ : Type} {f g : Packer} {bytes more payload : List UInt8} {w : UInt8} {k : ℕ}

/-! ## What a function writes -/

/-- The function writes these bytes over what is at its place, if there is room. -/
def Packer.Writes (f : Packer) (bytes : List UInt8) : Prop :=
  ∀ before rest : Block UInt8, bytes.length ≤ rest.length →
    f (before ++ rest) before.length =
      .ok (before ++ (bytes.map some ++ rest.drop bytes.length), bytes.length)

/-- Cells that are written over as many others. -/
theorem write_append (before after old cells : Block UInt8) (h : old.length = cells.length) :
    (before ++ (old ++ after)).write before.length cells =
      some (before ++ (cells ++ after)) := by
  rw [Block.write_of_le (by simp only [List.length_append]; omega), List.take_left,
    ← List.append_assoc before old, List.drop_left' (by rw [List.length_append, h]),
    List.append_assoc]

namespace Packer

theorem writes_skip : Packer.skip.Writes [] := fun _ _ _ => rfl

/-- Bytes over as many cells. -/
theorem put_append (before after : Block UInt8) {old : Block UInt8}
    (h : old.length = bytes.length) :
    Packer.put bytes (before ++ (old ++ after)) before.length =
      .ok (before ++ (bytes.map some ++ after), bytes.length) := by
  have hlen : old.length = (bytes.map some).length := by rw [h, List.length_map]
  rw [put, Block.store, write_append before after old _ hlen]

theorem writes_put (bytes : List UInt8) : (Packer.put bytes).Writes bytes := by
  intro before rest hle
  rw [← put_append before (rest.drop bytes.length) (List.length_take_of_le hle),
    List.take_append_drop]

theorem Writes.seq (hf : f.Writes bytes) (hg : g.Writes more) :
    (f.seq g).Writes (bytes ++ more) := by
  intro before rest hle
  rw [List.length_append] at hle
  have hplace : before.length + bytes.length = (before ++ bytes.map some).length := by
    rw [List.length_append, List.length_map]
  rw [Packer.seq, hf before rest (by omega), Fallible.ok_bind]
  dsimp only
  rw [hplace, ← List.append_assoc, hg _ _ (by rw [List.length_drop]; omega), Fallible.ok_bind]
  simp only [List.drop_drop, List.map_append, List.append_assoc, List.length_append]

end Packer

/-! ## Tags -/

theorem orWireType_append (before after : Block UInt8) {b : UInt8} :
    orWireType w (before ++ (some b :: after)) before.length =
      .ok (before ++ (some (b ||| w) :: after)) := by
  have hload : (before ++ (some b :: after)).load before.length 1 = some [b] := by
    rw [Block.load_eq_some_iff, List.drop_left]
    exact ⟨by simp, rfl⟩
  have hstore := write_append before after [some b] [some (b ||| w)] rfl
  rw [orWireType, hload, Option.bind_some, setWireType, Block.store]
  simp only [List.map_cons, List.map_nil]
  rw [List.singleton_append, List.singleton_append] at hstore
  rw [hstore]

/-- A tag is written, and then its wire type. -/
theorem tag_written (id : UInt32) (w : UInt8) (before rest : Block UInt8)
    (hle : (setWireType w (Base128.encode (8 * id.toNat))).length ≤ rest.length) :
    ∃ out, Packer.put (tagPack id) (before ++ rest) before.length =
        .ok (out, (setWireType w (Base128.encode (8 * id.toNat))).length) ∧
      orWireType w out before.length =
        .ok (before ++ (setWireType w (Base128.encode (8 * id.toNat))).map some ++
          rest.drop (setWireType w (Base128.encode (8 * id.toNat))).length) := by
  obtain ⟨b, bs, hbs⟩ := List.exists_cons_of_ne_nil (Base128.encode_ne_nil (8 * id.toNat))
  rw [hbs] at hle ⊢
  have htag := Packer.writes_put (tagPack id) before rest
  rw [tagPack_eq, hbs] at htag
  rw [tagPack_eq, hbs]
  refine ⟨_, htag hle, ?_⟩
  rw [List.map_cons, List.cons_append, orWireType_append, setWireType, List.map_cons,
    List.append_assoc]
  rfl

theorem Packer.Writes.withTag {id : UInt32} (h : f.Writes bytes) :
    (withTag id w f).Writes (setWireType w (Base128.encode (8 * id.toNat)) ++ bytes) := by
  intro before rest hle
  rw [List.length_append] at hle
  obtain ⟨out, hput, hor⟩ := tag_written id w before rest (by omega)
  generalize setWireType w (Base128.encode (8 * id.toNat)) = tag at hput hor hle ⊢
  have hnext := h (before ++ tag.map some) (rest.drop tag.length)
    (by rw [List.length_drop]; omega)
  rw [List.length_append, List.length_map] at hnext
  rw [ProtobufC.withTag, hput, Fallible.ok_bind]
  dsimp only
  rw [hor, Fallible.ok_bind, hnext, Fallible.ok_bind]
  simp only [List.drop_drop, List.map_append, List.append_assoc, List.length_append]

/-! ## Lengths -/

theorem Packer.Writes.delimited (hlt : payload.length < 2 ^ 32) :
    ((Packer.put (lengthPack payload.length)).seq (Packer.put payload)).Writes
      (delimited payload) := by
  rw [ProtobufC.delimited, ← lengthPack_eq hlt]
  exact (Packer.writes_put _).seq (Packer.writes_put payload)

theorem delimited_nil : ProtobufC.delimited [] = [0] := by
  rw [ProtobufC.delimited, List.append_nil, List.length_nil, Base128.encode_of_lt (by decide)]
  rfl

theorem stringPack_writes (str : Option CString)
    (hlt : (str.elim [] CString.bytes).length < 2 ^ 32) :
    (stringPack str).Writes (delimited (str.elim [] CString.bytes)) := by
  cases str with
  | none =>
    rw [Option.elim_none, delimited_nil]
    exact Packer.writes_put [0]
  | some str => exact Packer.Writes.delimited hlt

/-- A payload that lies behind `old` cells, when it is moved to make room for `k` of them. -/
theorem memmove_payload (payload : List UInt8) (before after : Block UInt8) {old : Block UInt8}
    (hk : old.length ≤ k) (hle : k - old.length ≤ after.length) :
    ∃ room : Block UInt8, room.length = k ∧
      memmove (before ++ (old ++ (payload.map some ++ after))) (before.length + k)
          (before.length + old.length) payload.length =
        .ok (before ++ (room ++ (payload.map some ++ after.drop (k - old.length)))) := by
  have hread : (before ++ (old ++ (payload.map some ++ after))).read (before.length + old.length)
      payload.length = some (payload.map some) := by
    rw [Block.read, if_pos (by simp only [List.length_append, List.length_map]; omega),
      ← List.append_assoc before, List.drop_left' List.length_append,
      List.take_left' (List.length_map _)]
  have hdrop : (old ++ (payload.map some ++ after)).drop k =
      ((payload.map some ++ after).drop (k - old.length)).take payload.length ++
        after.drop (k - old.length) := by
    have htail : after.drop (k - old.length) =
        ((payload.map some ++ after).drop (k - old.length)).drop payload.length := by
      rw [List.drop_drop, Nat.add_comm, ← List.drop_drop, List.drop_left' (List.length_map _)]
    rw [htail, List.take_append_drop, List.drop_append, List.drop_of_length_le hk,
      List.nil_append]
  have hroom : ((old ++ (payload.map some ++ after)).take k).length = k := by
    rw [List.length_take_of_le]
    simp only [List.length_append, List.length_map]
    omega
  refine ⟨(old ++ (payload.map some ++ after)).take k, hroom, ?_⟩
  have hwrite := write_append (before ++ (old ++ (payload.map some ++ after)).take k)
    (after.drop (k - old.length))
    (((payload.map some ++ after).drop (k - old.length)).take payload.length)
    (payload.map some) (by
      rw [List.length_map, List.length_take, List.length_drop, List.length_append,
        List.length_map]
      omega)
  rw [← hdrop, List.append_assoc, List.take_append_drop, List.length_append, hroom,
    List.append_assoc] at hwrite
  rw [memmove, hread, Option.bind_some, hwrite]

theorem Packer.Writes.prefixed (h : f.Writes payload) (hlt : payload.length < 2 ^ 32) :
    (prefixedMessagePack f).Writes (ProtobufC.delimited payload) := by
  intro before rest hle
  have hpos := Base128.length_encode_pos payload.length
  rw [length_delimited] at hle ⊢
  obtain ⟨cell, rest, rfl⟩ := List.exists_cons_of_length_pos (show 0 < rest.length by omega)
  rw [List.length_cons] at hle
  have hplace : before.length + 1 = (before ++ [cell]).length := by
    rw [List.length_append, List.length_singleton]
  have hmessage := h (before ++ [cell]) rest (by omega)
  rw [List.append_assoc, List.append_assoc, ← hplace] at hmessage
  rw [prefixedMessagePack, ← List.singleton_append, hmessage, Fallible.ok_bind]
  dsimp only
  rw [lengthSize_eq hlt, lengthPack_eq hlt, ProtobufC.delimited]
  generalize hheader : Base128.encode payload.length = header at hle hpos ⊢
  have htail : (rest.drop payload.length).drop (header.length - 1) =
      ([cell] ++ rest).drop (header.length + payload.length) := by
    have hsum : header.length + payload.length = payload.length + (header.length - 1) + 1 := by
      omega
    rw [List.drop_drop, hsum, List.singleton_append, List.drop_succ_cons]
  rw [← htail, List.map_append, List.append_assoc]
  split_ifs with hone
  · obtain ⟨room, hlen, hmove⟩ := memmove_payload payload before (rest.drop payload.length)
      (show [cell].length ≤ header.length from hpos)
      (by rw [List.length_drop, List.length_singleton]; omega)
    rw [List.length_singleton] at hmove
    rw [hmove, Fallible.ok_bind, Packer.put_append before _ hlen, Fallible.ok_bind]
  · have hone' : [cell].length = header.length := (not_not.mp hone).symm
    rw [Fallible.ok_bind, Packer.put_append before _ hone', Fallible.ok_bind, not_not.mp hone]
    rfl

/-! ## Packed arrays -/

theorem length_encode_le_ten {n : ℕ} (h : n < 2 ^ 64) : (Base128.encode n).length ≤ 10 :=
  Base128.length_encode_le_iff.mpr (Nat.lt_trans h (by decide))

theorem signExtend_lt (v : UInt32) : signExtend v < 2 ^ 64 := by
  have hlt := v.toNat_lt
  rw [signExtend]
  split_ifs with h
  · omega
  · omega

/-- A number takes as many bytes as its type says at least, and at most ten times as many. -/
theorem ScalarType.length_pack (type : ScalarType) (value : type.Carrier) :
    (FieldType.scalar type : FieldType δ).minSize ≤ (type.pack value).length ∧
      (type.pack value).length ≤ 10 * (FieldType.scalar type : FieldType δ).minSize := by
  have h32 (v : UInt32) : 1 ≤ (uint32Pack v).length ∧ (uint32Pack v).length ≤ 10 := by
    rw [uint32Pack_eq]
    exact ⟨Base128.length_encode_pos _, length_encode_le_ten (Nat.lt_trans v.toNat_lt (by decide))⟩
  have h64 (v : UInt64) : 1 ≤ (uint64Pack v).length ∧ (uint64Pack v).length ≤ 10 := by
    rw [uint64Pack_eq]
    exact ⟨Base128.length_encode_pos _, length_encode_le_ten v.toNat_lt⟩
  have hsigned (v : UInt32) : 1 ≤ (int32Pack v).length ∧ (int32Pack v).length ≤ 10 := by
    rw [int32Pack_eq]
    exact ⟨Base128.length_encode_pos _, length_encode_le_ten (signExtend_lt v)⟩
  have hfixed32 (v : UInt32) : (fixed32Pack v).length = 4 := LittleEndian.length_toBytes 4 _
  have hfixed64 (v : UInt64) : (fixed64Pack v).length = 8 := LittleEndian.length_toBytes 8 _
  cases type with
  | uint32 => exact h32 value
  | sint32 => exact h32 (zigzag32 value)
  | enum | int32 => exact hsigned value
  | int64 | uint64 => exact h64 value
  | sint64 => exact h64 (zigzag64 value)
  | sfixed32 | fixed32 | float =>
    have hlen := hfixed32 value
    exact ⟨Nat.le_of_eq hlen.symm, Nat.le_trans (Nat.le_of_eq hlen) (show 4 ≤ 10 * 4 by decide)⟩
  | sfixed64 | fixed64 | double =>
    have hlen := hfixed64 value
    exact ⟨Nat.le_of_eq hlen.symm, Nat.le_trans (Nat.le_of_eq hlen) (show 8 ≤ 10 * 8 by decide)⟩
  | bool => exact ⟨Nat.le_refl 1, (by decide : 1 ≤ 10)⟩

section

variable [DecidableEq δ] {type : FieldType δ} {members : List (Member δ)}

theorem length_elements (hp : type.isPackable = true)
    (ht : members.all (·.hasType type) = true) :
    type.minSize * members.length ≤ (members.flatMap Member.element).length ∧
      (members.flatMap Member.element).length ≤ 10 * (type.minSize * members.length) := by
  induction members with
  | nil => exact ⟨Nat.le_refl _, Nat.le_refl _⟩
  | cons member members ih =>
    rw [List.all_cons, Bool.and_eq_true] at ht
    obtain ⟨scalar, value, rfl, rfl⟩ := Member.isScalar hp ht.1
    have hone := scalar.length_pack (δ := δ) value
    have hrest := ih ht.2
    rw [List.flatMap_cons, List.length_append, List.length_cons, Nat.mul_succ, Member.element]
    omega

theorem elementsPack_writes (hp : type.isPackable = true)
    (ht : members.all (·.hasType type) = true) :
    (elementsPack members).Writes (members.flatMap Member.element) := by
  induction members with
  | nil => exact Packer.writes_skip
  | cons member members ih =>
    rw [List.all_cons, Bool.and_eq_true] at ht
    obtain ⟨scalar, value, rfl, rfl⟩ := Member.isScalar hp ht.1
    rw [elementsPack, List.flatMap_cons]
    exact (Packer.writes_put _).seq (ih ht.2)

theorem packedFieldPack_writes {field : FieldDescriptor δ} (hp : field.type.isPackable = true)
    (ht : members.all (·.hasType field.type) = true) (hne : members.isEmpty = false)
    (hlt : (members.flatMap Member.element).length < 2 ^ 32) :
    (packedFieldPack field members).Writes
      (setWireType WireType.lengthPrefixed (Base128.encode (8 * field.id.toNat)) ++
        delimited (members.flatMap Member.element)) := by
  intro before rest hle
  obtain ⟨hmin, hmax⟩ := length_elements hp ht
  have hwrites := elementsPack_writes hp ht
  rw [List.length_append, length_delimited] at hle
  obtain ⟨out, hput, hor⟩ :=
    tag_written field.id WireType.lengthPrefixed before rest (by omega)
  rw [packedFieldPack, hne, if_neg Bool.false_ne_true, hput, Fallible.ok_bind]
  dsimp only
  rw [hor, Fallible.ok_bind, lengthSize_eq (by omega)]
  generalize setWireType WireType.lengthPrefixed (Base128.encode (8 * field.id.toNat)) = tag
    at hput hor hle ⊢
  generalize members.flatMap Member.element = payload at hle hmin hmax hwrites hlt ⊢
  -- the array is written behind a length that may be one byte too short
  have hleast := Base128.length_encode_mono hmin
  have hmost : (Base128.encode payload.length).length ≤
      (Base128.encode (field.type.minSize * members.length)).length + 1 :=
    Base128.length_encode_le_succ (by omega)
  generalize (Base128.encode (field.type.minSize * members.length)).length = lengthSizeMin
    at hleast hmost ⊢
  obtain ⟨old, after, hafter, hold⟩ : ∃ old after, rest.drop tag.length = old ++ after ∧
      old.length = lengthSizeMin :=
    ⟨_, _, (List.take_append_drop lengthSizeMin _).symm,
      List.length_take_of_le (by rw [List.length_drop]; omega)⟩
  have hroom := congrArg List.length hafter
  rw [List.length_drop, List.length_append] at hroom
  have hplace : before.length + (tag.length + lengthSizeMin) =
      (before ++ tag.map some ++ old).length := by
    rw [List.length_append, List.length_append, List.length_map, hold, Nat.add_assoc]
  have hstart : before.length + tag.length = (before ++ tag.map some).length := by
    rw [List.length_append, List.length_map]
  rw [hafter, hplace, ← List.append_assoc _ old, hwrites _ after (by omega), Fallible.ok_bind]
  dsimp only
  rw [toNat_ofNat_length hlt, ← lengthSize, ← lengthPack, lengthSize_eq hlt, lengthPack_eq hlt,
    delimited]
  generalize Base128.encode payload.length = header at hle hleast hmost ⊢
  have htail : rest.drop (tag ++ (header ++ payload)).length =
      (after.drop payload.length).drop (header.length - old.length) := by
    have hsum : header.length + payload.length =
        old.length + (payload.length + (header.length - old.length)) := by omega
    rw [List.length_append, List.length_append, ← List.drop_drop, hafter, hsum, ← List.drop_drop,
      List.drop_left, List.drop_drop]
  rw [htail, hstart]
  by_cases hsame : lengthSizeMin = header.length
  · rw [if_neg (not_not.mpr hsame), Fallible.ok_bind]
    dsimp only
    rw [List.append_assoc _ old, Packer.put_append _ _ (hold.trans hsame), Fallible.ok_bind,
      hold.trans hsame, Nat.sub_self, List.drop_zero, hsame]
    simp only [List.map_append, List.append_assoc, List.length_append, Nat.add_assoc]
  · have hmore : header.length = lengthSizeMin + 1 := by omega
    obtain ⟨room, hlen, hmove⟩ := memmove_payload payload (before ++ tag.map some)
      (after.drop payload.length) (show old.length ≤ header.length by omega)
      (by rw [List.length_drop]; omega)
    have hsource : (before ++ tag.map some ++ old).length =
        (before ++ tag.map some).length + old.length := List.length_append
    have hdest : (before ++ tag.map some).length + old.length + 1 =
        (before ++ tag.map some).length + header.length := by
      rw [hold, hmore, Nat.add_assoc]
    rw [if_pos hsame, if_pos hmore, hsource, hdest, List.append_assoc _ old, hmove,
      Fallible.ok_bind, Fallible.ok_bind]
    dsimp only
    rw [Packer.put_append _ _ hlen, Fallible.ok_bind, Nat.add_assoc tag.length, ← hmore]
    simp only [List.map_append, List.append_assoc, List.length_append, Nat.add_assoc]

/-! ## Messages -/

theorem unknownFieldsPack_writes (fields : List UnknownField) :
    (unknownFieldsPack fields).Writes (fields.flatMap UnknownField.bytes) := by
  induction fields with
  | nil => exact Packer.writes_skip
  | cons field fields ih => exact (Packer.writes_put field.data).withTag.seq ih

variable (descriptors : δ → MessageDescriptor δ)

mutual

theorem messagePack_writes : ∀ (message : Message δ), message.valid descriptors = true →
    (message.bytes descriptors).length < 2 ^ 32 →
    (messagePack descriptors message).Writes (message.bytes descriptors)
  | .mk descriptor slots unknownFields, hv, hlt => by
    rw [Message.valid, Message.all, Bool.and_eq_true] at hv
    rw [Message.bytes, Message.records, List.flatMap_append] at hlt ⊢
    rw [List.length_append] at hlt
    exact (slotsPack_writes _ slots (descriptors descriptor).packed hv.1 hv.2 (by omega)).seq
      (unknownFieldsPack_writes unknownFields)

theorem slotsPack_writes : ∀ (fields : List (FieldDescriptor δ)) (slots : List (Slot δ)),
    (∀ field ∈ fields, field.packed = true →
      field.label = .repeated ∧ field.type.isPackable = true) →
    slotsHold Slot.valid fields slots = true →
    slotsAll (Message.slotsValid descriptors) slots = true →
    ((slotsRecords descriptors fields slots).flatMap UnknownField.bytes).length < 2 ^ 32 →
    (slotsPack descriptors fields slots).Writes
      ((slotsRecords descriptors fields slots).flatMap UnknownField.bytes)
  | [], [], _, _, _, _ => Packer.writes_skip
  | field :: fields, slot :: slots, hp, hv, ha, hlt => by
    rw [slotsHold, Bool.and_eq_true] at hv
    rw [slotsAll, Bool.and_eq_true] at ha
    rw [slotsRecords, List.flatMap_append] at hlt ⊢
    rw [List.length_append] at hlt
    exact (slotPack_writes field slot (fun h => (hp field List.mem_cons_self h).2) hv.1 ha.1
      (by omega)).seq (slotsPack_writes fields slots
        (fun f hf => hp f (List.mem_cons_of_mem field hf)) hv.2 ha.2 (by omega))

theorem slotPack_writes (field : FieldDescriptor δ) : ∀ (slot : Slot δ),
    (field.packed = true → field.type.isPackable = true) → slot.valid field = true →
    slotAll (Message.slotsValid descriptors) slot = true →
    ((slotRecords descriptors field slot).flatMap UnknownField.bytes).length < 2 ^ 32 →
    (slotPack descriptors field slot).Writes
      ((slotRecords descriptors field slot).flatMap UnknownField.bytes)
  | .single member, _, _, ha, hlt => by
    rw [slotRecords] at hlt ⊢
    rw [slotPack]
    split_ifs at hlt ⊢ with hthere
    · rw [List.flatMap_singleton] at hlt ⊢
      exact requiredFieldPack_writes field member ha hlt
    · exact Packer.writes_skip
  | .flagged has member, _, _, ha, hlt => by
    rw [slotRecords] at hlt ⊢
    rw [slotPack]
    split_ifs at hlt ⊢ with hthere
    · rw [List.flatMap_singleton] at hlt ⊢
      exact requiredFieldPack_writes field member ha hlt
    · exact Packer.writes_skip
  | .repeated members, hp, hv, ha, hlt => by
    obtain ⟨htype, -⟩ := Slot.valid_repeated hv
    rw [slotRecords] at hlt ⊢
    rw [slotPack]
    split_ifs at hlt ⊢ with hpacked hempty
    · rw [List.isEmpty_iff.mp hempty]
      exact fun _ _ _ => rfl
    · have hle := length_le_delimited (members.flatMap Member.element)
      rw [List.flatMap_singleton] at hlt ⊢
      rw [UnknownField.length_bytes] at hlt
      simp only at hlt
      exact packedFieldPack_writes (hp hpacked) htype (Bool.eq_false_iff.mpr hempty) (by omega)
    · exact requiredFieldsPack_writes field members ha hlt

theorem requiredFieldsPack_writes (field : FieldDescriptor δ) : ∀ (members : List (Member δ)),
    membersAll (Message.slotsValid descriptors) members = true →
    ((membersRecords descriptors field members).flatMap UnknownField.bytes).length < 2 ^ 32 →
    (requiredFieldsPack descriptors field members).Writes
      ((membersRecords descriptors field members).flatMap UnknownField.bytes)
  | [], _, _ => Packer.writes_skip
  | member :: members, ha, hlt => by
    rw [membersAll, Bool.and_eq_true] at ha
    rw [membersRecords, List.flatMap_cons] at hlt ⊢
    rw [List.length_append] at hlt
    exact (requiredFieldPack_writes field member ha.1 (by omega)).seq
      (requiredFieldsPack_writes field members ha.2 (by omega))

theorem requiredFieldPack_writes (field : FieldDescriptor δ) : ∀ (member : Member δ),
    memberAll (Message.slotsValid descriptors) member = true →
    (UnknownField.mk field.id member.wireType (memberData descriptors member)).bytes.length <
      2 ^ 32 →
    (requiredFieldPack descriptors field member).Writes
      (UnknownField.mk field.id member.wireType (memberData descriptors member)).bytes
  | .scalar type value, _, _ => (Packer.writes_put _).withTag
  | .string str, _, hlt => by
    have hdata : memberData descriptors (.string str) = delimited (str.elim [] CString.bytes) := by
      cases str <;> rfl
    rw [UnknownField.length_bytes] at hlt
    simp only [hdata] at hlt ⊢
    have hle := length_le_delimited (str.elim [] CString.bytes)
    exact (stringPack_writes str (by omega)).withTag
  | .bytes data, _, hlt => by
    rw [UnknownField.length_bytes] at hlt
    simp only [memberData] at hlt ⊢
    have hle := length_le_delimited data
    have hdata : (binaryDataPack data).Writes (delimited data) := Packer.Writes.delimited (by omega)
    exact hdata.withTag
  | .message none, _, _ => by
    have hput : (Packer.put [0]).Writes (delimited []) := by
      rw [delimited_nil]
      exact Packer.writes_put [0]
    exact hput.withTag
  | .message (some sub), ha, hlt => by
    rw [UnknownField.length_bytes] at hlt
    have hdata : memberData descriptors (.message (some sub)) = delimited (sub.bytes descriptors) :=
      rfl
    simp only [hdata] at hlt ⊢
    have hle := length_le_delimited (sub.bytes descriptors)
    have hsub := messagePack_writes sub ha (by omega)
    exact (hsub.prefixed (by omega)).withTag

end

/-- **`cb_pack_message` fills its buffer** with the records of the message, from its first
    byte to its last one. -/
theorem packMessage_eq {message : Message δ} (hv : message.valid descriptors = true)
    (hlt : (message.bytes descriptors).length < 2 ^ 32) :
    packMessage descriptors message =
      .ok ((message.bytes descriptors).map some, (message.bytes descriptors).length) := by
  have hpack := messagePack_writes descriptors message hv hlt [] (Block.alloc _)
    (Nat.le_of_eq Block.length_alloc.symm)
  rw [List.nil_append, List.length_nil, List.drop_of_length_le (Nat.le_of_eq Block.length_alloc),
    List.nil_append, List.append_nil] at hpack
  rw [packMessage, messageGetPackedSize_eq descriptors message hv hlt, Fallible.ok_bind, hpack]
  rfl

end

end Cebus.ProtobufC
