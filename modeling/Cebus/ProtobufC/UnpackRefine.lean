import Cebus.ProtobufC.ScanRefine

/-!
# Unpacking is decoding

The second loop of `protobuf_c_message_unpack` has room for what it stores, for the first
loop has counted it.

* `parseField_eq`: a member is stored inside of its array.
* `messageUnpack_eq`: bytes are unpacked into the message that they mean.
-/

namespace Cebus.ProtobufC

variable {δ : Type} {desc : MessageDescriptor δ} {record : UnknownField}
variable {records : List UnknownField} {data payload : List UInt8} {i capacity count : ℕ}

/-- What the library answers where nothing can go wrong but the bytes. -/
def answer {α : Type} : Option α → Except Failure α
  | some a => .ok a
  | none => .error .invalid

theorem answer_map {α β : Type} (f : α → β) (x : Option α) :
    answer (x.map f) = (answer x >>= fun a => .ok (f a)) := by
  cases x with
  | none => rfl
  | some a => rfl

/-! ## Packed arrays -/

section

variable {type : ScalarType} {values : List type.Carrier} {members : List (Member δ)}

theorem maxB128Numbers_eq (data : List UInt8) :
    maxB128Numbers data = data.countP fun b => decide (Base128.Low b) := by
  rw [maxB128Numbers]
  congr 1
  funext b
  exact decide_eq_decide.mpr (and_high_iff b)

/-- One number ends at the terminator. -/
theorem maxB128Numbers_drop (h : terminator 10 data = some i) :
    maxB128Numbers data = 1 + maxB128Numbers (data.drop (i + 1)) := by
  obtain ⟨hfirst, -⟩ := terminator_eq_some_iff.mp h
  have hi := firstLow_lt hfirst
  obtain ⟨front, last, htake, hfront, hlast⟩ := Base128.codeWord_take hfirst
  rw [maxB128Numbers_eq, maxB128Numbers_eq]
  conv_lhs => rw [← List.take_append_drop (i + 1) data, htake]
  rw [List.countP_append, List.countP_append, List.countP_singleton,
    if_pos (decide_eq_true hlast), List.countP_eq_zero.mpr, Nat.zero_add]
  intro b hb
  simpa using hfront b hb

/-- The loop stores each number of the array in its place. -/
theorem parseVarints_eq {fuel : ℕ} (htype : type.fixedSize = none) (hfuel : data.length ≤ fuel)
    (hroom : members.length + maxB128Numbers data ≤ capacity) :
    parseVarints type capacity fuel members data =
      answer ((type.elements.items data).map fun values =>
        members ++ values.map (Member.scalar type)) := by
  induction fuel generalizing members data with
  | zero =>
    obtain rfl := List.eq_nil_of_length_eq_zero (Nat.le_zero.mp hfuel)
    rw [Scanner.items_nil, Option.map_some, List.map_nil, List.append_nil]
    rfl
  | succ fuel ih =>
    cases data with
    | nil =>
      rw [Scanner.items_nil, Option.map_some, List.map_nil, List.append_nil]
      rfl
    | cons b bs =>
      have hscan : type.elements.scan (b :: bs) = (terminator 10 (b :: bs)).map fun i =>
          (type.parseValue ((b :: bs).take (i + 1)), (b :: bs).drop (i + 1)) := by
        simp only [ScalarType.elements, ScalarType.scanElement, htype]
      simp only [parseVarints]
      cases hend : terminator 10 (b :: bs) with
      | none =>
        rw [hend] at hscan
        rw [Scanner.items_of_not_scan (List.cons_ne_nil b bs) hscan]
        rfl
      | some i =>
        rw [hend] at hscan
        have hcount := maxB128Numbers_drop hend
        have hshort : ((b :: bs).drop (i + 1)).length ≤ fuel := by
          rw [List.length_drop]
          rw [List.length_cons] at hfuel ⊢
          omega
        dsimp only
        rw [Scanner.items_of_scan hscan, storeElement, if_pos (by omega), Fallible.ok_bind,
          ih hshort (by rw [List.length_append, List.length_singleton]; omega), Option.map_map]
        congr 2
        funext values
        rw [Function.comp_apply, List.map_cons, List.append_assoc, List.singleton_append]

theorem length_values_le (htype : type.fixedSize = none)
    (h : type.elements.items data = some values) : values.length ≤ maxB128Numbers data := by
  induction values generalizing data with
  | nil => exact Nat.zero_le _
  | cons value values ih =>
    obtain ⟨rest, hscan, hrest⟩ := Scanner.items_eq_cons h
    simp only [ScalarType.elements, ScalarType.scanElement, htype] at hscan
    obtain ⟨i, hend, heq⟩ := Option.map_eq_some_iff.mp hscan
    obtain ⟨-, rfl⟩ := Prod.mk.inj heq
    have hle := ih hrest
    rw [maxB128Numbers_drop hend, List.length_cons]
    omega

theorem parseValue_take {size : ℕ} (hsize : type.fixedSize = some size) (data : List UInt8) :
    type.parseValue (data.take size) = type.parseValue data := by
  cases type <;> cases hsize <;>
    simp only [ScalarType.parseValue, parseFixedUint32, parseFixedUint64, List.take_take,
      Nat.min_self]

/-- An array of numbers of one size is cut into them. -/
theorem items_fixed {size : ℕ} (hsize : type.fixedSize = some size) (data : List UInt8) :
    type.elements.items data =
      if data.length % size = 0 then
        some ((List.range (data.length / size)).map fun i =>
          type.parseValue (data.drop (i * size)))
      else none := by
  have hpos := ScalarType.fixedSize_pos hsize
  induction hlen : data.length using Nat.strongRecOn generalizing data with
  | ind n ih =>
    have hscan : type.elements.scan data = if data.length < size then none
        else some (type.parseValue (data.take size), data.drop size) := by
      simp only [ScalarType.elements, ScalarType.scanElement, hsize]
    by_cases hshort : data.length < size
    · rw [if_pos hshort] at hscan
      subst hlen
      rw [Nat.mod_eq_of_lt hshort, Nat.div_eq_of_lt hshort]
      cases data with
      | nil => rw [Scanner.items_nil]; rfl
      | cons b bs =>
        rw [Scanner.items_of_not_scan (List.cons_ne_nil b bs) hscan]
        exact (if_neg (Nat.succ_ne_zero _)).symm
    · rw [if_neg hshort] at hscan
      have hdrop : (data.drop size).length = n - size := by rw [List.length_drop, hlen]
      have hle : size ≤ n := by omega
      rw [Scanner.items_of_scan hscan, ih (n - size) (by omega) _ hdrop,
        Nat.mod_eq_sub_mod hle, Nat.div_eq_sub_div hpos hle, parseValue_take hsize]
      split_ifs with hmod
      · rw [Option.map_some, List.range_succ_eq_map, List.map_cons, List.map_map, Nat.zero_mul,
          List.drop_zero]
        congr 2
        apply List.map_congr_left
        intro i hi
        rw [Function.comp_apply, List.drop_drop, Nat.succ_mul, Nat.add_comm]
      · rfl

end

theorem countPackedElements_scalar (type : ScalarType) (data : List UInt8) :
    countPackedElements (.scalar type : FieldType δ) data =
      match type.fixedSize with
      | some size => if data.length % size ≠ 0 then none else some (data.length / size)
      | none => if type = .bool then some data.length else some (maxB128Numbers data) := by
  cases type <;> rfl

theorem maxB128Numbers_le (data : List UInt8) : maxB128Numbers data ≤ data.length :=
  List.countP_le_length

/-- **The elements of an array are stored in the places that were counted.** -/
theorem parsePacked_eq {type : FieldType δ} {members : List (Member δ)}
    (hcount : countPackedElements type payload = some count)
    (hroom : members.length + count ≤ capacity) :
    parsePackedRepeatedMember type capacity members payload =
        answer ((type.arrayOf payload).map (members ++ ·)) ∧
      ∀ more, type.arrayOf payload = some more → more.length ≤ count := by
  cases type with
  | string | bytes | message => cases hcount
  | scalar type =>
    rw [countPackedElements_scalar] at hcount
    rw [parsePackedRepeatedMember, FieldType.arrayOf, Option.map_map]
    cases hsize : type.fixedSize with
    | some size =>
      rw [hsize] at hcount
      dsimp only at hcount ⊢
      split_ifs at hcount with hmod
      obtain rfl := Option.some.inj hcount
      rw [items_fixed hsize, if_pos (not_not.mp hmod), if_pos hroom]
      constructor
      · rw [Option.map_some, Function.comp_apply, List.map_map]
        rfl
      · intro more hmore
        rw [← Option.some.inj hmore, List.length_map, List.length_map, List.length_range]
    | none =>
      rw [hsize] at hcount
      have hle : maxB128Numbers payload ≤ count := by
        dsimp only at hcount
        split_ifs at hcount
        · rw [← Option.some.inj hcount]
          exact maxB128Numbers_le payload
        · exact Nat.le_of_eq (Option.some.inj hcount)
      constructor
      · exact parseVarints_eq hsize (Nat.le_refl _) (by omega)
      · intro more hmore
        obtain ⟨values, hvalues, rfl⟩ := Option.map_eq_some_iff.mp hmore
        have hlen := length_values_le hsize hvalues
        rw [List.length_map]
        omega

/-- An array whose elements cannot be counted has none. -/
theorem arrayOf_eq_none {type : FieldType δ} (h : countPackedElements type payload = none) :
    type.arrayOf payload = none := by
  cases type with
  | string | bytes | message => rfl
  | scalar type =>
    rw [countPackedElements_scalar] at h
    rw [FieldType.arrayOf]
    cases hsize : type.fixedSize with
    | some size =>
      rw [hsize] at h
      dsimp only at h
      split_ifs at h with hmod
      rw [items_fixed hsize, if_neg hmod]
      rfl
    | none =>
      rw [hsize] at h
      dsimp only at h
      split_ifs at h

theorem count_le_length {type : FieldType δ} (h : countPackedElements type payload = some count) :
    count ≤ payload.length := by
  cases type with
  | string | bytes | message => cases h
  | scalar type =>
    rw [countPackedElements_scalar] at h
    cases hsize : type.fixedSize with
    | some size =>
      rw [hsize] at h
      dsimp only at h
      split_ifs at h with hmod
      rw [← Option.some.inj h]
      exact Nat.div_le_self _ _
    | none =>
      rw [hsize] at h
      dsimp only at h
      split_ifs at h
      · exact Nat.le_of_eq (Option.some.inj h).symm
      · rw [← Option.some.inj h]
        exact maxB128Numbers_le payload

/-! ## Members -/

section

variable {descriptors : δ → MessageDescriptor δ}
variable {unpack : δ → List UInt8 → Except Failure (Message δ)}
variable {decode : δ → List UInt8 → Option (Message δ)}

theorem parseRequiredMember_eq (type : FieldType δ) (previous : Option (Member δ))
    (hsub : ∀ descriptor, unpack descriptor record.payload =
      answer (decode descriptor record.payload)) :
    parseRequiredMember descriptors unpack type (desc.scanned record) previous =
      answer (type.memberOf descriptors decode record previous) := by
  have hpayload : record.data.drop record.prefixLen = record.payload := rfl
  cases type with
  | scalar type =>
    simp only [parseRequiredMember, FieldType.memberOf, MessageDescriptor.scanned]
    by_cases haccepts : type.accepts record.wireType = true
    · rw [if_pos haccepts]
      exact if_pos haccepts
    · rw [if_neg haccepts]
      exact if_neg haccepts
  | string | bytes =>
    simp only [parseRequiredMember, FieldType.memberOf, MessageDescriptor.scanned]
    by_cases hw : record.wireType = WireType.lengthPrefixed
    · rw [if_pos hw]
      exact if_neg (not_not.mpr hw)
    · rw [if_neg hw]
      exact if_pos hw
  | message descriptor =>
    simp only [parseRequiredMember, FieldType.memberOf, MessageDescriptor.scanned, hpayload, hsub]
    by_cases hw : record.wireType = WireType.lengthPrefixed
    · refine (if_neg (not_not.mpr hw)).trans ?_
      rw [if_pos hw]
      cases decode descriptor record.payload with
      | none => rfl
      | some sub =>
        rw [answer, Fallible.ok_bind, Option.map_some, answer]
        cases previous with
        | none => rfl
        | some member =>
          cases member with
          | message earlier => cases earlier <;> rfl
          | scalar | string | bytes => rfl
    · rw [if_neg hw]
      exact if_pos hw

/-- The slot is an array. -/
def Slot.isArray : Slot δ → Bool
  | .repeated _ => true
  | _ => false

/-- The slot has as many elements as it has room for, with some that are to come. -/
def Slot.roomFor (capacity count : ℕ) : Slot δ → Prop
  | .repeated members => members.length + count ≤ capacity
  | _ => True

/-- **A member is stored inside of its array.** -/
theorem parseField_eq (desc : MessageDescriptor δ) {field : FieldDescriptor δ} {slot : Slot δ}
    (hslot : slot.isArray = decide (field.label = .repeated))
    (hcount : field.countOf record = some count) {rest : ℕ}
    (hroom : slot.roomFor capacity (count + rest))
    (hsub : ∀ descriptor, unpack descriptor record.payload =
      answer (decode descriptor record.payload)) :
    parseField descriptors unpack field capacity (desc.scanned record) slot =
        answer (field.absorb descriptors decode slot record) ∧
      ∀ slot', field.absorb descriptors decode slot record = some slot' →
        slot'.isArray = slot.isArray ∧ slot'.roomFor capacity rest := by
  cases slot with
  | single member =>
    rw [parseField, FieldDescriptor.absorb, parseRequiredMember_eq _ _ hsub, answer_map]
    refine ⟨rfl, fun slot' hslot' => ?_⟩
    obtain ⟨member', -, rfl⟩ := Option.map_eq_some_iff.mp hslot'
    exact ⟨rfl, trivial⟩
  | flagged has member =>
    rw [parseField, FieldDescriptor.absorb, parseRequiredMember_eq _ _ hsub, answer_map]
    refine ⟨rfl, fun slot' hslot' => ?_⟩
    obtain ⟨member', -, rfl⟩ := Option.map_eq_some_iff.mp hslot'
    exact ⟨rfl, trivial⟩
  | repeated members =>
    have hroom' : members.length + (count + rest) ≤ capacity := hroom
    rw [FieldDescriptor.countOf, if_pos (of_decide_eq_true hslot.symm)] at hcount
    have hpayload : (desc.scanned record).data.drop (desc.scanned record).lengthPrefixLen =
      record.payload := rfl
    have hwire : (desc.scanned record).wireType = record.wireType := rfl
    rw [parseField, FieldDescriptor.absorb, hpayload, hwire]
    by_cases hpacked : field.isPackedData record.wireType = true
    · rw [if_pos hpacked] at hcount
      obtain ⟨hparse, hlen⟩ :=
        parsePacked_eq hcount (show members.length + count ≤ capacity by omega)
      rw [if_pos hpacked, if_pos hpacked, hparse]
      constructor
      · cases field.type.arrayOf record.payload <;> rfl
      · intro slot' hslot'
        obtain ⟨more, hmore, rfl⟩ := Option.map_eq_some_iff.mp hslot'
        have hle := hlen more hmore
        refine ⟨rfl, ?_⟩
        rw [Slot.roomFor, List.length_append]
        omega
    · rw [if_neg hpacked] at hcount
      obtain rfl := Option.some.inj hcount
      rw [if_neg hpacked, if_neg hpacked, parseRequiredMember_eq _ _ hsub]
      constructor
      · cases field.type.memberOf descriptors decode record none with
        | none => rfl
        | some member =>
          rw [answer, Fallible.ok_bind, storeElement, if_pos (by omega)]
          rfl
      · intro slot' hslot'
        obtain ⟨member, -, rfl⟩ := Option.map_eq_some_iff.mp hslot'
        refine ⟨rfl, ?_⟩
        rw [Slot.roomFor, List.length_append, List.length_singleton]
        omega

/-! ## All members -/

theorem total_cons (desc : MessageDescriptor δ) (record : UnknownField)
    (records : List UnknownField) (i : ℕ) (field : FieldDescriptor δ) :
    desc.total (record :: records) i field =
      (if desc.key record = some i then (field.countOf record).getD 0 else 0) +
        desc.total records i field := by
  rw [MessageDescriptor.total, MessageDescriptor.total]
  split_ifs with hkey
  · rw [Components.events_cons_of_eq hkey, List.map_cons, List.sum_cons]
  · rw [Components.events_cons_of_ne hkey, Nat.zero_add]

/-- There is room in the arrays for the records that are to come. -/
structure Room (desc : MessageDescriptor δ) (capacities : List ℕ) (records : List UnknownField)
    (slots : List (Slot δ)) : Prop where
  length_slots : slots.length = desc.fields.length
  length_capacities : capacities.length = desc.fields.length
  isArray : ∀ (i : ℕ) field slot, desc.fields[i]? = some field → slots[i]? = some slot →
    slot.isArray = decide (field.label = .repeated)
  roomFor : ∀ (i : ℕ) field slot capacity, desc.fields[i]? = some field → slots[i]? = some slot →
    capacities[i]? = some capacity → slot.roomFor capacity (desc.total records i field)

theorem Room.unknown {capacities : List ℕ} {slots : List (Slot δ)}
    (h : Room desc capacities (record :: records) slots) (hkey : desc.key record = none) :
    Room desc capacities records slots where
  length_slots := h.length_slots
  length_capacities := h.length_capacities
  isArray := h.isArray
  roomFor := fun i field slot capacity hfield hslot hcapacity => by
    have hroom := h.roomFor i field slot capacity hfield hslot hcapacity
    rw [total_cons, hkey] at hroom
    simpa using hroom

theorem Room.stored {capacities : List ℕ} {slots : List (Slot δ)} {slot slot' : Slot δ}
    (h : Room desc capacities (record :: records) slots) (hkey : desc.key record = some i)
    {field : FieldDescriptor δ} (hfield : desc.fields[i]? = some field)
    (hslot : slots[i]? = some slot) (hcapacity : capacities[i]? = some capacity)
    (harray : slot'.isArray = slot.isArray)
    (hroom : slot'.roomFor capacity (desc.total records i field)) :
    Room desc capacities records (slots.set i slot') where
  length_slots := by rw [List.length_set, h.length_slots]
  length_capacities := h.length_capacities
  isArray := fun j field' slot'' hfield' hslot'' => by
    rw [List.getElem?_set] at hslot''
    split_ifs at hslot'' with hij hlt
    · subst hij
      obtain rfl := Option.some.inj hslot''
      obtain rfl := Option.some.inj (hfield.symm.trans hfield')
      rw [harray]
      exact h.isArray i field slot hfield hslot
    · exact h.isArray j field' slot'' hfield' hslot''
  roomFor := fun j field' slot'' capacity' hfield' hslot'' hcapacity' => by
    rw [List.getElem?_set] at hslot''
    split_ifs at hslot'' with hij hlt
    · subst hij
      obtain rfl := Option.some.inj hslot''
      obtain rfl := Option.some.inj (hfield.symm.trans hfield')
      obtain rfl := Option.some.inj (hcapacity.symm.trans hcapacity')
      exact hroom
    · have hold := h.roomFor j field' slot'' capacity' hfield' hslot'' hcapacity'
      rw [total_cons, hkey, if_neg (fun heq => hij (Option.some.inj heq)), Nat.zero_add] at hold
      exact hold

/-- **The second loop.** -/
theorem foldlM_parseMember {capacities : List ℕ} {slots : List (Slot δ)}
    {unknown : List UnknownField} {nUnknown : ℕ}
    (hroom : Room desc capacities records slots)
    (hunknown : unknown.length + (desc.unknown records).length ≤ nUnknown)
    (hcount : ∀ record ∈ records, desc.countable record = true)
    (hsub : ∀ record ∈ records, ∀ descriptor, unpack descriptor record.payload =
      answer (decode descriptor record.payload)) :
    (records.map desc.scanned).foldlM (parseMember descriptors unpack desc nUnknown)
        ⟨slots, capacities, unknown⟩ =
      answer ((records.foldlM (Components.step desc.key (desc.change descriptors decode)) slots).map
        fun slots => ⟨slots, capacities, unknown ++ desc.unknown records⟩) := by
  induction records generalizing slots unknown with
  | nil =>
    rw [List.foldlM_nil, MessageDescriptor.unknown, List.filter_nil, List.append_nil]
    rfl
  | cons record records ih =>
    obtain ⟨hcountable, hcount⟩ := List.forall_mem_cons.mp hcount
    obtain ⟨hfirst, hsub⟩ := List.forall_mem_cons.mp hsub
    have hfield : (desc.scanned record).field = desc.key record := rfl
    rw [List.map_cons, List.foldlM_cons, List.foldlM_cons, parseMember, hfield, Components.step]
    cases hkey : desc.key record with
    | none =>
      have hkept : desc.unknown (record :: records) = record :: desc.unknown records :=
        List.filter_cons_of_pos (decide_eq_true hkey)
      rw [hkept, List.length_cons] at hunknown
      dsimp only
      rw [if_pos (by omega), Fallible.ok_bind, hkept,
        List.append_cons unknown record (desc.unknown records)]
      exact ih (hroom.unknown hkey) (by rw [List.length_append, List.length_singleton]; omega)
        hcount hsub
    | some i =>
      have hkept : desc.unknown (record :: records) = desc.unknown records :=
        List.filter_cons_of_neg (by rw [hkey]; exact Bool.false_ne_true)
      obtain ⟨field, hi, -⟩ := key_eq_some_iff.mp hkey
      obtain ⟨hlt, -⟩ := List.getElem?_eq_some_iff.mp hi
      obtain ⟨slot, hslot⟩ : ∃ slot, slots[i]? = some slot :=
        ⟨_, List.getElem?_eq_getElem (by rw [hroom.length_slots]; exact hlt)⟩
      obtain ⟨capacity, hcapacity⟩ : ∃ capacity, capacities[i]? = some capacity :=
        ⟨_, List.getElem?_eq_getElem (by rw [hroom.length_capacities]; exact hlt)⟩
      rw [MessageDescriptor.countable, hkey, Option.bind_some, hi] at hcountable
      obtain ⟨count, hvalue⟩ := Option.isSome_iff_exists.mp hcountable
      have hplaces := hroom.roomFor i field slot capacity hi hslot hcapacity
      rw [total_cons, if_pos hkey, hvalue, Option.getD_some] at hplaces
      obtain ⟨hparse, hafter⟩ :=
        parseField_eq desc (hroom.isArray i field slot hi hslot) hvalue hplaces hfirst
      rw [hkept] at hunknown ⊢
      simp only [hi, hslot, hcapacity, Option.bind_some, MessageDescriptor.change]
      rw [hparse]
      cases habsorb : field.absorb descriptors decode slot record with
      | none => rfl
      | some slot' =>
        obtain ⟨harray, hrest⟩ := hafter slot' habsorb
        exact ih (hroom.stored hkey hi hslot hcapacity harray hrest) hunknown hcount hsub

/-! ## Arrays and required fields -/

/-- The places that a field gets. -/
def MessageDescriptor.places (desc : MessageDescriptor δ) (records : List UnknownField) (i : ℕ)
    (field : FieldDescriptor δ) : ℕ :=
  if field.label = .repeated then (UInt32.ofNat (desc.total records i field)).toNat else 0

theorem prepareField_eq {st : ScanState} (h : Noted desc records st) {field : FieldDescriptor δ}
    (hfield : desc.fields[i]? = some field) :
    prepareField st i field =
      if field.label ≠ .required || records.any fun record => record.tag = field.id then
        .ok (desc.places records i field)
      else .error .invalid := by
  rw [prepareField, MessageDescriptor.places]
  cases hlabel : field.label with
  | repeated =>
    rw [h.counts i field hfield]
    rfl
  | optional => rfl
  | required =>
    rw [h.bitmap i field hfield hlabel]
    rfl

theorem prepare_eq {st : ScanState} (h : Noted desc records st) :
    desc.fields.zipIdx.mapM (fun (field, i) => prepareField st i field) =
      if desc.complete records = true then
        .ok (desc.fields.zipIdx.map fun (field, i) => desc.places records i field)
      else .error .invalid := by
  have hall : desc.complete records = desc.fields.zipIdx.all fun p =>
      p.1.label ≠ .required || records.any fun record => record.tag = p.1.id := by
    rw [MessageDescriptor.complete]
    conv_lhs => rw [← List.zipIdx_map_fst 0 desc.fields, List.all_map]
    rfl
  rw [hall]
  apply Fallible.mapM_eq_ite
  rintro ⟨field, i⟩ hmem
  exact prepareField_eq h (List.mem_zipIdx_iff_getElem?.mp hmem)

theorem total_le (desc : MessageDescriptor δ) (records : List UnknownField) (i : ℕ)
    (field : FieldDescriptor δ) :
    desc.total records i field ≤ (records.map fun record => record.data.length + 1).sum := by
  induction records with
  | nil => exact Nat.le_refl 0
  | cons record records ih =>
    have hone : (field.countOf record).getD 0 ≤ record.data.length + 1 := by
      have hle := length_payload_le record
      rw [FieldDescriptor.countOf]
      split_ifs with hlabel hpacked
      · cases hcount : countPackedElements field.type record.payload with
        | none => exact Nat.zero_le _
        | some count =>
          have hbound := count_le_length hcount
          rw [Option.getD_some]
          omega
      · rw [Option.getD_some]
        omega
      · exact Nat.zero_le _
    rw [total_cons, List.map_cons, List.sum_cons]
    split_ifs
    · omega
    · omega

theorem room_init (desc : MessageDescriptor δ)
    (hdata : (records.map fun record => record.data.length + 1).sum < 2 ^ 32) :
    Room desc (desc.fields.zipIdx.map fun (field, i) => desc.places records i field) records
      (desc.fields.map FieldDescriptor.init) where
  length_slots := List.length_map _
  length_capacities := by rw [List.length_map, List.length_zipIdx]
  isArray := fun i field slot hfield hslot => by
    rw [List.getElem?_map, hfield, Option.map_some] at hslot
    obtain rfl := Option.some.inj hslot
    rw [FieldDescriptor.init]
    cases field.label with
    | required => rfl
    | optional =>
      dsimp only
      split_ifs <;> rfl
    | repeated => rfl
  roomFor := fun i field slot capacity hfield hslot hcapacity => by
    rw [List.getElem?_map, hfield, Option.map_some] at hslot
    rw [List.getElem?_map, List.getElem?_zipIdx, hfield, Option.map_some, Option.map_some,
      Nat.zero_add] at hcapacity
    obtain rfl := Option.some.inj hslot
    have hplaces : desc.places records i field = capacity := Option.some.inj hcapacity
    have hle := total_le desc records i field
    rw [MessageDescriptor.places, toNat_ofNat_length (by omega)] at hplaces
    rw [FieldDescriptor.init]
    cases hlabel : field.label with
    | required => trivial
    | optional =>
      dsimp only
      split_ifs
      · trivial
      · trivial
    | repeated =>
      rw [if_pos hlabel] at hplaces
      rw [← hplaces]
      exact Nat.le_of_eq (Nat.zero_add _)

/-! ## Records that cannot be counted -/

/-- Slots keep their kind. -/
theorem isArray_absorb {field : FieldDescriptor δ} {slot slot' : Slot δ}
    (h : field.absorb descriptors decode slot record = some slot') :
    slot'.isArray = slot.isArray := by
  cases slot with
  | single member | flagged has member =>
    obtain ⟨member', -, rfl⟩ := Option.map_eq_some_iff.mp h
    rfl
  | repeated members =>
    rw [FieldDescriptor.absorb] at h
    split_ifs at h
    · obtain ⟨more, -, rfl⟩ := Option.map_eq_some_iff.mp h
      rfl
    · obtain ⟨member, -, rfl⟩ := Option.map_eq_some_iff.mp h
      rfl

theorem absorb_eq_none {field : FieldDescriptor δ} {slot : Slot δ}
    (hslot : slot.isArray = decide (field.label = .repeated))
    (hcount : field.countOf record = none) :
    field.absorb descriptors decode slot record = none := by
  rw [FieldDescriptor.countOf] at hcount
  split_ifs at hcount with hlabel hpacked
  rw [decide_eq_true hlabel] at hslot
  cases slot with
  | single member | flagged has member => exact absurd hslot Bool.false_ne_true
  | repeated members =>
    rw [FieldDescriptor.absorb, if_pos hpacked, arrayOf_eq_none hcount]
    rfl

/-- The slots are of the kinds that the fields need. -/
def SlotKinds (desc : MessageDescriptor δ) (slots : List (Slot δ)) : Prop :=
  ∀ (i : ℕ) field slot, desc.fields[i]? = some field → slots[i]? = some slot →
    slot.isArray = decide (field.label = .repeated)

/-- A record that changes the slots can be counted. -/
theorem SlotKinds.step {slots slots' : List (Slot δ)} (h : SlotKinds desc slots)
    (hstep : Components.step desc.key (desc.change descriptors decode) slots record = some slots') :
    SlotKinds desc slots' ∧ desc.countable record = true := by
  rw [MessageDescriptor.countable]
  rw [Components.step] at hstep
  cases hkey : desc.key record with
  | none =>
    rw [hkey] at hstep
    obtain rfl := Option.some.inj hstep
    exact ⟨h, rfl⟩
  | some i =>
    rw [hkey] at hstep
    obtain ⟨slot', hchange, rfl⟩ := Option.map_eq_some_iff.mp hstep
    obtain ⟨slot, hslot, hchange⟩ := Option.bind_eq_some_iff.mp hchange
    obtain ⟨field, hfield, habsorb⟩ := Option.bind_eq_some_iff.mp hchange
    constructor
    · intro j field' slot'' hfield' hslot''
      rw [List.getElem?_set] at hslot''
      split_ifs at hslot'' with hij hlt
      · subst hij
        obtain rfl := Option.some.inj hslot''
        rw [isArray_absorb habsorb]
        exact h i field' slot hfield' hslot
      · exact h j field' slot'' hfield' hslot''
    · rw [Option.bind_some, hfield]
      dsimp only
      rw [Option.isSome_iff_ne_none]
      intro hcount
      rw [absorb_eq_none (h i field slot hfield hslot) hcount] at habsorb
      cases habsorb

/-- What cannot be counted cannot be decoded. -/
theorem foldlM_eq_none {slots : List (Slot δ)} (hslots : SlotKinds desc slots)
    (h : ¬∀ record ∈ records, desc.countable record = true) :
    records.foldlM (Components.step desc.key (desc.change descriptors decode)) slots = none := by
  induction records generalizing slots with
  | nil => exact absurd (fun record hr => absurd hr List.not_mem_nil) h
  | cons record records ih =>
    rw [List.foldlM_cons]
    cases hstep : Components.step desc.key (desc.change descriptors decode) slots record with
    | none => rfl
    | some slots' =>
      obtain ⟨hslots', hcountable⟩ := hslots.step hstep
      exact ih hslots' fun hrest => h (List.forall_mem_cons.mpr ⟨hcountable, hrest⟩)

/-- **Unpacking is decoding.** -/
theorem unpackFields_eq {descriptor : δ} (hdata : data.length < 2 ^ 32)
    (hsub : ∀ descriptor rest, rest.length < data.length →
      unpack descriptor rest = answer (decode descriptor rest)) :
    unpackFields descriptors unpack descriptor data =
      answer (decodeFields descriptors decode descriptor data) := by
  have hscan := scanMembers_eq (Nat.le_refl data.length) (noted_init (descriptors descriptor))
  rw [unpackFields, decodeFields]
  dsimp only
  cases hitems : recordScanner.items data with
  | none =>
    rw [hitems] at hscan
    dsimp only at hscan
    rw [hscan]
    rfl
  | some records =>
    rw [hitems] at hscan
    simp only [List.nil_append, List.length_nil, Nat.zero_add] at hscan
    have hlength := Scanner.sum_le_length (fun record : UnknownField => record.data.length + 1)
      (fun _ _ _ hscan => scanRecord_length hscan) hitems
    have hroom := room_init (descriptors descriptor) (Nat.lt_of_le_of_lt hlength hdata)
    rw [Option.bind_some, decodeRecords]
    split_ifs at hscan with hnoted
    · obtain ⟨st, hst, hnoted'⟩ := hscan
      rw [hst, Fallible.ok_bind, prepare_eq hnoted', hnoted'.members, hnoted'.nUnknown]
      by_cases hcomplete : (descriptors descriptor).complete records = true
      · rw [if_pos hcomplete, Fallible.ok_bind, if_pos ⟨hnoted.1, hcomplete⟩,
          foldlM_parseMember hroom (Nat.le_of_eq (Nat.zero_add _)) hnoted.2
            fun record hr d => hsub d record.payload (length_payload_lt hitems record hr)]
        cases records.foldlM (Components.step (descriptors descriptor).key
          ((descriptors descriptor).change descriptors decode))
          ((descriptors descriptor).fields.map FieldDescriptor.init) <;> rfl
      · rw [if_neg hcomplete, if_neg fun hboth => hcomplete hboth.2]
        rfl
    · rw [hscan]
      split_ifs with hboth
      · rw [foldlM_eq_none hroom.isArray fun hcount => hnoted ⟨hboth.1, hcount⟩]
        rfl
      · rfl

end

/-- **Bytes are unpacked into the message that they mean**; nothing is written outside of an
    array, and every failure is an answer NULL. -/
theorem messageUnpack_eq (descriptors : δ → MessageDescriptor δ) (descriptor : δ)
    (hdata : data.length < 2 ^ 32) :
    messageUnpack descriptors descriptor data = answer (decode descriptors descriptor data) := by
  have hfuel (fuel : ℕ) (descriptor : δ) (rest : List UInt8) (hlt : rest.length < fuel)
      (hrest : rest.length < 2 ^ 32) :
      messageUnpackFuel descriptors fuel descriptor rest =
        answer (decodeFuel descriptors fuel descriptor rest) := by
    induction fuel generalizing descriptor rest with
    | zero => omega
    | succ fuel ih =>
      exact unpackFields_eq hrest fun d more hmore => ih d more (by omega) (by omega)
  exact hfuel _ descriptor data (Nat.lt_succ_self _) hdata

end Cebus.ProtobufC
