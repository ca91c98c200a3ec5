import Cebus.Codegen.RoutingFields
import Cebus.ProtobufC.NameTable

/-!
# Fields and methods in generated code (`c_message.cc`, `c_service.cc`, `protobuf-c.c`)

`protoc-c` writes the fields of a message sorted by their numbers, with the ranges of these
numbers and with the indices of the fields sorted by names; the methods of a service stay in
their order and have such indices as well. The messages have no `oneof`, and the option
`use_oneof_field_name`, which takes the name of the `oneof` for that of a field, is not set.

* `getField_eq`: a field is found by its number.
* `getFieldByName_eq`, `getMethodByName_eq`: fields and methods are found by their names.
-/

namespace Cebus.ProtobufC

open Codegen (Descriptor fieldDescriptors)

/-- The name of a field in C. -/
def nameOf (field : Codegen.FieldDescriptor) : CString := CString.ofChars field.name.toList

/-- The tables of a `ProtobufCMessageDescriptor`. -/
structure FieldTables where
  fields : List Codegen.FieldDescriptor
  fieldsSortedByName : Option (List ℕ)
  fieldRanges : List IntRange

/-- `MessageGenerator::GenerateMessageDescriptor` (`c_message.cc`, lines 535–596). -/
def generateMessageDescriptor (optimizeCodeSize : Bool) (descriptor : Descriptor) : FieldTables :=
  let sortedFields := fieldDescriptors descriptor
  { fields := sortedFields
    fieldsSortedByName :=
      if optimizeCodeSize ∨ sortedFields = [] then none
      else some (indicesByName (sortedFields.map nameOf))
    fieldRanges := writeIntRanges (sortedFields.map (·.number)) }

/-- `desc->fields + i`, and what is there. -/
def FieldTables.fieldAt (desc : FieldTables) (i : ℕ) : Except Failure Codegen.FieldDescriptor :=
  match desc.fields[i]? with
  | some field => .ok field
  | none => .error .wild

/-- `protobuf_c_message_descriptor_get_field` (lines 3630–3638); NULL is `none`. -/
def FieldTables.getField (desc : FieldTables) (value : UInt32) :
    Except Failure (Option Codegen.FieldDescriptor) := do
  match ← intRangeLookup desc.fieldRanges (int32 value.toNat) with
  | none => .ok none
  | some rv =>
    let field ← desc.fieldAt rv
    .ok (some field)

/-- `protobuf_c_message_descriptor_get_field_by_name` (lines 3596–3628); NULL is `none`. -/
def FieldTables.getFieldByName (desc : FieldTables) (name : CString) :
    Except Failure (Option Codegen.FieldDescriptor) :=
  match desc.fieldsSortedByName with
  | none => .ok none
  | some indices => do
    match ← findByIndices (desc.fields.map nameOf) indices name with
    | none => .ok none
    | some i =>
      let field ← desc.fieldAt i
      .ok (some field)

/-- `ProtobufCServiceDescriptor`: the names of its methods, and their indices. -/
structure MethodTables where
  methods : List CString
  methodIndicesByName : Option (List ℕ)

/-- `ServiceGenerator::GenerateServiceDescriptor` (`c_service.cc`, lines 197–264). -/
def generateServiceDescriptor (optimizeCodeSize : Bool) (methods : List CString) : MethodTables :=
  { methods := methods
    methodIndicesByName := if optimizeCodeSize then none else some (indicesByName methods) }

/-- `protobuf_c_service_descriptor_get_method_by_name` (lines 3640–3672): the index of the
    method that the answer points to; NULL is `none`. -/
def MethodTables.getMethodByName (desc : MethodTables) (name : CString) :
    Except Failure (Option ℕ) :=
  match desc.methodIndicesByName with
  | none => .ok none
  | some indices => findByIndices desc.methods indices name

/-! ## What is found -/

section

variable {descriptor : Descriptor} {optimizeCodeSize : Bool}

theorem mem_fieldDescriptors {field : Codegen.FieldDescriptor} :
    field ∈ fieldDescriptors descriptor ↔ field ∈ descriptor.fields :=
  (Ranking.perm_sortBy _ descriptor.fields).mem_iff

/-- The numbers of fields are from 1 to 2^29 - 1. -/
def Numbered (descriptor : Descriptor) : Prop :=
  ∀ field ∈ descriptor.fields, 0 < field.number ∧ field.number < 2 ^ 29

theorem Numbered.rising (h : Numbered descriptor) :
    Rising ((fieldDescriptors descriptor).map (·.number)) := by
  have hsorted : ((fieldDescriptors descriptor).map (·.number)).Pairwise (· < ·) := by
    rw [List.pairwise_map]
    exact Ranking.pairwise_lt_sortBy descriptor.numbers_nodup
  have hbetween (n : ℤ) (hn : n ∈ (fieldDescriptors descriptor).map (·.number)) :
      0 ≤ n ∧ n < 2 ^ 29 := by
    obtain ⟨field, hfield, rfl⟩ := List.mem_map.mp hn
    have hnumber := h field (mem_fieldDescriptors.mp hfield)
    omega
  have hlen := length_le_of_pairwise (by decide) hsorted hbetween
  refine ⟨hsorted, fun n hn => ?_, fun n hn => ?_, by omega⟩
  · have hn' := hbetween n hn
    omega
  · have hn' := hbetween n hn
    omega

/-- A field has the number of a tag, also when the tag is taken for an `int`. -/
theorem Numbered.find?_int32 (h : Numbered descriptor) (value : UInt32) :
    descriptor.fields.find? (·.number == int32 value.toNat) =
      descriptor.fields.find? (·.number == (value.toNat : ℤ)) := by
  have hvalue := value.toNat_lt
  by_cases hsmall : value.toNat < 2 ^ 31
  · rw [int32_eq (by omega) (by omega)]
  · have hnone (n : ℤ) (hn : n < 0 ∨ 2 ^ 29 ≤ n) :
        descriptor.fields.find? (·.number == n) = none := by
      apply List.find?_eq_none.mpr
      intro field hfield hsame
      have hnumber := h field hfield
      have heq := eq_of_beq hsame
      omega
    have hneg : int32 value.toNat < 0 := by
      unfold int32
      rw [Int.bmod_def]
      split_ifs with hlow
      · omega
      · omega
    rw [hnone _ (Or.inl hneg), hnone _ (Or.inr (by omega))]

/-- What is found at the place that a table tells. -/
theorem fieldAt_eq {κ : Type} [BEq κ] [LawfulBEq κ] {key : Codegen.FieldDescriptor → κ} {k : κ}
    {i : ℕ} (codeSize : Bool) (hkeys : (descriptor.fields.map key).Nodup)
    (hfound : ((fieldDescriptors descriptor).map key).idxOf? k = some i) :
    ∃ field, (generateMessageDescriptor codeSize descriptor).fieldAt i = .ok field ∧
      descriptor.fields.find? (key · == k) = some field := by
  obtain ⟨hi, hkey, -⟩ := List.idxOf?_eq_some_iff.mp hfound
  have hi' : i < (fieldDescriptors descriptor).length := by simpa using hi
  rw [List.getElem_map] at hkey
  refine ⟨(fieldDescriptors descriptor)[i], ?_, ?_⟩
  · show (match (fieldDescriptors descriptor)[i]? with
      | some field => Except.ok field
      | none => Except.error Failure.wild) = _
    rw [List.getElem?_eq_getElem hi']
  · rw [← hkey]
    exact BinarySearch.find?_eq_of_nodup hkeys
      (mem_fieldDescriptors.mp (List.getElem_mem hi'))

theorem find?_eq_none_of_idxOf? {κ : Type} [BEq κ] [LawfulBEq κ]
    {key : Codegen.FieldDescriptor → κ} {k : κ}
    (hfound : ((fieldDescriptors descriptor).map key).idxOf? k = none) :
    descriptor.fields.find? (key · == k) = none := by
  apply List.find?_eq_none.mpr
  intro field hfield hkey
  apply List.idxOf?_eq_none_iff.mp hfound
  rw [← eq_of_beq hkey]
  exact List.mem_map_of_mem (mem_fieldDescriptors.mpr hfield)

/-- **A field is found by its number.** -/
theorem getField_eq (h : Numbered descriptor) (value : UInt32) :
    (generateMessageDescriptor optimizeCodeSize descriptor).getField value =
      .ok (descriptor.fields.find? (·.number == (value.toNat : ℤ))) := by
  have hlookup := intRangeLookup_eq h.rising (int32 value.toNat)
  unfold FieldTables.getField
  show (intRangeLookup (writeIntRanges _) _ >>= _) = _
  rw [hlookup, Fallible.ok_bind, ← h.find?_int32]
  cases hfound : ((fieldDescriptors descriptor).map (·.number)).idxOf? (int32 value.toNat) with
  | none => rw [find?_eq_none_of_idxOf? hfound]
  | some i =>
    obtain ⟨field, hat, hfind⟩ := fieldAt_eq optimizeCodeSize descriptor.numbers_nodup hfound
    rw [hfind]
    simp only [hat, Fallible.ok_bind]

/-- **A field is found by its name**, unless names are left out to save space. -/
theorem getFieldByName_eq (hnames : (descriptor.fields.map nameOf).Nodup) (name : CString) :
    (generateMessageDescriptor optimizeCodeSize descriptor).getFieldByName name =
      .ok (if optimizeCodeSize then none else descriptor.fields.find? (nameOf · == name)) := by
  have hnodup : ((fieldDescriptors descriptor).map nameOf).Nodup :=
    ((Ranking.perm_sortBy _ descriptor.fields).map nameOf).nodup_iff.mpr hnames
  have hlookup := findByIndices_eq hnodup name
  by_cases hnone : optimizeCodeSize ∨ fieldDescriptors descriptor = []
  · have hnull : (generateMessageDescriptor optimizeCodeSize descriptor).fieldsSortedByName =
        none := if_pos hnone
    have hanswer : (if optimizeCodeSize then none
        else descriptor.fields.find? (nameOf · == name)) = none := by
      rcases hnone with hsize | hempty
      · rw [if_pos hsize]
      · have hfields : descriptor.fields = [] := by
          apply List.eq_nil_iff_forall_not_mem.mpr
          intro field hfield
          have hmem := mem_fieldDescriptors.mpr hfield
          rw [hempty] at hmem
          cases hmem
        rw [hfields]
        split_ifs <;> rfl
    unfold FieldTables.getFieldByName
    rw [hnull, hanswer]
  · have hrows : (generateMessageDescriptor optimizeCodeSize descriptor).fieldsSortedByName =
        some (indicesByName ((fieldDescriptors descriptor).map nameOf)) := if_neg hnone
    unfold FieldTables.getFieldByName
    rw [hrows, if_neg (fun hsize => hnone (Or.inl hsize))]
    show (findByIndices _ _ _ >>= _) = _
    rw [show (generateMessageDescriptor optimizeCodeSize descriptor).fields =
      fieldDescriptors descriptor from rfl, hlookup, Fallible.ok_bind]
    cases hfound : ((fieldDescriptors descriptor).map nameOf).idxOf? name with
    | none => rw [find?_eq_none_of_idxOf? hfound]
    | some i =>
      obtain ⟨field, hat, hfind⟩ := fieldAt_eq optimizeCodeSize hnames hfound
      rw [hfind]
      simp only [hat, Fallible.ok_bind]

/-- **A method is found by its name**, unless names are left out to save space. -/
theorem getMethodByName_eq {methods : List CString} (hnames : methods.Nodup) (name : CString) :
    (generateServiceDescriptor optimizeCodeSize methods).getMethodByName name =
      .ok (if optimizeCodeSize then none else methods.idxOf? name) := by
  cases optimizeCodeSize with
  | true => rfl
  | false => exact findByIndices_eq hnames name

/-- **Fields are found**: by its number, which is a tag of the wire format, and by its name each
    field that is declared is found, and nothing else is; no table is read outside of it. -/
theorem messageDescriptor_fields (h : Numbered descriptor)
    (hnames : (descriptor.fields.map nameOf).Nodup) :
    (∀ value : UInt32, (generateMessageDescriptor optimizeCodeSize descriptor).getField value =
      .ok (descriptor.fields.find? (·.number == (value.toNat : ℤ)))) ∧
      ∀ name, (generateMessageDescriptor optimizeCodeSize descriptor).getFieldByName name =
        .ok (if optimizeCodeSize then none else descriptor.fields.find? (nameOf · == name)) :=
  ⟨getField_eq h, getFieldByName_eq hnames⟩

/-- Two fields whose names are not in the order of their numbers. -/
def samplePeerFields : Descriptor where
  fullName := "Peer"
  fields := [⟨"id", "Peer.id", 2, .required, .message, none⟩,
    ⟨"endpoint", "Peer.endpoint", 7, .required, .string, none⟩]
  numbers_nodup := by decide

theorem messageDescriptor_fields_peer :
    (∀ value : UInt32, (generateMessageDescriptor false samplePeerFields).getField value =
      .ok (samplePeerFields.fields.find? (·.number == (value.toNat : ℤ)))) ∧
      ∀ name, (generateMessageDescriptor false samplePeerFields).getFieldByName name =
        .ok (samplePeerFields.fields.find? (nameOf · == name)) :=
  messageDescriptor_fields (by unfold Numbered; decide) (by decide)

end

end Cebus.ProtobufC
