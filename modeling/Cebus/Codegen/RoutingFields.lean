import Cebus.Lib.Fallible
import Cebus.Lib.Ranking

/-!
# Routing fields in generated code

Two code generators run over the same message descriptor. `protoc-cebus`
(`main.cc`) emits for each routing field a reference into the array of field
descriptors, and `protoc-c` (`c_message.cc`) emits that array.

* `getElem?_routing_iff`: the routing fields come in the order of their positions.
* `generatorsAgree_iff`: the references denote these fields exactly when every routing
  field is declared where its number puts it.
-/

namespace Cebus.Codegen

/-! ## Descriptors -/

/-- `google::protobuf::FieldDescriptor::Type`. -/
inductive FieldType where
  | double | float | int64 | uint64 | int32 | fixed64 | fixed32 | bool | string | group
  | message | bytes | uint32 | enum | sfixed32 | sfixed64 | sint32 | sint64
deriving DecidableEq

/-- `FieldDescriptor::type_name`. -/
def FieldType.typeName : FieldType → String
  | double => "double"
  | float => "float"
  | int64 => "int64"
  | uint64 => "uint64"
  | int32 => "int32"
  | fixed64 => "fixed64"
  | fixed32 => "fixed32"
  | bool => "bool"
  | string => "string"
  | group => "group"
  | message => "message"
  | bytes => "bytes"
  | uint32 => "uint32"
  | enum => "enum"
  | sfixed32 => "sfixed32"
  | sfixed64 => "sfixed64"
  | sint32 => "sint32"
  | sint64 => "sint64"

/-- `google::protobuf::FieldDescriptor::Label`. -/
inductive Label where
  | optional | required | repeated
deriving DecidableEq

/-- `google::protobuf::FieldDescriptor`, with the option `routing_position`. -/
structure FieldDescriptor where
  name : String
  fullName : String
  number : ℤ
  label : Label
  type : FieldType
  routingPosition : Option ℤ
deriving DecidableEq

/-- `google::protobuf::Descriptor`: the fields as they are declared. No two of
    them have the same number. -/
structure Descriptor where
  fullName : String
  fields : List FieldDescriptor
  numbers_nodup : (fields.map (·.number)).Nodup

/-! ## `protoc-cebus` -/

/-- `GenerationException` (`generation_exception.h`). -/
structure GenerationException where
  what : String
deriving DecidableEq

/-- `GenerationException::throwF`: the text is cut to its buffer of 255. -/
def throwF {α : Type} (text : String) : Except GenerationException α :=
  .error ⟨String.ofList (text.toList.take 254)⟩

/-- `MessageGenerator::RoutingField` (`main.cc`, lines 24–30). -/
structure RoutingField where
  descriptor : FieldDescriptor
  fieldIndex : ℕ
  routingPosition : ℕ
deriving DecidableEq

/-- `MessageGenerator::isRoutableField` (lines 196–207). -/
def isRoutableField (field : FieldDescriptor) : Bool :=
  match field.type with
  | .message | .enum | .group => false
  | _ => true

/-- One turn of the loop over the fields (lines 215–245): the checks of a field
    with a `routing_position`. -/
def routingField (descriptor : Descriptor) (i : ℕ) (field : FieldDescriptor) :
    Except GenerationException (Option RoutingField) :=
  match field.routingPosition with
  | none => .ok none
  | some routingPosition =>
    if routingPosition ≤ 0 then
      throwF s!"Invalid routing_position {routingPosition} for field `{field.name}` ({descriptor.fullName}) (must be >= 0)"
    else if field.label = .repeated then
      throwF s!"Routing field `{field.name}` ({descriptor.fullName}) can not be a repeated-field"
    else if !isRoutableField field then
      throwF s!"Routing field `{field.name}` ({descriptor.fullName}) of type {field.type.typeName} is not routable. Only primitive fields are currently routable"
    else .ok (some ⟨field, i, routingPosition.toNat⟩)

/-- The loop over the fields from the `i`-th on (lines 214–246). -/
def collectRoutingFields (descriptor : Descriptor) :
    ℕ → List FieldDescriptor → Except GenerationException (List RoutingField)
  | _, [] => .ok []
  | i, field :: rest => do
    let found ← routingField descriptor i field
    let fields ← collectRoutingFields descriptor (i + 1) rest
    .ok (found.toList ++ fields)

/-- The check that routing positions are contiguous (lines 254–266). -/
def checkContiguous (descriptor : Descriptor) :
    List RoutingField → Except GenerationException Unit
  | previous :: field :: rest =>
    if field.routingPosition ≠ previous.routingPosition + 1 then
      throwF s!"Routing field `{field.descriptor.fullName}` (`{descriptor.fullName}`) has a gap in routing position ({field.routingPosition} -> {previous.routingPosition})"
    else checkContiguous descriptor (field :: rest)
  | _ => .ok ()

/-- `MessageGenerator::getRoutingFields` (lines 209–270). Equal positions are
    neighbours in every order that `std::sort` may leave, and are refused. -/
def getRoutingFields (descriptor : Descriptor) :
    Except GenerationException (List RoutingField) := do
  let fields ← collectRoutingFields descriptor 0 descriptor.fields
  let sorted := Ranking.sortBy (·.routingPosition) fields
  checkContiguous descriptor sorted
  .ok sorted

/-! ## `protoc-c` -/

/-- The array `…__field_descriptors` (`GenerateMessageDescriptor`,
    `c_message.cc`, lines 535–552). -/
def fieldDescriptors (descriptor : Descriptor) : List FieldDescriptor :=
  Ranking.sortBy (·.number) descriptor.fields

/-- What the entries `&…__field_descriptors[field_index]` of the array
    `…__routing_field_descriptors` denote (`generateDescriptorDefinitions`,
    `main.cc`, lines 103–119). -/
def routingFieldDescriptors (descriptor : Descriptor) (routing : List RoutingField) :
    List (Option FieldDescriptor × ℕ) :=
  routing.map fun field =>
    ((fieldDescriptors descriptor)[field.fieldIndex]?, field.routingPosition)

/-! ## What the generators should agree on -/

/-- The field has a routing position below this one. -/
def FieldDescriptor.precedes (position : ℤ) (field : FieldDescriptor) : Bool :=
  match field.routingPosition with
  | none => false
  | some own => decide (own < position)

/-- The field is annotated with the `i`-th smallest routing position. -/
def IsNthRouting (descriptor : Descriptor) (i : ℕ) (field : FieldDescriptor) : Prop :=
  ∃ position, field ∈ descriptor.fields ∧ field.routingPosition = some position ∧
    descriptor.fields.countP (·.precedes position) = i

/-- The `i`-th emitted entry denotes the field with the `i`-th smallest position. -/
def GeneratorsAgree (descriptor : Descriptor) (routing : List RoutingField) : Prop :=
  ∀ i entry, (routingFieldDescriptors descriptor routing)[i]? = some entry →
    ∃ field, entry.1 = some field ∧ IsNthRouting descriptor i field

/-- Before every routing field as many fields are declared as have a smaller
    number. -/
def DeclaredInPlace (descriptor : Descriptor) : Prop :=
  ∀ k (h : k < descriptor.fields.length), descriptor.fields[k].routingPosition.isSome →
    Ranking.rank (·.number) descriptor.fields[k].number descriptor.fields = k

instance (descriptor : Descriptor) : Decidable (DeclaredInPlace descriptor) :=
  inferInstanceAs (Decidable (∀ k (h : k < descriptor.fields.length),
    descriptor.fields[k].routingPosition.isSome →
      Ranking.rank (·.number) descriptor.fields[k].number descriptor.fields = k))

/-! ## The loop -/

theorem throwF_ne_ok {α : Type} (text : String) (a : α) : throwF text ≠ .ok a := by
  intro h
  cases h

/-- What one turn of the loop finds. -/
theorem routingField_cases {descriptor : Descriptor} {i : ℕ} {field : FieldDescriptor}
    {found : Option RoutingField} (h : routingField descriptor i field = .ok found) :
    (field.routingPosition = none ∧ found = none) ∨
      ∃ position : ℕ, field.routingPosition = some (position : ℤ) ∧
        found = some ⟨field, i, position⟩ := by
  unfold routingField at h
  split at h
  next hnone =>
    cases h
    exact .inl ⟨hnone, rfl⟩
  next position hsome =>
    split_ifs at h with hpos hlabel hroutable
    · exact (throwF_ne_ok _ _ h).elim
    · exact (throwF_ne_ok _ _ h).elim
    · exact (throwF_ne_ok _ _ h).elim
    · cases h
      have hcast : ((position.toNat : ℕ) : ℤ) = position := Int.toNat_of_nonneg (by omega)
      exact .inr ⟨position.toNat, by rw [hsome, hcast], rfl⟩

/-- What the loop has collected from the fields from the `k`-th on. -/
structure Collected (k : ℕ) (fields : List FieldDescriptor) (routing : List RoutingField) :
    Prop where
  descriptors : routing.map (·.descriptor) = fields.filter (·.routingPosition.isSome)
  entry : ∀ r ∈ routing, ∃ j, r.fieldIndex = k + j ∧ fields[j]? = some r.descriptor ∧
    r.descriptor.routingPosition = some (r.routingPosition : ℤ)
  all : ∀ j field, fields[j]? = some field → field.routingPosition.isSome →
    ∃ r ∈ routing, r.fieldIndex = k + j ∧ r.descriptor = field

theorem Collected.nil (k : ℕ) : Collected k [] [] where
  descriptors := rfl
  entry := by
    intro r hr
    cases hr
  all := by
    intro j field hj
    cases hj

theorem Collected.skip {k : ℕ} {field : FieldDescriptor} {fields : List FieldDescriptor}
    {routing : List RoutingField} (hnone : field.routingPosition = none)
    (h : Collected (k + 1) fields routing) : Collected k (field :: fields) routing where
  descriptors := by
    rw [h.descriptors, List.filter_cons_of_neg]
    rw [hnone]
    exact Bool.false_ne_true
  entry := by
    intro r hr
    obtain ⟨j, hindex, hj, hposition⟩ := h.entry r hr
    exact ⟨j + 1, by omega, hj, hposition⟩
  all := by
    intro j other hj hsome
    cases j with
    | zero =>
      obtain rfl : field = other := Option.some.inj hj
      rw [hnone] at hsome
      cases hsome
    | succ j =>
      obtain ⟨r, hr, hindex, hdescriptor⟩ := h.all j other hj hsome
      exact ⟨r, hr, by omega, hdescriptor⟩

theorem Collected.push {k position : ℕ} {field : FieldDescriptor} {fields : List FieldDescriptor}
    {routing : List RoutingField} (hposition : field.routingPosition = some (position : ℤ))
    (h : Collected (k + 1) fields routing) :
    Collected k (field :: fields) (⟨field, k, position⟩ :: routing) where
  descriptors := by
    rw [List.map_cons, h.descriptors, List.filter_cons_of_pos]
    rw [hposition]
    rfl
  entry := by
    intro r hr
    rcases List.mem_cons.1 hr with rfl | hr
    · exact ⟨0, rfl, rfl, hposition⟩
    · obtain ⟨j, hindex, hj, hown⟩ := h.entry r hr
      exact ⟨j + 1, by omega, hj, hown⟩
  all := by
    intro j other hj hsome
    cases j with
    | zero =>
      obtain rfl : field = other := Option.some.inj hj
      exact ⟨_, List.mem_cons_self, rfl, rfl⟩
    | succ j =>
      obtain ⟨r, hr, hindex, hdescriptor⟩ := h.all j other hj hsome
      exact ⟨r, List.mem_cons_of_mem _ hr, by omega, hdescriptor⟩

/-- What the whole loop collects. -/
theorem collected_of_ok {descriptor : Descriptor} {k : ℕ} {fields : List FieldDescriptor}
    {routing : List RoutingField}
    (h : collectRoutingFields descriptor k fields = .ok routing) :
    Collected k fields routing := by
  induction fields generalizing k routing with
  | nil =>
    cases h
    exact Collected.nil k
  | cons field rest ih =>
    unfold collectRoutingFields at h
    obtain ⟨found, hfound, h⟩ := Fallible.bind_eq_ok.1 h
    obtain ⟨others, hothers, h⟩ := Fallible.bind_eq_ok.1 h
    cases h
    rcases routingField_cases hfound with ⟨hnone, rfl⟩ | ⟨position, hsome, rfl⟩
    · exact (ih hothers).skip hnone
    · exact (ih hothers).push hsome

/-- Contiguous positions are strictly increasing. -/
theorem pairwise_of_checkContiguous {descriptor : Descriptor} {routing : List RoutingField}
    (h : checkContiguous descriptor routing = .ok ()) :
    routing.Pairwise fun r s => r.routingPosition < s.routingPosition := by
  have : IsTrans RoutingField fun r s => r.routingPosition < s.routingPosition :=
    ⟨fun _ _ _ => Nat.lt_trans⟩
  apply List.isChain_iff_pairwise.1
  induction routing with
  | nil => exact List.IsChain.nil
  | cons previous rest ih =>
    cases rest with
    | nil => exact List.IsChain.singleton previous
    | cons field rest =>
      unfold checkContiguous at h
      split_ifs at h with hgap
      · exact (throwF_ne_ok _ _ h).elim
      · exact List.IsChain.cons_cons (by omega) (ih h)

/-! ## The order of the entries -/

section Accepted

variable {descriptor : Descriptor} {routing : List RoutingField}

/-- What `getRoutingFields` has done when it accepts a descriptor. -/
theorem getRoutingFields_eq_ok (h : getRoutingFields descriptor = .ok routing) :
    ∃ fields, Collected 0 descriptor.fields fields ∧ routing.Perm fields ∧
      routing.Pairwise fun r s => r.routingPosition < s.routingPosition := by
  unfold getRoutingFields at h
  obtain ⟨fields, hfields, h⟩ := Fallible.bind_eq_ok.1 h
  obtain ⟨⟨⟩, hcheck, h⟩ := Fallible.bind_eq_ok.1 h
  cases h
  exact ⟨fields, collected_of_ok hfields, Ranking.perm_sortBy _ fields,
    pairwise_of_checkContiguous hcheck⟩

/-- A routing field has as many routing fields before it as there are fields
    annotated with a smaller position. -/
theorem Collected.rank_eq {k : ℕ} {fields : List FieldDescriptor}
    (h : Collected k fields routing) (position : ℕ) :
    Ranking.rank (·.routingPosition) position routing =
      fields.countP (·.precedes (position : ℤ)) := by
  have hentry : Ranking.rank (·.routingPosition) position routing =
      routing.countP fun r => r.descriptor.precedes position := by
    apply List.countP_congr
    intro r hr
    obtain ⟨-, -, -, hposition⟩ := h.entry r hr
    unfold FieldDescriptor.precedes
    rw [hposition]
    simp
  have hfilter : (fields.filter (·.routingPosition.isSome)).countP (·.precedes (position : ℤ)) =
      fields.countP (·.precedes (position : ℤ)) := by
    rw [List.countP_filter]
    apply List.countP_congr
    intro field _
    unfold FieldDescriptor.precedes
    cases field.routingPosition with
    | none => simp
    | some own => simp
  rw [hentry, ← hfilter, ← h.descriptors, List.countP_map]
  rfl

/-- **The routing fields come in the order of their positions.** -/
theorem getElem?_routing_iff (h : getRoutingFields descriptor = .ok routing) (i : ℕ)
    (field : FieldDescriptor) :
    (∃ r, routing[i]? = some r ∧ r.descriptor = field) ↔ IsNthRouting descriptor i field := by
  obtain ⟨fields, hcollected, hperm, hsorted⟩ := getRoutingFields_eq_ok h
  have hrank (r : RoutingField) : Ranking.rank (·.routingPosition) r.routingPosition routing =
      descriptor.fields.countP (·.precedes (r.routingPosition : ℤ)) := by
    rw [Ranking.rank_perm hperm]
    exact hcollected.rank_eq r.routingPosition
  constructor
  · rintro ⟨r, hr, rfl⟩
    obtain ⟨hmem, hi⟩ := (Ranking.getElem?_eq_some_iff_rank hsorted i r).1 hr
    obtain ⟨j, -, hj, hposition⟩ := hcollected.entry r (hperm.mem_iff.1 hmem)
    exact ⟨r.routingPosition, List.mem_of_getElem? hj, hposition, by rw [← hrank, hi]⟩
  · rintro ⟨position, hmem, hposition, hi⟩
    obtain ⟨j, hj⟩ := List.getElem?_of_mem hmem
    obtain ⟨r, hr, -, rfl⟩ := hcollected.all j field hj (by rw [hposition]; rfl)
    obtain ⟨-, -, -, hown⟩ := hcollected.entry r hr
    obtain rfl : (r.routingPosition : ℤ) = position := Option.some.inj (hown.symm.trans hposition)
    refine ⟨r, (Ranking.getElem?_eq_some_iff_rank hsorted i r).2 ⟨hperm.mem_iff.2 hr, ?_⟩, rfl⟩
    rw [hrank, hi]

/-- There are as many entries as annotated fields. -/
theorem length_routing (h : getRoutingFields descriptor = .ok routing) :
    routing.length = descriptor.fields.countP (·.routingPosition.isSome) := by
  obtain ⟨fields, hcollected, hperm, -⟩ := getRoutingFields_eq_ok h
  rw [hperm.length_eq, List.countP_eq_length_filter, ← hcollected.descriptors, List.length_map]

/-! ## The two arrays -/

/-- **The array of field descriptors is laid out by number.** -/
theorem getElem?_fieldDescriptors (descriptor : Descriptor) (k : ℕ) (field : FieldDescriptor) :
    (fieldDescriptors descriptor)[k]? = some field ↔ field ∈ descriptor.fields ∧
      Ranking.rank (·.number) field.number descriptor.fields = k := by
  have hperm : (fieldDescriptors descriptor).Perm descriptor.fields :=
    Ranking.perm_sortBy _ descriptor.fields
  have hsorted : (fieldDescriptors descriptor).Pairwise fun f g => f.number < g.number :=
    Ranking.pairwise_lt_sortBy descriptor.numbers_nodup
  rw [Ranking.getElem?_eq_some_iff_rank hsorted, hperm.mem_iff, Ranking.rank_perm hperm]

/-- An entry denotes its own field exactly when the field's number gives it the
    place of its declaration. -/
theorem generatorsAgree_iff_denotes (h : getRoutingFields descriptor = .ok routing) :
    GeneratorsAgree descriptor routing ↔
      ∀ r ∈ routing, (fieldDescriptors descriptor)[r.fieldIndex]? = some r.descriptor := by
  constructor
  · intro hagrees r hr
    obtain ⟨i, hi⟩ := List.getElem?_of_mem hr
    obtain ⟨field, hfield, hnth⟩ := hagrees i
      ((fieldDescriptors descriptor)[r.fieldIndex]?, r.routingPosition)
      (by unfold routingFieldDescriptors; rw [List.getElem?_map, hi]; rfl)
    obtain ⟨s, hs, rfl⟩ := (getElem?_routing_iff h i field).2 hnth
    obtain rfl : r = s := Option.some.inj (hi.symm.trans hs)
    exact hfield
  · intro hdenotes i entry hentry
    unfold routingFieldDescriptors at hentry
    rw [List.getElem?_map] at hentry
    obtain ⟨r, hr, rfl⟩ := Option.map_eq_some_iff.1 hentry
    exact ⟨r.descriptor, hdenotes r (List.mem_of_getElem? hr),
      (getElem?_routing_iff h i r.descriptor).1 ⟨r, hr, rfl⟩⟩

end Accepted

/-- **The generators agree exactly when every routing field is declared where
    its number puts it.** -/
theorem generatorsAgree_iff (descriptor : Descriptor) (routing : List RoutingField)
    (h : getRoutingFields descriptor = .ok routing) :
    GeneratorsAgree descriptor routing ↔ DeclaredInPlace descriptor := by
  obtain ⟨fields, hcollected, hperm, -⟩ := getRoutingFields_eq_ok h
  rw [generatorsAgree_iff_denotes h]
  constructor
  · intro hdenotes k hk hsome
    obtain ⟨r, hr, hindex, hdescriptor⟩ :=
      hcollected.all k descriptor.fields[k] (List.getElem?_eq_getElem hk) hsome
    have hr := hdenotes r (hperm.mem_iff.2 hr)
    rw [hdescriptor, hindex, Nat.zero_add] at hr
    exact ((getElem?_fieldDescriptors descriptor k _).1 hr).2
  · intro hplace r hr
    obtain ⟨j, hindex, hj, hposition⟩ := hcollected.entry r (hperm.mem_iff.1 hr)
    obtain ⟨hlt, heq⟩ := List.getElem?_eq_some_iff.1 hj
    have hrank := hplace j hlt (by rw [heq, hposition]; rfl)
    rw [heq] at hrank
    exact (getElem?_fieldDescriptors descriptor _ _).2
      ⟨List.mem_of_getElem? hj, by rw [hrank, hindex, Nat.zero_add]⟩

/-! ## Two messages -/

/-- `TestRoutableEvent` (`tests/test_routable_event.proto`). -/
def testRoutableEvent : Descriptor where
  fullName := "TestRoutableEvent"
  fields :=
    [⟨"str_field", "TestRoutableEvent.str_field", 1, .required, .string, some 1⟩,
     ⟨"int_field", "TestRoutableEvent.int_field", 2, .optional, .int32, some 3⟩,
     ⟨"bool_field", "TestRoutableEvent.bool_field", 3, .optional, .bool, some 2⟩]
  numbers_nodup := by decide

/-- The message of the repository's test declares its fields in number order. -/
theorem generatorsAgree_testRoutableEvent :
    ∃ routing, getRoutingFields testRoutableEvent = .ok routing ∧
      GeneratorsAgree testRoutableEvent routing :=
  ⟨_, rfl, (generatorsAgree_iff testRoutableEvent _ rfl).2 (by decide)⟩

/-- A message whose routing field `code` is declared first, with number 2. -/
def outOfOrder : Descriptor where
  fullName := "Account"
  fields :=
    [⟨"code", "Account.code", 2, .required, .string, some 1⟩,
     ⟨"name", "Account.name", 1, .required, .string, none⟩]
  numbers_nodup := by decide

/-- The routing entry of `code` denotes `name`. -/
theorem not_always_generatorsAgree : ¬ ∀ descriptor routing,
    getRoutingFields descriptor = .ok routing → GeneratorsAgree descriptor routing := by
  intro h
  obtain ⟨field, hfield, position, -, hposition, -⟩ := h outOfOrder _ rfl 0 _ rfl
  obtain rfl : _ = field := Option.some.inj hfield
  cases hposition

end Cebus.Codegen
