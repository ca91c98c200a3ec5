import Cebus.Codegen.RoutingFields

/-!
# What the check of the routing fields accepts

`getRoutingFields` (`main.cc`) looks at the fields one by one, and then at neighbours in the
sorted list of those that are annotated.

* `collectRoutingFields_eq_ok_iff`: what the loop over the fields accepts and collects.
* `getRoutingFields_iff`: which descriptors are accepted, and what is returned for them.
-/

namespace Cebus.Codegen

/-! ## What should be accepted -/

/-- A field that has a routing position may have one, and has one from 1 on. -/
def WellAnnotated (field : FieldDescriptor) : Prop :=
  ∀ position, field.routingPosition = some position →
    1 ≤ position ∧ field.label ≠ .repeated ∧
      field.type ≠ .message ∧ field.type ≠ .enum ∧ field.type ≠ .group

/-- The routing positions, in the order of the declarations. -/
def positions (fields : List FieldDescriptor) : List ℤ := fields.filterMap (·.routingPosition)

/-- The positions are distinct, and all integers of an interval are among them. -/
def GapFree (positions : List ℤ) : Prop :=
  positions.Nodup ∧ ∃ start, ∀ p, p ∈ positions ↔ start ≤ p ∧ p < start + positions.length

/-- What is returned for the `i`-th field, if it is annotated. -/
def annotatedField (i : ℕ) (field : FieldDescriptor) : Option RoutingField :=
  field.routingPosition.map fun position => ⟨field, i, position.toNat⟩

/-- The annotated fields with the index of their declaration, from the `k`-th field on. -/
def annotated (k : ℕ) (fields : List FieldDescriptor) : List RoutingField :=
  (fields.zipIdx k).filterMap fun declared => annotatedField declared.2 declared.1

/-! ## The loop over the fields -/

variable {descriptor : Descriptor} {field : FieldDescriptor} {fields : List FieldDescriptor}
  {routing : List RoutingField} {i k : ℕ}

theorem isRoutableField_iff : isRoutableField field = true ↔
    field.type ≠ .message ∧ field.type ≠ .enum ∧ field.type ≠ .group := by
  unfold isRoutableField
  cases field.type with
  | _ => simp

/-- **One turn of the loop** accepts a field that is well annotated. -/
theorem routingField_eq_ok_iff {found : Option RoutingField} :
    routingField descriptor i field = .ok found ↔
      WellAnnotated field ∧ found = annotatedField i field := by
  unfold routingField WellAnnotated annotatedField
  cases field.routingPosition with
  | none =>
    rw [Option.map_none]
    constructor
    · intro h
      exact ⟨fun position hsome => absurd hsome.symm (Option.some_ne_none position),
        (Except.ok.inj h).symm⟩
    · exact fun h => congrArg Except.ok h.2.symm
  | some position =>
    simp only [Option.some.injEq, forall_eq', Option.map_some, ← isRoutableField_iff]
    split_ifs with hpos hlabel hroutable
    · exact iff_of_false (throwF_ne_ok _ _) fun h => by omega
    · exact iff_of_false (throwF_ne_ok _ _) fun h => h.1.2.1 hlabel
    · refine iff_of_false (throwF_ne_ok _ _) fun h => ?_
      rw [h.1.2.2] at hroutable
      exact Bool.false_ne_true hroutable
    · have hfield : 1 ≤ position ∧ field.label ≠ .repeated ∧ isRoutableField field = true :=
        ⟨by omega, hlabel, by simpa using hroutable⟩
      rw [and_iff_right hfield, Except.ok.injEq, eq_comm]

theorem annotated_cons (k : ℕ) (field : FieldDescriptor) (fields : List FieldDescriptor) :
    annotated k (field :: fields) =
      (annotatedField k field).toList ++ annotated (k + 1) fields := by
  unfold annotated
  rw [List.zipIdx_cons]
  cases h : annotatedField k field with
  | none => exact List.filterMap_cons_none h
  | some r => exact List.filterMap_cons_some h

/-- **The loop** accepts fields that are all well annotated, and collects the annotated ones. -/
theorem collectRoutingFields_eq_ok_iff :
    collectRoutingFields descriptor k fields = .ok routing ↔
      (∀ field ∈ fields, WellAnnotated field) ∧ routing = annotated k fields := by
  induction fields generalizing k routing with
  | nil =>
    rw [collectRoutingFields, Except.ok.injEq, eq_comm, and_iff_right]
    · rfl
    · exact fun field hmem => absurd hmem List.not_mem_nil
  | cons field fields ih =>
    rw [collectRoutingFields, List.forall_mem_cons, annotated_cons]
    constructor
    · intro h
      obtain ⟨found, hfound, h⟩ := Fallible.bind_eq_ok.1 h
      obtain ⟨others, hothers, h⟩ := Fallible.bind_eq_ok.1 h
      obtain ⟨hfield, rfl⟩ := routingField_eq_ok_iff.mp hfound
      obtain ⟨hfields, rfl⟩ := ih.mp hothers
      exact ⟨⟨hfield, hfields⟩, (Except.ok.inj h).symm⟩
    · rintro ⟨⟨hfield, hfields⟩, rfl⟩
      rw [routingField_eq_ok_iff.mpr ⟨hfield, rfl⟩, Fallible.ok_bind, ih.mpr ⟨hfields, rfl⟩]
      rfl

/-! ## The check of neighbours -/

/-- The check accepts a list in which each position follows on the one before. -/
theorem checkContiguous_eq_ok_iff : checkContiguous descriptor routing = .ok () ↔
    (routing.map fun r => (r.routingPosition : ℤ)).IsChain fun p q => q = p + 1 := by
  induction routing with
  | nil => exact iff_of_true rfl List.IsChain.nil
  | cons previous rest ih =>
    cases rest with
    | nil => exact iff_of_true rfl (List.IsChain.singleton _)
    | cons field rest =>
      rw [List.map_cons] at ih
      rw [checkContiguous, List.map_cons, List.map_cons, List.isChain_cons_cons, ← ih]
      split_ifs with hgap
      · refine iff_of_false (throwF_ne_ok _ _) fun h => hgap ?_
        omega
      · rw [and_iff_right]
        omega

/-- The positions that are collected are those of the fields. -/
theorem map_annotated (h : ∀ field ∈ fields, WellAnnotated field) :
    (annotated k fields).map (fun r => (r.routingPosition : ℤ)) = positions fields := by
  induction fields generalizing k with
  | nil => rfl
  | cons field fields ih =>
    obtain ⟨hfield, hfields⟩ := List.forall_mem_cons.mp h
    have ih := @ih (k + 1) hfields
    unfold positions at ih ⊢
    rw [annotated_cons, List.map_append, ih, annotatedField]
    cases hposition : field.routingPosition with
    | none => exact (List.filterMap_cons_none hposition).symm
    | some position =>
      have hle := (hfield position hposition).1
      have hcast : ((position.toNat : ℕ) : ℤ) = position := Int.toNat_of_nonneg (by omega)
      rw [List.filterMap_cons_some hposition]
      exact congrArg (· :: _) hcast

/-! ## The whole check -/

/-- What is accepted is returned sorted. -/
theorem getRoutingFields_eq_ok_iff : getRoutingFields descriptor = .ok routing ↔
    (∀ field ∈ descriptor.fields, WellAnnotated field) ∧
      routing = Ranking.sortBy (·.routingPosition) (annotated 0 descriptor.fields) ∧
      checkContiguous descriptor routing = .ok () := by
  unfold getRoutingFields
  constructor
  · intro h
    obtain ⟨fields, hfields, h⟩ := Fallible.bind_eq_ok.1 h
    obtain ⟨⟨⟩, hcheck, h⟩ := Fallible.bind_eq_ok.1 h
    obtain ⟨hall, rfl⟩ := collectRoutingFields_eq_ok_iff.mp hfields
    obtain rfl := Except.ok.inj h
    exact ⟨hall, rfl, hcheck⟩
  · rintro ⟨hall, rfl, hcheck⟩
    rw [collectRoutingFields_eq_ok_iff.mpr ⟨hall, rfl⟩, Fallible.ok_bind]
    exact Fallible.bind_eq_ok.mpr ⟨(), hcheck, rfl⟩

/-- The check of neighbours is a check of the positions as a set. -/
theorem checkContiguous_sortBy (h : ∀ field ∈ fields, WellAnnotated field) :
    checkContiguous descriptor (Ranking.sortBy (·.routingPosition) (annotated k fields)) = .ok () ↔
      GapFree (positions fields) := by
  have hperm := (Ranking.perm_sortBy (·.routingPosition) (annotated k fields)).map
    fun r => (r.routingPosition : ℤ)
  have hsorted := List.pairwise_map.mpr
    ((Ranking.pairwise_le_sortBy (·.routingPosition) (annotated k fields)).imp Int.ofNat_le.mpr)
  rw [map_annotated h] at hperm
  rw [checkContiguous_eq_ok_iff, Ranking.isChain_succ_iff_perm hsorted, GapFree,
    ← exists_and_left]
  refine exists_congr fun start => ?_
  rw [← Ranking.perm_interval_iff, hperm.length_eq]
  exact ⟨hperm.symm.trans, hperm.trans⟩

/-- **The check accepts exactly the annotations without gaps**, and returns a permutation of the
    annotated fields in the order of their positions. -/
theorem getRoutingFields_iff (descriptor : Descriptor) :
    ((∃ routing, getRoutingFields descriptor = .ok routing) ↔
      (∀ field ∈ descriptor.fields, WellAnnotated field) ∧
        GapFree (positions descriptor.fields)) ∧
    ∀ routing, getRoutingFields descriptor = .ok routing →
      routing.Perm (annotated 0 descriptor.fields) ∧
        routing.Pairwise fun r s => r.routingPosition < s.routingPosition := by
  constructor
  · constructor
    · rintro ⟨routing, h⟩
      obtain ⟨hall, rfl, hcheck⟩ := getRoutingFields_eq_ok_iff.mp h
      exact ⟨hall, (checkContiguous_sortBy hall).mp hcheck⟩
    · rintro ⟨hall, hgap⟩
      exact ⟨_, getRoutingFields_eq_ok_iff.mpr ⟨hall, rfl, (checkContiguous_sortBy hall).mpr hgap⟩⟩
  · intro routing h
    obtain ⟨-, rfl, hcheck⟩ := getRoutingFields_eq_ok_iff.mp h
    exact ⟨Ranking.perm_sortBy _ _, pairwise_of_checkContiguous hcheck⟩

end Cebus.Codegen
