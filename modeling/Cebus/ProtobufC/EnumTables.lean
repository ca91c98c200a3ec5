import Cebus.ProtobufC.NameTable
import Mathlib.Data.Prod.Lex

/-!
# Enumerations in generated code (`c_enum.cc`, `protobuf-c.c`)

`protoc-c` writes three tables for an enumeration: its constants sorted by their numbers,
with the first one of each number, the ranges of these numbers, and the names of all
constants. The library finds a constant by its number or by its name.

* `valueRanges_eq`: the ranges are those of the numbers without repetitions.
* `unique_first`: the constant that is kept is the one that is declared first.
* `getValue_eq`, `enumDescriptor_getValue_iff`: what is found by a number.
* `enumDescriptor_getValueByName`: what is found by a name.
-/

namespace Cebus.ProtobufC

/-- `google::protobuf::EnumValueDescriptor`. -/
structure EnumValueDescriptor where
  name : CString
  number : ℤ
deriving DecidableEq

/-- `ValueIndex` (`c_enum.cc`). -/
structure ValueIndex where
  value : ℤ
  index : ℕ
  finalIndex : ℕ
  name : CString
deriving DecidableEq

/-- `ProtobufCEnumValue`, without the name of the constant in C; NULL is `none`. -/
structure EnumValue where
  name : Option CString
  value : ℤ
deriving DecidableEq

/-- `ProtobufCEnumValueIndex`. -/
structure EnumValueIndex where
  name : CString
  index : ℕ
deriving DecidableEq

/-- `ProtobufCEnumDescriptor`, without the names of the enumeration. -/
structure EnumDescriptor where
  values : List EnumValue
  valuesByName : Option (List EnumValueIndex)
  valueRanges : List IntRange
deriving DecidableEq

/-! ## `protoc-c` -/

/-- `EnumGenerator::GenerateValueInitializer` (`c_enum.cc`, lines 150–165). -/
def generateValueInitializer (optimizeCodeSize : Bool) (vd : EnumValueDescriptor) : EnumValue :=
  if optimizeCodeSize then ⟨none, vd.number⟩ else ⟨some vd.name, vd.number⟩

/-- The loop that fills the array of the constants. -/
def valueIndices (constants : List EnumValueDescriptor) : List ValueIndex :=
  constants.mapIdx fun j vd => ⟨vd.number, j, 0, vd.name⟩

/-- They are sorted by `compare_value_indices_by_value_then_index` (lines 167–176). -/
def sortedIndices (constants : List EnumValueDescriptor) : List ValueIndex :=
  Ranking.sortBy (fun v => toLex (v.value, v.index)) (valueIndices constants)

/-- The constants behind `previous` whose number is not that of the one in front of them. -/
def uniqueFrom (previous : ValueIndex) : List ValueIndex → List ValueIndex
  | [] => []
  | v :: rest => if previous.value ≠ v.value then v :: uniqueFrom v rest else uniqueFrom v rest

/-- The constants that are written. -/
def unique : List ValueIndex → List ValueIndex
  | [] => []
  | v :: rest => v :: uniqueFrom v rest

/-- The loop that counts unique numbers. -/
def finalIndicesFrom (previous : ValueIndex) (nUniqueValues : ℕ) :
    List ValueIndex → List ValueIndex
  | [] => []
  | v :: rest =>
    if previous.value ≠ v.value then
      { v with finalIndex := nUniqueValues } :: finalIndicesFrom v (nUniqueValues + 1) rest
    else { v with finalIndex := nUniqueValues - 1 } :: finalIndicesFrom v nUniqueValues rest

/-- The constants with the index of the one that is written for them. -/
def finalIndices : List ValueIndex → List ValueIndex
  | [] => []
  | v :: rest => { v with finalIndex := 0 } :: finalIndicesFrom v 1 rest

/-- The loop over the ranges, and what follows it. -/
def valueRangesFrom (previous : ValueIndex) (rangeStart rangeLen : ℕ)
    (rangeStartValue lastValue : ℤ) : List ValueIndex → List IntRange
  | [] => [⟨rangeStartValue, rangeStart⟩, ⟨0, rangeStart + rangeLen⟩]
  | v :: rest =>
    if previous.value ≠ v.value then
      if lastValue + 1 = v.value then
        valueRangesFrom v rangeStart (rangeLen + 1) rangeStartValue v.value rest
      else
        ⟨rangeStartValue, rangeStart⟩ ::
          valueRangesFrom v (rangeStart + rangeLen) 1 v.value v.value rest
    else valueRangesFrom v rangeStart rangeLen rangeStartValue lastValue rest

/-- The table of ranges. -/
def valueRanges : List ValueIndex → List IntRange
  | [] => []
  | v :: rest => valueRangesFrom v 0 1 v.value v.value rest

/-- The table of names, sorted by `compare_value_indices_by_name`. -/
def valuesByName (indices : List ValueIndex) : List EnumValueIndex :=
  (Ranking.sortBy (·.name) indices).map fun v => ⟨v.name, v.finalIndex⟩

/-- `EnumGenerator::GenerateEnumDescriptor` (`c_enum.cc`, lines 185–328). -/
def generateEnumDescriptor (optimizeCodeSize : Bool) (constants : List EnumValueDescriptor) :
    EnumDescriptor :=
  let indices := sortedIndices constants
  { values := (unique indices).filterMap fun v =>
      (constants[v.index]?).map (generateValueInitializer optimizeCodeSize)
    valuesByName := if optimizeCodeSize then none else some (valuesByName (finalIndices indices))
    valueRanges := valueRanges indices }

/-! ## Looking up a constant -/

/-- `desc->values + i`, and what is there. -/
def EnumDescriptor.valueAt (desc : EnumDescriptor) (i : ℕ) : Except Failure EnumValue :=
  match desc.values[i]? with
  | some value => .ok value
  | none => .error .wild

/-- `protobuf_c_enum_descriptor_get_value` (lines 3586–3594); NULL is `none`. -/
def EnumDescriptor.getValue (desc : EnumDescriptor) (value : ℤ) :
    Except Failure (Option EnumValue) := do
  match ← intRangeLookup desc.valueRanges value with
  | none => .ok none
  | some rv =>
    let found ← desc.valueAt rv
    .ok (some found)

/-- `desc->values_by_name[i].name`. -/
def nameOfRow (rows : List EnumValueIndex) (i : ℕ) : Except Failure CString :=
  match rows[i]? with
  | some row => .ok row.name
  | none => .error .wild

/-- `protobuf_c_enum_descriptor_get_value_by_name` (lines 3556–3584); NULL is `none`. -/
def EnumDescriptor.getValueByName (desc : EnumDescriptor) (name : CString) :
    Except Failure (Option EnumValue) :=
  match desc.valuesByName with
  | none => .ok none
  | some rows => do
    match ← findName (nameOfRow rows) name rows.length with
    | none => .ok none
    | some i =>
      match rows[i]? with
      | none => .error .wild
      | some row =>
        let found ← desc.valueAt row.index
        .ok (some found)

/-! ## The tables -/

variable {constants : List EnumValueDescriptor} {previous v w : ValueIndex}
variable {rest indices : List ValueIndex}

/-- The numbers do not fall, and the constants with one number are in the order of their
    declarations. -/
def Declared (indices : List ValueIndex) : Prop :=
  indices.Pairwise fun v w => v.value < w.value ∨ v.value = w.value ∧ v.index < w.index

/-- The loop over the ranges makes the table of the numbers without repetitions. -/
theorem valueRangesFrom_eq (rangeStart rangeLen : ℕ) :
    valueRangesFrom previous rangeStart rangeLen (previous.value + 1 - rangeLen) previous.value
      rest =
      rangesFrom previous.value (rangeStart + rangeLen) rangeStart
        ((uniqueFrom previous rest).map (·.value)) := by
  induction rest generalizing previous rangeStart rangeLen with
  | nil =>
    have hlen : rangeStart + rangeLen - rangeStart = rangeLen := by omega
    simp only [valueRangesFrom, uniqueFrom, List.map_nil, rangesFrom, hlen]
  | cons v rest ih =>
    have hlen : rangeStart + rangeLen - rangeStart = rangeLen := by omega
    unfold valueRangesFrom uniqueFrom
    split_ifs with hsame hnext
    · rw [List.map_cons, rangesFrom, if_neg (by rw [ne_eq, not_not]; exact hnext)]
      have hstart : previous.value + 1 - (rangeLen : ℤ) =
          v.value + 1 - ((rangeLen + 1 : ℕ) : ℤ) := by
        push_cast
        omega
      rw [hstart, ih]
      rfl
    · rw [List.map_cons, rangesFrom, if_pos hnext, hlen]
      have hstart : v.value + 1 - ((1 : ℕ) : ℤ) = v.value := by omega
      have htail := @ih v (rangeStart + rangeLen) 1
      rw [hstart] at htail
      rw [htail]
    · rw [ne_eq, not_not] at hsame
      rw [hsame, ih]

theorem valueRanges_eq (indices : List ValueIndex) :
    valueRanges indices = writeIntRanges ((unique indices).map (·.value)) := by
  cases indices with
  | nil => rfl
  | cons v rest =>
    have hstart : v.value + 1 - ((1 : ℕ) : ℤ) = v.value := by omega
    have h := @valueRangesFrom_eq v rest 0 1
    rw [hstart] at h
    exact h

theorem mem_valueIndices : v ∈ valueIndices constants ↔
    v.finalIndex = 0 ∧ constants[v.index]? = some ⟨v.name, v.value⟩ := by
  unfold valueIndices
  rw [List.mem_mapIdx]
  constructor
  · rintro ⟨j, hj, rfl⟩
    exact ⟨rfl, List.getElem?_eq_getElem hj⟩
  · rintro ⟨hzero, hv⟩
    obtain ⟨hj, hvd⟩ := List.getElem?_eq_some_iff.mp hv
    refine ⟨v.index, hj, ?_⟩
    rw [hvd, ← hzero]

theorem mem_sortedIndices : v ∈ sortedIndices constants ↔
    v.finalIndex = 0 ∧ constants[v.index]? = some ⟨v.name, v.value⟩ := by
  unfold sortedIndices
  rw [(Ranking.perm_sortBy _ _).mem_iff, mem_valueIndices]

theorem index_valueIndices (constants : List EnumValueDescriptor) :
    (valueIndices constants).map (·.index) = List.range constants.length := by
  unfold valueIndices
  apply List.ext_getElem
  · simp
  · intro i hi hi'
    simp

theorem declared_sortedIndices (constants : List EnumValueDescriptor) :
    Declared (sortedIndices constants) := by
  have hnodup : ((valueIndices constants).map fun v => toLex (v.value, v.index)).Nodup := by
    have hindex : ((valueIndices constants).map (·.index)).Nodup := by
      rw [index_valueIndices]
      exact List.nodup_range
    apply List.Nodup.of_map (fun key : ℤ ×ₗ ℕ => (ofLex key).2)
    rw [List.map_map]
    exact hindex
  exact (Ranking.pairwise_lt_sortBy hnodup).imp fun h => Prod.Lex.toLex_lt_toLex.mp h

/-! ## Numbers without repetitions -/

/-- No constant with the number is declared in front of `v`. -/
def FirstOf (indices : List ValueIndex) (v : ValueIndex) : Prop :=
  ∀ w ∈ indices, w.value = v.value → v.index ≤ w.index

theorem firstOf_self (h : Declared (v :: rest)) : FirstOf (v :: rest) v := by
  intro w hw hwv
  rcases List.mem_cons.mp hw with rfl | hw
  · exact Nat.le_refl _
  · have hlt := (List.pairwise_cons.mp h).1 w hw
    omega

theorem FirstOf.cons (h : FirstOf rest v) (hlt : w.value < v.value) : FirstOf (w :: rest) v := by
  intro u hu huv
  rcases List.mem_cons.mp hu with rfl | hu
  · omega
  · exact h u hu huv

/-- What is written behind a constant: the first constant of each larger number. -/
theorem mem_uniqueFrom (h : Declared (previous :: rest)) (hv : v ∈ uniqueFrom previous rest) :
    v ∈ rest ∧ previous.value < v.value ∧ FirstOf rest v := by
  induction rest generalizing previous with
  | nil => cases hv
  | cons u rest ih =>
    obtain ⟨hprevious, hrest⟩ := List.pairwise_cons.mp h
    have hle := hprevious u List.mem_cons_self
    unfold uniqueFrom at hv
    split_ifs at hv with hsame
    · rcases List.mem_cons.mp hv with rfl | hv
      · exact ⟨List.mem_cons_self, by omega, firstOf_self hrest⟩
      · obtain ⟨hmem, hlt, hfirst⟩ := ih hrest hv
        exact ⟨List.mem_cons_of_mem u hmem, by omega, hfirst.cons hlt⟩
    · obtain ⟨hmem, hlt, hfirst⟩ := ih hrest hv
      exact ⟨List.mem_cons_of_mem u hmem, by omega, hfirst.cons hlt⟩

theorem pairwise_uniqueFrom (h : Declared (previous :: rest)) :
    (uniqueFrom previous rest).Pairwise fun v w => v.value < w.value := by
  induction rest generalizing previous with
  | nil => exact List.Pairwise.nil
  | cons u rest ih =>
    have hrest := (List.pairwise_cons.mp h).2
    unfold uniqueFrom
    split_ifs with hsame
    · exact List.pairwise_cons.mpr ⟨fun v hv => (mem_uniqueFrom hrest hv).2.1, ih hrest⟩
    · exact ih hrest

/-- **The constant that is written** for a number is the one that is declared first. -/
theorem unique_first (h : Declared indices) (hv : v ∈ unique indices) :
    v ∈ indices ∧ FirstOf indices v := by
  cases indices with
  | nil => cases hv
  | cons u rest =>
    rcases List.mem_cons.mp hv with rfl | hv
    · exact ⟨List.mem_cons_self, firstOf_self h⟩
    · obtain ⟨hmem, hlt, hfirst⟩ := mem_uniqueFrom h hv
      exact ⟨List.mem_cons_of_mem u hmem, hfirst.cons hlt⟩

theorem pairwise_unique (h : Declared indices) :
    (unique indices).Pairwise fun v w => v.value < w.value := by
  cases indices with
  | nil => exact List.Pairwise.nil
  | cons u rest =>
    exact List.pairwise_cons.mpr ⟨fun v hv => (mem_uniqueFrom h hv).2.1, pairwise_uniqueFrom h⟩

/-- The final index of each constant is that of the constant which is written for its number,
    when those in `done` have been written. -/
theorem finalIndicesFrom_value {done : List ValueIndex} {last : ValueIndex}
    (hlast : done[done.length - 1]? = some last) (hvalue : last.value = previous.value)
    (hv : v ∈ finalIndicesFrom previous done.length rest) :
    ∃ w, (done ++ uniqueFrom previous rest)[v.finalIndex]? = some w ∧ w.value = v.value := by
  induction rest generalizing previous done last with
  | nil => cases hv
  | cons u rest ih =>
    unfold finalIndicesFrom at hv
    unfold uniqueFrom
    split_ifs at hv ⊢ with hsame
    · have hsplit : done ++ u :: uniqueFrom u rest = (done ++ [u]) ++ uniqueFrom u rest := by simp
      rcases List.mem_cons.mp hv with rfl | hv
      · exact ⟨u, by simp, rfl⟩
      · rw [hsplit]
        have hlen : (done ++ [u]).length = done.length + 1 := by simp
        rw [← hlen] at hv
        exact ih (by simp) rfl hv
    · rw [ne_eq, not_not] at hsame
      rcases List.mem_cons.mp hv with rfl | hv
      · obtain ⟨hlt, -⟩ := List.getElem?_eq_some_iff.mp hlast
        refine ⟨last, ?_, by show last.value = u.value; omega⟩
        show (done ++ uniqueFrom u rest)[done.length - 1]? = some last
        rw [List.getElem?_append_left hlt, hlast]
      · exact ih hlast (by omega) hv

theorem finalIndices_value (hv : v ∈ finalIndices indices) :
    ∃ w, (unique indices)[v.finalIndex]? = some w ∧ w.value = v.value := by
  cases indices with
  | nil => cases hv
  | cons u rest =>
    rcases List.mem_cons.mp hv with rfl | hv
    · exact ⟨u, rfl, rfl⟩
    · exact @finalIndicesFrom_value u v rest [u] u rfl rfl hv

/-- A constant without its final index. -/
def ValueIndex.constant (v : ValueIndex) : EnumValueDescriptor := ⟨v.name, v.value⟩

theorem constant_finalIndicesFrom (nUniqueValues : ℕ) :
    (finalIndicesFrom previous nUniqueValues rest).map (·.constant) =
      rest.map (·.constant) := by
  induction rest generalizing previous nUniqueValues with
  | nil => rfl
  | cons u rest ih =>
    unfold finalIndicesFrom
    split_ifs with hsame
    · rw [List.map_cons, ih]
      rfl
    · rw [List.map_cons, ih]
      rfl

theorem constant_finalIndices (indices : List ValueIndex) :
    (finalIndices indices).map (·.constant) = indices.map (·.constant) := by
  cases indices with
  | nil => rfl
  | cons u rest =>
    unfold finalIndices
    rw [List.map_cons, constant_finalIndicesFrom]
    rfl

theorem perm_constant (constants : List EnumValueDescriptor) :
    ((sortedIndices constants).map (·.constant)).Perm constants := by
  have hall : (valueIndices constants).map (·.constant) = constants := by
    unfold valueIndices
    apply List.ext_getElem
    · simp
    · intro i hi hi'
      simp [ValueIndex.constant]
  have hperm := (Ranking.perm_sortBy (fun v => toLex (v.value, v.index))
    (valueIndices constants)).map (·.constant)
  rw [hall] at hperm
  exact hperm

/-! ## What is found -/

section

variable {optimizeCodeSize : Bool}

theorem mem_of_unique (hv : v ∈ unique (sortedIndices constants)) :
    constants[v.index]? = some v.constant :=
  (mem_sortedIndices.mp (unique_first (declared_sortedIndices constants) hv).1).2

/-- The first constant with the number of one that is written. -/
theorem find?_number (hv : v ∈ unique (sortedIndices constants)) :
    constants.find? (·.number == v.value) = some v.constant := by
  obtain ⟨hi, hvd⟩ := List.getElem?_eq_some_iff.mp (mem_of_unique hv)
  refine List.find?_eq_some_iff_getElem.mpr ⟨beq_self_eq_true v.value, v.index, hi, hvd, ?_⟩
  intro j hj
  have hj' : j < constants.length := by omega
  have hearlier : ⟨constants[j].number, j, 0, constants[j].name⟩ ∈ sortedIndices constants :=
    mem_sortedIndices.mpr ⟨rfl, List.getElem?_eq_getElem hj'⟩
  have hfirst := (unique_first (declared_sortedIndices constants) hv).2 _ hearlier
  rw [Bool.not_eq_true', beq_eq_false_iff_ne]
  intro hsame
  have hle : v.index ≤ j := hfirst hsame
  omega

/-- A constant that is declared has one that is written for its number. -/
theorem exists_unique_value {vd : EnumValueDescriptor} (hvd : vd ∈ constants) :
    ∃ v ∈ unique (sortedIndices constants), v.value = vd.number := by
  have hmem : vd ∈ (finalIndices (sortedIndices constants)).map (·.constant) := by
    rw [constant_finalIndices]
    exact (perm_constant constants).mem_iff.mpr hvd
  obtain ⟨u, hu, rfl⟩ := List.mem_map.mp hmem
  obtain ⟨w, hw, hvalue⟩ := finalIndices_value hu
  exact ⟨w, List.mem_of_getElem? hw, hvalue⟩

theorem values_eq (constants : List EnumValueDescriptor) :
    (generateEnumDescriptor optimizeCodeSize constants).values =
      (unique (sortedIndices constants)).map fun v =>
        generateValueInitializer optimizeCodeSize v.constant := by
  rw [← List.filterMap_eq_map]
  apply List.filterMap_congr
  intro v hv
  rw [mem_of_unique hv]
  rfl

theorem valueAt_eq {i : ℕ} (hw : (unique (sortedIndices constants))[i]? = some w) :
    (generateEnumDescriptor optimizeCodeSize constants).valueAt i =
      .ok (generateValueInitializer optimizeCodeSize w.constant) := by
  unfold EnumDescriptor.valueAt
  rw [values_eq, List.getElem?_map, hw]
  rfl

theorem length_uniqueFrom_le : (uniqueFrom previous rest).length ≤ rest.length := by
  induction rest generalizing previous with
  | nil => exact Nat.le_refl 0
  | cons u rest ih =>
    unfold uniqueFrom
    split_ifs with hsame
    · exact Nat.succ_le_succ ih
    · exact Nat.le_succ_of_le ih

theorem length_unique_le (constants : List EnumValueDescriptor) :
    (unique (sortedIndices constants)).length ≤ constants.length := by
  have hlen := (perm_constant constants).length_eq
  rw [List.length_map] at hlen
  rw [← hlen]
  cases sortedIndices constants with
  | nil => exact Nat.le_refl 0
  | cons u rest => exact Nat.succ_le_succ length_uniqueFrom_le

/-- The numbers that are written. -/
theorem rising_unique (hint : ∀ vd ∈ constants, -2 ^ 31 ≤ vd.number ∧ vd.number + 1 < 2 ^ 31)
    (hlength : constants.length < 2 ^ 31) :
    Rising ((unique (sortedIndices constants)).map (·.value)) := by
  have hnumber (n : ℤ) (hn : n ∈ (unique (sortedIndices constants)).map (·.value)) :
      -2 ^ 31 ≤ n ∧ n + 1 < 2 ^ 31 := by
    obtain ⟨v, hv, rfl⟩ := List.mem_map.mp hn
    exact hint v.constant (List.mem_of_getElem? (mem_of_unique hv))
  refine ⟨?_, fun n hn => (hnumber n hn).1, fun n hn => (hnumber n hn).2, ?_⟩
  · exact List.pairwise_map.mpr (pairwise_unique (declared_sortedIndices constants))
  · rw [List.length_map]
    exact Nat.lt_of_le_of_lt (length_unique_le constants) hlength

/-- **What is found by a number**: the first constant that is declared with it. -/
theorem getValue_eq (hint : ∀ vd ∈ constants, -2 ^ 31 ≤ vd.number ∧ vd.number + 1 < 2 ^ 31)
    (hlength : constants.length < 2 ^ 31) (value : ℤ) :
    (generateEnumDescriptor optimizeCodeSize constants).getValue value =
      .ok ((constants.find? (·.number == value)).map
        (generateValueInitializer optimizeCodeSize)) := by
  have hlookup := intRangeLookup_eq (rising_unique hint hlength) value
  rw [← valueRanges_eq] at hlookup
  unfold EnumDescriptor.getValue
  show (intRangeLookup (valueRanges (sortedIndices constants)) value >>= _) = _
  rw [hlookup, Fallible.ok_bind]
  cases hfound : ((unique (sortedIndices constants)).map (·.value)).idxOf? value with
  | none =>
    have hnone : constants.find? (·.number == value) = none := by
      apply List.find?_eq_none.mpr
      intro vd hvd heq
      obtain ⟨v, hv, hvalue⟩ := exists_unique_value hvd
      apply List.idxOf?_eq_none_iff.mp hfound
      rw [← eq_of_beq heq, ← hvalue]
      exact List.mem_map_of_mem hv
    rw [hnone]
    rfl
  | some i =>
    obtain ⟨hi, hvalue, -⟩ := List.findIdx?_eq_some_iff_getElem.mp hfound
    have hi' : i < (unique (sortedIndices constants)).length := by simpa using hi
    rw [List.getElem_map] at hvalue
    have hfirst := find?_number (List.getElem_mem hi')
    rw [eq_of_beq hvalue] at hfirst
    simp only [valueAt_eq (List.getElem?_eq_getElem hi'), Fallible.ok_bind, hfirst]
    rfl

/-- **When the lookup by number works**: each number gives the first constant that is declared
    with it, and no constant if there is none, exactly when no number is the largest `int`. -/
theorem enumDescriptor_getValue_iff
    (hint : ∀ vd ∈ constants, -2 ^ 31 ≤ vd.number ∧ vd.number < 2 ^ 31)
    (hlength : constants.length < 2 ^ 31) :
    (∀ value, (generateEnumDescriptor optimizeCodeSize constants).getValue value =
      .ok ((constants.find? (·.number == value)).map
        (generateValueInitializer optimizeCodeSize))) ↔
      ∀ vd ∈ constants, vd.number ≠ 2 ^ 31 - 1 := by
  constructor
  · intro h vd hvd hmax
    have hget := h (2 ^ 31 - 1)
    have hsome : (constants.find? (·.number == 2 ^ 31 - 1)).isSome :=
      List.find?_isSome.mpr ⟨vd, hvd, beq_iff_eq.mpr hmax⟩
    obtain ⟨first, hfirst⟩ := Option.isSome_iff_exists.mp hsome
    rw [hfirst, Option.map_some] at hget
    unfold EnumDescriptor.getValue at hget
    obtain ⟨found, hfound, hget⟩ := Fallible.bind_eq_ok.mp hget
    cases found with
    | none => cases hget
    | some i => exact intRangeLookup_intMax hfound
  · intro hmax
    refine getValue_eq (fun vd hvd => ?_) hlength
    have hvd' := hint vd hvd
    have hne := hmax vd hvd
    omega

/-! ## What is found by a name -/

theorem mem_valuesByName {row : EnumValueIndex} :
    row ∈ valuesByName indices ↔ ∃ v ∈ indices, v.name = row.name ∧ v.finalIndex = row.index := by
  unfold valuesByName
  rw [List.mem_map]
  constructor
  · rintro ⟨v, hv, rfl⟩
    exact ⟨v, (Ranking.perm_sortBy _ indices).mem_iff.mp hv, rfl, rfl⟩
  · rintro ⟨v, hv, hname, hindex⟩
    refine ⟨v, (Ranking.perm_sortBy _ indices).mem_iff.mpr hv, ?_⟩
    rw [hname, hindex]

theorem pairwise_valuesByName (hnames : (indices.map (·.name)).Nodup) :
    (valuesByName indices).Pairwise fun row row' => row.name < row'.name := by
  unfold valuesByName
  rw [List.pairwise_map]
  exact Ranking.pairwise_lt_sortBy hnames

theorem nodup_finalIndices (hnames : (constants.map (·.name)).Nodup) :
    ((finalIndices (sortedIndices constants)).map (·.name)).Nodup := by
  have hconstant : (finalIndices (sortedIndices constants)).map (·.name) =
      ((sortedIndices constants).map (·.constant)).map (·.name) := by
    rw [← constant_finalIndices, List.map_map]
    rfl
  rw [hconstant]
  exact ((perm_constant constants).map (·.name)).nodup_iff.mpr hnames

/-- **What is found by a name**: the constant that is declared first with the number of the
    one that has the name; nothing, if names are left out to save space. -/
theorem enumDescriptor_getValueByName (hnames : (constants.map (·.name)).Nodup) (name : CString) :
    (generateEnumDescriptor optimizeCodeSize constants).getValueByName name =
      .ok (if optimizeCodeSize then none else
        (constants.find? (·.name == name)).bind fun vd =>
          (constants.find? (·.number == vd.number)).map (generateValueInitializer false)) := by
  cases optimizeCodeSize with
  | true => rfl
  | false =>
    have hsearch := @findName_eq _ (·.name) (valuesByName (finalIndices (sortedIndices constants)))
      (nameOfRow (valuesByName (finalIndices (sortedIndices constants))))
      (pairwise_valuesByName (nodup_finalIndices hnames))
      (fun i hi => by unfold nameOfRow; rw [List.getElem?_eq_getElem hi]) name
    unfold EnumDescriptor.getValueByName
    show (findName _ _ _ >>= _) = _
    rw [hsearch, Fallible.ok_bind]
    cases hfound : (valuesByName (finalIndices (sortedIndices constants))).findIdx?
        (·.name == name) with
    | none =>
      have hnone : constants.find? (·.name == name) = none := by
        apply List.find?_eq_none.mpr
        intro vd hvd heq
        have hmem : vd ∈ (finalIndices (sortedIndices constants)).map (·.constant) := by
          rw [constant_finalIndices]
          exact (perm_constant constants).mem_iff.mpr hvd
        obtain ⟨v, hv, rfl⟩ := List.mem_map.mp hmem
        have hrow := List.findIdx?_eq_none_iff.mp hfound ⟨v.name, v.finalIndex⟩
          (mem_valuesByName.mpr ⟨v, hv, rfl, rfl⟩)
        exact Bool.eq_false_iff.mp hrow heq
      rw [hnone]
      rfl
    | some i =>
      obtain ⟨hi, hname, -⟩ := List.findIdx?_eq_some_iff_getElem.mp hfound
      obtain ⟨v, hv, hvname, hindex⟩ := mem_valuesByName.mp (List.getElem_mem hi)
      obtain ⟨w, hw, hvalue⟩ := finalIndices_value hv
      have hvd : v.constant ∈ constants := by
        have hmem := List.mem_map_of_mem (f := ValueIndex.constant) hv
        rw [constant_finalIndices] at hmem
        exact (perm_constant constants).mem_iff.mp hmem
      have hconstant : constants.find? (·.name == name) = some v.constant := by
        rw [← eq_of_beq hname, ← hvname]
        exact BinarySearch.find?_eq_of_nodup hnames hvd
      have hfirst : constants.find? (·.number == v.constant.number) = some w.constant := by
        show constants.find? (·.number == v.value) = some w.constant
        rw [← hvalue]
        exact find?_number (List.mem_of_getElem? hw)
      rw [hindex] at hw
      simp only [List.getElem?_eq_getElem hi, valueAt_eq hw, Fallible.ok_bind, hconstant,
        Option.bind_some, hfirst]
      rfl

end

/-- An enumeration with two names for a number, and with the largest number. -/
def sampleConstants : List EnumValueDescriptor :=
  [⟨CString.ofChars "OTHER".toList, 7⟩, ⟨CString.ofChars "FIRST".toList, -1⟩,
    ⟨CString.ofChars "ALIAS".toList, 7⟩, ⟨CString.ofChars "LAST".toList, 2 ^ 31 - 1⟩]

theorem enumDescriptor_getValue_iff_sample :
    (∀ value, (generateEnumDescriptor false (sampleConstants.take 3)).getValue value =
      .ok (((sampleConstants.take 3).find? (·.number == value)).map
        (generateValueInitializer false))) ∧
      ¬∀ value, (generateEnumDescriptor false sampleConstants).getValue value =
        .ok ((sampleConstants.find? (·.number == value)).map (generateValueInitializer false)) :=
  ⟨(enumDescriptor_getValue_iff (by decide) (by decide)).mpr (by decide),
    mt (enumDescriptor_getValue_iff (by decide) (by decide)).mp (by decide)⟩

theorem enumDescriptor_getValueByName_alias :
    (generateEnumDescriptor false sampleConstants).getValueByName
        (CString.ofChars "ALIAS".toList) =
      .ok (some ⟨some (CString.ofChars "OTHER".toList), 7⟩) :=
  enumDescriptor_getValueByName (by decide) _

end Cebus.ProtobufC
