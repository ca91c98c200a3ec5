import Cebus.Lib.Ranking
import Cebus.ProtobufC.IntRange
import Cebus.Utils.CString
import Mathlib.Data.List.Lex
import Mathlib.Order.Compare

/-!
# Tables of names (`protobuf-c.c`)

The names of fields, methods and constants are sorted by `strcmp`, and three functions of
the library search them by halves.

* `strcmp_eq`: `strcmp` is a linear order.
* `findName_eq`: a name is found at its place.
* `findByIndices_eq`: the same through an array of indices that is sorted by names.
-/

namespace Cebus.ProtobufC

/-! ## `strcmp` -/

/-- `strcmp` on the bytes before the terminators, as unsigned numbers. -/
def strcmpBytes : List UInt8 → List UInt8 → Ordering
  | [], [] => .eq
  | [], _ :: _ => .lt
  | _ :: _, [] => .gt
  | a :: s, b :: t =>
    if a.toNat < b.toNat then .lt else if b.toNat < a.toNat then .gt else strcmpBytes s t

/-- The sign of `strcmp(s, t)`: bytes are compared as unsigned characters. -/
def strcmp (s t : CString) : Ordering := strcmpBytes s.bytes t.bytes

/-- The bytes of a string as numbers. -/
def codes (s : CString) : List ℕ := s.bytes.map UInt8.toNat

theorem codes_injective : Function.Injective codes := by
  intro s t h
  have hbytes : Function.Injective UInt8.toNat := fun a b hab => UInt8.toNat_inj.mp hab
  exact CString.ext (List.map_injective_iff.mpr hbytes h)

instance : LinearOrder CString := LinearOrder.lift' codes codes_injective

theorem compares_strcmpBytes (s t : List UInt8) :
    (strcmpBytes s t).Compares (s.map UInt8.toNat) (t.map UInt8.toNat) := by
  induction s generalizing t with
  | nil =>
    cases t with
    | nil => exact rfl
    | cons b t => exact List.nil_lt_cons _ _
  | cons a s ih =>
    cases t with
    | nil => exact List.nil_lt_cons _ _
    | cons b t =>
      unfold strcmpBytes
      split_ifs with hlt hgt
      · exact List.cons_lt_cons_iff.mpr (Or.inl hlt)
      · exact List.cons_lt_cons_iff.mpr (Or.inl hgt)
      · have hab : a.toNat = b.toNat := by omega
        have hrest := ih t
        cases horder : strcmpBytes s t with
        | lt =>
          rw [horder] at hrest
          exact List.cons_lt_cons_iff.mpr (Or.inr ⟨hab, hrest⟩)
        | eq =>
          rw [horder] at hrest
          show a.toNat :: s.map UInt8.toNat = b.toNat :: t.map UInt8.toNat
          rw [hab, show s.map UInt8.toNat = t.map UInt8.toNat from hrest]
        | gt =>
          rw [horder] at hrest
          exact List.cons_lt_cons_iff.mpr (Or.inr ⟨hab.symm, hrest⟩)

/-- **`strcmp` is a linear order.** -/
theorem strcmp_eq (s t : CString) : strcmp s t = compare s t := by
  have h : (strcmp s t).Compares (codes s) (codes t) := compares_strcmpBytes s.bytes t.bytes
  rw [← h.cmp_eq, cmp_eq_compare]
  rfl

/-! ## Searching for a name -/

/-- The loop of the three functions that search for a name, and what follows it; `nameAt` reads
    the `i`-th of `count` names. -/
def findName (nameAt : ℕ → Except Failure CString) (name : CString) (count : ℕ) :
    Except Failure (Option ℕ) :=
  BinarySearch.search (fun i => do
    let s ← nameAt i
    .ok (strcmp s name)) .fuel (count + 1) 0 count

variable {α : Type} {key : α → CString} {table : List α} {nameAt : ℕ → Except Failure CString}

/-- **A name is found at its place**, if the table is sorted by names that differ. -/
theorem findName_eq (hsorted : table.Pairwise fun a b => key a < key b)
    (hname : ∀ i (hi : i < table.length), nameAt i = .ok (key table[i])) (name : CString) :
    findName nameAt name table.length = .ok (table.findIdx? (key · == name)) := by
  unfold findName
  apply BinarySearch.search_compare hsorted
  · intro i hi
    rw [hname i hi, Fallible.ok_bind, strcmp_eq]
  · omega

/-! ## Indices sorted by names -/

/-- `NameIndex` (`c_helpers.h`). -/
structure NameIndex where
  index : ℕ
  name : CString
deriving DecidableEq

/-- The names with their indices. -/
def nameIndices (names : List CString) : List NameIndex := names.mapIdx fun i name => ⟨i, name⟩

/-- The indices of names, sorted by `compare_name_indices_by_name` (`c_helpers.cc`). -/
def indicesByName (names : List CString) : List ℕ :=
  (Ranking.sortBy (·.name) (nameIndices names)).map (·.index)

/-- `entries[indices[i]].name`. -/
def nameOfIndex (names : List CString) (indices : List ℕ) (i : ℕ) : Except Failure CString :=
  match indices[i]?.bind fun index => names[index]? with
  | some name => .ok name
  | none => .error .wild

/-- The index of the entry with a name. -/
def findByIndices (names : List CString) (indices : List ℕ) (name : CString) :
    Except Failure (Option ℕ) := do
  match ← findName (nameOfIndex names indices) name indices.length with
  | none => .ok none
  | some i =>
    match indices[i]? with
    | none => .error .wild
    | some index => .ok (some index)

variable {names : List CString} {entry : NameIndex}

theorem mem_nameIndices : entry ∈ nameIndices names ↔ names[entry.index]? = some entry.name := by
  unfold nameIndices
  rw [List.mem_mapIdx]
  constructor
  · rintro ⟨i, hi, rfl⟩
    exact List.getElem?_eq_getElem hi
  · intro hentry
    obtain ⟨hi, hname⟩ := List.getElem?_eq_some_iff.mp hentry
    exact ⟨entry.index, hi, by rw [hname]⟩

theorem name_nameIndices (names : List CString) : (nameIndices names).map (·.name) = names := by
  unfold nameIndices
  apply List.ext_getElem
  · simp
  · intro i hi hi'
    simp

/-- **A name is found through its index**, when names differ. -/
theorem findByIndices_eq (hnames : names.Nodup) (name : CString) :
    findByIndices names (indicesByName names) name = .ok (names.idxOf? name) := by
  have hsorted : (Ranking.sortBy (·.name) (nameIndices names)).Pairwise
      fun entry entry' => entry.name < entry'.name := by
    apply Ranking.pairwise_lt_sortBy
    rw [name_nameIndices]
    exact hnames
  have hplace (i : ℕ) (hi : i < (Ranking.sortBy (·.name) (nameIndices names)).length) :
      names[(Ranking.sortBy (·.name) (nameIndices names))[i].index]? =
        some (Ranking.sortBy (·.name) (nameIndices names))[i].name :=
    mem_nameIndices.mp ((Ranking.perm_sortBy _ _).mem_iff.mp (List.getElem_mem hi))
  have hread (i : ℕ) (hi : i < (Ranking.sortBy (·.name) (nameIndices names)).length) :
      nameOfIndex names (indicesByName names) i =
        .ok (Ranking.sortBy (·.name) (nameIndices names))[i].name := by
    unfold nameOfIndex indicesByName
    rw [List.getElem?_map, List.getElem?_eq_getElem hi, Option.map_some, Option.bind_some,
      hplace i hi]
  have hsearch := findName_eq hsorted hread name
  have hlen : (indicesByName names).length =
      (Ranking.sortBy (·.name) (nameIndices names)).length := List.length_map _
  unfold findByIndices
  rw [hlen, hsearch, Fallible.ok_bind]
  cases hfound : (Ranking.sortBy (·.name) (nameIndices names)).findIdx? (·.name == name) with
  | none =>
    have hnone : names.idxOf? name = none := by
      apply List.idxOf?_eq_none_iff.mpr
      intro hmem
      rw [← name_nameIndices names] at hmem
      obtain ⟨entry, hentry, hname⟩ := List.mem_map.mp hmem
      have hother := List.findIdx?_eq_none_iff.mp hfound entry
        ((Ranking.perm_sortBy _ _).mem_iff.mpr hentry)
      exact Bool.eq_false_iff.mp hother (beq_iff_eq.mpr hname)
    rw [hnone]
  | some i =>
    obtain ⟨hi, hname, -⟩ := List.findIdx?_eq_some_iff_getElem.mp hfound
    have hindex := hplace i hi
    rw [eq_of_beq hname] at hindex
    obtain ⟨hlt, hat⟩ := List.getElem?_eq_some_iff.mp hindex
    have hfirst : names.idxOf? name =
        some (Ranking.sortBy (·.name) (nameIndices names))[i].index := by
      refine List.idxOf?_eq_some_iff.mpr ⟨hlt, hat, ?_⟩
      intro j hj hsame
      have heq := (List.Nodup.getElem_inj_iff hnames).mp (hsame.trans hat.symm)
      omega
    have hthere : (indicesByName names)[i]? =
        some (Ranking.sortBy (·.name) (nameIndices names))[i].index := by
      unfold indicesByName
      rw [List.getElem?_map, List.getElem?_eq_getElem hi, Option.map_some]
    simp only [hthere, hfirst]

end Cebus.ProtobufC
