import Cebus.Lib.BinarySearch
import Mathlib.Algebra.Group.Int.Defs
import Mathlib.Algebra.Group.Nat.Defs
import Mathlib.Data.Int.Notation
import Mathlib.Data.Int.Order.Basic
import Mathlib.Data.List.Basic

/-!
# Tables of numbers (`c_helpers.cc`, `protobuf-c.c`)

`protoc-c` writes the numbers of the fields of a message as a table of ranges, and the
library finds the index of a field in it.

* `tabulates_writeIntRanges`: each range of the table is a run of consecutive numbers.
* `intRangeLookup_iff`: the index that is found is that of the number, if it has one,
  and nothing outside of the table is read.
* `intRangeLookup_eq`: the same as an equation.
* `intRangeLookup_intMax`: the largest `int` is never found.
-/

namespace Cebus.ProtobufC

/-- What goes wrong: the library answers NULL, memory is read or written outside of an
    array, an assertion does not hold, a sum of two `int`s is none, or a recursion of the
    model goes deeper than it may. -/
inductive Failure where
  | invalid | wild | abort | overflow | fuel
deriving DecidableEq

/-- `ProtobufCIntRange` (`protobuf-c.h`). -/
structure IntRange where
  startValue : ℤ
  origIndex : ℕ
deriving DecidableEq

/-- What an `int` holds of a number. -/
def int32 (z : ℤ) : ℤ := z.bmod (2 ^ 32)

/-- The sum of two `int`s. -/
def addInt (y z : ℤ) : Except Failure ℤ :=
  if int32 (y + z) = y + z then .ok (y + z) else .error .overflow

/-! ## Writing a table -/

/-- The loop of `WriteIntRanges` and what follows it (lines 366–388) from the index `i`
    on, behind the number `prev`. -/
def rangesFrom (prev : ℤ) (i lastRangeStart : ℕ) : List ℤ → List IntRange
  | [] => [⟨prev + 1 - (i - lastRangeStart : ℕ), lastRangeStart⟩, ⟨0, i⟩]
  | value :: values =>
    if prev + 1 ≠ value then
      ⟨prev + 1 - (i - lastRangeStart : ℕ), lastRangeStart⟩ :: rangesFrom value (i + 1) i values
    else rangesFrom value (i + 1) lastRangeStart values

/-- `WriteIntRanges` (lines 352–395). -/
def writeIntRanges : List ℤ → List IntRange
  | [] => []
  | value :: values => rangesFrom value 1 0 values

/-! ## Looking up a number -/

/-- `ranges[i]`. -/
def rangeAt (ranges : List IntRange) (i : ℕ) : Except Failure IntRange :=
  match ranges[i]? with
  | some range => .ok range
  | none => .error .wild

/-- The loop of `int_range_lookup` (lines 2037–2052) and what follows it. -/
def lookupLoop (ranges : List IntRange) (value : ℤ) : ℕ → ℕ → ℕ → Except Failure (Option ℕ)
  | 0, _, _ => .error .fuel
  | fuel + 1, start, n =>
    if 1 < n then do
      let mid := start + n / 2
      let range ← rangeAt ranges mid
      if value < range.startValue then lookupLoop ranges value fuel start (mid - start)
      else
        let next ← rangeAt ranges (mid + 1)
        let bound ← addInt range.startValue (int32 (next.origIndex - range.origIndex))
        if bound ≤ value then
          lookupLoop ranges value fuel (mid + 1) (start + n - (mid + 1))
        else .ok (some ((value - range.startValue).toNat + range.origIndex))
    else if 0 < n then do
      let range ← rangeAt ranges start
      let next ← rangeAt ranges (start + 1)
      let rangeSize : ℤ := next.origIndex - range.origIndex
      if range.startValue ≤ value ∧ value < int32 (range.startValue + rangeSize) then
        .ok (some ((value - range.startValue).toNat + range.origIndex))
      else .ok none
    else .ok none

/-- `int_range_lookup` (lines 2027–2066); -1 is `none`. The number of ranges does not
    count the last row of the table. -/
def intRangeLookup (ranges : List IntRange) (value : ℤ) : Except Failure (Option ℕ) :=
  if ranges.length - 1 = 0 then .ok none
  else lookupLoop ranges value (ranges.length + 1) 0 (ranges.length - 1)

/-! ## Tables -/

variable {values : List ℤ} {ranges : List IntRange} {value : ℤ} {i k n start fuel : ℕ}

/-- The numbers from the index `lastRangeStart` on are those of the ranges, one range after the
    other, and the last row holds how many numbers there are. -/
structure Tabulates (ranges : List IntRange) (values : List ℤ) (lastRangeStart : ℕ) : Prop where
  nonempty : 2 ≤ ranges.length
  first : ∀ r, ranges[0]? = some r → r.origIndex = lastRangeStart
  last : ∀ r, ranges[ranges.length - 1]? = some r → r.origIndex = values.length
  run : ∀ (k : ℕ) r s, ranges[k]? = some r → ranges[k + 1]? = some s →
    r.origIndex < s.origIndex ∧
      ∀ j, r.origIndex ≤ j → j < s.origIndex →
        values[j]? = some (r.startValue + (j - r.origIndex : ℕ))

/-- The rows from the index `i` on, when the numbers since `lastRangeStart` are
    consecutive. -/
theorem tabulates_rangesFrom {done rest : List ℤ} {prev : ℤ} {lastRangeStart : ℕ}
    (hlt : lastRangeStart < done.length)
    (hrun : ∀ j, lastRangeStart ≤ j → j < done.length →
      done[j]? = some (prev + 1 - (done.length - j : ℕ))) :
    Tabulates (rangesFrom prev done.length lastRangeStart rest) (done ++ rest)
      lastRangeStart := by
  induction rest generalizing done prev lastRangeStart with
  | nil =>
    rw [List.append_nil]
    refine ⟨Nat.le_refl 2, ?_, ?_, ?_⟩
    · rintro r ⟨⟩
      rfl
    · rintro r ⟨⟩
      rfl
    · intro k r s hr hs
      match k, hr, hs with
      | 0, hr, hs =>
        obtain rfl := Option.some.inj hr
        obtain rfl := Option.some.inj hs
        refine ⟨hlt, fun j hj hj' => ?_⟩
        rw [hrun j hj hj', Option.some.injEq]
        dsimp only at hj hj' ⊢
        omega
  | cons value rest ih =>
    have hsplit : done ++ value :: rest = (done ++ [value]) ++ rest := by simp
    have hlen : (done ++ [value]).length = done.length + 1 := by simp
    rw [rangesFrom]
    split_ifs with hgap
    · have htail := @ih (done ++ [value]) value done.length
        (by rw [hlen]; omega) (fun j hj hj' => by
          obtain rfl : j = done.length := by omega
          rw [hlen, List.getElem?_concat_length]
          simp)
      rw [hlen, ← hsplit] at htail
      have hge := htail.nonempty
      refine ⟨by rw [List.length_cons]; omega, ?_, ?_, ?_⟩
      · rintro r ⟨⟩
        rfl
      · intro r hr
        rw [List.length_cons, Nat.add_sub_cancel] at hr
        obtain ⟨m, hm⟩ := Nat.exists_eq_add_of_le' hge
        rw [hm, List.getElem?_cons_succ] at hr
        exact htail.last r (by rw [hm]; exact hr)
      · intro k r s hr hs
        cases k with
        | zero =>
          obtain rfl := Option.some.inj hr
          rw [Nat.zero_add, List.getElem?_cons_succ] at hs
          have hs' := htail.first s hs
          refine ⟨by simp only; omega, fun j hj hj' => ?_⟩
          simp only at hj
          rw [List.getElem?_append_left (by omega), hrun j hj (by omega)]
          simp only [Option.some.injEq]
          omega
        | succ k =>
          rw [List.getElem?_cons_succ] at hr hs
          exact htail.run k r s hr hs
    · have hnext : value = prev + 1 := by
        rw [ne_eq, not_not] at hgap
        exact hgap.symm
      have htail := @ih (done ++ [value]) value lastRangeStart
        (by rw [hlen]; omega) (fun j hj hj' => by
          rw [hlen] at hj' ⊢
          by_cases hj'' : j < done.length
          · rw [List.getElem?_append_left hj'', hrun j hj hj'']
            simp only [Option.some.injEq]
            omega
          · obtain rfl : j = done.length := by omega
            rw [List.getElem?_concat_length]
            simp)
      rw [hlen, ← hsplit] at htail
      exact htail

/-- **What `WriteIntRanges` writes.** -/
theorem tabulates_writeIntRanges (hne : values ≠ []) :
    Tabulates (writeIntRanges values) values 0 := by
  cases values with
  | nil => exact absurd rfl hne
  | cons value values =>
    have hrun (j : ℕ) (_ : 0 ≤ j) (hj : j < [value].length) :
        [value][j]? = some (value + 1 - ([value].length - j : ℕ)) := by
      obtain rfl : j = 0 := by simpa using hj
      simp
    exact tabulates_rangesFrom Nat.one_pos hrun

/-! ## Searching -/

theorem rangeAt_eq (h : i < ranges.length) : rangeAt ranges i = .ok ranges[i] := by
  rw [rangeAt, List.getElem?_eq_getElem h]

/-- A sum in the range of an `int`. -/
theorem int32_eq {z : ℤ} (hlo : -2 ^ 31 ≤ z) (hhi : z < 2 ^ 31) : int32 z = z :=
  Int.bmod_eq_of_le (by simpa using hlo) (by simpa using hhi)

theorem int32_lt (z : ℤ) : int32 z < 2 ^ 31 := by
  have hlt := Int.bmod_lt (x := z) (show 0 < 2 ^ 32 by decide)
  rw [int32]
  omega

theorem addInt_eq {y z : ℤ} (hlo : -2 ^ 31 ≤ y + z) (hhi : y + z < 2 ^ 31) :
    addInt y z = .ok (y + z) := by
  rw [addInt, if_pos (int32_eq hlo hhi)]

/-- The numbers are those of fields or of constants of an enumeration: they rise, the one
    behind the last one is an `int` as well, and so is how many there are. -/
structure Rising (values : List ℤ) : Prop where
  sorted : values.Pairwise (· < ·)
  lower : ∀ v ∈ values, -2 ^ 31 ≤ v
  upper : ∀ v ∈ values, v + 1 < 2 ^ 31
  length : values.length < 2 ^ 31

/-- Numbers that rise are not more than there is room for. -/
theorem length_le_of_pairwise {lo hi : ℤ} (hle : lo ≤ hi) (hsorted : values.Pairwise (· < ·))
    (hbetween : ∀ v ∈ values, lo ≤ v ∧ v < hi) : (values.length : ℤ) ≤ hi - lo := by
  induction values generalizing lo with
  | nil =>
    rw [List.length_nil]
    omega
  | cons v values ih =>
    obtain ⟨hfirst, hrest⟩ := List.pairwise_cons.mp hsorted
    obtain ⟨hv, hv'⟩ := hbetween v List.mem_cons_self
    have hlen := @ih (v + 1) (by omega) hrest fun w hw =>
      ⟨hfirst w hw, (hbetween w (List.mem_cons_of_mem v hw)).2⟩
    rw [List.length_cons]
    omega

theorem Rising.lt (h : Rising values) {j : ℕ} {v w : ℤ} (hv : values[i]? = some v)
    (hw : values[j]? = some w) : v < w ↔ i < j := by
  obtain ⟨hi, rfl⟩ := List.getElem?_eq_some_iff.mp hv
  obtain ⟨hj, rfl⟩ := List.getElem?_eq_some_iff.mp hw
  have hrise := List.pairwise_iff_getElem.mp h.sorted
  constructor
  · intro hlt
    by_contra hle
    obtain rfl | hlt' := Nat.eq_or_lt_of_le (Nat.not_lt.mp hle)
    · omega
    · have hgt := hrise j i hj hi hlt'
      omega
  · exact hrise i j hi hj

/-- On which side of a range a number lies. -/
def side (ranges : List IntRange) (value : ℤ) (k : ℕ) : Ordering :=
  match ranges[k]?, ranges[k + 1]? with
  | some range, some next =>
    if value < range.startValue then .gt
    else if range.startValue + (next.origIndex - range.origIndex : ℤ) ≤ value then .lt
    else .eq
  | _, _ => .gt

/-- The index of a number of the `k`-th range. -/
def place (ranges : List IntRange) (value : ℤ) (k : ℕ) : ℕ :=
  ranges[k]?.elim 0 fun range => (value - range.startValue).toNat + range.origIndex

theorem side_eq (hk : k + 1 < ranges.length) : side ranges value k =
    if value < ranges[k].startValue then .gt
    else if ranges[k].startValue + (ranges[k + 1].origIndex - ranges[k].origIndex : ℤ) ≤ value
    then .lt else .eq := by
  rw [side, List.getElem?_eq_getElem (show k < ranges.length by omega),
    List.getElem?_eq_getElem hk]

theorem place_eq (hk : k < ranges.length) :
    place ranges value k = (value - ranges[k].startValue).toNat + ranges[k].origIndex := by
  rw [place, List.getElem?_eq_getElem hk, Option.elim_some]

section

variable (h : Tabulates ranges values 0)
include h

theorem Tabulates.mono {m : ℕ} (hk : k ≤ m) (hm : m < ranges.length) :
    ranges[k].origIndex ≤ ranges[m].origIndex := by
  induction m with
  | zero =>
    obtain rfl : k = 0 := by omega
    exact Nat.le_refl _
  | succ m ih =>
    rcases Nat.lt_or_eq_of_le hk with hlt | rfl
    · have hrow := h.run m ranges[m] ranges[m + 1] (List.getElem?_eq_getElem _)
        (List.getElem?_eq_getElem _)
      exact Nat.le_trans (ih (by omega) (by omega)) (Nat.le_of_lt hrow.1)
    · exact Nat.le_refl _

/-- The range with an index. -/
theorem Tabulates.exists_row {m : ℕ} (hm : m < ranges.length) (hi : i < ranges[m].origIndex) :
    ∃ (k : ℕ) (hk : k + 1 < ranges.length),
      ranges[k].origIndex ≤ i ∧ i < ranges[k + 1].origIndex := by
  induction m with
  | zero =>
    have hfirst := h.first _ (List.getElem?_eq_getElem hm)
    omega
  | succ m ih =>
    by_cases hbelow : i < ranges[m].origIndex
    · exact ih (by omega) hbelow
    · exact ⟨m, hm, Nat.not_lt.mp hbelow, hi⟩

/-- The index of a number that lies in a range. -/
theorem Tabulates.found (hk : k + 1 < ranges.length) (hside : side ranges value k = .eq) :
    values[place ranges value k]? = some value := by
  obtain ⟨hlt, hrun⟩ := h.run k ranges[k] ranges[k + 1] (List.getElem?_eq_getElem _)
    (List.getElem?_eq_getElem _)
  rw [side_eq hk] at hside
  split_ifs at hside with hlo hhi
  rw [place_eq (by omega), hrun _ (by omega) (by omega), Option.some.injEq]
  omega

variable (hr : Rising values)
include hr

/-- What a row tells of the numbers of its range. -/
theorem Tabulates.row (hk : k + 1 < ranges.length) :
    ranges[k].origIndex < ranges[k + 1].origIndex ∧
      int32 (ranges[k + 1].origIndex - ranges[k].origIndex : ℤ) =
        ranges[k + 1].origIndex - ranges[k].origIndex ∧
      -2 ^ 31 ≤ ranges[k].startValue ∧
      ranges[k].startValue + (ranges[k + 1].origIndex - ranges[k].origIndex : ℤ) < 2 ^ 31 ∧
      ∀ (i : ℕ) (value : ℤ), values[i]? = some value →
        (value < ranges[k].startValue ↔ i < ranges[k].origIndex) ∧
        (ranges[k].startValue + (ranges[k + 1].origIndex - ranges[k].origIndex) ≤ value ↔
          ranges[k + 1].origIndex ≤ i) := by
  obtain ⟨hlt, hrun⟩ := h.run k ranges[k] ranges[k + 1] (List.getElem?_eq_getElem _)
    (List.getElem?_eq_getElem _)
  have hfirst := hrun _ (Nat.le_refl _) hlt
  have hlast := hrun (ranges[k + 1].origIndex - 1) (by omega) (by omega)
  have hlower := hr.lower _ (List.mem_of_getElem? hfirst)
  have hupper := hr.upper _ (List.mem_of_getElem? hlast)
  have hlength := hr.length
  obtain ⟨hplace, -⟩ := List.getElem?_eq_some_iff.mp hlast
  refine ⟨hlt, int32_eq (by omega) (by omega), by omega, by omega, fun i value hi => ⟨?_, ?_⟩⟩
  · rw [← hr.lt hi hfirst]
    simp
  · have hle := hr.lt hlast hi
    omega

/-- The ranges rise as the numbers do. -/
theorem Tabulates.rises (value : ℤ) :
    BinarySearch.Rises (side ranges value) (ranges.length - 1) := by
  intro k m hkm hm hside
  obtain ⟨hlt, -, -, -, hrow⟩ := h.row hr (show k + 1 < ranges.length by omega)
  have hmono := h.mono (show k + 1 ≤ m by omega) (show m < ranges.length by omega)
  obtain ⟨hlt', hrun⟩ := h.run m ranges[m] ranges[m + 1] (List.getElem?_eq_getElem _)
    (List.getElem?_eq_getElem _)
  have hstart := (hrow _ _ (hrun _ (Nat.le_refl _) hlt')).2.mpr hmono
  rw [side_eq (by omega)] at hside
  rw [side_eq (by omega), if_pos]
  split_ifs at hside with hbelow habove
  · omega
  · exact absurd rfl hside
  · omega

/-- The loop searches by halves among the ranges. -/
theorem lookupLoop_eq (hin : start + n < ranges.length) :
    lookupLoop ranges value fuel start n =
      (BinarySearch.search (fun k => .ok (side ranges value k)) .fuel fuel start n).map
        (Option.map (place ranges value)) := by
  induction fuel generalizing start n with
  | zero => rfl
  | succ fuel ih =>
    rw [lookupLoop, BinarySearch.search]
    split_ifs with hmany hone
    · have hmid : start + n / 2 + 1 < ranges.length := by omega
      obtain ⟨hlt, hwidth, hlo, hhi, -⟩ := h.row hr hmid
      have hsum := addInt_eq (y := ranges[start + n / 2].startValue)
        (z := ranges[start + n / 2 + 1].origIndex - ranges[start + n / 2].origIndex)
        (by omega) hhi
      simp only [rangeAt_eq (show start + n / 2 < ranges.length by omega), rangeAt_eq hmid,
        Fallible.ok_bind, hwidth, hsum, side_eq hmid]
      split_ifs with hbelow habove
      · exact ih (by omega)
      · exact ih (by omega)
      · rw [Except.map, Option.map_some, place_eq (by omega)]
    · have hnext : start + 1 < ranges.length := by omega
      obtain ⟨hlt, -, hlo, hhi, -⟩ := h.row hr hnext
      simp only [rangeAt_eq (show start < ranges.length by omega), rangeAt_eq hnext,
        Fallible.ok_bind, side_eq hnext, int32_eq (show -2 ^ 31 ≤ ranges[start].startValue +
          (ranges[start + 1].origIndex - ranges[start].origIndex : ℤ) by omega) hhi]
      split_ifs with hrange hbelow habove
      · omega
      · omega
      · rw [Except.map, Option.map_some, place_eq (by omega)]
      · rfl
      · rfl
      · omega
    · rfl

end

/-- **The lookup finds exactly the indices of the numbers**, and stays inside of the table
    that `protoc-c` wrote for them. -/
theorem intRangeLookup_iff (hr : Rising values) (value : ℤ) :
    ∃ found, intRangeLookup (writeIntRanges values) value = .ok found ∧
      ∀ i, found = some i ↔ values[i]? = some value := by
  cases hvalues : values with
  | nil => exact ⟨none, rfl, fun i => iff_of_false (fun h => nomatch h) (fun h => nomatch h)⟩
  | cons v vs =>
    have hne : values ≠ [] := by rw [hvalues]; exact List.cons_ne_nil v vs
    rw [← hvalues]
    have h := tabulates_writeIntRanges hne
    have hge := h.nonempty
    obtain ⟨row, hrow, hiff⟩ := @BinarySearch.search_iff _ _ Failure.fuel _ _
      ((writeIntRanges values).length + 1) 0 _ (h.rises hr value) (fun k _ => rfl)
      (show (writeIntRanges values).length - 1 < _ by omega) (Nat.le_of_eq (Nat.zero_add _))
    refine ⟨row.map (place (writeIntRanges values) value), ?_, fun i => ⟨?_, ?_⟩⟩
    · rw [intRangeLookup, if_neg (by omega), lookupLoop_eq h hr (by omega), hrow]
      rfl
    · intro hi
      obtain ⟨k, hk, rfl⟩ := Option.map_eq_some_iff.mp hi
      obtain ⟨-, hbound, hside⟩ := (hiff k).mp hk
      exact h.found (by omega) hside
    · intro hi
      have hlast := h.last _ (List.getElem?_eq_getElem (by omega))
      obtain ⟨hlt, -⟩ := List.getElem?_eq_some_iff.mp hi
      obtain ⟨k, hk, hlo, hhi⟩ := h.exists_row (by omega) (hlast.symm ▸ hlt)
      obtain ⟨-, -, -, -, hside⟩ := h.row hr hk
      have heq : side (writeIntRanges values) value k = .eq := by
        rw [side_eq hk, if_neg, if_neg]
        · rw [(hside i value hi).2]
          omega
        · rw [(hside i value hi).1]
          omega
      rw [(hiff k).mpr ⟨Nat.zero_le _, by omega, heq⟩, Option.map_some, Option.some.injEq]
      -- The index that the range tells holds the number, and so does `i`.
      have hfound := h.found hk heq
      have hbelow := hr.lt hfound hi
      have habove := hr.lt hi hfound
      omega

/-! ## The largest number -/

/-- No row is left for the largest `int`: the number behind it is none. -/
theorem lookupLoop_intMax {i : ℕ} :
    lookupLoop ranges (2 ^ 31 - 1) fuel start n ≠ .ok (some i) := by
  induction fuel generalizing start n with
  | zero => exact fun h => nomatch h
  | succ fuel ih =>
    intro h
    rw [lookupLoop] at h
    split_ifs at h with hmany hone
    · obtain ⟨range, -, h⟩ := Fallible.bind_eq_ok.mp h
      split_ifs at h with hbelow
      · exact ih h
      · obtain ⟨next, -, h⟩ := Fallible.bind_eq_ok.mp h
        obtain ⟨bound, hbound, h⟩ := Fallible.bind_eq_ok.mp h
        split_ifs at h with habove
        · exact ih h
        · rw [addInt] at hbound
          split_ifs at hbound with hfits
          obtain rfl := Except.ok.inj hbound
          have hlt := int32_lt (range.startValue + int32 (next.origIndex - range.origIndex))
          omega
    · obtain ⟨range, -, h⟩ := Fallible.bind_eq_ok.mp h
      obtain ⟨next, -, h⟩ := Fallible.bind_eq_ok.mp h
      dsimp only at h
      split_ifs at h with hrange
      · have hlt := int32_lt (range.startValue + (next.origIndex - range.origIndex))
        omega
      · cases h
    · cases h

/-- **The largest `int` is never found**, in whatever table. -/
theorem intRangeLookup_intMax {i : ℕ} : intRangeLookup ranges (2 ^ 31 - 1) ≠ .ok (some i) := by
  rw [intRangeLookup]
  split_ifs with hempty
  · exact fun h => nomatch h
  · exact lookupLoop_intMax

theorem intRangeLookup_eq (hr : Rising values) (value : ℤ) :
    intRangeLookup (writeIntRanges values) value = .ok (values.idxOf? value) := by
  obtain ⟨found, hfound, hiff⟩ := intRangeLookup_iff hr value
  rw [hfound]
  congr 1
  ext i
  have hplace : values.idxOf? value = some i ↔ ∃ v, values[i]? = some v ∧ v = value :=
    @BinarySearch.findIdx?_eq_some_iff ℤ ℤ _ (fun v => v) values value _ _ hr.sorted i
  rw [hiff, hplace, exists_eq_right]

/-- Numbers with gaps. -/
example : (List.map (intRangeLookup (writeIntRanges [1, 2, 3, 7, 9, 10])) [3, 4, 7, 10, 11]) =
    [.ok (some 2), .ok none, .ok (some 3), .ok (some 5), .ok none] := by decide

end Cebus.ProtobufC
