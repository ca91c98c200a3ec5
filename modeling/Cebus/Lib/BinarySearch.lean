import Cebus.Lib.Fallible
import Mathlib.Data.List.Nodup
import Mathlib.Data.Nat.Notation
import Mathlib.Order.Basic
import Mathlib.Order.Lattice
import Mathlib.Tactic.SplitIfs

/-!
# Searching by halves

A table is sorted, and a probe of one of its entries tells on which side of it a key
lies. A probe may fail.

* `search_iff`: the search finds the entry of the key, if there is one.
* `search_compare`: the same for a table that is sorted by a key of its entries.
-/

namespace BinarySearch

variable {ε : Type}

/-- The search among `n` entries from `start` on. `probe` compares an entry with what is
    searched for; the error `stuck` is for too little fuel. -/
def search (probe : ℕ → Except ε Ordering) (stuck : ε) : ℕ → ℕ → ℕ → Except ε (Option ℕ)
  | 0, _, _ => .error stuck
  | fuel + 1, start, n =>
    if 1 < n then do
      let mid := start + n / 2
      match ← probe mid with
      | .lt => search probe stuck fuel (mid + 1) (start + n - (mid + 1))
      | .gt => search probe stuck fuel start (mid - start)
      | .eq => .ok (some mid)
    else if 0 < n then do
      match ← probe start with
      | .eq => .ok (some start)
      | _ => .ok none
    else .ok none

/-- What comes behind an entry that is not too small is too large. -/
def Rises (order : ℕ → Ordering) (bound : ℕ) : Prop :=
  ∀ i j, i < j → j < bound → order i ≠ .lt → order j = .gt

variable {probe : ℕ → Except ε Ordering} {stuck : ε} {order : ℕ → Ordering} {bound : ℕ}
variable {fuel start n : ℕ}

section

variable (hrises : Rises order bound)
include hrises

/-- An entry that is found is behind each one that is too small. -/
theorem Rises.lt_of_lt {i m : ℕ} (hm : m < bound) (hlt : order m = .lt) (heq : order i = .eq) :
    m < i := by
  by_contra hle
  rcases Nat.lt_or_eq_of_le (Nat.not_lt.mp hle) with hbelow | rfl
  · have hgt := hrises i m hbelow hm (by rw [heq]; decide)
    rw [hlt] at hgt
    cases hgt
  · rw [hlt] at heq
    cases heq

/-- It is in front of each one that is too large. -/
theorem Rises.lt_of_gt {i m : ℕ} (hi : i < bound) (hgt : order m = .gt) (heq : order i = .eq) :
    i < m := by
  by_contra hge
  rcases Nat.lt_or_eq_of_le (Nat.not_lt.mp hge) with habove | rfl
  · have hgt' := hrises m i habove hi (by rw [hgt]; decide)
    rw [heq] at hgt'
    cases hgt'
  · rw [hgt] at heq
    cases heq

/-- There is only one. -/
theorem Rises.eq_of_eq {i m : ℕ} (hi : i < bound) (hm : m < bound) (heq : order i = .eq)
    (heq' : order m = .eq) : i = m := by
  rcases Nat.lt_trichotomy i m with hlt | rfl | hlt
  · have hgt := hrises i m hlt hm (by rw [heq]; decide)
    rw [heq'] at hgt
    cases hgt
  · rfl
  · have hgt := hrises m i hlt hi (by rw [heq']; decide)
    rw [heq] at hgt
    cases hgt

/-- **The search finds the entry**, and no probe fails. -/
theorem search_iff (hprobe : ∀ i < bound, probe i = .ok (order i)) (hfuel : n < fuel)
    (hin : start + n ≤ bound) :
    ∃ found, search probe stuck fuel start n = .ok found ∧
      ∀ i, found = some i ↔ start ≤ i ∧ i < start + n ∧ order i = .eq := by
  induction fuel generalizing start n with
  | zero => omega
  | succ fuel ih =>
    rw [search]
    split_ifs with hmany hone
    · have hmid : start + n / 2 < bound := by omega
      simp only [hprobe _ hmid, Fallible.ok_bind]
      cases horder : order (start + n / 2) with
      | lt =>
        obtain ⟨found, hfound, hiff⟩ := @ih (start + n / 2 + 1)
          (start + n - (start + n / 2 + 1)) (by omega) (by omega)
        refine ⟨found, hfound, fun i => (hiff i).trans ⟨?_, ?_⟩⟩
        · rintro ⟨hlo, hhi, heq⟩
          exact ⟨by omega, by omega, heq⟩
        · rintro ⟨hlo, hhi, heq⟩
          have hright := hrises.lt_of_lt hmid horder heq
          exact ⟨by omega, by omega, heq⟩
      | gt =>
        obtain ⟨found, hfound, hiff⟩ := @ih start (start + n / 2 - start) (by omega) (by omega)
        refine ⟨found, hfound, fun i => (hiff i).trans ⟨?_, ?_⟩⟩
        · rintro ⟨hlo, hhi, heq⟩
          exact ⟨hlo, by omega, heq⟩
        · rintro ⟨hlo, hhi, heq⟩
          have hleft := hrises.lt_of_gt (by omega) horder heq
          exact ⟨hlo, by omega, heq⟩
      | eq =>
        refine ⟨_, rfl, fun i => ⟨?_, ?_⟩⟩
        · rintro ⟨⟩
          exact ⟨by omega, by omega, horder⟩
        · rintro ⟨-, hhi, heq⟩
          rw [hrises.eq_of_eq hmid (by omega) horder heq]
    · obtain rfl : n = 1 := by omega
      rw [hprobe _ (by omega), Fallible.ok_bind]
      have honly (i : ℕ) : start ≤ i ∧ i < start + 1 ∧ order i = .eq ↔
          start = i ∧ order start = .eq := by
        constructor
        · rintro ⟨hlo, hhi, heq⟩
          obtain rfl : start = i := by omega
          exact ⟨rfl, heq⟩
        · rintro ⟨rfl, heq⟩
          exact ⟨Nat.le_refl _, Nat.lt_succ_self _, heq⟩
      simp only [honly]
      cases horder : order start with
      | eq => exact ⟨_, rfl, fun i => by rw [Option.some.injEq, and_iff_left rfl]⟩
      | lt => exact ⟨_, rfl, fun i => iff_of_false (fun h => nomatch h) (fun h => nomatch h.2)⟩
      | gt => exact ⟨_, rfl, fun i => iff_of_false (fun h => nomatch h) (fun h => nomatch h.2)⟩
    · exact ⟨none, rfl, fun i => iff_of_false (fun h => nomatch h) (by omega)⟩

end

/-! ## Tables that are sorted by keys -/

section

variable {α κ : Type} [LinearOrder κ] {key : α → κ} {table : List α} {k : κ}

/-- On which side of an entry the key `k` lies; outside of the table no entry is small. -/
def sideOf (key : α → κ) (table : List α) (k : κ) (i : ℕ) : Ordering :=
  table[i]?.elim .gt fun a => compare (key a) k

theorem rises_sideOf (hsorted : table.Pairwise fun a b => key a < key b) :
    Rises (sideOf key table k) table.length := by
  intro i j hij hj hi
  have hlt := List.pairwise_iff_getElem.mp hsorted i j (by omega) hj hij
  have hle : k ≤ key table[i] := by
    rw [sideOf, List.getElem?_eq_getElem (by omega), Option.elim_some] at hi
    exact not_lt.mp (mt compare_lt_iff_lt.mpr hi)
  rw [sideOf, List.getElem?_eq_getElem hj, Option.elim_some]
  exact compare_gt_iff_gt.mpr (lt_of_le_of_lt hle hlt)

variable [BEq κ] [LawfulBEq κ]

/-- The place of the only entry with a key. -/
theorem findIdx?_eq_some_iff (hsorted : table.Pairwise fun a b => key a < key b) {i : ℕ} :
    table.findIdx? (key · == k) = some i ↔ ∃ a, table[i]? = some a ∧ key a = k := by
  have hplace (j : ℕ) (hj : table.findIdx? (key · == k) = some j) :
      ∃ hlt : j < table.length, key table[j] = k := by
    obtain ⟨hlt, hkey, -⟩ := List.findIdx?_eq_some_iff_getElem.mp hj
    exact ⟨hlt, eq_of_beq hkey⟩
  constructor
  · intro h
    obtain ⟨hlt, hkey⟩ := hplace i h
    exact ⟨_, List.getElem?_eq_getElem hlt, hkey⟩
  · rintro ⟨a, ha, hkey⟩
    obtain ⟨hi, rfl⟩ := List.getElem?_eq_some_iff.mp ha
    cases hfound : table.findIdx? (key · == k) with
    | none =>
      have hnone := List.findIdx?_eq_none_iff.mp hfound _ (List.getElem_mem hi)
      exact absurd (beq_iff_eq.mpr hkey) (Bool.eq_false_iff.mp hnone)
    | some j =>
      obtain ⟨hj, hkey'⟩ := hplace j hfound
      have hpairs := List.pairwise_iff_getElem.mp hsorted
      rcases Nat.lt_trichotomy i j with hlt | rfl | hlt
      · exact absurd (hkey.trans hkey'.symm) (ne_of_lt (hpairs i j hi hj hlt))
      · rfl
      · exact absurd (hkey'.trans hkey.symm) (ne_of_lt (hpairs j i hj hi hlt))

/-- **The entry with a key**: a search whose probes compare the keys of a table that is sorted
    by them finds the place of its only entry with the key. -/
theorem search_compare (hsorted : table.Pairwise fun a b => key a < key b)
    (hprobe : ∀ i (hi : i < table.length), probe i = .ok (compare (key table[i]) k))
    (hfuel : table.length < fuel) :
    search probe stuck fuel 0 table.length = .ok (table.findIdx? (key · == k)) := by
  have hside (i : ℕ) (hi : i < table.length) : probe i = .ok (sideOf key table k i) := by
    rw [hprobe i hi, sideOf, List.getElem?_eq_getElem hi, Option.elim_some]
  obtain ⟨found, hfound, hiff⟩ := search_iff (rises_sideOf hsorted) hside hfuel
    (Nat.le_of_eq (Nat.zero_add _))
  rw [hfound]
  congr 1
  ext i
  rw [hiff, findIdx?_eq_some_iff hsorted]
  constructor
  · rintro ⟨-, hi, heq⟩
    have hi' : i < table.length := by omega
    rw [sideOf, List.getElem?_eq_getElem hi', Option.elim_some] at heq
    exact ⟨_, List.getElem?_eq_getElem hi', compare_eq_iff_eq.mp heq⟩
  · rintro ⟨a, ha, hkey⟩
    obtain ⟨hi, -⟩ := List.getElem?_eq_some_iff.mp ha
    rw [sideOf, ha, Option.elim_some]
    exact ⟨Nat.zero_le _, by omega, compare_eq_iff_eq.mpr hkey⟩

omit [LinearOrder κ] in
/-- The entry with a key, when keys differ. -/
theorem find?_eq_of_nodup (hkeys : (table.map key).Nodup) {a : α} (ha : a ∈ table) :
    table.find? (key · == key a) = some a := by
  cases hfound : table.find? (key · == key a) with
  | none => exact absurd (beq_self_eq_true (key a)) (List.find?_eq_none.mp hfound a ha)
  | some b =>
    have hsame := List.find?_some hfound
    have hkey : key b = key a := eq_of_beq hsame
    rw [List.inj_on_of_nodup_map hkeys (List.mem_of_find?_eq_some hfound) ha hkey]

end

end BinarySearch
