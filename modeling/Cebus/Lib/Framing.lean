import Mathlib.Algebra.GroupWithZero.Nat
import Mathlib.Data.List.Basic
import Mathlib.Data.Nat.Notation

/-!
# Items in a row

A scanner reads an item off the front of a list and leaves a shorter one, so a whole list
can be read as a row of items.

* `items_flatMap_append`: items that are printed one behind the other are read again.
* `sum_le_length`: items take no more room than there is.
-/

/-- Reads an item off the front of a list. -/
structure Scanner (α ρ : Type) where
  scan : List α → Option (ρ × List α)
  shorter : ∀ l r rest, scan l = some (r, rest) → rest.length < l.length

namespace Scanner

variable {α ρ : Type} (s : Scanner α ρ)

/-- All items of a list, if it ends where an item ends. -/
def items (l : List α) : Option (List ρ) :=
  if l.isEmpty then some []
  else
    match _h : s.scan l with
    | none => none
    | some (r, rest) => (items rest).map (r :: ·)
termination_by l.length
decreasing_by exact s.shorter _ _ _ _h

variable {l tail rest : List α} {rs : List ρ} {r : ρ}

theorem items_nil : s.items [] = some [] := by rw [items, List.isEmpty_nil, if_pos rfl]

/-- Nothing can be read of an empty list. -/
theorem scan_nil : s.scan [] = none := by
  cases h : s.scan [] with
  | none => rfl
  | some p => exact absurd (s.shorter [] p.1 p.2 h) (Nat.not_lt_zero _)

variable {s}

theorem isEmpty_eq_false (h : s.scan l = some (r, rest)) : l.isEmpty = false := by
  cases l with
  | nil => exact absurd (s.scan_nil.symm.trans h) (fun hn => nomatch hn)
  | cons a l => rfl

theorem items_of_scan (h : s.scan l = some (r, rest)) :
    s.items l = (s.items rest).map (r :: ·) := by
  rw [items, isEmpty_eq_false h, if_neg Bool.false_ne_true]
  split
  · next hnone => exact absurd (hnone.symm.trans h) (fun hn => nomatch hn)
  · next r' rest' hsome =>
    obtain ⟨rfl, rfl⟩ := Prod.mk.inj (Option.some.inj (hsome.symm.trans h))
    rfl

theorem items_of_not_scan (hne : l ≠ []) (h : s.scan l = none) : s.items l = none := by
  rw [items, if_neg (by rwa [List.isEmpty_iff])]
  split
  · rfl
  · next r rest hsome => exact absurd (h.symm.trans hsome) (fun hn => nomatch hn)

/-- The first item of a row, and the others. -/
theorem items_eq_cons (h : s.items l = some (r :: rs)) :
    ∃ rest, s.scan l = some (r, rest) ∧ s.items rest = some rs := by
  cases hscan : s.scan l with
  | none =>
    cases l with
    | nil => rw [items_nil] at h; cases h
    | cons a l => rw [items_of_not_scan (List.cons_ne_nil a l) hscan] at h; cases h
  | some p =>
    obtain ⟨r', rest⟩ := p
    rw [items_of_scan hscan, Option.map_eq_some_iff] at h
    obtain ⟨rs', hrest, hcons⟩ := h
    obtain ⟨rfl, rfl⟩ := List.cons.inj hcons
    exact ⟨rest, rfl, hrest⟩

/-- **What is printed is read again.** -/
theorem items_flatMap_append {print : ρ → List α} (tail : List α)
    (h : ∀ r ∈ rs, ∀ rest, s.scan (print r ++ rest) = some (r, rest)) :
    s.items (rs.flatMap print ++ tail) = (s.items tail).map (rs ++ ·) := by
  induction rs with
  | nil => rw [List.flatMap_nil, List.nil_append]; exact Option.map_id'.symm
  | cons r rs ih =>
    rw [List.flatMap_cons, List.append_assoc, items_of_scan (h r List.mem_cons_self _),
      ih fun r' hr => h r' (List.mem_cons_of_mem r hr), Option.map_map]
    rfl

theorem items_flatMap {print : ρ → List α}
    (h : ∀ r ∈ rs, ∀ rest, s.scan (print r ++ rest) = some (r, rest)) :
    s.items (rs.flatMap print) = some rs := by
  have happend := items_flatMap_append [] h
  rwa [List.append_nil, items_nil, Option.map_some, List.append_nil] at happend

/-- Nothing is read when one of the items that are printed cannot be read. -/
theorem items_eq_none_of_mem {print : ρ → List α} (hne : ∀ r ∈ rs, print r ≠ [])
    (h : ∀ r ∈ rs, (∀ rest, s.scan (print r ++ rest) = some (r, rest)) ∨
      ∀ rest, s.scan (print r ++ rest) = none)
    (hbad : ∃ r ∈ rs, ∀ rest, s.scan (print r ++ rest) = none) :
    s.items (rs.flatMap print) = none := by
  induction rs with
  | nil =>
    obtain ⟨r, hr, -⟩ := hbad
    exact absurd hr List.not_mem_nil
  | cons r rs ih =>
    obtain ⟨hfirst, hothers⟩ := List.forall_mem_cons.mp h
    obtain ⟨hprint, hprints⟩ := List.forall_mem_cons.mp hne
    rw [List.flatMap_cons]
    obtain hgood | hnone := hfirst
    · obtain ⟨r', hr', hnone'⟩ := hbad
      obtain rfl | hin := List.mem_cons.mp hr'
      · exact absurd ((hgood []).symm.trans (hnone' [])) (fun hn => nomatch hn)
      · rw [items_of_scan (hgood _), ih hprints hothers ⟨r', hin, hnone'⟩, Option.map_none]
    · exact items_of_not_scan (List.append_ne_nil_of_left_ne_nil hprint _) (hnone _)

/-- Every item is read off somewhere. -/
theorem forall_mem_items {P : ρ → Prop}
    (hscan : ∀ l r rest, s.scan l = some (r, rest) → P r) (h : s.items l = some rs) :
    ∀ r ∈ rs, P r := by
  induction rs generalizing l with
  | nil => exact fun r hr => absurd hr List.not_mem_nil
  | cons r rs ih =>
    obtain ⟨rest, hfirst, hrest⟩ := items_eq_cons h
    exact List.forall_mem_cons.mpr ⟨hscan _ _ _ hfirst, ih hrest⟩

/-- **Items take no more room than there is.** -/
theorem sum_le_length (weight : ρ → ℕ)
    (hscan : ∀ l r rest, s.scan l = some (r, rest) → weight r + rest.length ≤ l.length)
    (h : s.items l = some rs) : (rs.map weight).sum ≤ l.length := by
  induction rs generalizing l with
  | nil => exact Nat.zero_le _
  | cons r rs ih =>
    obtain ⟨rest, hfirst, hrest⟩ := items_eq_cons h
    have hle := hscan _ _ _ hfirst
    have htail := ih hrest
    rw [List.map_cons, List.sum_cons]
    omega

end Scanner
