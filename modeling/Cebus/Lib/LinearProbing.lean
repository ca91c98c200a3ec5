import Mathlib.Data.List.Count
import Mathlib.Data.Nat.Find

/-!
# Linear probing without wrap-around

A table is a list of slots, some of which are free. An item has a home slot and
is put into the first free slot from there on; there is none when all the slots
up to the end are taken.

* `probe_eq_some`, `probe_eq_none`: the first slot from an index on that meets a
  condition.
* `Clustered.place`: no slot between an item and its home is free.
* `placeAll_isSome_iff`: a list of items finds its slots exactly when from no
  index on there are more items at home than there are slots.
-/

namespace LinearProbing

variable {α : Type*} {p free : α → Bool} {home : α → ℕ} {t t' xs : List α} {h i j : ℕ} {x y : α}

/-! ## Probing -/

/-- The first index from `h` on whose slot satisfies `p`. -/
def probe (p : α → Bool) (t : List α) (h : ℕ) : Option ℕ :=
  ((t.drop h).findIdx? p).map (h + ·)

theorem probe_eq_some :
    probe p t h = some i ↔ h ≤ i ∧ (∃ x, t[i]? = some x ∧ p x = true) ∧
      ∀ j y, h ≤ j → j < i → t[j]? = some y → p y = false := by
  rw [probe, Option.map_eq_some_iff]
  simp only [List.findIdx?_eq_some_iff_getElem, List.length_drop, List.getElem_drop]
  constructor
  · rintro ⟨d, ⟨hd, hp, hlt⟩, rfl⟩
    refine ⟨Nat.le_add_right _ _, ⟨_, List.getElem?_eq_getElem (by omega), hp⟩,
      fun j y h1 h2 hy => ?_⟩
    obtain ⟨hj, rfl⟩ := List.getElem?_eq_some_iff.mp hy
    have := hlt (j - h) (by omega)
    simpa [Nat.add_sub_cancel' h1] using this
  · rintro ⟨hi, ⟨x, hx, hp⟩, hlt⟩
    obtain ⟨hlen, rfl⟩ := List.getElem?_eq_some_iff.mp hx
    refine ⟨i - h, ⟨by omega, by simpa [Nat.add_sub_cancel' hi] using hp, fun d hd => ?_⟩, by omega⟩
    simpa using hlt (h + d) _ (by omega) (by omega) (List.getElem?_eq_getElem (by omega))

theorem probe_eq_none :
    probe p t h = none ↔ ∀ i x, h ≤ i → t[i]? = some x → p x = false := by
  rw [probe, Option.map_eq_none_iff, List.findIdx?_eq_none_iff]
  constructor
  · intro hp i x hi hx
    refine hp x (List.mem_of_getElem? (i := i - h) ?_)
    rw [List.getElem?_drop, Nat.add_sub_cancel' hi, hx]
  · intro hp x hx
    obtain ⟨d, hd⟩ := List.mem_iff_getElem?.mp hx
    rw [List.getElem?_drop] at hd
    exact hp (h + d) x (Nat.le_add_right _ _) hd

theorem probe_lt (hi : probe p t h = some i) : i < t.length := by
  obtain ⟨-, ⟨x, hx, -⟩, -⟩ := probe_eq_some.mp hi
  exact (List.getElem?_eq_some_iff.mp hx).1

/-! ## Placing -/

/-- Put an item into the first free slot from its home on. -/
def place (free : α → Bool) (home : α → ℕ) (t : List α) (x : α) : Option (List α) :=
  (probe free t (home x)).map (t.set · x)

/-- Each item lies at or behind its home, with no free slot in between. -/
def Clustered (free : α → Bool) (home : α → ℕ) (t : List α) : Prop :=
  ∀ i x, t[i]? = some x → free x = false →
    home x ≤ i ∧ ∀ j y, home x ≤ j → j < i → t[j]? = some y → free y = false

/-- The number of items whose home is `j` or behind it. -/
def demand (free : α → Bool) (home : α → ℕ) (j : ℕ) (t : List α) : ℕ :=
  t.countP fun x => !free x && decide (j ≤ home x)

theorem clustered_of_forall_free (h : ∀ x ∈ t, free x = true) : Clustered free home t := by
  intro i x hx hf
  rw [h x (List.mem_of_getElem? hx)] at hf
  cases hf

theorem length_place (h : place free home t x = some t') : t'.length = t.length := by
  obtain ⟨i, -, rfl⟩ := Option.map_eq_some_iff.mp h
  exact List.length_set ..

theorem Clustered.place (ht : Clustered free home t) (hx : free x = false)
    (h : place free home t x = some t') : Clustered free home t' := by
  obtain ⟨i, hi, rfl⟩ := Option.map_eq_some_iff.mp h
  obtain ⟨hle, ⟨z, hz, hfree⟩, hlt⟩ := probe_eq_some.mp hi
  have hlen := probe_lt hi
  intro j y hy hfy
  rw [List.getElem?_set] at hy
  split_ifs at hy with hij
  · -- the new item is in its slot, and those before it were taken
    obtain rfl := Option.some.inj hy
    subst hij
    refine ⟨hle, fun k w h1 h2 hw => hlt k w h1 h2 ?_⟩
    rwa [List.getElem?_set_ne (by omega)] at hw
  · obtain ⟨hle', hlt'⟩ := ht j y hy hfy
    refine ⟨hle', fun k w h1 h2 hw => ?_⟩
    rw [List.getElem?_set] at hw
    split_ifs at hw with hik
    · obtain rfl := Option.some.inj hw
      exact hx
    · exact hlt' k w h1 h2 hw

theorem demand_place (hx : free x = false) (h : place free home t x = some t') (j : ℕ) :
    demand free home j t' = demand free home j t + if j ≤ home x then 1 else 0 := by
  obtain ⟨i, hi, rfl⟩ := Option.map_eq_some_iff.mp h
  obtain ⟨-, ⟨z, hz, hfree⟩, -⟩ := probe_eq_some.mp hi
  obtain ⟨hlen, rfl⟩ := List.getElem?_eq_some_iff.mp hz
  rw [demand, demand, List.countP_set hlen]
  simp [hfree, hx]

theorem mem_place (h : place free home t x = some t') (hy : y ∈ t') : y ∈ t ∨ y = x := by
  obtain ⟨i, -, rfl⟩ := Option.map_eq_some_iff.mp h
  exact List.mem_or_eq_of_mem_set hy

theorem mem_place_of_mem (h : place free home t x = some t') (hy : y ∈ t) (hf : free y = false) :
    y ∈ t' := by
  obtain ⟨i, hi, rfl⟩ := Option.map_eq_some_iff.mp h
  obtain ⟨-, ⟨z, hz, hfree⟩, -⟩ := probe_eq_some.mp hi
  obtain ⟨j, hj⟩ := List.mem_iff_getElem?.mp hy
  refine List.mem_of_getElem? (i := j) ?_
  rw [List.getElem?_set_ne, hj]
  rintro rfl
  rw [hz, Option.some_inj] at hj
  rw [hj, hf] at hfree
  cases hfree

theorem self_mem_place (h : place free home t x = some t') : x ∈ t' := by
  obtain ⟨i, hi, rfl⟩ := Option.map_eq_some_iff.mp h
  exact List.mem_set (probe_lt hi) _

/-! ## When there is room -/

/-- The items with their home at an index or behind it have their slots there. -/
theorem Clustered.demand_drop (ht : Clustered free home t) (j : ℕ) :
    demand free home j (t.drop j) = demand free home j t := by
  have hsplit : demand free home j t =
      demand free home j (t.take j) + demand free home j (t.drop j) := by
    rw [demand, demand, demand, ← List.countP_append, List.take_append_drop]
  have hzero : demand free home j (t.take j) = 0 := by
    refine List.countP_eq_zero.mpr fun x hx => ?_
    obtain ⟨i, hi⟩ := List.mem_iff_getElem?.mp hx
    obtain ⟨hlt, -⟩ := List.getElem?_eq_some_iff.mp hi
    rw [List.length_take] at hlt
    rw [List.getElem?_take_of_lt (by omega)] at hi
    intro hc
    simp only [Bool.and_eq_true, Bool.not_eq_true', decide_eq_true_eq] at hc
    have := (ht i x hi hc.1).1
    omega
  rw [hsplit, hzero, Nat.zero_add]

theorem Clustered.demand_le (ht : Clustered free home t) (j : ℕ) :
    demand free home j t ≤ t.length - j := by
  rw [← ht.demand_drop, ← List.length_drop]
  exact List.countP_le_length

/-- If there is no free slot from an index on, the slots from some index in front of it
    are all taken by items that have their home there. -/
theorem Clustered.demand_of_probe_eq_none (ht : Clustered free home t)
    (h : probe free t i = none) : ∃ j, j ≤ i ∧ t.length - j ≤ demand free home j t := by
  have hfull := probe_eq_none.mp h
  have hex : ∃ j, ∀ i y, j ≤ i → t[i]? = some y → free y = false := ⟨i, hfull⟩
  classical
  refine ⟨Nat.find hex, Nat.find_min' hex hfull, ?_⟩
  have hj := Nat.find_spec hex
  have hmin := fun k => Nat.find_min hex (m := k)
  generalize Nat.find hex = j at hj hmin
  have hall : demand free home j (t.drop j) = (t.drop j).length := by
    refine List.countP_eq_length.mpr fun y hy => ?_
    obtain ⟨d, hd⟩ := List.mem_iff_getElem?.mp hy
    rw [List.getElem?_drop] at hd
    have hfy := hj (j + d) y (Nat.le_add_right _ _) hd
    obtain ⟨hle, hlt⟩ := ht (j + d) y hd hfy
    -- an item from further in front would have the slot before `j` taken as well
    by_contra hc
    simp only [hfy, Bool.not_false, Bool.true_and, decide_eq_true_eq, not_le] at hc
    refine hmin (j - 1) (by omega) fun i z hi hz => ?_
    by_cases hij : j ≤ i
    · exact hj i z hij hz
    · exact hlt i z (by omega) (by omega) hz
  rw [← List.length_drop, ← hall, demand, demand]
  exact (List.drop_sublist j t).countP_le

/-- There is a free slot from an index on exactly when from no index in front of it on there
    are as many items at home as there are slots. -/
theorem Clustered.probe_ne_none_iff (ht : Clustered free home t) :
    probe free t i ≠ none ↔ ∀ j ≤ i, demand free home j t < t.length - j := by
  constructor
  · intro hprobe j hj
    by_contra hle
    refine hprobe (probe_eq_none.mpr fun k x hk hx => ?_)
    -- if all slots from `j` on are needed, none of them is free
    have hfull : demand free home j (t.drop j) = (t.drop j).length := by
      have hdrop := ht.demand_drop j
      have hmax := ht.demand_le j
      rw [List.length_drop]
      omega
    have hmem : x ∈ t.drop j := by
      refine List.mem_of_getElem? (i := k - j) ?_
      rw [List.getElem?_drop, Nat.add_sub_cancel' (by omega), hx]
    have hneed := List.countP_eq_length.mp hfull x hmem
    rw [Bool.and_eq_true, Bool.not_eq_true'] at hneed
    exact hneed.1
  · intro hall hnone
    obtain ⟨j, hj, hle⟩ := ht.demand_of_probe_eq_none hnone
    have := hall j hj
    omega

/-- **Items find their slots exactly when there is room behind every index.** -/
theorem placeAll_isSome_iff (ht : Clustered free home t) (hxs : ∀ x ∈ xs, free x = false) :
    (xs.foldlM (place free home) t).isSome ↔
      ∀ j, demand free home j t + demand free home j xs ≤ t.length - j := by
  induction xs generalizing t with
  | nil => simpa [demand] using ht.demand_le
  | cons x xs ih =>
    have hx := hxs x (List.mem_cons_self ..)
    have hcons : ∀ j, demand free home j (x :: xs) =
        demand free home j xs + if j ≤ home x then 1 else 0 := by
      intro j
      simp [demand, List.countP_cons, hx]
    rw [List.foldlM_cons]
    cases hp : place free home t x with
    | none =>
      obtain ⟨j, hj, hle⟩ := ht.demand_of_probe_eq_none (Option.map_eq_none_iff.mp hp)
      refine iff_of_false (by simp) fun hall => ?_
      have := hall j
      rw [hcons j, if_pos hj] at this
      omega
    | some t' =>
      show (xs.foldlM (place free home) t').isSome ↔ _
      rw [ih (ht.place hx hp) fun y hy => hxs y (List.mem_cons_of_mem _ hy)]
      refine forall_congr' fun j => ?_
      rw [demand_place hx hp, hcons, length_place hp]
      omega

end LinearProbing
