import Mathlib.Data.List.Sort
import Mathlib.Order.Defs.LinearOrder

/-!
# Ranks

In a list that a key sorts strictly, the place of an element is the number of
elements with a smaller key.

* `getElem?_eq_some_iff_rank`: places are ranks.
* `pairwise_lt_sortBy`: sorting distinct keys sorts them strictly.
* `isChain_succ_iff_perm`: a sorted list whose neighbours follow on each other is an interval.
* `perm_interval_iff`: what is an interval in some order.
-/

namespace Ranking

variable {α β : Type} [LinearOrder β]

/-- How many elements of the list have a key below `k`. -/
def rank (key : α → β) (k : β) (l : List α) : ℕ :=
  l.countP fun x => decide (key x < k)

theorem rank_cons (key : α → β) (k : β) (x : α) (l : List α) :
    rank key k (x :: l) = rank key k l + if key x < k then 1 else 0 := by
  unfold rank
  rw [List.countP_cons]
  by_cases h : key x < k
  · simp [h]
  · simp [h]

theorem rank_perm {l l' : List α} (h : l.Perm l') (key : α → β) (k : β) :
    rank key k l = rank key k l' :=
  h.countP_eq _

theorem rank_eq_zero {key : α → β} {k : β} {l : List α} (h : ∀ x ∈ l, k ≤ key x) :
    rank key k l = 0 := by
  apply List.countP_eq_zero.2
  intro x hx
  simpa using h x hx

/-- **Places are ranks.** -/
theorem getElem?_eq_some_iff_rank {key : α → β} {l : List α}
    (hs : l.Pairwise fun x y => key x < key y) (j : ℕ) (a : α) :
    l[j]? = some a ↔ a ∈ l ∧ rank key (key a) l = j := by
  induction l generalizing j with
  | nil => simp
  | cons x l ih =>
    obtain ⟨hx, hl⟩ := List.pairwise_cons.1 hs
    have hfirst : rank key (key x) (x :: l) = 0 := by
      apply rank_eq_zero
      intro y hy
      rcases List.mem_cons.1 hy with rfl | hyl
      · exact le_rfl
      · exact (hx y hyl).le
    have hlater (hal : a ∈ l) : rank key (key a) (x :: l) = rank key (key a) l + 1 := by
      rw [rank_cons, if_pos (hx a hal)]
    cases j with
    | zero =>
      rw [List.getElem?_cons_zero, Option.some.injEq]
      constructor
      · rintro rfl
        exact ⟨List.mem_cons_self, hfirst⟩
      · rintro ⟨ha, hr⟩
        rcases List.mem_cons.1 ha with rfl | hal
        · rfl
        · rw [hlater hal] at hr
          omega
    | succ j =>
      rw [List.getElem?_cons_succ, ih hl]
      constructor
      · rintro ⟨hal, hr⟩
        exact ⟨List.mem_cons_of_mem x hal, by rw [hlater hal, hr]⟩
      · rintro ⟨ha, hr⟩
        rcases List.mem_cons.1 ha with rfl | hal
        · rw [hfirst] at hr
          omega
        · rw [hlater hal] at hr
          exact ⟨hal, by omega⟩

/-- The list sorted by a key. -/
def sortBy (key : α → β) (l : List α) : List α :=
  l.insertionSort fun x y => key x ≤ key y

theorem perm_sortBy (key : α → β) (l : List α) : (sortBy key l).Perm l :=
  List.perm_insertionSort _ l

theorem pairwise_le_sortBy (key : α → β) (l : List α) :
    (sortBy key l).Pairwise fun x y => key x ≤ key y := by
  have : Std.Total fun x y : α => key x ≤ key y := ⟨fun x y => le_total (key x) (key y)⟩
  have : IsTrans α fun x y => key x ≤ key y := ⟨fun _ _ _ => le_trans⟩
  exact List.pairwise_insertionSort _ l

/-- **Sorting distinct keys sorts them strictly.** -/
theorem pairwise_lt_sortBy {key : α → β} {l : List α} (h : (l.map key).Nodup) :
    (sortBy key l).Pairwise fun x y => key x < key y := by
  have hnodup : (sortBy key l).Pairwise fun x y => key x ≠ key y :=
    List.pairwise_map.1 (((perm_sortBy key l).map key).nodup_iff.2 h)
  apply (List.pairwise_and_iff.2 ⟨pairwise_le_sortBy key l, hnodup⟩).imp
  rintro x y ⟨hle, hne⟩
  exact lt_of_le_of_ne hle hne

/-! ## Intervals -/

variable {start p : ℤ} {n : ℕ} {l : List ℤ}

/-- The `n` integers from `start` on. -/
def interval (start : ℤ) (n : ℕ) : List ℤ := (List.range n).map fun k : ℕ => start + (k : ℤ)

theorem interval_succ (start : ℤ) (n : ℕ) :
    interval start (n + 1) = start :: interval (start + 1) n := by
  unfold interval
  rw [List.range_succ_eq_map, List.map_cons, List.map_map, List.cons.injEq]
  refine ⟨Int.add_zero start, List.map_congr_left fun k _ => ?_⟩
  rw [Function.comp_apply]
  omega

theorem mem_interval : p ∈ interval start n ↔ start ≤ p ∧ p < start + n := by
  rw [interval, List.mem_map]
  constructor
  · rintro ⟨k, hk, rfl⟩
    have hk := List.mem_range.mp hk
    omega
  · rintro ⟨hle, hlt⟩
    exact ⟨(p - start).toNat, List.mem_range.mpr (by omega), by omega⟩

theorem pairwise_interval (start : ℤ) (n : ℕ) : (interval start n).Pairwise (· < ·) := by
  rw [interval, List.pairwise_map]
  exact List.pairwise_lt_range.imp fun h => by omega

/-- Neighbours that follow on each other are an interval. -/
theorem isChain_cons_succ_iff : (start :: l).IsChain (fun p q => q = p + 1) ↔
    start :: l = interval start (l.length + 1) := by
  induction l generalizing start with
  | nil => exact iff_of_true (List.IsChain.singleton start) (interval_succ start 0).symm
  | cons p l ih =>
    rw [List.isChain_cons_cons, ih, interval_succ start, List.length_cons, List.cons.injEq,
      and_iff_right rfl]
    constructor
    · rintro ⟨rfl, h⟩
      exact h
    · intro h
      obtain rfl : p = start + 1 := by
        rw [interval_succ] at h
        exact (List.cons.inj h).1
      exact ⟨rfl, h⟩

/-- **An interval in some order**: no integer twice, and none left out. -/
theorem perm_interval_iff : l.Perm (interval start l.length) ↔
    l.Nodup ∧ ∀ p, p ∈ l ↔ start ≤ p ∧ p < start + l.length := by
  have hnodup : (interval start l.length).Nodup :=
    (pairwise_interval start l.length).imp fun h => ne_of_lt h
  constructor
  · exact fun h => ⟨h.nodup_iff.mpr hnodup, fun p => h.mem_iff.trans mem_interval⟩
  · rintro ⟨hl, hmem⟩
    exact (List.perm_ext_iff_of_nodup hl hnodup).mpr fun p => (hmem p).trans mem_interval.symm

/-- **A sorted list whose neighbours follow on each other** is an interval. -/
theorem isChain_succ_iff_perm (hsorted : l.Pairwise (· ≤ ·)) :
    l.IsChain (fun p q => q = p + 1) ↔ ∃ start, l.Perm (interval start l.length) := by
  cases l with
  | nil => exact iff_of_true List.IsChain.nil ⟨0, List.Perm.nil⟩
  | cons first l =>
    rw [isChain_cons_succ_iff, List.length_cons]
    constructor
    · exact fun h => ⟨first, List.Perm.of_eq h⟩
    · rintro ⟨start, hperm⟩
      -- There is only one order that is sorted.
      have heq := hperm.eq_of_pairwise' hsorted ((pairwise_interval start _).imp le_of_lt)
      obtain rfl : first = start := by
        rw [interval_succ] at heq
        exact (List.cons.inj heq).1
      exact heq

end Ranking
