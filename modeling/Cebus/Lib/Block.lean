import Mathlib.Data.Nat.Notation
import Mathlib.Algebra.Group.Nat.Defs
import Mathlib.Data.List.Basic

/-!
# Blocks of memory

A block is a row of cells, and a cell has no value before it is written. An access that
reaches outside of the block fails, and so does the use of a cell without a value.

* `take_write`: what lies before the end of a write.
* `store_append`: values go behind what is there, in the place of what was behind it.
* `load_eq_some_iff`: what is loaded are the values of the cells.
* `take_drop_flatten`: the place of a row among rows of one width.
-/

universe u

/-- The cells of a block. -/
abbrev Block (α : Type u) := List (Option α)

namespace Block

variable {α : Type u} {b b' : Block α} {start n : ℕ}

/-- A block of `n` cells. -/
def alloc (n : ℕ) : Block α := List.replicate n none

/-- Cells that are copied into a block. -/
def write (b : Block α) (start : ℕ) (cells : List (Option α)) : Option (Block α) :=
  if start + cells.length ≤ b.length then
    some (b.take start ++ cells ++ b.drop (start + cells.length))
  else none

/-- Values that are stored in a block. -/
def store (b : Block α) (start : ℕ) (values : List α) : Option (Block α) :=
  b.write start (values.map some)

/-- `n` cells of a block. -/
def read (b : Block α) (start n : ℕ) : Option (List (Option α)) :=
  if start + n ≤ b.length then some ((b.drop start).take n) else none

/-- The values of `n` cells. -/
def load (b : Block α) (start n : ℕ) : Option (List α) := (b.read start n).bind (List.mapM id)

/-! ## Writing -/

@[simp] theorem length_alloc : (alloc n : Block α).length = n := List.length_replicate

theorem write_of_le {cells : List (Option α)} (h : start + cells.length ≤ b.length) :
    b.write start cells = some (b.take start ++ cells ++ b.drop (start + cells.length)) :=
  if_pos h

theorem length_write {cells : List (Option α)} (h : b.write start cells = some b') :
    b'.length = b.length := by
  unfold write at h
  split_ifs at h with hle
  obtain rfl := Option.some.inj h
  simp only [List.length_append, List.length_take, List.length_drop]
  omega

/-- What lies before the end of the cells that are written. -/
theorem take_write {cells : List (Option α)} (h : b.write start cells = some b') :
    b'.take (start + cells.length) = b.take start ++ cells := by
  unfold write at h
  split_ifs at h with hle
  obtain rfl := Option.some.inj h
  have hlen : (b.take start ++ cells).length = start + cells.length := by
    rw [List.length_append, List.length_take, Nat.min_eq_left (by omega)]
  rw [← hlen, List.take_left]

/-- **Storing behind what is there.** -/
theorem exists_store {done : List α} (values : List α) (hdone : b.take start = done.map some)
    (hle : start + values.length ≤ b.length) :
    ∃ b', b.store start values = some b' ∧ b'.length = b.length ∧
      b'.take (start + values.length) = (done ++ values).map some := by
  obtain ⟨b', hwrite⟩ : ∃ b', b.write start (values.map some) = some b' :=
    ⟨_, write_of_le (by rwa [List.length_map])⟩
  refine ⟨b', hwrite, length_write hwrite, ?_⟩
  have htake := take_write hwrite
  rw [List.length_map] at htake
  rw [htake, hdone, List.map_append]

/-- Values go behind what is there, and take the place of what was behind it. -/
theorem store_append (done values : List α) (rest : Block α) (hle : values.length ≤ rest.length) :
    store (done.map some ++ rest) done.length values =
      some ((done ++ values).map some ++ rest.drop values.length) := by
  have hwrite : done.length + (values.map some).length ≤ (done.map some ++ rest).length := by
    rw [List.length_append, List.length_map, List.length_map]
    omega
  rw [store, write_of_le hwrite, List.length_map, List.take_left' (List.length_map _),
    List.drop_append, List.length_map, Nat.add_sub_cancel_left,
    List.drop_of_length_le (by rw [List.length_map]; omega), List.nil_append, List.map_append]

/-- Storing at the beginning of a new block. -/
theorem exists_store_alloc (values : List α) (hle : values.length ≤ n) :
    ∃ b, (alloc n).store 0 values = some b ∧ b.length = n ∧
      b.take values.length = values.map some := by
  have hnone : (alloc n).take 0 = ([] : List α).map some := rfl
  obtain ⟨b, hstore, hlen, htake⟩ := exists_store values hnone
    (by rwa [length_alloc, Nat.zero_add])
  rw [length_alloc] at hlen
  rw [Nat.zero_add, List.nil_append] at htake
  exact ⟨b, hstore, hlen, htake⟩

/-! ## Reading -/

theorem mapM_id_eq_some_iff {cells : List (Option α)} {values : List α} :
    cells.mapM id = some values ↔ cells = values.map some := by
  induction cells generalizing values with
  | nil =>
    rw [List.mapM_nil, eq_comm (a := []), List.map_eq_nil_iff]
    exact ⟨fun h => (Option.some.inj h).symm, fun h => congrArg some h.symm⟩
  | cons cell cells ih =>
    rw [List.mapM_cons]
    cases values with
    | nil =>
      refine iff_of_false ?_ (List.cons_ne_nil _ _)
      cases cell with
      | none => exact fun h => nomatch h
      | some value =>
        cases cells.mapM id with
        | none => exact fun h => nomatch h
        | some rest => exact fun h => nomatch h
    | cons value values =>
      rw [List.map_cons, List.cons.injEq, ← ih]
      cases cell with
      | none => exact iff_of_false (fun h => nomatch h) (fun h => nomatch h.1)
      | some first =>
        cases cells.mapM id with
        | none => exact iff_of_false (fun h => nomatch h) (fun h => nomatch h.2)
        | some rest =>
          simp only [id_eq, Option.bind_eq_bind, Option.bind_some, Option.pure_def,
            Option.some.injEq, List.cons.injEq]

/-- What is loaded are the values of the cells. -/
theorem load_eq_some_iff {values : List α} :
    b.load start n = some values ↔
      start + n ≤ b.length ∧ (b.drop start).take n = values.map some := by
  unfold load read
  split_ifs with h
  · rw [Option.bind_some, mapM_id_eq_some_iff, and_iff_right h]
  · exact iff_of_false (fun hnone => Option.some_ne_none values hnone.symm) fun hn => h hn.1

/-! ## Rows -/

variable {rows : List (List α)} {row : List α} {width i : ℕ}

theorem length_flatten (h : ∀ row ∈ rows, row.length = width) :
    rows.flatten.length = rows.length * width := by
  induction rows with
  | nil => exact (Nat.zero_mul width).symm
  | cons row rows ih =>
    rw [List.flatten_cons, List.length_append, h row List.mem_cons_self,
      ih fun r hr => h r (List.mem_cons_of_mem row hr), List.length_cons, Nat.succ_mul,
      Nat.add_comm]

/-- The place of a row among rows of one width. -/
theorem take_drop_flatten (h : ∀ row ∈ rows, row.length = width) (hi : rows[i]? = some row) :
    (rows.flatten.drop (i * width)).take width = row := by
  induction rows generalizing i with
  | nil => cases hi
  | cons first rows ih =>
    have hfirst := h first List.mem_cons_self
    cases i with
    | zero =>
      obtain rfl := Option.some.inj hi
      rw [Nat.zero_mul, List.drop_zero, List.flatten_cons, ← hfirst, List.take_left]
    | succ i =>
      rw [List.flatten_cons, Nat.succ_mul, Nat.add_comm, ← List.drop_drop, ← hfirst,
        List.drop_left, hfirst]
      exact ih (fun r hr => h r (List.mem_cons_of_mem first hr)) hi

end Block
