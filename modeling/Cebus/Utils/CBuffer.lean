import Cebus.Lib.Block
import Cebus.Utils.CString
import Mathlib.Data.List.Infix

/-!
# Strings in memory

The strings that the cells of a block hold, and the functions of the C library that write and
search them.

* `ofCells_eq_some_iff`: the string at a pointer ends at the first terminator.
* `strncpyTo_eq`: `strncpy` writes all of the bytes that it is given, whatever was in them.
* `strstr_eq_some_iff`: the first occurrence of a string in another one.
-/

namespace Cebus.CString

/-! ## Model -/

/-- The string without bytes. -/
def empty : CString := ⟨[], List.not_mem_nil⟩

/-- A string with a byte before it. -/
def cons (c : UInt8) (h : c ≠ 0) (s : CString) : CString :=
  ⟨c :: s.bytes, fun h0 => (List.mem_cons.mp h0).elim (fun heq => h heq.symm) s.noNul⟩

/-- The bytes of a string with its terminator. -/
def block (s : CString) : Block UInt8 := (s.bytes ++ [0]).map some

/-- The string that a pointer to the first of the cells points to. -/
def ofCells : List (Option UInt8) → Option CString
  | [] => none
  | none :: _ => none
  | some c :: cells => if h : c = 0 then some empty else (ofCells cells).map (cons c h)

/-- The `n` bytes that `strncpy(dst, s, n)` writes. -/
def padded (s : CString) (n : ℕ) : List UInt8 :=
  s.bytes.take n ++ List.replicate (n - s.bytes.length) 0

/-- `strncpy(dst + start, s, n)`. -/
def strncpyTo (dst : Block UInt8) (start : ℕ) (s : CString) (n : ℕ) : Option (Block UInt8) :=
  dst.store start (s.padded n)

/-- `strstr(s, needle)`: the index of the first occurrence. -/
def strstr (s needle : CString) : Option ℕ :=
  (List.range (s.bytes.length + 1)).find? fun i => needle.bytes.isPrefixOf (s.bytes.drop i)

/-! ## Reading a string -/

theorem ofCells_block_append (s : CString) (rest : Block UInt8) :
    ofCells (s.block ++ rest) = some s := by
  obtain ⟨bytes, hnul⟩ := s
  induction bytes with
  | nil => rfl
  | cons c bytes ih =>
    have hc : c ≠ 0 := fun h => hnul (h ▸ List.mem_cons_self)
    have hrest := ih fun h => hnul (List.mem_cons_of_mem c h)
    unfold block at hrest ⊢
    rw [List.cons_append, List.map_cons, List.cons_append, ofCells, dif_neg hc, hrest]
    rfl

theorem ofCells_block (s : CString) : ofCells s.block = some s := by
  have hblock := ofCells_block_append s []
  rwa [List.append_nil] at hblock

/-- **A string in memory** ends at its terminator. -/
theorem ofCells_eq_some_iff {cells : List (Option UInt8)} {s : CString} :
    ofCells cells = some s ↔ s.block <+: cells := by
  constructor
  · intro h
    induction cells generalizing s with
    | nil => cases h
    | cons cell cells ih =>
      cases cell with
      | none => cases h
      | some c =>
        unfold ofCells at h
        split_ifs at h with hzero
        · obtain rfl := Option.some.inj h
          rw [hzero]
          exact ⟨cells, rfl⟩
        · obtain ⟨t, ht, rfl⟩ := Option.map_eq_some_iff.mp h
          obtain ⟨rest, hrest⟩ := ih ht
          exact ⟨rest, congrArg (some c :: ·) hrest⟩
  · rintro ⟨rest, rfl⟩
    exact ofCells_block_append s rest

theorem length_block (s : CString) : s.block.length = s.bytes.length + 1 := by
  rw [block, List.length_map, List.length_append, List.length_singleton]

/-! ## Copying a string -/

theorem length_padded (s : CString) (n : ℕ) : (s.padded n).length = n := by
  rw [padded, List.length_append, List.length_take, List.length_replicate]
  omega

/-- A string that is shorter than the array is terminated in it. -/
theorem padded_of_lt {s : CString} {n : ℕ} (h : s.bytes.length < n) :
    s.padded n = s.bytes ++ [0] ++ List.replicate (n - s.bytes.length - 1) 0 := by
  obtain ⟨k, hk⟩ : ∃ k, n - s.bytes.length = k + 1 := ⟨n - s.bytes.length - 1, by omega⟩
  rw [padded, List.take_of_length_le (by omega), hk, List.replicate_succ, List.append_assoc]
  rfl

theorem padded_of_le {s : CString} {n : ℕ} (h : n ≤ s.bytes.length) :
    s.padded n = s.bytes.take n := by
  rw [padded, Nat.sub_eq_zero_of_le h, List.replicate_zero, List.append_nil]

/-- **`strncpy` overwrites the whole array**: nothing of what was in it is left. -/
theorem strncpyTo_eq {dst : Block UInt8} {n : ℕ} (s : CString) (h : dst.length = n) :
    strncpyTo dst 0 s n = some ((s.padded n).map some) := by
  have hstore := Block.store_append [] (s.padded n) dst
    (by rw [length_padded, h])
  rw [length_padded, List.drop_of_length_le (Nat.le_of_eq h), List.append_nil] at hstore
  exact hstore

/-- What is read of an array that a string has been copied to. -/
theorem ofCells_padded {s : CString} {n : ℕ} (h : s.bytes.length < n) :
    ofCells ((s.padded n).map some) = some s := by
  rw [padded_of_lt h, List.map_append]
  exact ofCells_block_append s _

/-! ## Searching a string -/

/-- **The first occurrence** of a string in another one. -/
theorem strstr_eq_some_iff {s needle : CString} {i : ℕ} :
    strstr s needle = some i ↔ needle.bytes <+: s.bytes.drop i ∧ i ≤ s.bytes.length ∧
      ∀ j < i, ¬needle.bytes <+: s.bytes.drop j := by
  rw [strstr, List.find?_range_eq_some, List.isPrefixOf_iff_prefix, List.mem_range,
    Nat.lt_succ_iff]
  simp only [Bool.not_eq_true', Bool.eq_false_iff, Ne, List.isPrefixOf_iff_prefix]

/-- What is before an occurrence, the occurrence, and what is behind it. -/
theorem bytes_of_strstr {s needle : CString} {i : ℕ} (h : strstr s needle = some i) :
    s.bytes = s.bytes.take i ++ needle.bytes ++ s.bytes.drop (i + needle.bytes.length) ∧
      i + needle.bytes.length ≤ s.bytes.length := by
  obtain ⟨⟨rest, hrest⟩, hle, -⟩ := strstr_eq_some_iff.mp h
  have hlen := congrArg List.length hrest
  rw [List.length_append, List.length_drop] at hlen
  have hdrop : s.bytes.drop (i + needle.bytes.length) = rest := by
    rw [← List.drop_drop, ← hrest, List.drop_left]
  refine ⟨?_, by omega⟩
  rw [hdrop, List.append_assoc, hrest, List.take_append_drop]

end Cebus.CString
