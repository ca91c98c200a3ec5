import Cebus.Lib.Block
import Cebus.Lib.Transition

/-!
# Dynamic arrays (`array.c`)

Sizes and capacities count elements, and the block at `data` has bytes. A pointer to an element
is its offset in the block. A result that is missing stands for an access outside of a block, or
for a loop without an end.

* `growLoop_eq_some`: the doubled size is behind the target, and at most twice as large.
* `iterLoop_eq`: an iterator goes over the indices below the size.
-/

namespace Cebus

/-! ## Types -/

/-- `cb_array` (`array.h`, lines 8–21), with the block that `data` points to, which is one
    without cells for `NULL`. -/
structure CbArray where
  data : Block UInt8
  size : UInt64
  capacity : UInt64
  elementSize : UInt64

/-- `cb_array_iterator_base` (lines 24–29). -/
structure CbArrayIteratorBase where
  index : UInt64
  size : UInt64

/-- `cb_array_iterator` and `cb_array_iterator_mut` (lines 33–45). -/
structure CbArrayIterator where
  base : CbArrayIteratorBase
  array : CbArray

/-- `cb_array_dtor` (line 50) with its `user`: what a call for an element makes of the block. -/
structure CbArrayDtor where
  call : Block UInt8 → Option UInt64 → Block UInt8
  length_call : ∀ data element, (call data element).length = data.length

namespace CbArray

/-! ## Growth -/

/-- `cb_array_offset_n` (lines 7–10). -/
def offsetN (array : CbArray) (index : UInt64) : UInt64 := index * array.elementSize

/-- The loop of `cb_array_grow_size` (lines 18–19). -/
def growLoop : ℕ → UInt64 → UInt64 → Option UInt64
  | 0, _, _ => none
  | turns + 1, size, targetSize =>
    if size ≤ targetSize then growLoop turns (size * 2) targetSize else some size

/-- `cb_array_grow_size` (lines 12–22). After 64 turns the size is 0 and stays 0. -/
def growSize (array : CbArray) (targetSize : UInt64) : Option UInt64 :=
  growLoop 65 (if array.size = 0 then 1 else array.size) targetSize

/-- `cb_array_grow` (lines 24–35). -/
def grow (array : CbArray) (newCapacity : UInt64) : Option CbArray := do
  let allocSize := newCapacity * array.elementSize
  let cells ← array.data.read 0 (array.size * array.elementSize).toNat
  let newData ← (Block.alloc allocSize.toNat).write 0 cells
  some { array with data := newData, capacity := newCapacity }

/-- `cb_array_ensure` (lines 37–47). -/
def ensure (array : CbArray) (size : UInt64) : Option (CbArray × UInt64) := do
  let neededSize := array.size + size
  let array ←
    if neededSize ≥ array.capacity then do
      let newSize ← growSize array neededSize
      grow array newSize
    else some array
  some (array, offsetN array array.size)

/-! ## Elements -/

/-- `cb_array_get` (lines 49–55). -/
def get (array : CbArray) (index : UInt64) : Option UInt64 :=
  if index ≥ array.capacity then none else some (offsetN array index)

/-- `cb_array_get_mut` (lines 57–63). -/
def getMut (array : CbArray) (index : UInt64) : Option UInt64 :=
  if index ≥ array.capacity then none else some (offsetN array index)

/-- `cb_array_init` (lines 65–73). -/
def init (elementSize : UInt64) : CbArray := { data := [], size := 0, capacity := 0, elementSize }

/-- `cb_array_init_with_capacity` (lines 75–83). -/
def initWithCapacity (size elementSize : UInt64) : CbArray :=
  { data := Block.alloc (size * elementSize).toNat, size := 0, capacity := size, elementSize }

/-- `cb_array_copy` (lines 85–97). -/
def copy (src : CbArray) : Option CbArray := do
  let cells ← src.data.read 0 src.capacity.toNat
  let dataCopy ← (Block.alloc src.capacity.toNat).write 0 cells
  some { data := dataCopy, size := src.size, capacity := src.capacity,
         elementSize := src.elementSize }

/-- `cb_array_push` (lines 99–104). -/
def push (array : CbArray) : Option (CbArray × UInt64) := do
  let (array, data) ← ensure array 1
  some ({ array with size := array.size + 1 }, data)

/-! ## Iterators -/

/-- `cb_array_iter` (lines 136–140) and `cb_array_iter_mut` (lines 142–146). -/
def iter (array : CbArray) : CbArrayIterator := ⟨⟨0, array.size⟩, array⟩

/-- `cb_array_iter_has_next` (lines 148–151). -/
def iterHasNext (iter : CbArrayIteratorBase) : Bool := iter.index < iter.size

/-- `cb_array_iter_move_next` (lines 153–156). -/
def iterMoveNext (iter : CbArrayIteratorBase) : CbArrayIteratorBase :=
  { iter with index := iter.index + 1 }

/-- `cb_array_iter_get` (lines 158–161). -/
def iterGet (iter : CbArrayIterator) : Option UInt64 := get iter.array iter.base.index

/-- `cb_array_iter_get_mut` (lines 163–166). -/
def iterGetMut (iter : CbArrayIterator) : Option UInt64 := getMut iter.array iter.base.index

/-- A number that is not the largest does not wrap around. -/
theorem toNat_add_one {n : UInt64} (h : n.toNat + 1 < 2 ^ 64) : (n + 1).toNat = n.toNat + 1 := by
  have hone : (1 : UInt64).toNat = 1 := rfl
  rw [UInt64.toNat_add, hone, Nat.mod_eq_of_lt h]

/-- The iterator comes nearer to its end, as its index does not wrap around. -/
theorem sub_iterMoveNext_lt {iter : CbArrayIteratorBase} (h : iterHasNext iter = true) :
    (iterMoveNext iter).size.toNat - (iterMoveNext iter).index.toNat <
      iter.size.toNat - iter.index.toNat := by
  have hlt := UInt64.lt_iff_toNat_lt.mp (of_decide_eq_true h)
  have hsize := iter.size.toNat_lt
  rw [iterMoveNext, toNat_add_one (by omega)]
  dsimp only
  omega

/-- `while (cb_array_iter_has_next(…)) { …; cb_array_iter_move_next(…); }`, where `element` is
    `iterGet` or `iterGetMut`. -/
def iterLoop {σ : Type} (element : CbArrayIterator → Option UInt64)
    (body : σ → Option UInt64 → σ) (state : σ) (iter : CbArrayIterator) : σ :=
  if _h : iterHasNext iter.base = true then
    iterLoop element body (body state (element iter)) { iter with base := iterMoveNext iter.base }
  else state
termination_by iter.base.size.toNat - iter.base.index.toNat
decreasing_by exact sub_iterMoveNext_lt _h

/-- `cb_array_clear` (lines 116–128). -/
def clear (array : CbArray) (destructor : Option CbArrayDtor) : CbArray :=
  let data :=
    match destructor with
    | none => array.data
    | some destructor => iterLoop iterGetMut destructor.call array.data (iter array)
  { array with data, size := 0 }

/-! ## Runs -/

/-- A push whose slot is written to, or a clear. -/
inductive Event
  | push (bytes : List UInt8)
  | clear (destructor : Option CbArrayDtor)

/-- One event. -/
def step (array : CbArray) : Event → Option CbArray
  | .push bytes => do
    let (array, slot) ← push array
    let data ← array.data.store slot.toNat bytes
    some { array with data }
  | .clear destructor => some (clear array destructor)

/-- What an event makes of the elements. -/
def contentsStep (elements : List (List UInt8)) : Event → List (List UInt8)
  | .push bytes => elements ++ [bytes]
  | .clear _ => []

/-- The elements that have been pushed since the last clear. -/
def contents (events : List Event) : List (List UInt8) := events.foldl contentsStep []

/-- The bytes of the element that a pointer points to. -/
def deref (array : CbArray) (element : Option UInt64) : Option (List UInt8) :=
  element.bind fun slot => array.data.load slot.toNat array.elementSize.toNat

/-- What an iteration reads. -/
def iterElements (array : CbArray) : List (Option (List UInt8)) :=
  iterLoop iterGet (fun elements element => elements ++ [deref array element]) [] (iter array)

/-! ## The doubling of the size -/

variable {turns : ℕ} {size targetSize newSize : UInt64}

/-- The size is doubled until it is behind the target. -/
theorem lt_of_growLoop (h : growLoop turns size targetSize = some newSize) :
    targetSize.toNat < newSize.toNat := by
  induction turns generalizing size with
  | zero => cases h
  | succ turns ih =>
    rw [growLoop] at h
    split_ifs at h with hle
    · exact ih h
    · obtain rfl := Option.some.inj h
      rw [UInt64.le_iff_toNat_le] at hle
      omega

/-- **Below 2^63** the doubling ends, at most at twice the target. -/
theorem growLoop_eq_some (turns : ℕ) (size : UInt64)
    (hturns : targetSize.toNat < size.toNat * 2 ^ turns)
    (htarget : targetSize.toNat < 2 ^ 63) :
    ∃ newSize, growLoop (turns + 1) size targetSize = some newSize ∧
      targetSize.toNat < newSize.toNat ∧
      (newSize = size ∨ newSize.toNat ≤ 2 * targetSize.toNat) := by
  induction turns generalizing size with
  | zero =>
    have hle : ¬size ≤ targetSize := by
      rw [UInt64.le_iff_toNat_le]
      omega
    rw [growLoop, if_neg hle]
    exact ⟨size, rfl, by omega, Or.inl rfl⟩
  | succ turns ih =>
    rw [growLoop]
    by_cases hle : size ≤ targetSize
    · have hsize := UInt64.le_iff_toNat_le.mp hle
      have hdouble : (size * 2).toNat = 2 * size.toNat := by
        have htwo : (2 : UInt64).toNat = 2 := rfl
        rw [UInt64.toNat_mul, htwo]
        omega
      obtain ⟨newSize, hloop, hlt, hbound⟩ := ih (size * 2) (by
        rw [hdouble, Nat.mul_comm 2, Nat.mul_assoc, ← Nat.pow_succ']
        exact hturns)
      refine ⟨newSize, by rw [if_pos hle, hloop], hlt, Or.inr ?_⟩
      obtain rfl | hbound := hbound
      · omega
      · exact hbound
    · rw [if_neg hle]
      rw [UInt64.le_iff_toNat_le] at hle
      exact ⟨size, rfl, by omega, Or.inl rfl⟩

/-! ## Iterations -/

variable {σ : Type} {element : CbArrayIterator → Option UInt64} {body : σ → Option UInt64 → σ}

/-- What each turn keeps is kept by the loop. -/
theorem iterLoop_keeps {P : σ → Prop} (hbody : ∀ state e, P state → P (body state e)) {state : σ}
    (h : P state) (iter : CbArrayIterator) : P (iterLoop element body state iter) := by
  fun_induction iterLoop element body state iter with
  | case1 state iter _ ih => exact ih (hbody _ _ h)
  | case2 => exact h

/-- **An iteration** goes over the indices from its own to its size. -/
theorem iterLoop_eq (state : σ) (iter : CbArrayIterator) :
    iterLoop element body state iter =
      ((List.range' iter.base.index.toNat
        (iter.base.size.toNat - iter.base.index.toNat)).map fun i =>
          element { iter with base := { iter.base with index := UInt64.ofNat i } }).foldl
        body state := by
  fun_induction iterLoop element body state iter with
  | case1 state iter hnext ih =>
    have hlt := UInt64.lt_iff_toNat_lt.mp (of_decide_eq_true hnext)
    have hsize := iter.base.size.toNat_lt
    have hindex : (iter.base.index + 1).toNat = iter.base.index.toNat + 1 :=
      toNat_add_one (by omega)
    obtain ⟨n, hn⟩ : ∃ n, iter.base.size.toNat - iter.base.index.toNat = n + 1 :=
      ⟨iter.base.size.toNat - (iter.base.index.toNat + 1), by omega⟩
    have hrest : iter.base.size.toNat - (iter.base.index.toNat + 1) = n := by omega
    rw [ih, hn, List.range'_succ, List.map_cons, List.foldl_cons, UInt64.ofNat_toNat]
    dsimp only [iterMoveNext]
    rw [hindex, hrest]
  | case2 state iter hend =>
    have hle : ¬iter.base.index.toNat < iter.base.size.toNat := fun hlt =>
      hend (decide_eq_true (UInt64.lt_iff_toNat_lt.mpr hlt))
    have hzero : iter.base.size.toNat - iter.base.index.toNat = 0 := by omega
    rw [hzero]
    rfl

/-- What an iteration reads, by index. -/
theorem iterElements_eq (array : CbArray) :
    iterElements array =
      (List.range array.size.toNat).map fun i => deref array (get array (UInt64.ofNat i)) := by
  have hfold (l : List (Option UInt64)) (done : List (Option (List UInt8))) :
      l.foldl (fun elements element => elements ++ [deref array element]) done =
        done ++ l.map (deref array) := by
    induction l generalizing done with
    | nil => exact (List.append_nil _).symm
    | cons element l ih =>
      rw [List.foldl_cons, ih, List.map_cons, List.append_assoc, List.singleton_append]
  rw [iterElements, iterLoop_eq, hfold, List.nil_append, List.map_map, List.range_eq_range']
  rfl

/-- A destructor does not change the size of the block. -/
theorem length_clear (array : CbArray) (destructor : Option CbArrayDtor) :
    (clear array destructor).data.length = array.data.length := by
  cases destructor with
  | none => rfl
  | some destructor =>
    exact iterLoop_keeps (P := fun data => data.length = array.data.length)
      (fun data e h => (destructor.length_call data e).trans h) rfl (iter array)

end CbArray

end Cebus
