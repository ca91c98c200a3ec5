import Cebus.Collection.Array

/-!
# The growth of a dynamic array

The block of an array has room for its capacity, and the elements lie at its beginning, one
behind the other.

* `Holds.ensure`: making room for one more element moves none.
* `Holds.step`: an event leaves in the array what it makes of the elements.
* `grows_of_run`: as long as the elements have less than 2^63 bytes, an array holds what has
  been pushed to it.
-/

namespace Cebus.CbArray

open Transition

variable {elementSize capacity : UInt64} {elements : List (List UInt8)} {array : CbArray}
  {bytes : List UInt8} {event : Event} {i : ℕ}

/-! ## What an array holds -/

/-- The elements lie at the beginning of the block, one behind the other. -/
structure Lie (elementSize : UInt64) (elements : List (List UInt8)) (array : CbArray) : Prop where
  width : ∀ bytes ∈ elements, bytes.length = elementSize.toNat
  size : array.size.toNat = elements.length
  size_le : array.size.toNat ≤ array.capacity.toNat
  room : elements.length * elementSize.toNat ≤ array.data.length
  fits : elements.length * elementSize.toNat < 2 ^ 64
  cells : array.data.take (elements.length * elementSize.toNat) = elements.flatten.map some
  elementSize : array.elementSize = elementSize

/-- The array holds the elements, in a block with room for its capacity. -/
structure Holds (elementSize : UInt64) (elements : List (List UInt8)) (array : CbArray) : Prop where
  width : ∀ bytes ∈ elements, bytes.length = elementSize.toNat
  size : array.size.toNat = elements.length
  size_le : array.size.toNat ≤ array.capacity.toNat
  length : array.data.length = array.capacity.toNat * elementSize.toNat
  fits : array.capacity.toNat * elementSize.toNat < 2 ^ 64
  cells : array.data.take (elements.length * elementSize.toNat) = elements.flatten.map some
  elementSize : array.elementSize = elementSize

/-- A new array, without a block or with one whose size fits in a `size_t`. -/
def Initial (elementSize : UInt64) (array : CbArray) : Prop :=
  array = init elementSize ∨
    ∃ capacity : UInt64, capacity.toNat * elementSize.toNat < 2 ^ 64 ∧
      array = initWithCapacity capacity elementSize

/-- A whole element is written, and with it the elements have less than 2^63 bytes. -/
def Bounded (array : CbArray) : Event → Prop
  | .push bytes => bytes.length = array.elementSize.toNat ∧
      (array.size.toNat + 1) * array.elementSize.toNat < 2 ^ 63
  | .clear _ => True

instance (array : CbArray) : ∀ event, Decidable (Bounded array event)
  | .push _ => inferInstanceAs (Decidable (_ ∧ _))
  | .clear _ => .isTrue trivial

/-- The array is as large as its elements need, an iteration reads these, and the next push
    returns the slot behind them, in the block. -/
structure Grows (elements : List (List UInt8)) (array : CbArray) : Prop where
  size : array.size.toNat = elements.length
  size_le : array.size ≤ array.capacity
  iterate : iterElements array = elements.map some
  push : ∀ bytes, Bounded array (.push bytes) → ∃ array' slot,
    CbArray.push array = some (array', slot) ∧
      slot.toNat = array.size.toNat * array.elementSize.toNat ∧
      slot.toNat + array.elementSize.toNat ≤ array'.data.length

/-- An offset that lies in a block does not wrap around. -/
theorem toNat_mul_of_lt {a b : UInt64} (h : a.toNat * b.toNat < 2 ^ 64) :
    (a * b).toNat = a.toNat * b.toNat := by
  rw [UInt64.toNat_mul, Nat.mod_eq_of_lt h]

theorem Initial.holds (h : Initial elementSize array) : Holds elementSize [] array := by
  obtain rfl | ⟨capacity, hfits, rfl⟩ := h
  · refine ⟨(fun _ hmem => nomatch hmem), rfl, Nat.le_refl _, (Nat.zero_mul _).symm, ?_,
      List.take_nil, rfl⟩
    exact Nat.lt_of_le_of_lt (Nat.le_of_eq (Nat.zero_mul _)) (Nat.pow_pos (by decide))
  · refine ⟨(fun _ hmem => nomatch hmem), rfl, Nat.zero_le _, ?_, hfits, ?_, rfl⟩
    · rw [initWithCapacity, Block.length_alloc, toNat_mul_of_lt hfits]
    · rw [List.length_nil, Nat.zero_mul]
      rfl

/-! ## Reading -/

namespace Lie

/-- **An element is read** at its index. -/
theorem deref_get (h : Lie elementSize elements array) (hi : elements[i]? = some bytes) :
    deref array (get array (UInt64.ofNat i)) = some bytes := by
  obtain ⟨hlt, -⟩ := List.getElem?_eq_some_iff.mp hi
  have hsize := h.size
  have hle := h.size_le
  have hroom := h.room
  have hfits := h.fits
  have hcap := array.capacity.toNat_lt
  have hindex : (UInt64.ofNat i).toNat = i := UInt64.toNat_ofNat_of_lt' (show i < 2 ^ 64 by omega)
  have hend : (i + 1) * elementSize.toNat ≤ elements.length * elementSize.toNat :=
    Nat.mul_le_mul_right _ hlt
  rw [Nat.succ_mul] at hend
  have hoffset : (UInt64.ofNat i * elementSize).toNat = i * elementSize.toNat := by
    rw [toNat_mul_of_lt (by rw [hindex]; omega), hindex]
  have hin : ¬UInt64.ofNat i ≥ array.capacity := by
    rw [ge_iff_le, UInt64.le_iff_toNat_le, hindex]
    omega
  rw [get, if_neg hin, deref, Option.bind_some, offsetN, h.elementSize, hoffset,
    Block.load_eq_some_iff]
  refine ⟨by omega, ?_⟩
  have hrow := congrArg (fun cells => (cells.drop (i * elementSize.toNat)).take elementSize.toNat)
    h.cells
  simp only [List.drop_take, List.take_take, ← List.map_drop, ← List.map_take] at hrow
  rwa [Nat.min_eq_left (by omega), Block.take_drop_flatten h.width hi] at hrow

/-- **An iteration reads the elements.** -/
theorem iterElements (h : Lie elementSize elements array) :
    iterElements array = elements.map some := by
  rw [iterElements_eq, h.size]
  apply List.ext_getElem?
  intro i
  rw [List.getElem?_map, List.getElem?_map]
  cases hi : elements[i]? with
  | none =>
    have hlen := List.getElem?_eq_none_iff.mp hi
    rw [List.getElem?_eq_none (by rwa [List.length_range])]
    rfl
  | some bytes =>
    obtain ⟨hlt, -⟩ := List.getElem?_eq_some_iff.mp hi
    rw [List.getElem?_range hlt, Option.map_some, h.deref_get hi]
    rfl

end Lie

/-! ## Growing -/

/-- The size that is needed for one more element. -/
theorem needed_of_bound (hpos : 1 ≤ elementSize.toNat)
    (hbound : (array.size.toNat + 1) * elementSize.toNat < 2 ^ 63) :
    (array.size + 1).toNat = array.size.toNat + 1 ∧ array.size.toNat + 1 < 2 ^ 63 := by
  have hle : array.size.toNat + 1 ≤ (array.size.toNat + 1) * elementSize.toNat :=
    Nat.le_mul_of_pos_right _ hpos
  exact ⟨toNat_add_one (by omega), by omega⟩

/-- The size that is grown to is behind the one that is needed, and its bytes can be counted. -/
theorem exists_growSize (hpos : 1 ≤ elementSize.toNat)
    (hbound : (array.size.toNat + 1) * elementSize.toNat < 2 ^ 63) :
    ∃ newSize, array.growSize (array.size + 1) = some newSize ∧
      array.size.toNat + 1 < newSize.toNat ∧ newSize.toNat * elementSize.toNat < 2 ^ 64 := by
  obtain ⟨hneeded, hlt63⟩ := needed_of_bound hpos hbound
  have hone : (1 : UInt64).toNat = 1 := rfl
  -- at least 1 and at most the size that is needed
  have hstart : 1 ≤ (if array.size = 0 then 1 else array.size).toNat ∧
      (if array.size = 0 then 1 else array.size).toNat ≤ array.size.toNat + 1 := by
    split_ifs with hzero
    · omega
    · have hne : array.size.toNat ≠ 0 := fun h0 => hzero (UInt64.toNat_inj.mp h0)
      omega
  obtain ⟨newSize, hloop, hlt, hdouble⟩ := growLoop_eq_some 64
    (if array.size = 0 then 1 else array.size) (show (array.size + 1).toNat < _ by omega) (by omega)
  rw [hneeded] at hlt hdouble
  have hbytes : newSize.toNat * elementSize.toNat ≤
      2 * (array.size.toNat + 1) * elementSize.toNat := by
    refine Nat.mul_le_mul_right _ ?_
    obtain rfl | hdouble := hdouble
    · omega
    · exact hdouble
  rw [Nat.mul_assoc] at hbytes
  exact ⟨newSize, hloop, hlt, by omega⟩

namespace Holds

/-- The elements lie in the block. -/
theorem lie (h : Holds elementSize elements array) : Lie elementSize elements array := by
  have hroom : elements.length * elementSize.toNat ≤ array.capacity.toNat * elementSize.toNat :=
    Nat.mul_le_mul_right _ (h.size ▸ h.size_le)
  exact ⟨h.width, h.size, h.size_le, h.length ▸ hroom, Nat.lt_of_le_of_lt hroom h.fits, h.cells,
    h.elementSize⟩

/-- **A larger block** holds the same elements. -/
theorem grow (h : Holds elementSize elements array) (hle : array.size.toNat ≤ capacity.toNat)
    (hfits : capacity.toNat * elementSize.toNat < 2 ^ 64) :
    ∃ array', array.grow capacity = some array' ∧ Holds elementSize elements array' ∧
      array'.size = array.size ∧ array'.capacity = capacity := by
  have hsize : (array.size * elementSize).toNat = elements.length * elementSize.toNat := by
    have hbytes : array.size.toNat * elementSize.toNat ≤
        array.capacity.toNat * elementSize.toNat := Nat.mul_le_mul_right _ h.size_le
    rw [toNat_mul_of_lt (Nat.lt_of_le_of_lt hbytes h.fits), h.size]
  have hread : array.data.read 0 (elements.length * elementSize.toNat) =
      some (elements.flatten.map some) := by
    rw [Block.read, Nat.zero_add, if_pos h.lie.room, List.drop_zero, h.cells]
  have hflatten := Block.length_flatten h.width
  have hroom : elements.length * elementSize.toNat ≤ capacity.toNat * elementSize.toNat :=
    Nat.mul_le_mul_right _ (h.size ▸ hle)
  obtain ⟨data, hstore, hlength, hcells⟩ := Block.exists_store_alloc
    (n := capacity.toNat * elementSize.toNat) elements.flatten (hflatten ▸ hroom)
  rw [hflatten] at hcells
  rw [Block.store] at hstore
  refine ⟨{ array with data := data, capacity := capacity }, ?_,
    ⟨h.width, h.size, hle, hlength, hfits, hcells, h.elementSize⟩, rfl, rfl⟩
  simp only [CbArray.grow, h.elementSize, hsize, hread, toNat_mul_of_lt hfits,
    Option.bind_eq_bind, Option.bind_some, hstore]

/-- **Making room for one more element** moves none of the elements; the slot behind them lies in
    the block. -/
theorem ensure (h : Holds elementSize elements array) (hpos : 1 ≤ elementSize.toNat)
    (hbound : (array.size.toNat + 1) * elementSize.toNat < 2 ^ 63) :
    ∃ array' slot, array.ensure 1 = some (array', slot) ∧ Holds elementSize elements array' ∧
      array'.size = array.size ∧ array.size.toNat + 1 ≤ array'.capacity.toNat ∧
      slot.toNat = elements.length * elementSize.toNat := by
  obtain ⟨hneeded, hlt63⟩ := needed_of_bound hpos hbound
  have hslot {array' : CbArray} (h' : Holds elementSize elements array') :
      (offsetN array' array'.size).toNat = elements.length * elementSize.toNat := by
    have hbytes := Nat.mul_le_mul_right elementSize.toNat h'.size_le
    rw [offsetN, h'.elementSize, toNat_mul_of_lt (Nat.lt_of_le_of_lt hbytes h'.fits), h'.size]
  rw [CbArray.ensure]
  by_cases hgrow : array.size + 1 ≥ array.capacity
  · obtain ⟨newSize, hnew, hlt, hfits⟩ := exists_growSize hpos hbound
    obtain ⟨array', heq, h', hsize, hcapacity⟩ := h.grow (by omega) hfits
    refine ⟨array', offsetN array' array'.size, ?_, h', hsize, by rw [hcapacity]; omega, hslot h'⟩
    simp only [if_pos hgrow, hnew, heq, Option.bind_eq_bind, Option.bind_some]
  · have hroom := hgrow
    rw [ge_iff_le, UInt64.le_iff_toNat_le, hneeded] at hroom
    refine ⟨array, offsetN array array.size, ?_, h, rfl, by omega, hslot h⟩
    simp only [if_neg hgrow, Option.bind_eq_bind, Option.bind_some]

/-! ## Steps -/

/-- **A push** returns the slot behind the elements, and the array holds one more element when the
    slot has been written to. -/
theorem push (h : Holds elementSize elements array) (hpos : 1 ≤ elementSize.toNat)
    (hwidth : bytes.length = elementSize.toNat)
    (hbound : (array.size.toNat + 1) * elementSize.toNat < 2 ^ 63) :
    ∃ array' slot data, array.push = some (array', slot) ∧
      slot.toNat = elements.length * elementSize.toNat ∧
      slot.toNat + elementSize.toNat ≤ array'.data.length ∧
      array'.data.store slot.toNat bytes = some data ∧
      Holds elementSize (elements ++ [bytes]) { array' with data } := by
  obtain ⟨array', slot, heq, h', hsize, hroom, hslot⟩ := h.ensure hpos hbound
  have hnext : (array'.size + 1).toNat = elements.length + 1 := by
    rw [hsize, (needed_of_bound hpos hbound).1, h.size]
  have hlast : elements.length * elementSize.toNat + elementSize.toNat ≤ array'.data.length := by
    rw [h'.length, ← Nat.succ_mul]
    exact Nat.mul_le_mul_right _ (h.size ▸ hroom)
  obtain ⟨data, hstore, hlength, hcells⟩ := Block.exists_store bytes h'.cells
    (by rw [hwidth]; exact hlast)
  refine ⟨{ array' with size := array'.size + 1 }, slot, data, ?_, hslot,
    by rw [hslot]; exact hlast, by rw [hslot]; exact hstore, ?_⟩
  · simp only [CbArray.push, heq, Option.bind_eq_bind, Option.bind_some]
  · refine ⟨?_, ?_, ?_, hlength.trans h'.length, h'.fits, ?_, h'.elementSize⟩
    · intro x hx
      obtain hx | hx := List.mem_append.mp hx
      · exact h.width x hx
      · rw [List.mem_singleton.mp hx, hwidth]
    · rw [hnext, List.length_append, List.length_singleton]
    · dsimp only
      rw [hnext, ← h.size]
      exact hroom
    · rw [hwidth] at hcells
      rw [List.length_append, List.length_singleton, Nat.succ_mul, List.flatten_append,
        List.flatten_singleton]
      exact hcells

/-- A clear leaves no element, and the block as large as it was. -/
theorem clear (h : Holds elementSize elements array) (destructor : Option CbArrayDtor) :
    Holds elementSize [] (array.clear destructor) where
  width := fun _ hmem => nomatch hmem
  size := rfl
  size_le := Nat.zero_le _
  length := (length_clear array destructor).trans h.length
  fits := h.fits
  cells := by
    rw [List.length_nil, Nat.zero_mul]
    rfl
  elementSize := h.elementSize

/-- **An event** leaves what it makes of the elements. -/
theorem step (h : Holds elementSize elements array) (hpos : 1 ≤ elementSize.toNat)
    (hbound : Bounded array event) :
    ∃ array', CbArray.step array event = some array' ∧
      Holds elementSize (contentsStep elements event) array' := by
  cases event with
  | push bytes =>
    obtain ⟨hwidth, hbound⟩ := hbound
    rw [h.elementSize] at hwidth hbound
    obtain ⟨array', slot, data, hpush, -, -, hstore, h'⟩ := h.push hpos hwidth hbound
    refine ⟨_, ?_, h'⟩
    simp only [CbArray.step, hpush, Option.bind_eq_bind, Option.bind_some, hstore]
  | clear destructor => exact ⟨_, rfl, h.clear destructor⟩

end Holds

/-! ## Runs -/

/-- **The array grows without losing or moving elements**: as long as these have less than 2^63
    bytes, a run goes on, an iteration reads what has been pushed since the last clear, and a
    push returns the slot behind it. -/
theorem grows_of_run (hpos : 1 ≤ elementSize.toNat) (hinit : Initial elementSize array)
    {events : List Event} (h : Guarded step Bounded array events) :
    ∃ array', run step array events = some array' ∧ Grows (contents events) array' := by
  obtain ⟨array', hrun, hholds⟩ := h.reaches
    (I := fun events => Holds elementSize (contents events)) hinit.holds
    fun events event array' _ hI hbound => by
      rw [contents, List.foldl_append]
      exact hI.step hpos hbound
  refine ⟨array', hrun, hholds.size, UInt64.le_iff_toNat_le.mpr hholds.size_le,
    hholds.lie.iterElements, fun bytes hbound => ?_⟩
  obtain ⟨hwidth, hbound⟩ := hbound
  rw [hholds.elementSize] at hwidth hbound ⊢
  obtain ⟨array'', slot, -, hpush, hslot, hlast, -⟩ := hholds.push hpos hwidth hbound
  exact ⟨array'', slot, hpush, hholds.size ▸ hslot, hlast⟩

/-- Two pushes of one byte, the second of which makes the block grow. -/
theorem grows_twoPushes :
    ∃ array', run step (init 1) [.push [1], .push [2]] = some array' ∧
      Grows (contents [.push [1], .push [2]]) array' :=
  grows_of_run (show 1 ≤ (1 : UInt64).toNat by decide) (Or.inl rfl) (by decide)

end Cebus.CbArray
