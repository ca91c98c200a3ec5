import Cebus.Collection.ArrayGrow

/-!
# Copies of a dynamic array, and reads by index

`cb_array_copy` copies as many bytes as the array has room for elements, and `cb_array_get`
compares the index with the capacity. Every push leaves room behind the elements.

* `copy_keeps_iff`: the elements that a copy keeps.
* `readsExactly_iff`: the arrays that are read by index as a list.
* `copiesAndReads_iff`: copies and reads agree with the elements exactly as long as nothing has
  been allocated.
-/

namespace Cebus.CbArray

open Transition

variable {elementSize : UInt64} {elements : List (List UInt8)} {array start : CbArray}
  {events : List Event} {event : Event}

/-! ## What copies and reads should do -/

/-- An element is read at every index below the size, and `NULL` at every other one. -/
def ReadsExactly (elements : List (List UInt8)) (array : CbArray) : Prop :=
  ∀ index : UInt64,
    match elements[index.toNat]? with
    | some bytes => deref array (get array index) = some bytes
    | none => get array index = none

/-- A copy has the elements, and both the array and the copy are read by index. -/
def CopiesAndReads (elements : List (List UInt8)) (array : CbArray) : Prop :=
  ReadsExactly elements array ∧
    ∃ dst, copy array = some dst ∧ dst.size = array.size ∧
      iterElements dst = elements.map some ∧ ReadsExactly elements dst

/-- An array that has just been initialised. -/
def Initialised (array : CbArray) : Prop :=
  ∃ elementSize, array = init elementSize ∨
    ∃ capacity, array = initWithCapacity capacity elementSize

/-- Nothing has been allocated: the array is new and without capacity, and no event is a push. -/
def NeverAllocated (start : CbArray) (events : List Event) : Prop :=
  start.capacity = 0 ∧ ∀ bytes, Event.push bytes ∉ events

/-! ## Copies -/

/-- A copy has the cells of the block up to the number of the capacity. -/
theorem Holds.copy (h : Holds elementSize elements array) (hpos : 1 ≤ elementSize.toNat) :
    copy array = some { array with data := array.data.take array.capacity.toNat } := by
  have hle : array.capacity.toNat ≤ array.data.length := by
    rw [h.length]
    exact Nat.le_mul_of_pos_right _ hpos
  have hcells : (array.data.take array.capacity.toNat).length = array.capacity.toNat := by
    rw [List.length_take, Nat.min_eq_left hle]
  have hread : array.data.read 0 array.capacity.toNat =
      some (array.data.take array.capacity.toNat) := by
    rw [Block.read, Nat.zero_add, if_pos hle, List.drop_zero]
  have hwrite : (Block.alloc array.capacity.toNat).write 0
      (array.data.take array.capacity.toNat) = some (array.data.take array.capacity.toNat) := by
    have hroom : 0 + (array.data.take array.capacity.toNat).length ≤
        (Block.alloc array.capacity.toNat : Block UInt8).length := by
      apply Nat.le_of_eq
      rw [hcells, Block.length_alloc, Nat.zero_add]
    rw [Block.write_of_le hroom, List.take_zero, List.nil_append, Nat.zero_add, hcells,
      List.drop_of_length_le (Nat.le_of_eq Block.length_alloc), List.append_nil]
  simp only [CbArray.copy, hread, hwrite, Option.bind_eq_bind, Option.bind_some]

/-- **A copy keeps the elements** only if they have no more bytes than the array has room for
    elements. -/
theorem copy_keeps_iff (h : Holds elementSize elements array) (hpos : 1 ≤ elementSize.toNat) :
    (∃ dst, copy array = some dst ∧ iterElements dst = elements.map some) ↔
      elements.length * elementSize.toNat ≤ array.capacity.toNat := by
  have hlie := h.lie
  have hle : array.capacity.toNat ≤ array.data.length := by
    rw [h.length]
    exact Nat.le_mul_of_pos_right _ hpos
  rw [h.copy hpos]
  constructor
  · rintro ⟨dst, heq, hiter⟩
    obtain rfl := Option.some.inj heq
    by_cases hzero : elements.length = 0
    · rw [hzero, Nat.zero_mul]
      exact Nat.zero_le _
    · -- the last element is read from the copy
      rw [iterElements_eq, h.size] at hiter
      have hlast := congrArg (fun l => l[elements.length - 1]?) hiter
      rw [List.getElem?_map, List.getElem?_map, List.getElem?_range (by omega), Option.map_some,
        List.getElem?_eq_getElem (by omega), Option.map_some, Option.some.injEq] at hlast
      obtain ⟨slot, hget, hload⟩ := Option.bind_eq_some_iff.mp hlast
      rw [get] at hget
      split_ifs at hget with hin
      obtain rfl := Option.some.inj hget
      have hend := (Block.load_eq_some_iff.mp hload).1
      have hindex : (UInt64.ofNat (elements.length - 1)).toNat = elements.length - 1 := by
        have hlt := array.size.toNat_lt
        rw [h.size] at hlt
        exact UInt64.toNat_ofNat_of_lt' (show elements.length - 1 < 2 ^ 64 by omega)
      have hfits := hlie.fits
      obtain ⟨n, hn⟩ : ∃ n, elements.length = n + 1 := ⟨elements.length - 1, by omega⟩
      rw [hn, Nat.succ_mul] at hfits ⊢
      rw [hn, Nat.add_sub_cancel] at hindex hend
      rw [offsetN, h.elementSize, toNat_mul_of_lt (by rw [hindex]; omega), hindex,
        List.length_take] at hend
      omega
  · intro hbytes
    have hlie' : Lie elementSize elements
        { array with data := array.data.take array.capacity.toNat } := by
      refine ⟨h.width, h.size, h.size_le, ?_, hlie.fits, ?_, h.elementSize⟩
      · rw [List.length_take, Nat.min_eq_left hle]
        exact hbytes
      · rw [List.take_take, Nat.min_eq_left hbytes, h.cells]
    exact ⟨_, rfl, hlie'.iterElements⟩

/-! ## Reads -/

/-- `cb_array_get` returns `NULL` from the capacity on. -/
theorem get_eq_none_iff (array : CbArray) (index : UInt64) :
    get array index = none ↔ array.capacity ≤ index := by
  rw [get]
  split_ifs with hin
  · exact iff_of_true rfl hin
  · exact iff_of_false not_false hin

/-- The size is that of the elements, and a block has room behind them. -/
structure Roomy (start : CbArray) (events : List Event) (array : CbArray) : Prop where
  size : array.size.toNat = (contents events).length
  lt_capacity : array.capacity ≠ 0 → array.size < array.capacity
  neverAllocated : array.capacity = 0 ↔ NeverAllocated start events
  of_capacity : array.capacity = 0 → array.data = [] ∧ contents events = []

theorem Initialised.roomy (h : Initialised start) : Roomy start [] start := by
  obtain ⟨elementSize, rfl | ⟨capacity, rfl⟩⟩ := h
  · exact ⟨rfl, fun hne => absurd rfl hne, iff_of_true rfl ⟨rfl, fun _ hmem => nomatch hmem⟩,
      fun _ => ⟨rfl, rfl⟩⟩
  · refine ⟨rfl, fun hne => ?_, ?_, fun hzero => ⟨?_, rfl⟩⟩
    · exact UInt64.pos_iff_ne_zero.mpr hne
    · exact ⟨fun hzero => ⟨hzero, fun _ hmem => nomatch hmem⟩, fun h => h.1⟩
    · have hcapacity : capacity = 0 := hzero
      rw [initWithCapacity, hcapacity, UInt64.zero_mul]
      rfl

/-- After room has been made for one more element there is room for another one. -/
theorem lt_capacity_of_ensure {array' : CbArray} {slot : UInt64}
    (h : ensure array 1 = some (array', slot)) :
    array'.size = array.size ∧ array.size + 1 < array'.capacity := by
  rw [ensure] at h
  split_ifs at h with hgrow
  · simp only [Option.bind_eq_bind, Option.bind_eq_some_iff, Option.some.injEq,
      Prod.mk.injEq] at h
    obtain ⟨newSize, hnew, grown, hgrown, rfl, -⟩ := h
    have hlt := lt_of_growLoop hnew
    simp only [grow, Option.bind_eq_bind, Option.bind_eq_some_iff, Option.some.injEq] at hgrown
    obtain ⟨cells, -, data, -, rfl⟩ := hgrown
    exact ⟨rfl, UInt64.lt_iff_toNat_lt.mpr hlt⟩
  · obtain ⟨rfl, -⟩ := Prod.mk.inj (Option.some.inj h)
    exact ⟨rfl, UInt64.not_le.mp hgrow⟩

/-- **An event keeps the room** behind the elements, and a push makes it. -/
theorem Roomy.step {array' : CbArray} (h : Roomy start events array)
    (hstep : step array event = some array') : Roomy start (events ++ [event]) array' := by
  have hcontents : contents (events ++ [event]) = contentsStep (contents events) event :=
    List.foldl_append
  cases event with
  | push bytes =>
    simp only [CbArray.step, push, Option.bind_eq_bind, Option.bind_eq_some_iff,
      Option.some.injEq, Prod.exists, Prod.mk.injEq] at hstep
    obtain ⟨pushed, slot, ⟨grown, slot', hensure, rfl, rfl⟩, data, -, rfl⟩ := hstep
    obtain ⟨hsize, hlt⟩ := lt_capacity_of_ensure hensure
    have hnever : ¬NeverAllocated start (events ++ [Event.push bytes]) :=
      fun hnever => hnever.2 bytes List.mem_concat_self
    have hpos : grown.capacity ≠ 0 := fun hzero => by
      rw [hzero] at hlt
      exact UInt64.not_lt_zero hlt
    have hroom : array.size.toNat + 1 < 2 ^ 64 := by
      have hcap := array.capacity.toNat_lt
      by_cases hzero : array.capacity = 0
      · rw [h.size, (h.of_capacity hzero).2]
        decide
      · have hlt := UInt64.lt_iff_toNat_lt.mp (h.lt_capacity hzero)
        omega
    refine ⟨?_, fun _ => ?_, iff_of_false hpos hnever, fun hzero => absurd hzero hpos⟩
    · rw [hcontents, contentsStep, List.length_append, List.length_singleton, ← h.size,
        ← toNat_add_one hroom, ← hsize]
    · rw [← hsize] at hlt
      exact hlt
  | clear destructor =>
    obtain rfl := Option.some.inj hstep
    refine ⟨by rw [hcontents]; rfl, UInt64.pos_iff_ne_zero.mpr, ?_, fun hzero => ⟨?_, hcontents⟩⟩
    · refine h.neverAllocated.trans (and_congr_right fun _ => forall_congr' fun bytes => ?_)
      have hne : Event.push bytes ≠ .clear destructor := by
        intro heq
        cases heq
      rw [List.mem_append, List.mem_singleton, or_iff_left hne]
    · rw [← List.length_eq_zero_iff, length_clear, (h.of_capacity hzero).1, List.length_nil]

/-- **Reads by index agree with the elements** only as long as nothing has been allocated. -/
theorem Roomy.readsExactly_iff (h : Roomy start events array) :
    ReadsExactly (contents events) array ↔ NeverAllocated start events := by
  rw [← h.neverAllocated]
  constructor
  · intro hreads
    by_contra hne
    -- behind the last element there is room, but no element
    have hnone := hreads array.size
    rw [h.size, List.getElem?_eq_none (Nat.le_refl _)] at hnone
    exact UInt64.not_le.mpr (h.lt_capacity hne) ((get_eq_none_iff _ _).mp hnone)
  · intro hzero index
    rw [(h.of_capacity hzero).2, List.getElem?_nil]
    refine (get_eq_none_iff _ _).mpr ?_
    rw [hzero]
    exact UInt64.zero_le

/-- **Copies and indexed reads agree with the elements** of an array exactly as long as it has been
    initialised without capacity and nothing has been pushed. -/
theorem copiesAndReads_iff (hinit : Initialised start) (hrun : run step start events = some array) :
    CopiesAndReads (contents events) array ↔ NeverAllocated start events := by
  have hroomy := run_events_induction hinit.roomy (fun _ _ _ _ => Roomy.step) hrun
  constructor
  · exact fun h => hroomy.readsExactly_iff.mp h.1
  · intro hnever
    have hreads := hroomy.readsExactly_iff.mpr hnever
    have hzero := hroomy.neverAllocated.mpr hnever
    obtain ⟨hdata, hcontents⟩ := hroomy.of_capacity hzero
    have hsize : array.size = 0 := by
      rw [← UInt64.toNat_inj, hroomy.size, hcontents]
      rfl
    have hcopy : copy array = some array := by
      obtain ⟨data, size, capacity, elementSize⟩ := array
      obtain rfl : capacity = 0 := hzero
      obtain rfl : data = [] := hdata
      rfl
    refine ⟨hreads, array, hcopy, rfl, ?_, hreads⟩
    rw [iterElements_eq, hsize, hcontents]
    rfl

/-- An array without capacity, to which nothing is pushed. -/
theorem copiesAndReads_clear : CopiesAndReads (contents [.clear none]) (init 1) := by
  have hrun : run step (init 1) [.clear none] = some (init 1) := rfl
  refine (copiesAndReads_iff ⟨1, Or.inl rfl⟩ hrun).mpr ⟨rfl, fun bytes hmem => ?_⟩
  cases List.mem_singleton.mp hmem

/-- An array of two bytes, of which one has been pushed: there is a second element. -/
theorem not_always_copiesAndReads :
    ¬∀ start events array, Initialised start → run step start events = some array →
      CopiesAndReads (contents events) array := by
  intro h
  have hrun : ∃ array, run step (initWithCapacity 2 1) [.push [7]] = some array := by
    apply Option.isSome_iff_exists.mp
    decide
  obtain ⟨array, hrun⟩ := hrun
  have hinit : Initialised (initWithCapacity 2 1) := ⟨1, Or.inr ⟨2, rfl⟩⟩
  have hnever := (copiesAndReads_iff hinit hrun).mp (h _ _ _ hinit hrun)
  exact hnever.2 [7] (List.mem_singleton_self _)

end Cebus.CbArray
