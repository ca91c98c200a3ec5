import Cebus.Collection.HashMapCount

/-!
# Room in the table

The table grows by the number of its live entries. A tombstone keeps its key, and with it its
bucket, without being counted.

* `occupied_store`: an entry that takes an empty bucket leaves one fewer.
* `growIfNeeded_room`: there is an empty bucket after growth.
* `hasEmpty_iff`: there is one all along a run exactly when every insertion of the run that takes
  an empty bucket leaves another one or makes the table grow.
-/

namespace Cebus.HashMap

open Transition Fallible

variable {κ ν : Type} {map map' newMap newMap' grown : HashMap κ ν} {i r : ℕ} {k : κ} {v : ν}
  {b c : Bucket κ ν} {buckets bs : List (Bucket κ ν)}

/-- A bucket has a `NULL` key. -/
def HasEmpty (map : HashMap κ ν) : Prop := ∃ b ∈ map.buckets, b.key = none

/-- The number of buckets with a key, those of the tombstones among them. -/
def occupied (map : HashMap κ ν) : ℕ := map.buckets.countP fun b => !bucketEmpty b

/-- The probe for the key ends at an empty bucket. -/
def TakesEmpty (map : HashMap κ ν) (k : κ) : Prop :=
  ∃ i, lookup map k = .ok i ∧ bucketEmpty (bucketAt map i) = true

/-- An insertion that takes an empty bucket leaves another one, or there are so many entries with
    it that the table grows. -/
def HasRoom (map : HashMap κ ν) : Event κ ν → Prop
  | .insert key _ => TakesEmpty map key →
      occupied map + 1 < map.size ∨ map.size * 3 / 4 ≤ (map.nEntries + 1).toNat
  | _ => True

/-- The array has as many buckets as the map says. -/
structure Sized (map : HashMap κ ν) : Prop where
  length : map.buckets.length = map.size
  size : map.size = 2 ^ map.shift

/-! ## Counting buckets with a key -/

theorem hasEmpty_iff_occupied (h : Sized map) : HasEmpty map ↔ occupied map < map.size := by
  have hle : occupied map ≤ map.buckets.length := List.countP_le_length
  have hfull : occupied map = map.buckets.length ↔ ¬HasEmpty map := by
    rw [occupied, List.countP_eq_length, HasEmpty, not_exists]
    refine forall_congr' fun b => ?_
    rw [not_and, bucketEmpty, Option.not_isNone, Option.isSome_iff_ne_none]
  rw [← h.length]
  constructor
  · intro hempty
    exact lt_of_le_of_ne hle fun heq => hfull.mp heq hempty
  · intro hlt
    by_contra hempty
    exact hlt.ne (hfull.mpr hempty)

/-- The bucket that a probe ends at is one of the array. -/
theorem lookupLoop_mem {keyEq : Option (κ → κ → Bool)} {key : Option κ} {hash : BitVec 32}
    (h : lookupLoop keyEq key hash bs i = .ok r) : ∃ d, d < bs.length ∧ r = i + d := by
  induction bs generalizing i with
  | nil => cases h
  | cons b bs ih =>
    have hnext (h : lookupLoop keyEq key hash bs (i + 1) = .ok r) :
        ∃ d, d < (b :: bs).length ∧ r = i + d := by
      obtain ⟨d, hd, rfl⟩ := ih h
      exact ⟨d + 1, Nat.succ_lt_succ hd, by omega⟩
    have hhere (h : (Except.ok i : Except Fault ℕ) = .ok r) :
        ∃ d, d < (b :: bs).length ∧ r = i + d :=
      ⟨0, Nat.succ_pos _, (Except.ok.inj h).symm⟩
    unfold lookupLoop at h
    split at h
    · exact hhere h
    · split_ifs at h
      · split at h
        · split_ifs at h
          · exact hhere h
          · exact hnext h
        · cases h
      · exact hnext h

theorem lookup_lt (h : lookup map k = .ok i) : i < map.buckets.length := by
  obtain ⟨d, hd, rfl⟩ := lookupLoop_mem h
  rw [List.length_drop] at hd
  omega

theorem getElem?_lookup (h : lookup map k = .ok i) : map.buckets[i]? = some (bucketAt map i) := by
  have hi := lookup_lt h
  rw [bucketAt, List.getD_eq_getElem?_getD, List.getElem?_eq_getElem hi, Option.getD_some]

/-- The number of buckets with a key, with another bucket at an index. -/
theorem countP_key_set (hb : buckets[i]? = some b) :
    (buckets.set i c).countP (fun b => !bucketEmpty b) + (if bucketEmpty b then 0 else 1) =
      buckets.countP (fun b => !bucketEmpty b) + if bucketEmpty c then 0 else 1 := by
  obtain ⟨hi, rfl⟩ := List.getElem?_eq_some_iff.mp hb
  rw [List.countP_set hi]
  cases hempty : bucketEmpty buckets[i] with
  | true => cases bucketEmpty c <;> simp
  | false =>
    have hpos : 0 < buckets.countP fun b => !bucketEmpty b :=
      List.countP_pos_iff.mpr ⟨_, List.getElem_mem hi, by rw [hempty]; rfl⟩
    cases bucketEmpty c <;> simp <;> omega

/-- **Storing an entry** takes the bucket if it was empty. -/
theorem occupied_store (hi : lookup map k = .ok i) :
    occupied (store map i k v) = occupied map + if bucketEmpty (bucketAt map i) then 1 else 0 := by
  have hb := getElem?_lookup hi
  unfold store
  cases hempty : bucketEmpty (bucketAt map i) with
  | true =>
    have hcount := countP_key_set (c := ⟨hashOf map k, some k, some v⟩) hb
    rw [hempty] at hcount
    exact hcount
  | false =>
    have hcount := countP_key_set (c := { bucketAt map i with value := some v }) hb
    have hkey : bucketEmpty { bucketAt map i with value := some v } = false := hempty
    rw [hempty, hkey] at hcount
    exact Nat.add_right_cancel hcount

/-- **A tombstone** keeps its bucket. -/
theorem remove_room {r : HashMap κ ν × Option ν} (h : HashMap.remove map k = .ok r) :
    occupied r.1 = occupied map ∧ r.1.buckets.length = map.buckets.length ∧
      r.1.size = map.size ∧ r.1.shift = map.shift := by
  simp only [HashMap.remove, bind_eq_ok] at h
  obtain ⟨i, hi, h⟩ := h
  split at h
  · obtain rfl := Except.ok.inj h
    exact ⟨rfl, rfl, rfl, rfl⟩
  · obtain rfl := Except.ok.inj h
    have hcount := countP_key_set (c := bucketTombstone (bucketAt map i)) (getElem?_lookup hi)
    exact ⟨Nat.add_right_cancel hcount, List.length_set, rfl, rfl⟩

theorem occupied_clear : occupied (HashMap.clear map) = 0 := by
  refine List.countP_eq_zero.mpr fun b hb => ?_
  obtain ⟨c, -, rfl⟩ := List.mem_map.mp hb
  split_ifs with hempty
  · simp [hempty]
  · simp [bucketEmpty, bucketReset]

/-! ## Growth -/

/-- A turn of the loop of `cb_hash_resize` takes at most one bucket. -/
theorem occupied_reinsert (h : reinsert newMap b = .ok newMap') :
    occupied newMap' ≤ occupied newMap + 1 ∧ newMap'.buckets.length = newMap.buckets.length ∧
      newMap'.size = newMap.size ∧ newMap'.shift = newMap.shift := by
  obtain ⟨i, -, h⟩ := bind_eq_ok.mp h
  obtain rfl := Except.ok.inj h
  refine ⟨?_, List.length_set, rfl, rfl⟩
  show (newMap.buckets.set i b).countP _ ≤ newMap.buckets.countP _ + 1
  rcases hc : newMap.buckets[i]? with _ | c
  · rw [List.set_eq_of_length_le (List.getElem?_eq_none_iff.mp hc)]
    omega
  · have hcount := countP_key_set (c := b) hc
    split_ifs at hcount <;> omega

theorem occupied_foldlM (h : bs.foldlM reinsert newMap = .ok newMap') :
    occupied newMap' ≤ occupied newMap + bs.length ∧
      newMap'.buckets.length = newMap.buckets.length ∧ newMap'.size = newMap.size ∧
      newMap'.shift = newMap.shift := by
  induction bs generalizing newMap with
  | nil =>
    obtain rfl := Except.ok.inj h
    exact ⟨le_rfl, rfl, rfl, rfl⟩
  | cons b bs ih =>
    rw [List.foldlM_cons] at h
    obtain ⟨m, hm, h⟩ := bind_eq_ok.mp h
    obtain ⟨hle, hlength, hsize, hshift⟩ := occupied_reinsert hm
    obtain ⟨hle', hlength', hsize', hshift'⟩ := ih h
    refine ⟨?_, hlength'.trans hlength, hsize'.trans hsize, hshift'.trans hshift⟩
    rw [List.length_cons]
    omega

/-- The table has twice its size after growth, so that a bucket is left for each that the old one
    had, and more. -/
theorem resize_room (h : Sized map) (hgrow : resize map (map.shift + 1) = .ok grown) :
    Sized grown ∧ HasEmpty grown := by
  obtain ⟨-, m, hfold, rfl⟩ := (resize_eq_ok _ _ _).mp hgrow
  obtain ⟨hle, hlength, hsize, hshift⟩ := occupied_foldlM hfold
  have hzero : occupied (emptied map (map.shift + 1)) = 0 := by
    refine List.countP_eq_zero.mpr fun b hb => ?_
    rw [List.eq_of_mem_replicate hb]
    simp [bucketEmpty, bucketReset]
  have hlen : (emptied map (map.shift + 1)).buckets.length = 2 ^ (map.shift + 1) :=
    List.length_replicate
  have hemptied : (emptied map (map.shift + 1)).size = 2 ^ (map.shift + 1) := rfl
  have hsized : Sized { map with
      shift := m.shift, mask := m.mask, buckets := m.buckets, size := m.size } := by
    constructor
    · show m.buckets.length = m.size
      rw [hlength, hlen, hsize, hemptied]
    · show m.size = 2 ^ m.shift
      rw [hsize, hshift]
      rfl
  refine ⟨hsized, (hasEmpty_iff_occupied hsized).mpr ?_⟩
  show occupied m < m.size
  have hpos : 0 < 2 ^ map.shift := Nat.two_pow_pos _
  rw [hzero, h.length, h.size] at hle
  rw [hsize, hemptied, Nat.pow_succ]
  omega

/-- **There is an empty bucket after growth.** -/
theorem growIfNeeded_room (h : Sized map) (hgrow : growIfNeeded map = .ok grown) :
    Sized grown ∧ (HasEmpty grown ↔ growNeeded map = true ∨ HasEmpty map) := by
  unfold growIfNeeded at hgrow
  split_ifs at hgrow with hneeded
  · obtain ⟨hsized, hempty⟩ := resize_room h hgrow
    exact ⟨hsized, iff_of_true hempty (Or.inl hneeded)⟩
  · obtain rfl := Except.ok.inj hgrow
    exact ⟨h, (or_iff_right hneeded).symm⟩

/-! ## Runs -/

/-- The array has its size and a bucket that is empty. -/
def Roomy (map : HashMap κ ν) : Prop := Sized map ∧ HasEmpty map

theorem Sized.store (h : Sized map) : Sized (store map i k v) := by
  unfold HashMap.store
  split_ifs
  · exact ⟨List.length_set.trans h.length, h.size⟩
  · exact ⟨List.length_set.trans h.length, h.size⟩

/-- **`cb_hash_insert`** leaves an empty bucket exactly when there is room for the entry. -/
theorem Roomy.insert (h : Roomy map) {r : HashMap κ ν × Option (Option ν)}
    (hins : HashMap.insert map k v = .ok r) :
    Sized r.1 ∧ (HasEmpty r.1 ↔ HasRoom map (.insert k v)) := by
  obtain ⟨hsized, hempty⟩ := h
  simp only [HashMap.insert, bind_eq_ok, Except.ok.injEq] at hins
  obtain ⟨i, hi, grown, hgrow, rfl⟩ := hins
  obtain ⟨hgrown, hroom⟩ := growIfNeeded_room hsized.store hgrow
  refine ⟨hgrown, hroom.trans ?_⟩
  have htakes : TakesEmpty map k ↔ bucketEmpty (bucketAt map i) = true := by
    constructor
    · rintro ⟨j, hj, hfree⟩
      obtain rfl := Except.ok.inj (hi.symm.trans hj)
      exact hfree
    · exact fun hfree => ⟨i, hi, hfree⟩
  have hsize : (HashMap.store map i k v).size = map.size := by
    unfold HashMap.store
    split_ifs <;> rfl
  rw [hasEmpty_iff_occupied hsized.store, hsize, occupied_store hi, HasRoom, htakes]
  cases hfree : bucketEmpty (bucketAt map i) with
  | true =>
    have hgrows : growNeeded (HashMap.store map i k v) = true ↔
        map.size * 3 / 4 ≤ (map.nEntries + 1).toNat := by
      unfold HashMap.store
      rw [if_pos hfree]
      exact decide_eq_true_iff
    rw [hgrows, if_pos rfl, or_comm]
    exact ⟨fun hroom _ => hroom, fun hroom => hroom rfl⟩
  | false =>
    have hlt := (hasEmpty_iff_occupied hsized).mp hempty
    exact iff_of_true (Or.inr hlt) fun hfalse => by cases hfalse

theorem Roomy.remove (h : Roomy map) {r : HashMap κ ν × Option ν}
    (hrem : HashMap.remove map k = .ok r) : Roomy r.1 := by
  obtain ⟨hsized, hempty⟩ := h
  obtain ⟨hsame, hlength, hsize, hshift⟩ := remove_room hrem
  have hsized' : Sized r.1 := by
    constructor
    · rw [hlength, hsize, hsized.length]
    · rw [hsize, hshift, hsized.size]
  refine ⟨hsized', (hasEmpty_iff_occupied hsized').mpr ?_⟩
  rw [hsame, hsize]
  exact (hasEmpty_iff_occupied hsized).mp hempty

theorem Roomy.clear (h : Roomy map) : Roomy (HashMap.clear map) := by
  have hsized : Sized (HashMap.clear map) := ⟨(List.length_map _).trans h.1.length, h.1.size⟩
  refine ⟨hsized, (hasEmpty_iff_occupied hsized).mpr ?_⟩
  rw [occupied_clear]
  exact lt_of_le_of_lt (Nat.zero_le _) ((hasEmpty_iff_occupied h.1).mp h.2)

theorem roomy_new {hashFunc : Hasher → κ → Hasher} {keyEq : κ → κ → Bool} {k0 k1 : BitVec 64}
    (h : new hashFunc keyEq k0 k1 = .ok map) : Roomy map := by
  obtain rfl := Except.ok.inj h
  exact ⟨⟨rfl, rfl⟩, bucketReset, List.mem_cons_self, rfl⟩

/-- An operation with room keeps an empty bucket, and one that keeps it has had room. -/
theorem Roomy.operate {e : Event κ ν} (h : Roomy map)
    (hs : HashMap.operate map e = some map') :
    Sized map' ∧ (HasEmpty map' ↔ HasRoom map e) := by
  cases operated_of_operate hs with
  | insert hins => exact h.insert hins
  | remove hrem => exact ⟨(h.remove hrem).1, iff_of_true (h.remove hrem).2 trivial⟩
  | get _ => exact ⟨h.1, iff_of_true h.2 trivial⟩
  | clear => exact ⟨h.clear.1, iff_of_true h.clear.2 trivial⟩

/-- **The table has an empty bucket all along a run exactly when every insertion of the run that
    takes one leaves another one or makes the table grow.** -/
theorem hasEmpty_iff (hashFunc : Hasher → κ → Hasher) (keyEq : κ → κ → Bool) (k0 k1 : BitVec 64)
    (map : HashMap κ ν) (h : new hashFunc keyEq k0 k1 = .ok map) (es : List (Event κ ν)) :
    Always operate HasEmpty map es ↔ Meets operate HasRoom map es := by
  apply always_iff_meets (I := Roomy) (roomy_new h)
  · exact fun _ hI => hI.2
  · intro map e map' hI hC hs
    obtain ⟨hsized, hiff⟩ := hI.operate hs
    exact ⟨hsized, hiff.mpr hC⟩
  · intro map e map' hI hs hP
    exact (hI.operate hs).2.mp hP

/-- Keys that all have one hash, whose home is the first bucket of a new map. -/
def firstHash : KeyFunctions ℕ :=
  { oneHash with
    hashFunc := fun hasher _ => hasher.write [1]
    hash_eq := fun _ _ => rfl }

/-- An entry that is inserted and removed eight times leaves eight tombstones. -/
theorem not_always_hasEmpty : ¬∀ (F : KeyFunctions ℕ) (k0 k1 : BitVec 64) (map : HashMap ℕ ℕ),
    new F.hashFunc F.keyEq k0 k1 = .ok map → ∀ es : List (Event ℕ ℕ),
      Always operate HasEmpty map es := by
  intro h
  have hkeys : ((new firstHash.hashFunc firstHash.keyEq 0 0).toOption.bind fun map =>
      (run operate map (List.replicate 8 [.insert 1 10, .remove 1]).flatten).map
        fun map : HashMap ℕ ℕ => map.buckets.map Bucket.key) =
      some (List.replicate 8 (some 1)) := by decide +kernel
  rcases hmap : new firstHash.hashFunc firstHash.keyEq 0 0 with e | map
  · rw [hmap] at hkeys
    cases hkeys
  rw [hmap] at hkeys
  obtain ⟨map', hrun, hkeys⟩ := Option.map_eq_some_iff.mp hkeys
  obtain ⟨b, hb, hnone⟩ := h firstHash 0 0 map hmap _ _ map' List.prefix_rfl hrun
  have hmem := List.mem_map_of_mem (f := Bucket.key) hb
  rw [hkeys, hnone] at hmem
  cases List.eq_of_mem_replicate hmem

/-- One insertion leaves seven empty buckets. -/
theorem hasEmpty_firstHash : ∃ map : HashMap ℕ ℕ,
    new firstHash.hashFunc firstHash.keyEq 0 0 = .ok map ∧
      Always operate HasEmpty map [.insert 1 10, .remove 1] := by
  refine ⟨_, rfl, (hasEmpty_iff firstHash.hashFunc firstHash.keyEq 0 0 _ rfl _).mpr ?_⟩
  show Meets operate HasRoom _ (([] ++ [.insert 1 10]) ++ [.remove 1])
  rw [meets_concat, meets_concat]
  refine ⟨⟨meets_nil, fun t u ht _ => ?_⟩, fun t u _ _ => trivial⟩
  obtain rfl := Option.some.inj ht
  exact fun _ => Or.inl (by decide)

end Cebus.HashMap
