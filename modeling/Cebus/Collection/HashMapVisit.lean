import Cebus.Collection.HashMapResize

/-!
# Visiting the entries

`cb_hash_foreach`, `cb_hash_clear` and `cb_hash_map_free` call a function on every bucket that
has a key. A removal leaves the key of a bucket.

* `Ready.visitsLive`: without tombstones each live key is visited once.
* `visitsExactlyLive_iff`: the live entries, and nothing else, are visited exactly when no
  bucket has a key without a value.
-/

namespace Cebus.HashMap

open Fallible

variable {κ ν σ : Type} {K : Keys κ} {map : HashMap κ ν} {spec : κ → Option ν}
  {mask : BitVec 32} {buckets : List (Bucket κ ν)} {i : ℕ} {b : Bucket κ ν} {k : κ}

/-! ## Model -/

/-- The body of the loop of `cb_hash_foreach` (lines 213–215). -/
def visitBucket (func : κ → Option ν → σ → σ) (user : σ) (bucket : Bucket κ ν) : σ :=
  match bucket.key with
  | none => user
  | some key => func key bucket.value user

/-- `cb_hash_foreach` (lines 208–217). The function changes what `user` points to. -/
def foreach (map : HashMap κ ν) (func : κ → Option ν → σ → σ) (user : σ) : σ :=
  map.buckets.foldl (visitBucket func) user

/-- The body of the loop of `cb_hash_clear` (lines 178–184). -/
def clearBucket (destructor : Option (κ → Option ν → σ → σ)) (bucket : Bucket κ ν) (user : σ) :
    Bucket κ ν × σ :=
  match bucket.key with
  | none => (bucket, user)
  | some key =>
    (bucketReset,
      match destructor with
      | none => user
      | some destructor => destructor key bucket.value user)

/-- The loop of `cb_hash_clear` (lines 176–185). -/
def clearBuckets (destructor : Option (κ → Option ν → σ → σ)) :
    List (Bucket κ ν) → σ → List (Bucket κ ν) × σ
  | [], user => ([], user)
  | bucket :: buckets, user =>
    let (bucket, user) := clearBucket destructor bucket user
    let (buckets, user) := clearBuckets destructor buckets user
    (bucket :: buckets, user)

/-- `cb_hash_clear` (lines 173–187), with the calls of the destructor. -/
def clearWith (map : HashMap κ ν) (destructor : Option (κ → Option ν → σ → σ)) (user : σ) :
    HashMap κ ν × σ :=
  let (buckets, user) := clearBuckets destructor map.buckets user
  ({ map with buckets, nEntries := 0 }, user)

/-- `cb_hash_map_free` (lines 219–224), of which only `user` is left. -/
def mapFree (map : HashMap κ ν) (destructor : Option (κ → Option ν → σ → σ)) (user : σ) : σ :=
  (clearWith map destructor user).2

/-! ## What should be visited -/

/-- A function that records its calls. -/
def record (key : κ) (value : Option ν) (calls : List (κ × Option ν)) : List (κ × Option ν) :=
  calls ++ [(key, value)]

/-- There is one call for each key that `cb_hash_get` has a value for, with the key and the
    value, and no other call. -/
structure VisitsLive (keyEq : κ → κ → Bool) (map : HashMap κ ν) (calls : List (κ × Option ν)) :
    Prop where
  once : calls.Pairwise fun c d => keyEq c.1 d.1 = false
  live : ∀ c ∈ calls, c.2 ≠ none ∧ HashMap.get map c.1 = .ok c.2
  all : ∀ k v, HashMap.get map k = .ok (some v) →
    ∃ c ∈ calls, keyEq c.1 k = true ∧ c.2 = some v

/-- All three functions visit the live entries, and nothing else. -/
structure VisitsExactlyLive (keyEq : κ → κ → Bool) (map : HashMap κ ν) : Prop where
  foreach : VisitsLive keyEq map (HashMap.foreach map record [])
  clear : VisitsLive keyEq map (clearWith map (some record) []).2
  free : VisitsLive keyEq map (mapFree map (some record) [])

/-! ## The calls -/

/-- The key and the value of a bucket with a key. -/
def entryOf (bucket : Bucket κ ν) : Option (κ × Option ν) := bucket.key.map (·, bucket.value)

/-- The calls, in their order. -/
def entries (map : HashMap κ ν) : List (κ × Option ν) := map.buckets.filterMap entryOf

theorem mem_entries {e : κ × Option ν} :
    e ∈ entries map ↔ ∃ b ∈ map.buckets, b.key = some e.1 ∧ b.value = e.2 := by
  simp only [entries, entryOf, List.mem_filterMap, Option.map_eq_some_iff, Prod.ext_iff]
  constructor
  · rintro ⟨b, hb, key, hkey, rfl, hvalue⟩
    exact ⟨b, hb, hkey, hvalue⟩
  · rintro ⟨b, hb, hkey, hvalue⟩
    exact ⟨b, hb, e.1, hkey, rfl, hvalue⟩

theorem foldl_visitBucket (func : κ → Option ν → σ → σ) (buckets : List (Bucket κ ν)) (user : σ) :
    buckets.foldl (visitBucket func) user =
      (buckets.filterMap entryOf).foldl (fun user e => func e.1 e.2 user) user := by
  induction buckets generalizing user with
  | nil => rfl
  | cons b buckets ih =>
    rw [List.foldl_cons, List.filterMap_cons, ih]
    cases hkey : b.key with
    | none => simp [visitBucket, entryOf, hkey]
    | some key => simp [visitBucket, entryOf, hkey]

/-- Clearing visits the buckets in the same order. -/
theorem clearBuckets_eq (destructor : κ → Option ν → σ → σ) (buckets : List (Bucket κ ν))
    (user : σ) :
    clearBuckets (some destructor) buckets user =
      (buckets.map fun bucket => if bucketEmpty bucket then bucket else bucketReset,
        buckets.foldl (visitBucket destructor) user) := by
  induction buckets generalizing user with
  | nil => rfl
  | cons b buckets ih =>
    simp only [clearBuckets, ih, List.map_cons, List.foldl_cons]
    cases hkey : b.key with
    | none => simp [clearBucket, visitBucket, bucketEmpty, hkey]
    | some key => simp [clearBucket, visitBucket, bucketEmpty, hkey]

theorem foldl_record (es : List (κ × Option ν)) (calls : List (κ × Option ν)) :
    es.foldl (fun calls e => record e.1 e.2 calls) calls = calls ++ es := by
  induction es generalizing calls with
  | nil => exact (List.append_nil _).symm
  | cons e es ih =>
    rw [List.foldl_cons, ih, record, List.append_assoc]
    rfl

theorem foreach_record : foreach map record [] = entries map := by
  rw [foreach, foldl_visitBucket, foldl_record]
  rfl

/-- **Clearing leaves an empty map**, and calls the destructor as `cb_hash_foreach` would. -/
theorem clearWith_eq (destructor : κ → Option ν → σ → σ) (user : σ) :
    clearWith map (some destructor) user = (HashMap.clear map, foreach map destructor user) := by
  simp only [clearWith, clearBuckets_eq, HashMap.clear, foreach]

theorem visitsExactlyLive_iff_entries {keyEq : κ → κ → Bool} :
    VisitsExactlyLive keyEq map ↔ VisitsLive keyEq map (entries map) := by
  have hclear : (clearWith map (some record) []).2 = entries map := by
    rw [clearWith_eq]
    exact foreach_record
  constructor
  · intro h
    rw [← foreach_record]
    exact h.foreach
  · intro h
    refine ⟨?_, ?_, ?_⟩
    · rwa [foreach_record]
    · rwa [hclear]
    · rwa [mapFree, hclear]

/-! ## Live buckets -/

/-- A bucket with a key and a value is no tombstone. -/
theorem Holds.proper (h : Holds K mask buckets spec) (hi : buckets[i]? = some b)
    (hk : b.key = some k) (hv : b.value ≠ none) : Proper K b k := by
  obtain hpr | ⟨-, hnone⟩ := h.hash i b k hi hk
  · exact hpr
  · exact absurd hnone hv

/-- Two live buckets have different keys. -/
theorem Holds.distinct (h : Holds K mask buckets spec) :
    buckets.Pairwise fun b c => ∀ k k', b.key = some k → c.key = some k' → b.value ≠ none →
      c.value ≠ none → K.eq k k' = false := by
  rw [List.pairwise_iff_getElem]
  intro i j hi hj hij k k' hk hk' hv hv'
  have hgi := List.getElem?_eq_getElem hi
  have hgj := List.getElem?_eq_getElem hj
  rw [← Bool.not_eq_true]
  intro he
  have := h.unique hgi (h.proper hgi hk hv) hgj (h.proper hgj hk' hv') he
  omega

/-- The lookup of the key of a live bucket ends at the bucket. -/
theorem Ready.get_of_live (h : Ready K map) (hm : Holds K map.mask map.buckets spec)
    (hb : b ∈ map.buckets) (hk : b.key = some k) (hv : b.value ≠ none) :
    HashMap.get map k = .ok b.value := by
  obtain ⟨i, hi⟩ := List.mem_iff_getElem?.mp hb
  have hpr := hm.proper hi hk hv
  obtain ⟨hle, -⟩ := hm.path i b k hi hpr
  obtain ⟨w, hw⟩ := (h.get hm).1.mpr ⟨i, b, hle, hi, hpr.stops (K.refl k)⟩
  rw [hw, (h.get hm).2 w hw, hm.value i b k hi hpr]

/-- A key with a value has a live bucket. -/
theorem Ready.live_of_get (h : Ready K map) (hm : Holds K map.mask map.buckets spec) {v : ν}
    (hget : HashMap.get map k = .ok (some v)) :
    ∃ b ∈ map.buckets, ∃ k', b.key = some k' ∧ K.eq k' k = true ∧ b.value = some v := by
  have hspec : spec k = some v := ((h.get hm).2 _ hget).symm
  obtain ⟨i, b, k', hi, hb, he⟩ := hm.complete k v hspec
  refine ⟨b, List.mem_of_getElem? hi, k', hb.1, he, ?_⟩
  rw [hm.value i b k' hi hb, hm.congr k' k he, hspec]

/-- **If each bucket with a key has a value**, the keys with a value are visited once each. -/
theorem Ready.visitsLive (h : Ready K map) (hm : Holds K map.mask map.buckets spec)
    (hlive : ∀ b ∈ map.buckets, bucketEmpty b = false → b.value ≠ none) :
    VisitsLive K.eq map (entries map) := by
  have hvalue {b : Bucket κ ν} {k} (hb : b ∈ map.buckets) (hk : b.key = some k) :
      b.value ≠ none :=
    hlive b hb (by simp [bucketEmpty, hk])
  refine ⟨?_, ?_, ?_⟩
  · rw [entries, List.pairwise_filterMap]
    refine hm.distinct.imp_of_mem ?_
    intro b c hb hc hne d hd e he
    obtain ⟨k, hk, rfl⟩ := Option.map_eq_some_iff.mp hd
    obtain ⟨k', hk', rfl⟩ := Option.map_eq_some_iff.mp he
    exact hne k k' hk hk' (hvalue hb hk) (hvalue hc hk')
  · intro c hc
    obtain ⟨b, hb, hk, hv⟩ := mem_entries.mp hc
    rw [← hv]
    exact ⟨hvalue hb hk, h.get_of_live hm hb hk (hvalue hb hk)⟩
  · intro k v hget
    obtain ⟨b, hb, k', hk', he, hv⟩ := h.live_of_get hm hget
    exact ⟨(k', b.value), mem_entries.mpr ⟨b, hb, hk', rfl⟩, he, hv⟩

/-- **The live entries are visited, and nothing else, exactly when no bucket has a key and no
    value.** -/
theorem visitsExactlyLive_iff (F : KeyFunctions κ) (k0 k1 : BitVec 64) (es : List (Event κ ν))
    (map : HashMap κ ν) (h : reached F k0 k1 es = .ok map) :
    VisitsExactlyLive F.keyEq map ↔
      ∀ b ∈ map.buckets, bucketEmpty b = false → b.value ≠ none := by
  obtain ⟨hr, spec, hm⟩ := sane_of_reached h
  rw [visitsExactlyLive_iff_entries]
  constructor
  · intro hvisits b hb hempty
    obtain ⟨k, hk⟩ := Option.isSome_iff_exists.mp (by simpa [bucketEmpty] using hempty)
    exact (hvisits.live (k, b.value) (mem_entries.mpr ⟨b, hb, hk, rfl⟩)).1
  · exact hr.visitsLive hm

/-- A removed key is visited, with a value of `NULL`. -/
theorem not_always_visitsExactlyLive : ¬∀ (F : KeyFunctions ℕ) (k0 k1 : BitVec 64)
    (es : List (Event ℕ ℕ)) (map : HashMap ℕ ℕ), reached F k0 k1 es = .ok map →
      VisitsExactlyLive F.keyEq map := by
  intro h
  have hcalls : (reached midHash 0 0 [.insert 1 10, .remove 1]).toOption.map
      (fun map : HashMap ℕ ℕ => foreach map record []) = some [(1, none)] := by decide +kernel
  rcases hmap : reached midHash 0 0 [.insert 1 10, .remove 1] with e | map
  · rw [hmap] at hcalls
    cases hcalls
  · have hvisits := (h midHash 0 0 _ map hmap).foreach
    rw [hmap] at hcalls
    have hcalls : foreach map record [] = [(1, none)] := Option.some.inj hcalls
    rw [hcalls] at hvisits
    exact (hvisits.live (1, none) (by simp)).1 rfl

/-- In a map with one entry, that one is visited. -/
theorem visitsExactlyLive_one : ∃ map, reached midHash 0 0 [.insert 1 10] = .ok map ∧
    VisitsExactlyLive midHash.keyEq map := by
  have hlive : (reached midHash 0 0 [.insert 1 10]).toOption.map
      (fun map : HashMap ℕ ℕ => map.buckets.all fun b => bucketEmpty b || b.value.isSome) =
        some true := by decide +kernel
  rcases hmap : reached midHash 0 0 [.insert 1 10] with e | map
  · rw [hmap] at hlive
    cases hlive
  · rw [hmap] at hlive
    refine ⟨map, rfl, (visitsExactlyLive_iff midHash 0 0 _ map hmap).mpr fun b hb hempty => ?_⟩
    have hb := List.all_eq_true.mp (Option.some.inj hlive) b hb
    rw [hempty, Bool.false_or] at hb
    exact Option.isSome_iff_ne_none.mp hb

end Cebus.HashMap
