import Cebus.Collection.HashMap
import Cebus.Lib.LinearProbing

/-!
# Lookup in the hash map

* `lookup_eq`: the probe of `cb_hash_lookup_bucket` ends at the first bucket from
  the key's home on that is empty or has the key.
* `Holds`: how the buckets represent a finite map, tombstones included.
* `Holds.lookup`: the bucket found for a key tells its value.
* `Holds.insertNew`, `Holds.change`: the two ways in which a bucket changes.
-/

namespace Cebus.HashMap

open LinearProbing

/-- The hash of each key, and an equality of keys that is coherent with it. -/
structure Keys (κ : Type) where
  hash : κ → BitVec 32
  eq : κ → κ → Bool
  refl : ∀ a, eq a a = true
  symm : ∀ {a b}, eq a b = true → eq b a = true
  trans : ∀ {a b c}, eq a b = true → eq b c = true → eq a c = true
  hash_eq : ∀ {a b}, eq a b = true → hash a = hash b

variable {κ ν : Type} {K : Keys κ} {mask : BitVec 32} {buckets : List (Bucket κ ν)}
  {spec : κ → Option ν} {i j : ℕ} {b c : Bucket κ ν} {k k' : κ} {v : ν}

/-- The probe for a key ends at this bucket. -/
def stops (K : Keys κ) (k : κ) (b : Bucket κ ν) : Bool :=
  match b.key with
  | none => true
  | some k' => b.hash = K.hash k && K.eq k' k

theorem stops_of_empty (h : bucketEmpty b = true) : stops K k b = true := by
  rw [bucketEmpty, Option.isNone_iff_eq_none] at h
  simp [stops, h]

theorem stops_iff (hb : b.key = some k') :
    stops K k b = true ↔ b.hash = K.hash k ∧ K.eq k' k = true := by
  simp [stops, hb]

/-- The end of a probe that has not met its bucket is outside the array. -/
def ended : Option ℕ → Except Fault ℕ
  | some i => .ok i
  | none => .error .outOfBounds

theorem lookupLoop_eq (k : κ) (bs : List (Bucket κ ν)) (i : ℕ) :
    lookupLoop (some K.eq) (some k) (K.hash k) bs i =
      ended ((bs.findIdx? (stops K k)).map (i + ·)) := by
  induction bs generalizing i with
  | nil => rfl
  | cons b bs ih =>
    rw [lookupLoop, List.findIdx?_cons]
    cases hb : b.key with
    | none => simp [stops, hb, ended]
    | some k' =>
      have hnext : (((bs.findIdx? (stops K k)).map (· + 1)).map (i + ·)) =
          (bs.findIdx? (stops K k)).map (i + 1 + ·) := by
        rw [Option.map_map]
        exact congrArg (Option.map · _) (funext fun d => by simp only [Function.comp]; omega)
      have hstop := stops_iff (K := K) (k := k) hb
      by_cases hh : b.hash = K.hash k <;> by_cases he : K.eq k' k = true
      all_goals simp [hh, he] at hstop
      all_goals simp [hh, he, hstop, hnext, ih]
      rfl

/-- What `cb_hash_lookup` relies on, besides the contents of the buckets. -/
structure Ready (K : Keys κ) (map : HashMap κ ν) : Prop where
  hashOf : ∀ k, hashOf map k = K.hash k
  keyEq : map.keyEq = some K.eq
  shift : map.shift < 31
  size : map.size = 2 ^ map.shift
  mask : map.mask = BitVec.ofNat 32 (2 ^ map.shift - 1)
  length : map.buckets.length = map.size

/-- **The probe for a key** ends at the first bucket that it stops at, or outside
    the array. -/
theorem Ready.lookup_eq {map : HashMap κ ν} (h : Ready K map) (k : κ) :
    lookup map k = ended (probe (stops K k) map.buckets (home map.mask (K.hash k))) := by
  rw [lookup, lookupBucket, h.hashOf, h.keyEq, lookupLoop_eq, probe]

/-! ## The finite map -/

/-- The bucket has the hash of its key, as the tombstones of most keys have not. -/
def Proper (K : Keys κ) (b : Bucket κ ν) (k : κ) : Prop := b.key = some k ∧ b.hash = K.hash k

/-- The buckets represent the finite map `spec`. -/
structure Holds (K : Keys κ) (mask : BitVec 32) (buckets : List (Bucket κ ν))
    (spec : κ → Option ν) : Prop where
  empty : ∀ (i : ℕ) b, buckets[i]? = some b → bucketEmpty b = true → b = bucketReset
  hash : ∀ (i : ℕ) b k, buckets[i]? = some b → b.key = some k →
    Proper K b k ∨ b.hash = 0 ∧ b.value = none
  path : ∀ (i : ℕ) b k, buckets[i]? = some b → Proper K b k →
    home mask (K.hash k) ≤ i ∧
      ∀ j c, home mask (K.hash k) ≤ j → j < i → buckets[j]? = some c → stops K k c = false
  value : ∀ (i : ℕ) b k, buckets[i]? = some b → Proper K b k → b.value = spec k
  complete : ∀ k v, spec k = some v →
    ∃ (i : ℕ) (b : Bucket κ ν) (k' : κ), buckets[i]? = some b ∧ Proper K b k' ∧ K.eq k' k = true
  congr : ∀ k k', K.eq k k' = true → spec k = spec k'

theorem Proper.stops (h : Proper K b k') (he : K.eq k' k = true) : stops K k b = true :=
  (stops_iff h.1).mpr ⟨h.2.trans (K.hash_eq he), he⟩

/-- The empty buckets are as they were at first. -/
theorem Holds.reset (h : Holds K mask buckets spec) :
    ∀ b ∈ buckets, bucketEmpty b = true → b = bucketReset := by
  intro b hb he
  obtain ⟨i, hi⟩ := List.mem_iff_getElem?.mp hb
  exact h.empty i b hi he

/-- Among the proper buckets each key has one place. -/
theorem Holds.unique (h : Holds K mask buckets spec) (hi : buckets[i]? = some b)
    (hb : Proper K b k) (hj : buckets[j]? = some c) (hc : Proper K c k') (he : K.eq k k' = true) :
    i = j := by
  obtain ⟨hi1, hi2⟩ := h.path i b k hi hb
  obtain ⟨hj1, hj2⟩ := h.path j c k' hj hc
  have hhash := K.hash_eq he
  rcases Nat.lt_trichotomy i j with hlt | heq | hgt
  · have := hj2 i b (by rw [← hhash]; exact hi1) hlt hi
    rw [hb.stops he] at this
    cases this
  · exact heq
  · have := hi2 j c (by rw [hhash]; exact hj1) hgt hj
    rw [hc.stops (K.symm he)] at this
    cases this

/-- **The bucket found for a key** is empty if the map does not have the key, nor
    its tombstone; otherwise it has the key and the value. -/
theorem Holds.lookup (h : Holds K mask buckets spec)
    (hp : probe (HashMap.stops K k) buckets (home mask (K.hash k)) = some i) :
    ∃ b, buckets[i]? = some b ∧
      (b = bucketReset ∧ spec k = none ∧
          (∀ (j : ℕ) c k', buckets[j]? = some c → Proper K c k' → K.eq k' k = false) ∨
        ∃ k', Proper K b k' ∧ K.eq k' k = true ∧ b.value = spec k) := by
  obtain ⟨hle, ⟨b, hb, hs⟩, hlt⟩ := probe_eq_some.mp hp
  refine ⟨b, hb, ?_⟩
  cases hk : b.key with
  | none =>
    have hempty : bucketEmpty b = true := by simp [bucketEmpty, hk]
    -- a bucket with the key would have been met before
    have hno : ∀ (j : ℕ) c k', buckets[j]? = some c → Proper K c k' → K.eq k' k = false := by
      intro j c k' hj hc
      by_contra he
      rw [Bool.not_eq_false] at he
      obtain ⟨hj1, hj2⟩ := h.path j c k' hj hc
      rw [K.hash_eq he] at hj1 hj2
      rcases Nat.lt_trichotomy j i with hji | rfl | hij
      · have := hlt j c hj1 hji hj
        rw [hc.stops he] at this
        cases this
      · obtain rfl := Option.some.inj (hb.symm.trans hj)
        rw [hc.1] at hk
        cases hk
      · have := hj2 i b hle hij hb
        rw [stops_of_empty hempty] at this
        cases this
    refine Or.inl ⟨h.empty i b hb hempty, ?_, hno⟩
    by_contra hsome
    obtain ⟨v, hv⟩ := Option.ne_none_iff_exists'.mp hsome
    obtain ⟨j, c, k', hj, hc, he⟩ := h.complete k v hv
    rw [hno j c k' hj hc] at he
    cases he
  | some k' =>
    obtain ⟨hh, he⟩ := (stops_iff hk).mp hs
    have hpr : Proper K b k' := ⟨hk, hh.trans (K.hash_eq he).symm⟩
    exact Or.inr ⟨k', hpr, he, (h.value i b k' hb hpr).trans (h.congr k' k he)⟩

/-! ## The changes of a bucket -/

/-- The finite map with another value for a key, or without the key. -/
def specUpdate (K : Keys κ) (spec : κ → Option ν) (k : κ) (w : Option ν) : κ → Option ν :=
  fun k' => if K.eq k k' then w else spec k'

theorem Keys.eq_iff_of_eq (K : Keys κ) {a b c : κ} (h : K.eq b c = true) :
    K.eq a b = true ↔ K.eq a c = true :=
  ⟨fun hb => K.trans hb h, fun hc => K.trans hc (K.symm h)⟩

/-- A key that the map does not have goes into the empty bucket found for it. -/
theorem Holds.insertNew (h : Holds K mask buckets spec)
    (hp : probe (HashMap.stops K k) buckets (home mask (K.hash k)) = some i)
    (hb : buckets[i]? = some bucketReset)
    (hno : ∀ (j : ℕ) c k', buckets[j]? = some c → Proper K c k' → K.eq k' k = false) :
    Holds K mask (buckets.set i ⟨K.hash k, some k, some v⟩) (specUpdate K spec k (some v)) := by
  obtain ⟨hlen, -⟩ := List.getElem?_eq_some_iff.mp hb
  obtain ⟨hle, -, hlt⟩ := probe_eq_some.mp hp
  have hset : ∀ j, (buckets.set i ⟨K.hash k, some k, some v⟩)[j]? =
      if i = j then some ⟨K.hash k, some k, some v⟩ else buckets[j]? := by
    intro j
    rw [List.getElem?_set, if_pos hlen]
  have hpath : ∀ {j c k'}, buckets[j]? = some c → Proper K c k' →
      ¬ (home mask (K.hash k') ≤ i ∧ i < j) := by
    rintro j c k' hj hc ⟨h1, h2⟩
    have := (h.path j c k' hj hc).2 i bucketReset h1 h2 hb
    rw [stops_of_empty rfl] at this
    cases this
  refine ⟨fun j c hj hc => ?_, fun j c k' hj hk => ?_, fun j c k' hj hc => ?_,
    fun j c k' hj hc => ?_, fun k' w hw => ?_, fun k' k'' he => ?_⟩
  · rw [hset] at hj
    split_ifs at hj
    · obtain rfl := Option.some.inj hj
      cases hc
    · exact h.empty j c hj hc
  · rw [hset] at hj
    split_ifs at hj
    · obtain rfl := Option.some.inj hj
      obtain rfl := Option.some.inj hk
      exact Or.inl ⟨rfl, rfl⟩
    · exact h.hash j c k' hj hk
  · rw [hset] at hj
    split_ifs at hj with hij
    · obtain rfl := Option.some.inj hj
      obtain rfl := Option.some.inj hc.1
      subst hij
      refine ⟨hle, fun j' c' h1 h2 hj' => hlt j' c' h1 h2 ?_⟩
      rwa [hset, if_neg (by omega)] at hj'
    · refine ⟨(h.path j c k' hj hc).1, fun j' c' h1 h2 hj' => ?_⟩
      rw [hset] at hj'
      split_ifs at hj' with hij'
      · exact absurd ⟨hij' ▸ h1, hij' ▸ h2⟩ (hpath hj hc)
      · exact (h.path j c k' hj hc).2 j' c' h1 h2 hj'
  · rw [hset] at hj
    split_ifs at hj
    · obtain rfl := Option.some.inj hj
      obtain rfl := Option.some.inj hc.1
      simp [specUpdate, K.refl]
    · have hne : ¬ K.eq k k' = true := fun he => by
        have := hno j c k' hj hc
        rw [K.symm he] at this
        cases this
      rw [specUpdate, if_neg hne]
      exact h.value j c k' hj hc
  · unfold specUpdate at hw
    split_ifs at hw with he
    · exact ⟨i, _, k, by rw [hset, if_pos rfl], ⟨rfl, rfl⟩, he⟩
    · obtain ⟨j, c, k'', hj, hc, he'⟩ := h.complete k' w hw
      refine ⟨j, c, k'', ?_, hc, he'⟩
      rw [hset, if_neg, hj]
      rintro rfl
      rw [hb, Option.some_inj] at hj
      rw [← hj] at hc
      cases hc.1
  · simp only [specUpdate, K.eq_iff_of_eq he, h.congr k' k'' he]

/-- **The bucket of a key** keeps the key and gets another value; without a value
    it may lose its hash. -/
theorem Holds.change (h : Holds K mask buckets spec) (b' : Bucket κ ν) (hb : buckets[i]? = some b)
    (hpr : Proper K b k') (he : K.eq k' k = true) (hkey : b'.key = b.key)
    (hhash : b'.hash = b.hash ∨ b'.hash = 0 ∧ b'.value = none) :
    Holds K mask (buckets.set i b') (specUpdate K spec k b'.value) := by
  obtain ⟨hlen, -⟩ := List.getElem?_eq_some_iff.mp hb
  have hset : ∀ j, (buckets.set i b')[j]? = if i = j then some b' else buckets[j]? := by
    intro j
    rw [List.getElem?_set, if_pos hlen]
  have hk' : b'.key = some k' := hkey.trans hpr.1
  have hother : ∀ {j c a}, i ≠ j → buckets[j]? = some c → Proper K c a → ¬ K.eq k a = true :=
    fun hij hj hc hea => hij (h.unique hb hpr hj hc (K.trans he hea))
  have hstops : ∀ {a}, stops K a b = false → stops K a b' = false := by
    intro a ha
    rw [← Bool.not_eq_true, stops_iff hk']
    rintro ⟨-, hea⟩
    rw [hpr.stops hea] at ha
    cases ha
  refine ⟨fun j c hj hc => ?_, fun j c a hj hk => ?_, fun j c a hj hc => ?_, fun j c a hj hc => ?_,
    fun a w hw => ?_, fun a a' hea => ?_⟩
  · rw [hset] at hj
    split_ifs at hj
    · obtain rfl := Option.some.inj hj
      simp [bucketEmpty, hk'] at hc
    · exact h.empty j c hj hc
  · rw [hset] at hj
    split_ifs at hj
    · obtain rfl := Option.some.inj hj
      obtain rfl := Option.some.inj (hk.symm.trans hk')
      exact hhash.imp (fun hsame => ⟨hk, hsame.trans hpr.2⟩) id
    · exact h.hash j c a hj hk
  · have hpath : home mask (K.hash a) ≤ j ∧
        ∀ j' c', home mask (K.hash a) ≤ j' → j' < j → buckets[j']? = some c' →
          stops K a c' = false := by
      rw [hset] at hj
      split_ifs at hj with hij
      · obtain rfl := Option.some.inj hj
        obtain rfl := Option.some.inj (hc.1.symm.trans hk')
        exact hij ▸ h.path i b a hb hpr
      · exact h.path j c a hj hc
    refine ⟨hpath.1, fun j' c' h1 h2 hj' => ?_⟩
    rw [hset] at hj'
    split_ifs at hj' with hij'
    · obtain rfl := Option.some.inj hj'
      exact hstops (hpath.2 i b (hij' ▸ h1) (hij' ▸ h2) hb)
    · exact hpath.2 j' c' h1 h2 hj'
  · rw [hset] at hj
    split_ifs at hj with hij
    · obtain rfl := Option.some.inj hj
      obtain rfl := Option.some.inj (hc.1.symm.trans hk')
      rw [specUpdate, if_pos (K.symm he)]
    · rw [specUpdate, if_neg (hother hij hj hc)]
      exact h.value j c a hj hc
  · unfold specUpdate at hw
    split_ifs at hw with hea
    · refine ⟨i, b', k', by rw [hset, if_pos rfl], ⟨hk', ?_⟩, K.trans he hea⟩
      obtain hsame | ⟨-, hnone⟩ := hhash
      · exact hsame.trans hpr.2
      · rw [hnone] at hw
        cases hw
    · obtain ⟨j, c, a', hj, hc, hea'⟩ := h.complete a w hw
      refine ⟨j, c, a', ?_, hc, hea'⟩
      rw [hset, if_neg, hj]
      rintro rfl
      obtain rfl := Option.some.inj (hb.symm.trans hj)
      obtain rfl := Option.some.inj (hpr.1.symm.trans hc.1)
      exact hea (K.trans (K.symm he) hea')
  · simp only [specUpdate, K.eq_iff_of_eq hea, h.congr a a' hea]

/-- Empty buckets hold the empty map. -/
theorem holds_replicate (n : ℕ) :
    Holds K mask (List.replicate n bucketReset) (fun _ => (none : Option ν)) := by
  have hmem : ∀ (i : ℕ) (b : Bucket κ ν), (List.replicate n bucketReset)[i]? = some b →
      b = bucketReset := by
    intro i b hb
    exact List.eq_of_mem_replicate (List.mem_of_getElem? hb)
  refine ⟨fun i b hb _ => hmem i b hb, fun i b k hb hk => ?_, fun i b k hb hk => ?_,
    fun i b k hb hk => ?_, fun k v hv => ?_, fun _ _ _ => rfl⟩
  · rw [hmem i b hb] at hk
    cases hk
  · rw [hmem i b hb] at hk
    cases hk.1
  · rw [hmem i b hb] at hk
    cases hk.1
  · cases hv

end Cebus.HashMap
