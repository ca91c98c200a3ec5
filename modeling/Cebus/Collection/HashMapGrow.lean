import Cebus.Collection.HashMapLookup

/-!
# Growth of the hash map

`cb_hash_resize` puts every bucket of the old array into a new map, the empty
ones and the tombstones too, by a lookup that must not call a comparison.

* `lookupBucket_uninitialised`: what such a lookup does.
* `Ready.resize`: growth goes well exactly when no bucket meets another with its
  hash and the items find room in front of the end of the new array.
* `Holds.rehashed`: then the finite map stays the same.
-/

namespace Cebus.HashMap

open LinearProbing

variable {κ ν : Type} {K : Keys κ} {mask : BitVec 32} {t t' buckets : List (Bucket κ ν)}
  {spec : κ → Option ν} {i j : ℕ} {b c : Bucket κ ν} {map : HashMap κ ν}

/-- The slot at which the probe for a bucket's hash begins. -/
abbrev homeOf (mask : BitVec 32) (b : Bucket κ ν) : ℕ := home mask b.hash

theorem lookupLoop_uninitialised (key : Option κ) (hash : BitVec 32) (bs : List (Bucket κ ν))
    (i r : ℕ) :
    lookupLoop none key hash bs i = .ok r ↔
      ∃ d, bs.findIdx? bucketEmpty = some d ∧ i + d = r ∧ ∀ c ∈ bs.take d, c.hash ≠ hash := by
  induction bs generalizing i with
  | nil => simp [lookupLoop]
  | cons b bs ih =>
    rw [lookupLoop, List.findIdx?_cons]
    cases hb : b.key with
    | none => simp [bucketEmpty, hb]
    | some k =>
      have hne : bucketEmpty b = false := by simp [bucketEmpty, hb]
      by_cases hh : b.hash = hash
      · simp only [hh, if_true, hne, Bool.false_eq_true, if_false, Option.map_eq_some_iff]
        constructor
        · intro h
          cases h
        · rintro ⟨_, ⟨d, -, rfl⟩, -, hd⟩
          exact absurd hh (hd b (by simp))
      · simp only [if_neg hh, ih, hne, Bool.false_eq_true, if_false, Option.map_eq_some_iff]
        constructor
        · rintro ⟨d, hd, rfl, hall⟩
          refine ⟨d + 1, ⟨d, hd, rfl⟩, by omega, ?_⟩
          simpa [hh] using hall
        · rintro ⟨_, ⟨d, hd, rfl⟩, rfl, hall⟩
          refine ⟨d, hd, by omega, ?_⟩
          intro c hc
          exact hall c (by simp [hc])

/-- **A lookup without a comparison function** ends at the first empty bucket,
    if it meets no bucket with the hash on its way. -/
theorem lookupBucket_uninitialised (hmap : map.keyEq = none) (key : Option κ) (hash : BitVec 32)
    (r : ℕ) :
    lookupBucket map key hash = .ok r ↔
      probe bucketEmpty map.buckets (home map.mask hash) = some r ∧
        ∀ j c, home map.mask hash ≤ j → j < r → map.buckets[j]? = some c → c.hash ≠ hash := by
  rw [lookupBucket, hmap, lookupLoop_uninitialised, probe]
  constructor
  · rintro ⟨d, hd, rfl, hall⟩
    refine ⟨by rw [hd]; rfl, fun j c h1 h2 hj => hall c ?_⟩
    refine List.mem_of_getElem? (i := j - home map.mask hash) ?_
    rw [List.getElem?_take_of_lt (by omega), List.getElem?_drop, Nat.add_sub_cancel' h1, hj]
  · rintro ⟨hp, hall⟩
    obtain ⟨d, hd, rfl⟩ := Option.map_eq_some_iff.mp hp
    refine ⟨d, hd, rfl, fun c hc => ?_⟩
    obtain ⟨e, he⟩ := List.mem_iff_getElem?.mp hc
    obtain ⟨hlt, -⟩ := List.getElem?_eq_some_iff.mp he
    rw [List.length_take] at hlt
    rw [List.getElem?_take_of_lt (by omega), List.getElem?_drop] at he
    exact hall (home map.mask hash + e) c (by omega) (by omega) he

/-! ## The loop -/

/-- The buckets `done` are in the new array. -/
structure Rehashed (mask : BitVec 32) (n : ℕ) (done t : List (Bucket κ ν)) : Prop where
  length : t.length = n
  reset : ∀ b ∈ t, bucketEmpty b = true → b = bucketReset
  clustered : Clustered bucketEmpty (homeOf mask) t
  mem : ∀ b, bucketEmpty b = false → (b ∈ t ↔ b ∈ done)
  distinct : ∀ (i j : ℕ) c d, t[i]? = some c → t[j]? = some d → bucketEmpty c = false →
    bucketEmpty d = false → c.hash = d.hash → i = j
  count : demand bucketEmpty (homeOf mask) 0 t ≤ done.length

/-- No bucket in the array has the hash. -/
def Fresh (t : List (Bucket κ ν)) (hash : BitVec 32) : Prop :=
  ∀ c ∈ t, bucketEmpty c = false → c.hash ≠ hash

theorem rehashed_replicate (n : ℕ) :
    Rehashed mask n [] (List.replicate n (bucketReset : Bucket κ ν)) := by
  have hmem : ∀ b ∈ List.replicate n (bucketReset : Bucket κ ν), b = bucketReset :=
    fun b hb => List.eq_of_mem_replicate hb
  have hempty : ∀ b ∈ List.replicate n (bucketReset : Bucket κ ν), bucketEmpty b = true :=
    fun b hb => by rw [hmem b hb]; rfl
  refine ⟨List.length_replicate, fun b hb _ => hmem b hb, clustered_of_forall_free hempty,
    fun b hb => ⟨fun hm => ?_, by simp⟩, fun i j c d hc _ hne => ?_, ?_⟩
  · rw [hempty b hm] at hb
    cases hb
  · rw [hempty c (List.mem_of_getElem? hc)] at hne
    cases hne
  · refine (List.countP_eq_zero.mpr fun b hb => ?_).le
    simp [hempty b hb]

/-- **One turn of the loop** goes well if the new array has no bucket with the
    hash, for the lookup would meet it, and has a place. -/
theorem reinsert_iff {done : List (Bucket κ ν)} {n : ℕ} {newMap newMap' : HashMap κ ν}
    (h : Rehashed newMap.mask n done newMap.buckets) (hkey : newMap.keyEq = none) :
    reinsert newMap b = .ok newMap' ↔
      Fresh newMap.buckets b.hash ∧
        ∃ t, place bucketEmpty (homeOf newMap.mask) newMap.buckets b = some t ∧
          newMap' = { newMap with buckets := t } := by
  have hbind : reinsert newMap b = .ok newMap' ↔
      ∃ r, lookupBucket newMap b.key b.hash = .ok r ∧
        newMap' = { newMap with buckets := newMap.buckets.set r b } := by
    rw [reinsert]
    cases lookupBucket newMap b.key b.hash with
    | error e => simp [bind, Except.bind]
    | ok r => simp [bind, Except.bind, eq_comm]
  rw [hbind]
  constructor
  · rintro ⟨r, hr, rfl⟩
    obtain ⟨hp, hall⟩ := (lookupBucket_uninitialised hkey _ _ _).mp hr
    refine ⟨fun c hc hne heq => ?_, _, by rw [place, hp]; rfl, rfl⟩
    obtain ⟨j, hj⟩ := List.mem_iff_getElem?.mp hc
    obtain ⟨hle, hlt⟩ := h.clustered j c hj hne
    obtain ⟨-, ⟨z, hz, hzf⟩, hprobe⟩ := probe_eq_some.mp hp
    rw [homeOf, heq] at hle hlt
    -- the free slot found does not lie between the home and the other bucket
    rcases Nat.lt_trichotomy j r with hjr | rfl | hrj
    · exact hall j c hle hjr hj heq
    · obtain rfl := Option.some.inj (hj.symm.trans hz)
      rw [hzf] at hne
      cases hne
    · have := hlt r z (probe_eq_some.mp hp).1 hrj hz
      rw [hzf] at this
      cases this
  · rintro ⟨hfresh, t, ht, rfl⟩
    obtain ⟨r, hr, rfl⟩ := Option.map_eq_some_iff.mp ht
    refine ⟨r, (lookupBucket_uninitialised hkey _ _ _).mpr ⟨hr, fun j c h1 h2 hj => ?_⟩, rfl⟩
    exact hfresh c (List.mem_of_getElem? hj) ((probe_eq_some.mp hr).2.2 j c h1 h2 hj)

theorem Rehashed.fresh_iff {done : List (Bucket κ ν)} {n : ℕ} (h : Rehashed mask n done t)
    (hash : BitVec 32) : Fresh t hash ↔ Fresh done hash :=
  ⟨fun hf c hc hne => hf c ((h.mem c hne).mpr hc) hne,
    fun hf c hc hne => hf c ((h.mem c hne).mp hc) hne⟩

/-- A bucket with a key adds to the array, -/
theorem Rehashed.place {done : List (Bucket κ ν)} {n : ℕ} (h : Rehashed mask n done t)
    (hb : bucketEmpty b = false) (hfresh : Fresh t b.hash)
    (ht : LinearProbing.place bucketEmpty (homeOf mask) t b = some t') :
    Rehashed mask n (done ++ [b]) t' := by
  refine ⟨(length_place ht).trans h.length, fun c hc he => ?_, h.clustered.place hb ht,
    fun c hne => ⟨fun hc => ?_, fun hc => ?_⟩, ?_, ?_⟩
  · obtain hc | rfl := mem_place ht hc
    · exact h.reset c hc he
    · rw [hb] at he
      cases he
  · obtain hc | rfl := mem_place ht hc
    · exact List.mem_append_left _ ((h.mem c hne).mp hc)
    · exact List.mem_append_right _ (List.mem_singleton_self _)
  · obtain hc | hc := List.mem_append.mp hc
    · exact mem_place_of_mem ht ((h.mem c hne).mpr hc) hne
    · rw [List.mem_singleton.mp hc]
      exact self_mem_place ht
  · obtain ⟨r, -, rfl⟩ := Option.map_eq_some_iff.mp ht
    intro i j c d hi hj hc hd hhash
    rw [List.getElem?_set] at hi hj
    split_ifs at hi hj with hri hlt hrj hlt'
    · exact hri.symm.trans hrj
    · obtain rfl := Option.some.inj hi
      exact absurd hhash.symm (hfresh d (List.mem_of_getElem? hj) hd)
    · obtain rfl := Option.some.inj hj
      exact absurd hhash (hfresh c (List.mem_of_getElem? hi) hc)
    · exact h.distinct i j c d hi hj hc hd hhash
  · rw [demand_place hb ht, List.length_append]
    have := h.count
    simp
    omega

/-- and an empty one changes nothing, as long as an empty bucket is left. -/
theorem Rehashed.skip {done : List (Bucket κ ν)} {n : ℕ} (h : Rehashed mask n done t)
    (hlen : done.length < n) :
    LinearProbing.place bucketEmpty (homeOf mask) t bucketReset = some t ∧
      Rehashed mask n (done ++ [bucketReset]) t := by
  constructor
  · have hhome : homeOf mask (bucketReset : Bucket κ ν) = 0 := by simp [home, bucketReset]
    cases hp : probe bucketEmpty t 0 with
    | none =>
      -- an array without an empty bucket would have more of them than were put in
      have hfull : demand bucketEmpty (homeOf mask) 0 t = t.length := by
        refine List.countP_eq_length.mpr fun c hc => ?_
        obtain ⟨i, hi⟩ := List.mem_iff_getElem?.mp hc
        simp [probe_eq_none.mp hp i c (Nat.zero_le i) hi]
      have := h.count
      have := h.length
      omega
    | some i =>
      obtain ⟨-, ⟨z, hz, hzf⟩, -⟩ := probe_eq_some.mp hp
      obtain ⟨hlt, heq⟩ := List.getElem?_eq_some_iff.mp hz
      rw [LinearProbing.place, hhome, hp, Option.map_some,
        ← h.reset z (List.mem_of_getElem? hz) hzf, ← heq, List.set_getElem_self]
  · refine ⟨h.length, h.reset, h.clustered, fun c hne => ?_, h.distinct, ?_⟩
    · rw [h.mem c hne, List.mem_append, List.mem_singleton]
      refine (or_iff_left fun hc => ?_).symm
      rw [hc] at hne
      cases hne
    · rw [List.length_append]
      exact h.count.trans (Nat.le_add_right _ _)

/-- What the loop needs of the buckets `bs` that are still to come. -/
def Placeable (mask : BitVec 32) (done t bs : List (Bucket κ ν)) : Prop :=
  (∀ b ∈ bs, Fresh done b.hash) ∧
    bs.Pairwise (fun b c => bucketEmpty b = false → b.hash ≠ c.hash) ∧
    ((bs.filter fun b => !bucketEmpty b).foldlM
      (LinearProbing.place bucketEmpty (homeOf mask)) t).isSome

theorem fresh_append {done : List (Bucket κ ν)} {hash : BitVec 32} :
    Fresh (done ++ [b]) hash ↔ Fresh done hash ∧ (bucketEmpty b = false → b.hash ≠ hash) := by
  simp only [Fresh, List.mem_append, List.mem_singleton, or_imp, forall_and, forall_eq]

/-- The first bucket, and then the others. -/
theorem placeable_cons {done bs : List (Bucket κ ν)} {n : ℕ} (h : Rehashed mask n done t)
    (hlen : done.length < n) (hb : bucketEmpty b = true → b = bucketReset) :
    Placeable mask done t (b :: bs) ↔
      Fresh t b.hash ∧ ∃ t', LinearProbing.place bucketEmpty (homeOf mask) t b = some t' ∧
        Placeable mask (done ++ [b]) t' bs := by
  simp only [Placeable, List.forall_mem_cons, List.pairwise_cons, fresh_append, forall_and,
    h.fresh_iff]
  cases he : bucketEmpty b with
  | true =>
    obtain rfl := hb he
    simp [(h.skip hlen).1, he]
    tauto
  | false =>
    simp only [he, forall_true_left, List.filter_cons, Bool.not_false, if_true, List.foldlM_cons]
    cases hp : LinearProbing.place bucketEmpty (homeOf mask) t b with
    | none => simp
    | some t' =>
      simp
      tauto

/-- **The whole loop.** -/
theorem foldlM_reinsert (newMap : HashMap κ ν) (bs : List (Bucket κ ν)) {done : List (Bucket κ ν)}
    {n : ℕ} (h : Rehashed newMap.mask n done newMap.buckets) (hkey : newMap.keyEq = none)
    (hlen : done.length + bs.length ≤ n)
    (hbs : ∀ b ∈ bs, bucketEmpty b = true → b = bucketReset) :
    ((∃ newMap', bs.foldlM reinsert newMap = .ok newMap') ↔
        Placeable newMap.mask done newMap.buckets bs) ∧
      ∀ newMap', bs.foldlM reinsert newMap = .ok newMap' →
        ∃ t, newMap' = { newMap with buckets := t } ∧ Rehashed newMap.mask n (done ++ bs) t := by
  induction bs generalizing done newMap with
  | nil =>
    refine ⟨iff_of_true ⟨newMap, rfl⟩ ⟨by simp, List.Pairwise.nil, by simp⟩, fun newMap' heq => ?_⟩
    obtain rfl := Except.ok.inj heq
    exact ⟨_, rfl, by rwa [List.append_nil]⟩
  | cons b bs ih =>
    rw [List.length_cons] at hlen
    have hb := hbs b (List.mem_cons_self ..)
    -- the loop after one turn that went well
    have hnext : ∀ t', Fresh newMap.buckets b.hash →
        place bucketEmpty (homeOf newMap.mask) newMap.buckets b = some t' →
        Rehashed newMap.mask n (done ++ [b]) t' := by
      intro t' hfresh ht'
      cases he : bucketEmpty b with
      | true =>
        obtain rfl := hb he
        obtain ⟨hskip, hre⟩ := h.skip (by omega)
        rwa [← Option.some.inj (hskip.symm.trans ht')]
      | false => exact h.place he hfresh ht'
    have hrest : ∀ t', Rehashed newMap.mask n (done ++ [b]) t' → _ := fun t' ht' =>
      ih { newMap with buckets := t' } ht' hkey
        (by rw [List.length_append, List.length_singleton]; omega)
        fun c hc => hbs c (List.mem_cons_of_mem _ hc)
    have hstep : ∀ newMap', (b :: bs).foldlM reinsert newMap = .ok newMap' ↔
        ∃ m, reinsert newMap b = .ok m ∧ bs.foldlM reinsert m = .ok newMap' := by
      intro newMap'
      rw [List.foldlM_cons]
      cases reinsert newMap b with
      | error e => simp [bind, Except.bind]
      | ok m => simp [bind, Except.bind]
    constructor
    · rw [placeable_cons h (by omega) hb]
      constructor
      · rintro ⟨newMap', hfold⟩
        obtain ⟨m, hm, hfold⟩ := (hstep _).mp hfold
        obtain ⟨hfresh, t', ht', rfl⟩ := (reinsert_iff h hkey).mp hm
        exact ⟨hfresh, t', ht', (hrest t' (hnext t' hfresh ht')).1.mp ⟨newMap', hfold⟩⟩
      · rintro ⟨hfresh, t', ht', hplace⟩
        obtain ⟨newMap', hfold⟩ := (hrest t' (hnext t' hfresh ht')).1.mpr hplace
        exact ⟨newMap', (hstep _).mpr ⟨_, (reinsert_iff h hkey).mpr ⟨hfresh, t', ht', rfl⟩, hfold⟩⟩
    · intro newMap' hfold
      obtain ⟨m, hm, hfold⟩ := (hstep _).mp hfold
      obtain ⟨hfresh, t', ht', rfl⟩ := (reinsert_iff h hkey).mp hm
      obtain ⟨t, ht, hre⟩ := (hrest t' (hnext t' hfresh ht')).2 newMap' hfold
      exact ⟨t, ht, by rwa [List.append_assoc] at hre⟩

/-! ## Resizing -/

/-- What growth needs: a shift that is not too large, no two buckets with one
    hash of which the first has a key, and room for all items in front of the
    end of the new array. -/
def CanGrow (map : HashMap κ ν) : Prop :=
  map.shift + 1 < 31 ∧
    map.buckets.Pairwise (fun b c => bucketEmpty b = false → b.hash ≠ c.hash) ∧
    ∀ j, demand bucketEmpty (homeOf (BitVec.ofNat 32 (2 ^ (map.shift + 1) - 1))) j map.buckets ≤
      2 ^ (map.shift + 1) - j

theorem demand_filter (j : ℕ) (bs : List (Bucket κ ν)) :
    demand bucketEmpty (homeOf mask) j (bs.filter fun b => !bucketEmpty b) =
      demand bucketEmpty (homeOf mask) j bs := by
  rw [demand, demand, List.countP_filter]
  refine List.countP_congr fun b _ => ?_
  simp
  tauto

theorem placeable_replicate (n : ℕ) (bs : List (Bucket κ ν)) :
    Placeable mask [] (List.replicate n bucketReset) bs ↔
      bs.Pairwise (fun b c => bucketEmpty b = false → b.hash ≠ c.hash) ∧
        ∀ j, demand bucketEmpty (homeOf mask) j bs ≤ n - j := by
  have hre : Rehashed mask n [] (List.replicate n (bucketReset : Bucket κ ν)) :=
    rehashed_replicate n
  have hzero : ∀ j, demand bucketEmpty (homeOf mask) j
      (List.replicate n (bucketReset : Bucket κ ν)) = 0 := by
    intro j
    refine List.countP_eq_zero.mpr fun b hb => ?_
    simp [List.eq_of_mem_replicate hb, bucketReset, bucketEmpty]
  rw [Placeable, placeAll_isSome_iff hre.clustered
    (fun b hb => by simpa using (List.mem_filter.mp hb).2)]
  simp only [hzero, demand_filter, Nat.zero_add, List.length_replicate]
  simp [Fresh]

/-- The new map of `cb_hash_resize` before its loop. -/
def emptied (map : HashMap κ ν) (shift : ℕ) : HashMap κ ν :=
  { map with
    keyEq := none
    shift := shift
    size := 2 ^ shift
    mask := BitVec.ofNat 32 (2 ^ shift - 1)
    buckets := List.replicate (2 ^ shift) bucketReset }

theorem resize_eq_ok (map map' : HashMap κ ν) (shift : ℕ) :
    resize map shift = .ok map' ↔ shift < 31 ∧ ∃ m,
      map.buckets.foldlM reinsert (emptied map shift) = .ok m ∧
      map' = { map with
        shift := m.shift, mask := m.mask, buckets := m.buckets, size := m.size } := by
  unfold resize allocStorage setSize
  split_ifs with hs
  · simp only [bind, Except.bind, hs, true_and, emptied]
    cases map.buckets.foldlM reinsert _ with
    | error e => simp
    | ok m => simp [eq_comm]
  · simp [bind, Except.bind, hs]

/-- **When growth goes well**, and what it leaves. -/
theorem Ready.resize (h : Ready K map)
    (hreset : ∀ b ∈ map.buckets, bucketEmpty b = true → b = bucketReset) :
    ((∃ map', HashMap.resize map (map.shift + 1) = .ok map') ↔ CanGrow map) ∧
      ∀ map', HashMap.resize map (map.shift + 1) = .ok map' →
        Ready K map' ∧ Rehashed map'.mask map'.size map.buckets map'.buckets ∧
          map'.shift = map.shift + 1 := by
  have hloop := foldlM_reinsert (emptied map (map.shift + 1)) map.buckets
    (rehashed_replicate (2 ^ (map.shift + 1))) rfl
    (by rw [List.length_nil, h.length, h.size, pow_succ]; omega) hreset
  rw [emptied, placeable_replicate, List.nil_append] at hloop
  simp only [resize_eq_ok]
  constructor
  · rw [CanGrow, ← hloop.1]
    constructor
    · rintro ⟨_, hs, m, hm, -⟩
      exact ⟨hs, m, hm⟩
    · rintro ⟨hs, m, hm⟩
      exact ⟨_, hs, m, hm, rfl⟩
  · rintro _ ⟨hs, m, hm, rfl⟩
    obtain ⟨t, rfl, hre⟩ := hloop.2 m hm
    exact ⟨⟨h.hashOf, h.keyEq, hs, rfl, rfl, hre.length⟩, hre, rfl⟩

/-- **Growth keeps the finite map.** -/
theorem Holds.rehashed (h : Holds K mask buckets spec) {mask' : BitVec 32} {n : ℕ}
    (hre : Rehashed mask' n buckets t) : Holds K mask' t spec := by
  have hkey : ∀ {b : Bucket κ ν} {k}, b.key = some k → bucketEmpty b = false := by
    intro b k hk
    simp [bucketEmpty, hk]
  have hold : ∀ {i : ℕ} {b k}, t[i]? = some b → b.key = some k → ∃ j : ℕ, buckets[j]? = some b := by
    intro i b k hi hk
    exact List.mem_iff_getElem?.mp ((hre.mem b (hkey hk)).mp (List.mem_of_getElem? hi))
  refine ⟨fun i b hi he => hre.reset b (List.mem_of_getElem? hi) he, fun i b k hi hk => ?_,
    fun i b k hi hb => ?_, fun i b k hi hb => ?_, fun k v hv => ?_, h.congr⟩
  · obtain ⟨j, hj⟩ := hold hi hk
    exact h.hash j b k hj hk
  · obtain ⟨hle, hlt⟩ := hre.clustered i b hi (hkey hb.1)
    rw [homeOf, hb.2] at hle hlt
    refine ⟨hle, fun j c h1 h2 hj => ?_⟩
    have hc := hlt j c h1 h2 hj
    -- another bucket in the new array has another hash
    rw [← Bool.not_eq_true]
    intro hs
    obtain ⟨k', hk'⟩ := Option.ne_none_iff_exists'.mp fun hnone : c.key = none => by
      simp [bucketEmpty, hnone] at hc
    have := hre.distinct j i c b hj hi hc (hkey hb.1) (((stops_iff hk').mp hs).1.trans hb.2.symm)
    omega
  · obtain ⟨j, hj⟩ := hold hi hb.1
    exact h.value j b k hj hb
  · obtain ⟨i, b, k', hi, hb, he⟩ := h.complete k v hv
    obtain ⟨j, hj⟩ := List.mem_iff_getElem?.mp
      ((hre.mem b (hkey hb.1)).mpr (List.mem_of_getElem? hi))
    exact ⟨j, b, k', hj, hb, he⟩

end Cebus.HashMap
