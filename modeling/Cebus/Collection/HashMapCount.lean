import Cebus.Collection.HashMapVisit

/-!
# The number of entries

A tombstone has the hash 0, so that the lookup of a key with this hash ends at its own
tombstone. An insertion takes that for an update and does not count the entry.

* `exactLen_iff_count`: `cb_hash_len` is exact if it is the number of live buckets.
* `store_count`: what storing an entry does to both numbers.
* `exactLen_iff`: the number is exact all along a run exactly when no insertion of the run goes to
  a tombstone of its key.
-/

namespace Cebus.HashMap

open LinearProbing Transition Fallible

variable {κ ν : Type} {K : Keys κ} {map map' : HashMap κ ν} {spec : κ → Option ν} {i : ℕ} {k : κ}
  {v : ν}

/-- `cb_hash_len` (lines 203–206). -/
def len (map : HashMap κ ν) : BitVec 64 := map.nEntries

/-- An operation that comes back. -/
def operate (map : HashMap κ ν) (e : Event κ ν) : Option (HashMap κ ν) :=
  (step (map, []) e).toOption.map Prod.fst

/-- The number is that of the different keys that `cb_hash_get` has a value for. -/
def ExactLen (keyEq : κ → κ → Bool) (map : HashMap κ ν) : Prop :=
  ∃ keys : List κ, keys.Pairwise (fun a b => keyEq a b = false) ∧
    (∀ k, (∃ v, HashMap.get map k = .ok (some v)) ↔ ∃ a ∈ keys, keyEq a k = true) ∧
    (len map).toNat = keys.length

/-- The key has the hash 0, and there is a tombstone of it. -/
def HasTombstone (K : Keys κ) (map : HashMap κ ν) (k : κ) : Prop :=
  K.hash k = 0 ∧ ∃ b ∈ map.buckets, b.value = none ∧ ∃ a, b.key = some a ∧ K.eq a k = true

/-- An insertion is not for a key that has a tombstone with its hash. -/
def CountsRight (K : Keys κ) (map : HashMap κ ν) : Event κ ν → Prop
  | .insert key _ => ¬HasTombstone K map key
  | _ => True

/-! ## The number of keys -/

/-- Different keys are not more than those that they are equal to. -/
theorem length_le_of_covered {ks ls : List κ} (hks : ks.Pairwise fun a b => K.eq a b = false)
    (h : ∀ a ∈ ks, ∃ b ∈ ls, K.eq b a = true) : ks.length ≤ ls.length := by
  let s : Setoid κ := ⟨fun a b => K.eq a b = true, K.refl, K.symm, K.trans⟩
  have hnodup : (ks.map (Quotient.mk s)).Nodup := by
    refine List.pairwise_map.mpr (hks.imp fun hne heq => ?_)
    have he : K.eq _ _ = true := Quotient.exact heq
    rw [hne] at he
    cases he
  have hsub : ks.map (Quotient.mk s) ⊆ ls.map (Quotient.mk s) := by
    intro q hq
    obtain ⟨a, ha, rfl⟩ := List.mem_map.mp hq
    obtain ⟨b, hb, he⟩ := h a ha
    exact List.mem_map.mpr ⟨b, hb, Quotient.sound he⟩
  have hle := (hnodup.subperm hsub).length_le
  rwa [List.length_map, List.length_map] at hle

/-- The keys of the live buckets. -/
def liveKeys (map : HashMap κ ν) : List κ := (map.buckets.filter live).filterMap Bucket.key

theorem live_iff {b : Bucket κ ν} : live b = true ↔ (∃ k, b.key = some k) ∧ b.value ≠ none := by
  rw [live, Bool.and_eq_true, bucketEmpty, Option.not_isNone, Option.isSome_iff_exists,
    Option.isSome_iff_ne_none]

theorem length_liveKeys : (liveKeys map).length = map.buckets.countP live := by
  rw [liveKeys, List.length_filterMap_eq_countP, List.countP_filter]
  refine List.countP_congr fun b _ => ?_
  simp [live, bucketEmpty]

theorem mem_liveKeys {a : κ} :
    a ∈ liveKeys map ↔ ∃ b ∈ map.buckets, b.key = some a ∧ b.value ≠ none := by
  simp only [liveKeys, List.mem_filterMap, List.mem_filter, live_iff]
  constructor
  · rintro ⟨b, ⟨hb, -, hv⟩, hk⟩
    exact ⟨b, hb, hk, hv⟩
  · rintro ⟨b, hb, hk, hv⟩
    exact ⟨b, ⟨hb, ⟨a, hk⟩, hv⟩, hk⟩

theorem pairwise_liveKeys (hm : Holds K map.mask map.buckets spec) :
    (liveKeys map).Pairwise fun a b => K.eq a b = false := by
  rw [liveKeys, List.pairwise_filterMap, List.pairwise_filter]
  refine hm.distinct.imp fun hne hb hc k hk k' hk' => ?_
  exact hne k k' hk hk' (live_iff.mp hb).2 (live_iff.mp hc).2

theorem get_iff_liveKeys (h : Ready K map) (hm : Holds K map.mask map.buckets spec) :
    (∃ v, HashMap.get map k = .ok (some v)) ↔ ∃ a ∈ liveKeys map, K.eq a k = true := by
  constructor
  · rintro ⟨v, hget⟩
    obtain ⟨b, hb, a, ha, he, hv⟩ := h.live_of_get hm hget
    exact ⟨a, mem_liveKeys.mpr ⟨b, hb, ha, by simp [hv]⟩, he⟩
  · rintro ⟨a, ha, he⟩
    obtain ⟨b, hb, hk, hv⟩ := mem_liveKeys.mp ha
    obtain ⟨v, hsome⟩ := Option.ne_none_iff_exists'.mp hv
    -- the bucket of an equal key is that of the key
    obtain ⟨i, hi⟩ := List.mem_iff_getElem?.mp hb
    have hpr := hm.proper hi hk hv
    obtain ⟨hle, -⟩ := hm.path i b a hi hpr
    rw [K.hash_eq he] at hle
    obtain ⟨w, hw⟩ := (h.get hm).1.mpr ⟨i, b, hle, hi, hpr.stops he⟩
    refine ⟨v, ?_⟩
    rw [hw, (h.get hm).2 w hw, ← hm.congr a k he, ← hm.value i b a hi hpr, hsome]

/-- **The number is exact** if it is that of the live buckets. -/
theorem exactLen_iff_count (h : Ready K map) (hm : Holds K map.mask map.buckets spec) :
    ExactLen K.eq map ↔ map.nEntries.toNat = map.buckets.countP live := by
  rw [← length_liveKeys]
  constructor
  · rintro ⟨keys, hpw, hkeys, hlen⟩
    refine hlen.trans (Nat.le_antisymm ?_ ?_)
    · refine length_le_of_covered hpw fun a ha => ?_
      exact (get_iff_liveKeys h hm).mp ((hkeys a).mpr ⟨a, ha, K.refl a⟩)
    · refine length_le_of_covered (pairwise_liveKeys hm) fun a ha => ?_
      exact (hkeys a).mp ((get_iff_liveKeys h hm).mpr ⟨a, ha, K.refl a⟩)
  · intro hlen
    exact ⟨liveKeys map, pairwise_liveKeys hm, fun k => get_iff_liveKeys h hm, hlen⟩

/-! ## What the operations do to the numbers -/

/-- The buckets without a value have the hash of a tombstone. -/
def Unhashed (buckets : List (Bucket κ ν)) : Prop := ∀ b ∈ buckets, b.value = none → b.hash = 0

/-- There are fewer live buckets than the counter can count. -/
theorem Ready.countP_lt (h : Ready K map) : map.buckets.countP live + 1 < 2 ^ 64 := by
  have hle : map.buckets.countP live ≤ map.buckets.length := List.countP_le_length
  have hpow : 2 ^ map.shift < 2 ^ 31 := Nat.pow_lt_pow_right (by omega) h.shift
  rw [h.length, h.size] at hle
  omega

/-- The lookup of a key with a tombstone ends at it. -/
theorem hasTombstone_iff (hm : Holds K map.mask map.buckets spec) (hu : Unhashed map.buckets)
    (hp : probe (stops K k) map.buckets (home map.mask (K.hash k)) = some i) :
    HasTombstone K map k ↔
      bucketEmpty (bucketAt map i) = false ∧ (bucketAt map i).value = none := by
  obtain ⟨b, hb, hcase⟩ := hm.lookup hp
  rw [bucketAt_eq hb]
  constructor
  · rintro ⟨hzero, c, hc, hnone, a, ha, he⟩
    obtain ⟨j, hj⟩ := List.mem_iff_getElem?.mp hc
    have hpr : Proper K c a := ⟨ha, by rw [hu c hc hnone, K.hash_eq he, hzero]⟩
    obtain ⟨-, -, hno⟩ | ⟨k', hpr', he', -⟩ := hcase
    · rw [hno j c a hj hpr] at he
      cases he
    · obtain rfl := hm.unique hb hpr' hj hpr (K.trans he' (K.symm he))
      obtain rfl := Option.some.inj (hb.symm.trans hj)
      exact ⟨by simp [bucketEmpty, ha], hnone⟩
  · rintro ⟨hempty, hnone⟩
    have hmem := List.mem_of_getElem? hb
    obtain ⟨rfl, -⟩ | ⟨k', hpr, he, -⟩ := hcase
    · cases hempty
    · refine ⟨?_, b, hmem, hnone, k', hpr.1, he⟩
      rw [← K.hash_eq he, ← hpr.2, hu b hmem hnone]

/-- The number of live buckets with another bucket at an index. -/
theorem countP_live_set {b c : Bucket κ ν} {buckets : List (Bucket κ ν)}
    (hb : buckets[i]? = some b) :
    (buckets.set i c).countP live + (if live b then 1 else 0) =
      buckets.countP live + if live c then 1 else 0 := by
  obtain ⟨hi, rfl⟩ := List.getElem?_eq_some_iff.mp hb
  have hpos : (if live buckets[i] then 1 else 0) ≤ buckets.countP live := by
    split_ifs with hlive
    · exact List.countP_pos_iff.mpr ⟨_, List.getElem_mem hi, hlive⟩
    · exact Nat.zero_le _
  rw [List.countP_set hi]
  omega

/-- **Storing an entry** counts it, unless it is stored in a tombstone. -/
theorem store_count (h : Ready K map) (hm : Holds K map.mask map.buckets spec)
    (hu : Unhashed map.buckets) (hcount : map.nEntries.toNat = map.buckets.countP live)
    (hp : probe (stops K k) map.buckets (home map.mask (K.hash k)) = some i) (v : ν) :
    Unhashed (store map i k v).buckets ∧
      ((store map i k v).nEntries.toNat = (store map i k v).buckets.countP live ↔
        ¬HasTombstone K map k) := by
  obtain ⟨b, hb, -⟩ := hm.lookup hp
  have hset {c : Bucket κ ν} (hc : c.value = some v) : Unhashed (map.buckets.set i c) := by
    intro d hd hnone
    obtain hd | rfl := List.mem_or_eq_of_mem_set hd
    · exact hu d hd hnone
    · rw [hc] at hnone
      cases hnone
  rw [hasTombstone_iff hm hu hp, store, bucketAt_eq hb]
  cases hempty : bucketEmpty b with
  | true =>
    have hcounts := countP_live_set (c := ⟨hashOf map k, some k, some v⟩) hb
    have hdead : live b = false := by rw [live, hempty]; rfl
    have hlive : live (⟨hashOf map k, some k, some v⟩ : Bucket κ ν) = true := rfl
    have hlt := h.countP_lt
    rw [hdead, hlive] at hcounts
    refine ⟨hset rfl, iff_of_true ?_ (by simp)⟩
    show (map.nEntries + 1).toNat = _
    rw [BitVec.toNat_add, hcount, Nat.mod_eq_of_lt (by simpa using hlt)]
    simpa using hcounts.symm
  | false =>
    have hcounts := countP_live_set (c := { b with value := some v }) hb
    have hlive : live { b with value := some v } = true := by
      simpa [live, bucketEmpty] using hempty
    refine ⟨hset rfl, ?_⟩
    show map.nEntries.toNat = _ ↔ _
    rw [hcount]
    cases hvalue : b.value with
    | none =>
      have hdead : live b = false := by rw [live, hvalue]; simp
      rw [hdead, hlive] at hcounts
      simp at hcounts ⊢
      omega
    | some w =>
      have hlive' : live b = true := by rw [live, hempty, hvalue]; rfl
      rw [hlive', hlive] at hcounts
      simp at hcounts ⊢
      omega

/-- Growth keeps the buckets that count. -/
theorem grow_count {grown : HashMap κ ν} (h : Ready K map)
    (hm : Holds K map.mask map.buckets spec) (hu : Unhashed map.buckets)
    (hgrow : growIfNeeded map = .ok grown) :
    Unhashed grown.buckets ∧ grown.nEntries = map.nEntries ∧
      grown.buckets.countP live = map.buckets.countP live := by
  unfold growIfNeeded at hgrow
  split_ifs at hgrow
  · obtain ⟨hends, hresult⟩ := h.resize hm.reset
    obtain ⟨-, hre, -⟩ := hresult grown hgrow
    have hperm := hre.perm (hends.mp ⟨grown, hgrow⟩).2.1
    refine ⟨fun b hb hnone => ?_, ?_, ?_⟩
    · cases hempty : bucketEmpty b with
      | true =>
        rw [hre.reset b hb hempty]
        rfl
      | false => exact hu b ((hre.mem b hempty).mp hb) hnone
    · obtain ⟨-, m, -, rfl⟩ := (resize_eq_ok _ _ _).mp hgrow
      rfl
    · rw [List.countP_eq_length_filter, List.countP_eq_length_filter, ← filter_live,
        ← filter_live map.buckets]
      exact (hperm.filter live).length_eq
  · obtain rfl := Except.ok.inj hgrow
    exact ⟨hu, rfl, rfl⟩

/-! ## Runs -/

/-- The map is ready, represents a finite map and counts its live buckets. -/
structure Counted (K : Keys κ) (map : HashMap κ ν) : Prop where
  sane : Sane K map
  unhashed : Unhashed map.buckets
  count : map.nEntries.toNat = map.buckets.countP live

theorem Counted.exactLen (h : Counted K map) : ExactLen K.eq map := by
  obtain ⟨hr, spec, hm⟩ := h.sane
  exact (exactLen_iff_count hr hm).mpr h.count

/-- **`cb_hash_insert`** keeps the number exact if there is no tombstone of the key. -/
theorem Counted.insert (h : Counted K map) {r : HashMap κ ν × Option (Option ν)}
    (hins : HashMap.insert map k v = .ok r) :
    Sane K r.1 ∧ Unhashed r.1.buckets ∧
      (r.1.nEntries.toNat = r.1.buckets.countP live ↔ ¬HasTombstone K map k) := by
  obtain ⟨hr, spec, hm⟩ := h.sane
  obtain ⟨hr', hm'⟩ := (hr.insert hm v).2 r hins
  simp only [HashMap.insert, bind_eq_ok, Except.ok.injEq] at hins
  obtain ⟨i, hi, grown, hgrow, rfl⟩ := hins
  have hp := hr.lookup_ok_iff.mp hi
  obtain ⟨hs, hms⟩ := hr.store hm hp v
  obtain ⟨hu, hcount⟩ := store_count hr hm h.unhashed h.count hp v
  obtain ⟨hu', hn, hc⟩ := grow_count hs hms hu hgrow
  refine ⟨⟨hr', _, hm'⟩, hu', ?_⟩
  rw [← hcount, hn, hc]

/-- A tombstone for a live bucket, and the counter one less. -/
theorem Counted.bury {b : Bucket κ ν} (h : Counted K map) (hr : Ready K map)
    (hb : map.buckets[i]? = some b) (hlive : live b = true) :
    Unhashed (map.buckets.set i (bucketTombstone b)) ∧
      (map.nEntries - 1).toNat = (map.buckets.set i (bucketTombstone b)).countP live := by
  constructor
  · intro c hc hnone
    obtain hc | rfl := List.mem_or_eq_of_mem_set hc
    · exact h.unhashed c hc hnone
    · rfl
  · have hcounts := countP_live_set (c := bucketTombstone b) hb
    have hdead : live (bucketTombstone b) = false := by simp [live, bucketTombstone]
    rw [hdead, hlive, if_pos rfl, if_neg (by simp), Nat.add_zero] at hcounts
    have hlt := hr.countP_lt
    have hone : (1 : BitVec 64).toNat = 1 := rfl
    have hle : 1 ≤ map.nEntries := by
      rw [BitVec.le_def, h.count, hone]
      omega
    rw [BitVec.toNat_sub_of_le hle, h.count, hone]
    omega

/-- **`cb_hash_remove`** keeps the number exact. -/
theorem Counted.remove (h : Counted K map) {r : HashMap κ ν × Option ν}
    (hrem : HashMap.remove map k = .ok r) : Counted K r.1 := by
  obtain ⟨hr, spec, hm⟩ := h.sane
  obtain ⟨hr', hm', -⟩ := (hr.remove hm).2 r hrem
  simp only [HashMap.remove, bind_eq_ok] at hrem
  obtain ⟨i, hi, hrem⟩ := hrem
  obtain ⟨b, hb, hcase⟩ := hm.lookup (hr.lookup_ok_iff.mp hi)
  rw [bucketAt_eq hb] at hrem
  split at hrem
  · obtain rfl := Except.ok.inj hrem
    exact h
  · next w hw =>
    obtain rfl := Except.ok.inj hrem
    have hlive : live b = true := by
      obtain ⟨rfl, -⟩ | ⟨k', hpr, -⟩ := hcase
      · cases hw
      · exact live_iff.mpr ⟨⟨k', hpr.1⟩, by simp [hw]⟩
    obtain ⟨hu, hcount⟩ := h.bury hr hb hlive
    exact ⟨⟨hr', _, hm'⟩, hu, hcount⟩

theorem Counted.clear (h : Counted K map) : Counted K (HashMap.clear map) := by
  obtain ⟨hr, spec, hm⟩ := h.sane
  obtain ⟨hr', hm'⟩ := hr.clear hm
  have hreset : ∀ b ∈ (HashMap.clear map).buckets, b = bucketReset := by
    intro b hb
    obtain ⟨c, hc, rfl⟩ := List.mem_map.mp hb
    split_ifs with hempty
    · exact hm.reset c hc hempty
    · rfl
  refine ⟨⟨hr', _, hm'⟩, fun b hb _ => by rw [hreset b hb]; rfl, ?_⟩
  refine (List.countP_eq_zero.mpr fun b hb => ?_).symm
  rw [hreset b hb]
  simp [live, bucketEmpty, bucketReset]

theorem counted_new {F : KeyFunctions κ} {k0 k1 : BitVec 64}
    (h : new F.hashFunc F.keyEq k0 k1 = .ok map) : Counted (F.keys k0 k1) map := by
  obtain ⟨hr, hm⟩ := ready_new h
  obtain rfl := Except.ok.inj h
  refine ⟨⟨hr, _, hm⟩, fun b hb _ => ?_, ?_⟩
  · rw [List.eq_of_mem_replicate hb]
    rfl
  · refine (List.countP_eq_zero.mpr fun b hb => ?_).symm
    rw [List.eq_of_mem_replicate hb]
    simp [live, bucketEmpty, bucketReset]

theorem operated_of_operate {e : Event κ ν} (h : operate map e = some map') :
    Operated map e map' := by
  obtain ⟨s, hs, rfl⟩ := Option.map_eq_some_iff.mp h
  exact operated_of_step (toOption_eq_some.mp hs)

/-- An operation that counts right keeps the number exact. -/
theorem Counted.operate {e : Event κ ν} (h : Counted K map) (hC : CountsRight K map e)
    (hs : HashMap.operate map e = some map') : Counted K map' := by
  cases operated_of_operate hs with
  | insert hins =>
    obtain ⟨hsane, hu, hcount⟩ := h.insert hins
    exact ⟨hsane, hu, hcount.mpr hC⟩
  | remove hrem => exact h.remove hrem
  | get _ => exact h
  | clear => exact h.clear

/-- An operation after which the number is exact has counted right. -/
theorem Counted.countsRight {e : Event κ ν} (h : Counted K map)
    (hs : HashMap.operate map e = some map') (hexact : ExactLen K.eq map') :
    CountsRight K map e := by
  cases operated_of_operate hs with
  | insert hins =>
    obtain ⟨⟨hr', spec', hm'⟩, -, hcount⟩ := h.insert hins
    exact hcount.mp ((exactLen_iff_count hr' hm').mp hexact)
  | remove _ => trivial
  | get _ => trivial
  | clear => trivial

/-- **The number of entries is exact all along a run exactly when no insertion of the run is
    for a key with the hash 0 that has a tombstone.** -/
theorem exactLen_iff (F : KeyFunctions κ) (k0 k1 : BitVec 64) (map : HashMap κ ν)
    (h : new F.hashFunc F.keyEq k0 k1 = .ok map) (es : List (Event κ ν)) :
    Always operate (ExactLen F.keyEq) map es ↔
      Meets operate (CountsRight (F.keys k0 k1)) map es :=
  always_iff_meets (I := Counted (F.keys k0 k1)) (counted_new h) (fun _ => Counted.exactLen)
    (fun _ _ _ => Counted.operate) (fun _ _ _ hI hs hP => hI.countsRight hs hP)

/-- Keys that all have the hash 0. -/
def zeroHash : KeyFunctions ℕ :=
  { oneHash with
    hashFunc := fun hasher _ => hasher.write [143, 240, 150, 234, 1]
    hash_eq := fun _ _ => rfl }

/-- A key with the hash 0 that is inserted again is not counted. -/
theorem not_always_exactLen : ¬∀ (F : KeyFunctions ℕ) (k0 k1 : BitVec 64) (map : HashMap ℕ ℕ),
    new F.hashFunc F.keyEq k0 k1 = .ok map → ∀ es : List (Event ℕ ℕ),
      Always operate (ExactLen F.keyEq) map es := by
  intro h
  have hlen : ((new zeroHash.hashFunc zeroHash.keyEq 0 0).toOption.bind fun map =>
      (run operate map [.insert 1 10, .remove 1, .insert 1 20]).map fun map : HashMap ℕ ℕ =>
        (len map, (HashMap.get map 1).toOption)) = some (0, some (some 20)) := by decide +kernel
  rcases hmap : new zeroHash.hashFunc zeroHash.keyEq 0 0 with e | map
  · rw [hmap] at hlen
    cases hlen
  rw [hmap] at hlen
  obtain ⟨map', hrun, hlen⟩ := Option.map_eq_some_iff.mp hlen
  obtain ⟨hzero, hget⟩ := Prod.mk.inj hlen
  obtain ⟨keys, -, hkeys, hcount⟩ := h zeroHash 0 0 map hmap _ _ map' List.prefix_rfl hrun
  rcases hvalue : HashMap.get map' 1 with e | w
  · rw [hvalue] at hget
    cases hget
  · rw [hvalue] at hget
    obtain rfl := Option.some.inj hget
    obtain ⟨a, ha, -⟩ := (hkeys 1).mp ⟨20, hvalue⟩
    rw [hzero] at hcount
    have hnil : keys = [] := List.length_eq_zero_iff.mp hcount.symm
    rw [hnil] at ha
    cases ha

/-- With another hash an entry that is removed and inserted again is counted. -/
theorem exactLen_midHash : ∃ map : HashMap ℕ ℕ, new midHash.hashFunc midHash.keyEq 0 0 = .ok map ∧
    Always operate (ExactLen midHash.keyEq) map [.insert 1 10, .remove 1, .insert 1 20] := by
  refine ⟨_, rfl, (exactLen_iff midHash 0 0 _ rfl _).mpr ?_⟩
  have hhash : (midHash.keys 0 0).hash 0 ≠ 0 := by decide +kernel
  intro es e t u _ _ _
  cases e with
  | insert key value => exact fun htombstone => hhash htombstone.1
  | remove key => trivial
  | get key => trivial
  | clear => trivial

end Cebus.HashMap
