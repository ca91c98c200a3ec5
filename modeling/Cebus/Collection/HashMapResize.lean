import Cebus.Collection.HashMapRefine
import Mathlib.Data.List.Perm.Subperm

/-!
# What growth does to the contents

* `Rehashed.perm`: the new array has the items of the old one.
* `reaches_grown_iff`: which keys find their bucket in the new array.
* `keepsContents_iff`: when growth ends, keeps the live entries and leaves every lookup as it
  was.
-/

namespace Cebus.HashMap

open LinearProbing Fallible

variable {κ ν : Type} {K : Keys κ} {map map' : HashMap κ ν} {spec : κ → Option ν} {k : κ}
  {mask : BitVec 32} {n : ℕ} {t buckets : List (Bucket κ ν)}

/-- The map after some operations on a new one. -/
def reached (F : KeyFunctions κ) (k0 k1 : BitVec 64) (es : List (Event κ ν)) :
    Except Fault (HashMap κ ν) := do
  let map ← new F.hashFunc F.keyEq k0 k1
  let s ← es.foldlM step (map, [])
  .ok s.1

/-- The bucket has a key and a value. -/
def live (bucket : Bucket κ ν) : Bool := !bucketEmpty bucket && bucket.value.isSome

/-- Growth to the next shift ends inside the arrays, keeps each live entry as often as it was
    there, and `cb_hash_get` returns the same value for every key before and after. -/
def KeepsContents (map : HashMap κ ν) : Prop :=
  ∃ map', resize map (map.shift + 1) = .ok map' ∧
    (map'.buckets.filter live).Perm (map.buckets.filter live) ∧
    ∀ k, ∃ w, HashMap.get map k = .ok w ∧ HashMap.get map' k = .ok w

/-- The mask after growth. -/
def grownMask (map : HashMap κ ν) : BitVec 32 := BitVec.ofNat 32 (2 ^ (map.shift + 1) - 1)

/-- The key is in a bucket with its hash, or from no index in front of its new home on have as
    many items their new home as there are slots. -/
def FindsPlace (K : Keys κ) (map : HashMap κ ν) (k : κ) : Prop :=
  (∃ b ∈ map.buckets, bucketEmpty b = false ∧ stops K k b = true) ∨
    ∀ j ≤ home (grownMask map) (K.hash k),
      demand bucketEmpty (homeOf (grownMask map)) j map.buckets < 2 ^ (map.shift + 1) - j

/-- What growth needs to keep the contents: it ends, and the lookup of every key ends inside
    the old array and has an end in the new one. -/
def GrowsWell (K : Keys κ) (map : HashMap κ ν) : Prop :=
  CanGrow map ∧ ∀ k, Reaches K map k ∧ FindsPlace K map k

/-! ## States -/

/-- The map is ready for lookups and represents some finite map. -/
def Sane (K : Keys κ) (map : HashMap κ ν) : Prop :=
  Ready K map ∧ ∃ spec, Holds K map.mask map.buckets spec

/-- An operation that comes back leaves the map sane. -/
theorem Sane.step {s s' : HashMap κ ν × List (Option ν)} {e : Event κ ν} (h : Sane K s.1)
    (hs : HashMap.step s e = .ok s') : Sane K s'.1 := by
  obtain ⟨hr, spec, hm⟩ := h
  obtain ⟨map', answers⟩ := s'
  have hop : Operated s.1 e map' := operated_of_step hs
  cases hop with
  | insert hins =>
    obtain ⟨hr', hm'⟩ := (hr.insert hm _).2 _ hins
    exact ⟨hr', _, hm'⟩
  | remove hrem =>
    obtain ⟨hr', hm', -⟩ := (hr.remove hm).2 _ hrem
    exact ⟨hr', _, hm'⟩
  | get _ => exact ⟨hr, spec, hm⟩
  | clear =>
    obtain ⟨hr', hm'⟩ := hr.clear hm
    exact ⟨hr', _, hm'⟩

theorem Sane.run {es : List (Event κ ν)} {s s' : HashMap κ ν × List (Option ν)}
    (h : Sane K s.1) (hs : es.foldlM HashMap.step s = .ok s') : Sane K s'.1 := by
  induction es generalizing s with
  | nil =>
    obtain rfl := Except.ok.inj hs
    exact h
  | cons e es ih =>
    rw [List.foldlM_cons] at hs
    obtain ⟨s₁, hstep, hs⟩ := bind_eq_ok.mp hs
    exact ih (h.step hstep) hs

/-- **All maps that are reached are sane.** -/
theorem sane_of_reached {F : KeyFunctions κ} {k0 k1 : BitVec 64} {es : List (Event κ ν)}
    (h : reached F k0 k1 es = .ok map) : Sane (F.keys k0 k1) map := by
  obtain ⟨map₀, hnew, h⟩ := bind_eq_ok.mp h
  obtain ⟨s, hrun, heq⟩ := bind_eq_ok.mp h
  obtain rfl := Except.ok.inj heq
  obtain ⟨hr, hm⟩ := ready_new hnew
  exact Sane.run ⟨hr, _, hm⟩ hrun

/-! ## The items -/

/-- Items with different hashes are in the list once. -/
theorem nodup_items
    (h : t.Pairwise fun b c => bucketEmpty b = false → bucketEmpty c = false → b.hash ≠ c.hash) :
    (t.filter fun b => !bucketEmpty b).Nodup := by
  rw [List.Nodup, List.pairwise_filter]
  refine h.imp fun hne hb hc heq => ?_
  rw [Bool.not_eq_true'] at hb hc
  exact hne hb hc (congrArg Bucket.hash heq)

/-- **The new array has the items of the old one**, each as often. -/
theorem Rehashed.perm (h : Rehashed mask n buckets t)
    (hpw : buckets.Pairwise fun b c => bucketEmpty b = false → b.hash ≠ c.hash) :
    (t.filter fun b => !bucketEmpty b).Perm (buckets.filter fun b => !bucketEmpty b) := by
  refine (List.perm_ext_iff_of_nodup (nodup_items ?_) (nodup_items ?_)).mpr fun b => ?_
  · rw [List.pairwise_iff_getElem]
    intro i j hi hj hij hb hc heq
    have := h.distinct i j _ _ (List.getElem?_eq_getElem hi) (List.getElem?_eq_getElem hj) hb hc heq
    omega
  · exact hpw.imp fun hne hb _ => hne hb
  · simp only [List.mem_filter, Bool.not_eq_true']
    exact and_congr_left (h.mem b)

theorem filter_live (l : List (Bucket κ ν)) :
    (l.filter fun b => !bucketEmpty b).filter live = l.filter live := by
  rw [List.filter_filter]
  refine List.filter_congr fun b _ => ?_
  rw [live]
  cases bucketEmpty b
  · simp
  · simp

/-! ## Lookups after growth -/

/-- **A key finds its bucket in the new array** if it has one, or else an empty one. -/
theorem reaches_grown_iff (hr : Ready K map') (hshift : map'.shift = map.shift + 1)
    (hre : Rehashed map'.mask map'.size map.buckets map'.buckets)
    (hpw : map.buckets.Pairwise fun b c => bucketEmpty b = false → b.hash ≠ c.hash) :
    Reaches K map' k ↔ FindsPlace K map k := by
  have hmask : map'.mask = grownMask map := by rw [hr.mask, hshift, grownMask]
  rw [hmask, hr.size, hshift] at hre
  have hdemand : ∀ j, demand bucketEmpty (homeOf (grownMask map)) j map'.buckets =
      demand bucketEmpty (homeOf (grownMask map)) j map.buckets := by
    intro j
    rw [← demand_filter, ← demand_filter j map.buckets]
    exact (hre.perm hpw).countP_eq _
  have hfree := hre.clustered.probe_ne_none_iff (i := home (grownMask map) (K.hash k))
  simp only [hdemand, hre.length] at hfree
  rw [FindsPlace, ← hfree, Reaches, hmask]
  constructor
  · rintro ⟨i, b, hle, hb, hstops⟩
    rcases hempty : bucketEmpty b with _ | _
    · have hmem := (hre.mem b hempty).mp (List.mem_of_getElem? hb)
      exact Or.inl ⟨b, hmem, hempty, hstops⟩
    · right
      intro hnone
      have := probe_eq_none.mp hnone i b hle hb
      rw [hempty] at this
      cases this
  · rintro (⟨b, hmem, hempty, hstops⟩ | hprobe)
    · -- an item is behind its home
      obtain ⟨i, hi⟩ := List.mem_iff_getElem?.mp ((hre.mem b hempty).mpr hmem)
      obtain ⟨k', hk'⟩ := Option.isSome_iff_exists.mp (by simpa [bucketEmpty] using hempty)
      have hhash := ((stops_iff hk').mp hstops).1
      have hle := (hre.clustered i b hi hempty).1
      rw [homeOf, hhash] at hle
      exact ⟨i, b, hle, hi, hstops⟩
    · obtain ⟨i, hi⟩ := Option.ne_none_iff_exists'.mp hprobe
      obtain ⟨hle, ⟨b, hb, hempty⟩, -⟩ := probe_eq_some.mp hi
      exact ⟨i, b, hle, hb, stops_of_empty hempty⟩

/-- **Growth keeps the contents** of a map that is reached exactly when no item meets another
    bucket with its hash, all of them have room in the new array, and no lookup leaves the old
    array or has no end in the new one. -/
theorem keepsContents_iff (F : KeyFunctions κ) (k0 k1 : BitVec 64) (es : List (Event κ ν))
    (map : HashMap κ ν) (h : reached F k0 k1 es = .ok map) :
    KeepsContents map ↔ GrowsWell (F.keys k0 k1) map := by
  obtain ⟨hr, spec, hm⟩ := sane_of_reached h
  obtain ⟨hends, hresult⟩ := hr.resize hm.reset
  have hafter {map' : HashMap κ ν} (hgrow : resize map (map.shift + 1) = .ok map') (k : κ) :
      Reaches (F.keys k0 k1) map' k ↔ FindsPlace (F.keys k0 k1) map k := by
    obtain ⟨hr', hre, hshift⟩ := hresult map' hgrow
    exact reaches_grown_iff hr' hshift hre (hends.mp ⟨map', hgrow⟩).2.1
  constructor
  · rintro ⟨map', hgrow, -, hget⟩
    obtain ⟨hr', hre, -⟩ := hresult map' hgrow
    refine ⟨hends.mp ⟨map', hgrow⟩, fun k => ?_⟩
    obtain ⟨w, hw, hw'⟩ := hget k
    exact ⟨(hr.get hm).1.mp ⟨w, hw⟩,
      (hafter hgrow k).mp ((hr'.get (hm.rehashed hre)).1.mp ⟨w, hw'⟩)⟩
  · rintro ⟨hcan, hkeys⟩
    obtain ⟨map', hgrow⟩ := hends.mpr hcan
    obtain ⟨hr', hre, -⟩ := hresult map' hgrow
    have hm' := hm.rehashed hre
    refine ⟨map', hgrow, ?_, fun k => ?_⟩
    · rw [← filter_live, ← filter_live map.buckets]
      exact (hre.perm hcan.2.1).filter _
    · obtain ⟨w, hw⟩ := (hr.get hm).1.mpr (hkeys k).1
      obtain ⟨w', hw'⟩ := (hr'.get hm').1.mpr ((hafter hgrow k).mpr (hkeys k).2)
      obtain rfl := (hr.get hm).2 w hw
      obtain rfl := (hr'.get hm').2 w' hw'
      exact ⟨_, hw, hw'⟩

/-- Keys that all have one hash, whose home is the fifth bucket of a new map. -/
def midHash : KeyFunctions ℕ :=
  { oneHash with
    hashFunc := fun hasher _ => hasher.write [8]
    hash_eq := fun _ _ => rfl }

/-- A tombstone is met by the empty buckets behind it, whose hash is 0 too. -/
theorem not_always_keepsContents : ¬∀ (F : KeyFunctions ℕ) (k0 k1 : BitVec 64)
    (es : List (Event ℕ ℕ)) (map : HashMap ℕ ℕ), reached F k0 k1 es = .ok map →
      KeepsContents map := by
  intro h
  have hok : (reached midHash 0 0 [.insert 1 10, .remove 1]).isOk = true := by decide +kernel
  have hfault : ((reached midHash 0 0 [.insert 1 10, .remove 1]).bind
      fun map => resize map (map.shift + 1)).isOk = false := by decide +kernel
  rcases hmap : reached midHash 0 0 [.insert 1 10, .remove 1] with e | map
  · rw [hmap] at hok
    cases hok
  · obtain ⟨map', hgrow, -⟩ := h midHash 0 0 _ map hmap
    rw [hmap] at hfault
    have hisOk := hfault.symm.trans (congrArg Except.isOk hgrow)
    cases hisOk

/-- A map with one entry keeps it. -/
theorem keepsContents_one : ∃ map, reached midHash 0 0 [.insert 1 10] = .ok map ∧
    KeepsContents map := by
  have hbuckets : (reached midHash 0 0 [.insert 1 10]).toOption.map
      (fun map : HashMap ℕ ℕ => (map.shift, map.mask, map.buckets)) = some (3, 7,
        [bucketReset, bucketReset, bucketReset, bucketReset, ⟨4241603436, some 1, some 10⟩,
          bucketReset, bucketReset, bucketReset]) := by decide +kernel
  rcases hmap : reached midHash 0 0 [.insert 1 10] with e | map
  · rw [hmap] at hbuckets
    cases hbuckets
  · rw [hmap] at hbuckets
    obtain ⟨hshift, hmask, hbuckets⟩ := Prod.mk.inj (Option.some.inj hbuckets) |>.imp id Prod.mk.inj
    refine ⟨map, rfl, (keepsContents_iff midHash 0 0 _ map hmap).mpr ?_⟩
    have hhash (k : ℕ) : (midHash.keys 0 0).hash k = 4241603436 :=
      show (midHash.keys 0 0).hash 0 = 4241603436 by decide +kernel
    have hdemand (j : ℕ) : demand bucketEmpty (homeOf (grownMask map)) j map.buckets =
        if j ≤ 12 then 1 else 0 := by
      rw [hbuckets, grownMask, hshift]
      simp [demand, bucketEmpty, bucketReset, homeOf, home, List.countP_cons]
    refine ⟨⟨by omega, ?_, fun j => ?_⟩, fun k => ⟨?_, Or.inr fun j hj => ?_⟩⟩
    · rw [hbuckets]
      decide +kernel
    · have := hdemand j
      rw [grownMask] at this
      rw [this, hshift]
      split <;> omega
    · refine ⟨5, bucketReset, ?_, ?_, rfl⟩
      · rw [hhash, hmask]
        decide +kernel
      · rw [hbuckets]
        rfl
    · rw [hdemand, hshift]
      rw [hhash, grownMask, hshift] at hj
      have hj : j ≤ 12 := hj
      rw [if_pos hj]
      omega

end Cebus.HashMap
