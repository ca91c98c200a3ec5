import Cebus.Collection.HashMapResize

/-!
# A removal and the other keys

A tombstone keeps its key, which is equal to no other key, so that the lookups of the other keys
pass it as they passed the bucket before. Nothing is asked of the hashes in the buckets.

* `traceLoop_set`: a lookup does not depend on a bucket that it passes either way.
* `remove_undisturbed`: what a removal leaves of the lookups of all keys and of the number of
  entries.
-/

namespace Cebus.HashMap

open Fallible

variable {κ ν : Type} {eq : κ → κ → Bool} {map : HashMap κ ν} {k k' : κ} {hash : BitVec 32}
  {b c : Bucket κ ν} {bs : List (Bucket κ ν)} {i j : ℕ}

/-! ## Model -/

/-- The `while` loop of `cb_hash_lookup_bucket` (lines 55–65), with the indices of the buckets
    that it looks at. -/
def traceLoop (keyEq : Option (κ → κ → Bool)) (key : Option κ) (hash : BitVec 32) :
    List (Bucket κ ν) → ℕ → List ℕ × Except Fault ℕ
  | [], _ => ([], .error .outOfBounds)
  | bucket :: buckets, i =>
    let next := traceLoop keyEq key hash buckets (i + 1)
    match bucket.key with
    | none => ([i], .ok i)
    | some bucketKey =>
      if bucket.hash = hash then
        match keyEq, key with
        | some eq, some key => if eq bucketKey key then ([i], .ok i) else (i :: next.1, next.2)
        | _, _ => ([i], .error .uninitialised)
      else (i :: next.1, next.2)

/-- `cb_hash_lookup`, with the indices of the buckets that it looks at. -/
def trace (map : HashMap κ ν) (key : κ) : List ℕ × Except Fault ℕ :=
  traceLoop map.keyEq (some key) (hashOf map key)
    (map.buckets.drop (home map.mask (hashOf map key))) (home map.mask (hashOf map key))

/-- The trace ends as the lookup does. -/
theorem traceLoop_snd (keyEq : Option (κ → κ → Bool)) (key : Option κ) (hash : BitVec 32)
    (bs : List (Bucket κ ν)) (i : ℕ) :
    (traceLoop keyEq key hash bs i).2 = lookupLoop keyEq key hash bs i := by
  induction bs generalizing i with
  | nil => rfl
  | cons b bs ih =>
    rw [traceLoop, lookupLoop]
    cases b.key with
    | none => rfl
    | some bucketKey =>
      dsimp only
      split_ifs with hhash
      · cases keyEq with
        | none => rfl
        | some eq =>
          cases key with
          | none => rfl
          | some key =>
            dsimp only
            split_ifs
            · rfl
            · exact ih (i + 1)
      · exact ih (i + 1)

theorem trace_snd (map : HashMap κ ν) (key : κ) : (trace map key).2 = lookup map key :=
  traceLoop_snd _ _ _ _ _

/-! ## What a removal should do -/

/-- Each bucket is empty, live or a tombstone, and no two live buckets have equal keys. -/
structure Tidy (eq : κ → κ → Bool) (buckets : List (Bucket κ ν)) : Prop where
  empty : ∀ b ∈ buckets, bucketEmpty b = true → b.value = none
  distinct : ∀ (i j : ℕ) b c k k', buckets[i]? = some b → buckets[j]? = some c → live b = true →
    live c = true → b.key = some k → c.key = some k' → eq k k' = true → i = j

/-- The lookups before and after the removal of the key `k`, whose lookup ended at the bucket
    `i`. -/
structure Undisturbed (eq : κ → κ → Bool) (map map' : HashMap κ ν) (k : κ) (i : ℕ) : Prop where
  others : ∀ k', eq k k' = false → trace map' k' = trace map k' ∧
    ∀ j, (trace map k').2 = .ok j → (bucketAt map' j).value = (bucketAt map j).value
  gone : ∀ k', eq k k' = true → hashOf map k' = hashOf map k →
    ∀ j, (trace map' k').2 = .ok j → live (bucketAt map' j) = false
  count : map'.nEntries = if live (bucketAt map i) then map.nEntries - 1 else map.nEntries

/-! ## The end of a lookup -/

/-- The lookup of a key with this hash ends at the bucket. -/
def meets (eq : κ → κ → Bool) (key : κ) (hash : BitVec 32) (bucket : Bucket κ ν) : Bool :=
  match bucket.key with
  | none => true
  | some bucketKey => bucket.hash = hash && eq bucketKey key

theorem traceLoop_cons : traceLoop (some eq) (some k) hash (b :: bs) i =
    if meets eq k hash b then ([i], .ok i)
    else (i :: (traceLoop (some eq) (some k) hash bs (i + 1)).1,
      (traceLoop (some eq) (some k) hash bs (i + 1)).2) := by
  rw [traceLoop, meets]
  cases b.key with
  | none => rfl
  | some bucketKey => by_cases hhash : b.hash = hash <;> simp [hhash]

/-- A bucket that the lookup passes or meets either way makes no difference. -/
theorem traceLoop_set (hb : bs[j]? = some b) (h : meets eq k hash c = meets eq k hash b) :
    traceLoop (some eq) (some k) hash (bs.set j c) i = traceLoop (some eq) (some k) hash bs i := by
  induction bs generalizing i j with
  | nil => rfl
  | cons d bs ih =>
    cases j with
    | zero =>
      obtain rfl := Option.some.inj hb
      rw [List.set_cons_zero, traceLoop_cons, traceLoop_cons, h]
    | succ j => rw [List.set_cons_succ, traceLoop_cons, traceLoop_cons, ih hb]

/-- Equal keys with one hash have one lookup. -/
theorem traceLoop_congr (h : ∀ b ∈ bs, meets eq k' hash b = meets eq k hash b) :
    traceLoop (some eq) (some k') hash bs i = traceLoop (some eq) (some k) hash bs i := by
  induction bs generalizing i with
  | nil => rfl
  | cons b bs ih =>
    rw [traceLoop_cons, traceLoop_cons, h b List.mem_cons_self,
      ih fun c hc => h c (List.mem_cons_of_mem b hc)]

/-- The bucket at which a lookup ends. -/
theorem meets_of_traceLoop (h : (traceLoop (some eq) (some k) hash bs i).2 = .ok j) :
    i ≤ j ∧ ∃ b, bs[j - i]? = some b ∧ meets eq k hash b = true := by
  induction bs generalizing i with
  | nil => cases h
  | cons b bs ih =>
    rw [traceLoop_cons] at h
    split_ifs at h with hmeets
    · obtain rfl := Except.ok.inj h
      exact ⟨Nat.le_refl i, b, by rw [Nat.sub_self]; rfl, hmeets⟩
    · obtain ⟨hle, c, hc, hmeets⟩ := ih h
      refine ⟨by omega, c, ?_, hmeets⟩
      rwa [show j - i = j - (i + 1) + 1 by omega]

theorem meets_of_trace (hkeyEq : map.keyEq = some eq) (h : (trace map k).2 = .ok j) :
    ∃ b, map.buckets[j]? = some b ∧ meets eq k (hashOf map k) b = true := by
  rw [trace, hkeyEq] at h
  obtain ⟨hle, b, hb, hmeets⟩ := meets_of_traceLoop h
  rw [List.getElem?_drop, Nat.add_sub_cancel' hle] at hb
  exact ⟨b, hb, hmeets⟩

/-- A bucket that a lookup meets is empty or has an equal key. -/
theorem eq_of_meets (h : meets eq k hash b = true) :
    bucketEmpty b = true ∨ ∃ a, b.key = some a ∧ eq a k = true := by
  rw [meets] at h
  cases hkey : b.key with
  | none => exact Or.inl (by simp [bucketEmpty, hkey])
  | some a =>
    simp only [hkey, Bool.and_eq_true] at h
    exact Or.inr ⟨a, rfl, h.2⟩

/-! ## The removal -/

theorem live_of_empty (h : bucketEmpty b = true) : live b = false := by
  rw [live, h]
  rfl

/-- An equal key with the hash of the key has its lookup. -/
theorem trace_congr (heq : Equivalence fun a b => eq a b = true) (hkeyEq : map.keyEq = some eq)
    (he : eq k k' = true) (hhash : hashOf map k' = hashOf map k) : trace map k' = trace map k := by
  rw [trace, trace, hkeyEq, hhash]
  refine traceLoop_congr fun b _ => ?_
  rw [meets, meets]
  cases b.key with
  | none => rfl
  | some a =>
    have hiff : eq a k' = true ↔ eq a k = true :=
      ⟨fun h => heq.trans h (heq.symm he), fun h => heq.trans h he⟩
    dsimp only
    rw [Bool.eq_iff_iff.mpr hiff]

/-- A removal that finds nothing. -/
theorem undisturbed_self (heq : Equivalence fun a b => eq a b = true)
    (hkeyEq : map.keyEq = some eq) (hi : (trace map k).2 = .ok i)
    (hvalue : (bucketAt map i).value = none) : Undisturbed eq map map k i := by
  have hdead : live (bucketAt map i) = false := by
    rw [live, hvalue]
    exact Bool.and_false _
  refine ⟨fun k' _ => ⟨rfl, fun j _ => rfl⟩, fun k' he hhash j hj => ?_, by rw [hdead]; rfl⟩
  rw [trace_congr heq hkeyEq he hhash, hi] at hj
  obtain rfl := Except.ok.inj hj
  exact hdead

/-- The map with a tombstone at an index. -/
def buried (map : HashMap κ ν) (i : ℕ) : HashMap κ ν :=
  { map with
    buckets := map.buckets.set i (bucketTombstone (bucketAt map i))
    nEntries := map.nEntries - 1 }

/-- A lookup that passes a bucket passes its tombstone. -/
theorem trace_buried (hkeyEq : map.keyEq = some eq) (hb : map.buckets[i]? = some b)
    (hmeets : ∀ hash, meets eq k' hash (bucketTombstone b) = meets eq k' hash b) :
    trace (buried map i) k' = trace map k' := by
  have hhash : hashOf (buried map i) k' = hashOf map k' := rfl
  rw [trace, trace, hhash]
  simp only [buried, hkeyEq, bucketAt_eq hb]
  rw [List.drop_set]
  split_ifs with hlt
  · rfl
  · refine traceLoop_set ?_ (hmeets _)
    rw [List.getElem?_drop, Nat.add_sub_cancel' (by omega), hb]

/-- A removal that finds a live bucket. -/
theorem undisturbed_buried (heq : Equivalence fun a b => eq a b = true)
    (hkeyEq : map.keyEq = some eq) (htidy : Tidy eq map.buckets) (hb : map.buckets[i]? = some b)
    (hlive : live b = true) {a : κ} (ha : b.key = some a) (he : eq a k = true) :
    Undisturbed eq map (buried map i) k i := by
  obtain ⟨hlen, -⟩ := List.getElem?_eq_some_iff.mp hb
  have hset (j : ℕ) : (buried map i).buckets[j]? =
      if i = j then some (bucketTombstone b) else map.buckets[j]? := by
    rw [buried, bucketAt_eq hb, List.getElem?_set, if_pos hlen]
  have hpass (k' : κ) (hne : eq k k' = false) (hash : BitVec 32) : meets eq k' hash b = false := by
    rw [← Bool.not_eq_true]
    intro hmeets
    obtain hempty | ⟨a', ha', he'⟩ := eq_of_meets hmeets
    · simp [bucketEmpty, ha] at hempty
    · obtain rfl := Option.some.inj (ha.symm.trans ha')
      rw [heq.trans (heq.symm he) he'] at hne
      cases hne
  refine ⟨fun k' hne => ⟨?_, fun j hj => ?_⟩, fun k' hsame _ j hj => ?_, ?_⟩
  · refine trace_buried hkeyEq hb fun hash => ?_
    have hkey := hpass k' hne
    simp only [meets, ha, Bool.and_eq_false_iff] at hkey
    have hfalse : eq a k' = false := (hkey b.hash).resolve_left (by simp)
    simp [meets, bucketTombstone, ha, hfalse]
  · -- the other lookup does not end at the removed bucket
    obtain ⟨c, hc, hmeets⟩ := meets_of_trace hkeyEq hj
    have hij : i ≠ j := by
      rintro rfl
      obtain rfl := Option.some.inj (hb.symm.trans hc)
      rw [hpass k' hne] at hmeets
      cases hmeets
    have hsame := hset j
    rw [if_neg hij, hc] at hsame
    rw [bucketAt_eq hsame, bucketAt_eq hc]
  · obtain ⟨c, hc, hmeets⟩ := meets_of_trace (show (buried map i).keyEq = some _ from hkeyEq) hj
    rw [bucketAt_eq hc]
    rw [hset] at hc
    split_ifs at hc with hij
    · obtain rfl := Option.some.inj hc
      simp [live, bucketTombstone]
    · obtain hempty | ⟨a', ha', he'⟩ := eq_of_meets hmeets
      · exact live_of_empty hempty
      · -- another live bucket would have an equal key
        rw [← Bool.not_eq_true]
        intro hlive'
        have hequal := heq.trans he (heq.trans hsame (heq.symm he'))
        exact hij (htidy.distinct i j b c a a' hb hc hlive hlive' ha ha' hequal)
  · rw [bucketAt_eq hb, hlive]
    rfl

/-- **A removal disturbs no other key**: the lookups of the other keys look at the same buckets
    and end as before, that of the key ends on no live bucket, and the number of entries is one
    less if it did before. -/
theorem remove_undisturbed (map : HashMap κ ν) (eq : κ → κ → Bool)
    (heq : Equivalence fun a b => eq a b = true) (hkeyEq : map.keyEq = some eq)
    (htidy : Tidy eq map.buckets) (k : κ) (i : ℕ) (h : lookup map k = .ok i) :
    ∃ map', HashMap.remove map k = .ok (map', (bucketAt map i).value) ∧
      Undisturbed eq map map' k i := by
  have hi : (trace map k).2 = .ok i := (trace_snd map k).trans h
  obtain ⟨b, hb, hmeets⟩ := meets_of_trace hkeyEq hi
  cases hvalue : b.value with
  | none =>
    refine ⟨map, ?_, undisturbed_self heq hkeyEq hi (by rw [bucketAt_eq hb, hvalue])⟩
    simp only [HashMap.remove, h, ok_bind, bucketAt_eq hb, hvalue]
  | some w =>
    refine ⟨buried map i, ?_, ?_⟩
    · simp only [HashMap.remove, h, ok_bind, bucketAt_eq hb, hvalue, buried]
    · obtain hempty | ⟨a, ha, he⟩ := eq_of_meets hmeets
      · rw [htidy.empty b (List.mem_of_getElem? hb) hempty] at hvalue
        cases hvalue
      · have hlive : live b = true := by simp [live, bucketEmpty, ha, hvalue]
        exact undisturbed_buried heq hkeyEq htidy hb hlive ha he

/-- Two keys, of which the second has its bucket behind that of the first. -/
def twoKeys : HashMap ℕ ℕ where
  hashFunc hasher _ := hasher.write [8]
  keyEq := some (· == ·)
  shift := 1
  mask := 1
  buckets := [⟨4241603436, some 1, some 10⟩, ⟨4241603436, some 2, some 20⟩]
  hasher := Hasher.init 0 0
  size := 2
  nEntries := 2

/-- The first of two keys with one hash is removed. -/
theorem remove_twoKeys : ∃ map', HashMap.remove twoKeys 1 = .ok (map', (bucketAt twoKeys 0).value) ∧
    Undisturbed (· == ·) twoKeys map' 1 0 := by
  refine remove_undisturbed twoKeys (· == ·) ⟨by simp, by simp_all, by simp_all⟩ rfl ⟨?_, ?_⟩ 1 0
    (by decide +kernel)
  · decide +kernel
  · intro i j b c k k' hb hc _ _ hk hk' he
    have hkey {n : ℕ} {d : Bucket ℕ ℕ} {a : ℕ} (hd : twoKeys.buckets[n]? = some d)
        (ha : d.key = some a) : n + 1 = a := by
      rcases n with _ | _ | n
      · obtain rfl := Option.some.inj hd
        exact Option.some.inj ha
      · obtain rfl := Option.some.inj hd
        exact Option.some.inj ha
      · cases hd
    have hkk : k = k' := by simpa using he
    have hik := hkey hb hk
    have hjk := hkey hc hk'
    omega

end Cebus.HashMap
