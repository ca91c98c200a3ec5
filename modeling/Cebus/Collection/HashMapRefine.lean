import Cebus.Collection.HashMapGrow
import Cebus.Lib.Fallible
import Cebus.Lib.Transition

/-!
# The hash map refines a finite map

The map runs beside a finite map, with the same operations and the answers of
both to `cb_hash_get`.

* `refines_iff`: they agree all along a run, without a fault, exactly when every
  operation finds its bucket in front of the end of the array and the growth
  that an insertion triggers is one that goes well.
-/

namespace Cebus.HashMap

open LinearProbing Transition Fallible

variable {κ ν : Type} {K : Keys κ} {map map' : HashMap κ ν} {spec : κ → Option ν} {k : κ} {v : ν}
  {i : ℕ}

/-! ## One operation -/

/-- From the home of the key on there is a bucket that is empty or has the key. -/
def Reaches (K : Keys κ) (map : HashMap κ ν) (k : κ) : Prop :=
  ∃ i b, home map.mask (K.hash k) ≤ i ∧ map.buckets[i]? = some b ∧ stops K k b = true

/-- The key reaches a bucket, and if the map has to grow once the entry is
    stored in it, it can. -/
def CanInsert (K : Keys κ) (map : HashMap κ ν) (k : κ) (v : ν) : Prop :=
  Reaches K map k ∧ ∀ i, probe (stops K k) map.buckets (home map.mask (K.hash k)) = some i →
    growNeeded (store map i k v) = true → CanGrow (store map i k v)

theorem reaches_iff : Reaches K map k ↔
    ∃ i, probe (stops K k) map.buckets (home map.mask (K.hash k)) = some i := by
  rw [← Option.ne_none_iff_exists', Ne, probe_eq_none]
  push Not
  simp only [Reaches, Bool.not_eq_false]

/-- A lookup ends inside the array or does not end well. -/
theorem Ready.lookup_ok_iff (h : Ready K map) :
    lookup map k = .ok i ↔ probe (stops K k) map.buckets (home map.mask (K.hash k)) = some i := by
  rw [h.lookup_eq]
  cases probe (stops K k) map.buckets (home map.mask (K.hash k)) with
  | none => simp [ended]
  | some j => simp [ended]

theorem bucketAt_eq {b : Bucket κ ν} (h : map.buckets[i]? = some b) : bucketAt map i = b := by
  rw [bucketAt, List.getD_eq_getElem?_getD, h]
  rfl

/-- Storing an entry in the bucket found for its key. -/
theorem Ready.store (h : Ready K map) (hm : Holds K map.mask map.buckets spec)
    (hp : probe (stops K k) map.buckets (home map.mask (K.hash k)) = some i) (v : ν) :
    Ready K (HashMap.store map i k v) ∧
      Holds K (HashMap.store map i k v).mask (HashMap.store map i k v).buckets
        (specUpdate K spec k (some v)) := by
  obtain ⟨b, hb, ⟨rfl, -, hno⟩ | ⟨k', hpr, he, -⟩⟩ := hm.lookup hp
  · have hempty : bucketEmpty (bucketReset : Bucket κ ν) = true := rfl
    rw [HashMap.store, bucketAt_eq hb, if_pos hempty]
    refine ⟨⟨h.hashOf, h.keyEq, h.shift, h.size, h.mask, (List.length_set ..).trans h.length⟩, ?_⟩
    rw [h.hashOf]
    exact hm.insertNew hp hb hno
  · rw [HashMap.store, bucketAt_eq hb, if_neg (by simp [bucketEmpty, hpr.1])]
    refine ⟨⟨h.hashOf, h.keyEq, h.shift, h.size, h.mask, (List.length_set ..).trans h.length⟩, ?_⟩
    exact hm.change { b with value := some v } hb hpr he rfl (Or.inl rfl)

/-- **`cb_hash_get`.** -/
theorem Ready.get (h : Ready K map) (hm : Holds K map.mask map.buckets spec) :
    ((∃ w, HashMap.get map k = .ok w) ↔ Reaches K map k) ∧
      ∀ w, HashMap.get map k = .ok w → w = spec k := by
  have hget : ∀ w, HashMap.get map k = .ok w ↔
      ∃ i, lookup map k = .ok i ∧ (bucketAt map i).value = w := by
    intro w
    simp only [HashMap.get, bind_eq_ok, Except.ok.injEq]
  simp only [hget, h.lookup_ok_iff, reaches_iff]
  refine ⟨⟨fun ⟨_, i, hi, _⟩ => ⟨i, hi⟩, fun ⟨i, hi⟩ => ⟨_, i, hi, rfl⟩⟩, ?_⟩
  rintro _ ⟨i, hi, rfl⟩
  obtain ⟨b, hb, ⟨rfl, hnone, -⟩ | ⟨-, -, -, hval⟩⟩ := hm.lookup hi
  · rw [bucketAt_eq hb, hnone]
    rfl
  · rw [bucketAt_eq hb, hval]

/-- **`cb_hash_insert`.** -/
theorem Ready.insert (h : Ready K map) (hm : Holds K map.mask map.buckets spec) (v : ν) :
    ((∃ r, HashMap.insert map k v = .ok r) ↔ CanInsert K map k v) ∧
      ∀ r, HashMap.insert map k v = .ok r →
        Ready K r.1 ∧ Holds K r.1.mask r.1.buckets (specUpdate K spec k (some v)) := by
  have hins : ∀ r, HashMap.insert map k v = .ok r ↔ ∃ i, lookup map k = .ok i ∧
      ∃ grown, growIfNeeded (HashMap.store map i k v) = .ok grown ∧
        r = (grown, if growNeeded (HashMap.store map i k v) then none
          else some (bucketAt (HashMap.store map i k v) i).value) := by
    intro r
    simp only [HashMap.insert, bind_eq_ok, Except.ok.injEq, eq_comm (b := r)]
  have hgrow : ∀ i, probe (stops K k) map.buckets (home map.mask (K.hash k)) = some i →
      ((∃ grown, growIfNeeded (HashMap.store map i k v) = .ok grown) ↔
          (growNeeded (HashMap.store map i k v) = true → CanGrow (HashMap.store map i k v))) ∧
        ∀ grown, growIfNeeded (HashMap.store map i k v) = .ok grown →
          Ready K grown ∧ Holds K grown.mask grown.buckets (specUpdate K spec k (some v)) := by
    intro i hi
    obtain ⟨hs, hms⟩ := h.store hm hi v
    unfold growIfNeeded
    split_ifs with hn
    · obtain ⟨hiff, hres⟩ := hs.resize hms.reset
      refine ⟨hiff.trans ⟨fun hc _ => hc, fun hc => hc hn⟩, fun grown hg => ?_⟩
      obtain ⟨hready, hre, -⟩ := hres grown hg
      exact ⟨hready, hms.rehashed hre⟩
    · refine ⟨⟨fun _ hc => absurd hc hn, fun _ => ⟨_, rfl⟩⟩, fun grown hg => ?_⟩
      obtain rfl := Except.ok.inj hg
      exact ⟨hs, hms⟩
  simp only [hins, h.lookup_ok_iff]
  constructor
  · rw [CanInsert, reaches_iff]
    constructor
    · rintro ⟨_, i, hi, grown, hg, -⟩
      refine ⟨⟨i, hi⟩, fun j hj => ?_⟩
      obtain rfl := Option.some.inj (hi.symm.trans hj)
      exact (hgrow i hi).1.mp ⟨grown, hg⟩
    · rintro ⟨⟨i, hi⟩, hc⟩
      obtain ⟨grown, hg⟩ := (hgrow i hi).1.mpr (hc i hi)
      exact ⟨_, i, hi, grown, hg, rfl⟩
  · rintro _ ⟨i, hi, grown, hg, rfl⟩
    exact (hgrow i hi).2 grown hg

/-- **`cb_hash_remove`.** -/
theorem Ready.remove (h : Ready K map) (hm : Holds K map.mask map.buckets spec) :
    ((∃ r, HashMap.remove map k = .ok r) ↔ Reaches K map k) ∧
      ∀ r, HashMap.remove map k = .ok r →
        Ready K r.1 ∧ Holds K r.1.mask r.1.buckets (specUpdate K spec k none) ∧ r.2 = spec k := by
  rw [reaches_iff]
  simp only [← h.lookup_ok_iff]
  unfold HashMap.remove
  cases hl : lookup map k with
  | error e => simp [bind, Except.bind]
  | ok i =>
    obtain ⟨b, hb, hcase⟩ := hm.lookup (h.lookup_ok_iff.mp hl)
    simp only [bind, Except.bind, bucketAt_eq hb]
    cases hv : b.value with
    | none =>
      refine ⟨by simp, fun r hr => ?_⟩
      obtain rfl := Except.ok.inj hr
      have hnone : spec k = none := by
        obtain ⟨-, hnone, -⟩ | ⟨-, -, -, hval⟩ := hcase
        · exact hnone
        · rw [← hval, hv]
      refine ⟨h, ?_, hnone.symm⟩
      -- the map did not have the key
      have hsame : specUpdate K spec k none = spec := by
        funext k'
        rw [specUpdate]
        split_ifs with he
        · rw [← hm.congr k k' he, hnone]
        · rfl
      rwa [hsame]
    | some w =>
      refine ⟨by simp, fun r hr => ?_⟩
      obtain rfl := Except.ok.inj hr
      obtain ⟨rfl, -⟩ | ⟨k', hpr, he, hval⟩ := hcase
      · cases hv
      · refine ⟨⟨h.hashOf, h.keyEq, h.shift, h.size, h.mask,
          (List.length_set ..).trans h.length⟩, ?_, hv.symm.trans hval⟩
        exact hm.change (bucketTombstone b) hb hpr he rfl (Or.inr ⟨rfl, rfl⟩)

/-- **`cb_hash_clear`.** -/
theorem Ready.clear (h : Ready K map) (hm : Holds K map.mask map.buckets spec) :
    Ready K (HashMap.clear map) ∧
      Holds K (HashMap.clear map).mask (HashMap.clear map).buckets fun _ => none := by
  refine ⟨⟨h.hashOf, h.keyEq, h.shift, h.size, h.mask, (List.length_map ..).trans h.length⟩, ?_⟩
  have hall : (HashMap.clear map).buckets = List.replicate map.buckets.length bucketReset := by
    refine List.eq_replicate_iff.mpr ⟨List.length_map .., fun b hb => ?_⟩
    obtain ⟨c, hc, rfl⟩ := List.mem_map.mp hb
    split_ifs with he
    · exact hm.reset c hc he
    · rfl
  rw [hall]
  exact holds_replicate _

/-! ## Runs -/

/-- The functions that a map is created with: equal keys have equal hashes,
    whatever state the hasher is in. -/
structure KeyFunctions (κ : Type) where
  hashFunc : Hasher → κ → Hasher
  keyEq : κ → κ → Bool
  refl : ∀ a, keyEq a a = true
  symm : ∀ {a b}, keyEq a b = true → keyEq b a = true
  trans : ∀ {a b c}, keyEq a b = true → keyEq b c = true → keyEq a c = true
  hash_eq : ∀ {a b}, keyEq a b = true → ∀ hasher,
    (Hasher.finish (hashFunc hasher a)).1 = (Hasher.finish (hashFunc hasher b)).1

/-- The keys as a map with the random keys `k0` and `k1` sees them. -/
def KeyFunctions.keys (F : KeyFunctions κ) (k0 k1 : BitVec 64) : Keys κ where
  hash k := (Hasher.finish (F.hashFunc (Hasher.init k0 k1).reset k)).1.setWidth 32
  eq := F.keyEq
  refl := F.refl
  symm := F.symm
  trans := F.trans
  hash_eq h := congrArg (BitVec.setWidth 32) (F.hash_eq h _)

/-- A new map is ready, and empty. -/
theorem ready_new {F : KeyFunctions κ} {k0 k1 : BitVec 64}
    (h : new F.hashFunc F.keyEq k0 k1 = .ok map) :
    Ready (F.keys k0 k1) map ∧ Holds (F.keys k0 k1) map.mask map.buckets fun _ => none := by
  obtain rfl := Except.ok.inj h
  exact ⟨⟨fun _ => rfl, rfl, by show 3 < 31; omega, rfl, rfl, rfl⟩, holds_replicate 8⟩

/-- A call of an operation on the map. -/
inductive Event (κ ν : Type) where
  | insert (key : κ) (value : ν)
  | remove (key : κ)
  | get (key : κ)
  | clear

/-- An operation on the map, with the answers to `cb_hash_get` so far. -/
def step (s : HashMap κ ν × List (Option ν)) :
    Event κ ν → Except Fault (HashMap κ ν × List (Option ν))
  | .insert key value => do
    let r ← HashMap.insert s.1 key value
    .ok (r.1, s.2)
  | .remove key => do
    let r ← HashMap.remove s.1 key
    .ok (r.1, s.2)
  | .get key => do
    let value ← HashMap.get s.1 key
    .ok (s.1, s.2 ++ [value])
  | .clear => .ok (HashMap.clear s.1, s.2)

/-- What an operation that comes back does to the map. -/
inductive Operated (map : HashMap κ ν) : Event κ ν → HashMap κ ν → Prop where
  | insert {key : κ} {value : ν} {r : HashMap κ ν × Option (Option ν)} :
      HashMap.insert map key value = .ok r → Operated map (.insert key value) r.1
  | remove {key : κ} {r : HashMap κ ν × Option ν} :
      HashMap.remove map key = .ok r → Operated map (.remove key) r.1
  | get {key : κ} {w : Option ν} : HashMap.get map key = .ok w → Operated map (.get key) map
  | clear : Operated map .clear (HashMap.clear map)

theorem operated_of_step {s s' : HashMap κ ν × List (Option ν)} {e : Event κ ν}
    (h : step s e = .ok s') : Operated s.1 e s'.1 := by
  cases e with
  | insert key value =>
    obtain ⟨r, hins, heq⟩ := bind_eq_ok.mp h
    obtain rfl := Except.ok.inj heq
    exact Operated.insert hins
  | remove key =>
    obtain ⟨r, hrem, heq⟩ := bind_eq_ok.mp h
    obtain rfl := Except.ok.inj heq
    exact Operated.remove hrem
  | get key =>
    obtain ⟨w, hget, heq⟩ := bind_eq_ok.mp h
    obtain rfl := Except.ok.inj heq
    exact Operated.get hget
  | clear =>
    obtain rfl := Except.ok.inj h
    exact Operated.clear

/-- The same operation on a finite map. -/
def specStep (K : Keys κ) (s : (κ → Option ν) × List (Option ν)) :
    Event κ ν → (κ → Option ν) × List (Option ν)
  | .insert key value => (specUpdate K s.1 key (some value), s.2)
  | .remove key => (specUpdate K s.1 key none, s.2)
  | .get key => (s.1, s.2 ++ [s.1 key])
  | .clear => (fun _ => none, s.2)

/-- The hash map, unless it has gone wrong, beside the finite map. -/
abbrev Pair (κ ν : Type) :=
  Except Fault (HashMap κ ν × List (Option ν)) × ((κ → Option ν) × List (Option ν))

/-- A new map beside an empty finite map. -/
def Pair.init (F : KeyFunctions κ) (k0 k1 : BitVec 64) : Pair κ ν :=
  ((new F.hashFunc F.keyEq k0 k1).map (·, []), (fun _ => none, []))

/-- A call on both. A map that has gone wrong stays so. -/
def Pair.step (K : Keys κ) (p : Pair κ ν) (e : Event κ ν) : Option (Pair κ ν) :=
  some (p.1.bind (HashMap.step · e), specStep K p.2 e)

/-- No probe has left the array, which has the size it is meant to have, and the
    answers are those of the finite map. -/
def Refines (p : Pair κ ν) : Prop :=
  ∃ map answers, p.1 = .ok (map, answers) ∧ map.buckets.length = map.size ∧ answers = p.2.2

/-- What an operation needs of the map. -/
def Allowed (K : Keys κ) (p : Pair κ ν) (e : Event κ ν) : Prop :=
  ∀ map answers, p.1 = .ok (map, answers) →
    match e with
    | .insert key value => CanInsert K map key value
    | .remove key => Reaches K map key
    | .get key => Reaches K map key
    | .clear => True

/-- The map represents the finite map. -/
def Inv (K : Keys κ) (p : Pair κ ν) : Prop :=
  ∃ map answers, p.1 = .ok (map, answers) ∧ answers = p.2.2 ∧ Ready K map ∧
    Holds K map.mask map.buckets p.2.1

theorem inv_init (F : KeyFunctions κ) (k0 k1 : BitVec 64) :
    Inv (F.keys k0 k1) (Pair.init F k0 k1 : Pair κ ν) :=
  ⟨_, _, rfl, rfl, ready_new rfl⟩

theorem Inv.refines {p : Pair κ ν} (h : Inv K p) : Refines p := by
  obtain ⟨map, answers, hp, ha, hr, -⟩ := h
  exact ⟨map, answers, hp, hr.length, ha⟩

/-- An operation that is allowed goes well, and does to the map what it does to
    the finite map. -/
theorem Inv.step {p q : Pair κ ν} {e : Event κ ν} (h : Inv K p) (hC : Allowed K p e)
    (hs : Pair.step K p e = some q) : Inv K q := by
  obtain ⟨map, answers, hp, ha, hr, hm⟩ := h
  obtain ⟨p₁, spec, answers'⟩ := p
  obtain rfl : p₁ = .ok (map, answers) := hp
  obtain rfl : answers = answers' := ha
  obtain rfl := Option.some.inj hs
  replace hC := hC map answers rfl
  cases e with
  | insert key value =>
    obtain ⟨hiff, hres⟩ := hr.insert (k := key) hm value
    obtain ⟨r, hok⟩ := hiff.mpr hC
    obtain ⟨hr', hm'⟩ := hres r hok
    exact ⟨r.1, answers, by simp [Except.bind, HashMap.step, hok], rfl, hr', hm'⟩
  | remove key =>
    obtain ⟨hiff, hres⟩ := hr.remove (k := key) hm
    obtain ⟨r, hok⟩ := hiff.mpr hC
    obtain ⟨hr', hm', -⟩ := hres r hok
    exact ⟨r.1, answers, by simp [Except.bind, HashMap.step, hok], rfl, hr', hm'⟩
  | get key =>
    obtain ⟨hiff, hres⟩ := hr.get (k := key) hm
    obtain ⟨w, hok⟩ := hiff.mpr hC
    obtain rfl := hres w hok
    exact ⟨map, answers ++ [spec key], by simp [Except.bind, HashMap.step, hok], rfl, hr, hm⟩
  | clear =>
    obtain ⟨hr', hm'⟩ := hr.clear hm
    exact ⟨HashMap.clear map, answers, rfl, rfl, hr', hm'⟩

/-- An operation that goes well was allowed. -/
theorem Inv.allowed {p q : Pair κ ν} {e : Event κ ν} (h : Inv K p)
    (hs : Pair.step K p e = some q) (hq : Refines q) : Allowed K p e := by
  obtain ⟨map, answers, hp, -, hr, hm⟩ := h
  obtain ⟨p₁, spec, answers'⟩ := p
  obtain rfl : p₁ = .ok (map, answers) := hp
  obtain rfl := Option.some.inj hs
  obtain ⟨map', answers'', hok, -, -⟩ := hq
  intro map₁ answers₁ heq
  obtain ⟨rfl, rfl⟩ := Prod.mk.inj (Except.ok.inj heq)
  cases operated_of_step hok with
  | insert hins => exact (hr.insert hm _).1.mp ⟨_, hins⟩
  | remove hrem => exact (hr.remove hm).1.mp ⟨_, hrem⟩
  | get hget => exact (hr.get hm).1.mp ⟨_, hget⟩
  | clear => trivial

/-- **The hash map refines a finite map exactly in the runs in which every
    operation is allowed.** -/
theorem refines_iff (F : KeyFunctions κ) (k0 k1 : BitVec 64) (es : List (Event κ ν)) :
    Always (Pair.step (F.keys k0 k1)) Refines (Pair.init F k0 k1) es ↔
      Meets (Pair.step (F.keys k0 k1)) (Allowed (F.keys k0 k1)) (Pair.init F k0 k1) es :=
  always_iff_meets (I := Inv (F.keys k0 k1)) (inv_init F k0 k1) (fun _ => Inv.refines)
    (fun _ _ _ => Inv.step) (fun _ _ _ => Inv.allowed)

/-- Keys that all have one hash, whose home is the last bucket of a new map. -/
def oneHash : KeyFunctions ℕ where
  hashFunc hasher _ := hasher.write [24]
  keyEq a b := a == b
  refl := by simp
  symm := by simp_all
  trans := by simp_all
  hash_eq _ _ := rfl

/-- The probe for a second key with the hash leaves the array. -/
theorem not_always_refines : ¬ ∀ (F : KeyFunctions ℕ) (k0 k1 : BitVec 64) (es : List (Event ℕ ℕ)),
    Always (Pair.step (F.keys k0 k1)) Refines (Pair.init F k0 k1) es := by
  intro h
  obtain ⟨map, answers, hok, -⟩ := h oneHash 0 0 [.insert 1 10, .get 2] _ _ List.prefix_rfl rfl
  have hfault : (((Pair.init oneHash 0 0 : Pair ℕ ℕ).1.bind (step · (.insert 1 10))).bind
      (step · (.get 2))).isOk = false := by decide +kernel
  have hisOk := hfault.symm.trans (congrArg Except.isOk hok)
  cases hisOk

end Cebus.HashMap
