import Cebus.Collection.Hasher

/-!
# The hash map (`hash_map.c`)

Keys and values are pointers; those stored in a bucket are `none` for `NULL`. A
probe that leaves the array, a call of the comparison function of a map that has
none yet and a shift that an `int` does not hold are faults.
-/

namespace Cebus

/-- What a C program must not do. -/
inductive HashMap.Fault where
  | outOfBounds
  | uninitialised
  | shiftOverflow
deriving DecidableEq, Repr

/-- `cb_hash_bucket` (`hash_map.h`, lines 13–23). -/
@[ext]
structure HashMap.Bucket (κ ν : Type) where
  hash : BitVec 32
  key : Option κ
  value : Option ν
deriving DecidableEq

/-- `cb_hash_map` (`hash_map.h`, lines 38–54). -/
structure HashMap (κ ν : Type) where
  hashFunc : Hasher → κ → Hasher
  keyEq : Option (κ → κ → Bool)
  shift : ℕ
  mask : BitVec 32
  buckets : List (HashMap.Bucket κ ν)
  hasher : Hasher
  size : ℕ
  nEntries : BitVec 64

namespace HashMap

variable {κ ν : Type}

/-! ## Buckets and storage -/

/-- `cb_hash_bucket_reset` (lines 13–17). -/
def bucketReset : Bucket κ ν := ⟨0, none, none⟩

/-- `cb_hash_bucket_tombstone` (lines 19–23). -/
def bucketTombstone (bucket : Bucket κ ν) : Bucket κ ν := { bucket with hash := 0, value := none }

/-- `cb_hash_bucket_empty` (lines 25–28). -/
def bucketEmpty (bucket : Bucket κ ν) : Bool := bucket.key.isNone

/-- `cb_hash_set_size` (lines 30–35); `1 << shift` is an `int`. -/
def setSize (map : HashMap κ ν) (shift : ℕ) : Except Fault (HashMap κ ν) :=
  if shift < 31 then
    .ok { map with shift := shift, size := 2 ^ shift, mask := BitVec.ofNat 32 (2 ^ shift - 1) }
  else .error .shiftOverflow

/-- `cb_hash_alloc_storage` (lines 37–49). -/
def allocStorage (map : HashMap κ ν) (shift : ℕ) : Except Fault (HashMap κ ν) := do
  let map ← setSize map shift
  .ok { map with buckets := List.replicate map.size bucketReset }

/-- `cb_hash_map_new` (lines 121–134), with the keys that
    `cb_hasher_init_random` chooses. -/
def new (hashFunc : Hasher → κ → Hasher) (keyEq : κ → κ → Bool) (k0 k1 : BitVec 64) :
    Except Fault (HashMap κ ν) :=
  allocStorage
    { hashFunc := hashFunc, keyEq := some keyEq, shift := 0, mask := 0, buckets := []
      hasher := Hasher.init k0 k1, size := 0, nEntries := 0 } 3

/-! ## Lookup -/

/-- The `while` loop of `cb_hash_lookup_bucket` (lines 55–65) on the buckets from
    index `i` on. -/
def lookupLoop (keyEq : Option (κ → κ → Bool)) (key : Option κ) (hash : BitVec 32) :
    List (Bucket κ ν) → ℕ → Except Fault ℕ
  | [], _ => .error .outOfBounds
  | bucket :: buckets, i =>
    match bucket.key with
    | none => .ok i
    | some bucketKey =>
      if bucket.hash = hash then
        match keyEq, key with
        | some eq, some key =>
          if eq bucketKey key then .ok i else lookupLoop keyEq (some key) hash buckets (i + 1)
        | _, _ => .error .uninitialised
      else lookupLoop keyEq key hash buckets (i + 1)

/-- The slot at which the probe for a hash begins (line 53). -/
def home (mask hash : BitVec 32) : ℕ := (hash &&& mask).toNat

/-- `cb_hash_lookup_bucket` (lines 51–68): the index of the bucket. -/
def lookupBucket (map : HashMap κ ν) (key : Option κ) (hash : BitVec 32) : Except Fault ℕ :=
  lookupLoop map.keyEq key hash (map.buckets.drop (home map.mask hash)) (home map.mask hash)

/-- The hash of a key (lines 75–77). The hasher is reset before each use, so that
    what it is left with is dropped here. -/
def hashOf (map : HashMap κ ν) (key : κ) : BitVec 32 :=
  (Hasher.finish (map.hashFunc map.hasher.reset key)).1.setWidth 32

/-- `cb_hash_lookup` (lines 70–83). -/
def lookup (map : HashMap κ ν) (key : κ) : Except Fault ℕ :=
  lookupBucket map (some key) (hashOf map key)

/-- `map->buckets[i]`. -/
def bucketAt (map : HashMap κ ν) (i : ℕ) : Bucket κ ν := map.buckets.getD i bucketReset

/-! ## Growth -/

/-- The body of the loop of `cb_hash_resize` (lines 99–104). -/
def reinsert (newMap : HashMap κ ν) (oldBucket : Bucket κ ν) : Except Fault (HashMap κ ν) := do
  let i ← lookupBucket newMap oldBucket.key oldBucket.hash
  .ok { newMap with buckets := newMap.buckets.set i oldBucket }

/-- `cb_hash_resize` (lines 85–112). `new_map` has no `key_eq`; its other fields
    that are not set are not used either. -/
def resize (map : HashMap κ ν) (shift : ℕ) : Except Fault (HashMap κ ν) := do
  let newMap ← allocStorage { map with keyEq := none } shift
  let newMap ← map.buckets.foldlM reinsert newMap
  .ok { map with
    shift := newMap.shift
    mask := newMap.mask
    buckets := newMap.buckets
    size := newMap.size }

/-- The test of `cb_hash_grow_if_needed` (lines 114–119). -/
def growNeeded (map : HashMap κ ν) : Bool := map.nEntries.toNat ≥ map.size * 3 / 4

/-- `cb_hash_grow_if_needed` (lines 114–119). -/
def growIfNeeded (map : HashMap κ ν) : Except Fault (HashMap κ ν) :=
  if growNeeded map then resize map (map.shift + 1) else .ok map

/-! ## Operations -/

/-- `cb_hash_get` (lines 136–140). -/
def get (map : HashMap κ ν) (key : κ) : Except Fault (Option ν) := do
  let i ← lookup map key
  .ok (bucketAt map i).value

/-- The update of the bucket in `cb_hash_insert` (lines 152–162). -/
def store (map : HashMap κ ν) (i : ℕ) (key : κ) (value : ν) : HashMap κ ν :=
  if bucketEmpty (bucketAt map i) then
    { map with
      buckets := map.buckets.set i ⟨hashOf map key, some key, some value⟩
      nEntries := map.nEntries + 1 }
  else
    { map with buckets := map.buckets.set i { bucketAt map i with value := some value } }

/-- `cb_hash_insert` (lines 142–171), with the value it returns. Growth frees the
    storage that the returned value is read from; that read is taken not to trap, and
    what is read is `none`. -/
def insert (map : HashMap κ ν) (key : κ) (value : ν) :
    Except Fault (HashMap κ ν × Option (Option ν)) := do
  let i ← lookup map key
  let map := store map i key value
  let grown ← growIfNeeded map
  .ok (grown, if growNeeded map then none else some (bucketAt map i).value)

/-- `cb_hash_clear` (lines 173–187), without the destructor calls. -/
def clear (map : HashMap κ ν) : HashMap κ ν :=
  { map with
    buckets := map.buckets.map fun bucket =>
      if bucketEmpty bucket then bucket else bucketReset
    nEntries := 0 }

/-- `cb_hash_remove` (lines 189–201), with the value it returns. -/
def remove (map : HashMap κ ν) (key : κ) : Except Fault (HashMap κ ν × Option ν) := do
  let i ← lookup map key
  let bucket := bucketAt map i
  match bucket.value with
  | none => .ok (map, none)
  | some value =>
    .ok ({ map with
      buckets := map.buckets.set i (bucketTombstone bucket)
      nEntries := map.nEntries - 1 }, some value)

end HashMap

end Cebus
