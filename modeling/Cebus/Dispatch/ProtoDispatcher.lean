import Cebus.Collection.ArrayGrow
import Cebus.Dispatch.MessageDispatcher
import Cebus.Lib.LittleEndian
import Mathlib.Logic.Function.Basic

/-!
# The dispatcher of unpacked messages (`proto_message_dispatcher.c`)

Every registration pushes an entry to an array and gives the bus a pointer to it. The array
replaces its block when it grows; the blocks are numbered in the order in which they are
allocated, and a pointer into one that has been freed points to nothing.

* `Stays.register`: below 31 entries, a registration keeps all pointers.
* `block_register`: the 32nd one frees the first block.
* `staysRegistered_iff`: registrations stay, exactly if there are at most 31 of them.
-/

namespace Cebus.ProtoDispatcher

open Dispatch (MessageHandlerInvoker)
open Transition

/-! ## Model -/

/-- A pointer to an element of the array. -/
structure Pointer where
  block : ℕ
  offset : UInt64
deriving DecidableEq

/-- `cb_bus` (`bus.h`), as far as the dispatcher uses it: the invokers of each message type are
    kept as a finite map, and those that are called when a message is dispatched are those that
    have been registered for its type. -/
structure Bus (β : Type) where
  init : β
  registerInvoker : β → CString → MessageHandlerInvoker Pointer → β
  invokers : β → CString → List (MessageHandlerInvoker Pointer)
  invokers_init : ∀ id, invokers init id = []
  invokers_register : ∀ bus id invoker id', invokers (registerInvoker bus id invoker) id' =
    if id' = id then invokers bus id' ++ [invoker] else invokers bus id'

/-- `cb_proto_message_dispatcher_entry` (lines 7–16), with addresses for its pointers. -/
structure Entry where
  dispatchQueue : UInt64
  descriptor : UInt64
  handler : UInt64
  user : UInt64
deriving DecidableEq

/-- The arguments of `cb_proto_message_dispatcher_register`: what is used of the message are the
    address of its descriptor, its namespace and its name. -/
structure Registration where
  descriptor : UInt64
  namespaceName : CString
  name : CString
  handler : UInt64
  user : UInt64

/-- `cb_proto_message_dispatcher_impl` (lines 18–23), with the number of the block of the
    array. -/
structure ProtoMessageDispatcherImpl (β : Type) where
  invokers : CbArray
  block : ℕ
  bus : β

/-- The bytes of an entry in memory, by field. -/
def Entry.rows (entry : Entry) : List (List UInt8) :=
  [entry.dispatchQueue, entry.descriptor, entry.handler, entry.user].map fun word =>
    LittleEndian.toBytes 8 word.toNat

/-- The bytes of the rows one after the other. -/
def Entry.bytes (entry : Entry) : List UInt8 := entry.rows.flatten

/-- The field at an index of the bytes of an entry. -/
def word (bytes : List UInt8) (i : ℕ) : UInt64 :=
  UInt64.ofNat (LittleEndian.ofBytes ((bytes.drop (i * 8)).take 8))

/-- The entry that has these bytes. -/
def Entry.ofBytes (bytes : List UInt8) : Entry :=
  ⟨word bytes 0, word bytes 1, word bytes 2, word bytes 3⟩

/-- What is written to the new entry (lines 55–58). -/
def Registration.entry (r : Registration) : Entry := ⟨0, r.descriptor, r.handler, r.user⟩

/-- `cb_message_type_id_from_proto_message` (`message_type_id.c`, lines 18–24): "%s.%s" in an
    array of 255. -/
def Registration.messageTypeId (r : Registration) : CString :=
  CString.take ⟨r.namespaceName.bytes ++ [46] ++ r.name.bytes, by
    simp only [List.mem_append, not_or]
    exact ⟨⟨r.namespaceName.noNul, by decide⟩, r.name.noNul⟩⟩ 254

variable {β : Type}

/-- `cb_proto_message_dispatcher_impl_init` (lines 26–31). -/
def init (bus : Bus β) : ProtoMessageDispatcherImpl β :=
  ⟨CbArray.initWithCapacity 32 32, 0, bus.init⟩

/-- `cb_proto_message_dispatcher_impl_register` (lines 52–69). `cb_array_ensure` allocates a
    block if the array is too small. -/
def register (bus : Bus β) (impl : ProtoMessageDispatcherImpl β) (r : Registration) :
    Option (ProtoMessageDispatcherImpl β) := do
  let block :=
    if impl.invokers.size + 1 ≥ impl.invokers.capacity then impl.block + 1 else impl.block
  let (invokers, entry) ← impl.invokers.push
  let data ← invokers.data.store entry.toNat r.entry.bytes
  let invoker := MessageHandlerInvoker.init none ⟨block, entry⟩
  some ⟨{ invokers with data }, block, bus.registerInvoker impl.bus r.messageTypeId invoker⟩

/-- The entry that `cb_proto_message_dispatcher_invoke` (line 40) gets with this pointer. -/
def received (impl : ProtoMessageDispatcherImpl β) (user : Pointer) : Option Entry :=
  if user.block = impl.block then
    (CbArray.deref impl.invokers (some user.offset)).map Entry.ofBytes
  else none

/-- After all registrations, a message of any type gives the handlers the entries that have been
    registered for it. -/
def StaysRegistered (bus : Bus β) (registrations : List Registration) : Prop :=
  ∃ impl, run (register bus) (init bus) registrations = some impl ∧
    ∀ id, (bus.invokers impl.bus id).map (fun invoker => received impl invoker.handler) =
      (registrations.filter (·.messageTypeId = id)).map fun r => some r.entry

/-! ## Entries in memory -/

theorem Entry.length_of_mem_rows (entry : Entry) : ∀ row ∈ entry.rows, row.length = 8 := by
  intro row hrow
  obtain ⟨word, -, rfl⟩ := List.mem_map.mp hrow
  exact LittleEndian.length_toBytes 8 word.toNat

theorem Entry.length_bytes (entry : Entry) : entry.bytes.length = 32 := by
  rw [Entry.bytes, Block.length_flatten entry.length_of_mem_rows]
  rfl

/-- A field is read as it was written. -/
theorem word_bytes {entry : Entry} {i : ℕ} {w : UInt64}
    (h : entry.rows[i]? = some (LittleEndian.toBytes 8 w.toNat)) : word entry.bytes i = w := by
  have hlt : w.toNat < 256 ^ 8 := w.toNat_lt
  rw [word, Entry.bytes, Block.take_drop_flatten entry.length_of_mem_rows h,
    LittleEndian.ofBytes_toBytes, Nat.mod_eq_of_lt hlt, UInt64.ofNat_toNat]

/-- An entry is read as it was written. -/
theorem Entry.ofBytes_bytes (entry : Entry) : Entry.ofBytes entry.bytes = entry := by
  have hqueue : word entry.bytes 0 = entry.dispatchQueue := word_bytes rfl
  have hdescriptor : word entry.bytes 1 = entry.descriptor := word_bytes rfl
  have hhandler : word entry.bytes 2 = entry.handler := word_bytes rfl
  have huser : word entry.bytes 3 = entry.user := word_bytes rfl
  rw [Entry.ofBytes, hqueue, hdescriptor, hhandler, huser]

variable {bus : Bus β} {impl impl' : ProtoMessageDispatcherImpl β} {r : Registration}
  {registrations : List Registration}

/-- The invokers that the bus has for a type after these registrations, if the array has not
    grown. -/
def registered (registrations : List Registration) (id : CString) :
    List (MessageHandlerInvoker Pointer) :=
  (registrations.zipIdx.filter fun d => d.1.messageTypeId = id).map fun d =>
    MessageHandlerInvoker.init none ⟨0, UInt64.ofNat d.2 * 32⟩

/-- The array holds the entries in its first block, and the bus has a pointer to each. -/
structure Stays (bus : Bus β) (registrations : List Registration)
    (impl : ProtoMessageDispatcherImpl β) : Prop where
  holds : CbArray.Holds 32 (registrations.map (·.entry.bytes)) impl.invokers
  capacity : impl.invokers.capacity = 32
  block : impl.block = 0
  invokers : ∀ id, bus.invokers impl.bus id = registered registrations id

/-! ## One registration -/

theorem stays_init (bus : Bus β) : Stays bus [] (init bus) where
  holds := CbArray.Initial.holds (Or.inr ⟨32, by decide, rfl⟩)
  capacity := rfl
  block := rfl
  invokers := bus.invokers_init

/-- A registration gives the bus one more invoker. -/
theorem registered_concat (registrations : List Registration) (r : Registration) (id : CString) :
    registered (registrations ++ [r]) id =
      if id = r.messageTypeId then registered registrations id ++
        [MessageHandlerInvoker.init none ⟨0, UInt64.ofNat registrations.length * 32⟩]
      else registered registrations id := by
  unfold registered
  rw [List.zipIdx_append, List.filter_append, List.map_append, Nat.zero_add]
  by_cases hid : id = r.messageTypeId
  · have hkept : decide (r.messageTypeId = id) = true := decide_eq_true hid.symm
    simp only [if_pos hid, List.zipIdx_singleton, List.filter_cons, hkept, if_true]
    rfl
  · have hdropped : decide (r.messageTypeId = id) = false :=
      decide_eq_false fun heq => hid heq.symm
    simp only [if_neg hid, List.zipIdx_singleton, List.filter_cons, hdropped,
      Bool.false_eq_true, if_false]
    exact List.append_nil _

/-- **Below 31 entries** the array does not grow: the pointers that the bus has stay, and it gets
    one to the new entry. -/
theorem Stays.register (h : Stays bus registrations impl) (hlt : registrations.length < 31)
    (r : Registration) :
    ∃ impl', register bus impl r = some impl' ∧ Stays bus (registrations ++ [r]) impl' := by
  have hsize : impl.invokers.size.toNat = registrations.length := by
    rw [h.holds.size, List.length_map]
  have hbound : (impl.invokers.size.toNat + 1) * (32 : UInt64).toNat < 2 ^ 63 := by
    rw [show (32 : UInt64).toNat = 32 from rfl]
    omega
  have hnext := (CbArray.needed_of_bound (by decide) hbound).1
  have hroom : ¬impl.invokers.size + 1 ≥ impl.invokers.capacity := by
    have hcapacity : (32 : UInt64).toNat = 32 := rfl
    rw [ge_iff_le, UInt64.le_iff_toNat_le, h.capacity, hnext]
    omega
  have hslot : CbArray.offsetN impl.invokers impl.invokers.size =
      UInt64.ofNat registrations.length * 32 := by
    rw [CbArray.offsetN, h.holds.elementSize, ← hsize, UInt64.ofNat_toNat]
  have hpush : CbArray.push impl.invokers = some ({ impl.invokers with
      size := impl.invokers.size + 1 }, UInt64.ofNat registrations.length * 32) := by
    simp only [CbArray.push, CbArray.ensure, if_neg hroom, Option.bind_eq_bind, Option.bind_some,
      hslot]
  obtain ⟨array, slot, data, hpush', -, -, hstore, hholds⟩ :=
    h.holds.push (by decide) r.entry.length_bytes hbound
  obtain ⟨rfl, rfl⟩ := Prod.mk.inj (Option.some.inj (hpush.symm.trans hpush'))
  refine ⟨⟨{ impl.invokers with size := impl.invokers.size + 1, data }, impl.block,
    bus.registerInvoker impl.bus r.messageTypeId (MessageHandlerInvoker.init none
      ⟨impl.block, UInt64.ofNat registrations.length * 32⟩)⟩, ?_, ?_⟩
  · simp only [ProtoDispatcher.register, if_neg hroom, hpush, Option.bind_eq_bind,
      Option.bind_some, hstore]
  · refine ⟨by rwa [List.map_append], h.capacity, h.block, fun id => ?_⟩
    rw [bus.invokers_register, h.invokers, registered_concat, h.block]

/-- A pointer that the bus has points to the entry of its registration. -/
theorem Stays.received_of_mem (h : Stays bus registrations impl) {d : Registration × ℕ}
    (hd : d ∈ registrations.zipIdx) :
    received impl ⟨0, UInt64.ofNat d.2 * 32⟩ = some d.1.entry := by
  have hbytes : (registrations.map (·.entry.bytes))[d.2]? = some d.1.entry.bytes := by
    rw [List.getElem?_map, List.mk_mem_zipIdx_iff_getElem?.mp hd]
    rfl
  have hderef := h.holds.lie.deref_get hbytes
  have hlt : d.2 < impl.invokers.capacity.toNat := by
    obtain ⟨hlen, -⟩ := List.getElem?_eq_some_iff.mp hbytes
    have hsize := h.holds.size
    have hle := h.holds.size_le
    omega
  have hindex : ¬UInt64.ofNat d.2 ≥ impl.invokers.capacity := by
    rw [ge_iff_le, UInt64.le_iff_toNat_le, UInt64.toNat_ofNat']
    have hmod := Nat.mod_le d.2 (2 ^ 64)
    omega
  rw [CbArray.get, if_neg hindex, CbArray.offsetN, h.holds.elementSize] at hderef
  rw [received, if_pos h.block.symm, hderef, Option.map_some, Entry.ofBytes_bytes]

/-- What the handlers receive are the entries that have been registered. -/
theorem Stays.received (h : Stays bus registrations impl) (id : CString) :
    (bus.invokers impl.bus id).map (fun invoker => received impl invoker.handler) =
      (registrations.filter (·.messageTypeId = id)).map fun r => some r.entry := by
  have hentries : ∀ d ∈ registrations.zipIdx.filter fun d => d.1.messageTypeId = id,
      ProtoDispatcher.received impl ⟨0, UInt64.ofNat d.2 * 32⟩ = some d.1.entry :=
    fun d hd => h.received_of_mem (List.mem_of_mem_filter hd)
  have hfst := List.filter_map (f := Prod.fst) (p := fun r : Registration => r.messageTypeId = id)
    (l := registrations.zipIdx)
  rw [List.zipIdx_map_fst] at hfst
  rw [h.invokers, registered, List.map_map, hfst, List.map_map]
  exact List.map_congr_left hentries

/-- What a registration that works out does. -/
theorem register_eq_some (hregister : ProtoDispatcher.register bus impl r = some impl') :
    impl'.block =
        (if impl.invokers.size + 1 ≥ impl.invokers.capacity then impl.block + 1 else impl.block) ∧
      ∃ invoker, impl'.bus = bus.registerInvoker impl.bus r.messageTypeId invoker := by
  unfold register at hregister
  obtain ⟨⟨array, slot⟩, -, hregister⟩ := Option.bind_eq_some_iff.mp hregister
  obtain ⟨data, -, hregister⟩ := Option.bind_eq_some_iff.mp hregister
  obtain rfl := Option.some.inj hregister
  exact ⟨rfl, _, rfl⟩

/-- **The 32nd entry** frees the first block. -/
theorem Stays.block_register (h : Stays bus registrations impl) (hlen : registrations.length = 31)
    (hregister : ProtoDispatcher.register bus impl r = some impl') : impl'.block = 1 := by
  have hsize : impl.invokers.size = 31 := by
    rw [← UInt64.toNat_inj, h.holds.size, List.length_map, hlen]
    rfl
  rw [(register_eq_some hregister).1, hsize, h.capacity, h.block]
  rfl

/-- A pointer to the first block stays in the bus, also when the block has been freed. -/
def Dangles (bus : Bus β) (id : CString) (impl : ProtoMessageDispatcherImpl β) : Prop :=
  1 ≤ impl.block ∧ ∃ invoker ∈ bus.invokers impl.bus id, invoker.handler.block = 0

theorem mem_invokers_register (hregister : register bus impl r = some impl') {id : CString}
    {invoker : MessageHandlerInvoker Pointer} (hmem : invoker ∈ bus.invokers impl.bus id) :
    invoker ∈ bus.invokers impl'.bus id := by
  obtain ⟨-, added, hbus⟩ := register_eq_some hregister
  rw [hbus, bus.invokers_register]
  split_ifs
  · exact List.mem_append_left _ hmem
  · exact hmem

theorem Dangles.register {id : CString} (h : Dangles bus id impl)
    (hregister : ProtoDispatcher.register bus impl r = some impl') : Dangles bus id impl' := by
  obtain ⟨hblock, invoker, hmem, hzero⟩ := h
  refine ⟨?_, invoker, mem_invokers_register hregister hmem, hzero⟩
  rw [(register_eq_some hregister).1]
  split_ifs
  · omega
  · exact hblock

/-! ## All registrations -/

/-- Up to 31 registrations stay. -/
theorem exists_stays (bus : Bus β) (h : registrations.length ≤ 31) :
    ∃ impl, run (register bus) (init bus) registrations = some impl ∧
      Stays bus registrations impl := by
  induction registrations using List.reverseRecOn with
  | nil => exact ⟨init bus, rfl, stays_init bus⟩
  | append_singleton registrations r ih =>
    rw [List.length_append, List.length_singleton] at h
    obtain ⟨impl, hrun, hstays⟩ := ih (by omega)
    obtain ⟨impl', hregister, hstays'⟩ := hstays.register (by omega) r
    refine ⟨impl', ?_, hstays'⟩
    rw [run_concat, hrun, Option.bind_some, hregister]

/-- With more than 31, a pointer to the first block dangles. -/
theorem dangles_of_run (hlen : 32 ≤ registrations.length)
    (hrun : run (register bus) (init bus) registrations = some impl) :
    ∃ id, Dangles bus id impl := by
  obtain ⟨first, r, rest, rfl, hfirst⟩ : ∃ first r rest, registrations = first ++ r :: rest ∧
      first.length = 31 :=
    ⟨registrations.take 31, registrations[31], registrations.drop 32,
      by rw [← List.drop_eq_getElem_cons, List.take_append_drop],
      List.length_take_of_le (by omega)⟩
  obtain ⟨impl₁, hrun₁, hstays⟩ := exists_stays bus (Nat.le_of_eq hfirst)
  rw [run_append, hrun₁, Option.bind_some, run_cons, Option.bind_eq_some_iff] at hrun
  obtain ⟨impl₂, hregister, hrest⟩ := hrun
  obtain ⟨d, hd⟩ := List.exists_mem_of_length_pos (l := first.zipIdx)
    (by rw [List.length_zipIdx]; omega)
  -- the pointer to an entry that was registered before
  have hmem : MessageHandlerInvoker.init none ⟨0, UInt64.ofNat d.2 * 32⟩ ∈
      bus.invokers impl₁.bus d.1.messageTypeId := by
    rw [hstays.invokers, registered]
    exact List.mem_map_of_mem (List.mem_filter.mpr ⟨hd, decide_eq_true rfl⟩)
  have hdangles : Dangles bus d.1.messageTypeId impl₂ :=
    ⟨Nat.le_of_eq (hstays.block_register hfirst hregister).symm, _,
      mem_invokers_register hregister hmem, rfl⟩
  exact ⟨_, run_induction hdangles (fun _ _ _ => Dangles.register) hrest⟩

/-- More do not. -/
theorem length_le_of_staysRegistered (h : StaysRegistered bus registrations) :
    registrations.length ≤ 31 := by
  obtain ⟨impl, hrun, hreceived⟩ := h
  by_contra hlen
  obtain ⟨id, hblock, invoker, hmem, hzero⟩ := dangles_of_run (by omega) hrun
  have hnone : ProtoDispatcher.received impl invoker.handler = none :=
    if_neg (by omega)
  have hmem := List.mem_map_of_mem (f := fun i => ProtoDispatcher.received impl i.handler) hmem
  rw [hreceived id, hnone] at hmem
  obtain ⟨r, -, hr⟩ := List.mem_map.mp hmem
  cases hr

/-- **Registered handlers stay registered** exactly if there are at most 31 registrations. -/
theorem staysRegistered_iff (bus : Bus β) (registrations : List Registration) :
    StaysRegistered bus registrations ↔ registrations.length ≤ 31 := by
  constructor
  · exact length_le_of_staysRegistered
  · intro h
    obtain ⟨impl, hrun, hstays⟩ := exists_stays bus h
    exact ⟨impl, hrun, hstays.received⟩

/-- A bus with a table of invokers. -/
def tableBus : Bus (CString → List (MessageHandlerInvoker Pointer)) where
  init := fun _ => []
  registerInvoker table id invoker := Function.update table id (table id ++ [invoker])
  invokers table id := table id
  invokers_init _ := rfl
  invokers_register table id invoker id' := by
    by_cases h : id' = id
    · subst h
      rw [Function.update_self, if_pos rfl]
    · rw [Function.update_of_ne h, if_neg h]

/-- With 32 registrations of one message, the handlers get freed entries. -/
theorem not_forall_staysRegistered :
    ¬∀ registrations : List Registration, StaysRegistered tableBus registrations := by
  intro h
  have hlen := length_le_of_staysRegistered (h (List.replicate 32
    ⟨0, CString.ofChars "Abc".toList, CString.ofChars "Ping".toList, 0, 0⟩))
  rw [List.length_replicate] at hlen
  exact absurd hlen (by decide)

end Cebus.ProtoDispatcher
