import Cebus.ProtobufC.Decode

/-!
# What the scan finds

The first loop of `protobuf_c_message_unpack` reads the records one after the other. What it
notes of them is described here, and kept by each of its turns.

* `scanMembers_eq`: when the loop goes well, and what it leaves.
-/

namespace Cebus.ProtobufC

variable {δ : Type} {desc : MessageDescriptor δ} {st : ScanState} {record : UnknownField}
variable {records : List UnknownField} {rem rest : List UInt8} {i : ℕ}

/-! ## The notes -/

/-- How many elements a record adds to its field. -/
def FieldDescriptor.countOf (field : FieldDescriptor δ) (record : UnknownField) : Option ℕ :=
  if field.label = .repeated then
    if field.isPackedData record.wireType then countPackedElements field.type record.payload
    else some 1
  else some 0

/-- The elements of a record can be counted. -/
def MessageDescriptor.countable (desc : MessageDescriptor δ) (record : UnknownField) : Bool :=
  match (desc.key record).bind (desc.fields[·]?) with
  | none => true
  | some field => (field.countOf record).isSome

/-- A record as it is noted. -/
def MessageDescriptor.scanned (desc : MessageDescriptor δ) (record : UnknownField) :
    ScannedMember :=
  ⟨record.tag, record.wireType, record.prefixLen, desc.key record, record.data⟩

/-- How many elements there are for a field. -/
def MessageDescriptor.total (desc : MessageDescriptor δ) (records : List UnknownField) (i : ℕ)
    (field : FieldDescriptor δ) : ℕ :=
  ((Components.events desc.key i records).map fun record => (field.countOf record).getD 0).sum

/-- What is noted of some records. -/
structure Noted (desc : MessageDescriptor δ) (records : List UnknownField) (st : ScanState) :
    Prop where
  members : st.members = records.map desc.scanned
  length_counts : st.counts.length = desc.fields.length
  counts : ∀ (i : ℕ) field, desc.fields[i]? = some field →
    st.counts[i]? = some (desc.total records i field)
  length_bitmap : desc.fields.length ≤ st.requiredFieldsBitmap.length
  bitmap : ∀ (i : ℕ) field, desc.fields[i]? = some field → field.label = .required →
    st.requiredFieldsBitmap[i]? = some (records.any fun record => record.tag = field.id)
  nUnknown : st.nUnknown = (desc.unknown records).length
  slabs : records.length = 16 * (2 ^ st.whichSlab - 1) + st.inSlabIndex
  inSlab : st.inSlabIndex ≤ 2 ^ (st.whichSlab + 4)
  whichSlab : st.whichSlab ≤ 22

theorem noted_init (desc : MessageDescriptor δ) : Noted desc [] (ScanState.init desc) where
  members := rfl
  length_counts := List.length_map _
  counts := fun i field hfield => by
    rw [ScanState.init, List.getElem?_map, hfield]
    rfl
  length_bitmap := by
    rw [ScanState.init, List.length_replicate]
    omega
  bitmap := fun i field hfield _ => by
    obtain ⟨hi, -⟩ := List.getElem?_eq_some_iff.mp hfield
    rw [ScanState.init, List.getElem?_replicate, if_pos (by omega)]
    rfl
  nUnknown := rfl
  slabs := rfl
  inSlab := Nat.zero_le _
  whichSlab := Nat.zero_le _

/-! ## One turn -/

theorem key_eq_some_iff : desc.key record = some i ↔
    ∃ field, desc.fields[i]? = some field ∧ field.id = record.tag :=
  desc.index_eq_some_iff

/-- The state when a tag has been looked up. -/
def ScanState.looked (desc : MessageDescriptor δ) (st : ScanState) (tag : UInt32) : ScanState :=
  match desc.index tag with
  | none => { st with nUnknown := st.nUnknown + 1 }
  | some i => { st with lastFieldIndex := i }

/-- The field that was found last is the one that the lookup finds. -/
theorem lookupField_eq (desc : MessageDescriptor δ) (st : ScanState) (tag : UInt32) :
    st.lookupField desc tag = .ok (desc.index tag, st.looked desc tag) := by
  have hlookup : ScanState.lookupField.lookup desc st tag =
      .ok (desc.index tag, st.looked desc tag) := by
    rw [ScanState.lookupField.lookup, desc.lookup_eq, Fallible.ok_bind, ScanState.looked]
    cases desc.index tag with
    | none => rfl
    | some i => rfl
  rw [ScanState.lookupField]
  cases hlast : desc.fields[st.lastFieldIndex]? with
  | none => exact hlookup
  | some last =>
    dsimp only
    split_ifs with hid
    · exact hlookup
    · rw [ScanState.looked, desc.index_eq_some_iff.mpr ⟨last, hlast, not_not.mp hid⟩]

/-- The bits of the required fields that have been seen. -/
def bitmapAfter (desc : MessageDescriptor δ) (bitmap : List Bool) (tag : UInt32) : List Bool :=
  match desc.index tag with
  | none => bitmap
  | some i =>
    if (desc.fields[i]?.map (·.label)) = some .required then bitmap.set i true else bitmap

theorem setRequired_eq (h : desc.fields.length ≤ st.requiredFieldsBitmap.length) (tag : UInt32) :
    (st.looked desc tag).setRequired desc (desc.index tag) =
      .ok { st.looked desc tag with
        requiredFieldsBitmap := bitmapAfter desc st.requiredFieldsBitmap tag } := by
  rw [bitmapAfter, ScanState.looked]
  cases hindex : desc.index tag with
  | none => rfl
  | some i =>
    obtain ⟨field, hfield, -⟩ := desc.index_eq_some_iff.mp hindex
    obtain ⟨hi, -⟩ := List.getElem?_eq_some_iff.mp hfield
    simp only [ScanState.setRequired, Option.bind_some, hfield, Option.map_some,
      Option.some.injEq]
    by_cases hreq : field.label = .required
    · rw [if_pos hreq, if_pos hreq, if_pos (by omega)]
    · rw [if_neg hreq, if_neg hreq]

theorem length_bitmapAfter (desc : MessageDescriptor δ) (bitmap : List Bool) (tag : UInt32) :
    (bitmapAfter desc bitmap tag).length = bitmap.length := by
  rw [bitmapAfter]
  cases desc.index tag with
  | none => rfl
  | some i =>
    dsimp only
    split_ifs with hreq
    · exact List.length_set
    · rfl

theorem getElem?_bitmapAfter {bitmap : List Bool} {field : FieldDescriptor δ} {seen : Bool}
    (hfield : desc.fields[i]? = some field) (hreq : field.label = .required)
    (hbit : bitmap[i]? = some seen) (tag : UInt32) :
    (bitmapAfter desc bitmap tag)[i]? = some (seen || decide (tag = field.id)) := by
  obtain ⟨hi, -⟩ := List.getElem?_eq_some_iff.mp hbit
  by_cases htag : tag = field.id
  · have hindex : desc.index tag = some i := desc.index_eq_some_iff.mpr ⟨field, hfield, htag.symm⟩
    rw [bitmapAfter, hindex]
    simp only [hfield, Option.map_some, hreq, if_true]
    rw [List.getElem?_set_self hi, decide_eq_true htag, Bool.or_true]
  · rw [decide_eq_false htag, Bool.or_false, bitmapAfter]
    cases hindex : desc.index tag with
    | none => exact hbit
    | some j =>
      obtain ⟨field', hfield', hid⟩ := desc.index_eq_some_iff.mp hindex
      have hij : j ≠ i := by
        rintro rfl
        obtain rfl := Option.some.inj (hfield.symm.trans hfield')
        exact htag hid.symm
      dsimp only
      split_ifs
      · rw [List.getElem?_set_ne hij, hbit]
      · exact hbit

/-- A slab has room for a member as long as there are not too many. -/
theorem addMember_eq (h : Noted desc records st) (st' : ScanState) (tmp : ScannedMember)
    (hmembers : st'.members = st.members) (hslab : st'.whichSlab = st.whichSlab)
    (hin : st'.inSlabIndex = st.inSlabIndex) :
    if records.length < maxMembers then
      ∃ whichSlab inSlabIndex, st'.addMember tmp = .ok { st' with
          whichSlab, inSlabIndex, members := st.members ++ [tmp] } ∧
        records.length + 1 = 16 * (2 ^ whichSlab - 1) + inSlabIndex ∧
        inSlabIndex ≤ 2 ^ (whichSlab + 4) ∧ whichSlab ≤ 22
    else st'.addMember tmp = .error .invalid := by
  have hslabs := h.slabs
  have hinSlab := h.inSlab
  have hpow : 2 ^ (st.whichSlab + 4) = 16 * 2 ^ st.whichSlab := by rw [Nat.pow_add]; omega
  have hnext : 2 ^ (st.whichSlab + 1) = 2 * 2 ^ st.whichSlab := by rw [Nat.pow_succ]; omega
  have hmax : maxMembers = 16 * (2 * 2 ^ 22 - 1) := rfl
  have hle : 2 ^ st.whichSlab ≤ 2 ^ 22 := Nat.pow_le_pow_right (by decide) h.whichSlab
  have hone : 1 ≤ 2 ^ st.whichSlab := Nat.one_le_two_pow
  rw [ScanState.addMember, hin, hslab, hmembers]
  by_cases hfull : st.inSlabIndex = 2 ^ (st.whichSlab + 4)
  · rw [if_pos hfull]
    by_cases hlast : st.whichSlab = 22
    · rw [hlast] at hslabs hpow hfull
      rw [if_pos hlast, if_neg (by omega)]
    · have hle' : 2 ^ (st.whichSlab + 1) ≤ 2 ^ 22 :=
        Nat.pow_le_pow_right (by decide) (by have hwhich := h.whichSlab; omega)
      rw [if_neg hlast, if_pos (by omega)]
      refine ⟨_, _, rfl, by omega, ?_, by have hwhich := h.whichSlab; omega⟩
      exact Nat.one_le_two_pow
  · rw [if_neg hfull, if_pos (by omega)]
    exact ⟨_, _, rfl, by omega, by omega, h.whichSlab⟩

/-- The elements of a record are counted, if they can be. -/
theorem countElements_eq (desc : MessageDescriptor δ) (st : ScanState) (record : UnknownField) :
    if desc.countable record = true then
      ∃ counts, st.countElements desc (desc.scanned record) = .ok { st with counts } ∧
        counts.length = st.counts.length ∧
        ∀ (j : ℕ) field n, desc.fields[j]? = some field → st.counts[j]? = some n →
          counts[j]? =
            some (n + if desc.key record = some j then (field.countOf record).getD 0 else 0)
    else st.countElements desc (desc.scanned record) = .error .invalid := by
  have hkeep (h : ∀ (j : ℕ) field, desc.fields[j]? = some field → desc.key record = some j →
      field.countOf record = some 0) :
      ∃ counts, (Except.ok st : Except Failure ScanState) = .ok { st with counts } ∧
        counts.length = st.counts.length ∧
        ∀ (j : ℕ) field n, desc.fields[j]? = some field → st.counts[j]? = some n →
          counts[j]? =
            some (n + if desc.key record = some j then (field.countOf record).getD 0 else 0) := by
    refine ⟨st.counts, rfl, rfl, fun j field n hfield hn => ?_⟩
    split_ifs with hj
    · rw [hn, h j field hfield hj]
      rfl
    · exact hn
  rw [MessageDescriptor.countable]
  cases hkey : desc.key record with
  | none =>
    rw [hkey] at hkeep
    dsimp only [Option.bind_none]
    rw [if_pos rfl, ScanState.countElements, MessageDescriptor.scanned, hkey]
    exact hkeep fun j field _ hj => nomatch hj
  | some i =>
    obtain ⟨field, hfield, -⟩ := key_eq_some_iff.mp hkey
    have hone (j : ℕ) (field' : FieldDescriptor δ) (hfield' : desc.fields[j]? = some field')
        (hj : some i = some j) : field' = field := by
      obtain rfl := Option.some.inj hj
      exact Option.some.inj (hfield'.symm.trans hfield)
    have hmodify (count : ℕ) (hcount : field.countOf record = some count) :
        ∃ counts, (Except.ok { st with counts := st.counts.modify i (· + count) } :
            Except Failure ScanState) = .ok { st with counts } ∧
          counts.length = st.counts.length ∧
          ∀ (j : ℕ) field n, desc.fields[j]? = some field → st.counts[j]? = some n →
            counts[j]? =
              some (n + if some i = some j then (field.countOf record).getD 0 else 0) := by
      refine ⟨_, rfl, List.length_modify _ _ _, fun j field' n hfield' hn => ?_⟩
      rw [List.getElem?_modify, hn]
      by_cases hij : i = j
      · rw [hone j field' hfield' (congrArg some hij), hcount]
        simp [hij]
      · simp [hij]
    rw [hkey] at hkeep
    rw [ScanState.countElements, MessageDescriptor.scanned, hkey]
    simp only [Option.bind_some, hfield]
    rw [← UnknownField.payload]
    by_cases hlabel : field.label = .repeated
    · by_cases hpacked : field.isPackedData record.wireType = true
      · have hcount : field.countOf record = countPackedElements field.type record.payload := by
          rw [FieldDescriptor.countOf, if_pos hlabel, if_pos hpacked]
        rw [if_pos hlabel, if_pos hpacked, ← hcount]
        cases hvalue : field.countOf record with
        | none => rfl
        | some count =>
          rw [hvalue] at hmodify
          exact hmodify count rfl
      · have hcount : field.countOf record = some 1 := by
          rw [FieldDescriptor.countOf, if_pos hlabel, if_neg hpacked]
        rw [if_pos hlabel, if_neg hpacked, hcount, Option.isSome_some, if_pos rfl]
        rw [hcount] at hmodify
        exact hmodify 1 rfl
    · have hcount : field.countOf record = some 0 := by
        rw [FieldDescriptor.countOf, if_neg hlabel]
      rw [if_neg hlabel, hcount, Option.isSome_some, if_pos rfl]
      exact hkeep fun j field' hfield' hj => by rw [hone j field' hfield' hj, hcount]

theorem total_append (desc : MessageDescriptor δ) (records : List UnknownField)
    (record : UnknownField) (i : ℕ) (field : FieldDescriptor δ) :
    desc.total (records ++ [record]) i field = desc.total records i field +
      if desc.key record = some i then (field.countOf record).getD 0 else 0 := by
  rw [MessageDescriptor.total, Components.events_append, List.map_append, List.sum_append,
    MessageDescriptor.total]
  split_ifs with hkey
  · rw [Components.events_cons_of_eq hkey]
    rfl
  · rw [Components.events_cons_of_ne hkey]
    rfl

theorem length_unknown_append (desc : MessageDescriptor δ) (records : List UnknownField)
    (record : UnknownField) :
    (desc.unknown (records ++ [record])).length =
      (desc.unknown records).length + if desc.key record = none then 1 else 0 := by
  rw [MessageDescriptor.unknown, List.filter_append, List.length_append, MessageDescriptor.unknown]
  congr 1
  rw [← List.countP_eq_length_filter, List.countP_singleton]
  simp only [decide_eq_true_eq]

/-- The notes with a record more. -/
theorem Noted.append (h : Noted desc records st) {whichSlab inSlabIndex : ℕ} {counts : List ℕ}
    (hslabs : records.length + 1 = 16 * (2 ^ whichSlab - 1) + inSlabIndex)
    (hin : inSlabIndex ≤ 2 ^ (whichSlab + 4)) (hwhich : whichSlab ≤ 22)
    (hlength : counts.length = st.counts.length)
    (hcounts : ∀ (j : ℕ) field n, desc.fields[j]? = some field → st.counts[j]? = some n →
      counts[j]? =
        some (n + if desc.key record = some j then (field.countOf record).getD 0 else 0)) :
    Noted desc (records ++ [record]) { st.looked desc record.tag with
      requiredFieldsBitmap := bitmapAfter desc st.requiredFieldsBitmap record.tag
      counts, whichSlab, inSlabIndex, members := st.members ++ [desc.scanned record] } where
  members := by rw [h.members, List.map_append]; rfl
  length_counts := hlength.trans h.length_counts
  counts := fun i field hfield => by
    rw [total_append]
    exact hcounts i field _ hfield (h.counts i field hfield)
  length_bitmap := by
    dsimp only
    rw [length_bitmapAfter]
    exact h.length_bitmap
  bitmap := fun i field hfield hreq => by
    rw [List.any_append, List.any_cons, List.any_nil, Bool.or_false]
    exact getElem?_bitmapAfter hfield hreq (h.bitmap i field hfield hreq) record.tag
  nUnknown := by
    rw [length_unknown_append, ← h.nUnknown, MessageDescriptor.key, ScanState.looked]
    cases desc.index record.tag with
    | none => rfl
    | some i => rfl
  slabs := by rw [List.length_append]; exact hslabs
  inSlab := hin
  whichSlab := hwhich

theorem scanStep_none (h : Noted desc records st) (hscan : scanRecord rem = none) :
    scanStep desc st rem = .error .invalid := by
  rw [scanRecord] at hscan
  rw [scanStep]
  cases htag : parseTagAndWiretype rem with
  | none => rfl
  | some p =>
    obtain ⟨tag, w, used⟩ := p
    rw [htag, Option.bind_some, Option.map_eq_none_iff] at hscan
    simp only [lookupField_eq, setRequired_eq h.length_bitmap, Fallible.ok_bind, hscan]

/-- **What a turn of the loop notes.** -/
theorem scanStep_some (h : Noted desc records st) (hscan : scanRecord rem = some (record, rest)) :
    if records.length < maxMembers ∧ desc.countable record = true then
      ∃ st', scanStep desc st rem = .ok (st', rest) ∧ Noted desc (records ++ [record]) st'
    else scanStep desc st rem = .error .invalid := by
  obtain ⟨tag, w, used, len, p, htag, hdata, hrecord, rfl⟩ := scanRecord_eq_some_iff.mp hscan
  have htmp : (⟨tag, w, p, desc.index tag, (rem.drop used).take len⟩ : ScannedMember) =
      desc.scanned record := by
    subst hrecord
    rw [MessageDescriptor.scanned, prefixLen_eq (scanData_take hdata)]
    rfl
  have htag' : tag = record.tag := by rw [hrecord]
  have hmembers : (st.looked desc record.tag).members = st.members := by
    rw [ScanState.looked]
    cases desc.index record.tag <;> rfl
  have hslab : (st.looked desc record.tag).whichSlab = st.whichSlab := by
    rw [ScanState.looked]
    cases desc.index record.tag <;> rfl
  have hin : (st.looked desc record.tag).inSlabIndex = st.inSlabIndex := by
    rw [ScanState.looked]
    cases desc.index record.tag <;> rfl
  have hcounts : (st.looked desc record.tag).counts = st.counts := by
    rw [ScanState.looked]
    cases desc.index record.tag <;> rfl
  have hadd := addMember_eq h { st.looked desc record.tag with
    requiredFieldsBitmap := bitmapAfter desc st.requiredFieldsBitmap record.tag }
    (desc.scanned record) hmembers hslab hin
  rw [scanStep, htag]
  simp only [lookupField_eq, setRequired_eq h.length_bitmap, Fallible.ok_bind, hdata, htmp]
  rw [htag']
  by_cases hroom : records.length < maxMembers
  · rw [if_pos hroom] at hadd
    obtain ⟨whichSlab, inSlabIndex, hadd, hslabs, hle, hwhich⟩ := hadd
    rw [hadd, Fallible.ok_bind]
    have hcount := countElements_eq desc ⟨(st.looked desc record.tag).lastFieldIndex,
      bitmapAfter desc st.requiredFieldsBitmap record.tag, (st.looked desc record.tag).counts,
      (st.looked desc record.tag).nUnknown, whichSlab, inSlabIndex,
      st.members ++ [desc.scanned record]⟩ record
    by_cases hcountable : desc.countable record = true
    · rw [if_pos hcountable] at hcount
      obtain ⟨counts, hcount, hlength, hnew⟩ := hcount
      rw [if_pos ⟨hroom, hcountable⟩, hcount, Fallible.ok_bind]
      exact ⟨_, rfl, h.append hslabs hle hwhich (hlength.trans (congrArg List.length hcounts))
        (fun j field n hfield hn => hnew j field n hfield (by rw [hcounts]; exact hn))⟩
    · rw [if_neg hcountable] at hcount
      rw [if_neg (fun hboth => hcountable hboth.2), hcount]
      rfl
  · rw [if_neg hroom] at hadd
    rw [if_neg (fun hboth => hroom hboth.1), hadd]
    rfl

/-! ## The whole loop -/

theorem Noted.length_le (h : Noted desc records st) : records.length ≤ maxMembers := by
  have hslabs := h.slabs
  have hinSlab := h.inSlab
  have hpow : 2 ^ (st.whichSlab + 4) = 16 * 2 ^ st.whichSlab := by rw [Nat.pow_add]; omega
  have hmax : maxMembers = 16 * (2 * 2 ^ 22 - 1) := rfl
  have hle : 2 ^ st.whichSlab ≤ 2 ^ 22 := Nat.pow_le_pow_right (by decide) h.whichSlab
  have hone : 1 ≤ 2 ^ st.whichSlab := Nat.one_le_two_pow
  omega

/-- **When the loop goes well, and what it leaves.** -/
theorem scanMembers_eq {fuel : ℕ} (hfuel : rem.length ≤ fuel) (h : Noted desc records st) :
    match recordScanner.items rem with
    | none => scanMembers desc fuel st rem = .error .invalid
    | some more =>
      if records.length + more.length ≤ maxMembers ∧
          ∀ record ∈ more, desc.countable record = true then
        ∃ st', scanMembers desc fuel st rem = .ok st' ∧ Noted desc (records ++ more) st'
      else scanMembers desc fuel st rem = .error .invalid := by
  induction fuel generalizing rem records st with
  | zero =>
    obtain rfl := List.eq_nil_of_length_eq_zero (Nat.le_zero.mp hfuel)
    rw [Scanner.items_nil]
    exact (if_pos ⟨h.length_le, fun record hr => absurd hr List.not_mem_nil⟩).mpr
      ⟨st, rfl, by rwa [List.append_nil]⟩
  | succ fuel ih =>
    cases rem with
    | nil =>
      rw [Scanner.items_nil]
      exact (if_pos ⟨h.length_le, fun record hr => absurd hr List.not_mem_nil⟩).mpr
        ⟨st, rfl, by rwa [List.append_nil]⟩
    | cons b rem =>
      have hunfold : scanMembers desc (fuel + 1) st (b :: rem) =
          (scanStep desc st (b :: rem) >>= fun p => scanMembers desc fuel p.1 p.2) := rfl
      rw [hunfold]
      cases hscan : scanRecord (b :: rem) with
      | none =>
        rw [Scanner.items_of_not_scan (List.cons_ne_nil b rem) hscan, scanStep_none h hscan]
        rfl
      | some p =>
        obtain ⟨record, rest⟩ := p
        have hstep := scanStep_some h hscan
        have hshort := scanRecord_length hscan
        rw [List.length_cons] at hfuel hshort
        rw [Scanner.items_of_scan (s := recordScanner) hscan]
        split_ifs at hstep with hnote
        · obtain ⟨st', hstep, hnoted⟩ := hstep
          have hle : rest.length ≤ fuel := by omega
          have hrest := ih hle hnoted
          rw [hstep, Fallible.ok_bind]
          cases hitems : recordScanner.items rest with
          | none =>
            rw [hitems] at hrest
            exact hrest
          | some more =>
            rw [hitems] at hrest
            dsimp only [Option.map_some] at hrest ⊢
            rw [List.append_assoc, List.singleton_append, List.length_append, List.length_singleton,
              Nat.add_assoc, Nat.add_comm 1] at hrest
            simp only [List.length_cons, List.forall_mem_cons, hnote.2, true_and]
            exact hrest
        · rw [hstep]
          cases recordScanner.items rest with
          | none => rfl
          | some more =>
            dsimp only [Option.map_some]
            rw [if_neg]
            · rfl
            · rintro ⟨hlen, hcount⟩
              rw [List.length_cons] at hlen
              exact hnote ⟨by omega, hcount record List.mem_cons_self⟩

end Cebus.ProtobufC
