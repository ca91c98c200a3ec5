import Cebus.ProtobufC.RoundTrip
import Cebus.ProtobufC.UnpackRefine

/-!
# The order of records

What bytes mean depends on the records of each field, in their order, and on those that are
unknown, but not on how they lie between each other.
-/

namespace Cebus.ProtobufC

variable {δ : Type} {descriptors : δ → MessageDescriptor δ} {descriptor : δ}
variable {records records' : List UnknownField}

/-- For each field, and for all other numbers, the records are the same. -/
structure SameFields (desc : MessageDescriptor δ) (records records' : List UnknownField) :
    Prop where
  known : ∀ field ∈ desc.fields, records.filter (fun record => record.tag = field.id) =
    records'.filter (fun record => record.tag = field.id)
  unknown : desc.unknown records = desc.unknown records'

namespace SameFields

variable {desc : MessageDescriptor δ}

theorem events (h : SameFields desc records records') (i : ℕ) :
    Components.events desc.key i records = Components.events desc.key i records' := by
  cases hfield : desc.fields[i]? with
  | none =>
    have hnone (rs : List UnknownField) : Components.events desc.key i rs = [] := by
      refine List.filter_eq_nil_iff.mpr fun record _ => ?_
      rw [decide_eq_true_eq]
      intro hkey
      obtain ⟨f, hf, -⟩ := desc.index_eq_some_iff.mp hkey
      exact absurd (hfield.symm.trans hf) (fun hn => nomatch hn)
    rw [hnone, hnone]
  | some field =>
    have hfilter (rs : List UnknownField) : Components.events desc.key i rs =
        rs.filter (fun record => record.tag = field.id) :=
      List.filter_congr fun record _ => decide_eq_decide.mpr (MessageDescriptor.key_eq_iff hfield)
    rw [hfilter, hfilter, h.known field (List.mem_of_getElem? hfield)]

/-- The records are the same ones in another order. -/
theorem perm (h : SameFields desc records records') : records.Perm records' := by
  rw [List.perm_iff_count]
  intro record
  cases hkey : desc.key record with
  | none =>
    have hcount (rs : List UnknownField) : (desc.unknown rs).count record = rs.count record :=
      List.count_filter (decide_eq_true hkey)
    rw [← hcount records, ← hcount records', h.unknown]
  | some i =>
    have hcount (rs : List UnknownField) :
        (Components.events desc.key i rs).count record = rs.count record :=
      List.count_filter (decide_eq_true hkey)
    rw [← hcount records, ← hcount records', h.events]

theorem complete (h : SameFields desc records records') :
    desc.complete records = desc.complete records' := by
  have hany (field : FieldDescriptor δ) : (records.any fun record => record.tag = field.id) =
      records'.any fun record => record.tag = field.id := h.perm.any_eq
  simp only [MessageDescriptor.complete, hany]

end SameFields

/-- Records of the same fields make the same message. -/
theorem decodeRecords_eq (decode : δ → List UInt8 → Option (Message δ))
    (h : SameFields (descriptors descriptor) records records') :
    decodeRecords descriptors decode descriptor records =
      decodeRecords descriptors decode descriptor records' := by
  simp only [decodeRecords, h.perm.length_eq, h.complete, Components.foldlM_congr h.events,
    h.unknown]

/-- **The order of fields does not matter.** -/
theorem decode_eq_of_sameFields {data data' : List UInt8}
    (hitems : recordScanner.items data = some records)
    (hitems' : recordScanner.items data' = some records')
    (h : SameFields (descriptors descriptor) records records') :
    decode descriptors descriptor data = decode descriptors descriptor data' := by
  rw [decode_eq, decode_eq, decodeFields, decodeFields, hitems, hitems', Option.bind_some,
    Option.bind_some, decodeRecords_eq _ h]

end Cebus.ProtobufC
