import LogShipping.Log.Codec
import LogShipping.Proofs.Json.Prefix

/-!
# Entries are read back

The payload that an entry is stored in decodes to that entry, for any texts, octets and words in it. A
proper part from the front of it decodes to nothing.
-/

namespace LogShipping

namespace Json

theorem plain_octets (bytes : Bytes) : Plain (octets bytes) := by
  refine .array _ fun item hmem ↦ ?_
  obtain ⟨byte, -, rfl⟩ := List.mem_map.mp hmem
  exact .integer _ _

theorem listOf?_list {α : Type} {encode : α → Json} {decode : Json → Option α}
    (h : ∀ value, decode (encode value) = some value) (values : List α) :
    listOf? decode (list encode values) = some values := by
  rw [list, listOf?, List.mapM_map]
  induction values with
  | nil => rfl
  | cons value values ih =>
    rw [List.mapM_cons, Function.comp_apply, h, ih]
    rfl

theorem uint8?_nat (byte : UInt8) : uint8? (nat byte.toNat) = some byte := by
  rw [uint8?, nat, natBelow?, if_pos byte.toNat_lt, Option.map_some, UInt8.ofNat_toNat]

theorem octets?_octets (bytes : Bytes) : octets? (octets bytes) = some bytes :=
  listOf?_list uint8?_nat bytes

theorem uint64?_nat (word : UInt64) : uint64? (nat word.toNat) = some word := by
  rw [uint64?, nat, natBelow?, if_pos word.toNat_lt, Option.map_some, UInt64.ofNat_toNat]

theorem int64?_int (word : Int64) : int64? (int word.toInt) = some word := by
  have hlow : -2 ^ 63 ≤ word.toInt := word.le_toInt
  have hhigh : word.toInt < 2 ^ 63 := word.toInt_lt
  rw [int]
  by_cases hsign : word.toInt < 0
  case pos =>
    have hvalue : -(word.toInt.natAbs : Int) = word.toInt := by omega
    rw [decide_eq_true hsign, int64?, if_pos ⟨by omega, by omega⟩, hvalue, Int64.ofInt_toInt]
  case neg =>
    have hvalue : (word.toInt.natAbs : Int) = word.toInt := by omega
    rw [decide_eq_false hsign, int64?, if_pos (by omega), hvalue, Int64.ofInt_toInt]

end Json

theorem CellKind.ofName?_name (kind : CellKind) : CellKind.ofName? kind.name = some kind := by
  cases kind <;> rfl

theorem Cell.fields?_toJson (cell : Cell) :
    Json.fields? ["row", "family", "qualifier", "timestamp", "kind", "value"] cell.toJson =
      some ⟨.named, [("row", some (.octets cell.row)), ("family", some (.text cell.family)),
        ("qualifier", some (.octets cell.qualifier)), ("timestamp", some (.int cell.timestamp.toInt)),
        ("kind", some (.text cell.kind.name)), ("value", some (.octets cell.value))]⟩ := rfl

theorem Cell.ofJson?_toJson (cell : Cell) : Cell.ofJson? cell.toJson = some cell := by
  rw [Cell.ofJson?, fields?_toJson]
  simp [Json.Fields.required, Json.Fields.defaulted, Json.Fields.value?, List.lookup_cons, Json.octets?_octets,
    Json.text?, Json.int64?_int, Json.constant?, CellKind.ofName?_name]

theorem Entry.fields?_toJson (entry : Entry) :
    Json.fields? ["table", "sequence_id", "write_time", "cells"] entry.toJson =
      some ⟨.named, [("table", some (.text entry.table)), ("sequence_id", some (.nat entry.sequence.toNat)),
        ("write_time", some (.int entry.time.toInt)), ("cells", some (.list Cell.toJson entry.cells))]⟩ := rfl

theorem Entry.ofJson?_toJson (entry : Entry) : Entry.ofJson? entry.toJson = some entry := by
  rw [Entry.ofJson?, fields?_toJson]
  simp [Json.Fields.required, Json.Fields.value?, List.lookup_cons, Json.text?, Json.uint64?_nat,
    Json.int64?_int, Json.listOf?_list Cell.ofJson?_toJson]

theorem Cell.plain_toJson (cell : Cell) : Json.Plain cell.toJson := by
  refine .object _ fun member hmem ↦ ?_
  simp only [List.mem_cons, List.not_mem_nil, or_false] at hmem
  rcases hmem with rfl | rfl | rfl | rfl | rfl | rfl
  · exact Json.plain_octets cell.row
  · exact .text _
  · exact Json.plain_octets cell.qualifier
  · exact .integer _ _
  · exact .text _
  · exact Json.plain_octets cell.value

theorem Entry.plain_toJson (entry : Entry) : Json.Plain entry.toJson := by
  refine .object _ fun member hmem ↦ ?_
  simp only [List.mem_cons, List.not_mem_nil, or_false] at hmem
  rcases hmem with rfl | rfl | rfl | rfl
  · exact .text _
  · exact .integer _ _
  · exact .integer _ _
  · refine .array _ fun item hitem ↦ ?_
    obtain ⟨cell, -, rfl⟩ := List.mem_map.mp hitem
    exact cell.plain_toJson

/-- The payload of an entry is decoded to that entry. -/
theorem Entry.decode_payload (entry : Entry) : Entry.decode entry.payload = .ok entry := by
  rw [Entry.decode, Entry.payload, Json.read?_write entry.plain_toJson, Option.bind_some,
    Entry.ofJson?_toJson]

/-- A cut payload is no entry. -/
theorem Entry.decode_take_payload (entry : Entry) {count : Nat} (h : count < entry.payload.length) :
    ∃ error, Entry.decode (entry.payload.take count) = .error error := by
  have hmore : entry.payload.drop count ≠ [] := by
    rw [Ne, List.drop_eq_nil_iff]
    omega
  unfold Entry.decode
  cases hread : Json.read? (entry.payload.take count) with
  | none => exact ⟨_, rfl⟩
  | some value =>
    obtain ⟨number, rfl⟩ := Json.number_of_read?_prefix entry.plain_toJson
      (List.take_append_drop count entry.payload) hmore hread
    exact ⟨_, rfl⟩

/-! ## Lengths -/

namespace Json

theorem length_writeItems_gt {size : Nat} {items : List Json} (h : ∀ item ∈ items, size ≤ (write item).length) :
    (size + 1) * items.length < (writeItems items).length := by
  induction items with
  | nil => exact Nat.zero_lt_one
  | cons item items ih =>
    have hfirst := h item List.mem_cons_self
    have hrest := ih fun other hmem ↦ h other (List.mem_cons_of_mem _ hmem)
    rw [writeItems, List.cons_append, List.length_cons, List.length_cons, List.length_append, Nat.mul_succ]
    omega

theorem length_write_array {items : List Json} (h : items ≠ []) :
    (write (.array items)).length = (writeItems items).length := by
  obtain ⟨item, items, rfl⟩ := List.exists_cons_of_ne_nil h
  rw [write, writeItems, List.cons_append, List.cons_append, List.length_cons, List.length_cons]

/-- A number of three digits and more takes three octets and more. -/
theorem length_write_nat_ge {magnitude : Nat} (h : 100 ≤ magnitude) : 3 ≤ (write (nat magnitude)).length := by
  have hfirst := List.length_pos_iff.mpr (Decimal.digits_ne_nil (magnitude / 10 / 10))
  show 3 ≤ (Decimal.digits magnitude).length
  rw [Decimal.digits_of_le (by omega), Decimal.digits_of_le (by omega), List.length_append,
    List.length_append, List.length_singleton, List.length_singleton]
  omega

/-- Octets of three digits take four in a document. -/
theorem length_write_octets_gt {bytes : Bytes} (h : ∀ byte ∈ bytes, 100 ≤ byte.toNat) :
    4 * bytes.length < (write (octets bytes)).length := by
  by_cases hempty : bytes = []
  case pos =>
    rw [hempty]
    exact Nat.zero_lt_two
  case neg =>
    rw [octets, length_write_array fun hnil ↦ hempty (List.map_eq_nil_iff.mp hnil),
      ← List.length_map fun byte : UInt8 ↦ nat byte.toNat]
    refine length_writeItems_gt fun item hmem ↦ ?_
    obtain ⟨byte, hbyte, rfl⟩ := List.mem_map.mp hmem
    exact length_write_nat_ge (h byte hbyte)

theorem length_le_writeItems {item : Json} {items : List Json} (h : item ∈ items) :
    (write item).length ≤ (writeItems items).length := by
  induction items with
  | nil => cases h
  | cons first items ih =>
    rw [writeItems, List.cons_append, List.length_cons, List.length_append]
    rcases List.mem_cons.mp h with rfl | h
    · omega
    · have := ih h
      omega

theorem length_le_writeMembers {member : String × Json} {members : List (String × Json)}
    (h : member ∈ members) : (write member.2).length ≤ (writeMembers members).length := by
  induction members with
  | nil => cases h
  | cons first members ih =>
    rw [writeMembers_cons, List.length_cons, List.length_append, List.length_cons, List.length_append]
    rcases List.mem_cons.mp h with rfl | h
    · omega
    · have := ih h
      omega

/-- A document is no shorter than what stands in it. -/
theorem length_le_array {item : Json} {items : List Json} (h : item ∈ items) :
    (write item).length ≤ (write (.array items)).length := by
  rw [length_write_array (List.ne_nil_of_mem h)]
  exact length_le_writeItems h

theorem length_le_object {member : String × Json} {members : List (String × Json)} (h : member ∈ members) :
    (write member.2).length ≤ (write (.object members)).length := by
  obtain ⟨first, others, rfl⟩ := List.exists_cons_of_ne_nil (List.ne_nil_of_mem h)
  have hlength : (write (.object (first :: others))).length = (writeMembers (first :: others)).length := by
    rw [write_object_cons, writeMembers_cons, List.length_cons, List.length_cons]
  rw [hlength]
  exact length_le_writeMembers h

end Json

/-- The payload of an entry is no shorter than the form of a value in it. -/
theorem Entry.length_value_le_payload {entry : Entry} {cell : Cell} (h : cell ∈ entry.cells) :
    (Json.write (.octets cell.value)).length ≤ entry.payload.length := by
  have hvalue : ("value", Json.octets cell.value) ∈ [
      ("row", Json.octets cell.row), ("family", .text cell.family),
      ("qualifier", .octets cell.qualifier), ("timestamp", .int cell.timestamp.toInt),
      ("kind", .text cell.kind.name), ("value", .octets cell.value)] := by simp
  have hcells : ("cells", Json.list Cell.toJson entry.cells) ∈ [
      ("table", Json.text entry.table), ("sequence_id", .nat entry.sequence.toNat),
      ("write_time", .int entry.time.toInt), ("cells", .list Cell.toJson entry.cells)] := by simp
  calc (Json.write (.octets cell.value)).length
      ≤ (Json.write cell.toJson).length := Json.length_le_object hvalue
    _ ≤ (Json.write (.list Cell.toJson entry.cells)).length :=
        Json.length_le_array (List.mem_map_of_mem h)
    _ ≤ entry.payload.length := Json.length_le_object hcells

end LogShipping
