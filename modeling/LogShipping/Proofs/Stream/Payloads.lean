import LogShipping.Payload
import LogShipping.Proofs.Log.Entries
import LogShipping.Proofs.Zstd.Stored

/-!
# Payloads are read back

The receiver looks at the octets alone and not at the word for their form. It unpacks what begins as a frame
does, which the text of entries never does: an array begins with a bracket. So for any compression that loses
nothing the receiver gets the text that was hashed, and from it the entries.
-/

namespace LogShipping.Payload

variable {compress : Bytes → Bytes} {entries : List Entry} {threshold : Nat}

/-! ## The text of entries -/

theorem plain_entries (entries : List Entry) : Json.Plain (.list Entry.toJson entries) := by
  refine .array _ fun item hmem ↦ ?_
  obtain ⟨entry, -, rfl⟩ := List.mem_map.mp hmem
  exact entry.plain_toJson

theorem read_text (entries : List Entry) :
    (Json.read? (text entries)).bind (Json.listOf? Entry.ofJson?) = some entries := by
  rw [text, Json.read?_write (plain_entries entries), Option.bind_some,
    Json.listOf?_list Entry.ofJson?_toJson]

theorem text_cons (entries : List Entry) : ∃ more, text entries = 0x5B :: more := by
  cases entries with
  | nil => exact ⟨_, rfl⟩
  | cons entry entries => exact ⟨_, rfl⟩

/-- The text of entries does not look like a frame. -/
theorem not_magic_prefix_text (entries : List Entry) : ¬Zstd.magic <+: text entries := by
  obtain ⟨more, htext⟩ := text_cons entries
  rintro ⟨rest, hframe⟩
  rw [htext] at hframe
  exact absurd (List.cons.inj hframe).1 (by decide)

/-! ## Unpacking -/

theorem unpack_of_not_prefix {bytes : Bytes} (h : ¬Zstd.magic <+: bytes) : unpack bytes = .ok bytes := by
  rw [List.prefix_iff_eq_take] at h
  exact if_neg fun htake ↦ h htake.symm

theorem unpack_compressed (h : Zstd.Lossless compress) (content : Bytes) :
    unpack (compress content) = .ok content := by
  have hmark : Zstd.magic = (compress content).take 4 := List.prefix_iff_eq_take.mp (h.marked content)
  rw [unpack, if_pos hmark.symm, h.restored]

/-- Whatever the form, the receiver unpacks the text. -/
theorem unpack_encodeWith (h : Zstd.Lossless compress) (entries : List Entry) (threshold : Nat) :
    unpack (encodeWith compress entries threshold).bytes = .ok (text entries) := by
  by_cases hlong : threshold ≤ (text entries).length
  · simp only [encodeWith, hlong, decide_true, if_true, unpack_compressed h]
  · simp only [encodeWith, hlong, decide_false, Bool.false_eq_true, if_false,
      unpack_of_not_prefix (not_magic_prefix_text entries)]

/-! ## Decoding -/

/-- Octets that unpack to the text of entries decode to these if they come with the hash of that text, and with
no other. -/
theorem decode_of_unpack {bytes : Bytes} (hunpack : unpack bytes = .ok (text entries)) (hash : String) :
    decode bytes hash = if contentHash (text entries) = hash then .ok entries else
      .error (.log ("payload hash mismatch: expected " ++ hash ++ ", computed " ++ contentHash (text entries))) := by
  unfold decode
  rw [hunpack]
  simp only [bind, Except.bind, read_text, ne_eq, ite_not]
  rfl

theorem encoding_iff (compress : Bytes → Bytes) (entries : List Entry) (threshold : Nat) :
    ((encodeWith compress entries threshold).encoding = "zstd" ↔ threshold ≤ (text entries).length) ∧
      ((encodeWith compress entries threshold).encoding = "json" ↔ (text entries).length < threshold) := by
  by_cases hlong : threshold ≤ (text entries).length
  · simp [encoding, encodeWith, hlong]
  · simp [encoding, encodeWith, hlong, Nat.lt_of_not_le hlong]

/-- A payload comes back as the entries it was made of. It is called compressed if and only if the text is at
least as long as the threshold; otherwise it is the text itself, which no receiver takes for a frame. -/
theorem decode_encodeWith (h : Zstd.Lossless compress) (entries : List Entry) (threshold : Nat) :
    let payload := encodeWith compress entries threshold
    decode payload.bytes payload.hash = .ok entries ∧
      (payload.encoding = "zstd" ↔ threshold ≤ (text entries).length) ∧
      (payload.encoding = "json" ↔ (text entries).length < threshold) ∧
      (payload.encoding = "json" → payload.bytes = text entries ∧ ¬Zstd.magic <+: payload.bytes ∧
        unpack payload.bytes = .ok payload.bytes) := by
  intro payload
  obtain ⟨hzstd, hjson⟩ := encoding_iff compress entries threshold
  refine ⟨?_, hzstd, hjson, fun hlabel ↦ ?_⟩
  · rw [decode_of_unpack (unpack_encodeWith h entries threshold)]
    exact if_pos rfl
  · have hbytes : payload.bytes = text entries := by
      simp [payload, encodeWith, Nat.not_le.mpr (hjson.mp hlabel)]
    have hmark := not_magic_prefix_text entries
    rw [← hbytes] at hmark
    exact ⟨hbytes, hmark, unpack_of_not_prefix hmark⟩

namespace Sample

def entry : Entry := ⟨"t", 1, -5, [⟨[0x72], "f", [0x71], 1, .put, [0x28, 0xB5]⟩]⟩

end Sample

/-- An entry whose text has more than sixty-four octets, once compressed and once not. -/
theorem decode_encodeWith_store :
    Zstd.Lossless Zstd.store ∧
      (encode [Sample.entry] 64).encoding = "zstd" ∧
      decode (encode [Sample.entry] 64).bytes (encode [Sample.entry] 64).hash = .ok [Sample.entry] ∧
      (encode [Sample.entry] 4096).encoding = "json" ∧
      decode (encode [Sample.entry] 4096).bytes (encode [Sample.entry] 4096).hash = .ok [Sample.entry] := by
  have hlength : (text [Sample.entry]).length = 146 := by decide +kernel
  obtain ⟨hpacked, hzstd, -⟩ := decode_encodeWith Zstd.lossless_store [Sample.entry] 64
  obtain ⟨hplain, -, hjson, -⟩ := decode_encodeWith Zstd.lossless_store [Sample.entry] 4096
  rw [hlength] at hzstd hjson
  exact ⟨Zstd.lossless_store, hzstd.mpr (by decide), hpacked, hjson.mpr (by decide), hplain⟩

end LogShipping.Payload
