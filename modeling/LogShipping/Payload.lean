import LogShipping.Digest.Sha256
import LogShipping.Error
import LogShipping.Json.Reader
import LogShipping.Json.Writer
import LogShipping.Log.Entry
import LogShipping.Zstd.Frame

/-!
# Payloads

The entries of a batch travel as one JSON array, compressed from a certain size on, together with the
hash of the array. The receiver tells compressed payloads by their first octets and refuses one whose
content does not have the hash it came with.
-/

namespace LogShipping

structure Payload where
  compressed : Bool
  /-- The hash of the JSON text. -/
  hash : String
  bytes : Bytes
  deriving Repr, DecidableEq

namespace Payload

/-- The JSON text of entries. -/
def text (entries : List Entry) : Bytes := Json.write (.list Entry.toJson entries)

/-- The hash that stands for some content. -/
def contentHash (content : Bytes) : String := Digest.Sha256.hexDigest content

/-- The word for the form the octets have. -/
def encoding (payload : Payload) : String := if payload.compressed then "zstd" else "json"

/-- Entries as a payload, compressed if the text is at least as long as the threshold. -/
def encodeWith (compress : Bytes → Bytes) (entries : List Entry) (threshold : Nat) : Payload :=
  let content := text entries
  let compressed : Bool := threshold ≤ content.length
  ⟨compressed, contentHash content, if compressed then compress content else content⟩

/-- Entries as a payload. Here what is compressed is stored as it is. -/
def encode : List Entry → Nat → Payload := encodeWith Zstd.store

/-- The content of octets that may be compressed. -/
def unpack (bytes : Bytes) : Outcome Bytes :=
  if bytes.take 4 = Zstd.magic then
    match Zstd.decompress? bytes with
    | some content => .ok content
    | none => .error (.log "zstd decode: the frames are not whole")
  else .ok bytes

/-- The entries of a payload that came with a hash. -/
def decode (bytes : Bytes) (hash : String) : Outcome (List Entry) := do
  let content ← unpack bytes
  let computed := contentHash content
  if computed ≠ hash then
    throw (.log ("payload hash mismatch: expected " ++ hash ++ ", computed " ++ computed))
  match (Json.read? content).bind (Json.listOf? Entry.ofJson?) with
  | some entries => return entries
  | none => throw (.log "decode batch: the payload is no list of entries")

end Payload

end LogShipping
