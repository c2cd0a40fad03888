import Patricia.Fault

/-!
# Values

A trie holds bytes. `TrieValue` says how values of a type are turned to bytes and read back; the
statement `decode_encode` is part of it. Byte strings, byte arrays and text are values. A value
whose encoding is empty stands for the absence of a value.
-/

namespace Patricia

/-- Types whose values a trie can hold. -/
class TrieValue (α : Type) where
  encode : α → Bytes
  decode : Bytes → Except TrieError α
  decode_encode (value : α) : decode (encode value) = .ok value

/-- A byte string is its own encoding. -/
instance : TrieValue Bytes where
  encode bytes := bytes
  decode bytes := .ok bytes
  decode_encode _ := rfl

/-- A byte array is encoded as its bytes. -/
instance : TrieValue ByteArray where
  encode bytes := bytes.data.toList
  decode bytes := .ok ⟨bytes.toArray⟩
  decode_encode _ := rfl

/-- Text is encoded in UTF-8, and bytes that are no UTF-8 are refused with their first fault. -/
instance : TrieValue String where
  encode text := text.toUTF8.data.toList
  decode bytes :=
    match String.fromUTF8? ⟨bytes.toArray⟩ with
    | some text => .ok text
    | none => .error (.invalidValue ((Utf8.fault? bytes).getD ⟨bytes.length, none⟩))
  decode_encode text := by
    have h : ByteArray.IsValidUTF8 ⟨text.toUTF8.data.toList.toArray⟩ := text.isValidUTF8
    simp only [String.fromUTF8?, dif_pos h]
    rfl

/-- The types of values above, for a choice among them that is made at run time. -/
inductive ValueKind where
  | bytes
  | array
  | text
deriving DecidableEq

namespace ValueKind

/-- The values of a kind. -/
abbrev Carrier : ValueKind → Type
  | .bytes => Bytes
  | .array => ByteArray
  | .text => String

instance (kind : ValueKind) : TrieValue kind.Carrier :=
  match kind with
  | .bytes => inferInstanceAs (TrieValue Bytes)
  | .array => inferInstanceAs (TrieValue ByteArray)
  | .text => inferInstanceAs (TrieValue String)

/-- Bytes read as a value of the kind. -/
def decode (kind : ValueKind) (bytes : Bytes) : Except TrieError kind.Carrier :=
  TrieValue.decode bytes

/-- The bytes of a value of the kind. -/
def encode (kind : ValueKind) (value : kind.Carrier) : Bytes :=
  TrieValue.encode value

end ValueKind

end Patricia
