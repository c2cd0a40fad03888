import Patricia.Bytes

/-!
# Hashes

A hash is a byte string of length 32. Nodes are addressed by hashes, so hashes are compared, kept
as keys and printed, but never computed with.
-/

namespace Patricia

/-- A string of 32 bytes, the address of a node. -/
structure Hash where
  bytes : Bytes
  length_eq : bytes.length = 32
deriving DecidableEq

namespace Hash

/-- The hash with these bytes, if there are 32 of them. -/
def ofBytes? (bytes : Bytes) : Option Hash :=
  if h : bytes.length = 32 then some ⟨bytes, h⟩ else none

/-- Reading back the bytes of a hash gives the hash. -/
@[simp] theorem ofBytes?_bytes (hash : Hash) : ofBytes? hash.bytes = some hash := by
  simp [ofBytes?, hash.length_eq]

/-- Hashes with the same bytes are equal. -/
@[ext] theorem ext {left right : Hash} (h : left.bytes = right.bytes) : left = right := by
  cases left
  cases right
  cases h
  rfl

/-- The hash of 32 equal bytes zero. -/
def zero : Hash :=
  ⟨List.replicate 32 0, List.length_replicate⟩

/-- The hexadecimal text of a hash, led by `0x`. -/
def text (hash : Hash) : String :=
  hash.bytes.text

end Hash

end Patricia
