import Patricia.Keccak.Digest
import Patricia.Node.Slots
import Patricia.Path.HexPrefix
import Patricia.Rlp.Item

/-!
# The written form of nodes

A leaf is written as a list of its path and value, an extension as a list of its path and its
child, a branch as a list of its sixteen slots and its value. A child is written in place when its
own form is shorter than 32 bytes and as the hash of that form otherwise. The hash of a node is
the digest of its form, so the root's hash depends on everything below the root.

A node that was read from bytes keeps those bytes as its form.
-/

namespace Patricia

/-- The hash of the empty trie, the digest of the empty string's written form. -/
def emptyRoot : Hash :=
  keccak256 [0x80]

/-- The reference to a node by its hash: a string of 32 bytes. -/
def Hash.reference (hash : Hash) : Bytes :=
  0xa0 :: hash.bytes

/-- The form of a child inside its parent, given the child's own form. -/
def embed (encoding : Bytes) : Bytes :=
  if encoding.length < 32 then encoding else (keccak256 encoding).reference

namespace Node

/-- What a parent writes for this node, given the node's own form. -/
def referenceBy (node : Node) (encoding : Bytes) : Bytes :=
  match node with
  | .stored _ hash => hash.reference
  | _ => embed encoding

/-- The written form of a leaf. -/
def leafForm (path : List Nibble) (value : Bytes) : Bytes :=
  Rlp.list (Rlp.string (Path.mk path true).hexPrefix ++ Rlp.string value)

/-- The written form of an extension, given what is written for its child. -/
def extensionForm (path : List Nibble) (child : Bytes) : Bytes :=
  Rlp.list (Rlp.string (Path.mk path false).hexPrefix ++ child)

/-- The written form of a branch, given what is written for its slots. A missing value is written
like an empty one. -/
def branchForm (slots : Nibble → Bytes) (value : Option Bytes) : Bytes :=
  Rlp.list ((List.finRange 16).flatMap slots ++ Rlp.string (value.getD []))

/-- The written form of a node. A reference is written as what its parent would write. -/
def encoding : Node → Bytes
  | .null => [0x80]
  | .leaf stamp path value =>
      match stamp.source with
      | some source => source
      | none => leafForm path value
  | .extension stamp first rest child =>
      match stamp.source with
      | some source => source
      | none => extensionForm (first :: rest) (child.referenceBy child.encoding)
  | .branch stamp _ slots value =>
      match stamp.source with
      | some source => source
      | none => branchForm (fun slot ↦ (slots slot).referenceBy (slots slot).encoding) value
  | .stored _ hash => hash.reference

/-- What a parent writes for the node. -/
def reference (node : Node) : Bytes :=
  node.referenceBy node.encoding

/-- The hash by which the node is addressed. -/
def hash : Node → Hash
  | .null => emptyRoot
  | .stored _ hash => hash
  | node => keccak256 node.encoding

/-- The written form, which a reference does not know. -/
def rlp : Node → Except TrieError Bytes
  | .stored .. => .error (.unsupported .encodingOfStored)
  | node => .ok node.encoding

end Node

end Patricia
