import Patricia.Path.Basic

/-!
# Trie nodes

A node is empty, a leaf, an extension, a branch of sixteen slots, or a reference to a node kept in
a store. Nodes never change; an update makes new nodes that share the untouched ones.

Every node but the empty one carries a `Stamp`, which says which instance it is and, for a node
read from a store, the bytes it was read from. `Node.same` compares instances and `Node.plain`
forgets them, so that equality of plain nodes is equality of content.
-/

namespace Patricia

/-- Where a node comes from. An instance is known by its owner, the number that the owner gave
out, and the place in the tree that was made under that number. The source is the encoding that
the node was read from, if it was. -/
structure Stamp where
  owner : Nat
  serial : Nat
  position : List Nat
  source : Option Bytes

namespace Stamp

/-- The stamp of a node that has not been given out. -/
def blank : Stamp := ⟨0, 0, [], none⟩

/-- Both stamps are of one instance. -/
def same (left right : Stamp) : Bool :=
  left.owner == right.owner && left.serial == right.serial && left.position == right.position

/-- A stamp is of the instance it is of. -/
@[simp] theorem same_self (stamp : Stamp) : stamp.same stamp = true := by
  simp [same]

end Stamp

/-- A node of a trie. The path of a leaf is the rest of a key up to its end. The path of an
extension has a first nibble, so it is never empty. A branch knows which slots are occupied and
holds the value of the key that ends at it. -/
inductive Node where
  | null
  | leaf (stamp : Stamp) (path : List Nibble) (value : Bytes)
  | extension (stamp : Stamp) (first : Nibble) (rest : List Nibble) (child : Node)
  | branch (stamp : Stamp) (occupied : BitVec 16) (slots : Nibble → Node) (value : Option Bytes)
  | stored (stamp : Stamp) (hash : Hash)

namespace Node

instance : Inhabited Node := ⟨.null⟩

/-- The node is empty. -/
def isNull : Node → Bool
  | .null => true
  | _ => false

/-- The node is a reference. -/
def isStored : Node → Bool
  | .stored .. => true
  | _ => false

/-- The stamp of a node. The empty node has one instance only. -/
def stamp : Node → Stamp
  | .null => .blank
  | .leaf stamp .. => stamp
  | .extension stamp .. => stamp
  | .branch stamp .. => stamp
  | .stored stamp _ => stamp

/-- Both nodes are one instance. -/
def same : Node → Node → Bool
  | .null, .null => true
  | .leaf left .., .leaf right .. => left.same right
  | .extension left .., .extension right .. => left.same right
  | .branch left .., .branch right .. => left.same right
  | .stored left _, .stored right _ => left.same right
  | _, _ => false

/-- A node is the instance it is. -/
@[simp] theorem same_self (node : Node) : node.same node = true := by
  cases node <;> simp [same]

/-- The tree with every stamp replaced, knowing the place of the node in the tree. The child of an
extension is at place 0 and a slot of a branch at its own number. -/
def restamp (change : List Nat → Stamp → Stamp) (position : List Nat) : Node → Node
  | .null => .null
  | .leaf stamp path value => .leaf (change position stamp) path value
  | .extension stamp first rest child =>
      .extension (change position stamp) first rest (restamp change (position ++ [0]) child)
  | .branch stamp occupied slots value =>
      -- A table, so that each slot is worked out once.
      let table := Vector.ofFn fun slot ↦ restamp change (position ++ [slot.val]) (slots slot)
      .branch (change position stamp) occupied (fun slot ↦ table[slot]) value
  | .stored stamp hash => .stored (change position stamp) hash

/-- The content of a tree: stamps are forgotten. -/
def plain (node : Node) : Node :=
  node.restamp (fun _ _ ↦ .blank) []

/-- The tree as instances of its own, given out under a number of an owner. -/
def issue (owner serial : Nat) (node : Node) : Node :=
  node.restamp (fun position stamp ↦ ⟨owner, serial, position, stamp.source⟩) []

/-- The node as read from an encoding. -/
def readFrom (source : Bytes) : Node → Node
  | .null => .null
  | .leaf stamp path value => .leaf { stamp with source := some source } path value
  | .extension stamp first rest child =>
      .extension { stamp with source := some source } first rest child
  | .branch stamp occupied slots value =>
      .branch { stamp with source := some source } occupied slots value
  | .stored stamp hash => .stored stamp hash

/-- Restamping keeps references references. -/
@[simp] theorem isStored_restamp (change : List Nat → Stamp → Stamp) (position : List Nat)
    (node : Node) : (node.restamp change position).isStored = node.isStored := by
  cases node <;> rfl

/-- An encoding does not make a node a reference. -/
@[simp] theorem isStored_readFrom (source : Bytes) (node : Node) :
    (node.readFrom source).isStored = node.isStored := by
  cases node <;> rfl

/-- The run of nibbles that the node itself covers. A reference covers none that is known. -/
def ownPath : Node → Path
  | .leaf _ path _ => ⟨path, true⟩
  | .extension _ first rest _ => ⟨first :: rest, false⟩
  | _ => .empty

/-- The value of the key that ends at the node. It makes no sense to ask an extension. -/
def ownValue : Node → Except TrieError (Option Bytes)
  | .leaf _ _ value => .ok (some value)
  | .branch _ _ _ value => .ok value
  | .extension .. => .error (.unsupported .valueOfExtension)
  | _ => .ok none

end Node

/-- A node that is there and not merely referred to. -/
abbrev Resolved := { node : Node // node.isStored = false }

/-- The resolved node as instances of its own. -/
def Resolved.issue (owner serial : Nat) (node : Resolved) : Resolved :=
  ⟨node.val.issue owner serial, by simp [Node.issue, node.property]⟩

/-- The resolved node as read from an encoding. -/
def Resolved.readFrom (source : Bytes) (node : Resolved) : Resolved :=
  ⟨node.val.readFrom source, by simp [node.property]⟩

end Patricia
