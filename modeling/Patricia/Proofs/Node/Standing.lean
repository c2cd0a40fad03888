import Patricia.Proofs.Node.Instance
import Patricia.Proofs.Slots.Occupancy

/-!
# Trees in good standing

`Node.Proper` holds the rules that every node of a trie obeys as far as it can be seen from the
node and its children. A tree is `Standing` when all its nodes are proper, all have a further
property that new nodes have by themselves, and all were given out by the trie's owner. The
theorems put standing trees together and take them apart.
-/

namespace Patricia.Node

/-- A node obeys the rules for its kind. A leaf's value and a branch's own value are allowed ones,
an extension leads to a node, and a branch marks its slots rightly and has two entries. -/
def Proper (full : Bytes → Prop) : Node → Prop
  | .leaf _ _ value => full value
  | .extension _ _ _ child => child.isNull = false
  | .branch _ occupied slots value =>
      (Slots.mk occupied slots).Sound ∧ (Slots.mk occupied slots).Forked value ∧
        ∀ bytes, value = some bytes → full bytes
  | .null | .stored .. => True

/-- A property that all nodes have that were not read from bytes. -/
def Native (q : Node → Prop) : Prop :=
  ∀ node : Node, node.stamp.source = none → q node

/-- A property that all nodes have that were not read from bytes and are no references. -/
def Inherent (q : Node → Prop) : Prop :=
  ∀ node : Node, node.stamp.source = none → node.isStored = false → q node

/-- A property of all nodes that were not read from bytes is one of those that are no references. -/
theorem Native.inherent {q : Node → Prop} (h : Native q) : Inherent q :=
  fun node hsource _ ↦ h node hsource

/-- All nodes of a tree are proper, have a further property, and were given out by the owner before
some number. -/
structure Standing (full : Bytes → Prop) (q : Node → Prop) (owner bound : Nat) (node : Node) :
    Prop where
  proper : node.All (Proper full)
  kept : node.All q
  issued : node.Issued owner bound

namespace Standing

variable {full : Bytes → Prop} {q : Node → Prop} {owner bound later : Nat} {node below : Node}
  {stamp : Stamp} {first : Nibble} {rest : List Nibble} {occupied : BitVec 16}
  {slots : Nibble → Node} {value : Option Bytes}

/-- More stamps may have been given out. -/
theorem mono (h : node.Standing full q owner bound) (hle : bound ≤ later) :
    node.Standing full q owner later :=
  ⟨h.proper, h.kept, h.issued.mono hle⟩

/-- The empty node is in good standing. -/
theorem null (hq : Inherent q) : Node.null.Standing full q owner bound :=
  ⟨trivial, hq .null rfl rfl, issued_null⟩

/-- A new leaf with an allowed value is in good standing. -/
theorem newLeaf (hq : Inherent q) {path : List Nibble} {bytes : Bytes} (hfull : full bytes) :
    (leaf ⟨owner, bound, [], none⟩ path bytes).Standing full q owner (bound + 1) :=
  ⟨hfull, hq _ rfl rfl, fun _ ↦ ⟨rfl, Nat.lt_succ_self _⟩⟩

/-- A new extension to a node in good standing is so, too. -/
theorem newExtension (hq : Inherent q) (h : below.Standing full q owner bound)
    (hnull : below.isNull = false) :
    (extension ⟨owner, bound, [], none⟩ first rest below).Standing full q owner (bound + 1) :=
  ⟨⟨hnull, h.proper⟩, ⟨hq _ rfl rfl, h.kept⟩,
    ⟨fun _ ↦ ⟨rfl, Nat.lt_succ_self _⟩, h.issued.mono (Nat.le_succ _)⟩⟩

/-- A new branch over two or more entries in good standing is so, too. -/
theorem newBranch (hq : Inherent q) {slots : Slots} (hsound : slots.Sound)
    (hforked : slots.Forked value) (hfull : ∀ bytes, value = some bytes → full bytes)
    (h : ∀ slot, (slots.node slot).Standing full q owner bound) :
    (ofSlots ⟨owner, bound, [], none⟩ slots value).Standing full q owner (bound + 1) :=
  ⟨⟨⟨hsound, hforked, hfull⟩, fun slot ↦ (h slot).proper⟩, ⟨hq _ rfl rfl, fun slot ↦ (h slot).kept⟩,
    ⟨fun _ ↦ ⟨rfl, Nat.lt_succ_self _⟩, fun slot ↦ (h slot).issued.mono (Nat.le_succ _)⟩⟩

/-- The child of an extension in good standing is so, too. -/
theorem child (h : (extension stamp first rest below).Standing full q owner bound) :
    below.Standing full q owner bound :=
  ⟨h.proper.2, h.kept.2, h.issued.2⟩

/-- The slots of a branch in good standing are so, too. -/
theorem slot (h : (branch stamp occupied slots value).Standing full q owner bound)
    (slot : Nibble) : (slots slot).Standing full q owner bound :=
  ⟨h.proper.2 slot, h.kept.2 slot, h.issued.2 slot⟩

/-- Slots in good standing stay so when one of them is set to such a node. -/
theorem set {slots : Slots} (h : ∀ slot, (slots.node slot).Standing full q owner bound)
    (place : Nibble) (hnode : node.Standing full q owner bound) (slot : Nibble) :
    ((slots.set place node).node slot).Standing full q owner bound := by
  rw [Slots.node_set]
  split
  · exact hnode
  · exact h slot

/-- References in good standing belong to the owner. -/
theorem home_eq {hash : Hash} (h : (stored stamp hash).Standing full q owner bound) :
    stamp.owner = owner :=
  (h.issued rfl).1

end Standing

end Patricia.Node
