import Patricia.Lookup
import Patricia.Update.Reroot

/-!
# Inserting a value

`Node.insert` goes down along the nibbles of a key and makes new nodes on the way back, sharing
every subtree beside the key. Where the key leaves the path of a leaf or an extension, a new branch
takes both sides (`Node.part`), below an extension for the nibbles that they share.
-/

namespace Patricia.Node

/-- One side of a parting: the value of a key that ends there, or a node further on. -/
inductive Side where
  | ending (value : Bytes)
  | onward (nibble : Nibble) (node : Node)

/-- A side with its node in its slot. -/
def Side.place (side : Side) (slots : Slots) : Slots :=
  match side with
  | .ending _ => slots
  | .onward nibble node => slots.set nibble node

/-- The value of a side, or another one if nothing ends there. -/
def Side.orValue (side : Side) (value : Option Bytes) : Option Bytes :=
  match side with
  | .ending value => some value
  | .onward .. => value

/-- What is left of a leaf after a parting. -/
def leafSide (rest : List Nibble) (value : Bytes) : Walk Side :=
  match rest with
  | [] => pure (.ending value)
  | nibble :: rest => do return .onward nibble (← Walk.newLeaf rest value)

/-- The branch over both sides of a parting, under an extension for what they share. -/
def part (shared : List Nibble) (old new : Side) : Walk Node := do
  let branch ← Walk.newBranch (new.place (old.place .empty)) (new.orValue (old.orValue none))
  match shared with
  | [] => pure branch
  | first :: rest => Walk.newExtension first rest branch

/-- A leaf and a key that leaves its path. -/
def partLeaf (path : List Nibble) (old : Bytes) (key : List Nibble) (new : Bytes) : Walk Node := do
  let ⟨shared, left, right⟩ := fork path key
  let old ← leafSide left old
  part shared old (← leafSide right new)

/-- What is left of an extension after a parting: its child, still under an extension if nibbles
are left between. -/
def extensionSide (nibble : Nibble) (rest : List Nibble) (child : Node) : Walk Side :=
  match rest with
  | [] => pure (.onward nibble child)
  | first :: rest => do return .onward nibble (← Walk.newExtension first rest child)

/-- A key that ends a fork with nothing left of the first run is shorter by that run. -/
theorem length_lt_of_fork {first : Nibble} {lead key shared rest : List Nibble}
    (h : fork (first :: lead) key = ⟨shared, [], rest⟩) : rest.length < key.length := by
  rw [eq_append_of_fork_nil h, List.length_append, List.length_cons]
  omega

/-- The node in which the key with these remaining nibbles has the value. -/
def insert (node : Node) (key : List Nibble) (value : Bytes) : Walk Node :=
  match node, key with
  | .null, key => Walk.newLeaf key value
  | .leaf _ path old, key =>
      if path = key then Walk.newLeaf key value else partLeaf path old key value
  | .extension stamp first lead child, key =>
      match h : fork (first :: lead) key with
      | ⟨_, [], rest⟩ => do
          have := length_lt_of_fork h
          let updated ← child.insert rest value
          if updated.same child then pure (.extension stamp first lead child)
          else updated.graft (first :: lead)
      | ⟨shared, nibble :: left, right⟩ => do
          let old ← extensionSide nibble left child
          part shared old (← leafSide right value)
  | .branch _ occupied slots _, [] => Walk.newBranch ⟨occupied, slots⟩ (some value)
  | .branch stamp occupied slots own, nibble :: rest => do
      let updated ← (slots nibble).insert rest value
      if updated.same (slots nibble) then pure (.branch stamp occupied slots own)
      else Walk.newBranch ((Slots.mk occupied slots).set nibble updated) own
  | .stored stamp hash, key =>
      .load stamp.owner hash fun node ↦ do
        let updated ← node.val.insert key value
        if updated.same node.val then pure (.stored stamp hash) else pure updated
termination_by node.distance key
decreasing_by
  · exact distance_lt_of_length_lt _ _ this
  · exact distance_lt_of_length_lt _ _ (Nat.lt_succ_self _)
  · exact distance_lt_of_stored _ _ _ _

end Patricia.Node
