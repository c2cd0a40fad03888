import Patricia.Lookup
import Patricia.Update.Reroot

/-!
# Erasing a key

`Node.erase` goes down along the nibbles of a key. If the key has no value it gives back the very
node it was given. Otherwise new nodes are made on the way back, and a branch that lost an entry
is folded (`Node.collapse`): into nothing, into a leaf for its own value, or into the one node
left in its slots, which takes over the branch's nibble.
-/

namespace Patricia.Node

/-- The node for the entries of a branch that may no longer be two. -/
def collapse (slots : Slots) (value : Option Bytes) : Walk Node :=
  if slots.isEmpty then
    match value with
    | none => pure .null
    | some value => Walk.newLeaf [] value
  else
    match value, slots.only? with
    | none, some (nibble, child) => child.graft [nibble]
    | value, _ => Walk.newBranch slots value

/-- The node in which the key with these remaining nibbles has no value. -/
def erase (node : Node) (key : List Nibble) : Walk Node :=
  match node, key with
  | .null, _ => pure .null
  | .leaf stamp path value, key =>
      pure (if path = key then .null else .leaf stamp path value)
  | .extension stamp first lead child, key =>
      match h : stripLead? (first :: lead) key with
      | none => pure (.extension stamp first lead child)
      | some rest => do
          have := length_lt_of_stripLead? h
          let updated ← child.erase rest
          if updated.same child then pure (.extension stamp first lead child)
          else updated.graft (first :: lead)
  | .branch stamp occupied slots none, [] => pure (.branch stamp occupied slots none)
  | .branch _ occupied slots (some _), [] => collapse ⟨occupied, slots⟩ none
  | .branch stamp occupied slots own, nibble :: rest => do
      let updated ← (slots nibble).erase rest
      if updated.same (slots nibble) then pure (.branch stamp occupied slots own)
      else collapse ((Slots.mk occupied slots).set nibble updated) own
  | .stored stamp hash, key =>
      .load stamp.owner hash fun node ↦ do
        let updated ← node.val.erase key
        if updated.same node.val then pure (.stored stamp hash) else pure updated
termination_by node.distance key
decreasing_by
  · exact distance_lt_of_length_lt _ _ this
  · exact distance_lt_of_length_lt _ _ (Nat.lt_succ_self _)
  · exact distance_lt_of_stored _ _ _ _

end Patricia.Node
