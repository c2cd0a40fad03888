import Patricia.Path.Fork
import Patricia.Walk

/-!
# Looking up a key

`Node.find?` follows the nibbles of a key from a node down to the key's value. Only references on
the way are resolved. Each step down takes at least one nibble off the key and a reference never
leads to another reference, so every lookup ends, whatever a store answers.
-/

namespace Patricia.Node

/-- How far a walk under a node can still go: every nibble is a step, and so is a reference. -/
def distance (node : Node) (key : List Nibble) : Nat :=
  2 * key.length + if node.isStored then 1 else 0

/-- A resolved node is closer than the reference to it. -/
theorem distance_lt_of_stored (stamp : Stamp) (hash : Hash) (node : Resolved)
    (key : List Nibble) : node.val.distance key < (Node.stored stamp hash).distance key := by
  rw [distance, node.property, distance, isStored]
  simp

/-- Anything under a shorter key is closer. -/
theorem distance_lt_of_length_lt (child node : Node) {rest key : List Nibble}
    (h : rest.length < key.length) : child.distance rest < node.distance key := by
  unfold distance
  split <;> split <;> omega

/-- Taking a nonempty lead off a key shortens it. -/
theorem length_lt_of_stripLead? {first : Nibble} {lead key rest : List Nibble}
    (h : stripLead? (first :: lead) key = some rest) : rest.length < key.length := by
  simp only [stripLead?_eq_some_iff.mp h, List.length_append, List.length_cons]
  omega

/-- The value of the key whose remaining nibbles are given, if the trie under the node has one. -/
def find? (node : Node) (key : List Nibble) : Walk (Option Bytes) :=
  match node, key with
  | .null, _ => pure none
  | .leaf _ path value, key => pure (if path = key then some value else none)
  | .extension _ first lead child, key =>
      match h : stripLead? (first :: lead) key with
      | none => pure none
      | some rest =>
          have := length_lt_of_stripLead? h
          child.find? rest
  | .branch _ _ _ value, [] => pure value
  | .branch _ _ slots _, nibble :: rest => (slots nibble).find? rest
  | .stored stamp hash, key => .load stamp.owner hash fun node ↦ node.val.find? key
termination_by node.distance key
decreasing_by
  · exact distance_lt_of_length_lt _ _ this
  · exact distance_lt_of_length_lt _ _ (Nat.lt_succ_self _)
  · exact distance_lt_of_stored _ _ _ _

end Patricia.Node
