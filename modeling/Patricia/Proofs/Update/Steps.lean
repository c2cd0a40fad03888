import Patricia.Update.Erase
import Patricia.Update.Insert

/-!
# Lookups and updates one step at a time

What `Node.find?`, `Node.insert` and `Node.erase` do at a node, kind by kind, in terms of what they
do at its children, and what `Node.graft` makes of each kind of node. Proofs about them go by these
equations.
-/

namespace Patricia.Node

variable (stamp : Stamp) (first nibble : Nibble) (lead path key rest : List Nibble) (child : Node)
  (occupied : BitVec 16) (slots : Nibble → Node) (value : Bytes) (own : Option Bytes) (hash : Hash)

/-! ## Moving a node -/

/-- A reference is moved by moving the node behind it. -/
theorem reroot_stored (path : Path) :
    (stored stamp hash).reroot path = .load stamp.owner hash fun node ↦ node.val.reroot path := by
  refine congrArg (Walk.load stamp.owner hash) (funext fun node ↦ ?_)
  obtain ⟨node, hnode⟩ := node
  cases node <;> first | rfl | cases hnode

@[simp] theorem graft_null : graft lead null = pure null := rfl

/-- A lead goes in front of a leaf's path. -/
@[simp] theorem graft_leaf :
    (leaf stamp path value).graft lead = Walk.newLeaf (lead ++ path) value := rfl

/-- A lead and an extension's path make one path. -/
@[simp] theorem graft_extension :
    (extension stamp nibble rest child).graft (first :: lead) =
      Walk.newExtension first (lead ++ nibble :: rest) child := rfl

/-- A branch comes below a new extension. -/
@[simp] theorem graft_branch :
    (branch stamp occupied slots own).graft (first :: lead) =
      Walk.newExtension first lead (.branch stamp occupied slots own) := by
  show underPath _ ⟨first :: lead ++ [], false⟩ = _
  rw [List.append_nil]
  rfl

/-- A reference is resolved for its path and once more for the node that is moved. -/
theorem graft_stored :
    (stored stamp hash).graft lead =
      .load stamp.owner hash fun known ↦ .load stamp.owner hash fun node ↦
        node.val.reroot (known.val.ownPath.after lead) := by
  refine congrArg (Walk.load stamp.owner hash) (funext fun known ↦ ?_)
  exact reroot_stored stamp hash _

/-- Moving a resolved node to its own path behind a lead is grafting it. -/
theorem reroot_after (node : Resolved) :
    node.val.reroot (node.val.ownPath.after lead) = node.val.graft lead := by
  obtain ⟨node, hnode⟩ := node
  cases node <;> first | rfl | cases hnode

/-! ## Lookups -/

@[simp] theorem find?_null : null.find? key = pure none := by
  rw [find?]

@[simp] theorem find?_leaf :
    (leaf stamp path value).find? key = pure (if path = key then some value else none) := by
  rw [find?]

/-- A lookup goes on below an extension whose path the key begins with. -/
theorem find?_extension :
    (extension stamp first lead child).find? key =
      match stripLead? (first :: lead) key with
      | none => pure none
      | some rest => child.find? rest := by
  rw [find?]
  split <;> simp [*]

@[simp] theorem find?_branch_nil : (branch stamp occupied slots own).find? [] = pure own := by
  rw [find?]

@[simp] theorem find?_branch_cons :
    (branch stamp occupied slots own).find? (nibble :: rest) = (slots nibble).find? rest := by
  rw [find?]

/-- A lookup resolves a reference it meets. -/
theorem find?_stored :
    (stored stamp hash).find? key = .load stamp.owner hash fun node ↦ node.val.find? key := by
  rw [find?]

/-! ## Insertions -/

@[simp] theorem insert_null : null.insert key value = Walk.newLeaf key value := by
  rw [insert]

/-- The leaf of a key gives way to a new one, and another leaf is parted from the key. -/
theorem insert_leaf (old : Bytes) :
    (leaf stamp path old).insert key value =
      if path = key then Walk.newLeaf key value else partLeaf path old key value := by
  rw [insert]

variable {first lead child key rest} in
/-- An insertion goes on below an extension whose path the key begins with. -/
theorem insert_within {shared : List Nibble} (h : fork (first :: lead) key = ⟨shared, [], rest⟩) :
    (extension stamp first lead child).insert key value = (do
      let updated ← child.insert rest value
      if updated.same child then pure (.extension stamp first lead child)
      else updated.graft (first :: lead)) := by
  rw [insert]
  split
  · rename_i heq
    cases h.symm.trans heq
    rfl
  · rename_i heq
    cases h.symm.trans heq

variable {first lead child key} in
/-- An insertion parts an extension from a key that leaves its path. -/
theorem insert_outside {shared left right : List Nibble}
    (h : fork (first :: lead) key = ⟨shared, nibble :: left, right⟩) :
    (extension stamp first lead child).insert key value = (do
      let old ← extensionSide nibble left child
      part shared old (← leafSide right value)) := by
  rw [insert]
  split
  · rename_i heq
    cases h.symm.trans heq
  · rename_i heq
    cases h.symm.trans heq
    rfl

@[simp] theorem insert_branch_nil :
    (branch stamp occupied slots own).insert [] value =
      Walk.newBranch ⟨occupied, slots⟩ (some value) := by
  rw [insert]

/-- An insertion goes on in the slot of a branch for the key's next nibble. -/
theorem insert_branch_cons :
    (branch stamp occupied slots own).insert (nibble :: rest) value = (do
      let updated ← (slots nibble).insert rest value
      if updated.same (slots nibble) then pure (.branch stamp occupied slots own)
      else Walk.newBranch ((Slots.mk occupied slots).set nibble updated) own) := by
  rw [insert]

/-- An insertion resolves a reference it meets, and keeps it if nothing changes behind it. -/
theorem insert_stored :
    (stored stamp hash).insert key value =
      .load stamp.owner hash fun node ↦ (do
        let updated ← node.val.insert key value
        if updated.same node.val then pure (.stored stamp hash) else pure updated) := by
  rw [insert]

/-! ## Folding a branch -/

section Collapse

variable {own} {table : Slots}

/-- Nothing is left of a branch without nodes and a value. -/
theorem collapse_empty_none (h : table.isEmpty = true) : collapse table none = pure null := by
  rw [collapse.eq_def, if_pos h]

/-- A value alone goes into a leaf. -/
theorem collapse_empty_some (h : table.isEmpty = true) :
    collapse table (some value) = Walk.newLeaf [] value := by
  rw [collapse.eq_def, if_pos h]

/-- A node alone takes over the nibble of its slot. -/
theorem collapse_only {place : Nibble} {node : Node} (h : table.isEmpty = false)
    (honly : table.only? = some (place, node)) : collapse table none = node.graft [place] := by
  rw [collapse.eq_def, if_neg (Bool.eq_false_iff.mp h), honly]

/-- A branch with two entries stays one. -/
theorem collapse_forked (h : table.isEmpty = false) (hforked : own ≠ none ∨ table.only? = none) :
    collapse table own = Walk.newBranch table own := by
  rw [collapse.eq_def, if_neg (Bool.eq_false_iff.mp h)]
  split
  · rename_i honly
    simp [honly] at hforked
  · rfl

end Collapse

/-! ## Erasures -/

@[simp] theorem erase_null : null.erase key = pure null := by
  rw [erase]

/-- Only the leaf of the key goes. -/
theorem erase_leaf :
    (leaf stamp path value).erase key =
      pure (if path = key then .null else .leaf stamp path value) := by
  rw [erase]

/-- An erasure goes on below an extension whose path the key begins with. -/
theorem erase_extension :
    (extension stamp first lead child).erase key =
      match stripLead? (first :: lead) key with
      | none => pure (.extension stamp first lead child)
      | some rest => (do
          let updated ← child.erase rest
          if updated.same child then pure (.extension stamp first lead child)
          else updated.graft (first :: lead)) := by
  rw [erase]
  split <;> simp [*]

@[simp] theorem erase_branch_none :
    (branch stamp occupied slots none).erase [] = pure (.branch stamp occupied slots none) := by
  rw [erase]

@[simp] theorem erase_branch_some :
    (branch stamp occupied slots (some value)).erase [] = collapse ⟨occupied, slots⟩ none := by
  rw [erase]

/-- An erasure goes on in the slot of a branch for the key's next nibble. -/
theorem erase_branch_cons :
    (branch stamp occupied slots own).erase (nibble :: rest) = (do
      let updated ← (slots nibble).erase rest
      if updated.same (slots nibble) then pure (.branch stamp occupied slots own)
      else collapse ((Slots.mk occupied slots).set nibble updated) own) := by
  rw [erase]

/-- An erasure resolves a reference it meets, and keeps it if nothing changes behind it. -/
theorem erase_stored :
    (stored stamp hash).erase key =
      .load stamp.owner hash fun node ↦ (do
        let updated ← node.val.erase key
        if updated.same node.val then pure (.stored stamp hash) else pure updated) := by
  rw [erase]

end Patricia.Node
