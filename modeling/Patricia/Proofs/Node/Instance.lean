import Patricia.Node.Slots

/-!
# The nodes of a tree and their instances

`Node.All` says that every node of a tree has a property. Two such properties matter everywhere: a
tree is `Issued` when its owner gave out all its stamps before some number, and a node is `New`
when it is empty or was given out since. A new node is never one of the old instances
(`New.same_eq_false`), which is what comparing instances relies on.
-/

namespace Patricia.Node

/-- Every node of a tree has a property. References are nodes of the tree, and what is behind them
is not. -/
def All (p : Node → Prop) : Node → Prop
  | .null => p .null
  | .leaf stamp path value => p (.leaf stamp path value)
  | .extension stamp first rest child => p (.extension stamp first rest child) ∧ child.All p
  | .branch stamp occupied slots value =>
      p (.branch stamp occupied slots value) ∧ ∀ slot, (slots slot).All p
  | .stored stamp hash => p (.stored stamp hash)

variable {p q : Node → Prop} {node : Node}

/-- What holds of all nodes of a tree holds of its root. -/
theorem All.self (h : node.All p) : p node := by
  cases node with
  | null | leaf | stored => exact h
  | extension | branch => exact h.1

/-- A property of all nodes can be weakened. -/
theorem All.imp (himp : ∀ node, p node → q node) (h : node.All p) : node.All q := by
  induction node with
  | null | leaf | stored => exact himp _ h
  | extension stamp first rest child ih => exact ⟨himp _ h.1, ih h.2⟩
  | branch stamp occupied slots value ih => exact ⟨himp _ h.1, fun slot ↦ ih slot (h.2 slot)⟩

/-- A property that no node lacks holds of all nodes of a tree. -/
theorem all_of_forall (h : ∀ node, p node) (node : Node) : node.All p := by
  induction node with
  | null | leaf | stored => exact h _
  | extension stamp first rest child ih => exact ⟨h _, ih⟩
  | branch stamp occupied slots value ih => exact ⟨h _, ih⟩

/-- Two properties of all nodes hold together. -/
theorem All.and (hp : node.All p) (hq : node.All q) : node.All fun node ↦ p node ∧ q node := by
  induction node with
  | null | leaf | stored => exact ⟨hp, hq⟩
  | extension stamp first rest child ih => exact ⟨⟨hp.1, hq.1⟩, ih hp.2 hq.2⟩
  | branch stamp occupied slots value ih =>
      exact ⟨⟨hp.1, hq.1⟩, fun slot ↦ ih slot (hp.2 slot) (hq.2 slot)⟩

/-- What holds of all nodes of a tree holds of all nodes of each tree in it. -/
theorem All.deep (h : node.All p) : node.All fun part ↦ part.All p := by
  induction node with
  | null | leaf | stored => exact h
  | extension stamp first rest child ih => exact ⟨h, ih h.2⟩
  | branch stamp occupied slots value ih => exact ⟨h, fun slot ↦ ih slot (h.2 slot)⟩

/-- Whether all nodes of a tree have a property can be decided if it can for each node. -/
instance decidableAll (p : Node → Prop) [DecidablePred p] (node : Node) : Decidable (node.All p) :=
  match node with
  | .null => inferInstanceAs (Decidable (p .null))
  | .leaf stamp path value => inferInstanceAs (Decidable (p (.leaf stamp path value)))
  | .extension stamp first rest child =>
      have := child.decidableAll p
      inferInstanceAs (Decidable (p (.extension stamp first rest child) ∧ child.All p))
  | .branch stamp occupied slots value =>
      have := fun slot ↦ (slots slot).decidableAll p
      inferInstanceAs
        (Decidable (p (.branch stamp occupied slots value) ∧ ∀ slot, (slots slot).All p))
  | .stored stamp hash => inferInstanceAs (Decidable (p (.stored stamp hash)))

/-! ## Stamps replaced -/

variable (change : List Nat → Stamp → Stamp) (position : List Nat)

/-- Restamping a branch restamps each slot at its place. -/
@[simp] theorem restamp_branch (stamp : Stamp) (occupied : BitVec 16) (slots : Nibble → Node)
    (value : Option Bytes) :
    (branch stamp occupied slots value).restamp change position =
      .branch (change position stamp) occupied
        (fun slot ↦ (slots slot).restamp change (position ++ [slot.val])) value := by
  simp [restamp]

/-- Restamping leaves the empty node empty and makes no other node so. -/
@[simp] theorem isNull_restamp (node : Node) :
    (node.restamp change position).isNull = node.isNull := by
  cases node <;> rfl

/-- What restamping keeps for a node with restamped children it keeps for all nodes. -/
theorem All.restamp (hkeep : ∀ node position, p node → p (node.restamp change position))
    (h : node.All p) (position : List Nat) : (node.restamp change position).All p := by
  induction node generalizing position with
  | null | leaf | stored => exact hkeep _ position h
  | extension stamp first rest child ih => exact ⟨hkeep _ position h.1, ih h.2 _⟩
  | branch stamp occupied slots value ih =>
      rw [restamp_branch]
      refine ⟨?_, fun slot ↦ ih slot (h.2 slot) _⟩
      rw [← restamp_branch]
      exact hkeep _ position h.1

/-- Restamping twice keeps what the second change makes of the first. -/
theorem restamp_restamp (later : List Nat → Stamp → Stamp) (node : Node) (position : List Nat) :
    (node.restamp change position).restamp later position =
      node.restamp (fun position stamp ↦ later position (change position stamp)) position := by
  induction node generalizing position with
  | null | leaf | stored => rfl
  | extension stamp first rest child ih => simp only [Node.restamp, ih]
  | branch stamp occupied slots value ih => simp only [restamp_branch, ih]

/-! ## Content -/

/-- Forgetting stamps does not depend on places. -/
theorem restamp_blank (node : Node) (position : List Nat) :
    node.restamp (fun _ _ ↦ .blank) position = node.plain := by
  rw [plain]
  generalize ([] : List Nat) = start
  induction node generalizing position start with
  | null | leaf | stored => rfl
  | extension stamp first rest child ih =>
      simp only [restamp, extension.injEq, true_and]
      exact ih _ _
  | branch stamp occupied slots value ih =>
      simp only [restamp_branch, branch.injEq, true_and, and_true]
      exact funext fun slot ↦ ih slot _ _

@[simp] theorem plain_null : plain null = null := rfl

@[simp] theorem plain_leaf (stamp : Stamp) (path : List Nibble) (value : Bytes) :
    (leaf stamp path value).plain = leaf .blank path value := rfl

@[simp] theorem plain_stored (stamp : Stamp) (hash : Hash) :
    (stored stamp hash).plain = stored .blank hash := rfl

@[simp] theorem plain_extension (stamp : Stamp) (first : Nibble) (rest : List Nibble)
    (child : Node) :
    (extension stamp first rest child).plain = extension .blank first rest child.plain := by
  rw [plain, restamp, restamp_blank]

@[simp] theorem plain_branch (stamp : Stamp) (occupied : BitVec 16) (slots : Nibble → Node)
    (value : Option Bytes) :
    (branch stamp occupied slots value).plain =
      branch .blank occupied (fun slot ↦ (slots slot).plain) value := by
  rw [plain, restamp_branch]
  simp only [restamp_blank]

/-- The instances that a tree is given out as do not change its content. -/
@[simp] theorem plain_issue (owner serial : Nat) (node : Node) :
    (node.issue owner serial).plain = node.plain := by
  rw [plain, issue, restamp_restamp, restamp_blank]

/-- The bytes that a node was read from do not change its content. -/
@[simp] theorem plain_readFrom (source : Bytes) (node : Node) :
    (node.readFrom source).plain = node.plain := by
  cases node <;> simp [readFrom]

/-- Content tells the empty node. -/
@[simp] theorem isNull_plain (node : Node) : node.plain.isNull = node.isNull :=
  isNull_restamp _ _ node

/-- Content tells a reference. -/
@[simp] theorem isStored_plain (node : Node) : node.plain.isStored = node.isStored :=
  isStored_restamp _ _ node

/-- All stamps of a tree are blank. -/
def Blank (node : Node) : Prop :=
  node.All fun node ↦ node.stamp = .blank

/-- Blank stamps are not changed by forgetting them. -/
theorem Blank.plain_eq {node : Node} (h : node.Blank) : node.plain = node := by
  induction node with
  | null => rfl
  | leaf stamp path value =>
      obtain rfl : stamp = .blank := h
      rfl
  | extension stamp first rest child ih =>
      obtain rfl : stamp = .blank := h.1
      rw [plain_extension, ih h.2]
  | branch stamp occupied slots value ih =>
      obtain rfl : stamp = .blank := h.1
      rw [plain_branch, funext fun slot ↦ ih slot (h.2 slot)]
  | stored stamp hash =>
      obtain rfl : stamp = .blank := h
      rfl

/-! ## Old and new instances -/

/-- The owner gave out all stamps of a tree before some number. -/
def Issued (owner bound : Nat) (node : Node) : Prop :=
  node.All fun node ↦ node.isNull = false → node.stamp.owner = owner ∧ node.stamp.serial < bound

/-- A node is empty, or was given out with some number or later and is no reference. -/
def New (bound : Nat) (node : Node) : Prop :=
  node.isNull = true ∨ node.isStored = false ∧ bound ≤ node.stamp.serial

variable {owner bound later : Nat}

/-- What was given out before a number was so before a later one. -/
theorem Issued.mono (h : node.Issued owner bound) (hle : bound ≤ later) :
    node.Issued owner later :=
  h.imp fun _ hnode hnull ↦ ⟨(hnode hnull).1, Nat.lt_of_lt_of_le (hnode hnull).2 hle⟩

/-- The empty node needs no stamp. -/
theorem issued_null : null.Issued owner bound :=
  nofun

/-- A tree given out under a number is given out before the next one. -/
theorem issued_issue (owner serial : Nat) (node : Node) :
    (node.issue owner serial).Issued owner (serial + 1) := by
  rw [issue]
  generalize ([] : List Nat) = start
  induction node generalizing start with
  | null => exact nofun
  | leaf | stored => exact fun _ ↦ ⟨rfl, Nat.lt_succ_self _⟩
  | extension stamp first rest child ih =>
      exact ⟨fun _ ↦ ⟨rfl, Nat.lt_succ_self _⟩, ih _⟩
  | branch stamp occupied slots value ih =>
      rw [restamp_branch]
      exact ⟨fun _ ↦ ⟨rfl, Nat.lt_succ_self _⟩, fun slot ↦ ih slot _⟩

/-- What is new since a number is new since an earlier one. -/
theorem New.mono (h : node.New later) (hle : bound ≤ later) : node.New bound :=
  h.imp_right fun h ↦ ⟨h.1, Nat.le_trans hle h.2⟩

/-- A new node is no reference. -/
theorem New.isStored_eq (h : node.New bound) : node.isStored = false := by
  rcases h with hnull | h
  · cases node <;> simp_all [isNull, isStored]
  · exact h.1

/-- Nodes of one instance have stamps of one instance. -/
theorem stamp_of_same {left right : Node} (h : left.same right = true)
    (hnull : right.isNull = false) : left.stamp.serial = right.stamp.serial := by
  cases left <;> cases right <;> simp_all [same, Stamp.same, stamp, isNull]

/-- A new node is not the instance that an old one is. -/
theorem New.same_eq_false {old : Node} (h : node.New bound) (hold : old.Issued owner bound)
    (hnull : old.isNull = false) : node.same old = false := by
  rw [← Bool.not_eq_true]
  intro hsame
  rcases h with hempty | ⟨-, hle⟩
  · cases node <;> cases old <;> simp_all [same, isNull]
  · have hserial := stamp_of_same hsame hnull
    have hlt := (hold.self hnull).2
    omega

/-- A new node that is not empty is no old instance. -/
theorem New.same_eq_false_of_present {old : Node} (h : node.New bound)
    (hold : old.Issued owner bound) (hnull : node.isNull = false) : node.same old = false := by
  cases hempty : old.isNull with
  | false => exact h.same_eq_false hold hempty
  | true => cases node <;> cases old <;> simp_all [same, isNull]

end Patricia.Node
