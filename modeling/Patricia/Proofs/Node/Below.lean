import Mathlib.Data.Set.Lattice
import Patricia.Proofs.Guarded.Symbols
import Patricia.Proofs.Trie.Shape

/-!
# The entries below a node

A key is written as symbols with the terminator at its end. The entries below a node
(`Node.entries`) are the keys, as far as they are still to be covered, with their values. A
reference has the entries of what is behind it; what that is may be anything, given for each hash.
The node is in form (`Node.Formed`) if the rules for tries hold from it downwards, behind
references as well, as they do for a node that shows a tree in normal form (`Shows.formed`). Neither
depends on instances.
-/

namespace Patricia

/-- Keys as symbols, with their values. -/
abbrev Entries := Set (Symbols × Bytes)

namespace Entries

variable (lead more : Symbols) (entries : Entries)

/-- The entries with a lead in front of their keys. -/
def under : Entries :=
  Set.image (fun entry ↦ (lead ++ entry.1, entry.2)) entries

/-- The entries whose keys begin with a lead, without it. -/
def past : Entries :=
  {entry | (lead ++ entry.1, entry.2) ∈ entries}

/-- Nothing has no entry under a lead. -/
@[simp] theorem under_empty : under lead ∅ = ∅ :=
  Set.image_empty _

/-- A lead without symbols changes nothing. -/
@[simp] theorem under_nil : under [] entries = entries :=
  Set.image_id entries

/-- Leads are put in front one after the other. -/
theorem under_append : under (lead ++ more) entries = under lead (under more entries) := by
  rw [under, under, under, Set.image_image]
  simp only [List.append_assoc]

/-- One entry under a lead is one entry. -/
@[simp] theorem under_singleton (key : Symbols) (value : Bytes) :
    under lead {(key, value)} = {(lead ++ key, value)} :=
  Set.image_singleton

/-- A lead comes off again. -/
@[simp] theorem past_under : past lead (under lead entries) = entries := by
  ext ⟨key, value⟩
  simp [past, under]

end Entries

namespace Node

variable {behind : Hash → Node}

/-- The node, or what is behind it if it is a reference. -/
def through (behind : Hash → Node) : Node → Node
  | .stored _ hash => behind hash
  | node => node

/-- The node is a leaf. -/
def isLeaf : Node → Bool
  | .leaf .. => true
  | _ => false

/-- Below a node a key has a value, given what is behind references. -/
inductive Maps (behind : Hash → Node) : Node → Symbols → Bytes → Prop where
  | leaf {stamp : Stamp} {path : List Nibble} {value : Bytes} :
      Maps behind (.leaf stamp path value) (Path.mk path true).symbols value
  | extension {stamp : Stamp} {first : Nibble} {rest : List Nibble} {child : Node} {key : Symbols}
      {value : Bytes} (h : Maps behind child key value) :
      Maps behind (.extension stamp first rest child)
        ((Path.mk (first :: rest) false).symbols ++ key) value
  | own {stamp : Stamp} {occupied : BitVec 16} {slots : Nibble → Node} {value : Bytes} :
      Maps behind (.branch stamp occupied slots (some value)) [terminator] value
  | slot {stamp : Stamp} {occupied : BitVec 16} {slots : Nibble → Node} {own : Option Bytes}
      (slot : Nibble) {key : Symbols} {value : Bytes} (h : Maps behind (slots slot) key value) :
      Maps behind (.branch stamp occupied slots own) (nibbleSymbol slot :: key) value
  | stored {stamp : Stamp} {hash : Hash} {key : Symbols} {value : Bytes}
      (h : Maps behind (behind hash) key value) : Maps behind (.stored stamp hash) key value

/-- The entries below a node. -/
def entries (behind : Hash → Node) (node : Node) : Entries :=
  {entry | node.Maps behind entry.1 entry.2}

end Node

/-- The entries of a branch: those below its slots, each under the slot's nibble, and its own value
under the terminator. -/
def Slots.entries (behind : Hash → Node) (slots : Slots) (own : Option Bytes) : Entries :=
  {entry | entry.1 = [terminator] ∧ own = some entry.2} ∪
    ⋃ slot, ((slots.node slot).entries behind).under [nibbleSymbol slot]

namespace Node

variable {behind : Hash → Node} {node child whole : Node} {stamp : Stamp} {first : Nibble}
  {rest path : List Nibble} {occupied : BitVec 16} {slots : Nibble → Node} {own : Option Bytes}
  {value : Bytes} {hash : Hash}

@[simp] theorem entries_null : null.entries behind = ∅ :=
  Set.eq_empty_of_forall_notMem fun _ ↦ nofun

/-- A leaf has one entry, under its path. -/
@[simp] theorem entries_leaf :
    (leaf stamp path value).entries behind = {((Path.mk path true).symbols, value)} := by
  ext ⟨key, bytes⟩
  rw [Set.mem_singleton_iff, Prod.mk.injEq]
  constructor
  · rintro ⟨⟩
    exact ⟨rfl, rfl⟩
  · rintro ⟨rfl, rfl⟩
    exact .leaf

/-- An extension has the entries of its child under its path. -/
@[simp] theorem entries_extension :
    (extension stamp first rest child).entries behind =
      (child.entries behind).under (Path.mk (first :: rest) false).symbols := by
  ext ⟨key, bytes⟩
  constructor
  · rintro ⟨⟩
    rename_i key h
    exact ⟨(key, bytes), h, rfl⟩
  · rintro ⟨⟨rest, value⟩, h, heq⟩
    cases heq
    exact .extension h

/-- A branch has its own value and the entries of its slots. -/
@[simp] theorem entries_branch :
    (branch stamp occupied slots own).entries behind =
      (Slots.mk occupied slots).entries behind own := by
  ext ⟨key, bytes⟩
  constructor
  · rintro ⟨⟩
    · exact Or.inl ⟨rfl, rfl⟩
    · rename_i slot key h
      exact Or.inr (Set.mem_iUnion.mpr ⟨slot, (key, bytes), h, rfl⟩)
  · rintro (⟨hkey, hown⟩ | h)
    · cases hkey
      cases hown
      exact .own
    · obtain ⟨slot, ⟨rest, value⟩, hentry, heq⟩ := Set.mem_iUnion.mp h
      cases heq
      exact .slot slot hentry

/-- A reference has the entries of what is behind it. -/
@[simp] theorem entries_stored :
    (stored stamp hash).entries behind = (behind hash).entries behind := by
  ext ⟨key, bytes⟩
  constructor
  · rintro ⟨⟩
    assumption
  · exact .stored

/-- A node has the entries of what it refers to. -/
theorem entries_through (node : Node) :
    (node.through behind).entries behind = node.entries behind := by
  cases node with
  | null | leaf | extension | branch => rfl
  | stored stamp hash => exact entries_stored.symm

/-- The entries do not depend on instances. -/
@[simp] theorem entries_plain (node : Node) : node.plain.entries behind = node.entries behind := by
  induction node with
  | null => rfl
  | leaf stamp path value => rw [plain_leaf, entries_leaf, entries_leaf]
  | extension stamp first rest child ih =>
      rw [plain_extension, entries_extension, entries_extension, ih]
  | branch stamp occupied slots own ih =>
      simp only [plain_branch, entries_branch, Slots.entries, ih]
  | stored stamp hash => rw [plain_stored, entries_stored, entries_stored]

/-! ## Nodes in form -/

/-- A node and all below it obey the rules for tries, given what is behind references: no value is
empty, an extension leads to a branch, and a branch marks its slots rightly and has two entries.
Behind a reference there is a node, and not another reference. -/
inductive Formed (behind : Hash → Node) : Node → Prop where
  | null : Formed behind .null
  | leaf {stamp : Stamp} {path : List Nibble} {value : Bytes} (hvalue : value ≠ []) :
      Formed behind (.leaf stamp path value)
  | extension {stamp : Stamp} {first : Nibble} {rest : List Nibble} {child : Node}
      (hbranch : (child.through behind).isBranch = true) (hchild : Formed behind child) :
      Formed behind (.extension stamp first rest child)
  | branch {stamp : Stamp} {occupied : BitVec 16} {slots : Nibble → Node} {own : Option Bytes}
      (hsound : (Slots.mk occupied slots).Sound) (hforked : (Slots.mk occupied slots).Forked own)
      (hvalue : own ≠ some []) (hslots : ∀ slot, Formed behind (slots slot)) :
      Formed behind (.branch stamp occupied slots own)
  | stored {stamp : Stamp} {hash : Hash} (hstored : (behind hash).isStored = false)
      (hnull : (behind hash).isNull = false) (hbelow : Formed behind (behind hash)) :
      Formed behind (.stored stamp hash)

/-- A leaf is in form if its value is not empty. -/
@[simp] theorem formed_leaf_iff : (leaf stamp path value).Formed behind ↔ value ≠ [] := by
  refine ⟨fun h ↦ ?_, .leaf⟩
  cases h with
  | leaf hvalue => exact hvalue

/-- An extension is in form if its child is and a branch is behind it. -/
@[simp] theorem formed_extension_iff : (extension stamp first rest child).Formed behind ↔
    (child.through behind).isBranch = true ∧ child.Formed behind := by
  refine ⟨fun h ↦ ?_, fun h ↦ .extension h.1 h.2⟩
  cases h with
  | extension hbranch hchild => exact ⟨hbranch, hchild⟩

/-- A branch is in form if its entries are two, its slots are in form and no value is empty. -/
@[simp] theorem formed_branch_iff : (branch stamp occupied slots own).Formed behind ↔
    (Slots.mk occupied slots).Sound ∧ (Slots.mk occupied slots).Forked own ∧ own ≠ some [] ∧
      ∀ slot, (slots slot).Formed behind := by
  refine ⟨fun h ↦ ?_, fun h ↦ .branch h.1 h.2.1 h.2.2.1 h.2.2.2⟩
  cases h with
  | branch hsound hforked hvalue hslots => exact ⟨hsound, hforked, hvalue, hslots⟩

/-- A reference is in form if what is behind it is, and is there. -/
@[simp] theorem formed_stored_iff : (stored stamp hash).Formed behind ↔
    (behind hash).isStored = false ∧ (behind hash).isNull = false ∧
      (behind hash).Formed behind := by
  refine ⟨fun h ↦ ?_, fun h ↦ .stored h.1 h.2.1 h.2.2⟩
  cases h with
  | stored hstored hnull hbelow => exact ⟨hstored, hnull, hbelow⟩

/-- Whether a branch is behind a node does not depend on instances. -/
@[simp] theorem isBranch_through_plain (node : Node) :
    (node.plain.through behind).isBranch = (node.through behind).isBranch := by
  cases node <;> simp [Node.through, isBranch]

/-- Whether a node is in form does not depend on instances. -/
@[simp] theorem formed_plain_iff : node.plain.Formed behind ↔ node.Formed behind := by
  induction node with
  | null => rfl
  | leaf stamp path value => simp only [plain_leaf, formed_leaf_iff]
  | extension stamp first rest child ih =>
      simp only [plain_extension, formed_extension_iff, isBranch_through_plain, ih]
  | branch stamp occupied slots own ih =>
      simp only [plain_branch, formed_branch_iff, Slots.Sound, Slots.Forked, isNull_plain, ih]
  | stored stamp hash => simp only [plain_stored, formed_stored_iff]

/-- A node in form has an entry unless it is empty. -/
theorem Formed.exists_entry (h : node.Formed behind) (hnull : node.isNull = false) :
    ∃ key value, node.Maps behind key value := by
  induction h with
  | null => cases hnull
  | leaf hvalue => exact ⟨_, _, .leaf⟩
  | @extension stamp first rest child hbranch hchild ih =>
      have hpresent : child.isNull = false := by
        cases child with
        | null => cases hbranch
        | leaf | extension | branch | stored => rfl
      obtain ⟨key, value, hentry⟩ := ih hpresent
      exact ⟨_, _, .extension hentry⟩
  | branch hsound hforked hvalue hslots ih =>
      obtain ⟨slot, hslot, -⟩ := hforked
      obtain ⟨key, value, hentry⟩ := ih slot hslot
      exact ⟨_, _, .slot slot hentry⟩
  | stored hstored hbehind hbelow ih =>
      obtain ⟨key, value, hentry⟩ := ih hbehind
      exact ⟨_, _, .stored hentry⟩

/-- A node in form is empty exactly when nothing is below it. -/
theorem Formed.isNull_iff (h : node.Formed behind) :
    node.isNull = true ↔ node.entries behind = ∅ := by
  constructor
  · intro hnull
    cases node with
    | null => exact entries_null
    | leaf | extension | branch | stored => cases hnull
  · intro hempty
    by_contra hnull
    obtain ⟨key, value, hentry⟩ := h.exists_entry (Bool.not_eq_true _ ▸ hnull)
    exact Set.notMem_empty (key, value) (hempty ▸ hentry)

/-! ## Whole trees -/

/-- A tree in normal form is in form, whatever is behind references. -/
theorem Normal.formed (h : whole.Normal) : whole.Formed behind := by
  induction whole with
  | null => exact .null
  | leaf stamp path value => exact .leaf h
  | extension stamp first rest child ih =>
      have hthrough : child.through behind = child := by
        cases child with
        | null | leaf | extension | branch => rfl
        | stored => exact h.2.elim
      refine .extension ?_ (ih h.2)
      rw [hthrough]
      exact h.1
  | branch stamp occupied slots own ih =>
      exact .branch h.1 h.2.1 h.2.2.1 fun slot ↦ ih slot (h.2.2.2 slot)
  | stored stamp hash => exact h.elim

variable {held : Hash → Node → Prop}

/-- What is behind references is the tree that is held under their hash. -/
def Fetches (held : Hash → Node → Prop) (behind : Hash → Node) : Prop :=
  ∀ ⦃hash whole⦄, held hash whole → behind hash = whole

/-- A node that shows a tree in normal form is in form. -/
theorem Shows.formed (h : node.Shows held whole) (hnormal : whole.Normal)
    (hfetches : Fetches held behind) : node.Formed behind := by
  induction node generalizing whole with
  | null => exact .null
  | leaf stamp path value =>
      obtain ⟨rfl, -⟩ := h
      exact .leaf hnormal
  | extension stamp first rest child ih =>
      obtain ⟨-, below, rfl, hshows, -⟩ := h
      refine .extension ?_ (ih hshows hnormal.2)
      rw [← hnormal.1]
      cases child with
      | stored stamp hash => exact congrArg isBranch (hfetches hshows.1)
      | null | leaf | extension | branch => exact hshows.isBranch_eq rfl
  | branch stamp occupied slots own ih =>
      have hsound := h.sound hnormal
      obtain ⟨-, below, rfl, hslots⟩ := h
      refine .branch hsound ?_ hnormal.2.2.1 fun slot ↦ ih slot (hslots slot).1 (hnormal.2.2.2 slot)
      have hnull := fun slot ↦ (hslots slot).1.isNull_eq
      simpa only [Slots.Forked, hnull] using hnormal.2.1
  | stored stamp hash =>
      obtain rfl := hfetches h.1
      exact .stored hnormal.isStored_eq h.2.2 hnormal.formed

end Node

end Patricia
