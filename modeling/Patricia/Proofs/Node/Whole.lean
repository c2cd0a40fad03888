import Patricia.Format.Encoding
import Patricia.Proofs.Content
import Patricia.Proofs.Node.Instance
import Patricia.Proofs.Slots.Occupancy

/-!
# The whole tree that a node stands for

A node in use may have references below it, or be one. What it stands for is a whole tree without
references: `Node.Shows` relates the two. Whole trees in normal form (`Node.Normal`) have a content
that can be read off (`Node.content`), so a node `Holds` a content when it shows a normal tree with
that content. The last part says how contents are held by nodes of each kind.
-/

namespace Patricia

/-- If a node was read from bytes, they are the written form of the tree it stands for. -/
def Stamp.Reads (stamp : Stamp) (whole : Node) : Prop :=
  ∀ source, stamp.source = some source → source = whole.encoding

namespace Node

/-! ## Whole trees -/

/-- The node is a branch. -/
def isBranch : Node → Bool
  | .branch .. => true
  | _ => false

/-- What the keys below a node are mapped to, as far as the tree is in memory. -/
def content : Node → Content
  | .null => .nothing
  | .leaf _ path value => .single path value
  | .extension _ first rest child => .under (first :: rest) child.content
  | .branch _ _ slots value => .spread value fun slot ↦ (slots slot).content
  | .stored .. => .nothing

/-- A tree in normal form: without references and empty values, with extensions only above
branches, and with two entries or more in each branch. -/
def Normal : Node → Prop
  | .null => True
  | .leaf _ _ value => value ≠ []
  | .extension _ _ _ child => child.isBranch = true ∧ child.Normal
  | .branch _ occupied slots value =>
      (Slots.mk occupied slots).Sound ∧ (Slots.mk occupied slots).Forked value ∧
        value ≠ some [] ∧ ∀ slot, (slots slot).Normal
  | .stored .. => False

/-- A normal tree that is not empty has an entry. -/
theorem Normal.exists_entry {whole : Node} (h : whole.Normal) (hnull : whole.isNull = false) :
    ∃ key, whole.content key ≠ none := by
  induction whole with
  | null => cases hnull
  | leaf stamp path value => exact ⟨path, by simp [Node.content, Content.single]⟩
  | extension stamp first rest child ih =>
      have hchild : child.isNull = false := by
        cases child with
        | branch => rfl
        | null | leaf | extension | stored => cases h.1
      obtain ⟨key, hkey⟩ := ih h.2 hchild
      refine ⟨(first :: rest) ++ key, ?_⟩
      rwa [Node.content, Content.under_apply_append]
  | branch stamp occupied slots value ih =>
      obtain ⟨-, ⟨slot, hslot, -⟩, -, hslots⟩ := h
      obtain ⟨key, hkey⟩ := ih slot (hslots slot) hslot
      exact ⟨slot :: key, hkey⟩
  | stored stamp hash => exact h.elim

/-! ## What a node shows -/

/-- The node stands for a whole tree, given which trees are held under hashes. Only trees of some
length are referred to from inside a tree. -/
def Shows (held : Hash → Node → Prop) : Node → Node → Prop
  | .null, whole => whole = .null
  | .leaf stamp path value, whole => whole = .leaf .blank path value ∧ stamp.Reads whole
  | .extension stamp first rest child, whole =>
      stamp.Reads whole ∧ ∃ below, whole = .extension .blank first rest below ∧
        child.Shows held below ∧ (child.isStored = true → 32 ≤ below.encoding.length)
  | .branch stamp occupied slots value, whole =>
      stamp.Reads whole ∧ ∃ below : Nibble → Node,
        whole = .branch .blank occupied below value ∧
        ∀ slot, (slots slot).Shows held (below slot) ∧
          ((slots slot).isStored = true → 32 ≤ (below slot).encoding.length)
  | .stored _ hash, whole => held hash whole ∧ whole.hash = hash ∧ whole.isNull = false

variable {held : Hash → Node → Prop} {node whole below child : Node} {stamp : Stamp}
  {first : Nibble} {rest path : List Nibble} {occupied : BitVec 16} {slots : Nibble → Node}
  {value : Option Bytes} {content : Content}

/-- What is empty stands for nothing else. -/
theorem Shows.isNull_eq (h : node.Shows held whole) : node.isNull = whole.isNull := by
  cases node with
  | null =>
      cases h
      rfl
  | leaf stamp path value =>
      rw [h.1]
      rfl
  | extension stamp first rest child =>
      obtain ⟨-, below, rfl, -⟩ := h
      rfl
  | branch stamp occupied slots value =>
      obtain ⟨-, below, rfl, -⟩ := h
      rfl
  | stored stamp hash => exact h.2.2.symm

/-- A branch stands for a branch over slots that are occupied alike. -/
theorem Shows.sound (h : (branch stamp occupied slots value).Shows held whole)
    (hnormal : whole.Normal) : (Slots.mk occupied slots).Sound := by
  obtain ⟨-, below, rfl, hslots⟩ := h
  intro slot
  rw [hnormal.1 slot, (hslots slot).1.isNull_eq]

/-- A node shows the same where more trees are held. -/
theorem Shows.mono {more : Hash → Node → Prop} (hmore : ∀ hash whole, held hash whole →
    more hash whole) (h : node.Shows held whole) : node.Shows more whole := by
  induction node generalizing whole with
  | null | leaf => exact h
  | extension stamp first rest child ih =>
      obtain ⟨hstamp, below, rfl, hshows, hlong⟩ := h
      exact ⟨hstamp, below, rfl, ih hshows, hlong⟩
  | branch stamp occupied slots value ih =>
      obtain ⟨hstamp, below, rfl, hslots⟩ := h
      exact ⟨hstamp, below, rfl, fun slot ↦ ⟨ih slot (hslots slot).1, (hslots slot).2⟩⟩
  | stored stamp hash => exact ⟨hmore _ _ h.1, h.2⟩

/-- What a node shows has blank stamps if all held trees have. -/
theorem Shows.blank (hheld : ∀ hash whole, held hash whole → whole.Blank)
    (h : node.Shows held whole) : whole.Blank := by
  induction node generalizing whole with
  | null =>
      cases h
      exact rfl
  | leaf stamp path value =>
      obtain ⟨rfl, -⟩ := h
      exact rfl
  | extension stamp first rest child ih =>
      obtain ⟨-, below, rfl, hshows, -⟩ := h
      exact ⟨rfl, ih hshows⟩
  | branch stamp occupied slots value ih =>
      obtain ⟨-, below, rfl, hslots⟩ := h
      exact ⟨rfl, fun slot ↦ ih slot (hslots slot).1⟩
  | stored stamp hash => exact hheld hash whole h.1

/-! ## What a node holds -/

/-- The node shows a normal tree with a content. -/
def Holds (held : Hash → Node → Prop) (node : Node) (content : Content) : Prop :=
  ∃ whole, node.Shows held whole ∧ whole.Normal ∧ whole.content = content

/-- The node shows a normal tree with a content and may be referred to inside a tree. -/
def Tucked (held : Hash → Node → Prop) (node : Node) (content : Content) : Prop :=
  ∃ whole, node.Shows held whole ∧ whole.Normal ∧ whole.content = content ∧
    (node.isStored = true → 32 ≤ whole.encoding.length)

/-- The node shows a normal branch with a content and may be referred to inside a tree. -/
def Footed (held : Hash → Node → Prop) (node : Node) (content : Content) : Prop :=
  ∃ whole, node.Shows held whole ∧ whole.Normal ∧ whole.content = content ∧
    (node.isStored = true → 32 ≤ whole.encoding.length) ∧ whole.isBranch = true

/-- What is held inside a tree is held. -/
theorem Tucked.holds (h : node.Tucked held content) : node.Holds held content := by
  obtain ⟨whole, hshows, hnormal, hcontent, -⟩ := h
  exact ⟨whole, hshows, hnormal, hcontent⟩

/-- What is held by a branch is held inside a tree. -/
theorem Footed.tucked (h : node.Footed held content) : node.Tucked held content := by
  obtain ⟨whole, hshows, hnormal, hcontent, hlong, -⟩ := h
  exact ⟨whole, hshows, hnormal, hcontent, hlong⟩

/-- What a node holds that is there can be held inside a tree. -/
theorem Holds.tucked (h : node.Holds held content) (hstored : node.isStored = false) :
    node.Tucked held content := by
  obtain ⟨whole, hshows, hnormal, hcontent⟩ := h
  exact ⟨whole, hshows, hnormal, hcontent, by simp [hstored]⟩

/-- What a branch holds is held by a branch. -/
theorem Holds.footed (h : (branch stamp occupied slots value).Holds held content) :
    (branch stamp occupied slots value).Footed held content := by
  obtain ⟨whole, hshows, hnormal, hcontent⟩ := h
  refine ⟨whole, hshows, hnormal, hcontent, nofun, ?_⟩
  obtain ⟨-, below, rfl, -⟩ := hshows
  rfl

/-! ### Taking apart -/

/-- The empty node holds nothing. -/
theorem Holds.eq_nothing (h : null.Holds held content) : content = .nothing := by
  obtain ⟨whole, rfl, -, rfl⟩ := h
  rfl

/-- What is empty holds nothing. -/
theorem Holds.eq_nothing_of_isNull (h : node.Holds held content) (hnull : node.isNull = true) :
    content = .nothing := by
  cases node with
  | null => exact h.eq_nothing
  | leaf | extension | branch | stored => cases hnull

/-- A node is empty exactly when it holds nothing. -/
theorem Holds.isNull_iff (h : node.Holds held content) :
    node.isNull = true ↔ content = .nothing := by
  refine ⟨h.eq_nothing_of_isNull, ?_⟩
  rintro rfl
  obtain ⟨whole, hshows, hnormal, hcontent⟩ := h
  rw [hshows.isNull_eq]
  by_contra hnull
  obtain ⟨key, hkey⟩ := hnormal.exists_entry (Bool.not_eq_true _ ▸ hnull)
  rw [hcontent] at hkey
  exact hkey rfl

/-- A leaf holds its own entry, which is not empty. -/
theorem Holds.eq_single {bytes : Bytes} (h : (leaf stamp path bytes).Holds held content) :
    bytes ≠ [] ∧ content = .single path bytes := by
  obtain ⟨whole, ⟨rfl, -⟩, hnormal, rfl⟩ := h
  exact ⟨hnormal, rfl⟩

/-- Below an extension is a branch with the content after the extension's path. -/
theorem Holds.footed_child (h : (extension stamp first rest child).Holds held content) :
    ∃ below, content = .under (first :: rest) below ∧ child.Footed held below := by
  obtain ⟨whole, ⟨-, below, rfl, hshows, hlong⟩, ⟨hbranch, hnormal⟩, rfl⟩ := h
  exact ⟨below.content, rfl, below, hshows, hnormal, rfl, hlong, hbranch⟩

/-- A branch marks its slots rightly, has two entries, and holds what its slots and its own value
do. -/
theorem Holds.tucked_slots (h : (branch stamp occupied slots value).Holds held content) :
    (Slots.mk occupied slots).Sound ∧ (Slots.mk occupied slots).Forked value ∧
      value ≠ some [] ∧ ∃ contents : Nibble → Content,
        content = .spread value contents ∧ ∀ slot, (slots slot).Tucked held (contents slot) := by
  obtain ⟨whole, hshows, hnormal, rfl⟩ := h
  have hsound := hshows.sound hnormal
  obtain ⟨-, below, rfl, hslots⟩ := hshows
  obtain ⟨-, hforked, hvalue, hbelow⟩ := hnormal
  have hnull := fun slot ↦ (hslots slot).1.isNull_eq
  refine ⟨hsound, ?_, hvalue, fun slot ↦ (below slot).content, rfl, fun slot ↦ ?_⟩
  · simpa only [Slots.Forked, hnull] using hforked
  · exact ⟨below slot, (hslots slot).1, hbelow slot, rfl, (hslots slot).2⟩

/-! ### Putting together -/

/-- The empty node holds nothing. -/
theorem holds_null : null.Holds held .nothing :=
  ⟨.null, rfl, trivial, rfl⟩

/-- A node that was not read from bytes agrees with any written form. -/
theorem reads_of_source (h : stamp.source = none) : stamp.Reads whole := by
  intro source hsource
  rw [h] at hsource
  cases hsource

/-- A new leaf holds its own entry. -/
theorem holds_leaf {bytes : Bytes} (hsource : stamp.source = none) (hbytes : bytes ≠ []) :
    (leaf stamp path bytes).Holds held (.single path bytes) :=
  ⟨.leaf .blank path bytes, ⟨rfl, reads_of_source hsource⟩, hbytes, rfl⟩

/-- A new extension to a branch holds the branch's content under its path. -/
theorem Footed.holds_extension (h : child.Footed held content) (hsource : stamp.source = none) :
    (extension stamp first rest child).Holds held (.under (first :: rest) content) := by
  obtain ⟨below, hshows, hnormal, rfl, hlong, hbranch⟩ := h
  exact ⟨.extension .blank first rest below,
    ⟨reads_of_source hsource, below, rfl, hshows, hlong⟩, ⟨hbranch, hnormal⟩, rfl⟩

/-- A new branch with two entries holds what its slots and its own value do. -/
theorem holds_branch {slots : Slots} {contents : Nibble → Content}
    (hsource : stamp.source = none) (hsound : slots.Sound) (hforked : slots.Forked value)
    (hvalue : value ≠ some []) (h : ∀ slot, (slots.node slot).Tucked held (contents slot)) :
    (ofSlots stamp slots value).Holds held (.spread value contents) := by
  choose below hshows hnormal hcontent hlong using h
  have hnull := fun slot ↦ (hshows slot).isNull_eq
  refine ⟨.branch .blank slots.occupied below value,
    ⟨reads_of_source hsource, below, rfl, fun slot ↦ ⟨hshows slot, hlong slot⟩⟩,
    ⟨fun slot ↦ ?_, ?_, hvalue, hnormal⟩, ?_⟩
  · rw [hsound slot, hnull]
  · simpa only [Slots.Forked, hnull] using hforked
  · exact congrArg _ (funext hcontent)

/-- Slots that hold contents hold another one where a node is replaced. -/
theorem Tucked.set {slots : Slots} {contents : Nibble → Content}
    (h : ∀ slot, (slots.node slot).Tucked held (contents slot)) (place : Nibble)
    (hnode : node.Tucked held content) (slot : Nibble) :
    ((slots.set place node).node slot).Tucked held
      (if slot = place then content else contents slot) := by
  rw [Slots.node_set]
  split
  · exact hnode
  · exact h slot

end Node

end Patricia
