import Patricia.Proofs.Store.Held
import Patricia.Proofs.Trie.Way

/-!
# The trail of a key in a committed tree

The trail of a key in a whole tree are the hashes of the nodes on its way that a commit writes on
their own: that of the root, and those of the long nodes below it (`Node.trail`). A lookup in a tree
that was read from a store loads just these, whatever is in the cache (`Node.Way.trail_eq`). In a
normal tree each long node is on the trail of some key that has a value (`Node.Normal.trails`).
-/

namespace Patricia.Node

/-- The hash of the node, if its form is long. -/
def mark (node : Node) : List Hash :=
  node.whenLong.map hash

/-- The hashes of the long nodes on the way of a key, from the top down. -/
def marks : Node → List Nibble → List Hash
  | .extension stamp first rest child, key =>
      (Node.extension stamp first rest child).mark ++
        match stripLead? (first :: rest) key with
        | some key => child.marks key
        | none => []
  | .branch stamp occupied slots value, key =>
      (Node.branch stamp occupied slots value).mark ++
        match key with
        | nibble :: key => (slots nibble).marks key
        | [] => []
  | .null, _ => Node.null.mark
  | .leaf stamp path value, _ => (Node.leaf stamp path value).mark
  | .stored stamp hash, _ => (Node.stored stamp hash).mark

/-- The hashes of the long nodes on the way of a key below the root. -/
def marksBelow : Node → List Nibble → List Hash
  | .extension _ first rest child, key =>
      match stripLead? (first :: rest) key with
      | some key => child.marks key
      | none => []
  | .branch _ _ slots _, nibble :: key => (slots nibble).marks key
  | .branch .., [] | .null, _ | .leaf .., _ | .stored .., _ => []

/-- The hashes of the nodes on the way of a key that a commit of the tree writes on their own. -/
def trail (whole : Node) (key : List Nibble) : List Hash :=
  if whole.isNull then [] else whole.hash :: whole.marksBelow key

/-- The hash is on the trail of some key that has a value. -/
def Trails (whole : Node) (hash : Hash) : Prop :=
  ∃ key, whole.content key ≠ none ∧ hash ∈ whole.trail key

variable {contents : Contents} {node whole : Node} {key : List Nibble} {loads : List Load}

/-- The root comes before what is below it. -/
theorem marks_eq (node : Node) (key : List Nibble) :
    node.marks key = node.mark ++ node.marksBelow key := by
  cases node with
  | extension => rfl
  | branch => cases key <;> rfl
  | null | leaf | stored => exact (List.append_nil _).symm

/-- A short node has no mark. -/
theorem mark_of_short (h : node.encoding.length < 32) : node.mark = [] := by
  rw [mark, whenLong, if_pos h]
  rfl

/-- A long node has its hash as its mark. -/
theorem mark_of_long (h : 32 ≤ node.encoding.length) : node.mark = [node.hash] := by
  rw [mark, whenLong, if_neg (Nat.not_lt.mpr h)]
  rfl

/-- The marks on the way of a key are on its trail. -/
theorem marks_subset_trail (h : whole.isNull = false) (key : List Nibble) :
    whole.marks key ⊆ whole.trail key := by
  rw [marks_eq, trail, h]
  by_cases hshort : whole.encoding.length < 32
  · rw [mark_of_short hshort]
    exact List.subset_cons_self _ _
  · rw [mark_of_long (Nat.not_lt.mp hshort)]
    exact List.Subset.refl _

/-! ## What a lookup loads -/

/-- The tree that is told of a node in short is not a reference. -/
theorem Whole.isStored_abridged (h : whole.Whole) : whole.abridged.isStored = false := by
  have hstored := h.normal.isStored_eq
  cases whole with
  | null | leaf | extension | branch => rfl
  | stored => cases hstored

/-- A node that is there and is what is told of a tree is the tree in short, which has no mark. -/
theorem abridged_of_cited (h : node.plain = whole.cited) (hstored : node.isStored = false) :
    node.plain = whole.abridged ∧ whole.mark = [] := by
  rw [cited] at h
  split at h
  · rename_i hshort
    exact ⟨h, mark_of_short hshort⟩
  · rw [← isStored_plain, h] at hstored
    cases hstored

/-- Each load gives a node that is as in the store. -/
def Mirrored (contents : Contents) (loads : List Load) : Prop :=
  ∀ load ∈ loads, ∃ given, load.outcome = .ok given ∧
    ∀ whole, Held contents load.hash whole → given.val.plain = whole.abridged

/-- The loads have the marks on the way of a key: those below the root of a tree, where it is read
in short, and all of them, where it is told of. -/
structure Follows (whole node : Node) (key : List Nibble) (loads : List Load) : Prop where
  below : node.plain = whole.abridged → loads.map Load.hash = whole.marksBelow key
  cited : node.plain = whole.cited → loads.map Load.hash = whole.marks key

/-- For a node that is there it is enough to know the marks below it. -/
theorem Follows.of_there (hstored : node.isStored = false)
    (hbelow : node.plain = whole.abridged → loads.map Load.hash = whole.marksBelow key) :
    Follows whole node key loads := by
  refine ⟨hbelow, fun hcited ↦ ?_⟩
  obtain ⟨habridged, hmark⟩ := abridged_of_cited hcited hstored
  rw [Node.marks_eq, hmark, hbelow habridged]
  rfl

/-- A lookup loads what is marked on the way of the key, if each load gives a node that is as in the
store. -/
theorem Way.follows (h : node.Way key loads) (hwhole : whole.Whole)
    (hsaved : whole.Saved contents) (hloads : Mirrored contents loads) :
    Follows whole node key loads := by
  induction h generalizing whole with
  | null =>
      refine .of_there rfl fun heq ↦ ?_
      cases whole with
      | null => rfl
      | leaf | extension | branch | stored => cases heq
  | leaf =>
      refine .of_there rfl fun heq ↦ ?_
      cases whole with
      | leaf => rfl
      | null | extension | branch | stored => cases heq
  | aside hstrip =>
      refine .of_there rfl fun heq ↦ ?_
      rw [plain_extension] at heq
      cases whole with
      | extension stamp first lead below =>
          injection heq with _ hfirst hlead
          subst hfirst hlead
          rw [marksBelow, hstrip]
          rfl
      | null | leaf | branch | stored => cases heq
  | along hstrip hway ih =>
      refine .of_there rfl fun heq ↦ ?_
      rw [plain_extension] at heq
      cases whole with
      | extension stamp first lead below =>
          injection heq with _ hfirst hlead hchild
          subst hfirst hlead
          rw [marksBelow, hstrip]
          exact (ih hwhole.child hsaved.2 hloads).cited hchild
      | null | leaf | branch | stored => cases heq
  | ending =>
      refine .of_there rfl fun heq ↦ ?_
      rw [plain_branch] at heq
      cases whole with
      | branch => rfl
      | null | leaf | extension | stored => cases heq
  | @slot stamp occupied slots value nibble rest loads hway ih =>
      refine .of_there rfl fun heq ↦ ?_
      rw [plain_branch] at heq
      cases whole with
      | branch stamp occupied below value =>
          injection heq with _ _ hslots
          exact (ih (hwhole.slot nibble) (hsaved.2 nibble) hloads).cited (congrFun hslots nibble)
      | null | leaf | extension | stored => cases heq
  | @found stamp hash key heard loads node hway ih =>
      have habridged := hwhole.isStored_abridged
      refine ⟨fun heq ↦ ?_, fun heq ↦ ?_⟩
      · rw [← heq] at habridged
        cases habridged
      · rw [plain_stored, Node.cited] at heq
        split at heq
        · rw [← heq] at habridged
          cases habridged
        · rename_i hlong
          injection heq with _ hhash
          have hheld := (hwhole.all_held hsaved).self (Nat.not_lt.mp hlong)
          obtain ⟨given, houtcome, hgiven⟩ := hloads _ List.mem_cons_self
          obtain rfl := Except.ok.inj houtcome
          have hrest := (ih hwhole hsaved fun load hload ↦
            hloads load (List.mem_cons_of_mem _ hload)).below (hgiven whole (hhash ▸ hheld))
          rw [Node.marks_eq, mark_of_long (Nat.not_lt.mp hlong), List.map_cons, hrest, hhash]
          rfl
  | lost =>
      obtain ⟨given, ⟨⟩, -⟩ := hloads _ (List.mem_singleton_self _)

/-- A lookup from a reference to a tree loads the trail of the key. -/
theorem Way.trail_eq {stamp : Stamp} {hash : Hash} (h : (stored stamp hash).Way key loads)
    (hheld : Held contents hash whole) (hloads : Mirrored contents loads) :
    loads.map Load.hash = whole.trail key := by
  rw [trail, hheld.isNull_eq, hheld.hash_eq]
  cases h with
  | found hway =>
      obtain ⟨given, houtcome, hgiven⟩ := hloads _ List.mem_cons_self
      obtain rfl := Except.ok.inj houtcome
      exact congrArg (hash :: ·) ((hway.follows hheld.isWhole hheld.saved fun load hload ↦
        hloads load (List.mem_cons_of_mem _ hload)).below (hgiven whole hheld))
  | lost =>
      obtain ⟨given, ⟨⟩, -⟩ := hloads _ (List.mem_singleton_self _)

/-! ## Which nodes are on a trail -/

/-- What holds of all marks on the ways of keys that have a value holds of all long nodes. -/
theorem Normal.all_marked {reached : Hash → Prop} (h : whole.Normal)
    (hreached : ∀ key, whole.content key ≠ none → ∀ hash ∈ whole.marks key, reached hash) :
    whole.All fun part ↦ 32 ≤ part.encoding.length → reached part.hash := by
  -- A long node is not empty, so that some key below it has a value.
  have hself : ∀ {whole : Node}, whole.Normal →
      (∀ key, whole.content key ≠ none → ∀ hash ∈ whole.marks key, reached hash) →
      32 ≤ whole.encoding.length → reached whole.hash := by
    intro whole h hreached hlong
    obtain ⟨key, hkey⟩ := h.exists_entry (isNull_of_long hlong)
    refine hreached key hkey _ ?_
    rw [marks_eq, mark_of_long hlong]
    exact List.mem_cons_self
  induction whole with
  | null | leaf => exact hself h hreached
  | extension stamp first lead child ih =>
      refine ⟨hself h hreached, ih h.2 fun key hkey hash hmem ↦ ?_⟩
      refine hreached (first :: lead ++ key) ?_ hash ?_
      · rwa [content, Content.under_apply_append]
      · rw [marks, Content.stripLead?_append]
        exact List.mem_append_right _ hmem
  | branch stamp occupied slots value ih =>
      refine ⟨hself h hreached, fun slot ↦ ih slot (h.2.2.2 slot) fun key hkey hash hmem ↦ ?_⟩
      exact hreached (slot :: key) hkey hash (List.mem_append_right _ hmem)
  | stored => exact h.elim

/-- In a normal tree that is not empty, the root and each long node are on the trail of some key
that has a value. -/
theorem Normal.trails (h : whole.Normal) (hnull : whole.isNull = false) :
    whole.Trails whole.hash ∧
      whole.All fun part ↦ 32 ≤ part.encoding.length → whole.Trails part.hash := by
  constructor
  · obtain ⟨key, hkey⟩ := h.exists_entry hnull
    refine ⟨key, hkey, ?_⟩
    rw [trail, hnull]
    exact List.mem_cons_self
  · exact h.all_marked fun key hkey hash hmem ↦ ⟨key, hkey, marks_subset_trail hnull key hmem⟩

end Patricia.Node
