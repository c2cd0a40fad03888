import Patricia.Proofs.Node.Whole

/-!
# Written forms and references

Putting references for the nodes of a tree does not change what is written for those above them: a
node has the written form, the hash and the reference of the whole tree that it shows.
-/

namespace Patricia.Node

variable {held : Hash → Node → Prop} {node whole : Node}

/-- The form that a node is written in anew from its parts. -/
def form : Node → Bytes
  | .null => [0x80]
  | .leaf _ path value => leafForm path value
  | .extension _ first rest child => extensionForm (first :: rest) child.reference
  | .branch _ _ slots value => branchForm (fun slot ↦ (slots slot).reference) value
  | .stored _ hash => hash.reference

/-- The node is written as it would be anew from its parts. -/
def Sincere (node : Node) : Prop :=
  node.encoding = node.form

instance (node : Node) : Decidable node.Sincere :=
  inferInstanceAs (Decidable (node.encoding = node.form))

/-- A node that was not read from bytes is written anew. -/
theorem encoding_eq_form (h : node.stamp.source = none) : node.encoding = node.form := by
  cases node with
  | null | stored => rfl
  | leaf | extension | branch =>
      rw [stamp] at h
      simp only [encoding, h]
      rfl

/-- A node that was read from bytes is written as them. -/
theorem encoding_eq_source {source : Bytes} (h : node.stamp.source = some source)
    (hstored : node.isStored = false) : node.encoding = source := by
  cases node with
  | null | stored => cases hstored <;> cases h
  | leaf | extension | branch =>
      rw [stamp] at h
      simp only [encoding, h]

/-- The hash of a node that is there is that of its written form. -/
theorem hash_eq_keccak256 (h : node.isStored = false) : node.hash = keccak256 node.encoding := by
  cases node with
  | null | leaf | extension | branch => rfl
  | stored => cases h

/-- A node that is there can be written, as its form. -/
theorem rlp_eq_encoding (h : node.isStored = false) : node.rlp = .ok node.encoding := by
  cases node with
  | null | leaf | extension | branch => rfl
  | stored => cases h

/-- A parent writes the hash of a tree whose own form is long. -/
theorem reference_of_long (h : 32 ≤ node.encoding.length) :
    node.reference = node.hash.reference := by
  cases hstored : node.isStored with
  | true =>
      cases node with
      | stored stamp hash => rfl
      | null | leaf | extension | branch => cases hstored
  | false =>
      rw [hash_eq_keccak256 hstored]
      cases node with
      | null => exact absurd h (by decide)
      | leaf | extension | branch => exact if_neg (Nat.not_lt.mpr h)
      | stored stamp hash => cases hstored

/-- A parent writes in place what is short. -/
theorem reference_of_short (hstored : node.isStored = false) (h : node.encoding.length < 32) :
    node.reference = node.encoding := by
  cases node with
  | null => rfl
  | leaf | extension | branch => exact if_pos h
  | stored stamp hash => cases hstored

/-- A reference stands for the hash of what it shows. -/
theorem Shows.hash_eq_of_stored (h : node.Shows held whole) (hstored : node.isStored = true) :
    node.hash = whole.hash := by
  cases node with
  | stored stamp hash => exact h.2.1.symm
  | null | leaf | extension | branch => cases hstored

/-- What a node is written as in its parent is what the tree it shows is written as. -/
theorem Shows.reference_eq_of_encoding_eq (h : node.Shows held whole)
    (hlong : node.isStored = true → 32 ≤ whole.encoding.length)
    (hencoding : node.isStored = false → node.encoding = whole.encoding)
    (hwhole : whole.isStored = false) : node.reference = whole.reference := by
  cases hstored : node.isStored with
  | true =>
      rw [reference_of_long (hlong hstored), ← h.hash_eq_of_stored hstored]
      cases node with
      | stored stamp hash => rfl
      | null | leaf | extension | branch => cases hstored
  | false =>
      have heq := hencoding hstored
      by_cases hlt : whole.encoding.length < 32
      · rw [reference_of_short hwhole hlt, reference_of_short hstored (heq ▸ hlt), heq]
      · rw [Nat.not_lt] at hlt
        rw [reference_of_long hlt, reference_of_long (heq ▸ hlt), hash_eq_keccak256 hstored,
          hash_eq_keccak256 hwhole, heq]

/-- Normal trees have no references. -/
theorem Normal.isStored_eq (h : whole.Normal) : whole.isStored = false := by
  cases whole with
  | null | leaf | extension | branch => rfl
  | stored stamp hash => exact h.elim

/-- A node that is there has the written form of the tree it shows. -/
theorem Shows.encoding_eq (h : node.Shows held whole) (hnormal : whole.Normal)
    (hstored : node.isStored = false) : node.encoding = whole.encoding := by
  induction node generalizing whole with
  | null =>
      cases h
      rfl
  | leaf stamp path value =>
      obtain ⟨rfl, hreads⟩ := h
      cases hsource : (leaf stamp path value).stamp.source with
      | some source =>
          rw [encoding_eq_source hsource hstored]
          exact hreads source hsource
      | none => exact encoding_eq_form hsource
  | extension stamp first rest child ih =>
      obtain ⟨hreads, below, rfl, hshows, hlong⟩ := h
      cases hsource : (extension stamp first rest child).stamp.source with
      | some source =>
          rw [encoding_eq_source hsource hstored]
          exact hreads source hsource
      | none =>
          have hreference := hshows.reference_eq_of_encoding_eq hlong (ih hshows hnormal.2)
            hnormal.2.isStored_eq
          rw [encoding_eq_form hsource]
          exact congrArg (extensionForm (first :: rest)) hreference
  | branch stamp occupied slots value ih =>
      obtain ⟨hreads, below, rfl, hslots⟩ := h
      cases hsource : (branch stamp occupied slots value).stamp.source with
      | some source =>
          rw [encoding_eq_source hsource hstored]
          exact hreads source hsource
      | none =>
          have hreference : ∀ slot, (slots slot).reference = (below slot).reference := fun slot ↦
            (hslots slot).1.reference_eq_of_encoding_eq (hslots slot).2
              (ih slot (hslots slot).1 (hnormal.2.2.2 slot)) (hnormal.2.2.2 slot).isStored_eq
          rw [encoding_eq_form hsource]
          exact congrArg (branchForm · value) (funext hreference)
  | stored stamp hash => cases hstored

/-- A node has the hash of the tree it shows. -/
theorem Shows.hash_eq (h : node.Shows held whole) (hnormal : whole.Normal) :
    node.hash = whole.hash := by
  cases hstored : node.isStored with
  | true => exact h.hash_eq_of_stored hstored
  | false =>
      rw [hash_eq_keccak256 hstored, hash_eq_keccak256 hnormal.isStored_eq,
        h.encoding_eq hnormal hstored]

/-- A node is written in its parent as the tree it shows is. -/
theorem Shows.reference_eq (h : node.Shows held whole) (hnormal : whole.Normal)
    (hlong : node.isStored = true → 32 ≤ whole.encoding.length) :
    node.reference = whole.reference :=
  h.reference_eq_of_encoding_eq hlong (h.encoding_eq hnormal) hnormal.isStored_eq

/-- Other instances of a tree are written as it is, if they were read from the same bytes. -/
theorem encoding_restamp {change : List Nat → Stamp → Stamp}
    (hchange : ∀ position stamp, (change position stamp).source = stamp.source) (node : Node)
    (position : List Nat) :
    (node.restamp change position).encoding = node.encoding ∧
      (node.restamp change position).reference = node.reference := by
  have hreference : ∀ {node : Node} {position : List Nat},
      (node.restamp change position).encoding = node.encoding →
        (node.restamp change position).reference = node.reference := by
    intro node position h
    rw [reference, reference, h]
    cases node <;> rfl
  -- A reference depends on the encoding only, so the induction is on encodings.
  suffices h : (node.restamp change position).encoding = node.encoding from ⟨h, hreference h⟩
  induction node generalizing position with
  | null | stored => rfl
  | leaf stamp path value =>
      rw [restamp, encoding, encoding, hchange]
  | extension stamp first rest child ih =>
      have hchild := hreference (ih (position ++ [0]))
      simp only [reference] at hchild
      rw [restamp, encoding, encoding, hchange, hchild]
  | branch stamp occupied slots value ih =>
      have hslots := fun slot ↦ hreference (ih slot (position ++ [slot.val]))
      simp only [reference] at hslots
      simp only [restamp_branch, encoding, hchange, hslots]

/-! ## Nodes written as they would be anew -/

/-- A node that is there would be written anew like the tree it shows. -/
theorem Shows.form_eq (h : node.Shows held whole) (hnormal : whole.Normal)
    (hstored : node.isStored = false) : node.form = whole.form := by
  cases node with
  | null =>
      cases h
      rfl
  | leaf stamp path value =>
      obtain ⟨rfl, -⟩ := h
      rfl
  | extension stamp first rest child =>
      obtain ⟨-, below, rfl, hshows, hlong⟩ := h
      exact congrArg (extensionForm (first :: rest)) (hshows.reference_eq hnormal.2 hlong)
  | branch stamp occupied slots value =>
      obtain ⟨-, below, rfl, hslots⟩ := h
      have hreference : ∀ slot, (slots slot).reference = (below slot).reference := fun slot ↦
        (hslots slot).1.reference_eq (hnormal.2.2.2 slot) (hslots slot).2
      exact congrArg (branchForm · value) (funext hreference)
  | stored stamp hash => cases hstored

/-- A tree with blank stamps is written anew. -/
theorem Blank.sincere (h : whole.Blank) : whole.Sincere :=
  encoding_eq_form (by rw [h.self]; rfl)

/-- A node that shows a tree with blank stamps is written as it would be anew. -/
theorem Shows.sincere (h : node.Shows held whole) (hnormal : whole.Normal) (hblank : whole.Blank) :
    node.All Sincere := by
  have hself : ∀ {node whole : Node}, node.Shows held whole → whole.Normal → whole.Blank →
      node.isStored = false → node.Sincere := by
    intro node whole h hnormal hblank hstored
    rw [Sincere, h.encoding_eq hnormal hstored, h.form_eq hnormal hstored]
    exact hblank.sincere
  induction node generalizing whole with
  | null | stored => exact rfl
  | leaf stamp path value => exact hself h hnormal hblank rfl
  | extension stamp first rest child ih =>
      refine ⟨hself h hnormal hblank rfl, ?_⟩
      obtain ⟨-, below, rfl, hshows, -⟩ := h
      exact ih hshows hnormal.2 hblank.2
  | branch stamp occupied slots value ih =>
      refine ⟨hself h hnormal hblank rfl, fun slot ↦ ?_⟩
      obtain ⟨-, below, rfl, hslots⟩ := h
      exact ih slot (hslots slot).1 (hnormal.2.2.2 slot) (hblank.2 slot)

/-- A node whose content shows a tree shows the tree, if it is written as it would be anew. -/
theorem Shows.of_plain (h : node.plain.Shows held whole) (hnormal : whole.Normal)
    (hblank : whole.Blank) (hsincere : node.All Sincere) : node.Shows held whole := by
  -- The form does not depend on stamps, so bytes that the node was read from are the tree's form.
  have hreads : ∀ {node whole : Node}, node.form = whole.form → whole.Blank → node.Sincere →
      node.isStored = false → node.stamp.Reads whole := by
    intro node whole hform hblank hsincere hstored source hsource
    rw [← encoding_eq_source hsource hstored, hsincere, hform, hblank.sincere]
  induction node generalizing whole with
  | null | stored => exact h
  | leaf stamp path value =>
      obtain ⟨rfl, -⟩ := h
      have hform : (leaf stamp path value).form = (leaf .blank path value).form := rfl
      exact ⟨rfl, hreads hform hblank hsincere rfl⟩
  | extension stamp first rest child ih =>
      rw [plain_extension] at h
      obtain ⟨-, below, rfl, hshows, hlong⟩ := h
      rw [isStored_plain] at hlong
      have hchild := ih hshows hnormal.2 hblank.2 hsincere.2
      have hform : (extension stamp first rest child).form =
          (extension .blank first rest below).form :=
        congrArg (extensionForm (first :: rest)) (hchild.reference_eq hnormal.2 hlong)
      exact ⟨hreads hform hblank hsincere.1 rfl, below, rfl, hchild, hlong⟩
  | branch stamp occupied slots value ih =>
      rw [plain_branch] at h
      obtain ⟨-, below, rfl, hslots⟩ := h
      simp only [isStored_plain] at hslots
      have hslot := fun slot ↦ ih slot (hslots slot).1 (hnormal.2.2.2 slot) (hblank.2 slot)
        (hsincere.2 slot)
      have hform : (branch stamp occupied slots value).form =
          (branch .blank occupied below value).form :=
        congrArg (branchForm · value) (funext fun slot ↦
          (hslot slot).reference_eq (hnormal.2.2.2 slot) (hslots slot).2)
      exact ⟨hreads hform hblank hsincere.1 rfl, below, rfl, fun slot ↦
        ⟨hslot slot, (hslots slot).2⟩⟩

end Patricia.Node
