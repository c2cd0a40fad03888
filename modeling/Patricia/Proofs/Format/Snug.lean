import Patricia.Proofs.Format.Grammar

/-!
# Nodes as they stand in bytes

What stands for a node in a list is what the node is written as there, if either of them is shorter
than 32 bytes, or the node is a reference (`Node.Spelled.reference_eq`). A longer child can stand in
place though it is never written so. Without one the node is `Snug`, and the bytes are what the node
that is read from them is written as anew (`Node.decode_exact`).
-/

namespace Patricia

namespace Node

open Rlp (Item)

variable {node child : Node} {bytes packed front back last : Bytes} {path : List Nibble}
  {first : Nibble} {rest : List Nibble} {slots : Nibble → Node} {value : Option Bytes}
  {read : Resolved} {p q : Node → Prop}

/-- The node has no child of 32 bytes or more in place. -/
def Snug (node : Node) : Prop :=
  node.Children fun below ↦ below.encoding.length < 32 ∨ below.isStored = true

/-- What holds of all children holds of them if it is weakened. -/
theorem Children.imp (h : node.Children p) (himp : ∀ below, p below → q below) :
    node.Children q := by
  cases node with
  | null | leaf | stored => trivial
  | extension stamp first rest child => exact himp child h
  | branch stamp occupied slots value => exact fun slot ↦ himp (slots slot) (h slot)

/-- The bytes that a node was read from do not matter for its children. -/
theorem children_readFrom (source : Bytes) (node : Node) :
    (node.readFrom source).Children q ↔ node.Children q := by
  cases node <;> exact Iff.rfl

/-! ## Short nodes -/

/-- A node that is written in place is short. -/
theorem short_of_reference (h : node.reference.length < 32) : node.encoding.length < 32 := by
  by_contra hlong
  rw [reference_of_long (Nat.not_lt.mp hlong), length_reference] at h
  omega

/-- The children of a short node that is written as a list are short. -/
theorem short_children (h : node.encoding = Rlp.list node.payload)
    (hshort : node.encoding.length < 32) :
    node.Children fun below ↦ below.encoding.length < 32 := by
  have hlength := length_lt_length_list node.payload
  rw [← h] at hlength
  exact (length_reference_le_payload node).imp fun below hle ↦ short_of_reference (by omega)

/-- A tree with blank stamps is written anew. -/
theorem Blank.encoding_eq_list (h : node.Blank) (hformed : node.isFormed = true) :
    node.encoding = Rlp.list node.payload := by
  have hnone : node.stamp.source = none := by
    rw [h.self]
    rfl
  rw [encoding_eq_form hnone, form_eq_list hformed]

/-- A short tree with blank stamps is all in place. -/
theorem Blank.abridged_of_short (h : node.Blank) (hshort : node.encoding.length < 32) :
    node.abridged = node := by
  induction node with
  | null => rfl
  | leaf stamp path value =>
      obtain rfl : stamp = .blank := h
      rfl
  | extension stamp first rest child ih =>
      have hchild : child.encoding.length < 32 := short_children (h.encoding_eq_list rfl) hshort
      obtain rfl : stamp = .blank := h.1
      rw [abridged, if_pos hchild, ih h.2 hchild]
  | branch stamp occupied slots value ih =>
      have hslots : ∀ slot, (slots slot).encoding.length < 32 :=
        short_children (h.encoding_eq_list rfl) hshort
      obtain rfl : stamp = .blank := h.1
      rw [abridged]
      congr 1
      refine funext fun slot ↦ ?_
      rw [if_pos (hslots slot), ih slot (h.2 slot) (hslots slot)]
  | stored stamp hash =>
      obtain rfl : stamp = .blank := h
      rfl

/-- A tree with blank stamps without a long child in place is what its form tells of it. -/
theorem Blank.abridged_of_snug (h : node.Blank) (hsnug : node.Snug) : node.abridged = node := by
  have hcited : ∀ {below : Node}, below.Blank →
      below.encoding.length < 32 ∨ below.isStored = true → below.cited = below := by
    intro below h hbelow
    rcases hbelow with hshort | hstored
    · rw [cited, if_pos hshort, h.abridged_of_short hshort]
    · cases below with
      | stored stamp hash =>
          obtain rfl : stamp = .blank := h
          exact if_neg (by rw [encoding, length_reference]; decide)
      | null | leaf | extension | branch => cases hstored
  cases node with
  | null => rfl
  | leaf stamp path value =>
      obtain rfl : stamp = .blank := h
      rfl
  | extension stamp first rest child =>
      obtain rfl : stamp = .blank := h.1
      exact congrArg (extension .blank first rest) (hcited h.2 hsnug)
  | branch stamp occupied slots value =>
      obtain rfl : stamp = .blank := h.1
      exact congrArg (branch .blank occupied · value)
        (funext fun slot ↦ hcited (h.2 slot) (hsnug slot))
  | stored stamp hash =>
      obtain rfl : stamp = .blank := h
      rfl

/-! ## What the grammar and the form have in common -/

/-- What stands in bytes throughout is literal. -/
theorem Spelled.literal (h : node.Spelled bytes) : node.All Literal := by
  obtain ⟨item, -, -, hread⟩ := h.ofItem_eq
  exact ofItem_literal _ item node (hread _ (Nat.le_refl _))

/-- What stands in bytes has blank stamps. -/
theorem Spelled.blank (h : node.Spelled bytes) : node.Blank :=
  h.literal.imp fun _ hnode ↦ hnode.blank

/-- A node that is as it stands in bytes throughout is legible. -/
theorem legible_of_literal (h : node.All Literal) : node.Legible := by
  refine h.imp fun node hnode ↦ ⟨encoding_eq_form ?_, hnode.proper, ?_⟩
  · rw [hnode.blank]
    rfl
  · intro stamp occupied slots heq
    have hhollow := hnode.isHollow_eq
    rw [heq] at hhollow
    cases hhollow

/-- The bytes of a leaf in the grammar are its form. -/
theorem form_leaf {value : Bytes} (hpath : (Path.mk path true).PackedIn packed)
    (hfront : Item.Spelled ⟨false, packed⟩ front) (hback : Item.Spelled ⟨false, value⟩ back)
    (hbytes : Item.Spelled ⟨true, front ++ back⟩ bytes) : leafForm path value = bytes := by
  rw [leafForm, Path.packedIn_iff.mp hpath, ← hfront.eq_string, ← hback.eq_string,
    ← hbytes.eq_list]

/-- The bytes of an extension in the grammar are its form, if the child's are its reference. -/
theorem form_extension (hpath : (Path.mk (first :: rest) false).PackedIn packed)
    (hfront : Item.Spelled ⟨false, packed⟩ front) (hchild : child.reference = back)
    (hbytes : Item.Spelled ⟨true, front ++ back⟩ bytes) :
    extensionForm (first :: rest) child.reference = bytes := by
  rw [extensionForm, Path.packedIn_iff.mp hpath, ← hfront.eq_string, hchild, ← hbytes.eq_list]

/-- The bytes of a branch in the grammar are its form, if those of its slots are their
references. -/
theorem form_branch {parts : Nibble → Bytes} (hslots : ∀ slot, (slots slot).reference = parts slot)
    (hlast : Item.Spelled ⟨false, value.getD []⟩ last)
    (hbytes : Item.Spelled ⟨true, (List.finRange 16).flatMap parts ++ last⟩ bytes) :
    branchForm (fun slot ↦ (slots slot).reference) value = bytes := by
  rw [branchForm, funext hslots, ← hlast.eq_string, ← hbytes.eq_list]

/-- What stands for a node is written for it, if it is the node's form and short. -/
theorem reference_of_form (hblank : node.stamp = .blank) (hstored : node.isStored = false)
    (hform : node.form = bytes)
    (hshort : node.encoding.length < 32 ∨ node.isStored = true ∨ bytes.length < 32) :
    node.reference = bytes := by
  have hencoding : node.encoding = bytes := by
    rw [encoding_eq_form (by rw [hblank]; rfl), hform]
  rw [hstored, hencoding, or_iff_right Bool.false_ne_true, or_self] at hshort
  rw [reference_of_short hstored (hencoding ▸ hshort), hencoding]

/-- What stands for a node is written for it, if either of them is short or the node is a
reference. -/
theorem Spelled.reference_eq (h : node.Spelled bytes)
    (hshort : node.encoding.length < 32 ∨ node.isStored = true ∨ bytes.length < 32) :
    node.reference = bytes := by
  induction h with
  | null hbytes => exact hbytes.eq_string.symm
  | stored hbytes =>
      rw [hbytes.eq_string, ← reference_eq_string]
      rfl
  | leaf hpath hfront hback hbytes =>
      exact reference_of_form rfl rfl (form_leaf hpath hfront hback hbytes) hshort
  | extension hpath hfront hchild hnull hbytes ih =>
      rename_i first rest child packed front back bytes
      -- If either is short, so is that of the child, which is a part of it.
      have hpart : child.encoding.length < 32 ∨ child.isStored = true ∨ back.length < 32 := by
        rcases hshort with hshort | hstored | hshort
        · have hlist : (Node.extension .blank first rest child).encoding = Rlp.list _ := rfl
          exact Or.inl (short_children hlist hshort)
        · cases hstored
        · exact Or.inr (Or.inr (Nat.lt_trans hbytes.length_back_lt hshort))
      exact reference_of_form rfl rfl (form_extension hpath hfront (ih hpart) hbytes) hshort
  | branch hslots hsound hlast hvalue hcount hbytes ih =>
      rename_i occupied slots value parts last bytes
      have hpart : ∀ slot, (slots slot).encoding.length < 32 ∨ (slots slot).isStored = true ∨
          (parts slot).length < 32 := by
        intro slot
        rcases hshort with hshort | hstored | hshort
        · have hlist : (Node.branch .blank occupied slots value).encoding = Rlp.list _ := rfl
          exact Or.inl (short_children hlist hshort slot)
        · cases hstored
        · exact Or.inr (Or.inr (Nat.lt_trans (hbytes.length_slot_lt slot) hshort))
      exact reference_of_form rfl rfl (form_branch (fun slot ↦ ih slot (hpart slot)) hlast hbytes)
        hshort

/-- The bytes of a node in the grammar are its form, if it has no long child in place. There is no
such child if the bytes are short. -/
theorem Spelled.form_eq (h : node.Spelled bytes) (hformed : node.isFormed = true)
    (hsnug : node.Snug ∨ bytes.length < 32) : node.form = bytes := by
  cases h with
  | null | stored => cases hformed
  | leaf hpath hfront hback hbytes => exact form_leaf hpath hfront hback hbytes
  | extension hpath hfront hchild hnull hbytes =>
      refine form_extension hpath hfront (hchild.reference_eq ?_) hbytes
      rcases hsnug with hsnug | hshort
      · exact hsnug.imp_right Or.inl
      · exact Or.inr (Or.inr (Nat.lt_trans hbytes.length_back_lt hshort))
  | branch hslots hsound hlast hvalue hcount hbytes =>
      refine form_branch (fun slot ↦ (hslots slot).reference_eq ?_) hlast hbytes
      rcases hsnug with hsnug | hshort
      · exact (hsnug slot).imp_right Or.inl
      · exact Or.inr (Or.inr (Nat.lt_trans (hbytes.length_slot_lt slot) hshort))

/-- The node is what the bytes say and the bytes are its form: they have no long child in place, and
all in them is as it stands there. -/
structure StandsIn (bytes : Bytes) (node : Node) : Prop where
  literal : node.All Literal
  snug : node.Snug
  form_eq : node.form = bytes

/-- What was read from bytes without a long child in place stands in them. There is no such child if
the bytes are short. -/
theorem decode_exact (h : decode bytes = .ok read) (hsnug : read.val.Snug ∨ bytes.length < 32) :
    ∃ node : Resolved, read = node.readFrom bytes ∧ node.val.StandsIn bytes := by
  obtain ⟨node, hspelled, hformed, hval⟩ := decode_eq_ok_iff.mp h
  rw [Snug, hval, children_readFrom] at hsnug
  have hform := hspelled.form_eq hformed hsnug
  refine ⟨⟨node, isStored_of_formed hformed⟩, Subtype.ext hval, hspelled.literal, ?_, hform⟩
  rcases hsnug with hsnug | hshort
  · exact hsnug
  · have hlist := hspelled.blank.encoding_eq_list hformed
    rw [← hform, form_eq_list hformed, ← hlist] at hshort
    exact (short_children hlist hshort).imp fun _ ↦ Or.inl

end Node

end Patricia
