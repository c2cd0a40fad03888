import Mathlib.Logic.Relation
import Patricia.Proofs.Format.Snug
import Patricia.Proofs.Trie.Entries

/-!
# References in place of subtrees

A subtree that is written in 32 bytes or more is only ever cited by its hash, so a reference may
take its place and nothing above it is written differently. `Node.Cut` says that some subtrees of a
tree were replaced so, and that the nodes above them were made anew; this may be done again and
again. Every node that is left has the written form, the hash and the reference of the node that
was at its place (`Node.Built.cut_unseen`). What a commit gathers of a node is such a cut, and so is
every node that it writes.

This is so of trees that are put together from new nodes and from nodes that were read from the
bytes that they are written as. A node that was read from other bytes keeps these for its form, and
would be written differently when it is made anew.
-/

namespace Patricia

/-- The stamp of a node that was made anew, or of one that was read from the same bytes. -/
def Stamp.Remakes (made stamp : Stamp) : Prop :=
  made.source = none ∨ made.source = stamp.source

namespace Node

/-! ## Trees that are put together -/

/-- A tree that is put together: its nodes are new, or references, or instances of what was read
from bytes that are written for it anew. -/
inductive Built : Node → Prop where
  | null : Built .null
  | leaf {stamp path value} (hsource : stamp.source = none) : Built (.leaf stamp path value)
  | extension {stamp first rest child} (hsource : stamp.source = none) (hchild : Built child) :
      Built (.extension stamp first rest child)
  | branch {stamp occupied slots value} (hsource : stamp.source = none)
      (hslots : ∀ slot, Built (slots slot)) : Built (.branch stamp occupied slots value)
  | stored {stamp hash} : Built (.stored stamp hash)
  | read {bytes read owner serial} (hdecode : decode bytes = .ok read)
      (hcanonical : read.val.plain.encoding = bytes) : Built (read.val.issue owner serial)

variable {node cut part there : Node} {read : Resolved} {bytes : Bytes}

/-- What was read from the bytes that are written for it anew is written anew throughout. -/
theorem sincere_of_decode (hdecode : decode bytes = .ok read)
    (hcanonical : read.val.plain.encoding = bytes) : read.val.All Sincere := by
  obtain ⟨node, hspelled, -, hval⟩ := decode_eq_ok_iff.mp hdecode
  have hblank := hspelled.blank
  have hsincere : node.All Sincere := hblank.imp fun part hpart ↦
    encoding_eq_form (by rw [hpart]; rfl)
  rw [hval, plain_readFrom, hblank.plain_eq] at hcanonical
  rw [hval]
  exact hsincere.sincere_readFrom (hcanonical.symm.trans hsincere.self)

/-- Trees that are put together are written anew throughout. -/
theorem Built.sincere (h : node.Built) : node.All Sincere := by
  induction h with
  | null | stored => exact rfl
  | leaf hsource => exact encoding_eq_form hsource
  | extension hsource _ ih => exact ⟨encoding_eq_form hsource, ih⟩
  | branch hsource _ ih => exact ⟨encoding_eq_form hsource, ih⟩
  | read hdecode hcanonical => exact Sincere.issue (sincere_of_decode hdecode hcanonical) _ _

/-! ## Subtrees that are replaced -/

/-- The second tree is the first one with references in place of some subtrees that are written in
32 bytes or more. The nodes above them may be made anew, and so may any others. -/
inductive Cut : Node → Node → Prop where
  | null : Cut .null .null
  | leaf {stamp made path value} (hmade : made.Remakes stamp) :
      Cut (.leaf stamp path value) (.leaf made path value)
  | extension {stamp made first rest child below} (hmade : made.Remakes stamp)
      (hchild : Cut child below) :
      Cut (.extension stamp first rest child) (.extension made first rest below)
  | branch {stamp made occupied slots below value} (hmade : made.Remakes stamp)
      (hslots : ∀ slot, Cut (slots slot) (below slot)) :
      Cut (.branch stamp occupied slots value) (.branch made occupied below value)
  | stored {stamp made hash} : Cut (.stored stamp hash) (.stored made hash)
  | replaced {node made bytes} (hrlp : node.rlp = .ok bytes) (hlong : 32 ≤ bytes.length) :
      Cut node (.stored made node.hash)

namespace Cut

/-- Nothing need be replaced. -/
theorem refl (node : Node) : node.Cut node := by
  induction node with
  | null => exact .null
  | leaf stamp path value => exact .leaf (Or.inr rfl)
  | extension stamp first rest child ih => exact .extension (Or.inr rfl) ih
  | branch stamp occupied slots value ih => exact .branch (Or.inr rfl) ih
  | stored stamp hash => exact .stored

end Cut

/-- Nodes that are there are cited alike if they are written alike. -/
theorem reference_congr {left right : Node} (hleft : left.isStored = false)
    (hright : right.isStored = false) (h : left.encoding = right.encoding) :
    left.reference = right.reference := by
  by_cases hlt : right.encoding.length < 32
  · rw [reference_of_short hright hlt, reference_of_short hleft (h ▸ hlt), h]
  · rw [Nat.not_lt] at hlt
    rw [reference_of_long hlt, reference_of_long (h ▸ hlt), hash_eq_keccak256 hleft,
      hash_eq_keccak256 hright, h]

/-- A long node is cited by its hash. -/
theorem reference_of_rlp (hrlp : node.rlp = .ok bytes) (hlong : 32 ≤ bytes.length) :
    node.reference = node.hash.reference := by
  have hstored : node.isStored = false := by
    cases node with
    | null | leaf | extension | branch => rfl
    | stored => cases hrlp
  rw [rlp_eq_encoding hstored, Except.ok.injEq] at hrlp
  exact reference_of_long (hrlp ▸ hlong)

/-- Two nodes are alike to whoever cites them: they have one hash and one reference, and one written
form unless the first one is a reference. -/
structure Alike (node other : Node) : Prop where
  hash_eq : node.hash = other.hash
  reference_eq : node.reference = other.reference
  rlp_eq : node.isStored = false → node.rlp = other.rlp

namespace Alike

/-- A node is like itself. -/
theorem refl (node : Node) : node.Alike node :=
  ⟨rfl, rfl, fun _ ↦ rfl⟩

/-- What is like a node that is like a third one is like the third one. -/
theorem trans {third : Node} (h : cut.Alike node) (hnode : node.Alike third) :
    cut.Alike third where
  hash_eq := h.hash_eq.trans hnode.hash_eq
  reference_eq := h.reference_eq.trans hnode.reference_eq
  rlp_eq hcut := by
    have hrlp := h.rlp_eq hcut
    refine hrlp.trans (hnode.rlp_eq ?_)
    rw [rlp_eq_encoding hcut] at hrlp
    cases node with
    | null | leaf | extension | branch => rfl
    | stored => cases hrlp

/-- Nodes that are there are alike if they are written alike. -/
theorem of_encoding {left right : Node} (hleft : left.isStored = false)
    (hright : right.isStored = false) (h : left.encoding = right.encoding) : left.Alike right where
  hash_eq := by rw [hash_eq_keccak256 hleft, hash_eq_keccak256 hright, h]
  reference_eq := reference_congr hleft hright h
  rlp_eq _ := by rw [rlp_eq_encoding hleft, rlp_eq_encoding hright, h]

/-- A node that was made anew is like the node that it was, if it has the same for its form. -/
theorem of_form (hform : cut.form = node.form) (hcut : cut.isStored = false)
    (hnode : node.isStored = false) (hmade : cut.stamp.Remakes node.stamp)
    (hsincere : node.Sincere) : cut.Alike node ∧ cut.Sincere := by
  have hencoding : cut.encoding = node.encoding := by
    rcases hmade with hnew | hsame
    · rw [encoding_eq_form hnew, hform, hsincere]
    · cases hsource : node.stamp.source with
      | none => rw [encoding_eq_form (hsame.trans hsource), hform, hsincere]
      | some source =>
          rw [encoding_eq_source (hsame.trans hsource) hcut, encoding_eq_source hsource hnode]
  exact ⟨of_encoding hcut hnode hencoding, by rw [Sincere, hencoding, hsincere, hform]⟩

end Alike

namespace Cut

/-- A tree in which subtrees are replaced is like the tree that it was, and is still written anew
throughout. -/
theorem alike (h : node.Cut cut) (hsincere : node.All Sincere) :
    cut.Alike node ∧ cut.All Sincere := by
  induction h with
  | null => exact ⟨.refl _, hsincere⟩
  | @leaf stamp made path value hmade =>
      have hform : (Node.leaf made path value).form = (Node.leaf stamp path value).form := rfl
      exact Alike.of_form hform rfl rfl hmade hsincere
  | @extension stamp made first rest child below hmade _ ih =>
      -- What is cited for the child makes the form, and the form makes the rest.
      obtain ⟨hchild, hbelow⟩ := ih hsincere.2
      have hform : (Node.extension made first rest below).form =
          (Node.extension stamp first rest child).form :=
        congrArg (extensionForm (first :: rest)) hchild.reference_eq
      obtain ⟨halike, hself⟩ := Alike.of_form hform rfl rfl hmade hsincere.1
      exact ⟨halike, hself, hbelow⟩
  | @branch stamp made occupied slots below value hmade _ ih =>
      have hslots := fun slot ↦ ih slot (hsincere.2 slot)
      have hform : (Node.branch made occupied below value).form =
          (Node.branch stamp occupied slots value).form :=
        congrArg (branchForm · value) (funext fun slot ↦ (hslots slot).1.reference_eq)
      obtain ⟨halike, hself⟩ := Alike.of_form hform rfl rfl hmade hsincere.1
      exact ⟨halike, hself, fun slot ↦ (hslots slot).2⟩
  | stored => exact ⟨⟨rfl, rfl, nofun⟩, rfl⟩
  | replaced hrlp hlong => exact ⟨⟨rfl, (reference_of_rlp hrlp hlong).symm, nofun⟩, rfl⟩

/-- What stands at a place of the tree stood there before, or takes the place of what did. -/
theorem at? (h : node.Cut cut) {place : List Nat} (hthere : cut.at? place = some there) :
    ∃ was, node.at? place = some was ∧ was.Cut there := by
  induction place generalizing node cut with
  | nil =>
      cases hthere
      exact ⟨node, rfl, h⟩
  | cons number place ih =>
      obtain ⟨child, hchild, hthere⟩ := Option.bind_eq_some_iff.mp hthere
      cases h with
      | null | leaf | stored | replaced => cases hchild
      | extension hmade hbelow =>
          rw [child?, Option.ite_none_right_eq_some] at hchild
          obtain ⟨rfl, hchild⟩ := hchild
          cases hchild
          obtain ⟨was, hwas, hcut⟩ := ih hbelow hthere
          exact ⟨was, hwas, hcut⟩
      | branch hmade hslots =>
          rw [child?] at hchild
          split at hchild
          · rename_i hlt
            cases hchild
            obtain ⟨was, hwas, hcut⟩ := ih (hslots _) hthere
            refine ⟨was, ?_, hcut⟩
            rw [at?, child?, dif_pos hlt]
            exact hwas
          · cases hchild

end Cut

/-- What holds of all nodes of a tree holds of all nodes of the part at a place. -/
theorem All.at? {p : Node → Prop} {place : List Nat} (h : node.All p)
    (hpart : node.at? place = some part) : part.All p := by
  induction place generalizing node with
  | nil =>
      cases hpart
      exact h
  | cons number place ih =>
      obtain ⟨child, hchild, hpart⟩ := Option.bind_eq_some_iff.mp hpart
      refine ih ?_ hpart
      cases node with
      | null | leaf | stored => cases hchild
      | extension stamp first rest below =>
          rw [child?, Option.ite_none_right_eq_some] at hchild
          obtain ⟨-, ⟨⟩⟩ := hchild
          exact h.2
      | branch stamp occupied slots value =>
          rw [child?] at hchild
          split at hchild <;> cases hchild
          exact h.2 _

/-! ## What is gathered -/

/-- A node to be written is the part of a tree at some place with references in it, and is written
under its hash and in its form. -/
def Releases (node : Node) (outgoing : Outgoing) : Prop :=
  ∃ place part, node.at? place = some part ∧ part.Cut outgoing.node.val ∧
    outgoing.hash = part.hash ∧ part.rlp = .ok outgoing.rlp

variable {made reference : Stamp} {below : List Outgoing} {outgoing : Outgoing}

/-- What is released from a child is released from the node. -/
theorem Releases.of_child {child : Node} {number : Nat} (hchild : node.child? number = some child)
    (h : child.Releases outgoing) : node.Releases outgoing := by
  obtain ⟨place, part, hpart, hcut⟩ := h
  refine ⟨number :: place, part, ?_, hcut⟩
  rw [at?, hchild]
  exact hpart

/-- A node with references in it stays with its parent or leaves a reference, and is then released.
-/
theorem post_cut {cut : Resolved} (hsincere : node.All Sincere)
    (hcut : node.Cut cut.val) (hbelow : ∀ outgoing ∈ below, node.Releases outgoing) :
    node.Cut (post reference cut below).1 ∧
      ∀ outgoing ∈ (post reference cut below).2, node.Releases outgoing := by
  obtain ⟨halike, -⟩ := hcut.alike hsincere
  have hrlp : node.rlp = .ok cut.val.encoding := by
    rw [← halike.rlp_eq cut.property, rlp_eq_encoding cut.property]
  have hhash : keccak256 cut.val.encoding = node.hash := by
    rw [← hash_eq_keccak256 cut.property, halike.hash_eq]
  rw [post]
  split
  · exact ⟨hcut, hbelow⟩
  · rename_i hlong
    rw [hhash]
    refine ⟨.replaced hrlp (Nat.not_lt.mp hlong), fun outgoing hmem ↦ ?_⟩
    rcases List.mem_append.mp hmem with hmem | hmem
    · exact hbelow outgoing hmem
    · obtain rfl := List.mem_singleton.mp hmem
      exact ⟨[], node, rfl, hcut, rfl, hrlp⟩

/-- What is gathered of a tree is the tree with references in it, and so are the nodes that are to
be written. -/
theorem gather_cut (hmade : made.source = none) (reference : Stamp) (hsincere : node.All Sincere)
    (position : List Nat) :
    node.Cut (node.gather made reference position).1 ∧
      ∀ outgoing ∈ (node.gather made reference position).2, node.Releases outgoing := by
  induction node generalizing position with
  | null => exact ⟨.null, List.forall_mem_nil _⟩
  | stored stamp hash => exact ⟨.stored, List.forall_mem_nil _⟩
  | leaf stamp path value => exact post_cut hsincere (.refl _) (List.forall_mem_nil _)
  | extension stamp first rest child ih =>
      obtain ⟨hform, hbelow⟩ := ih hsincere.2 (position ++ [0])
      refine post_cut hsincere ?_ fun outgoing hmem ↦ (hbelow outgoing hmem).of_child (if_pos rfl)
      split
      · exact .refl _
      · exact .extension (Or.inl hmade) hform
  | branch stamp occupied slots value ih =>
      have hslots := fun slot : Nibble ↦ ih slot (hsincere.2 slot) (position ++ [slot.val])
      rw [gather_branch made reference stamp position occupied slots value _ fun _ ↦ rfl]
      refine post_cut hsincere ?_ fun outgoing hmem ↦ ?_
      · split
        · exact .refl _
        · exact .branch (Or.inl hmade) fun slot ↦ (hslots slot).1
      · obtain ⟨slot, -, hmem⟩ := List.mem_flatMap.mp hmem
        exact ((hslots slot).2 outgoing hmem).of_child (dif_pos slot.isLt)

/-- A tree is put together, and references take the place of subtrees that are written in 32 bytes
or more, any number of times. Every node that is left then has the hash, the reference and the
written form of the node that was at its place. At every place, what a commit gathers of the node
there is like the node, and so is each node that it writes, under the hash and in the form of a node
below. -/
theorem Built.cut_unseen (hbuilt : node.Built) :
    (∀ cut, Relation.ReflTransGen Cut node cut → ∀ place there, cut.at? place = some there →
      ∃ was, node.at? place = some was ∧ there.Alike was) ∧
    ∀ place part, node.at? place = some part → ∀ made reference : Stamp, made.source = none →
      ∀ position,
      let gathered := part.gather made reference position
      part.Cut gathered.1 ∧ gathered.1.Alike part ∧
      ∀ outgoing ∈ gathered.2, ∃ below was, part.at? below = some was ∧
        was.Cut outgoing.node.val ∧ outgoing.node.val.Alike was ∧
        outgoing.hash = was.hash ∧ was.rlp = .ok outgoing.rlp := by
  constructor
  · intro cut hcuts
    suffices h : (∀ place there, cut.at? place = some there →
        ∃ was, node.at? place = some was ∧ there.Alike was) ∧ cut.All Sincere from h.1
    induction hcuts with
    | refl => exact ⟨fun place there hthere ↦ ⟨there, hthere, .refl there⟩, hbuilt.sincere⟩
    | tail _ hcut ih =>
        obtain ⟨hbefore, hsincere⟩ := ih
        refine ⟨fun place there hthere ↦ ?_, (hcut.alike hsincere).2⟩
        obtain ⟨between, hbetween, hcut⟩ := hcut.at? hthere
        obtain ⟨was, hwas, halike⟩ := hbefore place between hbetween
        exact ⟨was, hwas, (hcut.alike (hsincere.at? hbetween)).1.trans halike⟩
  · intro place part hpart made reference hmade position gathered
    have hsincere := hbuilt.sincere.at? hpart
    obtain ⟨hform, hbelow⟩ := gather_cut hmade reference hsincere position
    refine ⟨hform, (hform.alike hsincere).1, fun outgoing hmem ↦ ?_⟩
    obtain ⟨below, was, hwas, hcut, hhash, hrlp⟩ := hbelow outgoing hmem
    exact ⟨below, was, hwas, hcut, (hcut.alike (hsincere.at? hwas)).1, hhash, hrlp⟩

/-- A leaf with a value of 40 bytes. -/
def bulky (byte : UInt8) : Node :=
  .leaf .blank [lowNibble 0] (List.replicate 40 byte)

/-- A branch over such a leaf and another node. -/
def couple (other : Node) : Node :=
  .branch .blank 6#16 (fun slot ↦
    if slot = lowNibble 1 then bulky 7 else if slot = lowNibble 2 then other else .null) none

/-- The branch over two leaves is put together. -/
theorem couple_built : (couple (bulky 8)).Built := by
  refine .branch rfl fun slot ↦ ?_
  split
  · exact .leaf rfl
  · split
    · exact .leaf rfl
    · exact .null

/-- A reference may take the place of one of the leaves. -/
theorem couple_cut : (couple (bulky 8)).Cut (couple (.stored .blank (bulky 8).hash)) := by
  refine .branch (Or.inl rfl) fun slot ↦ ?_
  split
  · exact .refl _
  · split
    · exact .replaced rfl (by decide)
    · exact .refl _

/-- The branch over a leaf and a reference is written as the branch over two leaves is, and so is
what a commit gathers. Three nodes are to be written, and each has the form of a node of the tree.
-/
theorem Built.cut_unseen_couple :
    let whole := couple (bulky 8)
    let cut := couple (.stored .blank (bulky 8).hash)
    let gathered := whole.gather ⟨1, 0, [], none⟩ ⟨1, 1, [], none⟩ []
    cut.rlp = whole.rlp ∧ cut.hash = whole.hash ∧ cut.reference = whole.reference ∧
      gathered.1.hash = whole.hash ∧ gathered.2.length = 3 ∧
      ∀ outgoing ∈ gathered.2, ∃ below was, whole.at? below = some was ∧
        outgoing.hash = was.hash ∧ was.rlp = .ok outgoing.rlp := by
  intro whole cut gathered
  obtain ⟨hcut, hgather⟩ := Built.cut_unseen couple_built
  obtain ⟨was, ⟨⟩, halike⟩ := hcut cut (.single couple_cut) [] cut rfl
  obtain ⟨-, hform, hbelow⟩ := hgather [] whole rfl ⟨1, 0, [], none⟩ ⟨1, 1, [], none⟩ rfl []
  refine ⟨halike.rlp_eq rfl, halike.hash_eq, halike.reference_eq, hform.hash_eq,
    by decide +kernel, fun outgoing hmem ↦ ?_⟩
  obtain ⟨below, was, hwas, -, -, hhash, hrlp⟩ := hbelow outgoing hmem
  exact ⟨below, was, hwas, hhash, hrlp⟩

end Node

end Patricia
