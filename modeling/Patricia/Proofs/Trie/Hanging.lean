import Patricia.Proofs.Trie.Identity

/-!
# What hangs off the way of a key

`Node.Hangs` says which subtrees of a trie hang off the way of a key: the other slots of each branch
on the way, and the child of an extension whose path the key leaves. References on the way are
followed, and those beside it are not. When the key is given a value, each of these is found at its
place in the new trie as the very node that it was (`Node.insert_keeps`).

Places are runs of nibbles from the root, so that a node keeps its place when it comes below a
longer path, or below a new branch with a shorter one.
-/

namespace Patricia.Node

variable {σ : Type} [NodeStore σ] {loader later : Loader} {store after : σ}

/-! ## Places -/

/-- The node stands at a place of a tree. No reference is followed. -/
inductive At : Node → List Nibble → Node → Prop where
  | here {node} : At node [] node
  | along {stamp first lead child place sub} (hsub : At child place sub) :
      At (.extension stamp first lead child) (first :: lead ++ place) sub
  | slot {stamp occupied slots value nibble place sub} (hsub : At (slots nibble) place sub) :
      At (.branch stamp occupied slots value) (nibble :: place) sub

/-- There is at a place of a tree what makes up another node: its path and value if it is a leaf,
the very child below its path if it is an extension, and otherwise the very node. -/
def Carries (node : Node) (place : List Nibble) : Node → Prop
  | .leaf _ path value => ∃ front back stamp, place = front ++ back ∧
      node.At front (.leaf stamp (back ++ path) value)
  | .extension _ first rest child => node.At (place ++ first :: rest) child
  | there => node.At place there

/-- A lead is put in front of the path of a node. -/
inductive Lifts : List Nibble → Node → Node → Prop where
  | null {lead} : Lifts lead .null .null
  | leaf {lead stamp made path value} :
      Lifts lead (.leaf stamp path value) (.leaf made (lead ++ path) value)
  | extension {first lead stamp made nibble rest child} :
      Lifts (first :: lead) (.extension stamp nibble rest child)
        (.extension made first (lead ++ nibble :: rest) child)
  | branch {first lead stamp made occupied slots value} :
      Lifts (first :: lead) (.branch stamp occupied slots value)
        (.extension made first lead (.branch stamp occupied slots value))

/-- The node is there, or it is what a reference was loaded as. -/
inductive Behind (loads : List Load) : Node → Node → Prop where
  | present {node} (hstored : node.isStored = false) : Behind loads node node
  | loaded {stamp hash heard} {node : Resolved} (hload : ⟨hash, heard, .ok node⟩ ∈ loads) :
      Behind loads (.stored stamp hash) node.val

variable {node moved sub there updated : Node} {lead place key rest : List Nibble}
  {loads more : List Load} {alone : Prop} {first nibble : Nibble} {value : Bytes}

/-- A branch has in its slots what is below them. -/
theorem Carries.slot {stamp : Stamp} {occupied : BitVec 16} {slots : Nibble → Node}
    {value : Option Bytes} {nibble : Nibble} (h : (slots nibble).Carries place there) :
    (branch stamp occupied slots value).Carries (nibble :: place) there := by
  cases there with
  | null | branch | stored | extension => exact At.slot h
  | leaf stamp path value =>
      obtain ⟨front, back, made, rfl, hleaf⟩ := h
      exact ⟨nibble :: front, back, made, rfl, .slot hleaf⟩

/-! ## Moving a node -/

namespace Lifts

/-- What stands below a node stands below it when it is moved. -/
theorem at_append (h : Lifts lead node moved) (hplace : place ≠ []) (hsub : node.At place sub) :
    moved.At (lead ++ place) sub := by
  cases h with
  | null | leaf =>
      cases hsub
      exact absurd rfl hplace
  | @extension first lead stamp made nibble rest child =>
      cases hsub with
      | here => exact absurd rfl hplace
      | @along _ _ _ _ below _ hsub =>
          have hat : (Node.extension made first (lead ++ nibble :: rest) child).At _ sub :=
            .along hsub
          simpa using hat
  | branch => exact .along hsub

/-- What makes up the node is carried below the lead. -/
theorem carries_self (h : Lifts lead node moved) (hnull : node.isNull = false) :
    moved.Carries lead node := by
  cases h with
  | null => cases hnull
  | leaf => exact ⟨[], lead, _, rfl, .here⟩
  | @extension first lead stamp made nibble rest child =>
      have hat : (Node.extension made first (lead ++ nibble :: rest) child).At _ child :=
        .along .here
      simpa [Carries] using hat
  | @branch first lead stamp made occupied slots value =>
      have hat : (Node.extension made first lead (.branch stamp occupied slots value)).At _
        (.branch stamp occupied slots value) := .along .here
      simpa [Carries] using hat

/-- What is carried below a node is carried below it when it is moved. -/
theorem carries_append (h : Lifts lead node moved) (hplace : place ≠ [])
    (hthere : node.Carries place there) : moved.Carries (lead ++ place) there := by
  cases there with
  | null | branch | stored => exact h.at_append hplace hthere
  | extension stamp first rest child =>
      show moved.At _ child
      rw [List.append_assoc]
      exact h.at_append (List.append_ne_nil_of_left_ne_nil hplace _) hthere
  | leaf stamp path value =>
      obtain ⟨front, back, made, rfl, hleaf⟩ := hthere
      cases front with
      | cons nibble front =>
          exact ⟨lead ++ nibble :: front, back, made, by rw [List.append_assoc],
            h.at_append (List.cons_ne_nil _ _) hleaf⟩
      | nil =>
          -- The leaf itself is moved.
          cases hleaf
          cases h with
          | @leaf _ _ made =>
              refine ⟨[], lead ++ back, made, rfl, ?_⟩
              rw [List.append_assoc]
              exact .here

end Lifts

/-- A node that is there is moved by putting the lead in front of its path. -/
theorem graft_lifts (hstored : node.isStored = false)
    (hrun : (node.graft (first :: lead)).run loader store = (.ok moved, later, after)) :
    Lifts (first :: lead) node moved := by
  cases node with
  | null =>
      cases hrun
      exact .null
  | leaf stamp path value =>
      cases hrun
      exact .leaf
  | extension stamp nibble rest child =>
      rw [graft_extension] at hrun
      cases hrun
      exact .extension
  | branch stamp occupied slots value =>
      rw [graft_branch] at hrun
      cases hrun
      exact .branch
  | stored => cases hstored

/-- What was loaded once is among more loads. -/
theorem Behind.mono (h : Behind loads sub there) (hloads : loads ⊆ more) :
    Behind more sub there := by
  cases h with
  | present hstored => exact .present hstored
  | loaded hload => exact .loaded (hloads hload)

open BackedTrie (Lawful)

/-- A node, or what it was loaded as, is moved by putting the lead in front of its path. -/
theorem graft_behind (h : (⟨loader, node⟩ : BackedTrie).Lawful)
    (hrun : (node.graft (first :: lead)).run loader store = (.ok moved, later, after)) :
    ∃ there, Behind ((node.graft (first :: lead)).loads loader store) node there ∧
      Lifts (first :: lead) there moved ∧ (node.isNull = false → there.isNull = false) := by
  cases hstored : node.isStored with
  | false => exact ⟨node, .present hstored, graft_lifts hstored hrun, id⟩
  | true =>
      cases node with
      | null | leaf | extension | branch => cases hstored
      | stored stamp hash =>
          have hasked := hrun
          rw [graft_stored] at hasked
          obtain ⟨read, middle, between, hload, -⟩ := Walk.run_load_inv h.home_eq hasked
          obtain ⟨again, hmoved, hloads⟩ := graft_stored_ok h hload
          rw [hmoved] at hrun
          rw [hloads]
          exact ⟨read.val, .loaded List.mem_cons_self, graft_lifts read.property hrun,
            fun _ ↦ (h.load hload).2.1⟩

/-! ## What hangs off a way -/

/-- The subtree stands at a place beside the way of a key, on which there are the references with
these loads. It is left alone if taking the key away leaves its branch with no value and with no
other node in its slots. -/
inductive Hangs : Node → List Nibble → List Load → List Nibble → Node → Prop → Prop where
  | ending {stamp occupied slots value loads slot} :
      Hangs (.branch stamp occupied slots value) [] loads [slot] (slots slot)
        (∀ other, (slots other).isNull = false → other = slot)
  | beside {stamp occupied slots value nibble rest loads slot} (hne : slot ≠ nibble) :
      Hangs (.branch stamp occupied slots value) (nibble :: rest) loads [slot] (slots slot)
        (value = none ∧ (slots nibble).Sole rest loads ∧
          ∀ other, (slots other).isNull = false → other = slot ∨ other = nibble)
  | parted {stamp first lead child key loads shared nibble left right}
      (hfork : fork (first :: lead) key = ⟨shared, nibble :: left, right⟩) :
      Hangs (.extension stamp first lead child) key loads (first :: lead) child False
  | slot {stamp occupied slots value nibble rest loads place sub alone}
      (hhangs : Hangs (slots nibble) rest loads place sub alone) :
      Hangs (.branch stamp occupied slots value) (nibble :: rest) loads (nibble :: place) sub alone
  | along {stamp first lead child key rest loads place sub alone}
      (hstrip : stripLead? (first :: lead) key = some rest)
      (hhangs : Hangs child rest loads place sub alone) :
      Hangs (.extension stamp first lead child) key loads (first :: lead ++ place) sub alone
  | found {stamp hash key heard loads place sub alone} {node : Resolved}
      (hhangs : Hangs node.val key loads place sub alone) :
      Hangs (.stored stamp hash) key (⟨hash, heard, .ok node⟩ :: loads) place sub alone

namespace Hangs

/-- The whole tree does not hang off a way. -/
theorem place_ne_nil (h : node.Hangs key loads place sub alone) : place ≠ [] := by
  induction h with
  | ending | beside | parted | slot | along => exact List.cons_ne_nil _ _
  | found _ ih => exact ih

/-- Nothing hangs off the way to a leaf that has nothing beside it. -/
theorem not_sole (h : node.Hangs key loads place sub alone) : ¬node.Sole key loads := by
  induction h with
  | ending | beside | slot => nofun
  | parted hfork =>
      rintro (_ | ⟨hstrip, -⟩ | _)
      rw [stripLead?_eq_some_iff.mp hstrip, fork_append] at hfork
      cases hfork
  | along hstrip _ ih =>
      rintro (_ | ⟨hstrip', hsole⟩ | _)
      cases hstrip.symm.trans hstrip'
      exact ih hsole
  | found _ ih =>
      rintro (_ | _ | hsole)
      exact ih hsole

/-- Below an extension whose path the key begins with, what hangs off hangs off in the child. -/
theorem of_along {stamp : Stamp} {child : Node}
    (hstrip : stripLead? (first :: lead) key = some rest)
    (h : (extension stamp first lead child).Hangs key loads place sub alone) :
    ∃ below, place = first :: lead ++ below ∧ child.Hangs rest loads below sub alone := by
  cases h with
  | parted hfork =>
      rw [stripLead?_eq_some_iff.mp hstrip, fork_append] at hfork
      cases hfork
  | along hstrip' hhangs =>
      cases hstrip.symm.trans hstrip'
      exact ⟨_, rfl, hhangs⟩

/-- One node is left alone at most. -/
theorem place_eq {other : List Nibble} {more : Node} {sole : Prop}
    (h : node.Hangs key loads place sub alone) (hnull : sub.isNull = false) (halone : alone)
    (h' : node.Hangs key loads other more sole) (hnull' : more.isNull = false) (hsole : sole) :
    place = other := by
  induction h generalizing other with
  | ending =>
      cases h' with
      | ending => rw [halone _ hnull']
  | beside hne =>
      obtain ⟨-, hthere, hothers⟩ := halone
      cases h' with
      | beside hne' => rw [(hothers _ hnull').resolve_right hne']
      | slot hhangs => exact absurd hthere hhangs.not_sole
  | parted => exact halone.elim
  | slot hhangs ih =>
      cases h' with
      | beside => exact absurd hsole.2.1 hhangs.not_sole
      | slot hhangs' => rw [ih hnull halone hhangs']
  | along hstrip _ ih =>
      obtain ⟨below, rfl, hhangs'⟩ := of_along hstrip h'
      rw [ih hnull halone hhangs']
  | found _ ih =>
      cases h' with
      | found hhangs' => exact ih hnull halone hhangs'

end Hangs

/-! ## Giving a key a value -/

/-- After a parting the node of the old side stands where it stood, if the new side does not begin
alike. -/
theorem part_at {shared : List Nibble} {old : Node} {new : Side} {parted : Node}
    (hrun : (part shared (.onward nibble old) new).run loader store = (.ok parted, later, after))
    (hapart : new.head? ≠ some nibble) (hsub : old.At place sub) :
    parted.At (shared ++ nibble :: place) sub := by
  have hslot : (new.place ((Side.onward nibble old).place .empty)).node nibble = old := by
    cases new with
    | ending => rw [Side.place_ending, Side.place_onward, Slots.node_set, if_pos rfl]
    | onward other more =>
        have hne : nibble ≠ other := fun heq ↦ hapart (congrArg some heq.symm)
        rw [Side.place_onward, Slots.node_set, if_neg hne, Side.place_onward, Slots.node_set,
          if_pos rfl]
  have hbranch : ∀ stamp own, (Node.ofSlots stamp
      (new.place ((Side.onward nibble old).place .empty)) own).At (nibble :: place) sub := by
    intro stamp own
    refine .slot ?_
    rw [hslot]
    exact hsub
  cases shared with
  | nil =>
      cases hrun
      exact hbranch _ _
  | cons first shared =>
      cases hrun
      exact .along (hbranch _ _)

/-- The child of an extension that a key leaves stands where it stood, after the parting. -/
theorem insert_outside_at {stamp : Stamp} {child : Node} {shared left right : List Nibble}
    (hfork : fork (first :: lead) key = ⟨shared, nibble :: left, right⟩)
    (hrun : ((extension stamp first lead child).insert key value).run loader store =
      (.ok updated, later, after)) : updated.At (first :: lead) child := by
  rw [insert_outside stamp nibble value hfork] at hrun
  obtain ⟨old, middle, between, hold, hrun⟩ := Walk.run_bind_ok hrun
  obtain ⟨new, last, other, hnew, hpart⟩ := Walk.run_bind_ok hrun
  have hhead : new.head? = right.head? := by
    cases right <;> cases hnew <;> rfl
  have hapart : new.head? ≠ some nibble := by
    rw [hhead]
    intro heq
    exact fork_parts (first :: lead) key (by rw [hfork, List.head?_cons]) (by rw [hfork, heq]) rfl
  rw [(eq_append_of_fork hfork).1]
  cases left with
  | nil =>
      cases hold
      exact part_at hpart hapart .here
  | cons second left =>
      cases hold
      have hchild : ∀ stamp, (extension stamp second left child).At (second :: left ++ []) child :=
        fun stamp ↦ .along .here
      rw [List.append_nil] at hchild
      exact part_at hpart hapart (hchild _)

/-- Giving a key a value leaves what hangs off its way where it is, the very nodes. -/
theorem insert_keeps (h : (⟨loader, node⟩ : BackedTrie).Lawful)
    (hrun : (node.insert key value).run loader store = (.ok updated, later, after))
    (hhangs : node.Hangs key ((node.find? key).loads loader store) place sub alone) :
    updated.At place sub := by
  induction node, key using Node.insert.induct
    generalizing loader store updated later after place with
  | case1 | case2 | case3 => cases hhangs
  | case4 stamp first lead child key shared rest hfork hlt ih =>
      have hchild : (⟨loader, child⟩ : BackedTrie).Lawful := h.child
      have hstrip := stripLead?_eq_some_iff.mpr (eq_append_of_fork_nil hfork)
      rw [insert_within stamp value hfork] at hrun
      rw [find?_extension, hstrip] at hhangs
      obtain ⟨below, middle, between, hinsert, hsince, -, hgraft⟩ := insert_below hchild hrun
      obtain ⟨way, rfl, hbelow⟩ := hhangs.of_along hstrip
      exact (graft_lifts hsince.new.isStored_eq hgraft).at_append hbelow.place_ne_nil
        (ih hchild hinsert hbelow)
  | case5 stamp first lead child key shared nibble left right hfork =>
      cases hhangs with
      | parted => exact insert_outside_at hfork hrun
      | along hstrip =>
          rw [stripLead?_eq_some_iff.mp hstrip, fork_append] at hfork
          cases hfork
  | case6 stamp occupied slots own =>
      rw [insert_branch_nil] at hrun
      cases hrun
      cases hhangs with
      | ending => exact .slot .here
  | case7 stamp occupied slots own nibble rest ih =>
      have hslot : (⟨loader, slots nibble⟩ : BackedTrie).Lawful := h.slot nibble
      rw [insert_branch_cons] at hrun
      rw [find?_branch_cons] at hhangs
      obtain ⟨below, middle, between, hinsert, -, -, hbranch⟩ := insert_below hslot hrun
      cases hbranch
      cases hhangs with
      | beside hne =>
          refine .slot ?_
          rw [Slots.node_set, if_neg hne]
          exact .here
      | slot hbelow =>
          refine .slot ?_
          rw [Slots.node_set, if_pos rfl]
          exact ih hslot hinsert hbelow
  | case8 stamp hash key ih =>
      rw [insert_stored] at hrun
      rw [find?_stored] at hhangs
      obtain ⟨read, middle, between, hload, hrest⟩ := Walk.run_load_inv h.home_eq hrun
      obtain ⟨hread, -⟩ := h.load hload
      rw [Walk.loads_load_ok h.home_eq hload] at hhangs
      obtain ⟨below, last, other, hinsert, -, -, hpure⟩ := insert_below hread hrest
      cases hpure
      cases hhangs with
      | found hbelow => exact ih read hread hinsert hbelow

end Patricia.Node
