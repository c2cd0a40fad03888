import Patricia.Proofs.Format.Legible
import Patricia.Proofs.Node.Instance
import Patricia.Trie.Commit

/-!
# What a commit gathers

The nodes that a commit writes are those in memory whose forms are long (`Node.longParts`). Each is
written under its hash in its own form, as the node with references for its long subtrees, and the
tree that was gathered takes the form that its parent's form tells of it
(`Node.gather_gathers`). All of this supposes that the nodes in memory are written as they would be
anew from their parts, which is not so of every node that was read from bytes.
-/

namespace Patricia

/-- What is told by a node to be written: its hash, its form and its content. -/
def Outgoing.told (outgoing : Outgoing) : Hash × Bytes × Node :=
  (outgoing.hash, outgoing.rlp, outgoing.node.val.plain)

/-- A stamp of an owner was given out between two numbers, and not for a node read from bytes. -/
structure Stamp.Fresh (owner bound later : Nat) (stamp : Stamp) : Prop where
  owner_eq : stamp.owner = owner
  source_eq : stamp.source = none
  le_serial : bound ≤ stamp.serial
  serial_lt : stamp.serial < later

namespace Stamp.Fresh

variable {owner bound later : Nat} {stamp : Stamp}

/-- A new stamp may be put at any position. -/
theorem at_position (h : stamp.Fresh owner bound later) (position : List Nat) :
    Fresh owner bound later { stamp with position } :=
  ⟨h.owner_eq, h.source_eq, h.le_serial, h.serial_lt⟩

/-- The owner gave it out before the later number. -/
theorem issued (h : stamp.Fresh owner bound later) :
    stamp.owner = owner ∧ stamp.serial < later :=
  ⟨h.owner_eq, h.serial_lt⟩

/-- The numbers do not decrease. -/
theorem le (h : stamp.Fresh owner bound later) : bound ≤ later :=
  Nat.le_of_lt (Nat.lt_of_le_of_lt h.le_serial h.serial_lt)

end Stamp.Fresh

/-- A node to be written is sincere throughout and was given out by its owner. -/
structure Outgoing.Sincere (owner later : Nat) (outgoing : Outgoing) : Prop where
  sincere : outgoing.node.val.All Node.Sincere
  issued : outgoing.node.val.Issued owner later

namespace Node

/-- The node alone, if its form is long. -/
def whenLong (node : Node) : List Node :=
  if node.encoding.length < 32 then [] else [node]

/-- The nodes of a tree that are in memory and whose forms are long, children before parents and
slots in order. -/
def longParts : Node → List Node
  | .null | .stored .. => []
  | .leaf stamp path value => (Node.leaf stamp path value).whenLong
  | .extension stamp first rest child =>
      child.longParts ++ (Node.extension stamp first rest child).whenLong
  | .branch stamp occupied slots value =>
      (List.finRange 16).flatMap (fun slot ↦ (slots slot).longParts) ++
        (Node.branch stamp occupied slots value).whenLong

/-- The nodes of a tree that a commit writes: the long ones, and the root in any case. -/
def committed (root : Node) : List Node :=
  root.longParts ++ if root.encoding.length < 32 then [root] else []

/-- What is written for a node: its hash, its form and the node in short. -/
def told (node : Node) : Hash × Bytes × Node :=
  (node.hash, node.encoding, node.abridged)

/-- What is gathered of a tree: the form it takes in its parent is what the parent's form tells of
it, is written like it and is itself or new, and the nodes to be written are its long ones. -/
structure Gathers (owner bound later : Nat) (node : Node) (gathered : Node × List Outgoing) :
    Prop where
  plain_eq : gathered.1.plain = node.cited
  reference_eq : gathered.1.reference = node.reference
  unchanged : gathered.1 = node ∨ bound ≤ gathered.1.stamp.serial
  sincere : gathered.1.All Sincere
  issued : gathered.1.Issued owner later
  told_eq : gathered.2.map Outgoing.told = node.longParts.map told
  outgoing : ∀ outgoing ∈ gathered.2, outgoing.Sincere owner later

variable {owner bound later : Nat} {node child part : Node} {gathered : Node × List Outgoing}

/-- A form that is the same instance as the node is the node. -/
theorem Gathers.eq_of_same (h : node.Gathers owner bound later gathered)
    (hissued : node.Issued owner bound) (hsame : gathered.1.same node = true) :
    gathered.1 = node := by
  rcases h.unchanged with heq | hle
  · exact heq
  · cases hnull : node.isNull with
    | true =>
        generalize gathered.1 = form at hsame
        cases node <;> cases form <;> simp_all [same, isNull]
    | false =>
        have hserial := stamp_of_same hsame hnull
        have hlt := (hissued.self hnull).2
        omega

/-- A node that is written as another one and tells the same is gathered like it. -/
theorem post_gathers {reference : Stamp} (hreference : reference.Fresh owner bound later)
    (made : Resolved) (below : List Outgoing) (parts : List Node)
    (hformed : node.isFormed = true) (hplain : made.val.plain = node.abridged)
    (hencoding : made.val.encoding = node.encoding)
    (hnew : made.val = node ∨ bound ≤ made.val.stamp.serial) (hsincere : made.val.All Sincere)
    (hissued : made.val.Issued owner later)
    (hparts : node.longParts = parts ++ node.whenLong)
    (hbelow : below.map Outgoing.told = parts.map told)
    (houtgoing : ∀ outgoing ∈ below, outgoing.Sincere owner later) :
    node.Gathers owner bound later (post reference made below) := by
  have hstored : node.isStored = false := by
    cases node with
    | stored => cases hformed
    | null | leaf | extension | branch => rfl
  rw [post, hencoding]
  -- A short node stays in its parent's form, a long one goes out and leaves a reference.
  by_cases hshort : node.encoding.length < 32
  · rw [if_pos hshort]
    have hreference : made.val.reference = node.reference := by
      rw [reference_of_short hstored hshort, reference_of_short made.property (hencoding ▸ hshort),
        hencoding]
    refine ⟨?_, hreference, hnew, hsincere, hissued, ?_, houtgoing⟩
    · rw [hplain, cited, if_pos hshort]
    · rw [hbelow, hparts, whenLong, if_pos hshort, List.append_nil]
  · rw [if_neg hshort]
    have hhash : keccak256 node.encoding = node.hash := (hash_eq_keccak256 hstored).symm
    refine ⟨?_, ?_, Or.inr hreference.le_serial, rfl,
      fun _ ↦ hreference.issued, ?_, ?_⟩
    · rw [plain_stored, cited, if_neg hshort, hhash]
    · rw [reference_of_long (Nat.not_lt.mp hshort), hhash]
      rfl
    · rw [List.map_append, hbelow, hparts, whenLong, if_neg hshort, List.map_append, hhash]
      simp only [List.map_singleton, Outgoing.told, told, hplain]
    · intro outgoing hmem
      rcases List.mem_append.mp hmem with hmem | hmem
      · exact houtgoing outgoing hmem
      · rw [List.mem_singleton] at hmem
        subst hmem
        exact ⟨hsincere, hissued⟩

section Children

variable {made reference stamp : Stamp} (hmade : made.Fresh owner bound later)
  (hreference : reference.Fresh owner bound later)

include hmade hreference

/-- What is gathered of an extension is what has to be written of it, if that is so of its child. -/
theorem extension_gathers {first : Nibble} {rest : List Nibble} {form : Node}
    {below : List Outgoing} (hsincere : (extension stamp first rest child).All Sincere)
    (hissued : (extension stamp first rest child).Issued owner bound) (hle : bound ≤ later)
    (hchild : child.Gathers owner bound later (form, below)) :
    (extension stamp first rest child).Gathers owner bound later
      (post reference
        (if form.same child then ⟨.extension stamp first rest child, rfl⟩
        else ⟨.extension made first rest form, rfl⟩) below) := by
  have hplain : extension .blank first rest form.plain =
      (extension stamp first rest child).abridged := by
    rw [hchild.plain_eq]
    rfl
  -- An extension whose child is as it was goes out itself, so nothing is made for it.
  by_cases hsame : form.same child = true
  · obtain rfl : form = child := hchild.eq_of_same hissued.2 hsame
    rw [if_pos hsame]
    exact post_gathers hreference ⟨.extension stamp first rest form, rfl⟩ below form.longParts rfl
      ((plain_extension stamp first rest form).trans hplain) rfl (Or.inl rfl) hsincere
      (hissued.mono hle) rfl hchild.told_eq hchild.outgoing
  · rw [if_neg hsame]
    have hform : (extension made first rest form).encoding =
        (extension made first rest form).form := encoding_eq_form hmade.source_eq
    have hencoding : (extension made first rest form).encoding =
        (extension stamp first rest child).encoding := by
      rw [hform, hsincere.1]
      exact congrArg (extensionForm (first :: rest)) hchild.reference_eq
    exact post_gathers hreference ⟨.extension made first rest form, rfl⟩ below child.longParts rfl
      ((plain_extension made first rest form).trans hplain) hencoding (Or.inr hmade.le_serial)
      ⟨hform, hchild.sincere⟩ ⟨fun _ ↦ hmade.issued, hchild.issued⟩ rfl
      hchild.told_eq hchild.outgoing

/-- What is gathered of a branch is what has to be written of it, if that is so of its slots. -/
theorem branch_gathers {occupied : BitVec 16} {slots : Nibble → Node} {value : Option Bytes}
    {gathered : Nibble → Node × List Outgoing}
    (hsincere : (branch stamp occupied slots value).All Sincere)
    (hissued : (branch stamp occupied slots value).Issued owner bound) (hle : bound ≤ later)
    (hslots : ∀ slot, (slots slot).Gathers owner bound later (gathered slot)) :
    (branch stamp occupied slots value).Gathers owner bound later
      (post reference
        (if (List.finRange 16).all fun slot ↦ (gathered slot).1.same (slots slot) then
          ⟨.branch stamp occupied slots value, rfl⟩
        else ⟨.branch made occupied (fun slot ↦ (gathered slot).1) value, rfl⟩)
        ((List.finRange 16).flatMap fun slot ↦ (gathered slot).2)) := by
  have hplain : branch .blank occupied (fun slot ↦ (gathered slot).1.plain) value =
      (branch stamp occupied slots value).abridged := by
    rw [funext fun slot ↦ (hslots slot).plain_eq]
    rfl
  have htold : ((List.finRange 16).flatMap fun slot ↦ (gathered slot).2).map Outgoing.told =
      ((List.finRange 16).flatMap fun slot ↦ (slots slot).longParts).map told := by
    rw [List.map_flatMap, List.map_flatMap]
    exact List.flatMap_congr fun slot _ ↦ (hslots slot).told_eq
  have houtgoing : ∀ outgoing ∈ (List.finRange 16).flatMap fun slot ↦ (gathered slot).2,
      outgoing.Sincere owner later := by
    intro outgoing hmem
    obtain ⟨slot, -, hmem⟩ := List.mem_flatMap.mp hmem
    exact (hslots slot).outgoing outgoing hmem
  -- A branch whose slots are as they were goes out itself.
  by_cases hsame : ((List.finRange 16).all fun slot ↦ (gathered slot).1.same (slots slot)) = true
  · have heq : ∀ slot, (gathered slot).1 = slots slot := fun slot ↦
      (hslots slot).eq_of_same (hissued.2 slot)
        (List.all_eq_true.mp hsame slot (List.mem_finRange slot))
    rw [if_pos hsame]
    rw [funext fun slot ↦ congrArg plain (heq slot)] at hplain
    exact post_gathers hreference ⟨.branch stamp occupied slots value, rfl⟩ _ _ rfl
      ((plain_branch stamp occupied slots value).trans hplain) rfl (Or.inl rfl) hsincere
      (hissued.mono hle) rfl htold houtgoing
  · rw [if_neg hsame]
    have hform : (branch made occupied (fun slot ↦ (gathered slot).1) value).encoding =
        (branch made occupied (fun slot ↦ (gathered slot).1) value).form :=
      encoding_eq_form hmade.source_eq
    have hencoding : (branch made occupied (fun slot ↦ (gathered slot).1) value).encoding =
        (branch stamp occupied slots value).encoding := by
      rw [hform, hsincere.1]
      exact congrArg (branchForm · value) (funext fun slot ↦ (hslots slot).reference_eq)
    exact post_gathers hreference ⟨.branch made occupied (fun slot ↦ (gathered slot).1) value, rfl⟩
      _ _ rfl ((plain_branch made occupied _ value).trans hplain) hencoding
      (Or.inr hmade.le_serial) ⟨hform, fun slot ↦ (hslots slot).sincere⟩
      ⟨fun _ ↦ hmade.issued, fun slot ↦ (hslots slot).issued⟩ rfl htold
      houtgoing

end Children

/-- What is gathered of an extension comes from what is gathered of its child. -/
theorem gather_extension (made reference stamp : Stamp) (position : List Nat) (first : Nibble)
    (rest : List Nibble) (child : Node) :
    (extension stamp first rest child).gather made reference position =
      post { reference with position }
        (if (child.gather made reference (position ++ [0])).1.same child then
          ⟨.extension stamp first rest child, rfl⟩
        else ⟨.extension { made with position } first rest
          (child.gather made reference (position ++ [0])).1, rfl⟩)
        (child.gather made reference (position ++ [0])).2 :=
  rfl

/-- What is gathered of a branch comes from what is gathered of its slots. -/
theorem gather_branch (made reference stamp : Stamp) (position : List Nat) (occupied : BitVec 16)
    (slots : Nibble → Node) (value : Option Bytes) (gathered : Nibble → Node × List Outgoing)
    (h : ∀ slot : Nibble,
      (slots slot).gather made reference (position ++ [slot.val]) = gathered slot) :
    (branch stamp occupied slots value).gather made reference position =
      post { reference with position }
        (if (List.finRange 16).all fun slot ↦ (gathered slot).1.same (slots slot) then
          ⟨.branch stamp occupied slots value, rfl⟩
        else ⟨.branch { made with position } occupied (fun slot ↦ (gathered slot).1) value, rfl⟩)
        ((List.finRange 16).flatMap fun slot ↦ (gathered slot).2) := by
  have htable : (Vector.ofFn gathered).toList = (List.finRange 16).map gathered := by
    rw [Vector.toList_ofFn, List.ofFn_eq_map]
  have hgather : (branch stamp occupied slots value).gather made reference position =
      (fun table : Vector (Node × List Outgoing) 16 ↦
        post { reference with position }
          (if (List.finRange 16).all fun slot ↦ table[slot].1.same (slots slot) then
            ⟨.branch stamp occupied slots value, rfl⟩
          else ⟨.branch { made with position } occupied (fun slot ↦ table[slot].1) value, rfl⟩)
          (table.toList.flatMap (·.2)))
        (Vector.ofFn fun slot : Nibble ↦
          (slots slot).gather made reference (position ++ [slot.val])) := rfl
  rw [hgather, funext h]
  simp only [Fin.getElem_fin, Vector.getElem_ofFn, Fin.eta]
  rw [htable, List.flatMap_map]

/-- A node that is not empty does not leave its place in its parent empty. -/
theorem isNull_post (reference : Stamp) {node : Resolved} (h : node.val.isNull = false)
    (below : List Outgoing) : (post reference node below).1.isNull = false := by
  rw [post]
  split
  · exact h
  · rfl

/-- Only the empty tree leaves its place in its parent empty. -/
theorem isNull_gather (made reference : Stamp) (position : List Nat) (node : Node) :
    (node.gather made reference position).1.isNull = node.isNull := by
  cases node with
  | null | stored => rfl
  | leaf stamp path value => exact isNull_post _ rfl _
  | extension stamp first rest child =>
      rw [gather_extension]
      refine isNull_post _ ?_ _
      split <;> rfl
  | branch stamp occupied slots value =>
      rw [gather_branch made reference stamp position occupied slots value _ fun _ ↦ rfl]
      refine isNull_post _ ?_ _
      split <;> rfl

/-- What is gathered of a tree is what has to be written of it. -/
theorem gather_gathers {made reference : Stamp} (hmade : made.Fresh owner bound later)
    (hreference : reference.Fresh owner bound later) (hsincere : node.All Sincere)
    (hissued : node.Issued owner bound) (position : List Nat) :
    node.Gathers owner bound later (node.gather made reference position) := by
  have hle := hmade.le
  induction node generalizing position with
  | null => exact ⟨rfl, rfl, Or.inl rfl, hsincere, issued_null, rfl, List.forall_mem_nil _⟩
  | stored stamp hash =>
      refine ⟨?_, rfl, Or.inl rfl, hsincere, hissued.mono hle, rfl, List.forall_mem_nil _⟩
      have hlong : ¬(stored stamp hash).encoding.length < 32 := by
        rw [encoding, length_reference]
        decide
      rw [cited, if_neg hlong]
      rfl
  | leaf stamp path value =>
      exact post_gathers (hreference.at_position position) ⟨.leaf stamp path value, rfl⟩ [] [] rfl
        rfl rfl (Or.inl rfl) hsincere (hissued.mono hle) rfl rfl (List.forall_mem_nil _)
  | extension stamp first rest child ih =>
      exact extension_gathers (hmade.at_position position) (hreference.at_position position)
        hsincere hissued hle (ih hsincere.2 hissued.2 (position ++ [0]))
  | branch stamp occupied slots value ih =>
      rw [gather_branch made reference stamp position occupied slots value _ fun _ ↦ rfl]
      exact branch_gathers (hmade.at_position position) (hreference.at_position position) hsincere
        hissued hle fun slot ↦ ih slot (hsincere.2 slot) (hissued.2 slot) (position ++ [slot.val])

/-! ## The nodes that are written -/

/-- What holds of all nodes of a tree holds of all nodes of the part. -/
def PartOf (part whole : Node) : Prop :=
  ∀ p, whole.All p → part.All p

/-- Only a long node is taken when long. -/
theorem mem_whenLong : part ∈ node.whenLong ↔ part = node ∧ 32 ≤ node.encoding.length := by
  rw [whenLong]
  split
  · rename_i hshort
    simp [hshort]
  · rename_i hlong
    simp [Nat.not_lt.mp hlong]

/-- The root of a tree with a form is written by a commit. -/
theorem mem_committed (hformed : node.isFormed = true) : node ∈ node.committed := by
  rw [Node.committed]
  split
  · exact List.mem_append_right _ List.mem_cons_self
  · rename_i hlong
    have hself : node ∈ node.whenLong := mem_whenLong.mpr ⟨rfl, Nat.not_lt.mp hlong⟩
    rw [List.append_nil]
    cases node with
    | leaf => exact hself
    | extension | branch => exact List.mem_append_right _ hself
    | null | stored => cases hformed

/-- A long node of a tree has a form, and has what the tree has and children take over. -/
theorem longParts_inherit (r : Node → Prop)
    (hchild : ∀ {stamp first rest child}, r (extension stamp first rest child) → r child)
    (hslot : ∀ {stamp occupied slots value} (slot : Nibble),
      r (branch stamp occupied slots value) → r (slots slot))
    (h : r node) (hmem : part ∈ node.longParts) : part.isFormed = true ∧ r part := by
  induction node with
  | null | stored => cases hmem
  | leaf stamp path value =>
      obtain ⟨rfl, -⟩ := mem_whenLong.mp hmem
      exact ⟨rfl, h⟩
  | extension stamp first rest child ih =>
      rcases List.mem_append.mp hmem with hmem | hmem
      · exact ih (hchild h) hmem
      · obtain ⟨rfl, -⟩ := mem_whenLong.mp hmem
        exact ⟨rfl, h⟩
  | branch stamp occupied slots value ih =>
      rcases List.mem_append.mp hmem with hmem | hmem
      · obtain ⟨slot, -, hmem⟩ := List.mem_flatMap.mp hmem
        exact ih slot (hslot slot h) hmem
      · obtain ⟨rfl, -⟩ := mem_whenLong.mp hmem
        exact ⟨rfl, h⟩

/-- A node that a commit writes has a form and is a part of the tree. -/
theorem committed_partOf (hformed : node.isFormed = true) (hmem : part ∈ node.committed) :
    part.isFormed = true ∧ part.PartOf node := by
  rw [committed] at hmem
  rcases List.mem_append.mp hmem with hmem | hmem
  · refine longParts_inherit (·.PartOf node) ?_ ?_ ?_ hmem
    · exact fun hof p hp ↦ (hof p hp).2
    · exact fun slot hof p hp ↦ (hof p hp).2 slot
    · exact fun _ ↦ id
  · split at hmem
    · obtain rfl := List.mem_singleton.mp hmem
      exact ⟨hformed, fun _ ↦ id⟩
    · cases hmem

/-- A node with a form is cited as a reference exactly if it is long. -/
theorem isStored_cited (h : node.isFormed = true) :
    node.cited.isStored = decide (32 ≤ node.encoding.length) := by
  rw [cited]
  split
  · rename_i hshort
    rw [decide_eq_false (Nat.not_le.mpr hshort)]
    cases node with
    | leaf | extension | branch => rfl
    | null | stored => cases h
  · rename_i hlong
    rw [decide_eq_true (Nat.not_lt.mp hlong)]
    rfl

/-- A node that is written in its parent like a short one has the form of that one. -/
theorem encoding_eq_of_reference_eq {other : Node} (hstored : node.isStored = false)
    (hshort : other.encoding.length < 32) (h : node.reference = other.reference) :
    node.encoding = other.encoding := by
  rw [reference_of_short (isStored_of_short hshort) hshort] at h
  by_cases hlong : node.encoding.length < 32
  · rwa [reference_of_short hstored hlong] at h
  · rw [reference_of_long (Nat.not_lt.mp hlong)] at h
    have hlength := congrArg List.length h
    rw [length_reference] at hlength
    omega

end Node

/-- Two stamps that a loader gives out one after the other are fresh. -/
theorem Loader.fresh_issue (loader : Loader) :
    loader.issue.1.Fresh loader.owner loader.mint.next (loader.mint.next + 2) ∧
      loader.issue.2.issue.1.Fresh loader.owner loader.mint.next (loader.mint.next + 2) :=
  ⟨⟨rfl, rfl, Nat.le_refl _, Nat.lt_add_of_pos_right (by decide)⟩,
    ⟨rfl, rfl, Nat.le_succ _, Nat.lt_succ_self _⟩⟩

namespace BackedTrie

variable {trie : BackedTrie}

/-- A commit writes the long nodes of the tree in memory and the root. Two stamps are given out for
the nodes that are made. -/
theorem outgoing_told (hformed : trie.root.isFormed = true)
    (hsincere : trie.root.All Node.Sincere)
    (hissued : trie.root.Issued trie.loader.owner trie.loader.mint.next) :
    trie.outgoing.1.map Outgoing.told = trie.root.committed.map Node.told ∧
      (∀ outgoing ∈ trie.outgoing.1,
        outgoing.Sincere trie.loader.owner (trie.loader.mint.next + 2)) ∧
      trie.outgoing.2 = ⟨trie.loader.issue.2.issue.2, trie.root⟩ := by
  obtain ⟨hmade, hreference⟩ := trie.loader.fresh_issue
  have hgathers := Node.gather_gathers hmade hreference hsincere hissued []
  have hstored : (trie.root.gather trie.loader.issue.1 trie.loader.issue.2.issue.1 []).1.isStored =
      decide (32 ≤ trie.root.encoding.length) := by
    rw [← Node.isStored_plain, hgathers.plain_eq, Node.isStored_cited hformed]
  rw [outgoing]
  show (List.map Outgoing.told (dite _ _ _) = _ ∧ (∀ outgoing ∈ dite _ _ _, _) ∧ _)
  generalize trie.root.gather trie.loader.issue.1 trie.loader.issue.2.issue.1 [] = gathered
    at hgathers hstored ⊢
  obtain ⟨form, below⟩ := gathered
  -- A short root is not gathered with the long nodes and goes out last in any case.
  by_cases hshort : trie.root.encoding.length < 32
  · have hthere : form.isStored = false := by
      rw [hstored, decide_eq_false (Nat.not_le.mpr hshort)]
    have hencoding : form.encoding = trie.root.encoding :=
      Node.encoding_eq_of_reference_eq hthere hshort hgathers.reference_eq
    have hplain : form.plain = trie.root.abridged := by
      rw [hgathers.plain_eq, Node.cited, if_pos hshort]
    rw [dif_pos hthere, Node.committed, if_pos hshort, List.map_append, List.map_append,
      hgathers.told_eq, List.map_singleton, List.map_singleton]
    refine ⟨?_, ?_, rfl⟩
    · rw [Outgoing.told, Node.told, hencoding, hplain]
      rfl
    · intro outgoing hmem
      rcases List.mem_append.mp hmem with hmem | hmem
      · exact hgathers.outgoing outgoing hmem
      · rw [List.mem_singleton] at hmem
        subst hmem
        exact ⟨hgathers.sincere, hgathers.issued⟩
  · have hthere : ¬form.isStored = false := by
      rw [hstored, decide_eq_true (Nat.not_lt.mp hshort)]
      decide
    rw [dif_neg hthere, Node.committed, if_neg hshort, List.append_nil]
    exact ⟨hgathers.told_eq, hgathers.outgoing, rfl⟩

end BackedTrie

end Patricia
