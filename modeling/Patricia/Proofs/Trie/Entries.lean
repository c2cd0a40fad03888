import Patricia.Proofs.Trie.Interrupted

/-!
# The entries of a commit

A commit hands to the store one entry for each node in memory whose form is long, and one for the
root, children before parents and the root last (`Commons.commit_entries`). Nodes are told apart by
their places, so that equal subtrees count as often as they occur. The root becomes a reference, and
another commit of it writes nothing.
-/

namespace Patricia

namespace Node

/-- The child at a number of a node in memory. The child of an extension is at 0 and a slot of a
branch at its own number. -/
def child? : Node → Nat → Option Node
  | .extension _ _ _ child, number => if number = 0 then some child else none
  | .branch _ _ slots _, number => if h : number < 16 then some (slots ⟨number, h⟩) else none
  | .null, _ | .leaf .., _ | .stored .., _ => none

/-- The node at a place of a tree, as far as it is in memory. -/
def at? : Node → List Nat → Option Node
  | node, [] => some node
  | node, number :: place => (node.child? number).bind fun child ↦ child.at? place

/-- The parts of a tree as parts of a parent that has the tree at a number. -/
def placed (number : Nat) (parts : List (List Nat × Node)) : List (List Nat × Node) :=
  parts.map fun part ↦ (number :: part.1, part.2)

/-- The nodes of a tree that are in memory and have a form, with their places, children before
parents and slots in order. -/
def inMemory : Node → List (List Nat × Node)
  | .null | .stored .. => []
  | .leaf stamp path value => [([], .leaf stamp path value)]
  | .extension stamp first rest child =>
      placed 0 child.inMemory ++ [([], .extension stamp first rest child)]
  | .branch stamp occupied slots value =>
      ((List.finRange 16).flatMap fun slot ↦ placed slot.val (slots slot).inMemory) ++
        [([], .branch stamp occupied slots value)]

/-- Nothing comes before what is below it, and nothing comes twice. -/
def ChildrenFirst {β : Type} (parts : List (List Nat × β)) : Prop :=
  parts.Pairwise fun earlier later ↦ ¬earlier.1 <+: later.1

/-- What a commit writes of a tree: the places and the forms of the long nodes in memory and of the
root, children before parents and the root last. -/
structure Dues (root : Node) (parts : List (List Nat × Bytes)) : Prop where
  mem_iff : ∀ place rlp, (place, rlp) ∈ parts ↔ ∃ node, root.at? place = some node ∧
    node.rlp = .ok rlp ∧ (32 ≤ rlp.length ∨ place = [])
  order : ChildrenFirst parts
  last : ∃ below rlp, parts = below ++ [([], rlp)]

variable {root node part : Node} {number : Nat} {place : List Nat} {parts : List (List Nat × Node)}

/-- What is placed at a number is below it. -/
theorem mem_placed : (place, part) ∈ placed number parts ↔
    ∃ rest, place = number :: rest ∧ (rest, part) ∈ parts := by
  simp only [placed, List.mem_map, Prod.exists, Prod.mk.injEq]
  constructor
  · rintro ⟨rest, _, hmem, rfl, rfl⟩
    exact ⟨rest, rfl, hmem⟩
  · rintro ⟨rest, rfl, hmem⟩
    exact ⟨rest, part, hmem, rfl, rfl⟩

/-- The parts of a branch are those of its slots, each at the number of the slot. -/
theorem mem_placed_slots {slots : Nibble → List (List Nat × Node)} :
    (place, part) ∈ ((List.finRange 16).flatMap fun slot ↦ placed slot.val (slots slot)) ↔
      ∃ slot rest, place = slot.val :: rest ∧ (rest, part) ∈ slots slot := by
  simp only [List.mem_flatMap, List.mem_finRange, true_and, mem_placed]

/-- What is placed at a number is not the root. -/
theorem ne_nil_of_mem_placed {part : List Nat × Node} (h : part ∈ placed number parts) :
    part.1 ≠ [] := by
  obtain ⟨rest, hrest, -⟩ := mem_placed.mp h
  exact hrest ▸ List.cons_ne_nil number rest

/-- What is placed at the slots of a branch is not the root. -/
theorem ne_nil_of_mem_slots {slots : Nibble → List (List Nat × Node)} {part : List Nat × Node}
    (h : part ∈ (List.finRange 16).flatMap fun slot ↦ placed slot.val (slots slot)) :
    part.1 ≠ [] := by
  obtain ⟨slot, -, hpart⟩ := List.mem_flatMap.mp h
  exact ne_nil_of_mem_placed hpart

/-- The nodes in memory are those below the root and then the root. -/
theorem inMemory_eq (hformed : root.isFormed = true) :
    ∃ below, root.inMemory = below ++ [([], root)] ∧ ∀ part ∈ below, part.1 ≠ [] := by
  cases root with
  | leaf => exact ⟨[], rfl, List.forall_mem_nil _⟩
  | extension => exact ⟨_, rfl, fun _ ↦ ne_nil_of_mem_placed⟩
  | branch => exact ⟨_, rfl, fun _ ↦ ne_nil_of_mem_slots⟩
  | null | stored => cases hformed

/-- The nodes in memory below a root are those of its children. -/
theorem mem_inMemory_cons : (number :: place, part) ∈ root.inMemory ↔
    ∃ child, root.child? number = some child ∧ (place, part) ∈ child.inMemory := by
  cases root with
  | null | stored | leaf => simp [inMemory, child?]
  | extension stamp first rest child =>
      rw [inMemory, List.mem_append, mem_placed, child?]
      grind
  | branch stamp occupied slots value =>
      rw [inMemory, List.mem_append, mem_placed_slots, child?]
      grind

/-- The nodes in memory are those that are found at some place and have a form. -/
theorem mem_inMemory : (place, part) ∈ root.inMemory ↔
    root.at? place = some part ∧ part.isFormed = true := by
  induction place generalizing root with
  | nil =>
      cases hformed : root.isFormed with
      | true =>
          obtain ⟨below, heq, hdeep⟩ := inMemory_eq hformed
          have hbelow : ([], part) ∉ below := fun hmem ↦ hdeep _ hmem rfl
          have hpart : root = part → part.isFormed = true := fun heq ↦ heq ▸ hformed
          have hself : root = part ↔ part = root := eq_comm
          simpa [heq, hbelow, at?, hself] using hpart
      | false =>
          cases root with
          | null | stored =>
              refine iff_of_false List.not_mem_nil ?_
              rintro ⟨⟨⟩, ⟨⟩⟩
          | leaf | extension | branch => cases hformed
  | cons number place ih =>
      rw [mem_inMemory_cons, at?]
      simp only [ih, Option.bind_eq_some_iff]
      grind

namespace ChildrenFirst

/-- Parts that are placed keep their order. -/
theorem placed (h : ChildrenFirst parts) (number : Nat) :
    ChildrenFirst (Node.placed number parts) := by
  rw [ChildrenFirst, Node.placed, List.pairwise_map]
  exact h.imp fun hpair hprefix ↦ hpair (List.cons_prefix_cons.mp hprefix).2

/-- The parts of the slots of a branch keep their order. -/
theorem slots {slots : Nibble → List (List Nat × Node)} (h : ∀ slot, ChildrenFirst (slots slot)) :
    ChildrenFirst ((List.finRange 16).flatMap fun slot ↦ Node.placed slot.val (slots slot)) := by
  refine List.pairwise_flatMap.mpr ⟨fun slot _ ↦ (h slot).placed slot.val, ?_⟩
  refine (List.nodup_finRange 16).imp fun hne earlier hearlier later hlater hprefix ↦ ?_
  obtain ⟨rest, hrest, -⟩ := mem_placed.mp hearlier
  obtain ⟨rest', hrest', -⟩ := mem_placed.mp hlater
  rw [hrest, hrest'] at hprefix
  exact hne (Fin.ext (List.cons_prefix_cons.mp hprefix).1)

/-- A node may come after what is below it. -/
theorem above (h : ChildrenFirst parts) (hbelow : ∀ part ∈ parts, part.1 ≠ []) (node : Node) :
    ChildrenFirst (parts ++ [([], node)]) := by
  refine List.pairwise_append.mpr ⟨h, List.pairwise_singleton _ _, ?_⟩
  intro earlier hearlier later hlater hprefix
  obtain rfl := List.mem_singleton.mp hlater
  exact hbelow earlier hearlier (List.prefix_nil.mp hprefix)

end ChildrenFirst

/-- The nodes in memory come children before parents. -/
theorem childrenFirst_inMemory (root : Node) : ChildrenFirst root.inMemory := by
  induction root with
  | null | stored => exact List.Pairwise.nil
  | leaf => exact List.pairwise_singleton _ _
  | extension stamp first rest child ih =>
      exact (ih.placed 0).above (fun _ ↦ ne_nil_of_mem_placed) _
  | branch stamp occupied slots value ih =>
      exact (ChildrenFirst.slots ih).above (fun _ ↦ ne_nil_of_mem_slots) _

/-- A part whose form is long. -/
def long (part : List Nat × Node) : Bool :=
  32 ≤ part.2.encoding.length

/-- The long nodes of a tree are those in memory. -/
theorem longParts_eq_inMemory (root : Node) :
    root.longParts = (root.inMemory.filter long).map Prod.snd := by
  have hplaced : ∀ number parts,
      ((placed number parts).filter long).map Prod.snd = (parts.filter long).map Prod.snd := by
    intro number parts
    rw [placed, List.filter_map, List.map_map]
    rfl
  have hself : ∀ node : Node, ([([], node)].filter long).map Prod.snd = node.whenLong := by
    intro node
    rw [whenLong]
    split
    · rename_i hshort
      rw [List.filter_singleton, long, decide_eq_false (Nat.not_le.mpr hshort)]
      rfl
    · rename_i hlong
      rw [List.filter_singleton, long, decide_eq_true (Nat.not_lt.mp hlong)]
      rfl
  induction root with
  | null | stored => rfl
  | leaf => exact (hself _).symm
  | extension stamp first rest child ih =>
      rw [longParts, inMemory, List.filter_append, List.map_append, hplaced, hself, ih]
  | branch stamp occupied slots value ih =>
      rw [longParts, inMemory, List.filter_append, List.map_append, hself, List.filter_flatMap,
        List.map_flatMap]
      simp only [hplaced, ih]

/-- The nodes that a commit takes are those in memory that are long, and the root. -/
theorem committed_eq_inMemory (hformed : root.isFormed = true) : root.committed =
    (root.inMemory.filter fun part ↦ long part || part.1.isEmpty).map Prod.snd := by
  obtain ⟨below, heq, hdeep⟩ := inMemory_eq hformed
  have hbelow : (below.filter fun part ↦ long part || part.1.isEmpty) = below.filter long := by
    refine List.filter_congr fun part hpart ↦ ?_
    simp [hdeep part hpart]
  rw [committed, longParts_eq_inMemory, heq, List.filter_append, List.filter_append, hbelow,
    List.map_append, List.map_append, List.append_assoc]
  congr 1
  -- Either the root is long, or it is taken as the root.
  by_cases hshort : root.encoding.length < 32
  · simp [hshort, long]
  · have hlong : long ([], root) = true := decide_eq_true (Nat.not_lt.mp hshort)
    simp [hshort, hlong]

/-- The root is taken last. -/
theorem committed_last (hformed : root.isFormed = true) :
    ∃ below, root.committed = below ++ [root] := by
  obtain ⟨below, hbelow, -⟩ := inMemory_eq hformed
  rw [committed_eq_inMemory hformed, hbelow, List.filter_append, List.map_append]
  exact ⟨_, congrArg _ (by simp)⟩

/-- The places and the forms of the nodes that a commit takes. -/
def dues (root : Node) : List (List Nat × Bytes) :=
  (root.inMemory.filter fun part ↦ long part || part.1.isEmpty).map fun part ↦
    (part.1, part.2.encoding)

/-- They are what a commit writes of a tree. -/
theorem dues_spec (hformed : root.isFormed = true) : root.Dues root.dues := by
  refine ⟨fun place rlp ↦ ?_, ?_, ?_⟩
  · simp only [dues, List.mem_map, List.mem_filter, Prod.exists, Prod.mk.injEq, mem_inMemory]
    constructor
    · rintro ⟨_, node, ⟨⟨hat, hnode⟩, htaken⟩, rfl, rfl⟩
      refine ⟨node, hat, rlp_eq_encoding (isStored_of_formed hnode), ?_⟩
      simpa [long] using htaken
    · rintro ⟨node, hat, hrlp, htaken⟩
      have hnode : node.isFormed = true := by
        cases node with
        | leaf | extension | branch => rfl
        | stored => cases hrlp
        | null =>
            -- An empty tree is short, so it is taken as the root only.
            cases hrlp
            obtain rfl := htaken.resolve_left (by decide)
            cases hat
            exact hformed
      obtain rfl : node.encoding = rlp :=
        Except.ok.inj ((rlp_eq_encoding (isStored_of_formed hnode)).symm.trans hrlp)
      refine ⟨place, node, ⟨⟨hat, hnode⟩, ?_⟩, rfl, rfl⟩
      simpa [long] using htaken
  · rw [ChildrenFirst, dues, List.pairwise_map]
    exact (childrenFirst_inMemory root).filter _
  · obtain ⟨below, heq, -⟩ := inMemory_eq hformed
    refine ⟨(below.filter fun part ↦ long part || part.1.isEmpty).map fun part ↦
      (part.1, part.2.encoding), root.encoding, ?_⟩
    rw [dues, heq, List.filter_append, List.map_append]
    simp

/-- A commit takes the nodes of these forms, each under its hash. -/
theorem committed_entries (hformed : root.isFormed = true) :
    root.committed.map (fun part ↦ (part.hash, part.encoding)) =
      root.dues.map fun due ↦ (keccak256 due.2, due.2) := by
  rw [committed_eq_inMemory hformed, dues, List.map_map, List.map_map]
  refine List.map_congr_left fun part hpart ↦ ?_
  have hpartFormed := (mem_inMemory.mp (List.mem_of_mem_filter hpart)).2
  rw [Function.comp_apply, hash_eq_keccak256 (isStored_of_formed hpartFormed)]
  rfl

end Node

namespace BackedTrie

variable {α : Type} {contents : Contents} {trie : BackedTrie}

/-- A commit of the trie gives the store the dues of the root, each under its hash, in one batch. If
the store takes them it gives the root hash, and the trie that it leaves has a reference with that
hash as its root, of which another commit writes nothing. If not, the root stays as it is. -/
structure Settles (trie : BackedTrie) (parts : List (List Nat × Bytes))
    (settled failed : BackedTrie) : Prop where
  dues : trie.root.Dues parts
  root_eq : ∃ stamp, settled.root = .stored stamp trie.rootHash
  failed_eq : failed.root = trie.root
  commit_eq : ∀ {σ : Type} [NodeStore σ] (store : σ), trie.commit store =
    match NodeStore.putAll store (parts.map fun part ↦ (keccak256 part.2, part.2)) with
    | (.error error, store) => (.error (.error error), failed, store)
    | (.ok (), store) => (.ok trie.rootHash, settled, store)
  repeat_eq : ∀ {σ : Type} [NodeStore σ] (store : σ),
    settled.commit store = (.ok trie.rootHash, settled, store)

/-- A moored trie with a formed root is committed so. -/
theorem Moored.settles (h : trie.Moored contents) (hformed : trie.root.isFormed = true) :
    ∃ parts settled failed, trie.Settles parts settled failed := by
  have hsincere : trie.root.All Node.Sincere := h.standing.kept.imp fun _ hnode ↦ hnode.1
  refine ⟨trie.root.dues,
    ⟨(trie.primed.refer trie.rootHash).2, (trie.primed.refer trie.rootHash).1⟩, trie.outgoing.2,
    Node.dues_spec hformed, ⟨_, rfl⟩, ?_, ?_, ?_⟩
  · rw [(outgoing_told hformed hsincere h.standing.issued).2.2]
  · intro σ _ store
    have hcommit := BackedTrie.commit_eq store hformed
    rw [outgoing_entries hformed hsincere h.standing.issued, Node.committed_entries hformed]
      at hcommit
    exact hcommit
  · intro σ _ store
    exact commit_of_not_formed store rfl

end BackedTrie

namespace Commons

variable {α : Type} [TrieValue α] {acts : List (Act α)}

/-- Tries that begin without entries share a store without entries, which fails at any times, and do
anything. A commit of one of them, to any store, then settles what is due of its root if that has a
form, and does nothing if the root is empty or a reference. It is assumed that the lengths of all
forms that were written fit in 64 bits. -/
theorem commit_entries (batches : Bool) (moods : Nat → Mood) (settings : Nat → Settings)
    (name : Nat)
    (hfits : ∀ bytes, (start (FitfulStore.empty batches moods) settings).Written acts bytes →
      bytes.length < 2 ^ 64) :
    let commons : Commons FitfulStore α :=
      (start (FitfulStore.empty batches moods) settings).after acts
    let trie := commons.tries name
    ((trie.root.isNull || trie.root.isStored) = false →
      ∃ parts settled failed, trie.Settles parts settled failed) ∧
    ((trie.root.isNull || trie.root.isStored) = true →
      ∀ {σ : Type} [NodeStore σ] (store : σ),
        trie.commit store = (.ok trie.rootHash, trie, store)) := by
  intro commons trie
  have hsecure : commons.Secure :=
    (Secure.start batches moods settings).after hfits List.prefix_rfl
  constructor
  · intro hroot
    exact (hsecure.moored name).settles (by simpa [Node.isFormed] using hroot)
  · intro hroot σ _ store
    exact BackedTrie.commit_of_not_formed store (by rw [Node.isFormed, ← Bool.not_or, hroot]; rfl)

/-- Three entries are put and committed. Then one is removed, so that the branch that is left over
for the others is read back below an extension. -/
def collapsing : List (Act Bytes) :=
  [.ask 0 (.change (.put [0x01] (List.replicate 40 0x07))),
    .ask 0 (.change (.put [0x11] (List.replicate 40 0x08))),
    .ask 0 (.change (.put [0x12] [0x09])), .ask 0 .commit, .ask 0 (.change (.remove [0x01]))]

/-- A trie without entries over a store that works. -/
def serviced : Commons FitfulStore Bytes :=
  start (.empty true fun _ ↦ .well) fun _ ↦ .standard

set_option maxRecDepth 100000 in
/-- The store has four entries. The next commit writes the branch, which is there already, and the
extension above it. -/
theorem collapsing_entries :
    (serviced.after collapsing).store.nodes.size = 4 ∧
      ((serviced.after collapsing).tries 0).root.dues.map Prod.fst = [[0], []] ∧
      ∃ parts settled failed,
        ((serviced.after collapsing).tries 0).Settles parts settled failed := by
  have hforms : (∀ bytes ∈ serviced.transcript collapsing, bytes.length < 2 ^ 64) ∧
      (serviced.after collapsing).store.nodes.size = 4 ∧
      ((serviced.after collapsing).tries 0).root.dues.map Prod.fst = [[0], []] ∧
      (((serviced.after collapsing).tries 0).root.isNull ||
        ((serviced.after collapsing).tries 0).root.isStored) = false := by
    decide +kernel
  obtain ⟨hfits, hsize, hdues, hroot⟩ := hforms
  refine ⟨hsize, hdues, ?_⟩
  exact (commit_entries true (fun _ ↦ .well) (fun _ ↦ .standard) 0
    fun bytes hwritten ↦ hfits bytes (written_iff.mp hwritten)).1 hroot

end Commons

end Patricia
