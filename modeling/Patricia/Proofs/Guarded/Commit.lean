import Patricia.Proofs.Guarded.Format
import Patricia.Proofs.Guarded.Update
import Patricia.Proofs.Trie.Lawful

/-!
# Requests with every precondition tested

A commit goes through the tree in memory, makes nodes over the forms of their children, asks them
for their forms and hashes, and puts them into the cache, where no reference may be. With every one
of these steps tested it does the same, if the nodes of the tree obey the rules for their kinds
(`Guarded.commit_eq`). So all requests do (`Guarded.attempt_eq`).
-/

namespace Patricia.Guarded

/-! ## What a commit gathers -/

/-- A node to be written: its hash, its written form, and the node itself. -/
structure Pending where
  hash : Hash
  rlp : Bytes
  committed : Node

/-- The written form, which a reference does not know. -/
def rlp (node : Node) : Except Failure Bytes :=
  if node.isStored then .error (.error (.unsupported .encodingOfStored))
  else ofBreach (encoding node)

/-- The form that a node takes in its parent, after the nodes below it. -/
def post (reference : Stamp) (node : Node) (below : List Pending) :
    Except Failure (Node × List Pending) := do
  let rlp ← ofBreach (encoding node)
  if rlp.length < 32 then return (node, below)
  else
    let hash ← ofBreach (hash node)
    return (.stored reference hash, below ++ [⟨hash, rlp, node⟩])

/-- The form that a node takes in its parent and the nodes to be written for it. The slots of a
branch are set anew, one after the other. -/
def gather (made reference : Stamp) (position : List Nat) :
    Node → Except Failure (Node × List Pending)
  | .null => .ok (.null, [])
  | .stored stamp hash => .ok (.stored stamp hash, [])
  | .leaf stamp path value => post { reference with position } (.leaf stamp path value) []
  | .extension stamp first rest child => do
      let (form, below) ← gather made reference (position ++ [0]) child
      let node ←
        if form.same child then pure (.extension stamp first rest child)
        else
          Node.withStamp { made with position } <$> ofBreach do
            Node.extensionOver (← Path.ofSymbols (Path.mk (first :: rest) false).symbols) form
      post { reference with position } node below
  | .branch stamp occupied slots value => do
      let gathered ← (List.finRange 16).mapM fun slot ↦
        gather made reference (position ++ [slot.val]) (slots slot)
      let children ← fill .ok .empty 0 (gathered.map (·.1))
      let node :=
        if (List.finRange 16).all fun slot ↦ (children.node slot).same (slots slot) then
          .branch stamp occupied slots value
        else .ofSlots { made with position } children value
      post { reference with position } node (gathered.flatMap (·.2))

/-- The nodes that a commit of a root writes, in order. -/
def outgoing (made reference : Stamp) (rootHash : Hash) (root : Node) :
    Except Failure (List Pending) := do
  let (form, below) ← gather made reference [] root
  if form.isStored then return below else return below ++ [⟨rootHash, ← rlp form, form⟩]

section Gather

variable {made reference stamp : Stamp} {node : Node} {position : List Nat}

/-- An outgoing node as it is. -/
def pending (outgoing : Outgoing) : Pending :=
  ⟨outgoing.hash, outgoing.rlp, outgoing.node.val⟩

/-- A node that is no reference takes a form in its parent. -/
theorem post_eq (node : Resolved) (below : List Outgoing) :
    post reference node.val (below.map pending) =
      .ok ((Node.post reference node below).1, (Node.post reference node below).2.map pending) := by
  rw [post, (encoding_eq node.val).1 node.property, hash_eq, Node.post,
    Node.hash_eq_keccak256 node.property]
  show (if node.val.encoding.length < 32 then _ else _) = _
  split
  · rfl
  · rw [List.map_append]
    rfl

/-- What has to be written of a branch is gathered from what is gathered of its slots. -/
theorem gather_branch {occupied : BitVec 16} {slots : Nibble → Node} {value : Option Bytes}
    {gathered : Nibble → Node × List Outgoing} (hsound : (Slots.mk occupied slots).Sound)
    (hnull : ∀ slot, (gathered slot).1.isNull = (slots slot).isNull)
    (h : ∀ slot : Nibble, gather made reference (position ++ [slot.val]) (slots slot) =
      .ok ((gathered slot).1, (gathered slot).2.map pending)) :
    gather made reference position (.branch stamp occupied slots value) =
      post { reference with position }
        (if (List.finRange 16).all fun slot ↦ (gathered slot).1.same (slots slot) then
          .branch stamp occupied slots value
        else .branch { made with position } occupied (fun slot ↦ (gathered slot).1) value)
        (((List.finRange 16).flatMap fun slot ↦ (gathered slot).2).map pending) := by
  have hparts : ((List.finRange 16).mapM fun slot ↦
      gather made reference (position ++ [slot.val]) (slots slot)) =
        .ok ((List.finRange 16).map fun slot ↦
          ((gathered slot).1, (gathered slot).2.map pending)) := by
    rw [funext h]
    exact List.mapM_pure
  -- The slots that are set anew are the forms, marked as the slots before them.
  have hfilled : fill .ok .empty 0 ((List.finRange 16).map fun slot ↦ (gathered slot).1) =
      .ok ⟨occupied, fun slot ↦ (gathered slot).1⟩ := by
    have hforms : (((List.finRange 16).map fun slot ↦ (gathered slot).1).mapM .ok :
        Except Failure (List Node)) =
          .ok ((List.finRange 16).map fun slot ↦ (gathered slot).1) := by
      rw [List.mapM_map]
      exact List.mapM_pure
    obtain ⟨hfilledSound, hnode⟩ := filled_spec Slots.empty_sound 0
      ((List.finRange 16).map fun slot ↦ (gathered slot).1) (by simp)
    rw [fill_eq (by simp), hforms]
    refine congrArg Except.ok (hfilledSound.eq_of_node_eq ?_ fun slot ↦ ?_)
    · simpa only [Slots.Sound, hnull] using hsound
    · rw [hnode, if_pos (Nat.zero_le _)]
      simp
  rw [gather, hparts]
  simp only [ok_bind, List.map_map, List.flatMap_map, Function.comp_def]
  rw [hfilled]
  simp only [ok_bind, List.map_flatMap]
  rfl

/-- All that a commit has to write of a tree is gathered, if the tree's nodes obey the rules. -/
theorem gather_eq (h : node.WellFormed) (position : List Nat) :
    gather made reference position node =
      .ok ((node.gather made reference position).1,
        (node.gather made reference position).2.map pending) := by
  induction node generalizing position with
  | null | stored => rfl
  | leaf stamp path value => exact post_eq ⟨.leaf stamp path value, rfl⟩ []
  | extension stamp first rest child ih =>
      rw [gather, ih h.2, Node.gather_extension]
      generalize child.gather made reference (position ++ [0]) = gathered
      obtain ⟨form, below⟩ := gathered
      rw [Path.ofSymbols_symbols]
      simp only [ok_bind]
      split
      · exact post_eq ⟨.extension stamp first rest child, rfl⟩ below
      · exact post_eq ⟨.extension { made with position } first rest form, rfl⟩ below
  | branch stamp occupied slots value ih =>
      rw [gather_branch h.1.1 (fun slot ↦ Node.isNull_gather made reference _ _)
        fun slot ↦ ih slot (h.2 slot) (position ++ [slot.val]),
        Node.gather_branch made reference stamp position occupied slots value _ fun _ ↦ rfl]
      rw [← post_eq]
      congr
      split <;> rfl

end Gather

/-! ## Commits -/

variable {σ : Type} [NodeStore σ] {α : Type} [TrieValue α] {trie : BackedTrie}

/-- Write every new node to the store, put it into the cache, and return the root hash. -/
def commit (trie : BackedTrie) (store : σ) : Except Failure Hash × BackedTrie × σ :=
  match hash trie.root with
  | .error breach => (.error (.breach breach), trie, store)
  | .ok rootHash =>
      if trie.root.isNull || trie.root.isStored then (.ok rootHash, trie, store)
      else
        let (made, loader) := trie.loader.issue
        let (reference, loader) := loader.issue
        let trie := { trie with loader }
        match outgoing made reference rootHash trie.root with
        | .error failure => (.error failure, trie, store)
        | .ok outgoing =>
            match NodeStore.putAll store (outgoing.map fun node ↦ (node.hash, node.rlp)) with
            | (.error error, store) => (.error (.error error), trie, store)
            | (.ok (), store) =>
                match outgoing.foldlM
                  (fun loader node ↦ loader.preload node.hash node.committed) trie.loader with
                | .error breach => (.error (.breach breach), trie, store)
                | .ok loader =>
                    let (root, loader) := loader.refer rootHash
                    (.ok rootHash, ⟨loader, root⟩, store)

/-- The nodes that a commit writes are those of the commit without tests. -/
theorem outgoing_eq (h : trie.root.WellFormed) :
    outgoing trie.loader.issue.1 trie.loader.issue.2.issue.1 trie.rootHash trie.root =
      .ok (trie.outgoing.1.map pending) := by
  rw [outgoing, gather_eq h, BackedTrie.outgoing]
  dsimp only
  generalize trie.root.gather trie.loader.issue.1 trie.loader.issue.2.issue.1 [] = gathered
  obtain ⟨form, below⟩ := gathered
  simp only [ok_bind]
  by_cases hstored : form.isStored = false
  · have hrlp : rlp form = .ok form.encoding := by
      rw [rlp, hstored, (encoding_eq form).1 hstored]
      rfl
    rw [dif_pos hstored, if_neg (Bool.eq_false_iff.mp hstored), hrlp, List.map_append]
    rfl
  · rw [dif_neg hstored, if_pos (Bool.eq_true_of_not_eq_false hstored)]
    rfl

omit [NodeStore σ] in
/-- No node that a commit writes is a reference, so all of them can be put into the cache. -/
theorem preload_eq (loader : Loader) (nodes : List Outgoing) :
    (nodes.map pending).foldlM (fun loader node ↦ loader.preload node.hash node.committed) loader =
      .ok (nodes.foldl (fun loader node ↦ loader.retain node.hash node.node) loader) := by
  induction nodes generalizing loader with
  | nil => rfl
  | cons node nodes ih =>
      have hpreload : loader.preload node.hash node.node.val =
          .ok (loader.retain node.hash node.node) := by
        rw [Loader.preload, dif_pos node.node.property]
      rw [List.map_cons, List.foldlM_cons]
      show (loader.preload node.hash node.node.val >>= _) = _
      rw [hpreload]
      exact ih _

/-- A commit with tests does what it does without them. -/
theorem commit_eq (h : trie.root.WellFormed) (store : σ) :
    commit trie store = trie.commit store := by
  rw [commit, hash_eq]
  cases hformed : trie.root.isFormed with
  | false =>
      have hdone : (trie.root.isNull || trie.root.isStored) = true := by
        simpa [Node.isFormed, or_comm, imp_iff_or_not] using hformed
      rw [BackedTrie.commit_of_not_formed store hformed]
      exact if_pos hdone
  | true =>
      have hopen : ¬(trie.root.isNull || trie.root.isStored) = true := by
        simpa [Node.isFormed] using hformed
      have houtgoing := outgoing_eq h
      rw [BackedTrie.commit_eq store hformed]
      dsimp only
      rw [if_neg hopen]
      rw [BackedTrie.rootHash] at houtgoing
      rw [houtgoing]
      dsimp only
      rw [List.map_map]
      show (match NodeStore.putAll store (trie.outgoing.1.map Outgoing.entry) with
        | (.error error, store) => _
        | (.ok (), store) => _) = _
      generalize NodeStore.putAll store (trie.outgoing.1.map Outgoing.entry) = written
      obtain ⟨_ | _, after⟩ := written
      · rfl
      · dsimp only
        rw [preload_eq]
        rfl

/-! ## Requests -/

/-- The value of a key. -/
def read (node : Node) (key : Bytes) : Walk (Option α) := do
  match ← find? node (Path.ofKey key).symbols with
  | none => return none
  | some bytes => return some (← Walk.ofExcept (TrieValue.decode bytes))

/-- The tree after a change. A value whose encoding is empty removes the key. -/
def change (node : Node) : Change α → Walk Node
  | .put key value =>
      let bytes := TrieValue.encode value
      if bytes.isEmpty then erase node (Path.ofKey key).symbols
      else insert node (Path.ofKey key).symbols bytes
  | .remove key => erase node (Path.ofKey key).symbols

/-- What a trie makes of a request, and the trie and the store afterwards. -/
def attempt (trie : BackedTrie) (store : σ) :
    Request α → Except Failure (Reply α) × BackedTrie × σ
  | .change update =>
      BackedTrie.answered (fun _ ↦ .done) (trie.update store (change trie.root update))
  | .get key => BackedTrie.answered .value (trie.perform store (read trie.root key))
  | .commit => BackedTrie.answered .hash (commit trie store)
  | .unload node => (.ok .done, trie.unload node, store)
  | .unloadRoot => (.ok .done, trie.unloadRoot, store)
  | .reopen owner settings =>
      match commit trie store with
      | (.ok hash, _, store) =>
          (.ok (.hash hash),
            BackedTrie.openAt (.new owner settings.cacheCapacity settings.positive) hash, store)
      | (.error failure, trie, store) => (.error failure, trie, store)

/-- A read with tests is the read without them. -/
theorem read_eq (node : Node) (key : Bytes) :
    (read node key : Walk (Option α)) = node.read key := by
  rw [read, Path.ofKey, find?_eq]
  rfl

/-- A change with tests is the change without them. -/
theorem change_eq (node : Node) (update : Change α) :
    change node update = node.change update := by
  have herase := fun key : Bytes ↦ erase_eq node key.nibbles
  have hinsert := fun key : Bytes ↦ insert_eq node key.nibbles
  cases update with
  | put key value =>
      simp only [change, Path.ofKey, herase, hinsert, Node.change, Node.write, Node.remove]
  | remove key => simp only [change, Path.ofKey, herase, Node.change, Node.remove]

/-- A request with tests does what it does without them. -/
theorem attempt_eq (h : trie.root.WellFormed) (store : σ) (request : Request α) :
    attempt trie store request = trie.attempt store request := by
  cases request with
  | change update => rw [attempt, change_eq, BackedTrie.attempt_change]
  | get key => rw [attempt, BackedTrie.attempt, BackedTrie.find?, read_eq]
  | commit => rw [attempt, BackedTrie.attempt, commit_eq h]
  | unload | unloadRoot => rfl
  | reopen owner settings =>
      rw [attempt, commit_eq h]
      rfl

end Patricia.Guarded
