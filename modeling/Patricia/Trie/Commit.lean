import Patricia.Trie.Backed

/-!
# Committing a trie

A commit writes every node that is not in the store yet and makes the root a reference. Nodes
that their parent writes in place are not written on their own, but the root always is, so the
trie can be opened again from its hash. References are not followed: what is below them is in the
store already.

`Node.gather` gives the form a node takes in its parent and the nodes to be written, children
before parents. `BackedTrie.commit` writes them and puts them into the cache in the same order.
-/

namespace Patricia

/-- A node to be written: its hash, its written form, and the node itself with references for the
children that are written on their own. -/
structure Outgoing where
  hash : Hash
  rlp : Bytes
  node : Resolved

/-- What is written for an outgoing node. -/
def Outgoing.entry (outgoing : Outgoing) : Entry :=
  (outgoing.hash, outgoing.rlp)

namespace Node

/-- The form that a node takes in its parent, after the nodes below it: itself if it is short, and
else a reference with the given stamp, when the node is to be written as well. -/
def post (reference : Stamp) (node : Resolved) (below : List Outgoing) : Node × List Outgoing :=
  let rlp := node.val.encoding
  if rlp.length < 32 then (node.val, below)
  else
    let hash := keccak256 rlp
    (.stored reference hash, below ++ [⟨hash, rlp, node⟩])

/-- The form that a node takes in its parent and the nodes to be written for it, children before
parents and slots in order. A node is made anew, under the stamp `made`, only if one of its
children takes another form. The references get the stamp `reference`; both stamps are completed
by the place in the tree. -/
def gather (made reference : Stamp) (position : List Nat) : Node → Node × List Outgoing
  | .null => (.null, [])
  | .stored stamp hash => (.stored stamp hash, [])
  | .leaf stamp path value => post { reference with position } ⟨.leaf stamp path value, rfl⟩ []
  | .extension stamp first rest child =>
      let (form, below) := gather made reference (position ++ [0]) child
      let node : Resolved :=
        if form.same child then ⟨.extension stamp first rest child, rfl⟩
        else ⟨.extension { made with position } first rest form, rfl⟩
      post { reference with position } node below
  | .branch stamp occupied slots value =>
      let table := Vector.ofFn fun slot ↦
        gather made reference (position ++ [slot.val]) (slots slot)
      let below := table.toList.flatMap (·.2)
      let node : Resolved :=
        if (List.finRange 16).all fun slot ↦ table[slot].1.same (slots slot) then
          ⟨.branch stamp occupied slots value, rfl⟩
        else ⟨.branch { made with position } occupied (fun slot ↦ table[slot].1) value, rfl⟩
      post { reference with position } node below

end Node

namespace BackedTrie

variable {σ : Type} [NodeStore σ]

/-- The nodes that a commit writes, in order, and the trie after giving out their stamps. A root
that is short is written under its own hash. -/
def outgoing (trie : BackedTrie) : List Outgoing × BackedTrie :=
  let rootHash := trie.rootHash
  let (made, loader) := trie.loader.issue
  let (reference, loader) := loader.issue
  let (form, below) := trie.root.gather made reference []
  let outgoing :=
    if h : form.isStored = false then below ++ [⟨rootHash, form.encoding, ⟨form, h⟩⟩] else below
  (outgoing, { trie with loader })

/-- Write every new node to the store and return the root hash. If the store fails, the root stays
as it is. -/
def commit (trie : BackedTrie) (store : σ) : Except Failure Hash × BackedTrie × σ :=
  let rootHash := trie.rootHash
  if trie.root.isNull || trie.root.isStored then (.ok rootHash, trie, store)
  else
    let (outgoing, trie) := trie.outgoing
    match NodeStore.putAll store (outgoing.map Outgoing.entry) with
    | (.error error, store) => (.error (.error error), trie, store)
    | (.ok (), store) =>
        let loader :=
          outgoing.foldl (fun loader node ↦ loader.retain node.hash node.node) trie.loader
        let (root, loader) := loader.refer rootHash
        (.ok rootHash, ⟨loader, root⟩, store)

end BackedTrie

end Patricia
