import Patricia.Loader.Turns
import Patricia.Trie.Commit
import Patricia.Trie.InMemory

/-!
# Tries side by side

A `Forest` is a store and any number of named tries, some in memory and some over the store. Each
trie has an owner of its own, so that the instances of one trie are never taken for those of
another, and a reference finds the loader it belongs to as long as that trie stands.
-/

namespace Patricia

/-- A trie in memory or over the store. -/
inductive Tree where
  | memory (trie : MemoryTrie)
  | backed (trie : BackedTrie)

namespace Tree

variable {σ : Type} [NodeStore σ] {α : Type}

/-- The root of a trie. -/
def root : Tree → Node
  | .memory trie => trie.root
  | .backed trie => trie.root

/-- The loader of a trie over the store. -/
def loader? : Tree → Option Loader
  | .memory _ => none
  | .backed trie => some trie.loader

/-- A blank tree of nodes as the trie's own instances. -/
def adopt (tree : Tree) (node : Node) : Node × Tree :=
  match tree with
  | .memory trie =>
      let (stamp, mint) := trie.mint.issue
      (node.issue stamp.owner stamp.serial, .memory { trie with mint })
  | .backed trie =>
      let (node, trie) := trie.adopt node
      (node, .backed trie)

/-- The outcome of a walk over the trie's nodes. -/
def perform (tree : Tree) (store : σ) (walk : Walk α) : Except Failure α × Tree × σ :=
  match tree with
  | .memory trie =>
      let (outcome, mint) := Walk.runAlone trie.mint walk
      (outcome, .memory { trie with mint }, store)
  | .backed trie =>
      let (outcome, trie, store) := trie.perform store walk
      (outcome, .backed trie, store)

/-- The value of a key. -/
def find? [TrieValue α] (tree : Tree) (store : σ) (key : Bytes) :
    Except Failure (Option α) × Tree × σ :=
  match tree with
  | .memory trie => (trie.find? key, tree, store)
  | .backed trie =>
      let (outcome, trie, store) := trie.find? store key
      (outcome, .backed trie, store)

/-- The trie with the root that a walk ends with, or as it was if the walk fails. -/
def update (tree : Tree) (store : σ) (walk : Walk Node) : Except Failure Unit × Tree × σ :=
  match tree with
  | .memory trie =>
      match trie.update walk with
      | .ok trie => (.ok (), .memory trie, store)
      | .error failure => (.error failure, tree, store)
  | .backed trie =>
      let (outcome, trie, store) := trie.update store walk
      (outcome, .backed trie, store)

/-- Give the key this value, or none if the value's encoding is empty. -/
def insert [TrieValue α] (tree : Tree) (store : σ) (key : Bytes) (value : α) :
    Except Failure Unit × Tree × σ :=
  tree.update store (tree.root.write key value)

/-- Take its value from the key. -/
def erase (tree : Tree) (store : σ) (key : Bytes) : Except Failure Unit × Tree × σ :=
  tree.update store (tree.root.remove key)

/-- The outcomes of walks that take turns for a number of rounds. In memory one round is enough for
every walk. -/
def runTurns (tree : Tree) (store : σ) (count : Nat) (walks : List (Walk α)) :
    List (Option (Except Failure α)) × Tree × σ :=
  match tree with
  | .memory trie =>
      let outcome (walk : Walk α) :=
        if count = 0 then none else some (Walk.runAlone trie.mint walk).1
      (walks.map outcome, tree, store)
  | .backed trie =>
      let (outcomes, loader, store) := trie.loader.runTurns store count walks
      (outcomes, .backed { trie with loader }, store)

/-- Rounds after which all lookups of these keys have ended: each nibble takes at most one
reference off the way, and there is one more at the root. -/
def roundsFor (keys : List Bytes) : Nat :=
  2 * keys.foldl (fun most key ↦ max most key.length) 0 + 2

end Tree

/-- A trie under a name, with the kind of its values. -/
structure Planted where
  name : String
  kind : ValueKind
  tree : Tree

/-- A store, the tries over it and beside it, and the next owner. -/
structure Forest (σ : Type) where
  store : σ
  planted : List Planted
  nextOwner : Nat

namespace Forest

variable {σ : Type} [NodeStore σ] {α : Type}

/-- The forest over a store without tries. -/
def ofStore (store : σ) : Forest σ :=
  ⟨store, [], 0⟩

/-- The trie of a name. -/
def find? (forest : Forest σ) (name : String) : Option Planted :=
  forest.planted.find? (·.name == name)

/-- The forest without the trie of a name. -/
def drop (forest : Forest σ) (name : String) : Forest σ :=
  { forest with planted := forest.planted.filter (·.name != name) }

/-- The forest with a trie made for the next owner, in place of one of the same name. A trie that
cannot be made leaves the forest as it is. -/
def plant (forest : Forest σ) (name : String) (kind : ValueKind)
    (make : Nat → Except Breach Tree) : Except Breach (Forest σ) := do
  let tree ← make forest.nextOwner
  return { forest.drop name with
    planted := ⟨name, kind, tree⟩ :: (forest.drop name).planted
    nextOwner := forest.nextOwner + 1 }

omit [NodeStore σ] in
/-- What is planted over a loader that settings give is planted over a new loader with their
capacity. If no cache can be set up for it, nothing is planted. -/
theorem plant_ofSettings (forest : Forest σ) (name : String) (kind : ValueKind)
    (settings : Settings) (make : Loader → BackedTrie) :
    (forest.plant name kind fun owner ↦ do
        return .backed (make (← Loader.ofSettings owner settings))) =
      if settings.cacheCapacity ≤ Recency.largest then
        forest.plant name kind fun owner ↦
          .ok (.backed (make (.new owner settings.cacheCapacity settings.positive)))
      else .error .cacheTooLarge := by
  by_cases hfits : settings.cacheCapacity ≤ Recency.largest
  · have hloader : Loader.ofSettings forest.nextOwner settings =
        .ok (.new forest.nextOwner settings.cacheCapacity settings.positive) :=
      Loader.ofSettings_eq_ok_iff.mpr ⟨hfits, rfl⟩
    rw [if_pos hfits, plant, plant, hloader]
    rfl
  · have hloader : Loader.ofSettings forest.nextOwner settings = .error .cacheTooLarge :=
      if_neg hfits
    rw [if_neg hfits, plant, hloader]
    rfl

/-- The forest with a trie and the store as they became. -/
def replace (forest : Forest σ) (name : String) (tree : Tree) (store : σ) : Forest σ :=
  { forest with
    store
    planted := forest.planted.map fun planted ↦
      if planted.name == name then { planted with tree } else planted }

/-- The name of the trie to whose loader a reference belongs, with that trie. -/
def home? (forest : Forest σ) (node : Node) : Option (String × BackedTrie) :=
  if node.isStored then
    forest.planted.findSome? fun planted ↦
      match planted.tree with
      | .backed trie =>
          if trie.loader.owner = node.stamp.owner then some (planted.name, trie) else none
      | .memory _ => none
  else none

/-- The outcome of a walk from a node, whose references are resolved by the loader that the node
belongs to. -/
def walkFrom (forest : Forest σ) (node : Node) (walk : Walk α) : Except Failure α × Forest σ :=
  match forest.home? node with
  | some (name, trie) =>
      let (outcome, trie, store) := trie.perform forest.store walk
      (outcome, forest.replace name (.backed trie) store)
  | none => ((Walk.runAlone (.ofOwner node.stamp.owner) walk).1, forest)

/-- Whether the node behind a reference is cached, if the node is a reference. -/
def isLoaded (forest : Forest σ) (node : Node) : Option Bool :=
  if node.isStored then
    match forest.home? node with
    | some (_, trie) => trie.isLoaded node
    | none => some false
  else none

/-- The forest after dropping the cached node behind a reference. -/
def unload (forest : Forest σ) (node : Node) : Forest σ :=
  match forest.home? node with
  | some (name, trie) => forest.replace name (.backed (trie.unload node)) forest.store
  | none => forest

end Forest

end Patricia
