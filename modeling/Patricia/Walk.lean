import Patricia.Node.Slots

/-!
# Walks over a trie

A lookup or an update goes down a trie whose nodes may still be in a store. `Walk` is such an
activity with its needs made explicit: it ends with a result or a failure, asks for a stamp when
it makes a node, and asks for the node that a reference stands for. Who answers is left open, so
one definition of each activity serves tries in memory, tries over a store and activities that
take turns. `Walk.runAlone` answers where there is no store.
-/

namespace Patricia

/-- An activity that may need stamps for new nodes and the nodes behind references. A reference is
known by its home, the owner of the loader that resolves it, and its hash. -/
inductive Walk (α : Type) where
  | done (result : α)
  | fail (failure : Failure)
  | fresh (next : Stamp → Walk α)
  | load (home : Nat) (hash : Hash) (next : Resolved → Walk α)

/-- A source of stamps: an owner and the next number it gives out. -/
structure Mint where
  owner : Nat
  next : Nat

namespace Mint

/-- The first stamps of an owner are still to be given out. -/
def ofOwner (owner : Nat) : Mint := ⟨owner, 0⟩

/-- The next stamp and the source without it. -/
def issue (mint : Mint) : Stamp × Mint :=
  (⟨mint.owner, mint.next, [], none⟩, { mint with next := mint.next + 1 })

end Mint

namespace Walk

variable {α β : Type}

/-- One activity after another. -/
def bind (walk : Walk α) (next : α → Walk β) : Walk β :=
  match walk with
  | .done result => next result
  | .fail failure => .fail failure
  | .fresh more => .fresh fun stamp ↦ (more stamp).bind next
  | .load home hash more => .load home hash fun node ↦ (more node).bind next

instance : Monad Walk where
  pure := .done
  bind := bind

/-- Ending and going on is going on. -/
@[simp] theorem pure_bind (result : α) (next : α → Walk β) :
    (pure result >>= next) = next result := rfl

/-- Ending after an activity adds nothing. -/
theorem bind_done (walk : Walk α) : walk.bind .done = walk := by
  induction walk with
  | done => rfl
  | fail => rfl
  | fresh next ih => simp only [bind, ih]
  | load home hash next ih => simp only [bind, ih]

/-- Sequences of activities can be grouped either way. -/
theorem bind_bind {γ : Type} (walk : Walk α) (next : α → Walk β) (last : β → Walk γ) :
    (walk.bind next).bind last = walk.bind fun result ↦ (next result).bind last := by
  induction walk with
  | done => rfl
  | fail => rfl
  | fresh more ih => simp only [bind, ih]
  | load home hash more ih => simp only [bind, ih]

instance : LawfulMonad Walk :=
  LawfulMonad.mk' Walk bind_done (fun _ _ ↦ rfl) bind_bind

/-- The activity that has this outcome. -/
def ofExcept : Except TrieError α → Walk α
  | .ok result => .done result
  | .error error => .fail (.error error)

/-- A new leaf. -/
def newLeaf (path : List Nibble) (value : Bytes) : Walk Node :=
  .fresh fun stamp ↦ .done (.leaf stamp path value)

/-- A new extension. -/
def newExtension (first : Nibble) (rest : List Nibble) (child : Node) : Walk Node :=
  .fresh fun stamp ↦ .done (.extension stamp first rest child)

/-- A new branch. -/
def newBranch (slots : Slots) (value : Option Bytes) : Walk Node :=
  .fresh fun stamp ↦ .done (.ofSlots stamp slots value)

/-- The outcome of an activity that no store serves: every reference has lost its loader. -/
def runAlone (mint : Mint) : Walk α → Except Failure α × Mint
  | .done result => (.ok result, mint)
  | .fail failure => (.error failure, mint)
  | .fresh next =>
      let (stamp, mint) := mint.issue
      runAlone mint (next stamp)
  | .load _ hash _ => (.error (.error (.loaderDropped hash)), mint)

end Walk

namespace Node

/-- The node itself, or the node that it refers to. -/
def resolve : Node → Walk Resolved
  | .null => .done ⟨.null, rfl⟩
  | .leaf stamp path value => .done ⟨.leaf stamp path value, rfl⟩
  | .extension stamp first rest child => .done ⟨.extension stamp first rest child, rfl⟩
  | .branch stamp occupied slots value => .done ⟨.branch stamp occupied slots value, rfl⟩
  | .stored stamp hash => .load stamp.owner hash .done

/-- The run of nibbles that a node covers. -/
def path (node : Node) : Walk Path := do
  return (← node.resolve).val.ownPath

/-- The value of the key that ends at a node. -/
def value (node : Node) : Walk (Option Bytes) := do
  Walk.ofExcept (← node.resolve).val.ownValue

end Node

end Patricia
