import Patricia.Proofs.Trie.Access
import Patricia.Trie.InMemory

/-!
# Tries in memory are finite maps

A trie in memory that begins empty and is changed any number of times never fails, and holds what a
ledger of the same changes does (`MemoryTrie.run_refines_ledger`).
-/

namespace Patricia

/-- The service of a trie in memory: stamps of its owner, and no nodes. -/
def Service.alone (owner : Nat) : Service :=
  ⟨owner, fun _ ↦ False, fun _ _ ↦ False⟩

/-- Where there is no store, no tree is held under a hash. -/
def Node.nowhere (_ : Hash) (_ : Node) : Prop := False

/-- Nothing is asked for and nothing served where nothing is held. -/
theorem Service.alone_faithful (owner : Nat) : (Service.alone owner).Faithful Node.nowhere :=
  ⟨fun h ↦ h.elim, fun h ↦ h.elim, fun h ↦ h.elim⟩

namespace MemoryTrie

variable {α : Type} [TrieValue α]

/-- A change of a trie. -/
def change (trie : MemoryTrie) : Change α → Except Failure MemoryTrie
  | .put key value => trie.insert key value
  | .remove key => trie.erase key

/-- A change is the update by the walk that makes it. -/
theorem change_eq_update (trie : MemoryTrie) (change : Change α) :
    trie.change change = trie.update (trie.root.change change) := by
  cases change <;> rfl

/-- The trie of an owner after some changes, if none of them fails. -/
def run (owner : Nat) (changes : List (Change α)) : Except Failure MemoryTrie :=
  changes.foldlM change (.empty owner)

/-- The trie owns all of its nodes and holds the content of a ledger. -/
structure Keeps (trie : MemoryTrie) (ledger : Ledger α) : Prop where
  issued : trie.root.Issued trie.mint.owner trie.mint.next
  holds : ∃ content, ledger.Records content ∧ trie.root.Holds Node.nowhere content

namespace Keeps

variable {trie : MemoryTrie} {ledger : Ledger α}

/-- A trie without entries keeps the empty ledger. -/
theorem empty (owner : Nat) : (MemoryTrie.empty owner).Keeps (∅ : Ledger α) :=
  ⟨Node.issued_null, .nothing, .empty, Node.holds_null⟩

/-- A change never fails, and the trie then keeps the changed ledger. -/
theorem change (h : trie.Keeps ledger) (change : Change α) :
    ∃ changed, trie.change change = .ok changed ∧ changed.Keeps (ledger.record change) := by
  obtain ⟨content, hrecords, hholds⟩ := h.holds
  have hmeets := Node.change_content (Service.alone_faithful trie.mint.owner) change hholds h.issued
  obtain ⟨root, mint, hrun, howner, hissued, hroot⟩ :=
    Walk.run_alone_of_meets (fun _ ↦ id) rfl hmeets
  have hupdate : trie.change change = .ok ⟨mint, root⟩ := by
    rw [change_eq_update, update, hrun]
  refine ⟨⟨mint, root⟩, hupdate, ?_, content.record change, hrecords.record change, hroot⟩
  exact howner ▸ hissued

/-- Any number of changes never fail, and the trie then keeps the changed ledger. -/
theorem changes (h : trie.Keeps ledger) (changes : List (Change α)) :
    ∃ changed, changes.foldlM MemoryTrie.change trie = .ok changed ∧
      changed.Keeps (changes.foldl Ledger.record ledger) := by
  induction changes generalizing trie ledger with
  | nil => exact ⟨trie, rfl, h⟩
  | cons change changes ih =>
      obtain ⟨next, hnext, hkeeps⟩ := h.change change
      obtain ⟨last, hlast, hkeeps⟩ := ih hkeeps
      refine ⟨last, ?_, hkeeps⟩
      rw [List.foldlM_cons, hnext]
      exact hlast

/-- A lookup never fails and gives what the ledger has. -/
theorem find?_eq (h : trie.Keeps ledger) (key : Bytes) :
    trie.find? key = .ok (ledger.lookup key) := by
  obtain ⟨content, hrecords, hholds⟩ := h.holds
  have hmeets := Node.read_content (Service.alone_faithful trie.mint.owner) key hholds h.issued
    hrecords
  obtain ⟨found, mint, hrun, -, rfl⟩ := Walk.run_alone_of_meets (fun _ ↦ id) rfl hmeets
  rw [find?, hrun]

/-- The trie is empty exactly when the ledger is. -/
theorem isEmpty_iff (h : trie.Keeps ledger) : trie.isEmpty = true ↔ ledger = ∅ := by
  obtain ⟨content, hrecords, hholds⟩ := h.holds
  exact hholds.isNull_iff.trans hrecords.eq_nothing_iff

end Keeps

/-- A trie that begins empty and is changed any number of times never fails. It then answers every
lookup like a ledger of the same changes, and is empty exactly when the ledger is. -/
theorem run_refines_ledger (owner : Nat) (changes : List (Change α)) :
    ∃ trie, run owner changes = .ok trie ∧
      (∀ key, trie.find? key = .ok ((changes.foldl Ledger.record ∅).lookup key)) ∧
      (trie.isEmpty = true ↔ changes.foldl Ledger.record ∅ = ∅) := by
  obtain ⟨trie, hrun, hkeeps⟩ := (Keeps.empty owner).changes changes
  exact ⟨trie, hrun, hkeeps.find?_eq, hkeeps.isEmpty_iff⟩

end MemoryTrie

end Patricia
