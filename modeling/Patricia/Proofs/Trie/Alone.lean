import Patricia.Proofs.Trie.InMemory
import Patricia.Proofs.Trie.Lazy

/-!
# A trie in memory is a trie over a store that is not asked

A walk that ends well where there is no store ends so over any store, loads nothing and takes the
same stamps (`Walk.run_of_alone`). So what is proved of tries over stores holds of tries in memory:
`MemoryTrie.backed` is a trie over a store with the same root, and a change or a lookup of the one
is the same change or lookup of the other.
-/

namespace Patricia

variable {σ : Type} [NodeStore σ] {α : Type}

/-- A walk that ends well where there is no store ends so over any store. It loads nothing. -/
theorem Walk.run_of_alone {walk : Walk α} {later : Mint} {result : α} (loader : Loader)
    (h : walk.runAlone loader.mint = (.ok result, later)) (store : σ) :
    walk.run loader store = (.ok result, { loader with mint := later }, store) ∧
      walk.loads loader store = [] := by
  induction walk generalizing loader with
  | done =>
      cases h
      exact ⟨rfl, rfl⟩
  | fail => cases h
  | fresh next ih => exact ih loader.issue.1 loader.issue.2 h
  | load home hash next => cases h

/-- A node that obeys the rules obeys them if more values are allowed. -/
theorem Node.Proper.imp {full more : Bytes → Prop} {node : Node} (h : node.Proper full)
    (himp : ∀ bytes, full bytes → more bytes) : node.Proper more := by
  cases node with
  | null | stored | extension => exact h
  | leaf stamp path value => exact himp value h
  | branch stamp occupied slots value =>
      exact ⟨h.1, h.2.1, fun bytes hbytes ↦ himp bytes (h.2.2 bytes hbytes)⟩

variable [TrieValue α]

namespace BackedTrie

variable {trie later : BackedTrie} {store after : σ}

/-- A change is made when the walk that makes it ends with the new root. -/
theorem attempt_change_eq_ok_iff {change : Change α} :
    trie.attempt store (.change change) = (.ok .done, later, after) ↔
      (trie.root.change change).run trie.loader store = (.ok later.root, later.loader, after) := by
  rw [attempt_change, update, perform]
  rcases (trie.root.change change).run trie.loader store with ⟨failure | root, loader, other⟩
  · constructor <;> rintro ⟨⟩
  · constructor
    · rintro ⟨⟩
      rfl
    · rintro ⟨⟩
      rfl

/-- A lookup is answered that there is no value when the key has none. -/
theorem attempt_get_eq_none_iff {key : Bytes} :
    (trie.attempt store (.get key : Request α)).1 = .ok (.value none) ↔
      ((trie.root.find? key.nibbles).run trie.loader store).1 = .ok none := by
  rw [attempt, BackedTrie.find?, perform, Node.read, Walk.run_bind]
  rcases (trie.root.find? key.nibbles).run trie.loader store with
    ⟨failure | _ | bytes, loader, other⟩
  · constructor <;> rintro ⟨⟩
  · exact ⟨fun _ ↦ rfl, fun _ ↦ rfl⟩
  · constructor
    · intro hnone
      cases hdecode : (TrieValue.decode bytes : Except TrieError α) <;>
        simp only [hdecode] at hnone <;> cases hnone
    · rintro ⟨⟩

end BackedTrie

namespace MemoryTrie

variable {trie changed : MemoryTrie} {ledger : Ledger α}

/-- The trie over a store from which it needs nothing. -/
def backed (trie : MemoryTrie) : BackedTrie :=
  ⟨{ Loader.standard trie.mint.owner with mint := trie.mint }, trie.root⟩

/-- A trie in memory that keeps a ledger obeys the rules. -/
theorem Keeps.backed_ready (h : trie.Keeps ledger) : trie.backed.Ready := by
  obtain ⟨content, -, hholds⟩ := h.holds
  have hproper := (hholds.standing h.issued).proper
  have hserves : (Loader.standard trie.mint.owner).Serves (.lawful trie.mint.owner) := .new rfl
  exact ⟨⟨⟨hproper.imp fun _ hnode ↦ hnode.imp fun _ _ ↦ trivial,
    Node.all_of_forall (fun _ ↦ trivial) _, h.issued⟩,
    hserves.advance rfl rfl (Nat.zero_le _)⟩, rfl⟩

/-- A change of a trie in memory is the change of that trie over any store. It loads nothing. -/
theorem attempt_backed {change : Change α} (h : trie.change change = .ok changed) (store : σ) :
    trie.backed.attempt store (.change change) =
        (.ok .done, ⟨{ trie.backed.loader with mint := changed.mint }, changed.root⟩, store) ∧
      trie.backed.loads store (.change change) = [] := by
  rw [change_eq_update, update] at h
  split at h
  · rename_i root mint hrun
    cases h
    obtain ⟨hrun, hloads⟩ := Walk.run_of_alone trie.backed.loader hrun store
    exact ⟨BackedTrie.attempt_change_eq_ok_iff.mpr hrun, hloads⟩
  · cases h

/-- A lookup in a trie in memory is the lookup in that trie over any store. It loads nothing. -/
theorem attempt_get_backed {key : Bytes} {found : Option α} (h : trie.find? key = .ok found)
    (store : σ) : (trie.backed.attempt store (.get key)).1 = .ok (.value found) ∧
      trie.backed.loads store (.get key : Request α) = [] := by
  obtain ⟨hrun, hloads⟩ := Walk.run_of_alone trie.backed.loader (Prod.ext h rfl) store
  refine ⟨?_, hloads⟩
  rw [BackedTrie.attempt, BackedTrie.find?, BackedTrie.perform]
  exact congrArg (fun ended ↦ Except.map Reply.value ended.1) hrun

/-- After a change the old root keeps the old ledger. -/
theorem Keeps.change_root {change : Change α} (h : trie.Keeps ledger)
    (hchange : trie.change change = .ok changed) :
    (⟨changed.mint, trie.root⟩ : MemoryTrie).Keeps ledger := by
  obtain ⟨hbacked, -⟩ := attempt_backed hchange MemoryStore.empty
  have hlawful := h.backed_ready.lawful
  obtain ⟨howner, -, hle, -⟩ := hlawful.run_ok
    (Node.change_standing Service.lawful_steady (fun _ _ ↦ trivial) change hlawful.standing)
    (BackedTrie.attempt_change_eq_ok_iff.mp hbacked)
  refine ⟨?_, h.holds⟩
  show trie.root.Issued changed.mint.owner changed.mint.next
  rw [show changed.mint.owner = trie.mint.owner from howner]
  exact h.issued.mono hle

end MemoryTrie

end Patricia
