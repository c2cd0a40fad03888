import Patricia.Proofs.Store.Addressed
import Patricia.Proofs.Trie.Canonical
import Patricia.Proofs.Trie.Fleet
import Patricia.Proofs.Walk.Outcome

/-!
# The root hash commits to the map

A trie in memory with a known root hash can hold one map only: two tries with the same root hash
answer every lookup alike, and only a trie without entries has the root hash of the empty trie
(`MemoryTrie.run_committed`), unless two byte strings among the encodings of their nodes have one
hash.
-/

namespace Patricia.MemoryTrie

variable {α β γ : Type} [TrieValue α] [TrieValue β] [TrieValue γ] {known : Bytes → Prop}
  {trie other : MemoryTrie} {ledger : Ledger α} {ledger' : Ledger β}

/-- The byte string is the encoding of a node of one of two tries, or that of the empty tree. -/
def Involves (trie other : MemoryTrie) (bytes : Bytes) : Prop :=
  bytes ∈ trie.root.encodings ∨ bytes ∈ other.root.encodings ∨ bytes = [0x80]

namespace Keeps

/-- A lookup reads the bytes that the tree of the ledger's entries has for the key, whichever type
they are read as. -/
theorem find?_interpret (h : trie.Keeps ledger) (key : Bytes) :
    (trie.find? key : Except Failure (Option γ)) =
      Node.interpret (ledger.table.tree.content key.nibbles) := by
  obtain ⟨hshows, hnormal⟩ := h.root_shows
  have hmeets := Node.find?_content (Service.alone_faithful trie.mint.owner) key.nibbles
    ⟨_, hshows, hnormal, rfl⟩ h.issued
  obtain ⟨found, mint, hrun, -, rfl⟩ := Walk.run_alone_of_meets (fun _ ↦ id) rfl hmeets
  rw [find?, Node.read, Walk.runAlone_bind, hrun]
  cases ledger.table.tree.content key.nibbles with
  | none => rfl
  | some bytes =>
      show _ = Node.interpret (some bytes)
      simp only [Node.interpret]
      cases (TrieValue.decode bytes : Except TrieError γ) with
      | ok value => rfl
      | error error => rfl

/-- The tree of the ledger's entries is whole, and what is known of the encodings of the trie's
nodes is known of the tree's. -/
theorem whole (h : trie.Keeps ledger)
    (hfits : ∀ bytes ∈ trie.root.encodings, bytes.length < 2 ^ 64)
    (hknown : ∀ bytes ∈ trie.root.encodings, known bytes) :
    ledger.table.tree.Whole ∧ ledger.table.tree.All fun node ↦ known node.encoding := by
  obtain ⟨hshows, hnormal⟩ := h.root_shows
  exact ⟨⟨hnormal, hshows.blank fun _ _ ↦ False.elim,
      hshows.all_encoding hnormal (Node.all_of_encodings hfits)⟩,
    hshows.all_encoding hnormal (Node.all_of_encodings hknown)⟩

/-- Tries with one root hash have one tree. -/
theorem tree_eq (h : trie.Keeps ledger) (h' : other.Keeps ledger')
    (hapart : Apart (trie.Involves other))
    (hfits : ∀ bytes, trie.Involves other bytes → bytes.length < 2 ^ 64)
    (heq : trie.rootHash = other.rootHash) : ledger.table.tree = ledger'.table.tree := by
  obtain ⟨hwhole, hknown⟩ := h.whole (fun bytes hmem ↦ hfits bytes (Or.inl hmem))
    fun bytes hmem ↦ (Or.inl hmem : trie.Involves other bytes)
  obtain ⟨hwhole', hknown'⟩ := h'.whole (fun bytes hmem ↦ hfits bytes (Or.inr (Or.inl hmem)))
    fun bytes hmem ↦ (Or.inr (Or.inl hmem) : trie.Involves other bytes)
  refine hwhole.eq_of_hash hapart hwhole' hknown hknown' ?_
  rwa [← h.root_shows.1.hash_eq hwhole.normal, ← h'.root_shows.1.hash_eq hwhole'.normal]

/-- Only a trie without entries has the root hash of the empty trie. -/
theorem eq_empty (h : trie.Keeps ledger) (hapart : Apart (trie.Involves other))
    (hfits : ∀ bytes, trie.Involves other bytes → bytes.length < 2 ^ 64)
    (heq : trie.rootHash = emptyRoot) : ledger = ∅ := by
  obtain ⟨hwhole, hknown⟩ := h.whole (fun bytes hmem ↦ hfits bytes (Or.inl hmem))
    fun bytes hmem ↦ (Or.inl hmem : trie.Involves other bytes)
  rw [rootHash, h.root_shows.1.hash_eq hwhole.normal,
    Node.hash_eq_keccak256 hwhole.normal.isStored_eq] at heq
  have hencoding := hapart _ _ hknown.self (Or.inr (Or.inr rfl)) heq
  have hnull := hwhole.isNull_of_encoding hencoding
  rw [← h.root_shows.1.isNull_eq] at hnull
  exact h.isEmpty_iff.mp hnull

end Keeps

/-- Two tries begin empty and are changed any number of times. If they have the same root hash, they
answer every lookup alike, whichever type the values are read as. If a root hash is that of the
empty trie, the map is empty. It is assumed that no two encodings of nodes in these tries have the
same hash, and that the lengths of all fit in 64 bits. -/
theorem run_committed (owner owner' : Nat) (changes : List (Change α))
    (changes' : List (Change β)) (hrun : run owner changes = .ok trie)
    (hrun' : run owner' changes' = .ok other) (hapart : Apart (trie.Involves other))
    (hfits : ∀ bytes, trie.Involves other bytes → bytes.length < 2 ^ 64) :
    (trie.rootHash = other.rootHash → ∀ (γ : Type) [TrieValue γ] (key : Bytes),
      (trie.find? key : Except Failure (Option γ)) = other.find? key) ∧
    (trie.rootHash = emptyRoot → changes.foldl Ledger.record ∅ = ∅) := by
  obtain ⟨ended, hended, h⟩ := (Keeps.empty owner).changes changes
  obtain ⟨ended', hended', h'⟩ := (Keeps.empty owner').changes changes'
  cases hrun.symm.trans hended
  cases hrun'.symm.trans hended'
  refine ⟨fun heq γ _ key ↦ ?_, h.eq_empty hapart hfits⟩
  rw [h.find?_interpret, h'.find?_interpret, h.tree_eq h' hapart hfits heq]

/-- The three entries in another order, one of them with another value first, and with a further
entry that goes again. -/
def reentered : List (Change Bytes) :=
  [.put [0x12] [0x08], .put [0x11] (List.replicate 32 0x07), .put [0x21] [0x06], .put [0x12] [0x09],
    .remove [0x21], .put [0x01] [0x07]]

set_option maxRecDepth 100000 in
/-- Tries that came to hold the same entries in different ways have the same root hash, and answer
alike. -/
theorem reentered_committed :
    ∃ trie other, run 0 threeEntries = .ok trie ∧ run 1 reentered = .ok other ∧
      trie.root.encodings.dedup.length = 6 ∧ trie.rootHash = other.rootHash ∧
      ∀ key, (trie.find? key : Except Failure (Option Bytes)) = other.find? key := by
  obtain ⟨trie, hrun, other, hrun', hlength, heq, hnodup, hfits⟩ :
      ∃ trie ∈ (run 0 threeEntries).toOption, ∃ other ∈ (run 1 reentered).toOption,
        trie.root.encodings.dedup.length = 6 ∧ trie.rootHash = other.rootHash ∧
        (([0x80] :: trie.root.encodings ++ other.root.encodings).dedup.map keccak256).Nodup ∧
        ∀ bytes ∈ [0x80] :: trie.root.encodings ++ other.root.encodings,
          bytes.length < 2 ^ 64 := by
    decide +kernel
  have hlisted : ∀ bytes, trie.Involves other bytes →
      bytes ∈ [0x80] :: trie.root.encodings ++ other.root.encodings := by
    rintro bytes (hmem | hmem | rfl)
    · exact List.mem_append_left _ (List.mem_cons_of_mem _ hmem)
    · exact List.mem_append_right _ hmem
    · exact List.mem_cons_self
  have hcommitted := run_committed 0 1 threeEntries reentered (eq_ok_of_mem_toOption hrun)
    (eq_ok_of_mem_toOption hrun') ((Apart.of_nodup hnodup).mono hlisted)
    fun bytes hbytes ↦ hfits bytes (hlisted bytes hbytes)
  exact ⟨trie, other, eq_ok_of_mem_toOption hrun, eq_ok_of_mem_toOption hrun', hlength, heq,
    hcommitted.1 heq Bytes⟩

end Patricia.MemoryTrie
