import Patricia.Proofs.Canonical.Composition
import Patricia.Proofs.Trie.InMemory

/-!
# The root of a trie is a function of what it holds

However a trie in memory came to hold its entries, its root is the tree that `Table.tree` builds
from them, and the root's hash is that of their composed form (`MemoryTrie.run_canonical`).
-/

namespace Patricia

variable {α β : Type} [TrieValue α] [TrieValue β]

/-- The entries of a ledger, keys as nibbles and values as bytes. -/
def Ledger.table (ledger : Ledger α) : Table :=
  ledger.entries.map fun entry ↦ (entry.1.nibbles, TrieValue.encode entry.2)

namespace Ledger.Records

variable {ledger : Ledger α} {other : Ledger β} {content content' : Content}

/-- A content of a ledger is listed by the ledger's table. -/
theorem lists (h : ledger.Records content) : ledger.table.Lists content := by
  constructor
  · have hkeys : ledger.table.map Prod.fst = ledger.keys.map Bytes.nibbles := by
      rw [table, List.map_map, AList.keys, List.keys, List.map_map]
      rfl
    rw [hkeys]
    exact ledger.keys_nodup.map nibbles_injective
  · intro path value
    simp only [table, List.mem_map, Prod.mk.injEq]
    constructor
    · rintro ⟨entry, hentry, rfl, rfl⟩
      have hlookup : ledger.lookup entry.1 = some entry.2 := AList.mem_lookup_iff.mpr hentry
      rw [h.value_eq, hlookup, Option.map_some]
    · intro hvalue
      obtain ⟨key, rfl⟩ := h.key_of_value path (by simp [hvalue])
      rw [h.value_eq, Option.map_eq_some_iff] at hvalue
      obtain ⟨held, hlookup, rfl⟩ := hvalue
      exact ⟨⟨key, held⟩, AList.mem_lookup_iff.mp hlookup, rfl, rfl⟩

/-- Ledgers that map each key to the same bytes have one content. -/
theorem content_eq (h : ledger.Records content) (h' : other.Records content')
    (heq : ∀ key, (ledger.lookup key).map TrieValue.encode =
      (other.lookup key).map TrieValue.encode) : content = content' := by
  funext path
  by_cases hpath : ∃ key : Bytes, key.nibbles = path
  · obtain ⟨key, rfl⟩ := hpath
    rw [h.value_eq, h'.value_eq, heq]
  · have hnone := mt (h.key_of_value path) hpath
    have hnone' := mt (h'.key_of_value path) hpath
    rw [not_ne_iff] at hnone hnone'
    rw [hnone, hnone']

end Ledger.Records

namespace Node

/-- Where there is no store, a node shows its own content. -/
theorem Shows.plain_eq {node whole : Node} (h : node.Shows nowhere whole) :
    node.plain = whole := by
  induction node generalizing whole with
  | null => exact h.symm
  | leaf stamp path value => exact h.1.symm
  | extension stamp first rest child ih =>
      obtain ⟨-, below, rfl, hshows, -⟩ := h
      rw [plain_extension, ih hshows]
  | branch stamp occupied slots value ih =>
      obtain ⟨-, below, rfl, hslots⟩ := h
      rw [plain_branch, funext fun slot ↦ ih slot (hslots slot).1]
  | stored stamp hash => exact h.1.elim

variable {held : Hash → Node → Prop} {node : Node} {content : Content} {ledger : Ledger α}

/-- A node that holds the content of a ledger shows the tree of the ledger's entries, which has that
content, if the trees behind references have blank stamps. -/
theorem Holds.shows_tree (h : node.Holds held content) (hrecords : ledger.Records content)
    (hblank : ∀ hash whole, held hash whole → whole.Blank) :
    node.Shows held ledger.table.tree ∧ ledger.table.tree.Normal ∧ ledger.table.tree.Blank ∧
      ledger.Records ledger.table.tree.content := by
  obtain ⟨whole, hshows, hnormal, rfl⟩ := h
  have hwhole := hshows.blank hblank
  rw [← hnormal.plain_eq_tree hrecords.lists, hwhole.plain_eq]
  exact ⟨hshows, hnormal, hwhole, hrecords⟩

/-- A node that shows the tree of a ledger's entries has the hash of their composed form. -/
theorem Shows.hash_eq_form (h : node.Shows held ledger.table.tree)
    (hnormal : ledger.table.tree.Normal) : node.hash = keccak256 ledger.table.form := by
  rw [h.hash_eq hnormal, hash_eq_keccak256 hnormal.isStored_eq, Table.encoding_tree]

end Node

namespace MemoryTrie

namespace Keeps

variable {trie : MemoryTrie} {ledger : Ledger α}

/-- The root shows the tree of the ledger's entries. -/
theorem root_shows (h : trie.Keeps ledger) :
    trie.root.Shows Node.nowhere ledger.table.tree ∧ ledger.table.tree.Normal := by
  obtain ⟨content, hrecords, hholds⟩ := h.holds
  obtain ⟨hshows, hnormal, -⟩ := hholds.shows_tree hrecords fun _ _ ↦ False.elim
  exact ⟨hshows, hnormal⟩

/-- The root is the tree of the ledger's entries. -/
theorem plain_root (h : trie.Keeps ledger) : trie.root.plain = ledger.table.tree :=
  h.root_shows.1.plain_eq

/-- The root's hash is that of the composed form of the ledger's entries. -/
theorem rootHash_eq (h : trie.Keeps ledger) : trie.rootHash = keccak256 ledger.table.form := by
  obtain ⟨hshows, hnormal⟩ := h.root_shows
  exact hshows.hash_eq_form hnormal

/-- Two tries that map each key to the same bytes have the same root. -/
theorem root_eq {other : MemoryTrie} {ledger' : Ledger β} (h : trie.Keeps ledger)
    (h' : other.Keeps ledger')
    (heq : ∀ key, (ledger.lookup key).map TrieValue.encode =
      (ledger'.lookup key).map TrieValue.encode) :
    trie.root.plain = other.root.plain ∧ trie.rootHash = other.rootHash := by
  obtain ⟨content, hrecords, whole, hshows, hnormal, hcontent⟩ := h.holds
  obtain ⟨content', hrecords', whole', hshows', hnormal', hcontent'⟩ := h'.holds
  have hlists := hrecords.lists
  have hlists' := hrecords'.lists
  rw [hrecords.content_eq hrecords' heq] at hcontent hlists
  have htree : ledger.table.tree = ledger'.table.tree := by
    rw [← hnormal.plain_eq_tree (hcontent ▸ hlists), hnormal.plain_eq_tree (hcontent ▸ hlists')]
  rw [h.plain_root, h'.plain_root, h.rootHash_eq, h'.rootHash_eq, ← Table.encoding_tree,
    ← Table.encoding_tree, htree]
  exact ⟨rfl, rfl⟩

end Keeps

/-- A trie that begins empty and is changed any number of times has the tree of the resulting
entries as its root, and the hash of their composed form as the root's hash. So two such tries that
end with the same map have the same root and root hash, whatever their changes were. -/
theorem run_canonical (owner owner' : Nat) (changes : List (Change α))
    (changes' : List (Change β)) :
    ∃ trie trie', run owner changes = .ok trie ∧ run owner' changes' = .ok trie' ∧
      trie.root.plain = (Ledger.table (changes.foldl Ledger.record ∅)).tree ∧
      trie.rootHash = keccak256 (Ledger.table (changes.foldl Ledger.record ∅)).form ∧
      ((∀ key, ((changes.foldl Ledger.record ∅).lookup key).map TrieValue.encode =
          ((changes'.foldl Ledger.record ∅).lookup key).map TrieValue.encode) →
        trie.root.plain = trie'.root.plain ∧ trie.rootHash = trie'.rootHash) := by
  obtain ⟨trie, hrun, hkeeps⟩ := (Keeps.empty owner).changes changes
  obtain ⟨trie', hrun', hkeeps'⟩ := (Keeps.empty owner').changes changes'
  exact ⟨trie, trie', hrun, hrun', hkeeps.plain_root, hkeeps.rootHash_eq,
    hkeeps.root_eq hkeeps'⟩

end MemoryTrie

end Patricia
