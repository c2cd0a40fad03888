import Patricia.Proofs.Trie.Backed
import Patricia.Proofs.Trie.Commit

/-!
# What a commit leaves behind

After a commit the store holds the whole tree of the trie under its root hash, and every node that
the commit put into the cache shows the tree that is held under its hash. So the trie keeps its
ledger, and so does one that is opened on the root hash (`BackedTrie.Keeps.commit`,
`BackedTrie.Keeps.openAt`).
-/

namespace Patricia

namespace Node

variable {contents more : Contents} {held : Hash → Node → Prop} {node whole part : Node}

/-- A long node of a tree in memory shows a part of the tree that is shown. -/
theorem Shows.longPart (h : node.Shows held whole) (hwhole : whole.Whole)
    (hmem : part ∈ node.longParts) :
    part.isFormed = true ∧ ∃ below, part.Shows held below ∧ below.Whole ∧ below.PartOf whole := by
  refine longParts_inherit
    (fun part ↦ ∃ below, part.Shows held below ∧ below.Whole ∧ below.PartOf whole)
    ?_ ?_ ⟨whole, h, hwhole, fun _ ↦ id⟩ hmem
  · intro stamp first rest child hextension
    obtain ⟨lower, hshows, hlower, hof⟩ := hextension
    obtain ⟨-, below, rfl, hbelow, -⟩ := hshows
    exact ⟨below, hbelow, hlower.child, fun p hp ↦ (hof p hp).2⟩
  · intro stamp occupied slots value slot hbranch
    obtain ⟨lower, hshows, hlower, hof⟩ := hbranch
    obtain ⟨-, below, rfl, hslots⟩ := hshows
    exact ⟨below slot, (hslots slot).1, hlower.slot slot, fun p hp ↦ (hof p hp).2 slot⟩

/-- A tree is saved once its long nodes in memory are written, since what is behind its references
was saved before. -/
theorem Shows.saved (h : node.Shows (Held contents) whole) (hwhole : whole.Whole)
    (hmore : ∀ hash bytes, contents hash = some bytes → more hash = some bytes)
    (hwritten : ∀ part ∈ node.longParts, more part.hash = some part.encoding) :
    whole.Saved more := by
  -- A node that is there is written exactly if the tree it shows is long.
  have hself : ∀ {node whole : Node}, node.Shows (Held contents) whole → whole.Whole →
      node.isStored = false → (∀ part ∈ node.whenLong, more part.hash = some part.encoding) →
      32 ≤ whole.encoding.length → more whole.hash = some whole.encoding := by
    intro node whole h hwhole hstored hwritten hlong
    rw [← h.hash_eq hwhole.normal, ← h.encoding_eq hwhole.normal hstored]
    rw [← h.encoding_eq hwhole.normal hstored] at hlong
    exact hwritten node (mem_whenLong.mpr ⟨rfl, hlong⟩)
  induction node generalizing whole with
  | null =>
      cases h
      intro hlong
      exact absurd hlong (by decide)
  | leaf stamp path value =>
      have hsaved := hself h hwhole rfl hwritten
      obtain ⟨rfl, -⟩ := h
      exact hsaved
  | extension stamp first rest child ih =>
      have hsaved := hself h hwhole rfl
        fun part hmem ↦ hwritten part (List.mem_append_right _ hmem)
      obtain ⟨-, below, rfl, hshows, -⟩ := h
      exact ⟨hsaved, ih hshows hwhole.child
        fun part hmem ↦ hwritten part (List.mem_append_left _ hmem)⟩
  | branch stamp occupied slots value ih =>
      have hsaved := hself h hwhole rfl
        fun part hmem ↦ hwritten part (List.mem_append_right _ hmem)
      obtain ⟨-, below, rfl, hslots⟩ := h
      refine ⟨hsaved, fun slot ↦ ih slot (hslots slot).1 (hwhole.slot slot) fun part hmem ↦ ?_⟩
      exact hwritten part (List.mem_append_left _
        (List.mem_flatMap.mpr ⟨slot, List.mem_finRange slot, hmem⟩))
  | stored stamp hash =>
      obtain ⟨hheld, -⟩ := h
      exact (hheld.mono hmore).saved

/-- The forms of a tree fit in 64 bits if those of the long nodes in memory do, since what is behind
references was saved before. -/
theorem Shows.fits (h : node.Shows (Held contents) whole) (hnormal : whole.Normal)
    (hparts : ∀ part ∈ node.longParts, part.encoding.length < 2 ^ 64) :
    whole.All fun node ↦ node.encoding.length < 2 ^ 64 := by
  have hself : ∀ {node whole : Node}, node.Shows (Held contents) whole → whole.Normal →
      node.isStored = false → (∀ part ∈ node.whenLong, part.encoding.length < 2 ^ 64) →
      whole.encoding.length < 2 ^ 64 := by
    intro node whole h hnormal hstored hparts
    rw [← h.encoding_eq hnormal hstored]
    by_cases hlong : 32 ≤ node.encoding.length
    · exact hparts node (mem_whenLong.mpr ⟨rfl, hlong⟩)
    · omega
  induction node generalizing whole with
  | null =>
      cases h
      exact (by decide : [(0x80 : UInt8)].length < 2 ^ 64)
  | leaf stamp path value =>
      have hfits := hself h hnormal rfl hparts
      obtain ⟨rfl, -⟩ := h
      exact hfits
  | extension stamp first rest child ih =>
      have hfits := hself h hnormal rfl
        fun part hmem ↦ hparts part (List.mem_append_right _ hmem)
      obtain ⟨-, below, rfl, hshows, -⟩ := h
      exact ⟨hfits, ih hshows hnormal.2
        fun part hmem ↦ hparts part (List.mem_append_left _ hmem)⟩
  | branch stamp occupied slots value ih =>
      have hfits := hself h hnormal rfl
        fun part hmem ↦ hparts part (List.mem_append_right _ hmem)
      obtain ⟨-, below, rfl, hslots⟩ := h
      refine ⟨hfits, fun slot ↦ ih slot (hslots slot).1 (hnormal.2.2.2 slot) fun part hmem ↦ ?_⟩
      exact hparts part (List.mem_append_left _
        (List.mem_flatMap.mpr ⟨slot, List.mem_finRange slot, hmem⟩))
  | stored stamp hash =>
      obtain ⟨hheld, -⟩ := h
      exact hheld.isWhole.fits

/-- A node that a commit writes shows a part of the tree that is shown. -/
theorem Shows.committed (h : node.Shows held whole) (hwhole : whole.Whole)
    (hformed : node.isFormed = true) (hmem : part ∈ node.committed) :
    part.isFormed = true ∧ ∃ below, part.Shows held below ∧ below.Whole ∧ below.PartOf whole := by
  rw [Node.committed] at hmem
  rcases List.mem_append.mp hmem with hmem | hmem
  · exact h.longPart hwhole hmem
  · split at hmem
    · obtain rfl := List.mem_singleton.mp hmem
      exact ⟨hformed, whole, h, hwhole, fun _ ↦ id⟩
    · cases hmem

/-- A tree is held under the hash of a node that shows it, once it is saved and the node written. -/
theorem Shows.held_of_written (h : node.Shows held whole) (hwhole : whole.Whole)
    (hformed : node.isFormed = true) (hsaved : whole.Saved more)
    (hwritten : more node.hash = some node.encoding) : Held more node.hash whole where
  isWhole := hwhole
  present := by
    rw [hwritten, h.encoding_eq hwhole.normal (isStored_of_formed hformed)]
  hash_eq := (h.hash_eq hwhole.normal).symm
  saved := hsaved
  isNull_eq := by
    rw [← h.isNull_eq, isNull_of_formed hformed]

end Node

/-- Byte strings that can be written together: no two of them have the same hash, their lengths fit
in 64 bits, and the form of the empty tree is among them. -/
structure Writable (known : Bytes → Prop) : Prop where
  apart : Apart known
  fits : ∀ bytes, known bytes → bytes.length < 2 ^ 64
  empty : known [0x80]

namespace BackedTrie

variable {α : Type} [TrieValue α] {trie : BackedTrie} {store : MemoryStore} {contents : Contents}
  {known : Bytes → Prop} {ledger : Ledger α}

namespace Keeps

/-- Once the nodes that a commit takes are written, each is the form of a tree that is held. -/
theorem committed_held {more : Contents} (h : trie.Keeps contents ledger)
    (hwhole : ledger.table.tree.Whole) (hformed : trie.root.isFormed = true)
    (hsaved : ledger.table.tree.Saved more)
    (hwritten : ∀ part ∈ trie.root.committed, more part.hash = some part.encoding) {part : Node}
    (hpart : part ∈ trie.root.committed) :
    ∃ below, Held more part.hash below ∧ part.encoding = below.encoding ∧
      part.abridged = below.abridged := by
  obtain ⟨hpartFormed, below, hbelow, hbelowWhole, hof⟩ :=
    h.root_shows.1.committed hwhole hformed hpart
  have hstored := Node.isStored_of_formed hpartFormed
  exact ⟨below,
    hbelow.held_of_written hbelowWhole hpartFormed (hof _ hsaved) (hwritten part hpart),
    hbelow.encoding_eq hbelowWhole.normal hstored, hbelow.abridged_eq hbelowWhole.normal hstored⟩

/-- Once the nodes that a commit takes are written, they may be handed out over the store. -/
theorem hands {more : Contents} (h : trie.Keeps contents ledger)
    (hwhole : ledger.table.tree.Whole) (hformed : trie.root.isFormed = true)
    (hsaved : ledger.table.tree.Saved more)
    (hwritten : ∀ part ∈ trie.root.committed, more part.hash = some part.encoding) :
    trie.Hands (.holding more trie.loader.owner) := by
  intro part hpart node hstored hplain hsincere
  obtain ⟨below, hheld, -, habridged⟩ := h.committed_held hwhole hformed hsaved hwritten hpart
  refine ⟨hstored, below, hheld, ?_⟩
  have hshows := hheld.isWhole.abridged_shows (hheld.isWhole.all_held hheld.saved)
  rw [← habridged, ← hplain] at hshows
  exact hshows.of_plain hheld.isWhole.normal hheld.isWhole.blank hsincere

/-- The nodes that a commit takes are written as nodes of the tree of the ledger's entries. -/
theorem committed_known (h : trie.Keeps contents ledger) (hwhole : ledger.table.tree.Whole)
    (hformed : trie.root.isFormed = true)
    (hknown : ledger.table.tree.All fun node ↦ known node.encoding) :
    ∀ part ∈ trie.root.committed, known part.encoding := by
  intro part hpart
  obtain ⟨hpartFormed, below, hbelow, hbelowWhole, hof⟩ :=
    h.root_shows.1.committed hwhole hformed hpart
  rw [hbelow.encoding_eq hbelowWhole.normal (Node.isStored_of_formed hpartFormed)]
  exact (hof _ hknown).self

/-- Writing the nodes that a commit takes overwrites nothing, if their forms are known. They are
there then, and with them the tree of the ledger's entries. -/
theorem committed_saved (h : trie.Keeps store.get? ledger) (hapart : Apart known)
    (hstore : store.Authentic known) (hparts : ∀ part ∈ trie.root.committed, known part.encoding)
    (hwhole : ledger.table.tree.Whole) (hformed : trie.root.isFormed = true) :
    let grown := store.insertAll (trie.root.committed.map fun part ↦ (part.hash, part.encoding))
    grown.Authentic known ∧
      (∀ hash bytes, store.get? hash = some bytes → grown.get? hash = some bytes) ∧
      (∀ part ∈ trie.root.committed, grown.get? part.hash = some part.encoding) ∧
      ledger.table.tree.Saved grown.get? := by
  intro grown
  obtain ⟨hgrown, hmore, hwritten⟩ :=
    hstore.insertAll hapart (committed_genuine hformed hparts)
  rw [List.forall_mem_map] at hwritten
  refine ⟨hgrown, hmore, hwritten, h.root_shows.1.saved hwhole hmore fun part hpart ↦ ?_⟩
  exact hwritten part (List.mem_append_left _ hpart)

/-- A commit of a root with a form never fails, if the forms that it writes are known. It gives the
root hash, overwrites nothing, and leaves the tree of the ledger's entries in the store, and the
trie then keeps the ledger. -/
theorem commit_parts (h : trie.Keeps store.get? ledger) (hapart : Apart known)
    (hstore : store.Authentic known) (hparts : ∀ part ∈ trie.root.committed, known part.encoding)
    (hwhole : ledger.table.tree.Whole) (hformed : trie.root.isFormed = true) :
    ∃ later grown, trie.commit store = (.ok trie.rootHash, later, grown) ∧
      later.Keeps grown.get? ledger ∧ grown.Authentic known ∧
      (∀ hash bytes, store.get? hash = some bytes → grown.get? hash = some bytes) ∧
      Held grown.get? trie.rootHash ledger.table.tree := by
  have hshows := h.root_shows.1
  have hsincere := hshows.sincere hwhole.normal hwhole.blank
  obtain ⟨hgrown, hmore, hwritten, hsaved⟩ :=
    h.committed_saved hapart hstore hparts hwhole hformed
  have hheld := hshows.held_of_written hwhole hformed hsaved
    (hwritten _ (Node.mem_committed hformed))
  have hlater := primed_serves hformed hsincere h.issued (h.serves.mono hmore)
    (h.hands hwhole hformed hsaved hwritten)
  have howner : trie.primed.owner = trie.loader.owner := hlater.owner_eq
  rw [← howner] at hlater
  exact ⟨_, _, commit_of_formed hformed hsincere h.issued store,
    of_held hheld h.root_shows.2.2.2 hlater, hgrown, hmore, hheld⟩

/-- A commit never fails, if the forms that it writes are known. It gives the root hash and
overwrites nothing, and the trie then keeps the ledger as before. If the trie is not empty, the tree
of the ledger's entries is held under the root hash. -/
theorem commit_known (h : trie.Keeps store.get? ledger) (hapart : Apart known)
    (hfits : ∀ bytes, known bytes → bytes.length < 2 ^ 64) (hstore : store.Authentic known)
    (hparts : trie.root.isFormed = true → ∀ part ∈ trie.root.committed, known part.encoding) :
    ∃ later grown, trie.commit store = (.ok trie.rootHash, later, grown) ∧
      later.Keeps grown.get? ledger ∧ grown.Authentic known ∧
      (∀ hash bytes, store.get? hash = some bytes → grown.get? hash = some bytes) ∧
      (trie.isEmpty = false → Held grown.get? trie.rootHash ledger.table.tree) := by
  obtain ⟨hshows, hnormal, hblank, -⟩ := h.root_shows
  cases hformed : trie.root.isFormed with
  | false =>
      refine ⟨trie, store, commit_of_not_formed store hformed, h, hstore, fun _ _ ↦ id, ?_⟩
      intro hnull
      rw [BackedTrie.isEmpty] at hnull
      rw [rootHash]
      cases hroot : trie.root with
      | stored stamp hash =>
          rw [hroot] at hshows
          exact hshows.1
      | null | leaf | extension | branch => simp_all [Node.isFormed, Node.isNull, Node.isStored]
  | true =>
      have hwhole : ledger.table.tree.Whole := ⟨hnormal, hblank, hshows.fits hnormal
        fun part hpart ↦ hfits _ (hparts hformed part (List.mem_append_left _ hpart))⟩
      obtain ⟨later, grown, hcommit, hkeeps, hgrown, hmore, hheld⟩ :=
        h.commit_parts hapart hstore (hparts hformed) hwhole hformed
      exact ⟨later, grown, hcommit, hkeeps, hgrown, hmore, fun _ ↦ hheld⟩

/-- A commit never fails. It gives the root hash and overwrites nothing, and the trie then keeps the
ledger as before. If the trie is not empty, the tree of the ledger's entries is held under the root
hash. -/
theorem commit (h : trie.Keeps store.get? ledger) (hwritable : Writable known)
    (hstore : store.Authentic known)
    (hknown : ledger.table.tree.All fun node ↦ known node.encoding) :
    ∃ later grown, trie.commit store = (.ok trie.rootHash, later, grown) ∧
      later.Keeps grown.get? ledger ∧ grown.Authentic known ∧
      (∀ hash bytes, store.get? hash = some bytes → grown.get? hash = some bytes) ∧
      (trie.isEmpty = false → Held grown.get? trie.rootHash ledger.table.tree) := by
  obtain ⟨-, hnormal, hblank, -⟩ := h.root_shows
  have hwhole : ledger.table.tree.Whole :=
    ⟨hnormal, hblank, hknown.imp fun _ hnode ↦ hwritable.fits _ hnode⟩
  exact h.commit_known hwritable.apart hwritable.fits hstore fun hformed ↦
    h.committed_known hwhole hformed hknown

/-- A trie that is opened on the root hash of one that was committed keeps the same ledger, if the
form of the root is known. -/
theorem openAt_known (h : trie.Keeps contents ledger) (hapart : Apart known)
    (hempty : known [0x80]) (hknown : trie.isEmpty = false → known ledger.table.tree.encoding)
    (hheld : trie.isEmpty = false → Held contents trie.rootHash ledger.table.tree)
    (owner capacity : Nat) (hpos : 0 < capacity) :
    (BackedTrie.openAt (.new owner capacity hpos) trie.rootHash).Keeps contents ledger := by
  obtain ⟨hshows, hnormal, -, hrecords⟩ := h.root_shows
  cases hnothing : trie.isEmpty with
  | true =>
      have hnull : trie.root = .null := by
        rw [BackedTrie.isEmpty] at hnothing
        cases hroot : trie.root with
        | null => rfl
        | leaf | extension | branch | stored =>
            rw [hroot] at hnothing
            cases hnothing
      have hroot : trie.rootHash = emptyRoot := by
        rw [rootHash, hnull]
        rfl
      rw [BackedTrie.openAt, if_pos hroot]
      rw [hnull] at hshows
      exact ⟨Node.issued_null, .new rfl, ledger.table.tree.content, hrecords,
        ledger.table.tree, hshows, hnormal, rfl⟩
  | false =>
      have hheld := hheld hnothing
      have hne : trie.rootHash ≠ emptyRoot := by
        intro heq
        rw [← hheld.hash_eq, Node.hash_eq_keccak256 hnormal.isStored_eq, emptyRoot] at heq
        -- The tree would be written like the empty one, which only the empty tree is.
        have hform := hapart _ _ (hknown hnothing) hempty heq
        have hnull := hheld.isWhole.isNull_of_encoding hform
        rw [hheld.isNull_eq] at hnull
        cases hnull
      rw [BackedTrie.openAt, if_neg hne]
      exact of_held hheld hrecords (.new rfl)

/-- A trie that is opened on the root hash of one that was committed keeps the same ledger. -/
theorem openAt (h : trie.Keeps contents ledger) (hwritable : Writable known)
    (hknown : ledger.table.tree.All fun node ↦ known node.encoding)
    (hheld : trie.isEmpty = false → Held contents trie.rootHash ledger.table.tree)
    (owner capacity : Nat) (hpos : 0 < capacity) :
    (BackedTrie.openAt (.new owner capacity hpos) trie.rootHash).Keeps contents ledger :=
  h.openAt_known hwritable.apart hwritable.empty (fun _ ↦ hknown.self) hheld owner capacity hpos

end Keeps

end BackedTrie

end Patricia
