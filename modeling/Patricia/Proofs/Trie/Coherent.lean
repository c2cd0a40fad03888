import Patricia.Proofs.Trie.Versions

/-!
# Caches that mirror the store

Tries share a store in memory. Whatever they do, every entry of the store is the form of a tree that
is held there, and every node in the cache of a trie is what the entry under its hash is read as,
whether it was read from the entry or put into the cache by the commit that wrote it
(`Commons.Mirrored`). So a cached node cannot be told from one that is read
(`Commons.after_coherent`). It is assumed that no two byte strings that are written have one hash.
-/

namespace Patricia

variable {α : Type} [TrieValue α]

/-- What a store has under the hash of a tree it holds is read as the tree in short. -/
theorem Held.judge_plain {contents : Contents} {hash : Hash} {whole : Node}
    (h : Held contents hash whole) :
    ∃ read, Loader.judge hash (.ok (contents hash)) = .ok read ∧
      Node.decode whole.encoding = .ok read ∧ read.val.plain = whole.abridged := by
  obtain ⟨read, hread, hval⟩ := h.isWhole.decode_encoding h.isNull_eq
  have hhash : keccak256 whole.encoding = hash := by
    rw [← Node.hash_eq_keccak256 h.isWhole.normal.isStored_eq, h.hash_eq]
  refine ⟨read, ?_, hread, ?_⟩
  · rw [h.present]
    simp only [Loader.judge, hhash, if_true, hread]
  · rw [hval, Node.plain_readFrom, (Node.blank_abridged whole).plain_eq]

/-- Every entry of a store is the form of a tree that is held there. -/
def Stocked (contents : Contents) : Prop :=
  ∀ hash bytes, contents hash = some bytes → ∃ whole, Held contents hash whole

namespace Service

/-- The service of the trees held in a store that hands out only what is read for them: nodes that
show the trees and are as the trees are in short. -/
def mirroring (contents : Contents) (owner : Nat) : Service where
  owner := owner
  asked hash := ∃ whole, Held contents hash whole
  served hash node := node.isStored = false ∧
    ∃ whole, Held contents hash whole ∧ node.Shows (Held contents) whole ∧
      node.plain = whole.abridged

variable {contents more : Contents} {owner : Nat} {hash : Hash} {node : Node}

/-- What is as in the store may be handed out for a tree that is held there. -/
theorem holding_of_mirroring (h : (mirroring contents owner).served hash node) :
    (holding contents owner).served hash node := by
  obtain ⟨hstored, whole, hheld, hshows, -⟩ := h
  exact ⟨hstored, whole, hheld, hshows⟩

/-- Whoever is served what is as in the store is served what the store holds. -/
theorem mirroring_faithful : (mirroring contents owner).Faithful (Held contents) where
  asked hheld _ := ⟨_, hheld⟩
  shows hserved := holding_faithful.shows (holding_of_mirroring hserved)
  known hserved := holding_faithful.known (holding_of_mirroring hserved)

/-- What is read for a held tree is as in the store. -/
theorem mirroring_reads : (mirroring contents owner).Reads contents := by
  intro hash read hasked hjudge owner' serial
  have hreads : (holding contents owner).Reads contents := holding_reads
  obtain ⟨hstored, whole, hheld, hshows⟩ := hreads hasked hjudge owner' serial
  obtain ⟨other, hother, -, hplain⟩ := hheld.judge_plain
  cases hjudge.symm.trans hother
  refine ⟨hstored, whole, hheld, hshows, ?_⟩
  show (read.val.issue owner' serial).plain = _
  rw [Node.plain_issue, hplain]

/-- What is as in a store is as in one that has more. -/
theorem mirroring_mono
    (hmore : ∀ hash bytes, contents hash = some bytes → more hash = some bytes)
    (h : (mirroring contents owner).served hash node) :
    (mirroring more owner).served hash node := by
  obtain ⟨hstored, whole, hheld, hshows, hplain⟩ := h
  exact ⟨hstored, whole, hheld.mono hmore, hshows.mono fun _ _ hother ↦ hother.mono hmore, hplain⟩

end Service

/-- A walk that asks for held trees only leaves a cache that mirrors the store, and the store as it
was. -/
theorem Walk.run_mirroring {α : Type} {walk : Walk α} {loader : Loader} {store : MemoryStore}
    {post : Nat → α → Prop} (hserves : loader.Serves (.mirroring store.get? loader.owner))
    (h : walk.Meets (.mirroring store.get? loader.owner) post loader.mint.next) :
    (walk.run loader store).2.1.Serves
        (.mirroring store.get? (walk.run loader store).2.1.owner) ∧
      (walk.run loader store).2.2 = store := by
  obtain ⟨hstore, hlater, -⟩ :=
    Walk.run_meets store.steady Service.mirroring_reads hserves rfl h
  have howner : (walk.run loader store).2.1.owner = loader.owner := hlater.owner_eq
  exact ⟨howner ▸ hlater, hstore⟩

namespace BackedTrie

variable {known : Bytes → Prop} {trie : BackedTrie} {store : MemoryStore}
  {contents more : Contents} {ledger : Ledger α}

/-- The cache of the trie has only nodes that are as in the store. -/
def Mirrors (contents : Contents) (trie : BackedTrie) : Prop :=
  trie.loader.Serves (.mirroring contents trie.loader.owner)

namespace Mirrors

/-- The store may have more. -/
theorem mono (hmore : ∀ hash bytes, contents hash = some bytes → more hash = some bytes)
    (h : trie.Mirrors contents) : trie.Mirrors more :=
  ⟨h.owner_eq, h.issued, fun entry hentry ↦ Service.mirroring_mono hmore (h.served entry hentry)⟩

/-- A trie that was opened has an empty cache. -/
theorem openAt (contents : Contents) (owner capacity : Nat) (hpos : 0 < capacity) (hash : Hash) :
    (BackedTrie.openAt (.new owner capacity hpos) hash).Mirrors contents := by
  have hserves : (Loader.new owner capacity hpos).Serves (.mirroring contents owner) := .new rfl
  rw [BackedTrie.openAt]
  split
  · exact hserves
  · exact hserves.advance rfl rfl (Nat.le_succ _)

/-- Cached nodes can be dropped. -/
theorem unload (h : trie.Mirrors contents) (node : Node) : (trie.unload node).Mirrors contents :=
  unload_cases h (fun hash ↦ h.evict hash) node

/-- A walk of the trie that asks for held trees only leaves a cache that mirrors the store. -/
theorem perform {β : Type} {walk : Walk β} {post : Nat → β → Prop} (h : trie.Mirrors store.get?)
    (hmeets : walk.Meets (.mirroring store.get? trie.loader.owner) post trie.loader.mint.next) :
    (trie.perform store walk).2.1.Mirrors store.get? ∧ (trie.perform store walk).2.2 = store :=
  Walk.run_mirroring h hmeets

end Mirrors

namespace Keeps

/-- A lookup leaves a cache that mirrors the store, and the store as it was. -/
theorem get_mirrors (h : trie.Keeps store.get? ledger) (hmirrors : trie.Mirrors store.get?)
    (key : Bytes) :
    (trie.attempt store (.get key : Request α)).2.1.Mirrors store.get? ∧
      (trie.attempt store (.get key : Request α)).2.2 = store := by
  obtain ⟨content, hrecords, hholds⟩ := h.holds
  exact hmirrors.perform
    (Node.read_content Service.mirroring_faithful key hholds h.issued hrecords)

/-- A change leaves a cache that mirrors the store, and the store as it was. -/
theorem change_mirrors (h : trie.Keeps store.get? ledger) (hmirrors : trie.Mirrors store.get?)
    (change : Change α) :
    (trie.attempt store (.change change)).2.1.Mirrors store.get? ∧
      (trie.attempt store (.change change)).2.2 = store := by
  obtain ⟨content, -, hholds⟩ := h.holds
  have hperform := hmirrors.perform
    (Node.change_content Service.mirroring_faithful change hholds h.issued)
  rw [attempt_change, update]
  generalize trie.perform store (trie.root.change change) = performed at hperform ⊢
  obtain ⟨outcome, later, after⟩ := performed
  cases outcome with
  | ok root => exact hperform
  | error failure => exact hperform

/-- What a commit writes is known, so the tree of the ledger's entries is whole. -/
theorem whole_of_writes (h : trie.Keeps store.get? ledger) (hwritable : Writable known)
    (hformed : trie.root.isFormed = true)
    (hwrites : ∀ entry ∈ trie.writes (.commit : Request α), known entry.2) :
    ledger.table.tree.Whole ∧ ∀ part ∈ trie.root.committed, known part.encoding := by
  obtain ⟨hshows, hnormal, hblank, -⟩ := h.root_shows
  have hparts : ∀ part ∈ trie.root.committed, known part.encoding := by
    intro part hpart
    refine hwrites (part.hash, part.encoding) ?_
    rw [h.writes_eq hformed]
    exact List.mem_map_of_mem hpart
  exact ⟨⟨hnormal, hblank, hshows.fits hnormal fun part hpart ↦
    hwritable.fits _ (hparts part (List.mem_append_left _ hpart))⟩, hparts⟩

/-- Once the nodes that a commit takes are written, they are as in the store. -/
theorem hands_mirroring (h : trie.Keeps contents ledger) (hwhole : ledger.table.tree.Whole)
    (hformed : trie.root.isFormed = true) (hsaved : ledger.table.tree.Saved more)
    (hwritten : ∀ part ∈ trie.root.committed, more part.hash = some part.encoding) :
    trie.Hands (.mirroring more trie.loader.owner) := by
  intro part hpart node hstored hplain hsincere
  obtain ⟨below, hheld, -, habridged⟩ := h.committed_held hwhole hformed hsaved hwritten hpart
  obtain ⟨-, other, hother, hshows⟩ :=
    h.hands hwhole hformed hsaved hwritten part hpart node hstored hplain hsincere
  obtain rfl := hheld.unique hother
  exact ⟨hstored, below, hheld, hshows, hplain.trans habridged⟩

/-- A commit puts nodes into the cache that are as they are in the store by then, and all that it
writes are forms of trees that are held then. -/
theorem commit_mirrors (h : trie.Keeps store.get? ledger) (hmirrors : trie.Mirrors store.get?)
    (hstocked : Stocked store.get?) (hwritable : Writable known) (hstore : store.Authentic known)
    (hwrites : ∀ entry ∈ trie.writes (.commit : Request α), known entry.2) :
    (trie.commit store).2.1.Mirrors (trie.commit store).2.2.get? ∧
      Stocked (trie.commit store).2.2.get? := by
  cases hformed : trie.root.isFormed with
  | false =>
      rw [commit_of_not_formed store hformed]
      exact ⟨hmirrors, hstocked⟩
  | true =>
      obtain ⟨hwhole, hparts⟩ := h.whole_of_writes hwritable hformed hwrites
      have hsincere := h.root_shows.1.sincere hwhole.normal hwhole.blank
      obtain ⟨-, hmore, hwritten, hsaved⟩ :=
        h.committed_saved hwritable.apart hstore hparts hwhole hformed
      rw [commit_of_formed hformed hsincere h.issued store]
      constructor
      · have hprimed := primed_serves hformed hsincere h.issued (hmirrors.mono hmore)
          (h.hands_mirroring hwhole hformed hsaved hwritten)
        have howner : trie.primed.owner = trie.loader.owner := hprimed.owner_eq
        rw [← howner] at hprimed
        exact hprimed.advance rfl rfl (Nat.le_succ _)
      · intro hash bytes hbytes
        rcases MemoryStore.get?_insertAll hbytes with hold | hnew
        · obtain ⟨whole, hheld⟩ := hstocked hash bytes hold
          exact ⟨whole, hheld.mono hmore⟩
        · obtain ⟨part, hpart, heq⟩ := List.mem_map.mp hnew
          obtain ⟨below, hbelow, -⟩ := h.committed_held hwhole hformed hsaved hwritten hpart
          cases heq
          exact ⟨below, hbelow⟩

/-- After any request the cache mirrors the store, and the entries of the store are forms of trees
that are held there. -/
theorem attempt_mirrors (h : trie.Keeps store.get? ledger) (hmirrors : trie.Mirrors store.get?)
    (hstocked : Stocked store.get?) (hwritable : Writable known) (hstore : store.Authentic known)
    (request : Request α) (hwrites : ∀ entry ∈ trie.writes request, known entry.2) :
    (trie.attempt store request).2.1.Mirrors (trie.attempt store request).2.2.get? ∧
      Stocked (trie.attempt store request).2.2.get? := by
  cases request with
  | change change =>
      obtain ⟨hlater, hafter⟩ := h.change_mirrors hmirrors change
      rw [hafter]
      exact ⟨hlater, hstocked⟩
  | get key =>
      obtain ⟨hlater, hafter⟩ := h.get_mirrors hmirrors key
      rw [hafter]
      exact ⟨hlater, hstocked⟩
  | commit => exact h.commit_mirrors hmirrors hstocked hwritable hstore hwrites
  | unload node => exact ⟨hmirrors.unload node, hstocked⟩
  | unloadRoot => exact ⟨hmirrors.unload trie.root, hstocked⟩
  | reopen owner settings =>
      have hcommit := h.commit_mirrors hmirrors hstocked hwritable hstore hwrites
      rw [BackedTrie.attempt]
      generalize trie.commit store = committed at hcommit ⊢
      obtain ⟨outcome, later, grown⟩ := committed
      cases outcome with
      | ok hash => exact ⟨.openAt _ _ _ _ _, hcommit.2⟩
      | error failure => exact hcommit

end Keeps

end BackedTrie

namespace Commons

variable {known : Bytes → Prop} {commons : Commons MemoryStore α} {acts before : List (Act α)}

/-- The entries of the store are forms of trees that are held there, and all caches mirror it. -/
structure Mirrored (commons : Commons MemoryStore α) : Prop where
  stocked : Stocked commons.store.get?
  mirrors : ∀ name, (commons.tries name).Mirrors commons.store.get?

namespace Mirrored

omit [TrieValue α] in
/-- Nothing is in a store without entries and in caches without nodes. -/
theorem start (settings : Nat → Settings) :
    (start .empty settings : Commons MemoryStore α).Mirrored :=
  ⟨nofun, fun _ ↦ .new rfl⟩

/-- A request leaves all caches as they mirror the store. -/
theorem ask (h : commons.Mirrored) (hsound : commons.Sound known) (hwritable : Writable known)
    (name : Nat) (request : Request α)
    (hwrites : ∀ entry ∈ (commons.tries name).writes request, known entry.2) :
    (commons.ask name request).2.Mirrored := by
  obtain ⟨later, grown, hattempt, -, -, hmore, -⟩ :=
    (hsound.keeps name).attempt hwritable hsound.authentic request hwrites
  have hmirrors := (hsound.keeps name).attempt_mirrors (h.mirrors name) h.stocked hwritable
    hsound.authentic request hwrites
  rw [hattempt] at hmirrors
  rw [Commons.ask, hattempt]
  refine ⟨hmirrors.2, fun other ↦ ?_⟩
  by_cases heq : other = name
  · subst heq
    simp only [Function.update_self]
    exact hmirrors.1
  · simp only [Function.update_of_ne heq]
    exact (h.mirrors other).mono hmore

omit [TrieValue α] in
/-- Any version may be resumed, with an empty cache. -/
theorem resume (h : commons.Mirrored) (name version owner : Nat) (settings : Settings) :
    (commons.resume name version owner settings).Mirrored := by
  rw [Commons.resume]
  split
  · exact h
  · refine ⟨h.stocked, fun other ↦ ?_⟩
    by_cases heq : other = name
    · subst heq
      simp only [Function.update_self]
      exact .openAt _ _ _ _ _
    · simp only [Function.update_of_ne heq]
      exact h.mirrors other

end Mirrored

/-- Tries that begin without entries over a store in memory keep their ledgers, and their caches
mirror the store, if no two of the byte strings that are written have one hash. -/
theorem after_mirrored (settings : Nat → Settings)
    (hapart : Apart fun bytes ↦
      (start MemoryStore.empty settings).Written acts bytes ∨ bytes = [0x80])
    (hfits : ∀ bytes, (start MemoryStore.empty settings).Written acts bytes →
      bytes.length < 2 ^ 64)
    (hbefore : before <+: acts) :
    ((start .empty settings).after before : Commons MemoryStore α).Sound (fun bytes ↦
        (start MemoryStore.empty settings).Written acts bytes ∨ bytes = [0x80]) ∧
      ((start .empty settings).after before : Commons MemoryStore α).Mirrored := by
  have hwritable := writable_of_written hapart hfits
  have hsound : ∀ {first : List (Act α)}, first <+: acts →
      ((start .empty settings).after first : Commons MemoryStore α).Sound _ :=
    fun hfirst ↦ (Sound.start settings).after hwritable (fun _ ↦ Or.inl) hfirst
  refine ⟨hsound hbefore,
    after_induction (.start settings) (fun first act hfirst hnow ↦ ?_) hbefore⟩
  have hlast := hsound ((List.prefix_append first [act]).trans hfirst)
  cases act with
  | ask name request =>
      exact hnow.ask hlast hwritable name request fun entry hentry ↦
        Or.inl ⟨first, name, request, hfirst, entry, hentry, rfl⟩
  | resume name version owner settings => exact hnow.resume name version owner settings

/-- Tries that begin without entries share a store in memory, with caches of any capacities, and do
whatever they do. Then the store has an entry under the hash of each node in a cache, whose bytes
are read as a node with the content of the cached one and are what the cached one is written as. It
is assumed that no two byte strings that are written, nor one of them and the form of the empty
tree, have the same hash, and that the lengths of all fit in 64 bits. -/
theorem after_coherent (settings : Nat → Settings)
    (hapart : Apart fun bytes ↦
      (start MemoryStore.empty settings).Written acts bytes ∨ bytes = [0x80])
    (hfits : ∀ bytes, (start MemoryStore.empty settings).Written acts bytes →
      bytes.length < 2 ^ 64)
    (hbefore : before <+: acts) :
    let commons : Commons MemoryStore α := (start .empty settings).after before
    ∀ name, ∀ entry ∈ (commons.tries name).loader.cache.entries,
      ∃ bytes read, commons.store.get? entry.1 = some bytes ∧ Node.decode bytes = .ok read ∧
        read.val.plain = entry.2.val.plain ∧ entry.2.val.rlp = .ok bytes ∧
          entry.2.val.hash = entry.1 := by
  intro commons name entry hentry
  obtain ⟨-, hmirrored⟩ := after_mirrored settings hapart hfits hbefore
  obtain ⟨hstored, whole, hheld, hshows, hplain⟩ := (hmirrored.mirrors name).served entry hentry
  obtain ⟨read, -, hdecode, hread⟩ := hheld.judge_plain
  have hnormal := hheld.isWhole.normal
  refine ⟨whole.encoding, read, hheld.present, hdecode, hread.trans hplain.symm, ?_, ?_⟩
  · rw [Node.rlp_eq_encoding hstored, hshows.encoding_eq hnormal hstored]
  · rw [hshows.hash_eq hnormal, hheld.hash_eq]

/-- Two long leaves below an extension are committed. A trie that is opened on the root hash loses
one of them, so that the branch and the extension go, and is committed. -/
def merging : List (Act Bytes) :=
  [.ask 0 (.change (.put [0x11] (List.replicate 32 0x07))),
    .ask 0 (.change (.put [0x12] (List.replicate 32 0x09))), .ask 0 .commit,
    .resume 1 0 1 .standard, .ask 1 (.change (.remove [0x12])), .ask 1 .commit]

set_option maxRecDepth 100000 in
/-- No two forms that are written have one hash, none is too long, and the second trie has cached
the four nodes that it read and the leaf that it wrote. -/
theorem merging_listed :
    (([0x80] :: fresh.transcript merging).dedup.map keccak256).Nodup ∧
      (∀ bytes ∈ fresh.transcript merging, bytes.length < 2 ^ 64) ∧
      ((fresh.after merging).tries 1).loader.cache.entries.length = 5 := by
  decide +kernel

/-- The five cached nodes are what the entries under their hashes are read as. -/
theorem merging_coherent :
    ((fresh.after merging).tries 1).loader.cache.entries.length = 5 ∧
      ∀ entry ∈ ((fresh.after merging).tries 1).loader.cache.entries,
        ∃ bytes read, (fresh.after merging).store.get? entry.1 = some bytes ∧
          Node.decode bytes = .ok read ∧ read.val.plain = entry.2.val.plain ∧
          entry.2.val.rlp = .ok bytes ∧ entry.2.val.hash = entry.1 := by
  obtain ⟨hnodup, hfits, hcached⟩ := merging_listed
  exact ⟨hcached, after_coherent (fun _ ↦ .standard) (apart_of_nodup hnodup)
    (fun bytes hwritten ↦ hfits bytes (written_iff.mp hwritten)) List.prefix_rfl 1⟩

end Commons

end Patricia
