import Patricia.Proofs.Loader.Filling
import Patricia.Proofs.Store.Probed
import Patricia.Proofs.Trie.Coherent
import Patricia.Proofs.Trie.Entries
import Patricia.Proofs.Trie.Lazy
import Patricia.Proofs.Trie.Trail

/-!
# A first commit and a full read

A trie without entries is changed any number of times and committed once to a store without entries.
Then each entry of the store is on the trail of a key that has a value, and whoever opens the root
hash, with room for all entries in the cache, and looks up all keys that have values, reads each
entry exactly once (`Session.first_commit_read`). What a commit writes is taken from the tree in
memory, and what lookups load from the entries, so both are compared to the tree of the ledger's
entries. It is assumed that no two byte strings that are written have one hash.
-/

namespace Patricia

variable {σ : Type} [NodeStore σ] {states : σ → Prop} {store : σ} {contents : Contents}
  {wanted : Finset Hash} {α : Type} [TrieValue α] {ledger : Ledger α}

namespace BackedTrie

variable {trie : BackedTrie}

/-- A change never fails, and the trie then keeps the changed ledger. -/
theorem Keeps.change_steady (h : trie.Keeps contents ledger) (hsteady : Steady contents states)
    (hstore : states store) (change : Change α) :
    ∃ changed after, trie.attempt store (.change change) = (.ok .done, changed, after) ∧
      changed.Keeps contents (ledger.record change) ∧ states after := by
  obtain ⟨content, hrecords, hholds⟩ := h.holds
  have hmeets := Node.change_content Service.holding_faithful change hholds h.issued
  obtain ⟨root, later, after, hrun, howner, hserves, -, ⟨hissued, hroot⟩, hafter⟩ :=
    Walk.run_holding_steady hsteady hstore h.serves hmeets
  refine ⟨⟨later, root⟩, after, ?_, ⟨howner ▸ hissued, hserves, content.record change,
    hrecords.record change, hroot⟩, hafter⟩
  rw [attempt_change, update, perform, hrun]
  rfl

/-! ## Lookups in a trie that was opened -/

/-- The trie keeps a ledger over some contents, and its cache, which mirrors them, has room for some
hashes. -/
structure Browses (contents : Contents) (wanted : Finset Hash) (ledger : Ledger α)
    (trie : BackedTrie) : Prop where
  keeps : trie.Keeps contents ledger
  mirrors : trie.Mirrors contents
  ready : trie.Ready
  roomy : trie.loader.cache.Roomy wanted

/-- A trie that was just opened is a reference or empty, with an empty cache and no read counted. -/
theorem openAt_new (owner : Nat) (cache : Settings) (hash : Hash) :
    let opened := BackedTrie.openAt (.new owner cache.cacheCapacity cache.positive) hash
    opened.root.isFormed = false ∧ opened.loader.cache.hashes = [] ∧ opened.loader.fetches = 0 := by
  intro opened
  show (BackedTrie.openAt _ hash).root.isFormed = false ∧
    (BackedTrie.openAt _ hash).loader.cache.hashes = [] ∧
    (BackedTrie.openAt _ hash).loader.fetches = 0
  rw [BackedTrie.openAt]
  split <;> exact ⟨rfl, rfl, rfl⟩

/-- A trie that was just opened can be browsed, if it keeps a ledger and there is room. -/
theorem Browses.openAt {owner : Nat} {cache : Settings} {hash : Hash}
    (h : (BackedTrie.openAt (.new owner cache.cacheCapacity cache.positive) hash).Keeps contents
      ledger) (hroom : wanted.card ≤ cache.cacheCapacity) :
    (BackedTrie.openAt (.new owner cache.cacheCapacity cache.positive) hash).Browses contents wanted
      ledger := by
  refine ⟨h, .openAt _ _ _ _ _, .openAt _ _ _ _, ?_⟩
  rw [BackedTrie.openAt]
  split <;> exact ⟨hroom, List.nodup_nil, List.forall_mem_nil _⟩

/-- A lookup loads trees that are held, and each load gives a node that is as in the store. -/
theorem Keeps.loads_get (h : trie.Keeps contents ledger) (hmirrors : trie.Mirrors contents)
    (hsteady : Steady contents states) (hstore : states store) (key : Bytes) :
    Node.Mirrored contents (trie.loads store (.get key : Request α)) ∧
      ∀ load ∈ trie.loads store (.get key : Request α), ∃ whole, Held contents load.hash whole := by
  obtain ⟨content, hrecords, hholds⟩ := h.holds
  have hmeets := Node.read_content Service.mirroring_faithful key hholds h.issued hrecords
  have hgood : ∀ hash, (Service.mirroring contents trie.loader.owner).asked hash →
      ∃ read, Loader.judge hash (.ok (contents hash)) = .ok read := by
    rintro hash ⟨whole, hheld⟩
    obtain ⟨read, hread, -⟩ := hheld.judge_shows
    exact ⟨read, hread⟩
  have hloads :=
    Walk.loads_steady hsteady Service.mirroring_reads hmirrors hstore hmeets hgood
  refine ⟨fun load hload ↦ ?_, fun load hload ↦ (hloads load hload).1⟩
  obtain ⟨-, given, houtcome, -, other, hother, -, hplain⟩ := hloads load hload
  refine ⟨given, houtcome, fun whole hheld ↦ ?_⟩
  rw [hheld.unique hother]
  exact hplain

/-- A lookup finds what the ledger has and asks the store for nothing but the hashes that are not
cached, with which it fills the cache. -/
theorem Browses.get (h : trie.Browses contents wanted ledger)
    (hwanted : ∀ hash whole, Held contents hash whole → hash ∈ wanted)
    (hsteady : Steady contents states) (hstore : states store) (key : Bytes) :
    let loads := trie.loads store (.get key : Request α)
    ∃ later after, trie.attempt store (.get key : Request α) =
        (.ok (.value (ledger.lookup key)), ⟨later, trie.root⟩, after) ∧
      after = (Load.reads loads).foldl NodeStore.request store ∧ states after ∧
      (⟨later, trie.root⟩ : BackedTrie).Browses contents wanted ledger ∧
      Load.Fills wanted trie.loader.cache later.cache loads ∧
      later.fetches = trie.loader.fetches + (Load.reads loads).length := by
  intro loads
  obtain ⟨content, hrecords, hholds⟩ := h.keeps.holds
  have hmeets := Node.read_content Service.holding_faithful key hholds h.keeps.issued hrecords
  have hmirroring := Node.read_content Service.mirroring_faithful key hholds h.keeps.issued hrecords
  obtain ⟨hmirrored, hheld⟩ := h.keeps.loads_get h.mirrors hsteady hstore key
  have hready := h.ready.find? (α := α) store key
  have hmirrors := (Walk.run_meets hsteady Service.mirroring_reads h.mirrors hstore hmirroring).2.1
  obtain ⟨-, hfetches, hafter⟩ :=
    Walk.run_idle h.ready.idle store (trie.root.read key : Walk (Option α))
  have hgiven : ∀ load ∈ loads, load.hash ∈ wanted ∧ ∃ node, load.outcome = .ok node := by
    intro load hload
    obtain ⟨given, houtcome, -⟩ := hmirrored load hload
    obtain ⟨whole, hwhole⟩ := hheld load hload
    exact ⟨hwanted _ whole hwhole, given, houtcome⟩
  have hfills := Walk.run_fills h.ready.idle h.roomy hgiven
  obtain ⟨found, later, after, hrun, howner, hserves, hle, rfl, hstates⟩ :=
    Walk.run_holding_steady hsteady hstore h.keeps.serves hmeets
  rw [BackedTrie.find?, perform] at hready
  rw [hrun] at hready hmirrors hfetches hafter hfills
  have hmirrors : later.Serves (.mirroring contents trie.loader.owner) := hmirrors
  have hkeeps : (⟨later, trie.root⟩ : BackedTrie).Keeps contents ledger :=
    ⟨howner ▸ h.keeps.issued.mono hle, hserves, content, hrecords, hholds⟩
  refine ⟨later, after, ?_, hafter, hstates, ⟨hkeeps, ?_, hready, hfills.roomy⟩, hfills, hfetches⟩
  · rw [attempt, BackedTrie.find?, perform, hrun]
    rfl
  · rw [← howner] at hmirrors
    exact hmirrors

/-- From a root that is a reference or empty, a lookup loads the trail of the key in the tree of the
ledger's entries. -/
theorem Keeps.loads_trail (h : trie.Keeps contents ledger) (hready : trie.Ready)
    (hmirrors : trie.Mirrors contents) (hopened : trie.root.isFormed = false)
    (hsteady : Steady contents states) (hstore : states store) (key : Bytes) :
    (trie.loads store (.get key : Request α)).map Load.hash =
      ledger.table.tree.trail key.nibbles := by
  have hway := hready.get_way (α := α) store key
  obtain ⟨hmirrored, -⟩ := h.loads_get hmirrors hsteady hstore key
  have hshows := h.root_shows.1
  generalize trie.loads store (.get key : Request α) = loads at hway hmirrored ⊢
  generalize trie.root = root at hway hopened hshows
  cases root with
  | null =>
      rw [hshows]
      cases hway
      rfl
  | stored stamp hash => exact hway.trail_eq hshows.1 hmirrored
  | leaf | extension | branch => cases hopened

end BackedTrie

namespace Session

open BackedTrie (Browses)

/-- Lookups that follow one another load the trails of the keys, read what is not cached yet, and
fill the cache. -/
theorem after_gets (session : Session σ α)
    (h : session.trie.Browses contents wanted session.ledger)
    (hwanted : ∀ hash whole, Held contents hash whole → hash ∈ wanted)
    (hopened : session.trie.root.isFormed = false) (hsteady : Steady contents states)
    (hstore : states session.store) (keys : List Bytes) :
    let last := session.after (keys.map .get)
    ∃ loads : List Load,
      loads.map Load.hash = (keys.flatMap fun key ↦ session.ledger.table.tree.trail key.nibbles) ∧
      Load.Fills wanted session.trie.loader.cache last.trie.loader.cache loads ∧
      last.trie.loader.fetches = session.trie.loader.fetches + (Load.reads loads).length ∧
      last.store = (Load.reads loads).foldl NodeStore.request session.store := by
  induction keys generalizing session with
  | nil => exact ⟨[], rfl, .nil h.roomy, rfl, rfl⟩
  | cons key keys ih =>
      have htrail := h.keeps.loads_trail h.ready h.mirrors hopened hsteady hstore key
      obtain ⟨later, after, hattempt, hafter, hstates, hlater, hfills, hfetches⟩ :=
        h.get hwanted hsteady hstore key
      have hnext : session.after ((key :: keys).map .get) =
          (⟨⟨later, session.trie.root⟩, after, session.ledger⟩ : Session σ α).after
            (keys.map .get) := by
        rw [List.map_cons, Session.after, List.foldl_cons, step, hattempt]
        rfl
      obtain ⟨loads, hloads, hmore, hcount, hlast⟩ :=
        ih ⟨⟨later, session.trie.root⟩, after, session.ledger⟩ hlater hopened hstates
      refine ⟨session.trie.loads session.store (.get key : Request α) ++ loads, ?_, ?_, ?_, ?_⟩
      · rw [List.map_append, htrail, hloads, List.flatMap_cons]
      · rw [hnext]
        exact hfills.append hmore
      · rw [hnext, hcount, hfetches, Load.reads_append, List.length_append, Nat.add_assoc]
      · rw [hnext, hlast, hafter, Load.reads_append, List.foldl_append]

end Session

/-! ## The first commit -/

/-- A store that works takes a commit as its entries in memory do. -/
theorem ProbedStore.Works.commit {nodes : MemoryStore} {store : ProbedStore} (h : store.Works nodes)
    (trie : BackedTrie) :
    ∃ later after, trie.commit store = (.ok trie.rootHash, later, after) ∧
      after.Works (trie.commit nodes).2.2 := by
  cases hformed : trie.root.isFormed with
  | false =>
      rw [BackedTrie.commit_of_not_formed store hformed,
        BackedTrie.commit_of_not_formed nodes hformed]
      exact ⟨trie, store, rfl, h⟩
  | true =>
      rw [BackedTrie.commit_eq store hformed, BackedTrie.commit_eq nodes hformed, h.putAll]
      exact ⟨_, _, rfl, h.accept _⟩

namespace BackedTrie

variable {known : Bytes → Prop} {trie : BackedTrie}

/-- The hashes that have an entry after a first commit are distinct. -/
theorem nodup_first_commit (trie : BackedTrie) :
    (trie.commit MemoryStore.empty).2.2.hashes.Nodup := by
  cases hformed : trie.root.isFormed with
  | false =>
      rw [commit_of_not_formed _ hformed]
      exact List.nodup_nil
  | true =>
      rw [commit_eq _ hformed]
      have hempty : MemoryStore.empty.hashes.Nodup := List.nodup_nil
      exact MemoryStore.nodup_hashes_insertAll hempty _

/-- Each hash that has an entry after a first commit is on the trail of a key that has a value. -/
theorem Keeps.trails_first_commit (h : trie.Keeps MemoryStore.empty.get? ledger)
    (hwritable : Writable known)
    (hwrites : ∀ entry ∈ trie.writes (.commit : Request α), known entry.2) :
    ∀ hash ∈ (trie.commit MemoryStore.empty).2.2.hashes, ledger.table.tree.Trails hash := by
  cases hformed : trie.root.isFormed with
  | false =>
      rw [commit_of_not_formed _ hformed]
      exact List.forall_mem_nil _
  | true =>
      obtain ⟨hwhole, -⟩ := h.whole_of_writes hwritable hformed hwrites
      obtain ⟨hshows, hnormal, hblank, -⟩ := h.root_shows
      have hnull : ledger.table.tree.isNull = false := by
        rw [← hshows.isNull_eq, Node.isNull_of_formed hformed]
      obtain ⟨hroot, hlong⟩ := hnormal.trails hnull
      rw [commit_of_formed hformed (hshows.sincere hnormal hblank) h.issued]
      intro hash hmem
      obtain ⟨bytes, hbytes⟩ := Option.isSome_iff_exists.mp (MemoryStore.mem_hashes_iff.mp hmem)
      rcases MemoryStore.get?_insertAll hbytes with hold | hnew
      · cases hold
      obtain ⟨part, hpart, heq⟩ := List.mem_map.mp hnew
      cases heq
      rw [Node.committed] at hpart
      rcases List.mem_append.mp hpart with hpart | hpart
      · obtain ⟨hpartFormed, below, hbelow, hbelowWhole, hof⟩ := hshows.longPart hwhole hpart
        rw [hbelow.hash_eq hbelowWhole.normal]
        refine (hof _ hlong).self ?_
        rw [← hbelow.encoding_eq hbelowWhole.normal (Node.isStored_of_formed hpartFormed)]
        rw [Node.longParts_eq_inMemory] at hpart
        obtain ⟨placed, hplaced, rfl⟩ := List.mem_map.mp hpart
        exact of_decide_eq_true (List.mem_filter.mp hplaced).2
      · split at hpart
        · rw [List.mem_singleton.mp hpart, hshows.hash_eq hnormal]
          exact hroot
        · cases hpart

end BackedTrie

/-- The keys of a ledger have values in the tree of its entries, and no others. -/
theorem Ledger.Records.exists_key (h : ledger.Records ledger.table.tree.content) {hash : Hash}
    (htrails : ledger.table.tree.Trails hash) :
    ∃ key, (ledger.lookup key).isSome = true ∧ hash ∈ ledger.table.tree.trail key.nibbles := by
  obtain ⟨path, hpath, hmem⟩ := htrails
  obtain ⟨key, rfl⟩ := h.key_of_value path hpath
  refine ⟨key, ?_, hmem⟩
  rw [h.value_eq] at hpath
  cases hlookup : ledger.lookup key with
  | some value => rfl
  | none =>
      rw [hlookup] at hpath
      exact absurd rfl hpath

namespace Session

/-- A trie without entries over an observed store without entries, after some changes. -/
def built (batches : Bool) (owner : Nat) (settings : Settings) (changes : List (Change α)) :
    Session ProbedStore α :=
  after ⟨.fresh owner settings, .empty batches, ∅⟩ (changes.map .change)

/-- The forms that a commit of the trie gives the store to write. -/
def dueForms (session : Session σ α) : List Bytes :=
  (session.trie.writes (.commit : Request α)).map Prod.snd

/-- Changes that follow one another succeed and are recorded. -/
theorem after_changes (session : Session σ α) (h : session.trie.Keeps contents session.ledger)
    (hsteady : Steady contents states) (hstore : states session.store)
    (changes : List (Change α)) :
    let last := session.after (changes.map .change)
    last.ledger = changes.foldl Ledger.record session.ledger ∧
      last.trie.Keeps contents last.ledger ∧ states last.store := by
  induction changes generalizing session with
  | nil => exact ⟨rfl, h, hstore⟩
  | cons change changes ih =>
      obtain ⟨changed, after, hattempt, hchanged, hafter⟩ :=
        h.change_steady hsteady hstore change
      have hnext : session.after ((change :: changes).map .change) =
          (⟨changed, after, session.ledger.record change⟩ : Session σ α).after
            (changes.map .change) := by
        rw [List.map_cons, Session.after, List.foldl_cons, step, hattempt]
        rfl
      rw [hnext]
      exact ih ⟨changed, after, session.ledger.record change⟩ hchanged hafter

/-- A trie without entries keeps the ledger of its changes, and the store is as it was. -/
theorem built_keeps (batches : Bool) (owner : Nat) (settings : Settings)
    (changes : List (Change α)) :
    (built batches owner settings changes).trie.Keeps MemoryStore.empty.get?
        (changes.foldl Ledger.record ∅) ∧
      (built batches owner settings changes).store.Works .empty := by
  have hfresh : (BackedTrie.fresh owner settings).Keeps MemoryStore.empty.get? (∅ : Ledger α) :=
    .empty _ _ _ _
  obtain ⟨hledger, hkeeps, hworks⟩ := after_changes ⟨.fresh owner settings, .empty batches, ∅⟩
    hfresh (ProbedStore.works_steady .empty) (ProbedStore.works_empty batches) changes
  rw [hledger] at hkeeps
  exact ⟨hkeeps, hworks⟩

/-- All keys that have values are looked up in a trie that was opened, whose cache has room for all
entries of the store. If each entry is on the trail of such a key, each is read exactly once. -/
theorem after_gets_all {store : ProbedStore} {nodes : MemoryStore} {hash : Hash} {reader : Nat}
    {cache : Settings} (hworks : store.Works nodes) (hnodup : nodes.hashes.Nodup)
    (htrails : ∀ hash ∈ nodes.hashes, ledger.table.tree.Trails hash)
    (hkeeps : (BackedTrie.openAt (.new reader cache.cacheCapacity cache.positive) hash).Keeps
      nodes.get? ledger)
    (hroom : nodes.size ≤ cache.cacheCapacity) {keys : List Bytes}
    (hall : ∀ key, (ledger.lookup key).isSome = true → key ∈ keys) :
    let opened : Session ProbedStore α :=
      ⟨.openAt (.new reader cache.cacheCapacity cache.positive) hash, store, ledger⟩
    let last := opened.after (keys.map .get)
    last.trie.loader.fetches = nodes.size ∧
      ∃ reads, last.store.reads = store.reads ++ reads ∧ reads.Perm nodes.hashes := by
  intro opened last
  have hwanted : ∀ hash whole, Held nodes.get? hash whole → hash ∈ nodes.hashes.toFinset := by
    intro hash whole hheld
    rw [List.mem_toFinset, MemoryStore.mem_hashes_iff, hheld.present]
    rfl
  have hcard : nodes.hashes.toFinset.card ≤ cache.cacheCapacity := by
    rw [List.toFinset_card_of_nodup hnodup, MemoryStore.hashes, List.length_map]
    exact hroom
  obtain ⟨hroot, hcached, hnone⟩ := BackedTrie.openAt_new reader cache hash
  obtain ⟨loads, htrail, hfills, hfetches, hlast⟩ := after_gets opened (.openAt hkeeps hcard)
    hwanted hroot (ProbedStore.works_steady nodes) hworks keys
  have hperm : (Load.reads loads).Perm nodes.hashes := by
    rw [List.perm_ext_iff_of_nodup hfills.nodup hnodup]
    intro hash
    rw [hfills.read, hcached]
    constructor
    · rintro ⟨-, hmem⟩
      exact List.mem_toFinset.mp
        (hfills.roomy.within hash ((hfills.cached hash).mpr (Or.inr hmem)))
    · intro hmem
      obtain ⟨key, hkey, hin⟩ := hkeeps.root_shows.2.2.2.exists_key (htrails hash hmem)
      rw [htrail]
      exact ⟨List.not_mem_nil, List.mem_flatMap.mpr ⟨key, hall key hkey, hin⟩⟩
  refine ⟨?_, Load.reads loads, ?_, hperm⟩
  · rw [hfetches, hnone, hperm.length_eq, Nat.zero_add, MemoryStore.hashes, List.length_map]
    rfl
  · rw [hlast, ProbedStore.foldl_request]

/-- A trie without entries is changed any number of times over an observed store without entries,
and then committed for the first time. The commit gives the root hash, and each entry that the store
has then is loaded by a lookup of some key that has a value, when the root hash is opened. If all
keys that have values are looked up in a trie that is opened on the root hash, in any order and any
number of times, and its cache has room for all entries, each entry is read exactly once, so that as
many reads are counted as the store has entries. It is assumed that no two of the forms that are
written, nor one of them and the form of the empty tree, have the same hash, and that the lengths of
all fit in 64 bits. -/
theorem first_commit_read (batches : Bool) (owner : Nat) (settings : Settings)
    (changes : List (Change α))
    (hapart : Apart (· ∈ [0x80] :: (built batches owner settings changes).dueForms))
    (hfits : ∀ bytes ∈ (built batches owner settings changes).dueForms, bytes.length < 2 ^ 64) :
    let session := built batches owner settings changes
    let ledger := changes.foldl Ledger.record ∅
    ∃ later store, session.trie.commit session.store = (.ok session.trie.rootHash, later, store) ∧
      store.nodes.hashes.Nodup ∧
      ∀ reader (cache : Settings),
        let opened : Session ProbedStore α :=
          ⟨.openAt (.new reader cache.cacheCapacity cache.positive) session.trie.rootHash, store,
            ledger⟩
        (∀ hash ∈ store.nodes.hashes, ∃ key, (ledger.lookup key).isSome = true ∧
          hash ∈ (opened.trie.loads store (.get key : Request α)).map Load.hash) ∧
        (store.nodes.size ≤ cache.cacheCapacity →
          ∀ keys : List Bytes, (∀ key, (ledger.lookup key).isSome = true → key ∈ keys) →
            let last := opened.after (keys.map .get)
            last.trie.loader.fetches = store.nodes.size ∧
              ∃ reads, last.store.reads = store.reads ++ reads ∧
                reads.Perm store.nodes.hashes) := by
  intro session ledger
  obtain ⟨hkeeps, hworks⟩ := built_keeps batches owner settings changes
  have hwritable : Writable (· ∈ [0x80] :: session.dueForms) := by
    refine ⟨hapart, fun bytes hbytes ↦ ?_, List.mem_cons_self⟩
    rcases List.mem_cons.mp hbytes with rfl | hmem
    · decide
    · exact hfits bytes hmem
  have hwrites : ∀ entry ∈ session.trie.writes (.commit : Request α),
      entry.2 ∈ [0x80] :: session.dueForms :=
    fun entry hentry ↦ List.mem_cons_of_mem _ (List.mem_map_of_mem hentry)
  obtain ⟨_, grown, hcommit, -, -, -, hopens⟩ :=
    hkeeps.commit_reopens hwritable MemoryStore.authentic_empty hwrites
  have hnodup := session.trie.nodup_first_commit
  have htrails := hkeeps.trails_first_commit hwritable hwrites
  obtain ⟨later, store, hprobed, hafter⟩ := hworks.commit session.trie
  rw [hcommit] at hnodup htrails hafter
  obtain rfl : store.nodes = grown := hafter.nodes_eq
  refine ⟨later, store, hprobed, hnodup, fun reader cache ↦ ?_⟩
  intro opened
  have hopened : opened.trie.Keeps store.nodes.get? ledger := hopens reader cache
  refine ⟨fun hash hmem ↦ ?_, fun hroom keys hall ↦
    after_gets_all hafter hnodup htrails hopened hroom hall⟩
  obtain ⟨key, hkey, hin⟩ := hopened.root_shows.2.2.2.exists_key (htrails hash hmem)
  have hloads := hopened.loads_trail (.openAt _ _ _ _) (.openAt _ _ _ _ _)
    (BackedTrie.openAt_new _ _ _).1 (ProbedStore.works_steady store.nodes) hafter key
  exact ⟨key, hkey, hloads ▸ hin⟩

/-- Two keys get one long value and a third key a short one, and a fourth key comes and goes. -/
def doubling : List (Change Bytes) :=
  [.put [0x10] (List.replicate 40 0x07), .put [0x11] [0x09], .put [0x20] (List.replicate 40 0x07),
    .put [0x30] [0x08], .remove [0x11]]

/-- Room for two nodes. -/
def pair : Settings :=
  ⟨2, by decide, by decide⟩

set_option maxRecDepth 100000 in
/-- The store has two entries, since the two long leaves are written alike. Looking up the three
keys that have values, one of them twice, reads each entry once. -/
theorem doubling_read :
    let session := built true 0 .standard doubling
    ∃ later store, session.trie.commit session.store = (.ok session.trie.rootHash, later, store) ∧
      store.nodes.size = 2 ∧
      ((⟨.openAt (.new 1 2 (by decide)) session.trie.rootHash, store,
          doubling.foldl Ledger.record ∅⟩ : Session ProbedStore Bytes).after
        ([[0x30], [0x10], [0x20], [0x10]].map .get)).trie.loader.fetches = 2 := by
  intro session
  have hforms : (∀ left ∈ [0x80] :: session.dueForms, ∀ right ∈ [0x80] :: session.dueForms,
        keccak256 left = keccak256 right → left = right) ∧
      (∀ bytes ∈ session.dueForms, bytes.length < 2 ^ 64) ∧
      (session.trie.commit session.store).2.2.nodes.size = 2 ∧
      (∀ key ∈ (doubling.foldl Ledger.record ∅ : Ledger Bytes).keys,
        key ∈ [[0x30], [0x10], [0x20], [0x10]]) := by
    decide +kernel
  obtain ⟨hapart, hfits, hsize, hkeys⟩ := hforms
  obtain ⟨later, store, hcommit, -, hread⟩ := first_commit_read true 0 .standard doubling
    (fun left right hleft hright ↦ hapart left hleft right hright) hfits
  have hstore : store.nodes.size = 2 := by
    rw [← hsize, hcommit]
  have hall : ∀ key, ((doubling.foldl Ledger.record ∅ : Ledger Bytes).lookup key).isSome = true →
      key ∈ [[0x30], [0x10], [0x20], [0x10]] :=
    fun key hkey ↦ hkeys key (AList.mem_keys.mpr (AList.lookup_isSome.mp hkey))
  have hfetches := ((hread 1 pair).2 (Nat.le_of_eq hstore) _ hall).1
  exact ⟨later, store, hcommit, hstore, hfetches.trans hstore⟩

end Session

end Patricia
