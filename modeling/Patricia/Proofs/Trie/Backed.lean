import Patricia.Proofs.Canonical.Composition
import Patricia.Proofs.Loader.Serving
import Patricia.Proofs.Store.Memory
import Patricia.Proofs.Trie.Canonical
import Patricia.Trie.Backed

/-!
# Tries over a store are finite maps

A trie over a store in memory keeps a ledger when its root holds the ledger's content, where the
store holds the trees behind references, and its cache has only nodes that show such trees
(`BackedTrie.Keeps`). Lookups then give what the ledger has, changes never fail and lead to a trie
that keeps the changed ledger, and dropping cached nodes does not matter.
-/

namespace Patricia

/-- A store in memory answers every read from its entries. -/
theorem MemoryStore.steady (store : MemoryStore) :
    Steady store.get? fun other : MemoryStore ↦ other = store where
  answer := by
    intro other hother hash
    rw [hother]
    rfl
  request hother _ := hother

namespace Service

/-- The service of the trees held in a store: it is asked for held trees only, and hands out nodes
that show them. -/
def holding (contents : Contents) (owner : Nat) : Service where
  owner := owner
  asked hash := ∃ whole, Held contents hash whole
  served hash node := node.isStored = false ∧
    ∃ whole, Held contents hash whole ∧ node.Shows (Held contents) whole

variable {contents : Contents} {owner : Nat}

/-- Whoever is served over a store is served what the store holds. -/
theorem holding_faithful : (holding contents owner).Faithful (Held contents) where
  asked hheld _ := ⟨_, hheld⟩
  shows := by
    intro hash node whole hserved hheld _
    obtain ⟨-, other, hother, hshows⟩ := hserved
    rwa [hheld.unique hother]
  known := by
    intro hash node hserved
    obtain ⟨hstored, whole, hheld, -⟩ := hserved
    exact ⟨hstored, whole, hheld, hheld.hash_eq, hheld.isNull_eq, hheld.isWhole.normal⟩

/-- What is read for a held tree may be handed out. -/
theorem holding_reads : (holding contents owner).Reads contents := by
  intro hash node hasked hjudge owner serial
  obtain ⟨whole, hheld⟩ := hasked
  obtain ⟨read, hread, hshows⟩ := hheld.judge_shows
  cases hjudge.symm.trans hread
  exact ⟨(node.issue owner serial).property, whole, hheld, hshows.issue owner serial⟩

end Service

/-- A cache that serves over a store serves over a store that has more. -/
theorem Loader.Serves.mono {loader : Loader} {contents more : Contents} {owner : Nat}
    (hmore : ∀ hash bytes, contents hash = some bytes → more hash = some bytes)
    (h : loader.Serves (.holding contents owner)) : loader.Serves (.holding more owner) := by
  refine ⟨h.owner_eq, h.issued, fun entry hentry ↦ ?_⟩
  obtain ⟨hstored, whole, hheld, hshows⟩ := h.served entry hentry
  exact ⟨hstored, whole, hheld.mono hmore, hshows.mono fun _ _ hother ↦ hother.mono hmore⟩

/-- Over a store that answers from contents, a walk that asks for trees held there only ends with a
result as guaranteed. -/
theorem Walk.run_holding_steady {σ : Type} [NodeStore σ] {states : σ → Prop} {store : σ}
    {contents : Contents} {α : Type} {walk : Walk α} {loader : Loader} {post : Nat → α → Prop}
    (hsteady : Steady contents states) (hstore : states store)
    (hserves : loader.Serves (.holding contents loader.owner))
    (h : walk.Meets (.holding contents loader.owner) post loader.mint.next) :
    ∃ result later after, walk.run loader store = (.ok result, later, after) ∧
      later.owner = loader.owner ∧ later.Serves (.holding contents later.owner) ∧
      loader.mint.next ≤ later.mint.next ∧ post later.mint.next result ∧ states after := by
  have hends := Walk.run_meets hsteady Service.holding_reads hserves hstore h
  generalize walk.run loader store = ended at hends ⊢
  obtain ⟨outcome, later, after⟩ := ended
  obtain ⟨hafter, hlater, hle, houtcome⟩ := hends
  have howner : later.owner = loader.owner := hlater.owner_eq
  cases outcome with
  | ok result => exact ⟨result, later, after, rfl, howner, howner ▸ hlater, hle, houtcome, hafter⟩
  | error failure =>
      obtain ⟨hash, error, ⟨whole, hheld⟩, hjudge, -⟩ := houtcome
      obtain ⟨read, hread, -⟩ := hheld.judge_shows
      cases hjudge.symm.trans hread

/-- A walk that asks for held trees only ends with a result as guaranteed. -/
theorem Walk.run_holding {α : Type} {walk : Walk α} {loader : Loader} {store : MemoryStore}
    {post : Nat → α → Prop} (hserves : loader.Serves (.holding store.get? loader.owner))
    (h : walk.Meets (.holding store.get? loader.owner) post loader.mint.next) :
    ∃ result later, walk.run loader store = (.ok result, later, store) ∧
      later.owner = loader.owner ∧ later.Serves (.holding store.get? later.owner) ∧
      loader.mint.next ≤ later.mint.next ∧ post later.mint.next result := by
  obtain ⟨result, later, _, hrun, howner, hlater, hle, hresult, rfl⟩ :=
    Walk.run_holding_steady store.steady rfl hserves h
  exact ⟨result, later, hrun, howner, hlater, hle, hresult⟩

namespace BackedTrie

variable {α : Type} [TrieValue α]

/-- Make a change of the trie. -/
def change (trie : BackedTrie) (store : MemoryStore) :
    Change α → Except Failure Unit × BackedTrie × MemoryStore
  | .put key value => trie.insert store key value
  | .remove key => trie.erase store key

/-- A change is the update by the walk that makes it. -/
theorem change_eq_update (trie : BackedTrie) (store : MemoryStore) (change : Change α) :
    trie.change store change = trie.update store (trie.root.change change) := by
  cases change <;> rfl

/-- Unloading a node drops a cached node or does nothing. -/
@[elab_as_elim]
theorem unload_cases {motive : BackedTrie → Prop} {trie : BackedTrie} (hsame : motive trie)
    (hevict : ∀ hash, motive { trie with loader := trie.loader.evict hash }) (node : Node) :
    motive (trie.unload node) := by
  rw [unload.eq_def]
  split
  · split
    · exact hevict _
    · exact hsame
  · exact hsame

/-- The trie's owner gave out all of its nodes, and the trie holds the content of a ledger where
trees are held in a store. Its cache serves over the store. -/
structure Keeps (contents : Contents) (trie : BackedTrie) (ledger : Ledger α) : Prop where
  issued : trie.root.Issued trie.loader.owner trie.loader.mint.next
  serves : trie.loader.Serves (.holding contents trie.loader.owner)
  holds : ∃ content, ledger.Records content ∧ trie.root.Holds (Held contents) content

namespace Keeps

variable {contents more : Contents} {trie : BackedTrie} {ledger : Ledger α} {store : MemoryStore}

/-- A trie without entries keeps the empty ledger. -/
theorem empty (contents : Contents) (owner capacity : Nat) (hpos : 0 < capacity) :
    (BackedTrie.empty (.new owner capacity hpos)).Keeps contents (∅ : Ledger α) :=
  ⟨Node.issued_null, .new rfl, .nothing, .empty, Node.holds_null⟩

/-- The store may have more. -/
theorem mono (hmore : ∀ hash bytes, contents hash = some bytes → more hash = some bytes)
    (h : trie.Keeps contents ledger) : trie.Keeps more ledger := by
  obtain ⟨content, hrecords, whole, hshows, hwhole⟩ := h.holds
  exact ⟨h.issued, h.serves.mono hmore, content, hrecords, whole,
    hshows.mono fun _ _ hother ↦ hother.mono hmore, hwhole⟩

/-- A lookup never fails and gives what the ledger has. -/
theorem find?_eq (h : trie.Keeps store.get? ledger) (key : Bytes) :
    ∃ later, trie.find? store key = (.ok (ledger.lookup key), later, store) ∧
      later.Keeps store.get? ledger := by
  obtain ⟨content, hrecords, hholds⟩ := h.holds
  have hmeets := Node.read_content Service.holding_faithful key hholds h.issued hrecords
  obtain ⟨found, later, hrun, howner, hserves, hle, rfl⟩ := Walk.run_holding h.serves hmeets
  refine ⟨⟨later, trie.root⟩, ?_, howner ▸ h.issued.mono hle, hserves, content, hrecords, hholds⟩
  rw [BackedTrie.find?, perform, hrun]

/-- A change never fails, and the trie then keeps the changed ledger. -/
theorem change (h : trie.Keeps store.get? ledger) (change : Change α) :
    ∃ changed, trie.change store change = (.ok (), changed, store) ∧
      changed.Keeps store.get? (ledger.record change) := by
  obtain ⟨content, hrecords, hholds⟩ := h.holds
  have hmeets := Node.change_content Service.holding_faithful change hholds h.issued
  obtain ⟨root, later, hrun, howner, hserves, -, hissued, hroot⟩ := Walk.run_holding h.serves hmeets
  have hupdate : trie.change store change = (.ok (), ⟨later, root⟩, store) := by
    rw [change_eq_update, update, perform, hrun]
  exact ⟨⟨later, root⟩, hupdate, howner ▸ hissued, hserves, content.record change,
    hrecords.record change, hroot⟩

/-- Cached nodes can be dropped. -/
theorem unload (h : trie.Keeps contents ledger) (node : Node) :
    (trie.unload node).Keeps contents ledger :=
  unload_cases h (fun hash ↦ ⟨h.issued, h.serves.evict hash, h.holds⟩) node

/-- The root shows the tree of the ledger's entries, which has the ledger's content. -/
theorem root_shows (h : trie.Keeps contents ledger) :
    trie.root.Shows (Held contents) ledger.table.tree ∧ ledger.table.tree.Normal ∧
      ledger.table.tree.Blank ∧ ledger.Records ledger.table.tree.content := by
  obtain ⟨content, hrecords, hholds⟩ := h.holds
  exact hholds.shows_tree hrecords fun _ _ hheld ↦ hheld.isWhole.blank

/-- A reference to the tree of a ledger's entries keeps the ledger. -/
theorem of_held {hash : Hash} {loader : Loader}
    (hheld : Held contents hash ledger.table.tree)
    (hrecords : ledger.Records ledger.table.tree.content)
    (hserves : loader.Serves (.holding contents loader.owner)) :
    Keeps contents ⟨(loader.refer hash).2, (loader.refer hash).1⟩ ledger where
  issued := fun _ ↦ ⟨rfl, Nat.lt_succ_self _⟩
  serves := hserves.advance rfl rfl (Nat.le_succ _)
  holds := ⟨_, hrecords, _, ⟨hheld, hheld.hash_eq, hheld.isNull_eq⟩, hheld.isWhole.normal, rfl⟩

/-- The root's hash is that of the composed form of the ledger's entries. -/
theorem rootHash_eq (h : trie.Keeps contents ledger) :
    trie.rootHash = keccak256 ledger.table.form := by
  obtain ⟨hshows, hnormal, -, -⟩ := h.root_shows
  exact hshows.hash_eq_form hnormal

/-- The trie is empty exactly when the ledger is. -/
theorem isEmpty_iff (h : trie.Keeps contents ledger) : trie.isEmpty = true ↔ ledger = ∅ := by
  obtain ⟨content, hrecords, hholds⟩ := h.holds
  exact hholds.isNull_iff.trans hrecords.eq_nothing_iff

end Keeps

end BackedTrie

end Patricia
