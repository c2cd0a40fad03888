import Patricia.Proofs.Trie.Backed
import Patricia.Proofs.Walk.Outcome
import Patricia.Trie.Backed

/-!
# Tries opened on any store

A trie is opened on a hash over a store that may hold anything, and changed by `changeAll`. Every
change that succeeds keeps the tree in good standing under any service that the store provides
(`Upheld.change`). So the trie stays in the state `Opened`, in which a read comes to what it does
over the contents of the store, and its tree is written as it says (`Node.Candid`) if the nodes in
the store are (`changeAll_candid`).
-/

namespace Patricia

namespace Node

/-- The tree is written as it says: all nodes as they would be anew from their parts, and no branch
with an empty value, which is written like none. -/
def Candid (node : Node) : Prop :=
  node.All fun node ↦ node.Sincere ∧
    ∀ stamp occupied slots, node ≠ .branch stamp occupied slots (some [])

/-- A tree is written as it says if all its nodes are as they would be anew and none is hollow. -/
theorem candid_iff {node : Node} :
    node.Candid ↔ node.All fun node ↦ node.Sincere ∧ node.isHollow = false := by
  have hiff : ∀ node : Node, (∀ stamp occupied slots,
      node ≠ .branch stamp occupied slots (some [])) ↔ node.isHollow = false := by
    intro node
    cases node with
    | branch stamp occupied slots value => simp [isHollow]
    | null | leaf | extension | stored => simp [isHollow]
  simp only [Candid, hiff]

instance (node : Node) : Decidable node.Candid :=
  decidable_of_iff' _ candid_iff

variable {node : Node}

/-- A well-formed tree that is written as it says is legible. -/
theorem Candid.legible (h : node.Candid) (hformed : node.WellFormed) : node.Legible :=
  (All.and h hformed).imp fun _ hnode ↦ ⟨hnode.1.1, hnode.2, hnode.1.2⟩

/-- A tree without empty values is written as it says if all its nodes are written anew. -/
theorem candid_of_proper (h : node.All (Proper (· ≠ []))) (hsincere : node.All Sincere) :
    node.Candid := by
  refine (All.and h hsincere).imp fun node hnode ↦ ⟨hnode.2, ?_⟩
  rintro stamp occupied slots rfl
  exact hnode.1.2.2 [] rfl rfl

/-- Other instances of a tree are written anew if it is and they were read from the same bytes. -/
theorem Sincere.issue (h : node.All Sincere) (owner serial : Nat) :
    (node.issue owner serial).All Sincere := by
  refine h.restamp _ (fun node position hnode ↦ ?_) []
  have hencoding := fun node position ↦
    @encoding_restamp (fun position stamp ↦ ⟨owner, serial, position, stamp.source⟩)
      (fun _ _ ↦ rfl) node position
  rw [Sincere, (hencoding node position).1, hnode]
  cases node with
  | null | leaf | stored => rfl
  | extension stamp first rest child =>
      exact congrArg (extensionForm (first :: rest)) (hencoding child _).2.symm
  | branch stamp occupied slots value =>
      rw [restamp_branch]
      exact congrArg (branchForm · value) (funext fun slot ↦ (hencoding (slots slot) _).2.symm)

/-- A change of a standing tree ends with a standing tree, the given one or no reference. -/
theorem change_standing {α : Type} [TrieValue α] {service : Service} {full : Bytes → Prop}
    {q : Node → Prop} {bound : Nat} (hservice : service.Steady full q)
    (hfull : ∀ bytes, bytes ≠ [] → full bytes) (change : Change α)
    (h : node.Standing full q service.owner bound) :
    (node.change change).Meets service.unbarred
      (fun later updated ↦ updated.Standing full q service.owner later ∧
        (updated = node ∨ updated.isStored = false)) bound := by
  have hremove : ∀ key : Bytes, (node.remove key).Meets service.unbarred
      (fun later updated ↦ updated.Standing full q service.owner later ∧
        (updated = node ∨ updated.isStored = false)) bound := by
    intro key
    refine (erase_standing hservice key.nibbles h).mono ?_
    intro later updated _ hupdated
    obtain ⟨hstanding, heq | ⟨-, hnew⟩⟩ := hupdated
    · exact ⟨hstanding, Or.inl heq⟩
    · exact ⟨hstanding, Or.inr hnew.isStored_eq⟩
  cases change with
  | remove key => exact hremove key
  | put key value =>
      rw [Node.change, write]
      by_cases hempty : (TrieValue.encode value).isEmpty = true
      · rw [if_pos hempty]
        exact hremove key
      · rw [if_neg hempty]
        have hbytes := hfull _ fun hnil ↦ hempty (List.isEmpty_iff.mpr hnil)
        refine (insert_standing hservice key.nibbles hbytes h).mono ?_
        intro later updated _ hupdated
        exact ⟨hupdated.1.1, Or.inr hupdated.1.2.isStored_eq⟩

end Node

/-! ## Stores written as they say -/

/-- What can be read from some contents has no empty values and is written as it would be anew. -/
def Clean (contents : Contents) : Prop :=
  ∀ hash read, Loader.judge hash (.ok (contents hash)) = .ok read →
    read.val.All (Node.Proper (· ≠ [])) ∧ read.val.All Node.Sincere

namespace Service

variable {contents : Contents} {owner : Nat}

/-- The service that hands out only nodes that obey the rules and all have a further property. -/
def restrict (service : Service) (full : Bytes → Prop) (q : Node → Prop) : Service :=
  { service with
    served := fun hash node ↦ service.served hash node ∧
      node.All (Node.Proper full) ∧ node.All q }

/-- A steady service stays steady when it hands out fewer nodes, whose further property may be one
that references need not have. -/
theorem Steady.narrow {service : Service} {full full' : Bytes → Prop} {q q' : Node → Prop}
    (h : service.Steady full' q') (hinherent : Node.Inherent q) :
    (service.restrict full q).Steady full q where
  inherent := hinherent
  proper hserved := hserved.2.1
  kept hserved := hserved.2.2
  present hserved := h.present hserved.1

/-- A steady service stays steady when it hands out fewer nodes. -/
theorem Steady.restrict {service : Service} {full full' : Bytes → Prop} {q q' : Node → Prop}
    (h : service.Steady full' q') (hnative : Node.Native q) :
    (service.restrict full q).Steady full q :=
  h.narrow hnative.inherent

/-- The service of what can be read from contents that are written as they say. -/
def cleanly (contents : Contents) (owner : Nat) : Service :=
  { through contents owner with
    served := fun hash node ↦ (through contents owner).served hash node ∧
      node.All (Node.Proper (· ≠ [])) ∧ node.All Node.Sincere }

/-- What is read from clean contents may be handed out. -/
theorem cleanly_reads (hclean : Clean contents) : (cleanly contents owner).Reads contents := by
  intro hash node _ hjudge owner' serial
  obtain ⟨hproper, hsincere⟩ := hclean hash node hjudge
  have hreads : (through contents owner).Reads contents := through_reads
  exact ⟨hreads trivial hjudge owner' serial, Node.proper_of_plain (Node.plain_issue _ _ _) hproper,
    Node.Sincere.issue hsincere owner' serial⟩

/-- What is read from clean contents is steady, without empty values and written anew. -/
theorem cleanly_steady : (cleanly contents owner).Steady (· ≠ []) Node.Sincere :=
  have hsteady : (through contents owner).Steady (fun _ ↦ True) fun _ ↦ True := through_steady
  hsteady.restrict fun _ ↦ Node.encoding_eq_form

end Service

namespace BackedTrie

variable {α : Type} [TrieValue α] {contents : Contents} {trie changed : BackedTrie}
  {store store' : MemoryStore} {origin : Hash}

/-! ## Changes -/

/-- Changes of a trie, one after the other, if all of them succeed. -/
def changeAll (trie : BackedTrie) (store : MemoryStore) :
    List (Change α) → Except Failure (BackedTrie × MemoryStore)
  | [] => .ok (trie, store)
  | change :: changes =>
      match trie.change store change with
      | (.ok (), trie, store) => trie.changeAll store changes
      | (.error failure, _, _) => .error failure

/-- A trie's tree is in good standing, and its cache has only what a service may hand out. -/
structure Upheld (service : Service) (full : Bytes → Prop) (q : Node → Prop) (trie : BackedTrie) :
    Prop where
  standing : trie.root.Standing full q service.owner trie.loader.mint.next
  serves : trie.loader.Serves service

section Upheld

variable {service : Service} {full : Bytes → Prop} {q : Node → Prop}

/-- A trie that was just opened is in good standing. -/
theorem Upheld.openAt (hq : Node.Native q) {owner capacity : Nat} (howner : service.owner = owner)
    (hpos : 0 < capacity) (origin : Hash) :
    (BackedTrie.openAt (.new owner capacity hpos) origin).Upheld service full q := by
  have hserves : (Loader.new owner capacity hpos).Serves service := .new howner
  rw [BackedTrie.openAt]
  split
  · exact ⟨.null hq.inherent, hserves⟩
  · exact ⟨⟨trivial, hq _ rfl, fun _ ↦ ⟨howner.symm, Nat.lt_succ_self _⟩⟩,
      hserves.advance rfl rfl (Nat.le_succ _)⟩

/-- A change that succeeds keeps the tree in good standing and the store as it is. It keeps the
root, or the new root is no reference. -/
theorem Upheld.change (hservice : service.Steady full q)
    (hreads : service.unbarred.Reads store.get?) (hfull : ∀ bytes, bytes ≠ [] → full bytes)
    (h : trie.Upheld service full q) {change : Change α}
    (hchange : trie.change store change = (.ok (), changed, store')) :
    store' = store ∧ changed.Upheld service full q ∧
      (changed.root = trie.root ∨ changed.root.isStored = false) := by
  have hmeets := Node.change_standing hservice hfull change h.standing
  have hserves : trie.loader.Serves service.unbarred :=
    ⟨h.serves.owner_eq, h.serves.issued, h.serves.served⟩
  have hends := Walk.run_meets store.steady hreads hserves rfl hmeets
  rw [change_eq_update, update, perform] at hchange
  generalize (trie.root.change change).run trie.loader store = ended at hends hchange
  obtain ⟨outcome, later, other⟩ := ended
  obtain ⟨rfl, hlater, -, houtcome⟩ := hends
  cases outcome with
  | error failure => cases hchange
  | ok root =>
      cases hchange
      obtain ⟨hstanding, hroot⟩ := houtcome
      exact ⟨rfl, ⟨hstanding, hlater.owner_eq, hlater.issued, hlater.served⟩, hroot⟩

/-- Changes that succeed keep the tree in good standing and the store as it is. They keep the root,
or the last root is no reference. -/
theorem Upheld.changeAll (hservice : service.Steady full q)
    (hreads : service.unbarred.Reads store.get?) (hfull : ∀ bytes, bytes ≠ [] → full bytes)
    (h : trie.Upheld service full q) {changes : List (Change α)}
    (hchanges : trie.changeAll store changes = .ok (changed, store')) :
    store' = store ∧ changed.Upheld service full q ∧
      (changed.root = trie.root ∨ changed.root.isStored = false) := by
  induction changes generalizing trie with
  | nil =>
      cases hchanges
      exact ⟨rfl, h, Or.inl rfl⟩
  | cons change changes ih =>
      rw [BackedTrie.changeAll] at hchanges
      split at hchanges
      · rename_i next other hchange
        obtain ⟨rfl, hnext, hroot⟩ := h.change hservice hreads hfull hchange
        obtain ⟨hstore, hchanged, hlast⟩ := ih hnext hchanges
        refine ⟨hstore, hchanged, ?_⟩
        -- Once the root is no reference, it never is one again.
        rcases hlast with hlast | hlast
        · rw [hlast]
          exact hroot
        · exact Or.inr hlast
      · cases hchanges

end Upheld

/-- The tree of a trie over clean contents is written as it says, after any changes. -/
theorem changeAll_candid (owner : Nat) (settings : Settings) (changes : List (Change α))
    (hclean : Clean store.get?)
    (hchanges : (openAt (.new owner settings.cacheCapacity settings.positive) origin).changeAll
      store changes = .ok (trie, store')) : trie.root.Candid := by
  have hservice : (Service.cleanly store.get? owner).Steady (· ≠ []) Node.Sincere :=
    Service.cleanly_steady
  have hopen : (openAt (.new owner settings.cacheCapacity settings.positive) origin).Upheld
      (.cleanly store.get? owner) (· ≠ []) Node.Sincere :=
    .openAt (fun _ ↦ Node.encoding_eq_form) rfl settings.positive origin
  obtain ⟨-, h, -⟩ := hopen.changeAll hservice (Service.cleanly_reads hclean) (fun _ ↦ id) hchanges
  exact Node.candid_of_proper h.standing.proper h.standing.kept

/-! ## Reads -/

/-- What a read of each key comes to. -/
def reads (α : Type) [TrieValue α] (trie : BackedTrie) (store : MemoryStore) (key : Bytes) :
    Except Failure (Option α) :=
  (trie.find? store key).1

/-- The state of a trie that was opened on a hash over some contents and then changed: its tree is
in good standing, its cache has only what can be read, and as long as the root is a reference it is
the one that was opened. -/
structure Opened (contents : Contents) (origin : Hash) (trie : BackedTrie) : Prop
    extends trie.Upheld (.through contents trie.loader.owner) (fun _ ↦ True) (fun _ ↦ True) where
  origin_eq : trie.root.isStored = true → trie.root.hash = origin

/-- A trie that was just opened is so. -/
theorem Opened.openAt (contents : Contents) (origin : Hash) (owner capacity : Nat)
    (hpos : 0 < capacity) :
    Opened contents origin (BackedTrie.openAt (.new owner capacity hpos) origin) := by
  have howner : (BackedTrie.openAt (.new owner capacity hpos) origin).loader.owner = owner := by
    rw [BackedTrie.openAt]
    split <;> rfl
  refine ⟨Upheld.openAt (fun _ _ ↦ trivial) howner hpos origin, ?_⟩
  rw [BackedTrie.openAt]
  split
  · intro hstored
    cases hstored
  · exact fun _ ↦ rfl

/-- A read comes to what it does over the contents. -/
theorem Opened.find?_eq (h : trie.Opened store.get? origin) (key : Bytes) :
    trie.reads α store key =
      ((trie.root.find? key.nibbles).outcome store.get? >>= Node.interpret) :=
  Node.run_read store.steady h.serves rfl h.standing.issued key

/-- A read below a reference comes to what it does below any reference to the same hash. -/
theorem Opened.find?_of_stored (h : trie.Opened store.get? origin) {hash : Hash}
    (hplain : trie.root.plain = .stored .blank hash) (key : Bytes) :
    trie.reads α store key =
      (((Node.stored .blank hash).find? key.nibbles).outcome store.get? >>= Node.interpret) := by
  have hreference : trie.root.plain = (Node.stored .blank hash).plain := hplain
  rw [h.find?_eq, Node.outcome_find?_of_plain hreference]

/-- The cached node of the root can be dropped. -/
theorem Opened.unloadRoot (h : trie.Opened contents origin) :
    trie.unloadRoot.Opened contents origin ∧ trie.unloadRoot.root = trie.root := by
  rw [BackedTrie.unloadRoot]
  exact unload_cases ⟨h, rfl⟩
    (fun hash ↦ ⟨⟨⟨h.standing, h.serves.evict hash⟩, h.origin_eq⟩, rfl⟩) trie.root

/-- The root can be read if there is a node under its hash. -/
theorem Opened.resolve_ok (h : trie.Opened store.get? origin) {read : Resolved}
    (hread : Loader.judge origin (.ok (store.get? origin)) = .ok read) :
    ∃ node, (trie.perform store trie.root.resolve).1 = .ok node := by
  have hmeets : trie.root.resolve.Meets (.toward store.get? trie.loader.owner (.ok ()))
      (fun _ _ ↦ True) trie.loader.mint.next := by
    have hstanding := h.standing
    have horigin := h.origin_eq
    cases hroot : trie.root with
    | null | leaf | extension | branch => exact trivial
    | stored stamp hash =>
        rw [hroot] at hstanding horigin
        obtain rfl : hash = origin := horigin rfl
        refine .load hstanding.home_eq (fun error herror ↦ ?_) fun _ _ _ _ _ ↦ trivial
        cases hread.symm.trans herror
  have hserves : trie.loader.Serves (.toward store.get? trie.loader.owner (.ok ())) :=
    ⟨h.serves.owner_eq, h.serves.issued, h.serves.served⟩
  have hends := Walk.run_meets store.steady Service.toward_reads hserves rfl hmeets
  rw [perform]
  generalize trie.root.resolve.run trie.loader store = ended at hends ⊢
  obtain ⟨outcome, later, other⟩ := ended
  obtain ⟨-, -, -, houtcome⟩ := hends
  cases outcome with
  | ok node => exact ⟨node, rfl⟩
  | error failure =>
      obtain ⟨hash, error, hasked, hjudge, -⟩ := houtcome
      cases hasked error hjudge

/-- Changes that succeed leave the trie in such a state and the store as it is. -/
theorem Opened.changeAll {changes : List (Change α)} (h : trie.Opened store.get? origin)
    (hchanges : trie.changeAll store changes = .ok (changed, store')) :
    store' = store ∧ changed.Opened store.get? origin := by
  obtain ⟨rfl, hupheld, hroot⟩ := h.toUpheld.changeAll Service.through_steady
    Service.through_reads (fun _ _ ↦ trivial) hchanges
  have howner : changed.loader.owner = trie.loader.owner := hupheld.serves.owner_eq
  rw [← howner] at hupheld
  refine ⟨rfl, hupheld, fun hstored ↦ ?_⟩
  rcases hroot with hroot | hnot
  · rw [hroot] at hstored ⊢
    exact h.origin_eq hstored
  · rw [hnot] at hstored
    cases hstored

end BackedTrie

end Patricia
