import Patricia.Proofs.Loader.Primed
import Patricia.Proofs.Trie.Entries
import Patricia.Proofs.Trie.Lazy

/-!
# What a commit leaves in the cache

A commit puts the nodes that it writes into the cache, the root last. Whatever was cached before,
the cache then has the hashes that were written, the last one first, as far as there is room
(`Commons.commit_warms`). So the root is cached in any case, and all of them if they fit. As long as
nothing is dropped from the cache, a lookup that meets no other nodes than these asks the store for
nothing.
-/

namespace Patricia

variable {σ : Type} [NodeStore σ] {α : Type} [TrieValue α]

/-- The reply to a lookup that found some bytes or none. The value codec may refuse them. -/
def Reply.ofFound : Option Bytes → Except Failure (Reply α)
  | none => .ok (.value none)
  | some bytes =>
      match TrieValue.decode bytes with
      | .ok found => .ok (.value (some found))
      | .error error => .error (.error error)

namespace BackedTrie

variable {trie : BackedTrie} {cache : Recency}

/-- The trie with another cache. -/
def recached (trie : BackedTrie) (cache : Recency) : BackedTrie :=
  { trie with loader := { trie.loader with cache } }

/-- The trie may have the cache: the cached hashes are distinct, and the nodes obey the rules and
were given out by the trie's loader, under whatever hashes they are. -/
structure Suits (trie : BackedTrie) (cache : Recency) : Prop where
  distinct : cache.hashes.Nodup
  ready : (trie.recached cache).Ready

/-! ## Distinct hashes -/

/-- The cache of a loader after nodes were put in one after the other. -/
theorem cache_retainAll (loader : Loader) (nodes : List Outgoing) :
    (nodes.foldl (fun loader node ↦ loader.retain node.hash node.node) loader).cache =
      loader.cache.putAll (nodes.map fun node ↦ (node.hash, node.node)) := by
  induction nodes generalizing loader with
  | nil => rfl
  | cons node nodes ih => exact ih (loader.retain node.hash node.node)

/-- A walk over the trie's nodes leaves the hashes in the cache distinct. -/
theorem nodup_update (h : trie.loader.cache.hashes.Nodup) (store : σ) (walk : Walk Node) :
    (trie.update store walk).2.1.loader.cache.hashes.Nodup := by
  have hrun := Walk.nodup_run h store walk
  rw [update, perform]
  generalize walk.run trie.loader store = ended at hrun ⊢
  obtain ⟨failure | root, later, after⟩ := ended <;> exact hrun

/-- A commit leaves the hashes in the cache distinct. -/
theorem nodup_commit (h : trie.loader.cache.hashes.Nodup) (store : σ) :
    (trie.commit store).2.1.loader.cache.hashes.Nodup := by
  cases hformed : trie.root.isFormed with
  | false =>
      rw [commit_of_not_formed store hformed]
      exact h
  | true =>
      have hprimed : trie.primed.cache.hashes.Nodup := by
        rw [primed, cache_retainAll]
        exact Recency.nodup_putAll h _
      rw [commit_eq store hformed]
      rcases NodeStore.putAll store (trie.outgoing.1.map Outgoing.entry) with ⟨error | _, after⟩
      · exact h
      · exact hprimed

/-- A request leaves the hashes in the cache distinct. -/
theorem nodup_attempt (h : trie.loader.cache.hashes.Nodup) (store : σ) (request : Request α) :
    (trie.attempt store request).2.1.loader.cache.hashes.Nodup := by
  have hunload : ∀ node, (trie.unload node).loader.cache.hashes.Nodup :=
    fun node ↦ unload_cases h (fun hash ↦ Recency.nodup_evict h hash) node
  cases request with
  | change change =>
      rw [attempt_change]
      exact nodup_update h store _
  | get key => exact Walk.nodup_run h store (trie.root.read key : Walk (Option α))
  | commit => exact nodup_commit h store
  | unload node => exact hunload node
  | unloadRoot => exact hunload trie.root
  | reopen owner settings =>
      have hcommit := nodup_commit h store
      rw [attempt]
      generalize trie.commit store = ended at hcommit ⊢
      obtain ⟨failure | hash, later, after⟩ := ended
      · exact hcommit
      · show (openAt _ _).loader.cache.hashes.Nodup
        rw [openAt]
        split <;> exact List.nodup_nil

/-! ## What is cached after a commit -/

section Commit

variable {store : σ} {hash : Hash} (hformed : trie.root.isFormed = true)

include hformed

omit [NodeStore σ] [TrieValue α] in
/-- The hashes that a commit writes are those that it puts into the cache. -/
theorem hashes_writes : (trie.writes (.commit : Request α)).map Prod.fst =
    (trie.outgoing.1.map fun node ↦ (node.hash, node.node)).map Prod.fst := by
  rw [writes, if_pos hformed, List.map_map, List.map_map]
  rfl

omit [NodeStore σ] [TrieValue α] in
/-- The root hash is written last. -/
theorem hashes_writes_last (hsincere : trie.root.All Node.Sincere)
    (hissued : trie.root.Issued trie.loader.owner trie.loader.mint.next) :
    ∃ below, (trie.writes (.commit : Request α)).map Prod.fst = below ++ [trie.rootHash] := by
  obtain ⟨below, hbelow⟩ := Node.committed_last hformed
  refine ⟨below.map Node.hash, ?_⟩
  rw [writes, if_pos hformed, outgoing_entries hformed hsincere hissued, hbelow, List.map_map,
    List.map_append]
  rfl

/-- A commit that succeeds gives the root hash and puts what it wrote into the cache. -/
theorem commit_primes (hcommit : (trie.attempt store (.commit : Request α)).1 = .ok (.hash hash)) :
    hash = trie.rootHash ∧ (trie.attempt store (.commit : Request α)).2.1.loader.cache =
      trie.loader.cache.putAll (trie.outgoing.1.map fun node ↦ (node.hash, node.node)) := by
  rw [attempt, commit_eq store hformed] at hcommit ⊢
  generalize NodeStore.putAll store (trie.outgoing.1.map Outgoing.entry) = put at hcommit ⊢
  obtain ⟨error | _, after⟩ := put
  · cases hcommit
  · cases hcommit
    exact ⟨rfl, cache_retainAll trie.outgoing.2.loader trie.outgoing.1⟩

/-- After a commit that succeeds, the cache has the hashes that were written, the last one first,
and then those of before, as far as there is room. The hash that the commit gives comes first. -/
theorem hashes_commit (hsincere : trie.root.All Node.Sincere)
    (hissued : trie.root.Issued trie.loader.owner trie.loader.mint.next)
    (hdistinct : trie.loader.cache.hashes.Nodup)
    (hcommit : (trie.attempt store (.commit : Request α)).1 = .ok (.hash hash)) :
    let written := (trie.writes (.commit : Request α)).map Prod.fst
    let warm := (trie.attempt store (.commit : Request α)).2.1.loader.cache
    warm.hashes = (Recency.latest written ++ trie.loader.cache.hashes.filter (· ∉ written)).take
        trie.loader.cache.capacity ∧
      warm.hashes.head? = some hash := by
  intro written warm
  obtain ⟨rfl, hwarm⟩ := commit_primes hformed hcommit
  obtain ⟨below, hlast⟩ : ∃ below, written = below ++ [trie.rootHash] :=
    hashes_writes_last hformed hsincere hissued
  have hwritten : written = (trie.outgoing.1.map fun node ↦ (node.hash, node.node)).map Prod.fst :=
    hashes_writes hformed
  have hcached : warm =
      trie.loader.cache.putAll (trie.outgoing.1.map fun node ↦ (node.hash, node.node)) := hwarm
  rw [hcached]
  refine ⟨?_, Recency.head?_hashes_putAll (hwritten.symm.trans hlast)⟩
  rw [hwritten]
  exact Recency.hashes_putAll hdistinct _

end Commit

/-! ## Lookups of cached nodes -/

/-- If a lookup asks the store for nothing, its reply is made of what it found. -/
theorem Ready.get_answered (h : trie.Ready) {store : σ} {key : Bytes}
    (hreads : Load.reads (trie.loads store (.get key : Request α)) = []) :
    ∃ found, (trie.attempt store (.get key : Request α)).1 = Reply.ofFound found := by
  have hmeets := Node.find?_standing Service.lawful_steady key.nibbles h.lawful.standing
  obtain ⟨outcome, later, after, hperform, -, -, houtcome⟩ :=
    perform_concludes store hmeets h.lawful.serves fun _ _ ↦ Service.lawful_takes _ _
  have hheard : (trie.root.find? key.nibbles).heard trie.loader store = [] := by
    rw [loads, (Node.read_frame trie.root trie.loader store key).1, Walk.reads_eq_heard] at hreads
    exact List.map_eq_nil_iff.mp hreads
  rw [BackedTrie.attempt, BackedTrie.find?, Node.read, perform_bind, hperform]
  cases outcome with
  | error failure =>
      -- A lookup fails only with an answer of the store, and there was none.
      obtain ⟨entry, hentry, -⟩ := houtcome
      rw [hheard] at hentry
      cases hentry
  | ok found =>
      refine ⟨found, ?_⟩
      cases found with
      | none => rfl
      | some bytes =>
          cases hdecode : (TrieValue.decode bytes : Except TrieError α) <;>
            simp only [Reply.ofFound, hdecode] <;> rfl

/-- A lookup all of whose loads are of cached hashes asks the store for nothing and drops nothing
from the cache. It is answered as over any other store. -/
theorem Ready.get_cached (h : trie.Ready) {store : σ} {key : Bytes}
    (hcached : ∀ load ∈ trie.loads store (.get key : Request α),
      load.hash ∈ trie.loader.cache.hashes) :
    Load.reads (trie.loads store (.get key : Request α)) = [] ∧
      (trie.attempt store (.get key : Request α)).2.2 = store ∧
      (trie.attempt store (.get key : Request α)).2.1.loader.fetches = trie.loader.fetches ∧
      (∀ hash, hash ∈ (trie.attempt store (.get key : Request α)).2.1.loader.cache.hashes ↔
        hash ∈ trie.loader.cache.hashes) ∧
      ∀ (τ : Type) [NodeStore τ] (other : τ),
        (trie.attempt other (.get key : Request α)).1 =
          (trie.attempt store (.get key : Request α)).1 := by
  have hwalk : ∀ load ∈ (trie.root.read key : Walk (Option α)).loads trie.loader store,
      load.hash ∈ trie.loader.cache.hashes := hcached
  obtain ⟨hreads, hsame⟩ := Walk.run_cached hwalk
  obtain ⟨-, hfetches, hstore⟩ :=
    Walk.run_idle h.idle store (trie.root.read key : Walk (Option α))
  rw [hreads] at hfetches hstore
  have haccess : (.get key : Request α).isAccess = true := rfl
  obtain ⟨-, hframe⟩ := h.attempt_frame store haccess
  refine ⟨hreads, hstore, hfetches, hsame, fun τ _ other ↦ (hframe τ other ?_).1⟩
  rw [loads, hreads]
  rfl

end BackedTrie

namespace Commons

open Recency (latest)

variable {commons : Commons σ α} {acts : List (Act α)} {name : Nat}

/-- The commons with another cache for the trie of a name. -/
def recached (commons : Commons σ α) (name : Nat) (cache : Recency) : Commons σ α :=
  { commons with
    tries := Function.update commons.tries name ((commons.tries name).recached cache) }

omit [NodeStore σ] [TrieValue α] in
/-- The trie of the name is the same but for its cache. -/
theorem tries_recached (commons : Commons σ α) (name : Nat) (cache : Recency) :
    (commons.recached name cache).tries name = (commons.tries name).recached cache :=
  Function.update_self name _ commons.tries

/-- After a request the trie that received it is as the request left it. -/
theorem tries_ask (commons : Commons σ α) (name : Nat) (request : Request α) :
    (commons.ask name request).2.tries name =
      ((commons.tries name).attempt commons.store request).2.1 :=
  Function.update_self name _ commons.tries

/-- In the course of some acts nothing is dropped from the cache of the trie of a name. -/
def Retains (commons : Commons σ α) (name : Nat) (acts : List (Act α)) : Prop :=
  ∀ before act, before ++ [act] <+: acts →
    ((commons.after before).tries name).loader.cache.hashes ⊆
      ((commons.after (before ++ [act])).tries name).loader.cache.hashes

/-- Before any act nothing is dropped. -/
theorem Retains.nil : commons.Retains name [] := fun before act hpart ↦
  absurd (List.prefix_nil.mp hpart) (List.append_ne_nil_of_right_ne_nil before
    (List.cons_ne_nil act []))

/-- What was cached before such acts is cached after them. -/
theorem Retains.subset (h : commons.Retains name acts) :
    (commons.tries name).loader.cache.hashes ⊆
      ((commons.after acts).tries name).loader.cache.hashes := by
  induction acts using List.reverseRecOn with
  | nil => exact List.Subset.refl _
  | append_singleton acts act ih =>
      have hbefore : commons.Retains name acts := fun before act hpart ↦
        h before act (hpart.trans (List.prefix_append _ _))
      exact List.Subset.trans (ih hbefore) (h acts act List.prefix_rfl)

/-- One more act may follow that drops nothing. -/
theorem Retains.concat (h : commons.Retains name acts) {act : Act α}
    (hact : ((commons.after acts).tries name).loader.cache.hashes ⊆
      ((commons.after (acts ++ [act])).tries name).loader.cache.hashes) :
    commons.Retains name (acts ++ [act]) := by
  intro before last hpart
  rcases List.prefix_concat_iff.mp hpart with heq | hbefore
  · rw [heq]
    obtain ⟨rfl, -⟩ := List.append_inj' heq rfl
    exact hact
  · exact h before last hbefore

/-- If nothing was dropped from the cache, a lookup all of whose loads are of hashes that were
cached before asks the store for nothing, is answered as over any other store, and drops nothing
itself. -/
theorem Retains.get_cached (h : commons.Retains name acts)
    (hready : ∀ name, (commons.tries name).Ready) (key : Bytes) :
    let later := commons.after acts
    let trie := later.tries name
    let get : Request α := .get key
    let ended := later.ask name get
    (∀ load ∈ trie.loads later.store get,
      load.hash ∈ (commons.tries name).loader.cache.hashes) →
        Load.reads (trie.loads later.store get) = [] ∧
        ended.2.store = later.store ∧
        (ended.2.tries name).loader.fetches = trie.loader.fetches ∧
        (∃ found, ended.1 = Reply.ofFound found) ∧
        (∀ (τ : Type) [NodeStore τ] (other : τ), (trie.attempt other get).1 = ended.1) ∧
        commons.Retains name (acts ++ [.ask name get]) := by
  intro later trie get ended hloads
  have htrie : trie.Ready := after_ready_of_ready hready acts name
  obtain ⟨hreads, hstore, hfetches, hsame, hother⟩ :=
    htrie.get_cached fun load hload ↦ h.subset (hloads load hload)
  have hended : ended.2.tries name = (trie.attempt later.store get).2.1 := tries_ask later name get
  refine ⟨hreads, hstore, hended ▸ hfetches, htrie.get_answered hreads, hother, h.concat ?_⟩
  rw [after_append]
  show trie.loader.cache.hashes ⊆ (ended.2.tries name).loader.cache.hashes
  rw [hended]
  exact fun hash hhash ↦ (hsame hash).mpr hhash

/-- An act leaves the hashes in all caches distinct. -/
theorem nodup_step (h : ∀ name, (commons.tries name).loader.cache.hashes.Nodup) (act : Act α)
    (name : Nat) : ((commons.step act).tries name).loader.cache.hashes.Nodup := by
  cases act with
  | ask asked request =>
      exact (Function.forall_update_iff commons.tries
        fun _ trie ↦ trie.loader.cache.hashes.Nodup).mpr
        ⟨BackedTrie.nodup_attempt (h asked) commons.store request, fun other _ ↦ h other⟩ name
  | resume resumed version owner settings =>
      rw [step, resume]
      split
      · exact h name
      · refine (Function.forall_update_iff commons.tries
          fun _ trie ↦ trie.loader.cache.hashes.Nodup).mpr ⟨?_, fun other _ ↦ h other⟩ name
        rw [BackedTrie.openAt]
        split <;> exact List.nodup_nil

/-- The cache that a trie has after any acts is one that it may have. -/
theorem after_suits (store : σ) (settings : Nat → Settings) (acts : List (Act α)) (name : Nat) :
    let trie := ((start store settings).after acts).tries name
    trie.Suits trie.loader.cache := by
  have hnodup : ∀ name,
      (((start store settings).after acts).tries name).loader.cache.hashes.Nodup :=
    after_induction (motive := fun commons ↦ ∀ name,
      (commons.tries name).loader.cache.hashes.Nodup) (fun _ ↦ List.nodup_nil)
      (fun _ act _ h ↦ nodup_step h act) List.prefix_rfl
  exact ⟨hnodup name, after_ready store settings acts name⟩

/-- Tries that begin without entries share a store without entries, which fails at any times, and do
anything. Let the trie of a name have any cache, of any capacity, and let it be committed, with
success and with entries written. Then it has cached the hashes of the entries, the last one first,
and after these the others of before, as far as there is room. The hash that the commit gives comes
first. If there is room for all that were written, then all are cached. As long as nothing is
dropped from the cache, a lookup on whose way there are no references but to what was written asks
the store for nothing, is answered as over any other store, and drops nothing itself. It is assumed
that the lengths of all forms that were written before fit in 64 bits. -/
theorem commit_warms (batches : Bool) (moods : Nat → Mood) (settings : Nat → Settings)
    (name : Nat)
    (hfits : ∀ bytes, (start (FitfulStore.empty batches moods) settings).Written acts bytes →
      bytes.length < 2 ^ 64)
    {cache : Recency}
    (hsuits : (((start (FitfulStore.empty batches moods) settings).after acts).tries name).Suits
      cache) {hash : Hash} :
    let commons : Commons FitfulStore α :=
      ((start (FitfulStore.empty batches moods) settings).after acts).recached name cache
    let written := ((commons.tries name).writes (.commit : Request α)).map Prod.fst
    let warm := (commons.ask name .commit).2
    written ≠ [] → (commons.ask name .commit).1 = .ok (.hash hash) →
      let cached := (warm.tries name).loader.cache.hashes
      cached = (latest written ++ cache.hashes.filter (· ∉ written)).take cache.capacity ∧
      cached.head? = some hash ∧
      (written.toFinset.card ≤ cache.capacity → written ⊆ cached ∧
        ∀ (more : List (Act α)) (key : Bytes), warm.Retains name more →
          let later := warm.after more
          let trie := later.tries name
          let get : Request α := .get key
          let ended := later.ask name get
          (∀ load ∈ trie.loads later.store get, load.hash ∈ written) →
            Load.reads (trie.loads later.store get) = [] ∧
            ended.2.store = later.store ∧
            (ended.2.tries name).loader.fetches = trie.loader.fetches ∧
            (∃ found, ended.1 = Reply.ofFound found) ∧
            (∀ (τ : Type) [NodeStore τ] (other : τ), (trie.attempt other get).1 = ended.1) ∧
            warm.Retains name (more ++ [.ask name get])) := by
  intro commons written warm hwrote hcommit cached
  have hsecure : ((start (FitfulStore.empty batches moods) settings : Commons FitfulStore α).after
      acts).Secure := (Secure.start batches moods settings).after hfits List.prefix_rfl
  have htrie := tries_recached ((start (FitfulStore.empty batches moods) settings).after acts)
    name cache
  have hcache : (commons.tries name).loader.cache = cache := congrArg (·.loader.cache) htrie
  have hsincere : (commons.tries name).root.All Node.Sincere :=
    htrie ▸ (hsecure.moored name).standing.kept.imp fun _ hnode ↦ hnode.1
  have hissued : (commons.tries name).root.Issued (commons.tries name).loader.owner
      (commons.tries name).loader.mint.next := htrie ▸ (hsecure.moored name).standing.issued
  have hformed : (commons.tries name).root.isFormed = true := by
    by_contra hformless
    exact hwrote (congrArg (List.map Prod.fst) (if_neg hformless))
  obtain ⟨hhashes, hhead⟩ :=
    BackedTrie.hashes_commit (α := α) hformed hsincere hissued (hcache ▸ hsuits.distinct) hcommit
  rw [← tries_ask, hcache] at hhashes
  rw [← tries_ask] at hhead
  have hcached : cached =
      (latest written ++ cache.hashes.filter (· ∉ written)).take cache.capacity := hhashes
  refine ⟨hcached, hhead, fun hroom ↦ ?_⟩
  have hall : written ⊆ cached := by
    intro entry hentry
    rw [← Recency.length_latest] at hroom
    rw [hcached, List.take_append, List.take_of_length_le hroom]
    exact List.mem_append_left _ (Recency.mem_latest.mpr hentry)
  have htries : ∀ other, (commons.tries other).Ready :=
    (Function.forall_update_iff _ fun _ (trie : BackedTrie) ↦ trie.Ready).mpr
      ⟨hsuits.ready, fun other _ ↦ after_ready _ settings acts other⟩
  refine ⟨hall, ?_⟩
  intro more key hretains later trie get ended hloads
  exact hretains.get_cached (fun other ↦ step_ready htries (.ask name .commit) other) key
    fun load hload ↦ hall (hloads load hload)

/-- Two entries with long values are put and committed, and one of them gets another value. -/
def overwriting : List (Act Bytes) :=
  [.ask 0 (.change (.put [0x10] (List.replicate 40 0x07))),
    .ask 0 (.change (.put [0x20] (List.replicate 40 0x08))), .ask 0 .commit,
    .ask 0 (.change (.put [0x10] (List.replicate 40 0x09)))]

/-- Tries without entries over a store that works, with room for three nodes in the cache. -/
def narrow : Commons FitfulStore Bytes :=
  start (.empty true fun _ ↦ .well) fun _ ↦ ⟨3, by decide, by decide⟩

/-- The trie after the value was overwritten, with the cache that it has. -/
def overwritten : Commons FitfulStore Bytes :=
  (narrow.after overwriting).recached 0 ((narrow.after overwriting).tries 0).loader.cache

set_option maxRecDepth 100000 in
/-- The next commit writes a leaf and the root. There is room for them and for one node of before.
The new value is then found without asking the store, which is asked for the other. -/
theorem commit_warms_overwritten :
    (overwritten.ask 0 .commit).1 = .ok (.hash (overwritten.tries 0).rootHash) ∧
      let written := ((overwritten.tries 0).writes (.commit : Request Bytes)).map Prod.fst
      let warm := (overwritten.ask 0 .commit).2
      let cached := (warm.tries 0).loader.cache.hashes
      written.length = 2 ∧ written ⊆ cached ∧ cached.length = 3 ∧
      cached.head? = some (overwritten.tries 0).rootHash ∧
      (warm.ask 0 (.get [0x10])).1 = .ok (.value (some (List.replicate 40 0x09))) ∧
      Load.reads ((warm.tries 0).loads warm.store (.get [0x10] : Request Bytes)) = [] ∧
      Load.reads ((warm.tries 0).loads warm.store (.get [0x20] : Request Bytes)) ≠ [] := by
  have hfacts : (∀ bytes ∈ narrow.transcript overwriting, bytes.length < 2 ^ 64) ∧
      (overwritten.ask 0 .commit).1 = .ok (.hash (overwritten.tries 0).rootHash) ∧
      let written := ((overwritten.tries 0).writes (.commit : Request Bytes)).map Prod.fst
      let warm := (overwritten.ask 0 .commit).2
      written.length = 2 ∧ ((narrow.after overwriting).tries 0).loader.cache.capacity = 3 ∧
      (warm.tries 0).loader.cache.hashes.length = 3 ∧
      (warm.ask 0 (.get [0x10])).1 = .ok (.value (some (List.replicate 40 0x09))) ∧
      (∀ load ∈ (warm.tries 0).loads warm.store (.get [0x10] : Request Bytes),
        load.hash ∈ written) ∧
      Load.reads ((warm.tries 0).loads warm.store (.get [0x20] : Request Bytes)) ≠ [] := by
    decide +kernel
  obtain ⟨hforms, hcommit, htwo, hcapacity, hthree, hfound, hloads, hother⟩ := hfacts
  have hfits : ∀ bytes, narrow.Written overwriting bytes → bytes.length < 2 ^ 64 :=
    fun bytes hwritten ↦ hforms bytes (written_iff.mp hwritten)
  have hwrote : ((overwritten.tries 0).writes (.commit : Request Bytes)).map Prod.fst ≠ [] :=
    List.ne_nil_of_length_pos (by rw [htwo]; decide)
  have hroom : (((overwritten.tries 0).writes (.commit : Request Bytes)).map
      Prod.fst).toFinset.card ≤ ((narrow.after overwriting).tries 0).loader.cache.capacity :=
    (List.toFinset_card_le _).trans (by rw [htwo, hcapacity]; decide)
  obtain ⟨-, hhead, hwarm⟩ := commit_warms true (fun _ ↦ .well)
    (fun _ ↦ ⟨3, by decide, by decide⟩) 0 hfits (after_suits _ _ overwriting 0) hwrote hcommit
  obtain ⟨hcached, hlookups⟩ := hwarm hroom
  -- The commons after no acts is replaced by name, so that no act is carried out to compare them.
  have hlookup := hlookups [] [0x10] .nil
  rw [after_nil] at hlookup
  obtain ⟨hreads, -⟩ := hlookup hloads
  exact ⟨hcommit, htwo, hcached, hthree, hhead, hfound, hreads, hother⟩

end Commons

end Patricia
