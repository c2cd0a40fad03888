import Mathlib.Data.List.Nodup
import Patricia.Proofs.Loader.Heard
import Patricia.Store.Memory

/-!
# A loader is a cache by time of use in front of its store

A `Roster` is a cache as it is meant to be. Its nodes are in no order, each has the time of its last
use, and the one whose last use is longest ago makes way in a full cache. `Roster.Step` says what
becomes of it when a loader is asked for something, one rule for each way in which a load may end.
While nothing else runs a loader does the same, whatever happens to its store
(`Loader.serveAll_follows`): its cache lists the nodes by the times of their last uses.
-/

namespace Patricia

/-! ## The cache as it is meant to be -/

/-- A cached node and the time of its last use. -/
structure Usage where
  hash : Hash
  node : Resolved
  last : Nat

/-- The node under its hash. -/
def Usage.entry (usage : Usage) : Hash × Resolved :=
  (usage.hash, usage.node)

/-- Cached nodes in no particular order, and the time. Beside them stand the number of nodes that
were decoded and the hashes that the store was asked for. -/
structure Roster where
  time : Nat
  usages : List Usage
  decoded : Nat
  asked : List Hash

namespace Roster

/-- Nothing is cached yet. -/
def empty : Roster := ⟨0, [], 0, []⟩

/-- The cached node under a hash. -/
def find? (roster : Roster) (hash : Hash) : Option Resolved :=
  (roster.usages.find? (·.hash = hash)).map Usage.node

/-- The cached node under a hash is used now. -/
def use (roster : Roster) (hash : Hash) : Roster :=
  { roster with
    time := roster.time + 1
    usages := roster.usages.map fun usage ↦
      if usage.hash = hash then { usage with last := roster.time } else usage }

/-- The usages without those of a hash. -/
def others (usages : List Usage) (hash : Hash) : List Usage :=
  usages.filter (·.hash ≠ hash)

/-- The usages with room for one more. Unless there is room, the one that was last used before all
others makes way. -/
def thin (capacity : Nat) (usages : List Usage) : List Usage :=
  if usages.length < capacity then usages
  else usages.filter fun usage ↦ usages.any (·.last < usage.last)

/-- A node is put under a hash, in place of the one that was there, and used now. -/
def record (capacity : Nat) (roster : Roster) (hash : Hash) (node : Resolved) : Roster :=
  { roster with
    time := roster.time + 1
    usages := ⟨hash, node, roster.time⟩ :: thin capacity (others roster.usages hash) }

/-- The node under a hash is dropped. -/
def drop (roster : Roster) (hash : Hash) : Roster :=
  { roster with usages := others roster.usages hash }

/-- The store is asked for a hash. -/
def ask (roster : Roster) (hash : Hash) : Roster :=
  { roster with asked := roster.asked ++ [hash] }

/-- One more node is decoded. -/
def decode (roster : Roster) : Roster :=
  { roster with decoded := roster.decoded + 1 }

end Roster

namespace Loader

/-- What is asked of a loader, and what happens to its store, while nothing else runs. Only a node
that is no reference is put into the cache. -/
inductive Deed (σ : Type) where
  | load (hash : Hash)
  | prime (hash : Hash) (node : Resolved)
  | evict (hash : Hash)
  | isCached (hash : Hash)
  | cachedLen
  | change (store : σ)

/-- What is answered. -/
inductive Echo where
  | loaded (outcome : Except TrieError Resolved)
  | flag (cached : Bool)
  | count (length : Nat)
  | done
  | refused (breach : Breach)

end Loader

open Loader (Deed Echo)

namespace Roster

variable {σ : Type} [NodeStore σ]

/-- What is answered, and what becomes of the cache and the store. A load of a cached node uses it.
Any other load asks the store once and hears what it answers: an error, which is passed on, no
entry, bytes with another hash than the one asked for, bytes that are no node, or a node, which is
decoded as the loader's own. Only the last one changes the cache. -/
inductive Step (owner capacity : Nat) :
    Roster → σ → Deed σ → Echo → Roster → σ → Prop where
  | hit {roster store hash node} (hfound : find? roster hash = some node) :
      Step owner capacity roster store (.load hash) (.loaded (.ok node)) (roster.use hash) store
  | failed {roster store hash error} (hmissed : find? roster hash = none)
      (hanswer : NodeStore.answer (NodeStore.request store hash) hash = .error error) :
      Step owner capacity roster store (.load hash) (.loaded (.error error)) (roster.ask hash)
        (NodeStore.request store hash)
  | missing {roster store hash} (hmissed : find? roster hash = none)
      (hanswer : NodeStore.answer (NodeStore.request store hash) hash = .ok none) :
      Step owner capacity roster store (.load hash) (.loaded (.error (.notFound hash)))
        (roster.ask hash) (NodeStore.request store hash)
  | forged {roster store hash bytes} (hmissed : find? roster hash = none)
      (hanswer : NodeStore.answer (NodeStore.request store hash) hash = .ok (some bytes))
      (hhash : keccak256 bytes ≠ hash) :
      Step owner capacity roster store (.load hash) (.loaded (.error (.store (.wrongHash hash))))
        (roster.ask hash) (NodeStore.request store hash)
  | illegible {roster store hash bytes cause} (hmissed : find? roster hash = none)
      (hanswer : NodeStore.answer (NodeStore.request store hash) hash = .ok (some bytes))
      (hhash : keccak256 bytes = hash) (hdecode : Node.decode bytes = .error cause) :
      Step owner capacity roster store (.load hash) (.loaded (.error (.decode cause)))
        (roster.ask hash) (NodeStore.request store hash)
  | found {roster store hash bytes node} (hmissed : find? roster hash = none)
      (hanswer : NodeStore.answer (NodeStore.request store hash) hash = .ok (some bytes))
      (hhash : keccak256 bytes = hash) (hdecode : Node.decode bytes = .ok node) :
      Step owner capacity roster store (.load hash)
        (.loaded (.ok (node.issue owner roster.decoded)))
        ((roster.ask hash).decode.record capacity hash (node.issue owner roster.decoded))
        (NodeStore.request store hash)
  | prime {roster store hash node} :
      Step owner capacity roster store (.prime hash node) .done
        (roster.record capacity hash node) store
  | evict {roster store hash} :
      Step owner capacity roster store (.evict hash) .done (roster.drop hash) store
  | isCached {roster store hash} :
      Step owner capacity roster store (.isCached hash) (.flag (find? roster hash).isSome) roster
        store
  | cachedLen {roster store} :
      Step owner capacity roster store .cachedLen (.count roster.usages.length) roster store
  | change {roster store next} :
      Step owner capacity roster store (.change next) .done roster next

/-- One step after the other. -/
inductive Run (owner capacity : Nat) :
    Roster → σ → List (Deed σ) → List Echo → Roster → σ → Prop where
  | nil {roster store} : Run owner capacity roster store [] [] roster store
  | cons {roster store deed echo next between deeds echoes last after}
      (hstep : Step owner capacity roster store deed echo next between)
      (hrun : Run owner capacity next between deeds echoes last after) :
      Run owner capacity roster store (deed :: deeds) (echo :: echoes) last after

variable {owner capacity : Nat} {roster next next' : Roster} {store between between' : σ}
  {deed : Deed σ} {deeds : List (Deed σ)} {echo echo' : Echo} {echoes echoes' : List Echo}

/-- The rules leave no choice. -/
theorem Step.unique (h : Step owner capacity roster store deed echo next between)
    (h' : Step owner capacity roster store deed echo' next' between') :
    echo = echo' ∧ next = next' ∧ between = between' := by
  cases h <;> cases h' <;> simp_all

/-- Nor do they in the course of a run. -/
theorem Run.unique (h : Run owner capacity roster store deeds echoes next between)
    (h' : Run owner capacity roster store deeds echoes' next' between') :
    echoes = echoes' ∧ next = next' ∧ between = between' := by
  induction h generalizing echoes' with
  | nil =>
      cases h'
      exact ⟨rfl, rfl, rfl⟩
  | cons hstep hrun ih =>
      cases h' with
      | cons hstep' hrun' =>
          obtain ⟨rfl, rfl, rfl⟩ := hstep.unique hstep'
          obtain ⟨rfl, hlast⟩ := ih hrun'
          exact ⟨rfl, hlast⟩

/-! ## Usages in their order -/

/-- The usages are those that are listed, the last one that was used first. -/
structure Ranked (time : Nat) (usages ranked : List Usage) : Prop where
  perm : ranked.Perm usages
  falling : ranked.Pairwise fun recent old ↦ old.last < recent.last
  past : ∀ usage ∈ ranked, usage.last < time
  distinct : (ranked.map Usage.hash).Nodup

namespace Ranked

variable {time : Nat} {usages ranked : List Usage} {hash : Hash} {usage : Usage}

/-- Among distinct hashes a usage is found by its hash. -/
theorem find?_eq_some_iff (hdistinct : (usages.map Usage.hash).Nodup) :
    usages.find? (·.hash = hash) = some usage ↔ usage ∈ usages ∧ usage.hash = hash := by
  constructor
  · intro hfound
    exact ⟨List.mem_of_find?_eq_some hfound, by simpa using List.find?_some hfound⟩
  · rintro ⟨hmem, rfl⟩
    induction usages with
    | nil => cases hmem
    | cons first usages ih =>
        obtain ⟨hnew, hdistinct⟩ := List.nodup_cons.mp hdistinct
        rcases List.mem_cons.mp hmem with rfl | hmem
        · exact List.find?_cons_of_pos (by simp)
        · have hne : first.hash ≠ usage.hash := fun heq ↦ hnew (heq ▸ List.mem_map_of_mem hmem)
          rw [List.find?_cons_of_neg (by simpa using hne)]
          exact ih hdistinct hmem

/-- What is found does not depend on the order. -/
theorem find?_eq (h : Ranked time usages ranked) (hash : Hash) :
    usages.find? (·.hash = hash) = ranked.find? (·.hash = hash) := by
  ext usage
  rw [find?_eq_some_iff h.distinct, find?_eq_some_iff ((h.perm.map Usage.hash).nodup_iff.mp
    h.distinct), h.perm.mem_iff]

/-- Some of the usages, in their order, are ranked. -/
theorem sublist {some kept : List Usage} (h : Ranked time usages ranked)
    (hkept : kept.Sublist ranked) (hperm : kept.Perm some) : Ranked time some kept where
  perm := hperm
  falling := h.falling.sublist hkept
  past usage husage := h.past usage (hkept.subset husage)
  distinct := h.distinct.sublist (hkept.map Usage.hash)

/-- Without those of a hash the usages keep their order. -/
theorem others (h : Ranked time usages ranked) (hash : Hash) :
    Ranked time (others usages hash) (others ranked hash) :=
  h.sublist List.filter_sublist (h.perm.filter _)

/-- A usage of now comes first. -/
theorem cons (h : Ranked time usages ranked) (hnew : ∀ usage ∈ ranked, usage.hash ≠ hash)
    (node : Resolved) :
    Ranked (time + 1) (⟨hash, node, time⟩ :: usages) (⟨hash, node, time⟩ :: ranked) where
  perm := h.perm.cons _
  falling := List.pairwise_cons.mpr ⟨h.past, h.falling⟩
  past := by
    rintro usage (_ | ⟨_, husage⟩)
    · exact Nat.lt_succ_self _
    · exact Nat.lt_succ_of_lt (h.past usage husage)
  distinct := by
    rw [List.map_cons, List.nodup_cons]
    refine ⟨fun hmem ↦ ?_, h.distinct⟩
    obtain ⟨usage, husage, heq⟩ := List.mem_map.mp hmem
    exact hnew usage husage heq

/-- The usage of longest ago is the last one in the order. -/
theorem filter_any_eq_dropLast
    (hfalling : ranked.Pairwise fun recent old ↦ old.last < recent.last) :
    (ranked.filter fun usage ↦ ranked.any (·.last < usage.last)) = ranked.dropLast := by
  rcases List.eq_nil_or_concat ranked with rfl | ⟨before, oldest, rfl⟩
  · rfl
  rw [List.concat_eq_append] at hfalling ⊢
  obtain ⟨-, -, holder⟩ := List.pairwise_append.mp hfalling
  rw [List.dropLast_concat, List.filter_append, List.filter_eq_self.mpr, List.filter_eq_nil_iff.mpr,
    List.append_nil]
  · -- None was used before the oldest one.
    rintro _ (_ | ⟨_, ⟨⟩⟩) hany
    obtain ⟨usage, husage, hlt⟩ := List.any_eq_true.mp hany
    rcases List.mem_append.mp husage with hmem | hmem
    · exact Nat.lt_asymm (holder usage hmem oldest (List.mem_singleton_self _))
        (of_decide_eq_true hlt)
    · obtain rfl := List.mem_singleton.mp hmem
      exact Nat.lt_irrefl _ (of_decide_eq_true hlt)
  · intro usage husage
    exact List.any_eq_true.mpr ⟨oldest, List.mem_append_right _ (List.mem_singleton_self _),
      decide_eq_true (holder usage husage oldest (List.mem_singleton_self _))⟩

/-- To make room is to cut the order off at the end. -/
theorem thin (h : Ranked time usages ranked) {capacity : Nat}
    (hbounded : ranked.length ≤ capacity + 1) :
    Ranked time (thin (capacity + 1) usages) (ranked.take capacity) := by
  refine h.sublist (List.take_sublist _ _) ?_
  rw [Roster.thin, ← h.perm.length_eq]
  split
  · rename_i hlt
    rw [List.take_of_length_le (Nat.le_of_lt_succ hlt)]
    exact h.perm
  · rename_i hle
    have hfull : ranked.length - 1 = capacity := by omega
    have hany : (fun usage : Usage ↦ usages.any (·.last < usage.last)) =
        fun usage ↦ ranked.any (·.last < usage.last) := by
      funext usage
      exact (h.perm.any_eq).symm
    rw [← hfull, ← List.dropLast_eq_take, ← filter_any_eq_dropLast h.falling, hany]
    exact h.perm.filter _

/-- A usage that becomes one of now comes first. -/
theorem use (h : Ranked time usages ranked) (husage : usage ∈ ranked) :
    Ranked (time + 1)
      (usages.map fun other ↦
        if other.hash = usage.hash then { other with last := time } else other)
      ({ usage with last := time } :: Roster.others ranked usage.hash) := by
  have hnew : ∀ other ∈ Roster.others ranked usage.hash, other.hash ≠ usage.hash :=
    fun other hother ↦ of_decide_eq_true (List.mem_filter.mp hother).2
  have hothers := (h.others usage.hash).cons hnew usage.node
  refine ⟨List.Perm.trans ?_ (h.perm.map _), hothers.falling, hothers.past, hothers.distinct⟩
  -- No other usage has the hash, so that one stands still in the midst of them.
  obtain ⟨before, after, rfl⟩ := List.append_of_mem husage
  have hdistinct := h.distinct
  rw [List.map_append, List.map_cons, List.nodup_middle, List.nodup_cons, ← List.map_append]
    at hdistinct
  have hne : ∀ other ∈ before ++ after, other.hash ≠ usage.hash :=
    fun other hother heq ↦ hdistinct.1 (heq ▸ List.mem_map_of_mem hother)
  have hkept : Roster.others (before ++ usage :: after) usage.hash = before ++ after := by
    rw [Roster.others, List.filter_append, List.filter_cons_of_neg (by simp), ← List.filter_append]
    exact List.filter_eq_self.mpr fun other hother ↦ decide_eq_true (hne other hother)
  have hmap : ∀ list : List Usage, (∀ other ∈ list, other.hash ≠ usage.hash) →
      (list.map fun other ↦
        if other.hash = usage.hash then { other with last := time } else other) = list :=
    fun list hlist ↦ (List.map_congr_left fun other hother ↦ if_neg (hlist other hother)).trans
      (List.map_id' list)
  rw [hkept, List.map_append, List.map_cons, if_pos rfl,
    hmap before fun other hother ↦ hne other (List.mem_append_left _ hother),
    hmap after fun other hother ↦ hne other (List.mem_append_right _ hother)]
  exact List.perm_middle.symm

end Ranked

/-! ## The cache and the roster -/

/-- The entries of a cache are the usages in their order. -/
def Orders (roster : Roster) (cache : Recency) : Prop :=
  ∃ ranked, Ranked roster.time roster.usages ranked ∧ cache.entries = ranked.map Usage.entry

namespace Orders

variable {cache : Recency} {hash : Hash} {node : Resolved}

/-- What is put into a cache comes first, and the last ones are cut off. -/
theorem entries_put (cache : Recency) (hash : Hash) (node : Resolved) :
    (cache.put hash node).entries = ((hash, node) :: cache.others hash).take cache.capacity :=
  rfl

/-- The other entries are the other usages. -/
theorem others_eq {ranked : List Usage} (hentries : cache.entries = ranked.map Usage.entry)
    (hash : Hash) : cache.others hash = (others ranked hash).map Usage.entry := by
  rw [Recency.others, hentries, List.filter_map]
  rfl

/-- The same node is found under a hash. -/
theorem peek?_eq (h : roster.Orders cache) (hash : Hash) :
    cache.peek? hash = roster.find? hash := by
  obtain ⟨ranked, hranked, hentries⟩ := h
  rw [Recency.peek?, find?, hranked.find?_eq, hentries]
  clear hranked hentries
  induction ranked with
  | nil => rfl
  | cons usage ranked ih =>
      by_cases heq : usage.hash = hash
      · rw [List.find?_cons_of_pos (by simpa using heq), ← heq]
        exact List.lookup_cons_self
      · have hne : (hash == usage.hash) = false := beq_false_of_ne (Ne.symm heq)
        rw [List.find?_cons_of_neg (by simpa using heq), ← ih, List.map_cons, Usage.entry,
          List.lookup_cons, hne]

/-- As many nodes are cached. -/
theorem size_eq (h : roster.Orders cache) : cache.size = roster.usages.length := by
  obtain ⟨ranked, hranked, hentries⟩ := h
  rw [Recency.size, hentries, List.length_map, hranked.perm.length_eq]

/-- A node is used. -/
theorem use (h : roster.Orders cache) (hfound : roster.find? hash = some node) :
    (roster.use hash).Orders (cache.put hash node) := by
  obtain ⟨ranked, hranked, hentries⟩ := h
  rw [find?, hranked.find?_eq, Option.map_eq_some_iff] at hfound
  obtain ⟨usage, hfound, rfl⟩ := hfound
  obtain ⟨husage, rfl⟩ := (Ranked.find?_eq_some_iff hranked.distinct).mp hfound
  have hused := hranked.use husage
  refine ⟨_, hused, ?_⟩
  -- There is room, since the node was there.
  have hroom : (others ranked usage.hash).length + 1 ≤ cache.capacity := by
    have hlength := hused.perm.length_eq
    rw [List.length_map, List.length_cons, ← hranked.perm.length_eq] at hlength
    rw [hlength, ← List.length_map Usage.entry, ← hentries]
    exact cache.bounded
  rw [entries_put, others_eq hentries, List.map_cons]
  refine List.take_of_length_le ?_
  rwa [List.length_cons, List.length_map]

/-- A node is put into the cache. -/
theorem record (h : roster.Orders cache) (hash : Hash) (node : Resolved) :
    (roster.record cache.capacity hash node).Orders (cache.put hash node) := by
  obtain ⟨ranked, hranked, hentries⟩ := h
  obtain ⟨capacity, hcapacity⟩ := Nat.exists_eq_add_one.mpr cache.capacity_pos
  have hbounded : (others ranked hash).length ≤ capacity + 1 := by
    rw [← hcapacity, ← List.length_map Usage.entry, ← others_eq hentries]
    exact Nat.le_trans (List.length_filter_le _ _) cache.bounded
  have hnew : ∀ usage ∈ (others ranked hash).take capacity, usage.hash ≠ hash :=
    fun usage husage ↦ of_decide_eq_true (List.mem_filter.mp (List.mem_of_mem_take husage)).2
  refine ⟨⟨hash, node, roster.time⟩ :: (others ranked hash).take capacity, ?_, ?_⟩
  · rw [Roster.record, hcapacity]
    exact ((hranked.others hash).thin hbounded).cons hnew node
  · rw [entries_put, others_eq hentries, hcapacity, List.take_succ_cons, List.map_cons,
      List.map_take]
    rfl

/-- A node is dropped. -/
theorem drop (h : roster.Orders cache) (hash : Hash) :
    (roster.drop hash).Orders (cache.evict hash) := by
  obtain ⟨ranked, hranked, hentries⟩ := h
  exact ⟨_, hranked.others hash, others_eq hentries hash⟩

end Orders

end Roster

/-! ## Loads and what happens between them -/

namespace Loader

variable {σ : Type} [NodeStore σ] {loader later : Loader} {store after : σ} {hash : Hash}

/-- What is answered to a deed, and the loader and the store after it. -/
def serve (loader : Loader) (store : σ) : Deed σ → Echo × Loader × σ
  | .load hash =>
      let (outcome, loader, store) := loader.load store hash
      (.loaded outcome, loader, store)
  | .prime hash node =>
      match loader.preload hash node.val with
      | .ok loader => (.done, loader, store)
      | .error breach => (.refused breach, loader, store)
  | .evict hash => (.done, loader.evict hash, store)
  | .isCached hash => (.flag (loader.isCached hash), loader, store)
  | .cachedLen => (.count loader.cache.size, loader, store)
  | .change store => (.done, loader, store)

/-- What is answered to deeds that follow one another, and the loader and the store after them. -/
def serveAll (loader : Loader) (store : σ) : List (Deed σ) → List Echo × Loader × σ
  | [] => ([], loader, store)
  | deed :: deeds =>
      let (echo, loader, store) := loader.serve store deed
      let (echoes, loader, store) := serveAll loader store deeds
      (echo :: echoes, loader, store)

/-- A load that misses the cache while nothing else runs counts a flight and a read, and judges what
the store answers to the read. -/
theorem load_of_idle (hidle : loader.flights = []) (hmiss : loader.lookUp hash = none) (store : σ) :
    loader.load store hash =
      match judge hash (NodeStore.answer (NodeStore.request store hash) hash) with
      | .error error => (.error error, { loader with
          installed := loader.installed + 1
          fetches := loader.fetches + 1 }, NodeStore.request store hash)
      | .ok node =>
          let node := node.issue loader.owner loader.mint.next
          (.ok node, { loader with
            mint := loader.mint.issue.2
            cache := loader.cache.put hash node
            installed := loader.installed + 1
            fetches := loader.fetches + 1 }, NodeStore.request store hash) := by
  rw [load, hmiss, board_of_idle hidle hmiss]
  simp only [Bool.false_eq_true, if_false, land, receive]
  cases judge hash (NodeStore.answer (NodeStore.request store hash) hash) with
  | error error => simp [keep, release, launch, hidle]
  | ok node =>
      have hreleased : [(hash, (⟨loader.installed, true⟩ : Flight))].filter (·.1 ≠ hash) = [] := by
        simp
      simp only [keep, release, launch, hidle, retain, List.map_cons, List.map_nil, if_true, issue,
        hreleased]
      rfl

/-- The loader is as the roster says, and no flight is under way. -/
structure Follows (owner capacity : Nat) (roster : Roster) (loader : Loader) : Prop where
  owner_eq : loader.owner = owner
  capacity_eq : loader.cache.capacity = capacity
  orders : roster.Orders loader.cache
  decoded_eq : loader.mint.next = roster.decoded
  fetches_eq : loader.fetches = roster.asked.length
  idle : loader.flights = []

namespace Follows

variable {owner capacity : Nat} {roster : Roster}

/-- A new loader follows the empty roster. -/
theorem new (owner capacity : Nat) (hpos : 0 < capacity) :
    Follows owner capacity .empty (Loader.new owner capacity hpos) where
  owner_eq := rfl
  capacity_eq := rfl
  orders := ⟨[], ⟨List.Perm.refl _, .nil, nofun, .nil⟩, rfl⟩
  decoded_eq := rfl
  fetches_eq := rfl
  idle := rfl

/-- Another cache and another roster may take the place of the ones there are. -/
theorem recache (h : Follows owner capacity roster loader) {next : Roster}
    (hfixed : later.mint = loader.mint ∧ later.fetches = loader.fetches ∧
      later.flights = loader.flights ∧ later.cache.capacity = loader.cache.capacity)
    (hnext : next.decoded = roster.decoded ∧ next.asked = roster.asked)
    (horders : next.Orders later.cache) : Follows owner capacity next later where
  owner_eq := (congrArg Mint.owner hfixed.1).trans h.owner_eq
  capacity_eq := hfixed.2.2.2.trans h.capacity_eq
  orders := horders
  decoded_eq := (congrArg Mint.next hfixed.1).trans (h.decoded_eq.trans hnext.1.symm)
  fetches_eq := hfixed.2.1.trans (h.fetches_eq.trans (congrArg List.length hnext.2.symm))
  idle := hfixed.2.2.1.trans h.idle

/-- A load that fails is counted, and nothing else changes. -/
theorem ask (h : Follows owner capacity roster loader) (hash : Hash) :
    Follows owner capacity (roster.ask hash) { loader with
      installed := loader.installed + 1
      fetches := loader.fetches + 1 } where
  owner_eq := h.owner_eq
  capacity_eq := h.capacity_eq
  orders := h.orders
  decoded_eq := h.decoded_eq
  fetches_eq := by
    rw [Roster.ask, List.length_append, List.length_singleton, ← h.fetches_eq]
  idle := h.idle

/-- A node that was decoded is put into the cache. -/
theorem keep (h : Follows owner capacity roster loader) (hash : Hash) (node : Resolved) :
    Follows owner capacity (roster.decode.record capacity hash node) { loader with
      mint := loader.mint.issue.2
      cache := loader.cache.put hash node } where
  owner_eq := h.owner_eq
  capacity_eq := h.capacity_eq
  orders := by
    have horders : roster.decode.Orders loader.cache := h.orders
    rw [← h.capacity_eq]
    exact horders.record hash node
  decoded_eq := congrArg (· + 1) h.decoded_eq
  fetches_eq := h.fetches_eq
  idle := h.idle

/-- A load goes by the rules. -/
theorem load (h : Follows owner capacity roster loader) (store : σ) (hash : Hash) :
    ∃ next, roster.Step owner capacity store (.load hash) (.loaded (loader.load store hash).1) next
        (loader.load store hash).2.2 ∧
      Follows owner capacity next (loader.load store hash).2.1 := by
  cases hfound : loader.lookUp hash with
  | some found =>
      obtain ⟨node, later⟩ := found
      obtain ⟨hcached, rfl⟩ := lookUp_eq_some_iff.mp hfound
      rw [(load_of_hit store hfound).1]
      rw [h.orders.peek?_eq] at hcached
      exact ⟨_, .hit hcached, h.recache ⟨rfl, rfl, rfl, rfl⟩ ⟨rfl, rfl⟩ (h.orders.use hcached)⟩
  | none =>
      have hmissed : roster.find? hash = none := by
        rw [← h.orders.peek?_eq, Option.eq_none_iff_forall_ne_some]
        intro node hnode
        cases hfound.symm.trans (lookUp_eq_some_iff.mpr ⟨hnode, rfl⟩)
      rw [load_of_idle h.idle hfound]
      have hasked := h.ask hash
      rcases hanswer : NodeStore.answer (NodeStore.request store hash) hash with
        error | _ | bytes
      · exact ⟨_, .failed hmissed hanswer, hasked⟩
      · exact ⟨_, .missing hmissed hanswer, hasked⟩
      · rw [judge]
        by_cases hhash : keccak256 bytes = hash
        · rw [if_pos hhash]
          cases hdecode : Node.decode bytes with
          | error cause => exact ⟨_, .illegible hmissed hanswer hhash hdecode, hasked⟩
          | ok node =>
              refine ⟨_, ?_, hasked.keep hash _⟩
              rw [h.owner_eq, h.decoded_eq]
              exact .found hmissed hanswer hhash hdecode
        · rw [if_neg hhash]
          exact ⟨_, .forged hmissed hanswer hhash, hasked⟩

/-- Whatever is done goes by the rules. -/
theorem serve (h : Follows owner capacity roster loader) (store : σ) (deed : Deed σ) :
    ∃ next, roster.Step owner capacity store deed (loader.serve store deed).1 next
        (loader.serve store deed).2.2 ∧
      Follows owner capacity next (loader.serve store deed).2.1 := by
  cases deed with
  | load hash => exact h.load store hash
  | prime hash node =>
      have hpreload : loader.preload hash node.val = .ok (loader.retain hash node) :=
        dif_pos node.property
      rw [Loader.serve, hpreload]
      refine ⟨_, .prime, h.recache ⟨rfl, rfl, rfl, rfl⟩ ⟨rfl, rfl⟩ ?_⟩
      rw [← h.capacity_eq]
      exact h.orders.record hash node
  | evict hash =>
      exact ⟨_, .evict, h.recache ⟨rfl, rfl, rfl, rfl⟩ ⟨rfl, rfl⟩ (h.orders.drop hash)⟩
  | isCached hash =>
      rw [Loader.serve, isCached, Recency.contains, h.orders.peek?_eq]
      exact ⟨_, .isCached, h⟩
  | cachedLen =>
      rw [Loader.serve, h.orders.size_eq]
      exact ⟨_, .cachedLen, h⟩
  | change store => exact ⟨_, .change, h⟩

/-- Whatever is done one after the other goes by the rules. -/
theorem serveAll (h : Follows owner capacity roster loader) (store : σ) (deeds : List (Deed σ)) :
    ∃ next, roster.Run owner capacity store deeds (loader.serveAll store deeds).1 next
        (loader.serveAll store deeds).2.2 ∧
      Follows owner capacity next (loader.serveAll store deeds).2.1 := by
  induction deeds generalizing roster loader store with
  | nil => exact ⟨roster, .nil, h⟩
  | cons deed deeds ih =>
      obtain ⟨next, hstep, hnext⟩ := h.serve store deed
      obtain ⟨last, hrun, hlast⟩ := ih hnext _
      exact ⟨last, .cons hstep hrun, hlast⟩

end Follows

/-- A loader with a cache of any capacity is asked for any number of things one after the other,
while anything happens to its store. The answers, the cache and the store are those that the rules
give and no others: the cache lists the nodes by the times of their last uses. No flight is left,
and the reads that were counted are the ones that the rules ask for. A load that fails leaves the
cache as it is, and the next load of the hash asks the store again, whatever happens to it before.
-/
theorem serveAll_follows (owner : Nat) {capacity : Nat} (hpos : 0 < capacity) (store : σ)
    (deeds : List (Deed σ)) :
    let served := (Loader.new owner capacity hpos).serveAll store deeds
    let loader := served.2.1
    (∃ roster, Roster.empty.Run owner capacity store deeds served.1 roster served.2.2 ∧
      roster.Orders loader.cache ∧ loader.cache.capacity = capacity ∧ loader.flights = [] ∧
      loader.fetches = roster.asked.length ∧
      ∀ echoes other last, Roster.empty.Run owner capacity store deeds echoes other last →
        echoes = served.1 ∧ other = roster ∧ last = served.2.2) ∧
    ∀ hash error later last, loader.load served.2.2 hash = (.error error, later, last) →
      later.cache = loader.cache ∧ later.flights = [] ∧
      ∀ next : σ, (later.load next hash).2.2 = NodeStore.request next hash ∧
        (later.load next hash).2.1.fetches = later.fetches + 1 := by
  intro served loader
  obtain ⟨roster, hrun, hfollows⟩ := (Follows.new owner capacity hpos).serveAll store deeds
  refine ⟨⟨roster, hrun, hfollows.orders, hfollows.capacity_eq, hfollows.idle, hfollows.fetches_eq,
    fun echoes other last hother ↦ hother.unique hrun⟩, fun hash error later last hload ↦ ?_⟩
  cases hfound : loader.lookUp hash with
  | some found =>
      rw [(load_of_hit _ hfound).1] at hload
      cases hload
  | none =>
      rw [load_of_idle hfollows.idle hfound] at hload
      have hlater : later = { loader with
          installed := loader.installed + 1
          fetches := loader.fetches + 1 } := by
        split at hload <;> cases hload
        rfl
      have hmiss : later.lookUp hash = none := by
        rw [lookUp, Option.map_eq_none_iff] at hfound ⊢
        rw [hlater]
        exact hfound
      have hidle : later.flights = [] := hlater ▸ hfollows.idle
      refine ⟨hlater ▸ rfl, hidle, fun next ↦ ?_⟩
      rw [load_of_idle hidle hmiss]
      split <;> exact ⟨rfl, rfl⟩

/-- The written forms of two leaves. -/
def pair : List Bytes :=
  [Node.leafForm [lowNibble 0] [0x07], Node.leafForm [lowNibble 0] [0x08]]

/-- Two leaves are loaded from a store that has both, and then a hash that it has no entry for. -/
def alternation : List (Deed MemoryStore) :=
  pair.map (.load ∘ keccak256) ++ [.load emptyRoot, .cachedLen]

/-- The store of two leaves. -/
def pairStore : MemoryStore :=
  .ofEntries (pair.map fun bytes ↦ (keccak256 bytes, bytes))

set_option maxRecDepth 100000 in
/-- With a cache of one node the second leaf is cached, the first one is not, and the store was
asked three times. The load that failed leaves the cache as it is when it is made again. -/
theorem serveAll_follows_narrow :
    let served := (Loader.new 0 1 Nat.one_pos).serveAll pairStore alternation
    served.2.1.cache.entries.map Prod.fst = (pair.drop 1).map keccak256 ∧
      (∃ roster, Roster.empty.Run 0 1 pairStore alternation served.1 roster served.2.2 ∧
        roster.Orders served.2.1.cache ∧ roster.asked.length = 3) ∧
      (served.2.1.load served.2.2 emptyRoot).2.1.cache = served.2.1.cache := by
  intro served
  have hruns : served.2.1.cache.entries.map Prod.fst = (pair.drop 1).map keccak256 ∧
      served.2.1.fetches = 3 ∧
      (served.2.1.load served.2.2 emptyRoot).1.isOk = false := by
    decide +kernel
  obtain ⟨hcached, hcount, hmissing⟩ := hruns
  obtain ⟨⟨roster, hrun, horders, -, -, hfetches, -⟩, hfailed⟩ :=
    serveAll_follows 0 Nat.one_pos pairStore alternation
  refine ⟨hcached, ⟨roster, hrun, horders, hfetches.symm.trans hcount⟩, ?_⟩
  rcases hload : served.2.1.load served.2.2 emptyRoot with ⟨error | node, later, last⟩
  · exact (hfailed emptyRoot error later last hload).1
  · rw [hload] at hmissing
    cases hmissing

end Loader

end Patricia
