import Mathlib.Data.Finset.Card
import Mathlib.Data.List.Nodup
import Patricia.Proofs.Loader.SingleFlight

/-!
# Nodes that stay in the cache are read once

Loads share a loader whose cache has room for all hashes that are ever loaded, and no cached node
is dropped on request. Then a node that was read stays in the cache. A load that missed it looks
again under the lock of the flights before it installs a flight, and a flight puts its node into
the cache before it gives up its slot, so no read is issued for a hash after one has succeeded
(`Traffic.run_reads_once`). `Traffic.Resident` is the invariant: flights whose node is still to
come are for hashes that are not cached, and those whose node has come are for cached ones.
-/

namespace Patricia

/-! ## A cache with room for all -/

namespace Recency

variable {cache : Recency} {hash other : Hash} {node : Resolved} {wanted : Finset Hash}

/-- The hashes of the cached nodes, the most recently used one first. -/
def hashes (cache : Recency) : List Hash :=
  cache.entries.map Prod.fst

/-- A hash is cached if there is an entry for it. -/
theorem contains_iff : cache.contains hash = true ↔ hash ∈ cache.hashes := by
  rw [contains, peek?, hashes, ← not_iff_not, Bool.not_eq_true, Option.isSome_eq_false_iff,
    Option.isNone_iff_eq_none, List.lookup_eq_none_iff, List.mem_map]
  constructor
  · intro hnone hmem
    obtain ⟨entry, hentry, heq⟩ := hmem
    exact bne_iff_ne.mp (hnone entry hentry) heq.symm
  · intro hmem entry hentry
    exact bne_iff_ne.mpr fun heq ↦ hmem ⟨entry, hentry, heq.symm⟩

/-- Dropping what is not cached changes nothing. -/
theorem evict_eq_self (h : hash ∉ cache.hashes) : cache.evict hash = cache := by
  have hothers : cache.others hash = cache.entries := by
    rw [others, List.filter_eq_self]
    intro entry hentry
    have hne : entry.1 ≠ hash := fun heq ↦ h (heq ▸ List.mem_map_of_mem hentry)
    simpa using hne
  obtain ⟨capacity, capacity_pos, entries, bounded⟩ := cache
  simp only [evict, mk.injEq, true_and]
  exact hothers

/-- The hashes of the nodes under other hashes. -/
theorem hashes_others (cache : Recency) (hash : Hash) :
    (cache.others hash).map Prod.fst = cache.hashes.filter (· ≠ hash) := by
  rw [others, hashes, List.filter_map]
  rfl

/-- A node that is put in comes first, and the others follow as far as there is room. -/
theorem hashes_put_eq (cache : Recency) (hash : Hash) (node : Resolved) :
    (cache.put hash node).hashes =
      (hash :: cache.hashes.filter (· ≠ hash)).take cache.capacity := by
  rw [hashes, put, List.map_take, List.map_cons, hashes_others]

/-- The hashes of a cache stay distinct when a node is put in. -/
theorem nodup_put (h : cache.hashes.Nodup) (hash : Hash) (node : Resolved) :
    (cache.put hash node).hashes.Nodup := by
  rw [hashes_put_eq]
  refine List.Nodup.sublist (List.take_sublist _ _) (List.nodup_cons.mpr ⟨?_, h.filter _⟩)
  simp

/-- The hashes of a cache stay distinct when a node is dropped. -/
theorem nodup_evict (h : cache.hashes.Nodup) (hash : Hash) : (cache.evict hash).hashes.Nodup :=
  h.sublist (List.filter_sublist.map Prod.fst)

/-- Where there is room beside the others, putting a node in drops none of them. -/
theorem mem_hashes_put_of_lt (h : (cache.hashes.filter (· ≠ hash)).length < cache.capacity)
    (node : Resolved) :
    other ∈ (cache.put hash node).hashes ↔ other = hash ∨ other ∈ cache.hashes := by
  rw [hashes_put_eq, List.take_of_length_le (by rw [List.length_cons]; exact h), List.mem_cons,
    List.mem_filter, decide_eq_true_eq]
  constructor
  · exact Or.imp id And.left
  · intro hother
    by_cases heq : other = hash
    · exact Or.inl heq
    · exact Or.inr ⟨hother.resolve_left heq, heq⟩

/-- Putting a node in under a hash that is cached drops nothing. -/
theorem mem_hashes_put_of_mem (h : hash ∈ cache.hashes) (node : Resolved) :
    other ∈ (cache.put hash node).hashes ↔ other ∈ cache.hashes := by
  have hfewer : (cache.hashes.filter (· ≠ hash)).length < cache.hashes.length :=
    List.length_filter_lt_length_iff_exists.mpr ⟨hash, h, by simp⟩
  have hroom : (cache.hashes.filter (· ≠ hash)).length < cache.capacity := by
    rw [hashes, List.length_map] at hfewer
    exact Nat.lt_of_lt_of_le hfewer cache.bounded
  rw [mem_hashes_put_of_lt hroom, or_iff_right_of_imp]
  rintro rfl
  exact h

/-- The cached hashes are distinct and among some hashes for which there is room. -/
structure Roomy (wanted : Finset Hash) (cache : Recency) : Prop where
  room : wanted.card ≤ cache.capacity
  nodup : cache.hashes.Nodup
  within : ∀ hash ∈ cache.hashes, hash ∈ wanted

namespace Roomy

/-- There is room for another one of the hashes beside those that are cached. -/
theorem length_others_lt (h : cache.Roomy wanted) (hmem : hash ∈ wanted) :
    (cache.hashes.filter (· ≠ hash)).length < cache.capacity := by
  have hsubset : (cache.hashes.filter (· ≠ hash)).toFinset ⊆ wanted.erase hash := by
    intro other hother
    obtain ⟨hold, hne⟩ := List.mem_filter.mp (List.mem_toFinset.mp hother)
    exact Finset.mem_erase.mpr ⟨of_decide_eq_true hne, h.within _ hold⟩
  have hcard := Finset.card_le_card hsubset
  rw [List.toFinset_card_of_nodup (h.nodup.filter _), Finset.card_erase_of_mem hmem] at hcard
  have hpos := Finset.card_pos.mpr ⟨hash, hmem⟩
  have hroom := h.room
  omega

/-- After putting a node in, its hash is cached, and of the others those that were before. -/
theorem mem_hashes_put (h : cache.Roomy wanted) (hmem : hash ∈ wanted) (node : Resolved) :
    other ∈ (cache.put hash node).hashes ↔ other = hash ∨ other ∈ cache.hashes :=
  mem_hashes_put_of_lt (h.length_others_lt hmem) node

/-- There still is room after putting a node in. -/
theorem put (h : cache.Roomy wanted) (hmem : hash ∈ wanted) (node : Resolved) :
    (cache.put hash node).Roomy wanted := by
  refine ⟨h.room, nodup_put h.nodup hash node, fun other hother ↦ ?_⟩
  rcases (h.mem_hashes_put hmem node).mp hother with rfl | hold
  · exact hmem
  · exact h.within other hold

end Roomy

end Recency

namespace Loader

variable {loader later : Loader} {hash : Hash} {node : Resolved} {wanted : Finset Hash}

/-- A look into the cache that fails shows that the hash is not cached. -/
theorem not_mem_of_lookUp (h : loader.lookUp hash = none) : hash ∉ loader.cache.hashes := by
  rw [← Recency.contains_iff, Recency.contains]
  simp only [lookUp, Recency.touch, Option.map_map, Option.map_eq_none_iff] at h
  simp [h]

/-- A hash that is cached is found there. -/
theorem lookUp_of_mem (h : hash ∈ loader.cache.hashes) :
    ∃ node later, loader.lookUp hash = some (node, later) := by
  cases hfound : loader.lookUp hash with
  | none => exact absurd h (not_mem_of_lookUp hfound)
  | some found => exact ⟨found.1, found.2, rfl⟩

/-- A look into the cache that succeeds drops nothing. -/
theorem mem_hashes_lookUp (hfound : loader.lookUp hash = some (node, later)) (other : Hash) :
    other ∈ later.cache.hashes ↔ other ∈ loader.cache.hashes := by
  have hmem : hash ∈ loader.cache.hashes := List.mem_map_of_mem (lookUp_entries hfound).1
  obtain ⟨-, rfl⟩ := lookUp_eq_some_iff.mp hfound
  exact Recency.mem_hashes_put_of_mem hmem node

/-- A look into a cache with room leaves room. -/
theorem lookUp_roomy (h : loader.cache.Roomy wanted)
    (hfound : loader.lookUp hash = some (node, later)) : later.cache.Roomy wanted := by
  have hmem : hash ∈ loader.cache.hashes := List.mem_map_of_mem (lookUp_entries hfound).1
  obtain ⟨-, rfl⟩ := lookUp_eq_some_iff.mp hfound
  exact h.put (h.within hash hmem) node

end Loader

/-! ## Flights and the cache -/

namespace Stage

/-- The node of the flight is still to come into the cache. -/
def isPending : Stage → Bool
  | .planned | .reading | .answered _ => true
  | .cached _ | .ended _ => false

/-- The node of the flight came into the cache. -/
def isKept : Stage → Bool
  | .cached (.ok _) | .ended (.ok _) => true
  | _ => false

/-- The read of the flight was issued. -/
def wasIssued : Stage → Bool
  | .planned => false
  | .reading | .answered _ | .cached _ | .ended _ => true

variable {stage : Stage}

/-- A flight whose node is still to come is under way. -/
theorem issued?_of_isPending (h : stage.isPending = true) : stage.issued?.isSome = true := by
  cases stage with
  | planned | reading | answered => rfl
  | cached | ended => cases h

end Stage

/-- The hash that a step begins to load, if it does. -/
def Event.loaded? : Event → Option Hash
  | .call hash => some hash
  | _ => none

namespace Traffic

variable {traffic later : Traffic} {event : Event} {events : List Event} {hash : Hash}
  {wanted : Finset Hash}

/-- The nodes of flights are cached exactly from when they came on, in a cache with room for all
hashes that are loaded. -/
structure Resident (wanted : Finset Hash) (traffic : Traffic) : Prop where
  roomy : traffic.loader.cache.Roomy wanted
  asked : ∀ fetch ∈ traffic.fetches, fetch.hash ∈ wanted
  missed : ∀ hash, .missed hash ∈ traffic.callers → hash ∈ wanted
  absent : ∀ fetch ∈ traffic.fetches, fetch.stage.isPending = true →
    fetch.hash ∉ traffic.loader.cache.hashes
  present : ∀ fetch ∈ traffic.fetches, fetch.stage.isKept = true →
    fetch.hash ∈ traffic.loader.cache.hashes

namespace Resident

/-- Before the first load there is nothing in the cache. -/
theorem start (owner : Nat) (settings : Settings) (h : wanted.card ≤ settings.cacheCapacity) :
    (Traffic.start owner settings).Resident wanted :=
  ⟨⟨h, List.nodup_nil, nofun⟩, nofun, nofun, nofun, nofun⟩

/-- Only the flights, the loads that missed and the cached hashes matter. -/
theorem congr (h : traffic.Resident wanted) (hroomy : later.loader.cache.Roomy wanted)
    (hcache : ∀ hash, hash ∈ later.loader.cache.hashes ↔ hash ∈ traffic.loader.cache.hashes)
    (hfetches : later.fetches = traffic.fetches)
    (hmissed : ∀ hash, .missed hash ∈ later.callers → hash ∈ wanted) :
    later.Resident wanted := by
  refine ⟨hroomy, hfetches ▸ h.asked, hmissed, ?_, ?_⟩
  · intro fetch hfetch hpending
    rw [hcache]
    exact h.absent fetch (hfetches ▸ hfetch) hpending
  · intro fetch hfetch hkept
    rw [hcache]
    exact h.present fetch (hfetches ▸ hfetch) hkept

/-- A load that gets further did not miss later than before. -/
theorem missed_set (h : traffic.Resident wanted) {number : Nat} {caller : Caller}
    (hcaller : ∀ hash, caller ≠ .missed hash) :
    ∀ hash, .missed hash ∈ traffic.callers.set number caller → hash ∈ wanted := by
  intro hash hmem
  rcases List.mem_or_eq_of_mem_set hmem with hold | hnew
  · exact h.missed hash hold
  · exact absurd hnew.symm (hcaller hash)

/-- A load that begins missed only if its hash is one of those that are loaded. -/
theorem missed_append (h : traffic.Resident wanted) {caller : Caller}
    (hcaller : ∀ hash, caller = .missed hash → hash ∈ wanted) :
    ∀ hash, .missed hash ∈ traffic.callers ++ [caller] → hash ∈ wanted := by
  intro hash hmem
  rcases List.mem_append.mp hmem with hold | hnew
  · exact h.missed hash hold
  · exact hcaller hash (List.mem_singleton.mp hnew).symm

/-- A flight can get further if that does not decide whether its node is cached. -/
theorem progress (h : traffic.Resident wanted) {flight : Nat} {stage : Stage} (next : Stage)
    (hstage : traffic.fetches[flight]? = some ⟨hash, stage⟩)
    (hpending : next.isPending = true → stage.isPending = true)
    (hkept : next.isKept = true → stage.isKept = true) :
    (traffic.progress flight hash next).Resident wanted := by
  have hmem := List.mem_of_getElem? hstage
  refine ⟨h.roomy, ?_, h.missed, ?_, ?_⟩
  · intro fetch hfetch
    rcases List.mem_or_eq_of_mem_set hfetch with hold | rfl
    · exact h.asked fetch hold
    · exact h.asked ⟨hash, stage⟩ hmem
  · intro fetch hfetch hnext
    rcases List.mem_or_eq_of_mem_set hfetch with hold | rfl
    · exact h.absent fetch hold hnext
    · exact h.absent ⟨hash, stage⟩ hmem (hpending hnext)
  · intro fetch hfetch hnext
    rcases List.mem_or_eq_of_mem_set hfetch with hold | rfl
    · exact h.present fetch hold hnext
    · exact h.present ⟨hash, stage⟩ hmem (hkept hnext)

/-- A flight can be installed for a hash that is loaded and not cached. -/
theorem install (h : traffic.Resident wanted) (hmem : hash ∈ wanted)
    (hmiss : hash ∉ traffic.loader.cache.hashes) :
    Resident wanted { traffic with fetches := traffic.fetches ++ [⟨hash, .planned⟩] } := by
  refine ⟨h.roomy, ?_, h.missed, ?_, ?_⟩
  · intro fetch hfetch
    rcases List.mem_append.mp hfetch with hold | hnew
    · exact h.asked fetch hold
    · rw [List.mem_singleton.mp hnew]
      exact hmem
  · intro fetch hfetch hpending
    rcases List.mem_append.mp hfetch with hold | hnew
    · exact h.absent fetch hold hpending
    · rw [List.mem_singleton.mp hnew]
      exact hmiss
  · intro fetch hfetch hkept
    rcases List.mem_append.mp hfetch with hold | hnew
    · exact h.present fetch hold hkept
    · rw [List.mem_singleton.mp hnew] at hkept
      cases hkept

/-- The node of a flight that succeeded can go into the cache, since no other flight for the hash is
under way. -/
theorem keep (h : traffic.Resident wanted) (hslotted : traffic.Slotted) {flight : Nat}
    {node : Resolved} (hstage : traffic.fetches[flight]? = some ⟨hash, .answered (.ok node)⟩) :
    Resident wanted { traffic.progress flight hash (.cached (.ok node)) with
      loader := traffic.loader.retain hash node } := by
  have hmem := h.asked _ (List.mem_of_getElem? hstage)
  have hcached : ∀ {other : Hash}, other ∈ (traffic.loader.retain hash node).cache.hashes ↔
      other = hash ∨ other ∈ traffic.loader.cache.hashes := h.roomy.mem_hashes_put hmem node
  refine ⟨h.roomy.put hmem node, ?_, h.missed, ?_, ?_⟩
  · intro fetch hfetch
    rcases List.mem_or_eq_of_mem_set hfetch with hold | rfl
    · exact h.asked fetch hold
    · exact hmem
  · intro fetch hfetch hpending hnow
    obtain ⟨number, hnumber⟩ := List.mem_iff_getElem?.mp hfetch
    by_cases heq : flight = number
    · subst heq
      have hself : (traffic.fetches.set flight ⟨hash, .cached (.ok node)⟩)[flight]? =
          some ⟨hash, .cached (.ok node)⟩ :=
        List.getElem?_set_self (List.getElem?_eq_some_iff.mp hstage).1
      cases hself.symm.trans hnumber
      cases hpending
    · have hold := (List.getElem?_set_ne heq).symm.trans hnumber
      rcases hcached.mp hnow with hhash | hbefore
      · obtain ⟨other, stage⟩ := fetch
        obtain rfl : other = hash := hhash
        exact heq (hslotted.eq_of_issued hstage rfl hold (Stage.issued?_of_isPending hpending))
      · exact h.absent fetch (List.mem_of_getElem? hold) hpending hbefore
  · intro fetch hfetch hkept
    refine hcached.mpr ?_
    rcases List.mem_or_eq_of_mem_set hfetch with hold | rfl
    · exact Or.inr (h.present fetch hold hkept)
    · exact Or.inl rfl

/-- Every step keeps nodes in the cache, if it loads one of the hashes and drops no cached node. -/
theorem step (h : traffic.Resident wanted) (hslotted : traffic.Slotted)
    (hcall : ∀ hash, event = .call hash → hash ∈ wanted)
    (hevict : ∀ hash, event = .evict hash → hash ∉ traffic.loader.cache.hashes) :
    (traffic.step event).Resident wanted := by
  generalize hlater : traffic.step event = later
  rcases step_cases hlater with rfl | hmove
  · exact h
  · cases hmove with
    | hit hfound =>
        have hroomy := Loader.lookUp_roomy h.roomy hfound
        have hcache := Loader.mem_hashes_lookUp hfound
        exact h.congr hroomy hcache rfl (h.missed_append nofun)
    | miss =>
        refine h.congr h.roomy (fun _ ↦ Iff.rfl) rfl (h.missed_append ?_)
        intro other heq
        cases heq
        exact hcall _ rfl
    | join => exact h.congr h.roomy (fun _ ↦ Iff.rfl) rfl (h.missed_set nofun)
    | find hcaller hflight hfound =>
        have hroomy := Loader.lookUp_roomy h.roomy hfound
        have hcache := Loader.mem_hashes_lookUp hfound
        exact h.congr hroomy hcache rfl (h.missed_set nofun)
    | install hcaller hflight hmiss =>
        have hmem := h.missed _ (List.mem_of_getElem? hcaller)
        have hinstalled := h.install hmem (Loader.not_mem_of_lookUp hmiss)
        exact hinstalled.congr h.roomy (fun _ ↦ Iff.rfl) rfl (h.missed_set nofun)
    | depart hcaller hstage =>
        exact (h.progress .reading hstage (fun _ ↦ rfl) nofun).congr h.roomy (fun _ ↦ Iff.rfl) rfl
          h.missed
    | answer answer hstage =>
        obtain ⟨-, -, hcache⟩ := traffic.loader.receive_frame _ answer
        refine (h.progress (.answered _) hstage (fun _ ↦ rfl) nofun).congr ?_ ?_ rfl h.missed
        · exact hcache ▸ h.roomy
        · intro other
          rw [hcache]
          rfl
    | keep hstage =>
        rename_i outcome
        cases outcome with
        | error error =>
            refine (h.progress (.cached (.error error)) hstage nofun ?_).congr h.roomy
              (fun _ ↦ Iff.rfl) rfl h.missed
            intro hkept
            cases hkept
        | ok node => exact h.keep hslotted hstage
    | release hstage =>
        rename_i outcome
        refine (h.progress (.ended outcome) hstage nofun ?_).congr h.roomy (fun _ ↦ Iff.rfl) rfl
          h.missed
        cases outcome <;> exact id
    | deliver => exact h.congr h.roomy (fun _ ↦ Iff.rfl) rfl (h.missed_set nofun)
    | evict hash =>
        have heq : traffic.loader.cache.evict hash = traffic.loader.cache :=
          Recency.evict_eq_self (hevict hash rfl)
        rw [Loader.evict, heq]
        exact h

end Resident

/-! ## Reads -/

/-- Number of reads of a hash that were issued. A flight issues one at most. -/
def reads (traffic : Traffic) (hash : Hash) : Nat :=
  traffic.fetches.countP fun fetch ↦ decide (fetch.hash = hash) && fetch.stage.wasIssued

/-- Some read of the hash succeeded. -/
def HasRead (traffic : Traffic) (hash : Hash) : Prop :=
  ∃ fetch ∈ traffic.fetches, fetch.hash = hash ∧ ∃ node, fetch.stage.outcome? = some (.ok node)

/-- Where an element of a list is replaced, only the two of them make a difference to a count. -/
theorem countP_set_add {α : Type} {p : α → Bool} {list : List α} {number : Nat} {element : α}
    (h : list[number]? = some element) (other : α) :
    (list.set number other).countP p + (if p element then 1 else 0) =
      list.countP p + (if p other then 1 else 0) := by
  obtain ⟨hlt, hget⟩ := List.getElem?_eq_some_iff.mp h
  have hset := List.countP_set (p := p) (a := other) hlt
  have hpos : p element = true → 0 < list.countP p := fun hp ↦
    List.countP_pos_iff.mpr ⟨element, List.mem_of_getElem? h, hp⟩
  rw [hset, hget]
  split <;> rename_i hp
  · have hone := hpos hp
    omega
  · omega

/-- A flight that gets further adds a read exactly when it issues its own. -/
theorem reads_progress {flight : Nat} {key : Hash} {stage : Stage} (next : Stage) (hash : Hash)
    (hstage : traffic.fetches[flight]? = some ⟨key, stage⟩) :
    (traffic.progress flight key next).reads hash +
        (if key = hash ∧ stage.wasIssued = true then 1 else 0) =
      traffic.reads hash + (if key = hash ∧ next.wasIssued = true then 1 else 0) := by
  have hset := countP_set_add (p := fun fetch : Fetch ↦
    decide (fetch.hash = hash) && fetch.stage.wasIssued) hstage ⟨key, next⟩
  simp only [Bool.and_eq_true, decide_eq_true_eq] at hset
  exact hset

/-- A step issues no read of a hash, or issues the read of a flight that was planned for it. -/
theorem reads_step (traffic : Traffic) (event : Event) (hash : Hash) :
    (traffic.step event).reads hash = traffic.reads hash ∨
      (traffic.step event).reads hash = traffic.reads hash + 1 ∧
        ⟨hash, .planned⟩ ∈ traffic.fetches := by
  have hsame : ∀ {flight : Nat} {key : Hash} {stage next : Stage},
      traffic.fetches[flight]? = some ⟨key, stage⟩ → next.wasIssued = stage.wasIssued →
      (traffic.progress flight key next).reads hash = traffic.reads hash := by
    intro flight key stage next hstage hissued
    have hreads := reads_progress next hash hstage
    rw [hissued] at hreads
    exact Nat.add_right_cancel hreads
  generalize hlater : traffic.step event = later
  rcases step_cases hlater with rfl | hmove
  · exact Or.inl rfl
  · cases hmove with
    | hit | miss | join | find | deliver | evict => exact Or.inl rfl
    | install =>
        refine Or.inl ?_
        simp [reads, Stage.wasIssued]
    | depart hcaller hstage =>
        rename_i flight asked key
        have hreads := reads_progress .reading hash hstage
        show (traffic.progress flight key .reading).reads hash = _ ∨
          (traffic.progress flight key .reading).reads hash = _ ∧ _
        by_cases heq : key = hash
        · subst heq
          exact Or.inr ⟨by simpa [Stage.wasIssued] using hreads, List.mem_of_getElem? hstage⟩
        · exact Or.inl (by simpa [heq] using hreads)
    | answer answer hstage => exact Or.inl (hsame hstage rfl)
    | keep hstage => exact Or.inl (hsame hstage rfl)
    | release hstage => exact Or.inl (hsame hstage rfl)

/-- What was read stays read. -/
theorem HasRead.step (h : traffic.HasRead hash) : (traffic.step event).HasRead hash := by
  obtain ⟨fetch, hfetch, hhash, node, hnode⟩ := h
  have hprogress : ∀ {flight : Nat} {key : Hash} {stage : Stage} (next : Stage),
      traffic.fetches[flight]? = some ⟨key, stage⟩ →
      (∀ outcome, stage.outcome? = some outcome → next.outcome? = some outcome) →
      (traffic.progress flight key next).HasRead hash := by
    intro flight key stage next hstage hnext
    obtain ⟨number, hnumber⟩ := List.mem_iff_getElem?.mp hfetch
    by_cases heq : flight = number
    · subst heq
      cases hstage.symm.trans hnumber
      exact ⟨⟨key, next⟩, List.mem_set (List.getElem?_eq_some_iff.mp hstage).1 _, hhash, node,
        hnext _ hnode⟩
    · exact ⟨fetch, List.mem_of_getElem? ((List.getElem?_set_ne heq).trans hnumber), hhash, node,
        hnode⟩
  generalize hlater : traffic.step event = later
  rcases step_cases hlater with rfl | hmove
  · exact ⟨fetch, hfetch, hhash, node, hnode⟩
  · cases hmove with
    | hit | miss | join | find | deliver | evict => exact ⟨fetch, hfetch, hhash, node, hnode⟩
    | install => exact ⟨fetch, List.mem_append_left _ hfetch, hhash, node, hnode⟩
    | depart hcaller hstage => exact hprogress .reading hstage nofun
    | answer answer hstage => exact hprogress (.answered _) hstage nofun
    | keep hstage => exact hprogress (.cached _) hstage fun _ ↦ id
    | release hstage => exact hprogress (.ended _) hstage fun _ ↦ id

/-- After a read of a hash has succeeded no flight is planned for it: the one that read it is under
way, or its node is in the cache. -/
theorem HasRead.not_planned (h : traffic.HasRead hash) (hslotted : traffic.Slotted)
    (hresident : traffic.Resident wanted) : ⟨hash, .planned⟩ ∉ traffic.fetches := by
  intro hplanned
  obtain ⟨⟨key, stage⟩, hfetch, rfl, node, hnode⟩ := h
  have habsent : key ∉ traffic.loader.cache.hashes := hresident.absent _ hplanned rfl
  cases stage with
  | planned | reading => cases hnode
  | answered outcome =>
      obtain ⟨number, hnumber⟩ := List.mem_iff_getElem?.mp hfetch
      obtain ⟨other, hother⟩ := List.mem_iff_getElem?.mp hplanned
      obtain rfl := hslotted.eq_of_issued hnumber rfl hother rfl
      cases hnumber.symm.trans hother
  | cached outcome | ended outcome =>
      obtain rfl : outcome = .ok node := Option.some.inj hnode
      exact habsent (hresident.present _ hfetch rfl)

/-! ## Runs -/

/-- No node that is cached is dropped in the course of some steps. -/
def Sparing (traffic : Traffic) : List Event → Prop
  | [] => True
  | event :: events =>
      (∀ hash, event = .evict hash → traffic.loader.isCached hash = false) ∧
        (traffic.step event).Sparing events

/-- Steps that are sparing one after the other. -/
theorem sparing_append {before after : List Event} :
    traffic.Sparing (before ++ after) ↔
      traffic.Sparing before ∧ (traffic.run before).Sparing after := by
  induction before generalizing traffic with
  | nil => exact (and_iff_right trivial).symm
  | cons event before ih =>
      rw [List.cons_append, Sparing, Sparing, ih, and_assoc]
      rfl

/-- The slots are right and the nodes of flights are in the cache. -/
structure Settled (wanted : Finset Hash) (traffic : Traffic) : Prop where
  slotted : traffic.Slotted
  resident : traffic.Resident wanted

/-- What every step keeps holds after every run that loads some hashes and drops no cached node. -/
theorem Settled.run_induction {p : Traffic → Prop} (hsettled : traffic.Settled wanted)
    (hcalls : ∀ hash, .call hash ∈ events → hash ∈ wanted) (hsparing : traffic.Sparing events)
    (h : p traffic)
    (hstep : ∀ {traffic : Traffic} {event}, event ∈ events → traffic.Settled wanted →
      p traffic → p (traffic.step event)) :
    (traffic.run events).Settled wanted ∧ p (traffic.run events) := by
  induction events generalizing traffic with
  | nil => exact ⟨hsettled, h⟩
  | cons event events ih =>
      have hnext : (traffic.step event).Settled wanted := by
        refine ⟨hsettled.slotted.step, hsettled.resident.step hsettled.slotted ?_ ?_⟩
        · intro hash heq
          exact hcalls hash (heq ▸ List.mem_cons_self)
        · intro hash heq hmem
          have hcached := hsparing.1 hash heq
          rw [Loader.isCached, Recency.contains_iff.mpr hmem] at hcached
          cases hcached
      exact ih hnext (fun hash hmem ↦ hcalls hash (List.mem_cons_of_mem _ hmem)) hsparing.2
        (hstep List.mem_cons_self hsettled h) fun hmem ↦ hstep (List.mem_cons_of_mem _ hmem)

/-- The hashes that are loaded in the course of some steps. -/
def loaded (events : List Event) : Finset Hash :=
  (events.filterMap Event.loaded?).toFinset

/-- What is called is loaded. -/
theorem mem_loaded (h : .call hash ∈ events) : hash ∈ loaded events :=
  List.mem_toFinset.mpr (List.mem_filterMap.mpr ⟨_, h, rfl⟩)

/-- No flight has failed. -/
def Unfailing (traffic : Traffic) : Prop :=
  ∀ fetch ∈ traffic.fetches, ∀ outcome, fetch.stage.outcome? = some outcome →
    ∃ node, outcome = .ok node

/-- Before the first load no flight has failed. -/
theorem Unfailing.start (owner : Nat) (settings : Settings) :
    (Traffic.start owner settings).Unfailing :=
  nofun

/-- No flight fails in a step if all answers for its hash so far are judged to be nodes. -/
theorem Unfailing.step (h : traffic.Unfailing)
    (hgood : ∀ fetch ∈ traffic.fetches, ∀ answer,
      (fetch.hash, answer) ∈ (traffic.step event).answers →
        ∃ read, Loader.judge fetch.hash answer = .ok read) :
    (traffic.step event).Unfailing := by
  have hprogress : ∀ {flight : Nat} {key : Hash} (next : Stage),
      (∀ outcome, next.outcome? = some outcome → ∃ node, outcome = .ok node) →
      (traffic.progress flight key next).Unfailing := by
    intro flight key next hnext fetch hfetch outcome houtcome
    rcases List.mem_or_eq_of_mem_set hfetch with hold | rfl
    · exact h fetch hold outcome houtcome
    · exact hnext outcome houtcome
  generalize hlater : traffic.step event = later at hgood
  rcases step_cases hlater with rfl | hmove
  · exact h
  · cases hmove with
    | hit | miss | join | find | deliver | evict => exact h
    | install =>
        intro fetch hfetch outcome houtcome
        rcases List.mem_append.mp hfetch with hold | hnew
        · exact h fetch hold outcome houtcome
        · rw [List.mem_singleton.mp hnew] at houtcome
          cases houtcome
    | depart => exact hprogress .reading nofun
    | answer answer hstage =>
        refine hprogress (.answered _) fun outcome houtcome ↦ ?_
        obtain ⟨read, hread⟩ :=
          hgood _ (List.mem_of_getElem? hstage) answer List.mem_cons_self
        obtain rfl := Option.some.inj houtcome
        rw [Loader.receive, hread]
        exact ⟨_, rfl⟩
    | keep hstage => exact hprogress (.cached _) (h _ (List.mem_of_getElem? hstage))
    | release hstage => exact hprogress (.ended _) (h _ (List.mem_of_getElem? hstage))

/-- Answers are not forgotten. -/
theorem answers_step (traffic : Traffic) (event : Event) :
    traffic.answers ⊆ (traffic.step event).answers := by
  generalize hlater : traffic.step event = later
  rcases step_cases hlater with rfl | hmove
  · exact List.Subset.refl _
  · cases hmove with
    | answer => exact List.subset_cons_self _ _
    | _ => exact List.Subset.refl _

/-- While no flight has failed, no second read of a hash is issued. -/
theorem Settled.reads_le_one (h : traffic.Settled wanted) (hunfailing : traffic.Unfailing)
    (hreads : traffic.reads hash ≤ 1) : (traffic.step event).reads hash ≤ 1 := by
  rcases traffic.reads_step event hash with hsame | ⟨hmore, hplanned⟩
  · omega
  · have hnone : traffic.reads hash = 0 := by
      refine Nat.eq_zero_of_not_pos fun hpos ↦ ?_
      obtain ⟨⟨key, stage⟩, hfetch, hissued⟩ := List.countP_pos_iff.mp hpos
      simp only [Bool.and_eq_true, decide_eq_true_eq] at hissued
      obtain ⟨rfl, hissued⟩ := hissued
      cases houtcome : stage.outcome? with
      | some outcome =>
          obtain ⟨node, rfl⟩ := hunfailing _ hfetch outcome houtcome
          have hread : traffic.HasRead key := ⟨_, hfetch, rfl, node, houtcome⟩
          exact hread.not_planned h.slotted h.resident hplanned
      | none =>
          -- The other flight is still reading, so it is the one that was planned.
          obtain ⟨number, hnumber⟩ := List.mem_iff_getElem?.mp hfetch
          obtain ⟨other, hother⟩ := List.mem_iff_getElem?.mp hplanned
          cases stage with
          | planned => cases hissued
          | reading =>
              obtain rfl := h.slotted.eq_of_issued hnumber rfl hother rfl
              cases hnumber.symm.trans hother
          | answered | cached | ended => cases houtcome
    omega

/-- Loads run at once over a new loader, in any order, whose cache has room for all hashes that are
loaded, and no cached node is dropped. Once a read of a hash has succeeded, no further read of the
hash is issued. So each hash is read at most once if the store answers all reads from contents that
have a node under each hash that is loaded. -/
theorem run_reads_once (owner : Nat) (settings : Settings) (events : List Event)
    (hroom : (loaded events).card ≤ settings.cacheCapacity)
    (hsparing : (start owner settings).Sparing events) :
    (∀ before after, events = before ++ after → ∀ hash,
      ((start owner settings).run before).HasRead hash →
        ((start owner settings).run events).reads hash =
          ((start owner settings).run before).reads hash) ∧
    ∀ contents : Hash → Option Bytes,
      (∀ hash ∈ loaded events, ∃ bytes read, contents hash = some bytes ∧
        keccak256 bytes = hash ∧ Node.decode bytes = .ok read) →
      (∀ entry ∈ ((start owner settings).run events).answers, entry.2 = .ok (contents entry.1)) →
      ∀ hash, ((start owner settings).run events).reads hash ≤ 1 := by
  have hstart : (start owner settings).Settled (loaded events) :=
    ⟨.start owner settings, .start owner settings hroom⟩
  constructor
  · intro before after hevents hash hread
    subst hevents
    obtain ⟨hbefore, hafter⟩ := sparing_append.mp hsparing
    have hsettled := (hstart.run_induction (p := fun _ ↦ True)
      (fun hash hmem ↦ mem_loaded (List.mem_append_left _ hmem)) hbefore trivial
      fun _ _ _ ↦ trivial).1
    have hrun := (hsettled.run_induction
      (p := fun traffic ↦ traffic.HasRead hash ∧
        traffic.reads hash = ((start owner settings).run before).reads hash)
      (fun hash hmem ↦ mem_loaded (List.mem_append_right _ hmem)) hafter ⟨hread, rfl⟩ ?_).2
    · rw [run, List.foldl_append]
      exact hrun.2
    · intro traffic event _ hnow hlast
      obtain ⟨hread, hreads⟩ := hlast
      refine ⟨hread.step, ?_⟩
      rcases traffic.reads_step event hash with hsame | ⟨-, hplanned⟩
      · rw [hsame, hreads]
      · exact absurd hplanned (hread.not_planned hnow.slotted hnow.resident)
  · intro contents hcontents hanswers
    have hrun := (hstart.run_induction
      (p := fun traffic ↦ (∀ entry ∈ traffic.answers, entry.2 = .ok (contents entry.1)) →
        traffic.Unfailing ∧ ∀ hash, traffic.reads hash ≤ 1)
      (fun hash hmem ↦ mem_loaded hmem) hsparing
      (fun _ ↦ ⟨.start owner settings, fun _ ↦ Nat.zero_le 1⟩) ?_).2
    · exact (hrun hanswers).2
    · intro traffic event _ hnow hlast hnext
      obtain ⟨hunfailing, hreads⟩ :=
        hlast fun entry hentry ↦ hnext entry (traffic.answers_step event hentry)
      refine ⟨hunfailing.step fun fetch hfetch answer hanswer ↦ ?_,
        fun hash ↦ hnow.reads_le_one hunfailing (hreads hash)⟩
      obtain ⟨bytes, read, hbytes, hhash, hread⟩ :=
        hcontents _ (hnow.resident.asked fetch hfetch)
      have hfrom : answer = .ok (contents fetch.hash) := hnext _ hanswer
      refine ⟨read, ?_⟩
      rw [hfrom, hbytes, Loader.judge, if_pos hhash, hread]

/-- A leaf that stands alone. -/
def lone : Bytes :=
  Node.leafForm (Bytes.nibbles [0x01]) [0x07]

/-- Two loads of one node miss the cache. The first one reads the node, and the second one comes to
the lock only after the flight of the first one is over. -/
def overtaken : List Event :=
  [.call (keccak256 lone), .call (keccak256 lone), .board 0, .depart 0, .answer 0 (.ok (some lone)),
    .keep 0, .release 0, .board 1, .deliver 0]

set_option maxRecDepth 100000 in
/-- The second load does not read the node again. -/
theorem overtaken_reads_once :
    (loaded overtaken).card ≤ Settings.narrow.cacheCapacity ∧ (start 0 .narrow).Sparing overtaken ∧
      ((start 0 .narrow).run (overtaken.take 5)).HasRead (keccak256 lone) ∧
      ((start 0 .narrow).run overtaken).reads (keccak256 lone) =
        ((start 0 .narrow).run (overtaken.take 5)).reads (keccak256 lone) ∧
      ((start 0 .narrow).run overtaken).reads (keccak256 lone) ≤ 1 := by
  have hroom : (loaded overtaken).card ≤ Settings.narrow.cacheCapacity := by decide +kernel
  have hsparing : (start 0 .narrow).Sparing overtaken := by simp [overtaken, Sparing]
  have hread : ((start 0 .narrow).run (overtaken.take 5)).HasRead (keccak256 lone) := by
    have htest : (((start 0 .narrow).run (overtaken.take 5)).fetches.any fun fetch ↦
        decide (fetch.hash = keccak256 lone) &&
          fetch.stage.outcome?.any fun outcome ↦ outcome.toOption.isSome) = true := by
      decide +kernel
    simp only [List.any_eq_true, Bool.and_eq_true, decide_eq_true_eq, Option.any_eq_true] at htest
    obtain ⟨fetch, hfetch, hhash, outcome, houtcome, hsome⟩ := htest
    cases outcome with
    | error error => cases hsome
    | ok node => exact ⟨fetch, hfetch, hhash, node, houtcome⟩
  obtain ⟨hrest, hall⟩ := run_reads_once 0 .narrow overtaken hroom hsparing
  refine ⟨hroom, hsparing, hread, hrest _ _ (List.take_append_drop 5 overtaken).symm _ hread, ?_⟩
  have hloaded : loaded overtaken = {keccak256 lone} := by decide +kernel
  have hanswers : ((start 0 .narrow).run overtaken).answers.all
      (·.2.toOption == some (some lone)) = true := by
    decide +kernel
  refine hall (fun _ ↦ some lone) (fun hash hmem ↦ ?_) (fun entry hentry ↦ ?_) _
  · obtain rfl := Finset.mem_singleton.mp (hloaded ▸ hmem)
    have hdecode : (Node.decode lone).toOption.isSome = true := by decide +kernel
    cases hread : Node.decode lone with
    | error cause =>
        rw [hread] at hdecode
        cases hdecode
    | ok read => exact ⟨lone, read, rfl, rfl, hread⟩
  · have hanswer := beq_iff_eq.mp (List.all_eq_true.mp hanswers entry hentry)
    cases hentry : entry.2 with
    | error error =>
        rw [hentry] at hanswer
        cases hanswer
    | ok found =>
        rw [hentry] at hanswer
        exact congrArg Except.ok (Option.some.inj hanswer)

end Traffic

end Patricia
