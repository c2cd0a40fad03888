import Patricia.Proofs.Loader.Loads
import Patricia.Proofs.Loader.Resident
import Patricia.Proofs.Loader.Serving

/-!
# Loads that fill a cache

Loads follow one another and each gives a node, in a cache that has room for all their hashes. Then
the cache has in the end what it had before and the hashes that were loaded, and the hashes that it
did not have before are the ones that are read, each once (`Walk.run_fills`). Over a store that
answers from fixed contents, what a load comes to is judged by the entry under its hash
(`Walk.loads_steady`).
-/

namespace Patricia

variable {σ : Type} [NodeStore σ] {α : Type}

namespace Load

variable {wanted : Finset Hash} {before between after : Recency} {loads more : List Load}

/-- Between two states of a cache with room for some hashes there were some loads. Hashes that were
loaded are cached in the end, and those that were not cached before were read, each once. -/
structure Fills (wanted : Finset Hash) (before after : Recency) (loads : List Load) : Prop where
  roomy : after.Roomy wanted
  cached : ∀ hash, hash ∈ after.hashes ↔ hash ∈ before.hashes ∨ hash ∈ loads.map Load.hash
  nodup : (reads loads).Nodup
  read : ∀ hash, hash ∈ reads loads ↔ hash ∉ before.hashes ∧ hash ∈ loads.map Load.hash

/-- No load fills nothing. -/
theorem Fills.nil (h : before.Roomy wanted) : Fills wanted before before [] :=
  ⟨h, by simp, List.nodup_nil, by simp [reads]⟩

/-- What is read in the course of loads is read in the course of the first or of the others. -/
theorem reads_append (loads more : List Load) : reads (loads ++ more) = reads loads ++ reads more :=
  List.filterMap_append

/-- Loads that fill a cache can follow one another. -/
theorem Fills.append (h : Fills wanted before between loads)
    (hmore : Fills wanted between after more) : Fills wanted before after (loads ++ more) := by
  refine ⟨hmore.roomy, fun hash ↦ ?_, ?_, fun hash ↦ ?_⟩
  · rw [hmore.cached, h.cached, List.map_append, List.mem_append, or_assoc]
  · rw [reads_append]
    refine h.nodup.append hmore.nodup fun hash hfirst hlast ↦ ?_
    exact ((hmore.read hash).mp hlast).1 ((h.cached hash).mpr (Or.inr ((h.read hash).mp hfirst).2))
  · rw [reads_append, List.mem_append, h.read, hmore.read, h.cached, List.map_append,
      List.mem_append]
    tauto

end Load

namespace Loader

variable {loader later : Loader} {store after : σ} {hash : Hash} {node : Resolved}
  {wanted : Finset Hash}

/-- A landing that gives a node puts it into the cache. -/
theorem land_cache {answer : Answer} (h : (loader.land hash answer).1 = .ok node) :
    (loader.land hash answer).2.cache = loader.cache.put hash node := by
  simp only [land, receive] at h ⊢
  cases hjudge : judge hash answer with
  | error error =>
      rw [hjudge] at h
      cases h
  | ok read =>
      rw [hjudge] at h
      cases h
      rfl

/-- A load of a hash that there is room for fills the cache with the node that it gives. No flight
is left. -/
theorem load_fills (hidle : loader.flights = []) (hroomy : loader.cache.Roomy wanted)
    (hwanted : hash ∈ wanted) (hload : loader.load store hash = (.ok node, later, after)) :
    later.flights = [] ∧
      Load.Fills wanted loader.cache later.cache [⟨hash, loader.heard store hash, .ok node⟩] := by
  cases hfound : loader.lookUp hash with
  | some found =>
      obtain ⟨cached, touched⟩ := found
      obtain ⟨hhit, hheard⟩ := load_of_hit store hfound
      cases hhit.symm.trans hload
      have hlater := lookUp_roomy hroomy hfound
      have hsame := mem_hashes_lookUp hfound
      obtain ⟨hentry, -, hflights, -⟩ := lookUp_entries hfound
      have hmem : hash ∈ loader.cache.hashes := List.mem_map_of_mem hentry
      rw [hheard]
      refine ⟨hflights.trans hidle, hlater, fun other ↦ ?_, List.nodup_nil, fun other ↦ ?_⟩
      · rw [hsame, List.map_singleton, List.mem_singleton]
        refine ⟨Or.inl, ?_⟩
        rintro (hold | rfl)
        · exact hold
        · exact hmem
      · refine iff_of_false List.not_mem_nil ?_
        rintro ⟨hnew, hother⟩
        exact hnew (List.mem_singleton.mp hother ▸ hmem)
  | none =>
      have hnew := not_mem_of_lookUp hfound
      obtain ⟨waiting, answered, hcache, -, -, hheard, hmiss⟩ := load_of_miss store hfound
      obtain ⟨idle, hlands, hidles⟩ := load_of_idle_miss hidle hfound
      have hflights : later.flights = [] :=
        (congrArg (·.2.1.flights) (hload.symm.trans (hidles σ store).2)).trans (hlands _).1
      rw [hmiss] at hload
      have hlater : later.cache = loader.cache.put hash node := by
        rw [← hcache, ← land_cache (congrArg (·.1) hload)]
        exact congrArg (·.2.1.cache) hload.symm
      rw [hheard, hlater]
      refine ⟨hflights, hroomy.put hwanted node, fun other ↦ ?_, List.nodup_singleton hash,
        fun other ↦ ?_⟩
      · rw [hroomy.mem_hashes_put hwanted, List.map_singleton, List.mem_singleton, or_comm]
      · show other ∈ [hash] ↔ _ ∧ other ∈ [hash]
        refine ⟨fun hother ↦ ⟨?_, hother⟩, And.right⟩
        exact List.mem_singleton.mp hother ▸ hnew

end Loader

namespace Walk

variable {loader : Loader} {store : σ} {walk : Walk α} {wanted : Finset Hash}

/-- A walk whose loads all give nodes, and for whose hashes there is room, fills the cache with
them. -/
theorem run_fills (hidle : loader.flights = []) (hroomy : loader.cache.Roomy wanted)
    (hloads : ∀ load ∈ walk.loads loader store, load.hash ∈ wanted ∧
      ∃ node, load.outcome = .ok node) :
    Load.Fills wanted loader.cache (walk.run loader store).2.1.cache
      (walk.loads loader store) := by
  induction walk generalizing loader store with
  | done | fail => exact .nil hroomy
  | fresh next ih =>
      exact ih loader.issue.1 (show loader.issue.2.flights = [] from hidle) hroomy hloads
  | load home hash next ih =>
      rw [loads] at hloads
      rw [run, loads]
      split
      swap
      · exact .nil hroomy
      rename_i howner
      rw [if_pos howner] at hloads
      obtain ⟨hwanted, node, hnode⟩ := hloads _ List.mem_cons_self
      rcases hload : loader.load store hash with ⟨outcome, later, after⟩
      rw [hload] at hloads hnode
      obtain rfl : outcome = .ok node := hnode
      obtain ⟨hlater, hfills⟩ := Loader.load_fills hidle hroomy hwanted hload
      exact hfills.append (ih node hlater hfills.roomy fun load hmem ↦
        hloads load (List.mem_cons_of_mem _ hmem))

/-- What a walk hears are the answers to its loads. -/
theorem heard_eq_loads (loader : Loader) (store : σ) (walk : Walk α) :
    walk.heard loader store =
      (walk.loads loader store).filterMap fun load ↦ load.heard.map (load.hash, ·) := by
  induction walk generalizing loader store with
  | done | fail => rfl
  | fresh next ih => exact ih _ _ _
  | load home hash next ih =>
      rw [heard, loads]
      split
      · rcases loader.load store hash with ⟨error | node, later, after⟩
        · cases loader.heard store hash <;> rfl
        · show _ ++ heard later after (next node) = _
          rw [ih]
          cases loader.heard store hash <;> rfl
      · rfl

/-- How a load may go: its hash may be asked for, and it gives a node that may be handed out or
fails as its answer is judged. -/
def LoadsWell (service : Service) (load : Load) : Prop :=
  service.asked load.hash ∧
    match load.outcome with
    | .ok node => service.served load.hash node.val
    | .error error => ∃ answer, load.heard = some answer ∧
        Loader.judge load.hash answer = .error error

/-- The loads of a walk that meets a guarantee after some node go well if that node is cached, and
the service may hand out what the answers have. -/
theorem MeetsAfter.loads_well {service : Service} {post : Nat → α → Prop}
    {recent : Option (Hash × Resolved)}
    (h : walk.MeetsAfter service post recent loader.mint.next) (hserves : loader.Serves service)
    (hrecent : ∀ hash node, recent = some (hash, node) → loader.cache.peek? hash = some node)
    (htakes : ∀ entry ∈ walk.heard loader store, service.Takes entry.1 entry.2) :
    ∀ load ∈ walk.loads loader store, LoadsWell service load := by
  induction walk generalizing loader store recent with
  | done | fail => exact List.forall_mem_nil _
  | fresh next ih =>
      rw [MeetsAfter, ← hserves.owner_eq] at h
      have hnext : loader.issue.2.Serves service := hserves.advance rfl rfl (Nat.le_succ _)
      exact ih _ h hnext hrecent htakes
  | load home hash next ih =>
      obtain ⟨hhome, hasked, hnext⟩ := h
      have hown : home = loader.owner := hhome.trans hserves.owner_eq.symm
      rw [heard, if_pos hown] at htakes
      rw [loads, if_pos hown]
      have htaken : ∀ answer, loader.heard store hash = some answer →
          service.Takes hash answer :=
        fun answer hanswer ↦ htakes (hash, answer) (List.mem_append_left _ (by simp [hanswer]))
      have hload := Loader.load_loadsWell htaken hasked hserves
      have hsame : ∀ known, recent = some (hash, known) →
          (loader.load store hash).1 = .ok known :=
        fun known hknown ↦ Loader.load_of_cached (hrecent hash known hknown)
      generalize loader.load store hash = loaded at hload hsame htakes ⊢
      obtain ⟨outcome, later, after⟩ := loaded
      obtain ⟨hlater, hle, houtcome⟩ := hload
      cases outcome with
      | error error =>
          exact List.forall_mem_cons.mpr ⟨⟨hasked, houtcome⟩, List.forall_mem_nil _⟩
      | ok node =>
          obtain ⟨hissued, hserved, hcached⟩ := houtcome
          have hmeets := hnext node _ hle hissued hserved fun known hknown ↦
            Except.ok.inj (hsame known hknown)
          refine List.forall_mem_cons.mpr ⟨⟨hasked, hserved⟩, ih node hmeets hlater ?_ ?_⟩
          · rintro _ _ ⟨⟩
            exact hcached
          · exact fun entry hentry ↦ htakes entry (List.mem_append_right _ hentry)

/-- Over a store that answers from fixed contents, each load of a walk that meets a guarantee gives
a node that may be handed out, if the entries under all hashes that may be asked for are judged to
be nodes. -/
theorem loads_steady {contents : Contents} {states : σ → Prop} {service : Service}
    {post : Nat → α → Prop} (hsteady : Steady contents states) (hreads : service.Reads contents)
    (hserves : loader.Serves service) (hstore : states store)
    (h : walk.Meets service post loader.mint.next)
    (hgood : ∀ hash, service.asked hash →
      ∃ read, Loader.judge hash (.ok (contents hash)) = .ok read) :
    ∀ load ∈ walk.loads loader store, service.asked load.hash ∧
      ∃ node, load.outcome = .ok node ∧ service.served load.hash node.val := by
  obtain ⟨-, hanswers⟩ := run_steady hsteady hstore walk loader
  have htakes : ∀ entry ∈ walk.heard loader store, service.Takes entry.1 entry.2 := by
    intro entry hentry node hasked hjudge
    rw [hanswers entry hentry] at hjudge
    exact hreads hasked hjudge
  intro load hload
  obtain ⟨hasked, houtcome⟩ := MeetsAfter.loads_well h hserves nofun htakes load hload
  refine ⟨hasked, ?_⟩
  cases hends : load.outcome with
  | ok node =>
      rw [hends] at houtcome
      exact ⟨node, rfl, houtcome⟩
  | error error =>
      rw [hends] at houtcome
      obtain ⟨answer, hanswer, hjudge⟩ := houtcome
      have hmem : (load.hash, answer) ∈ walk.heard loader store := by
        rw [heard_eq_loads]
        exact List.mem_filterMap.mpr ⟨load, hload, by rw [hanswer]; rfl⟩
      obtain ⟨read, hread⟩ := hgood load.hash hasked
      obtain rfl : answer = .ok (contents load.hash) := hanswers _ hmem
      cases hjudge.symm.trans hread

end Walk

end Patricia
