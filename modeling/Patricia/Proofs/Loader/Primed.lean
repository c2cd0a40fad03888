import Mathlib.Data.List.Dedup
import Patricia.Proofs.Loader.Filling

/-!
# A cache that was just filled

Nodes are put into a cache one after the other, whatever was in it before. Then it has the hashes
that were put in, each once and the last one first, and after them the others that it had before,
as far as there is room (`Recency.hashes_putAll`). A walk that loads cached hashes only asks the
store for nothing and drops nothing (`Walk.run_cached`).
-/

namespace Patricia

/-! ## Nodes put in one after the other -/

namespace Recency

variable {cache : Recency} {hash other : Hash} {node : Resolved}

/-- Hashes that follow one another, each once and the last one first. -/
def latest (hashes : List Hash) : List Hash :=
  hashes.dedup.reverse

@[simp] theorem mem_latest {hashes : List Hash} : hash ∈ latest hashes ↔ hash ∈ hashes := by
  rw [latest, List.mem_reverse, List.mem_dedup]

/-- No hash is listed twice. -/
theorem nodup_latest (hashes : List Hash) : (latest hashes).Nodup :=
  List.nodup_reverse.mpr (List.nodup_dedup hashes)

/-- There are as many as there are different hashes. -/
theorem length_latest (hashes : List Hash) :
    (latest hashes).length = hashes.toFinset.card := by
  rw [latest, List.length_reverse, List.card_toFinset]

/-- Of equal hashes the last one stays, so one more at the end takes the place of those before. -/
theorem dedup_concat (hashes : List Hash) (hash : Hash) :
    (hashes ++ [hash]).dedup = hashes.dedup.filter (· ≠ hash) ++ [hash] := by
  induction hashes with
  | nil => rfl
  | cons first hashes ih =>
      rw [List.cons_append]
      by_cases hmem : first ∈ hashes
      · rw [List.dedup_cons_of_mem hmem, List.dedup_cons_of_mem (List.mem_append_left _ hmem), ih]
      · rw [List.dedup_cons_of_notMem hmem]
        by_cases heq : first = hash
        · rw [List.dedup_cons_of_mem (by simp [heq]), ih, List.filter_cons_of_neg (by simp [heq])]
        · rw [List.dedup_cons_of_notMem (by simp [hmem, heq]), ih,
            List.filter_cons_of_pos (by simpa using heq), List.cons_append]

/-- The last hash comes first, and not again. -/
theorem latest_concat (hashes : List Hash) (hash : Hash) :
    latest (hashes ++ [hash]) = hash :: (latest hashes).filter (· ≠ hash) := by
  rw [latest, dedup_concat, List.reverse_append, latest, List.filter_reverse]
  rfl

/-- Where one of distinct hashes is left out, one place more has to be looked at. -/
theorem take_filter_ne {hashes : List Hash} (h : hashes.Nodup) (hash : Hash) (room : Nat) :
    ((hashes.take (room + 1)).filter (· ≠ hash)).take room =
      (hashes.filter (· ≠ hash)).take room := by
  induction hashes generalizing room with
  | nil => rfl
  | cons first hashes ih =>
      obtain ⟨hfirst, hrest⟩ := List.nodup_cons.mp h
      rw [List.take_succ_cons]
      by_cases heq : first = hash
      · subst heq
        have hkeeps : ∀ some : List Hash, some ⊆ hashes → some.filter (· ≠ first) = some := by
          intro some hsome
          refine List.filter_eq_self.mpr fun other hother ↦ decide_eq_true ?_
          exact fun heq ↦ hfirst (heq ▸ hsome hother)
        rw [List.filter_cons_of_neg (by simp), List.filter_cons_of_neg (by simp),
          hkeeps _ (List.take_subset _ _), hkeeps _ (List.Subset.refl _), List.take_take,
          Nat.min_self]
      · have hkept : ∀ rest : List Hash,
            (first :: rest).filter (· ≠ hash) = first :: rest.filter (· ≠ hash) :=
          fun _ ↦ List.filter_cons_of_pos (decide_eq_true heq)
        rw [hkept, hkept]
        cases room with
        | zero => rfl
        | succ room => rw [List.take_succ_cons, List.take_succ_cons, ih hrest room]

/-- The cache with nodes put in one after the other. -/
def putAll (cache : Recency) (nodes : List (Hash × Resolved)) : Recency :=
  nodes.foldl (fun cache entry ↦ cache.put entry.1 entry.2) cache

/-- Putting nodes in does not change the capacity. -/
@[simp] theorem capacity_putAll (cache : Recency) (nodes : List (Hash × Resolved)) :
    (cache.putAll nodes).capacity = cache.capacity := by
  induction nodes generalizing cache with
  | nil => rfl
  | cons entry nodes ih => exact ih (cache.put entry.1 entry.2)

/-- The last of the nodes is put in after the others. -/
theorem putAll_concat (cache : Recency) (nodes : List (Hash × Resolved))
    (entry : Hash × Resolved) :
    cache.putAll (nodes ++ [entry]) = (cache.putAll nodes).put entry.1 entry.2 :=
  List.foldl_append

/-- The hash that was put in last comes first. -/
theorem head?_hashes_putAll {nodes : List (Hash × Resolved)} {before : List Hash}
    (h : nodes.map Prod.fst = before ++ [hash]) :
    (cache.putAll nodes).hashes.head? = some hash := by
  obtain ⟨first, last, rfl, -, hlast⟩ := List.map_eq_append_iff.mp h
  obtain ⟨entry, rfl, rfl⟩ := List.map_eq_singleton_iff.mp hlast
  obtain ⟨room, hroom⟩ := Nat.exists_eq_succ_of_ne_zero (cache.putAll first).capacity_pos.ne'
  rw [putAll_concat, hashes_put_eq, hroom, List.take_succ_cons]
  rfl

/-- The hashes of a cache stay distinct when nodes are put in. -/
theorem nodup_putAll (h : cache.hashes.Nodup) (nodes : List (Hash × Resolved)) :
    (cache.putAll nodes).hashes.Nodup := by
  induction nodes generalizing cache with
  | nil => exact h
  | cons entry nodes ih => exact ih (nodup_put h entry.1 entry.2)

/-- After nodes were put in one after the other a cache has their hashes, the last one first, and
then the others that it had before, as far as there is room. -/
theorem hashes_putAll (h : cache.hashes.Nodup) (nodes : List (Hash × Resolved)) :
    (cache.putAll nodes).hashes = (latest (nodes.map Prod.fst) ++
      cache.hashes.filter (· ∉ nodes.map Prod.fst)).take cache.capacity := by
  induction nodes using List.reverseRecOn with
  | nil =>
      have hbounded : cache.hashes.length ≤ cache.capacity := by
        rw [hashes, List.length_map]
        exact cache.bounded
      simpa [putAll, latest] using (List.take_of_length_le hbounded).symm
  | append_singleton nodes entry ih =>
      obtain ⟨hash, node⟩ := entry
      obtain ⟨room, hroom⟩ := Nat.exists_eq_add_of_lt cache.capacity_pos
      rw [Nat.zero_add] at hroom
      have hnodup : (latest (nodes.map Prod.fst) ++
          cache.hashes.filter (· ∉ nodes.map Prod.fst)).Nodup := by
        refine (nodup_latest _).append (h.filter _) fun other hnew hold ↦ ?_
        exact of_decide_eq_true (List.mem_filter.mp hold).2 (mem_latest.mp hnew)
      rw [putAll_concat, hashes_put_eq, ih, capacity_putAll, hroom, List.take_succ_cons,
        take_filter_ne hnodup, List.map_append, List.map_singleton, latest_concat,
        List.cons_append, List.take_succ_cons, List.filter_append, List.filter_filter]
      congr 4
      funext other
      rw [Bool.eq_iff_iff]
      simp only [Bool.and_eq_true, decide_eq_true_eq, List.mem_append, List.mem_singleton, not_or,
        and_comm, ne_eq]

end Recency

namespace Loader

variable {loader later : Loader} {hash : Hash} {node : Resolved}

/-- Whatever a flight lands with, the hashes in the cache stay distinct. -/
theorem nodup_land (h : loader.cache.hashes.Nodup) (hash : Hash) (answer : Answer) :
    (loader.land hash answer).2.cache.hashes.Nodup := by
  simp only [land, receive]
  cases judge hash answer with
  | error error => exact h
  | ok node => exact Recency.nodup_put h hash _

end Loader

/-! ## Walks over cached nodes -/

variable {σ : Type} [NodeStore σ] {α : Type}

/-- A load leaves the hashes in the cache distinct. -/
theorem Loader.nodup_load {loader : Loader} (h : loader.cache.hashes.Nodup) (store : σ)
    (hash : Hash) : (loader.load store hash).2.1.cache.hashes.Nodup := by
  cases hfound : loader.lookUp hash with
  | some found =>
      obtain ⟨node, later⟩ := found
      rw [(load_of_hit store hfound).1]
      obtain ⟨-, rfl⟩ := lookUp_eq_some_iff.mp hfound
      exact Recency.nodup_put h hash node
  | none =>
      obtain ⟨waiting, after, hcache, -, -, -, hload⟩ := load_of_miss store hfound
      rw [hload]
      exact nodup_land (hcache ▸ h) hash _

/-- A walk leaves the hashes in the cache distinct. -/
theorem Walk.nodup_run {loader : Loader} (h : loader.cache.hashes.Nodup) (store : σ)
    (walk : Walk α) : (walk.run loader store).2.1.cache.hashes.Nodup := by
  induction walk generalizing loader store with
  | done | fail => exact h
  | fresh next ih => exact ih loader.issue.1 (show loader.issue.2.cache.hashes.Nodup from h) store
  | load home hash next ih =>
      rw [run]
      split
      · have hloaded := Loader.nodup_load h store hash
        generalize loader.load store hash = loaded at hloaded ⊢
        obtain ⟨error | node, later, after⟩ := loaded
        · exact hloaded
        · exact ih node hloaded after
      · exact h

/-- The store is asked for the hashes for which something is heard. -/
theorem Walk.reads_eq_heard (loader : Loader) (store : σ) (walk : Walk α) :
    Load.reads (walk.loads loader store) = (walk.heard loader store).map Prod.fst := by
  rw [heard_eq_loads, List.map_filterMap, Load.reads]
  refine List.filterMap_congr fun load _ ↦ ?_
  rw [Option.map_map]
  rfl

/-- A walk all of whose loads are of cached hashes asks the store for nothing, and what is cached
stays so. -/
theorem Walk.run_cached {loader : Loader} {store : σ} {walk : Walk α}
    (h : ∀ load ∈ walk.loads loader store, load.hash ∈ loader.cache.hashes) :
    Load.reads (walk.loads loader store) = [] ∧
      ∀ hash, hash ∈ (walk.run loader store).2.1.cache.hashes ↔ hash ∈ loader.cache.hashes := by
  induction walk generalizing loader store with
  | done | fail => exact ⟨rfl, fun _ ↦ Iff.rfl⟩
  | fresh next ih => exact ih loader.issue.1 h
  | load home hash next ih =>
      rw [loads] at h
      rw [run, loads]
      split
      swap
      · exact ⟨rfl, fun _ ↦ Iff.rfl⟩
      rename_i howner
      rw [if_pos howner] at h
      obtain ⟨node, later, hfound⟩ := Loader.lookUp_of_mem (h _ List.mem_cons_self)
      obtain ⟨hload, hheard⟩ := Loader.load_of_hit store hfound
      have hsame := Loader.mem_hashes_lookUp hfound
      rw [hload] at h ⊢
      obtain ⟨hreads, hlater⟩ := ih node fun load hmem ↦
        (hsame _).mpr (h load (List.mem_cons_of_mem _ hmem))
      refine ⟨?_, fun other ↦ (hlater other).trans (hsame other)⟩
      rw [hheard]
      exact hreads

end Patricia
