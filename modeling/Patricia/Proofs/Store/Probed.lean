import Patricia.Proofs.Loader.Serving
import Patricia.Store.Probed

/-!
# Stores that are observed and do not fail

A store under observation that was not made to fail (`ProbedStore.Works`) answers every read from
its entries, logs each read that is issued, and accepts all entries that it is given. The hashes of
its entries are distinct, so that its size is the number of hashes that have an entry.
-/

namespace Patricia

namespace MemoryStore

/-- The hashes that have an entry. -/
def hashes (store : MemoryStore) : List Hash :=
  store.entries.map Prod.fst

variable {store : MemoryStore} {hash : Hash}

/-- A hash has an entry if there are bytes under it. -/
theorem mem_hashes_iff : hash ∈ store.hashes ↔ (store.get? hash).isSome = true := by
  rw [get?, ← not_iff_not, Bool.not_eq_true, Option.isSome_eq_false_iff,
    Option.isNone_iff_eq_none, List.lookup_eq_none_iff, hashes, List.mem_map]
  constructor
  · intro hnone entry hentry
    exact bne_iff_ne.mpr fun heq ↦ hnone ⟨entry, hentry, heq.symm⟩
  · rintro hnone ⟨entry, hentry, rfl⟩
    exact bne_iff_ne.mp (hnone entry hentry) rfl

/-- Writing an entry adds its hash unless there is an entry under it. -/
theorem hashes_insert (store : MemoryStore) (entry : Entry) : (store.insert entry).hashes =
    if store.contains entry.1 then store.hashes else store.hashes ++ [entry.1] := by
  rw [insert]
  split
  · rw [hashes, hashes, List.map_map]
    refine List.map_congr_left fun old _ ↦ ?_
    rw [Function.comp_apply]
    split
    · rename_i heq
      exact heq.symm
    · rfl
  · rw [hashes, List.map_append]
    rfl

/-- The hashes of a store stay distinct when entries are written. -/
theorem nodup_hashes_insertAll (h : store.hashes.Nodup) (entries : List Entry) :
    (store.insertAll entries).hashes.Nodup := by
  induction entries generalizing store with
  | nil => exact h
  | cons entry entries ih =>
      suffices hnodup : (store.insert entry).hashes.Nodup from ih hnodup
      rw [hashes_insert]
      split
      · exact h
      · rename_i hnew
        refine h.append (List.nodup_singleton _) ?_
        rw [List.disjoint_singleton, mem_hashes_iff]
        exact hnew

end MemoryStore

namespace ProbedStore

variable {nodes : MemoryStore} {store : ProbedStore}

/-- The store has some entries and was not made to fail. -/
structure Works (nodes : MemoryStore) (store : ProbedStore) : Prop where
  nodes_eq : store.nodes = nodes
  hidden_eq : store.hidden = []
  readsFail_eq : store.readsFail = false
  writesLeft_eq : store.writesLeft = none

/-- A store without entries works. -/
theorem works_empty (batches : Bool) : (ProbedStore.empty batches).Works .empty :=
  ⟨rfl, rfl, rfl, rfl⟩

/-- A store that works answers every read from its entries, and goes on so. -/
theorem works_steady (nodes : MemoryStore) : Steady nodes.get? (Works nodes) where
  answer := by
    rintro store ⟨rfl, hhidden, hreads, -⟩ hash
    show (if store.readsFail then _ else if hash ∈ store.hidden then _ else _) = _
    rw [hhidden, hreads]
    rfl
  request := by
    rintro store ⟨rfl, hhidden, hreads, hwrites⟩ hash
    exact ⟨rfl, hhidden, hreads, hwrites⟩

/-- Reads that are issued are logged in their order. -/
theorem foldl_request (store : ProbedStore) (hashes : List Hash) :
    hashes.foldl NodeStore.request store = { store with reads := store.reads ++ hashes } := by
  induction hashes generalizing store with
  | nil => rw [List.append_nil, List.foldl_nil]
  | cons hash hashes ih =>
      rw [List.foldl_cons, ih]
      show ({ store with reads := store.reads ++ [hash] ++ hashes } : ProbedStore) = _
      rw [List.append_assoc]
      rfl

/-- A store that works goes on with more entries. -/
theorem Works.accept (h : store.Works nodes) (entries : List Entry) :
    (store.accept entries).Works (nodes.insertAll entries) := by
  obtain ⟨rfl, hhidden, hreads, hwrites⟩ := h
  refine ⟨rfl, hhidden, hreads, ?_⟩
  rw [ProbedStore.accept, hwrites]
  rfl

/-- No entries change nothing. -/
theorem accept_nil (store : ProbedStore) : store.accept [] = store := by
  obtain ⟨nodes, batches, hidden, readsFail, writesLeft, reads, writes⟩ := store
  rw [accept, List.append_nil]
  cases writesLeft <;> rfl

/-- Entries are accepted one after the other as they are together. -/
theorem accept_cons (store : ProbedStore) (entry : Entry) (entries : List Entry) :
    store.accept (entry :: entries) = (store.accept [entry]).accept entries := by
  simp only [accept, Option.map_map, List.append_assoc]
  refine congrArg₂ (fun writesLeft writes ↦ ({ store with
    nodes := store.nodes.insertAll (entry :: entries), writesLeft, writes } : ProbedStore)) ?_ rfl
  cases store.writesLeft with
  | none => rfl
  | some left => exact congrArg some (by simp; omega)

/-- A store that works accepts all entries that it is given, together or one after the other. -/
theorem Works.putAll (h : store.Works nodes) (entries : List Entry) :
    NodeStore.putAll store entries = (.ok (), store.accept entries) := by
  have htogether : ∀ {nodes : MemoryStore} {store : ProbedStore} (entries : List Entry),
      store.Works nodes → store.putTogether entries = (.ok (), store.accept entries) := by
    intro nodes store entries h
    rw [putTogether, accepts, h.writesLeft_eq]
    rfl
  have heach : ∀ {nodes : MemoryStore} {store : ProbedStore} (entries : List Entry),
      store.Works nodes → store.putEach entries = (.ok (), store.accept entries) := by
    intro nodes store entries h
    induction entries generalizing nodes store with
    | nil =>
        rw [putEach, accept_nil]
    | cons entry entries ih =>
        rw [putEach, htogether [entry] h]
        exact (ih (h.accept [entry])).trans (congrArg _ (accept_cons store entry entries).symm)
  show (if store.batches then _ else _) = _
  split
  · exact htogether entries h
  · exact heach entries h

end ProbedStore

end Patricia
