import Patricia.Proofs.Loader.Serving
import Patricia.Proofs.Store.Memory
import Patricia.Proofs.Trie.Gather

/-!
# What a commit does

A commit of a root with a form writes the form of each node that it takes under the node's hash,
puts the node in short into the cache, and makes the root a reference, unless the store fails
(`commit_eq`, `outgoing_entries`, `primed_serves`). A root without a form is left as it is.
-/

namespace Patricia

/-- Nodes that may be handed out can be put into the cache one after the other. -/
theorem Loader.Serves.retainAll {service : Service} {loader : Loader} (h : loader.Serves service)
    {nodes : List Outgoing}
    (hissued : ∀ node ∈ nodes, node.node.val.Issued loader.owner loader.mint.next)
    (hserved : ∀ node ∈ nodes, service.served node.hash node.node.val) :
    (nodes.foldl (fun loader node ↦ loader.retain node.hash node.node) loader).Serves
      service := by
  induction nodes generalizing loader with
  | nil => exact h
  | cons node nodes ih =>
      have hnext := h.retain (hissued node List.mem_cons_self) (hserved node List.mem_cons_self)
      exact ih hnext (fun other hother ↦ hissued other (List.mem_cons_of_mem _ hother))
        fun other hother ↦ hserved other (List.mem_cons_of_mem _ hother)

/-- Putting nodes into the cache does not touch the flights. -/
theorem Loader.flights_retainAll (loader : Loader) (nodes : List Outgoing) :
    (nodes.foldl (fun loader node ↦ loader.retain node.hash node.node) loader).flights =
      loader.flights := by
  induction nodes generalizing loader with
  | nil => rfl
  | cons node nodes ih => exact ih (loader.retain node.hash node.node)

namespace BackedTrie

variable {σ : Type} [NodeStore σ] {trie : BackedTrie}

/-- Committing a root that is empty or a reference does nothing. -/
theorem commit_of_not_formed (store : σ) (h : trie.root.isFormed = false) :
    trie.commit store = (.ok trie.rootHash, trie, store) := by
  have hdone : (trie.root.isNull || trie.root.isStored) = true := by
    simpa [Node.isFormed, or_comm, imp_iff_or_not] using h
  rw [commit, if_pos hdone]

/-- The loader once the nodes that a commit writes are in its cache. -/
def primed (trie : BackedTrie) : Loader :=
  trie.outgoing.1.foldl (fun loader node ↦ loader.retain node.hash node.node) trie.outgoing.2.loader

/-- Committing a root with a form writes the outgoing nodes. If the store takes them, they are put
into the cache and the root becomes a reference, and else the root stays as it is. -/
theorem commit_eq (store : σ) (hformed : trie.root.isFormed = true) :
    trie.commit store =
      match NodeStore.putAll store (trie.outgoing.1.map Outgoing.entry) with
      | (.error error, store) => (.error (.error error), trie.outgoing.2, store)
      | (.ok (), store) => (.ok trie.rootHash,
          ⟨(trie.primed.refer trie.rootHash).2, (trie.primed.refer trie.rootHash).1⟩, store) := by
  have hopen : ¬(trie.root.isNull || trie.root.isStored) = true := by
    simpa [Node.isFormed] using hformed
  rw [commit, if_neg hopen]
  rfl

/-- A node may be handed out for the hash of each node that a commit takes, if it is that node in
short and is written as it would be anew. -/
def Hands (trie : BackedTrie) (service : Service) : Prop :=
  ∀ part ∈ trie.root.committed, ∀ node : Node, node.isStored = false →
    node.plain = part.abridged → node.All Node.Sincere → service.served part.hash node

section Formed

variable (hformed : trie.root.isFormed = true) (hsincere : trie.root.All Node.Sincere)
  (hissued : trie.root.Issued trie.loader.owner trie.loader.mint.next)

include hformed hsincere hissued

/-- A commit writes an entry for each node that it takes, in the same order. -/
theorem outgoing_entries : trie.outgoing.1.map Outgoing.entry =
    trie.root.committed.map fun part ↦ (part.hash, part.encoding) := by
  have hpairs := congrArg (List.map fun told ↦ (told.1, told.2.1))
    (outgoing_told hformed hsincere hissued).1
  rwa [List.map_map, List.map_map] at hpairs

/-- A commit writes the encodings of the nodes that it takes. -/
theorem outgoing_rlp :
    trie.outgoing.1.map Outgoing.rlp = trie.root.committed.map Node.encoding := by
  have hforms := congrArg (List.map Prod.snd) (outgoing_entries hformed hsincere hissued)
  rwa [List.map_map, List.map_map] at hforms

/-- After a commit the cache still serves whatever service the nodes may be handed out by. -/
theorem primed_serves {service : Service} (hserves : trie.loader.Serves service)
    (hhands : trie.Hands service) : trie.primed.Serves service := by
  obtain ⟨htold, hsound, hrest⟩ := outgoing_told hformed hsincere hissued
  have hadvanced : trie.loader.issue.2.issue.2.Serves service :=
    hserves.advance rfl rfl (Nat.le_add_right _ 2)
  rw [primed, hrest]
  refine hadvanced.retainAll (fun node hnode ↦ (hsound node hnode).issued) fun node hnode ↦ ?_
  have hmem : node.told ∈ trie.root.committed.map Node.told := by
    rw [← htold]
    exact List.mem_map_of_mem hnode
  obtain ⟨part, hpart, heq⟩ := List.mem_map.mp hmem
  have hhash : part.hash = node.hash := congrArg (·.1) heq
  have hplain : node.node.val.plain = part.abridged := (congrArg (·.2.2) heq).symm
  rw [← hhash]
  exact hhands part hpart node.node.val node.node.property hplain (hsound node hnode).sincere

/-- Over a store in memory, a commit of a root with a form writes an entry for each node that it
takes and makes the root a reference. -/
theorem commit_of_formed (store : MemoryStore) :
    trie.commit store = (.ok trie.rootHash,
      ⟨(trie.primed.refer trie.rootHash).2, (trie.primed.refer trie.rootHash).1⟩,
      store.insertAll (trie.root.committed.map fun part ↦ (part.hash, part.encoding))) := by
  rw [commit_eq store hformed, outgoing_entries hformed hsincere hissued]
  rfl

end Formed

/-- The entries that a commit writes are genuine, if the encodings are of the kind. -/
theorem committed_genuine {known : Bytes → Prop} (hformed : trie.root.isFormed = true)
    (hknown : ∀ part ∈ trie.root.committed, known part.encoding) :
    ∀ entry ∈ trie.root.committed.map fun part ↦ (part.hash, part.encoding),
      MemoryStore.Genuine known entry := by
  rw [List.forall_mem_map]
  intro part hpart
  have hpartFormed := (Node.committed_partOf hformed hpart).1
  exact ⟨(Node.hash_eq_keccak256 (Node.isStored_of_formed hpartFormed)).symm, hknown part hpart⟩

end BackedTrie

end Patricia
