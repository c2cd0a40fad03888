import Patricia.Proofs.Format.Readable
import Patricia.Proofs.Trie.Durable

/-!
# What updates build can be read back

A trie is opened over any store and changed any number of times. The nodes of its tree in memory are
then read back from their forms as they are, with one exception (`BackedTrie.changeAll_rereads`): a
branch can take over the empty value of a leaf, which is accepted from a store, and an empty value
of a branch is written like none. Such a branch loses the value, and may be left with one entry, so
that its form is refused (`BackedTrie.put_beside_hollow`).
-/

namespace Patricia

namespace Node

variable {bytes : Bytes} {read : Resolved}

/-- A node that was read from bytes and given out is what the bytes are read as, and so are the
nodes below it. -/
theorem sourced_issue (h : decode bytes = .ok read) (owner serial : Nat) :
    (read.issue owner serial).val.All Sourced := by
  obtain ⟨node, rfl, hliteral, -⟩ := decode_literal h
  have hself : ((node.readFrom bytes).issue owner serial).val.Sourced := by
    intro source hsource
    have hbytes : source = bytes := by
      obtain ⟨node, hstored⟩ := node
      cases node with
      | null => cases hsource
      | leaf | extension | branch => exact (Option.some.inj hsource).symm
      | stored => cases hstored
    subst hbytes
    exact ⟨_, h, (plain_issue owner serial _).symm⟩
  -- The nodes in place below it have no bytes of their own.
  have hbelow : ∀ {below : Node} (position : List Nat), below.All Literal →
      (below.restamp (fun position stamp ↦ ⟨owner, serial, position, stamp.source⟩)
        position).All Sourced := by
    intro below position hall
    have hnone : below.All fun node ↦ node.stamp.source = none :=
      hall.imp fun _ hnode ↦ by rw [hnode.blank]; rfl
    refine (hnone.restamp _ (fun node position hnode ↦ ?_) position).imp fun node hnode source ↦ ?_
    · cases node <;> exact hnode
    · rw [hnode]
      exact nofun
  obtain ⟨node, hstored⟩ := node
  cases node with
  | null | leaf => exact hself
  | extension stamp first rest child => exact ⟨hself, hbelow _ hliteral.2⟩
  | branch stamp occupied slots value =>
      change Node.All Sourced
        (Node.issue owner serial (branch { stamp with source := some bytes } occupied slots value))
      change Sourced
        (Node.issue owner serial (branch { stamp with source := some bytes } occupied slots value))
        at hself
      rw [Node.issue, restamp_branch] at hself ⊢
      exact ⟨hself, fun slot ↦ hbelow _ (hliteral.2 slot)⟩
  | stored => cases hstored

end Node

/-- The service of what can be read from some contents hands out nodes that are what the bytes they
were read from say. -/
theorem Service.sourced_reads {contents : Contents} {owner : Nat} :
    ((through contents owner).restrict (fun _ ↦ True) Node.Sourced).Reads contents := by
  intro hash read _ hjudge owner' serial
  have hreads : (through contents owner).Reads contents := through_reads
  obtain ⟨bytes, -, -, hdecode⟩ := decode_of_judge hjudge
  exact ⟨hreads trivial hjudge owner' serial,
    Node.proper_of_plain (Node.plain_issue _ _ _) (Node.decode_wellFormed hdecode).1,
    Node.sourced_issue hdecode owner' serial⟩

namespace BackedTrie

variable {α : Type} [TrieValue α] {trie : BackedTrie} {store store' : MemoryStore} {origin : Hash}

/-- A trie is opened on any hash over any store and changed any number of times. Every node of its
tree in memory is then read back from its form, under the form's hash, as it looks, unless it is a
branch with an empty value of its own, or such a branch is written in place in it and spoils the
form. It is assumed that lengths fit in 64 bits. -/
theorem changeAll_rereads (owner : Nat) (settings : Settings) (changes : List (Change α))
    (hchanges : (openAt (.new owner settings.cacheCapacity settings.positive) origin).changeAll
      store changes = .ok (trie, store'))
    (hfits : trie.root.All fun node ↦ node.encoding.length < 2 ^ 64) :
    trie.root.All fun node ↦ node.isFormed = true →
      (node.Rereads ↔ node.isHollow = false ∧ ¬node.Spoilt) := by
  have hthrough : (Service.through store.get? owner).Steady (fun _ ↦ True) fun _ ↦ True :=
    Service.through_steady
  have hnative : Node.Native Node.Sourced := by
    intro node hnone source hsource
    rw [hnone] at hsource
    cases hsource
  have hopen : (openAt (.new owner settings.cacheCapacity settings.positive) origin).Upheld
      ((Service.through store.get? owner).restrict (fun _ ↦ True) Node.Sourced) (fun _ ↦ True)
      Node.Sourced := .openAt hnative rfl settings.positive origin
  obtain ⟨-, h, -⟩ := hopen.changeAll (hthrough.restrict hnative) Service.sourced_reads
    (fun _ _ ↦ trivial) hchanges
  have hreported := Node.WellFormed.reported h.standing.proper h.standing.kept hfits
  exact hreported.imp fun node hnode hformed ↦ (hnode hformed).rereads_iff hformed

set_option maxRecDepth 100000 in
/-- All nodes with a form that are left of the folded tree are read back, among them the branch that
was read before. -/
theorem folded_rereads :
    ∃ trie, (openAt (.standard 0) (keccak256 overLevel)).changeAll
        (filing [tip, level, overLevel]) folding = .ok (trie, filing [tip, level, overLevel]) ∧
      level ∈ trie.outgoing.1.map Outgoing.rlp ∧
      trie.root.All fun node ↦ node.isFormed = true → node.Rereads := by
  obtain ⟨trie, hchanges, hlevel, hfull, hfits⟩ :=
    exists_changeAll (filing [tip, level, overLevel]) (keccak256 overLevel) folding
      (fun trie ↦ level ∈ trie.outgoing.1.map Outgoing.rlp ∧
        trie.root.All (fun node ↦ node.isHollow = false) ∧
        trie.root.All fun node ↦ node.encoding.length < 2 ^ 64)
      (by decide +kernel)
  refine ⟨trie, hchanges, hlevel, ?_⟩
  have hrereads := changeAll_rereads 0 .standard folding hchanges hfits
  refine (hrereads.and hfull.deep).imp fun node hnode hformed ↦ ?_
  exact (hnode.1 hformed).mpr ⟨hnode.2.self, Node.not_spoilt_of_full hnode.2⟩

set_option maxRecDepth 100000 in
/-- The only leaf in a store has an empty value and the empty key. Putting another key beside it
makes a branch with the empty value and one slot in use, whose form is refused. -/
theorem put_beside_hollow :
    (filing [hollow]).Admissible ∧
      ∃ trie, (openAt (.standard 0) (keccak256 hollow)).changeAll (filing [hollow])
          [.put [0xaa] ([0x01] : Bytes)] = .ok (trie, filing [hollow]) ∧
        trie.root.isFormed = true ∧
        Node.decode trie.root.encoding = .error .tooFewEntries ∧ ¬trie.root.Rereads := by
  obtain ⟨trie, hchanges, hformed, hrefused⟩ :=
    exists_changeAll (filing [hollow]) (keccak256 hollow) [.put [0xaa] ([0x01] : Bytes)]
      (fun trie ↦ trie.root.isFormed = true ∧
        (Node.decode trie.root.encoding).map (fun _ ↦ ()) = .error .tooFewEntries)
      (by decide +kernel)
  have hdecode : Node.decode trie.root.encoding = .error .tooFewEntries := by
    cases hdecode : Node.decode trie.root.encoding with
    | ok read =>
        rw [hdecode] at hrefused
        cases hrefused
    | error cause =>
        rw [hdecode] at hrefused
        cases hrefused
        rfl
  refine ⟨filing_admissible (by decide +kernel), trie, hchanges, hformed, hdecode, ?_⟩
  rintro ⟨read, hjudge, -⟩
  rw [Loader.judge, if_pos (Node.hash_eq_keccak256 (Node.isStored_of_formed hformed)).symm,
    hdecode] at hjudge
  cases hjudge

end BackedTrie

end Patricia
