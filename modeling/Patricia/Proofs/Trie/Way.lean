import Patricia.Proofs.Loader.Loads
import Patricia.Proofs.Trie.Lawful

/-!
# The references on the way of a key

`Node.Way` says which references lie on the way of a key, from the top down, and what loading each
of them came to. In a trie that obeys the rules, a lookup and an insertion load these and no others
(`Node.find?_way`, `Node.loads_insert`): what an insertion makes on its way back is no reference.
-/

namespace Patricia

/-- A run that begins with another one is parted from it where that one ends. -/
theorem fork_append (lead rest : List Nibble) : fork lead (lead ++ rest) = ⟨lead, [], rest⟩ := by
  induction lead with
  | nil => cases rest <;> rfl
  | cons nibble lead ih => rw [List.cons_append, fork, if_pos rfl, ih]

namespace Node

/-! ## What lies on a way -/

/-- The loads are those of the references on the way of a key, from the top down, each with what it
came to. The way ends where the key does or where it leaves the tree, and at a reference behind
which no node is found. -/
inductive Way : Node → List Nibble → List Load → Prop where
  | null {key} : Way .null key []
  | leaf {stamp path value key} : Way (.leaf stamp path value) key []
  | aside {stamp first lead child key} (hstrip : stripLead? (first :: lead) key = none) :
      Way (.extension stamp first lead child) key []
  | along {stamp first lead child key rest loads}
      (hstrip : stripLead? (first :: lead) key = some rest) (hway : Way child rest loads) :
      Way (.extension stamp first lead child) key loads
  | ending {stamp occupied slots value} : Way (.branch stamp occupied slots value) [] []
  | slot {stamp occupied slots value nibble rest loads} (hway : Way (slots nibble) rest loads) :
      Way (.branch stamp occupied slots value) (nibble :: rest) loads
  | found {stamp hash key heard loads} {node : Resolved} (hway : Way node.val key loads) :
      Way (.stored stamp hash) key (⟨hash, heard, .ok node⟩ :: loads)
  | lost {stamp hash key heard error} :
      Way (.stored stamp hash) key [⟨hash, heard, .error error⟩]

variable {node : Node} {key : List Nibble} {loads : List Load}

/-- A way has as many references as nibbles at most, and one more at a reference. -/
theorem Way.length_le (h : node.Way key loads) :
    loads.length ≤ key.length + if node.isStored then 1 else 0 := by
  induction h with
  | null | leaf | aside | ending | lost => simp [isStored]
  | along hstrip _ ih =>
      have hlt := length_lt_of_stripLead? hstrip
      simp only [isStored]
      split at ih <;> omega
  | slot _ ih =>
      simp only [isStored, List.length_cons]
      split at ih <;> omega
  | @found stamp hash key heard loads node _ ih =>
      rw [node.property] at ih
      simpa [isStored] using ih

end Node

/-! ## Parts of a lawful trie -/

variable {σ : Type} [NodeStore σ] {loader later : Loader} {store after : σ} {α : Type}

namespace BackedTrie.Lawful

variable {trie : BackedTrie} {stamp : Stamp} {hash : Hash}

/-- A walk that meets a guarantee in a lawful trie and does not fail ends as guaranteed, and its
loader is as good as before. -/
theorem run_ok (h : trie.Lawful) {walk : Walk α} {post : Nat → α → Prop}
    (hmeets : walk.Meets (.lawful trie.loader.owner) post trie.loader.mint.next) {result : α}
    (hrun : walk.run trie.loader store = (.ok result, later, after)) :
    later.owner = trie.loader.owner ∧ later.Serves (.lawful trie.loader.owner) ∧
      trie.loader.mint.next ≤ later.mint.next ∧ post later.mint.next result := by
  have htakes : ∀ entry ∈ walk.heard trie.loader store,
      (Service.lawful trie.loader.owner).Takes entry.1 entry.2 :=
    fun _ _ ↦ Service.lawful_takes _ _
  have hends := Walk.run_concludes hmeets h.serves htakes
  rw [hrun] at hends
  obtain ⟨hlater, hle, hpost⟩ := hends
  exact ⟨hlater.owner_eq, hlater, hle, hpost⟩

/-- The child of an extension makes a lawful trie if the extension does. -/
theorem child {first : Nibble} {rest : List Nibble} {below : Node}
    (h : (⟨loader, .extension stamp first rest below⟩ : BackedTrie).Lawful) :
    (⟨loader, below⟩ : BackedTrie).Lawful :=
  ⟨h.standing.child, h.serves⟩

/-- The slots of a branch make lawful tries if the branch does. -/
theorem slot {occupied : BitVec 16} {slots : Nibble → Node} {value : Option Bytes}
    (h : (⟨loader, .branch stamp occupied slots value⟩ : BackedTrie).Lawful) (slot : Nibble) :
    (⟨loader, slots slot⟩ : BackedTrie).Lawful :=
  ⟨h.standing.slot slot, h.serves⟩

/-- A reference of a lawful trie asks the trie's own loader. -/
theorem home_eq (h : (⟨loader, .stored stamp hash⟩ : BackedTrie).Lawful) :
    stamp.owner = loader.owner :=
  h.standing.home_eq

/-- The node behind a reference of a lawful trie makes a lawful trie with the loader that found it.
It is not empty, and it is cached. -/
theorem load (h : (⟨loader, .stored stamp hash⟩ : BackedTrie).Lawful) {node : Resolved}
    (hload : loader.load store hash = (.ok node, later, after)) :
    (⟨later, node.val⟩ : BackedTrie).Lawful ∧ node.val.isNull = false ∧
      later.cache.peek? hash = some node ∧ stamp.owner = later.owner := by
  have htakes : ∀ answer, loader.heard store hash = some answer →
      (Service.lawful loader.owner).Takes hash answer :=
    fun _ _ ↦ Service.lawful_takes _ _
  have hends := Loader.load_loadsWell htakes trivial h.serves
  rw [hload] at hends
  obtain ⟨hlater, -, hissued, hserved, hcached⟩ := hends
  have howner : later.owner = loader.owner := hlater.owner_eq
  refine ⟨?_, hserved.2, hcached, h.standing.home_eq.trans howner.symm⟩
  rw [Lawful, howner]
  exact ⟨⟨hserved.1, hserved.1.imp fun _ _ ↦ trivial, hissued⟩, hlater⟩

/-- A walk with a lawful trie's loader leaves a lawful trie with a tree in good standing. -/
theorem of_standing {owner : Nat} {node : Node} (howner : later.owner = owner)
    (hserves : later.Serves (.lawful owner))
    (hnode : node.Standing (fun _ ↦ True) (fun _ ↦ True) owner later.mint.next) :
    (⟨later, node⟩ : BackedTrie).Lawful := by
  subst howner
  exact ⟨hnode, hserves⟩

end BackedTrie.Lawful

namespace Node

open BackedTrie (Lawful)

variable {node child : Node} {key rest lead : List Nibble} {first : Nibble}

/-! ## Lookups and insertions -/

/-- A lookup loads what lies on the way of the key. -/
theorem find?_way (h : (⟨loader, node⟩ : BackedTrie).Lawful) (store : σ) (key : List Nibble) :
    node.Way key ((node.find? key).loads loader store) := by
  induction node, key using Node.find?.induct generalizing loader store with
  | case1 key =>
      rw [find?_null]
      exact .null
  | case2 stamp path value key =>
      rw [find?_leaf]
      exact .leaf
  | case3 stamp first lead child key hstrip =>
      rw [find?_extension, hstrip]
      exact .aside hstrip
  | case4 stamp first lead child key rest hstrip hlt ih =>
      rw [find?_extension, hstrip]
      exact .along hstrip (ih h.child store)
  | case5 stamp occupied slots value =>
      rw [find?_branch_nil]
      exact .ending
  | case6 stamp occupied slots value nibble rest ih =>
      rw [find?_branch_cons]
      exact .slot (ih (h.slot nibble) store)
  | case7 stamp hash key ih =>
      rw [find?_stored]
      rcases hload : loader.load store hash with ⟨error | node, later, after⟩
      · rw [Walk.loads_load_error h.home_eq hload]
        exact .lost
      · rw [Walk.loads_load_ok h.home_eq hload]
        exact .found (ih node (h.load hload).1 after)

/-- A node that is no reference is moved without a load. -/
theorem loads_graft (hstored : node.isStored = false) (first : Nibble) (lead : List Nibble)
    (loader : Loader) (store : σ) : (node.graft (first :: lead)).loads loader store = [] := by
  cases node with
  | null | leaf => rfl
  | extension =>
      rw [graft_extension]
      rfl
  | branch =>
      rw [graft_branch]
      rfl
  | stored => cases hstored

/-- A leaf is parted from a key without a load. -/
theorem loads_partLeaf (path key : List Nibble) (old new : Bytes) (loader : Loader) (store : σ) :
    (partLeaf path old key new).loads loader store = [] := by
  rw [partLeaf]
  obtain ⟨shared, left, right⟩ := fork path key
  cases shared <;> cases left <;> cases right <;> rfl

/-- An insertion loads what a lookup of the key loads. -/
theorem loads_insert (h : (⟨loader, node⟩ : BackedTrie).Lawful) (store : σ) (key : List Nibble)
    (value : Bytes) :
    (node.insert key value).loads loader store = (node.find? key).loads loader store := by
  -- What is made anew is no reference, so that putting it in place needs no load.
  have hnew : ∀ {child : Node} {loader : Loader} {rest updated} {later : Loader} {store after : σ},
      (⟨loader, child⟩ : BackedTrie).Lawful →
      (child.insert rest value).run loader store = (.ok updated, later, after) →
      updated.isStored = false := by
    intro child loader rest updated later store after hchild hrun
    have hmade := hchild.run_ok
      (insert_standing Service.lawful_steady rest trivial hchild.standing) hrun
    exact hmade.2.2.2.1.2.isStored_eq
  induction node, key using Node.insert.induct generalizing loader store with
  | case1 key =>
      rw [insert_null, find?_null]
      rfl
  | case2 stamp old key =>
      rw [insert_leaf, find?_leaf, if_pos rfl]
      rfl
  | case3 stamp path old key hpath =>
      rw [insert_leaf, find?_leaf, if_neg hpath, loads_partLeaf]
      rfl
  | case4 stamp first lead child key shared rest hfork hlt ih =>
      have hchild : (⟨loader, child⟩ : BackedTrie).Lawful := h.child
      rw [insert_within stamp value hfork, find?_extension,
        stripLead?_eq_some_iff.mpr (eq_append_of_fork_nil hfork), ← ih hchild]
      refine Walk.loads_bind_of_nil fun updated later after hrun ↦ ?_
      split
      · rfl
      · exact loads_graft (hnew hchild hrun) first lead later after
  | case5 stamp first lead child key shared nibble left right hfork =>
      have hstrip : stripLead? (first :: lead) key = none := by
        refine Option.eq_none_iff_forall_ne_some.mpr fun rest hrest ↦ ?_
        rw [stripLead?_eq_some_iff.mp hrest, fork_append] at hfork
        cases hfork
      rw [insert_outside stamp nibble value hfork, find?_extension, hstrip]
      cases shared <;> cases left <;> cases right <;> rfl
  | case6 stamp occupied slots own =>
      rw [insert_branch_nil, find?_branch_nil]
      rfl
  | case7 stamp occupied slots own nibble rest ih =>
      have hslot : (⟨loader, slots nibble⟩ : BackedTrie).Lawful := h.slot nibble
      rw [insert_branch_cons, find?_branch_cons, ← ih hslot]
      refine Walk.loads_bind_of_nil fun updated later after hrun ↦ ?_
      split <;> rfl
  | case8 stamp hash key ih =>
      rw [insert_stored, find?_stored]
      rcases hload : loader.load store hash with ⟨error | node, later, after⟩
      · rw [Walk.loads_load_error h.home_eq hload, Walk.loads_load_error h.home_eq hload]
      · rw [Walk.loads_load_ok h.home_eq hload, Walk.loads_load_ok h.home_eq hload,
          ← ih node (h.load hload).1]
        refine congrArg (List.cons _) (Walk.loads_bind_of_nil fun updated last other hrun ↦ ?_)
        split <;> rfl

end Node

end Patricia
