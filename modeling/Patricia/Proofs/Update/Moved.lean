import Patricia.Proofs.Loader.Heard
import Patricia.Proofs.Node.Below
import Patricia.Proofs.Update.Steps

/-!
# What moving a node leaves below it

An update moves nodes: it puts a node under another path, puts a lead in front of a node's path,
and folds a branch that has lost an entry. If all loads succeed, each ends with a node in form, and
what is below it is what the move says (`Node.moved_entries`). A resolved node is moved without a
load (`Node.reroot_moves`); a reference is moved as the node behind it is, whichever instance of
that the loader hands out.
-/

namespace Patricia

variable {σ : Type} [NodeStore σ] {α : Type} {behind : Hash → Node} {loader : Loader} {store : σ}

namespace Walk

/-- Every load of a walk succeeds, with the content that is behind its hash. -/
def Supplied (behind : Hash → Node) (loader : Loader) (store : σ) : Walk α → Prop
  | .done _ | .fail _ => True
  | .fresh next => (next loader.issue.1).Supplied behind loader.issue.2 store
  | .load home hash next =>
      home = loader.owner ∧ ∃ node later after,
        loader.load store hash = (.ok node, later, after) ∧
          node.val.plain = (behind hash).plain ∧ (next node).Supplied behind later after

/-- A walk ends, and with a result as promised. -/
def Gives (loader : Loader) (store : σ) (walk : Walk α) (post : α → Prop) : Prop :=
  ∃ result later after, walk.run loader store = (.ok result, later, after) ∧ post result

/-- A load of a cached node with the content behind its hash succeeds, and the node stays cached. -/
theorem supplied_load_of_cached {home : Nat} {hash : Hash} {next : Resolved → Walk α}
    {node : Resolved} (hhome : home = loader.owner)
    (hcached : loader.cache.peek? hash = some node) (hplain : node.val.plain = (behind hash).plain)
    (hnext : ∀ later : Loader, later.owner = loader.owner → later.cache.peek? hash = some node →
      (next node).Supplied behind later store) :
    (load home hash next).Supplied behind loader store := by
  have hload := (Loader.load_of_hit store (Loader.lookUp_eq_some_iff.mpr ⟨hcached, rfl⟩)).1
  exact ⟨hhome, node, _, store, hload, hplain, hnext _ rfl (Recency.peek?_put_self _ _ _)⟩

/-- A weaker promise is kept as well. -/
theorem Gives.mono {walk : Walk α} {post post' : α → Prop} (h : walk.Gives loader store post)
    (himp : ∀ result, post result → post' result) : walk.Gives loader store post' := by
  obtain ⟨result, later, after, hrun, hpost⟩ := h
  exact ⟨result, later, after, hrun, himp result hpost⟩

/-- A load that succeeds goes on with a node that has the content behind the hash. -/
theorem Supplied.gives_load {home : Nat} {hash : Hash} {next : Resolved → Walk α}
    {post : α → Prop} (h : (load home hash next).Supplied behind loader store)
    (hnext : ∀ (node : Resolved) (later : Loader) (after : σ),
      node.val.plain = (behind hash).plain → (next node).Supplied behind later after →
      (next node).Gives later after post) :
    (load home hash next).Gives loader store post := by
  obtain ⟨hhome, node, later, after, hload, hplain, hsupplied⟩ := h
  rw [Gives, run, if_pos hhome, hload]
  exact hnext node later after hplain hsupplied

end Walk

namespace Node

variable {node child : Node} {first : Nibble} {rest : List Nibble} {path : Path}

/-! ## Moving a resolved node -/

/-- The node is in form, and what is below it is what followed a node's own path before, under
another path. -/
def Moves (behind : Hash → Node) (node : Node) (path : Path) (moved : Node) : Prop :=
  moved.Formed behind ∧
    moved.entries behind = ((node.entries behind).past node.ownPath.symbols).under path.symbols

/-- A branch that is in form, or refers to what is, can be put under a path that leads on. -/
theorem underPath_gives (hchild : child.Formed behind)
    (hbranch : (child.through behind).isBranch = true) (honward : path.terminated = false) :
    (child.underPath path).Gives loader store fun moved ↦ moved.Formed behind ∧
      moved.entries behind = (child.entries behind).under path.symbols := by
  obtain ⟨nibbles, terminated⟩ := path
  cases honward
  cases nibbles with
  | nil => exact ⟨child, _, _, rfl, hchild, (Entries.under_nil _).symm⟩
  | cons first rest =>
      refine ⟨.extension _ first rest child, _, _, rfl, ?_, entries_extension⟩
      exact formed_extension_iff.mpr ⟨hbranch, hchild⟩

/-- A resolved node in form can be put under a path that ends a key if it is a leaf, and under one
that leads on if not. -/
theorem reroot_moves (hformed : node.Formed behind) (hstored : node.isStored = false)
    (hpath : path.terminated = true ↔ node.isLeaf = true) :
    (node.reroot path).Gives loader store (node.Moves behind path) := by
  have honward : node.isLeaf = false → path.terminated = false := by
    intro hleaf
    rw [← Bool.not_eq_true, hpath, hleaf]
    exact Bool.false_ne_true
  cases node with
  | null =>
      refine ⟨.null, loader, store, rfl, .null, ?_⟩
      rw [entries_null]
      exact (Entries.under_empty _).symm
  | leaf stamp own value =>
      obtain ⟨nibbles, terminated⟩ := path
      obtain rfl : terminated = true := hpath.mpr rfl
      have hentries : ((leaf stamp own value).entries behind).past (Path.mk own true).symbols =
          {([], value)} := by
        rw [entries_leaf, ← Entries.past_under (Path.mk own true).symbols {([], value)},
          Entries.under_singleton, List.append_nil]
      refine ⟨.leaf _ nibbles value, _, store, rfl, ?_, ?_⟩
      · exact formed_leaf_iff.mpr (formed_leaf_iff.mp hformed)
      · rw [ownPath, hentries, entries_leaf, Entries.under_singleton, List.append_nil]
  | extension stamp first rest child =>
      obtain ⟨hbranch, hchild⟩ := formed_extension_iff.mp hformed
      refine (underPath_gives hchild hbranch (honward rfl)).mono fun moved hmoved ↦ ?_
      rw [Moves, ownPath, entries_extension, Entries.past_under]
      exact hmoved
  | branch stamp occupied slots own => exact underPath_gives hformed rfl (honward rfl)
  | stored => cases hstored

/-- All keys below a resolved node begin with its own path. -/
theorem under_past_ownPath (hstored : node.isStored = false) :
    ((node.entries behind).past node.ownPath.symbols).under node.ownPath.symbols =
      node.entries behind := by
  cases node with
  | null =>
      rw [entries_null]
      exact Entries.under_nil _
  | leaf stamp path value =>
      have hentries : (leaf stamp path value).entries behind =
          Entries.under (Path.mk path true).symbols {([], value)} := by
        rw [entries_leaf, Entries.under_singleton, List.append_nil]
      rw [hentries, ownPath, Entries.past_under]
  | extension stamp first rest child =>
      rw [entries_extension, ownPath, Entries.past_under]
  | branch stamp occupied slots own => exact Entries.under_nil _
  | stored => cases hstored

/-- A resolved node with a lead in front of its own path has the lead in front of what is below. -/
theorem Moves.under {moved : Node} {lead : List Nibble}
    (h : node.Moves behind (node.ownPath.after lead) moved) (hstored : node.isStored = false) :
    moved.Formed behind ∧
      moved.entries behind = (node.entries behind).under (Path.mk lead false).symbols := by
  have hafter : (node.ownPath.after lead).symbols =
      (Path.mk lead false).symbols ++ node.ownPath.symbols := by
    rw [Path.symbols_onward]
    exact Path.symbols_append lead _ _
  refine ⟨h.1, ?_⟩
  rw [h.2, hafter, Entries.under_append, under_past_ownPath hstored]

/-! ## Nodes with the same content -/

/-- Other instances of what a node is. -/
structure Echoes (behind : Hash → Node) (found node : Node) : Prop where
  formed : found.Formed behind ↔ node.Formed behind
  entries : found.entries behind = node.entries behind
  isLeaf : found.isLeaf = node.isLeaf
  ownPath : found.ownPath = node.ownPath

/-- Nodes with the same content differ in their instances only. -/
theorem echoes_of_plain_eq {found : Node} (h : found.plain = node.plain) :
    found.Echoes behind node where
  formed := by rw [← formed_plain_iff, h, formed_plain_iff]
  entries := by rw [← entries_plain, h, entries_plain]
  isLeaf := by
    have hplain : ∀ node : Node, node.plain.isLeaf = node.isLeaf := by
      intro node
      cases node <;> simp [Node.isLeaf]
    rw [← hplain, h, hplain]
  ownPath := by
    have hplain : ∀ node : Node, node.plain.ownPath = node.ownPath := by
      intro node
      cases node <;> simp [Node.ownPath]
    rw [← hplain, h, hplain]

/-! ## Moving any node -/

/-- A node in form can be put under a path that ends a key exactly if a leaf is behind it. -/
theorem reroot_gives (hformed : node.Formed behind)
    (hpath : path.terminated = true ↔ (node.through behind).isLeaf = true)
    (hsupplied : (node.reroot path).Supplied behind loader store) :
    (node.reroot path).Gives loader store ((node.through behind).Moves behind path) := by
  cases hstored : node.isStored with
  | false =>
      have hthrough : node.through behind = node := by
        cases node with
        | null | leaf | extension | branch => rfl
        | stored => cases hstored
      rw [hthrough] at hpath ⊢
      exact reroot_moves hformed hstored hpath
  | true =>
      cases node with
      | stored stamp hash =>
          have hbelow := (formed_stored_iff.mp hformed).2.2
          rw [reroot_stored] at hsupplied ⊢
          refine hsupplied.gives_load fun found later after hplain _ ↦ ?_
          have hfound : found.val.Echoes behind (behind hash) := echoes_of_plain_eq hplain
          refine (reroot_moves (hfound.formed.mpr hbelow) found.property
            (hfound.isLeaf ▸ hpath)).mono fun moved hmoved ↦ ?_
          rwa [Moves, hfound.entries, hfound.ownPath] at hmoved
      | null | leaf | extension | branch => cases hstored

/-- A lead can be put in front of the path of a node in form. -/
theorem graft_gives (hformed : node.Formed behind) (lead : List Nibble)
    (hsupplied : (node.graft lead).Supplied behind loader store) :
    (node.graft lead).Gives loader store fun moved ↦ moved.Formed behind ∧
      moved.entries behind = (node.entries behind).under (Path.mk lead false).symbols := by
  have hended : ∀ node : Node, (node.ownPath.after lead).terminated = true ↔
      node.isLeaf = true := by
    intro node
    cases node <;> simp [Node.isLeaf, Node.ownPath, Path.after, Path.empty]
  cases hstored : node.isStored with
  | false =>
      rw [← reroot_after lead ⟨node, hstored⟩]
      exact (reroot_moves hformed hstored (hended node)).mono fun moved hmoved ↦
        hmoved.under hstored
  | true =>
      cases node with
      | stored stamp hash =>
          have hbelow := (formed_stored_iff.mp hformed).2.2
          rw [graft_stored] at hsupplied ⊢
          -- The path and the moved node come from two loads, which may give two instances.
          refine hsupplied.gives_load fun known later after hknown hmore ↦ ?_
          refine hmore.gives_load fun found last final hplain _ ↦ ?_
          have hfound : found.val.Echoes behind (behind hash) := echoes_of_plain_eq hplain
          have hknown : known.val.Echoes behind (behind hash) := echoes_of_plain_eq hknown
          rw [hknown.ownPath.trans hfound.ownPath.symm, entries_stored, ← hfound.entries]
          exact (reroot_moves (hfound.formed.mpr hbelow) found.property (hended found.val)).mono
            fun moved hmoved ↦ hmoved.under found.property
      | null | leaf | extension | branch => cases hstored

/-! ## Folding a branch -/

section Collapse

variable {slots : Slots} {own : Option Bytes}

/-- Where all slots are empty a branch has no entry but its own. -/
theorem slots_entries_of_isEmpty (behind : Hash → Node) (own : Option Bytes) (hsound : slots.Sound)
    (hempty : slots.isEmpty = true) :
    slots.entries behind own = {entry | entry.1 = [terminator] ∧ own = some entry.2} := by
  have hnull : ∀ slot, slots.node slot = .null := by
    intro slot
    have hslot := hsound.isEmpty_iff.mp hempty slot
    cases hnode : slots.node slot with
    | null => rfl
    | leaf | extension | branch | stored => cases hnode ▸ hslot
  rw [Slots.entries]
  simp only [hnull, entries_null, Entries.under_empty, Set.iUnion_empty, Set.union_empty]

/-- Where one node is alone a branch without a value has the entries below it, under its slot. -/
theorem slots_entries_of_only {place : Nibble} (hsound : slots.Sound)
    (honly : slots.only? = some (place, child)) :
    slots.entries behind none = (child.entries behind).under [nibbleSymbol place] := by
  obtain ⟨rfl, hothers⟩ := hsound.only?_eq_some_iff.mp honly
  have hnull : ∀ slot, slot ≠ place → slots.node slot = .null := by
    intro slot hne
    cases hnode : slots.node slot with
    | null => rfl
    | leaf | extension | branch | stored =>
        exact absurd ((hothers slot).mp (by rw [hnode]; rfl)) hne
  rw [Slots.entries]
  ext entry
  simp only [Set.mem_union, Set.mem_ofPred_eq, reduceCtorEq, and_false, false_or, Set.mem_iUnion]
  constructor
  · rintro ⟨slot, hentry⟩
    by_cases heq : slot = place
    · exact heq ▸ hentry
    · rw [hnull slot heq, entries_null, Entries.under_empty] at hentry
      exact hentry.elim
  · exact fun hentry ↦ ⟨place, hentry⟩

/-- A branch over nodes in form can be folded, whatever is left of its entries. -/
theorem collapse_gives (hsound : slots.Sound) (hslots : ∀ slot, (slots.node slot).Formed behind)
    (hown : own ≠ some []) (hsupplied : (collapse slots own).Supplied behind loader store) :
    (collapse slots own).Gives loader store fun folded ↦
      folded.Formed behind ∧ folded.entries behind = slots.entries behind own := by
  cases hempty : slots.isEmpty with
  | true =>
      have hentries := slots_entries_of_isEmpty behind own hsound hempty
      cases own with
      | none =>
          rw [collapse_empty_none hempty]
          refine ⟨.null, loader, store, rfl, .null, ?_⟩
          rw [hentries, entries_null]
          simp
      | some value =>
          rw [collapse_empty_some value hempty]
          refine ⟨.leaf _ [] value, _, store, rfl, .leaf fun heq ↦ hown (congrArg some heq), ?_⟩
          rw [hentries, entries_leaf]
          ext ⟨key, bytes⟩
          simp [Path.symbols_ending, eq_comm]
  | false =>
      by_cases hforked : own ≠ none ∨ slots.only? = none
      · rw [collapse_forked hempty hforked]
        refine ⟨.ofSlots _ slots own, _, store, rfl, ?_, entries_branch⟩
        exact .branch hsound (hsound.forked_of_only? hempty hforked) hown hslots
      · push Not at hforked
        obtain ⟨rfl, hsome⟩ := hforked
        obtain ⟨⟨place, child⟩, honly⟩ := Option.ne_none_iff_exists'.mp hsome
        have hchild : child.Formed behind := by
          rw [(hsound.only?_eq_some_iff.mp honly).1]
          exact hslots place
        rw [collapse_only hempty honly] at hsupplied ⊢
        rw [slots_entries_of_only hsound honly]
        exact graft_gives hchild [place] hsupplied

end Collapse

/-- Let all loads of a move succeed. A node in form, reference or not, is put under a path that
ends a key exactly if a leaf is behind it: what followed the node's own path then follows the new
one. A lead put in front of a node's path comes in front of all keys below. A branch over nodes in
form, however many and with a value or not, is folded into a node with its entries, which is empty
exactly if there are none. All ends with nodes in form. -/
theorem moved_entries (behind : Hash → Node) (loader : Loader) (store : σ) :
    (∀ (node : Node) (path : Path), node.Formed behind →
      (path.terminated = true ↔ (node.through behind).isLeaf = true) →
      (node.reroot path).Supplied behind loader store →
      ∃ moved later after, (node.reroot path).run loader store = (.ok moved, later, after) ∧
        moved.Formed behind ∧ moved.entries behind =
          ((node.entries behind).past (node.through behind).ownPath.symbols).under path.symbols) ∧
    (∀ (node : Node) (lead : List Nibble), node.Formed behind → lead ≠ [] →
      (node.graft lead).Supplied behind loader store →
      ∃ moved later after, (node.graft lead).run loader store = (.ok moved, later, after) ∧
        moved.Formed behind ∧
        moved.entries behind = (node.entries behind).under (Path.mk lead false).symbols) ∧
    (∀ (slots : Slots) (own : Option Bytes), slots.Sound →
      (∀ slot, (slots.node slot).Formed behind) → own ≠ some [] →
      (collapse slots own).Supplied behind loader store →
      ∃ folded later after, (collapse slots own).run loader store = (.ok folded, later, after) ∧
        folded.Formed behind ∧ folded.entries behind = slots.entries behind own ∧
        (folded.isNull = true ↔ slots.entries behind own = ∅)) := by
  refine ⟨fun node path hformed hpath hsupplied ↦ ?_, fun node lead hformed _ hsupplied ↦
    graft_gives hformed lead hsupplied, fun slots own hsound hslots hown hsupplied ↦ ?_⟩
  · obtain ⟨moved, later, after, hrun, hmoved, hentries⟩ := reroot_gives hformed hpath hsupplied
    exact ⟨moved, later, after, hrun, hmoved, entries_through node ▸ hentries⟩
  · obtain ⟨folded, later, after, hrun, hfolded, hentries⟩ :=
      collapse_gives hsound hslots hown hsupplied
    exact ⟨folded, later, after, hrun, hfolded, hentries, hentries ▸ hfolded.isNull_iff⟩

/-- A branch over two leaves. -/
def twoLeaves : Node :=
  .ofSlots .blank
    ((Slots.empty.set (lowNibble 1) (.leaf .blank [lowNibble 5] [1])).set (lowNibble 2)
      (.leaf .blank [] [2])) none

/-- A branch over two leaves is in form. -/
theorem twoLeaves_formed : twoLeaves.Formed behind := by
  refine .branch (Slots.set_sound (Slots.set_sound Slots.empty_sound _ _) _ _)
    ⟨1, rfl, Or.inr ⟨2, by decide, rfl⟩⟩ nofun fun slot ↦ ?_
  rw [Slots.node_set, Slots.node_set]
  split
  · exact .leaf (by decide)
  · split
    · exact .leaf (by decide)
    · exact .null

/-- A reference to a cached branch over two leaves is put under a path, gets a lead, and takes the
place of a branch in which it is alone. -/
theorem moved_entries_cached :
    let hash := keccak256 twoLeaves.encoding
    let loader := (Loader.standard 0).retain hash ⟨twoLeaves, rfl⟩
    let node := Node.stored ⟨0, 0, [], none⟩ hash
    let behind := fun _ : Hash ↦ twoLeaves
    let alone := Slots.empty.set 7 node
    (∃ moved later after, (node.reroot ⟨[3, 4], false⟩).run loader MemoryStore.empty =
        (.ok moved, later, after) ∧ moved.Formed behind ∧
      moved.entries behind = ((node.entries behind).past []).under [3, 4]) ∧
    (∃ moved later after, (node.graft [3]).run loader MemoryStore.empty =
        (.ok moved, later, after) ∧ moved.Formed behind ∧
      moved.entries behind = (node.entries behind).under [3]) ∧
    ∃ folded later after, (collapse alone none).run loader MemoryStore.empty =
        (.ok folded, later, after) ∧ folded.Formed behind ∧
      folded.entries behind = alone.entries behind none := by
  intro hash loader node behind alone
  have hcached : loader.cache.peek? hash = some ⟨twoLeaves, rfl⟩ := Recency.peek?_put_self _ _ _
  have hformed : node.Formed behind := .stored rfl rfl twoLeaves_formed
  have hgraft : ∀ lead, (node.graft lead).Supplied behind loader MemoryStore.empty := by
    intro lead
    rw [graft_stored]
    refine Walk.supplied_load_of_cached rfl hcached rfl fun later howner hstays ↦ ?_
    refine Walk.supplied_load_of_cached howner.symm hstays rfl fun last _ _ ↦ ?_
    cases lead <;> trivial
  obtain ⟨hreroot, hmoves, hfolds⟩ := moved_entries behind loader MemoryStore.empty
  refine ⟨hreroot node ⟨[3, 4], false⟩ hformed (by decide) ?_, hmoves node [3] hformed
    (List.cons_ne_nil _ _) (hgraft [3]), ?_⟩
  · rw [reroot_stored]
    exact Walk.supplied_load_of_cached rfl hcached rfl fun later _ _ ↦ trivial
  · have hsound : alone.Sound := Slots.set_sound Slots.empty_sound 7 node
    have hslots : ∀ slot, (alone.node slot).Formed behind := by
      intro slot
      rw [Slots.node_set]
      split
      · exact hformed
      · exact .null
    have honly : collapse alone none = node.graft [7] := by
      refine collapse_only (by decide) (hsound.only?_eq_some_iff.mpr ⟨?_, fun other ↦ ?_⟩)
      · rw [Slots.node_set, if_pos rfl]
      · rw [Slots.node_set]
        by_cases heq : other = 7 <;> simp [heq, Slots.empty, isNull, node]
    obtain ⟨folded, later, after, hrun, hfolded, hentries, -⟩ :=
      hfolds alone none hsound hslots (Option.some_ne_none []).symm (honly ▸ hgraft [7])
    exact ⟨folded, later, after, hrun, hfolded, hentries⟩

end Node

end Patricia
