import Patricia.Proofs.Node.Whole
import Patricia.Proofs.Update.Standing

/-!
# What lookups find and updates change

A lookup in a node that holds a content finds what the content has for the key (`find?_content`).
An insertion ends with a node that holds the content with the new value (`insert_content`), and an
erasure with one that holds the content without the value (`erase_content`), whatever is in memory
and what only behind references, as long as the service answers with the nodes that are held.
-/

namespace Patricia

/-- A service answers for every held tree, with nodes that stand for it, and with no others. -/
structure Service.Faithful (service : Service) (held : Hash → Node → Prop) : Prop where
  asked : ∀ {hash whole}, held hash whole → whole.hash = hash → service.asked hash
  shows : ∀ {hash node whole}, service.served hash node → held hash whole → whole.hash = hash →
    node.Shows held whole
  known : ∀ {hash node}, service.served hash node → node.isStored = false ∧
    ∃ whole, held hash whole ∧ whole.hash = hash ∧ whole.isNull = false ∧ whole.Normal

namespace Node

variable {service : Service} {held : Hash → Node → Prop} {bound : Nat} {node whole : Node}
  {content : Content}

/-- A value that is not empty. -/
def Full (value : Bytes) : Prop := value ≠ []

/-- No further property is asked for. -/
def Any (_ : Node) : Prop := True

/-- All nodes that show a normal tree obey the rules for their kinds. -/
theorem Shows.proper (h : node.Shows held whole) (hnormal : whole.Normal) :
    node.All (Proper Full) := by
  induction node generalizing whole with
  | null | stored => trivial
  | leaf stamp path value =>
      obtain ⟨rfl, -⟩ := h
      exact hnormal
  | extension stamp first rest child ih =>
      obtain ⟨-, below, rfl, hshows, -⟩ := h
      refine ⟨?_, ih hshows hnormal.2⟩
      have hbranch := hnormal.1
      rw [Proper, hshows.isNull_eq]
      cases below with
      | branch => rfl
      | null | leaf | extension | stored => cases hbranch
  | branch stamp occupied slots value ih =>
      have hsound := h.sound hnormal
      obtain ⟨-, below, rfl, hslots⟩ := h
      obtain ⟨-, hforked, hvalue, hbelow⟩ := hnormal
      have hnull := fun slot ↦ (hslots slot).1.isNull_eq
      refine ⟨⟨hsound, ?_, ?_⟩, fun slot ↦ ih slot (hslots slot).1 (hbelow slot)⟩
      · simpa only [Slots.Forked, hnull] using hforked
      · rintro bytes rfl rfl
        exact hvalue rfl

/-- A node that holds a content is in good standing when its stamps were given out. -/
theorem Holds.standing {owner : Nat} (h : node.Holds held content)
    (hissued : node.Issued owner bound) : node.Standing Full Any owner bound := by
  obtain ⟨whole, hshows, hnormal, -⟩ := h
  exact ⟨hshows.proper hnormal, (hshows.proper hnormal).imp fun _ _ ↦ trivial, hissued⟩

end Node

open Node in
/-- A faithful service is steady. -/
theorem Service.Faithful.steady {service : Service} {held : Hash → Node → Prop}
    (h : service.Faithful held) : service.Steady Full Any where
  inherent := fun _ _ _ ↦ trivial
  proper := by
    intro hash node hserved
    obtain ⟨-, whole, hheld, hhash, -, hnormal⟩ := h.known hserved
    exact (h.shows hserved hheld hhash).proper hnormal
  kept := by
    intro hash node hserved
    obtain ⟨-, whole, hheld, hhash, -, hnormal⟩ := h.known hserved
    exact ((h.shows hserved hheld hhash).proper hnormal).imp fun _ _ ↦ trivial
  present := by
    intro hash node hserved
    obtain ⟨-, whole, hheld, hhash, hnull, -⟩ := h.known hserved
    rw [(h.shows hserved hheld hhash).isNull_eq, hnull]

namespace Node

variable {α : Type} {service : Service} {held : Hash → Node → Prop} {bound : Nat}
  {node : Node} {content : Content}

/-- A walk that goes on well from every node that holds the content of a reference does so from
the reference. -/
theorem Holds.meets_load {stamp : Stamp} {hash : Hash} {next : Resolved → Walk α}
    {post : Nat → α → Prop} (hservice : service.Faithful held)
    (h : (stored stamp hash).Holds held content)
    (hissued : (stored stamp hash).Issued service.owner bound)
    (hnext : ∀ (node : Resolved) (later : Nat), bound ≤ later → node.val.Holds held content →
      node.val.Issued service.owner later → service.served hash node.val →
      (next node).Meets service post later) :
    (Walk.load stamp.owner hash next).Meets service post bound := by
  obtain ⟨whole, ⟨hheld, hhash, -⟩, hnormal, hcontent⟩ := h
  refine .load (hissued rfl).1 (hservice.asked hheld hhash) fun node later hle hlater hserved ↦ ?_
  have hshows := hservice.shows hserved hheld hhash
  exact hnext node later hle ⟨whole, hshows, hnormal, hcontent⟩ hlater hserved

/-- A lookup finds what the content has for the key. -/
theorem find?_content (hservice : service.Faithful held) (key : List Nibble)
    (h : node.Holds held content) (hissued : node.Issued service.owner bound) :
    (node.find? key).Meets service (fun _ found ↦ found = content key) bound := by
  induction node, key using Node.find?.induct generalizing bound content with
  | case1 key =>
      obtain rfl := h.eq_nothing
      rw [find?_null]
      exact rfl
  | case2 stamp path value key =>
      obtain ⟨-, rfl⟩ := h.eq_single
      rw [find?_leaf]
      exact rfl
  | case3 stamp first lead child key hstrip =>
      obtain ⟨below, rfl, -⟩ := h.footed_child
      rw [find?_extension, hstrip]
      exact (Content.under_eq_none _ _ _ hstrip).symm
  | case4 stamp first lead child key rest hstrip hlt ih =>
      obtain ⟨below, rfl, hchild⟩ := h.footed_child
      rw [find?_extension, hstrip, Content.under, hstrip]
      exact ih hchild.tucked.holds hissued.2
  | case5 stamp occupied slots value =>
      obtain ⟨-, -, -, contents, rfl, -⟩ := h.tucked_slots
      rw [find?_branch_nil]
      exact rfl
  | case6 stamp occupied slots value nibble rest ih =>
      obtain ⟨-, -, -, contents, rfl, hslots⟩ := h.tucked_slots
      rw [find?_branch_cons]
      exact ih (hslots nibble).holds (hissued.2 nibble)
  | case7 stamp hash key ih =>
      rw [find?_stored]
      refine h.meets_load hservice hissued fun node later hle hnode hlater _ ↦ ?_
      exact ih node hnode hlater

/-! ## Grafting and parting -/

/-- A tree that is there and is put under a longer path holds its content under the lead. -/
theorem graft_content_of_resolved (first : Nibble) (lead : List Nibble)
    (h : node.Holds held content) (hstored : node.isStored = false) :
    (node.graft (first :: lead)).Meets service
      (fun _ moved ↦ moved.Holds held (.under (first :: lead) content)) bound := by
  cases node with
  | null =>
      obtain rfl := h.eq_nothing
      rw [graft_null, Content.under_nothing]
      exact holds_null
  | leaf stamp path value =>
      obtain ⟨hvalue, rfl⟩ := h.eq_single
      rw [graft_leaf, Content.under_single]
      exact holds_leaf rfl hvalue
  | extension stamp nibble rest child =>
      obtain ⟨below, rfl, hchild⟩ := h.footed_child
      rw [graft_extension, ← Content.under_append]
      exact hchild.holds_extension rfl
  | branch stamp occupied slots value =>
      rw [graft_branch]
      exact h.footed.holds_extension rfl
  | stored stamp hash => cases hstored

/-- A tree put under a longer path holds its content under the lead. -/
theorem graft_content (hservice : service.Faithful held) (first : Nibble) (lead : List Nibble)
    (h : node.Holds held content) (hissued : node.Issued service.owner bound) :
    (node.graft (first :: lead)).Meets service
      (fun _ moved ↦ moved.Holds held (.under (first :: lead) content)) bound := by
  cases hstored : node.isStored with
  | false => exact graft_content_of_resolved first lead h hstored
  | true =>
      cases node with
      | stored stamp hash =>
          rw [graft_stored]
          obtain ⟨whole, ⟨hheld, hhash, -⟩, hnormal, hcontent⟩ := h
          -- Both requests are for one hash, so the path is that of the node that is moved.
          refine .load_twice (hissued rfl).1 (hservice.asked hheld hhash)
            fun moved later _ _ hserved ↦ ?_
          rw [reroot_after]
          have hmoved : moved.val.Holds held content :=
            ⟨whole, hservice.shows hserved hheld hhash, hnormal, hcontent⟩
          exact graft_content_of_resolved first lead hmoved moved.property
      | null | leaf | extension | branch => cases hstored

/-- A side holds the entry that ends there, or what its node holds behind its nibble. -/
def Side.Holds (held : Hash → Node → Prop) : Side → Content → Prop
  | .ending value, content => value ≠ [] ∧ content = .single [] value
  | .onward nibble node, content =>
      node.isNull = false ∧ ∃ below, node.Tucked held below ∧ content = .under [nibble] below

/-- A side that holds a content is occupied. -/
theorem Side.Holds.occupied {side : Side} (h : side.Holds held content) : side.Occupied := by
  cases side with
  | ending value => trivial
  | onward nibble node => exact h.1

/-- What is left of a leaf holds its value after the nibbles that are left. -/
theorem leafSide_content (held : Hash → Node → Prop) (rest : List Nibble) {value : Bytes}
    (hvalue : value ≠ []) :
    (leafSide rest value).Meets service
      (fun _ side ↦ side.Holds held (.single rest value) ∧ side.head? = rest.head?) bound := by
  cases rest with
  | nil => exact ⟨⟨hvalue, rfl⟩, rfl⟩
  | cons nibble rest =>
      have hleaf : (leaf ⟨service.owner, bound, [], none⟩ rest value).Holds held
          (.single rest value) := holds_leaf rfl hvalue
      refine ⟨⟨rfl, _, hleaf.tucked rfl, ?_⟩, rfl⟩
      rw [Content.under_single, List.singleton_append]

/-- What is left of an extension holds its child's content after the nibbles that are left. -/
theorem extensionSide_content (nibble : Nibble) (rest : List Nibble)
    (h : node.Footed held content) (hnull : node.isNull = false) :
    (extensionSide nibble rest node).Meets service
      (fun _ side ↦ side.Holds held (.under (nibble :: rest) content) ∧
        side.head? = some nibble) bound := by
  cases rest with
  | nil => exact ⟨⟨hnull, content, h.tucked, rfl⟩, rfl⟩
  | cons first rest =>
      have hextension : (extension ⟨service.owner, bound, [], none⟩ first rest node).Holds held
          (.under (first :: rest) content) := h.holds_extension rfl
      refine ⟨⟨rfl, _, hextension.tucked rfl, ?_⟩, rfl⟩
      rw [← Content.under_append, List.singleton_append]

/-- A branch over two sides that do not begin alike holds one content over the other. -/
theorem Side.Holds.branch {stamp : Stamp} {old new : Side} {before after : Content}
    (hold : old.Holds held before) (hnew : new.Holds held after) (hapart : old.head? ≠ new.head?)
    (hsource : stamp.source = none) :
    (ofSlots stamp (new.place (old.place .empty)) (new.orValue (old.orValue none))).Holds held
      (after.atop before) := by
  have hsound := place_sound (place_sound Slots.empty_sound old) new
  have hforked := hold.occupied.forked hnew.occupied hapart
  have hempty : ∀ slot, (Slots.empty.node slot).Tucked held Content.nothing :=
    fun _ ↦ holds_null.tucked rfl
  cases old with
  | ending value =>
      obtain ⟨hvalue, rfl⟩ := hold
      cases new with
      | ending value => exact absurd rfl hapart
      | onward nibble node =>
          obtain ⟨-, below, hnode, rfl⟩ := hnew
          rw [Content.under_singleton, Content.single_nil, Content.spread_atop]
          refine holds_branch hsource hsound hforked (by simpa [orValue] using hvalue) ?_
          simpa only [place_ending, place_onward, Content.atop_nothing]
            using Tucked.set hempty nibble hnode
  | onward nibble node =>
      obtain ⟨-, below, hnode, rfl⟩ := hold
      have hslots := Tucked.set hempty nibble hnode
      cases new with
      | ending value =>
          obtain ⟨hvalue, rfl⟩ := hnew
          rw [Content.under_singleton, Content.single_nil, Content.spread_atop]
          refine holds_branch hsource hsound hforked (by simpa [orValue] using hvalue) ?_
          simpa only [place_ending, place_onward, Content.nothing_atop] using hslots
      | onward other more =>
          obtain ⟨-, beyond, hmore, rfl⟩ := hnew
          have hne : nibble ≠ other := fun heq ↦ hapart (congrArg some heq)
          rw [Content.under_singleton, Content.under_singleton, Content.spread_atop]
          refine holds_branch hsource hsound hforked nofun fun slot ↦ ?_
          have hslot := Tucked.set hslots other hmore slot
          by_cases heq : slot = other
          · subst heq
            simpa only [place_onward, if_pos, if_neg hne.symm, Content.atop_nothing] using hslot
          · simpa only [place_onward, if_neg heq, Content.nothing_atop] using hslot

/-- Parted sides that do not begin alike hold one content over the other, behind what they
share. -/
theorem part_content (shared : List Nibble) {old new : Side} {before after : Content}
    (hold : old.Holds held before) (hnew : new.Holds held after)
    (hapart : old.head? ≠ new.head?) :
    (part shared old new).Meets service
      (fun _ parted ↦ parted.Holds held (.under shared (after.atop before))) bound := by
  have hbranch : (ofSlots ⟨service.owner, bound, [], none⟩ (new.place (old.place .empty))
      (new.orValue (old.orValue none))).Holds held (after.atop before) :=
    hold.branch hnew hapart rfl
  cases shared with
  | nil => exact hbranch
  | cons first rest => exact hbranch.footed.holds_extension rfl

/-- A leaf parted from another key holds both entries. -/
theorem partLeaf_content {path key : List Nibble} {old new : Bytes} (hpath : path ≠ key)
    (hold : old ≠ []) (hnew : new ≠ []) :
    (partLeaf path old key new).Meets service
      (fun _ parted ↦ parted.Holds held ((Content.single path old).put key new)) bound := by
  have hheads := fork_heads hpath
  -- Both entries lie under what the paths share, each behind what is left of its own path.
  have hcontent : (Content.single path old).put key new =
      .under (fork path key).shared
        ((Content.single (fork path key).right new).atop (.single (fork path key).left old)) := by
    rw [Content.under_atop, Content.under_single, Content.under_single, fork_left, fork_right,
      Content.put_eq_atop]
  rw [partLeaf, hcontent]
  refine Walk.Meets.bind ((leafSide_content held _ hold).mono ?_)
  intro later side _ hmet
  obtain ⟨hside, hhead⟩ := hmet
  refine Walk.Meets.bind ((leafSide_content held _ hnew).mono ?_)
  intro last other _ hmet
  obtain ⟨hother, hhead'⟩ := hmet
  exact part_content _ hside hother (by rwa [hhead, hhead'])

/-! ## Folding a branch -/

/-- What is left of a branch holds what its slots and its own value do. -/
theorem collapse_content (hservice : service.Faithful held) {table : Slots}
    {contents : Nibble → Content} (value : Option Bytes) (hsound : table.Sound)
    (hslots : ∀ slot, (table.node slot).Tucked held (contents slot))
    (hstanding : ∀ slot, (table.node slot).Standing Full Any service.owner bound)
    (hvalue : value ≠ some []) :
    (collapse table value).Meets service
      (fun _ folded ↦ folded.Holds held (.spread value contents)) bound := by
  have hnothing : ∀ slot, (table.node slot).isNull = true → contents slot = .nothing :=
    fun slot ↦ (hslots slot).holds.eq_nothing_of_isNull
  cases hempty : table.isEmpty with
  | true =>
      have hall : contents = fun _ ↦ .nothing :=
        funext fun slot ↦ hnothing slot (hsound.isEmpty_iff.mp hempty slot)
      cases value with
      | none =>
          rw [collapse_empty_none hempty, hall, Content.spread_nothing]
          exact holds_null
      | some bytes =>
          rw [collapse_empty_some bytes hempty, hall, ← Content.single_nil]
          exact holds_leaf rfl (by simpa using hvalue)
  | false =>
      by_cases honly : value ≠ none ∨ table.only? = none
      · rw [collapse_forked hempty honly]
        exact holds_branch rfl hsound (hsound.forked_of_only? hempty honly) hvalue hslots
      · push Not at honly
        obtain ⟨rfl, hne⟩ := honly
        obtain ⟨⟨nibble, child⟩, honly⟩ := Option.ne_none_iff_exists'.mp hne
        obtain ⟨rfl, halone⟩ := hsound.only?_eq_some_iff.mp honly
        -- The other slots hold nothing, so what the branch holds is what its one child does.
        have hcontent : Content.spread none contents = .under [nibble] (contents nibble) := by
          rw [Content.under_singleton]
          congr 1
          funext slot
          split
          · rename_i heq
            rw [heq]
          · rename_i hother
            exact hnothing slot (by simpa using mt (halone slot).mp hother)
        rw [collapse_only hempty honly, hcontent]
        exact graft_content hservice nibble [] (hslots nibble).holds (hstanding nibble).issued

/-! ## Updates -/

/-- An insertion ends with a new node that holds the content with the value for the key. -/
theorem insert_content (hservice : service.Faithful held) (key : List Nibble) {value : Bytes}
    (hvalue : value ≠ []) (h : node.Holds held content)
    (hissued : node.Issued service.owner bound) :
    (node.insert key value).Meets service
      (fun _ updated ↦ updated.Holds held (content.put key value)) bound := by
  induction node, key using Node.insert.induct generalizing bound content with
  | case1 key =>
      obtain rfl := h.eq_nothing
      rw [insert_null, Content.put_nothing]
      exact holds_leaf rfl hvalue
  | case2 stamp old key =>
      obtain ⟨-, rfl⟩ := h.eq_single
      rw [insert_leaf, if_pos rfl, Content.put_single]
      exact holds_leaf rfl hvalue
  | case3 stamp path old key hpath =>
      obtain ⟨hold, rfl⟩ := h.eq_single
      rw [insert_leaf, if_neg hpath]
      exact partLeaf_content hpath hold hvalue
  | case4 stamp first lead child key shared rest hfork hlt ih =>
      obtain ⟨below, rfl, hchild⟩ := h.footed_child
      have hkey := eq_append_of_fork_nil hfork
      have hstanding := hchild.tucked.holds.standing hissued.2
      have hmeets := (insert_standing hservice.steady rest hvalue hstanding).and
        (ih hchild.tucked.holds hissued.2)
      rw [insert_within stamp value hfork]
      refine Walk.Meets.bind (hmeets.mono ?_)
      intro later updated hle hmet
      obtain ⟨⟨⟨hupdated, hnew⟩, hnull⟩, hholds⟩ := hmet
      have hproper := (h.standing hissued).proper.1
      rw [hnew.same_eq_false hissued.2 hproper, if_neg Bool.false_ne_true, hkey,
        Content.put_under]
      exact graft_content hservice first lead hholds hupdated.issued
  | case5 stamp first lead child key shared nibble left right hfork =>
      obtain ⟨below, rfl, hchild⟩ := h.footed_child
      obtain ⟨hleft, hright⟩ := eq_append_of_fork hfork
      -- The key leaves the extension's path, so both go on behind what they share.
      have hcontent : (Content.under (first :: lead) below).put key value =
          .under shared
            ((Content.single right value).atop (.under (nibble :: left) below)) := by
        rw [Content.under_atop, Content.under_single, ← Content.under_append, Content.put_eq_atop]
        exact congrArg₂ _ (congrArg (Content.single · value) hright)
          (congrArg (Content.under · below) hleft)
      have hnull := (h.standing hissued).proper.1
      rw [insert_outside stamp nibble value hfork, hcontent]
      refine Walk.Meets.bind ((extensionSide_content nibble left hchild hnull).mono ?_)
      intro later old hle hmet
      obtain ⟨hold, hhead⟩ := hmet
      refine Walk.Meets.bind ((leafSide_content held right hvalue).mono ?_)
      intro last new hlast hmet
      obtain ⟨hnew, hhead'⟩ := hmet
      refine part_content shared hold hnew ?_
      rw [hhead, hhead']
      intro heq
      exact fork_parts (first :: lead) key (by rw [hfork, List.head?_cons])
        (by rw [hfork, ← heq]) rfl
  | case6 stamp occupied slots own =>
      obtain ⟨hsound, hforked, -, contents, rfl, hslots⟩ := h.tucked_slots
      rw [insert_branch_nil, Content.put_spread_nil]
      exact holds_branch rfl hsound (hforked.some value) (by simpa using hvalue) hslots
  | case7 stamp occupied slots own nibble rest ih =>
      obtain ⟨hsound, hforked, hown, contents, rfl, hslots⟩ := h.tucked_slots
      have hstanding := (hslots nibble).holds.standing (hissued.2 nibble)
      have hmeets := (insert_standing hservice.steady rest hvalue hstanding).and
        (ih (hslots nibble).holds (hissued.2 nibble))
      rw [insert_branch_cons]
      refine Walk.Meets.bind (hmeets.mono ?_)
      intro later updated hle hmet
      obtain ⟨⟨⟨hupdated, hnew⟩, hnull⟩, hholds⟩ := hmet
      rw [hnew.same_eq_false_of_present (hissued.2 nibble) hnull, if_neg Bool.false_ne_true,
        Content.put_spread_cons]
      exact holds_branch rfl (Slots.set_sound hsound nibble updated) (hforked.set nibble hnull)
        hown (Tucked.set hslots nibble (hholds.tucked hnew.isStored_eq))
  | case8 stamp hash key ih =>
      rw [insert_stored]
      refine h.meets_load hservice hissued fun node later hle hnode hlater hserved ↦ ?_
      have hmeets := (insert_standing hservice.steady key hvalue (hnode.standing hlater)).and
        (ih node hnode hlater)
      refine Walk.Meets.bind (hmeets.mono ?_)
      intro last updated hlast hmet
      obtain ⟨⟨⟨hupdated, hnew⟩, hnull⟩, hholds⟩ := hmet
      rw [hnew.same_eq_false hlater (hservice.steady.present hserved),
        if_neg Bool.false_ne_true]
      exact hholds

/-- An erasure ends with a node that holds the content without a value for the key. It is the very
node that was given when the key has no value, and a new one otherwise. -/
theorem erase_content (hservice : service.Faithful held) (key : List Nibble)
    (h : node.Holds held content) (hissued : node.Issued service.owner bound) :
    (node.erase key).Meets service
      (fun _ updated ↦ updated.Holds held (content.erase key) ∧
        (updated = node ∧ content key = none ∨
          node.isNull = false ∧ updated.New bound ∧ content key ≠ none)) bound := by
  induction node, key using Node.erase.induct generalizing bound content with
  | case1 key =>
      obtain rfl := h.eq_nothing
      rw [erase_null]
      exact ⟨by rwa [Content.erase_of_eq_none _ _ rfl], Or.inl ⟨rfl, rfl⟩⟩
  | case2 stamp path value key =>
      obtain ⟨hvalue, rfl⟩ := h.eq_single
      rw [erase_leaf]
      by_cases hpath : path = key
      · subst hpath
        rw [if_pos rfl, Content.erase_single]
        refine ⟨holds_null, Or.inr ⟨rfl, Or.inl rfl, ?_⟩⟩
        rw [Content.single, if_pos rfl]
        exact Option.some_ne_none value
      · have hnone : Content.single path value key = none := if_neg hpath
        rw [if_neg hpath, Content.erase_of_eq_none _ _ hnone]
        exact ⟨h, Or.inl ⟨rfl, hnone⟩⟩
  | case3 stamp first lead child key hstrip =>
      obtain ⟨below, rfl, -⟩ := h.footed_child
      have hnone := Content.under_eq_none below _ _ hstrip
      rw [erase_extension, hstrip, Content.erase_of_eq_none _ _ hnone]
      exact ⟨h, Or.inl ⟨rfl, hnone⟩⟩
  | case4 stamp first lead child key rest hstrip hlt ih =>
      obtain ⟨below, rfl, hchild⟩ := h.footed_child
      obtain rfl := stripLead?_eq_some_iff.mp hstrip
      have hstanding := hchild.tucked.holds.standing hissued.2
      have hmeets := (erase_standing hservice.steady rest hstanding).and
        (ih hchild.tucked.holds hissued.2)
      rw [erase_extension, hstrip, Content.under_apply_append, Content.erase_under]
      refine Walk.Meets.bind (hmeets.mono ?_)
      intro later updated hle hmet
      obtain ⟨⟨hupdated, -⟩, hholds, ⟨rfl, hnone⟩ | ⟨hnull, hnew, hsome⟩⟩ := hmet
      · rw [same_self, if_pos rfl, Content.erase_of_eq_none _ _ hnone]
        exact ⟨h, Or.inl ⟨rfl, hnone⟩⟩
      · rw [hnew.same_eq_false hissued.2 hnull, if_neg Bool.false_ne_true]
        refine ((graft_standing hservice.steady first lead hupdated).and
          (graft_content hservice first lead hholds hupdated.issued)).mono ?_
        intro last moved _ hmet
        obtain ⟨⟨⟨-, hmade⟩, -⟩, hmoved⟩ := hmet
        exact ⟨hmoved, Or.inr ⟨rfl, hmade.mono hle, hsome⟩⟩
  | case5 stamp occupied slots =>
      obtain ⟨-, -, -, contents, rfl, -⟩ := h.tucked_slots
      rw [erase_branch_none, Content.erase_of_eq_none _ _ rfl]
      exact ⟨h, Or.inl ⟨rfl, rfl⟩⟩
  | case6 stamp occupied slots value =>
      obtain ⟨hsound, -, -, contents, rfl, hslots⟩ := h.tucked_slots
      have hstanding := h.standing hissued
      have hfull : ∀ bytes, none = some bytes → Full bytes :=
        fun bytes hbytes ↦ absurd hbytes.symm (Option.some_ne_none bytes)
      rw [erase_branch_some, Content.erase_spread_nil]
      refine ((collapse_standing hservice.steady none hsound hstanding.slot hfull).and
        (collapse_content hservice none hsound hslots hstanding.slot
          (Option.some_ne_none []).symm)).mono ?_
      intro later folded _ hmet
      obtain ⟨hmade, hholds⟩ := hmet
      exact ⟨hholds, Or.inr ⟨rfl, hmade.2, Option.some_ne_none value⟩⟩
  | case7 stamp occupied slots own nibble rest ih =>
      obtain ⟨hsound, -, hown, contents, rfl, hslots⟩ := h.tucked_slots
      have hstanding := h.standing hissued
      have hmeets := (erase_standing hservice.steady rest (hstanding.slot nibble)).and
        (ih (hslots nibble).holds (hissued.2 nibble))
      rw [erase_branch_cons]
      refine Walk.Meets.bind (hmeets.mono ?_)
      intro later updated hle hmet
      obtain ⟨⟨hupdated, -⟩, hholds, ⟨rfl, hnone⟩ | ⟨hnull, hnew, hsome⟩⟩ := hmet
      · have hnone' : Content.spread own contents (nibble :: rest) = none := hnone
        rw [same_self, if_pos rfl, Content.erase_of_eq_none _ _ hnone']
        exact ⟨h, Or.inl ⟨rfl, hnone⟩⟩
      · rw [hnew.same_eq_false (hissued.2 nibble) hnull, if_neg Bool.false_ne_true,
          Content.erase_spread_cons]
        have hset : ∀ slot, (((Slots.mk occupied slots).set nibble updated).node slot).Standing
            Full Any service.owner later :=
          Standing.set (fun slot ↦ (hstanding.slot slot).mono hle) nibble hupdated
        refine ((collapse_standing hservice.steady own (Slots.set_sound hsound nibble updated)
          hset hstanding.proper.1.2.2).and
          (collapse_content hservice own (Slots.set_sound hsound nibble updated)
            (Tucked.set hslots nibble (hholds.tucked hnew.isStored_eq)) hset hown)).mono ?_
        intro last folded _ hmet
        obtain ⟨hmade, hfolded⟩ := hmet
        exact ⟨hfolded, Or.inr ⟨rfl, hmade.2.mono hle, hsome⟩⟩
  | case8 stamp hash key ih =>
      rw [erase_stored]
      refine h.meets_load hservice hissued fun node later hle hnode hlater hserved ↦ ?_
      refine Walk.Meets.bind ((ih node hnode hlater).mono ?_)
      intro last updated hlast hmet
      obtain ⟨hholds, ⟨rfl, hnone⟩ | ⟨hnull, hnew, hsome⟩⟩ := hmet
      · rw [same_self, if_pos rfl, Content.erase_of_eq_none _ _ hnone]
        exact ⟨h, Or.inl ⟨rfl, hnone⟩⟩
      · rw [hnew.same_eq_false hlater hnull, if_neg Bool.false_ne_true]
        exact ⟨hholds, Or.inr ⟨rfl, hnew.mono hle, hsome⟩⟩

end Node

end Patricia
