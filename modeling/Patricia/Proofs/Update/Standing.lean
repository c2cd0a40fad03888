import Patricia.Proofs.Node.Standing
import Patricia.Proofs.Update.Steps
import Patricia.Proofs.Walk.Meets

/-!
# Updates keep tries in good standing

Whatever nodes a steady service hands out for references, an insertion or an erasure in a standing
tree ends with a standing tree and never fails by itself (`insert_standing`, `erase_standing`). Its
result is new, unless there was nothing to erase; then it is the very node that was given. So the
test whether an update changed anything below a node tells what it is meant to.
-/

namespace Patricia

/-- The nodes that may be handed out for a reference are proper, have the further property and are
not empty. -/
structure Service.Steady (service : Service) (full : Bytes → Prop) (q : Node → Prop) : Prop where
  inherent : Node.Inherent q
  proper : ∀ {hash node}, service.served hash node → node.All (Node.Proper full)
  kept : ∀ {hash node}, service.served hash node → node.All q
  present : ∀ {hash node}, service.served hash node → node.isNull = false

/-- Different parts of a fork that is not one run do not begin alike. -/
theorem fork_heads {left right : List Nibble} (h : left ≠ right) :
    (fork left right).left.head? ≠ (fork left right).right.head? := by
  intro hheads
  cases hleft : (fork left right).left.head? with
  | some nibble => exact fork_parts left right hleft (hheads.symm.trans hleft) rfl
  | none =>
      have hl := fork_left left right
      have hr := fork_right left right
      rw [List.head?_eq_none_iff.mp hleft] at hl
      rw [List.head?_eq_none_iff.mp (hheads.symm.trans hleft)] at hr
      exact h (hl.symm.trans hr)

namespace Node

variable {α : Type} {service : Service} {full : Bytes → Prop} {q : Node → Prop} {bound : Nat}
  {node : Node}

/-- A tree that was made since some number: it is standing and its root is new. -/
def Made (service : Service) (full : Bytes → Prop) (q : Node → Prop) (bound later : Nat)
    (node : Node) : Prop :=
  node.Standing full q service.owner later ∧ node.New bound

/-- What was made since a number was made since an earlier one. -/
theorem Made.mono {earlier later : Nat} (h : node.Made service full q bound later)
    (hle : earlier ≤ bound) : node.Made service full q earlier later :=
  ⟨h.1, h.2.mono hle⟩

/-- A walk that goes on well from every node behind a reference does so from the reference. -/
theorem Standing.meets_load {stamp : Stamp} {hash : Hash} {next : Resolved → Walk α}
    {post : Nat → α → Prop} (hservice : service.Steady full q)
    (h : (stored stamp hash).Standing full q service.owner bound)
    (hnext : ∀ (node : Resolved) (later : Nat), bound ≤ later →
      node.val.Standing full q service.owner later → service.served hash node.val →
      (next node).Meets service.unbarred post later) :
    (Walk.load stamp.owner hash next).Meets service.unbarred post bound := by
  refine .load h.home_eq trivial fun node later hle hissued hserved ↦ ?_
  exact hnext node later hle ⟨hservice.proper hserved, hservice.kept hserved, hissued⟩ hserved

/-! ## Grafting -/

/-- A resolved tree under a longer path is made anew. -/
theorem graft_standing_of_resolved (hservice : service.Steady full q) (first : Nibble)
    (lead : List Nibble) (h : node.Standing full q service.owner bound)
    (hstored : node.isStored = false) :
    (node.graft (first :: lead)).Meets service.unbarred
      (fun later moved ↦
        moved.Made service full q bound later ∧ (node.isNull = false → moved.isNull = false))
      bound := by
  cases node with
  | null => exact ⟨⟨h, Or.inl rfl⟩, nofun⟩
  | leaf stamp path value =>
      rw [graft_leaf]
      exact ⟨⟨.newLeaf hservice.inherent h.proper, Or.inr ⟨rfl, Nat.le_refl _⟩⟩, fun _ ↦ rfl⟩
  | extension stamp nibble rest child =>
      rw [graft_extension]
      have hnull : child.isNull = false := h.proper.1
      exact ⟨⟨.newExtension hservice.inherent h.child hnull, Or.inr ⟨rfl, Nat.le_refl _⟩⟩,
        fun _ ↦ rfl⟩
  | branch stamp occupied slots value =>
      rw [graft_branch]
      exact ⟨⟨.newExtension hservice.inherent h rfl, Or.inr ⟨rfl, Nat.le_refl _⟩⟩, fun _ ↦ rfl⟩
  | stored stamp hash => cases hstored

/-- A tree under a longer path is made anew. -/
theorem graft_standing (hservice : service.Steady full q) (first : Nibble) (lead : List Nibble)
    (h : node.Standing full q service.owner bound) :
    (node.graft (first :: lead)).Meets service.unbarred
      (fun later moved ↦
        moved.Made service full q bound later ∧ (node.isNull = false → moved.isNull = false))
      bound := by
  cases hstored : node.isStored with
  | false => exact graft_standing_of_resolved hservice first lead h hstored
  | true =>
      cases node with
      | stored stamp hash =>
          rw [graft_stored]
          -- Both requests are for one hash, so the path is that of the node that is moved.
          refine .load_twice h.home_eq trivial fun moved later hle hissued hserved ↦ ?_
          rw [reroot_after]
          have hmoved : moved.val.Standing full q service.owner later :=
            ⟨hservice.proper hserved, hservice.kept hserved, hissued⟩
          have hmeets := graft_standing_of_resolved hservice first lead hmoved moved.property
          exact hmeets.mono fun last result _ hresult ↦
            ⟨hresult.1.mono hle, fun _ ↦ hresult.2 (hservice.present hserved)⟩
      | null | leaf | extension | branch => cases hstored

/-! ## Parting -/

namespace Side

/-- The nibble with which a side goes on, if nothing ends there. -/
def head? : Side → Option Nibble
  | .ending _ => none
  | .onward nibble _ => some nibble

/-- A side with an allowed value, or with a standing tree that is not empty. -/
def Standing (full : Bytes → Prop) (q : Node → Prop) (owner bound : Nat) : Side → Prop
  | .ending value => full value
  | .onward _ node => node.Standing full q owner bound ∧ node.isNull = false

/-- A side goes on with a node that is not empty, if it goes on. -/
def Occupied : Side → Prop
  | .ending _ => True
  | .onward _ node => node.isNull = false

variable {owner later : Nat} {side old new : Side}

/-- A standing side is occupied. -/
theorem Standing.occupied (h : side.Standing full q owner bound) : side.Occupied := by
  cases side with
  | ending value => trivial
  | onward nibble node => exact h.2

@[simp] theorem place_ending (value : Bytes) (slots : Slots) :
    (ending value).place slots = slots := rfl

@[simp] theorem place_onward (nibble : Nibble) (node : Node) (slots : Slots) :
    (onward nibble node).place slots = slots.set nibble node := rfl

/-- More stamps may have been given out. -/
theorem Standing.mono (h : side.Standing full q owner bound) (hle : bound ≤ later) :
    side.Standing full q owner later := by
  cases side with
  | ending value => exact h
  | onward nibble node => exact ⟨h.1.mono hle, h.2⟩

/-- A side is put into slots rightly. -/
theorem place_sound {slots : Slots} (h : slots.Sound) (side : Side) :
    (side.place slots).Sound := by
  cases side with
  | ending value => exact h
  | onward nibble node => exact Slots.set_sound h nibble node

/-- Standing slots with a standing side are standing. -/
theorem Standing.place {slots : Slots} (h : side.Standing full q owner bound)
    (hslots : ∀ slot, (slots.node slot).Standing full q owner bound) (slot : Nibble) :
    ((side.place slots).node slot).Standing full q owner bound := by
  cases side with
  | ending value => exact hslots slot
  | onward nibble node => exact Node.Standing.set hslots nibble h.1 slot

/-- The value of a standing side is allowed if the other one is. -/
theorem Standing.orValue {value : Option Bytes} (h : side.Standing full q owner bound)
    (hvalue : ∀ bytes, value = some bytes → full bytes) (bytes : Bytes)
    (hsome : side.orValue value = some bytes) : full bytes := by
  cases side with
  | ending value =>
      cases hsome
      exact h
  | onward nibble node => exact hvalue bytes hsome

/-- Two sides that do not begin alike are two entries. -/
theorem Occupied.forked (hold : old.Occupied) (hnew : new.Occupied)
    (hapart : old.head? ≠ new.head?) :
    (new.place (old.place .empty)).Forked (new.orValue (old.orValue none)) := by
  cases old with
  | ending value =>
      cases new with
      | ending value => exact absurd rfl hapart
      | onward nibble node =>
          refine ⟨nibble, ?_, Or.inl nofun⟩
          simpa only [place_ending, place_onward, Slots.node_set, if_pos, Occupied] using hnew
  | onward nibble node =>
      cases new with
      | ending value =>
          refine ⟨nibble, ?_, Or.inl nofun⟩
          simpa only [place_ending, place_onward, Slots.node_set, if_pos, Occupied] using hold
      | onward other more =>
          have hne : nibble ≠ other := fun heq ↦ hapart (congrArg some heq)
          refine ⟨other, ?_, Or.inr ⟨nibble, hne, ?_⟩⟩
          · simpa only [place_onward, Slots.node_set, if_pos, Occupied] using hnew
          · simpa only [place_onward, Slots.node_set, if_pos, if_neg hne, Occupied] using hold

end Side

/-- What is left of a leaf is a standing side. -/
theorem leafSide_standing (hservice : service.Steady full q) (rest : List Nibble) {value : Bytes}
    (hfull : full value) :
    (leafSide rest value).Meets service.unbarred
      (fun later side ↦ side.Standing full q service.owner later ∧ side.head? = rest.head?)
      bound := by
  cases rest with
  | nil => exact ⟨hfull, rfl⟩
  | cons nibble rest => exact ⟨⟨.newLeaf hservice.inherent hfull, rfl⟩, rfl⟩

/-- What is left of an extension is a standing side. -/
theorem extensionSide_standing (hservice : service.Steady full q) (nibble : Nibble)
    (rest : List Nibble) (h : node.Standing full q service.owner bound)
    (hnull : node.isNull = false) :
    (extensionSide nibble rest node).Meets service.unbarred
      (fun later side ↦ side.Standing full q service.owner later ∧ side.head? = some nibble)
      bound := by
  cases rest with
  | nil => exact ⟨⟨h, hnull⟩, rfl⟩
  | cons first rest => exact ⟨⟨.newExtension hservice.inherent h hnull, rfl⟩, rfl⟩

/-- Parted sides that do not begin alike make a new standing tree. -/
theorem part_standing (hservice : service.Steady full q) (shared : List Nibble) {old new : Side}
    (hold : old.Standing full q service.owner bound)
    (hnew : new.Standing full q service.owner bound) (hapart : old.head? ≠ new.head?) :
    (part shared old new).Meets service.unbarred
      (fun later parted ↦ parted.Made service full q bound later ∧ parted.isNull = false)
      bound := by
  have hbranch := Standing.newBranch hservice.inherent
    (Side.place_sound (Side.place_sound Slots.empty_sound old) new)
    (hold.occupied.forked hnew.occupied hapart)
    (hnew.orValue (hold.orValue nofun))
    (hnew.place (hold.place fun _ ↦ .null hservice.inherent))
  cases shared with
  | nil => exact ⟨⟨hbranch, Or.inr ⟨rfl, Nat.le_refl _⟩⟩, rfl⟩
  | cons first rest =>
      exact ⟨⟨.newExtension hservice.inherent hbranch rfl, Or.inr ⟨rfl, Nat.le_succ _⟩⟩, rfl⟩

/-- A leaf parted from another key is a new standing tree. -/
theorem partLeaf_standing (hservice : service.Steady full q) {path key : List Nibble}
    {old new : Bytes} (hpath : path ≠ key) (hold : full old) (hnew : full new) :
    (partLeaf path old key new).Meets service.unbarred
      (fun later parted ↦ parted.Made service full q bound later ∧ parted.isNull = false)
      bound := by
  have hheads := fork_heads hpath
  rw [partLeaf]
  refine Walk.Meets.bind ((leafSide_standing hservice _ hold).mono ?_)
  intro later side hle hmet
  obtain ⟨hside, hhead⟩ := hmet
  refine Walk.Meets.bind ((leafSide_standing hservice _ hnew).mono ?_)
  intro last other hlast hmet
  obtain ⟨hother, hhead'⟩ := hmet
  have hapart : side.head? ≠ other.head? := by rwa [hhead, hhead']
  refine (part_standing hservice _ (hside.mono hlast) hother hapart).mono ?_
  exact fun final parted _ hparted ↦ ⟨hparted.1.mono (Nat.le_trans hle hlast), hparted.2⟩

/-! ## Folding a branch -/

/-- What is left of a branch is made anew. -/
theorem collapse_standing (hservice : service.Steady full q) {slots : Slots}
    (value : Option Bytes) (hsound : slots.Sound)
    (hslots : ∀ slot, (slots.node slot).Standing full q service.owner bound)
    (hfull : ∀ bytes, value = some bytes → full bytes) :
    (collapse slots value).Meets service.unbarred
      (fun later folded ↦ folded.Made service full q bound later) bound := by
  cases hempty : slots.isEmpty with
  | true =>
      cases value with
      | none =>
          rw [collapse_empty_none hempty]
          exact ⟨.null hservice.inherent, Or.inl rfl⟩
      | some bytes =>
          rw [collapse_empty_some bytes hempty]
          exact ⟨.newLeaf hservice.inherent (hfull bytes rfl), Or.inr ⟨rfl, Nat.le_refl _⟩⟩
  | false =>
      by_cases honly : value ≠ none ∨ slots.only? = none
      · rw [collapse_forked hempty honly]
        have hforked := hsound.forked_of_only? hempty honly
        exact ⟨.newBranch hservice.inherent hsound hforked hfull hslots,
          Or.inr ⟨rfl, Nat.le_refl _⟩⟩
      -- No value and one child are left, which takes the branch's place.
      · push Not at honly
        obtain ⟨rfl, hne⟩ := honly
        obtain ⟨⟨nibble, child⟩, honly⟩ := Option.ne_none_iff_exists'.mp hne
        rw [collapse_only hempty honly]
        obtain ⟨rfl, -⟩ := hsound.only?_eq_some_iff.mp honly
        exact (graft_standing hservice nibble [] (hslots nibble)).mono fun _ _ _ h ↦ h.1

/-! ## Updates -/

/-- An insertion makes a new standing tree that is not empty. -/
theorem insert_standing (hservice : service.Steady full q) (key : List Nibble) {value : Bytes}
    (hfull : full value) (h : node.Standing full q service.owner bound) :
    (node.insert key value).Meets service.unbarred
      (fun later updated ↦ updated.Made service full q bound later ∧ updated.isNull = false)
      bound := by
  induction node, key using Node.insert.induct generalizing bound with
  | case1 key =>
      rw [insert_null]
      exact ⟨⟨.newLeaf hservice.inherent hfull, Or.inr ⟨rfl, Nat.le_refl _⟩⟩, rfl⟩
  | case2 stamp old key =>
      rw [insert_leaf, if_pos rfl]
      exact ⟨⟨.newLeaf hservice.inherent hfull, Or.inr ⟨rfl, Nat.le_refl _⟩⟩, rfl⟩
  | case3 stamp path old key hpath =>
      rw [insert_leaf, if_neg hpath]
      exact partLeaf_standing hservice hpath h.proper hfull
  | case4 stamp first lead child key shared rest hfork hlt ih =>
      rw [insert_within stamp value hfork]
      refine Walk.Meets.bind ((ih h.child).mono ?_)
      intro later updated hle hmet
      obtain ⟨⟨hupdated, hnew⟩, hnull⟩ := hmet
      -- The child was made anew, so the test for the old instance fails.
      rw [hnew.same_eq_false h.child.issued h.proper.1, if_neg Bool.false_ne_true]
      refine (graft_standing hservice first lead hupdated).mono fun last moved hlast hmoved ↦ ?_
      exact ⟨hmoved.1.mono hle, hmoved.2 hnull⟩
  | case5 stamp first lead child key shared nibble left right hfork =>
      rw [insert_outside stamp nibble value hfork]
      refine Walk.Meets.bind
        ((extensionSide_standing hservice nibble left h.child h.proper.1).mono ?_)
      intro later old hle hmet
      obtain ⟨hold, hhead⟩ := hmet
      refine Walk.Meets.bind ((leafSide_standing hservice right hfull).mono ?_)
      intro last new hlast hmet
      obtain ⟨hnew, hhead'⟩ := hmet
      have hapart : old.head? ≠ new.head? := by
        rw [hhead, hhead']
        intro heq
        exact fork_parts (first :: lead) key (by rw [hfork, List.head?_cons])
          (by rw [hfork, ← heq]) rfl
      refine (part_standing hservice shared (hold.mono hlast) hnew hapart).mono ?_
      exact fun final parted _ hparted ↦ ⟨hparted.1.mono (Nat.le_trans hle hlast), hparted.2⟩
  | case6 stamp occupied slots own =>
      rw [insert_branch_nil]
      obtain ⟨hsound, hforked, -⟩ := h.proper.1
      refine ⟨⟨.newBranch hservice.inherent hsound (hforked.some value) ?_ h.slot,
        Or.inr ⟨rfl, Nat.le_refl _⟩⟩, rfl⟩
      rintro bytes ⟨⟩
      exact hfull
  | case7 stamp occupied slots own nibble rest ih =>
      rw [insert_branch_cons]
      obtain ⟨hsound, hforked, hown⟩ := h.proper.1
      refine Walk.Meets.bind ((ih (h.slot nibble)).mono ?_)
      intro later updated hle hmet
      obtain ⟨⟨hupdated, hnew⟩, hnull⟩ := hmet
      rw [hnew.same_eq_false_of_present (h.slot nibble).issued hnull,
        if_neg Bool.false_ne_true]
      refine ⟨⟨.newBranch hservice.inherent (Slots.set_sound hsound nibble updated)
        (hforked.set nibble hnull) hown ?_, Or.inr ⟨rfl, hle⟩⟩, rfl⟩
      exact Standing.set (fun slot ↦ (h.slot slot).mono hle) nibble hupdated
  | case8 stamp hash key ih =>
      rw [insert_stored]
      refine h.meets_load hservice fun node later hle hnode hserved ↦ ?_
      refine Walk.Meets.bind ((ih node hnode).mono ?_)
      intro last updated hlast hmet
      obtain ⟨⟨hupdated, hnew⟩, hnull⟩ := hmet
      rw [hnew.same_eq_false hnode.issued (hservice.present hserved),
        if_neg Bool.false_ne_true]
      exact ⟨⟨hupdated, hnew.mono hle⟩, hnull⟩

/-- An erasure gives back the very node, or makes a new standing tree in place of one that is not
empty. -/
theorem erase_standing (hservice : service.Steady full q) (key : List Nibble)
    (h : node.Standing full q service.owner bound) :
    (node.erase key).Meets service.unbarred
      (fun later updated ↦ updated.Standing full q service.owner later ∧
        (updated = node ∨ node.isNull = false ∧ updated.New bound))
      bound := by
  induction node, key using Node.erase.induct generalizing bound with
  | case1 key =>
      rw [erase_null]
      exact ⟨h, Or.inl rfl⟩
  | case2 stamp path value key =>
      rw [erase_leaf]
      by_cases hpath : path = key
      · rw [if_pos hpath]
        exact ⟨.null hservice.inherent, Or.inr ⟨rfl, Or.inl rfl⟩⟩
      · rw [if_neg hpath]
        exact ⟨h, Or.inl rfl⟩
  | case3 stamp first lead child key hstrip =>
      rw [erase_extension, hstrip]
      exact ⟨h, Or.inl rfl⟩
  | case4 stamp first lead child key rest hstrip hlt ih =>
      rw [erase_extension, hstrip]
      refine Walk.Meets.bind ((ih h.child).mono ?_)
      intro later updated hle hmet
      -- The test for the old instance tells whether anything was erased below.
      obtain ⟨hupdated, rfl | ⟨hnull, hnew⟩⟩ := hmet
      · rw [same_self, if_pos rfl]
        exact ⟨h.mono hle, Or.inl rfl⟩
      · rw [hnew.same_eq_false h.child.issued hnull, if_neg Bool.false_ne_true]
        refine (graft_standing hservice first lead hupdated).mono fun last moved _ hmoved ↦ ?_
        exact ⟨hmoved.1.1, Or.inr ⟨rfl, hmoved.1.2.mono hle⟩⟩
  | case5 stamp occupied slots =>
      rw [erase_branch_none]
      exact ⟨h, Or.inl rfl⟩
  | case6 stamp occupied slots value =>
      rw [erase_branch_some]
      have hmeets := collapse_standing hservice none h.proper.1.1 h.slot nofun
      exact hmeets.mono fun _ _ _ hfolded ↦ ⟨hfolded.1, Or.inr ⟨rfl, hfolded.2⟩⟩
  | case7 stamp occupied slots own nibble rest ih =>
      rw [erase_branch_cons]
      obtain ⟨hsound, -, hown⟩ := h.proper.1
      refine Walk.Meets.bind ((ih (h.slot nibble)).mono ?_)
      intro later updated hle hmet
      obtain ⟨hupdated, rfl | ⟨hnull, hnew⟩⟩ := hmet
      · rw [same_self, if_pos rfl]
        exact ⟨h.mono hle, Or.inl rfl⟩
      · rw [hnew.same_eq_false (h.slot nibble).issued hnull, if_neg Bool.false_ne_true]
        have hmeets := collapse_standing hservice own (Slots.set_sound hsound nibble updated)
          (Standing.set (fun slot ↦ (h.slot slot).mono hle) nibble hupdated) hown
        exact hmeets.mono fun _ _ _ hfolded ↦ ⟨hfolded.1, Or.inr ⟨rfl, hfolded.2.mono hle⟩⟩
  | case8 stamp hash key ih =>
      rw [erase_stored]
      refine h.meets_load hservice fun node later hle hnode hserved ↦ ?_
      refine Walk.Meets.bind ((ih node hnode).mono ?_)
      intro last updated hlast hmet
      obtain ⟨hupdated, rfl | ⟨hnull, hnew⟩⟩ := hmet
      · rw [same_self, if_pos rfl]
        exact ⟨h.mono (Nat.le_trans hle hlast), Or.inl rfl⟩
      · rw [hnew.same_eq_false hnode.issued hnull, if_neg Bool.false_ne_true]
        exact ⟨hupdated, Or.inr ⟨rfl, hnew.mono hle⟩⟩

end Node

end Patricia
