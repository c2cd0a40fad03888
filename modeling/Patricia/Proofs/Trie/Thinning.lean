import Patricia.Proofs.Trie.Way

/-!
# What taking a key away loads

Taking a key away may leave a branch on its way with no value and with one node in its slots, which
then takes the branch's place (`Node.Thins`). If that node is a reference it has to be loaded, for
its path and once more to be moved. In a trie that obeys the rules, an erasure loads the references
on the key's way, then that node, and nothing else (`Node.erases`). This happens once at most, since
what takes the place of a branch is a node again, and the branches above keep their entries.
-/

namespace Patricia

namespace Slots

variable {slots : Slots} {value : Option Bytes}

/-- If there are two entries, some slot is occupied, and no node stands alone without a value. -/
theorem Sound.only?_of_forked (h : slots.Sound) (hforked : slots.Forked value) :
    slots.isEmpty = false ∧ (value ≠ none ∨ slots.only? = none) := by
  obtain ⟨first, hfirst, hmore⟩ := hforked
  refine ⟨Bool.eq_false_iff.mpr fun hempty ↦ ?_, hmore.imp_right fun hother ↦ ?_⟩
  · rw [h.isEmpty_iff.mp hempty first] at hfirst
    cases hfirst
  · obtain ⟨second, hne, hsecond⟩ := hother
    refine Option.eq_none_iff_forall_not_mem.mpr fun found hfound ↦ ?_
    obtain ⟨-, halone⟩ := h.only?_eq_some_iff.mp hfound
    exact hne (((halone second).mp hsecond).trans ((halone first).mp hfirst).symm)

end Slots

namespace Node

/-! ## What becomes of a way -/

/-- There is nothing below the node but the leaf of the key, to which extensions and the references
with these loads lead. -/
inductive Sole : Node → List Nibble → List Load → Prop where
  | leaf {stamp key value} : Sole (.leaf stamp key value) key []
  | along {stamp first lead child key rest loads}
      (hstrip : stripLead? (first :: lead) key = some rest) (hsole : Sole child rest loads) :
      Sole (.extension stamp first lead child) key loads
  | found {stamp hash key heard loads} {node : Resolved} (hsole : Sole node.val key loads) :
      Sole (.stored stamp hash) key (⟨hash, heard, .ok node⟩ :: loads)

/-- Taking the key away leaves a branch on its way with no value and with one node in its slots,
which is the last one here: the branch gives up its value, or the node below it that is the key's
leaf alone. -/
inductive Thins : Node → List Nibble → List Load → Node → Prop where
  | value {stamp occupied slots value place}
      (hslots : ∀ slot, (slots slot).isNull = false ↔ slot = place) :
      Thins (.branch stamp occupied slots (some value)) [] [] (slots place)
  | entry {stamp occupied slots nibble rest loads place} (hsole : Sole (slots nibble) rest loads)
      (hne : place ≠ nibble)
      (hslots : ∀ slot, (slots slot).isNull = false ↔ slot = place ∨ slot = nibble) :
      Thins (.branch stamp occupied slots none) (nibble :: rest) loads (slots place)
  | slot {stamp occupied slots value nibble rest loads left}
      (hthins : Thins (slots nibble) rest loads left) :
      Thins (.branch stamp occupied slots value) (nibble :: rest) loads left
  | along {stamp first lead child key rest loads left}
      (hstrip : stripLead? (first :: lead) key = some rest) (hthins : Thins child rest loads left) :
      Thins (.extension stamp first lead child) key loads left
  | found {stamp hash key heard loads left} {node : Resolved}
      (hthins : Thins node.val key loads left) :
      Thins (.stored stamp hash) key (⟨hash, heard, .ok node⟩ :: loads) left

/-- Moving the node makes these loads: none unless it is a reference. The node behind a reference is
in the cache when it is asked for once more. -/
inductive Moved : Node → List Load → Prop where
  | present {node} (hstored : node.isStored = false) : Moved node []
  | found {stamp hash heard} {node : Resolved} :
      Moved (.stored stamp hash) [⟨hash, heard, .ok node⟩, ⟨hash, none, .ok node⟩]
  | lost {stamp hash heard error} : Moved (.stored stamp hash) [⟨hash, heard, .error error⟩]

/-- The loads beside the way on which a key is taken away: those that move the node left alone in a
branch, when there is one, and otherwise none. -/
structure Beside (node : Node) (key : List Nibble) (way beside : List Load) : Prop where
  moved : ∀ left, node.Thins key way left → left.Moved beside
  nothing : (∀ left, ¬ node.Thins key way left) → beside = []

variable {node child : Node} {key rest : List Nibble} {loads way beside : List Load}

/-- The leaf of a key alone is not nothing. -/
theorem Sole.isNull_eq (h : node.Sole key loads) : node.isNull = false := by
  cases h <;> rfl

/-- Where there is nothing but the key's leaf, there is no branch on the way. -/
theorem Sole.not_thins {left : Node} (h : node.Sole key loads) : ¬ node.Thins key loads left := by
  induction h with
  | leaf => nofun
  | along hstrip _ ih =>
      intro hthins
      cases hthins with
      | along hstrip' hthins =>
          cases hstrip.symm.trans hstrip'
          exact ih hthins
  | found _ ih =>
      intro hthins
      cases hthins with
      | found hthins => exact ih hthins

/-- What is loaded beside a way does not depend on where the way is looked at, if the same branch
is thinned. -/
theorem Beside.of_iff {other : Node} {key' : List Nibble} {way' : List Load}
    (h : other.Beside key' way' beside)
    (hthins : ∀ left, node.Thins key way left ↔ other.Thins key' way' left) :
    node.Beside key way beside :=
  ⟨fun left hleft ↦ h.moved left ((hthins left).mp hleft),
    fun hnone ↦ h.nothing fun left hleft ↦ hnone left ((hthins left).mpr hleft)⟩

/-- Nothing is loaded beside a way on which nothing is thinned. -/
theorem Beside.of_not_thins (h : ∀ left, ¬ node.Thins key way left) : node.Beside key way [] :=
  ⟨fun left hleft ↦ (h left hleft).elim, fun _ ↦ rfl⟩

/-- Two loads are made beside a way at most, and the store is asked once at most. -/
theorem Beside.length_le (h : node.Beside key way beside) :
    beside.length ≤ 2 ∧ (Load.reads beside).length ≤ 1 := by
  by_cases hthins : ∃ left, node.Thins key way left
  · obtain ⟨left, hleft⟩ := hthins
    cases h.moved left hleft with
    | present => exact ⟨Nat.zero_le _, Nat.zero_le _⟩
    | @found _ _ heard _ => cases heard <;> exact ⟨Nat.le_refl _, by simp [Load.reads]⟩
    | @lost _ _ heard _ => cases heard <;> exact ⟨Nat.le_succ _, by simp [Load.reads]⟩
  · push Not at hthins
    rw [h.nothing hthins]
    exact ⟨Nat.zero_le _, Nat.zero_le _⟩

open BackedTrie (Lawful)

variable {σ : Type} [NodeStore σ] {loader later : Loader} {store after : σ} {lead : List Nibble}
  {first : Nibble}

/-! ## Erasures -/

/-- A reference is moved by moving the node behind it, which is in the cache when it is asked for
once more. -/
theorem graft_stored_ok {stamp : Stamp} {hash : Hash} {read : Resolved}
    (h : (⟨loader, .stored stamp hash⟩ : BackedTrie).Lawful)
    (hload : loader.load store hash = (.ok read, later, after)) :
    ∃ again, ((stored stamp hash).graft (first :: lead)).run loader store =
        (read.val.graft (first :: lead)).run again after ∧
      ((stored stamp hash).graft (first :: lead)).loads loader store =
        [⟨hash, loader.heard store hash, .ok read⟩, ⟨hash, none, .ok read⟩] := by
  obtain ⟨-, -, hcached, howner⟩ := h.load hload
  obtain ⟨hagain, hheard⟩ := Loader.load_of_hit after
    (Loader.lookUp_eq_some_iff.mpr ⟨hcached, rfl⟩)
  rw [graft_stored, Walk.run_load_ok h.home_eq hload, Walk.run_load_ok howner hagain,
    Walk.loads_load_ok h.home_eq hload, Walk.loads_load_ok howner hagain, hheard, reroot_after,
    loads_graft read.property]
  exact ⟨_, rfl, rfl⟩

/-- Moving a node makes the loads that it has to. -/
theorem graft_moved (h : (⟨loader, node⟩ : BackedTrie).Lawful) (store : σ) (first : Nibble)
    (lead : List Nibble) : node.Moved ((node.graft (first :: lead)).loads loader store) := by
  cases hstored : node.isStored with
  | false =>
      rw [loads_graft hstored]
      exact .present hstored
  | true =>
      cases node with
      | null | leaf | extension | branch => cases hstored
      | stored stamp hash =>
          rcases hload : loader.load store hash with ⟨error | node, later, after⟩
          · rw [graft_stored, Walk.loads_load_error h.home_eq hload]
            exact .lost
          · obtain ⟨again, -, hloads⟩ := graft_stored_ok h hload
            rw [hloads]
            exact .found

/-- A node that was moved is not empty unless it was. -/
theorem graft_ne_null (h : (⟨loader, node⟩ : BackedTrie).Lawful) (hnull : node.isNull = false)
    (store : σ) (first : Nibble) (lead : List Nibble) :
    ((node.graft (first :: lead)).run loader store).1 ≠ .ok .null := by
  intro hrun
  obtain ⟨-, -, -, -, hmoved⟩ :=
    h.run_ok (graft_standing Service.lawful_steady first lead h.standing)
    (Prod.ext hrun rfl)
  cases hmoved hnull

section Branch

variable {stamp : Stamp} {occupied : BitVec 16} {slots : Nibble → Node} {nibble : Nibble}
  {value : Bytes} {own : Option Bytes} {table : Slots} {way : List Load} {left : Node}

/-- A branch that gives up its value is thinned if a node stands alone in its slots. -/
theorem thins_nil_iff (hsound : (Slots.mk occupied slots).Sound) :
    (branch stamp occupied slots (some value)).Thins [] [] left ↔
      (none : Option Bytes) = none ∧
        ∃ place, (Slots.mk occupied slots).only? = some (place, left) := by
  constructor
  · intro hthins
    cases hthins with
    | value hslots => exact ⟨rfl, _, hsound.only?_eq_some_iff.mpr ⟨rfl, hslots⟩⟩
  · rintro ⟨-, place, honly⟩
    obtain ⟨rfl, hslots⟩ := hsound.only?_eq_some_iff.mp honly
    exact .value hslots

/-- A branch that gives up the key's leaf is thinned if it has no value and a node stands alone in
the other slots. -/
theorem thins_cons_iff_of_sole (hsound : (Slots.mk occupied slots).Sound)
    (hsole : (slots nibble).Sole rest way) :
    (branch stamp occupied slots own).Thins (nibble :: rest) way left ↔
      own = none ∧ ∃ place, ((Slots.mk occupied slots).set nibble null).only? =
        some (place, left) := by
  have hset : ∀ slot, ((Slots.mk occupied slots).set nibble null).node slot =
      if slot = nibble then null else slots slot := fun slot ↦ Slots.node_set _ _ _ _
  have hsound' := Slots.set_sound hsound nibble null
  constructor
  · intro hthins
    cases hthins with
    | slot hthins => exact (hsole.not_thins hthins).elim
    | @entry _ _ _ _ _ _ place _ hne hslots =>
        refine ⟨rfl, place, hsound'.only?_eq_some_iff.mpr ⟨?_, fun slot ↦ ?_⟩⟩
        · rw [hset, if_neg hne]
        · rw [hset]
          by_cases heq : slot = nibble
          · rw [if_pos heq, heq]
            exact ⟨nofun, fun hplace ↦ (hne hplace.symm).elim⟩
          · rw [if_neg heq, hslots, or_iff_left heq]
  · rintro ⟨rfl, place, honly⟩
    obtain ⟨rfl, halone⟩ := hsound'.only?_eq_some_iff.mp honly
    have hne : place ≠ nibble := by
      rintro rfl
      have hplace := (halone place).mpr rfl
      rw [hset, if_pos rfl] at hplace
      cases hplace
    rw [hset, if_neg hne]
    refine .entry hsole hne fun slot ↦ ?_
    by_cases heq : slot = nibble
    · rw [heq, hsole.isNull_eq]
      exact ⟨fun _ ↦ Or.inr rfl, fun _ ↦ rfl⟩
    · rw [← halone, hset, if_neg heq, or_iff_left heq]

/-- A branch below which more than the key's leaf goes on is thinned where the node below it is. -/
theorem thins_cons_iff_of_not_sole (hsole : ¬ (slots nibble).Sole rest way) :
    (branch stamp occupied slots own).Thins (nibble :: rest) way left ↔
      (slots nibble).Thins rest way left := by
  constructor
  · intro hthins
    cases hthins with
    | slot hthins => exact hthins
    | entry hsole' => exact (hsole hsole').elim
  · exact .slot

/-- Folding a branch makes the loads that move the node left alone in it. -/
theorem collapse_beside (hsound : table.Sound)
    (h : ∀ slot, (⟨loader, table.node slot⟩ : BackedTrie).Lawful) (store : σ)
    (hsome : own ≠ none ∨ table.isEmpty = false)
    (hthins : ∀ left, node.Thins key way left ↔
      own = none ∧ ∃ place, table.only? = some (place, left)) :
    node.Beside key way ((collapse table own).loads loader store) := by
  cases hempty : table.isEmpty with
  | true =>
      have hown : own ≠ none := hsome.resolve_right (by rw [hempty]; nofun)
      obtain ⟨bytes, rfl⟩ := Option.ne_none_iff_exists'.mp hown
      rw [collapse_empty_some bytes hempty]
      exact .of_not_thins fun left hleft ↦ hown ((hthins left).mp hleft).1
  | false =>
      by_cases honly : own ≠ none ∨ table.only? = none
      · rw [collapse_forked hempty honly]
        refine .of_not_thins fun left hleft ↦ ?_
        obtain ⟨hown, place, hplace⟩ := (hthins left).mp hleft
        rw [hplace] at honly
        exact honly.elim (· hown) nofun
      · push Not at honly
        obtain ⟨rfl, hne⟩ := honly
        obtain ⟨⟨place, child⟩, hplace⟩ := Option.ne_none_iff_exists'.mp hne
        rw [collapse_only hempty hplace]
        have hmoved : child.Moved ((child.graft [place]).loads loader store) := by
          obtain ⟨rfl, -⟩ := hsound.only?_eq_some_iff.mp hplace
          exact graft_moved (h place) store place []
        refine ⟨fun left hleft ↦ ?_, fun hnone ↦
          (hnone child ((hthins child).mpr ⟨rfl, place, hplace⟩)).elim⟩
        obtain ⟨-, place', hplace'⟩ := (hthins left).mp hleft
        cases hplace.symm.trans hplace'
        exact hmoved

/-- A branch in which a slot is given another node stays a branch. -/
theorem collapse_set (hsound : (Slots.mk occupied slots).Sound)
    (hforked : (Slots.mk occupied slots).Forked own) {updated : Node}
    (hupdated : updated.isNull = false) :
    collapse ((Slots.mk occupied slots).set nibble updated) own =
      Walk.newBranch ((Slots.mk occupied slots).set nibble updated) own := by
  obtain ⟨hempty, honly⟩ :=
    (Slots.set_sound hsound nibble updated).only?_of_forked (hforked.set nibble hupdated)
  exact collapse_forked hempty honly

/-- Something is left of a folded branch if it has anything. -/
theorem collapse_ne_null (hsound : table.Sound)
    (h : ∀ slot, (⟨loader, table.node slot⟩ : BackedTrie).Lawful) (store : σ)
    (hsome : own ≠ none ∨ table.isEmpty = false) :
    ((collapse table own).run loader store).1 ≠ .ok .null := by
  cases hempty : table.isEmpty with
  | true =>
      have hown : own ≠ none := hsome.resolve_right (by rw [hempty]; nofun)
      obtain ⟨bytes, rfl⟩ := Option.ne_none_iff_exists'.mp hown
      rw [collapse_empty_some bytes hempty]
      nofun
  | false =>
      by_cases honly : own ≠ none ∨ table.only? = none
      · rw [collapse_forked hempty honly]
        nofun
      · push Not at honly
        obtain ⟨rfl, hne⟩ := honly
        obtain ⟨⟨place, child⟩, hplace⟩ := Option.ne_none_iff_exists'.mp hne
        rw [collapse_only hempty hplace]
        obtain ⟨rfl, halone⟩ := hsound.only?_eq_some_iff.mp hplace
        exact graft_ne_null (h place) ((halone place).mpr rfl) store place []

end Branch

/-- What taking a key away loads: what lies on the key's way, and what it has to beside. Nothing is
left exactly if there was nothing but the key's leaf. -/
structure Erases (node : Node) (key : List Nibble) (loader : Loader) (store : σ) : Prop where
  loads : ∃ beside, (node.erase key).loads loader store =
      (node.find? key).loads loader store ++ beside ∧
    node.Beside key ((node.find? key).loads loader store) beside
  sole : node.isNull = false → (node.Sole key ((node.find? key).loads loader store) ↔
    ((node.erase key).run loader store).1 = .ok .null)

/-- An erasure in a lawful trie gives back the very node, or something else in place of a node that
is not empty, which is no reference. -/
theorem erase_run_ok (h : (⟨loader, node⟩ : BackedTrie).Lawful) {updated : Node}
    (hrun : (node.erase key).run loader store = (.ok updated, later, after)) :
    (⟨later, updated⟩ : BackedTrie).Lawful ∧
      (∀ other, (⟨loader, other⟩ : BackedTrie).Lawful → (⟨later, other⟩ : BackedTrie).Lawful) ∧
      (updated = node ∨
        updated.same node = false ∧ node.isNull = false ∧ updated.isStored = false) := by
  obtain ⟨howner, hserves, hle, hstanding, hupdated⟩ :=
    h.run_ok (erase_standing Service.lawful_steady key h.standing) hrun
  refine ⟨.of_standing howner hserves hstanding,
    fun other hother ↦ .of_standing howner hserves (hother.standing.mono hle), ?_⟩
  refine hupdated.imp_right ?_
  rintro ⟨hnull, hnew⟩
  exact ⟨hnew.same_eq_false h.standing.issued hnull, hnull, hnew.isStored_eq⟩

namespace Erases

variable {stamp : Stamp} {occupied : BitVec 16} {slots : Nibble → Node} {nibble : Nibble}
  {own : Option Bytes} {hash : Hash}

/-- What is erased below an extension is erased in the extension. -/
theorem along (h : (⟨loader, .extension stamp first lead child⟩ : BackedTrie).Lawful)
    (hstrip : stripLead? (first :: lead) key = some rest)
    (hchild : child.Erases rest loader store) :
    (extension stamp first lead child).Erases key loader store := by
  have hlawful : (⟨loader, child⟩ : BackedTrie).Lawful := h.child
  have hnull : child.isNull = false := h.standing.proper.1
  obtain ⟨⟨beside, hloads, hbeside⟩, hsole⟩ := hchild
  have hfind : (extension stamp first lead child).find? key = child.find? rest := by
    rw [find?_extension, hstrip]
  have herase : (extension stamp first lead child).erase key = (do
      let updated ← child.erase rest
      if updated.same child then pure (.extension stamp first lead child)
      else updated.graft (first :: lead)) := by
    rw [erase_extension, hstrip]
  constructor
  · rw [hfind]
    refine ⟨beside, ?_, hbeside.of_iff fun left ↦ ⟨fun hthins ↦ ?_, .along hstrip⟩⟩
    · rw [herase, ← hloads]
      refine Walk.loads_bind_of_nil fun updated later after hrun ↦ ?_
      obtain ⟨-, -, rfl | ⟨hsame, -, hstored⟩⟩ := erase_run_ok hlawful hrun
      · rw [same_self, if_pos rfl]
        rfl
      · rw [hsame, if_neg Bool.false_ne_true]
        exact loads_graft hstored first lead later after
    · cases hthins with
      | along hstrip' hthins =>
          cases hstrip.symm.trans hstrip'
          exact hthins
  · intro _
    rw [hfind, herase, Walk.run_bind_eq_ok]
    constructor
    · intro hthere
      cases hthere with
      | along hstrip' hthere =>
          cases hstrip.symm.trans hstrip'
          refine ⟨null, _, _, Prod.ext ((hsole hnull).mp hthere) rfl, ?_⟩
          have hsame : null.same child = false := by cases child <;> first | rfl | cases hnull
          rw [hsame, if_neg Bool.false_ne_true]
          rfl
    · rintro ⟨updated, later, after, hrun, hresult⟩
      refine .along hstrip ((hsole hnull).mpr ?_)
      rw [hrun]
      obtain ⟨hupdated, -, rfl | ⟨hsame, -, -⟩⟩ := erase_run_ok hlawful hrun
      · rw [same_self, if_pos rfl] at hresult
        cases hresult
      · rw [hsame, if_neg Bool.false_ne_true] at hresult
        cases hempty : updated.isNull with
        | true => cases updated <;> first | rfl | cases hempty
        | false => exact (graft_ne_null hupdated hempty after first lead hresult).elim

/-- What is erased behind a reference is erased at the reference. -/
theorem found (h : (⟨loader, .stored stamp hash⟩ : BackedTrie).Lawful) {read : Resolved}
    (hload : loader.load store hash = (.ok read, later, after))
    (hread : read.val.Erases key later after) :
    (stored stamp hash).Erases key loader store := by
  obtain ⟨hlawful, hnull, -, -⟩ := h.load hload
  obtain ⟨⟨beside, hloads, hbeside⟩, hsole⟩ := hread
  have hway : ((stored stamp hash).find? key).loads loader store =
      ⟨hash, loader.heard store hash, .ok read⟩ :: (read.val.find? key).loads later after := by
    rw [find?_stored, Walk.loads_load_ok h.home_eq hload]
  constructor
  · refine ⟨beside, ?_, ?_⟩
    · rw [hway, erase_stored, Walk.loads_load_ok h.home_eq hload, List.cons_append, ← hloads]
      refine congrArg (List.cons _) (Walk.loads_bind_of_nil fun updated last other hrun ↦ ?_)
      split <;> rfl
    · rw [hway]
      refine hbeside.of_iff fun left ↦ ⟨fun hthins ↦ ?_, .found⟩
      cases hthins with
      | found hthins => exact hthins
  · intro _
    rw [hway, erase_stored, Walk.run_load_ok h.home_eq hload, Walk.run_bind_eq_ok]
    constructor
    · intro hthere
      cases hthere with
      | found hthere =>
          refine ⟨null, _, _, Prod.ext ((hsole hnull).mp hthere) rfl, ?_⟩
          have hsame : null.same read.val = false := by
            cases heq : read.val <;> first | rfl | (rw [heq] at hnull; cases hnull)
          rw [hsame, if_neg Bool.false_ne_true]
          rfl
    · rintro ⟨updated, last, other, hrun, hresult⟩
      refine .found ((hsole hnull).mpr ?_)
      rw [hrun]
      split at hresult
      · cases hresult
      · exact hresult

/-- A branch that gives up its value is folded. -/
theorem value {bytes : Bytes}
    (h : (⟨loader, .branch stamp occupied slots (some bytes)⟩ : BackedTrie).Lawful) :
    (branch stamp occupied slots (some bytes)).Erases [] loader store := by
  obtain ⟨hsound, hforked, -⟩ := h.standing.proper.1
  have hslots : ∀ slot, (⟨loader, slots slot⟩ : BackedTrie).Lawful := h.slot
  have hsome : (none : Option Bytes) ≠ none ∨ (Slots.mk occupied slots).isEmpty = false :=
    Or.inr (hsound.only?_of_forked hforked).1
  constructor
  · rw [erase_branch_some, find?_branch_nil]
    exact ⟨_, rfl, collapse_beside hsound hslots store hsome fun left ↦ thins_nil_iff hsound⟩
  · intro _
    rw [erase_branch_some]
    exact ⟨nofun, fun hnull ↦ (collapse_ne_null hsound hslots store hsome hnull).elim⟩

/-- A branch in which a slot gives up the key's leaf, with nothing else below, is folded. -/
theorem slot_of_sole (h : (⟨loader, .branch stamp occupied slots own⟩ : BackedTrie).Lawful)
    (hslot : (slots nibble).Erases rest loader store)
    (hthere : (slots nibble).Sole rest (((slots nibble).find? rest).loads loader store)) :
    (branch stamp occupied slots own).Erases (nibble :: rest) loader store := by
  obtain ⟨hsound, hforked, -⟩ := h.standing.proper.1
  have hnull := hthere.isNull_eq
  obtain ⟨⟨beside, hloads, hbeside⟩, hsole⟩ := hslot
  obtain rfl := hbeside.nothing fun left ↦ hthere.not_thins
  have hresult := (hsole hnull).mp hthere
  rcases hrun : ((slots nibble).erase rest).run loader store with ⟨outcome, later, after⟩
  rw [hrun] at hresult
  obtain rfl : outcome = .ok .null := hresult
  obtain ⟨hempty, hothers, -⟩ := erase_run_ok (h.slot nibble) hrun
  have hsame : null.same (slots nibble) = false := by
    cases heq : slots nibble <;> first | rfl | (rw [heq] at hnull; cases hnull)
  -- What is left of the branch: the other slots and its value.
  have hsound' := Slots.set_sound hsound nibble null
  have hslots : ∀ slot, (⟨later, ((Slots.mk occupied slots).set nibble null).node slot⟩ :
      BackedTrie).Lawful := by
    intro slot
    rw [Slots.node_set]
    split
    · exact hempty
    · exact hothers _ (h.slot slot)
  have hsome : own ≠ none ∨ ((Slots.mk occupied slots).set nibble null).isEmpty = false := by
    by_cases hown : own = none
    · refine Or.inr (Bool.eq_false_iff.mpr fun hempty ↦ ?_)
      have hleft : ∀ slot, slot ≠ nibble → (slots slot).isNull = true := fun slot hne ↦ by
        have hslot := hsound'.isEmpty_iff.mp hempty slot
        rwa [Slots.node_set, if_neg hne] at hslot
      obtain ⟨one, hone, hmore⟩ := hforked
      obtain ⟨two, hne, htwo⟩ := hmore.resolve_left (fun hvalue ↦ hvalue hown)
      by_cases heq : one = nibble
      · rw [hleft two (heq ▸ hne)] at htwo
        cases htwo
      · rw [hleft one heq] at hone
        cases hone
    · exact Or.inl hown
  constructor
  · rw [erase_branch_cons, find?_branch_cons, Walk.loads_bind, hloads, hrun, List.append_nil]
    simp only [hsame, if_neg Bool.false_ne_true]
    exact ⟨_, rfl, collapse_beside hsound' hslots after hsome
      fun left ↦ thins_cons_iff_of_sole hsound hthere⟩
  · intro _
    rw [erase_branch_cons, Walk.run_bind, hrun]
    simp only [hsame, if_neg Bool.false_ne_true]
    exact ⟨nofun, fun hnull ↦ (collapse_ne_null hsound' hslots after hsome hnull).elim⟩

/-- A branch in which a slot keeps something stays a branch. -/
theorem slot_of_not_sole (h : (⟨loader, .branch stamp occupied slots own⟩ : BackedTrie).Lawful)
    (hslot : (slots nibble).Erases rest loader store)
    (hthere : ¬ (slots nibble).Sole rest (((slots nibble).find? rest).loads loader store)) :
    (branch stamp occupied slots own).Erases (nibble :: rest) loader store := by
  obtain ⟨hsound, hforked, -⟩ := h.standing.proper.1
  obtain ⟨⟨beside, hloads, hbeside⟩, hsole⟩ := hslot
  -- Two entries are left, so that the branch is given back or made anew.
  have htail : ∀ updated later (after : σ),
      ((slots nibble).erase rest).run loader store = (.ok updated, later, after) →
      (if updated.same (slots nibble) then pure (.branch stamp occupied slots own)
        else collapse ((Slots.mk occupied slots).set nibble updated) own : Walk Node) =
          pure (.branch stamp occupied slots own) ∨
      (if updated.same (slots nibble) then pure (.branch stamp occupied slots own)
        else collapse ((Slots.mk occupied slots).set nibble updated) own : Walk Node) =
          Walk.newBranch ((Slots.mk occupied slots).set nibble updated) own := by
    intro updated later after hrun
    obtain ⟨-, -, rfl | ⟨hsame, hnull, -⟩⟩ :=
      erase_run_ok (h.slot nibble) hrun
    · rw [same_self, if_pos rfl]
      exact Or.inl rfl
    · have hupdated : updated.isNull = false := by
        cases hempty : updated.isNull with
        | false => rfl
        | true =>
            refine absurd ((hsole hnull).mpr ?_) hthere
            rw [hrun]
            cases updated <;> first | rfl | cases hempty
      rw [hsame, if_neg Bool.false_ne_true]
      exact Or.inr (collapse_set hsound hforked hupdated)
  constructor
  · rw [erase_branch_cons, find?_branch_cons]
    refine ⟨beside, ?_, hbeside.of_iff fun left ↦ thins_cons_iff_of_not_sole hthere⟩
    rw [← hloads]
    refine Walk.loads_bind_of_nil fun updated later after hrun ↦ ?_
    rcases htail updated later after hrun with heq | heq <;> rw [heq] <;> rfl
  · intro _
    rw [erase_branch_cons, Walk.run_bind_eq_ok]
    refine ⟨nofun, ?_⟩
    rintro ⟨updated, later, after, hrun, hresult⟩
    rcases htail updated later after hrun with heq | heq <;> rw [heq] at hresult <;> cases hresult

/-- Where a node neither is thinned nor goes, an erasure does what a lookup does. -/
theorem unmoved
    (hloads : (node.erase key).loads loader store = (node.find? key).loads loader store)
    (hthins : ∀ left, ¬node.Thins key ((node.find? key).loads loader store) left)
    (hsole : ¬node.Sole key ((node.find? key).loads loader store))
    (hleft : ((node.erase key).run loader store).1 ≠ .ok .null) : node.Erases key loader store :=
  ⟨⟨[], by rw [hloads, List.append_nil], .of_not_thins hthins⟩,
    fun _ ↦ iff_of_false hsole hleft⟩

end Erases

/-- In a trie that obeys the rules, taking a key away loads what lies on the key's way, and what it
has to beside. -/
theorem erases (h : (⟨loader, node⟩ : BackedTrie).Lawful) (store : σ) (key : List Nibble) :
    node.Erases key loader store := by
  induction node, key using Node.erase.induct generalizing loader store with
  | case1 key =>
      constructor
      · rw [erase_null, find?_null]
        refine ⟨[], rfl, .of_not_thins ?_⟩
        rintro left ⟨⟩
      · rintro ⟨⟩
  | case2 stamp path value key =>
      constructor
      · rw [erase_leaf, find?_leaf]
        refine ⟨[], rfl, .of_not_thins ?_⟩
        rintro left ⟨⟩
      · intro _
        rw [erase_leaf, find?_leaf]
        by_cases hpath : path = key
        · subst hpath
          rw [if_pos rfl, if_pos rfl]
          exact ⟨fun _ ↦ rfl, fun _ ↦ .leaf⟩
        · rw [if_neg hpath, if_neg hpath]
          refine ⟨fun hthere ↦ ?_, fun hnull ↦ by cases hnull⟩
          cases hthere
          exact (hpath rfl).elim
  | case3 stamp first lead child key hstrip =>
      refine .unmoved ?_ (fun left hthins ↦ ?_) (fun hthere ↦ ?_) ?_
      · rw [erase_extension, find?_extension, hstrip]
        rfl
      · cases hthins with
        | along hstrip' => cases hstrip.symm.trans hstrip'
      · cases hthere with
        | along hstrip' => cases hstrip.symm.trans hstrip'
      · rw [erase_extension, hstrip]
        rintro ⟨⟩
  | case4 stamp first lead child key rest hstrip hlt ih =>
      exact .along h hstrip (ih h.child store)
  | case5 stamp occupied slots =>
      refine .unmoved ?_ ?_ ?_ ?_
      · rw [erase_branch_none, find?_branch_nil]
        rfl
      · rintro left ⟨⟩
      · rintro ⟨⟩
      · rw [erase_branch_none]
        rintro ⟨⟩
  | case6 stamp occupied slots value => exact .value h
  | case7 stamp occupied slots own nibble rest ih =>
      have hslot := ih (h.slot nibble) store
      by_cases hthere : (slots nibble).Sole rest (((slots nibble).find? rest).loads loader store)
      · exact .slot_of_sole h hslot hthere
      · exact .slot_of_not_sole h hslot hthere
  | case8 stamp hash key ih =>
      rcases hload : loader.load store hash with ⟨error | read, later, after⟩
      · have hway : ((stored stamp hash).find? key).loads loader store =
            [⟨hash, loader.heard store hash, .error error⟩] := by
          rw [find?_stored, Walk.loads_load_error h.home_eq hload]
        refine .unmoved ?_ ?_ ?_ ?_
        · rw [hway, erase_stored, Walk.loads_load_error h.home_eq hload]
        · rw [hway]
          rintro left ⟨⟩
        · rw [hway]
          rintro ⟨⟩
        · rw [erase_stored, Walk.run_load_error h.home_eq hload]
          rintro ⟨⟩
      · exact .found h hload (ih read (h.load hload).1 after)

/-- A key has a value if it has a leaf with nothing beside it, or if taking it away thins a
branch. -/
theorem find?_of_thins
    (h : node.Sole key ((node.find? key).loads loader store) ∨
      ∃ left, node.Thins key ((node.find? key).loads loader store) left) :
    ∃ value, ((node.find? key).run loader store).1 = .ok (some value) := by
  induction node, key using Node.find?.induct generalizing loader store with
  | case1 key => rcases h with hthere | ⟨left, hthere⟩ <;> cases hthere
  | case2 stamp path value key =>
      rw [find?_leaf] at h ⊢
      rcases h with hthere | ⟨left, hthere⟩ <;> cases hthere
      exact ⟨value, by rw [if_pos rfl]; rfl⟩
  | case3 stamp first lead child key hstrip =>
      rcases h with hthere | ⟨left, hthere⟩ <;> cases hthere with
      | along hstrip' => cases hstrip.symm.trans hstrip'
  | case4 stamp first lead child key rest hstrip hlt ih =>
      have hfind : (extension stamp first lead child).find? key = child.find? rest := by
        rw [find?_extension, hstrip]
      rw [hfind] at h ⊢
      refine ih (h.imp (fun hthere ↦ ?_) fun hthere ↦ ?_)
      · cases hthere with
        | along hstrip' hthere =>
            cases hstrip.symm.trans hstrip'
            exact hthere
      · obtain ⟨left, hthere⟩ := hthere
        cases hthere with
        | along hstrip' hthere =>
            cases hstrip.symm.trans hstrip'
            exact ⟨left, hthere⟩
  | case5 stamp occupied slots value =>
      rw [find?_branch_nil] at h ⊢
      rcases h with hthere | ⟨left, hthere⟩ <;> cases hthere
      exact ⟨_, rfl⟩
  | case6 stamp occupied slots value nibble rest ih =>
      rw [find?_branch_cons] at h ⊢
      rcases h with hthere | ⟨left, hthere⟩
      · cases hthere
      · cases hthere with
        | entry hthere => exact ih (Or.inl hthere)
        | slot hthere => exact ih (Or.inr ⟨left, hthere⟩)
  | case7 stamp hash key ih =>
      rw [find?_stored] at h ⊢
      by_cases howner : stamp.owner = loader.owner
      · rcases hload : loader.load store hash with ⟨error | read, later, after⟩
        · rw [Walk.loads_load_error howner hload] at h
          rcases h with hthere | ⟨left, hthere⟩ <;> cases hthere
        · rw [Walk.loads_load_ok howner hload] at h
          rw [Walk.run_load_ok howner hload]
          refine ih read (h.imp (fun hthere ↦ ?_) fun hthere ↦ ?_)
          · cases hthere with
            | found hthere => exact hthere
          · obtain ⟨left, hthere⟩ := hthere
            cases hthere with
            | found hthere => exact ⟨left, hthere⟩
      · rw [Walk.loads, if_neg howner] at h
        rcases h with hthere | ⟨left, hthere⟩ <;> cases hthere

end Node

end Patricia
