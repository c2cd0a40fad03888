import Patricia.Proofs.Guarded.Nodes

/-!
# Lookups and updates with every precondition tested

Going down a trie by the symbols of a key, a walk looks at the next symbol, cuts the key behind what
it has passed, looks into a slot by its number, and parts paths where they differ. The walks that
test each of these steps do the same as those that go by nibbles (`Guarded.find?_eq`,
`Guarded.insert_eq`, `Guarded.erase_eq`): what is left of a key has its terminator at the end and
nowhere else, so there is always a symbol to look at, and the terminator is never passed.
-/

namespace Patricia.Guarded

open Walk (tested given)

/-! ## Lookups -/

/-- How far a walk under a node can still go. -/
def distance (node : Node) (key : Symbols) : Nat :=
  2 * key.length + if node.isStored then 1 else 0

/-- A key that was cut leaves less to go. -/
theorem distance_lt_of_slice (child node : Node) {key rest : Symbols} {position : Nat}
    (h : key.slice (.included position) .unbounded = .ok rest) (hpos : 0 < position) :
    distance child rest < distance node key := by
  have hlt := Symbols.length_lt_of_slice h hpos
  unfold distance
  split <;> split <;> omega

/-- A resolved node is closer than the reference to it. -/
theorem distance_lt_of_stored (stamp : Stamp) (hash : Hash) (node : Resolved) (key : Symbols) :
    distance node.val key < distance (.stored stamp hash) key := by
  rw [distance, node.property, distance, Node.isStored]
  simp

/-- The value of the key whose remaining symbols are given. -/
def find? (node : Node) (key : Symbols) : Walk (Option Bytes) :=
  match node with
  | .null => pure none
  | .leaf _ path value => pure (if (Path.mk path true).symbols = key then some value else none)
  | .extension _ first rest child =>
      if key.sharedLength (Path.mk (first :: rest) false).symbols <
          (Path.mk (first :: rest) false).symbols.length then pure none
      else
        given (key.slice (.included (Path.mk (first :: rest) false).symbols.length) .unbounded)
          fun rest _ ↦ find? child rest
  | .branch _ occupied slots value =>
      given (key.at? 0) fun symbol _ ↦
        if symbol = terminator then pure value
        else
          given ((Slots.mk occupied slots).nodeAt symbol.toNat) fun child _ ↦
            given (key.slice (.included 1) .unbounded) fun rest _ ↦ find? child rest
  | .stored stamp hash => .load stamp.owner hash fun node ↦ find? node.val key
termination_by distance node key
decreasing_by
  · exact distance_lt_of_slice _ _ ‹_› (by simp [Path.symbols])
  · exact distance_lt_of_slice _ _ ‹_› Nat.one_pos
  · exact distance_lt_of_stored _ _ _ _

section Keys

variable (nibble : Nibble) (rest : List Nibble)

/-- At the end of a key there is a terminator. -/
theorem at?_nil : (Path.mk [] true).symbols.at? 0 = .ok terminator := rfl

/-- Where a key goes on there is a symbol of a nibble. -/
theorem at?_cons : (Path.mk (nibble :: rest) true).symbols.at? 0 = .ok (nibbleSymbol nibble) := rfl

/-- A key that goes on can be cut behind its first symbol. -/
theorem slice_cons : (Path.mk (nibble :: rest) true).symbols.slice (.included 1) .unbounded =
    .ok (Path.mk rest true).symbols :=
  Symbols.slice_past [] _ (nibbleSymbol nibble)

end Keys

/-- A lookup by symbols is the lookup by nibbles. -/
theorem find?_eq (node : Node) (key : List Nibble) :
    find? node (Path.mk key true).symbols = node.find? key := by
  induction node, key using Node.find?.induct with
  | case1 key => rw [find?, Node.find?_null]
  | case2 stamp path value key =>
      rw [find?, Node.find?_leaf]
      simp only [Path.symbols_inj, Path.mk.injEq, and_true]
  | case3 stamp first lead child key hstrip =>
      rw [find?, if_pos (Path.sharedLength_of_stripLead?_none hstrip), Node.find?_extension, hstrip]
  | case4 stamp first lead child key rest hstrip hlt ih =>
      obtain ⟨hshared, hslice⟩ := Path.slice_of_stripLead?_some hstrip
      rw [find?, if_neg hshared, Walk.given_of_ok hslice, ih, Node.find?_extension, hstrip]
  | case5 stamp occupied slots value =>
      rw [find?, Walk.given_of_ok at?_nil, if_pos rfl, Node.find?_branch_nil]
  | case6 stamp occupied slots value nibble rest ih =>
      rw [find?, Walk.given_of_ok (at?_cons nibble rest),
        if_neg (nibbleSymbol_ne_terminator nibble),
        Walk.given_of_ok (nodeAt_eq nibble occupied slots),
        Walk.given_of_ok (slice_cons nibble rest), ih, Node.find?_branch_cons]
  | case7 stamp hash key ih =>
      rw [find?, Node.find?_stored]
      exact congrArg (Walk.load stamp.owner hash) (funext ih)

/-! ## Insertions -/

/-- The branch's slots and value with what is left of a node behind the symbols that its path shares
with a key. -/
def oldSide (node : Node) (lead : Symbols) (common : Nat) : Walk (Slots × Option Bytes) := do
  let symbol ← tested (lead.at? common)
  if symbol = terminator then return (.empty, ← value node)
  else
    let child ← reroot node (← tested (lead.slice (.included (common + 1)) .unbounded))
    return (← tested (Slots.empty.setAt symbol.toNat child), none)

/-- The branch's slots and value with what is left of a key behind the symbols that it shares with
the path of a node. -/
def newSide (key : Symbols) (common : Nat) (bytes : Bytes) (slots : Slots) (own : Option Bytes) :
    Walk (Slots × Option Bytes) := do
  let symbol ← tested (key.at? common)
  if symbol = terminator then return (slots, some bytes)
  else
    let leaf ← newLeaf (← tested (key.slice (.included (common + 1)) .unbounded)) bytes
    return (← tested (slots.setAt symbol.toNat leaf), own)

/-- The branch over a node and a key that leaves its path, under an extension for what they share.
-/
def part (node : Node) (lead key : Symbols) (bytes : Bytes) : Walk Node := do
  let common := lead.sharedLength key
  let (slots, own) ← oldSide node lead common
  let (slots, own) ← newSide key common bytes slots own
  let branch ← Walk.newBranch slots own
  if common = 0 then pure branch
  else newExtension (← tested (key.slice .unbounded (.excluded common))) branch

/-- The node in which the key with these remaining symbols has the value. -/
def insert (node : Node) (key : Symbols) (bytes : Bytes) : Walk Node :=
  match node with
  | .null => newLeaf key bytes
  | .leaf stamp path old =>
      if (Path.mk path true).symbols = key then newLeaf key bytes
      else part (.leaf stamp path old) (Path.mk path true).symbols key bytes
  | .extension stamp first rest child =>
      if key.sharedLength (Path.mk (first :: rest) false).symbols <
          (Path.mk (first :: rest) false).symbols.length then
        part (.extension stamp first rest child) (Path.mk (first :: rest) false).symbols key bytes
      else
        given (key.slice (.included (Path.mk (first :: rest) false).symbols.length) .unbounded)
          fun below _ ↦ do
            let updated ← insert child below bytes
            if updated.same child then pure (.extension stamp first rest child)
            else graft (Path.mk (first :: rest) false).symbols updated
  | .branch stamp occupied slots own =>
      given (key.at? 0) fun symbol _ ↦
        if symbol = terminator then Walk.newBranch ⟨occupied, slots⟩ (some bytes)
        else
          given ((Slots.mk occupied slots).nodeAt symbol.toNat) fun child _ ↦
            given (key.slice (.included 1) .unbounded) fun below _ ↦ do
              let updated ← insert child below bytes
              if updated.same child then pure (.branch stamp occupied slots own)
              else
                Walk.newBranch (← tested ((Slots.mk occupied slots).setAt symbol.toNat updated)) own
  | .stored stamp hash =>
      .load stamp.owner hash fun node ↦ do
        let updated ← insert node.val key bytes
        if updated.same node.val then pure (.stored stamp hash) else pure updated
termination_by distance node key
decreasing_by
  · exact distance_lt_of_slice _ _ ‹_› (by simp [Path.symbols])
  · exact distance_lt_of_slice _ _ ‹_› Nat.one_pos
  · exact distance_lt_of_stored _ _ _ _

section Parting

variable (shared left right : List Nibble) (old bytes : Bytes) (child : Node)

/-- What is left of a leaf is its value, or a leaf in the slot for the next nibble. -/
theorem oldSide_leaf (stamp : Stamp) (path : List Nibble) :
    oldSide (.leaf stamp path old) (Path.mk (shared ++ left) true).symbols shared.length =
      (do
        let side ← Node.leafSide left old
        return (side.place .empty, side.orValue none)) := by
  rw [Path.symbols_append, ← List.length_map nibbleSymbol, oldSide]
  cases left with
  | nil =>
      rw [Path.symbols_ending, List.map_nil, List.nil_append, Symbols.at?_append, Walk.tested_ok,
        pure_bind, if_pos rfl]
      rfl
  | cons nibble left =>
      rw [Path.symbols_cons, Symbols.at?_append, Walk.tested_ok, pure_bind,
        if_neg (nibbleSymbol_ne_terminator nibble), Symbols.slice_past, Walk.tested_ok, pure_bind,
        reroot_eq]
      simp only [setAt_eq, Walk.tested_ok]
      rfl

/-- What is left of an extension is its child, or an extension to it, in the slot for the next
nibble. -/
theorem oldSide_extension (stamp : Stamp) (first nibble : Nibble) (rest : List Nibble) :
    oldSide (.extension stamp first rest child)
        (Path.mk (shared ++ nibble :: left) false).symbols shared.length =
      (do
        let side ← Node.extensionSide nibble left child
        return (side.place .empty, side.orValue none)) := by
  rw [Path.symbols_append, ← List.length_map nibbleSymbol, oldSide, Path.symbols_cons,
    Symbols.at?_append, Walk.tested_ok, pure_bind, if_neg (nibbleSymbol_ne_terminator nibble),
    Symbols.slice_past, Walk.tested_ok, pure_bind, reroot_eq]
  simp only [setAt_eq, Walk.tested_ok]
  cases left <;> rfl

/-- What is left of a key is the value, or a leaf in the slot for the next nibble. -/
theorem newSide_eq (slots : Slots) (own : Option Bytes) :
    newSide (Path.mk (shared ++ right) true).symbols shared.length bytes slots own =
      (do
        let side ← Node.leafSide right bytes
        return (side.place slots, side.orValue own)) := by
  rw [Path.symbols_append, ← List.length_map nibbleSymbol, newSide]
  cases right with
  | nil =>
      rw [Path.symbols_ending, List.map_nil, List.nil_append, Symbols.at?_append, Walk.tested_ok,
        pure_bind, if_pos rfl]
      rfl
  | cons nibble right =>
      rw [Path.symbols_cons, Symbols.at?_append, Walk.tested_ok, pure_bind,
        if_neg (nibbleSymbol_ne_terminator nibble), Symbols.slice_past, Walk.tested_ok, pure_bind,
        newLeaf_eq]
      simp only [setAt_eq, Walk.tested_ok]
      rfl

variable {shared left right}

/-- A node and a key are parted by what is left of both. -/
theorem part_eq {node : Node} {path : Path} {key : List Nibble} {side : Walk Node.Side}
    (hpath : path ≠ ⟨key, true⟩) (hfork : fork path.nibbles key = ⟨shared, left, right⟩)
    (hside : oldSide node path.symbols shared.length =
      (do
        let side ← side
        return (side.place .empty, side.orValue none))) :
    part node path.symbols (Path.mk key true).symbols bytes =
      (do
        let old ← side
        Node.part shared old (← Node.leafSide right bytes)) := by
  have hcommon := Path.sharedLength_eq_fork hpath
  rw [hfork] at hcommon
  obtain ⟨-, rfl⟩ := eq_append_of_fork hfork
  rw [part, hcommon]
  dsimp only
  rw [hside, bind_assoc]
  refine congrArg (side >>= ·) (funext fun old ↦ ?_)
  rw [pure_bind]
  dsimp only
  rw [newSide_eq, bind_assoc]
  refine congrArg (Node.leafSide right bytes >>= ·) (funext fun new ↦ ?_)
  rw [pure_bind, Node.part]
  refine congrArg (Walk.newBranch _ _ >>= ·) (funext fun branch ↦ ?_)
  cases shared with
  | nil => rfl
  | cons first rest =>
      rw [if_neg (by simp), Path.slice_front, Walk.tested_ok, pure_bind, newExtension_eq]

end Parting

/-- An insertion by symbols is the insertion by nibbles. -/
theorem insert_eq (node : Node) (key : List Nibble) (bytes : Bytes) :
    insert node (Path.mk key true).symbols bytes = node.insert key bytes := by
  induction node, key using Node.insert.induct with
  | case1 key => rw [insert, newLeaf_eq, Node.insert_null]
  | case2 stamp old key => rw [insert, if_pos rfl, newLeaf_eq, Node.insert_leaf, if_pos rfl]
  | case3 stamp path old key hpath =>
      have hne : Path.mk path true ≠ Path.mk key true := by simpa using hpath
      rw [insert, if_neg (fun heq ↦ hne (Path.symbols_inj.mp heq)), Node.insert_leaf,
        if_neg hpath, Node.partLeaf]
      cases hfork : fork path key with
      | mk shared left right =>
          obtain ⟨rfl, -⟩ := eq_append_of_fork hfork
          exact part_eq bytes hne hfork (oldSide_leaf shared left old stamp _)
  | case4 stamp first lead child key shared rest hfork hlt ih =>
      have hstrip : stripLead? (first :: lead) key = some rest :=
        stripLead?_eq_some_iff.mpr (eq_append_of_fork_nil hfork)
      obtain ⟨hshared, hslice⟩ := Path.slice_of_stripLead?_some hstrip
      rw [insert, if_neg hshared, Walk.given_of_ok hslice, ih, Node.insert_within stamp bytes hfork]
      simp only [graft_eq]
  | case5 stamp first lead child key shared nibble left right hfork =>
      obtain ⟨hleft, -⟩ := eq_append_of_fork hfork
      rw [insert, if_pos ((Path.sharedLength_lt_iff_of_fork hfork).mpr (List.cons_ne_nil _ _)),
        Node.insert_outside stamp nibble bytes hfork]
      refine part_eq bytes (by simp) hfork ?_
      rw [hleft]
      exact oldSide_extension shared left child stamp first nibble lead
  | case6 stamp occupied slots own =>
      rw [insert, Walk.given_of_ok at?_nil, if_pos rfl, Node.insert_branch_nil]
  | case7 stamp occupied slots own nibble rest ih =>
      rw [insert, Walk.given_of_ok (at?_cons nibble rest),
        if_neg (nibbleSymbol_ne_terminator nibble),
        Walk.given_of_ok (nodeAt_eq nibble occupied slots),
        Walk.given_of_ok (slice_cons nibble rest), ih, Node.insert_branch_cons]
      simp only [setAt_eq, Walk.tested_ok, pure_bind]
  | case8 stamp hash key ih =>
      rw [insert, Node.insert_stored]
      exact congrArg (Walk.load stamp.owner hash) (funext fun node ↦ by rw [ih])

/-! ## Erasures -/

/-- The node for the entries of a branch that may no longer be two. -/
def collapse (slots : Slots) (own : Option Bytes) : Walk Node :=
  if slots.isEmpty then
    match own with
    | none => pure .null
    | some bytes => newLeaf [terminator] bytes
  else
    match own with
    | some bytes => Walk.newBranch slots (some bytes)
    | none => do
        match ← tested (only? slots) with
        | some (place, child) => reroot child (UInt8.ofNat place :: (← path child))
        | none => Walk.newBranch slots none

/-- The node in which the key with these remaining symbols has no value. -/
def erase (node : Node) (key : Symbols) : Walk Node :=
  match node with
  | .null => pure .null
  | .leaf stamp path value =>
      pure (if (Path.mk path true).symbols = key then .null else .leaf stamp path value)
  | .extension stamp first rest child =>
      if key.sharedLength (Path.mk (first :: rest) false).symbols <
          (Path.mk (first :: rest) false).symbols.length then
        pure (.extension stamp first rest child)
      else
        given (key.slice (.included (Path.mk (first :: rest) false).symbols.length) .unbounded)
          fun below _ ↦ do
            let updated ← erase child below
            if updated.same child then pure (.extension stamp first rest child)
            else graft (Path.mk (first :: rest) false).symbols updated
  | .branch stamp occupied slots own =>
      given (key.at? 0) fun symbol _ ↦
        if symbol = terminator then
          if own.isNone then pure (.branch stamp occupied slots own)
          else collapse ⟨occupied, slots⟩ none
        else
          given ((Slots.mk occupied slots).nodeAt symbol.toNat) fun child _ ↦
            given (key.slice (.included 1) .unbounded) fun below _ ↦ do
              let updated ← erase child below
              if updated.same child then pure (.branch stamp occupied slots own)
              else
                collapse (← tested ((Slots.mk occupied slots).setAt symbol.toNat updated)) own
  | .stored stamp hash =>
      .load stamp.owner hash fun node ↦ do
        let updated ← erase node.val key
        if updated.same node.val then pure (.stored stamp hash) else pure updated
termination_by distance node key
decreasing_by
  · exact distance_lt_of_slice _ _ ‹_› (by simp [Path.symbols])
  · exact distance_lt_of_slice _ _ ‹_› Nat.one_pos
  · exact distance_lt_of_stored _ _ _ _

/-- What is left of a branch is folded. -/
theorem collapse_eq (slots : Slots) (own : Option Bytes) :
    collapse slots own = Node.collapse slots own := by
  rw [collapse.eq_def, Node.collapse.eq_def]
  split
  · cases own with
    | none => rfl
    | some bytes => exact newLeaf_eq [] bytes
  · cases own with
    | some bytes => rfl
    | none =>
        rw [only?_eq, Walk.tested_ok, pure_bind]
        cases slots.only? with
        | none => rfl
        | some found =>
            obtain ⟨place, child⟩ := found
            show (do reroot child (nibbleSymbol place :: (← path child))) = child.graft [place]
            rw [path_eq, Node.graft, bind_assoc]
            refine congrArg (child.path >>= ·) (funext fun own ↦ ?_)
            rw [pure_bind, ← reroot_eq]
            rfl

/-- An erasure by symbols is the erasure by nibbles. -/
theorem erase_eq (node : Node) (key : List Nibble) :
    erase node (Path.mk key true).symbols = node.erase key := by
  induction node, key using Node.erase.induct with
  | case1 key => rw [erase, Node.erase_null]
  | case2 stamp path value key =>
      rw [erase, Node.erase_leaf]
      simp only [Path.symbols_inj, Path.mk.injEq, and_true]
  | case3 stamp first lead child key hstrip =>
      rw [erase, if_pos (Path.sharedLength_of_stripLead?_none hstrip), Node.erase_extension, hstrip]
  | case4 stamp first lead child key rest hstrip hlt ih =>
      obtain ⟨hshared, hslice⟩ := Path.slice_of_stripLead?_some hstrip
      rw [erase, if_neg hshared, Walk.given_of_ok hslice, ih, Node.erase_extension, hstrip]
      simp only [graft_eq]
  | case5 stamp occupied slots =>
      rw [erase, Walk.given_of_ok at?_nil, if_pos rfl, Node.erase_branch_none]
      rfl
  | case6 stamp occupied slots value =>
      rw [erase, Walk.given_of_ok at?_nil, if_pos rfl, Node.erase_branch_some]
      exact collapse_eq _ none
  | case7 stamp occupied slots own nibble rest ih =>
      rw [erase, Walk.given_of_ok (at?_cons nibble rest),
        if_neg (nibbleSymbol_ne_terminator nibble),
        Walk.given_of_ok (nodeAt_eq nibble occupied slots),
        Walk.given_of_ok (slice_cons nibble rest), ih, Node.erase_branch_cons]
      simp only [setAt_eq, Walk.tested_ok, pure_bind, collapse_eq]
  | case8 stamp hash key ih =>
      rw [erase, Node.erase_stored]
      exact congrArg (Walk.load stamp.owner hash) (funext fun node ↦ by rw [ih])

end Patricia.Guarded
