import Patricia.Node.Checked
import Patricia.Proofs.Guarded.Symbols
import Patricia.Proofs.Slots.Occupancy
import Patricia.Proofs.Update.Steps

/-!
# Nodes with every precondition tested

The functions of the namespace `Guarded` follow the operations of a trie step by step, by symbols
where a path is put together or cut and by numbers where a slot is looked into. Each step tests its
precondition, and the walk or the result is a `Breach` if it does not hold. Here they make nodes,
ask them for their path and value, and move them under another path; they do the same as the
functions that go by nibbles (`Guarded.reroot_eq`, `Guarded.graft_eq`, `Guarded.only?_eq`).
-/

namespace Patricia

namespace Walk

variable {α β : Type}

/-- A result whose precondition was tested. -/
def tested : Except Breach α → Walk α
  | .ok result => .done result
  | .error breach => .fail (.breach breach)

/-- Go on with a result whose precondition was tested. What follows may use that it was. -/
def given (outcome : Except Breach α) (next : (result : α) → outcome = .ok result → Walk β) :
    Walk β :=
  match outcome, next with
  | .ok result, next => next result rfl
  | .error breach, _ => .fail (.breach breach)

/-- A precondition that holds lets the result through. -/
@[simp] theorem tested_ok (result : α) : tested (.ok result) = pure result := rfl

/-- A precondition that holds lets the walk go on. -/
theorem given_of_ok {outcome : Except Breach α} {result : α} (h : outcome = .ok result)
    (next : (result : α) → outcome = .ok result → Walk β) :
    given outcome next = next result h := by
  subst h
  rfl

end Walk

/-- The node under another stamp. -/
def Node.withStamp (stamp : Stamp) : Node → Node
  | .null => .null
  | .leaf _ path value => .leaf stamp path value
  | .extension _ first rest child => .extension stamp first rest child
  | .branch _ occupied slots value => .branch stamp occupied slots value
  | .stored _ hash => .stored stamp hash

namespace Guarded

open Walk (tested given)

/-! ## Nodes over symbols -/

/-- A new node over parts that were tested. -/
def newNode (node : Except Breach Node) : Walk Node := do
  let node ← tested node
  .fresh fun stamp ↦ .done (node.withStamp stamp)

/-- A new leaf. Its path has to end a key. -/
def newLeaf (path : Symbols) (value : Bytes) : Walk Node :=
  newNode do Node.leafOver (← Path.ofSymbols path) value

/-- A new extension. Its path must not be empty and has to lead on. -/
def newExtension (path : Symbols) (child : Node) : Walk Node :=
  newNode do Node.extensionOver (← Path.ofSymbols path) child

/-- The symbols of the path of a node, which must not be a reference. -/
def ownPath : Node → Except Breach Symbols
  | .null | .branch .. => .ok []
  | .leaf _ path _ => .ok (Path.mk path true).symbols
  | .extension _ first rest _ => .ok (Path.mk (first :: rest) false).symbols
  | .stored .. => .error .pathOfStored

/-- The symbols of the path of a node or of the node that it refers to. -/
def path (node : Node) : Walk Symbols := do
  tested (ownPath (← node.resolve).val)

/-- The value of the key that ends at a node. -/
def value (node : Node) : Walk (Option Bytes) := do
  match (← node.resolve).val with
  | .null => pure none
  | .leaf _ _ value => pure (some value)
  | .branch _ _ _ value => pure value
  | .extension .. => .fail (.error (.unsupported .valueOfExtension))
  | .stored .. => .fail (.breach .resolvedToStored)

/-- The node put under a path in place of its own. -/
def reroot (node : Node) (path : Symbols) : Walk Node := do
  let node ← node.resolve
  match node.val with
  | .null => pure .null
  | .leaf _ _ value => newLeaf path value
  | .extension _ _ _ child => if path.isEmpty then pure child else newExtension path child
  | .branch .. => if path.isEmpty then pure node.val else newExtension path node.val
  | .stored .. => .fail (.breach .resolvedToStored)

/-- The node with a lead put in front of its path. Nothing may follow a terminator. -/
def graft (lead : Symbols) (node : Node) : Walk Node := do
  reroot node (← tested (lead.join (← path node)))

section Nodes

variable (node : Node) (key lead : List Nibble) (bytes : Bytes)

/-- A leaf over the path of a key is made. -/
theorem newLeaf_eq : newLeaf (Path.mk key true).symbols bytes = Walk.newLeaf key bytes := by
  rw [newLeaf, Path.ofSymbols_symbols]
  rfl

/-- An extension over a path with a first nibble that leads on is made. -/
theorem newExtension_eq (first : Nibble) :
    newExtension (Path.mk (first :: lead) false).symbols node =
      Walk.newExtension first lead node := by
  rw [newExtension, Path.ofSymbols_symbols]
  rfl

/-- A resolved node has a path. -/
theorem ownPath_eq {node : Node} (h : node.isStored = false) :
    ownPath node = .ok node.ownPath.symbols := by
  cases node with
  | null | leaf | extension | branch => rfl
  | stored => cases h

/-- A node's path is found. -/
theorem path_eq : path node = (do return (← node.path).symbols) := by
  rw [path, Node.path, bind_assoc]
  refine congrArg (node.resolve >>= ·) (funext fun resolved ↦ ?_)
  rw [ownPath_eq resolved.property]
  rfl

/-- Only the path without nibbles that leads on has no symbols. -/
theorem isEmpty_symbols (nibbles : List Nibble) :
    (Path.mk nibbles true).symbols.isEmpty = false ∧
      (Path.mk nibbles false).symbols.isEmpty = nibbles.isEmpty := by
  cases nibbles <;> exact ⟨rfl, rfl⟩

/-- Putting a node under a path is the same by symbols, whether the path is one for it or not. -/
theorem reroot_eq (path : Path) : reroot node path.symbols = node.reroot path := by
  have hunder : ∀ child : Node, (if path.symbols.isEmpty then pure child
      else newExtension path.symbols child) = child.underPath path := by
    intro child
    obtain ⟨nibbles, _ | _⟩ := path
    · cases nibbles with
      | nil => rfl
      | cons first rest => exact newExtension_eq child rest first
    · rw [(isEmpty_symbols nibbles).1, newExtension, Path.ofSymbols_symbols]
      cases nibbles <;> rfl
  have hleaf : ∀ bytes : Bytes, newLeaf path.symbols bytes =
      if path.terminated then Walk.newLeaf path.nibbles bytes
      else .fail (.breach .unterminatedLeaf) := by
    intro bytes
    rw [newLeaf, Path.ofSymbols_symbols]
    obtain ⟨nibbles, _ | _⟩ := path <;> rfl
  rw [reroot, Node.reroot]
  refine congrArg (node.resolve >>= ·) (funext fun resolved ↦ ?_)
  obtain ⟨resolved, hresolved⟩ := resolved
  cases resolved with
  | null => rfl
  | leaf stamp own value => exact hleaf value
  | extension stamp first rest child => exact hunder child
  | branch stamp occupied slots value => exact hunder _
  | stored => cases hresolved

/-- Paths are put together behind a lead that leads on. -/
theorem graft_eq : graft (Path.mk lead false).symbols node = node.graft lead := by
  rw [graft, path_eq, Node.graft, bind_assoc]
  refine congrArg (node.path >>= ·) (funext fun own ↦ ?_)
  have hjoin : (Path.mk lead false).symbols.join own.symbols =
      .ok (own.after lead).symbols := by
    rw [Symbols.join, Path.isTerminated_symbols, if_neg (by simp), Path.symbols_onward]
    exact congrArg Except.ok (Path.symbols_append lead own.nibbles own.terminated).symm
  rw [pure_bind, hjoin, Walk.tested_ok, pure_bind, reroot_eq]

end Nodes

end Guarded

/-! ## Slots by their numbers -/

namespace Slots

/-- A mask with one bit marks one slot. -/
theorem marked_bit (slot : Nibble) (node : Nibble → Node) :
    (mk (bit slot) node).marked = [slot] := by
  revert slot
  simp only [marked]
  decide

/-- A mask that marks one slot has its bit alone. -/
theorem occupied_eq_bit {slots : Slots} {slot : Nibble} (h : slots.marked = [slot]) :
    slots.occupied = bit slot := by
  apply BitVec.eq_of_getLsbD_eq
  intro place hplace
  have hmem : (⟨place, hplace⟩ : Nibble) ∈ slots.marked ↔ (⟨place, hplace⟩ : Nibble) = slot := by
    rw [h, List.mem_singleton]
  have hbit := getLsbD_bit slot ⟨place, hplace⟩
  simp only [marked, List.mem_filter, List.mem_finRange, true_and] at hmem
  rw [hbit, Bool.eq_iff_iff, hmem, decide_eq_true_iff]

/-- A mask that has nothing in common with the number below it has one bit. -/
theorem exists_eq_bit {mask : BitVec 16} (hzero : mask ≠ 0#16)
    (hone : mask &&& (mask - 1#16) = 0#16) : ∃ slot, mask = bit slot := by
  have hne : mask.toNat ≠ 0 := fun h ↦ hzero (BitVec.eq_of_toNat_eq h)
  have hand : mask.toNat &&& (mask.toNat - 1) = 0 := by
    have h := congrArg BitVec.toNat hone
    have hsub : (mask - 1#16).toNat = mask.toNat - 1 := by bv_omega
    rwa [BitVec.toNat_and, hsub] at h
  obtain ⟨place, hplace⟩ := (Nat.and_sub_one_eq_zero_iff_isPowerOfTwo hne).mp hand
  have hlt : place < 16 := by
    have := mask.isLt
    rw [hplace] at this
    exact (Nat.pow_lt_pow_iff_right (by decide)).mp this
  refine ⟨⟨place, hlt⟩, BitVec.eq_of_toNat_eq ?_⟩
  have hsmall : 2 ^ place < 2 ^ 16 := Nat.pow_lt_pow_right (by decide) hlt
  simp only [hplace, bit, BitVec.toNat_shiftLeft, BitVec.toNat_ofNat, Nat.reducePow, Nat.one_mod,
    Nat.shiftLeft_eq, Nat.one_mul]
  exact (Nat.mod_eq_of_lt hsmall).symm

end Slots

namespace Guarded

variable (nibble : Nibble)

/-- A nibble's symbol is the number of a slot. -/
theorem nodeAt_eq (occupied : BitVec 16) (slots : Nibble → Node) :
    (Slots.mk occupied slots).nodeAt (nibbleSymbol nibble).toNat = .ok (slots nibble) := by
  rw [toNat_nibbleSymbol, Slots.nodeAt, dif_pos nibble.isLt]

/-- A slot can be set at the number of a nibble's symbol. -/
theorem setAt_eq (slots : Slots) (node : Node) :
    slots.setAt (nibbleSymbol nibble).toNat node = .ok (slots.set nibble node) := by
  rw [toNat_nibbleSymbol, Slots.setAt, dif_pos nibble.isLt]

/-- The number of the only occupied slot and its node, if exactly one is occupied. A mask with one
bit has nothing in common with the number below it, and its trailing zeros tell the place. -/
def only? (slots : Slots) : Except Breach (Option (Nat × Node)) :=
  if slots.occupied = 0#16 ∨ slots.occupied &&& (slots.occupied - 1#16) ≠ 0#16 then .ok none
  else do
    let place := slots.occupied.ctz.toNat
    return some (place, ← slots.nodeAt place)

/-- The only occupied slot is found. -/
theorem only?_eq (slots : Slots) :
    only? slots = .ok (slots.only?.map fun (place, node) ↦ (place.val, node)) := by
  have hbits : ∀ slot, Slots.bit slot ≠ 0#16 ∧
      Slots.bit slot &&& (Slots.bit slot - 1#16) = 0#16 ∧
      (Slots.bit slot).ctz.toNat = slot.val := by decide
  rw [only?]
  split
  · rename_i hmask
    have hnone : slots.only? = none := by
      rw [Slots.only?]
      split
      · rename_i slot hmarked
        rw [Slots.occupied_eq_bit hmarked] at hmask
        rcases hmask with hzero | hmore
        · exact absurd hzero (hbits slot).1
        · exact absurd (hbits slot).2.1 hmore
      · rfl
    rw [hnone]
    rfl
  · rename_i hmask
    push Not at hmask
    obtain ⟨slot, hslot⟩ := Slots.exists_eq_bit hmask.1 hmask.2
    obtain ⟨occupied, node⟩ := slots
    obtain rfl : occupied = Slots.bit slot := hslot
    rw [Slots.only?, Slots.marked_bit]
    dsimp only
    rw [(hbits slot).2.2, Slots.nodeAt, dif_pos slot.isLt]
    rfl

end Guarded

end Patricia
