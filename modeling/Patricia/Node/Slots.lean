import Patricia.Node.Basic

/-!
# The slots of a branch

`Slots` holds sixteen nodes and a mask with one bit a slot. `Slots.set` keeps the two in step: a
bit is set when its slot holds a node and clear when the slot is empty. Counting and finding the
only occupied slot read the mask alone.
-/

namespace Patricia

/-- Sixteen nodes and the mask of those that are not empty. -/
structure Slots where
  occupied : BitVec 16
  node : Nibble → Node

namespace Slots

/-- Sixteen empty slots. -/
def empty : Slots :=
  ⟨0#16, fun _ ↦ .null⟩

/-- The mask with the bit of one slot. -/
def bit (slot : Nibble) : BitVec 16 :=
  1#16 <<< slot.val

/-- The slots with one replaced. Storing the empty node clears the slot. -/
def set (slots : Slots) (slot : Nibble) (node : Node) : Slots :=
  -- The slots are worked out here, once, and not at every later look into them.
  let table := Vector.ofFn fun other ↦ if other = slot then node else slots.node other
  { occupied :=
      if node.isNull then slots.occupied &&& ~~~bit slot else slots.occupied ||| bit slot
    node := table.get }

/-- Setting a slot given by a number, which has to be below sixteen. -/
def setAt (slots : Slots) (slot : Nat) (node : Node) : Except Breach Slots :=
  if h : slot < 16 then .ok (slots.set ⟨slot, h⟩ node) else .error .outOfRange

/-- The node in a slot given by a number, which has to be below sixteen. -/
def nodeAt (slots : Slots) (slot : Nat) : Except Breach Node :=
  if h : slot < 16 then .ok (slots.node ⟨slot, h⟩) else .error .outOfRange

/-- The slots that the mask marks, in order. -/
def marked (slots : Slots) : List Nibble :=
  (List.finRange 16).filter fun slot ↦ slots.occupied.getLsbD slot

/-- Number of occupied slots. -/
def count (slots : Slots) : Nat :=
  slots.marked.length

/-- No slot is occupied. -/
def isEmpty (slots : Slots) : Bool :=
  slots.occupied == 0#16

/-- The only occupied slot and its node, if exactly one is occupied. -/
def only? (slots : Slots) : Option (Nibble × Node) :=
  match slots.marked with
  | [slot] => some (slot, slots.node slot)
  | _ => none

/-- The slots filled from the first one on with the nodes of a list. -/
def ofList (nodes : List Node) : Slots :=
  (List.finRange 16).foldl (fun slots slot ↦ slots.set slot (nodes.getD slot.val .null)) empty

/-- The bit of a slot is set in the mask of that slot alone. -/
theorem getLsbD_bit (slot other : Nibble) :
    (bit slot).getLsbD other = decide (other = slot) := by
  revert slot other
  decide

/-- What a slot holds after setting one. -/
@[simp] theorem node_set (slots : Slots) (slot other : Nibble) (node : Node) :
    (slots.set slot node).node other = if other = slot then node else slots.node other := by
  obtain ⟨other, hother⟩ := other
  exact Vector.getElem_ofFn hother

end Slots

namespace Node

/-- The branch over some slots. -/
def ofSlots (stamp : Stamp) (slots : Slots) (value : Option Bytes) : Node :=
  .branch stamp slots.occupied slots.node value

end Node

end Patricia
