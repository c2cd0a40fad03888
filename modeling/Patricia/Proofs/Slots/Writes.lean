import Mathlib.Data.Fintype.Card
import Patricia.Proofs.Guarded.Nodes

/-!
# Slots under any run of writes

Writing a node into a slot takes three steps: the bit of the slot is worked out, the mask is
changed, and then the node is put in (`Slots.write`). Mask and nodes would come apart if a write
ended between the last two. It cannot: a number that has no slot has no bit either, so such a write
ends before anything has changed. That is so because shifts are checked: the program is taken as it
is built with checks for overflow. Built without them, it would shift by the number modulo sixteen,
change the mask, and end only when the node is put in.

A run of edits makes new slots, writes into slots that were made, and copies slots with one
replaced. After any run the mask of each of the slots tells what they hold (`Slots.Told`), and an
edit of one leaves the others as they were (`Slots.edited_told`).
-/

namespace Patricia.Slots

/-! ## Writing step by step -/

/-- The bit of a slot given by a number. The mask has sixteen bits, and a shift by sixteen or more
is refused, as where overflow is checked. -/
def bitAt (slot : Nat) : Except Breach (BitVec 16) :=
  if slot < 16 then .ok (1#16 <<< slot) else .error .outOfRange

/-- The mask with the bit cleared for the empty node and set for any other. -/
def mark (slots : Slots) (bit : BitVec 16) (node : Node) : Slots :=
  { slots with
    occupied := if node.isNull then slots.occupied &&& ~~~bit else slots.occupied ||| bit }

/-- The nodes with one replaced in a slot given by a number. -/
def fillAt (slots : Slots) (slot : Nat) (node : Node) : Except Breach Slots :=
  if h : slot < 16 then .ok { slots with node := Function.update slots.node ⟨slot, h⟩ node }
  else .error .outOfRange

/-- Writes a node into a slot given by a number: how the write ends, and what the slots are then. -/
def write (slots : Slots) (slot : Nat) (node : Node) : Except Breach Unit × Slots :=
  match bitAt slot with
  | .error breach => (.error breach, slots)
  | .ok bit =>
      -- The mask has changed already if putting the node in fails.
      let marked := slots.mark bit node
      match marked.fillAt slot node with
      | .error breach => (.error breach, marked)
      | .ok filled => (.ok (), filled)

variable {slots : Slots} {slot : Nat} {node : Node}

/-- The node in one slot is replaced and no other. -/
theorem node_set_eq_update (slots : Slots) (slot : Nibble) (node : Node) :
    (slots.set slot node).node = Function.update slots.node slot node := by
  funext other
  rw [node_set, Function.update_apply]

/-- A write into one of the sixteen slots sets it. -/
theorem write_of_lt (h : slot < 16) :
    slots.write slot node = (.ok (), slots.set ⟨slot, h⟩ node) := by
  have hset : slots.set ⟨slot, h⟩ node =
      ⟨(slots.mark (bit ⟨slot, h⟩) node).occupied, Function.update slots.node ⟨slot, h⟩ node⟩ := by
    rw [← node_set_eq_update]
    rfl
  rw [write, bitAt, if_pos h, hset]
  simp only [fillAt, dif_pos h]
  rfl

/-- A write past the last slot ends before anything has changed. -/
theorem write_of_le (h : 16 ≤ slot) : slots.write slot node = (.error .outOfRange, slots) := by
  rw [write, bitAt, if_neg (Nat.not_lt.mpr h)]

/-- However a write ends, the mask and the nodes are in step after it. -/
theorem Sound.write (h : slots.Sound) (slot : Nat) (node : Node) :
    (slots.write slot node).2.Sound := by
  by_cases hslot : slot < 16
  · rw [write_of_lt hslot]
    exact set_sound h _ node
  · rw [write_of_le (Nat.le_of_not_lt hslot)]
    exact h

/-! ## What the mask tells -/

/-- The mask tells what the slots hold: which are occupied, how many, whether none is, and which
is the only one, whether that is read off the list of marked slots or off the bits. -/
structure Told (slots : Slots) : Prop where
  bit : ∀ slot : Nibble, slots.occupied.getLsbD slot = true ↔ slots.node slot ≠ .null
  count : slots.count = Fintype.card { slot // (slots.node slot).isNull = false }
  isEmpty : slots.isEmpty = true ↔ ∀ slot, slots.node slot = .null
  only : ∀ slot node, slots.only? = some (slot, node) ↔
    node = slots.node slot ∧ ∀ other, slots.node other ≠ .null ↔ other = slot
  notOnly : slots.only? = none ↔ ¬∃ slot, ∀ other, slots.node other ≠ .null ↔ other = slot
  onlyByBits : Guarded.only? slots =
    .ok (slots.only?.map fun (place, node) ↦ (place.val, node))

/-- Only the empty node is empty. -/
theorem isNull_eq_false_iff (node : Node) : node.isNull = false ↔ node ≠ .null := by
  cases node <;> simp [Node.isNull]

/-- The marked slots are counted. -/
theorem Sound.count_eq_card (h : slots.Sound) :
    slots.count = Fintype.card { slot // (slots.node slot).isNull = false } := by
  have hmem : ∀ slot, slot ∈ slots.marked.toFinset ↔ (slots.node slot).isNull = false := by
    intro slot
    rw [List.mem_toFinset, h.mem_marked]
  rw [Fintype.card_of_subtype slots.marked.toFinset hmem,
    List.toFinset_card_of_nodup slots.marked_nodup]
  rfl

/-- A mask that is in step with the nodes tells what they are. -/
theorem Sound.told (h : slots.Sound) : slots.Told := by
  have honly : ∀ slot node, slots.only? = some (slot, node) ↔
      node = slots.node slot ∧ ∀ other, slots.node other ≠ .null ↔ other = slot := by
    intro slot node
    simp only [h.only?_eq_some_iff, isNull_eq_false_iff]
  refine ⟨fun slot ↦ ?_, h.count_eq_card, ?_, honly, ?_, Guarded.only?_eq slots⟩
  · rw [h slot, Bool.not_eq_true', isNull_eq_false_iff]
  · have hnull : ∀ slot, (slots.node slot).isNull = true ↔ slots.node slot = .null := by
      intro slot
      rw [← not_iff_not, Bool.not_eq_true, isNull_eq_false_iff]
    simp only [h.isEmpty_iff, hnull]
  · rw [Option.eq_none_iff_forall_ne_some, Prod.forall, not_exists]
    constructor
    · intro hnone slot hslot
      exact hnone slot _ ((honly slot _).mpr ⟨rfl, hslot⟩)
    · intro hno slot node hsome
      exact hno slot ((honly slot node).mp hsome).2

/-! ## Runs of edits -/

/-- What is done to the slots that were made so far: new ones are made, one is written into, or one
is copied and the copy written into. Which one is told by when it was made. -/
inductive Edit where
  | new
  | set (which slot : Nat) (node : Node)
  | copy (which slot : Nat) (node : Node)

/-- Runs an edit: how it ends, and what was made by then. A copy that cannot be written into is
dropped, and what has not been made is not edited. -/
def Edit.run (made : List Slots) : Edit → Except Breach Unit × List Slots
  | .new => (.ok (), made ++ [.empty])
  | .set which slot node =>
      match made[which]? with
      | none => (.ok (), made)
      | some slots =>
          let (outcome, slots) := slots.write slot node
          (outcome, made.set which slots)
  | .copy which slot node =>
      match made[which]? with
      | none => (.ok (), made)
      | some slots =>
          match slots.write slot node with
          | (.ok (), written) => (.ok (), made ++ [written])
          | (.error breach, _) => (.error breach, made)

/-- What was made by a run of edits, from sixteen empty slots on. An edit that fails does not end
the run. -/
def edited (edits : List Edit) : List Slots :=
  edits.foldl (fun made edit ↦ (edit.run made).2) [.empty]

variable {made : List Slots} {which : Nat}

/-- A write into slots that were made is a write into them alone. -/
theorem Edit.run_set (h : made[which]? = some slots) (slot : Nat) (node : Node) :
    (Edit.set which slot node).run made =
      ((slots.write slot node).1, made.set which (slots.write slot node).2) := by
  simp only [run, h]

/-- An edit leaves the mask in step with the nodes in everything that was made. -/
theorem Edit.run_sound (h : ∀ slots ∈ made, slots.Sound) (edit : Edit) :
    ∀ slots ∈ (edit.run made).2, slots.Sound := by
  cases edit with
  | new =>
    intro slots hslots
    rcases List.mem_append.mp hslots with hold | hnew
    · exact h slots hold
    · rw [List.mem_singleton.mp hnew]
      exact empty_sound
  | set which slot node =>
    cases hwhich : made[which]? with
    | none =>
      simp only [run, hwhich]
      exact h
    | some old =>
      rw [run_set hwhich]
      intro slots hslots
      rcases List.mem_or_eq_of_mem_set hslots with hold | rfl
      · exact h slots hold
      · exact (h old (List.mem_of_getElem? hwhich)).write slot node
  | copy which slot node =>
    cases hwhich : made[which]? with
    | none =>
      simp only [run, hwhich]
      exact h
    | some old =>
      have hcopy := (h old (List.mem_of_getElem? hwhich)).write slot node
      simp only [run, hwhich]
      split
      · rename_i written hwrite
        intro slots hslots
        rcases List.mem_append.mp hslots with hold | hnew
        · exact h slots hold
        · rw [List.mem_singleton.mp hnew]
          rwa [hwrite] at hcopy
      · exact h

/-- After any run of edits the mask is in step with the nodes in everything that was made. -/
theorem edited_sound (edits : List Edit) : ∀ slots ∈ edited edits, slots.Sound := by
  induction edits using List.reverseRecOn with
  | nil =>
    intro slots hslots
    rw [List.mem_singleton.mp hslots]
    exact empty_sound
  | append_singleton edits edit ih =>
    rw [edited, List.foldl_append]
    exact edit.run_sound ih

/-- After any run of edits the mask of slots that were made tells what they hold. Replacing one of
the sixteen changes that one, in place or in a copy, and nothing else that was made. A number that
has no slot is refused with everything left as it was. -/
theorem edited_told {edits : List Edit} (h : (edited edits)[which]? = some slots) :
    slots.Told ∧ ∀ (slot : Nat) (node : Node),
      (∀ hslot : slot < 16, ∃ updated : Slots, updated.Told ∧
        updated.node = Function.update slots.node ⟨slot, hslot⟩ node ∧
        (Edit.set which slot node).run (edited edits) =
          (.ok (), (edited edits).set which updated) ∧
        (Edit.copy which slot node).run (edited edits) = (.ok (), edited edits ++ [updated])) ∧
      (16 ≤ slot →
        (Edit.set which slot node).run (edited edits) = (.error .outOfRange, edited edits) ∧
        (Edit.copy which slot node).run (edited edits) = (.error .outOfRange, edited edits)) := by
  have hsound := edited_sound edits slots (List.mem_of_getElem? h)
  refine ⟨hsound.told, fun slot node ↦ ⟨fun hslot ↦ ?_, fun hslot ↦ ?_⟩⟩
  · refine ⟨slots.set ⟨slot, hslot⟩ node, (set_sound hsound _ node).told,
      node_set_eq_update slots _ node, ?_, ?_⟩
    · rw [Edit.run_set h, write_of_lt hslot]
    · simp only [Edit.run, h, write_of_lt hslot]
  · have hsame : (edited edits).set which slots = edited edits := by
      obtain ⟨hlt, rfl⟩ := List.getElem?_eq_some_iff.mp h
      exact List.set_getElem_self hlt
    constructor
    · rw [Edit.run_set h, write_of_le hslot, hsame]
    · simp only [Edit.run, h, write_of_le hslot]

/-- Two leaves in the copy of slots from which the one leaf is cleared later, with a write past the
last slot in between. -/
theorem edited_told_copied :
    let leaf := Node.leaf .blank [] [1]
    let edits : List Edit := [.set 0 3 leaf, .copy 0 15 leaf, .set 0 16 leaf, .set 0 3 .null]
    (edited edits).map Slots.count = [0, 2] ∧
      ∃ copy, (edited edits)[1]? = some copy ∧ copy.Told := by
  intro leaf edits
  have hlength : 1 < (edited edits).length := by decide +kernel
  have hcopy := List.getElem?_eq_getElem hlength
  exact ⟨by decide +kernel, _, hcopy, (edited_told hcopy).1⟩

end Patricia.Slots
