import Mathlib.Data.List.FinRange
import Mathlib.Data.List.Nodup
import Patricia.Node.Slots

/-!
# Which slots of a branch are occupied

The mask of a branch says the same as its nodes do (`Slots.Sound`), and `Slots.set` keeps it so.
What the mask answers, whether all slots are empty, which one is the only occupied one and whether
there are entries enough for a branch (`Slots.Forked`), is then an answer about the nodes.
-/

namespace Patricia.Slots

/-- The mask marks the slots that hold a node, and no others. -/
def Sound (slots : Slots) : Prop :=
  ∀ slot : Nibble, slots.occupied.getLsbD slot = !(slots.node slot).isNull

/-- There are two entries: two nodes, or a node and a value. -/
def Forked (slots : Slots) (value : Option Bytes) : Prop :=
  ∃ slot, (slots.node slot).isNull = false ∧
    (value ≠ none ∨ ∃ other, other ≠ slot ∧ (slots.node other).isNull = false)

variable {slots : Slots} {slot : Nibble} {node : Node}

/-- Empty slots are marked as empty. -/
theorem empty_sound : empty.Sound := by
  intro slot
  simp [empty, Node.isNull]

/-- Setting a slot keeps the mask and the nodes in step. -/
theorem set_sound (h : slots.Sound) (slot : Nibble) (node : Node) :
    (slots.set slot node).Sound := by
  intro other
  have hother := h other
  rw [node_set]
  simp only [set]
  by_cases heq : other = slot
  · subst heq
    cases hnode : node.isNull <;>
      simp only [BitVec.getLsbD_and, BitVec.getLsbD_or, BitVec.getLsbD_not, getLsbD_bit, hnode,
        decide_true, if_true, if_false, Bool.or_true, Bool.not_true, Bool.and_false,
        Bool.false_eq_true, Bool.not_false]
  · cases hnode : node.isNull <;>
      simp only [BitVec.getLsbD_and, BitVec.getLsbD_or, BitVec.getLsbD_not, getLsbD_bit, heq,
        other.isLt, decide_true, decide_false, if_true, if_false, Bool.or_false, Bool.not_false,
        Bool.and_true, Bool.false_eq_true, hother]

/-- Slots filled from a list hold its nodes, and the empty node past its end. -/
theorem node_ofList (nodes : List Node) (slot : Nibble) :
    (ofList nodes).node slot = nodes.getD slot.val .null := by
  have hfold : ∀ (places : List Nibble) (start : Slots),
      (places.foldl (fun slots place ↦ slots.set place (nodes.getD place.val .null)) start).node
        slot = if slot ∈ places then nodes.getD slot.val .null else start.node slot := by
    intro places
    induction places with
    | nil => simp
    | cons place places ih =>
      intro start
      rw [List.foldl_cons, ih, node_set]
      by_cases hmem : slot ∈ places
      · simp [hmem]
      · by_cases heq : slot = place <;> simp [hmem, heq]
  rw [ofList, hfold, if_pos (List.mem_finRange slot)]

/-- Slots filled from a list are marked rightly. -/
theorem ofList_sound (nodes : List Node) : (ofList nodes).Sound := by
  have hfold : ∀ (places : List Nibble) (start : Slots), start.Sound →
      (places.foldl (fun slots place ↦ slots.set place (nodes.getD place.val .null))
        start).Sound := by
    intro places
    induction places with
    | nil => exact fun _ hstart ↦ hstart
    | cons place places ih => exact fun start hstart ↦ ih _ (set_sound hstart _ _)
  exact hfold _ _ empty_sound

/-- Two masks that are right for nodes empty in the same places are one mask. -/
theorem Sound.occupied_eq {other : Slots} (h : slots.Sound) (hother : other.Sound)
    (hnull : ∀ slot, (slots.node slot).isNull = (other.node slot).isNull) :
    slots.occupied = other.occupied := by
  apply BitVec.eq_of_getLsbD_eq
  intro place hplace
  have hleft := h ⟨place, hplace⟩
  have hright := hother ⟨place, hplace⟩
  rw [hnull] at hleft
  exact hleft.trans hright.symm

/-- Slots that are marked rightly are determined by their nodes. -/
theorem Sound.eq_of_node_eq {other : Slots} (h : slots.Sound) (hother : other.Sound)
    (hnode : ∀ slot, slots.node slot = other.node slot) : slots = other := by
  obtain ⟨occupied, node⟩ := slots
  obtain ⟨marked, table⟩ := other
  obtain rfl : node = table := funext hnode
  obtain rfl : occupied = marked := h.occupied_eq hother fun _ ↦ rfl
  rfl

/-- The marked slots are those that hold a node. -/
theorem Sound.mem_marked (h : slots.Sound) (slot : Nibble) :
    slot ∈ slots.marked ↔ (slots.node slot).isNull = false := by
  simp only [marked, List.mem_filter, List.mem_finRange, true_and, h slot, Bool.not_eq_true']

/-- The mask is zero when no slot holds a node. -/
theorem Sound.isEmpty_iff (h : slots.Sound) :
    slots.isEmpty = true ↔ ∀ slot, (slots.node slot).isNull = true := by
  rw [isEmpty, beq_iff_eq]
  constructor
  · intro hzero slot
    have hslot := h slot
    simpa [hzero] using hslot
  · intro hnull
    apply BitVec.eq_of_getLsbD_eq
    intro place hplace
    have hslot := h ⟨place, hplace⟩
    rw [hnull] at hslot
    simpa using hslot

/-- No slot is marked twice. -/
theorem marked_nodup (slots : Slots) : slots.marked.Nodup :=
  (List.nodup_finRange 16).filter _

/-- A node alone in the slots is found, with its place. -/
theorem Sound.only?_eq_some_iff (h : slots.Sound) :
    slots.only? = some (slot, node) ↔
      node = slots.node slot ∧ ∀ other, (slots.node other).isNull = false ↔ other = slot := by
  have hmem := h.mem_marked
  have hnodup := slots.marked_nodup
  rw [only?]
  cases hmarked : slots.marked with
  | nil =>
    simp only [hmarked, List.not_mem_nil, false_iff, Bool.not_eq_false] at hmem
    simp [hmem]
  | cons first rest =>
    cases rest with
    | nil =>
      simp only [hmarked, List.mem_singleton] at hmem
      simp only [Option.some.injEq, Prod.mk.injEq, ← hmem]
      constructor
      · rintro ⟨rfl, rfl⟩
        exact ⟨rfl, fun other ↦ Iff.rfl⟩
      · rintro ⟨rfl, hother⟩
        cases (hother first).mp rfl
        exact ⟨rfl, rfl⟩
    | cons second rest =>
      simp only [hmarked, List.nodup_cons, List.mem_cons] at hnodup hmem
      simp only [reduceCtorEq, false_iff, not_and]
      rintro - hother
      have hfirst := (hother first).mp ((hmem first).mp (Or.inl rfl))
      have hsecond := (hother second).mp ((hmem second).mp (Or.inr (Or.inl rfl)))
      exact hnodup.1 (Or.inl (hfirst.trans hsecond.symm))

/-- Counting the entries finds two exactly when there are two. -/
theorem Sound.forked_iff (h : slots.Sound) (value : Option Bytes) :
    slots.Forked value ↔ 2 ≤ slots.count + value.toList.length := by
  have hmem := h.mem_marked
  have hnodup := slots.marked_nodup
  simp only [Forked, ← hmem, count]
  cases hmarked : slots.marked with
  | nil => cases value <;> simp
  | cons first rest =>
    cases rest with
    | nil =>
      cases value with
      | none => simp +contextual
      | some bytes => simp
    | cons second rest =>
      rw [hmarked, List.nodup_cons] at hnodup
      have hne : second ≠ first := fun heq ↦ hnodup.1 (heq ▸ List.mem_cons_self)
      have hforked : ∃ slot ∈ first :: second :: rest,
          value ≠ none ∨ ∃ other, other ≠ slot ∧ other ∈ first :: second :: rest :=
        ⟨first, by simp, Or.inr ⟨second, hne, by simp⟩⟩
      simp only [hforked, List.length_cons, true_iff]
      omega

/-- A node put into a slot leaves two entries two. -/
theorem Forked.set {value : Option Bytes} (h : slots.Forked value) (slot : Nibble)
    (hnode : node.isNull = false) : (slots.set slot node).Forked value := by
  have hkeep : ∀ other, (slots.node other).isNull = false →
      ((slots.set slot node).node other).isNull = false := by
    intro other hother
    rw [node_set]
    split
    · exact hnode
    · exact hother
  obtain ⟨first, hfirst, hmore⟩ := h
  refine ⟨first, hkeep first hfirst, hmore.imp_right ?_⟩
  rintro ⟨second, hne, hsecond⟩
  exact ⟨second, hne, hkeep second hsecond⟩

/-- A branch with two entries has them whatever value it is given. -/
theorem Forked.some {value : Option Bytes} (h : slots.Forked value) (bytes : Bytes) :
    slots.Forked (some bytes) := by
  obtain ⟨first, hfirst, -⟩ := h
  exact ⟨first, hfirst, Or.inl (by simp)⟩

/-- If some slot is occupied, and no node stands alone without a value, there are two entries. -/
theorem Sound.forked_of_only? (h : slots.Sound) {value : Option Bytes}
    (hne : slots.isEmpty = false) (honly : value ≠ none ∨ slots.only? = none) :
    slots.Forked value := by
  have hex : ∃ slot, (slots.node slot).isNull = false := by
    by_contra hno
    push Not at hno
    simp only [ne_eq, Bool.not_eq_false] at hno
    rw [h.isEmpty_iff.mpr hno] at hne
    cases hne
  obtain ⟨first, hfirst⟩ := hex
  refine ⟨first, hfirst, ?_⟩
  by_contra hno
  push Not at hno
  obtain ⟨hvalue, hothers⟩ := hno
  have hsome : slots.only? = some (first, slots.node first) := by
    refine h.only?_eq_some_iff.mpr ⟨rfl, fun other ↦ ⟨fun hother ↦ ?_, ?_⟩⟩
    · by_contra hne'
      exact hothers other hne' hother
    · rintro rfl
      exact hfirst
  rcases honly with hvalue' | hnone
  · exact hvalue' hvalue
  · rw [hsome] at hnone
    cases hnone

end Patricia.Slots
