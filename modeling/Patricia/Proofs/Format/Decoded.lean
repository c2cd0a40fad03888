import Mathlib.Data.List.Forall2
import Mathlib.Data.List.GetD
import Patricia.Format.Decoding
import Patricia.Proofs.Node.Standing

/-!
# What bytes are read as

Whatever the bytes are, a node that is read from them obeys the rules for its kind, and so does
every node written in place below it (`Node.decode_wellFormed`). Only leaves' values can be empty.
Apart from the bytes that the node itself is marked with, all stamps are blank
(`Node.decode_literal`).
-/

namespace Patricia

/-- A sequence that succeeds goes through a result of its first part. -/
theorem bind_eq_ok {α β ε : Type} {first : Except ε α} {next : α → Except ε β} {result : β}
    (h : (first >>= next) = .ok result) :
    ∃ middle, first = .ok middle ∧ next middle = .ok result := by
  cases first with
  | error fault => cases h
  | ok middle => exact ⟨middle, rfl, h⟩

/-- A result is what it is taken for. -/
theorem eq_ok_of_mem_toOption {α ε : Type} {outcome : Except ε α} {result : α}
    (h : result ∈ outcome.toOption) : outcome = .ok result := by
  cases outcome with
  | error fault => cases h
  | ok value =>
      cases h
      rfl

/-- Where a function succeeds on a whole list, the results are those of the elements, in order. -/
theorem forall₂_of_mapM_eq_ok {α β ε : Type} {f : α → Except ε β} {list : List α}
    {results : List β} (h : list.mapM f = .ok results) :
    List.Forall₂ (fun element result ↦ f element = .ok result) list results := by
  induction list generalizing results with
  | nil =>
      cases h
      exact .nil
  | cons element list ih =>
      rw [List.mapM_cons] at h
      obtain ⟨first, hfirst, h⟩ := bind_eq_ok h
      obtain ⟨others, hothers, h⟩ := bind_eq_ok h
      cases h
      exact .cons hfirst (ih hothers)

/-- Elements of lists that are related in order are related to elements of the other list. -/
theorem exists_of_mem_forall₂ {α β : Type} {related : α → β → Prop} {list : List α}
    {results : List β} (h : List.Forall₂ related list results) {result : β}
    (hmem : result ∈ results) : ∃ element ∈ list, related element result := by
  induction h with
  | nil => cases hmem
  | cons hfirst _ ih =>
      rcases List.mem_cons.mp hmem with rfl | hmem
      · exact ⟨_, List.mem_cons_self, hfirst⟩
      · obtain ⟨element, helement, hrelated⟩ := ih hmem
        exact ⟨element, List.mem_cons_of_mem _ helement, hrelated⟩

/-- Where a function succeeds on a whole list, each result is that of an element. -/
theorem mem_of_mapM_eq_ok {α β ε : Type} {f : α → Except ε β} {list : List α} {results : List β}
    (h : list.mapM f = .ok results) {result : β} (hmem : result ∈ results) :
    ∃ element ∈ list, f element = .ok result :=
  exists_of_mem_forall₂ (forall₂_of_mapM_eq_ok h) hmem

/-- Where a function succeeds on a whole list, there are as many results as elements. -/
theorem length_of_mapM_eq_ok {α β ε : Type} {f : α → Except ε β} {list : List α}
    {results : List β} (h : list.mapM f = .ok results) : results.length = list.length :=
  (forall₂_of_mapM_eq_ok h).length_eq.symm

namespace Node

/-- The node obeys the rules for its kind, whatever its values are. -/
def WellFormed (node : Node) : Prop :=
  node.All (Proper fun _ ↦ True)

/-- The node is a branch with an empty value of its own, which is written like none. -/
def isHollow : Node → Bool
  | .branch _ _ _ value => value == some []
  | _ => false

/-- A node as it stands in bytes: it has a blank stamp, obeys the rules for its kind, and is no
branch with an empty value. -/
structure Literal (node : Node) : Prop where
  blank : node.stamp = .blank
  proper : node.Proper fun _ ↦ True
  isHollow_eq : node.isHollow = false

variable {child : Rlp.Item → Except DecodeError Node} {read : Resolved}

/-- A leaf or an extension is literal throughout if its child is. -/
theorem ofPair_literal (hchild : ∀ item node, child item = .ok node → node.All Literal)
    {path content : Rlp.Item} (h : ofPair child path content = .ok read) :
    read.val.All Literal ∧ read.val.isNull = false := by
  rw [ofPair] at h
  obtain ⟨bytes, -, h⟩ := bind_eq_ok h
  obtain ⟨path, -, h⟩ := bind_eq_ok h
  split at h
  · obtain ⟨value, -, h⟩ := bind_eq_ok h
    cases h
    exact ⟨⟨rfl, trivial, rfl⟩, rfl⟩
  · split at h
    · cases h
    · obtain ⟨node, hnode, h⟩ := bind_eq_ok h
      split at h
      · cases h
      · rename_i hnull
        rw [Bool.not_eq_true] at hnull
        cases h
        exact ⟨⟨⟨rfl, hnull, rfl⟩, hchild _ _ hnode⟩, rfl⟩

/-- A branch is literal throughout if its slots are. -/
theorem ofRow_literal (hchild : ∀ item node, child item = .ok node → node.All Literal)
    {slots : List Rlp.Item} {value : Rlp.Item} (h : ofRow child slots value = .ok read) :
    read.val.All Literal ∧ read.val.isNull = false := by
  rw [ofRow] at h
  obtain ⟨nodes, hnodes, h⟩ := bind_eq_ok h
  obtain ⟨bytes, -, h⟩ := bind_eq_ok h
  dsimp only at h
  have hvalue : (if bytes.isEmpty then none else some bytes) ≠ some [] := by
    cases bytes <;> simp
  generalize (if bytes.isEmpty then none else some bytes) = value at h hvalue
  split at h
  · cases h
  · rename_i hcount
    cases h
    have hsound := Slots.ofList_sound nodes
    have hforked := (hsound.forked_iff _).mpr (Nat.not_lt.mp hcount)
    refine ⟨⟨⟨rfl, ⟨hsound, hforked, fun _ _ ↦ trivial⟩, beq_eq_false_iff_ne.mpr hvalue⟩,
      fun slot ↦ ?_⟩, rfl⟩
    rw [Slots.node_ofList]
    by_cases hslot : slot.val < nodes.length
    · rw [List.getD_eq_getElem _ _ hslot]
      obtain ⟨item, -, hitem⟩ := mem_of_mapM_eq_ok hnodes (List.getElem_mem hslot)
      exact hchild item _ hitem
    · rw [List.getD_eq_default _ _ (Nat.not_lt.mp hslot)]
      exact ⟨rfl, trivial, rfl⟩

/-- A node is literal throughout if its children are. -/
theorem ofItems_literal (hchild : ∀ item node, child item = .ok node → node.All Literal)
    {items : List Rlp.Item} (h : ofItems child items = .ok read) :
    read.val.All Literal ∧ read.val.isNull = false := by
  rw [ofItems.eq_def] at h
  split at h
  · exact ofPair_literal hchild h
  · split at h
    · exact ofRow_literal hchild h
    · cases h

/-- A child is literal throughout. -/
theorem ofItem_literal (depth : Nat) (item : Rlp.Item) (node : Node)
    (h : ofItem depth item = .ok node) : node.All Literal := by
  induction depth generalizing item node with
  | zero => cases h
  | succ depth ih =>
      rw [ofItem] at h
      split at h
      · obtain ⟨items, -, h⟩ := bind_eq_ok h
        obtain ⟨read, hread, h⟩ := bind_eq_ok h
        cases h
        exact (ofItems_literal ih hread).1
      · split at h
        · cases h
          exact ⟨rfl, trivial, rfl⟩
        · split at h
          · cases h
            exact ⟨rfl, trivial, rfl⟩
          · cases h

/-- The bytes that a node was read from do not matter for whether it is empty. -/
@[simp] theorem isNull_readFrom (source : Bytes) (node : Node) :
    (node.readFrom source).isNull = node.isNull := by
  cases node <;> rfl

/-- The bytes that a node was read from do not matter for the rules. -/
theorem WellFormed.readFrom {node : Node} (h : node.WellFormed) (source : Bytes) :
    (node.readFrom source).WellFormed := by
  cases node with
  | null | leaf | extension | branch | stored => exact h

/-- A node that is read from bytes is the node as it stands there, marked with the bytes. It is not
empty. -/
theorem decode_literal {bytes : Bytes} (h : decode bytes = .ok read) :
    ∃ node : Resolved, read = node.readFrom bytes ∧ node.val.All Literal ∧
      node.val.isNull = false := by
  rw [decode] at h
  obtain ⟨⟨item, rest⟩, -, h⟩ := bind_eq_ok h
  dsimp only at h
  split at h
  · cases h
  · obtain ⟨items, -, h⟩ := bind_eq_ok h
    obtain ⟨node, hnode, h⟩ := bind_eq_ok h
    split at h
    · cases h
      exact ⟨node, rfl, ofItems_literal (ofItem_literal _) hnode⟩
    · cases h

/-- A node that is read from bytes obeys the rules for its kind, with all nodes that are written in
place below it, and is not empty. -/
theorem decode_wellFormed {bytes : Bytes} (h : decode bytes = .ok read) :
    read.val.WellFormed ∧ read.val.isNull = false := by
  obtain ⟨node, rfl, hliteral, hnull⟩ := decode_literal h
  have hformed : node.val.WellFormed := hliteral.imp fun _ hnode ↦ hnode.proper
  exact ⟨hformed.readFrom bytes, (isNull_readFrom bytes node.val).trans hnull⟩

end Node

end Patricia
