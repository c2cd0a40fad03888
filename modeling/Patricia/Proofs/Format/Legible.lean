import Patricia.Format.Decoding
import Patricia.Proofs.Format.HexPrefix
import Patricia.Proofs.Format.Rlp
import Patricia.Proofs.Node.Form
import Patricia.Proofs.Node.Standing

/-!
# Nodes written and read back

What is read back from the form of a node is the node with references for its long subtrees,
`Node.abridged`. This holds of every `Legible` node: each node in it that is written in place is
written anew from its parts, obeys the rules for its kind, and no branch in it holds an empty value,
which is written like a missing one (`Node.decode_form`).
-/

namespace Patricia

open Rlp (Item)

namespace Node

/-- The tree with references for all subtrees whose forms are not written in place. -/
def abridged : Node → Node
  | .null => .null
  | .leaf _ path value => .leaf .blank path value
  | .extension _ first rest child =>
      .extension .blank first rest
        (if child.encoding.length < 32 then child.abridged else .stored .blank child.hash)
  | .branch _ occupied slots value =>
      .branch .blank occupied
        (fun slot ↦
          if (slots slot).encoding.length < 32 then (slots slot).abridged
          else .stored .blank (slots slot).hash)
        value
  | .stored _ hash => .stored .blank hash

/-- What a parent's form tells of a node: the tree in short, or a reference. -/
def cited (node : Node) : Node :=
  if node.encoding.length < 32 then node.abridged else .stored .blank node.hash

/-- All nodes of the tree are written anew from their parts and obey the rules for their kinds, and
no branch holds an empty value. -/
def Legible (node : Node) : Prop :=
  node.All fun node ↦ node.encoding = node.form ∧ node.Proper (fun _ ↦ True) ∧
    ∀ stamp occupied slots, node ≠ .branch stamp occupied slots (some [])

/-- A property of all children of a node. -/
def Children (p : Node → Prop) : Node → Prop
  | .extension _ _ _ child => p child
  | .branch _ _ slots _ => ∀ slot, p (slots slot)
  | .null | .leaf .. | .stored .. => True

/-- The node has a form of its own: it is neither empty nor a reference. -/
def isFormed (node : Node) : Bool :=
  !node.isNull && !node.isStored

/-- The items of a node's form, one after the other. -/
def payload : Node → Bytes
  | .leaf _ path value => Rlp.string (Path.mk path true).hexPrefix ++ Rlp.string value
  | .extension _ first rest child =>
      Rlp.string (Path.mk (first :: rest) false).hexPrefix ++ child.reference
  | .branch _ _ slots value =>
      (List.finRange 16).flatMap (fun slot ↦ (slots slot).reference) ++
        Rlp.string (value.getD [])
  | .null | .stored .. => []

/-- The item for a node in its parent's form. -/
def item (node : Node) : Item :=
  if 32 ≤ node.encoding.length then ⟨false, node.hash.bytes⟩
  else if node.isNull then ⟨false, []⟩
  else ⟨true, node.payload⟩

/-- The items of a node's form. -/
def items : Node → List Item
  | .leaf _ path value => [⟨false, (Path.mk path true).hexPrefix⟩, ⟨false, value⟩]
  | .extension _ first rest child =>
      [⟨false, (Path.mk (first :: rest) false).hexPrefix⟩, child.item]
  | .branch _ _ slots value =>
      (List.finRange 16).map (fun slot ↦ (slots slot).item) ++ [⟨false, value.getD []⟩]
  | .null | .stored .. => []

variable {node : Node}

/-- A node with a form is no reference. -/
theorem isStored_of_formed (h : node.isFormed = true) : node.isStored = false := by
  cases node with
  | null | leaf | extension | branch => rfl
  | stored => cases h

/-- A node with a form is not empty. -/
theorem isNull_of_formed (h : node.isFormed = true) : node.isNull = false := by
  cases node with
  | null => cases h
  | leaf | extension | branch | stored => rfl

/-- The form of a node is the list of its items. -/
theorem form_eq_list (h : node.isFormed = true) : node.form = Rlp.list node.payload := by
  cases node with
  | leaf | extension | branch => rfl
  | null | stored => cases h

/-- All children of a legible node are legible. -/
theorem Legible.children (h : node.Legible) : node.Children Legible := by
  cases node with
  | null | leaf | stored => trivial
  | extension stamp first rest child => exact h.2
  | branch stamp occupied slots value => exact h.2

/-- References are long. -/
theorem length_reference (hash : Hash) : hash.reference.length = 33 := by
  rw [Hash.reference, List.length_cons, hash.length_eq]

/-- A short node is not a reference. -/
theorem isStored_of_short (h : node.encoding.length < 32) : node.isStored = false := by
  cases node with
  | null | leaf | extension | branch => rfl
  | stored stamp hash =>
      rw [encoding, length_reference] at h
      omega

/-- A long node is not empty. -/
theorem isNull_of_long (h : 32 ≤ node.encoding.length) : node.isNull = false := by
  cases node with
  | null => exact absurd h (by decide)
  | leaf | extension | branch | stored => rfl

/-- What is told of a node is empty exactly if the node is. -/
theorem isNull_cited (node : Node) : node.cited.isNull = node.isNull := by
  rw [cited]
  split
  · cases node <;> rfl
  · rename_i hlong
    have hnull : node.isNull = false := isNull_of_long (by omega)
    rw [hnull]
    rfl

/-- A reference is a string of the hash's bytes. -/
theorem reference_eq_string (hash : Hash) : hash.reference = Rlp.string hash.bytes := by
  obtain ⟨bytes, hlength⟩ := hash
  match bytes, hlength with
  | first :: second :: more, hlength =>
      show _ = Rlp.header 0x80 (first :: second :: more).length ++ (first :: second :: more)
      rw [Rlp.header, hlength]
      rfl

/-- A payload is shorter than the list of it. -/
theorem length_lt_length_list (payload : Bytes) : payload.length < (Rlp.list payload).length := by
  rw [Rlp.list, Rlp.header, List.length_append]
  split <;> simp only [List.length_cons] <;> omega

/-- A byte string is no longer than what it is written as. -/
theorem length_le_length_string (bytes : Bytes) : bytes.length ≤ (Rlp.string bytes).length := by
  match bytes with
  | [] => exact Nat.zero_le _
  | [byte] =>
      rw [Rlp.string]
      split <;> simp
  | first :: second :: more =>
      show _ ≤ (Rlp.header 0x80 (first :: second :: more).length ++
        (first :: second :: more)).length
      rw [List.length_append]
      omega

/-- What stands for a legible node in its parent's form is read as the node's item. -/
theorem Legible.writtenAs_item (h : node.Legible) : node.item.WrittenAs node.reference := by
  rw [item]
  split
  · rename_i hlong
    rw [reference_of_long hlong, reference_eq_string]
    exact Item.writtenAs_string _ (by rw [node.hash.length_eq]; decide)
  · rename_i hshort
    rw [Nat.not_le] at hshort
    rw [reference_of_short (isStored_of_short hshort) hshort]
    cases hnull : node.isNull with
    | true =>
        cases node with
        | null => exact Item.writtenAs_string [] (by decide)
        | leaf | extension | branch | stored => cases hnull
    | false =>
        have hform : node.form = Rlp.list node.payload :=
          form_eq_list (by rw [isFormed, hnull, isStored_of_short hshort]; rfl)
        have hlt := length_lt_length_list node.payload
        rw [← hform, ← h.self.1] at hlt
        rw [h.self.1, hform]
        exact Item.writtenAs_list _ (by omega)

/-- The payload of a legible node is read as the node's items. -/
theorem Legible.readAll_payload (h : node.Legible) (hlength : node.payload.length < 2 ^ 64) :
    Item.readAll node.payload = .ok node.items := by
  have hchildren := h.children
  cases node with
  | null | stored =>
      rw [payload, Item.readAll]
      rfl
  | leaf stamp path value =>
      rw [payload, List.length_append] at hlength
      have hpath := Item.writtenAs_string (Path.mk path true).hexPrefix
        (Nat.lt_of_le_of_lt (length_le_length_string _) (by omega))
      have hvalue := Item.writtenAs_string value
        (Nat.lt_of_le_of_lt (length_le_length_string _) (by omega))
      have hpieces := Item.readAll_flatten (.cons hpath (.cons hvalue .nil))
      rw [List.flatten_cons, List.flatten_cons, List.flatten_nil, List.append_nil] at hpieces
      exact hpieces
  | extension stamp first rest child =>
      rw [payload, List.length_append] at hlength
      have hpath := Item.writtenAs_string (Path.mk (first :: rest) false).hexPrefix
        (Nat.lt_of_le_of_lt (length_le_length_string _) (by omega))
      have hchild : child.item.WrittenAs child.reference := hchildren.writtenAs_item
      have hpieces := Item.readAll_flatten (.cons hpath (.cons hchild .nil))
      rw [List.flatten_cons, List.flatten_cons, List.flatten_nil, List.append_nil] at hpieces
      exact hpieces
  | branch stamp occupied slots value =>
      rw [payload, List.length_append] at hlength
      have hvalue := Item.writtenAs_string (value.getD [])
        (Nat.lt_of_le_of_lt (length_le_length_string _) (by omega))
      have hslots : List.Forall₂ Item.WrittenAs
          ((List.finRange 16).map fun slot ↦ (slots slot).item)
          ((List.finRange 16).map fun slot ↦ (slots slot).reference) := by
        rw [List.forall₂_map_left_iff, List.forall₂_map_right_iff, List.forall₂_same]
        exact fun slot _ ↦ (hchildren slot).writtenAs_item
      have hpieces := Item.readAll_flatten (List.rel_append hslots (.cons hvalue .nil))
      rw [payload, List.flatMap_def, ← List.append_nil (Rlp.string _), ← List.flatten_nil,
        ← List.flatten_cons, ← List.flatten_append]
      exact hpieces

/-- Where a function succeeds on every element, so it does on the list. -/
theorem mapM_eq_ok {α β ε : Type} {f : α → Except ε β} {g : α → β} (list : List α)
    (h : ∀ element, f element = .ok (g element)) : list.mapM f = .ok (list.map g) := by
  induction list with
  | nil => rfl
  | cons element list ih =>
      rw [List.mapM_cons, h, ih]
      rfl

/-- Lists of items that are no pairs are rows of sixteen slots and a value. -/
theorem ofItems_row (child : Item → Except DecodeError Node) (slots : List Item) (value : Item)
    (h : slots.length = 16) : ofItems child (slots ++ [value]) = ofRow child slots value := by
  have hdrop : (slots ++ [value]).drop 16 = [value] := by
    rw [← h, List.drop_left]
  have htake : (slots ++ [value]).take 16 = slots := by
    rw [← h, List.take_left]
  rw [ofItems.eq_def]
  split
  · rename_i heq
    have hlength := congrArg List.length heq
    rw [List.length_append, h] at hlength
    simp at hlength
  · rw [hdrop, htake]

/-- A row whose slots are read is read, if it has two entries. -/
theorem ofRow_eq {child : Item → Except DecodeError Node} {slots : List Item} {nodes : List Node}
    (h : slots.mapM child = .ok nodes) (bytes : Bytes) {value : Option Bytes}
    (hvalue : (if bytes.isEmpty then none else some bytes) = value)
    (hcount : 2 ≤ (Slots.ofList nodes).count + value.toList.length) :
    ofRow child slots ⟨false, bytes⟩ = .ok ⟨.ofSlots .blank (.ofList nodes) value, rfl⟩ := by
  subst hvalue
  rw [ofRow, h]
  exact if_neg (Nat.not_lt.mpr hcount)

/-- A row is read as the branch over the nodes that its slots are read as, if that obeys the rules
for its kind and has no empty value. -/
theorem ofRow_eq_branch {child : Item → Except DecodeError Node} {items : List Item}
    {occupied : BitVec 16} {slots : Nibble → Node} {value : Option Bytes}
    (h : items.mapM child = .ok ((List.finRange 16).map slots))
    (hsound : (Slots.mk occupied slots).Sound) (hforked : (Slots.mk occupied slots).Forked value)
    (hvalue : value ≠ some []) :
    ofRow child items ⟨false, value.getD []⟩ = .ok ⟨.branch .blank occupied slots value, rfl⟩ := by
  have hslots : Slots.ofList ((List.finRange 16).map slots) = ⟨occupied, slots⟩ := by
    refine (Slots.ofList_sound _).eq_of_node_eq hsound fun slot ↦ ?_
    rw [Slots.node_ofList]
    simp
  have hread : (if (value.getD []).isEmpty then none else some (value.getD [])) = value := by
    cases value with
    | none => rfl
    | some bytes =>
        have hne : bytes ≠ [] := fun heq ↦ hvalue (by rw [heq])
        simp [hne]
  have hrow := ofRow_eq h _ hread (by rw [hslots]; exact (hsound.forked_iff value).mp hforked)
  simp only [hslots] at hrow
  exact hrow

/-- A pair whose path ends a key is read as a leaf. -/
theorem ofPair_eq_leaf {child : Item → Except DecodeError Node} {packed value : Bytes}
    {path : List Nibble} (h : Path.ofHexPrefix packed = .ok ⟨path, true⟩) :
    ofPair child ⟨false, packed⟩ ⟨false, value⟩ = .ok ⟨.leaf .blank path value, rfl⟩ := by
  show (do let path ← Path.ofHexPrefix packed; _) = _
  rw [h]
  rfl

/-- A pair whose path leads on to a node is read as an extension. -/
theorem ofPair_eq_extension {child : Item → Except DecodeError Node} {packed : Bytes}
    {content : Item} {first : Nibble} {rest : List Nibble}
    (h : Path.ofHexPrefix packed = .ok ⟨first :: rest, false⟩) (hchild : child content = .ok node)
    (hnull : node.isNull = false) :
    ofPair child ⟨false, packed⟩ content = .ok ⟨.extension .blank first rest node, rfl⟩ := by
  show (do let path ← Path.ofHexPrefix packed; _) = _
  rw [h]
  show (do let node ← child content; _) = _
  rw [hchild]
  show (if node.isNull = true then _ else _) = _
  rw [hnull]
  rfl

/-- The items of a legible node are read as the node in short, if those of its children are. -/
theorem Legible.ofItems_items (h : node.Legible) (hformed : node.isFormed = true)
    {child : Item → Except DecodeError Node}
    (hchildren : node.Children fun below ↦ child below.item = .ok below.cited) :
    ∃ read, ofItems child node.items = .ok read ∧ read.val = node.abridged := by
  obtain ⟨-, hproper, hvalue⟩ := h.self
  cases node with
  | null | stored => cases hformed
  | leaf stamp path value => exact ⟨_, ofPair_eq_leaf (Path.ofHexPrefix_hexPrefix _), rfl⟩
  | extension stamp first rest below =>
      have hnull : below.cited.isNull = false := by
        rw [isNull_cited]
        exact hproper
      exact ⟨_, ofPair_eq_extension (Path.ofHexPrefix_hexPrefix _) hchildren hnull, rfl⟩
  | branch stamp occupied slots value =>
      obtain ⟨hsound, hforked, -⟩ := hproper
      have hsound' : (Slots.mk occupied fun slot ↦ (slots slot).cited).Sound := by
        simpa only [Slots.Sound, isNull_cited] using hsound
      have hforked' : (Slots.mk occupied fun slot ↦ (slots slot).cited).Forked value := by
        simpa only [Slots.Forked, isNull_cited] using hforked
      have hmap : ((List.finRange 16).map fun slot ↦ (slots slot).item).mapM child =
          .ok ((List.finRange 16).map fun slot ↦ (slots slot).cited) := by
        rw [List.mapM_map]
        exact mapM_eq_ok _ hchildren
      have hne : value ≠ some [] := fun heq ↦ hvalue stamp occupied slots (by rw [heq])
      refine ⟨⟨(branch stamp occupied slots value).abridged, rfl⟩, ?_, rfl⟩
      rw [items, ofItems_row _ _ _ (by simp)]
      exact ofRow_eq_branch hmap hsound' hforked' hne

/-- What stands for a child is a part of the payload. -/
theorem length_reference_le_payload (node : Node) :
    node.Children fun below ↦ below.reference.length ≤ node.payload.length := by
  cases node with
  | null | leaf | stored => trivial
  | extension stamp first rest child =>
      show child.reference.length ≤ _
      rw [payload, List.length_append]
      omega
  | branch stamp occupied slots value =>
      intro slot
      have hsub : (slots slot).reference.Sublist
          ((List.finRange 16).flatMap fun slot ↦ (slots slot).reference) :=
        List.sublist_flatten_of_mem (List.mem_map_of_mem (List.mem_finRange slot))
      have hle := hsub.length_le
      rw [payload, List.length_append]
      omega

/-- The bytes of a hash are read as a reference by it. -/
theorem ofItem_hash (depth : Nat) (hash : Hash) :
    ofItem (depth + 1) ⟨false, hash.bytes⟩ = .ok (.stored .blank hash) := by
  have hne : hash.bytes.isEmpty = false := by
    rw [← Bool.not_eq_true, List.isEmpty_iff_length_eq_zero, hash.length_eq]
    decide
  rw [ofItem]
  simp only [Bool.false_eq_true, if_false, hne, Hash.ofBytes?_bytes]

/-- A payload whose items are read as a node is read in place as the node. -/
theorem ofItem_list {depth : Nat} {payload : Bytes} {items : List Item} {read : Resolved}
    (hitems : Item.readAll payload = .ok items) (h : ofItems (ofItem depth) items = .ok read) :
    ofItem (depth + 1) ⟨true, payload⟩ = .ok read.val := by
  rw [ofItem, if_pos rfl, hitems]
  show (do let node ← ofItems (ofItem depth) items; _) = _
  rw [h]
  rfl

/-- The item of a node is read as what its parent's form tells of it, if the items of its children
are. -/
theorem Legible.ofItem_of_children (h : node.Legible) {depth : Nat}
    (hchildren : node.encoding.length < 32 →
      node.Children fun below ↦ ofItem depth below.item = .ok below.cited) :
    ofItem (depth + 1) node.item = .ok node.cited := by
  by_cases hlong : 32 ≤ node.encoding.length
  · rw [item, if_pos hlong, cited, if_neg (Nat.not_lt.mpr hlong), ofItem_hash]
  · have hshort := Nat.not_le.mp hlong
    rw [item, if_neg hlong, cited, if_pos hshort]
    cases hnull : node.isNull with
    | true =>
        cases node with
        | null => rfl
        | leaf | extension | branch | stored => cases hnull
    | false =>
        have hformed : node.isFormed = true := by
          rw [isFormed, hnull, isStored_of_short hshort]
          rfl
        have hlt := length_lt_length_list node.payload
        rw [← form_eq_list hformed, ← h.self.1] at hlt
        obtain ⟨read, hread, hval⟩ := h.ofItems_items hformed (hchildren hshort)
        rw [if_neg Bool.false_ne_true, ← hval]
        exact ofItem_list (h.readAll_payload (by omega)) hread

/-- The item of a node is read as what its parent's form tells of it. The bound on the depth is that
of the part of the form. -/
theorem Legible.ofItem_item (h : node.Legible) {depth : Nat}
    (hdepth : node.reference.length ≤ depth) : ofItem depth node.item = .ok node.cited := by
  induction node generalizing depth with
  | null | leaf | stored =>
      have hpos := List.length_pos_iff.mpr h.writtenAs_item.ne_nil
      obtain ⟨depth, rfl⟩ : ∃ less, depth = less + 1 := ⟨depth - 1, by omega⟩
      exact h.ofItem_of_children fun _ ↦ trivial
  | extension stamp first rest child ih =>
      have hpos := List.length_pos_iff.mpr h.writtenAs_item.ne_nil
      obtain ⟨depth, rfl⟩ : ∃ less, depth = less + 1 := ⟨depth - 1, by omega⟩
      -- What is left of the depth bounds the child's form, which is a part of the node's.
      refine h.ofItem_of_children fun hshort ↦ ih h.children ?_
      have hle : child.reference.length ≤ _ :=
        length_reference_le_payload (extension stamp first rest child)
      have hlt := length_lt_length_list (extension stamp first rest child).payload
      rw [reference_of_short rfl hshort, h.self.1, form_eq_list rfl] at hdepth
      omega
  | branch stamp occupied slots value ih =>
      have hpos := List.length_pos_iff.mpr h.writtenAs_item.ne_nil
      obtain ⟨depth, rfl⟩ : ∃ less, depth = less + 1 := ⟨depth - 1, by omega⟩
      refine h.ofItem_of_children fun hshort slot ↦ ih slot (h.children slot) ?_
      have hle : (slots slot).reference.length ≤ _ :=
        length_reference_le_payload (branch stamp occupied slots value) slot
      have hlt := length_lt_length_list (branch stamp occupied slots value).payload
      rw [reference_of_short rfl hshort, h.self.1, form_eq_list rfl] at hdepth
      omega

/-- The form of a legible node is read as the node in short. -/
theorem Legible.decode_form (h : node.Legible) (hformed : node.isFormed = true)
    (hlength : node.form.length < 2 ^ 64) :
    ∃ read, decode node.form = .ok read ∧ read.val = node.abridged.readFrom node.form := by
  have hlt := length_lt_length_list node.payload
  rw [← form_eq_list hformed] at hlt
  have hchildren : node.Children fun below ↦
      ofItem node.form.length below.item = .ok below.cited := by
    have hle := length_reference_le_payload node
    have hlegible := h.children
    cases node with
    | null | leaf | stored => trivial
    | extension stamp first rest child =>
        have hle : child.reference.length ≤ _ := hle
        have hlegible : child.Legible := hlegible
        exact hlegible.ofItem_item (by omega)
    | branch stamp occupied slots value =>
        intro slot
        have hle := hle slot
        exact (hlegible slot).ofItem_item (by omega)
  obtain ⟨read, hread, hval⟩ := h.ofItems_items hformed hchildren
  have hwritten := Item.writtenAs_list node.payload (by omega) []
  rw [List.append_nil, ← form_eq_list hformed] at hwritten
  refine ⟨read.readFrom node.form, ?_, by rw [← hval]; rfl⟩
  rw [decode, hwritten]
  show (do
    let items ← Item.readAll node.payload
    let node' ← ofItems (ofItem node.form.length) items
    if ([] : Bytes).isEmpty then pure (node'.readFrom node.form)
      else .error .unexpectedLength) = _
  rw [h.readAll_payload (by omega)]
  show (do let node' ← ofItems (ofItem node.form.length) node.items; _) = _
  rw [hread]
  rfl

end Node

end Patricia
