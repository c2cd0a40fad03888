import Patricia.Format.Decoding
import Patricia.Format.Encoding
import Patricia.Proofs.Format.Decoded
import Patricia.Proofs.Guarded.Nodes

/-!
# Forms written and read with every precondition tested

Writing a node packs the symbols of its path two a byte, the first one alone if their number is odd,
and asks children for their forms, which a reference does not have. Reading one makes leaves and
extensions over the paths that it read, sets slots by their numbers, and takes a hash from 32 bytes.
With every one of these steps tested, a node that is no reference is written as it is otherwise
(`Guarded.encoding_eq`), and any bytes are read or refused as they are otherwise
(`Guarded.decode_eq`).
-/

namespace Patricia.Guarded

variable {α β ε : Type}

/-! ## Writing -/

/-- The hex-prefix form of symbols. The first symbol is taken off a front of odd length. -/
def hexPrefix (path : Symbols) : Except Breach Bytes :=
  let terminated := path.isTerminated
  let front : Symbols := if terminated then path.dropLast else path
  if front.length % 2 = 1 then do
    let first ← front.at? 0
    let rest ← front.slice (.included 1) .unbounded
    return packPair (Symbols.flag terminated true) first :: Symbols.packPairs rest
  else return packPair (Symbols.flag terminated false) 0 :: Symbols.packPairs front

/-- What a parent writes for a node, given the node's own form. -/
def referenceBy (node : Node) (form : Except Breach Bytes) : Except Breach Bytes :=
  match node with
  | .stored _ hash => .ok hash.reference
  | _ => embed <$> form

/-- The written form of a node, which must not be a reference. -/
def encoding : Node → Except Breach Bytes
  | .null => .ok [0x80]
  | .leaf stamp path value =>
      match stamp.source with
      | some source => .ok source
      | none => do
          let path ← hexPrefix (Path.mk path true).symbols
          return Rlp.list (Rlp.string path ++ Rlp.string value)
  | .extension stamp first rest child =>
      match stamp.source with
      | some source => .ok source
      | none => do
          let path ← hexPrefix (Path.mk (first :: rest) false).symbols
          return Rlp.list (Rlp.string path ++ (← referenceBy child (encoding child)))
  | .branch stamp _ slots value =>
      match stamp.source with
      | some source => .ok source
      | none => do
          let forms ← (List.finRange 16).mapM fun slot ↦
            referenceBy (slots slot) (encoding (slots slot))
          return Rlp.list (forms.flatten ++ Rlp.string (value.getD []))
  | .stored .. => .error .formOfStored

/-- The hash by which a node is addressed. -/
def hash : Node → Except Breach Hash
  | .null => .ok emptyRoot
  | .stored _ hash => .ok hash
  | node => keccak256 <$> encoding node

/-- Symbols have a form. -/
theorem hexPrefix_eq (path : Symbols) : hexPrefix path = .ok path.hexPrefix := by
  rw [hexPrefix, Symbols.hexPrefix]
  generalize (if path.isTerminated = true then path.dropLast else path) = front
  by_cases hodd : front.length % 2 = 1
  · rw [if_pos hodd, beq_iff_eq.mpr hodd]
    cases front with
    | nil => cases hodd
    | cons first rest =>
        have hat : Symbols.at? (first :: rest) 0 = .ok first := rfl
        have hslice : Symbols.slice (first :: rest) (.included 1) .unbounded = .ok rest :=
          Symbols.slice_past [] rest first
        rw [hat, hslice]
        rfl
  · rw [if_neg hodd, beq_eq_false_iff_ne.mpr hodd]
    rfl

/-- A node that is no reference has a form, and every node has a form in its parent. -/
theorem encoding_eq (node : Node) : (node.isStored = false → encoding node = .ok node.encoding) ∧
    referenceBy node (encoding node) = .ok node.reference := by
  -- The form in the parent comes from the node's own.
  have hreference : ∀ {node : Node},
      (node.isStored = false → encoding node = .ok node.encoding) →
        referenceBy node (encoding node) = .ok node.reference := by
    intro node h
    cases node with
    | stored => rfl
    | null | leaf | extension | branch =>
        rw [h rfl]
        rfl
  suffices h : node.isStored = false → encoding node = .ok node.encoding from ⟨h, hreference h⟩
  intro hstored
  induction node with
  | null => rfl
  | leaf stamp path value =>
      rw [encoding, Node.encoding]
      cases stamp.source with
      | some source => rfl
      | none =>
          rw [hexPrefix_eq]
          rfl
  | extension stamp first rest child ih =>
      rw [encoding, Node.encoding]
      cases stamp.source with
      | some source => rfl
      | none =>
          rw [hexPrefix_eq, hreference ih]
          rfl
  | branch stamp occupied slots value ih =>
      rw [encoding, Node.encoding]
      cases stamp.source with
      | some source => rfl
      | none =>
          have hforms : ((List.finRange 16).mapM fun slot ↦
              referenceBy (slots slot) (encoding (slots slot))) =
                .ok ((List.finRange 16).map fun slot ↦ (slots slot).reference) := by
            rw [funext fun slot ↦ hreference (ih slot)]
            exact List.mapM_pure
          rw [hforms]
          rfl
  | stored => cases hstored

/-- Every node has a hash. -/
theorem hash_eq (node : Node) : hash node = .ok node.hash := by
  cases node with
  | null | stored => rfl
  | leaf | extension | branch =>
      show (keccak256 <$> encoding _) = _
      rw [(encoding_eq _).1 rfl]
      rfl

/-! ## Slots set one after the other -/

/-- A result whose precondition was tested, among failures of all kinds. -/
def ofBreach : Except Breach α → Except Failure α :=
  Except.mapError .breach

/-- The slots with the nodes made of some parts set from a number on. -/
def fill (make : α → Except Failure Node) (slots : Slots) (place : Nat) :
    List α → Except Failure Slots
  | [] => .ok slots
  | part :: parts => do
      let node ← make part
      fill make (← ofBreach (slots.setAt place node)) (place + 1) parts

/-- The slots with some nodes set from a number on. -/
def filled (slots : Slots) (place : Nat) : List Node → Slots
  | [] => slots
  | node :: nodes => filled (slots.set (Fin.ofNat 16 place) node) (place + 1) nodes

theorem filled_cons (slots : Slots) (place : Nat) (node : Node) (nodes : List Node) :
    filled slots place (node :: nodes) =
      filled (slots.set (Fin.ofNat 16 place) node) (place + 1) nodes :=
  rfl

/-- Slots can be set up to the sixteenth one. -/
theorem fill_eq {make : α → Except Failure Node} {slots : Slots} {place : Nat} {parts : List α}
    (h : place + parts.length ≤ 16) :
    fill make slots place parts = (do return filled slots place (← parts.mapM make)) := by
  induction parts generalizing slots place with
  | nil => rfl
  | cons part parts ih =>
      rw [List.length_cons] at h
      rw [fill, List.mapM_cons]
      cases make part with
      | error failure => rfl
      | ok node =>
          have hlt : place < 16 := by omega
          have hset : slots.setAt place node = .ok (slots.set (Fin.ofNat 16 place) node) := by
            rw [Slots.setAt, dif_pos hlt]
            congr
            exact (Nat.mod_eq_of_lt hlt).symm
          show (do fill make (← ofBreach (slots.setAt place node)) (place + 1) parts) = _
          rw [hset]
          show fill make _ (place + 1) parts = _
          rw [ih (by omega)]
          cases parts.mapM make <;> rfl

/-- Slots that are set hold the nodes at their places and are marked rightly. -/
theorem filled_spec {slots : Slots} (hsound : slots.Sound) (place : Nat) (nodes : List Node)
    (h : place + nodes.length ≤ 16) :
    (filled slots place nodes).Sound ∧ ∀ slot : Nibble, (filled slots place nodes).node slot =
      if place ≤ slot.val then nodes.getD (slot.val - place) (slots.node slot)
      else slots.node slot := by
  induction nodes generalizing slots place with
  | nil =>
      refine ⟨hsound, fun slot ↦ ?_⟩
      rw [List.getD_nil, ite_self]
      rfl
  | cons node nodes ih =>
      rw [List.length_cons] at h
      obtain ⟨hlater, hnode⟩ :=
        ih (Slots.set_sound hsound (Fin.ofNat 16 place) node) (place + 1) (by omega)
      refine ⟨hlater, fun slot ↦ ?_⟩
      have hplace : slot = Fin.ofNat 16 place ↔ slot.val = place := by
        rw [Fin.ext_iff]
        show slot.val = place % 16 ↔ _
        rw [Nat.mod_eq_of_lt (by omega)]
      rw [filled_cons, hnode, Slots.node_set]
      simp only [hplace]
      by_cases heq : slot.val = place
      · rw [if_neg (by omega), if_pos heq, if_pos (by omega), heq, Nat.sub_self]
        rfl
      · rw [if_neg heq]
        by_cases hle : place ≤ slot.val
        · have hsucc : slot.val - place = slot.val - (place + 1) + 1 := by omega
          rw [if_pos (by omega), if_pos hle, hsucc, List.getD_cons_succ]
        · rw [if_neg (by omega), if_neg hle]

/-! ## Reading -/

/-- A result that was read, among failures of all kinds. -/
def ofDecode : Except DecodeError α → Except Failure α :=
  Except.mapError fun cause ↦ .error (.decode cause)

/-- A leaf or an extension from its two items, given how a child is read. -/
def ofPair (child : Rlp.Item → Except Failure Node) (path content : Rlp.Item) :
    Except Failure Node := do
  let path ← ofDecode (do Path.ofHexPrefix (← path.string))
  if path.symbols.isTerminated then
    let value ← ofDecode content.string
    ofBreach do Node.leafOver (← Path.ofSymbols path.symbols) value
  else if path.symbols.isEmpty then ofDecode (.error .emptyExtensionPath)
  else
    let node ← child content
    if node.isNull then ofDecode (.error .emptyExtensionChild)
    else ofBreach do Node.extensionOver (← Path.ofSymbols path.symbols) node

/-- A branch from the items of its slots and of its value, given how a child is read. -/
def ofRow (child : Rlp.Item → Except Failure Node) (slots : List Rlp.Item) (value : Rlp.Item) :
    Except Failure Node := do
  let slots ← fill child .empty 0 slots
  let value ← ofDecode value.string
  let value := if value.isEmpty then none else some value
  if slots.count + value.toList.length < 2 then ofDecode (.error .tooFewEntries)
  else return .ofSlots .blank slots value

/-- A node from the items of its list, given how a child is read. -/
def ofItems (child : Rlp.Item → Except Failure Node) (items : List Rlp.Item) :
    Except Failure Node :=
  match items with
  | [path, content] => ofPair child path content
  | _ =>
      match items.drop 16 with
      | [value] => ofRow child (items.take 16) value
      | _ => ofDecode (.error .listLength)

/-- A child from its item. A hash is taken from a payload of 32 bytes and no other. -/
def ofItem : Nat → Rlp.Item → Except Failure Node
  | 0, _ => ofDecode (.error .inputTooShort)
  | depth + 1, item =>
      if item.isList then do
        ofItems (ofItem depth) (← ofDecode (Rlp.Item.readAll item.payload))
      else if item.payload.isEmpty then .ok .null
      else if item.payload.length = 32 then
        match Hash.ofBytes? item.payload with
        | some hash => .ok (.stored .blank hash)
        | none => .error (.breach .outOfRange)
      else ofDecode (.error .stringLength)

/-- The node that a byte string writes. -/
def decode (bytes : Bytes) : Except Failure Node := do
  let (item, rest) ← ofDecode (Rlp.Item.read bytes)
  if ¬ item.isList then ofDecode (.error .notAList)
  else
    let node ← ofItems (ofItem bytes.length) (← ofDecode (Rlp.Item.readAll item.payload))
    if rest.isEmpty then return node.readFrom bytes else ofDecode (.error .unexpectedLength)

section Reading

variable {child : Rlp.Item → Except DecodeError Node} (path content value : Rlp.Item)
  (items : List Rlp.Item)

/-- Reading two things one after the other is the same among failures of all kinds. -/
theorem ofDecode_bind (first : Except DecodeError α) (next : α → Except DecodeError β) :
    ofDecode (first >>= next) = (do ofDecode (next (← ofDecode first))) := by
  cases first <;> rfl

/-- So is reading a list of things. -/
theorem ofDecode_mapM (make : α → Except DecodeError β) (parts : List α) :
    (parts.mapM fun part ↦ ofDecode (make part)) = ofDecode (parts.mapM make) := by
  induction parts with
  | nil => rfl
  | cons part parts ih =>
      rw [List.mapM_cons, List.mapM_cons, ih, ofDecode_bind]
      refine congrArg (ofDecode (make part) >>= ·) (funext fun result ↦ ?_)
      rw [ofDecode_bind]
      rfl

/-- Succeeding and going on is going on. -/
@[simp] theorem ok_bind (result : α) (next : α → Except ε β) :
    (Except.ok result >>= next) = next result := rfl

@[simp] theorem ofDecode_ok (result : α) : ofDecode (.ok result) = .ok result := rfl

/-- A leaf or an extension is read. -/
theorem ofPair_eq : ofPair (fun item ↦ ofDecode (child item)) path content =
    ofDecode ((·.val) <$> Node.ofPair child path content) := by
  rw [ofPair, Node.ofPair]
  cases path.string with
  | error cause => rfl
  | ok bytes =>
      simp only [ok_bind]
      cases Path.ofHexPrefix bytes with
      | error cause => rfl
      | ok path =>
          simp only [ofDecode_ok, ok_bind, Path.isTerminated_symbols, Path.ofSymbols_symbols]
          obtain ⟨nibbles, _ | _⟩ := path
          · cases nibbles with
            | nil => rfl
            | cons first rest =>
                simp only [Bool.false_eq_true, if_false]
                rw [(isEmpty_symbols _).2]
                simp only [List.isEmpty_cons, Bool.false_eq_true, if_false]
                cases child content with
                | error cause => rfl
                | ok node =>
                    simp only [ofDecode_ok, ok_bind]
                    cases node.isNull <;> rfl
          · cases content.string <;> rfl

/-- A branch is read. -/
theorem ofRow_eq (hitems : items.length = 16) :
    ofRow (fun item ↦ ofDecode (child item)) items value =
      ofDecode ((·.val) <$> Node.ofRow child items value) := by
  rw [ofRow, Node.ofRow, fill_eq (by omega), ofDecode_mapM]
  cases hnodes : items.mapM child with
  | error cause => rfl
  | ok nodes =>
      simp only [ofDecode_ok, ok_bind, pure_bind]
      have hlength : nodes.length = 16 := (length_of_mapM_eq_ok hnodes).trans hitems
      have hslots : filled .empty 0 nodes = Slots.ofList nodes := by
        obtain ⟨hsound, hnode⟩ := filled_spec Slots.empty_sound 0 nodes (by omega)
        refine hsound.eq_of_node_eq (Slots.ofList_sound nodes) fun slot ↦ ?_
        rw [hnode, if_pos (Nat.zero_le _), Slots.node_ofList]
        rfl
      rw [hslots]
      cases value.string with
      | error cause => rfl
      | ok bytes =>
          simp only [ofDecode_ok, ok_bind]
          generalize (if bytes.isEmpty = true then none else some bytes) = own
          split <;> rfl

/-- A node is read from its items. -/
theorem ofItems_eq : ofItems (fun item ↦ ofDecode (child item)) items =
    ofDecode ((·.val) <$> Node.ofItems child items) := by
  rw [ofItems.eq_def, Node.ofItems.eq_def]
  rcases items with _ | ⟨first, _ | ⟨second, _ | ⟨third, rest⟩⟩⟩
  · rfl
  · rfl
  · exact ofPair_eq first second
  · cases hdrop : (first :: second :: third :: rest).drop 16 with
    | nil => rfl
    | cons value more =>
        cases more with
        | nil =>
            have hlength := congrArg List.length hdrop
            rw [List.length_drop, List.length_singleton] at hlength
            exact ofRow_eq value _ (by rw [List.length_take]; omega)
        | cons => rfl

/-- A child is read. -/
theorem ofItem_eq (depth : Nat) (item : Rlp.Item) :
    ofItem depth item = ofDecode (Node.ofItem depth item) := by
  induction depth generalizing item with
  | zero => rfl
  | succ depth ih =>
      rw [ofItem, Node.ofItem]
      split
      · rw [ofDecode_bind]
        refine congrArg (ofDecode (Rlp.Item.readAll item.payload) >>= ·) (funext fun items ↦ ?_)
        rw [funext ih, ofItems_eq]
        cases Node.ofItems (Node.ofItem depth) items <;> rfl
      · split
        · rfl
        · rw [Hash.ofBytes?]
          split
          · rfl
          · rfl

/-- Any bytes are read or refused as they are without tests. -/
theorem decode_eq (bytes : Bytes) : decode bytes = ofDecode ((·.val) <$> Node.decode bytes) := by
  rw [decode, Node.decode]
  cases Rlp.Item.read bytes with
  | error cause => rfl
  | ok read =>
      obtain ⟨item, rest⟩ := read
      simp only [ofDecode_ok, ok_bind]
      split
      · rfl
      · cases Rlp.Item.readAll item.payload with
        | error cause => rfl
        | ok items =>
            simp only [ofDecode_ok, ok_bind]
            rw [funext (ofItem_eq bytes.length), ofItems_eq]
            cases Node.ofItems (Node.ofItem bytes.length) items with
            | error cause => rfl
            | ok node => split <;> rfl

end Reading

end Patricia.Guarded
