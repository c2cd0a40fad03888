import Patricia.Proofs.Format.Reading
import Patricia.Proofs.Store.Held

/-!
# Which nodes can be read back

What is read back from the form of a node should look like the node: `Node.face` is what there is to
see of a node apart from its children. It does so unless the node is a branch with an empty value of
its own, which is written like none, or its form cannot be read at all (`Node.Spoilt`), because it
is such a branch with one slot in use or has one written in place below it. In a tree whose nodes
from bytes are what the bytes say, exactly the other nodes are read back (`Node.rereads_iff`).
-/

namespace Patricia

open Rlp (Item)

/-- What there is to see of a node apart from its children: the nibbles it covers, its value and its
slots in use. The path tells what kind of node it is: that of a leaf ends a key, that of an
extension leads on, and a branch has none. -/
structure Face where
  path : Path
  value : Option Bytes
  occupied : BitVec 16
deriving DecidableEq

namespace Node

/-- What there is to see of the node. -/
def face : Node → Face
  | .leaf _ path value => ⟨⟨path, true⟩, some value, 0#16⟩
  | .extension _ first rest _ => ⟨⟨first :: rest, false⟩, none, 0#16⟩
  | .branch _ occupied _ value => ⟨.empty, value, occupied⟩
  | .null | .stored .. => ⟨.empty, none, 0#16⟩

/-- What there is to see of the node in its form, where an empty value of a branch is none. -/
def writtenFace (node : Node) : Face :=
  if node.isHollow then { node.face with value := none } else node.face

/-- What is read for the node's hash from the node's form looks like the node. -/
def Rereads (node : Node) : Prop :=
  ∃ read, Loader.judge node.hash (.ok (some node.encoding)) = .ok read ∧ read.val.face = node.face

/-- The node's form cannot be read: it has less than two entries in writing, as an empty value is
written like none, or that is so of a node written in place below it. -/
def Spoilt : Node → Prop
  | .extension stamp _ _ child =>
      stamp.source = none ∧ child.encoding.length < 32 ∧ child.Spoilt
  | .branch stamp occupied slots value =>
      stamp.source = none ∧ ((value = some [] ∧ (Slots.mk occupied slots).count < 2) ∨
        ∃ slot, (slots slot).encoding.length < 32 ∧ (slots slot).Spoilt)
  | .null | .leaf .. | .stored .. => False

/-- If the node was read from bytes, it is what the bytes are read as. -/
def Sourced (node : Node) : Prop :=
  ∀ source, node.stamp.source = some source →
    ∃ read, decode source = .ok read ∧ read.val.plain = node.plain

variable {node : Node}

/-! ## What stamps do not change -/

/-- Stamps do not matter for what there is to see. -/
theorem face_plain (node : Node) : node.plain.face = node.face := by
  cases node with
  | null | leaf | stored => rfl
  | extension => rw [plain_extension]; rfl
  | branch => rw [plain_branch]; rfl

/-- The bytes that a node was read from do not matter for what there is to see. -/
theorem face_readFrom (source : Bytes) (node : Node) : (node.readFrom source).face = node.face := by
  cases node <;> rfl

/-- Stamps do not matter for whether a branch has an empty value. -/
theorem isHollow_plain (node : Node) : node.plain.isHollow = node.isHollow := by
  cases node with
  | null | leaf | stored => rfl
  | extension => rw [plain_extension]; rfl
  | branch => rw [plain_branch]; rfl

/-- Only a hollow branch looks different in writing. -/
theorem writtenFace_eq_iff : node.writtenFace = node.face ↔ node.isHollow = false := by
  rw [writtenFace]
  cases hhollow : node.isHollow with
  | false => simp
  | true =>
      cases node with
      | null | leaf | extension | stored => cases hhollow
      | branch stamp occupied slots value =>
          obtain rfl : value = some [] := beq_iff_eq.mp hhollow
          simp [face]

/-- A node that was read from bytes can be read. -/
theorem not_spoilt_of_source {source : Bytes} (h : node.stamp.source = some source) :
    ¬node.Spoilt := by
  intro hspoilt
  have hnone : node.stamp.source = none := by
    cases node with
    | null | leaf | stored => exact hspoilt.elim
    | extension | branch => exact hspoilt.1
  rw [hnone] at h
  cases h

/-- Only below a branch with an empty value is anything spoilt. -/
theorem not_spoilt_of_full (h : node.All fun part ↦ part.isHollow = false) : ¬node.Spoilt := by
  induction node with
  | null | leaf | stored => exact id
  | extension stamp first rest child ih => exact fun hspoilt ↦ ih h.2 hspoilt.2.2
  | branch stamp occupied slots value ih =>
      rintro ⟨-, ⟨hvalue, -⟩ | ⟨slot, -, hspoilt⟩⟩
      · rw [hvalue] at h
        cases h.1
      · exact ih slot (h.2 slot) hspoilt

/-! ## One form -/

/-- What is read from a node's form: it is the form of a list, which cannot be read if the node is
spoilt, and otherwise is read as a node that looks like this one in writing. -/
structure Reported (node : Node) : Prop where
  item : ∃ item : Item, item.isList = true ∧ item.WrittenAs node.encoding
  refused : node.Spoilt → ∃ cause, decode node.encoding = .error cause
  read : ¬node.Spoilt → ∃ read, decode node.encoding = .ok read ∧ read.val.face = node.writtenFace

/-- What is read from an item in place of a node: it cannot be read if the node is written in place
and spoilt, and otherwise is read as a node that is empty if this one is. -/
structure Conveyed (node : Node) (item : Item) : Prop where
  written : item.WrittenAs node.reference
  refused : node.encoding.length < 32 ∧ node.Spoilt → ∀ depth, node.reference.length ≤ depth →
    ∃ cause, ofItem depth item = .error cause
  read : ¬(node.encoding.length < 32 ∧ node.Spoilt) → ∀ depth, node.reference.length ≤ depth →
    ∃ read, ofItem depth item = .ok read ∧ read.isNull = node.isNull

/-- A node whose form is long is written by its hash, which is read as a reference. -/
theorem conveyed_of_long (hlong : 32 ≤ node.encoding.length) :
    node.Conveyed ⟨false, node.hash.bytes⟩ := by
  have hreference := reference_of_long hlong
  refine ⟨?_, fun hshort ↦ by omega, fun _ depth hdepth ↦
    ⟨.stored .blank node.hash, ?_, (isNull_of_long hlong).symm⟩⟩
  · rw [hreference, reference_eq_string]
    exact Item.writtenAs_string _ (by rw [node.hash.length_eq]; decide)
  · rw [hreference, length_reference] at hdepth
    obtain ⟨depth, rfl⟩ : ∃ less, depth = less + 1 := ⟨depth - 1, by omega⟩
    exact ofItem_hash depth node.hash

/-- The empty node is written as an empty string and read from it. -/
theorem null_conveyed : null.Conveyed ⟨false, []⟩ := by
  refine ⟨Item.writtenAs_string [] (by decide), fun hspoilt ↦ hspoilt.2.elim,
    fun _ depth hdepth ↦ ⟨.null, ?_, rfl⟩⟩
  obtain ⟨depth, rfl⟩ : ∃ less, depth = less + 1 := by
    have hone : null.reference.length = 1 := rfl
    exact ⟨depth - 1, by omega⟩
  rfl

/-- What is read from a short form on its own is what is read from it in place. -/
theorem Reported.conveyed_of_short (h : node.Reported) (hformed : node.isFormed = true)
    (hshort : node.encoding.length < 32) : ∃ item, node.Conveyed item := by
  obtain ⟨⟨item, hlist, hwritten⟩, hrefused, hread⟩ := h
  have hreference := reference_of_short (isStored_of_formed hformed) hshort
  have hplace : ∀ depth, node.reference.length ≤ depth →
      (decode node.encoding).map (·.val) =
        (ofItem depth item).map (readFrom node.encoding) := by
    intro depth hdepth
    have hfront := hwritten []
    rw [List.append_nil] at hfront
    have hlength := (Item.length_of_read hfront).2.2 hlist
    rw [hreference] at hdepth
    exact decode_eq_ofItem hwritten hlist (by omega)
  refine ⟨item, hreference ▸ hwritten, fun hspoilt depth hdepth ↦ ?_,
    fun hsound depth hdepth ↦ ?_⟩
  · obtain ⟨cause, hcause⟩ := hrefused hspoilt.2
    have heq := hplace depth hdepth
    rw [hcause] at heq
    cases hitem : ofItem depth item with
    | error cause => exact ⟨cause, rfl⟩
    | ok below =>
        rw [hitem] at heq
        cases heq
  · obtain ⟨read, hdecode, -⟩ := hread fun hspoilt ↦ hsound ⟨hshort, hspoilt⟩
    have heq := hplace depth hdepth
    rw [hdecode] at heq
    cases hitem : ofItem depth item with
    | error cause =>
        rw [hitem] at heq
        cases heq
    | ok below =>
        rw [hitem] at heq
        refine ⟨below, rfl, ?_⟩
        have hval : read.val = below.readFrom node.encoding := by
          injection heq
        rw [isNull_of_formed hformed, ← isNull_readFrom node.encoding below, ← hval]
        exact (decode_wellFormed hdecode).2

/-- What is read from a node's own form is what is read from the form in place. -/
theorem Reported.conveyed (h : node.isFormed = true → node.Reported) :
    ∃ item, node.Conveyed item := by
  by_cases hlong : 32 ≤ node.encoding.length
  · exact ⟨_, conveyed_of_long hlong⟩
  · have hshort : node.encoding.length < 32 := Nat.not_le.mp hlong
    cases node with
    | null => exact ⟨_, null_conveyed⟩
    | stored stamp hash => exact absurd (isStored_of_short hshort) nofun
    | leaf | extension | branch => exact (h rfl).conveyed_of_short rfl hshort

/-! ## One node over its children -/

section Children

variable {child : Item → Except DecodeError Node} {stamp : Stamp}

/-- A pair whose path leads on is read as an extension over what its second item is read as. -/
theorem ofPair_extension (first : Nibble) (rest : List Nibble) (content : Item) :
    ofPair child ⟨false, (Path.mk (first :: rest) false).hexPrefix⟩ content = (do
      let node ← child content
      if node.isNull then .error .emptyExtensionChild
      else return ⟨.extension .blank first rest node, rfl⟩) := by
  simp only [ofPair, Item.string, Bool.false_eq_true, if_false]
  show (do let path ← Path.ofHexPrefix _; _) = _
  rw [Path.ofHexPrefix_hexPrefix]
  rfl

/-- Where a function fails on an element, so it does on the list. -/
theorem exists_mapM_eq_error {α β ε : Type} {f : α → Except ε β} {list : List α} {element : α}
    {fault : ε} (hmem : element ∈ list) (h : f element = .error fault) :
    ∃ fault, list.mapM f = .error fault := by
  induction list with
  | nil => cases hmem
  | cons first list ih =>
      rw [List.mapM_cons]
      cases hfirst : f first with
      | error fault => exact ⟨fault, rfl⟩
      | ok result =>
          rcases List.mem_cons.mp hmem with rfl | hmem
          · rw [h] at hfirst
            cases hfirst
          · obtain ⟨fault, hfault⟩ := ih hmem
            exact ⟨fault, by rw [hfault]; rfl⟩

/-- The form of a node is read as the list of its items. -/
theorem writtenAs_form (hformed : node.isFormed = true) (hfits : node.form.length < 2 ^ 64) :
    Item.WrittenAs ⟨true, node.payload⟩ node.form := by
  have hlt := length_lt_length_list node.payload
  rw [← form_eq_list hformed] at hlt
  rw [form_eq_list hformed]
  exact Item.writtenAs_list _ (by omega)

/-- A leaf that was not read from bytes is read back. -/
theorem leaf_reported {path : List Nibble} {value : Bytes} (hsource : stamp.source = none)
    (hfits : (leaf stamp path value).encoding.length < 2 ^ 64) :
    (leaf stamp path value).Reported := by
  have hform : (leaf stamp path value).encoding = (leaf stamp path value).form :=
    encoding_eq_form hsource
  have hlegible : (leaf stamp path value).Legible := ⟨hform, trivial, nofun⟩
  rw [hform] at hfits
  obtain ⟨read, hread, hval⟩ := hlegible.decode_form rfl hfits
  refine ⟨⟨_, rfl, hform ▸ writtenAs_form rfl hfits⟩, False.elim, fun _ ↦
    ⟨read, hform ▸ hread, ?_⟩⟩
  rw [hval, face_readFrom]
  rfl

/-- An extension that was not read from bytes is read back if its child is. -/
theorem extension_reported {first : Nibble} {rest : List Nibble} {below : Node} {item : Item}
    (hsource : stamp.source = none) (hnull : below.isNull = false)
    (hfits : (extension stamp first rest below).encoding.length < 2 ^ 64)
    (hbelow : below.Conveyed item) : (extension stamp first rest below).Reported := by
  have hform : (extension stamp first rest below).encoding =
      (extension stamp first rest below).form := encoding_eq_form hsource
  rw [hform] at hfits
  have hwritten := writtenAs_form rfl hfits
  have hlt := length_lt_length_list (extension stamp first rest below).payload
  rw [← form_eq_list rfl, payload, List.length_append] at hlt
  have hitems : Item.readAll (extension stamp first rest below).payload =
      .ok [⟨false, (Path.mk (first :: rest) false).hexPrefix⟩, item] := by
    have hpath := Item.writtenAs_string (Path.mk (first :: rest) false).hexPrefix
      (Nat.lt_of_le_of_lt (length_le_length_string _) (by omega))
    have hpieces := Item.readAll_flatten (.cons hpath (.cons hbelow.written .nil))
    rwa [List.flatten_cons, List.flatten_cons, List.flatten_nil, List.append_nil] at hpieces
  have hdecode := decode_eq_ofItems hwritten rfl hitems
  rw [ofItems, ofPair_extension] at hdecode
  refine ⟨⟨_, rfl, hform ▸ hwritten⟩, fun hspoilt ↦ ?_, fun hsound ↦ ?_⟩
  · obtain ⟨cause, hcause⟩ := hbelow.refused hspoilt.2
      (extension stamp first rest below).form.length (by omega)
    rw [hcause] at hdecode
    exact ⟨cause, hform ▸ hdecode⟩
  · obtain ⟨read, hread, hempty⟩ :=
      hbelow.read (fun hspoilt ↦ hsound ⟨hsource, hspoilt⟩)
        (extension stamp first rest below).form.length (by omega)
    rw [hread] at hdecode
    have hsome : ¬read.isNull = true := by rw [hempty, hnull]; exact Bool.false_ne_true
    change _ = Except.map _ (if read.isNull = true then _ else _) at hdecode
    rw [if_neg hsome] at hdecode
    exact ⟨_, hform ▸ hdecode, rfl⟩

section Row

variable {occupied : BitVec 16} {slots : Nibble → Node} {value : Option Bytes}
  {item : Nibble → Item}

/-- The payload of a branch is read as the items of its slots and its value. -/
theorem readAll_row (hslots : ∀ slot, (slots slot).Conveyed (item slot))
    (hfits : (branch stamp occupied slots value).form.length < 2 ^ 64) :
    Item.readAll (branch stamp occupied slots value).payload =
      .ok ((List.finRange 16).map item ++ [⟨false, value.getD []⟩]) := by
  have hlt := length_lt_length_list (branch stamp occupied slots value).payload
  rw [← form_eq_list rfl, payload, List.length_append] at hlt
  have hvalue := Item.writtenAs_string (value.getD [])
    (Nat.lt_of_le_of_lt (length_le_length_string _) (by omega))
  have hall : List.Forall₂ Item.WrittenAs ((List.finRange 16).map item)
      ((List.finRange 16).map fun slot ↦ (slots slot).reference) := by
    rw [List.forall₂_map_left_iff, List.forall₂_map_right_iff, List.forall₂_same]
    exact fun slot _ ↦ (hslots slot).written
  have hpieces := Item.readAll_flatten (List.rel_append hall (.cons hvalue .nil))
  rw [payload, List.flatMap_def, ← List.append_nil (Rlp.string _), ← List.flatten_nil,
    ← List.flatten_cons, ← List.flatten_append]
  exact hpieces

/-- The form of a branch is read as the row of its items. -/
theorem decode_row (hslots : ∀ slot, (slots slot).Conveyed (item slot))
    (hfits : (branch stamp occupied slots value).form.length < 2 ^ 64) :
    decode (branch stamp occupied slots value).form = (do
      let read ← ofRow (ofItem (branch stamp occupied slots value).form.length)
        ((List.finRange 16).map item) ⟨false, value.getD []⟩
      return read.readFrom (branch stamp occupied slots value).form) := by
  rw [decode_eq_ofItems (writtenAs_form rfl hfits) rfl (readAll_row hslots hfits),
    ofItems_row _ _ _ (by simp)]

/-- The form of a branch is as long as that of each slot at least. -/
theorem length_slot_le (slot : Nibble) :
    (slots slot).reference.length ≤ (branch stamp occupied slots value).form.length := by
  have hslot : (slots slot).reference.length ≤ _ :=
    length_reference_le_payload (branch stamp occupied slots value) slot
  have hlt := length_lt_length_list (branch stamp occupied slots value).payload
  rw [← form_eq_list rfl] at hlt
  omega

/-- Nodes that are empty where the slots of a branch are, are marked as they are. -/
theorem occupied_ofList (hsound : (Slots.mk occupied slots).Sound) {read : Nibble → Node}
    (hnull : ∀ slot, (read slot).isNull = (slots slot).isNull) :
    (Slots.ofList ((List.finRange 16).map read)).occupied = occupied := by
  refine (Slots.ofList_sound _).occupied_eq hsound fun slot ↦ ?_
  rw [Slots.node_ofList, ← hnull]
  simp

/-- The value of a branch in writing is its own, or none if that is empty. -/
theorem value_writtenFace : (branch stamp occupied slots value).writtenFace.value =
    if (value.getD []).isEmpty then none else some (value.getD []) := by
  rcases value with _ | _ | _ <;> rfl

/-- A branch has less than two entries in writing if it has an empty value and one slot in use. -/
theorem count_written_lt_iff (hproper : (branch stamp occupied slots value).Proper fun _ ↦ True) :
    (Slots.mk occupied slots).count +
        (branch stamp occupied slots value).writtenFace.value.toList.length < 2 ↔
      value = some [] ∧ (Slots.mk occupied slots).count < 2 := by
  obtain ⟨hsound, hforked, -⟩ := hproper
  have hentries := (hsound.forked_iff value).mp hforked
  rw [value_writtenFace]
  rcases value with _ | _ | ⟨byte, bytes⟩
  · exact ⟨fun hfew ↦ absurd hfew (Nat.not_lt.mpr hentries), fun hnone ↦ nomatch hnone.1⟩
  · exact ⟨fun hfew ↦ ⟨rfl, hfew⟩, And.right⟩
  · exact ⟨fun hfew ↦ absurd hfew (Nat.not_lt.mpr hentries), fun hempty ↦ nomatch hempty.1⟩

/-- A branch whose slots can be read is read as one that looks like it in writing, if that has two
entries. -/
theorem decode_branch (hslots : ∀ slot, (slots slot).Conveyed (item slot))
    (hproper : (branch stamp occupied slots value).Proper fun _ ↦ True)
    (hfits : (branch stamp occupied slots value).form.length < 2 ^ 64)
    (hbelow : ¬∃ slot, (slots slot).encoding.length < 32 ∧ (slots slot).Spoilt) :
    if value = some [] ∧ (Slots.mk occupied slots).count < 2 then
      decode (branch stamp occupied slots value).form = .error .tooFewEntries
    else ∃ read, decode (branch stamp occupied slots value).form = .ok read ∧
      read.val.face = (branch stamp occupied slots value).writtenFace := by
  have hall : ∀ slot, ∃ read,
      ofItem (branch stamp occupied slots value).form.length (item slot) = .ok read ∧
        read.isNull = (slots slot).isNull := fun slot ↦
    (hslots slot).read (fun hspoilt ↦ hbelow ⟨slot, hspoilt⟩) _ (length_slot_le slot)
  choose read hread hnull using hall
  have hmap : ((List.finRange 16).map item).mapM
      (ofItem (branch stamp occupied slots value).form.length) =
        .ok ((List.finRange 16).map read) := by
    rw [List.mapM_map]
    exact mapM_eq_ok _ hread
  have hoccupied := occupied_ofList hproper.1 hnull
  have hcount : (Slots.ofList ((List.finRange 16).map read)).count =
      (Slots.mk occupied slots).count := by
    simp only [Slots.count, Slots.marked, hoccupied]
  have hdecode := decode_row hslots hfits
  rw [ofRow, hmap] at hdecode
  change _ = (if _ + (if (value.getD []).isEmpty then none else some (value.getD [])).toList.length
    < 2 then _ else _) >>= _ at hdecode
  rw [← value_writtenFace, hcount] at hdecode
  split
  · rename_i hfew
    rw [hdecode, if_pos ((count_written_lt_iff hproper).mpr hfew)]
    rfl
  · rename_i hmany
    rw [hdecode, if_neg fun hfew ↦ hmany ((count_written_lt_iff hproper).mp hfew)]
    refine ⟨_, rfl, ?_⟩
    show Face.mk .empty _ _ = _
    rw [hoccupied, writtenFace]
    split <;> rfl

/-- A branch that was not read from bytes is read back if its slots are and it has two entries in
writing. -/
theorem branch_reported (hsource : stamp.source = none)
    (hproper : (branch stamp occupied slots value).Proper fun _ ↦ True)
    (hfits : (branch stamp occupied slots value).encoding.length < 2 ^ 64)
    (hslots : ∀ slot, (slots slot).Conveyed (item slot)) :
    (branch stamp occupied slots value).Reported := by
  have hform : (branch stamp occupied slots value).encoding =
      (branch stamp occupied slots value).form := encoding_eq_form hsource
  rw [hform] at hfits
  have hbranch := decode_branch hslots hproper hfits
  refine ⟨⟨_, rfl, hform ▸ writtenAs_form rfl hfits⟩, fun hspoilt ↦ ?_, fun hsound ↦ ?_⟩
  · rw [hform]
    by_cases hbelow : ∃ slot, (slots slot).encoding.length < 32 ∧ (slots slot).Spoilt
    -- A slot cannot be read, and so the row cannot.
    · obtain ⟨slot, hslot⟩ := hbelow
      obtain ⟨cause, hcause⟩ := (hslots slot).refused hslot _ (length_slot_le slot)
      obtain ⟨fault, hfault⟩ := exists_mapM_eq_error
        (List.mem_map_of_mem (List.mem_finRange slot)) hcause
      rw [decode_row hslots hfits, ofRow, hfault]
      exact ⟨fault, rfl⟩
    · have hread := hbranch hbelow
      rw [if_pos (hspoilt.2.resolve_right hbelow)] at hread
      exact ⟨_, hread⟩
  · have hread := hbranch fun hbelow ↦ hsound ⟨hsource, .inr hbelow⟩
    rw [if_neg fun hfew ↦ hsound ⟨hsource, .inl hfew⟩] at hread
    rw [hform]
    exact hread

end Row

end Children

/-! ## Whole trees -/

/-- A node that is what the bytes it was read from say is read back. -/
theorem Sourced.reported (h : node.Sourced) {source : Bytes}
    (hsource : node.stamp.source = some source) (hformed : node.isFormed = true) :
    node.Reported := by
  obtain ⟨read, hdecode, hplain⟩ := h source hsource
  have hencoding := encoding_eq_source hsource (isStored_of_formed hformed)
  obtain ⟨blank, rfl, hliteral, -⟩ := decode_literal hdecode
  rw [Resolved.readFrom, plain_readFrom] at hplain
  have hhollow : node.isHollow = false := by
    rw [← isHollow_plain, ← hplain, isHollow_plain]
    exact hliteral.self.isHollow_eq
  refine ⟨hencoding ▸ exists_item_of_decode hdecode,
    fun hspoilt ↦ (not_spoilt_of_source hsource hspoilt).elim, fun _ ↦
      ⟨_, hencoding ▸ hdecode, ?_⟩⟩
  rw [writtenFace_eq_iff.mpr hhollow, ← face_plain node, ← hplain, face_plain]
  exact face_readFrom _ blank.val

/-- Every node of a well-formed tree is read back, unless it is spoilt, if the nodes from bytes are
what the bytes say. -/
theorem WellFormed.reported (h : node.WellFormed) (hsourced : node.All Sourced)
    (hfits : node.All fun node ↦ node.encoding.length < 2 ^ 64) :
    node.All fun node ↦ node.isFormed = true → node.Reported := by
  induction node with
  | null | stored => exact nofun
  | leaf stamp path value =>
      intro hformed
      cases hsource : stamp.source with
      | some source => exact Sourced.reported hsourced hsource rfl
      | none => exact leaf_reported hsource hfits
  | extension stamp first rest child ih =>
      have hchild := ih h.2 hsourced.2 hfits.2
      refine ⟨fun hformed ↦ ?_, hchild⟩
      cases hsource : stamp.source with
      | some source => exact hsourced.1.reported hsource rfl
      | none =>
          obtain ⟨item, hitem⟩ := Reported.conveyed hchild.self
          exact extension_reported hsource h.1 hfits.1 hitem
  | branch stamp occupied slots value ih =>
      have hslots := fun slot ↦ ih slot (h.2 slot) (hsourced.2 slot) (hfits.2 slot)
      refine ⟨fun hformed ↦ ?_, hslots⟩
      cases hsource : stamp.source with
      | some source => exact hsourced.1.reported hsource rfl
      | none =>
          choose item hitem using fun slot ↦ Reported.conveyed (hslots slot).self
          exact branch_reported hsource h.1 hfits.1 hitem

/-- A node whose form is read as it looks in writing is read back exactly if it can be read and is
no branch with an empty value. -/
theorem Reported.rereads_iff (h : node.Reported) (hformed : node.isFormed = true) :
    node.Rereads ↔ node.isHollow = false ∧ ¬node.Spoilt := by
  have hjudge : ∀ read, Loader.judge node.hash (.ok (some node.encoding)) = .ok read ↔
      decode node.encoding = .ok read := by
    intro read
    rw [Loader.judge, if_pos (hash_eq_keccak256 (isStored_of_formed hformed)).symm]
    cases decode node.encoding with
    | ok other => simp only [Except.ok.injEq]
    | error cause => constructor <;> rintro ⟨⟩
  simp only [Rereads, hjudge]
  constructor
  · rintro ⟨read, hdecode, hface⟩
    have hsound : ¬node.Spoilt := by
      intro hspoilt
      obtain ⟨cause, hcause⟩ := h.refused hspoilt
      rw [hcause] at hdecode
      cases hdecode
    obtain ⟨other, hother, hwritten⟩ := h.read hsound
    cases hdecode.symm.trans hother
    exact ⟨writtenFace_eq_iff.mp (hwritten.symm.trans hface), hsound⟩
  · rintro ⟨hhollow, hsound⟩
    obtain ⟨read, hdecode, hwritten⟩ := h.read hsound
    exact ⟨read, hdecode, hwritten.trans (writtenFace_eq_iff.mpr hhollow)⟩

end Node

end Patricia
