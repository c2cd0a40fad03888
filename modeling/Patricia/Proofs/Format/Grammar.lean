import Patricia.Proofs.Format.Packing

/-!
# The grammar of written nodes

`Rlp.Item.Spelled` says which bytes are an item, and `Node.Spelled` which bytes stand for a node
where a child can stand: the empty string for none, 32 bytes for a reference, a list for a leaf, an
extension or a branch. Both are said without reading and writing. Reading accepts exactly the lists
among these, gives the node that they stand for, and refuses all other bytes
(`Node.decode_recognizes`).
-/

namespace Patricia

namespace Rlp

/-- Bytes write a number below the power of their count. -/
theorem ofBigEndian_lt (digits : Bytes) : ofBigEndian digits < 256 ^ digits.length := by
  induction digits using List.reverseRecOn with
  | nil => exact Nat.one_pos
  | append_singleton front last ih =>
      have hlast := last.toNat_lt
      rw [ofBigEndian] at ih ⊢
      rw [List.foldl_append, List.foldl_cons, List.foldl_nil, List.length_append,
        List.length_singleton, Nat.pow_succ]
      omega

namespace Item

/-- What the first bytes of headers count from, for lists and for strings. -/
def origin (isList : Bool) : Nat :=
  if isList then 192 else 128

/-- Bytes that are an item in canonical form. -/
inductive Spelled : Item → Bytes → Prop
  /-- A byte below 128 is a string by itself. -/
  | byte {byte : UInt8} (hbyte : byte < 128) : Spelled ⟨false, [byte]⟩ [byte]
  /-- The length of other payloads below 56 is in the first byte. -/
  | short {isList : Bool} {payload : Bytes} (hlength : payload.length < 56)
      (hbyte : isList = false → ∀ byte, payload = [byte] → 128 ≤ byte) :
      Spelled ⟨isList, payload⟩ (UInt8.ofNat (origin isList + payload.length) :: payload)
  /-- The length of payloads from 56 on is in up to eight bytes of its own, the first one of them
  not zero, and their number is in the first byte. -/
  | long {isList : Bool} {payload digits : Bytes} (hlength : 56 ≤ payload.length)
      (hdigits : ofBigEndian digits = payload.length) (hlead : digits.head? ≠ some 0)
      (hcount : digits.length ≤ 8) :
      Spelled ⟨isList, payload⟩
        (UInt8.ofNat (origin isList + 55 + digits.length) :: digits ++ payload)

variable {isList : Bool} {count : Nat} {bytes rest : Bytes} {item other : Item} {items : List Item}

/-- The first byte of a short header. -/
theorem ofNat_origin (isList : Bool) (length : Nat) :
    UInt8.ofNat (origin isList + length) = base isList + UInt8.ofNat length := by
  rw [UInt8.ofNat_add]
  cases isList <;> rfl

/-- Bytes spell an item exactly if they are its form and the length of the payload takes eight bytes
at most. -/
theorem spelled_iff : item.Spelled bytes ↔ bytes = item.form ∧ item.payload.length < 2 ^ 64 := by
  constructor
  · intro h
    cases h with
    | byte hbyte => exact ⟨(if_pos hbyte).symm, by simp⟩
    | short hlength hbyte =>
        rename_i isList payload
        refine ⟨?_, Nat.lt_trans hlength (by decide)⟩
        rw [form_eq_header, header, if_pos hlength, ofNat_origin]
        · rfl
        · intro hlist hone
          obtain ⟨byte, rfl⟩ := List.length_eq_one_iff.mp hone
          simpa using hbyte hlist byte rfl
    | long hlength hdigits hlead hcount =>
        rename_i isList payload digits
        have hform : bigEndian payload.length = digits := by
          rw [← hdigits, bigEndian_ofBigEndian hlead]
        have hone : payload.length ≠ 1 := by omega
        refine ⟨?_, ?_⟩
        · rw [form_eq_header fun _ heq ↦ absurd heq hone, header, if_neg (Nat.not_lt.mpr hlength),
            hform, Nat.add_assoc, ofNat_origin, UInt8.ofNat_add, ← UInt8.add_assoc]
          rfl
        · rw [← hdigits]
          exact Nat.lt_of_lt_of_le (ofBigEndian_lt digits)
            (Nat.pow_le_pow_right (by decide) hcount)
  · rintro ⟨rfl, hfits⟩
    obtain ⟨isList, payload⟩ := item
    by_cases hbyte : isList = false → payload.length = 1 → payload.head?.any (· < 0x80) = false
    · rw [form_eq_header hbyte, header]
      split
      · rename_i hlength
        rw [← ofNat_origin]
        refine .short hlength fun hlist byte hpayload ↦ ?_
        simpa [hpayload] using hbyte hlist (by rw [hpayload]; rfl)
      · rename_i hlength
        have hlong : Spelled ⟨isList, payload⟩ _ := .long (Nat.not_lt.mp hlength)
          (ofBigEndian_bigEndian payload.length) (head_bigEndian _) (length_bigEndian_le (by omega))
        rw [Nat.add_assoc, ofNat_origin, UInt8.ofNat_add, ← UInt8.add_assoc] at hlong
        exact hlong
    · simp only [not_forall] at hbyte
      obtain ⟨rfl, hone, hlt⟩ := hbyte
      obtain ⟨byte, rfl⟩ := List.length_eq_one_iff.mp hone
      have hbyte : byte < 128 := by simpa using hlt
      rw [show form ⟨false, [byte]⟩ = [byte] from if_pos hbyte]
      exact .byte hbyte

/-- The bytes of a string are what it is written as. -/
theorem Spelled.eq_string (h : Spelled ⟨false, rest⟩ bytes) : bytes = Rlp.string rest :=
  (spelled_iff.mp h).1

/-- The bytes of a list are what it is written as. -/
theorem Spelled.eq_list (h : Spelled ⟨true, rest⟩ bytes) : bytes = Rlp.list rest :=
  (spelled_iff.mp h).1

/-- A first byte announces at most eight bytes of length. -/
theorem Lead.long_le {byte : UInt8} (h : Lead.ofByte byte = .long isList count) : count ≤ 8 := by
  have hlt := byte.toNat_lt
  rw [Lead.ofByte_eq] at h
  split at h
  · cases h
  split at h
  · cases h
  split at h
  · cases h
    omega
  split at h
  · cases h
  · cases h
    omega

/-- The length of a payload that is read takes eight bytes at most. -/
theorem length_lt_of_read (h : read bytes = .ok (item, rest)) : item.payload.length < 2 ^ 64 := by
  cases bytes with
  | nil => cases h
  | cons lead tail =>
      rw [read] at h
      cases hlead : Lead.ofByte lead with
      | single =>
          rw [hlead] at h
          cases h
          simp
      | short isList length =>
          rw [hlead] at h
          dsimp only at h
          split at h
          · cases h
          · rw [(eq_append_of_cut h).2.1]
            exact Nat.lt_trans (Lead.short_eq hlead).1 (by decide)
      | long isList count =>
          rw [hlead] at h
          obtain ⟨-, digits, hcount, -, -, hdigits⟩ := eq_header_of_cutLong h
          rw [← ofBigEndian_bigEndian item.payload.length, hdigits]
          exact Nat.lt_of_lt_of_le (ofBigEndian_lt digits)
            (Nat.pow_le_pow_right (by decide) (hcount ▸ Lead.long_le hlead))

/-- Bytes are read as an item, whatever follows them, exactly if they spell it. -/
theorem writtenAs_iff : item.WrittenAs bytes ↔ item.Spelled bytes := by
  rw [spelled_iff]
  constructor
  · intro h
    have hread := h []
    rw [List.append_nil] at hread
    have hform := eq_form_of_read hread
    rw [List.append_nil] at hform
    exact ⟨hform, length_lt_of_read hread⟩
  · rintro ⟨rfl, hfits⟩
    obtain ⟨isList, payload⟩ := item
    cases isList with
    | true => exact writtenAs_list payload hfits
    | false => exact writtenAs_string payload hfits

/-- Bytes spell one item at most. -/
theorem Spelled.unique (h : item.Spelled bytes) (hother : other.Spelled bytes) : item = other := by
  have hread := writtenAs_iff.mpr h []
  rw [writtenAs_iff.mpr hother []] at hread
  cases hread
  rfl

/-- An item is spelled with one byte at least. -/
theorem Spelled.length_pos (h : item.Spelled bytes) : 0 < bytes.length :=
  List.length_pos_iff.mpr (writtenAs_iff.mpr h).ne_nil

/-- A list is spelled with more bytes than its payload has. -/
theorem Spelled.length_payload_lt (h : item.Spelled bytes) (hlist : item.isList = true) :
    item.payload.length < bytes.length := by
  have hread := writtenAs_iff.mpr h []
  rw [List.append_nil] at hread
  exact (length_of_read hread).2.2 hlist

/-- The second part of a list is shorter than the list. -/
theorem Spelled.length_back_lt {front back : Bytes} (h : Spelled ⟨true, front ++ back⟩ bytes) :
    back.length < bytes.length := by
  have hlt := h.length_payload_lt rfl
  rw [List.length_append] at hlt
  omega

/-- A part for a slot is shorter than the list that it is in. -/
theorem Spelled.length_slot_lt {parts : Nibble → Bytes} {last : Bytes}
    (h : Spelled ⟨true, (List.finRange 16).flatMap parts ++ last⟩ bytes) (slot : Nibble) :
    (parts slot).length < bytes.length := by
  have hsub : (parts slot).Sublist ((List.finRange 16).flatMap parts) :=
    List.sublist_flatten_of_mem (List.mem_map_of_mem (List.mem_finRange slot))
  have hle := hsub.length_le
  have hlt := h.length_payload_lt rfl
  rw [List.length_append] at hlt
  omega

/-- What is in front is read as an item exactly if it spells the item. -/
theorem read_eq_ok_iff :
    read bytes = .ok (item, rest) ↔ ∃ front, item.Spelled front ∧ bytes = front ++ rest := by
  constructor
  · intro h
    exact ⟨item.form, spelled_iff.mpr ⟨rfl, length_lt_of_read h⟩, eq_form_of_read h⟩
  · rintro ⟨front, hfront, rfl⟩
    exact writtenAs_iff.mpr hfront rest

/-- Bytes are read as some items exactly if they are made up of parts that spell the items. -/
theorem readAll_eq_ok_iff :
    readAll bytes = .ok items ↔
      ∃ parts, List.Forall₂ Spelled items parts ∧ parts.flatten = bytes := by
  constructor
  · intro h
    induction items generalizing bytes with
    | nil => exact ⟨[], .nil, (readAll_nil h).symm⟩
    | cons first others ih =>
        obtain ⟨rest, hread, hothers⟩ := readAll_cons h
        obtain ⟨front, hfront, rfl⟩ := read_eq_ok_iff.mp hread
        obtain ⟨parts, hparts, rfl⟩ := ih hothers
        exact ⟨front :: parts, .cons hfront hparts, rfl⟩
  · rintro ⟨parts, hparts, rfl⟩
    exact readAll_flatten (hparts.imp fun _ _ ↦ writtenAs_iff.mpr)

/-- Parts that spell the items of sixteen slots and of a value. -/
theorem spelled_row {items : Nibble → Item} {parts : Nibble → Bytes} {last : Bytes}
    (hitems : ∀ slot, (items slot).Spelled (parts slot)) (hlast : item.Spelled last) :
    List.Forall₂ Spelled ((List.finRange 16).map items ++ [item])
      ((List.finRange 16).map parts ++ [last]) := by
  refine List.rel_append ?_ (.cons hlast .nil)
  rw [List.forall₂_map_left_iff, List.forall₂_map_right_iff, List.forall₂_same]
  exact fun slot _ ↦ hitems slot

/-- Parts for sixteen slots and a value, one after the other. -/
theorem flatten_row (parts : Nibble → Bytes) (last : Bytes) :
    ((List.finRange 16).map parts ++ [last]).flatten =
      (List.finRange 16).flatMap parts ++ last := by
  rw [List.flatten_append, List.flatten_singleton, List.flatMap_def]

end Item

end Rlp

/-- A list of known length is a table of its elements. -/
theorem exists_eq_map_finRange {α : Type} {count : Nat} {list : List α} (h : list.length = count) :
    ∃ table : Fin count → α, list = (List.finRange count).map table := by
  subst h
  exact ⟨list.get, (List.map_get_finRange list).symm⟩

/-- The number of slots in use is that of the nodes that are not empty. -/
theorem Slots.Sound.count_eq {slots : Slots} (h : slots.Sound) :
    slots.count = (List.finRange 16).countP fun slot ↦ !(slots.node slot).isNull := by
  rw [count, marked, List.countP_eq_length_filter]
  exact congrArg List.length (List.filter_congr fun slot _ ↦ h slot)

namespace Node

open Rlp (Item)

/-- Bytes that stand for a node where a child can stand. Nothing in them is marked as read from
bytes of its own. -/
inductive Spelled : Node → Bytes → Prop
  /-- No node is the empty string. -/
  | null {bytes : Bytes} (hbytes : Item.Spelled ⟨false, []⟩ bytes) : Spelled .null bytes
  /-- A reference is the string of a hash. -/
  | stored {hash : Hash} {bytes : Bytes} (hbytes : Item.Spelled ⟨false, hash.bytes⟩ bytes) :
      Spelled (.stored .blank hash) bytes
  /-- A leaf is a list of a packed path that ends a key and of its value. -/
  | leaf {path : List Nibble} {value packed front back bytes : Bytes}
      (hpath : (Path.mk path true).PackedIn packed) (hfront : Item.Spelled ⟨false, packed⟩ front)
      (hback : Item.Spelled ⟨false, value⟩ back)
      (hbytes : Item.Spelled ⟨true, front ++ back⟩ bytes) : Spelled (.leaf .blank path value) bytes
  /-- An extension is a list of a packed path that leads on, of a nibble at least, and of a child
  that is there. -/
  | extension {first : Nibble} {rest : List Nibble} {child : Node}
      {packed front back bytes : Bytes} (hpath : (Path.mk (first :: rest) false).PackedIn packed)
      (hfront : Item.Spelled ⟨false, packed⟩ front) (hchild : child.Spelled back)
      (hnull : child.isNull = false) (hbytes : Item.Spelled ⟨true, front ++ back⟩ bytes) :
      Spelled (.extension .blank first rest child) bytes
  /-- A branch is a list of sixteen children and of its value, where no value is the empty string.
  Two of the seventeen are there at least. -/
  | branch {occupied : BitVec 16} {slots : Nibble → Node} {value : Option Bytes}
      {parts : Nibble → Bytes} {last bytes : Bytes}
      (hslots : ∀ slot, (slots slot).Spelled (parts slot))
      (hsound : (Slots.mk occupied slots).Sound)
      (hlast : Item.Spelled ⟨false, value.getD []⟩ last) (hvalue : value ≠ some [])
      (hcount : 2 ≤ ((List.finRange 16).countP fun slot ↦ !(slots slot).isNull) +
        value.toList.length)
      (hbytes : Item.Spelled ⟨true, (List.finRange 16).flatMap parts ++ last⟩ bytes) :
      Spelled (.branch .blank occupied slots value) bytes

variable {child : Item → Except DecodeError Node} {items : List Item} {item : Item} {depth : Nat}
  {bytes part : Bytes} {parts : List Bytes} {node : Node} {read : Resolved}

/-! ## What is read is in the grammar -/

/-- An item that is read as a string is one. -/
theorem eq_of_string (h : item.string = .ok bytes) : item = ⟨false, bytes⟩ := by
  obtain ⟨isList, payload⟩ := item
  cases isList with
  | true => cases h
  | false =>
      cases h
      rfl

/-- The hash with some bytes has these bytes. -/
theorem bytes_of_ofBytes? {hash : Hash} (h : Hash.ofBytes? bytes = some hash) :
    hash.bytes = bytes := by
  rw [Hash.ofBytes?] at h
  split at h
  · cases h
    rfl
  · cases h

/-- The part spells the item, and stands for the node that the item is read as. -/
def Conveys (child : Item → Except DecodeError Node) (item : Item) (part : Bytes) : Prop :=
  item.Spelled part ∧ ∀ below, child item = .ok below → below.Spelled part

/-- A list of two items that is read as a node stands for the node. -/
theorem spelled_of_ofPair {path content : Item} {front back : Bytes}
    (h : ofPair child path content = .ok read) (hpath : path.Spelled front)
    (hcontent : Conveys child content back) (hbytes : Item.Spelled ⟨true, front ++ back⟩ bytes) :
    read.val.Spelled bytes := by
  rw [ofPair] at h
  obtain ⟨packed, hpacked, h⟩ := bind_eq_ok h
  obtain ⟨⟨nibbles, terminated⟩, hread, h⟩ := bind_eq_ok h
  rw [eq_of_string hpacked] at hpath
  rw [Path.ofHexPrefix_eq_ok_iff, ← Path.packedIn_iff] at hread
  split at h
  · rename_i hterminated
    obtain ⟨value, hvalue, h⟩ := bind_eq_ok h
    obtain rfl : terminated = true := hterminated
    have hvalue := eq_of_string hvalue ▸ hcontent.1
    cases h
    exact .leaf hread hpath hvalue hbytes
  · rename_i hopen
    obtain rfl : terminated = false := Bool.eq_false_iff.mpr hopen
    cases nibbles with
    | nil => cases h
    | cons first rest =>
        obtain ⟨below, hbelow, h⟩ := bind_eq_ok h
        split at h
        · cases h
        · rename_i hnull
          cases h
          exact .extension hread hpath (hcontent.2 below hbelow) (Bool.eq_false_iff.mpr hnull)
            hbytes

/-- A list of sixteen items and one more that is read as a branch stands for the branch. -/
theorem spelled_of_ofRow {slots : List Item} {value : Item} {last : Bytes}
    (hlength : slots.length = 16) (h : ofRow child slots value = .ok read)
    (hslots : List.Forall₂ (Conveys child) slots parts) (hlast : value.Spelled last)
    (hbytes : Item.Spelled ⟨true, parts.flatten ++ last⟩ bytes) : read.val.Spelled bytes := by
  rw [ofRow] at h
  obtain ⟨nodes, hnodes, h⟩ := bind_eq_ok h
  obtain ⟨content, hcontent, h⟩ := bind_eq_ok h
  rw [eq_of_string hcontent] at hlast
  have hread := forall₂_of_mapM_eq_ok hnodes
  have hsound := Slots.ofList_sound nodes
  have hnode := Slots.node_ofList nodes
  -- The items, the nodes that they are read as and the parts that spell them are tables alike.
  obtain ⟨items, rfl⟩ := exists_eq_map_finRange hlength
  obtain ⟨table, rfl⟩ := exists_eq_map_finRange (hread.length_eq.symm.trans hlength)
  obtain ⟨pieces, rfl⟩ := exists_eq_map_finRange (hslots.length_eq.symm.trans hlength)
  rw [List.forall₂_map_left_iff, List.forall₂_map_right_iff, List.forall₂_same] at hread hslots
  have hpieces : ∀ slot, ((Slots.ofList ((List.finRange 16).map table)).node slot).Spelled
      (pieces slot) := by
    intro slot
    have hslot : (Slots.ofList ((List.finRange 16).map table)).node slot = table slot := by
      rw [hnode]
      simp
    rw [hslot]
    exact (hslots slot (List.mem_finRange slot)).2 _ (hread slot (List.mem_finRange slot))
  dsimp only at h
  have hvalue : (if content.isEmpty then none else some content : Option Bytes) ≠ some [] ∧
      (if content.isEmpty then none else some content : Option Bytes).getD [] = content := by
    cases content <;> simp
  generalize (if content.isEmpty then none else some content) = value at h hvalue
  obtain ⟨hvalue, rfl⟩ := hvalue
  split at h
  · cases h
  · rename_i hcount
    cases h
    rw [hsound.count_eq, Nat.not_lt] at hcount
    rw [← List.flatMap_def] at hbytes
    exact .branch hpieces hsound hlast hvalue hcount hbytes

/-- A list of items that is read as a node stands for the node. -/
theorem spelled_of_ofItems (h : ofItems child items = .ok read)
    (hparts : List.Forall₂ (Conveys child) items parts)
    (hbytes : Item.Spelled ⟨true, parts.flatten⟩ bytes) : read.val.Spelled bytes := by
  rw [ofItems.eq_def] at h
  split at h
  · rename_i path content
    obtain ⟨front, _, hfront, hrest, rfl⟩ := List.forall₂_cons_left_iff.mp hparts
    obtain ⟨back, _, hback, hnil, rfl⟩ := List.forall₂_cons_left_iff.mp hrest
    obtain rfl := List.forall₂_nil_left_iff.mp hnil
    rw [List.flatten_cons, List.flatten_cons, List.flatten_nil, List.append_nil] at hbytes
    exact spelled_of_ofPair h hfront.1 hback hbytes
  · split at h
    · rename_i value hdrop
      have hlength : (items.take 16).length = 16 := by
        have hdropped := congrArg List.length hdrop
        rw [List.length_drop, List.length_singleton] at hdropped
        rw [List.length_take]
        omega
      have hlast := List.forall₂_drop 16 hparts
      rw [hdrop] at hlast
      obtain ⟨last, _, hlast, hnil, hparts'⟩ := List.forall₂_cons_left_iff.mp hlast
      obtain rfl := List.forall₂_nil_left_iff.mp hnil
      rw [← List.take_append_drop 16 parts, hparts', List.flatten_append, List.flatten_cons,
        List.flatten_nil, List.append_nil] at hbytes
      exact spelled_of_ofRow hlength h (List.forall₂_take 16 hparts) hlast.1 hbytes
    · cases h

/-- The part that an item is spelled as stands for the node that it is read as. -/
theorem spelled_of_ofItem (h : ofItem depth item = .ok node) (hitem : item.Spelled bytes) :
    node.Spelled bytes := by
  induction depth generalizing item node bytes with
  | zero => cases h
  | succ depth ih =>
      obtain ⟨isList, payload⟩ := item
      cases isList with
      | true =>
          rw [ofItem, if_pos rfl] at h
          obtain ⟨items, hitems, h⟩ := bind_eq_ok h
          obtain ⟨read, hread, h⟩ := bind_eq_ok h
          cases h
          obtain ⟨parts, hparts, rfl⟩ := Item.readAll_eq_ok_iff.mp hitems
          exact spelled_of_ofItems hread
            (hparts.imp fun part piece hpart ↦ ⟨hpart, fun below hbelow ↦ ih hbelow hpart⟩) hitem
      | false =>
          rw [ofItem, if_neg Bool.false_ne_true] at h
          split at h
          · rename_i hempty
            cases h
            obtain rfl := List.isEmpty_iff.mp hempty
            exact .null hitem
          · split at h
            · rename_i hash hhash
              cases h
              obtain rfl := bytes_of_ofBytes? hhash
              exact .stored hitem
            · cases h

/-! ## What is in the grammar is read -/

/-- Bytes that stand for a node spell an item, which is read as the node with every bound on the
depth that their length respects. The item is a list exactly if the node has a form. -/
theorem Spelled.ofItem_eq (h : node.Spelled bytes) :
    ∃ item : Item, item.Spelled bytes ∧ item.isList = node.isFormed ∧
      ∀ depth, bytes.length ≤ depth → ofItem depth item = .ok node := by
  induction h with
  | null hbytes =>
      refine ⟨_, hbytes, rfl, fun depth hdepth ↦ ?_⟩
      have hpos := hbytes.length_pos
      obtain ⟨depth, rfl⟩ : ∃ less, depth = less + 1 := ⟨depth - 1, by omega⟩
      rfl
  | stored hbytes =>
      refine ⟨_, hbytes, rfl, fun depth hdepth ↦ ?_⟩
      have hpos := hbytes.length_pos
      obtain ⟨depth, rfl⟩ : ∃ less, depth = less + 1 := ⟨depth - 1, by omega⟩
      exact ofItem_hash depth _
  | leaf hpath hfront hback hbytes =>
      refine ⟨_, hbytes, rfl, fun depth hdepth ↦ ?_⟩
      have hpos := hbytes.length_pos
      obtain ⟨depth, rfl⟩ : ∃ less, depth = less + 1 := ⟨depth - 1, by omega⟩
      have hitems := Item.readAll_eq_ok_iff.mpr ⟨_, .cons hfront (.cons hback .nil), rfl⟩
      rw [List.flatten_cons, List.flatten_cons, List.flatten_nil, List.append_nil] at hitems
      rw [Path.packedIn_iff, ← Path.ofHexPrefix_eq_ok_iff] at hpath
      exact ofItem_list hitems (ofPair_eq_leaf hpath)
  | extension hpath hfront hchild hnull hbytes ih =>
      rename_i first rest below packed front back bytes
      refine ⟨_, hbytes, rfl, fun depth hdepth ↦ ?_⟩
      obtain ⟨item, hitem, -, hread⟩ := ih
      have hlt := hbytes.length_back_lt
      obtain ⟨depth, rfl⟩ : ∃ less, depth = less + 1 := ⟨depth - 1, by omega⟩
      have hitems := Item.readAll_eq_ok_iff.mpr ⟨_, .cons hfront (.cons hitem .nil), rfl⟩
      rw [List.flatten_cons, List.flatten_cons, List.flatten_nil, List.append_nil] at hitems
      rw [Path.packedIn_iff, ← Path.ofHexPrefix_eq_ok_iff] at hpath
      exact ofItem_list hitems (ofPair_eq_extension hpath (hread depth (by omega)) hnull)
  | branch hslots hsound hlast hvalue hcount hbytes ih =>
      rename_i occupied slots value parts last bytes
      refine ⟨_, hbytes, rfl, fun depth hdepth ↦ ?_⟩
      choose items hitem _ hread using ih
      have hlt := hbytes.length_slot_lt
      have hpos := hbytes.length_pos
      obtain ⟨depth, rfl⟩ : ∃ less, depth = less + 1 := ⟨depth - 1, by omega⟩
      have hitems := Item.readAll_eq_ok_iff.mpr ⟨_, Item.spelled_row hitem hlast, rfl⟩
      rw [Item.flatten_row] at hitems
      have hslot : ∀ slot, ofItem depth (items slot) = .ok (slots slot) := fun slot ↦
        hread slot depth (Nat.le_of_lt_succ (Nat.lt_of_lt_of_le (hlt slot) hdepth))
      have hnodes : ((List.finRange 16).map items).mapM (ofItem depth) =
          .ok ((List.finRange 16).map slots) := by
        rw [List.mapM_map]
        exact mapM_eq_ok _ hslot
      rw [← Slots.Sound.count_eq hsound, ← hsound.forked_iff] at hcount
      have hread := ofRow_eq_branch hnodes hsound hcount hvalue
      rw [← ofItems_row _ _ _ (by simp)] at hread
      exact ofItem_list hitems hread

/-! ## The grammar -/

/-- Bytes are read as a node exactly if they stand for a node with a form, which is the node that is
read but for the mark of the bytes that it was read from. -/
theorem decode_eq_ok_iff : decode bytes = .ok read ↔
    ∃ node : Node, node.Spelled bytes ∧ node.isFormed = true ∧
      read.val = node.readFrom bytes := by
  constructor
  · intro h
    obtain ⟨item, hlist, hwritten⟩ := exists_item_of_decode h
    have hitem := Item.writtenAs_iff.mp hwritten
    have hread := decode_eq_ofItem hwritten hlist (hitem.length_payload_lt hlist)
    rw [h] at hread
    cases hnode : ofItem bytes.length item with
    | error cause =>
        rw [hnode] at hread
        cases hread
    | ok node =>
        rw [hnode] at hread
        have hspelled := spelled_of_ofItem hnode hitem
        obtain ⟨other, hother, hformed, -⟩ := hspelled.ofItem_eq
        obtain rfl := hother.unique hitem
        exact ⟨node, hspelled, hformed ▸ hlist, Except.ok.inj hread⟩
  · rintro ⟨node, hspelled, hformed, hval⟩
    obtain ⟨item, hitem, hlist, hread⟩ := hspelled.ofItem_eq
    rw [hformed] at hlist
    have hdecode := decode_eq_ofItem (Item.writtenAs_iff.mpr hitem) hlist
      (hitem.length_payload_lt hlist)
    rw [hread _ (Nat.le_refl _)] at hdecode
    cases hnode : decode bytes with
    | error cause =>
        rw [hnode] at hdecode
        cases hdecode
    | ok other =>
        rw [hnode] at hdecode
        exact congrArg Except.ok (Subtype.ext ((Except.ok.inj hdecode).trans hval.symm))

/-- Bytes are read as some node exactly if they stand for a node with a form. -/
theorem exists_decode_iff : (∃ read, decode bytes = .ok read) ↔
    ∃ node : Node, node.Spelled bytes ∧ node.isFormed = true := by
  constructor
  · rintro ⟨read, h⟩
    obtain ⟨node, hspelled, hformed, -⟩ := decode_eq_ok_iff.mp h
    exact ⟨node, hspelled, hformed⟩
  · rintro ⟨node, hspelled, hformed⟩
    have hstored : (node.readFrom bytes).isStored = false := by
      rw [isStored_readFrom]
      exact isStored_of_formed hformed
    exact ⟨⟨node.readFrom bytes, hstored⟩,
      decode_eq_ok_iff.mpr ⟨node, hspelled, hformed, rfl⟩⟩

/-- A node that is read from bytes is marked with them. -/
theorem source_of_decode (h : decode bytes = .ok read) : read.val.stamp.source = some bytes := by
  obtain ⟨⟨node, hstored⟩, rfl, -, hnull⟩ := decode_literal h
  cases node with
  | null => cases hnull
  | leaf | extension | branch => rfl
  | stored => cases hstored

/-- A node that is read from bytes is written as them. -/
theorem encoding_of_decode (h : decode bytes = .ok read) : read.val.encoding = bytes :=
  encoding_eq_source (source_of_decode h) read.property

/-- Reading recognizes the grammar. Bytes are read as a node exactly if they stand for a leaf, an
extension or a branch, which is the node that is read; it is marked with the bytes, and they are its
form. All bytes that do not stand for such a node are refused, and no others. -/
theorem decode_recognizes (bytes : Bytes) :
    (∀ read, decode bytes = .ok read ↔ ∃ node : Node, node.Spelled bytes ∧
      node.isFormed = true ∧ read.val = node.readFrom bytes ∧ read.val.rlp = .ok bytes) ∧
    ((∃ read, decode bytes = .ok read) ↔
      ∃ node : Node, node.Spelled bytes ∧ node.isFormed = true) ∧
    ((∃ cause, decode bytes = .error cause) ↔
      ¬∃ node : Node, node.Spelled bytes ∧ node.isFormed = true) := by
  refine ⟨fun read ↦ ⟨fun h ↦ ?_, ?_⟩, exists_decode_iff, ?_⟩
  · obtain ⟨node, hspelled, hformed, hval⟩ := decode_eq_ok_iff.mp h
    refine ⟨node, hspelled, hformed, hval, ?_⟩
    rw [rlp_eq_encoding read.property, encoding_of_decode h]
  · rintro ⟨node, hspelled, hformed, hval, -⟩
    exact decode_eq_ok_iff.mpr ⟨node, hspelled, hformed, hval⟩
  · rw [← exists_decode_iff]
    cases decode bytes with
    | error cause => simp
    | ok read => simp

end Node

end Patricia
