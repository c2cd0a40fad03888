import Mathlib.Logic.Relation
import Patricia.Proofs.Format.Snug

/-!
# Which bytes are written again

What is read from bytes can be put together anew from its parts, without the bytes that it was read
from. It is then written as these bytes exactly if they are `Compact`: no list of 32 bytes or more
stands in them in place of a reference, at any depth (`Node.encoding_plain_eq_iff`). So there is one
compact byte string at most for each content of a node.
-/

namespace Patricia

open Rlp (Item)

namespace Rlp

/-- A larger number is written with no fewer bytes. -/
theorem length_bigEndian_mono {n m : Nat} (h : n ≤ m) :
    (bigEndian n).length ≤ (bigEndian m).length := by
  have hlt := ofBigEndian_lt (bigEndian m)
  rw [ofBigEndian_bigEndian] at hlt
  exact length_bigEndian_le (Nat.lt_of_le_of_lt h hlt)

/-- A longer payload has no shorter header. -/
theorem length_header_mono (base : UInt8) {n m : Nat} (h : n ≤ m) :
    (header base n).length ≤ (header base m).length := by
  rw [header, header]
  split
  · split <;> simp
  · rw [if_neg (by omega)]
    exact Nat.succ_le_succ (length_bigEndian_mono h)

/-- Lists with different payloads are written differently. -/
theorem list_injective : Function.Injective Rlp.list := by
  intro payload other h
  have hlength := congrArg List.length h
  rw [Rlp.list, Rlp.list, List.length_append, List.length_append] at hlength
  have hsame : payload.length = other.length := by
    rcases Nat.lt_trichotomy payload.length other.length with hlt | heq | hlt
    · have hle := length_header_mono 0xc0 (Nat.le_of_lt hlt)
      omega
    · exact heq
    · have hle := length_header_mono 0xc0 (Nat.le_of_lt hlt)
      omega
  rw [Rlp.list, Rlp.list, hsame] at h
  exact List.append_cancel_left h

end Rlp

/-- A list stands in another one as one of its items. -/
def Within (part whole : Bytes) : Prop :=
  ∃ items parts payload, List.Forall₂ Item.Spelled items parts ∧
    Item.Spelled ⟨true, parts.flatten⟩ whole ∧ part ∈ parts ∧ Item.Spelled ⟨true, payload⟩ part

/-- The bytes have no list of 32 bytes or more in them, at any depth. -/
def Compact (bytes : Bytes) : Prop :=
  ∀ part, Relation.TransGen Within part bytes → part.length < 32

variable {bytes part whole : Bytes} {item : Item} {node : Node} {read : Resolved}

/-- A list is shorter than a list that it stands in. -/
theorem Within.length_lt (h : Within part whole) : part.length < whole.length := by
  obtain ⟨items, parts, payload, -, hwhole, hmem, -⟩ := h
  have hle := (List.sublist_flatten_of_mem hmem).length_le
  exact Nat.lt_of_le_of_lt hle (hwhole.length_payload_lt rfl)

/-- A list in bytes is as short as the list among their items that it stands in, so these lists are
the ones to look at. -/
theorem compact_iff : Compact bytes ↔ ∀ part, Within part bytes → part.length < 32 := by
  constructor
  · intro h part hpart
    exact h part (.single hpart)
  · intro h part hpart
    have hlt : ∀ {whole}, Relation.TransGen Within part whole → part.length < whole.length := by
      intro whole hpart
      induction hpart with
      | single hwithin => exact hwithin.length_lt
      | tail _ hwithin ih => exact Nat.lt_trans ih hwithin.length_lt
    cases hpart with
    | single hwithin => exact h part hwithin
    | tail hdeep hwithin => exact Nat.lt_trans (hlt hdeep) (h _ hwithin)

namespace Node

/-! ## What is written is compact -/

/-- The item of a node is a short list or no list. -/
theorem Blank.short_of_item (h : node.Blank) (hlist : node.item.isList = true) :
    node.item.form.length < 32 := by
  rw [item] at hlist ⊢
  split at hlist
  · cases hlist
  · rename_i hlong
    split at hlist
    · cases hlist
    · rename_i hnull
      have hshort := Nat.not_le.mp hlong
      have hformed : node.isFormed = true := by
        rw [isFormed, Bool.eq_false_iff.mpr hnull, isStored_of_short hshort]
        rfl
      rw [if_neg hlong, if_neg hnull]
      show (Rlp.list node.payload).length < 32
      rwa [← h.encoding_eq_list hformed]

/-- The lists among the items of a node are short. -/
theorem Blank.short_of_mem_items (h : node.Blank) (hmem : item ∈ node.items)
    (hlist : item.isList = true) : item.form.length < 32 := by
  cases node with
  | null | stored => cases hmem
  | leaf stamp path value =>
      simp only [items, List.mem_cons, List.not_mem_nil, or_false] at hmem
      rcases hmem with rfl | rfl <;> cases hlist
  | extension stamp first rest child =>
      simp only [items, List.mem_cons, List.not_mem_nil, or_false] at hmem
      rcases hmem with rfl | rfl
      · cases hlist
      · exact Blank.short_of_item h.2 hlist
  | branch stamp occupied slots value =>
      simp only [items, List.mem_append, List.mem_map, List.mem_singleton] at hmem
      rcases hmem with ⟨slot, -, rfl⟩ | rfl
      · exact Blank.short_of_item (h.2 slot) hlist
      · cases hlist

/-- The lists in the form of a node are short, if the form is in the grammar. -/
theorem compact_of_encoding (h : node.All Literal) (hformed : node.isFormed = true)
    (hbytes : node.encoding = bytes) : Compact bytes := by
  have hblank : node.Blank := h.imp fun _ hnode ↦ hnode.blank
  refine compact_iff.mpr fun part ⟨items, parts, payload, hparts, hwhole, hmem, hpart⟩ ↦ ?_
  obtain ⟨hform, hfits⟩ := Item.spelled_iff.mp hwhole
  have hpayload : node.payload = parts.flatten := by
    apply Rlp.list_injective
    rw [← hblank.encoding_eq_list hformed, hbytes, hform]
    rfl
  have hitems : items = node.items := by
    have hread := (legible_of_literal h).readAll_payload (hpayload ▸ hfits)
    rw [hpayload, Item.readAll_eq_ok_iff.mpr ⟨parts, hparts, rfl⟩] at hread
    exact Except.ok.inj hread
  obtain ⟨item, hitem, hspelled⟩ := exists_of_mem_forall₂ hparts hmem
  obtain rfl := hspelled.unique hpart
  rw [(Item.spelled_iff.mp hspelled).1]
  exact hblank.short_of_mem_items (hitems ▸ hitem) rfl

/-! ## What is compact is written again -/

/-- A node is short or a reference if the bytes that stand for it are no long list. -/
theorem Spelled.short_or_stored (h : node.Spelled part)
    (hshort : ∀ payload, Item.Spelled ⟨true, payload⟩ part → part.length < 32) :
    node.encoding.length < 32 ∨ node.isStored = true := by
  obtain ⟨⟨isList, payload⟩, hitem, hlist, -⟩ := h.ofItem_eq
  cases isList with
  | true =>
      have hlt := hshort payload hitem
      exact Or.inl (short_of_reference (h.reference_eq (Or.inr (Or.inr hlt)) ▸ hlt))
  | false =>
      cases node with
      | null => exact Or.inl (by decide)
      | stored => exact Or.inr rfl
      | leaf | extension | branch => cases hlist

/-- A node that compact bytes stand for has no child of 32 bytes or more in place. -/
theorem Spelled.snug (h : node.Spelled bytes) (hcompact : Compact bytes) : node.Snug := by
  rw [compact_iff] at hcompact
  cases h with
  | null | stored | leaf => trivial
  | extension hpath hfront hchild hnull hbytes =>
      rename_i packed front back
      obtain ⟨item, hitem, -⟩ := hchild.ofItem_eq
      refine hchild.short_or_stored fun payload hback ↦ hcompact _ ⟨_, [front, back], payload,
        .cons hfront (.cons hitem .nil), ?_, by simp, hback⟩
      rwa [List.flatten_cons, List.flatten_cons, List.flatten_nil, List.append_nil]
  | branch hslots hsound hlast hvalue hcount hbytes =>
      rename_i parts last
      intro slot
      choose items hitem _ using fun slot ↦ (hslots slot).ofItem_eq
      refine (hslots slot).short_or_stored fun payload hpart ↦ hcompact _ ⟨_, _, payload,
        Item.spelled_row hitem hlast, ?_, ?_, hpart⟩
      · rwa [Item.flatten_row]
      · exact List.mem_append_left _ (List.mem_map_of_mem (List.mem_finRange slot))

/-- What is read from bytes, put together anew from its parts, is written as the bytes exactly if
they are compact. -/
theorem encoding_plain_of_decode (h : decode bytes = .ok read) :
    read.val.plain.encoding = bytes ↔ Compact bytes := by
  obtain ⟨node, hspelled, hformed, hval⟩ := decode_eq_ok_iff.mp h
  have hblank := hspelled.blank
  rw [hval, plain_readFrom, hblank.plain_eq]
  constructor
  · exact compact_of_encoding hspelled.literal hformed
  · intro hcompact
    rw [hblank.encoding_eq_list hformed, ← form_eq_list hformed]
    exact hspelled.form_eq hformed (Or.inl (hspelled.snug hcompact))

/-- Putting what is read together anew undoes reading exactly on compact bytes: the node that is
read, without the bytes that it was read from, is written as the bytes exactly if no list of 32
bytes or more stands in place in them, at any depth. Compact bytes that are read as nodes of one
content are equal. -/
theorem encoding_plain_eq_iff (h : decode bytes = .ok read) :
    (read.val.plain.encoding = bytes ↔ Compact bytes) ∧
      ∀ (other : Bytes) (found : Resolved), decode other = .ok found → Compact bytes →
        Compact other → read.val.plain = found.val.plain → bytes = other := by
  refine ⟨encoding_plain_of_decode h, fun other found hother hbytes hcompact hsame ↦ ?_⟩
  rw [← (encoding_plain_of_decode h).mpr hbytes, ← (encoding_plain_of_decode hother).mpr hcompact,
    hsame]

/-- A leaf of 43 bytes. -/
def burl : Bytes :=
  leafForm [] (List.replicate 40 0x61)

/-- An extension with the leaf in place. -/
def swollen : Bytes :=
  extensionForm [lowNibble 1] burl

/-- The leaf is in the grammar. -/
theorem burl_spelled : (leaf .blank [] (List.replicate 40 0x61)).Spelled burl :=
  .leaf (Path.packedIn_iff.mpr rfl) (Item.spelled_iff.mpr ⟨rfl, by decide⟩)
    (Item.spelled_iff.mpr ⟨rfl, by decide⟩) (Item.spelled_iff.mpr ⟨rfl, by decide⟩)

/-- The extension is in the grammar. -/
theorem swollen_spelled :
    (extension .blank 1 [] (leaf .blank [] (List.replicate 40 0x61))).Spelled swollen :=
  .extension (Path.packedIn_iff.mpr rfl) (.byte (by decide)) burl_spelled rfl
    (Item.spelled_iff.mpr ⟨rfl, by decide⟩)

/-- The extension is read, and when it is put together anew it is written differently. -/
theorem swollen_differs :
    ∃ read, decode swollen = .ok read ∧ read.val.plain.encoding ≠ swollen := by
  have hpath : Item.Spelled ⟨false, [0x11]⟩ [0x11] := .byte (by decide)
  have hbytes : Item.Spelled ⟨true, [0x11] ++ burl⟩ swollen := Item.spelled_iff.mpr ⟨rfl, by decide⟩
  obtain ⟨read, h⟩ := exists_decode_iff.mpr ⟨_, swollen_spelled, rfl⟩
  refine ⟨read, h, fun heq ↦ ?_⟩
  have hburl : Item.Spelled ⟨true, [0x20] ++ Rlp.string (List.replicate 40 0x61)⟩ burl :=
    Item.spelled_iff.mpr ⟨rfl, by decide⟩
  have hwithin : Within burl swollen :=
    ⟨_, [[0x11], burl], _, .cons hpath (.cons hburl .nil), hbytes, by simp, hburl⟩
  have hlt := (encoding_plain_eq_iff h).1.mp heq burl (.single hwithin)
  exact absurd hlt (by decide)

end Node

end Patricia
