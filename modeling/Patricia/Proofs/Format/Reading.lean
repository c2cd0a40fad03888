import Patricia.Proofs.Format.Decoded
import Patricia.Proofs.Format.Legible

/-!
# A form read on its own and in place

What is read from the front of some bytes does not depend on what follows (`Rlp.Item.read_more`),
and a payload is read alike with every bound on the depth that exceeds its length
(`Node.ofItem_eq_of_lt`). So a form that is written in place is read in its parent's form as it is
on its own (`Node.decode_eq_ofItem`).
-/

namespace Patricia

namespace Rlp.Item

variable {isList : Bool} {count : Nat} {bytes rest : Bytes} {item : Item} {items : List Item}

/-- A cut does not depend on what follows. -/
theorem cut_more (h : cut isList count bytes = .ok (item, rest)) (more : Bytes) :
    cut isList count (bytes ++ more) = .ok (item, rest ++ more) := by
  simp only [cut, List.splitAt_eq] at h ⊢
  split at h
  · cases h
  · rename_i hlength
    cases h
    rw [List.length_take] at hlength
    have hle : count ≤ bytes.length := by omega
    rw [List.take_append_of_le_length hle, List.drop_append_of_le_length hle,
      if_neg (by rw [List.length_take]; omega)]

/-- A cut whose length is written out does not depend on what follows. -/
theorem cutLong_more (h : cutLong isList count bytes = .ok (item, rest)) (more : Bytes) :
    cutLong isList count (bytes ++ more) = .ok (item, rest ++ more) := by
  simp only [cutLong, List.splitAt_eq] at h ⊢
  split at h
  · cases h
  · rename_i hlength
    split at h
    · cases h
    · rename_i hlead
      split at h
      · cases h
      · rename_i hsize
        rw [List.length_take] at hlength
        have hle : count ≤ bytes.length := by omega
        rw [List.take_append_of_le_length hle, List.drop_append_of_le_length hle,
          if_neg (by rw [List.length_take]; omega), if_neg hlead, if_neg hsize]
        exact cut_more h more

/-- A cut takes as many bytes as it is told. -/
theorem length_le_of_cut (h : cut isList count bytes = .ok (item, rest)) :
    count ≤ bytes.length := by
  simp only [cut, List.splitAt_eq] at h
  split at h
  · cases h
  · rename_i hlength
    rw [List.length_take] at hlength
    omega

/-- What is read from the front does not depend on what follows. -/
theorem read_more (h : read bytes = .ok (item, rest)) (more : Bytes) :
    read (bytes ++ more) = .ok (item, rest ++ more) := by
  cases bytes with
  | nil => cases h
  | cons lead tail =>
      rw [List.cons_append, read]
      rw [read] at h
      cases hlead : Lead.ofByte lead with
      | single =>
          rw [hlead] at h
          cases h
          rfl
      | long isList count =>
          rw [hlead] at h
          exact cutLong_more h more
      | short isList length =>
          rw [hlead] at h
          dsimp only at h ⊢
          split at h
          · cases h
          · rename_i hcanonical
            -- A payload of one byte is there, so the byte that is looked at is the same.
            have hsame : (!isList && length == 1 && (tail ++ more).head?.any (· < 0x80)) =
                (!isList && length == 1 && tail.head?.any (· < 0x80)) := by
              cases tail with
              | nil =>
                  have hzero : length = 0 := Nat.le_zero.mp (length_le_of_cut h)
                  subst hzero
                  cases isList <;> rfl
              | cons byte others => rfl
            rw [hsame, if_neg hcanonical]
            exact cut_more h more

/-- Bytes without items are empty. -/
theorem readAll_nil (h : readAll bytes = .ok []) : bytes = [] := by
  rw [readAll] at h
  split at h
  · rename_i hempty
    exact List.isEmpty_iff.mp hempty
  · split at h
    · cases h
    · dsimp only at h
      split at h <;> cases h

/-- Items are read one after the other. -/
theorem readAll_cons (h : readAll bytes = .ok (item :: items)) :
    ∃ rest, read bytes = .ok (item, rest) ∧ readAll rest = .ok items := by
  rw [readAll] at h
  split at h
  · cases h
  · split at h
    · cases h
    · rename_i front rest hread
      dsimp only at h
      split at h
      · cases h
      · rename_i later hlater
        cases h
        exact ⟨rest, hread, hlater⟩

/-- Bytes with items in them are not empty, and the payloads of the lists among the items are
shorter than the bytes. -/
theorem length_of_mem_readAll (h : readAll bytes = .ok items) (hmem : item ∈ items) :
    0 < bytes.length ∧ (item.isList = true → item.payload.length < bytes.length) := by
  induction items generalizing bytes with
  | nil => cases hmem
  | cons first others ih =>
      obtain ⟨rest, hread, hothers⟩ := readAll_cons h
      obtain ⟨hle, hlt, hlist⟩ := length_of_read hread
      refine ⟨by omega, fun hitem ↦ ?_⟩
      rcases List.mem_cons.mp hmem with rfl | hmem
      · have hfirst := hlist hitem
        omega
      · have hother := (ih hothers hmem).2 hitem
        omega

end Rlp.Item

namespace Node

open Rlp (Item)

variable {child child' : Item → Except DecodeError Node} {items : List Item} {item : Item}
  {bytes : Bytes} {depth depth' : Nat}

/-- Elements are worked on alike where two functions agree on them. -/
theorem mapM_congr_of_mem {α β ε : Type} {f g : α → Except ε β} {list : List α}
    (h : ∀ element ∈ list, f element = g element) : list.mapM f = list.mapM g := by
  induction list with
  | nil => rfl
  | cons element list ih =>
      rw [List.mapM_cons, List.mapM_cons, h element List.mem_cons_self,
        ih fun other hother ↦ h other (List.mem_cons_of_mem _ hother)]

/-- Items are read alike where their children are. -/
theorem ofItems_congr (h : ∀ item ∈ items, child item = child' item) :
    ofItems child items = ofItems child' items := by
  rw [ofItems.eq_def, ofItems.eq_def]
  split
  · rename_i path content
    rw [ofPair, ofPair, h content (List.mem_cons_of_mem _ List.mem_cons_self)]
  · split
    · rw [ofRow, ofRow, mapM_congr_of_mem fun item hmem ↦ h item (List.mem_of_mem_take hmem)]
    · rfl

/-- A child is read alike with every bound on the depth that exceeds the length of its payload. -/
theorem ofItem_eq_of_lt (hpos : 0 < depth) (hpos' : 0 < depth')
    (hlt : item.isList = true → item.payload.length < depth)
    (hlt' : item.isList = true → item.payload.length < depth') :
    ofItem depth item = ofItem depth' item := by
  induction depth generalizing depth' item with
  | zero => cases hpos
  | succ depth ih =>
      obtain ⟨depth', rfl⟩ : ∃ less, depth' = less + 1 := ⟨depth' - 1, by omega⟩
      rw [ofItem, ofItem]
      cases hlist : item.isList with
      | false => rfl
      | true =>
          rw [if_pos rfl, if_pos rfl]
          have hpayload := hlt hlist
          have hpayload' := hlt' hlist
          cases hread : Item.readAll item.payload with
          | error cause => rfl
          | ok items =>
              show (do return (← ofItems (ofItem depth) items).val) =
                (do return (← ofItems (ofItem depth') items).val)
              rw [ofItems_congr fun below hmem ↦ ?_]
              obtain ⟨hsome, hbelow⟩ := Item.length_of_mem_readAll hread hmem
              refine ih (by omega) (by omega) (fun hbelowList ↦ ?_) fun hbelowList ↦ ?_
              · have hlength := hbelow hbelowList
                omega
              · have hlength := hbelow hbelowList
                omega

/-- The form of a list is read as a node from the list's items. -/
theorem decode_eq_ofItems (hwritten : item.WrittenAs bytes) (hlist : item.isList = true)
    (hitems : Item.readAll item.payload = .ok items) :
    decode bytes = (do return (← ofItems (ofItem bytes.length) items).readFrom bytes) := by
  have hread := hwritten []
  rw [List.append_nil] at hread
  rw [decode, hread]
  show (if ¬item.isList = true then _ else _) = _
  rw [if_neg (not_not_intro hlist), hitems]
  rfl

/-- A form of a list is read on its own as it is in place. -/
theorem decode_eq_ofItem (hwritten : item.WrittenAs bytes) (hlist : item.isList = true)
    (hdepth : item.payload.length < depth) :
    (decode bytes).map (·.val) = (ofItem depth item).map (readFrom bytes) := by
  have hread := hwritten []
  rw [List.append_nil] at hread
  have hlength := (Item.length_of_read hread).2.2 hlist
  rw [ofItem_eq_of_lt (by omega) (Nat.succ_pos bytes.length) (fun _ ↦ hdepth) fun _ ↦ by omega,
    ofItem, if_pos hlist]
  cases hitems : Item.readAll item.payload with
  | error cause =>
      rw [decode, hread]
      show Except.map _ (if ¬item.isList = true then _ else _) = _
      rw [if_neg (not_not_intro hlist), hitems]
      rfl
  | ok items =>
      rw [decode_eq_ofItems hwritten hlist hitems]
      show _ = Except.map _ (do return (← ofItems (ofItem bytes.length) items).val)
      cases ofItems (ofItem bytes.length) items with
      | error cause => rfl
      | ok node => rfl

/-- Bytes that are read as a node write a list. -/
theorem exists_item_of_decode {read : Resolved} (h : decode bytes = .ok read) :
    ∃ item : Item, item.isList = true ∧ item.WrittenAs bytes := by
  rw [decode] at h
  obtain ⟨⟨item, rest⟩, hread, h⟩ := bind_eq_ok h
  dsimp only at h
  split at h
  · cases h
  · rename_i hlist
    obtain ⟨items, -, h⟩ := bind_eq_ok h
    obtain ⟨node, -, h⟩ := bind_eq_ok h
    split at h
    · rename_i hrest
      rw [List.isEmpty_iff] at hrest
      subst hrest
      exact ⟨item, not_not.mp hlist, Item.read_more hread⟩
    · cases h

end Node

end Patricia
