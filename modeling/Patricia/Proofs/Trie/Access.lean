import Patricia.Proofs.Ledger
import Patricia.Proofs.Update.Content
import Patricia.Trie.Access

/-!
# Values read and written

Reading a key of a node that holds the content of a ledger gives the ledger's value, and writing or
removing one ends with a node that holds the content of the changed ledger.
-/

namespace Patricia.Node

variable {α : Type} [TrieValue α] {service : Service} {held : Hash → Node → Prop} {bound : Nat}
  {node : Node} {content : Content} {ledger : Ledger α}

/-- The walk that makes a change under a node. -/
def change (node : Node) : Change α → Walk Node
  | .put key value => node.write key value
  | .remove key => node.remove key

/-- A read gives the value that the ledger has for the key. -/
theorem read_content (hservice : service.Faithful held) (key : Bytes)
    (h : node.Holds held content) (hissued : node.Issued service.owner bound)
    (hrecords : ledger.Records content) :
    (node.read key).Meets service (fun _ found ↦ found = ledger.lookup key) bound := by
  rw [read]
  refine Walk.Meets.bind ((find?_content hservice key.nibbles h hissued).mono ?_)
  intro later found _ hfound
  rw [hrecords.value_eq] at hfound
  subst hfound
  cases ledger.lookup key with
  | none => exact rfl
  | some value =>
      simp only [Option.map_some, TrieValue.decode_encode]
      exact rfl

/-- A removal ends with a tree of the owner's that holds the content without the key. -/
theorem remove_content (hservice : service.Faithful held) (key : Bytes)
    (h : node.Holds held content) (hissued : node.Issued service.owner bound) :
    (node.remove key).Meets service
      (fun later updated ↦ updated.Issued service.owner later ∧
        updated.Holds held (content.erase key.nibbles)) bound := by
  have hstanding := h.standing hissued
  refine ((erase_standing hservice.steady key.nibbles hstanding).and
    (erase_content hservice key.nibbles h hissued)).mono ?_
  intro later updated _ hupdated
  exact ⟨hupdated.1.1.issued, hupdated.2.1⟩

/-- A change ends with a tree of the owner's that holds the changed content. -/
theorem change_content (hservice : service.Faithful held) (change : Change α)
    (h : node.Holds held content) (hissued : node.Issued service.owner bound) :
    (node.change change).Meets service
      (fun later updated ↦ updated.Issued service.owner later ∧
        updated.Holds held (content.record change)) bound := by
  cases change with
  | remove key => exact remove_content hservice key h hissued
  | put key value =>
      rw [Node.change, write, Content.record]
      by_cases hempty : TrieValue.encode value = []
      · rw [if_pos (List.isEmpty_iff.mpr hempty), if_pos hempty]
        exact remove_content hservice key h hissued
      · rw [if_neg (mt List.isEmpty_iff.mp hempty), if_neg hempty]
        have hstanding := h.standing hissued
        refine ((insert_standing hservice.steady key.nibbles hempty hstanding).and
          (insert_content hservice key.nibbles hempty h hissued)).mono ?_
        intro later updated _ hupdated
        exact ⟨hupdated.1.1.1.issued, hupdated.2⟩

end Patricia.Node
