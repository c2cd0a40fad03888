import Patricia.Proofs.Canonical.Table
import Patricia.Proofs.Node.Whole

/-!
# The tree of a table

`Table.tree` builds the trie of a table of entries in one recursion, without updates. It is the only
normal tree with the content of the table (`Node.Normal.plain_eq_tree`), so a trie in normal form
is a function of what it holds.
-/

namespace Patricia

namespace Table

/-- The trie of a table: nothing, a leaf for a single entry, an extension for what all keys begin
with, and else a branch over the entries beyond each nibble. -/
def tree (table : Table) : Node :=
  match table with
  | [] => .null
  | [(path, value)] => .leaf .blank path value
  | first :: second :: more =>
      match lead (first :: second :: more) with
      | nibble :: rest =>
          .extension .blank nibble rest (tree (beyond (nibble :: rest) (first :: second :: more)))
      | [] =>
          .ofSlots .blank
            (.ofList ((List.finRange 16).map fun slot ↦
              tree (beyond [slot] (first :: second :: more))))
            ((first :: second :: more).lookup [])
termination_by table.size
decreasing_by
  · have hsize := size_beyond_add_length_le (first :: second :: more)
      (List.cons_ne_nil nibble rest)
    rw [List.length_cons] at hsize
    omega
  · have hsize := size_beyond_add_length_le (first :: second :: more)
      (List.cons_ne_nil slot [])
    rw [List.length_cons] at hsize
    omega

variable {table : Table}

@[simp] theorem tree_nil : tree [] = .null := by
  rw [tree]

@[simp] theorem tree_singleton (path : List Nibble) (value : Bytes) :
    tree [(path, value)] = .leaf .blank path value := by
  rw [tree]

/-- Two entries or more whose keys begin alike make an extension. -/
theorem tree_extension (h : 2 ≤ table.length) {nibble : Nibble} {rest : List Nibble}
    (hlead : table.lead = nibble :: rest) :
    table.tree = .extension .blank nibble rest (table.beyond (nibble :: rest)).tree := by
  match table with
  | first :: second :: more =>
      rw [tree, hlead]
  | [entry] => simp at h
  | [] => simp at h

/-- Two entries or more whose keys do not begin alike make a branch. -/
theorem tree_branch (h : 2 ≤ table.length) (hlead : table.lead = []) :
    table.tree = .ofSlots .blank
      (.ofList ((List.finRange 16).map fun slot ↦ (table.beyond [slot]).tree))
      (table.lookup []) := by
  match table with
  | first :: second :: more =>
      rw [tree, hlead]
  | [entry] => simp at h
  | [] => simp at h

/-- A table with two different keys has two entries or more. -/
theorem two_le_length {left right : List Nibble} {first second : Bytes} (hne : left ≠ right)
    (hleft : (left, first) ∈ table) (hright : (right, second) ∈ table) : 2 ≤ table.length := by
  match table with
  | [] => cases hleft
  | [entry] =>
      rw [List.mem_singleton] at hleft hright
      exact absurd (congrArg Prod.fst (hleft.trans hright.symm)) hne
  | first :: second :: more => simp

end Table

namespace Node

/-- Two keys of a normal branch do not begin alike. -/
theorem Normal.exists_apart {stamp : Stamp} {occupied : BitVec 16} {slots : Nibble → Node}
    {value : Option Bytes} (h : (branch stamp occupied slots value).Normal) {table : Table}
    (hlists : table.Lists (branch stamp occupied slots value).content) :
    ∃ left right, left ∈ table ∧ right ∈ table ∧ left.1.head? ≠ right.1.head? := by
  have hmem : ∀ key, (branch stamp occupied slots value).content key ≠ none →
      ∃ bytes, (key, bytes) ∈ table := by
    intro key hkey
    obtain ⟨bytes, hbytes⟩ := Option.ne_none_iff_exists'.mp hkey
    exact ⟨bytes, hlists.mem_iff.mpr hbytes⟩
  obtain ⟨-, ⟨slot, hslot, hmore⟩, -, hslots⟩ := h
  obtain ⟨key, hkey⟩ := (hslots slot).exists_entry hslot
  obtain ⟨first, hfirst⟩ := hmem (slot :: key) hkey
  rcases hmore with hvalue | ⟨other, hne, hother⟩
  · obtain ⟨second, hsecond⟩ := hmem [] hvalue
    exact ⟨_, _, hfirst, hsecond, nofun⟩
  · obtain ⟨key', hkey'⟩ := (hslots other).exists_entry hother
    obtain ⟨second, hsecond⟩ := hmem (other :: key') hkey'
    exact ⟨_, _, hfirst, hsecond, fun heq ↦ hne (Option.some.inj heq).symm⟩

/-- What begins two runs that do not begin alike is empty. -/
theorem eq_nil_of_prefix {lead left right : List Nibble} (hleft : lead <+: left)
    (hright : lead <+: right) (hheads : left.head? ≠ right.head?) : lead = [] := by
  obtain ⟨lefts, rfl⟩ := hleft
  obtain ⟨rights, rfl⟩ := hright
  cases lead with
  | nil => rfl
  | cons first lead => exact absurd rfl hheads

/-- A normal tree is the tree of any table of its content. -/
theorem Normal.plain_eq_tree {whole : Node} (h : whole.Normal) {table : Table}
    (hlists : table.Lists whole.content) : whole.plain = table.tree := by
  induction whole generalizing table with
  | null =>
      rw [hlists.eq_nil, Table.tree_nil, plain_null]
  | leaf stamp path value =>
      rw [hlists.eq_singleton, Table.tree_singleton, plain_leaf]
  | extension stamp first rest child ih =>
      obtain ⟨hbranch, hnormal⟩ := h
      cases child with
      | branch stamp' occupied slots value =>
          have hbeyond := hlists.beyond (first :: rest)
          simp only [content, Content.under_apply_append] at hbeyond
          -- Two keys part right below the extension, so what all keys begin with is its path and no
          -- more.
          obtain ⟨left, right, hleft, hright, hheads⟩ := hnormal.exists_apart hbeyond
          have hmem := Table.mem_beyond.mp hleft
          have hmem' := Table.mem_beyond.mp hright
          have hne : first :: rest ++ left.1 ≠ first :: rest ++ right.1 :=
            fun heq ↦ hheads (congrArg _ (List.append_cancel_left heq))
          have htable := Table.two_le_length hne hmem hmem'
          have hempty : table ≠ [] := List.ne_nil_of_mem hmem
          have hprefix : first :: rest <+: table.lead := by
            rw [Table.prefix_lead_iff hempty]
            intro entry hentry
            have hvalue := hlists.mem_iff.mp hentry
            cases hstrip : stripLead? (first :: rest) entry.1 with
            | none =>
                rw [content, Content.under_eq_none _ _ _ hstrip] at hvalue
                cases hvalue
            | some last => exact ⟨last, (stripLead?_eq_some_iff.mp hstrip).symm⟩
          obtain ⟨more, hmore⟩ := hprefix
          have hall := (Table.prefix_lead_iff hempty).mp (List.prefix_refl _)
          rw [← hmore] at hall
          have hnil := eq_nil_of_prefix
            ((List.prefix_append_right_inj _).mp (hall _ hmem))
            ((List.prefix_append_right_inj _).mp (hall _ hmem')) hheads
          rw [hnil, List.append_nil] at hmore
          rw [Table.tree_extension htable hmore.symm, plain_extension, ih hnormal hbeyond]
      | null | leaf | extension | stored => cases hbranch
  | branch stamp occupied slots value ih =>
      -- Two keys part in the branch itself, so there is nothing that all keys begin with.
      obtain ⟨left, right, hleft, hright, hheads⟩ := h.exists_apart hlists
      have htable := Table.two_le_length (fun heq ↦ hheads (congrArg _ heq)) hleft hright
      have hall := (Table.prefix_lead_iff (List.ne_nil_of_mem hleft)).mp (List.prefix_refl _)
      have hlead := eq_nil_of_prefix (hall _ hleft) (hall _ hright) hheads
      have hslots : ∀ slot, (slots slot).plain = (table.beyond [slot]).tree :=
        fun slot ↦ ih slot (h.2.2.2 slot) (hlists.beyond [slot])
      have hnode : ∀ slot, (Slots.ofList ((List.finRange 16).map fun slot ↦
          (table.beyond [slot]).tree)).node slot = (slots slot).plain := by
        intro slot
        rw [Slots.node_ofList, hslots]
        simp
      have hoccupied := h.1.occupied_eq (Slots.ofList_sound ((List.finRange 16).map fun slot ↦
        (table.beyond [slot]).tree)) fun slot ↦ by rw [hnode, isNull_plain]
      rw [Table.tree_branch htable hlead, plain_branch, ofSlots, hlists.lookup_eq, ← hoccupied,
        funext hnode]
      rfl
  | stored stamp hash => exact h.elim

end Node

end Patricia
