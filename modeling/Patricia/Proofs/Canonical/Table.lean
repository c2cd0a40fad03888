import Mathlib.Algebra.GroupWithZero.Nat
import Mathlib.Data.List.Nodup
import Patricia.Proofs.Content

/-!
# Tables of entries

A `Table` is a list of remaining key nibbles with values. It lists a content (`Table.Lists`) when
it has each entry of the content once and no others. `Table.lead` is the longest run of nibbles that
all keys begin with, and `Table.beyond` the table of what follows a lead.
-/

namespace Patricia

/-- Remaining nibbles of keys, with values. -/
abbrev Table := List (List Nibble × Bytes)

/-- The longest run of nibbles with which two runs begin. -/
def commonLead : List Nibble → List Nibble → List Nibble
  | left :: lefts, right :: rights =>
      if left = right then left :: commonLead lefts rights else []
  | _, _ => []

/-- What two runs begin with is what both begin with. -/
theorem prefix_commonLead_iff {lead left right : List Nibble} :
    lead <+: commonLead left right ↔ lead <+: left ∧ lead <+: right := by
  fun_induction commonLead left right generalizing lead with
  | case1 nibble lefts rights ih =>
      cases lead with
      | nil => simp
      | cons first lead =>
          simp only [List.cons_prefix_cons, ih]
          tauto
  | case2 left lefts right rights hne =>
      cases lead with
      | nil => simp
      | cons first lead =>
          simp only [List.cons_prefix_cons, List.prefix_nil, reduceCtorEq, false_iff, not_and]
          rintro ⟨rfl, -⟩ heq
          exact absurd heq hne
  | case3 left right hno =>
      cases left with
      | nil => simp +contextual
      | cons first lefts =>
          cases right with
          | nil => simp +contextual
          | cons second rights => exact (hno _ _ _ _ rfl rfl).elim

namespace Table

/-- The longest run of nibbles with which all keys begin. -/
def lead : Table → List Nibble
  | [] => []
  | [entry] => entry.1
  | entry :: others => commonLead entry.1 (lead others)

/-- The entries whose keys begin with a lead, with what follows the lead. -/
def beyond (lead : List Nibble) (table : Table) : Table :=
  table.filterMap fun entry ↦ (stripLead? lead entry.1).map fun rest ↦ (rest, entry.2)

/-- Number of entries and of nibbles in all keys. -/
def size (table : Table) : Nat :=
  (table.map fun entry ↦ entry.1.length + 1).sum

/-- The table has each entry of a content once, and no others. -/
structure Lists (table : Table) (content : Content) : Prop where
  distinct : (table.map Prod.fst).Nodup
  mem_iff : ∀ {path value}, (path, value) ∈ table ↔ content path = some value

variable {table : Table} {content : Content} {lead path : List Nibble} {value : Bytes}

/-- What all keys of a table begin with is what its lead begins with. -/
theorem prefix_lead_iff (h : table ≠ []) :
    lead <+: table.lead ↔ ∀ entry ∈ table, lead <+: entry.1 := by
  fun_induction Table.lead table with
  | case1 => exact absurd rfl h
  | case2 entry => simp
  | case3 entry others hothers ih =>
      have hne : others ≠ [] := hothers
      rw [prefix_commonLead_iff, ih hne]
      simp

/-- An entry beyond a lead is one of the table that begins with it. -/
theorem mem_beyond :
    (path, value) ∈ table.beyond lead ↔ (lead ++ path, value) ∈ table := by
  simp only [beyond, List.mem_filterMap, Option.map_eq_some_iff, Prod.mk.injEq]
  constructor
  · rintro ⟨⟨key, bytes⟩, hmem, rest, hrest, rfl, rfl⟩
    rwa [← stripLead?_eq_some_iff.mp hrest]
  · intro hmem
    exact ⟨_, hmem, path, Content.stripLead?_append _ _, rfl, rfl⟩

/-- Going beyond a lead makes a table smaller. -/
theorem size_beyond_add_length_le (table : Table) (hlead : lead ≠ []) :
    (table.beyond lead).size + table.length ≤ table.size := by
  have hpos := List.length_pos_iff.mpr hlead
  induction table with
  | nil => exact Nat.le_refl _
  | cons entry others ih =>
      simp only [beyond, size] at ih
      cases hstrip : stripLead? lead entry.1 with
      | none =>
          simp only [beyond, size, List.filterMap_cons, hstrip, Option.map_none, List.map_cons,
            List.sum_cons, List.length_cons]
          omega
      | some rest =>
          have hlength := congrArg List.length (stripLead?_eq_some_iff.mp hstrip)
          rw [List.length_append] at hlength
          simp only [beyond, size, List.filterMap_cons, hstrip, Option.map_some, List.map_cons,
            List.sum_cons, List.length_cons]
          omega

namespace Lists

/-- A table of nothing has no entries. -/
theorem eq_nil (h : table.Lists .nothing) : table = [] := by
  rw [List.eq_nil_iff_forall_not_mem]
  intro entry hentry
  exact Option.some_ne_none _ (h.mem_iff.mp hentry).symm

/-- A table of a single entry is that entry. -/
theorem eq_singleton (h : table.Lists (.single path value)) : table = [(path, value)] := by
  have hmem : (path, value) ∈ table := h.mem_iff.mpr (if_pos rfl)
  have hall : ∀ entry ∈ table, entry = (path, value) := by
    intro entry hentry
    have hvalue := h.mem_iff.mp hentry
    rw [Content.single] at hvalue
    split at hvalue
    · rename_i heq
      rw [heq, Option.some.inj hvalue]
    · cases hvalue
  have hnodup := List.Nodup.of_map _ h.distinct
  rw [List.eq_replicate_of_mem hall] at hnodup hmem ⊢
  have hle := List.nodup_replicate.mp hnodup
  have hpos : table.length ≠ 0 := by
    intro hzero
    rw [hzero] at hmem
    cases hmem
  rw [show table.length = 1 by omega]
  rfl

/-- Beyond a lead a table lists the content that is under the lead. -/
theorem beyond (h : table.Lists content) (lead : List Nibble) :
    (table.beyond lead).Lists fun rest ↦ content (lead ++ rest) := by
  refine ⟨?_, mem_beyond.trans h.mem_iff⟩
  have hmap : (table.beyond lead).map Prod.fst =
      (table.map Prod.fst).filterMap (stripLead? lead) := by
    rw [Table.beyond, List.map_filterMap, List.filterMap_map]
    refine List.filterMap_congr fun entry _ ↦ ?_
    simp only [Option.map_map, Function.comp_def]
    exact Option.map_id'
  rw [hmap]
  refine h.distinct.filterMap fun left right rest hleft hright ↦ ?_
  rw [stripLead?_eq_some_iff.mp hleft, stripLead?_eq_some_iff.mp hright]

/-- The value of a key is found in a table that lists the content. -/
theorem lookup_eq (h : table.Lists content) (path : List Nibble) :
    table.lookup path = content path := by
  cases hlookup : table.lookup path with
  | none =>
      rw [List.lookup_eq_none_iff] at hlookup
      cases hcontent : content path with
      | none => rfl
      | some value => simpa using hlookup _ (h.mem_iff.mpr hcontent)
  | some value =>
      obtain ⟨before, after, rfl, -⟩ := List.lookup_eq_some_iff.mp hlookup
      exact (h.mem_iff.mp (by simp)).symm

end Lists

end Table

end Patricia
