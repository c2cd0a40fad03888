import Patricia.Path.Fork

/-!
# What keys are mapped to

A `Content` says for the remaining nibbles of each key which value is held, if any. Contents are
put together like tries are: a single entry, a content under a lead, a content spread over sixteen
slots. The equations say how giving a key a value, or taking it away, goes down into each of these.
-/

namespace Patricia

/-- The value held under the remaining nibbles of each key. -/
abbrev Content := List Nibble → Option Bytes

namespace Content

/-- No key has a value. -/
def nothing : Content :=
  fun _ ↦ none

/-- One key has a value. -/
def single (path : List Nibble) (value : Bytes) : Content :=
  fun key ↦ if path = key then some value else none

/-- The keys are led by a run of nibbles. -/
def under (lead : List Nibble) (content : Content) : Content :=
  fun key ↦ (stripLead? lead key).bind content

/-- One content, and another where it has no value. -/
def atop (new old : Content) : Content :=
  fun key ↦ (new key).or (old key)

/-- A value for the key that ends here and a content for each next nibble. -/
def spread (value : Option Bytes) (slots : Nibble → Content) : Content
  | [] => value
  | nibble :: rest => slots nibble rest

/-- The content with a value for a key. -/
def put (content : Content) (key : List Nibble) (value : Bytes) : Content :=
  fun other ↦ if key = other then some value else content other

/-- The content without a value for a key. -/
def erase (content : Content) (key : List Nibble) : Content :=
  fun other ↦ if key = other then none else content other

variable (content new old : Content) (lead more rest path key : List Nibble) (value : Bytes)
  (nibble : Nibble) (own : Option Bytes) (slots : Nibble → Content)

/-! ## Leads -/

/-- A lead comes off what it was put in front of. -/
@[simp] theorem stripLead?_append : stripLead? lead (lead ++ rest) = some rest :=
  stripLead?_eq_some_iff.mpr rfl

/-- A longer lead is taken off in two steps. -/
theorem stripLead?_lead_append :
    stripLead? (lead ++ more) key = (stripLead? lead key).bind (stripLead? more) := by
  induction lead generalizing key with
  | nil => rfl
  | cons first lead ih =>
      cases key with
      | nil => rfl
      | cons nibble key =>
          rw [List.cons_append, stripLead?, stripLead?]
          split
          · exact ih key
          · rfl

/-- Leads are taken off one after the other. -/
theorem under_append : under (lead ++ more) content = under lead (under more content) := by
  funext key
  rw [under, stripLead?_lead_append, Option.bind_assoc]
  rfl

/-- Keys led by the lead have the values of what follows it. -/
@[simp] theorem under_apply_append : under lead content (lead ++ rest) = content rest := by
  rw [under, stripLead?_append, Option.bind_some]

/-- Keys that do not begin with the lead have no value. -/
theorem under_eq_none (h : stripLead? lead key = none) : under lead content key = none := by
  rw [under, h, Option.bind_none]

/-- Nothing under a lead is nothing. -/
@[simp] theorem under_nothing : under lead nothing = nothing := by
  funext key
  exact Option.bind_fun_none _

/-- A single entry under a lead is a single entry. -/
@[simp] theorem under_single : under lead (single path value) = single (lead ++ path) value := by
  funext key
  cases h : stripLead? lead key with
  | none =>
      have hne : lead ++ path ≠ key := by
        rintro rfl
        rw [stripLead?_append] at h
        cases h
      rw [under_eq_none _ _ _ h, single, if_neg hne]
  | some rest =>
      obtain rfl := stripLead?_eq_some_iff.mp h
      simp only [under_apply_append, single, List.append_cancel_left_eq]

/-- Both contents go under the lead. -/
theorem under_atop : under lead (new.atop old) = (under lead new).atop (under lead old) := by
  funext key
  simp only [atop, under]
  cases stripLead? lead key <;> rfl

/-- A content under one nibble is spread over one slot. -/
theorem under_singleton :
    under [nibble] content =
      spread none fun slot ↦ if slot = nibble then content else nothing := by
  funext key
  cases key with
  | nil => rfl
  | cons other rest =>
      rw [under, stripLead?, stripLead?, spread]
      by_cases h : nibble = other
      · rw [if_pos h, if_pos h.symm, Option.bind_some]
      · rw [if_neg h, if_neg (Ne.symm h), Option.bind_none]
        rfl

/-! ## Contents over contents -/

/-- Over nothing a content is as it is. -/
@[simp] theorem atop_nothing : content.atop nothing = content := by
  funext key
  exact Option.or_none

/-- Nothing hides nothing. -/
@[simp] theorem nothing_atop : nothing.atop content = content :=
  rfl

/-- Nothing spread is nothing. -/
@[simp] theorem spread_nothing : (spread none fun _ ↦ nothing) = nothing := by
  funext key
  cases key <;> rfl

/-- The entry of the key that ends here is spread over no slot. -/
theorem single_nil : single [] value = spread (some value) fun _ ↦ nothing := by
  funext key
  cases key <;> rfl

/-- Spread contents are put over each other slot by slot. -/
theorem spread_atop (below : Option Bytes) (others : Nibble → Content) :
    (spread own slots).atop (spread below others) =
      spread (own.or below) fun slot ↦ (slots slot).atop (others slot) := by
  funext key
  cases key <;> rfl

/-! ## Values given and taken -/

/-- Giving a key a value puts an entry over the rest. -/
theorem put_eq_atop : content.put key value = (single key value).atop content := by
  funext other
  simp only [put, atop, single]
  split <;> rfl

/-- A single entry gets a new value. -/
@[simp] theorem put_single (bytes : Bytes) :
    (single key bytes).put key value = single key value := by
  funext other
  simp only [put, single]
  split <;> rfl

/-- Where nothing is, one entry is put. -/
@[simp] theorem put_nothing : nothing.put key value = single key value := by
  funext other
  rfl

/-- Below a lead the rest of the key gets the value. -/
theorem put_under :
    (under lead content).put (lead ++ rest) value = under lead (content.put rest value) := by
  rw [put_eq_atop, put_eq_atop, under_atop, under_single]

/-- The key that ends here gets the value. -/
@[simp] theorem put_spread_nil : (spread own slots).put [] value = spread (some value) slots := by
  funext key
  cases key with
  | nil => rw [put, if_pos rfl, spread]
  | cons nibble rest => rw [put, if_neg (List.cons_ne_nil _ _).symm, spread, spread]

/-- In the slot of the first nibble the rest of the key gets the value. -/
theorem put_spread_cons :
    (spread own slots).put (nibble :: rest) value =
      spread own fun slot ↦
        if slot = nibble then (slots nibble).put rest value else slots slot := by
  funext key
  cases key with
  | nil => rw [put, if_neg (List.cons_ne_nil _ _), spread, spread]
  | cons other key =>
      simp only [put, spread, List.cons.injEq]
      by_cases h : other = nibble
      · subst h
        simp only [true_and, if_true]
        rfl
      · rw [if_neg fun heq ↦ h heq.1.symm, if_neg h]

/-- Taking its value from a key without one changes nothing. -/
theorem erase_of_eq_none (h : content key = none) : content.erase key = content := by
  funext other
  rw [erase]
  split
  · rename_i heq
    rw [← heq, h]
  · rfl

/-- Without its value a single entry is nothing. -/
@[simp] theorem erase_single : (single key value).erase key = nothing := by
  funext other
  simp only [erase, single]
  split <;> rfl

/-- Below a lead the value is taken from the rest of the key. -/
theorem erase_under :
    (under lead content).erase (lead ++ rest) = under lead (content.erase rest) := by
  funext key
  cases h : stripLead? lead key with
  | none =>
      rw [erase, under_eq_none _ _ _ h, under_eq_none _ _ _ h, ite_self]
  | some last =>
      obtain rfl := stripLead?_eq_some_iff.mp h
      simp only [erase, under_apply_append, List.append_cancel_left_eq]

/-- The value is taken from the key that ends here. -/
@[simp] theorem erase_spread_nil : (spread own slots).erase [] = spread none slots := by
  funext key
  cases key with
  | nil => rw [erase, if_pos rfl, spread]
  | cons nibble rest => rw [erase, if_neg (List.cons_ne_nil _ _).symm, spread, spread]

/-- In the slot of the first nibble the value is taken from the rest of the key. -/
theorem erase_spread_cons :
    (spread own slots).erase (nibble :: rest) =
      spread own fun slot ↦ if slot = nibble then (slots nibble).erase rest else slots slot := by
  funext key
  cases key with
  | nil => rw [erase, if_neg (List.cons_ne_nil _ _), spread, spread]
  | cons other key =>
      simp only [erase, spread, List.cons.injEq]
      by_cases h : other = nibble
      · subst h
        simp only [true_and, if_true]
        rfl
      · rw [if_neg fun heq ↦ h heq.1.symm, if_neg h]

end Content

end Patricia
