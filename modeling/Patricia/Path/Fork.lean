import Patricia.Path.Basic

/-!
# Where runs of nibbles part

`stripLead?` takes a run of nibbles off the front of another. `fork` finds the longest run that
two share and what is left of each. The statements say that nothing is lost and that the parts
left over do not go on alike.
-/

namespace Patricia

/-- What follows a lead in a run of nibbles, if the run begins with the lead. -/
def stripLead? : List Nibble → List Nibble → Option (List Nibble)
  | [], run => some run
  | _ :: _, [] => none
  | first :: lead, nibble :: run => if first = nibble then stripLead? lead run else none

/-- Taking off a lead succeeds exactly on the runs that begin with it. -/
theorem stripLead?_eq_some_iff {lead run rest : List Nibble} :
    stripLead? lead run = some rest ↔ run = lead ++ rest := by
  induction lead generalizing run with
  | nil => simp [stripLead?]
  | cons first lead ih =>
    cases run with
    | nil => simp [stripLead?]
    | cons nibble run =>
      by_cases h : first = nibble
      · simp [stripLead?, h, ih]
      · simp [stripLead?, h, Ne.symm h]

/-- Two runs of nibbles, parted: what they share and what is left of each. -/
structure Fork where
  shared : List Nibble
  left : List Nibble
  right : List Nibble

/-- The place where two runs part. -/
def fork : List Nibble → List Nibble → Fork
  | left :: lefts, right :: rights =>
      if left = right then
        let later := fork lefts rights
        { later with shared := left :: later.shared }
      else ⟨[], left :: lefts, right :: rights⟩
  | lefts, rights => ⟨[], lefts, rights⟩

/-- A fork loses nothing of the first run. -/
theorem fork_left (left right : List Nibble) :
    (fork left right).shared ++ (fork left right).left = left := by
  fun_induction fork left right with
  | case1 lefts right rights later ih => simpa [later] using ih
  | case2 => rfl
  | case3 => rfl

/-- A fork loses nothing of the second run. -/
theorem fork_right (left right : List Nibble) :
    (fork left right).shared ++ (fork left right).right = right := by
  fun_induction fork left right with
  | case1 lefts right rights later ih => simpa [later] using ih
  | case2 => rfl
  | case3 => rfl

/-- What two runs are parted into makes up both of them. -/
theorem eq_append_of_fork {left right shared lefts rights : List Nibble}
    (h : fork left right = ⟨shared, lefts, rights⟩) :
    left = shared ++ lefts ∧ right = shared ++ rights := by
  have hleft := fork_left left right
  have hright := fork_right left right
  rw [h] at hleft hright
  exact ⟨hleft.symm, hright.symm⟩

/-- A run of which nothing is left is a front of the other one. -/
theorem eq_append_of_fork_nil {lead key shared rest : List Nibble}
    (h : fork lead key = ⟨shared, [], rest⟩) : key = lead ++ rest := by
  obtain ⟨hlead, hkey⟩ := eq_append_of_fork h
  rw [hlead, List.append_nil, hkey]

/-- After a fork the two runs do not go on with the same nibble. -/
theorem fork_parts (left right : List Nibble) {first second : Nibble}
    (hleft : (fork left right).left.head? = some first)
    (hright : (fork left right).right.head? = some second) : first ≠ second := by
  fun_induction fork left right with
  | case1 lefts right rights later ih => exact ih hleft hright
  | case2 left lefts right rights hne => simp_all
  | case3 lefts rights hno =>
    cases lefts with
    | nil => simp at hleft
    | cons left lefts =>
      cases rights with
      | nil => simp at hright
      | cons right rights => exact absurd rfl (hno left lefts right rights rfl)

end Patricia
