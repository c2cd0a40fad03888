import Patricia.Path.Fork
import Patricia.Proofs.Format.HexPrefix

/-!
# Symbols taken apart

Where a path is taken apart by positions, the positions come from the path itself: the length of
its front, or the number of symbols it shares with another one. Each of these accesses is within
bounds and gives what the nibbles are taken apart into, by `stripLead?` or by `fork`.
-/

namespace Patricia

namespace Symbols

variable {run rest : Symbols} {position : Nat}

/-- The symbol behind a front is at the front's length. -/
theorem at?_append (front back : Symbols) (symbol : UInt8) :
    (front ++ symbol :: back).at? front.length = .ok symbol := by
  rw [at?, List.getElem?_append_right (Nat.le_refl _), Nat.sub_self, List.getElem?_cons_zero]

/-- A front is what is before its length. -/
theorem slice_front (front back : Symbols) :
    (front ++ back).slice .unbounded (.excluded front.length) = .ok front := by
  simp [slice]

/-- What follows a front is what is from its length on. -/
theorem slice_back (front back : Symbols) :
    (front ++ back).slice (.included front.length) .unbounded = .ok back := by
  have hle : front.length ≤ (front ++ back).length := by simp
  simp only [slice, hle, Nat.le_refl, and_self, if_true, List.take_length, List.drop_left]

/-- What follows a front and one more symbol is what is past the symbol. -/
theorem slice_past (front back : Symbols) (symbol : UInt8) :
    (front ++ symbol :: back).slice (.included (front.length + 1)) .unbounded = .ok back := by
  simpa using slice_back (front ++ [symbol]) back

/-- What is left past the first symbols is shorter. -/
theorem length_lt_of_slice (h : run.slice (.included position) .unbounded = .ok rest)
    (hpos : 0 < position) : rest.length < run.length := by
  simp only [slice, Nat.le_refl, and_true] at h
  split at h
  · cases h
    simp only [List.take_length, List.length_drop]
    omega
  · cases h

/-- It does not matter which sequence comes first. -/
theorem sharedLength_comm (left right : Symbols) :
    sharedLength left right = sharedLength right left := by
  fun_induction sharedLength left right with
  | case1 left lefts rights ih => rw [sharedLength, if_pos rfl, ih]
  | case2 left lefts right rights hne => rw [sharedLength, if_neg (Ne.symm hne)]
  | case3 lefts rights hno =>
      cases lefts with
      | nil => cases rights <;> rfl
      | cons left lefts =>
          cases rights with
          | nil => rfl
          | cons right rights => exact (hno left lefts right rights rfl rfl).elim

/-- Two sequences share a front that both have. -/
theorem sharedLength_append (front left right : Symbols) :
    sharedLength (front ++ left) (front ++ right) = front.length + sharedLength left right := by
  induction front with
  | nil => rw [List.nil_append, List.nil_append, List.length_nil, Nat.zero_add]
  | cons symbol front ih =>
      rw [List.cons_append, List.cons_append, sharedLength, if_pos rfl, ih, List.length_cons]
      omega

/-- A sequence is shared as a whole by those that begin with it. -/
theorem sharedLength_lt_iff (run lead : Symbols) :
    sharedLength run lead < lead.length ↔ ¬ lead <+: run := by
  fun_induction sharedLength run lead with
  | case1 symbol run lead ih =>
      rw [List.length_cons, Nat.add_lt_add_iff_right, ih, List.prefix_cons_iff]
      simp
  | case2 left run right lead hne =>
      simp [List.cons_prefix_cons, Ne.symm hne]
  | case3 run lead hno =>
      cases lead with
      | nil => simp
      | cons right lead =>
          cases run with
          | nil => simp
          | cons left run => exact (hno left run right lead rfl rfl).elim

end Symbols

/-! ## Paths written out -/

/-- A nibble's symbol is its number. -/
@[simp] theorem toNat_nibbleSymbol (nibble : Nibble) :
    (nibbleSymbol nibble).toNat = nibble.val := by
  revert nibble
  decide

/-- A nibble can be read from its symbol. -/
@[simp] theorem lowNibble_nibbleSymbol (nibble : Nibble) :
    lowNibble (nibbleSymbol nibble) = nibble := by
  revert nibble
  decide

/-- Different nibbles have different symbols. -/
theorem nibbleSymbol_inj {left right : Nibble} : nibbleSymbol left = nibbleSymbol right ↔
    left = right := by
  refine ⟨fun h ↦ ?_, congrArg nibbleSymbol⟩
  rw [← lowNibble_nibbleSymbol left, h, lowNibble_nibbleSymbol]

/-- A nibble's symbol is no larger than the terminator. -/
theorem nibbleSymbol_le_terminator (nibble : Nibble) : nibbleSymbol nibble ≤ terminator := by
  revert nibble
  decide

namespace Path

variable {lead key rest : List Nibble} {nibble : Nibble} {terminated : Bool}

/-- A path that leads on is written without a terminator. -/
theorem symbols_onward (nibbles : List Nibble) :
    (Path.mk nibbles false).symbols = nibbles.map nibbleSymbol := by
  simp [symbols]

/-- A path that ends a key is written with the terminator last. -/
theorem symbols_ending (nibbles : List Nibble) :
    (Path.mk nibbles true).symbols = nibbles.map nibbleSymbol ++ [terminator] := rfl

/-- What is written of a path behind a lead follows the lead's symbols. -/
theorem symbols_append (lead rest : List Nibble) (terminated : Bool) :
    (Path.mk (lead ++ rest) terminated).symbols =
      lead.map nibbleSymbol ++ (Path.mk rest terminated).symbols := by
  simp [symbols]

/-- The first nibble of a path is written first. -/
theorem symbols_cons (nibble : Nibble) (rest : List Nibble) (terminated : Bool) :
    (Path.mk (nibble :: rest) terminated).symbols =
      nibbleSymbol nibble :: (Path.mk rest terminated).symbols := rfl

/-- What a path writes is a path, the same one. -/
theorem ofSymbols_symbols (path : Path) : ofSymbols path.symbols = .ok path := by
  have hcheck : path.symbols.check = .ok () := by
    have hinside : terminator ∉ path.symbols.dropLast := by
      intro hmem
      have hnibbles : terminator ∈ path.nibbles.map nibbleSymbol := by
        obtain ⟨nibbles, _ | _⟩ := path
        · rw [symbols_onward] at hmem
          exact (List.dropLast_sublist _).subset hmem
        · rwa [symbols_ending, List.dropLast_concat] at hmem
      obtain ⟨nibble, -, heq⟩ := List.mem_map.mp hnibbles
      exact nibbleSymbol_ne_terminator nibble heq
    have hall : path.symbols.all (· ≤ terminator) = true := by
      obtain ⟨nibbles, _ | _⟩ := path <;>
        simp [symbols, nibbleSymbol_le_terminator]
    rw [Symbols.check, if_neg hinside, if_pos hall]
  rw [ofSymbols, hcheck, isTerminated_symbols]
  obtain ⟨nibbles, _ | _⟩ := path
  · simp [symbols_onward, Function.comp_def, bind, Except.bind, pure, Except.pure]
  · simp [symbols_ending, Function.comp_def, bind, Except.bind, pure, Except.pure]

/-- Different paths are written differently. -/
theorem symbols_inj {left right : Path} : left.symbols = right.symbols ↔ left = right := by
  refine ⟨fun h ↦ ?_, congrArg symbols⟩
  have hleft := ofSymbols_symbols left
  rw [h, ofSymbols_symbols right] at hleft
  exact (Except.ok.inj hleft).symm

/-- A key begins with a lead exactly if the symbols do. -/
theorem symbols_prefix_iff :
    (Path.mk lead false).symbols <+: (Path.mk key true).symbols ↔ lead <+: key := by
  induction lead generalizing key with
  | nil => simp [symbols]
  | cons first lead ih =>
      cases key with
      | nil => simp [symbols, nibbleSymbol_ne_terminator]
      | cons nibble key =>
          rw [symbols_cons, symbols_cons, List.cons_prefix_cons, List.cons_prefix_cons, ih,
            nibbleSymbol_inj]

/-- A key that a lead cannot be taken off shares less than the lead. -/
theorem sharedLength_of_stripLead?_none (h : stripLead? lead key = none) :
    (Path.mk key true).symbols.sharedLength (Path.mk lead false).symbols <
      (Path.mk lead false).symbols.length := by
  rw [Symbols.sharedLength_lt_iff, symbols_prefix_iff]
  rintro ⟨rest, rfl⟩
  rw [stripLead?_eq_some_iff.mpr rfl] at h
  cases h

/-- A key that a lead can be taken off shares all of the lead, and goes on behind it. -/
theorem slice_of_stripLead?_some (h : stripLead? lead key = some rest) :
    ¬ (Path.mk key true).symbols.sharedLength (Path.mk lead false).symbols <
      (Path.mk lead false).symbols.length ∧
    (Path.mk key true).symbols.slice (.included (Path.mk lead false).symbols.length) .unbounded =
      .ok (Path.mk rest true).symbols := by
  obtain rfl := stripLead?_eq_some_iff.mp h
  refine ⟨?_, ?_⟩
  · rw [Symbols.sharedLength_lt_iff, symbols_prefix_iff, Classical.not_not]
    exact List.prefix_append lead rest
  · rw [symbols_append, ← symbols_onward]
    exact Symbols.slice_back _ _

/-- The number of symbols that a path shares with another key is the number of nibbles that they
share. -/
theorem sharedLength_eq_fork {path : Path} (hpath : path ≠ ⟨key, true⟩) :
    path.symbols.sharedLength (Path.mk key true).symbols =
      (fork path.nibbles key).shared.length := by
  obtain ⟨nibbles, terminated⟩ := path
  have hparts := @fork_parts nibbles key
  cases hfork : fork nibbles key with | mk shared left right => ?_
  rw [hfork] at hparts
  obtain ⟨rfl, rfl⟩ := eq_append_of_fork hfork
  -- Behind the shared nibbles the symbols differ, or the path is over.
  have hrest : (Path.mk left terminated).symbols.sharedLength (Path.mk right true).symbols = 0 := by
    cases left with
    | nil =>
        cases right with
        | nil =>
            cases terminated with
            | false => rfl
            | true => exact absurd rfl hpath
        | cons nibble right =>
            cases terminated with
            | false => rfl
            | true =>
                rw [symbols_cons, symbols_ending, List.map_nil, List.nil_append,
                  Symbols.sharedLength, if_neg (nibbleSymbol_ne_terminator nibble).symm]
    | cons nibble left =>
        cases right with
        | nil =>
            rw [symbols_cons, symbols_ending, List.map_nil, List.nil_append,
              Symbols.sharedLength, if_neg (nibbleSymbol_ne_terminator nibble)]
        | cons other right =>
            have hne : nibbleSymbol nibble ≠ nibbleSymbol other := fun heq ↦
              hparts rfl rfl (nibbleSymbol_inj.mp heq)
            rw [symbols_cons, symbols_cons, Symbols.sharedLength, if_neg hne]
  rw [symbols_append, symbols_append, Symbols.sharedLength_append, hrest, List.length_map,
    Nat.add_zero]

/-- A key shares less than a lead exactly if something of the lead is left after the fork. -/
theorem sharedLength_lt_iff_of_fork {shared left right : List Nibble}
    (h : fork lead key = ⟨shared, left, right⟩) :
    (Path.mk key true).symbols.sharedLength (Path.mk lead false).symbols <
      (Path.mk lead false).symbols.length ↔ left ≠ [] := by
  obtain ⟨rfl, -⟩ := eq_append_of_fork h
  rw [Symbols.sharedLength_comm, sharedLength_eq_fork (by simp), h, symbols_onward, List.length_map,
    List.length_append]
  simp [List.length_pos_iff]

/-- What a key begins with is before the length of it. -/
theorem slice_front (lead rest : List Nibble) :
    (Path.mk (lead ++ rest) true).symbols.slice .unbounded (.excluded lead.length) =
      .ok (Path.mk lead false).symbols := by
  rw [symbols_append, symbols_onward, ← List.length_map nibbleSymbol]
  exact Symbols.slice_front _ _

end Path

end Patricia
