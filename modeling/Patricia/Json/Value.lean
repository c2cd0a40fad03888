import Patricia.Json.Token

/-!
# JSON values

The functions below read a value, or the members of an object, off the front of a run of tokens.
Only natural numbers are kept; all other values have to be well formed and are passed over.
-/

namespace Patricia.Json

/-- What a value is where only natural numbers matter. -/
inductive Value where
  | natural (value : Nat)
  | other

mutual

/-- The value in front, and what follows it. The first argument bounds the steps that are taken,
at most two for each token. -/
def value? : Nat → List Token → Option (Value × List Token)
  | 0, _ => none
  | steps + 1, tokens =>
      match tokens with
      | .word :: rest => some (.other, rest)
      | .string _ :: rest => some (.other, rest)
      | .number (some n) :: rest => some (.natural n, rest)
      | .number none :: rest => some (.other, rest)
      | .openBracket :: .closeBracket :: rest => some (.other, rest)
      | .openBracket :: rest => (afterItems? steps rest).map (.other, ·)
      | .openBrace :: .closeBrace :: rest => some (.other, rest)
      | .openBrace :: rest => (afterMembers? steps rest).map (.other, ·)
      | _ => none

/-- What follows the items of an array, of which there is at least one. -/
def afterItems? : Nat → List Token → Option (List Token)
  | 0, _ => none
  | steps + 1, tokens =>
      match value? steps tokens with
      | some (_, .comma :: rest) => afterItems? steps rest
      | some (_, .closeBracket :: rest) => some rest
      | _ => none

/-- What follows the members of an object, of which there is at least one. -/
def afterMembers? : Nat → List Token → Option (List Token)
  | 0, _ => none
  | steps + 1, tokens =>
      match tokens with
      | .string _ :: .colon :: rest =>
          match value? steps rest with
          | some (_, .comma :: rest) => afterMembers? steps rest
          | some (_, .closeBrace :: rest) => some rest
          | _ => none
      | _ => none

end

/-- The members of an object that nothing follows. Their names have to be text. -/
def members? : Nat → List Token → Option (List (String × Value))
  | 0, _ => none
  | steps + 1, tokens =>
      match tokens with
      | .string (some name) :: .colon :: rest =>
          match value? steps rest with
          | some (value, .comma :: rest) =>
              (members? steps rest).map ((name, value) :: ·)
          | some (value, [.closeBrace]) => some [(name, value)]
          | _ => none
      | _ => none

end Patricia.Json
