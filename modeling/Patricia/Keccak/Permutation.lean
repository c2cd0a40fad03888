/-!
# The Keccak permutation

The state of the permutation is a square of 25 lanes of 64 bits, kept as five planes of five
lanes. One round mixes the columns (`State.mixColumns`), turns and moves the lanes
(`State.scatter`), combines each plane with itself (`Plane.combine`) and adds a round constant.
The permutation is 24 rounds.
-/

namespace Patricia.Keccak

/-- Five lanes of one row. -/
structure Plane where
  lane0 : UInt64
  lane1 : UInt64
  lane2 : UInt64
  lane3 : UInt64
  lane4 : UInt64

/-- Five planes, 25 lanes in all. -/
structure State where
  plane0 : Plane
  plane1 : Plane
  plane2 : Plane
  plane3 : Plane
  plane4 : Plane

/-- Turn a lane left by a number of bits between 1 and 63. -/
@[inline] def rotate (lane amount : UInt64) : UInt64 :=
  (lane <<< amount) ||| (lane >>> (64 - amount))

namespace Plane

/-- Lane by lane exclusive or. -/
def xor (left right : Plane) : Plane where
  lane0 := left.lane0 ^^^ right.lane0
  lane1 := left.lane1 ^^^ right.lane1
  lane2 := left.lane2 ^^^ right.lane2
  lane3 := left.lane3 ^^^ right.lane3
  lane4 := left.lane4 ^^^ right.lane4

/-- For column parities, what the mixing adds to each column: the parity of the column before it
and the turned parity of the column after it. -/
def neighbours (parity : Plane) : Plane where
  lane0 := parity.lane4 ^^^ rotate parity.lane1 1
  lane1 := parity.lane0 ^^^ rotate parity.lane2 1
  lane2 := parity.lane1 ^^^ rotate parity.lane3 1
  lane3 := parity.lane2 ^^^ rotate parity.lane4 1
  lane4 := parity.lane3 ^^^ rotate parity.lane0 1

/-- Each lane changed where the next one is clear and the one after that is set. -/
def combine (plane : Plane) : Plane where
  lane0 := plane.lane0 ^^^ (~~~plane.lane1 &&& plane.lane2)
  lane1 := plane.lane1 ^^^ (~~~plane.lane2 &&& plane.lane3)
  lane2 := plane.lane2 ^^^ (~~~plane.lane3 &&& plane.lane4)
  lane3 := plane.lane3 ^^^ (~~~plane.lane4 &&& plane.lane0)
  lane4 := plane.lane4 ^^^ (~~~plane.lane0 &&& plane.lane1)

/-- The plane of zero lanes. -/
def zero : Plane :=
  ⟨0, 0, 0, 0, 0⟩

end Plane

namespace State

/-- The state of zero lanes. -/
def zero : State :=
  ⟨.zero, .zero, .zero, .zero, .zero⟩

/-- Plane by plane exclusive or. -/
def xor (left right : State) : State where
  plane0 := left.plane0.xor right.plane0
  plane1 := left.plane1.xor right.plane1
  plane2 := left.plane2.xor right.plane2
  plane3 := left.plane3.xor right.plane3
  plane4 := left.plane4.xor right.plane4

/-- Add to every lane the parities of the two neighbouring columns. -/
def mixColumns (state : State) : State :=
  let parity :=
    state.plane0.xor (state.plane1.xor (state.plane2.xor (state.plane3.xor state.plane4)))
  let added := parity.neighbours
  ⟨state.plane0.xor added, state.plane1.xor added, state.plane2.xor added,
    state.plane3.xor added, state.plane4.xor added⟩

/-- Turn every lane by its own amount and move it to its place in the next plane order. -/
def scatter (state : State) : State :=
  let ⟨a, b, c, d, e⟩ := state
  { plane0 := ⟨a.lane0, rotate b.lane1 44, rotate c.lane2 43, rotate d.lane3 21, rotate e.lane4 14⟩
    plane1 := ⟨rotate a.lane3 28, rotate b.lane4 20, rotate c.lane0 3, rotate d.lane1 45,
      rotate e.lane2 61⟩
    plane2 := ⟨rotate a.lane1 1, rotate b.lane2 6, rotate c.lane3 25, rotate d.lane4 8,
      rotate e.lane0 18⟩
    plane3 := ⟨rotate a.lane4 27, rotate b.lane0 36, rotate c.lane1 10, rotate d.lane2 15,
      rotate e.lane3 56⟩
    plane4 := ⟨rotate a.lane2 62, rotate b.lane3 55, rotate c.lane4 39, rotate d.lane0 41,
      rotate e.lane1 2⟩ }

/-- Combine every plane with itself and add the round constant to the first lane. -/
def combine (state : State) (constant : UInt64) : State :=
  let first := state.plane0.combine
  ⟨{ first with lane0 := first.lane0 ^^^ constant }, state.plane1.combine, state.plane2.combine,
    state.plane3.combine, state.plane4.combine⟩

/-- One round of the permutation. -/
def round (state : State) (constant : UInt64) : State :=
  state.mixColumns.scatter.combine constant

end State

/-- The constants of the 24 rounds, in order. -/
def roundConstants : List UInt64 :=
  [0x0000000000000001, 0x0000000000008082, 0x800000000000808a, 0x8000000080008000,
   0x000000000000808b, 0x0000000080000001, 0x8000000080008081, 0x8000000000008009,
   0x000000000000008a, 0x0000000000000088, 0x0000000080008009, 0x000000008000000a,
   0x000000008000808b, 0x800000000000008b, 0x8000000000008089, 0x8000000000008003,
   0x8000000000008002, 0x8000000000000080, 0x000000000000800a, 0x800000008000000a,
   0x8000000080008081, 0x8000000000008080, 0x0000000080000001, 0x8000000080008008]

/-- All rounds, one after the other. -/
def State.permute (state : State) : State :=
  roundConstants.foldl State.round state

end Patricia.Keccak
