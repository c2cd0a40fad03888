import Patricia.Hash
import Patricia.Keccak.Permutation

/-!
# The Keccak-256 digest

`keccak256` pads a message to blocks of 136 bytes, adds each block to the state and permutes, and
reads the digest off the first four lanes. The padding is a set bit, zeros and a last set bit,
with no bits in front of it that would mark a domain.
-/

namespace Patricia

namespace Keccak

/-- Bytes of a block: the part of the state that a message reaches. -/
def rate : Nat := 136

/-- The lane written by the first eight bytes, the least significant byte first. Bytes that are
missing count as zero. -/
def lane (bytes : Bytes) : UInt64 :=
  (bytes.take 8).foldr (fun byte sum => (sum <<< 8) ||| byte.toUInt64) 0

/-- The eight bytes of a lane, the least significant byte first. -/
def laneBytes (lane : UInt64) : Bytes :=
  [lane.toUInt8, (lane >>> 8).toUInt8, (lane >>> 16).toUInt8, (lane >>> 24).toUInt8,
   (lane >>> 32).toUInt8, (lane >>> 40).toUInt8, (lane >>> 48).toUInt8, (lane >>> 56).toUInt8]

/-- The plane written by the first forty bytes. -/
def Plane.ofBytes (bytes : Bytes) : Plane :=
  let second := bytes.drop 8
  let third := second.drop 8
  let fourth := third.drop 8
  let fifth := fourth.drop 8
  ⟨lane bytes, lane second, lane third, lane fourth, lane fifth⟩

/-- The state written by the first two hundred bytes. -/
def State.ofBytes (bytes : Bytes) : State :=
  let second := bytes.drop 40
  let third := second.drop 40
  let fourth := third.drop 40
  let fifth := fourth.drop 40
  ⟨.ofBytes bytes, .ofBytes second, .ofBytes third, .ofBytes fourth, .ofBytes fifth⟩

/-- What fills the last block after a message of this length: a set bit, zeros and a set bit. -/
def padding (length : Nat) : Bytes :=
  let free := rate - length % rate
  -- A single free byte takes both set bits.
  if free = 1 then [0x81] else 0x01 :: (List.replicate (free - 2) 0 ++ [0x80])

/-- Add the blocks of a message to the state, permuting after each. -/
def absorb (state : State) (message : Bytes) : State :=
  if message.isEmpty then state
  else absorb (state.xor (.ofBytes (message.take rate))).permute (message.drop rate)
termination_by message.length
decreasing_by
  rename_i h
  cases message with
  | nil => simp at h
  | cons byte rest => simp only [rate, List.length_drop, List.length_cons]; omega

/-- The first 32 bytes of a state. -/
def State.digest (state : State) : Bytes :=
  laneBytes state.plane0.lane0 ++ laneBytes state.plane0.lane1 ++
    laneBytes state.plane0.lane2 ++ laneBytes state.plane0.lane3

/-- A digest has 32 bytes. -/
theorem State.length_digest (state : State) : state.digest.length = 32 := rfl

end Keccak

/-- The Keccak-256 digest of a byte string. -/
def keccak256 (message : Bytes) : Hash :=
  let state := Keccak.absorb .zero (message ++ Keccak.padding message.length)
  ⟨state.digest, state.length_digest⟩

end Patricia
