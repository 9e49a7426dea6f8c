import Mathlib

/-! # Words, hashes and sequencer messages

The data every part of the node exchanges.  Block numbers, sequence numbers and counters are
`u64` in the source; they are natural numbers here, and an operation whose overflow the code can
reach checks against `u64Size`. -/

namespace ArbReth

/-- A 32-byte hash. -/
abbrev B256 := BitVec 256

instance : LawfulBEq B256 := inferInstance

/-- A 20-byte account address. -/
abbrev Address := BitVec 160

/-- One past the largest `u64`. -/
def u64Size : ℕ := 2 ^ 64

/-- A `BroadcastFeedMessage`: the message index, the L1 timestamp in the header of the incoming
message, and the rest of the message, which only the payload builder reads. -/
structure BroadcastFeedMessage (β : Type) where
  sequenceNumber : ℕ
  l1Timestamp : ℕ
  body : β
deriving DecidableEq, Repr

end ArbReth
