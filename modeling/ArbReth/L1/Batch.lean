import ArbReth.Derive.Multiplexer
import ArbReth.Lib.Codec

/-! # Delivered batches

A batch as the sequencer inbox delivered it (`arb-reth-l1/src/reader.rs`), its serialization and the
statistics a batch posting report refers to by hash (`batch_serialize.rs`), and the feed form of a
derived message (`feed.rs`).

The feed types of the source hold JSON text; here a sender, a request id and a body are the values the
text stands for. -/

namespace ArbReth.L1

open ArbReth.Derive
open ArbReth.Codec (ofBe toBe)

/-- `L1Error` with what it carries; the derivation loop of `Sync` only asks whether it is an RPC failure. -/
inductive DeriveError where
  | calldataTooShort (length : ℕ)
  | unknownSelector (selector : Bytes)
  | abi
  | batch (e : BatchError)
  | mux (e : MultiplexerError)
  | blob (what : String)
  | unsupportedDataLocation (location : UInt8)
  | missing (what : String)
  | rpc
deriving DecidableEq, Repr

/-! ### Words -/

/-- Nothing is compressed, and a hash is the number that the bytes spell: for runs on fixed inputs. -/
def plainCodec : Codec where
  brotli := some
  keccak256 := fun bytes => BitVec.ofNat 256 (ofBe bytes)

/-- The `i`th 32-byte word. -/
def wordAt (data : Bytes) (i : ℕ) : Bytes := (data.drop (i * 32)).take 32

/-- The low eight bytes of a word. -/
def u64Word (data : Bytes) (i : ℕ) : ℕ := ofBe ((wordAt data i).drop 24)

/-- The low eight bytes of an indexed topic. -/
def topicValue (topic : B256) : ℕ := topic.toNat % u64Size

/-! ### Batches -/

/-- The fields of a `SequencerBatchDelivered` event that are not indexed. -/
structure SequencerBatchDeliveredData where
  delayedAcc : B256
  afterDelayedMessagesRead : ℕ
  minTimestamp : ℕ
  maxTimestamp : ℕ
  minL1Block : ℕ
  maxL1Block : ℕ
  dataLocation : UInt8
deriving DecidableEq, Repr

def SequencerBatchDeliveredData.batchHeader (e : SequencerBatchDeliveredData) : BatchHeader where
  minTimestamp := e.minTimestamp
  maxTimestamp := e.maxTimestamp
  minL1Block := e.minL1Block
  maxL1Block := e.maxL1Block
  afterDelayedMessages := e.afterDelayedMessagesRead

/-- Where the bytes of a batch came from. -/
inductive BatchPayload where
  | calldata (data : Bytes)
  | blob (versionedHashes : List B256) (blockNumber : ℕ)
  | none
deriving DecidableEq, Repr

structure DeliveredBatch where
  sequenceNumber : ℕ
  beforeAcc : B256
  afterAcc : B256
  event : SequencerBatchDeliveredData
  payload : BatchPayload
deriving DecidableEq, Repr

/-- A batch without data of its own, which reads the delayed inbox up to `after`. -/
def DeliveredBatch.delayedOnly (sequenceNumber after : ℕ) : DeliveredBatch where
  sequenceNumber
  beforeAcc := 0
  afterAcc := 0
  event :=
    { delayedAcc := 0
      afterDelayedMessagesRead := after
      minTimestamp := 0
      maxTimestamp := 0
      minL1Block := 0
      maxL1Block := 0
      dataLocation := 2 }
  payload := .none

/-- The bytes a batch posting report hashes: the time bounds and the data as it stands on L1. -/
def serializeBatch (batch : DeliveredBatch) : Bytes :=
  let h := batch.event.batchHeader
  [h.minTimestamp, h.maxTimestamp, h.minL1Block, h.maxL1Block, h.afterDelayedMessages].flatMap (toBe 8) ++
    match batch.payload with
    | .calldata data => data
    | .blob versionedHashes _ => 0x50 :: versionedHashes.flatMap (fun hash => toBe 32 hash.toNat)
    | .none => []

def batchDataHash (X : Codec) (batch : DeliveredBatch) : B256 := X.keccak256 (serializeBatch batch)

structure BatchDataStats where
  length : ℕ
  nonZeros : ℕ
deriving DecidableEq, Repr

def batchDataStats (serialized : Bytes) : BatchDataStats where
  length := serialized.length
  nonZeros := (serialized.filter (· ≠ 0)).length

/-- `body.get(lo..hi)`. -/
def slice (body : Bytes) (lo hi : ℕ) : Option Bytes :=
  if lo ≤ hi ∧ hi ≤ body.length then some ((body.drop lo).take (hi - lo)) else none

/-- The hash of the reported batch, in the body of a batch posting report. -/
def reportDataHash (body : Bytes) : Option B256 :=
  (slice body 52 84).map fun word => BitVec.ofNat 256 (ofBe word)

/-- The sequence number of the reported batch. -/
def reportBatchNum (body : Bytes) : Option ℕ := (slice body 84 116).map fun word => ofBe (word.drop 24)

/-- Statistics of batches by their data hash. -/
abbrev ReportStats := B256 → Option BatchDataStats

def ReportStats.empty : ReportStats := fun _ => none

def ReportStats.insert (m : ReportStats) (hash : B256) (stats : BatchDataStats) : ReportStats :=
  Function.update m hash (some stats)

/-! ### Feed messages -/

/-- What a feed message carries besides its number and its timestamp. -/
structure FeedBody where
  kind : UInt8
  sender : Address
  blockNumber : ℕ
  requestId : Option B256
  baseFeeL1 : ℕ
  l2Msg : Bytes
  batchDataStats : Option BatchDataStats
  delayedMessagesRead : ℕ
deriving DecidableEq, Repr

/-- The feed form of a derived message.  A base fee that is no `u64` becomes zero. -/
def derivedToFeedMessageWithStats (derived : DerivedMessage) (sequenceNumber : ℕ)
    (stats : Option BatchDataStats) : BroadcastFeedMessage FeedBody where
  sequenceNumber
  l1Timestamp := derived.header.timestamp
  body :=
    { kind := derived.header.kind
      sender := derived.header.poster
      blockNumber := derived.header.blockNumber
      requestId := derived.header.requestId
      baseFeeL1 := if derived.header.l1BaseFee < u64Size then derived.header.l1BaseFee else 0
      l2Msg := derived.l2Msg
      batchDataStats := stats
      delayedMessagesRead := derived.delayedMessagesRead }

def derivedToFeedMessage (derived : DerivedMessage) (sequenceNumber : ℕ) : BroadcastFeedMessage FeedBody :=
  derivedToFeedMessageWithStats derived sequenceNumber none

end ArbReth.L1
