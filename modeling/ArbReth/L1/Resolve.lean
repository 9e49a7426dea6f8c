import ArbReth.L1.Logs

/-! # Resolving batches

`SequencerInboxReader::resolve_batch` (`arb-reth-l1/src/reader.rs`) turns a `SequencerBatchDelivered` log
into a batch, with its data taken from where the event says it is; `resolve_batches` (`sync.rs`) does so
for every such log of a block range.  These are programs that ask an execution client (`_M`), here over an
L1 history.  The retrieval of blobs from a beacon node is external. -/

namespace ArbReth.L1

open ArbReth.Derive ArbReth.Requests
open ArbReth.Codec (ofBe)

/-- Where the data of a batch is (`data_location`). -/
inductive DataLocation where
  | txInput
  | separateBatchEvent
  | noData
  | blobHashes
  | unsupported
deriving DecidableEq, Repr

def DataLocation.ofByte (b : UInt8) : DataLocation :=
  if b = 0 then .txInput
  else if b = 1 then .separateBatchEvent
  else if b = 2 then .noData
  else if b = 3 then .blobHashes
  else .unsupported

def parseSequencerBatchDelivered (data : Bytes) : Except BatchError SequencerBatchDeliveredData :=
  if data.length ≠ 7 * 32 then .error (.eventDataWrongLen data.length)
  else
    .ok
      { delayedAcc := BitVec.ofNat 256 (ofBe (wordAt data 0))
        afterDelayedMessagesRead := u64Word data 1
        minTimestamp := u64Word data 2
        maxTimestamp := u64Word data 3
        minL1Block := u64Word data 4
        maxL1Block := u64Word data 5
        dataLocation := (wordAt data 6).getD 31 0 }

/-- The batch data in the calldata of a batch poster, by selector. -/
def extractCalldataPayload (C : Contracts) (input : Bytes) : Except DeriveError Bytes :=
  if input.length < 4 then .error (.calldataTooShort input.length)
  else if input.take 4 = C.origin.selector then C.origin.abiDecode input
  else if input.take 4 = C.originLegacy.selector then C.originLegacy.abiDecode input
  else if input.take 4 = C.originDelayProof.selector then C.originDelayProof.abiDecode input
  else .error (.unknownSelector (input.take 4))

def decodeEventBytes : Bytes → Except DeriveError Bytes :=
  abiBytes "SequencerBatchData head" "SequencerBatchData length overflow" "SequencerBatchData body"

/-- The reader of a `SequencerInbox` over an L1 history. -/
structure SequencerInboxReader where
  contracts : Contracts
  history : History
  address : Address

namespace SequencerInboxReader

def batchFilter (S : SequencerInboxReader) (fromBlock toBlock : ℕ) : LogFilter where
  address := some S.address
  event := .sequencerBatchDelivered
  topic1 := none
  fromBlock
  toBlock

def batchLogs (S : SequencerInboxReader) (fromBlock toBlock : ℕ) : List Log :=
  S.history.getLogs (S.batchFilter fromBlock toBlock)

/-- The one event among the logs of the block. -/
def separateBatchPayload : List Log → Except DeriveError Bytes
  | [] => .error (.missing "SequencerBatchData event")
  | [dataLog] => decodeEventBytes dataLog.data
  | _ :: _ :: _ => .error (.missing "unique SequencerBatchData event")

/-- The data of a batch that was posted with an event of its own in the same block. -/
def fetchSeparateBatchPayloadM (S : SequencerInboxReader) (log : Log) (sequenceNumber : ℕ) : Reads Bytes := do
  let blockNumber ← .done (found "log block_number" log.blockNumber)
  let logs ← getLogs
    { address := some S.address
      event := .sequencerBatchData
      topic1 := some (BitVec.ofNat 256 sequenceNumber)
      fromBlock := blockNumber
      toBlock := blockNumber }
  .done (separateBatchPayload logs)

def resolvePayloadM (S : SequencerInboxReader) (log : Log) (sequenceNumber : ℕ) (dataLocation : UInt8) :
    Reads BatchPayload :=
  match DataLocation.ofByte dataLocation with
  | .txInput => do
    let tx ← logTransaction "posting transaction" log
    let data ← .done (extractCalldataPayload S.contracts tx.input)
    return .calldata data
  | .separateBatchEvent => do
    let data ← S.fetchSeparateBatchPayloadM log sequenceNumber
    return .calldata data
  | .blobHashes => do
    let tx ← logTransaction "posting transaction" log
    let blockNumber ← .done (found "log block_number" log.blockNumber)
    return .blob (tx.blobVersionedHashes.getD []) blockNumber
  | .noData => return .none
  | .unsupported => .done (.error (.unsupportedDataLocation dataLocation))

def resolveBatchM (S : SequencerInboxReader) (log : Log) : Reads DeliveredBatch :=
  match log.indexed with
  | sequenceNumber :: beforeAcc :: afterAcc :: _ => do
    let sequenceNumber := topicValue sequenceNumber
    let event ← .done ((parseSequencerBatchDelivered log.data).mapError .batch)
    let payload ← S.resolvePayloadM log sequenceNumber event.dataLocation
    return { sequenceNumber, beforeAcc, afterAcc, event, payload }
  | _ => .done (.error (.missing "indexed batch topics"))

def resolveBatch (S : SequencerInboxReader) (log : Log) : Except DeriveError DeliveredBatch :=
  S.history.run (S.resolveBatchM log)

/-- A request to an execution client, or for the payload of a blob batch. -/
abbrev ResolveRequest := Request ⊕ ℕ × List B256

abbrev ResolveRequest.Answer : ResolveRequest → Type := Sum.elim Request.Answer fun _ => Bytes

/-- A batch with its bytes; without a beacon client those of a blob batch cannot be retrieved. -/
def resolveOneM (S : SequencerInboxReader) (beacon : Bool) (log : Log) :
    Asks ResolveRequest ResolveRequest.Answer DeriveError (DeliveredBatch × Bytes) := do
  let batch ← Asks.rename Sum.inl (S.resolveBatchM log)
  match batch.payload with
  | .calldata data => return (batch, data)
  | .none => return (batch, [])
  | .blob versionedHashes blockNumber =>
    if beacon then do
      let data ← Asks.request (Sum.inr (blockNumber, versionedHashes))
      return (batch, data)
    else .done (.error (.missing "beacon client for blob batch"))

/-- The order of the logs in the chain. -/
def logBefore (a b : Log) : Bool :=
  decide (a.blockNumber.getD 0 < b.blockNumber.getD 0 ∨
    (a.blockNumber.getD 0 = b.blockNumber.getD 0 ∧ a.logIndex.getD 0 ≤ b.logIndex.getD 0))

/-- Request 0 is the scan, and `i + 1` are those of the `i`th batch.  The first failing batch is reported. -/
def resolveBatchesM (S : SequencerInboxReader) (beacon : Bool) (fromBlock toBlock : ℕ) :
    Asks (ℕ × ResolveRequest) (fun q => q.2.Answer) DeriveError (List (DeliveredBatch × Bytes)) := do
  let logs : List Log ← Asks.request (0, Sum.inl (Request.getLogs (S.batchFilter fromBlock toBlock)))
  (logs.mergeSort logBefore).zipIdx.mapM fun p => (S.resolveOneM beacon p.1).rename fun q => (p.2 + 1, q)

/-- The answers of the history; `beacon` retrieves blobs. -/
def answer (S : SequencerInboxReader) (beacon : Option (ℕ → List B256 → Except DeriveError Bytes)) :
    ∀ q : ResolveRequest, Except DeriveError q.Answer
  | .inl q => S.history.answer q
  | .inr (blockNumber, versionedHashes) => beacon.elim (.error .rpc) fun f => f blockNumber versionedHashes

def resolveOne (S : SequencerInboxReader) (beacon : Option (ℕ → List B256 → Except DeriveError Bytes))
    (log : Log) : Except DeriveError (DeliveredBatch × Bytes) := (S.resolveOneM beacon.isSome log).eval (S.answer beacon)

def resolveBatches (S : SequencerInboxReader) (beacon : Option (ℕ → List B256 → Except DeriveError Bytes))
    (fromBlock toBlock : ℕ) : Except DeriveError (List (DeliveredBatch × Bytes)) :=
  (S.resolveBatchesM beacon.isSome fromBlock toBlock).eval fun q : ℕ × ResolveRequest => S.answer beacon q.2

theorem resolveBatches_eq (S : SequencerInboxReader) (beacon : Option (ℕ → List B256 → Except DeriveError Bytes))
    (fromBlock toBlock : ℕ) : S.resolveBatches beacon fromBlock toBlock =
      ((S.batchLogs fromBlock toBlock).mergeSort logBefore).mapM (S.resolveOne beacon) := by
  rw [← Runs.mapM_zipIdx]
  refine (Asks.eval_mapM _ _).trans (Runs.mapM_congr fun p _ => ?_)
  exact Asks.eval_rename (A := fun q : ℕ × ResolveRequest => q.2.Answer) (fun q => (p.2 + 1, q)) _

/-- The statistics of the batch with number `seqNum` in block `l1Block`, whose hash is checked. -/
def statsForReportedBatchM (X : Codec) (S : SequencerInboxReader) (l1Block seqNum : ℕ) (dataHash : B256) :
    Reads BatchDataStats := do
  let logs ← getLogs (S.batchFilter l1Block l1Block)
  match logs.find? (fun log => decide ((log.indexed[0]?).map topicValue = some seqNum)) with
  | none => .done (.error (.missing "reported batch not found at its delivery block"))
  | some log => do
    let batch ← S.resolveBatchM log
    if batchDataHash X batch ≠ dataHash then .done (.error (.missing "reported batch data_hash mismatch"))
    else return batchDataStats (serializeBatch batch)

def statsForReportedBatch (X : Codec) (S : SequencerInboxReader) (l1Block seqNum : ℕ) (dataHash : B256) :
    Except DeriveError BatchDataStats := S.history.run (S.statsForReportedBatchM X l1Block seqNum dataHash)

/-- A batch that the inbox has delivered. -/
def Delivered (S : SequencerInboxReader) (batch : DeliveredBatch) : Prop :=
  ∃ n, ∃ log ∈ S.batchLogs n n, S.resolveBatch log = .ok batch

/-- The statistics of a reported batch are those of a delivered batch with that hash. -/
theorem statsForReportedBatch_ok {X : Codec} {S : SequencerInboxReader} {l1Block seqNum : ℕ} {dataHash : B256}
    {stats : BatchDataStats} (h : S.statsForReportedBatch X l1Block seqNum dataHash = .ok stats) :
    ∃ batch, S.Delivered batch ∧ batchDataHash X batch = dataHash ∧ stats = batchDataStats (serializeBatch batch) := by
  rw [statsForReportedBatch, statsForReportedBatchM, History.run_bind, History.run_getLogs, Runs.ok_bind] at h
  split at h
  · cases h
  · next log hfind =>
    rw [History.run_bind] at h
    obtain ⟨batch, hbatch, h⟩ := Runs.bind_ok.mp h
    have hlog := List.mem_of_find?_eq_some hfind
    split at h
    · cases h
    · next hhash =>
      exact ⟨batch, ⟨l1Block, log, hlog, hbatch⟩, not_not.mp hhash, (Except.ok.inj h).symm⟩

end SequencerInboxReader

end ArbReth.L1
