import ArbReth.Evm.BlockExecutor
import ArbReth.Lib.Runs
import ArbReth.Lib.Worklist

/-! # Block production

`produce_with_timing` (`arb-reth-engine/src/engine.rs`) turns one message into a block.  After the
pre-execution changes it runs a loop over three queues: the start-block transaction, the retries
scheduled by transactions of this block, and the sequenced user transactions, in this order of
priority.  A transaction that fails to execute is dropped from the block, except the start-block
transaction, whose failure ends production; so does a sender that cannot be determined.

What lies outside (`digest_message`, the EVM, ArbOS, the assembly of the block) is `BlockEnv`.
Timings and metrics are left out; the state-root task is in `StateRoot.lean`.  The loop has no bound, so it is an
`iterate` here; `attempts` is its history. -/

namespace ArbReth.Engine

open ArbReth.Runs ArbReth.Loop ArbReth.Evm ArbReth.Worklist

variable {μ β σ δ : Type}

/-- Where a transaction of the block comes from. -/
inductive ArbTxExecutionKind where
  | startBlock
  | user
  | scheduledRetry
deriving DecidableEq, Repr

/-- The published observation of one included transaction.  Its numbers are `ν`: natural ones here,
words where the event is encoded. -/
structure ArbTxLogEvent (ν : Type) where
  blockNumber : ν
  transactionIndex : ν
  transactionHash : B256
  frontierId : B256
  kind : ArbTxExecutionKind
  success : Bool
  gasUsed : ν
  logs : List Log

/-- The arguments of one `ArbExecutionFrontierBlock::advance`. -/
structure FrontierAdvance (δ : Type) where
  blockNumber : ℕ
  transactionIndex : ℕ
  transactionHash : B256
  update : δ
  chain : ArbChainContext

structure SealedBlock (β : Type) where
  hash : B256
  transactions : List (Recovered β)
  receipts : List ArbReceipt
  gasUsed : ℕ

inductive ProduceError where
  | digestMessage
  | builderForNextBlock
  | applyPreExecutionChanges (e : BlockExecutionError)
  | readBaseFee
  /-- "failed to determine sender for tx". -/
  | sender (txType : UInt8) (e : SignatureError)
  /-- "internal start-block tx failed". -/
  | startBlock (e : BlockExecutionError)
  | finish (e : BlockExecutionError)
deriving DecidableEq, Repr

/-- The surroundings of one production. -/
structure BlockEnv (μ β σ δ : Type) extends ArbEvm β σ δ where
  parentNumber : ℕ
  parentHash : B256
  digestMessage : μ → Option (List (ArbTxEnvelope β))
  /-- The EVM of the next block. -/
  builderForNextBlock : μ → Option σ
  /-- `L2PricingState.BaseFeeWei`. -/
  baseFeeWei : σ → Option ℕ
  /-- `modify_block` and `base_fee_in_block`. -/
  setBaseFee : σ → ℕ → σ
  isRedeemScheduledLog : Log → Bool
  scheduledRetriesFromRedeemLogs : σ → List Log → σ × List (ArbRetryTx β)
  frontierId : ℕ → ℕ → B256 → B256
  /-- The transaction-log stream, and whether it has a subscriber at a transaction index. -/
  txLogStream : Option (ℕ → Bool)
  /-- The assembly of the header: the block hash. -/
  assembleBlock : BlockBuilder β σ → ArbBlockHeaderInfo → Except BlockExecutionError B256

/-- One transaction taken from the queues. -/
structure Task (β : Type) where
  tx : ArbTxEnvelope β
  sender : Except SignatureError Address
  kind : ArbTxExecutionKind

/-- A task whose sender is determined when it is taken. -/
def Task.of (kind : ArbTxExecutionKind) (tx : ArbTxEnvelope β) : Task β := ⟨tx, tx.sender, kind⟩

/-- The loop variables apart from the queues. -/
structure LoopCore (β σ δ : Type) where
  builder : BlockBuilder β σ
  transactionIndex : ℕ
  frontiers : List (FrontierAdvance δ)
  events : List (ArbTxLogEvent ℕ)

structure LoopState (β σ δ : Type) where
  core : LoopCore β σ δ
  first : Option (ArbTxEnvelope β)
  redeems : List (ArbTxEnvelope β)
  userTxs : List (ArbTxEnvelope β × Except SignatureError Address)
  /-- The transactions taken so far, each with the loop variables it met and what it scheduled. -/
  attempts : List (Visit (LoopCore β σ δ) (Task β))

/-- The choice of the next transaction. -/
def LoopState.pop (s : LoopState β σ δ) : Option (Task β × LoopState β σ δ) :=
  match s.first with
  | some t => some (.of .startBlock t, { s with first := none })
  | none =>
    match s.redeems with
    | t :: redeems => some (.of .scheduledRetry t, { s with redeems })
    | [] =>
      match s.userTxs with
      | (t, sender) :: userTxs => some (⟨t, sender, .user⟩, { s with userTxs })
      | [] => none

variable (M : BlockEnv μ β σ δ)

/-- The frontier and the event of an included transaction, and the next index. -/
def LoopCore.observe (c : LoopCore β σ δ) (t : Task β) (out : ResultAndState δ)
    (builder : BlockBuilder β σ) : LoopCore β σ δ :=
  match M.txLogStream with
  | none => { c with builder, transactionIndex := c.transactionIndex + 1 }
  | some subscribed =>
    let number := M.parentNumber + 1
    let event : ArbTxLogEvent ℕ :=
      ⟨number, c.transactionIndex, t.tx.hash, M.frontierId number c.transactionIndex t.tx.hash, t.kind,
        out.result.success, out.result.gasUsed, out.result.logs⟩
    { builder
      transactionIndex := c.transactionIndex + 1
      frontiers := c.frontiers ++
        [⟨number, c.transactionIndex, t.tx.hash, out.state, M.chain builder.executor.evm⟩]
      events := if subscribed c.transactionIndex then c.events ++ [event] else c.events }

/-- The retries that the redeem logs of a successful transaction schedule. -/
def scheduleRetries (builder : BlockBuilder β σ) (out : ResultAndState δ) :
    BlockBuilder β σ × List (ArbTxEnvelope β) :=
  let txLogs := out.result.logs.filter M.isRedeemScheduledLog
  if out.result.success && !txLogs.isEmpty then
    let (evm, retries) := M.scheduledRetriesFromRedeemLogs builder.executor.evm txLogs
    ({ builder with executor := { builder.executor with evm } }, retries.map ArbRetryTx.envelope)
  else (builder, [])

/-- The loop body for one transaction; returns the retries to queue. -/
def attempt (c : LoopCore β σ δ) (t : Task β) :
    Except ProduceError (LoopCore β σ δ × List (ArbTxEnvelope β)) :=
  match t.sender with
  | .error e => .error (.sender t.tx.ty e)
  | .ok sender =>
    match c.builder.executeTransaction M.toArbEvm ⟨t.tx, sender⟩ with
    | .error e => if t.kind = .startBlock then .error (.startBlock e) else .ok (c, [])
    | .ok (out, builder) =>
      let c := c.observe M t out builder
      let (builder, retries) := scheduleRetries M c.builder out
      .ok ({ c with builder }, retries)

/-- One round of the transaction loop. -/
def loopBody (s : LoopState β σ δ) : Except ProduceError (Option (LoopState β σ δ)) :=
  match s.pop with
  | none => .ok none
  | some (t, s') => do
    let (core, retries) ← attempt M s'.core t
    .ok (some { s' with
      core
      redeems := s'.redeems ++ retries
      attempts := s'.attempts ++ [⟨s'.core, t, retries.map (Task.of .scheduledRetry)⟩] })

/-- Up to the transaction loop: digest the message, apply the pre-execution changes, recover the
senders, set the base fee and build the start-block transaction. -/
def setup (msg : μ) : Except ProduceError (LoopState β σ δ) := do
  let txs ← (M.digestMessage msg).elim (.error .digestMessage) .ok
  let evm ← (M.builderForNextBlock msg).elim (.error .builderForNextBlock) .ok
  let executor ← ((ArbBlockExecutor.new evm M.parentHash).applyPreExecutionChanges
    M.toArbEvm).mapError .applyPreExecutionChanges
  let userTxs := txs.map fun tx => (tx, tx.sender)
  let baseFee ← (M.baseFeeWei executor.evm).elim (.error .readBaseFee) .ok
  let executor := { executor with evm := M.setBaseFee executor.evm (min baseFee (u64Size - 1)) }
  .ok ⟨⟨⟨executor, []⟩, 0, [], []⟩, executor.startBlockTx M.toArbEvm, [], userTxs, []⟩

/-- `BlockBuilder::finish`. -/
def finish (b : BlockBuilder β σ) : Except BlockExecutionError (SealedBlock β) := do
  let (headerInfo, receipts, gasUsed) ← b.executor.finish M.toArbEvm
  let hash ← M.assembleBlock b headerInfo
  .ok ⟨hash, b.transactions, receipts, gasUsed⟩

/-- A production: the sealed block and the loop that led to it. -/
structure Production (β σ δ : Type) where
  block : SealedBlock β
  loop : LoopState β σ δ

/-- After the loop: seal the block. -/
def sealBlock : Progress ProduceError (LoopState β σ δ) →
    Except ProduceError (Option (Production β σ δ))
  | .running _ => .ok none
  | .failed e => .error e
  | .done s => do
    let block ← (finish M s.core.builder).mapError .finish
    .ok (some ⟨block, s⟩)

/-- `produce_with_timing` with at most `fuel` rounds of the loop; `none` if they do not suffice. -/
def produce (fuel : ℕ) (msg : μ) : Except ProduceError (Option (Production β σ δ)) := do
  let s ← setup M msg
  sealBlock M (iterate (loopBody M) fuel s)

end ArbReth.Engine
