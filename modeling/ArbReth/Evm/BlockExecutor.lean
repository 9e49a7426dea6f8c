import ArbReth.Primitives
import ArbReth.Lib.Runs

/-! # The block executor

`ArbBlockExecutor` (`arb-reth-evm/src/block.rs`) and the block builder that wraps it: transactions
are executed one at a time against the EVM, and a successful one is committed together with its
receipt.

The EVM and the database behind it are external (`ArbEvm`).  An execution reads the state `σ` left
by the transactions committed before and returns a state delta `δ`; only `commit` changes what later
transactions see.  Gas counters are natural numbers.  Metrics and the logs bloom are left out. -/

namespace ArbReth.Evm

open ArbReth.Runs

variable {β σ δ : Type}

/-! ### Transactions and results -/

structure Log where
  address : Address
  topics : List B256
  data : List UInt8
deriving DecidableEq, Repr

/-- Why a sender could not be recovered. -/
inductive SignatureError where
  | fromBytes
  | k256
  | invalidParity
deriving DecidableEq, Repr

/-- What the node reads of a transaction envelope.  `sender` is the outcome of `tx.sender()`. -/
structure ArbTxEnvelope (β : Type) where
  ty : UInt8
  hash : B256
  trieHash : B256
  sender : Except SignatureError Address
  body : β

/-- A transaction with its sender. -/
structure Recovered (β : Type) where
  tx : ArbTxEnvelope β
  signer : Address

/-- A retry of a retryable ticket; it carries its sender. -/
structure ArbRetryTx (β : Type) where
  hash : B256
  trieHash : B256
  sender : Address
  body : β

def ArbRetryTx.envelope (t : ArbRetryTx β) : ArbTxEnvelope β :=
  ⟨0x68, t.hash, t.trieHash, .ok t.sender, t.body⟩

/-- An ArbOS-internal transaction; its sender is the ArbOS address. -/
structure ArbInternalTx (β : Type) where
  hash : B256
  trieHash : B256
  body : β

def arbosAddress : Address := 0xa4b05

def ArbInternalTx.envelope (t : ArbInternalTx β) : ArbTxEnvelope β :=
  ⟨0x6a, t.hash, t.trieHash, .ok arbosAddress, t.body⟩

structure ExecutionResult where
  success : Bool
  gasUsed : ℕ
  logs : List Log
deriving DecidableEq, Repr

structure ResultAndState (δ : Type) where
  result : ExecutionResult
  state : δ

/-! ### Errors -/

/-- A transaction that is invalid under the state transition. -/
inductive InvalidTransaction where
  | lackOfFunds
  | nonceTooHigh
  | nonceTooLow
  | other
deriving DecidableEq, Repr

/-- The failures of one execution: an invalid transaction, or a failure of the machine itself. -/
inductive EVMError where
  | transaction (e : InvalidTransaction)
  | header
  | database
  | custom
deriving DecidableEq, Repr

inductive BlockExecutionError where
  /-- `BlockValidationError::InvalidTx`. -/
  | validation (hash : B256) (e : InvalidTransaction)
  /-- `InternalBlockExecutionError::EVM`. -/
  | internal (hash : B256) (e : EVMError)
  | msg (message : String)
deriving DecidableEq, Repr

/-- `BlockExecutionError::evm`: an invalid transaction is a validation error, everything else is
internal. -/
def BlockExecutionError.evm (err : EVMError) (hash : B256) : BlockExecutionError :=
  match err with
  | .transaction e => .validation hash e
  | e => .internal hash e

/-- The error says that the transaction is invalid. -/
def BlockExecutionError.IsValidation : BlockExecutionError → Prop
  | .validation _ _ => True
  | _ => False

theorem BlockExecutionError.evm_isValidation {err : EVMError} {hash : B256} :
    (BlockExecutionError.evm err hash).IsValidation ↔ ∃ e, err = .transaction e := by
  cases err with
  | transaction e => exact ⟨fun _ => ⟨e, rfl⟩, fun _ => trivial⟩
  | header => exact ⟨fun h => h.elim, nofun⟩
  | database => exact ⟨fun h => h.elim, nofun⟩
  | custom => exact ⟨fun h => h.elim, nofun⟩

/-! ### Receipts -/

/-- The envelope variants of a receipt. -/
inductive ReceiptType where
  | legacy
  | eip2930
  | eip1559
  | eip4844
  | eip7702
  | deposit
  | unsigned
  | contract
  | retry
  | submitRetryable
  | internal
deriving DecidableEq, Repr

structure ArbReceipt where
  envelope : ReceiptType
  status : Bool
  cumulativeGasUsed : ℕ
  logs : List Log
  gasUsedForL1 : ℕ
deriving DecidableEq, Repr

def receiptEnvelopeForType (txType : UInt8) : ReceiptType :=
  match txType with
  | 0x00 => .legacy
  | 0x01 => .eip2930
  | 0x02 => .eip1559
  | 0x03 => .eip4844
  | 0x04 => .eip7702
  | 0x64 => .deposit
  | 0x65 => .unsigned
  | 0x66 => .contract
  | 0x68 => .retry
  | 0x69 => .submitRetryable
  | 0x6a => .internal
  | _ => .legacy

def buildArbReceipt (txType : UInt8) (result : ExecutionResult) (cumulativeGasUsed gasUsedForL1 : ℕ) :
    ArbReceipt :=
  ⟨receiptEnvelopeForType txType, result.success, cumulativeGasUsed, result.logs, gasUsedForL1⟩

/-! ### The executor -/

/-- What the node reads of the block-scoped ArbOS context. -/
structure ArbChainContext where
  posterGas : ℕ
  baseFeeInBlock : Option ℕ
deriving DecidableEq, Repr

/-- The post-execution ArbOS header information. -/
structure ArbBlockHeaderInfo where
  sendRoot : B256
  sendCount : ℕ
  arbosFormatVersion : ℕ
  baseFee : ℕ
deriving DecidableEq, Repr

/-- The EVM with its database. -/
structure ArbEvm (β σ δ : Type) where
  /-- The system call that stores the parent hash. -/
  transactSystemCall : σ → B256 → Except EVMError (δ × σ)
  /-- Executes a transaction; the second component is the EVM with the context it leaves.  An
  execution that fails leaves the EVM as it was. -/
  transact : σ → Recovered β → Except EVMError (ResultAndState δ × σ)
  commit : σ → δ → σ
  chain : σ → ArbChainContext
  /-- The start-block hook. -/
  startBlockPrelude : σ → Option (ArbInternalTx β)
  readBlockHeaderInfo : σ → Except String ArbBlockHeaderInfo

structure ArbBlockExecutor (σ : Type) where
  evm : σ
  parentHash : B256
  receipts : List ArbReceipt
  gasUsed : ℕ

/-- `ArbTxResult`. -/
structure ArbTxResult (δ : Type) where
  result : ResultAndState δ
  gasUsedForL1 : ℕ
  txType : UInt8

namespace ArbBlockExecutor

variable (V : ArbEvm β σ δ)

def new (evm : σ) (parentHash : B256) : ArbBlockExecutor σ := ⟨evm, parentHash, [], 0⟩

def applyPreExecutionChanges (x : ArbBlockExecutor σ) :
    Except BlockExecutionError (ArbBlockExecutor σ) := do
  let (state, evm) ← (V.transactSystemCall x.evm x.parentHash).mapError (.evm · x.parentHash)
  .ok { x with evm := V.commit evm state }

def executeTransactionWithoutCommit (x : ArbBlockExecutor σ) (tx : Recovered β) :
    Except BlockExecutionError (ArbTxResult δ × ArbBlockExecutor σ) := do
  let (result, evm) ← (V.transact x.evm tx).mapError (.evm · tx.tx.trieHash)
  .ok (⟨result, (V.chain evm).posterGas, tx.tx.ty⟩, { x with evm })

def commitTransaction (x : ArbBlockExecutor σ) (output : ArbTxResult δ) : ArbBlockExecutor σ :=
  let gasUsed := x.gasUsed + output.result.result.gasUsed
  { x with
    evm := V.commit x.evm output.result.state
    gasUsed
    receipts := x.receipts ++
      [buildArbReceipt output.txType output.result.result gasUsed output.gasUsedForL1] }

def startBlockTx (x : ArbBlockExecutor σ) : Option (ArbTxEnvelope β) :=
  (V.startBlockPrelude x.evm).map ArbInternalTx.envelope

/-- The block execution result: the header information, the receipts and the gas used, which is read
from the last receipt. -/
def finish (x : ArbBlockExecutor σ) :
    Except BlockExecutionError (ArbBlockHeaderInfo × List ArbReceipt × ℕ) := do
  let headerInfo ← (V.readBlockHeaderInfo x.evm).mapError
    (fun e => .msg ("read ArbOS block header info: " ++ e))
  .ok (headerInfo, x.receipts, (x.receipts.getLast?.map (·.cumulativeGasUsed)).getD 0)

end ArbBlockExecutor

/-! ### The block builder -/

structure BlockBuilder (β σ : Type) where
  executor : ArbBlockExecutor σ
  transactions : List (Recovered β)

/-- `execute_transaction_with_result_closure`: execute, commit and add to the block.  The closure's
view of the result is returned. -/
def BlockBuilder.executeTransaction (V : ArbEvm β σ δ) (b : BlockBuilder β σ) (tx : Recovered β) :
    Except BlockExecutionError (ResultAndState δ × BlockBuilder β σ) := do
  let (output, executor) ← b.executor.executeTransactionWithoutCommit V tx
  .ok (output.result, ⟨executor.commitTransaction V output, b.transactions ++ [tx]⟩)

theorem BlockBuilder.executeTransaction_ok {V : ArbEvm β σ δ} {b b' : BlockBuilder β σ}
    {tx : Recovered β} {out : ResultAndState δ} (h : b.executeTransaction V tx = .ok (out, b')) :
    b'.transactions = b.transactions ++ [tx] := by
  obtain ⟨⟨output, executor⟩, -, h2⟩ := bind_ok.mp h
  cases h2
  rfl

/-- An execution fails exactly when the EVM does, with the error mapped. -/
theorem BlockBuilder.executeTransaction_error {V : ArbEvm β σ δ} {b : BlockBuilder β σ}
    {tx : Recovered β} {e : BlockExecutionError} : b.executeTransaction V tx = .error e ↔
      ∃ err, V.transact b.executor.evm tx = .error err ∧ e = .evm err tx.tx.trieHash := by
  unfold BlockBuilder.executeTransaction ArbBlockExecutor.executeTransactionWithoutCommit
  cases h : V.transact b.executor.evm tx with
  | error err => simp [Except.mapError, bind, Except.bind, eq_comm]
  | ok out => simp [Except.mapError, bind, Except.bind]

end ArbReth.Evm
