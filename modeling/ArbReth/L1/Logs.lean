import ArbReth.L1.Batch
import ArbReth.Lib.Requests

/-! # Logs of L1

The part of an L1 execution client that the readers use: the logs of a block range that match a filter,
and transactions by hash.  The readers are programs that ask for these (`Reads`); a history answers every
request.

A log is kept with the event its first topic names, since the readers only compare that topic with the
signatures of the contracts (`arb-reth-l1/src/contracts.rs`).  ABI decoding of a call is external. -/

namespace ArbReth.L1

open ArbReth.Derive ArbReth.Requests
open ArbReth.Codec (ofBe)

/-- The event that the first topic of a log is the signature of. -/
inductive Event where
  | sequencerBatchDelivered
  | sequencerBatchData
  | messageDelivered
  | inboxMessageDelivered
  | inboxMessageDeliveredFromOrigin
  | other
deriving DecidableEq, Repr

structure Log where
  address : Address
  event : Event
  /-- The topics after the first. -/
  indexed : List B256
  data : Bytes
  blockNumber : Option ℕ
  logIndex : Option ℕ
  transactionHash : Option B256
deriving DecidableEq, Repr

structure Transaction where
  input : Bytes
  blobVersionedHashes : Option (List B256)
deriving DecidableEq, Repr

structure LogFilter where
  address : Option Address
  event : Event
  topic1 : Option B256
  fromBlock : ℕ
  toBlock : ℕ

/-- The logs of each block, in order, and the transactions. -/
structure History where
  logs : ℕ → List Log
  transactions : B256 → Option Transaction

def LogFilter.accepts (f : LogFilter) (log : Log) : Bool :=
  decide (log.event = f.event) && f.address.all (fun a => decide (log.address = a)) &&
    f.topic1.all (fun t => decide (log.indexed[0]? = some t))

theorem LogFilter.accepts_event {f : LogFilter} {log : Log} (h : f.accepts log = true) : log.event = f.event := by
  unfold LogFilter.accepts at h
  rw [Bool.and_eq_true, Bool.and_eq_true] at h
  exact of_decide_eq_true h.1.1

/-- The blocks of an inclusive range. -/
def blocks (fromBlock toBlock : ℕ) : List ℕ := List.range' fromBlock (toBlock + 1 - fromBlock)

theorem mem_blocks {fromBlock toBlock n : ℕ} : n ∈ blocks fromBlock toBlock ↔ fromBlock ≤ n ∧ n ≤ toBlock := by
  unfold blocks
  rw [List.mem_range'_1]
  omega

def History.getLogs (H : History) (f : LogFilter) : List Log :=
  ((blocks f.fromBlock f.toBlock).flatMap H.logs).filter f.accepts

theorem History.mem_getLogs {H : History} {f : LogFilter} {log : Log} :
    log ∈ H.getLogs f ↔ (∃ n, f.fromBlock ≤ n ∧ n ≤ f.toBlock ∧ log ∈ H.logs n) ∧ f.accepts log = true := by
  unfold History.getLogs
  rw [List.mem_filter, List.mem_flatMap]
  simp only [mem_blocks, and_assoc]

/-- A history with logs in its first blocks only. -/
def History.ofBlocks (blocks : List (List Log)) (transactions : B256 → Option Transaction) : History :=
  ⟨fun n => blocks.getD n [], transactions⟩

theorem History.forall_logs {blocks : List (List Log)} {transactions : B256 → Option Transaction} {P : ℕ → Log → Prop}
    (h : ∀ b ∈ blocks.zipIdx, ∀ log ∈ b.1, P b.2 log) {n : ℕ} {log : Log}
    (hlog : log ∈ (History.ofBlocks blocks transactions).logs n) : P n log := by
  have hlog : log ∈ blocks[n]?.getD [] := by rwa [← List.getD_eq_getElem?_getD]
  cases hb : blocks[n]? with
  | none =>
    rw [hb] at hlog
    cases hlog
  | some b =>
    rw [hb] at hlog
    exact h (b, n) (List.mem_zipIdx_iff_getElem?.mpr hb) log hlog

/-! ### Requests -/

inductive Request where
  | getLogs (f : LogFilter)
  | getTransactionByHash (hash : B256)

def Request.Answer : Request → Type
  | getLogs _ => List Log
  | getTransactionByHash _ => Option Transaction

/-- A program that asks an execution client. -/
abbrev Reads := Asks Request Request.Answer DeriveError

def getLogs (f : LogFilter) : Reads (List Log) := Asks.request (Request.getLogs f)

def getTransactionByHash (hash : B256) : Reads (Option Transaction) :=
  Asks.request (Request.getTransactionByHash hash)

def History.answer (H : History) : ∀ q : Request, Except DeriveError q.Answer
  | .getLogs f => .ok (H.getLogs f)
  | .getTransactionByHash hash => .ok (H.transactions hash)

def History.run {α : Type} (H : History) (x : Reads α) : Except DeriveError α := x.eval H.answer

section run
variable {α β : Type} (H : History)

@[simp] theorem History.run_done (x : Except DeriveError α) : H.run (.done x) = x := rfl

@[simp] theorem History.run_pure (a : α) : H.run (pure a) = .ok a := rfl

@[simp] theorem History.run_getLogs (f : LogFilter) : H.run (L1.getLogs f) = .ok (H.getLogs f) := rfl

@[simp] theorem History.run_getTransactionByHash (hash : B256) :
    H.run (L1.getTransactionByHash hash) = .ok (H.transactions hash) := rfl

@[simp] theorem History.run_bind (x : Reads α) (f : α → Reads β) : H.run (x >>= f) = H.run x >>= fun a => H.run (f a) :=
  Asks.eval_bind x f

end run

/-- A lookup that must find something. -/
def found {α : Type} (what : String) (a : Option α) : Except DeriveError α := a.elim (.error (.missing what)) .ok

/-- The transaction of a log. -/
def logTransaction (what : String) (log : Log) : Reads Transaction := do
  let txHash ← .done (found "log transaction_hash" log.transactionHash)
  let tx ← getTransactionByHash txHash
  .done (found what tx)

/-! ### ABI -/

/-- A contract call with one dynamic argument that the readers want. -/
structure AbiCall where
  selector : Bytes
  decode : Bytes → Option Bytes

structure Contracts where
  sendL2MessageFromOrigin : AbiCall
  origin : AbiCall
  originLegacy : AbiCall
  originDelayProof : AbiCall

/-- Calls without a selector that are their argument: for runs on fixed inputs. -/
def plainContracts : Contracts := ⟨⟨[], some⟩, ⟨[], some⟩, ⟨[], some⟩, ⟨[], some⟩⟩

def AbiCall.abiDecode (call : AbiCall) (input : Bytes) : Except DeriveError Bytes :=
  (call.decode input).elim (.error .abi) .ok

/-- One dynamic `bytes` argument: an offset word, a length word and the body.  The source wraps `64 + len`; a wrapped
range is no range of the data either. -/
def abiBytes (head overflow body : String) (data : Bytes) : Except DeriveError Bytes :=
  if data.length < 64 then .error (.missing head)
  else
    let len := ofBe (wordAt data 1)
    if u64Size ≤ len then .error (.missing overflow)
    else (slice data 64 (64 + len)).elim (.error (.missing body)) .ok

end ArbReth.L1
