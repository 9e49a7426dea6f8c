import ArbReth.Primitives
import ArbReth.Lib.Runs

/-! # The engine driver

`ArbEngineDriver` (`arb-reth-engine/src/engine.rs`) reconciles the messages of the live feed and of
L1 derivation into one chain.  The functions below are `spawn`, `advance_with_applied_overlap` and
what they call; the state is the part of the driver they read and write.

The engine tree and the payload builder are an oracle (`EngineTree`): it answers each request from
the whole history of the driver, so it may fail or succeed at any moment.  The history (`trace`) is
everything the driver has sent to the tree and reported through the `on_applied` callback, in order.

A failed call ends the drive loop, so the state after a failure is not described.  `next_seq += 1` is checked: a wrap of
the cursor is a failed call (`NextSequenceOverflow`). -/

namespace ArbReth.Engine

open ArbReth.Runs

variable {β : Type}

/-- What the driver reads of a sealed header. -/
structure SealedHeader where
  number : ℕ
  timestamp : ℕ
  hash : B256
deriving DecidableEq, Repr

/-- The attributes of a payload job. -/
structure ArbPayloadAttributes (β : Type) where
  timestamp : ℕ
  message : BroadcastFeedMessage β
deriving DecidableEq, Repr

/-- The newest produced block while its final forkchoice update is in flight. -/
structure PendingAppliedBlock where
  sequenceNumber : ℕ
  newHeader : SealedHeader
deriving DecidableEq, Repr

/-- A block handed to the tree, with the message it was built from and the sequence number under
which it was applied. -/
structure AppliedBlock (β : Type) where
  sequenceNumber : ℕ
  message : BroadcastFeedMessage β
  block : SealedHeader
deriving DecidableEq, Repr

/-- A request sent to the tree, or a report to the caller. -/
inductive Event (β : Type) where
  /-- `ForkchoiceUpdated` on the tip with payload attributes: starts a payload job. -/
  | payloadAttributes (parent : B256) (attributes : ArbPayloadAttributes β)
  /-- `InsertExecutedBlock`. -/
  | insertExecutedBlock (applied : AppliedBlock β)
  /-- The final `ForkchoiceUpdated`, which makes the block canonical. -/
  | forkchoiceUpdated (head : B256)
  /-- The `on_applied` callback. -/
  | onApplied (sequenceNumber : ℕ)
deriving DecidableEq, Repr

/-- The failures of one application. -/
inductive DriverError where
  | sendNativePayloadFcu
  | nativePayloadFcu
  | noPayloadId
  | payloadJobDisappeared
  | payloadJobFailed
  | omittedExecutionOutput
  | sendInsertExecutedBlock
  | sendForkchoiceUpdated
  | finalFcu (block : ℕ)
  | notCanonicalized (block : ℕ) (hash : B256)
  | nextSeqOverflow
deriving DecidableEq, Repr

/-- The engine tree and the payload builder, as the driver sees them. -/
structure EngineTree (β : Type) where
  /-- Accepts or refuses a request on the tree channel. -/
  accept : List (Event β) → Event β → Except DriverError Unit
  /-- Runs the payload job on the given parent and returns the header of the executed block. -/
  resolvePayload :
    List (Event β) → SealedHeader → ArbPayloadAttributes β → Except DriverError SealedHeader
  /-- Waits until the final forkchoice update of a block has made it canonical. -/
  settleForkchoice : List (Event β) → PendingAppliedBlock → Except DriverError Unit

/-- Every payload job that succeeds builds the block after its parent. -/
def EngineTree.Sequential (E : EngineTree β) : Prop :=
  ∀ trace parent attributes block,
    E.resolvePayload trace parent attributes = .ok block → block.number = parent.number + 1

/-- Every request is accepted, every payload job succeeds and every block becomes canonical. -/
structure EngineTree.Succeeds (E : EngineTree β) : Prop where
  accept : ∀ trace e, E.accept trace e = .ok ()
  resolvePayload : ∀ trace parent attributes, ∃ block,
    E.resolvePayload trace parent attributes = .ok block
  settleForkchoice : ∀ trace p, E.settleForkchoice trace p = .ok ()

/-- The driver. -/
structure ArbEngineDriver (β : Type) where
  tip : SealedHeader
  /-- The next message index to apply. -/
  nextSeq : ℕ
  /-- Feed-ahead reorder buffer, keyed by sequence number. -/
  pending : Std.TreeMap ℕ (BroadcastFeedMessage β)
  pendingApplied : Option PendingAppliedBlock
  trace : List (Event β)

/-- The bound on the reorder buffer (`MAX_PENDING`). -/
def maxPending : ℕ := 50000

namespace ArbEngineDriver

/-- A driver that has applied nothing yet. -/
def start (tip : SealedHeader) (nextSeq : ℕ) : ArbEngineDriver β := ⟨tip, nextSeq, ∅, none, []⟩

/-- The state `spawn` leaves: the cursor is seeded from the resumed tip. -/
def spawn (genesisBlock : ℕ) (genesisTip : SealedHeader) : Except DriverError (ArbEngineDriver β) :=
  let nextSeq := genesisTip.number - genesisBlock + 1
  if nextSeq < u64Size then .ok (start genesisTip nextSeq) else .error .nextSeqOverflow

/-- The block an event hands to the tree. -/
def appliedOf : Event β → Option (AppliedBlock β)
  | .insertExecutedBlock applied => some applied
  | _ => none

/-- The blocks applied so far, oldest first. -/
def applied (s : ArbEngineDriver β) : List (AppliedBlock β) := s.trace.filterMap appliedOf

/-- What the driver does with an incoming message. -/
inductive Disposition where
  | duplicate
  | buffered
  | refused
  | next
deriving DecidableEq, Repr

/-- The three-way comparison with the cursor, and the check of the buffer bound. -/
def disposition (s : ArbEngineDriver β) (seq : ℕ) : Disposition :=
  if seq < s.nextSeq then .duplicate
  else if s.nextSeq < seq then
    if s.pending.size < maxPending then .buffered else .refused
  else .next

variable (E : EngineTree β)

/-- `to_tree.send`. -/
def send (s : ArbEngineDriver β) (e : Event β) : Except DriverError (ArbEngineDriver β) := do
  E.accept s.trace e
  .ok { s with trace := s.trace ++ [e] }

/-- Settle the queued final forkchoice update, if any; returns the sequence number it completes. -/
def settlePendingApplied (s : ArbEngineDriver β) :
    Except DriverError (Option ℕ × ArbEngineDriver β) :=
  match s.pendingApplied with
  | none => .ok (none, s)
  | some p => do
    E.settleForkchoice s.trace p
    .ok (some p.sequenceNumber, { s with pendingApplied := none })

/-- The `on_applied` callback for a completed block. -/
def report (s : ArbEngineDriver β) : Option ℕ → ArbEngineDriver β
  | none => s
  | some seq => { s with trace := s.trace ++ [.onApplied seq] }

def settleAndReport (s : ArbEngineDriver β) : Except DriverError (ArbEngineDriver β) := do
  let (completed, s) ← s.settlePendingApplied E
  .ok (s.report completed)

def nativePayloadAttributes (s : ArbEngineDriver β) (msg : BroadcastFeedMessage β) :
    ArbPayloadAttributes β :=
  ⟨max msg.l1Timestamp s.tip.timestamp, msg⟩

/-- Insert one executed block and queue the forkchoice update that makes it canonical. -/
def queueAppliedBlock (s : ArbEngineDriver β) (seq : ℕ) (msg : BroadcastFeedMessage β)
    (built : SealedHeader) : Except DriverError (ArbEngineDriver β) := do
  let s ← s.send E (.insertExecutedBlock ⟨seq, msg, built⟩)
  let s ← s.send E (.forkchoiceUpdated built.hash)
  .ok { s with tip := built, pendingApplied := some ⟨seq, built⟩ }

/-- Drive the payload lifecycle for one message.  The attributes request is queued before the previous block is settled.
-/
def applyOneNative (s : ArbEngineDriver β) (seq : ℕ) (msg : BroadcastFeedMessage β) :
    Except DriverError (Option ℕ × ArbEngineDriver β) := do
  let attributes := s.nativePayloadAttributes msg
  let s ← s.send E (.payloadAttributes s.tip.hash attributes)
  let (completed, s) ← s.settlePendingApplied E
  let built ← E.resolvePayload s.trace s.tip attributes
  let s ← s.queueAppliedBlock E seq msg built
  .ok (completed, s)

/-- `next_seq += 1`. -/
def bumpNextSeq (s : ArbEngineDriver β) : Except DriverError (ArbEngineDriver β) :=
  if s.nextSeq + 1 < u64Size then .ok { s with nextSeq := s.nextSeq + 1 }
  else .error .nextSeqOverflow

/-- Apply one message under the cursor, report the completed predecessor and move the cursor. -/
def applyNext (s : ArbEngineDriver β) (msg : BroadcastFeedMessage β) :
    Except DriverError (ArbEngineDriver β) := do
  let (completed, s) ← s.applyOneNative E s.nextSeq msg
  (s.report completed).bumpNextSeq

/-- `pending.remove(&next_seq)`, for the buffer it leaves. -/
def removeNext (s : ArbEngineDriver β) : ArbEngineDriver β :=
  { s with pending := s.pending.erase s.nextSeq }

/-- The drain loop: `while let Some(buffered) = pending.remove(&next_seq)`.  Every round removes
an entry, so `pending.len()` rounds suffice. -/
def drain : ℕ → ArbEngineDriver β → Except DriverError (ArbEngineDriver β)
  | 0, s => .ok s
  | fuel + 1, s =>
    match s.pending[s.nextSeq]? with
    | none => .ok s
    | some buffered => do
      let s ← s.removeNext.applyNext E buffered
      drain fuel s

/-- `pending.retain(|k, _| *k >= next_seq)`. -/
def retainPending (s : ArbEngineDriver β) : ArbEngineDriver β :=
  { s with pending := s.pending.filter (fun k _ => decide (s.nextSeq ≤ k)) }

/-- The end of an applying call: the last block is settled unless the caller has another message
ready. -/
def settleTail (s : ArbEngineDriver β) (deferTail : Bool) :
    Except DriverError (ArbEngineDriver β) :=
  if deferTail then .ok s else s.settleAndReport E

/-- Reconcile and apply one incoming message; returns the resulting head hash. -/
def advanceWithAppliedInner (s : ArbEngineDriver β) (msg : BroadcastFeedMessage β)
    (deferTail : Bool) : Except DriverError (B256 × ArbEngineDriver β) :=
  match s.disposition msg.sequenceNumber with
  | .duplicate | .refused => do
    let s ← s.settleAndReport E
    .ok (s.tip.hash, s)
  | .buffered => do
    let s ← { s with pending := s.pending.insert msg.sequenceNumber msg }.settleAndReport E
    .ok (s.tip.hash, s)
  | .next => do
    let s ← s.applyNext E msg
    let s ← drain E s.pending.size s
    let s ← s.settleTail E deferTail
    .ok (s.tip.hash, s.retainPending)

/-- One call of `advance_with_applied_overlap`. -/
structure Call (β : Type) where
  message : BroadcastFeedMessage β
  deferTail : Bool
deriving DecidableEq, Repr

/-- The effect of a call on the driver. -/
def call (s : ArbEngineDriver β) (c : Call β) : Except DriverError (ArbEngineDriver β) := do
  let (_, s) ← s.advanceWithAppliedInner E c.message c.deferTail
  .ok s

/-- A driver spawned on `genesisTip` and then called with `calls`. -/
def drive (genesisBlock : ℕ) (genesisTip : SealedHeader) (calls : List (Call β)) :
    Except DriverError (ArbEngineDriver β) := do
  let s ← spawn genesisBlock genesisTip
  run (call E) s calls

end ArbEngineDriver

end ArbReth.Engine
