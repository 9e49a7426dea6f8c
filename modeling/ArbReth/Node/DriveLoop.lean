import ArbReth.Engine.Callbacks
import ArbReth.Lib.Events
import ArbReth.Node.Ingress

/-! # The drive loop

The loop of the launcher (`arb-reth-node/src/launcher.rs`) takes a batch from the scheduler and hands its messages to
the driver, with the final forkchoice update of every message but the last one deferred.  In a finite run a message
above the frontier is not handed over, and the completion of the derivation closes the input.  The close sets a flag
and then wakes the loop; it comes from another task, as the sends do, so it may fall between any two steps of the loop.
The loop reads the flag twice before it selects a batch, which are two steps. -/

namespace ArbReth.Node

open ArbReth.Engine ArbReth.Events ArbReth.Runs

variable {β : Type}

def finiteMaxSequence (mode : ArbLaunchMode) (genesisBlock : ℕ) : Except EngineHandoffAdmissionError (Option ℕ) :=
  match mode with
  | .ordinary => .ok none
  | .finite frontier =>
    if genesisBlock ≤ frontier then .ok (some (frontier - genesisBlock))
    else .error (.frontierBelowGenesis frontier genesisBlock)

def nextDriverSequence (tip genesisBlock : ℕ) : Except EngineHandoffAdmissionError ℕ :=
  if tip < genesisBlock then .error (.tipBelowGenesis tip genesisBlock)
  else if tip - genesisBlock + 1 < u64Size then .ok (tip - genesisBlock + 1)
  else .error (.nextSequenceOverflow tip genesisBlock)

/-! ### The state of the loop -/

/-- Where the loop is. -/
inductive Control (β : Type) where
  | top
  /-- The flag was read once, and the input closed if it was set. -/
  | loaded (nextSequence : ℕ)
  /-- The flag was read again; `watching` if the selection also waits for the close. -/
  | polling (nextSequence : ℕ) (watching : Bool)
  | selecting (nextSequence : ℕ) (watching : Bool) (pc : NextBatch β)
  /-- The messages that are left of a batch. -/
  | processing (batch : SelectedBatch β) (rest : List (HandOver β))
  | ended (result : Except DriveError Unit)

/-- No batch is being processed, and the loop has not failed. -/
def Control.betweenBatches : Control β → Bool
  | .top | .loaded _ | .polling _ _ | .selecting _ _ _ | .ended (.ok _) => true
  | .processing _ _ | .ended (.error _) => false

/-- What is fixed at the launch. -/
structure Launch (β : Type) where
  mode : ArbLaunchMode
  genesisBlock : ℕ
  tree : EngineTree β

def Launch.isFinite (N : Launch β) : Bool :=
  match N.mode with
  | .ordinary => false
  | .finite _ => true

def Launch.admits (N : Launch β) (message : BroadcastFeedMessage β) : Bool :=
  match admitEngineHandoff N.mode message.sequenceNumber N.genesisBlock with
  | .ok (.admitted _) => true
  | _ => false

/-- The message is above the frontier. -/
def Launch.Rejects (N : Launch β) (message : BroadcastFeedMessage β) : Prop :=
  ∃ blockNumber frontier,
    admitEngineHandoff N.mode message.sequenceNumber N.genesisBlock = .ok (.rejectedAboveFrontier blockNumber frontier)

structure DriveState (β : Type) where
  scheduler : IngressScheduler β
  driver : ArbEngineDriver β
  /-- `FiniteInputClose::closed`. -/
  closed : Bool
  /-- The close was sent to the loop. -/
  fired : Bool
  control : Control β
  /-- What the channel of L1 has accepted. -/
  sent : List (BroadcastFeedMessage β)
  batches : List (SelectedBatch β)
  calls : List (ArbEngineDriver.Call β)

inductive DriveEvent (β : Type) where
  | send (source : MessageSource) (message : BroadcastFeedMessage β)
  /-- The last sender of a source is dropped. -/
  | disconnect (source : MessageSource)
  /-- The first half of `FiniteInputClose::close`. -/
  | close
  /-- The second half of `FiniteInputClose::close`. -/
  | fire
  /-- The loop takes its next step. -/
  | loop
  /-- The close ends the wait for a batch. -/
  | closeWins

/-- The messages of a batch, each with whether another one is ready. -/
def deferTails (source : MessageSource) : List (BroadcastFeedMessage β) → List (HandOver β)
  | [] => []
  | message :: rest => ⟨source, message, !rest.isEmpty⟩ :: deferTails source rest

namespace DriveState

/-- The start of the loop, with a driver that was spawned on a tip. -/
def initial (N : Launch β) (tip : SealedHeader) (nextSeq : ℕ) : DriveState β where
  scheduler := if N.isFinite then .l1Only ⟨[], true⟩ else .new ⟨[], true⟩ ⟨[], true⟩
  driver := .start tip nextSeq
  closed := false
  fired := false
  control := .top
  sent := []
  batches := []
  calls := []

variable (N : Launch β)

/-- Close the L1 input; only a finite run has a bound. -/
def closeInput (s : DriveState β) : DriveState β :=
  match finiteMaxSequence N.mode N.genesisBlock with
  | .ok (some maxSequence) => { s with scheduler := s.scheduler.closeL1Input maxSequence }
  | _ => s

/-- Close the L1 input if the flag is set. -/
def closeIfSet (s : DriveState β) : DriveState β := if s.closed then s.closeInput N else s

def beginIteration (s : DriveState β) : DriveState β :=
  match nextDriverSequence s.driver.tip.number N.genesisBlock with
  | .error e => { s with control := .ended (.error (.admission e)) }
  | .ok nextSequence => { s.closeIfSet N with control := .loaded nextSequence }

/-- Where the loop goes from a step of `next_batch`. -/
def resume (s : DriveState β) (nextSequence : ℕ) (watching : Bool) : BatchStep β → DriveState β
  | .goto pc => { s with control := .selecting nextSequence watching pc }
  | .ret none => { s with control := .ended (.ok ()) }
  | .ret (some batch) =>
    { s with control := .processing batch (deferTails batch.source batch.messages), batches := s.batches ++ [batch] }

/-- One message of a batch. -/
def processMessage (s : DriveState β) (batch : SelectedBatch β) (h : HandOver β) (rest : List (HandOver β)) :
    DriveState β :=
  let s := s.closeIfSet N
  match handOver N.tree N.mode N.genesisBlock s.driver h with
  | .error e => { s with control := .ended (.error e) }
  | .ok driver =>
    { s with driver, control := .processing batch rest
             calls := if N.admits h.message then s.calls ++ [h.call] else s.calls }

/-- The next step of the loop; `none` while it waits, and at its end. -/
def loopStep (s : DriveState β) : Option (DriveState β) :=
  match s.control with
  | .top => some (s.beginIteration N)
  | .loaded nextSequence => some { s with control := .polling nextSequence (N.isFinite && !s.closed) }
  | .polling nextSequence watching =>
    if watching && s.fired then some { s.closeInput N with control := .top }
    else some { s with control := .selecting nextSequence watching .fillFeed }
  | .selecting nextSequence watching pc =>
    (s.scheduler.nextBatchStep nextSequence pc).map fun next =>
      { s with scheduler := next.2 }.resume nextSequence watching next.1
  | .processing batch [] =>
    some { s with scheduler := s.scheduler.completeBatch batch.source batch.kind, control := .top }
  | .processing batch (h :: rest) => some (s.processMessage N batch h rest)
  | .ended _ => none

/-- The close branch of the `select!` while `next_batch` waits. -/
def closeWaiting (s : DriveState β) : Option (DriveState β) :=
  match s.control with
  | .selecting _ true .waiting => if s.fired then some { s.closeInput N with control := .top } else none
  | _ => none

def send (s : DriveState β) (source : MessageSource) (message : BroadcastFeedMessage β) : DriveState β :=
  let p := s.scheduler.port source
  { s with
    scheduler := s.scheduler.setPort source { p with messages := p.messages.send message }
    sent := if source = .l1 ∧ p.messages.live then s.sent ++ [message] else s.sent }

def disconnect (s : DriveState β) (source : MessageSource) : DriveState β :=
  let p := s.scheduler.port source
  { s with scheduler := s.scheduler.setPort source { p with messages := p.messages.close } }

/-- What an event does; `none` if it cannot happen. -/
def step (s : DriveState β) : DriveEvent β → Option (DriveState β)
  | .send source message => some (s.send source message)
  | .disconnect source => some (s.disconnect source)
  | .close => if N.isFinite then some { s with closed := true } else none
  | .fire => if s.closed then some { s with fired := true } else none
  | .loop => s.loopStep N
  | .closeWins => s.closeWaiting N

/-- What the loop and its environment can reach. -/
def Reachable (s t : DriveState β) : Prop := Reaches (step N) s t

end DriveState

end ArbReth.Node
