import ArbReth.Node.HandOff

/-! # The ingress scheduler

`IngressScheduler` (`arb-reth-node/src/launcher.rs`) selects batches of messages from the live feed and from L1
derivation.  The two channels are filled concurrently, so `next_batch` is given as its steps, with one access to a
channel in each; a send falls between two of them.  A send itself is one step. -/

namespace ArbReth.Node

variable {β : Type}

def MessageSource.other : MessageSource → MessageSource
  | .feed => .l1
  | .l1 => .feed

inductive BatchKind where
  | ordinary
  | gapCloser
deriving DecidableEq, Repr

structure SelectedBatch (β : Type) where
  source : MessageSource
  messages : List (BroadcastFeedMessage β)
  kind : BatchKind
deriving DecidableEq, Repr

/-- The bound on a batch (`MAX_MESSAGE_BATCH`). -/
def maxMessageBatch : ℕ := 64

/-! ### Channels -/

/-- The receiving end of a channel. -/
structure Receiver (β : Type) where
  queue : List (BroadcastFeedMessage β)
  /-- A sender is left, and the receiver has not been closed. -/
  live : Bool
deriving DecidableEq, Repr

/-- The result of `try_recv`, with the receiver it leaves. -/
inductive Received (β : Type) where
  | message (message : BroadcastFeedMessage β) (rest : Receiver β)
  | empty
  | disconnected

def Receiver.tryRecv (r : Receiver β) : Received β :=
  match r.queue with
  | message :: queue => .message message { r with queue }
  | [] => if r.live then .empty else .disconnected

/-- A send, which is refused by a channel that was closed. -/
def Receiver.send (r : Receiver β) (message : BroadcastFeedMessage β) : Receiver β :=
  if r.live then { r with queue := r.queue ++ [message] } else r

/-- The channel takes no more messages: it was closed, or its last sender was dropped. -/
def Receiver.close (r : Receiver β) : Receiver β := { r with live := false }

/-! ### The scheduler -/

/-- What the scheduler keeps for one source: `*_messages`, `*_pending` and `*_open`. -/
structure Port (β : Type) where
  messages : Receiver β
  pending : Option (BroadcastFeedMessage β)
  isOpen : Bool
deriving DecidableEq, Repr

structure IngressScheduler (β : Type) where
  feed : Port β
  l1 : Port β
  l1Buffered : List (BroadcastFeedMessage β)
  owed : MessageSource
deriving DecidableEq, Repr

namespace IngressScheduler

def new (feedMessages l1Messages : Receiver β) : IngressScheduler β where
  feed := ⟨feedMessages, none, true⟩
  l1 := ⟨l1Messages, none, true⟩
  l1Buffered := []
  owed := .feed

/-- The feed has no sender. -/
def l1Only (l1Messages : Receiver β) : IngressScheduler β := new ⟨[], false⟩ l1Messages

def port (s : IngressScheduler β) : MessageSource → Port β
  | .feed => s.feed
  | .l1 => s.l1

def setPort (s : IngressScheduler β) : MessageSource → Port β → IngressScheduler β
  | .feed, feed => { s with feed }
  | .l1, l1 => { s with l1 }

/-- Reject future L1 sends, retain only the bounded input, and discard the queued tail. -/
def closeL1Input (s : IngressScheduler β) (maxSequence : ℕ) : IngressScheduler β :=
  let buffered := s.l1Buffered ++ s.l1.messages.queue.filter (fun message => message.sequenceNumber ≤ maxSequence)
  { s with
    l1 := ⟨⟨[], false⟩, s.l1.pending.filter (fun message => message.sequenceNumber ≤ maxSequence), !buffered.isEmpty⟩
    l1Buffered := buffered }

end IngressScheduler

/-- Take a message from the channel, if there is no head yet. -/
def Port.tryFill (p : Port β) : Port β :=
  if !p.isOpen || p.pending.isSome then p
  else
    match p.messages.tryRecv with
    | .message message rest => { p with pending := some message, messages := rest }
    | .empty => p
    | .disconnected => { p with isOpen := false }

/-- A branch of the `select!`: `none` if it is disabled or has to wait. -/
def Port.recv (p : Port β) : Option (Port β) :=
  if !p.isOpen then none
  else
    match p.messages.tryRecv with
    | .message message rest => some { p with pending := some message, messages := rest }
    | .empty => none
    | .disconnected => some { p with isOpen := false }

def Port.takePending (p : Port β) : Port β := { p with pending := none }

/-- Where `next_batch` is. -/
inductive NextBatch (β : Type) where
  | fillFeed
  | fillL1
  | choose
  | waiting
  | filling (batch : SelectedBatch β)

/-- What a step of `next_batch` comes to. -/
inductive BatchStep (β : Type) where
  | goto (pc : NextBatch β)
  | ret (selected : Option (SelectedBatch β))

namespace IngressScheduler

/-- Messages that were retained at the close come before the channel. -/
def tryFillHead (s : IngressScheduler β) : MessageSource → IngressScheduler β
  | .feed => { s with feed := s.feed.tryFill }
  | .l1 =>
    match s.l1Buffered with
    | [] => { s with l1 := s.l1.tryFill }
    | message :: rest =>
      if s.l1.isOpen && s.l1.pending.isNone then
        { s with l1 := { s.l1 with pending := some message }, l1Buffered := rest }
      else { s with l1 := s.l1.tryFill }

/-- `none` if both channels have to be waited for. -/
def waitForHead (s : IngressScheduler β) : Option (IngressScheduler β) :=
  let fromFeed := s.feed.recv.map fun feed => { s with feed }
  let fromL1 := s.l1.recv.map fun l1 => { s with l1 }
  match s.owed with
  | .feed => fromFeed <|> fromL1
  | .l1 => fromL1 <|> fromFeed

/-- Start a batch with the head of a source. -/
def beginBatch (s : IngressScheduler β) (source : MessageSource) (first : BroadcastFeedMessage β) (kind : BatchKind) :
    BatchStep β × IngressScheduler β :=
  (.goto (.filling ⟨source, [first], kind⟩), s.setPort source (s.port source).takePending)

/-- An L1 head that closes the exact gap ahead of a feed head goes first; otherwise the owed source does. -/
def choose (s : IngressScheduler β) (nextSequence : ℕ) : BatchStep β × IngressScheduler β :=
  match s.feed.pending, s.l1.pending with
  | none, none => if !s.feed.isOpen && !s.l1.isOpen then (.ret none, s) else (.goto .waiting, s)
  | some feed, none => s.beginBatch .feed feed .ordinary
  | none, some l1 => s.beginBatch .l1 l1 .ordinary
  | some feed, some l1 =>
    if l1.sequenceNumber = nextSequence ∧ nextSequence < feed.sequenceNumber then s.beginBatch .l1 l1 .gapCloser
    else
      match s.owed with
      | .feed => s.beginBatch .feed feed .ordinary
      | .l1 => s.beginBatch .l1 l1 .ordinary

def push (batch : SelectedBatch β) (message : BroadcastFeedMessage β) : BatchStep β :=
  .goto (.filling { batch with messages := batch.messages ++ [message] })

/-- One more message for the batch, from the channel of its source. -/
def receiveMore (s : IngressScheduler β) (batch : SelectedBatch β) : BatchStep β × IngressScheduler β :=
  let p := s.port batch.source
  match p.messages.tryRecv with
  | .message message rest => (push batch message, s.setPort batch.source { p with messages := rest })
  | .empty => (.ret (some batch), s)
  | .disconnected => (.ret (some batch), s.setPort batch.source { p with isOpen := false })

/-- One round of the loop that fills an ordinary batch. -/
def extend (s : IngressScheduler β) (batch : SelectedBatch β) : BatchStep β × IngressScheduler β :=
  if batch.kind = .ordinary ∧ batch.messages.length < maxMessageBatch then
    match batch.source, s.l1Buffered with
    | .l1, message :: rest => (push batch message, { s with l1Buffered := rest })
    | _, _ => s.receiveMore batch
  else (.ret (some batch), s)

/-- One step of `next_batch`; `none` while it waits. -/
def nextBatchStep (s : IngressScheduler β) (nextSequence : ℕ) :
    NextBatch β → Option (BatchStep β × IngressScheduler β)
  | .fillFeed => some (.goto .fillL1, s.tryFillHead .feed)
  | .fillL1 => some (.goto .choose, s.tryFillHead .l1)
  | .choose => some (s.choose nextSequence)
  | .waiting => s.waitForHead.map fun s => (.goto .fillFeed, s)
  | .filling batch => some (s.extend batch)

def completeBatch (s : IngressScheduler β) (source : MessageSource) (kind : BatchKind) : IngressScheduler β :=
  match kind with
  | .gapCloser => { s with owed := .feed }
  | .ordinary => if source = s.owed then { s with owed := source.other } else s

end IngressScheduler

end ArbReth.Node
