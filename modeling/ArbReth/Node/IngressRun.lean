import ArbReth.Lib.Events
import ArbReth.Node.Fifo

/-! # Runs of the scheduler

The scheduler between its two channels and the task that calls it.  A message is sent and a channel closed at any time,
also while a call of `next_batch` is in progress; such a call can be dropped where it waits.  The arguments of the calls
are free.

The state also keeps what the channels have accepted, the batches that were returned, and for every selection the heads
that were there. -/

namespace ArbReth.Node

open ArbReth.Events

variable {β : Type}

/-- A batch that was started, with the heads at this moment and their positions in what was sent. -/
structure Selection (β : Type) where
  nextSequence : ℕ
  feed : Option (ℕ × BroadcastFeedMessage β)
  l1 : Option (ℕ × BroadcastFeedMessage β)
  begun : SelectedBatch β

def Selection.head (x : Selection β) : MessageSource → Option (ℕ × BroadcastFeedMessage β)
  | .feed => x.feed
  | .l1 => x.l1

structure IngressRun (β : Type) where
  scheduler : IngressScheduler β
  /-- The call of `next_batch` in progress, with its argument. -/
  call : Option (ℕ × NextBatch β)
  /-- What the channels have accepted. -/
  sent : MessageSource → List (BroadcastFeedMessage β)
  batches : List (SelectedBatch β)
  selections : List (Selection β)
  /-- The last batch, until `complete_batch` is called. -/
  uncompleted : Option (MessageSource × BatchKind)

inductive IngressEvent (β : Type) where
  | send (source : MessageSource) (message : BroadcastFeedMessage β)
  /-- The last sender of a source is dropped. -/
  | disconnect (source : MessageSource)
  /-- `close_l1_input`, with a bound that discards nothing. -/
  | closeL1 (maxSequence : ℕ)
  | call (nextSequence : ℕ)
  /-- The call in progress takes its next step. -/
  | poll
  /-- The call in progress is dropped where it waits. -/
  | cancel
  | complete (source : MessageSource) (kind : BatchKind)

namespace IngressRun

def start : IngressRun β where
  scheduler := .new ⟨[], true⟩ ⟨[], true⟩
  call := none
  sent := fun _ => []
  batches := []
  selections := []
  uncompleted := none

/-- The batches of one source in the order of their selection. -/
def delivered (σ : IngressRun β) (source : MessageSource) : List (BroadcastFeedMessage β) :=
  σ.batches.flatMap (·.messagesOf source)

/-- The head of a source, with its position in what was sent. -/
def head (σ : IngressRun β) (source : MessageSource) : Option (ℕ × BroadcastFeedMessage β) :=
  (σ.scheduler.port source).pending.map fun message => ((σ.delivered source).length, message)

/-- The selection that a step of `next_batch` makes. -/
def selected (σ : IngressRun β) (nextSequence : ℕ) : NextBatch β → BatchStep β → List (Selection β)
  | .choose, .goto (.filling begun) => [⟨nextSequence, σ.head .feed, σ.head .l1, begun⟩]
  | _, _ => []

def resume (σ : IngressRun β) (nextSequence : ℕ) : BatchStep β → IngressRun β
  | .goto pc => { σ with call := some (nextSequence, pc) }
  | .ret none => { σ with call := none }
  | .ret (some batch) =>
    { σ with call := none, batches := σ.batches ++ [batch], uncompleted := some (batch.source, batch.kind) }

def poll (σ : IngressRun β) : Option (IngressRun β) :=
  σ.call.bind fun call =>
    (σ.scheduler.nextBatchStep call.1 call.2).map fun next =>
      { σ with scheduler := next.2, selections := σ.selections ++ σ.selected call.1 call.2 next.1 }.resume call.1 next.1

def send (σ : IngressRun β) (source : MessageSource) (message : BroadcastFeedMessage β) : IngressRun β :=
  let p := σ.scheduler.port source
  { σ with
    scheduler := σ.scheduler.setPort source { p with messages := p.messages.send message }
    sent := fun other => if other = source ∧ p.messages.live then σ.sent other ++ [message] else σ.sent other }

def disconnect (σ : IngressRun β) (source : MessageSource) : IngressRun β :=
  let p := σ.scheduler.port source
  { σ with scheduler := σ.scheduler.setPort source { p with messages := p.messages.close } }

/-- What an event does; `none` if it cannot happen. -/
def step (σ : IngressRun β) : IngressEvent β → Option (IngressRun β)
  | .send source message => some (σ.send source message)
  | .disconnect source => some (σ.disconnect source)
  | .closeL1 maxSequence =>
    if σ.call.isNone ∧ ∀ message ∈ σ.scheduler.held .l1, message.sequenceNumber ≤ maxSequence then
      some { σ with scheduler := σ.scheduler.closeL1Input maxSequence }
    else none
  | .call nextSequence => if σ.call.isNone then some { σ with call := some (nextSequence, .fillFeed) } else none
  | .poll => σ.poll
  | .cancel =>
    match σ.call with
    | some (_, .waiting) => some { σ with call := none }
    | _ => none
  | .complete source kind =>
    if σ.call.isNone then
      some { σ with scheduler := σ.scheduler.completeBatch source kind, uncompleted := none }
    else none

/-- What the scheduler can come to. -/
def Reachable (σ τ : IngressRun β) : Prop := Reaches step σ τ

variable {σ τ : IngressRun β}

theorem poll_cases (h : σ.poll = some τ) : ∃ nextSequence pc next, σ.call = some (nextSequence, pc) ∧
    σ.scheduler.nextBatchStep nextSequence pc = some next ∧
      τ = { σ with
              scheduler := next.2
              selections := σ.selections ++ σ.selected nextSequence pc next.1 }.resume nextSequence next.1 := by
  obtain ⟨⟨nextSequence, pc⟩, hcall, h⟩ := Option.bind_eq_some_iff.mp h
  obtain ⟨next, hnext, rfl⟩ := Option.map_eq_some_iff.mp h
  exact ⟨nextSequence, pc, next, hcall, hnext, rfl⟩

theorem cancel_cases (h : σ.step .cancel = some τ) :
    ∃ nextSequence, σ.call = some (nextSequence, .waiting) ∧ τ = { σ with call := none } := by
  simp only [step] at h
  split at h
  · rename_i nextSequence hcall
    exact ⟨nextSequence, hcall, (Option.some.inj h).symm⟩
  · cases h

/-! ### Nothing is lost -/

/-- What the call in progress has taken of a source. -/
def inHand (σ : IngressRun β) (source : MessageSource) : List (BroadcastFeedMessage β) :=
  match σ.call with
  | some (_, pc) => pc.taken source
  | none => []

/-- What is sent on a source is delivered, in hand or held, in this order. -/
structure Lossless (σ : IngressRun β) : Prop where
  queues : ∀ source, σ.delivered source ++ (σ.inHand source ++ σ.scheduler.held source) = σ.sent source
  shut : σ.scheduler.Shut
  fits : ∀ nextSequence pc, σ.call = some (nextSequence, pc) → pc.Fits nextSequence σ.scheduler
  sizes : ∀ batch ∈ σ.batches, 1 ≤ batch.messages.length ∧ batch.messages.length ≤ maxMessageBatch

theorem Lossless.start : Lossless (start : IngressRun β) := by
  refine ⟨fun source => by cases source <;> rfl, ⟨?_, ?_, fun _ => rfl⟩, ?_, ?_⟩
  · intro hopen
    cases hopen
  · intro hopen
    cases hopen
  · intro _ _ hcall
    cases hcall
  · intro _ hbatch
    cases hbatch

theorem inHand_of_call {nextSequence : ℕ} {pc : NextBatch β} (h : σ.call = some (nextSequence, pc)) :
    σ.inHand = pc.taken := by
  funext source
  simp [inHand, h]

theorem inHand_of_idle (h : σ.call = none) : σ.inHand = fun _ => [] := by
  funext source
  simp [inHand, h]

theorem delivered_resume (σ : IngressRun β) (nextSequence : ℕ) (next : BatchStep β) (source : MessageSource) :
    (σ.resume nextSequence next).delivered source ++ (σ.resume nextSequence next).inHand source =
      σ.delivered source ++ next.taken source := by
  cases next with
  | goto pc => rfl
  | ret selected =>
    cases selected with
    | none => rfl
    | some batch => simp [resume, delivered, inHand, BatchStep.taken]

@[simp] theorem resume_scheduler (σ : IngressRun β) (nextSequence : ℕ) (next : BatchStep β) :
    (σ.resume nextSequence next).scheduler = σ.scheduler := by
  unfold resume
  split <;> rfl

@[simp] theorem resume_sent (σ : IngressRun β) (nextSequence : ℕ) (next : BatchStep β) :
    (σ.resume nextSequence next).sent = σ.sent := by
  unfold resume
  split <;> rfl

theorem resume_call {nextSequence n : ℕ} {next : BatchStep β} {pc : NextBatch β}
    (h : (σ.resume nextSequence next).call = some (n, pc)) : n = nextSequence ∧ next = .goto pc := by
  cases next with
  | goto pc' =>
    cases h
    exact ⟨rfl, rfl⟩
  | ret selected => cases selected <;> cases h

theorem resume_batches {nextSequence : ℕ} {next : BatchStep β} {batch : SelectedBatch β}
    (h : batch ∈ (σ.resume nextSequence next).batches) : batch ∈ σ.batches ∨ next = .ret (some batch) := by
  cases next with
  | goto pc => exact Or.inl h
  | ret selected =>
    cases selected with
    | none => exact Or.inl h
    | some last =>
      rcases List.mem_append.mp h with h | h
      · exact Or.inl h
      · rw [List.mem_singleton.mp h]
        exact Or.inr rfl

theorem Lossless.poll (hσ : Lossless σ) (h : σ.poll = some τ) : Lossless τ := by
  obtain ⟨nextSequence, pc, next, hcall, hnext, rfl⟩ := poll_cases h
  have hadv := IngressScheduler.nextBatchStep_advances hσ.shut (hσ.fits _ _ hcall) hnext
  refine ⟨fun source => ?_, ?_, fun n pc' hgoto => ?_, fun batch hbatch => ?_⟩
  · have hqueues := hσ.queues source
    rw [inHand_of_call hcall, ← hadv.queues source, ← List.append_assoc] at hqueues
    rw [resume_scheduler, resume_sent, ← List.append_assoc, delivered_resume]
    exact hqueues
  · rw [resume_scheduler]
    exact hadv.shut
  · obtain ⟨rfl, hpc⟩ := resume_call hgoto
    have hfits := hadv.fits
    rw [hpc] at hfits
    rw [resume_scheduler]
    exact hfits
  · rcases resume_batches hbatch with hbatch | hret
    · exact hσ.sizes batch hbatch
    · have hfits := hadv.fits
      rw [hret] at hfits
      exact ⟨hfits.nonempty, hfits.bounded⟩

theorem Lossless.send (hσ : Lossless σ) (source : MessageSource) (message : BroadcastFeedMessage β) :
    Lossless (σ.send source message) := by
  refine ⟨fun other => ?_, hσ.shut.send source message, fun n pc hcall => ?_, hσ.sizes⟩
  · have hqueues := hσ.queues other
    by_cases hother : other = source
    · subst hother
      have hheld := IngressScheduler.held_setMessages σ.scheduler other
        (IngressScheduler.send_queue (σ.scheduler.port other).messages message)
      have hsent : (σ.send other message).sent other =
          σ.sent other ++ if (σ.scheduler.port other).messages.live then [message] else [] := by
        by_cases hlive : (σ.scheduler.port other).messages.live = true <;> simp [IngressRun.send, hlive]
      rw [hsent, ← hqueues]
      dsimp only [IngressRun.send]
      rw [hheld]
      simp [delivered, inHand]
    · have hsent : (σ.send source message).sent other = σ.sent other := by simp [IngressRun.send, hother]
      have hheld := IngressScheduler.held_setPort_of_ne hother σ.scheduler
        { σ.scheduler.port source with messages := (σ.scheduler.port source).messages.send message }
      rw [hsent, ← hqueues]
      dsimp only [IngressRun.send]
      rw [hheld]
      rfl
  · exact (IngressScheduler.Outside.setPort _ _ _).fits (hσ.fits n pc hcall)

theorem Lossless.disconnect (hσ : Lossless σ) (source : MessageSource) : Lossless (σ.disconnect source) := by
  refine ⟨fun other => ?_, hσ.shut.disconnect source, fun n pc hcall => ?_, hσ.sizes⟩
  · have hheld : (σ.disconnect source).scheduler.held other = σ.scheduler.held other := by
      cases source <;> cases other <;> rfl
    rw [hheld]
    exact hσ.queues other
  · exact (IngressScheduler.Outside.setPort _ _ _).fits (hσ.fits n pc hcall)

/-- Between two calls, a change of the scheduler that keeps the queues. -/
theorem Lossless.idle (hσ : Lossless σ) (hcall : σ.call = none) {scheduler : IngressScheduler β}
    {uncompleted : Option (MessageSource × BatchKind)} (hheld : ∀ source, scheduler.held source = σ.scheduler.held source)
    (hshut : scheduler.Shut) : Lossless { σ with scheduler, uncompleted } := by
  refine ⟨fun source => ?_, hshut, fun n pc h => ?_, hσ.sizes⟩
  · dsimp only
    rw [hheld]
    exact hσ.queues source
  · cases hcall.symm.trans h

theorem Lossless.step {e : IngressEvent β} (hσ : Lossless σ) (h : σ.step e = some τ) : Lossless τ := by
  cases e with
  | send source message =>
    cases h
    exact hσ.send source message
  | disconnect source =>
    cases h
    exact hσ.disconnect source
  | closeL1 maxSequence =>
    simp only [IngressRun.step] at h
    split at h
    · rename_i hclose
      cases h
      refine hσ.idle (Option.isNone_iff_eq_none.mp hclose.1) (fun source => ?_)
        (IngressScheduler.closeL1Input_shut hσ.shut maxSequence)
      cases source with
      | feed => rfl
      | l1 => exact IngressScheduler.closeL1Input_held_of_le hclose.2
    · cases h
  | call nextSequence =>
    simp only [IngressRun.step] at h
    split at h
    · rename_i hidle
      cases h
      refine ⟨fun source => ?_, hσ.shut, fun n pc hcall => ?_, hσ.sizes⟩
      · have hqueues := hσ.queues source
        rw [inHand_of_idle (Option.isNone_iff_eq_none.mp hidle)] at hqueues
        exact hqueues
      · cases hcall
        trivial
    · cases h
  | poll => exact hσ.poll h
  | cancel =>
    obtain ⟨n, hcall, rfl⟩ := cancel_cases h
    refine ⟨fun source => ?_, hσ.shut, fun _ _ h => ?_, hσ.sizes⟩
    · have hqueues := hσ.queues source
      rw [inHand_of_call hcall] at hqueues
      exact hqueues
    · cases h
  | complete source kind =>
    simp only [IngressRun.step] at h
    split at h
    · rename_i hidle
      cases h
      exact hσ.idle (Option.isNone_iff_eq_none.mp hidle) (fun other => IngressScheduler.completeBatch_held _ _ _ other)
        (IngressScheduler.completeBatch_shut hσ.shut source kind)
    · cases h

theorem Lossless.of_reachable (h : Reachable IngressRun.start σ) : Lossless σ :=
  h.invariant (fun _ _ _ hσ he => hσ.step he) .start

/-- **The scheduler is a lossless FIFO for each source.** -/
theorem delivers_in_order (h : Reachable start σ) : (∀ source, σ.delivered source <+: σ.sent source) ∧
      (∀ batch ∈ σ.batches, 1 ≤ batch.messages.length ∧ batch.messages.length ≤ 64) ∧
      (∀ nextSequence pc batch s', σ.call = some (nextSequence, pc) →
        σ.scheduler.nextBatchStep nextSequence pc = some (.ret (some batch), s') →
        batch.kind = .gapCloser → ClosesGap nextSequence s' batch) ∧
      ∀ nextSequence pc s', σ.call = some (nextSequence, pc) →
        σ.scheduler.nextBatchStep nextSequence pc = some (.ret none, s') →
        ∀ source, (s'.port source).messages.live = false ∧ σ.delivered source = σ.sent source := by
  have hσ := Lossless.of_reachable h
  refine ⟨fun source => ⟨_, hσ.queues source⟩, hσ.sizes, ?_, ?_⟩
  · intro nextSequence pc batch s' hcall hstep hkind
    have hadv := IngressScheduler.nextBatchStep_advances hσ.shut (hσ.fits _ _ hcall) hstep
    exact hadv.fits.gap hkind
  · intro nextSequence pc s' hcall hstep source
    have hadv := IngressScheduler.nextBatchStep_advances hσ.shut (hσ.fits _ _ hcall) hstep
    obtain ⟨hempty, hlive⟩ := hadv.fits
    refine ⟨hlive source, ?_⟩
    -- what was in hand and held is what is in hand and held at the end, which is nothing
    have hqueues := hadv.queues source
    have hsent := hσ.queues source
    rw [inHand_of_call hcall, ← hqueues, hempty source] at hsent
    simpa [BatchStep.taken] using hsent

/-- Message three of L1 closes the gap ahead of message five of the feed; then both sources end. -/
def gapThenFeed : List (IngressEvent Unit) :=
  ([.send .feed ⟨5, 0, ()⟩, .send .l1 ⟨3, 0, ()⟩, .call 3] : List (IngressEvent Unit)) ++ List.replicate 4 IngressEvent.poll ++
    ([.complete .l1 .gapCloser, .call 4] : List (IngressEvent Unit)) ++ List.replicate 4 IngressEvent.poll ++
    ([.complete .feed .ordinary, .disconnect .feed, .disconnect .l1, .call 6, .poll, .poll] : List (IngressEvent Unit))

theorem delivers_in_order_gap_then_feed : ∃ σ : IngressRun Unit, Reachable start σ ∧
      σ.batches = [⟨.l1, [⟨3, 0, ()⟩], .gapCloser⟩, ⟨.feed, [⟨5, 0, ()⟩], .ordinary⟩] ∧
      ∀ source, σ.delivered source = σ.sent source := by
  have hrun : (steps step start gapThenFeed).map
        (fun σ => (σ.batches, σ.call, (σ.scheduler.nextBatchStep 6 .choose).map Prod.fst)) =
      some ([⟨.l1, [⟨3, 0, ()⟩], .gapCloser⟩, ⟨.feed, [⟨5, 0, ()⟩], .ordinary⟩], some (6, .choose),
        some (.ret none)) := by
    rfl
  obtain ⟨σ, hσ, hrun⟩ := Option.map_eq_some_iff.mp hrun
  obtain ⟨hbatches, hrun⟩ := Prod.mk.inj hrun
  obtain ⟨hcall, hnext⟩ := Prod.mk.inj hrun
  obtain ⟨⟨-, s'⟩, hstep, rfl⟩ := Option.map_eq_some_iff.mp hnext
  have hreach : Reachable start σ := .of_steps _ hσ
  obtain ⟨-, -, -, hnone⟩ := delivers_in_order hreach
  exact ⟨σ, hreach, hbatches, fun source => (hnone _ _ s' hcall hstep source).2⟩

end IngressRun

end ArbReth.Node
