import ArbReth.Node.Settled
import ArbReth.Node.Fifo

/-! # The bounded input of a finite run

A finite run hands over the L1 messages up to its frontier.  What was sent within the bound is handed over, in the batch
at hand or held by the scheduler, in this order (`Bounded`), whatever the close falls between.  After the close every
step of the loop makes a weight smaller, and the loop is never stuck, so that it ends with everything handed over; this
needs that the close does not fall between the two reads of the flag. -/

namespace ArbReth.Node

open ArbReth.Engine ArbReth.Events ArbReth.Runs
open ArbReth.Engine.ArbEngineDriver (sequentialTree)

variable {β : Type}

/-! ### A weight for the steps of `next_batch` -/

def Port.weight (p : Port β) : ℕ := 13 * p.messages.queue.length + 9 * p.pending.toList.length + 4 * p.isOpen.toNat

def IngressScheduler.weight (s : IngressScheduler β) : ℕ := s.feed.weight + s.l1.weight + 13 * s.l1Buffered.length

def NextBatch.weight : NextBatch β → ℕ
  | .waiting => 1
  | .choose => 2
  | .fillL1 => 3
  | .fillFeed => 4
  | .filling batch => 9 + batch.messages.length

def BatchStep.weight : BatchStep β → ℕ
  | .goto pc => pc.weight
  | .ret none => 0
  | .ret (some batch) => 8 + batch.messages.length

theorem PortStep.weight_le {p p' : Port β} (h : PortStep p p') : p'.weight ≤ p.weight := by
  cases h with
  | keep => exact le_rfl
  | receive message rest hpending hqueue _ =>
    simp only [Port.weight, hpending, hqueue, List.length_cons, Option.toList_some, Option.toList_none, List.length_nil]
    omega
  | shut _ =>
    simp only [Port.weight, Bool.toNat_false]
    omega

theorem Port.recv_weight {p p' : Port β} (hpending : p.pending = none) (h : p.recv = some p') :
    p'.weight + 4 ≤ p.weight := by
  unfold Port.recv at h
  split at h
  · cases h
  · rename_i hopen
    have hopen' : p.isOpen = true := by simpa using hopen
    split at h
    · rename_i message rest hrecv
      obtain ⟨hqueue, -⟩ := Receiver.tryRecv_message hrecv
      cases h
      simp only [Port.weight, hpending, hqueue, List.length_cons, Option.toList_some, Option.toList_none, List.length_nil]
      omega
    · cases h
    · cases h
      simp only [Port.weight, hopen', Bool.toNat_false, Bool.toNat_true]
      omega

theorem Port.recv_isSome {p : Port β} (hopen : p.isOpen = true) (hlive : p.messages.live = false) :
    p.recv.isSome = true := by
  cases hrecv : p.recv with
  | some _ => rfl
  | none =>
    rcases Port.recv_none hrecv with hclosed | hmessages
    · cases hclosed.symm.trans hopen
    · rw [hmessages] at hlive
      cases hlive

namespace IngressScheduler

variable {s s' : IngressScheduler β} {nextSequence : ℕ} {batch : SelectedBatch β}

theorem weight_setPort (s : IngressScheduler β) (source : MessageSource) (p : Port β) :
    (s.setPort source p).weight + (s.port source).weight = s.weight + p.weight := by
  cases source with
  | feed =>
    simp only [weight, setPort, port]
    omega
  | l1 =>
    simp only [weight, setPort, port]
    omega

theorem tryFillHead_weight (s : IngressScheduler β) (source : MessageSource) : (s.tryFillHead source).weight ≤ s.weight := by
  have hport (source : MessageSource) : (s.setPort source (s.port source).tryFill).weight ≤ s.weight := by
    have hset := s.weight_setPort source (s.port source).tryFill
    have hle := (PortStep.of_tryFill (s.port source)).weight_le
    omega
  cases source with
  | feed => exact hport .feed
  | l1 =>
    rcases tryFillHead_l1 s with ⟨-, heq⟩ | ⟨message, rest, hbuffered, -, hpending, heq⟩ | ⟨-, heq⟩
    · rw [heq]
      exact hport .l1
    · rw [heq]
      simp only [weight, Port.weight, hbuffered, hpending, List.length_cons, Option.toList_some, Option.toList_none,
        List.length_nil]
      omega
    · rw [heq]

theorem beginBatch_weight {source : MessageSource} {first : BroadcastFeedMessage β} {kind : BatchKind}
    (hfirst : (s.port source).pending = some first) :
    (s.beginBatch source first kind).2.weight + (s.beginBatch source first kind).1.weight < s.weight + 2 := by
  have hset := s.weight_setPort source (s.port source).takePending
  have htake : (s.port source).takePending.weight + 9 = (s.port source).weight := by
    simp only [Port.weight, Port.takePending, hfirst, Option.toList_some, Option.toList_none, List.length_cons,
      List.length_nil]
    omega
  simp only [beginBatch, BatchStep.weight, NextBatch.weight, List.length_singleton]
  omega

theorem choose_weight (s : IngressScheduler β) (nextSequence : ℕ) :
    (s.choose nextSequence).2.weight + (s.choose nextSequence).1.weight < s.weight + 2 := by
  unfold choose
  cases hfeed : s.feed.pending with
  | none =>
    cases hl1 : s.l1.pending with
    | none =>
      dsimp only
      split
      · simp only [BatchStep.weight]
        omega
      · simp only [BatchStep.weight, NextBatch.weight]
        omega
    | some l1 => exact beginBatch_weight hl1
  | some feed =>
    cases hl1 : s.l1.pending with
    | none => exact beginBatch_weight hfeed
    | some l1 =>
      dsimp only
      split
      · exact beginBatch_weight hl1
      · split
        · exact beginBatch_weight hfeed
        · exact beginBatch_weight hl1

theorem waitForHead_weight (hfits : NextBatch.Fits nextSequence s .waiting) (h : s.waitForHead = some s') :
    s'.weight + 4 ≤ s.weight := by
  obtain ⟨hfeed, hl1, -, -⟩ := hfits
  have hfromFeed (h : s.feed.recv.map (fun feed => { s with feed }) = some s') : s'.weight + 4 ≤ s.weight := by
    obtain ⟨feed, hrecv, rfl⟩ := Option.map_eq_some_iff.mp h
    have hle := Port.recv_weight hfeed hrecv
    simp only [weight]
    omega
  have hfromL1 (h : s.l1.recv.map (fun l1 => { s with l1 }) = some s') : s'.weight + 4 ≤ s.weight := by
    obtain ⟨l1, hrecv, rfl⟩ := Option.map_eq_some_iff.mp h
    have hle := Port.recv_weight hl1 hrecv
    simp only [weight]
    omega
  simp only [waitForHead] at h
  split at h
  · rcases (Option.orElse_eq_some _ _ _).mp h with h | ⟨-, h⟩
    · exact hfromFeed h
    · exact hfromL1 h
  · rcases (Option.orElse_eq_some _ _ _).mp h with h | ⟨-, h⟩
    · exact hfromL1 h
    · exact hfromFeed h

theorem receiveMore_weight (s : IngressScheduler β) (batch : SelectedBatch β) :
    (s.receiveMore batch).2.weight + (s.receiveMore batch).1.weight < s.weight + (9 + batch.messages.length) := by
  simp only [receiveMore]
  split
  · rename_i message rest hrecv
    obtain ⟨hqueue, -⟩ := Receiver.tryRecv_message hrecv
    have hset := s.weight_setPort batch.source { s.port batch.source with messages := rest }
    simp only [Port.weight, hqueue, List.length_cons] at hset
    simp only [push, BatchStep.weight, NextBatch.weight, List.length_append, List.length_singleton]
    omega
  · simp only [BatchStep.weight]
    omega
  · have hset := s.weight_setPort batch.source { s.port batch.source with isOpen := false }
    simp only [Port.weight, Bool.toNat_false] at hset
    simp only [BatchStep.weight]
    omega

theorem extend_weight (s : IngressScheduler β) (batch : SelectedBatch β) :
    (s.extend batch).2.weight + (s.extend batch).1.weight < s.weight + (9 + batch.messages.length) := by
  unfold extend
  split
  · split
    · rename_i message rest _ hbuffered
      simp only [push, BatchStep.weight, NextBatch.weight, weight, hbuffered, List.length_append, List.length_cons,
        List.length_nil]
      omega
    · exact receiveMore_weight s batch
  · simp only [BatchStep.weight]
    omega

/-- **A step of `next_batch` loses weight.** -/
theorem nextBatchStep_weight {pc : NextBatch β} {next : BatchStep β × IngressScheduler β}
    (hfits : pc.Fits nextSequence s) (h : s.nextBatchStep nextSequence pc = some next) :
    next.2.weight + next.1.weight < s.weight + pc.weight := by
  cases pc with
  | fillFeed =>
    cases h
    have hle := s.tryFillHead_weight .feed
    simp only [BatchStep.weight, NextBatch.weight]
    omega
  | fillL1 =>
    cases h
    have hle := s.tryFillHead_weight .l1
    simp only [BatchStep.weight, NextBatch.weight]
    omega
  | choose =>
    cases h
    exact s.choose_weight nextSequence
  | waiting =>
    obtain ⟨s', hwait, rfl⟩ := Option.map_eq_some_iff.mp h
    have hle := waitForHead_weight hfits hwait
    simp only [BatchStep.weight, NextBatch.weight]
    omega
  | filling batch =>
    cases h
    exact s.extend_weight batch

/-- Closing the input adds no weight, as a source that is marked as closed has nothing left. -/
theorem closeL1Input_weight (hshut : s.Shut) (maxSequence : ℕ) : (s.closeL1Input maxSequence).weight ≤ s.weight := by
  have hfilter := List.length_filter_le (fun message => decide (message.sequenceNumber ≤ maxSequence)) s.l1.messages.queue
  have hpending : (s.l1.pending.filter (fun message => decide (message.sequenceNumber ≤ maxSequence))).toList.length ≤
      s.l1.pending.toList.length := by
    cases s.l1.pending with
    | none => exact le_rfl
    | some message => by_cases hle : message.sequenceNumber ≤ maxSequence <;> simp [Option.filter, hle]
  cases hopen : s.l1.isOpen with
  | true =>
    have hnat := Bool.toNat_le (!(s.l1Buffered ++
      s.l1.messages.queue.filter (fun message => decide (message.sequenceNumber ≤ maxSequence))).isEmpty)
    simp only [weight, closeL1Input, Port.weight, hopen, List.length_append, List.length_nil, Bool.toNat_true]
    omega
  | false =>
    have hmessages := hshut.l1 hopen
    have hbuffered := hshut.buffered hopen
    simp only [weight, closeL1Input, Port.weight, hmessages, hbuffered, List.filter_nil, List.append_nil,
      List.isEmpty_nil, Bool.not_true, Bool.toNat_false, List.length_nil]
    omega

end IngressScheduler

/-- The message is up to the frontier. -/
def Launch.within (N : Launch β) (frontier : ℕ) (message : BroadcastFeedMessage β) : Bool :=
  message.sequenceNumber + N.genesisBlock ≤ frontier

/-- What the loop has taken from the scheduler and not handed over. -/
def Control.inHand : Control β → List (BroadcastFeedMessage β)
  | .selecting _ _ pc => pc.taken .l1
  | .processing _ rest => rest.map (·.message)
  | .top | .loaded _ | .polling _ _ | .ended _ => []

def Control.failed : Control β → Bool
  | .ended (.error _) => true
  | _ => false

/-- Of a selection that also waits for the close, the way back to the top. -/
def Control.weight : Control β → ℕ
  | .top => 7
  | .loaded _ => 6
  | .polling _ watching => 5 + 7 * watching.toNat
  | .selecting _ watching pc => pc.weight + 7 * watching.toNat
  | .processing _ rest => 8 + rest.length
  | .ended _ => 0

/-- The selection that the loop makes does not wait for the close. -/
def Control.Unwatched (closed : Bool) : Control β → Prop
  | .loaded _ => closed = true
  | .polling _ watching | .selecting _ watching _ => watching = false
  | .top | .processing _ _ | .ended _ => False

namespace DriveState

/-- What the loop does in a step. -/
inductive LoopCase (N : Launch β) (s : DriveState β) : DriveState β → Prop where
  | stop (e : EngineHandoffAdmissionError) (hcontrol : s.control = .top) :
      LoopCase N s { s with control := .ended (.error (.admission e)) }
  | load (nextSequence : ℕ) (hcontrol : s.control = .top) :
      LoopCase N s { s.closeIfSet N with control := .loaded nextSequence }
  | watch (nextSequence : ℕ) (hcontrol : s.control = .loaded nextSequence) :
      LoopCase N s { s with control := .polling nextSequence (N.isFinite && !s.closed) }
  | close (nextSequence : ℕ) (hcontrol : s.control = .polling nextSequence true) :
      LoopCase N s { s.closeInput N with control := .top }
  | select (nextSequence : ℕ) (watching : Bool) (hcontrol : s.control = .polling nextSequence watching) :
      LoopCase N s { s with control := .selecting nextSequence watching .fillFeed }
  | advance (nextSequence : ℕ) (watching : Bool) (pc : NextBatch β) (next : BatchStep β × IngressScheduler β)
      (hcontrol : s.control = .selecting nextSequence watching pc)
      (hnext : s.scheduler.nextBatchStep nextSequence pc = some next) :
      LoopCase N s ({ s with scheduler := next.2 }.resume nextSequence watching next.1)
  | complete (batch : SelectedBatch β) (hcontrol : s.control = .processing batch []) :
      LoopCase N s { s with scheduler := s.scheduler.completeBatch batch.source batch.kind, control := .top }
  | process (batch : SelectedBatch β) (h : HandOver β) (rest : List (HandOver β))
      (hcontrol : s.control = .processing batch (h :: rest)) : LoopCase N s (s.processMessage N batch h rest)

variable {N : Launch β} {s t : DriveState β}

theorem LoopCase.of_loopStep (h : s.loopStep N = some t) : LoopCase N s t := by
  unfold loopStep at h
  split at h
  · rename_i hcontrol
    cases h
    unfold beginIteration
    split
    · exact .stop _ hcontrol
    · exact .load _ hcontrol
  · rename_i nextSequence hcontrol
    cases h
    exact .watch nextSequence hcontrol
  · rename_i nextSequence watching hcontrol
    split at h
    · rename_i hfired
      cases h
      rw [Bool.and_eq_true] at hfired
      rw [hfired.1] at hcontrol
      exact .close nextSequence hcontrol
    · cases h
      exact .select nextSequence watching hcontrol
  · rename_i nextSequence watching pc hcontrol
    obtain ⟨next, hnext, rfl⟩ := Option.map_eq_some_iff.mp h
    exact .advance nextSequence watching pc next hcontrol hnext
  · rename_i batch hcontrol
    cases h
    exact .complete batch hcontrol
  · rename_i batch handOver rest hcontrol
    cases h
    exact .process batch handOver rest hcontrol
  · cases h

theorem closeWaiting_cases (h : s.closeWaiting N = some t) :
    ∃ nextSequence, s.control = .selecting nextSequence true .waiting ∧ t = { s.closeInput N with control := .top } := by
  unfold closeWaiting at h
  split at h
  · rename_i nextSequence hcontrol
    split at h
    · exact ⟨nextSequence, hcontrol, (Option.some.inj h).symm⟩
    · cases h
  · cases h

/-! ### Closing the input -/

/-- What closing the input keeps: all that is within the bound. -/
structure Narrows (N : Launch β) (frontier : ℕ) (s s' : IngressScheduler β) : Prop where
  shut : s'.Shut
  feed : s'.feed = s.feed
  left : (s'.held .l1).filter (N.within frontier) = (s.held .l1).filter (N.within frontier)
  weight : s'.weight ≤ s.weight
  live : s.l1.messages.live = false → s'.l1.messages.live = false

section Finite

variable {F : ℕ} (hmode : N.mode = .finite F)
include hmode

theorem isFinite_of_mode : N.isFinite = true := by
  unfold Launch.isFinite
  rw [hmode]

variable {message : BroadcastFeedMessage β}

theorem within_of_admits (h : N.admits message = true) : N.within F message = true := by
  unfold Launch.admits admitEngineHandoff finiteHandoffAdmission at h
  rw [hmode] at h
  split at h
  · rename_i hdecision
    simp only at hdecision
    split at hdecision
    · split at hdecision
      · cases hdecision
      · split at hdecision
        · cases hdecision
        · exact decide_eq_true (by omega)
    · cases hdecision
  · cases h

theorem not_within_of_rejects (h : N.Rejects message) : N.within F message = false := by
  obtain ⟨blockNumber, frontier, hdecision⟩ := h
  unfold admitEngineHandoff finiteHandoffAdmission at hdecision
  rw [hmode] at hdecision
  simp only at hdecision
  split at hdecision
  · split at hdecision
    · cases hdecision
    · split at hdecision
      · exact decide_eq_false (by omega)
      · cases hdecision
  · cases hdecision

variable (hF : N.genesisBlock ≤ F)
include hF

theorem closeInput_narrows (hshut : s.scheduler.Shut) :
    ∃ scheduler, s.closeInput N = { s with scheduler } ∧ Narrows N F s.scheduler scheduler ∧
      scheduler.l1.messages.live = false := by
  refine ⟨s.scheduler.closeL1Input (F - N.genesisBlock), ?_, ⟨?_, rfl, ?_, ?_, fun _ => rfl⟩, rfl⟩
  · unfold closeInput finiteMaxSequence
    rw [hmode]
    simp [hF]
  · exact IngressScheduler.closeL1Input_shut hshut _
  · have hwithin : N.within F = fun message => decide (message.sequenceNumber ≤ F - N.genesisBlock) := by
      funext message
      exact decide_eq_decide.mpr (by omega)
    rw [IngressScheduler.closeL1Input_held, hwithin]
    simp [IngressScheduler.held]
  · exact IngressScheduler.closeL1Input_weight hshut _

theorem closeIfSet_narrows (hshut : s.scheduler.Shut) :
    ∃ scheduler, s.closeIfSet N = { s with scheduler } ∧ Narrows N F s.scheduler scheduler ∧
      (s.closed = true → scheduler.l1.messages.live = false) := by
  unfold closeIfSet
  split
  · obtain ⟨scheduler, heq, hnarrows, hlive⟩ := closeInput_narrows hmode hF hshut
    exact ⟨scheduler, heq, hnarrows, fun _ => hlive⟩
  · rename_i hclosed
    exact ⟨s.scheduler, rfl, ⟨hshut, rfl, rfl, le_rfl, fun h => h⟩, fun h => absurd h hclosed⟩

/-- One message of a batch: the hand-over fails, or the loop goes on with the rest. -/
theorem processMessage_cases (hshut : s.scheduler.Shut) (batch : SelectedBatch β) (h : HandOver β)
    (rest : List (HandOver β)) : ∃ scheduler, Narrows N F s.scheduler scheduler ∧
      ((∃ e, s.processMessage N batch h rest = { s with scheduler, control := .ended (.error e) }) ∨
        ∃ driver, handOver N.tree N.mode N.genesisBlock s.driver h = .ok driver ∧
          s.processMessage N batch h rest =
            { s with scheduler, driver, control := .processing batch rest
                     calls := if N.admits h.message then s.calls ++ [h.call] else s.calls }) := by
  obtain ⟨scheduler, heq, hnarrows, -⟩ := closeIfSet_narrows hmode hF hshut
  refine ⟨scheduler, hnarrows, ?_⟩
  unfold processMessage
  rw [heq]
  cases hok : handOver N.tree N.mode N.genesisBlock s.driver h with
  | error e =>
    simp only [hok]
    exact Or.inl ⟨e, rfl⟩
  | ok driver =>
    simp only [hok]
    exact Or.inr ⟨driver, rfl, rfl⟩

end Finite

/-! ### Nothing within the bound is lost -/

/-- What was sent within the bound is handed over, in hand or held by the scheduler, unless the loop has failed. -/
structure Bounded (N : Launch β) (frontier : ℕ) (s : DriveState β) : Prop where
  shut : s.scheduler.Shut
  /-- There is no feed. -/
  feed : s.scheduler.held .feed = [] ∧ s.scheduler.feed.messages.live = false
  fits : ∀ nextSequence watching pc, s.control = .selecting nextSequence watching pc →
    pc.Fits nextSequence s.scheduler ∧ pc.taken .feed = []
  closed : s.fired = true → s.closed = true
  handed : s.calls.map (·.message) <+: s.sent.filter (N.within frontier)
  left : s.control.failed = false →
    s.calls.map (·.message) ++ (s.control.inHand ++ s.scheduler.held .l1).filter (N.within frontier) =
      s.sent.filter (N.within frontier)
  ended : s.control = .ended (.ok ()) → s.scheduler.held .l1 = [] ∧ s.scheduler.l1.messages.live = false

variable {F : ℕ}

variable {scheduler : IngressScheduler β}

theorem Bounded.set (hs : Bounded N F s) {control : Control β}
    {batches : List (SelectedBatch β)} (hnot : s.control.failed = false) (hshut : scheduler.Shut)
    (hfeed : scheduler.held .feed = [] ∧ scheduler.feed.messages.live = false)
    (hfits : ∀ nextSequence watching pc, control = .selecting nextSequence watching pc →
      pc.Fits nextSequence scheduler ∧ pc.taken .feed = [])
    (hleft : (control.inHand ++ scheduler.held .l1).filter (N.within F) =
      (s.control.inHand ++ s.scheduler.held .l1).filter (N.within F))
    (hended : control = .ended (.ok ()) → scheduler.held .l1 = [] ∧ scheduler.l1.messages.live = false) :
    Bounded N F { s with scheduler, control, batches } := by
  refine ⟨hshut, hfeed, hfits, hs.closed, hs.handed, fun _ => ?_, hended⟩
  rw [hleft]
  exact hs.left hnot

/-- The loop goes on with a scheduler that was closed, or left as it is. -/
theorem Bounded.narrow (hs : Bounded N F s) {control : Control β}
    (hnarrows : Narrows N F s.scheduler scheduler) (hnot : s.control.failed = false)
    (hfits : ∀ nextSequence watching pc, control ≠ .selecting nextSequence watching pc)
    (hended : control ≠ .ended (.ok ())) (hinHand : control.inHand = s.control.inHand) : Bounded N F { s with scheduler, control } := by
  refine hs.set hnot hnarrows.shut ?_ (fun n w pc h => absurd h (hfits n w pc)) ?_ fun h => absurd h hended
  · have hheld : scheduler.held .feed = s.scheduler.held .feed := congrArg Port.held hnarrows.feed
    rw [hheld, hnarrows.feed]
    exact hs.feed
  · rw [List.filter_append, List.filter_append, hnarrows.left, hinHand]

theorem deferTails_messages (source : MessageSource) (messages : List (BroadcastFeedMessage β)) :
    (deferTails source messages).map (·.message) = messages := by
  induction messages with
  | nil => rfl
  | cons message rest ih => simp [deferTails, ih]

theorem Bounded.advance (hs : Bounded N F s) {nextSequence : ℕ} {watching : Bool} {pc : NextBatch β}
    {next : BatchStep β × IngressScheduler β} (hcontrol : s.control = .selecting nextSequence watching pc)
    (hnext : s.scheduler.nextBatchStep nextSequence pc = some next) :
    Bounded N F ({ s with scheduler := next.2 }.resume nextSequence watching next.1) := by
  obtain ⟨hfits, htaken⟩ := hs.fits _ _ _ hcontrol
  have hadv := IngressScheduler.nextBatchStep_advances hs.shut hfits hnext
  have hnot : s.control.failed = false := by
    rw [hcontrol]
    rfl
  have hinHand : s.control.inHand = pc.taken .l1 := by
    rw [hcontrol]
    rfl
  -- nothing comes from the feed
  have hfeedQueue := hadv.queues .feed
  rw [htaken, hs.feed.1, List.append_nil, List.append_eq_nil_iff] at hfeedQueue
  have hfeed : next.2.held .feed = [] ∧ next.2.feed.messages.live = false :=
    ⟨hfeedQueue.2, (hadv.same.live .feed).trans hs.feed.2⟩
  have hl1 := hadv.queues .l1
  cases hstep : next.1 with
  | goto pc' =>
    rw [hstep] at hfeedQueue hl1
    refine hs.set hnot hadv.shut hfeed (fun n w pc hc => ?_) ?_ (fun hc => by cases hc)
    · cases hc
      have hfits' := hadv.fits
      rw [hstep] at hfits'
      exact ⟨hfits', hfeedQueue.1⟩
    · rw [hinHand, ← hl1]
      rfl
  | ret selected =>
    rw [hstep] at hfeedQueue hl1
    cases selected with
    | none =>
      have hfits' := hadv.fits
      rw [hstep] at hfits'
      refine hs.set hnot hadv.shut hfeed (fun n w pc hc => by cases hc) ?_ fun _ => ⟨hfits'.1 .l1, hfits'.2 .l1⟩
      rw [hinHand, ← hl1]
      rfl
    | some batch =>
      refine hs.set hnot hadv.shut hfeed (fun n w pc hc => by cases hc) ?_ (fun hc => by cases hc)
      have hfits' := hadv.fits
      rw [hstep] at hfits'
      -- a batch is not empty, so it is one of L1
      have hsource : batch.source = .l1 := by
        cases hsource : batch.source with
        | l1 => rfl
        | feed =>
          have hnil : batch.messages = [] := by
            have hmessages := hfeedQueue.1
            rwa [BatchStep.taken, SelectedBatch.messagesOf, if_pos hsource] at hmessages
          have hlength := hfits'.nonempty
          rw [hnil] at hlength
          exact absurd hlength (Nat.not_succ_le_zero 0)
      rw [hinHand, ← hl1, BatchStep.taken, SelectedBatch.messagesOf, if_pos hsource, Control.inHand,
        deferTails_messages]

section Finite

variable (hmode : N.mode = .finite F) (hF : N.genesisBlock ≤ F)
include hmode hF

theorem Bounded.process (hs : Bounded N F s) {batch : SelectedBatch β} {h : HandOver β} {rest : List (HandOver β)}
    (hcontrol : s.control = .processing batch (h :: rest)) : Bounded N F (s.processMessage N batch h rest) := by
  obtain ⟨scheduler, hnarrows, hcases⟩ := processMessage_cases hmode hF hs.shut batch h rest
  have hnot : s.control.failed = false := by
    rw [hcontrol]
    rfl
  have hfeed : scheduler.held .feed = [] ∧ scheduler.feed.messages.live = false := by
    have hheld : scheduler.held .feed = s.scheduler.held .feed := congrArg Port.held hnarrows.feed
    rw [hheld, hnarrows.feed]
    exact hs.feed
  rcases hcases with ⟨e, heq⟩ | ⟨driver, hok, heq⟩
  · rw [heq]
    exact ⟨hnarrows.shut, hfeed, (fun n w pc hc => by cases hc), hs.closed, hs.handed, (fun hc => by cases hc),
      fun hc => by cases hc⟩
  · -- the message moves from the batch to the calls, if it is within the bound
    have hnext : (if N.admits h.message then s.calls ++ [h.call] else s.calls).map (·.message) ++
        (rest.map (·.message) ++ scheduler.held .l1).filter (N.within F) = s.sent.filter (N.within F) := by
      have hleft := hs.left hnot
      rw [hcontrol, List.filter_append, ← hnarrows.left, ← List.filter_append] at hleft
      rw [← hleft, Control.inHand, List.map_cons, List.cons_append]
      rcases handOver_ok hok with ⟨hadmits, hrejects, -⟩ | ⟨hadmits, -⟩
      · simp [hadmits, not_within_of_rejects hmode hrejects]
      · simp [hadmits, within_of_admits hmode hadmits, HandOver.call]
    rw [heq]
    exact ⟨hnarrows.shut, hfeed, (fun n w pc hc => by cases hc), hs.closed, ⟨_, hnext⟩, fun _ => hnext,
      fun hc => by cases hc⟩

theorem Bounded.loop (hs : Bounded N F s) (h : s.loopStep N = some t) : Bounded N F t := by
  have hrefl : Narrows N F s.scheduler s.scheduler := ⟨hs.shut, rfl, rfl, le_rfl, fun h => h⟩
  cases LoopCase.of_loopStep h with
  | stop e hcontrol => exact ⟨hs.shut, hs.feed, (fun n w pc hc => by cases hc), hs.closed, hs.handed, (fun hc => by cases hc),
      fun hc => by cases hc⟩
  | load n hcontrol =>
    obtain ⟨scheduler, heq, hnarrows, -⟩ := closeIfSet_narrows hmode hF hs.shut
    rw [heq]
    exact hs.narrow hnarrows (by rw [hcontrol]; rfl) (fun _ _ _ hc => by cases hc) (fun hc => by cases hc)
      (by rw [hcontrol]; rfl)
  | watch n hcontrol =>
    exact hs.narrow hrefl (by rw [hcontrol]; rfl) (fun _ _ _ hc => by cases hc) (fun hc => by cases hc)
      (by rw [hcontrol]; rfl)
  | close n hcontrol =>
    obtain ⟨scheduler, heq, hnarrows, -⟩ := closeInput_narrows hmode hF hs.shut
    rw [heq]
    exact hs.narrow hnarrows (by rw [hcontrol]; rfl) (fun _ _ _ hc => by cases hc) (fun hc => by cases hc)
      (by rw [hcontrol]; rfl)
  | select n w hcontrol =>
    refine hs.set (by rw [hcontrol]; rfl) hs.shut hs.feed (fun n w pc hc => ?_) (by rw [hcontrol]; rfl)
      fun hc => by cases hc
    cases hc
    exact ⟨trivial, rfl⟩
  | advance n w pc next hcontrol hnext => exact hs.advance hcontrol hnext
  | complete batch hcontrol =>
    have hheld := s.scheduler.completeBatch_held batch.source batch.kind
    refine hs.set (by rw [hcontrol]; rfl) (IngressScheduler.completeBatch_shut hs.shut _ _) ⟨?_, ?_⟩
      (fun n w pc hc => by cases hc) ?_ (fun hc => by cases hc)
    · rw [hheld]
      exact hs.feed.1
    · obtain ⟨owed, heq⟩ := s.scheduler.completeBatch_eq batch.source batch.kind
      rw [heq]
      exact hs.feed.2
    · rw [hheld, hcontrol]
      rfl
  | process batch handOver rest hcontrol => exact hs.process hmode hF hcontrol

end Finite

theorem Bounded.send (hs : Bounded N F s) (source : MessageSource) (message : BroadcastFeedMessage β) :
    Bounded N F (s.send source message) := by
  have hfits (n : ℕ) (w : Bool) (pc : NextBatch β) (hc : s.control = .selecting n w pc) :
      pc.Fits n (s.send source message).scheduler ∧ pc.taken .feed = [] := by
    obtain ⟨hfits, htaken⟩ := hs.fits n w pc hc
    exact ⟨(IngressScheduler.Outside.setPort _ _ _).fits hfits, htaken⟩
  cases source with
  | feed =>
    -- the feed has no sender, so nothing is accepted
    have hsend : s.scheduler.feed.messages.send message = s.scheduler.feed.messages := by
      simp [Receiver.send, hs.feed.2]
    have heq : s.send .feed message = s := by
      simp [DriveState.send, IngressScheduler.setPort, IngressScheduler.port, hsend]
    rw [heq]
    exact hs
  | l1 =>
    have hheld := IngressScheduler.held_setMessages s.scheduler .l1
      (IngressScheduler.send_queue (s.scheduler.port .l1).messages message)
    have hsent : (s.send .l1 message).sent =
        s.sent ++ if (s.scheduler.port .l1).messages.live then [message] else [] := by
      by_cases hlive : (s.scheduler.port .l1).messages.live = true <;> simp [DriveState.send, hlive]
    have hfilter := List.filter_append (p := N.within F) s.sent
      (if (s.scheduler.port .l1).messages.live then [message] else [])
    refine ⟨hs.shut.send .l1 message, hs.feed, hfits, hs.closed, ?_, fun hnot => ?_, fun hended => ?_⟩
    · rw [hsent, hfilter]
      exact hs.handed.trans (List.prefix_append _ _)
    · rw [hsent, hfilter, ← hs.left hnot]
      dsimp only [DriveState.send]
      rw [hheld]
      simp [List.filter_append]
    · obtain ⟨hnil, hlive⟩ := hs.ended hended
      have hsend : s.scheduler.l1.messages.send message = s.scheduler.l1.messages := by
        simp [Receiver.send, hlive]
      have hkept : (s.send .l1 message).scheduler = s.scheduler := by
        simp [DriveState.send, IngressScheduler.setPort, IngressScheduler.port, hsend]
      rw [hkept]
      exact ⟨hnil, hlive⟩

theorem Bounded.disconnect (hs : Bounded N F s) (source : MessageSource) : Bounded N F (s.disconnect source) := by
  have hheld (other : MessageSource) : (s.disconnect source).scheduler.held other = s.scheduler.held other := by
    cases source <;> cases other <;> rfl
  refine ⟨hs.shut.disconnect source, ⟨?_, ?_⟩, fun n w pc hc => ?_, hs.closed, hs.handed, fun hnot => ?_,
    fun hended => ⟨?_, ?_⟩⟩
  · rw [hheld]
    exact hs.feed.1
  · cases source with
    | feed => rfl
    | l1 => exact hs.feed.2
  · obtain ⟨hfits, htaken⟩ := hs.fits n w pc hc
    exact ⟨(IngressScheduler.Outside.setPort _ _ _).fits hfits, htaken⟩
  · rw [hheld]
    exact hs.left hnot
  · rw [hheld]
    exact (hs.ended hended).1
  · cases source with
    | feed => exact (hs.ended hended).2
    | l1 => rfl

section Finite

variable (hmode : N.mode = .finite F) (hF : N.genesisBlock ≤ F)
include hmode hF

theorem Bounded.step {e : DriveEvent β} (hs : Bounded N F s) (h : s.step N e = some t) : Bounded N F t := by
  cases e with
  | send source message =>
    cases h
    exact hs.send source message
  | disconnect source =>
    cases h
    exact hs.disconnect source
  | close =>
    simp only [DriveState.step, isFinite_of_mode hmode] at h
    cases h
    exact ⟨hs.shut, hs.feed, hs.fits, fun _ => rfl, hs.handed, hs.left, hs.ended⟩
  | fire =>
    simp only [DriveState.step] at h
    split at h
    · rename_i hclosed
      cases h
      exact ⟨hs.shut, hs.feed, hs.fits, fun _ => hclosed, hs.handed, hs.left, hs.ended⟩
    · cases h
  | loop => exact hs.loop hmode hF h
  | closeWins =>
    obtain ⟨n, hcontrol, rfl⟩ := closeWaiting_cases h
    obtain ⟨scheduler, heq, hnarrows, -⟩ := closeInput_narrows hmode hF hs.shut
    rw [heq]
    exact hs.narrow hnarrows (by rw [hcontrol]; rfl) (fun _ _ _ hc => by cases hc) (fun hc => by cases hc)
      (by rw [hcontrol]; rfl)

omit hF in
theorem Bounded.initial (tip : SealedHeader) (n₀ : ℕ) : Bounded N F (DriveState.initial N tip n₀) := by
  have hscheduler : (DriveState.initial N tip n₀).scheduler = .l1Only ⟨[], true⟩ := by
    simp [DriveState.initial, isFinite_of_mode hmode]
  refine ⟨?_, ?_, (fun n w pc hc => by cases hc), (fun hc => by cases hc), List.prefix_rfl, (fun _ => ?_),
    fun hc => by cases hc⟩
  · rw [hscheduler]
    exact ⟨(fun hopen => by cases hopen), (fun hopen => by cases hopen), fun _ => rfl⟩
  · rw [hscheduler]
    exact ⟨rfl, rfl⟩
  · rw [hscheduler]
    rfl

theorem Bounded.of_reachable {tip : SealedHeader} {n₀ : ℕ}
    (h : Reachable N (DriveState.initial N tip n₀) s) : Bounded N F s :=
  h.invariant (fun _ _ _ hs he => hs.step hmode hF he) (.initial hmode tip n₀)

end Finite

/-! ### The end of the run -/

/-- The close does not fall between the two reads of the flag. -/
def Unraced (s : DriveState β) : DriveEvent β → Prop
  | .close => ∀ nextSequence, s.control ≠ .loaded nextSequence
  | _ => True

instance (s : DriveState β) : DecidablePred s.Unraced
  | .close =>
    match h : s.control with
    | .loaded nextSequence => isFalse fun hc => hc nextSequence h
    | .top | .polling _ _ | .selecting _ _ _ | .processing _ _ | .ended _ => isTrue (by simp [Unraced, h])
  | .send _ _ | .disconnect _ | .fire | .loop | .closeWins => isTrue trivial

def UnracedReachable (N : Launch β) (s t : DriveState β) : Prop := Reaches (guarded Unraced (step N)) s t

/-- A selection that does not wait for the close has a channel that was closed. -/
def Watched (s : DriveState β) : Prop := s.control.Unwatched s.closed → s.scheduler.l1.messages.live = false

section Finite

variable (hmode : N.mode = .finite F) (hF : N.genesisBlock ≤ F)
include hmode hF

theorem Watched.loop (hs : Bounded N F s) (hwatched : Watched s) (h : s.loopStep N = some t) : Watched t := by
  cases LoopCase.of_loopStep h with
  | stop e hcontrol => exact fun hc => hc.elim
  | load n hcontrol =>
    obtain ⟨scheduler, heq, -, hlive⟩ := closeIfSet_narrows hmode hF hs.shut
    rw [heq]
    exact hlive
  | watch n hcontrol =>
    intro hnot
    refine hwatched ?_
    rw [hcontrol]
    simpa [Control.Unwatched, isFinite_of_mode hmode] using hnot
  | close n hcontrol =>
    obtain ⟨scheduler, heq, -, -⟩ := closeInput_narrows hmode hF hs.shut
    exact fun hc => hc.elim
  | select n w hcontrol =>
    intro hnot
    refine hwatched ?_
    rw [hcontrol]
    exact hnot
  | advance n w pc next hcontrol hnext =>
    obtain ⟨hfits, -⟩ := hs.fits _ _ _ hcontrol
    have hlive := (IngressScheduler.nextBatchStep_advances hs.shut hfits hnext).same.live .l1
    have hbefore (hw : w = false) : next.2.l1.messages.live = false := by
      refine hlive.trans (hwatched ?_)
      rw [hcontrol]
      exact hw
    cases next.1 with
    | goto pc' => exact hbefore
    | ret selected => cases selected <;> exact fun hc => hc.elim
  | complete batch hcontrol => exact fun hc => hc.elim
  | process batch message rest hcontrol =>
    obtain ⟨scheduler, -, ⟨e, heq⟩ | ⟨driver, -, heq⟩⟩ := processMessage_cases hmode hF hs.shut batch message rest
    · rw [heq]
      exact fun hc => hc.elim
    · rw [heq]
      exact fun hc => hc.elim

theorem Watched.step {e : DriveEvent β} (hs : Bounded N F s) (hwatched : Watched s) (hunraced : s.Unraced e)
    (h : s.step N e = some t) : Watched t := by
  cases e with
  | send source message =>
    cases h
    intro hnot
    have hlive := hwatched hnot
    cases source with
    | feed => exact hlive
    | l1 => simp [DriveState.send, IngressScheduler.setPort, IngressScheduler.port, Receiver.send, hlive]
  | disconnect source =>
    cases h
    intro hnot
    cases source with
    | feed => exact hwatched hnot
    | l1 => rfl
  | close =>
    simp only [DriveState.step, isFinite_of_mode hmode] at h
    cases h
    intro hnot
    refine hwatched ?_
    -- the flag is set, and the loop is not between its two reads
    cases hcontrol : s.control with
    | loaded n => exact absurd hcontrol (hunraced n)
    | top | polling _ _ | selecting _ _ _ | processing _ _ | ended _ =>
      rw [hcontrol] at hnot
      exact hnot
  | fire =>
    simp only [DriveState.step] at h
    split at h
    · cases h
      exact hwatched
    · cases h
  | loop => exact hwatched.loop hmode hF hs h
  | closeWins =>
    obtain ⟨n, hcontrol, rfl⟩ := closeWaiting_cases h
    obtain ⟨scheduler, heq, -, -⟩ := closeInput_narrows hmode hF hs.shut
    exact fun hc => hc.elim

theorem Watched.of_reachable {tip : SealedHeader} {n₀ : ℕ} (h : UnracedReachable N (initial N tip n₀) s) :
    Watched s := by
  refine (h.invariant (I := fun s => Bounded N F s ∧ Watched s) (fun s e t hs hstep => ?_)
    ⟨.initial hmode tip n₀, fun hc : False => hc.elim⟩).2
  obtain ⟨hunraced, he⟩ := guarded_eq_some.mp hstep
  exact ⟨hs.1.step hmode hF he, hs.2.step hmode hF hs.1 hunraced he⟩

end Finite

/-- The weight of a state. -/
def weight (s : DriveState β) : ℕ := s.scheduler.weight + s.control.weight

theorem deferTails_length (source : MessageSource) (messages : List (BroadcastFeedMessage β)) :
    (deferTails source messages).length = messages.length := by
  rw [← List.length_map (·.message), deferTails_messages]

theorem resume_weight (s : DriveState β) (nextSequence : ℕ) (watching : Bool) (next : BatchStep β) :
    (s.resume nextSequence watching next).weight ≤ s.scheduler.weight + next.weight + 7 * watching.toNat := by
  cases next with
  | goto pc =>
    simp only [resume, weight, Control.weight, BatchStep.weight]
    omega
  | ret selected =>
    cases selected with
    | none =>
      simp only [resume, weight, Control.weight]
      omega
    | some batch =>
      simp only [resume, weight, Control.weight, BatchStep.weight, deferTails_length]
      omega

section Finite

variable (hmode : N.mode = .finite F) (hF : N.genesisBlock ≤ F)
include hmode hF

/-- **After the close a step of the loop loses weight.** -/
theorem loop_weight (hs : Bounded N F s) (hclosed : s.closed = true) (h : s.loopStep N = some t) :
    t.weight < s.weight := by
  cases LoopCase.of_loopStep h with
  | stop e hcontrol => simp [weight, hcontrol, Control.weight]
  | load n hcontrol =>
    obtain ⟨scheduler, heq, hnarrows, -⟩ := closeIfSet_narrows hmode hF hs.shut
    have hle := hnarrows.weight
    rw [heq]
    simp only [weight, hcontrol, Control.weight]
    omega
  | watch n hcontrol =>
    simp only [weight, hcontrol, Control.weight, hclosed, Bool.not_true, Bool.and_false, Bool.toNat_false]
    omega
  | close n hcontrol =>
    obtain ⟨scheduler, heq, hnarrows, -⟩ := closeInput_narrows hmode hF hs.shut
    have hle := hnarrows.weight
    rw [heq]
    simp only [weight, hcontrol, Control.weight, Bool.toNat_true]
    omega
  | select n w hcontrol =>
    simp only [weight, hcontrol, Control.weight, NextBatch.weight]
    omega
  | advance n w pc next hcontrol hnext =>
    obtain ⟨hfits, -⟩ := hs.fits _ _ _ hcontrol
    have hlt := IngressScheduler.nextBatchStep_weight hfits hnext
    have hle := resume_weight { s with scheduler := next.2 } n w next.1
    have hweight : s.weight = s.scheduler.weight + (pc.weight + 7 * w.toNat) := by
      simp only [weight, hcontrol, Control.weight]
    dsimp only at hle
    omega
  | complete batch hcontrol =>
    obtain ⟨owed, heq⟩ := s.scheduler.completeBatch_eq batch.source batch.kind
    have hsame : (s.scheduler.completeBatch batch.source batch.kind).weight = s.scheduler.weight := by
      rw [heq]
      rfl
    simp only [weight, hcontrol, Control.weight]
    omega
  | process batch message rest hcontrol =>
    obtain ⟨scheduler, hnarrows, hcases⟩ := processMessage_cases hmode hF hs.shut batch message rest
    have hle := hnarrows.weight
    rcases hcases with ⟨e, heq⟩ | ⟨driver, -, heq⟩
    · rw [heq]
      simp only [weight, hcontrol, Control.weight]
      omega
    · rw [heq]
      simp only [weight, hcontrol, Control.weight, List.length_cons]
      omega

theorem closeWaiting_weight (hs : Bounded N F s) (h : s.closeWaiting N = some t) : t.weight < s.weight := by
  obtain ⟨n, hcontrol, rfl⟩ := closeWaiting_cases h
  obtain ⟨scheduler, heq, hnarrows, -⟩ := closeInput_narrows hmode hF hs.shut
  have hle := hnarrows.weight
  rw [heq]
  simp only [weight, hcontrol, Control.weight, NextBatch.weight, Bool.toNat_true]
  omega

end Finite

/-- The loop waits for nothing that does not come: it watches for the close, or the channel was closed. -/
theorem loop_progress (hs : Bounded N F s) (hwatched : Watched s) (hfired : s.fired = true)
    (hnot : ∀ result, s.control ≠ .ended result) : ∃ e, (e = .loop ∨ e = .closeWins) ∧ (s.step N e).isSome = true := by
  cases hcontrol : s.control with
  | top => exact ⟨.loop, Or.inl rfl, by simp [step, loopStep, hcontrol]⟩
  | loaded n => exact ⟨.loop, Or.inl rfl, by simp [step, loopStep, hcontrol]⟩
  | polling n w =>
    refine ⟨.loop, Or.inl rfl, ?_⟩
    simp only [step, loopStep, hcontrol]
    split <;> rfl
  | processing batch rest =>
    cases rest with
    | nil => simp [step, loopStep, hcontrol]
    | cons h rest => simp [step, loopStep, hcontrol]
  | ended result => exact absurd hcontrol (hnot result)
  | selecting n w pc =>
    obtain ⟨hfits, -⟩ := hs.fits _ _ _ hcontrol
    cases pc with
    | fillFeed | fillL1 | choose | filling _ =>
      exact ⟨.loop, Or.inl rfl, by simp [step, loopStep, hcontrol, IngressScheduler.nextBatchStep]⟩
    | waiting =>
      cases w with
      | true => exact ⟨.closeWins, Or.inr rfl, by simp [step, closeWaiting, hcontrol, hfired]⟩
      | false =>
        refine ⟨.loop, Or.inl rfl, ?_⟩
        have hlive : s.scheduler.l1.messages.live = false := by
          refine hwatched ?_
          rw [hcontrol]
          exact rfl
        have hwait : s.scheduler.waitForHead.isSome = true := by
          obtain ⟨-, -, -, hopen⟩ := hfits
          unfold IngressScheduler.waitForHead
          rcases hopen with hopen | hopen
          · have hrecv := Port.recv_isSome hopen hs.feed.2
            cases s.scheduler.owed <;> simp [hrecv]
          · have hrecv := Port.recv_isSome hopen hlive
            cases s.scheduler.owed <;> simp [hrecv]
        simpa [step, loopStep, hcontrol, IngressScheduler.nextBatchStep] using hwait

/-! ### The whole run -/

theorem loop_fired (h : s.loopStep N = some t) : t.fired = s.fired := by
  obtain ⟨scheduler, hset⟩ := closeIfSet_eq N s
  obtain ⟨scheduler', hclose⟩ := closeInput_eq N s
  cases LoopCase.of_loopStep h with
  | stop _ _ | watch _ _ | select _ _ _ | complete _ _ => rfl
  | load _ _ => rw [hset]
  | close _ _ => rw [hclose]
  | advance n w pc next _ _ =>
    cases next.1 with
    | goto pc' => rfl
    | ret selected => cases selected <;> rfl
  | process batch message rest _ =>
    unfold processMessage
    rw [hset]
    cases hok : handOver N.tree N.mode N.genesisBlock s.driver message <;> simp only [hok]

section Finite

variable (hmode : N.mode = .finite F) (hF : N.genesisBlock ≤ F)
include hmode hF

theorem step_weight {e : DriveEvent β} (hs : Bounded N F s) (hfired : s.fired = true) (he : e = .loop ∨ e = .closeWins)
    (h : s.step N e = some t) : t.fired = true ∧ t.weight < s.weight := by
  rcases he with rfl | rfl
  · exact ⟨(loop_fired h).trans hfired, loop_weight hmode hF hs (hs.closed hfired) h⟩
  · refine ⟨?_, closeWaiting_weight hmode hF hs h⟩
    obtain ⟨n, -, rfl⟩ := closeWaiting_cases h
    obtain ⟨scheduler, heq⟩ := closeInput_eq N s
    rw [heq]
    exact hfired

/-- The steps after the close: each is paid for, and the loop is never stuck. -/
theorem steps_weight {events : List (DriveEvent β)} (hs : Bounded N F s) (hwatched : Watched s) (hfired : s.fired = true)
    (hevents : ∀ e ∈ events, e = .loop ∨ e = .closeWins) (h : steps (step N) s events = some t) :
    events.length + t.weight ≤ s.weight ∧ Bounded N F t ∧ Watched t ∧ t.fired = true := by
  induction events generalizing s with
  | nil =>
    cases h
    exact ⟨by simp, hs, hwatched, hfired⟩
  | cons e events ih =>
    obtain ⟨m, hm, h⟩ := Option.bind_eq_some_iff.mp h
    have he := hevents e List.mem_cons_self
    obtain ⟨hfired', hlt⟩ := step_weight hmode hF hs hfired he hm
    have hunraced : s.Unraced e := by
      rcases he with rfl | rfl <;> trivial
    obtain ⟨hle, hlast⟩ := ih (hs.step hmode hF hm) (hwatched.step hmode hF hs hunraced hm) hfired'
      (fun e' he' => hevents e' (List.mem_cons_of_mem _ he')) h
    refine ⟨?_, hlast⟩
    rw [List.length_cons]
    omega

end Finite

/-- **The input of a finite run.**  At the end all of the channel within the bound was handed over, in its order.  If
the close does not fall between the two reads of the flag, the loop ends a bounded number of steps after it. -/
theorem finite_input_handed_over (N : Launch β) (F : ℕ) (hmode : N.mode = .finite F) (hF : N.genesisBlock ≤ F)
    (tip : SealedHeader) (n₀ : ℕ) : (∀ s, Reachable N (initial N tip n₀) s →
      (∀ c ∈ s.calls, c.message.sequenceNumber + N.genesisBlock ≤ F) ∧ (s.calls.map (·.message)).Sublist s.sent ∧
      (s.control = .ended (.ok ()) → s.calls.map (·.message) = s.sent.filter (N.within F))) ∧
    ∀ s, UnracedReachable N (initial N tip n₀) s → s.fired = true →
      ∀ events t, (∀ e ∈ events, e = .loop ∨ e = .closeWins) → steps (step N) s events = some t →
        events.length ≤ s.weight ∧ ((∃ result, t.control = .ended result) ∨
          ∃ e, (e = .loop ∨ e = .closeWins) ∧ (t.step N e).isSome = true) := by
  constructor
  · intro s hreach
    have hs := Bounded.of_reachable hmode hF hreach
    refine ⟨fun c hc => ?_, hs.handed.sublist.trans List.filter_sublist, fun hended => ?_⟩
    · have hmem := hs.handed.subset (List.mem_map_of_mem hc)
      exact of_decide_eq_true (List.mem_filter.mp hmem).2
    · have hleft := hs.left (by rw [hended]; rfl)
      rw [hended, (hs.ended hended).1] at hleft
      simpa [Control.inHand] using hleft
  · intro s hreach hfired events t hevents hsteps
    have hs := Bounded.of_reachable hmode hF hreach.of_guarded
    obtain ⟨hle, ht, hwatched, hfired'⟩ :=
      steps_weight hmode hF hs (.of_reachable hmode hF hreach) hfired hevents hsteps
    refine ⟨by omega, ?_⟩
    by_cases hended : ∃ result, t.control = .ended result
    · exact Or.inl hended
    · exact Or.inr (loop_progress ht hwatched hfired' fun result hc => hended ⟨result, hc⟩)

theorem finite_input_handed_over_one_of_two : ∃ s t : DriveState Unit,
      UnracedReachable ⟨.finite 8, 5, sequentialTree⟩ (initial ⟨.finite 8, 5, sequentialTree⟩ ⟨7, 0, 0⟩ 3) s ∧
      s.sent = [⟨3, 0, ()⟩, ⟨4, 0, ()⟩] ∧ s.fired = true ∧
      steps (step ⟨.finite 8, 5, sequentialTree⟩) s (List.replicate 15 .loop) = some t ∧ 15 ≤ s.weight ∧
      t.control = .ended (.ok ()) ∧ t.calls.map (·.message) = [⟨3, 0, ()⟩] := by
  obtain ⟨s, t, hsteps, hsent, hfired, ht, hended, hsent'⟩ : ∃ s t : DriveState Unit,
      steps (guarded Unraced (step ⟨.finite 8, 5, sequentialTree⟩))
        (initial ⟨.finite 8, 5, sequentialTree⟩ ⟨7, 0, 0⟩ 3)
        [.send .l1 ⟨3, 0, ()⟩, .send .l1 ⟨4, 0, ()⟩, .close, .fire] = some s ∧
      s.sent = [⟨3, 0, ()⟩, ⟨4, 0, ()⟩] ∧ s.fired = true ∧
      steps (step ⟨.finite 8, 5, sequentialTree⟩) s (List.replicate 15 .loop) = some t ∧
      t.control = .ended (.ok ()) ∧ t.sent = [⟨3, 0, ()⟩, ⟨4, 0, ()⟩] :=
    ⟨_, _, rfl, rfl, rfl, rfl, rfl, rfl⟩
  have hs : UnracedReachable ⟨.finite 8, 5, sequentialTree⟩
      (initial ⟨.finite 8, 5, sequentialTree⟩ ⟨7, 0, 0⟩ 3) s := .of_steps _ hsteps
  obtain ⟨hall, hend⟩ := finite_input_handed_over ⟨.finite 8, 5, sequentialTree⟩ 8 rfl (by decide : 5 ≤ 8) ⟨7, 0, 0⟩ 3
  have hloops : ∀ e ∈ List.replicate 15 (DriveEvent.loop : DriveEvent Unit), e = .loop ∨ e = .closeWins := fun e he =>
    Or.inl (List.eq_of_mem_replicate he)
  obtain ⟨hle, -⟩ := hend s hs hfired _ t hloops ht
  obtain ⟨-, -, hcalls⟩ := hall t (hs.of_guarded.trans (.of_steps _ ht))
  refine ⟨s, t, hs, hsent, hfired, ht, hle, hended, ?_⟩
  rw [hcalls hended, hsent']
  rfl

/-- The close falls between the two reads of the flag: the loop waits for the channel, which no one has closed. -/
theorem close_between_reads_is_missed : ∃ s : DriveState Unit, Reachable ⟨.finite 8, 5, sequentialTree⟩
        (initial ⟨.finite 8, 5, sequentialTree⟩ ⟨7, 0, 0⟩ 3) s ∧ s.closed = true ∧ s.fired = true ∧
      (∀ source, s.scheduler.held source = []) ∧ s.scheduler.l1.messages.live = true ∧
      (∃ nextSequence watching, s.control = .selecting nextSequence watching .waiting) ∧
      s.step ⟨.finite 8, 5, sequentialTree⟩ .loop = none ∧ s.step ⟨.finite 8, 5, sequentialTree⟩ .closeWins = none :=
  ⟨_, .of_steps ([.loop, .close, .fire] ++ List.replicate 5 .loop) rfl, rfl, rfl,
    fun source => by cases source <;> rfl, rfl, ⟨_, _, rfl⟩, rfl, rfl⟩

end DriveState

end ArbReth.Node
