import ArbReth.Primitives
import ArbReth.Lib.Loop
import ArbReth.Sync.Planner
import ArbReth.Sync.ResumeLog

/-! # The L1 derivation loop

`run_l1_sync` (`arb-reth-sync/src/l1_sync.rs`) plans windows of L1 blocks (`Planner`), takes the
oldest one in flight, derives its messages, numbers them and sends them on the feed channel, and
queues the boundary it has reached for the resume log.

The loop has no bound: `runL1Sync` runs it for a number of rounds.  The provider, the assembly of messages, the feed
channel, the durable tip and the file system are an oracle (`L1Env`) asked with the round, so each of them can answer or
fail in any way at any time.  A failure carries the state in which it happened.

`SyncStep` says what the loop does, piece by piece: every round is a sequence of such steps
(`syncBody_steps`), so an invariant of the run is one of the steps (`runL1Sync_state`).

`derived` and `recorded` are history: the messages of each window that was derived, and each boundary
put in the log with the durable tip read at that time. -/

namespace ArbReth.Sync

open ArbReth.L1 ArbReth.Loop ArbReth.Runs

/-! ### Derivation -/

/-- A delivered batch with its payload; the loop reads only its delayed cursor. -/
structure ResolvedBatch (γ : Type) where
  afterDelayedMessagesRead : ℕ
  contents : γ
deriving DecidableEq, Repr

structure DerivedRange (β : Type) where
  messages : List (BroadcastFeedMessage β)
  nextDelayedCount : ℕ
  batches : ℕ
deriving DecidableEq, Repr

/-- The world of a run; all but the provider are asked with the round. -/
structure L1Env (γ β : Type) extends Provider where
  /-- Whether the prefetch task of the window ends normally. -/
  taskEnds : ℕ → Bool
  /-- The batches of a range of L1 blocks. -/
  resolveBatches : ℕ → ℕ → ℕ → Except L1Error (List (ResolvedBatch γ))
  /-- The messages of some batches, up to an L1 block, with the delayed cursor before them. -/
  assemble : ℕ → List (ResolvedBatch γ) → ℕ → ℕ → Except L1Error (List (BroadcastFeedMessage β))
  /-- Whether the channel takes a message, by the number of those it has taken. -/
  feedOpen : ℕ → Bool
  persistedTip : ℕ → Option ℕ
  save : ℕ → SaveOutcome

variable {γ β : Type}

/-- `derive_from_resolved_cached`.  An empty range leaves the delayed cursor where it was. -/
def deriveFromResolved (E : L1Env γ β) (round : ℕ) (resolved : List (ResolvedBatch γ))
    (toBlock startDelayedCount : ℕ) : Except L1Error (DerivedRange β) :=
  match resolved.getLast? with
  | none => .ok ⟨[], startDelayedCount, 0⟩
  | some last => do
    let messages ← E.assemble round resolved toBlock startDelayedCount
    .ok ⟨messages, last.afterDelayedMessagesRead, resolved.length⟩

/-! ### Delivery -/

inductive L1SyncCompletion where
  | exhausted
  | frontierReached (frontier : ℕ)
deriving DecidableEq, Repr

structure WindowDelivery where
  skipped : ℕ := 0
  frontierReached : Option L1SyncCompletion := none
deriving DecidableEq, Repr

/-- The number of the next block, and what has been sent on the channel. -/
structure Feed (β : Type) where
  nextL2 : ℕ
  sent : List (BroadcastFeedMessage β)
deriving DecidableEq, Repr

/-- Number and send the messages of one window, up to the frontier; an error is a closed channel. -/
def enqueueDerivedWindow (cfg : L1SyncConfig) (feedOpen : ℕ → Bool) :
    List (BroadcastFeedMessage β) → WindowDelivery → Feed β → Except Unit WindowDelivery × Feed β
  | [], delivery, f => (.ok delivery, f)
  | msg :: messages, delivery, ⟨bn, sent⟩ =>
    if bn ≤ cfg.dbTipL2 then
      enqueueDerivedWindow cfg feedOpen messages { delivery with skipped := delivery.skipped + 1 }
        ⟨bn + 1, sent⟩
    else if feedOpen sent.length then
      let sent := sent ++ [{ msg with sequenceNumber := bn - cfg.genesisBlock }]
      if cfg.l2Frontier = some bn then
        (.ok { delivery with frontierReached := some (.frontierReached bn) }, ⟨bn + 1, sent⟩)
      else enqueueDerivedWindow cfg feedOpen messages delivery ⟨bn + 1, sent⟩
    else (.error (), ⟨bn + 1, sent⟩)

/-! ### The loop -/

structure SyncState (β : Type) where
  planner : Planner
  delayed : ℕ
  consumeCursor : ℕ
  feed : Feed β
  pendingCkpt : List L1ResumeCheckpoint
  resumeLog : L1ResumeLog
  /-- The file at the checkpoint path. -/
  disk : ResumeFile
  round : ℕ
  /-- What the run returns, once that is decided. -/
  completion : Option L1SyncCompletion
  derived : List (List (BroadcastFeedMessage β))
  recorded : List (L1ResumeCheckpoint × ℕ)
deriving DecidableEq, Repr

namespace SyncState

/-- The variables before the first request. -/
def init (cfg : L1SyncConfig) (disk : ResumeFile) : SyncState β where
  planner := Planner.init cfg
  delayed := cfg.startDelayedCount
  consumeCursor := cfg.startBlock
  feed := ⟨cfg.startL2Block + 1, []⟩
  pendingCkpt := []
  resumeLog := if cfg.checkpointing then disk.loaded else ⟨[]⟩
  disk
  round := 0
  completion := none
  derived := []
  recorded := []

/-- The window at the front has been derived and leaves the queue. -/
def pop (s : SyncState β) (rest : List Window) (range : DerivedRange β) (feed : Feed β) : SyncState β :=
  { s with
    planner := { s.planner with inflight := rest }
    feed
    derived := s.derived ++ [range.messages] }

/-- The window is fully delivered. -/
def advance (s : SyncState β) (w : Window) (range : DerivedRange β) : SyncState β :=
  { s with delayed := range.nextDelayedCount, consumeCursor := w.toBlock + 1 }

/-- Queue the boundary that has been reached. -/
def queueCheckpoint (s : SyncState β) : SyncState β :=
  { s with pendingCkpt := s.pendingCkpt ++ [⟨s.consumeCursor, s.delayed, s.feed.nextL2 - 1⟩] }

/-- Put every durable boundary at the front of the queue in the log, and rewrite the file. -/
def maybeWriteCheckpoint (s : SyncState β) (outcome : SaveOutcome) (persisted : ℕ) : SyncState β :=
  let durable := s.pendingCkpt.takeWhile (·.l2Block ≤ persisted)
  if durable.isEmpty then s
  else
    { s with
      pendingCkpt := s.pendingCkpt.dropWhile (·.l2Block ≤ persisted)
      resumeLog := s.resumeLog.recordAll durable
      disk := s.disk.save (s.resumeLog.recordAll durable) outcome
      recorded := s.recorded ++ durable.map (·, persisted) }

variable (cfg : L1SyncConfig) (E : L1Env γ β)

/-- The checkpoint step after a fully delivered window. -/
def checkpoint (s : SyncState β) : Except (L1SyncError × SyncState β) (SyncState β) :=
  if cfg.checkpointing then
    match E.persistedTip s.round with
    | none => .error (.persistedTip, s.queueCheckpoint)
    | some persisted => .ok (s.queueCheckpoint.maybeWriteCheckpoint (E.save s.round) persisted)
  else .ok s

/-- Deliver a derived window; the run ends at a closed channel and at the frontier. -/
def deliver (s : SyncState β) (w : Window) (rest : List Window) (range : DerivedRange β) :
    Except (L1SyncError × SyncState β) (SyncState β) :=
  match enqueueDerivedWindow cfg E.feedOpen range.messages {} s.feed with
  | (.error _, feed) => .ok { s.pop rest range feed with completion := some .exhausted }
  | (.ok delivery, feed) =>
    match delivery.frontierReached with
    | some completion => .ok { s.pop rest range feed with completion := some completion }
    | none => ((s.pop rest range feed).advance w range).checkpoint cfg E

/-- The batches of the window; there are none in an empty one. -/
def resolve (s : SyncState β) (w : Window) :
    Except (L1SyncError × SyncState β) (List (ResolvedBatch γ)) :=
  if E.taskEnds s.round then
    if w.scanned then
      (E.resolveBatches s.round w.fromBlock w.toBlock).mapError (fun e => (.l1 .resolveBatches e, s))
    else .ok []
  else .error (.prefetchTask w.fromBlock w.toBlock, s)

def derive (s : SyncState β) (w : Window) (resolved : List (ResolvedBatch γ)) :
    Except (L1SyncError × SyncState β) (DerivedRange β) :=
  (deriveFromResolved E s.round resolved w.toBlock s.delayed).mapError
    (fun e => (.l1 .deriveFromResolved e, s))

def plan (s : SyncState β) : Except (L1SyncError × SyncState β) (SyncState β) :=
  match s.planner.plan cfg E.toProvider with
  | .error (e, planner) => .error (e, { s with planner })
  | .ok planner => .ok { s with planner }

/-- Consume the oldest window in flight; without one the loop sleeps. -/
def consume (s : SyncState β) : Except (L1SyncError × SyncState β) (SyncState β) :=
  match s.planner.inflight with
  | [] => .ok s
  | w :: rest => do
    let resolved ← s.resolve E w
    let range ← s.derive E w resolved
    s.deliver cfg E w rest range

end SyncState

/-- The end of the range. -/
def finish (cfg : L1SyncConfig) (s : SyncState β) : Except (L1SyncError × SyncState β) (SyncState β) :=
  match cfg.l2Frontier with
  | some frontier => .error (.frontierNotReached frontier (s.feed.nextL2 - 1), s)
  | none => .ok { s with completion := some .exhausted }

/-- One round of the loop. -/
def syncRound (cfg : L1SyncConfig) (E : L1Env γ β) (s : SyncState β) :
    Except (L1SyncError × SyncState β) (SyncState β) :=
  if cfg.pastEnd s.consumeCursor then finish cfg s
  else do
    let s ← s.plan cfg E
    let s ← s.consume cfg E
    .ok { s with round := s.round + 1 }

/-- The loop body: once the result is decided the run returns. -/
def syncBody (cfg : L1SyncConfig) (E : L1Env γ β) (s : SyncState β) :
    Except (L1SyncError × SyncState β) (Option (SyncState β)) :=
  match s.completion with
  | some _ => .ok none
  | none => do
    let s ← syncRound cfg E s
    .ok (some s)

/-- A run for some rounds.  With a frontier that is already durable it returns at once. -/
def runL1Sync (cfg : L1SyncConfig) (E : L1Env γ β) (disk : ResumeFile) (rounds : ℕ) :
    Progress (L1SyncError × SyncState β) (SyncState β) :=
  let s := SyncState.init cfg disk
  match cfg.l2Frontier.filter (· ≤ cfg.dbTipL2) with
  | some frontier => .done { s with completion := some (.frontierReached frontier) }
  | none =>
    match Planner.start cfg E.toProvider with
    | .error (e, planner) => .failed (e, { s with planner })
    | .ok planner => iterate (syncBody cfg E) rounds { s with planner }

/-! ### What the loop does -/

variable {cfg : L1SyncConfig} {E : L1Env γ β} {s s' : SyncState β}

/-- A window at the front of the queue was derived and its messages handed to the channel. -/
structure Consumed (cfg : L1SyncConfig) (E : L1Env γ β) (s : SyncState β) (w : Window)
    (rest : List Window) (range : DerivedRange β) (result : Except Unit WindowDelivery)
    (feed : Feed β) : Prop where
  running : s.completion = none
  front : s.planner.inflight = w :: rest
  derived : ∃ resolved, s.resolve E w = .ok resolved ∧ s.derive E w resolved = .ok range
  delivered : enqueueDerivedWindow cfg E.feedOpen range.messages {} s.feed = (result, feed)

/-- A piece of a round. -/
inductive SyncStep (cfg : L1SyncConfig) (E : L1Env γ β) : SyncState β → SyncState β → Prop
  | exhaust (s : SyncState β) (hrun : s.completion = none) (hend : cfg.l2Frontier = none) :
      SyncStep cfg E s { s with completion := some .exhausted }
  | plan (s : SyncState β) (planner : Planner)
      (h : Leaves (s.planner.plan cfg E.toProvider) planner) : SyncStep cfg E s { s with planner }
  | tick (s : SyncState β) : SyncStep cfg E s { s with round := s.round + 1 }
  /-- The channel is closed. -/
  | close {s : SyncState β} {w : Window} {rest : List Window} {range : DerivedRange β} {u : Unit}
      {feed : Feed β} (h : Consumed cfg E s w rest range (.error u) feed) :
      SyncStep cfg E s { s.pop rest range feed with completion := some .exhausted }
  /-- The frontier is reached. -/
  | reach {s : SyncState β} {w : Window} {rest : List Window} {range : DerivedRange β}
      {d : WindowDelivery} {feed : Feed β} {completion : L1SyncCompletion}
      (h : Consumed cfg E s w rest range (.ok d) feed) (hd : d.frontierReached = some completion) :
      SyncStep cfg E s { s.pop rest range feed with completion := some completion }
  /-- A window is fully delivered. -/
  | advance {s : SyncState β} {w : Window} {rest : List Window} {range : DerivedRange β}
      {d : WindowDelivery} {feed : Feed β}
      (h : Consumed cfg E s w rest range (.ok d) feed) (hd : d.frontierReached = none) :
      SyncStep cfg E s ((s.pop rest range feed).advance w range)
  | queue (s : SyncState β) (hrun : s.completion = none) (h : cfg.checkpointing = true) :
      SyncStep cfg E s s.queueCheckpoint
  | flush (s : SyncState β) (outcome : SaveOutcome) (persisted : ℕ) :
      SyncStep cfg E s (s.maybeWriteCheckpoint outcome persisted)

/-- A flush changes nothing but the log, its queue and its file. -/
theorem maybeWriteCheckpoint_frame (s : SyncState β) (outcome : SaveOutcome) (persisted : ℕ) :
    ∃ pendingCkpt resumeLog disk recorded, s.maybeWriteCheckpoint outcome persisted =
      { s with pendingCkpt, resumeLog, disk, recorded } := by
  unfold SyncState.maybeWriteCheckpoint
  simp only
  split
  · exact ⟨s.pendingCkpt, s.resumeLog, s.disk, s.recorded, rfl⟩
  · exact ⟨_, _, _, _, rfl⟩

open Relation (ReflTransGen)

theorem plan_of_ok {planner : Planner} (h : s.planner.plan cfg E.toProvider = .ok planner) :
    s.plan cfg E = .ok { s with planner } := by
  unfold SyncState.plan
  rw [h]

theorem plan_ok (h : s.plan cfg E = .ok s') :
    ∃ planner, s.planner.plan cfg E.toProvider = .ok planner ∧ s' = { s with planner } := by
  unfold SyncState.plan at h
  cases hp : s.planner.plan cfg E.toProvider with
  | error e =>
    rw [hp] at h
    cases h
  | ok planner =>
    rw [hp] at h
    exact ⟨planner, rfl, (Except.ok.inj h).symm⟩

theorem plan_error {e : L1SyncError} (h : s.plan cfg E = .error (e, s')) :
    ∃ planner, s.planner.plan cfg E.toProvider = .error (e, planner) ∧ s' = { s with planner } := by
  unfold SyncState.plan at h
  cases hp : s.planner.plan cfg E.toProvider with
  | error e' =>
    rw [hp] at h
    cases h
    exact ⟨e'.2, rfl, rfl⟩
  | ok planner =>
    rw [hp] at h
    cases h

theorem plan_steps (h : Leaves (s.plan cfg E) s') : SyncStep cfg E s s' ∧ s'.completion = s.completion := by
  rcases h with h | ⟨e, h⟩
  · obtain ⟨planner, hp, rfl⟩ := plan_ok h
    exact ⟨.plan s planner (Or.inl hp), rfl⟩
  · obtain ⟨planner, hp, rfl⟩ := plan_error h
    exact ⟨.plan s planner (Or.inr ⟨e, hp⟩), rfl⟩

theorem consume_nil (h : s.planner.inflight = []) : s.consume cfg E = .ok s := by
  unfold SyncState.consume
  rw [h]

theorem consume_cons {w : Window} {rest : List Window} (h : s.planner.inflight = w :: rest) :
    s.consume cfg E = s.resolve E w >>= fun resolved => s.derive E w resolved >>= s.deliver cfg E w rest := by
  unfold SyncState.consume
  rw [h]

theorem resolve_ensures (s : SyncState β) (w : Window) : Ensures (fun _ => True) (· = s) (s.resolve E w) := by
  unfold SyncState.resolve
  split
  · split
    · cases E.resolveBatches s.round w.fromBlock w.toBlock with
      | error e => exact rfl
      | ok bs => exact trivial
    · exact trivial
  · exact rfl

theorem derive_ensures (s : SyncState β) (w : Window) (bs : List (ResolvedBatch γ)) :
    Ensures (fun _ => True) (· = s) (s.derive E w bs) := by
  unfold SyncState.derive
  cases deriveFromResolved E s.round bs w.toBlock s.delayed with
  | error e => exact rfl
  | ok range => exact trivial

/-- What a round does after planning: nothing, or the front window ends the run, or it is delivered and its boundary
flushed. -/
theorem consume_ensures {Q I : SyncState β → Prop} (hrun : s.completion = none) (hidle : Q s) (hfail : I s)
    (hclose : ∀ w rest range u feed, Consumed cfg E s w rest range (.error u) feed →
      Q { s.pop rest range feed with completion := some .exhausted })
    (hreach : ∀ w rest range d feed completion, Consumed cfg E s w rest range (.ok d) feed →
      d.frontierReached = some completion →
      Q { s.pop rest range feed with completion := some completion })
    (hadvance : ∀ w rest range d feed, Consumed cfg E s w rest range (.ok d) feed →
      d.frontierReached = none → Q ((s.pop rest range feed).advance w range))
    (hqueue : ∀ w rest range d feed, Consumed cfg E s w rest range (.ok d) feed →
      d.frontierReached = none → cfg.checkpointing = true →
      I ((s.pop rest range feed).advance w range).queueCheckpoint ∧
        ∀ outcome persisted, Q (((s.pop rest range feed).advance w range).queueCheckpoint.maybeWriteCheckpoint
          outcome persisted)) :
    Ensures Q I (s.consume cfg E) := by
  cases hw : s.planner.inflight with
  | nil =>
    rw [consume_nil hw]
    exact hidle
  | cons w rest =>
    have hres := resolve_ensures (E := E) s w
    rw [consume_cons hw]
    cases hr : s.resolve E w with
    | error e =>
      rw [hr] at hres
      show I e.2
      rw [show e.2 = s from hres]
      exact hfail
    | ok resolved =>
      have hder := derive_ensures (E := E) s w resolved
      show Ensures Q I (s.derive E w resolved >>= s.deliver cfg E w rest)
      cases hd : s.derive E w resolved with
      | error e =>
        rw [hd] at hder
        show I e.2
        rw [show e.2 = s from hder]
        exact hfail
      | ok range =>
        show Ensures Q I (s.deliver cfg E w rest range)
        unfold SyncState.deliver
        cases hdel : enqueueDerivedWindow cfg E.feedOpen range.messages {} s.feed with
        | mk result feed =>
          have hcons : Consumed cfg E s w rest range result feed :=
            ⟨hrun, hw, ⟨resolved, hr, hd⟩, hdel⟩
          cases result with
          | error u => exact hclose w rest range u feed hcons
          | ok d =>
            simp only
            cases hfr : d.frontierReached with
            | some completion => exact hreach w rest range d feed completion hcons hfr
            | none =>
              show Ensures Q I (((s.pop rest range feed).advance w range).checkpoint cfg E)
              unfold SyncState.checkpoint
              split
              · rename_i hck
                obtain ⟨h1, h2⟩ := hqueue w rest range d feed hcons hfr hck
                cases E.persistedTip ((s.pop rest range feed).advance w range).round with
                | none => exact h1
                | some persisted => exact h2 _ _
              · exact hadvance w rest range d feed hcons hfr

theorem consume_steps (hrun : s.completion = none) (h : Leaves (s.consume cfg E) s') :
    ReflTransGen (SyncStep cfg E) s s' := by
  refine Ensures.leaves (Q := ReflTransGen (SyncStep cfg E) s) (consume_ensures hrun .refl .refl
    (fun _ _ _ _ _ hc => .single (.close hc)) (fun _ _ _ _ _ _ hc hd => .single (.reach hc hd))
    (fun _ _ _ _ _ hc hd => .single (.advance hc hd)) (fun w rest range d feed hc hd hck => ?_)) h
  have hqueue : ReflTransGen (SyncStep cfg E) s
      ((s.pop rest range feed).advance w range).queueCheckpoint :=
    .head (.advance hc hd) (.single (.queue _ hc.running hck))
  exact ⟨hqueue, fun outcome persisted => hqueue.tail (.flush _ outcome persisted)⟩

/-- Every round is a sequence of steps, whether it succeeds or fails. -/
theorem syncRound_steps (hrun : s.completion = none) (h : Leaves (syncRound cfg E s) s') :
    ReflTransGen (SyncStep cfg E) s s' := by
  unfold syncRound at h
  split at h
  · unfold finish at h
    cases hf : cfg.l2Frontier with
    | some frontier =>
      rw [hf] at h
      rcases h with h | ⟨e, h⟩
      · cases h
      · rw [← (Prod.mk.inj (Except.error.inj h)).2]
    | none =>
      rw [hf] at h
      rcases h with h | ⟨e, h⟩
      · rw [← Except.ok.inj h]
        exact .single (.exhaust s hrun hf)
      · cases h
  · obtain ⟨e, he⟩ | ⟨s₁, hplan, h⟩ := Leaves.bind h
    · exact .single (plan_steps (Or.inr ⟨e, he⟩)).1
    · obtain ⟨hstep, hcompl⟩ := plan_steps (Or.inl hplan)
      rw [hrun] at hcompl
      obtain ⟨e, he⟩ | ⟨s₂, hcons, h⟩ := Leaves.bind h
      · exact .head hstep (consume_steps hcompl (Or.inr ⟨e, he⟩))
      · rcases h with h | ⟨e, h⟩
        · rw [← Except.ok.inj h]
          exact .head hstep ((consume_steps hcompl (Or.inl hcons)).tail (.tick s₂))
        · cases h

theorem start_error {e : L1SyncError} {p : Planner} (h : Planner.start cfg E.toProvider = .error (e, p)) :
    p = Planner.init cfg := by
  unfold Planner.start at h
  split at h
  · cases h
  · unfold Planner.countAt at h
    cases hb : batchCount E.toProvider (Planner.init cfg).clock (cfg.startBlock - 1) with
    | error e' =>
      rw [hb] at h
      exact (Prod.mk.inj (Except.error.inj h)).2.symm
    | ok out =>
      rw [hb] at h
      cases h

/-- A property that every step keeps holds in the last state of the loop. -/
theorem iterate_syncBody_state (I : SyncState β → Prop) (h0 : I s)
    (hstep : ∀ s s', I s → SyncStep cfg E s s' → I s') (rounds : ℕ) : I (iterate (syncBody cfg E) rounds s).state := by
  have hsteps : ∀ s s', I s → ReflTransGen (SyncStep cfg E) s s' → I s' := by
    intro s s' hs h
    induction h with
    | refl => exact hs
    | tail _ hlast ih => exact hstep _ _ ih hlast
  refine iterate_state I h0 (fun t ht => ?_) rounds
  unfold syncBody
  cases hrun : t.completion with
  | some c => exact fun t' h => nomatch h
  | none =>
    cases hr : syncRound cfg E t with
    | error e => exact hsteps t e.2 ht (syncRound_steps hrun (Or.inr ⟨e.1, hr⟩))
    | ok t₁ =>
      intro t' h
      rw [← Option.some.inj h]
      exact hsteps t t₁ ht (syncRound_steps hrun (Or.inl hr))

/-- **The invariant rule of a run.**  `I` holds once the planner has started and is kept by every
step; `J` is what it implies, and what holds if the loop is not entered. -/
theorem runL1Sync_state {disk : ResumeFile} (I J : SyncState β → Prop) (hIJ : ∀ s, I s → J s)
    (hinit : cfg.l2Frontier.filter (· ≤ cfg.dbTipL2) = none → J (.init cfg disk))
    (hdurable : ∀ f, cfg.l2Frontier = some f → f ≤ cfg.dbTipL2 →
      J { SyncState.init cfg disk with completion := some (.frontierReached f) })
    (hstart : cfg.l2Frontier.filter (· ≤ cfg.dbTipL2) = none →
      ∀ planner, Planner.start cfg E.toProvider = .ok planner →
        I { SyncState.init cfg disk with planner })
    (hstep : ∀ s s', I s → SyncStep cfg E s s' → I s') (rounds : ℕ) :
    J (runL1Sync cfg E disk rounds).state := by
  unfold runL1Sync
  simp only
  cases hf : cfg.l2Frontier.filter (· ≤ cfg.dbTipL2) with
  | some f =>
    rw [Option.filter_eq_some_iff] at hf
    exact hdurable f hf.1 (by simpa using hf.2)
  | none =>
    simp only
    cases hs : Planner.start cfg E.toProvider with
    | error e =>
      obtain ⟨e, p⟩ := e
      obtain rfl := start_error hs
      exact hinit hf
    | ok planner => exact hIJ _ (iterate_syncBody_state I (hstart hf planner hs) hstep rounds)

end ArbReth.Sync
