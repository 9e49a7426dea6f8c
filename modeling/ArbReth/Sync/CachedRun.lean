import ArbReth.L1.Endpoint
import ArbReth.Sync.Supervise

/-! # Runs over endpoints

The sync loop of `Sync/L1Sync` asks an oracle for the batches and the messages of a window.  Here they come
from the readers of `L1/Endpoint`, whose every request may fail, and the caches of
`derive_from_resolved_cached` are carried from window to window (`CachedSync`).

A `Deployment` is an L1 chain with the contracts of a rollup; `Deployment.Derives` says that all its windows
derive from complete answers.  A `World` is what the requests of one run get.

Such a run is a run of the sync loop in some world of its own (`runCached_refines`), and the supervisor over
such runs is the supervisor of the sync loop (`superviseWorlds_refines`). -/

namespace ArbReth.Sync

open ArbReth.L1 ArbReth.Derive ArbReth.Loop ArbReth.Runs ArbReth.Interrupted ArbReth.Buffered

/-! ### The chain to derive from -/

/-- An L1 chain with the contracts of a rollup on it, and how it is read. -/
structure Deployment where
  codec : Codec
  contracts : Contracts
  chain : Chain
  sequencerInbox : Address
  bridge : Address
  beacon : Option BeaconClient
  delayedWindow : ℕ

namespace Deployment

variable (D : Deployment)

def reader : SequencerInboxReader := ⟨D.contracts, D.chain.toHistory, D.sequencerInbox⟩

/-- The batches the inbox has posted as of a block. -/
def batchCount (n : ℕ) : ℕ := (D.reader.batchLogs 0 n).length

/-- The batches of a range, from complete answers. -/
def resolve (fromBlock toBlock : ℕ) : Except DeriveError (List (DeliveredBatch × Bytes)) :=
  D.reader.resolveBatches (D.beacon.map D.chain.resolveBlobPayload) fromBlock toBlock

/-- The reader has complete answers, in whatever order the fetches complete. -/
def Reads (R : DelayedReader) : Prop :=
  ∀ a b, FetchDelayed D.codec D.contracts D.chain.toHistory D.bridge a b (R a b)

/-- What is carried from window to window. -/
structure Carried where
  cursor : ℕ
  caches : DeriveCaches

/-- A window up to a block, from complete answers; it comes with its reader of delayed messages. -/
def window (fromBlock : ℕ) (s : Carried) (w : ℕ × DelayedReader) : Except DeriveError Carried := do
  let resolved ← D.resolve fromBlock w.1
  let derived ← deriveFromResolvedCached D.codec (D.reader.statsForReportedBatch D.codec) w.2 resolved w.1 s.cursor D.delayedWindow s.caches
  .ok ⟨derived.1.nextDelayedCount, derived.2⟩

/-- Consecutive windows. -/
def windows : ℕ → Carried → List (ℕ × DelayedReader) → Except DeriveError Carried
  | _, s, [] => .ok s
  | fromBlock, s, w :: ws => do
    let s ← D.window fromBlock s w
    windows (w.1 + 1) s ws

/-- The windows cover the blocks from `a` up to before `b`, and are read completely. -/
def Covers : ℕ → List (ℕ × DelayedReader) → ℕ → Prop
  | a, [], b => a = b
  | a, w :: ws, b => a ≤ w.1 ∧ D.Reads w.2 ∧ Covers (w.1 + 1) ws b

/-- A block and the delayed cursor before it: one of some given boundaries, or the end of a window that
starts at such a point. -/
inductive Boundary (starts : List L1ResumeCheckpoint) : ℕ → ℕ → Prop
  | start {cp : L1ResumeCheckpoint} : cp ∈ starts → Boundary starts cp.l1Block cp.delayedCount
  | window {a b d : ℕ} {resolved : List (DeliveredBatch × Bytes)} : Boundary starts a d → a ≤ b →
      D.resolve a b = .ok resolved → Boundary starts (b + 1) (lastCount d resolved)

/-- Every run of windows from such a point derives from complete answers, with the caches carried along. -/
def Derives (starts : List L1ResumeCheckpoint) : Prop :=
  ∀ a d, D.Boundary starts a d → ∀ ws b, D.Covers a ws b → ∃ s, D.windows a ⟨d, .new⟩ ws = .ok s

end Deployment

/-! ### Runs with endpoints and caches -/

/-- The world of a run.  Each piece of work has its own endpoints, by the round and the range or the batch it
is about. -/
structure World where
  provider : Provider
  resolving : ℕ → ℕ → ℕ → ℕ → Endpoint
  reading : ℕ → ℕ → ℕ → ℕ → Endpoint
  schedule : ℕ → ℕ → ℕ → ReadSchedule
  reporting : ℕ → B256 → Endpoint
  taskEnds : ℕ → Bool
  feedOpen : ℕ → Bool
  persistedTip : ℕ → Option ℕ
  save : ℕ → SaveOutcome

/-- What the sync loop sees of an error: whether it is `L1Error::Rpc`. -/
def l1Error : DeriveError → L1Error
  | .rpc => .rpc
  | _ => .decode

/-- A delivered batch as the sync loop sees it. -/
def resolvedBatch (b : DeliveredBatch × Bytes) : ResolvedBatch (DeliveredBatch × Bytes) :=
  ⟨b.1.event.afterDelayedMessagesRead, b⟩

namespace World

variable (D : Deployment) (W : World)

def delayedReader (round : ℕ) : DelayedReader := fun a b =>
  fetchDelayedAt D.codec D.contracts (W.reading round a b) D.bridge a b (W.schedule round a b)

def derive (caches : DeriveCaches) (round : ℕ) (resolved : List (DeliveredBatch × Bytes)) (toBlock delayed : ℕ) :
    Except DeriveError (L1.DerivedRange × DeriveCaches) :=
  deriveFromResolvedCached D.codec
    (fun l1Block seqNum hash => D.reader.statsForReportedBatchAt (W.reporting round hash) D.codec l1Block seqNum hash)
    (W.delayedReader D round) resolved toBlock delayed D.delayedWindow caches

/-- The world as the sync loop sees it while it carries some caches. -/
def env (caches : DeriveCaches) : L1Env (DeliveredBatch × Bytes) FeedBody where
  toProvider := W.provider
  taskEnds := W.taskEnds
  resolveBatches round a b :=
    ((D.reader.resolveBatchesAt (W.resolving round a b) D.beacon a b).map (·.map resolvedBatch)).mapError l1Error
  assemble round resolved toBlock delayed :=
    ((W.derive D caches round (resolved.map (·.contents)) toBlock delayed).map (·.1.messages)).mapError l1Error
  feedOpen := W.feedOpen
  persistedTip := W.persistedTip
  save := W.save

/-- Every request of the run gets the true answer or fails in transport. -/
structure Complete : Prop where
  provider : W.provider.Truthful D.batchCount
  resolving : ∀ round a b i, (W.resolving round a b i).Complete D.chain
  reading : ∀ round a b i, (W.reading round a b i).Complete D.chain
  reporting : ∀ round hash, (W.reporting round hash).Complete D.chain

/-- As before, except that a transaction, a block or a blob sidecar may be reported as not found although
it exists. -/
structure Lagging : Prop where
  provider : W.provider.Truthful D.batchCount
  resolving : ∀ round a b i, (W.resolving round a b i).Lagging D.chain
  reading : ∀ round a b i, (W.reading round a b i).Lagging D.chain
  reporting : ∀ round hash, (W.reporting round hash).Lagging D.chain

end World

/-- The state of a run with the caches it carries. -/
structure CachedSync where
  sync : SyncState FeedBody
  caches : DeriveCaches

variable (D : Deployment) (W : World) (cfg : L1SyncConfig)

/-- The caches after a round: those that deriving the window at the front of the queue leaves. -/
def CachedSync.cachesAfter (x : CachedSync) : DeriveCaches :=
  match x.sync.plan cfg (W.env D x.caches) with
  | .error _ => x.caches
  | .ok s =>
    match s.planner.inflight with
    | [] => x.caches
    | w :: _ =>
      match s.resolve (W.env D x.caches) w with
      | .error _ => x.caches
      | .ok resolved =>
        match W.derive D x.caches s.round (resolved.map (·.contents)) w.toBlock s.delayed with
        | .error _ => x.caches
        | .ok derived => derived.2

/-- One round of the loop with its caches. -/
def cachedBody (x : CachedSync) : Except (L1SyncError × CachedSync) (Option CachedSync) :=
  match syncBody cfg (W.env D x.caches) x.sync with
  | .error (e, s) => .error (e, ⟨s, x.cachesAfter D W cfg⟩)
  | .ok none => .ok none
  | .ok (some s) => .ok (some ⟨s, x.cachesAfter D W cfg⟩)

/-- `run_l1_sync` with fresh caches, for some rounds. -/
def runCached (disk : ResumeFile) (rounds : ℕ) : Progress (L1SyncError × CachedSync) CachedSync :=
  let s := SyncState.init cfg disk
  match cfg.l2Frontier.filter (· ≤ cfg.dbTipL2) with
  | some frontier => .done ⟨{ s with completion := some (.frontierReached frontier) }, .new⟩
  | none =>
    match Planner.start cfg W.provider with
    | .error (e, planner) => .failed (e, ⟨{ s with planner }, .new⟩)
    | .ok planner => iterate (cachedBody D W cfg) rounds ⟨{ s with planner }, .new⟩

/-- The outcome without the caches. -/
def syncOutcome : Progress (L1SyncError × CachedSync) CachedSync →
    Progress (L1SyncError × SyncState FeedBody) (SyncState FeedBody)
  | .running x => .running x.sync
  | .done x => .done x.sync
  | .failed (e, x) => .failed (e, x.sync)

/-- One pass of the supervisor loop over a world. -/
structure WorldAttempt where
  world : World
  tip : Option ℕ
  rounds : ℕ
  tipAfter : Option ℕ
  waits : Bool

/-- The attempt in some world of the sync loop. -/
def WorldAttempt.within (a : WorldAttempt) (E : L1Env (DeliveredBatch × Bytes) FeedBody) :
    Attempt (DeliveredBatch × Bytes) FeedBody :=
  ⟨E, a.tip, a.rounds, a.tipAfter, a.waits⟩

def WorldAttempt.attempt (a : WorldAttempt) : Attempt (DeliveredBatch × Bytes) FeedBody :=
  a.within (a.world.env D .new)

def superviseWorldStep (base : L1SyncConfig) (sup : Supervisor FeedBody) (a : WorldAttempt) :
    Except (Except L1SyncError L1SyncCompletion × Supervisor FeedBody) (Supervisor FeedBody) :=
  match a.tip with
  | none => .error (.error .persistedTip, sup)
  | some persistedL2 =>
    let cfg := sup.config base persistedL2
    let outcome := syncOutcome (runCached D a.world cfg sup.disk a.rounds)
    Supervisor.next ⟨false, outcome.state.disk, sup.runs ++ [(cfg, outcome.state)]⟩ (a.attempt D) outcome

/-- The supervisor over a series of worlds. -/
def superviseWorlds (base : L1SyncConfig) (disk : ResumeFile) (attempts : List WorldAttempt) :
    Except (Except L1SyncError L1SyncCompletion × Supervisor FeedBody) (Supervisor FeedBody) :=
  run (superviseWorldStep D base) ⟨true, disk, []⟩ attempts

variable {D W cfg} {x y : CachedSync} {s s' : SyncState FeedBody}

/-! ### Rounds with caches -/

theorem cachedBody_error {e : L1SyncError} (h : cachedBody D W cfg x = .error (e, y)) :
    x.sync.completion = none ∧ syncRound cfg (W.env D x.caches) x.sync = .error (e, y.sync) := by
  unfold cachedBody syncBody at h
  cases hrun : x.sync.completion with
  | some completion =>
    rw [hrun] at h
    cases h
  | none =>
    rw [hrun] at h
    cases hr : syncRound cfg (W.env D x.caches) x.sync with
    | error e' =>
      rw [hr] at h
      cases h
      exact ⟨rfl, rfl⟩
    | ok t =>
      rw [hr] at h
      cases h

theorem cachedBody_some (h : cachedBody D W cfg x = .ok (some y)) :
    x.sync.completion = none ∧ syncRound cfg (W.env D x.caches) x.sync = .ok y.sync ∧
      y.caches = x.cachesAfter D W cfg := by
  unfold cachedBody syncBody at h
  cases hrun : x.sync.completion with
  | some completion =>
    rw [hrun] at h
    cases h
  | none =>
    rw [hrun] at h
    cases hr : syncRound cfg (W.env D x.caches) x.sync with
    | error e' =>
      rw [hr] at h
      cases h
    | ok t =>
      rw [hr] at h
      cases h
      exact ⟨rfl, rfl, rfl⟩

theorem cachedBody_none (h : cachedBody D W cfg x = .ok none) : syncBody cfg (W.env D x.caches) x.sync = .ok none := by
  unfold cachedBody at h
  cases hb : syncBody cfg (W.env D x.caches) x.sync with
  | error e =>
    rw [hb] at h
    cases h
  | ok o =>
    rw [hb] at h
    cases o with
    | none => rfl
    | some s => cases h

/-! ### They are runs of the sync loop -/

theorem syncOutcome_state (o : Progress (L1SyncError × CachedSync) CachedSync) :
    (syncOutcome o).state = o.state.sync := by
  cases o <;> rfl

section Refinement

variable {E : L1Env (DeliveredBatch × Bytes) FeedBody}

theorem syncBody_congr {f : ℕ → List (ResolvedBatch (DeliveredBatch × Bytes)) → ℕ → ℕ →
    Except L1Error (List (BroadcastFeedMessage FeedBody))} (h : f s.round = E.assemble s.round) :
    syncBody cfg { E with assemble := f } s = syncBody cfg E s := by
  have hconsume : ∀ planner, SyncState.consume cfg { E with assemble := f } { s with planner } =
      SyncState.consume cfg E { s with planner } := by
    intro planner
    cases hfront : planner.inflight with
    | nil => rw [consume_nil hfront, consume_nil hfront]
    | cons w rest =>
      have hderive : ∀ resolved, SyncState.derive { E with assemble := f } { s with planner } w resolved =
          SyncState.derive E { s with planner } w resolved := by
        intro resolved
        unfold SyncState.derive Sync.deriveFromResolved
        cases resolved.getLast? with
        | none => rfl
        | some last =>
          simp only
          rw [h]
      rw [consume_cons hfront, consume_cons hfront]
      simp only [hderive]
      rfl
  have hplan : SyncState.plan cfg { E with assemble := f } s = SyncState.plan cfg E s := rfl
  have hround : syncRound cfg { E with assemble := f } s = syncRound cfg E s := by
    unfold syncRound
    rw [hplan]
    cases hp : SyncState.plan cfg E s with
    | error e => rfl
    | ok t =>
      obtain ⟨planner, -, rfl⟩ := plan_ok hp
      simp only [ok_bind, hconsume]
  unfold syncBody
  rw [hround]

theorem syncRound_round (hrun : s.completion = none) (h : syncRound cfg E s = .ok s') (hrun' : s'.completion = none) :
    s'.round = s.round + 1 := by
  unfold syncRound at h
  split at h
  · unfold finish at h
    cases hf : cfg.l2Frontier with
    | some frontier =>
      rw [hf] at h
      cases h
    | none =>
      rw [hf] at h
      rw [← Except.ok.inj h] at hrun'
      cases hrun'
  · obtain ⟨t, hplan, h₁⟩ := bind_ok.mp h
    obtain ⟨u, hconsume, h₂⟩ := bind_ok.mp h₁
    obtain ⟨planner, -, rfl⟩ := plan_ok hplan
    have hround : Ensures (fun t : SyncState FeedBody => t.round = s.round) (fun _ => True)
        (SyncState.consume cfg E { s with planner }) := consume_ensures hrun rfl trivial (fun _ _ _ _ _ _ => rfl) (fun _ _ _ _ _ _ _ _ => rfl)
      (fun _ _ _ _ _ _ _ => rfl) (fun w rest range d feed _ _ _ => ⟨trivial, fun outcome persisted => by
        obtain ⟨_, _, _, _, hflush⟩ := maybeWriteCheckpoint_frame
          ((SyncState.pop { s with planner } rest range feed).advance w range).queueCheckpoint outcome persisted
        rw [hflush]
        rfl⟩)
    rw [hconsume] at hround
    rw [← Except.ok.inj h₂]
    exact congrArg (· + 1) hround

variable (D W cfg)

/-- The sync loop's world of a run: in each round the caches are those that the run carries then. -/
def runEnv (x₀ : CachedSync) : L1Env (DeliveredBatch × Bytes) FeedBody :=
  { W.env D .new with
    assemble := fun round => (W.env D (iterate (cachedBody D W cfg) round x₀).state.caches).assemble round }

variable {D W cfg}

theorem iterate_cachedBody {x₀ : CachedSync} (n : ℕ) : ∀ {k : ℕ} {x : CachedSync},
    iterate (cachedBody D W cfg) k x₀ = .running x → (x.sync.completion = none → x.sync.round = k) →
      iterate (syncBody cfg (runEnv D W cfg x₀)) n x.sync = syncOutcome (iterate (cachedBody D W cfg) n x) := by
  induction n with
  | zero => exact fun _ _ => rfl
  | succ n ih =>
    intro k x hx hround
    have hbody : syncBody cfg (runEnv D W cfg x₀) x.sync = syncBody cfg (W.env D x.caches) x.sync := by
      cases hrun : x.sync.completion with
      | some completion =>
        unfold syncBody
        rw [hrun]
      | none =>
        refine syncBody_congr (E := W.env D x.caches) ?_
        rw [hround hrun, hx]
        rfl
    cases hb : cachedBody D W cfg x with
    | error e =>
      obtain ⟨hrun, hr⟩ := cachedBody_error hb
      have herror : syncBody cfg (runEnv D W cfg x₀) x.sync = .error (e.1, e.2.sync) := by
        rw [hbody]
        unfold syncBody
        rw [hrun, hr]
        rfl
      rw [iterate_error herror, iterate_error hb]
      rfl
    | ok o =>
      cases o with
      | none =>
        have hnone : syncBody cfg (runEnv D W cfg x₀) x.sync = .ok none := by
          rw [hbody, cachedBody_none hb]
        rw [iterate_none hnone, iterate_none hb]
        rfl
      | some y =>
        obtain ⟨hrun, hr, -⟩ := cachedBody_some hb
        have hsome : syncBody cfg (runEnv D W cfg x₀) x.sync = .ok (some y.sync) := by
          rw [hbody]
          unfold syncBody
          rw [hrun, hr]
          rfl
        rw [iterate_some hsome, iterate_some hb]
        have hk : iterate (cachedBody D W cfg) (k + 1) x₀ = .running y := by
          rw [iterate_add hx, iterate_some hb]
          rfl
        refine ih hk fun hrun' => ?_
        rw [syncRound_round hrun hr hrun', hround hrun]

/-- A run with caches is a run of the sync loop in some world. -/
theorem runCached_refines (D : Deployment) (W : World) (cfg : L1SyncConfig) (disk : ResumeFile) (rounds : ℕ) :
    ∃ E : L1Env (DeliveredBatch × Bytes) FeedBody,
      syncOutcome (runCached D W cfg disk rounds) = runL1Sync cfg E disk rounds := by
  unfold runCached runL1Sync
  simp only
  cases cfg.l2Frontier.filter (· ≤ cfg.dbTipL2) with
  | some frontier => exact ⟨W.env D .new, rfl⟩
  | none =>
    cases hp : Planner.start cfg W.provider with
    | error e =>
      refine ⟨W.env D .new, ?_⟩
      have hstart : Planner.start cfg (W.env D .new).toProvider = .error e := hp
      simp only [hstart]
      rfl
    | ok planner =>
      refine ⟨runEnv D W cfg ⟨{ SyncState.init cfg disk with planner }, .new⟩, ?_⟩
      have hstart : Planner.start cfg (runEnv D W cfg ⟨{ SyncState.init cfg disk with planner }, .new⟩).toProvider =
          .ok planner := hp
      simp only [hstart]
      exact (iterate_cachedBody rounds (k := 0) rfl fun _ => rfl).symm

theorem superviseWorldStep_refines (D : Deployment) (base : L1SyncConfig) (sup : Supervisor FeedBody)
    (a : WorldAttempt) : ∃ E : L1Env (DeliveredBatch × Bytes) FeedBody,
      superviseWorldStep D base sup a = superviseStep base sup (a.within E) := by
  have htip : ∀ E, (a.within E).tip = a.tip := fun _ => rfl
  have hrounds : ∀ E, (a.within E).rounds = a.rounds := fun _ => rfl
  unfold superviseWorldStep superviseStep
  simp only [htip, hrounds]
  cases a.tip with
  | none => exact ⟨a.world.env D .new, rfl⟩
  | some tip =>
    obtain ⟨E, hE⟩ := runCached_refines D a.world (sup.config base tip) sup.disk a.rounds
    refine ⟨E, ?_⟩
    simp only [hE]
    rfl

/-- The supervisor over worlds is the supervisor of the sync loop. -/
theorem superviseWorlds_refines (D : Deployment) (base : L1SyncConfig) (disk : ResumeFile) (attempts : List WorldAttempt) :
    ∃ envs : List (L1Env (DeliveredBatch × Bytes) FeedBody), envs.length = attempts.length ∧
      superviseWorlds D base disk attempts =
        superviseL1Sync base disk (List.zipWith WorldAttempt.within attempts envs) := by
  unfold superviseWorlds superviseL1Sync
  generalize (⟨true, disk, []⟩ : Supervisor FeedBody) = sup
  induction attempts generalizing sup with
  | nil => exact ⟨[], rfl, rfl⟩
  | cons a attempts ih =>
    obtain ⟨E, hE⟩ := superviseWorldStep_refines D base sup a
    cases hs : superviseWorldStep D base sup a with
    | error e =>
      refine ⟨E :: attempts.map fun a => a.world.env D .new, by simp, ?_⟩
      show (superviseWorldStep D base sup a >>= _) = (superviseStep base sup (a.within E) >>= _)
      rw [← hE, hs]
      rfl
    | ok sup' =>
      obtain ⟨envs, hlen, h⟩ := ih sup'
      refine ⟨E :: envs, by simp [hlen], ?_⟩
      show (superviseWorldStep D base sup a >>= _) = (superviseStep base sup (a.within E) >>= _)
      rw [← hE, hs]
      exact h

end Refinement

end ArbReth.Sync
