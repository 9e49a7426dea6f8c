import ArbReth.Sync.OnTrack

/-! # Outages

What ends a supervised sync is decided by one error variant (`L1SyncError::is_retryable`), after an error
has come up through the resolution of batches, the reading of delayed messages, the retrieval of blobs
and the seeding of report statistics.

Over an L1 chain all of whose windows derive from complete answers, a failed request is the only thing that
can make deriving fail (`runCached_fails`), and that failure is retried (`supervise_outages_retried`).

A request that is answered with "not found" is another matter: it is not a transport failure, and ends
the supervision (`lagging_transaction_ends_supervision`). -/

namespace ArbReth.Sync

open ArbReth.L1 ArbReth.Derive ArbReth.Loop ArbReth.Runs ArbReth.Interrupted ArbReth.Buffered

variable {D : Deployment} {W : World} {cfg : L1SyncConfig} {x y : CachedSync} {s s' : SyncState FeedBody}
  {caches : DeriveCaches} {starts : List L1ResumeCheckpoint} {w : Window} {rest : List Window}

/-! ### How a run fails -/

/-- What explains a failure other than one of the derivation. -/
def World.Explains (W : World) (cfg : L1SyncConfig) : L1SyncError → Prop
  | .provider _ => True
  | .derivation _ => False
  | .persistedTip => ∃ round, W.persistedTip round = none
  | .prefetchTask _ _ => ∃ round, W.taskEnds round = false
  | .frontierNotReached frontier _ => cfg.l2Frontier = some frontier ∧ cfg.endBlock.isSome = true

theorem deliver_fails (s : SyncState FeedBody) (w : Window) (rest : List Window) (range : DerivedRange FeedBody) :
    FailsOnly (fun e => W.Explains cfg e.1) (s.deliver cfg (W.env D caches) w rest range) := by
  unfold SyncState.deliver
  cases enqueueDerivedWindow cfg (W.env D caches).feedOpen range.messages {} s.feed with
  | mk result feed =>
    cases result with
    | error u => exact FailsOnly.ok _
    | ok d =>
      simp only
      cases d.frontierReached with
      | some completion => exact FailsOnly.ok _
      | none =>
        simp only [SyncState.checkpoint]
        split
        · cases htip : (W.env D caches).persistedTip ((s.pop rest range feed).advance w range).round with
          | none =>
            intro e h
            rw [← Except.error.inj h]
            exact ⟨_, htip⟩
          | some persisted => exact FailsOnly.ok _
        · exact FailsOnly.ok _

theorem consume_fails (hW : W.Complete D) (hD : D.Derives starts)
    (hstart : D.Boundary starts cfg.startBlock cfg.startDelayedCount) (hs : OnTrack D starts cfg s)
    (hc : Consistent D cfg s caches) (hrun : s.completion = none) :
    FailsOnly (fun e => W.Explains cfg e.1) (s.consume cfg (W.env D caches)) := by
  cases hfront : s.planner.inflight with
  | nil =>
    rw [consume_nil hfront]
    exact FailsOnly.ok _
  | cons w rest =>
    rw [consume_cons hfront]
    obtain ⟨-, hle, -⟩ := hs.front hrun hfront
    obtain ⟨resolved, hresolved, hcases⟩ := hs.resolve hW hD hrun hfront caches
    intro e h
    rcases hcases with hcase | hcase | ⟨htask, hcase⟩
    · rw [hcase, ok_bind] at h
      rcases bind_error.mp h with herr | ⟨range, -, h⟩
      · obtain ⟨err, hder, he⟩ := derive_env_error herr
        rcases hc.derive hW hD hstart hrun hle hresolved with hrpc | ⟨out, hout, -⟩
        · cases hder.symm.trans hrpc
          rw [he]
          trivial
        · rw [hder] at hout
          cases hout
      · exact deliver_fails s w rest range e h
    · rw [hcase] at h
      rw [← Except.error.inj h]
      trivial
    · rw [hcase] at h
      rw [← Except.error.inj h]
      exact ⟨s.round, htask⟩

theorem syncRound_fails (hW : W.Complete D) (hD : D.Derives starts)
    (hstart : D.Boundary starts cfg.startBlock cfg.startDelayedCount) (hs : OnTrack D starts cfg s)
    (hc : Consistent D cfg s caches) (hrun : s.completion = none) :
    FailsOnly (fun e => W.Explains cfg e.1) (syncRound cfg (W.env D caches) s) := by
  unfold syncRound
  split
  · rename_i hend
    unfold finish
    cases hf : cfg.l2Frontier with
    | none => exact FailsOnly.ok _
    | some frontier =>
      intro e h
      rw [← Except.error.inj h]
      refine ⟨hf, ?_⟩
      unfold L1SyncConfig.pastEnd at hend
      cases hb : cfg.endBlock with
      | none =>
        rw [hb] at hend
        cases hend
      | some b => rfl
  · intro e h
    rcases bind_error.mp h with hplan | ⟨t, hplan, h⟩
    · obtain ⟨planner, hp, -⟩ := plan_error hplan
      obtain ⟨operation, he⟩ := Planner.plan_fails s.planner _ hp
      rw [show e.1 = .provider operation from he]
      trivial
    · have ht : OnTrack D starts cfg t := step_onTrack hW hD hs (plan_steps (Or.inl hplan)).1
      obtain ⟨planner, -, rfl⟩ := plan_ok hplan
      rcases bind_error.mp h with hcons | ⟨u, -, h⟩
      · exact consume_fails hW hD hstart ht hc hrun e hcons
      · cases h

variable {E : L1Env (DeliveredBatch × Bytes) FeedBody}

theorem syncRound_resolve_error {planner : Planner} {err : L1Error}
    (hend : cfg.pastEnd s.consumeCursor = false) (hplan : s.planner.plan cfg E.toProvider = .ok planner)
    (hfront : planner.inflight = w :: rest) (htask : E.taskEnds s.round = true) (hscan : w.scanned = true)
    (hresolve : E.resolveBatches s.round w.fromBlock w.toBlock = .error err) :
    syncRound cfg E s = .error (.l1 .resolveBatches err, { s with planner }) := by
  have hfails : SyncState.resolve E { s with planner } w = .error (.l1 .resolveBatches err, { s with planner }) := by
    unfold SyncState.resolve
    rw [if_pos htask, if_pos hscan, hresolve]
    rfl
  unfold syncRound
  rw [hend, plan_of_ok hplan, ok_bind, consume_cons hfront, hfails]
  rfl

/-! ### What a round keeps -/

/-- A property that the steps of every round keep is kept by the round. -/
theorem cachedBody_ensures {I : SyncState FeedBody → Prop}
    (hstep : ∀ caches s s', I s → SyncStep cfg (W.env D caches) s s' → I s') (hx : I x.sync) :
    Ensures (fun o => ∀ y : CachedSync, o = some y → I y.sync) (fun y => I y.sync) (cachedBody D W cfg x) := by
  have hsteps : ∀ t, Leaves (syncRound cfg (W.env D x.caches) x.sync) t → x.sync.completion = none → I t := by
    intro t ht hrun
    have h := syncRound_steps hrun ht
    clear ht
    induction h with
    | refl => exact hx
    | tail _ hlast ih => exact hstep _ _ _ ih hlast
  cases hb : cachedBody D W cfg x with
  | error e =>
    obtain ⟨hrun, hr⟩ := cachedBody_error hb
    exact hsteps _ (Or.inr ⟨e.1, hr⟩) hrun
  | ok o =>
    intro y hy
    rw [hy] at hb
    obtain ⟨hrun, hr, -⟩ := cachedBody_some hb
    exact hsteps _ (Or.inl hr) hrun

theorem deliver_ok {range : DerivedRange FeedBody}
    (h : s.deliver cfg E w rest range = .ok s') (hrun : s'.completion = none) :
    s'.consumeCursor = w.toBlock + 1 ∧ s'.delayed = range.nextDelayedCount := by
  unfold SyncState.deliver at h
  cases hdel : enqueueDerivedWindow cfg E.feedOpen range.messages {} s.feed with
  | mk result feed =>
    rw [hdel] at h
    cases result with
    | error u =>
      cases h
      cases hrun
    | ok d =>
      simp only at h
      cases hfr : d.frontierReached with
      | some completion =>
        rw [hfr] at h
        cases h
        cases hrun
      | none =>
        simp only [hfr, SyncState.checkpoint] at h
        split at h
        · cases htip : E.persistedTip ((s.pop rest range feed).advance w range).round with
          | none =>
            rw [htip] at h
            cases h
          | some persisted =>
            rw [htip] at h
            obtain ⟨_, _, _, _, hflush⟩ := maybeWriteCheckpoint_frame
              ((s.pop rest range feed).advance w range).queueCheckpoint
              (E.save ((s.pop rest range feed).advance w range).round) persisted
            cases h
            rw [hflush]
            exact ⟨rfl, rfl⟩
        · cases h
          exact ⟨rfl, rfl⟩

/-- A round that goes on carries the caches of the derivation from complete answers. -/
theorem cachedBody_consistent (hW : W.Complete D) (hD : D.Derives starts)
    (hstart : D.Boundary starts cfg.startBlock cfg.startDelayedCount) (hs : OnTrack D starts cfg x.sync)
    (hc : Consistent D cfg x.sync x.caches) (h : cachedBody D W cfg x = .ok (some y)) :
    Consistent D cfg y.sync y.caches := by
  obtain ⟨hrun, hr, hcaches⟩ := cachedBody_some h
  intro hrun'
  unfold syncRound at hr
  split at hr
  · unfold finish at hr
    cases hf : cfg.l2Frontier with
    | some frontier =>
      rw [hf] at hr
      cases hr
    | none =>
      rw [hf] at hr
      rw [← Except.ok.inj hr] at hrun'
      cases hrun'
  · obtain ⟨t, hplan, hr⟩ := bind_ok.mp hr
    obtain ⟨u, hcons, hr⟩ := bind_ok.mp hr
    have ht : OnTrack D starts cfg t := step_onTrack hW hD hs (plan_steps (Or.inl hplan)).1
    have hu := Except.ok.inj hr
    rw [← hu] at hrun' ⊢
    unfold CachedSync.cachesAfter at hcaches
    rw [hplan] at hcaches
    obtain ⟨planner, -, rfl⟩ := plan_ok hplan
    have hct : Consistent D cfg { x.sync with planner } x.caches := hc
    cases hfront : planner.inflight with
    | nil =>
      simp only [hfront] at hcaches
      rw [consume_nil hfront] at hcons
      rw [hcaches, ← Except.ok.inj hcons]
      exact hc hrun
    | cons w rest =>
      simp only [hfront] at hcaches
      rw [consume_cons hfront] at hcons
      obtain ⟨batches, hbatches, hcons⟩ := bind_ok.mp hcons
      obtain ⟨range, hrange, hcons⟩ := bind_ok.mp hcons
      obtain ⟨hcursor, hdelayed⟩ := deliver_ok hcons hrun'
      obtain ⟨-, hle, -⟩ := ht.front hrun hfront
      obtain ⟨resolved, hresolved, rfl⟩ := ht.resolve_ok hW hD hrun hfront hbatches
      obtain ⟨⟨out, hout⟩, hnext⟩ := derive_env_ok hrange
      simp only [hbatches, map_contents, hout] at hcaches
      rcases hct.derive hW hD hstart hrun hle hresolved with herr | ⟨out', hout', hconsistent⟩
      · rw [herr] at hout
        cases hout
      · cases hout.symm.trans hout'
        rw [hcaches]
        exact hconsistent _ hcursor (hdelayed.trans hnext) hrun'

/-! ### Whole runs -/

variable {disk : ResumeFile} {rounds : ℕ}

theorem runCached_logged (D : Deployment) (W : World) (cfg : L1SyncConfig) (disk : ResumeFile) (rounds : ℕ) :
    Logged cfg disk (runCached D W cfg disk rounds).state.sync := by
  obtain ⟨E, hE⟩ := runCached_refines D W cfg disk rounds
  rw [← syncOutcome_state, hE]
  exact run_logged cfg E disk rounds

/-- The boundaries a run has reached, whether its loop was entered or not. -/
theorem runCached_reached (hW : W.Complete D) (hD : D.Derives starts)
    (hstart : D.Boundary starts cfg.startBlock cfg.startDelayedCount) (disk : ResumeFile) (rounds : ℕ) :
    ∀ cp ∈ (runCached D W cfg disk rounds).state.sync.reached, D.Boundary starts cp.l1Block cp.delayedCount := by
  unfold runCached
  cases cfg.l2Frontier.filter (· ≤ cfg.dbTipL2) with
  | some frontier => exact fun _ h => nomatch h
  | none =>
    cases hp : Planner.start cfg W.provider with
    | error e => exact fun _ h => nomatch h
    | ok planner =>
      have hinv := iterate_state (fun x : CachedSync => OnTrack D starts cfg x.sync)
        (s := ⟨{ SyncState.init cfg disk with planner }, .new⟩) (OnTrack.start hW hstart disk hp)
        (fun x hx => cachedBody_ensures (fun _ _ _ hs h => step_onTrack hW hD hs h) hx) rounds
      exact hinv.reached

variable {e : L1SyncError}

/-- **A failed run** can be explained without the derivation. -/
theorem runCached_fails (hW : W.Complete D) (hD : D.Derives starts)
    (hstart : D.Boundary starts cfg.startBlock cfg.startDelayedCount) (h : runCached D W cfg disk rounds = .failed (e, y)) : W.Explains cfg e := by
  unfold runCached at h
  cases hf : cfg.l2Frontier.filter (· ≤ cfg.dbTipL2) with
  | some frontier =>
    rw [hf] at h
    cases h
  | none =>
    rw [hf] at h
    cases hp : Planner.start cfg W.provider with
    | error e' =>
      rw [hp] at h
      obtain ⟨operation, he'⟩ := Planner.start_fails cfg W.provider e' hp
      cases h
      rw [he']
      trivial
    | ok planner =>
      rw [hp] at h
      obtain ⟨m, x, -, hx, herr⟩ := iterate_failed_error h
      have hcaches : Consistent D cfg { SyncState.init cfg disk with planner } .new := fun _ => ⟨[], rfl, rfl⟩
      have hinv := iterate_invariant
        (fun x : CachedSync => OnTrack D starts cfg x.sync ∧ Consistent D cfg x.sync x.caches)
        ⟨OnTrack.start hW hstart disk hp, hcaches⟩ (fun t t' ht hb => ?_) hx
      · obtain ⟨hrun, hr⟩ := cachedBody_error herr
        exact syncRound_fails hW hD hstart hinv.1 hinv.2 hrun _ hr
      · have hens := cachedBody_ensures (I := OnTrack D starts cfg)
          (fun _ _ _ hs h => step_onTrack hW hD hs h) ht.1
        rw [hb] at hens
        exact ⟨hens t' rfl, cachedBody_consistent hW hD hstart ht.1 ht.2 hb⟩

theorem runCached_first_error {planner : Planner} (hfrontier : cfg.l2Frontier = none)
    (hstart : Planner.start cfg W.provider = .ok planner)
    (hround : syncRound cfg (W.env D .new) { SyncState.init cfg disk with planner } = .error (e, s)) :
    ∃ x, runCached D W cfg disk 1 = .failed (e, x) := by
  have hbody : ∃ x, cachedBody D W cfg ⟨{ SyncState.init cfg disk with planner }, .new⟩ = .error (e, x) := by
    unfold cachedBody syncBody
    rw [hround]
    exact ⟨_, rfl⟩
  obtain ⟨x, hx⟩ := hbody
  refine ⟨x, ?_⟩
  unfold runCached
  rw [hfrontier]
  simp only [hstart]
  exact iterate_error hx

/-! ### Supervision -/

variable {base : L1SyncConfig} {sup : Supervisor FeedBody}

/-- The next attempt starts at a boundary. -/
def Supervisor.AtBoundary (D : Deployment) (starts : List L1ResumeCheckpoint) (sup : Supervisor FeedBody) : Prop :=
  ∀ cp ∈ sup.disk.loaded.checkpoints, D.Boundary starts cp.l1Block cp.delayedCount

theorem Supervisor.AtBoundary.config (hs : sup.AtBoundary D starts) (hbase : base.start ∈ starts) (tip : ℕ) :
    D.Boundary starts (sup.config base tip).startBlock (sup.config base tip).startDelayedCount := by
  have hmem := config_start_mem base sup tip
  rcases List.mem_cons.mp hmem with h | h
  · have hboundary := Deployment.Boundary.start (D := D) hbase
    rw [← h] at hboundary
    exact hboundary
  · exact hs _ h

variable {a : WorldAttempt}

theorem superviseWorldStep_atBoundary (hD : D.Derives starts) (hbase : base.start ∈ starts)
    (hs : sup.AtBoundary D starts) (ha : a.world.Complete D) :
    Ensures (Supervisor.AtBoundary D starts) (Supervisor.AtBoundary D starts) (superviseWorldStep D base sup a) := by
  unfold superviseWorldStep
  cases a.tip with
  | none => exact hs
  | some tip =>
    have hreached := runCached_reached ha hD (hs.config hbase tip) sup.disk a.rounds
    refine next_ensures (I := Supervisor.AtBoundary D starts) (fun cp hcp => ?_) (a.attempt D) _
    rw [syncOutcome_state] at hcp
    rcases (runCached_logged D a.world _ sup.disk a.rounds).mem_file hcp with hcp | ⟨persisted, hcp⟩
    · exact hs cp hcp
    · exact hreached cp (List.mem_append_left _ (List.mem_map_of_mem hcp))

theorem superviseWorlds_atBoundary (hD : D.Derives starts) (hbase : base.start ∈ starts)
    (hdisk : disk.loaded.checkpoints ⊆ starts) {attempts : List WorldAttempt}
    (hattempts : ∀ a ∈ attempts, a.world.Complete D) :
    (endState (superviseWorlds D base disk attempts)).AtBoundary D starts :=
  run_endState (Supervisor.AtBoundary D starts) (fun _ hcp => .start (hdisk hcp))
    fun a ha _ hs => superviseWorldStep_atBoundary hD hbase hs (hattempts a ha)

/-- What a supervised attempt can return as an error: that of a run which is not retried, or the durable tip. -/
theorem superviseWorldStep_error {sup' : Supervisor FeedBody}
    (h : superviseWorldStep D base sup a = .error (.error e, sup')) : e = .persistedTip ∨ ∃ tip x, a.tip = some tip ∧
      runCached D a.world (sup.config base tip) sup.disk a.rounds = .failed (e, x) := by
  unfold superviseWorldStep at h
  cases htip : a.tip with
  | none =>
    rw [htip] at h
    obtain ⟨he, -⟩ := Prod.mk.inj (Except.error.inj h)
    exact Or.inl (Except.error.inj he).symm
  | some tip =>
    rw [htip] at h
    simp only at h
    cases hout : runCached D a.world (sup.config base tip) sup.disk a.rounds with
    | running x =>
      rw [hout] at h
      cases h
    | done x =>
      rw [hout] at h
      cases h
    | failed f =>
      obtain ⟨e', x⟩ := f
      rw [hout] at h
      simp only [syncOutcome, Supervisor.next] at h
      split at h
      · cases hafter : (a.attempt D).tipAfter with
        | none =>
          rw [hafter] at h
          obtain ⟨he, -⟩ := Prod.mk.inj (Except.error.inj h)
          exact Or.inl (Except.error.inj he).symm
        | some tip' =>
          rw [hafter] at h
          simp only at h
          split at h
          · cases h
          · cases h
      · obtain ⟨he, -⟩ := Prod.mk.inj (Except.error.inj h)
        cases he
        exact Or.inr ⟨tip, x, rfl, hout⟩

/-- After a provider failure the supervisor goes on with the file the attempt has left. -/
theorem superviseWorldStep_retries {tip tipAfter : ℕ} {operation : Operation} {x : CachedSync}
    (htip : a.tip = some tip) (hafter : a.tipAfter = some tipAfter) (hwaits : a.waits = true)
    (h : runCached D a.world (sup.config base tip) sup.disk a.rounds = .failed (.provider operation, x)) :
    ∃ sup', superviseWorldStep D base sup a = .ok sup' ∧ sup'.firstAttempt = false ∧ sup'.disk = x.sync.disk := by
  refine ⟨⟨false, x.sync.disk, sup.runs ++ [(sup.config base tip, x.sync)]⟩, ?_, rfl, rfl⟩
  have hafter' : (a.attempt D).tipAfter = some tipAfter := hafter
  have hwaits' : (a.attempt D).waits = true := hwaits
  unfold superviseWorldStep
  rw [htip]
  simp only [h, syncOutcome, Supervisor.next, L1SyncError.isRetryable, hafter', hwaits', if_true, Progress.state]

theorem superviseWorldStep_stops {tip : ℕ} {x : CachedSync} (htip : a.tip = some tip)
    (h : runCached D a.world (sup.config base tip) sup.disk a.rounds = .failed (e, x)) (hstops : e.isRetryable = false) :
    ∃ sup', superviseWorldStep D base sup a = .error (.error e, sup') := by
  refine ⟨⟨false, x.sync.disk, sup.runs ++ [(sup.config base tip, x.sync)]⟩, ?_⟩
  unfold superviseWorldStep
  rw [htip]
  simp only [h, syncOutcome, Supervisor.next, hstops, Progress.state, Bool.false_eq_true, if_false]

theorem superviseWorlds_explains {attempts pre post : List WorldAttempt} {tip : ℕ}
    {x : CachedSync} (hD : D.Derives (base.start :: disk.loaded.checkpoints))
    (hcomplete : ∀ a ∈ attempts, a.world.Complete D) (hsplit : attempts = pre ++ a :: post)
    (hpre : superviseWorlds D base disk pre = .ok sup)
    (h : runCached D a.world (sup.config base tip) sup.disk a.rounds = .failed (e, x)) :
    a.world.Explains (sup.config base tip) e := by
  have hboundary : (endState (superviseWorlds D base disk pre)).AtBoundary D (base.start :: disk.loaded.checkpoints) :=
    superviseWorlds_atBoundary hD List.mem_cons_self (List.subset_cons_self _ _)
      (fun b hb => hcomplete b (by rw [hsplit]; exact List.mem_append_left _ hb))
  rw [hpre] at hboundary
  have ha : a ∈ attempts := by
    rw [hsplit]
    exact List.mem_append_right _ List.mem_cons_self
  exact runCached_fails (hcomplete a ha) hD (Supervisor.AtBoundary.config hboundary List.mem_cons_self tip) h

/-- **Outages are retried.**  If every request gets the complete answer or fails in transport, the supervisor never
returns an error of the derivation, and after a failure of the provider it goes on from the newest durable boundary. -/
theorem supervise_outages_retried (D : Deployment) (base : L1SyncConfig) (disk : ResumeFile)
    (attempts : List WorldAttempt) (hderives : D.Derives (base.start :: disk.loaded.checkpoints))
    (hcomplete : ∀ a ∈ attempts, a.world.Complete D) :
    (∀ e sup, superviseWorlds D base disk attempts = .error (.error e, sup) → ∀ operation, e ≠ .derivation operation) ∧
      ∀ pre a post sup tip e x, attempts = pre ++ a :: post → superviseWorlds D base disk pre = .ok sup →
        a.tip = some tip → runCached D a.world (sup.config base tip) sup.disk a.rounds = .failed (e, x) →
        a.world.Explains (sup.config base tip) e ∧ ∀ operation, e = .provider operation → e.isRetryable = true ∧
            ∀ tipAfter, a.tipAfter = some tipAfter → a.waits = true →
              ∃ sup', superviseWorlds D base disk (pre ++ [a]) = .ok sup' ∧
                ∀ tip', sup'.config base tip' = resumeConfig base x.sync.disk tip' := by
  refine ⟨fun e sup h operation he => ?_, fun pre a post sup tip e x hsplit hpre htip hfail => ⟨?_, ?_⟩⟩
  · obtain ⟨pre, a, post, m, hsplit, hpre, hstep⟩ := run_error_split h
    rcases superviseWorldStep_error hstep with hpersisted | ⟨tip, x, -, hfail⟩
    · rw [hpersisted] at he
      cases he
    · have hexplains := superviseWorlds_explains hderives hcomplete hsplit hpre hfail
      rw [he] at hexplains
      exact hexplains
  · exact superviseWorlds_explains hderives hcomplete hsplit hpre hfail
  · rintro operation rfl
    refine ⟨rfl, fun tipAfter hafter hwaits => ?_⟩
    obtain ⟨sup', hsup', hfirst, hdisk⟩ := superviseWorldStep_retries htip hafter hwaits hfail
    refine ⟨sup', run_snoc_ok.mpr ⟨sup, hpre, hsup'⟩, fun tip' => ?_⟩
    unfold Supervisor.config
    rw [hfirst, hdisk]
    rfl

/-! ### One batch -/

namespace OneBatch

/-- The log of a batch whose data is in the calldata of transaction 5. -/
def posting : Log where
  address := 3
  event := .sequencerBatchDelivered
  indexed := [0, 0, 0]
  data := List.replicate 224 0
  blockNumber := some 1
  logIndex := some 0
  transactionHash := some 5

def chain : Chain where
  logs n := if n = 1 then [posting] else []
  transactions hash := if hash = 5 then some ⟨[1, 2, 3, 4], none⟩ else none
  timestamp _ := none
  sidecars _ := []
  genesis := rfl

/-- A rollup with one batch, in block 1, that holds no message. -/
def deployment : Deployment where
  codec := plainCodec
  contracts := { plainContracts with origin := ⟨[1, 2, 3, 4], fun _ => some []⟩ }
  chain
  sequencerInbox := 3
  bridge := 2
  beacon := none
  delayedWindow := 1

def batch : DeliveredBatch × Bytes := (⟨0, 0, 0, ⟨0, 0, 0, 0, 0, 0, 0⟩, .calldata []⟩, [])

theorem resolveOne_posting : deployment.reader.resolveOne none posting = .ok batch := by
  decide +kernel

theorem mem_logs {n : ℕ} {log : Log} (h : log ∈ chain.logs n) : n = 1 ∧ log = posting := by
  have hlogs : log ∈ if n = 1 then [posting] else [] := h
  split at hlogs
  · exact ⟨‹_›, List.mem_singleton.mp hlogs⟩
  · cases hlogs

theorem resolve_ok (a b : ℕ) : ∃ resolved, deployment.resolve a b = .ok resolved ∧ ∀ r ∈ resolved, r = batch := by
  have hone : ∀ log ∈ (deployment.reader.batchLogs a b).mergeSort SequencerInboxReader.logBefore,
      deployment.reader.resolveOne none log = .ok batch := by
    intro log hlog
    rw [List.mem_mergeSort] at hlog
    obtain ⟨⟨n, -, -, hmem⟩, -⟩ := History.mem_getLogs.mp hlog
    rw [(mem_logs hmem).2]
    exact resolveOne_posting
  obtain ⟨resolved, hresolved⟩ := exists_mapM_ok.mpr fun log hlog => ⟨batch, hone log hlog⟩
  refine ⟨resolved, (SequencerInboxReader.resolveBatches_eq _ _ _ _).trans hresolved, fun r hr => ?_⟩
  obtain ⟨log, hlog, hr⟩ := mapM_ok_mem hresolved hr
  exact Except.ok.inj (hr.symm.trans (hone log hlog))

variable {resolved : List (DeliveredBatch × Bytes)}

theorem lastCount_zero (h : ∀ r ∈ resolved, r = batch) : lastCount 0 resolved = 0 := by
  unfold lastCount
  cases hlast : resolved.getLast? with
  | none => rfl
  | some last =>
    rw [h last (List.mem_of_getLast? hlast)]
    rfl

theorem batch_ok (s : Assembly) (h : s.before = 0) :
    ∃ t, s.batch plainCodec noDelayed batch = .ok t ∧ t.before = 0 := by
  have hdecode : decodePayloadMessages plainCodec batch.1.event.batchHeader batch.2 0 noDelayed = .ok [] := by
    decide +kernel
  unfold Assembly.batch batchToFeedMessages
  rw [h]
  exact ⟨_, rfl, rfl⟩

theorem assemble_ok (h : ∀ r ∈ resolved, r = batch) (s : Assembly)
    (hs : s.before = 0) : ∃ t, run (Assembly.batch plainCodec noDelayed) s resolved = .ok t := by
  induction resolved generalizing s with
  | nil => exact ⟨s, rfl⟩
  | cons r resolved ih =>
    obtain rfl := h r List.mem_cons_self
    obtain ⟨t, ht, hbefore⟩ := batch_ok s hs
    obtain ⟨u, hu⟩ := ih (fun r hr => h r (List.mem_cons_of_mem _ hr)) t hbefore
    exact ⟨u, run_cons_ok.mpr ⟨t, ht, hu⟩⟩

theorem window_ok (a : ℕ) (c : DeriveCaches) (w : ℕ × DelayedReader) :
    ∃ c', deployment.window a ⟨0, c⟩ w = .ok ⟨0, c'⟩ := by
  obtain ⟨resolved, hresolved, hbatches⟩ := resolve_ok a w.1
  have hlast := lastCount_zero hbatches
  have hderive : ∃ out, deriveFromResolvedCached plainCodec (deployment.reader.statsForReportedBatch plainCodec) w.2
      resolved w.1 0 1 c = .ok out := by
    unfold deriveFromResolvedCached deriveFromResolvedCachedM
    unfold lastCount at hlast
    cases hl : resolved.getLast? with
    | none => exact ⟨_, rfl⟩
    | some last =>
      rw [hl] at hlast
      obtain ⟨t, ht⟩ := assemble_ok hbatches ⟨.empty, 0, 0, []⟩ rfl
      have hcursor : last.1.event.afterDelayedMessagesRead ≤ 0 := Nat.le_of_eq hlast
      simp only [if_pos hcursor]
      unfold assembleFeedMessagesWithSeed
      rw [ht]
      exact ⟨_, rfl⟩
  obtain ⟨out, hout⟩ := hderive
  refine ⟨out.2, ?_⟩
  have hnext := (deriveFromResolvedCached_nextDelayedCount hout).trans hlast
  refine bind_ok.mpr ⟨resolved, hresolved, bind_ok.mpr ⟨out, hout, ?_⟩⟩
  rw [hnext]

theorem derives {starts : List L1ResumeCheckpoint} (hstarts : ∀ cp ∈ starts, cp.delayedCount = 0) :
    deployment.Derives starts := by
  have hwindows : ∀ ws a c, ∃ s, deployment.windows a ⟨0, c⟩ ws = .ok s := by
    intro ws
    induction ws with
    | nil => exact fun a c => ⟨_, rfl⟩
    | cons w ws ih =>
      intro a c
      obtain ⟨c', hc'⟩ := window_ok a c w
      obtain ⟨s, hs⟩ := ih (w.1 + 1) c'
      exact ⟨s, bind_ok.mpr ⟨_, hc', hs⟩⟩
  have hzero : ∀ a d, deployment.Boundary starts a d → d = 0 := by
    intro a d h
    induction h with
    | start hcp => exact hstarts _ hcp
    | @window a b d resolved _ _ hresolved ih =>
      obtain ⟨resolved', hresolved', hbatches⟩ := resolve_ok a b
      cases hresolved.symm.trans hresolved'
      rw [ih]
      exact lastCount_zero hbatches
  intro a d h ws b _
  rw [hzero a d h]
  exact hwindows ws a .new

theorem batchCount_le (n : ℕ) : deployment.batchCount n ≤ 1 := by
  have hlater : ∀ n, deployment.reader.batchLogs (n + 2) (n + 2) = [] := by
    refine fun n => List.eq_nil_iff_forall_not_mem.mpr fun log hlog => ?_
    obtain ⟨⟨m, hge, -, hmem⟩, -⟩ := History.mem_getLogs.mp hlog
    have hm : m = 1 := (mem_logs hmem).1
    have hge' : n + 2 ≤ m := hge
    omega
  have hone : deployment.batchCount 1 = 1 := by decide +kernel
  cases n with
  | zero => exact (batchCount_monotone (Nat.zero_le 1)).trans_eq hone
  | succ n =>
    induction n with
    | zero => exact Nat.le_of_eq hone
    | succ n ih =>
      rw [batchCount_succ, hlater]
      exact ih

/-- The execution layer, whose head is block 1. -/
def provider : Provider := ⟨fun _ => some 1, fun _ n => some (word (deployment.batchCount n))⟩

/-- A world in which the batches are resolved over some endpoint and everything else is answered. -/
def world (resolving : Endpoint) : World where
  provider
  resolving _ _ _ _ := resolving
  reading _ _ _ _ := chain.endpoint
  schedule _ _ _ := ⟨fun logs => logs, fun logs => .inOrder (by decide) logs, true, true⟩
  reporting _ _ := chain.endpoint
  taskEnds _ := true
  feedOpen _ := true
  persistedTip _ := some 0
  save _ := .saved

theorem provider_truthful : provider.Truthful deployment.batchCount :=
  ⟨fun n => (batchCount_le n).trans_lt (by decide), fun _ _ _ h => Or.inl (Option.some.inj h).symm⟩

/-- An endpoint that does not answer. -/
def down : Endpoint := ⟨fun _ => none, fun _ => none, fun _ => none, fun _ _ => .transient⟩

/-- An endpoint that does not know any transaction yet. -/
def lagging : Endpoint := { chain.endpoint with getTransactionByHash := fun _ => some none }

theorem world_complete {resolving : Endpoint} (h : resolving.Complete chain) : (world resolving).Complete deployment :=
  ⟨provider_truthful, fun _ _ _ _ => h, fun _ _ _ _ => chain.endpoint_complete,
    fun _ _ => chain.endpoint_complete⟩

theorem down_complete : down.Complete chain :=
  ⟨fun _ _ h => (nomatch h), fun _ _ h => (nomatch h), fun _ _ h => (nomatch h), fun _ _ _ h => (nomatch h)⟩

theorem world_lagging : (world lagging).Lagging deployment := by
  have hlagging : lagging.Lagging chain :=
    { chain.endpoint_complete.lagging with
      getTransactionByHash := fun _ _ h => Or.inl (Option.some.inj h).symm }
  exact ⟨provider_truthful, fun _ _ _ _ => hlagging, fun _ _ _ _ => chain.endpoint_complete.lagging,
    fun _ _ => chain.endpoint_complete.lagging⟩

/-- A run from block 1. -/
def fromOne : L1SyncConfig := { L1SyncConfig.small with startBlock := 1 }

def attempt (resolving : Endpoint) : WorldAttempt := ⟨world resolving, some 0, 1, some 0, true⟩

theorem start_ok : Planner.start fromOne provider = .ok ⟨1, 0, 0, 0, [], 1, []⟩ :=
  toOption_eq_some.mp (by decide +kernel)

theorem plan_window : (⟨1, 0, 0, 0, [], 1, []⟩ : Planner).plan fromOne provider =
    .ok ⟨2, 1, 1, 1, [⟨1, 1, true⟩], 3, [⟨⟨1, 1, true⟩, 1, 2, 1⟩]⟩ :=
  toOption_eq_some.mp (by decide +kernel)

theorem runCached_failed {resolving : Endpoint} {err : DeriveError}
    (h : deployment.reader.resolveBatchesAt (fun _ => resolving) none 1 1 = .error err) :
    ∃ x, runCached deployment (world resolving) fromOne .absent 1 = .failed (.l1 .resolveBatches (l1Error err), x) := by
  have hresolve : ((world resolving).env deployment .new).resolveBatches 0 1 1 = .error (l1Error err) := by
    show ((deployment.reader.resolveBatchesAt (fun _ => resolving) none 1 1).map (·.map resolvedBatch)).mapError
      l1Error = .error (l1Error err)
    rw [h]
    rfl
  have hround := syncRound_resolve_error (s := { SyncState.init fromOne .absent with planner := ⟨1, 0, 0, 0, [], 1, []⟩ })
    (E := (world resolving).env deployment .new) rfl plan_window rfl rfl rfl hresolve
  exact runCached_first_error rfl start_ok hround

theorem supervise_outages_retried_down :
    (∃ x, runCached deployment (world down) fromOne .absent 1 = .failed (.provider .resolveBatches, x) ∧
      ∃ sup, superviseWorlds deployment fromOne .absent [attempt down] = .ok sup ∧
        ∀ tip, sup.config fromOne tip = resumeConfig fromOne x.sync.disk tip) ∧
    ∀ e sup, superviseWorlds deployment fromOne .absent [attempt down, attempt chain.endpoint] =
      .error (.error e, sup) → ∀ operation, e ≠ .derivation operation := by
  have hderives : deployment.Derives (fromOne.start :: ResumeFile.absent.loaded.checkpoints) :=
    derives fun cp hcp => by
      obtain rfl := List.mem_singleton.mp hcp
      rfl
  have hcomplete : ∀ a ∈ [attempt down, attempt chain.endpoint], a.world.Complete deployment := by
    intro a ha
    rcases List.mem_cons.mp ha with rfl | ha
    · exact world_complete down_complete
    · obtain rfl := List.mem_singleton.mp ha
      exact world_complete chain.endpoint_complete
  obtain ⟨hnever, hretried⟩ := supervise_outages_retried deployment fromOne .absent
    [attempt down, attempt chain.endpoint] hderives hcomplete
  have hdown : deployment.reader.resolveBatchesAt (fun _ => down) none 1 1 = .error .rpc := rfl
  obtain ⟨x, hx⟩ := runCached_failed hdown
  refine ⟨⟨x, hx, ?_⟩, hnever⟩
  obtain ⟨-, hprovider⟩ := hretried [] (attempt down) [attempt chain.endpoint] ⟨true, .absent, []⟩ 0 _ x rfl rfl rfl hx
  exact (hprovider _ rfl).2 0 rfl rfl

theorem resolveBatchesAt_lagging : deployment.reader.resolveBatchesAt (fun _ => lagging) none 1 1 =
    .error (.missing "posting transaction") := by
  decide +kernel

/-- A posting transaction that exists but is reported as not found: the supervision ends with an error of the
derivation. -/
theorem lagging_transaction_ends_supervision :
    deployment.Derives (fromOne.start :: ResumeFile.absent.loaded.checkpoints) ∧ (world lagging).Lagging deployment ∧
    ∃ sup, superviseWorlds deployment fromOne .absent [attempt lagging] =
      .error (.error (.derivation .resolveBatches), sup) := by
  refine ⟨derives fun cp hcp => ?_, world_lagging, ?_⟩
  · obtain rfl := List.mem_singleton.mp hcp
    rfl
  · obtain ⟨x, hx⟩ := runCached_failed resolveBatchesAt_lagging
    have hstops : ∃ sup, superviseWorldStep deployment fromOne ⟨true, .absent, []⟩ (attempt lagging) =
        .error (.error (.derivation .resolveBatches), sup) := superviseWorldStep_stops rfl hx rfl
    obtain ⟨sup, hsup⟩ := hstops
    refine ⟨sup, ?_⟩
    unfold superviseWorlds run
    rw [hsup]
    rfl

end OneBatch

end ArbReth.Sync
