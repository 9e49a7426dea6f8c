import ArbReth.Sync.Boundaries

/-! # Supervised runs

`supervise_l1_sync` restarts `run_l1_sync` after every provider failure.  The first attempt starts where
the caller says, a later one at the newest logged boundary that is not above the durable tip
(`resumeConfig`).  All attempts share the file of the resume log.

An attempt comes with its own world and ends after some rounds: it returns, fails, or is cancelled.

On a fixed L1 history every boundary that is ever put in the log is a true one and was durable at that
time, so a restart derives the blocks an uninterrupted run would have derived (`resume_sound`). -/

namespace ArbReth.Sync

open ArbReth.L1 ArbReth.Loop ArbReth.Runs

variable {γ β : Type}

/-- The boundary a restart continues from. -/
def resumePoint (base : L1SyncConfig) (disk : ResumeFile) (persistedL2 : ℕ) : Option L1ResumeCheckpoint :=
  if base.checkpointing then disk.load.bind (·.resumeFor persistedL2) else none

def resumeConfig (base : L1SyncConfig) (disk : ResumeFile) (persistedL2 : ℕ) : L1SyncConfig :=
  let next := { base with dbTipL2 := persistedL2 }
  match resumePoint base disk persistedL2 with
  | none => next
  | some cp =>
    { next with
      startBlock := cp.l1Block
      startDelayedCount := cp.delayedCount
      startL2Block := cp.l2Block }

/-- One pass of the supervisor loop. -/
structure Attempt (γ β : Type) where
  env : L1Env γ β
  /-- The durable tip before the attempt. -/
  tip : Option ℕ
  /-- After this many rounds a run that still goes on is cancelled. -/
  rounds : ℕ
  /-- The durable tip after a failure. -/
  tipAfter : Option ℕ
  /-- Whether the delay after a failure passes without a shutdown. -/
  waits : Bool

structure Supervisor (β : Type) where
  firstAttempt : Bool
  disk : ResumeFile
  /-- The attempts so far, with their configuration and their last state. -/
  runs : List (L1SyncConfig × SyncState β)

/-- The configuration of the next attempt. -/
def Supervisor.config (base : L1SyncConfig) (sup : Supervisor β) (persistedL2 : ℕ) : L1SyncConfig :=
  if sup.firstAttempt then { base with dbTipL2 := persistedL2 } else resumeConfig base sup.disk persistedL2

/-- What the supervisor does when an attempt has ended; it goes on only after a provider failure. -/
def Supervisor.next (sup : Supervisor β) (a : Attempt γ β) :
    Progress (L1SyncError × SyncState β) (SyncState β) →
      Except (Except L1SyncError L1SyncCompletion × Supervisor β) (Supervisor β)
  | .running _ => .error (.ok .exhausted, sup)
  | .done s => .error (.ok (s.completion.getD .exhausted), sup)
  | .failed (e, _) =>
    if e.isRetryable then
      match a.tipAfter with
      | none => .error (.error .persistedTip, sup)
      | some _ => if a.waits then .ok sup else .error (.ok .exhausted, sup)
    else .error (.error e, sup)

def superviseStep (base : L1SyncConfig) (sup : Supervisor β) (a : Attempt γ β) :
    Except (Except L1SyncError L1SyncCompletion × Supervisor β) (Supervisor β) :=
  match a.tip with
  | none => .error (.error .persistedTip, sup)
  | some persistedL2 =>
    let cfg := sup.config base persistedL2
    let outcome := runL1Sync cfg a.env sup.disk a.rounds
    Supervisor.next ⟨false, outcome.state.disk, sup.runs ++ [(cfg, outcome.state)]⟩ a outcome

/-- The supervisor on a file and a series of attempts. -/
def superviseL1Sync (base : L1SyncConfig) (disk : ResumeFile) (attempts : List (Attempt γ β)) :
    Except (Except L1SyncError L1SyncCompletion × Supervisor β) (Supervisor β) :=
  run (superviseStep base) ⟨true, disk, []⟩ attempts

/-! ### Boundaries in the log -/

variable {H : L1History γ β} {base : L1SyncConfig} {disk : ResumeFile} {sup : Supervisor β}

theorem resumePoint_mem {tip : ℕ} {cp : L1ResumeCheckpoint} (h : resumePoint base disk tip = some cp) :
    cp ∈ disk.loaded.checkpoints ∧ cp.l2Block ≤ tip := by
  unfold resumePoint at h
  split at h
  · obtain ⟨log, hlog, hcp⟩ := Option.bind_eq_some_iff.mp h
    unfold ResumeFile.loaded
    rw [hlog]
    exact L1ResumeLog.resumeFor_mem hcp
  · cases h

/-- An attempt starts at the boundary of the log it picks, or at the configured one. -/
theorem resumeConfig_start (base : L1SyncConfig) (disk : ResumeFile) (tip : ℕ) :
    (resumeConfig base disk tip).start = (resumePoint base disk tip).getD base.start := by
  unfold resumeConfig
  cases resumePoint base disk tip <;> rfl

theorem config_start_mem (base : L1SyncConfig) (sup : Supervisor β) (tip : ℕ) :
    (sup.config base tip).start ∈ base.start :: sup.disk.loaded.checkpoints := by
  unfold Supervisor.config
  split
  · exact List.mem_cons_self
  · rw [resumeConfig_start]
    cases hcp : resumePoint base sup.disk tip with
    | none => exact List.mem_cons_self
    | some cp => exact List.mem_cons_of_mem _ (resumePoint_mem hcp).1

/-- A run from a usable boundary leaves a file of usable boundaries. -/
theorem run_usable {cfg : L1SyncConfig} {E : L1Env γ β} (hE : H.Truthful E) (hstart : H.Usable cfg.start)
    (hdisk : ∀ cp ∈ disk.loaded.checkpoints, H.Usable cp) (rounds : ℕ) :
    (∀ x ∈ (runL1Sync cfg E disk rounds).state.recorded, H.Usable x.1 ∧ x.1.l2Block ≤ x.2) ∧
      ∀ cp ∈ (runL1Sync cfg E disk rounds).state.disk.loaded.checkpoints, H.Usable cp := by
  have hlogged := run_logged cfg E disk rounds
  have hchain := run_onChain hE hstart disk rounds
  have hrec : ∀ x ∈ (runL1Sync cfg E disk rounds).state.recorded, H.Usable x.1 := by
    intro x hx
    refine hchain.reached x.1 (List.mem_append_left _ ?_)
    exact List.mem_map_of_mem hx
  refine ⟨fun x hx => ⟨hrec x hx, hlogged.durable x hx⟩, fun cp hcp => ?_⟩
  rcases hlogged.mem_file hcp with hcp | ⟨tip, hcp⟩
  · exact hdisk cp hcp
  · exact hrec (cp, tip) hcp

/-- The file and everything recorded so far are true boundaries. -/
structure SupervisedSoundly (H : L1History γ β) (sup : Supervisor β) : Prop where
  disk : ∀ cp ∈ sup.disk.loaded.checkpoints, H.Usable cp
  recorded : ∀ r ∈ sup.runs, ∀ x ∈ r.2.recorded, H.TrueBoundary x.1 ∧ x.1.l2Block ≤ x.2

theorem next_ensures {I : Supervisor β → Prop} (h : I sup) (a : Attempt γ β)
    (outcome : Progress (L1SyncError × SyncState β) (SyncState β)) : Ensures I I (sup.next a outcome) := by
  cases outcome with
  | running s => exact h
  | done s => exact h
  | failed e =>
    unfold Supervisor.next
    simp only
    split
    · cases a.tipAfter with
      | none => exact h
      | some tip =>
        simp only
        split
        · exact h
        · exact h
    · exact h

theorem superviseStep_sound (hbase : H.Usable base.start) (hs : SupervisedSoundly H sup) {a : Attempt γ β}
    (ha : H.Truthful a.env) : Ensures (SupervisedSoundly H) (SupervisedSoundly H) (superviseStep base sup a) := by
  unfold superviseStep
  cases a.tip with
  | none => exact hs
  | some tip =>
    have hstart : H.Usable (sup.config base tip).start := by
      rcases List.mem_cons.mp (config_start_mem base sup tip) with h | h
      · rw [h]
        exact hbase
      · exact hs.disk _ h
    obtain ⟨hrec, hdisk⟩ := run_usable ha hstart hs.disk a.rounds
    refine next_ensures (I := SupervisedSoundly H) ⟨hdisk, fun r hr x hx => ?_⟩ a _
    rcases List.mem_append.mp hr with hr | hr
    · exact hs.recorded r hr x hx
    · obtain rfl := List.mem_singleton.mp hr
      exact ⟨(hrec x hx).1.boundary, (hrec x hx).2⟩

theorem supervise_sound (hbase : H.Usable base.start)
    (hdisk : ∀ cp ∈ disk.loaded.checkpoints, H.Usable cp) {attempts : List (Attempt γ β)}
    (henv : ∀ a ∈ attempts, H.Truthful a.env) : SupervisedSoundly H (endState (superviseL1Sync base disk attempts)) :=
  run_endState (SupervisedSoundly H) ⟨hdisk, fun _ h => nomatch h⟩
    (fun a ha _ hm => superviseStep_sound hbase hm (henv a ha))

/-! ### Resume soundness -/

/-- **Resume soundness.**  If the starts are true boundaries, every boundary put in the log is a true one and was
durable, and a restart derives the same blocks above the durable tip. -/
theorem resume_sound (H : L1History γ β) (base : L1SyncConfig) (disk : ResumeFile)
    (attempts : List (Attempt γ β)) (henv : ∀ a ∈ attempts, H.Truthful a.env)
    (hbase : H.TrueBoundary base.start) (hdisk : ∀ cp ∈ disk.loaded.checkpoints, H.TrueBoundary cp)
    (hzero : H.batches 0 = []) :
    (∀ r ∈ (endState (superviseL1Sync base disk attempts)).runs, ∀ x ∈ r.2.recorded,
        H.TrueBoundary x.1 ∧ x.1.l2Block ≤ x.2) ∧
      (∀ cp ∈ (endState (superviseL1Sync base disk attempts)).disk.loaded.checkpoints, H.TrueBoundary cp) ∧
      ∀ tip cp, resumePoint base (endState (superviseL1Sync base disk attempts)).disk tip = some cp →
        ∀ E rounds cfg E' disk' rounds', H.Truthful E → H.Truthful E' → H.TrueBoundary cfg.start →
          cfg.startL2Block ≤ tip →
          SameBlocks (resumeConfig base (endState (superviseL1Sync base disk attempts)).disk tip) cfg tip
            (runL1Sync (resumeConfig base (endState (superviseL1Sync base disk attempts)).disk tip) E
              (endState (superviseL1Sync base disk attempts)).disk rounds).state
            (runL1Sync cfg E' disk' rounds').state := by
  have hsound := supervise_sound (H := H) ⟨hbase, fun _ => hzero⟩
    (fun cp hcp => ⟨hdisk cp hcp, fun _ => hzero⟩) henv
  refine ⟨hsound.recorded, fun cp hcp => (hsound.disk cp hcp).boundary, ?_⟩
  intro tip cp hcp E rounds cfg E' disk' rounds' hE hE' hcfg htip
  obtain ⟨hmem, hle⟩ := resumePoint_mem hcp
  have hstart : (resumeConfig base (endState (superviseL1Sync base disk attempts)).disk tip).start = cp := by
    rw [resumeConfig_start, hcp]
    rfl
  have husable : H.Usable (resumeConfig base (endState (superviseL1Sync base disk attempts)).disk
      tip).start := by
    rw [hstart]
    exact hsound.disk cp hmem
  have hl2 : (resumeConfig base (endState (superviseL1Sync base disk attempts)).disk
      tip).startL2Block ≤ tip := by
    have := congrArg (·.l2Block) hstart
    exact this.trans_le hle
  exact (run_onChain hE husable _ rounds).same_blocks (run_onChain hE' ⟨hcfg, fun _ => hzero⟩ disk' rounds')
    husable ⟨hcfg, fun _ => hzero⟩ hl2 htip

def threeBatches : L1History Unit Unit := L1History.postedAt [1, 2, 5]

def threeBatchesEnv : L1Env Unit Unit := threeBatches.env (fun _ => 9) (fun round => round + 1) (fun _ => .saved)

/-- The L1 head stays at block 2, and the endpoint goes away after a while. -/
def interruptedEnv : L1Env Unit Unit :=
  { threeBatchesEnv with getBlockNumber := fun clock => if clock < 3 then some 2 else none }

theorem threeBatchesEnv_truthful : threeBatches.Truthful threeBatchesEnv :=
  L1History.env_truthful (L1History.postedAt_fits (by decide)) _ _ _

theorem interruptedEnv_truthful : threeBatches.Truthful interruptedEnv :=
  ⟨⟨threeBatchesEnv_truthful.provider.fits, threeBatchesEnv_truthful.provider.call⟩,
    threeBatchesEnv_truthful.resolveBatches, threeBatchesEnv_truthful.assemble⟩

/-- An attempt that fails after two blocks and one that goes on from there. -/
def interruptedAttempts : List (Attempt Unit Unit) :=
  [⟨interruptedEnv, some 0, 9, some 2, true⟩, ⟨threeBatchesEnv, some 2, 3, none, true⟩]

theorem resume_sound_interrupted : (endState (superviseL1Sync { L1SyncConfig.small with startBlock := 1 } .absent
        interruptedAttempts)).disk =
      .wrapped ⟨[⟨2, 1, 1⟩, ⟨5, 2, 2⟩, ⟨10, 5, 3⟩]⟩ ∧
    ∀ cp ∈ (endState (superviseL1Sync { L1SyncConfig.small with startBlock := 1 } .absent
        interruptedAttempts)).disk.loaded.checkpoints, threeBatches.TrueBoundary cp := by
  refine ⟨by decide, (resume_sound threeBatches { L1SyncConfig.small with startBlock := 1 } .absent
    interruptedAttempts (fun a ha => ?_) ⟨[], rfl, rfl⟩ (fun _ h => nomatch h) rfl).2.1⟩
  rcases List.mem_cons.mp ha with rfl | ha
  · exact interruptedEnv_truthful
  · obtain rfl := List.mem_singleton.mp ha
    exact threeBatchesEnv_truthful

end ArbReth.Sync
