import ArbReth.Sync.Supervise

/-! # The order of the resume log

`load_strict` accepts a log only if its boundaries are strictly ascending.  An attempt loads the log as
it is on disk and appends the boundaries it reaches; it does not cut the log back to the point where it
starts.  So the log stays ascending as long as every attempt starts at or above the newest boundary it
has loaded (`resume_log_ascending`).  An attempt that starts below that boundary, because the durable tip
has fallen or the caller asked for an earlier start, appends boundaries the log has already passed
(`rolled_back_tip_breaks_order`). -/

namespace ArbReth.Sync

open ArbReth.L1 ArbReth.Loop ArbReth.Runs

variable {γ β : Type} {cfg : L1SyncConfig} {E : L1Env γ β} {s : SyncState β} {disk : ResumeFile}

/-- One attempt of a history. -/
structure SyncAttempt (γ β : Type) where
  cfg : L1SyncConfig
  env : L1Env γ β
  rounds : ℕ

/-- The last state of an attempt on a file. -/
def SyncAttempt.run (a : SyncAttempt γ β) (disk : ResumeFile) : SyncState β :=
  (runL1Sync a.cfg a.env disk a.rounds).state

/-- The file after a history of attempts. -/
def afterAttempts : ResumeFile → List (SyncAttempt γ β) → ResumeFile
  | disk, [] => disk
  | disk, a :: attempts => afterAttempts (a.run disk).disk attempts

/-- Every attempt starts at or above the newest boundary in the log it finds. -/
def FromNewest : ResumeFile → List (SyncAttempt γ β) → Prop
  | _, [] => True
  | disk, a :: attempts => disk.loaded.NotBelow a.cfg.start ∧ FromNewest (a.run disk).disk attempts

/-- The file holds an ascending log. -/
def ResumeFile.Ascending (disk : ResumeFile) : Prop := ∃ log, disk = .wrapped log ∧ log.Ascending

/-- An attempt records nothing below its start, so it keeps the file in order. -/
theorem Logged.ascending (h : Logged cfg disk s) (hdisk : disk.Ascending)
    (hstart : disk.loaded.NotBelow cfg.start) : s.disk.Ascending := by
  have hnone (x) (hx : x ∈ s.recorded) : disk.loaded.NotBelow x.1 := fun newest hnewest =>
    (hstart newest hnewest).trans (h.bounded x.1 (List.mem_append_left _ (List.mem_map_of_mem hx))).1
  obtain ⟨log, rfl, hlog⟩ := hdisk
  rcases h.file with hfile | ⟨n, hfile⟩
  · exact ⟨log, hfile, hlog⟩
  · refine ⟨_, hfile, ?_⟩
    have hsub : ((s.recorded.take n).map Prod.fst).Sublist s.reached :=
      ((List.take_sublist n s.recorded).map Prod.fst).trans (List.sublist_append_left _ _)
    have hsorted := h.sorted.sublist hsub
    unfold SyncState.init
    simp only
    split
    · refine L1ResumeLog.recordAll_ascending hlog hsorted (fun cp hcp => ?_)
      obtain ⟨x, hx, rfl⟩ := List.mem_map.mp hcp
      exact hnone x (List.mem_of_mem_take hx)
    · refine L1ResumeLog.recordAll_ascending List.IsChain.nil hsorted (fun cp _ newest hn => ?_)
      cases hn

/-- A restart with the durable tip at or above every logged boundary starts at the newest one. -/
theorem resumeConfig_notBelow {base : L1SyncConfig} (hck : base.checkpointing = true) {tip : ℕ}
    (htip : ∀ cp ∈ disk.loaded.checkpoints, cp.l2Block ≤ tip) :
    disk.loaded.NotBelow (resumeConfig base disk tip).start := by
  intro newest hnewest
  have hpoint : resumePoint base disk tip = some newest := by
    unfold resumePoint
    rw [if_pos hck]
    unfold ResumeFile.loaded at htip hnewest
    cases hload : disk.load with
    | none =>
      rw [hload] at hnewest
      cases hnewest
    | some log =>
      rw [hload] at htip hnewest
      exact (L1ResumeLog.resumeFor_of_le htip).trans hnewest
  rw [resumeConfig_start, hpoint]
  exact le_rfl

/-- **The log stays ascending**, if every attempt starts at or above the newest boundary it has loaded. -/
theorem resume_log_ascending (log : L1ResumeLog) (attempts : List (SyncAttempt γ β)) (hlog : log.Ascending)
    (hstarts : FromNewest (.wrapped log) attempts) :
    ∃ log', afterAttempts (.wrapped log) attempts = .wrapped log' ∧ log'.Ascending ∧
      (afterAttempts (.wrapped log) attempts).loadStrict = .ok log' := by
  have key : ∀ disk : ResumeFile, disk.Ascending → FromNewest disk attempts →
      (afterAttempts disk attempts).Ascending := by
    clear hstarts
    induction attempts with
    | nil => exact fun disk hdisk _ => hdisk
    | cons a attempts ih =>
      intro disk hdisk hstarts
      exact ih _ ((run_logged a.cfg a.env disk a.rounds).ascending hdisk hstarts.1) hstarts.2
  obtain ⟨log', hfile, hasc⟩ := key _ ⟨log, rfl, hlog⟩ hstarts
  refine ⟨log', hfile, hasc, ?_⟩
  rw [hfile]
  exact (ResumeFile.loadStrict_wrapped log').mpr hasc

def fourBatches : L1History Unit Unit := L1History.postedAt [1, 2, 3, 4]

def threeBoundaries : L1ResumeLog := ⟨[⟨2, 1, 1⟩, ⟨3, 2, 2⟩, ⟨4, 3, 3⟩]⟩

/-- A restart on a log with the durable tip `tip`, which has grown to `after` when the first window is
delivered. -/
def restartOn (tip after : ℕ) : SyncAttempt Unit Unit where
  cfg := resumeConfig .small (.wrapped threeBoundaries) tip
  env := fourBatches.env (fun _ => 9) (fun _ => after) (fun _ => .saved)
  rounds := 1

theorem resume_log_ascending_restart : afterAttempts (.wrapped threeBoundaries) [restartOn 3 4] =
        .wrapped ⟨[⟨2, 1, 1⟩, ⟨3, 2, 2⟩, ⟨4, 3, 3⟩, ⟨5, 4, 4⟩]⟩ ∧
      ∃ log', afterAttempts (.wrapped threeBoundaries) [restartOn 3 4] = .wrapped log' ∧ log'.Ascending ∧
        (afterAttempts (.wrapped threeBoundaries) [restartOn 3 4]).loadStrict = .ok log' := by
  refine ⟨by decide, resume_log_ascending threeBoundaries [restartOn 3 4] (by decide) ⟨?_, trivial⟩⟩
  exact resumeConfig_notBelow rfl (by decide)

/-- A power loss has taken the durable tip back from block 3 to block 1: the boundary of block 2 is appended behind
that of block 3. -/
theorem rolled_back_tip_breaks_order :
    (threeBoundaries.Ascending ∧ (∀ cp ∈ threeBoundaries.checkpoints, fourBatches.TrueBoundary cp) ∧
      fourBatches.Truthful (restartOn 1 2).env ∧ fourBatches.TrueBoundary (restartOn 1 2).cfg.start ∧
      (restartOn 1 2).cfg.startL2Block ≤ (restartOn 1 2).cfg.dbTipL2) ∧
    afterAttempts (.wrapped threeBoundaries) [restartOn 1 2] = .wrapped ⟨[⟨2, 1, 1⟩, ⟨3, 2, 2⟩, ⟨4, 3, 3⟩, ⟨3, 2, 2⟩]⟩ ∧
    (afterAttempts (.wrapped threeBoundaries) [restartOn 1 2]).loadStrict = .error .notAscending := by
  have htrue : ∀ cp ∈ threeBoundaries.checkpoints, fourBatches.TrueBoundary cp := by
    intro cp hcp
    simp only [threeBoundaries, List.mem_cons, List.not_mem_nil, or_false] at hcp
    rcases hcp with rfl | rfl | rfl
    · exact ⟨[⟨0, 1, ()⟩], rfl, rfl⟩
    · exact ⟨[⟨0, 1, ()⟩, ⟨0, 2, ()⟩], rfl, rfl⟩
    · exact ⟨[⟨0, 1, ()⟩, ⟨0, 2, ()⟩, ⟨0, 3, ()⟩], rfl, rfl⟩
  refine ⟨⟨by decide, htrue, L1History.env_truthful (L1History.postedAt_fits (by decide)) _ _ _,
    htrue _ (by decide), by decide⟩, by decide, by decide⟩

end ArbReth.Sync
