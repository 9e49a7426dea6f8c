import ArbReth.Sync.L1Sync

/-! # The boundaries of a run

A run reaches one boundary after another; `reached` lists them, those in the log before those still
queued.  The log of the run is the one it loaded with the recorded boundaries added, the file on disk is
an earlier state of it, and the L2 blocks of the boundaries do not go down (`Logged`).  All of this
holds whatever is derived and whatever fails. -/

namespace ArbReth.Sync

open ArbReth.L1 ArbReth.Loop ArbReth.Runs

variable {γ β : Type} {cfg : L1SyncConfig} {E : L1Env γ β} {s s' : SyncState β} {disk : ResumeFile}

/-! ### The next block -/

theorem le_enqueueDerivedWindow_nextL2 (cfg : L1SyncConfig) (feedOpen : ℕ → Bool)
    (ms : List (BroadcastFeedMessage β)) (d : WindowDelivery) (f : Feed β) :
    f.nextL2 ≤ (enqueueDerivedWindow cfg feedOpen ms d f).2.nextL2 := by
  induction ms generalizing d f with
  | nil => exact le_rfl
  | cons msg ms ih =>
    unfold enqueueDerivedWindow
    split
    · exact Nat.le_of_succ_le (ih _ ⟨f.nextL2 + 1, f.sent⟩)
    · split
      · simp only
        split
        · exact Nat.le_succ _
        · exact Nat.le_of_succ_le (ih _ ⟨f.nextL2 + 1, _⟩)
      · exact Nat.le_succ _

/-- A window that is fully delivered counts all its messages. -/
theorem enqueueDerivedWindow_nextL2 {feedOpen : ℕ → Bool} {ms : List (BroadcastFeedMessage β)}
    {d d' : WindowDelivery} {f f' : Feed β} (hd' : d'.frontierReached = none)
    (h : enqueueDerivedWindow cfg feedOpen ms d f = (.ok d', f')) : f'.nextL2 = f.nextL2 + ms.length := by
  induction ms generalizing d f with
  | nil =>
    cases h
    rfl
  | cons msg ms ih =>
    unfold enqueueDerivedWindow at h
    rw [List.length_cons]
    split at h
    · have := ih h
      simp only at this
      omega
    · split at h
      · simp only at h
        split at h
        · obtain ⟨hok, -⟩ := Prod.mk.inj h
          rw [← Except.ok.inj hok] at hd'
          cases hd'
        · have := ih h
          simp only at this
          omega
      · cases (Prod.mk.inj h).1

/-! ### The log and the queue -/

/-- The boundaries a run has reached, in order. -/
def SyncState.reached (s : SyncState β) : List L1ResumeCheckpoint :=
  s.recorded.map Prod.fst ++ s.pendingCkpt

@[simp] theorem reached_queueCheckpoint (s : SyncState β) : s.queueCheckpoint.reached =
    s.reached ++ [⟨s.consumeCursor, s.delayed, s.feed.nextL2 - 1⟩] :=
  (List.append_assoc _ _ _).symm

@[simp] theorem reached_maybeWriteCheckpoint (s : SyncState β) (outcome : SaveOutcome) (persisted : ℕ) :
    (s.maybeWriteCheckpoint outcome persisted).reached = s.reached := by
  unfold SyncState.maybeWriteCheckpoint
  simp only
  split
  · rfl
  · simp [SyncState.reached, Function.comp_def]

/-- How the log, the file and the boundaries of a run belong together. -/
structure Logged (cfg : L1SyncConfig) (disk : ResumeFile) (s : SyncState β) : Prop where
  log : s.resumeLog = (SyncState.init cfg disk : SyncState β).resumeLog.recordAll (s.recorded.map Prod.fst)
  file : s.disk = disk ∨ ∃ n, s.disk = .wrapped
    ((SyncState.init cfg disk : SyncState β).resumeLog.recordAll ((s.recorded.take n).map Prod.fst))
  durable : ∀ r ∈ s.recorded, r.1.l2Block ≤ r.2
  sorted : s.reached.Pairwise (·.l2Block ≤ ·.l2Block)
  bounded : ∀ cp ∈ s.reached, cfg.startL2Block ≤ cp.l2Block ∧ cp.l2Block < s.feed.nextL2
  next : cfg.startL2Block < s.feed.nextL2

theorem Logged.initial (cfg : L1SyncConfig) (disk : ResumeFile) :
    Logged cfg disk (SyncState.init cfg disk : SyncState β) :=
  ⟨rfl, Or.inl rfl, (fun _ h => nomatch h), List.Pairwise.nil, (fun _ h => nomatch h), Nat.lt_succ_self _⟩

/-- A step that leaves the log alone and does not lower the next block. -/
theorem Logged.congr (h : Logged cfg disk s) (hlog : s'.resumeLog = s.resumeLog) (hdisk : s'.disk = s.disk)
    (hrec : s'.recorded = s.recorded) (hpend : s'.pendingCkpt = s.pendingCkpt)
    (hnext : s.feed.nextL2 ≤ s'.feed.nextL2) : Logged cfg disk s' := by
  have hreached : s'.reached = s.reached := by
    unfold SyncState.reached
    rw [hrec, hpend]
  refine ⟨?_, ?_, ?_, ?_, fun cp hcp => ?_, ?_⟩
  · rw [hlog, hrec]
    exact h.log
  · rw [hdisk, hrec]
    exact h.file
  · rw [hrec]
    exact h.durable
  · rw [hreached]
    exact h.sorted
  · rw [hreached] at hcp
    exact ⟨(h.bounded cp hcp).1, (h.bounded cp hcp).2.trans_le hnext⟩
  · exact h.next.trans_le hnext

theorem Logged.queueCheckpoint (h : Logged cfg disk s) : Logged cfg disk s.queueCheckpoint := by
  have hnext := h.next
  refine ⟨h.log, h.file, h.durable, ?_, fun cp hcp => ?_, h.next⟩
  · rw [reached_queueCheckpoint, List.pairwise_append]
    refine ⟨h.sorted, List.pairwise_singleton _ _, fun a ha b hb => ?_⟩
    obtain rfl := List.mem_singleton.mp hb
    have := (h.bounded a ha).2
    show a.l2Block ≤ s.feed.nextL2 - 1
    omega
  · rw [reached_queueCheckpoint] at hcp
    rcases List.mem_append.mp hcp with hcp | hcp
    · exact h.bounded cp hcp
    · obtain rfl := List.mem_singleton.mp hcp
      show cfg.startL2Block ≤ s.feed.nextL2 - 1 ∧ s.feed.nextL2 - 1 < s.feed.nextL2
      omega

theorem Logged.maybeWriteCheckpoint (h : Logged cfg disk s) (outcome : SaveOutcome) (persisted : ℕ) :
    Logged cfg disk (s.maybeWriteCheckpoint outcome persisted) := by
  have hreached := reached_maybeWriteCheckpoint s outcome persisted
  unfold SyncState.maybeWriteCheckpoint at hreached ⊢
  simp only at hreached ⊢
  split
  · exact h
  · rename_i hne
    rw [if_neg hne] at hreached
    generalize hdur : s.pendingCkpt.takeWhile (·.l2Block ≤ persisted) = durable at hreached
    have hmap : (s.recorded ++ durable.map (·, persisted)).map Prod.fst =
        s.recorded.map Prod.fst ++ durable := by simp [Function.comp_def]
    have hlog : s.resumeLog.recordAll durable = (SyncState.init cfg disk : SyncState β).resumeLog.recordAll
        ((s.recorded ++ durable.map (·, persisted)).map Prod.fst) := by
      rw [hmap, L1ResumeLog.recordAll_append, h.log]
    refine ⟨hlog, ?_, fun r hr => ?_, ?_, fun cp hcp => ?_, h.next⟩
    · -- a save that came to the rename writes the whole log, any other leaves an earlier one
      have hwrote : ∀ file : ResumeFile, file = .wrapped (s.resumeLog.recordAll durable) →
          file = disk ∨ ∃ n, file = .wrapped ((SyncState.init cfg disk : SyncState β).resumeLog.recordAll
            (((s.recorded ++ durable.map (·, persisted)).take n).map Prod.fst)) := by
        intro file hfile
        refine Or.inr ⟨(s.recorded ++ durable.map (·, persisted)).length, ?_⟩
        rw [List.take_length, ← hlog, hfile]
      cases outcome with
      | saved => exact hwrote _ rfl
      | failedAfterRename => exact hwrote _ rfl
      | failedBeforeRename =>
        rcases h.file with hfile | ⟨n, hfile⟩
        · exact Or.inl hfile
        · refine Or.inr ⟨min n s.recorded.length, ?_⟩
          rw [List.take_append_of_le_length (Nat.min_le_right _ _), ← List.take_eq_take_min]
          exact hfile
    · rcases List.mem_append.mp hr with hr | hr
      · exact h.durable r hr
      · obtain ⟨cp, hcp, rfl⟩ := List.mem_map.mp hr
        rw [← hdur] at hcp
        simpa using List.mem_takeWhile_imp hcp
    · rw [hreached]
      exact h.sorted
    · rw [hreached] at hcp
      exact h.bounded cp hcp

theorem step_logged (hs : Logged cfg disk s) (h : SyncStep cfg E s s') : Logged cfg disk s' := by
  have hnext : ∀ {w : Window} {rest : List Window} {range : DerivedRange β}
      {r : Except Unit WindowDelivery} {feed : Feed β}, Consumed cfg E s w rest range r feed →
      s.feed.nextL2 ≤ feed.nextL2 := by
    intro w rest range r feed hcons
    have hle := le_enqueueDerivedWindow_nextL2 cfg E.feedOpen range.messages {} s.feed
    rwa [hcons.delivered] at hle
  cases h with
  | exhaust hrun hend => exact hs.congr rfl rfl rfl rfl le_rfl
  | plan planner hp => exact hs.congr rfl rfl rfl rfl le_rfl
  | tick => exact hs.congr rfl rfl rfl rfl le_rfl
  | close hcons => exact hs.congr rfl rfl rfl rfl (hnext hcons)
  | reach hcons hd => exact hs.congr rfl rfl rfl rfl (hnext hcons)
  | advance hcons hd => exact hs.congr rfl rfl rfl rfl (hnext hcons)
  | queue hrun hck => exact hs.queueCheckpoint
  | flush outcome persisted => exact hs.maybeWriteCheckpoint outcome persisted

/-- **The log of a run** holds what was loaded and the boundaries recorded since, each durable and none below the one
before. -/
theorem run_logged (cfg : L1SyncConfig) (E : L1Env γ β) (disk : ResumeFile) (rounds : ℕ) :
    Logged cfg disk (runL1Sync cfg E disk rounds).state :=
  runL1Sync_state (Logged cfg disk) (Logged cfg disk) (fun _ h => h)
    (fun _ => Logged.initial cfg disk)
    (fun _ _ _ => (Logged.initial cfg disk).congr rfl rfl rfl rfl le_rfl)
    (fun _ _ _ => (Logged.initial cfg disk).congr rfl rfl rfl rfl le_rfl)
    (fun _ _ hs h => step_logged hs h) rounds

/-- What is in the file after a run was there before or has been recorded. -/
theorem Logged.mem_file (h : Logged cfg disk s) {cp : L1ResumeCheckpoint} (hcp : cp ∈ s.disk.loaded.checkpoints) :
    cp ∈ disk.loaded.checkpoints ∨ ∃ tip, (cp, tip) ∈ s.recorded := by
  rcases h.file with hfile | ⟨n, hfile⟩
  · rw [hfile] at hcp
    exact Or.inl hcp
  · rw [hfile] at hcp
    rcases L1ResumeLog.mem_recordAll hcp with hcp | hcp
    · refine Or.inl ?_
      unfold SyncState.init at hcp
      simp only at hcp
      split at hcp
      · exact hcp
      · cases hcp
    · obtain ⟨⟨cp', tip⟩, hmem, rfl⟩ := List.mem_map.mp hcp
      exact Or.inr ⟨tip, List.mem_of_mem_take hmem⟩

end ArbReth.Sync
