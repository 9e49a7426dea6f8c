import ArbReth.Sync.History

/-! # Which L1 blocks are scanned

The windows a run puts in flight tile the L1 blocks from the start block up to the planner's cursor,
none of them passes the safe head or the end block, and every block in which the batch count rises lies
in a window that is scanned (`Complete`).

The loop asks for the L1 head only when the cursor is above the safe head it knows, and that is 0 at
first.  A run that starts at block 0 therefore plans its first window, block 0 alone, before any request,
with the batch count 0 it was initialised with.  This is right as block 0 of an L1 holds no batch
(`planner_complete`), and `planner_complete_iff` says that nothing else is needed. -/

namespace ArbReth.Sync

open ArbReth.L1 ArbReth.Loop ArbReth.Runs

variable {γ β : Type} {cfg : L1SyncConfig} {E : L1Env γ β} {count : ℕ → ℕ} {p q : Planner}
  {s s' : SyncState β}

/-- What the windows put in flight are for. -/
structure Complete (cfg : L1SyncConfig) (count : ℕ → ℕ) (p : Planner) : Prop where
  /-- They are contiguous, disjoint and ascending from the start block. -/
  tiles : Tiles cfg.startBlock (p.pushed.map (·.window)) p.spawnCursor
  bounded : ∀ x ∈ p.pushed,
    x.window.toBlock ≤ x.safeHead ∧ ∀ e, cfg.endBlock = some e → x.window.toBlock ≤ e
  /-- A block in which the count rises is in a window, and the window is scanned. -/
  covered : ∀ n, cfg.startBlock ≤ n → n < p.spawnCursor → countBefore count n < count n →
    (∃ x ∈ p.pushed, x.window.fromBlock ≤ n ∧ n ≤ x.window.toBlock) ∧
      ∀ x ∈ p.pushed, x.window.fromBlock ≤ n → n ≤ x.window.toBlock → x.window.scanned = true
  seen : ∀ x ∈ p.pushed, x.spawnCursor = x.window.toBlock + 1 ∧
    x.seenBatchCount = countBefore count x.spawnCursor

/-! ### The invariant -/

structure WellPlanned (cfg : L1SyncConfig) (count : ℕ → ℕ) (p : Planner) : Prop where
  tiles : Tiles cfg.startBlock (p.pushed.map (·.window)) p.spawnCursor
  pushes : ∀ x ∈ p.pushed, x.Sound cfg count

theorem WellPlanned.init (cfg : L1SyncConfig) (count : ℕ → ℕ) : WellPlanned cfg count (.init cfg) :=
  ⟨rfl, fun _ h => nomatch h⟩

theorem WellPlanned.planned (hp : WellPlanned cfg count p) (h : Planned cfg count p q) : WellPlanned cfg count q := by
  obtain ⟨xs, hpushed, -, htiles, hsound⟩ := h
  refine ⟨?_, fun x hx => ?_⟩
  · rw [hpushed, List.map_append]
    exact hp.tiles.append htiles
  · rw [hpushed] at hx
    rcases List.mem_append.mp hx with hx | hx
    · exact hp.pushes x hx
    · exact hsound x hx

theorem WellPlanned.complete (hp : WellPlanned cfg count p) : Complete cfg count p := by
  refine ⟨hp.tiles, fun x hx => ⟨(hp.pushes x hx).safe, (hp.pushes x hx).capped⟩,
    fun n h1 h2 hrise => ⟨?_, fun x hx hfrom hto => ?_⟩, fun x hx => ⟨(hp.pushes x hx).cursor, ?_⟩⟩
  · obtain ⟨w, hw, hmem⟩ := hp.tiles.exists_window h1 h2
    obtain ⟨x, hx, rfl⟩ := List.mem_map.mp hw
    exact ⟨x, hx, hmem⟩
  · by_contra hscan
    have hflat := (hp.pushes x hx).barren (by simpa using hscan) n hfrom hto
    omega
  · rw [(hp.pushes x hx).cursor]
    exact (hp.pushes x hx).seen

theorem step_planner (h : SyncStep cfg E s s') : Leaves (s.planner.plan cfg E.toProvider) s'.planner ∨
      ∃ rest, s'.planner = { s.planner with inflight := rest } := by
  cases h with
  | plan planner h => exact Or.inl h
  | close h => exact Or.inr ⟨_, rfl⟩
  | reach h => exact Or.inr ⟨_, rfl⟩
  | advance h => exact Or.inr ⟨_, rfl⟩
  | flush outcome persisted =>
    obtain ⟨_, _, _, _, hflush⟩ := maybeWriteCheckpoint_frame s outcome persisted
    rw [hflush]
    exact Or.inr ⟨s.planner.inflight, rfl⟩
  | exhaust => exact Or.inr ⟨s.planner.inflight, rfl⟩
  | tick => exact Or.inr ⟨s.planner.inflight, rfl⟩
  | queue => exact Or.inr ⟨s.planner.inflight, rfl⟩

theorem step_wellPlanned (hP : E.toProvider.Truthful count) (hmono : Monotone count)
    (hs : WellPlanned cfg count s.planner ∧ Counts count s.planner) (h : SyncStep cfg E s s') :
    WellPlanned cfg count s'.planner ∧ Counts count s'.planner := by
  obtain hplan | ⟨rest, hrest⟩ := step_planner h
  · obtain ⟨hplanned, hcounts⟩ := (Planner.plan_ensures hP hmono hs.2).leaves hplan
    exact ⟨hs.1.planned hplanned, hcounts⟩
  · rw [hrest]
    exact ⟨⟨hs.1.tiles, hs.1.pushes⟩, ⟨hs.2.seen, hs.2.head⟩⟩

/-- The loop keeps its windows in order if no batch is in the block that is never asked for. -/
theorem run_wellPlanned (hP : E.toProvider.Truthful count) (hmono : Monotone count)
    (h0 : cfg.startBlock = 0 → count 0 = 0) (disk : ResumeFile) (rounds : ℕ) :
    WellPlanned cfg count (runL1Sync cfg E disk rounds).state.planner := by
  refine runL1Sync_state (fun s => WellPlanned cfg count s.planner ∧ Counts count s.planner)
    (fun s => WellPlanned cfg count s.planner) (fun _ h => h.1) (fun _ => WellPlanned.init cfg count)
    (fun _ _ _ => WellPlanned.init cfg count) (fun _ planner hstart => ?_)
    (fun s s' hs h => step_wellPlanned hP hmono hs h) rounds
  have hens := Planner.start_ensures hP h0
  rw [hstart] at hens
  exact ⟨(WellPlanned.init cfg count).planned hens.1, hens.2⟩

/-! ### A start at block 0 -/

/-- From block 0 the first window is planned without a request. -/
theorem plan_from_zero (cfg : L1SyncConfig) (P : Provider) (h : cfg.startBlock = 0) :
    ∃ q, (Planner.init cfg).plan cfg P = .ok q ∧ q.pushed = [⟨⟨0, 0, false⟩, 0, 1, 0⟩] := by
  have hhi : cfg.scanHi 0 = 0 := by
    unfold L1SyncConfig.scanHi
    cases cfg.endBlock <;> simp
  have hend : cfg.pastEnd 0 = false := by
    unfold L1SyncConfig.pastEnd
    cases cfg.endBlock <;> simp
  obtain ⟨room, hroom⟩ : ∃ room, cfg.prefetch = room + 1 := by
    have : 1 ≤ cfg.prefetch := le_max_right _ _
    exact ⟨cfg.prefetch - 1, by omega⟩
  have hstep : (Planner.init cfg).fillStep cfg P =
      .ok ((Planner.init cfg).push ⟨0, 0, false⟩ 0) := by
    simp [Planner.fillStep, Planner.countOrHead, Planner.barrenEnd, Planner.init, h, hhi, bind,
      Except.bind]
  refine ⟨(Planner.init cfg).push ⟨0, 0, false⟩ 0, ?_, rfl⟩
  have hfill : Planner.fill cfg P room ((Planner.init cfg).push ⟨0, 0, false⟩ 0) =
      .ok ((Planner.init cfg).push ⟨0, 0, false⟩ 0) := by
    cases room with
    | zero => rfl
    | succ room => simp [Planner.fill, Planner.push, Planner.init]
  have hhead : (Planner.init cfg).refreshHead cfg P = .ok (Planner.init cfg) := by
    simp [Planner.refreshHead, Planner.init, h]
  unfold Planner.plan
  rw [hhead]
  show Planner.fill cfg P (cfg.prefetch - 0) (Planner.init cfg) = _
  rw [Nat.sub_zero, hroom, Planner.fill]
  have hcond : (Planner.init cfg).spawnCursor ≤ (Planner.init cfg).safeHead ∧
      cfg.pastEnd (Planner.init cfg).spawnCursor = false := by
    show cfg.startBlock ≤ 0 ∧ cfg.pastEnd cfg.startBlock = false
    rw [h]
    exact ⟨le_rfl, hend⟩
  rw [if_pos hcond, hstep]
  exact hfill

theorem consume_pushed (cfg : L1SyncConfig) (E : L1Env γ β) (s : SyncState β) (hrun : s.completion = none) :
    Ensures (fun t => t.planner.pushed = s.planner.pushed) (fun t => t.planner.pushed = s.planner.pushed)
      (s.consume cfg E) := by
  refine consume_ensures hrun rfl rfl (fun _ _ _ _ _ _ => rfl) (fun _ _ _ _ _ _ _ _ => rfl)
    (fun _ _ _ _ _ _ _ => rfl) (fun w rest range d feed _ _ _ => ⟨rfl, fun outcome persisted => ?_⟩)
  obtain ⟨_, _, _, _, hflush⟩ := maybeWriteCheckpoint_frame
    ((s.pop rest range feed).advance w range).queueCheckpoint outcome persisted
  rw [hflush]
  rfl

/-- The first round of a run from block 0 puts block 0 in flight as an empty window. -/
theorem run_from_zero (hzero : cfg.startBlock = 0) (hfront : cfg.l2Frontier.filter (· ≤ cfg.dbTipL2) = none)
    (E : L1Env γ β) (disk : ResumeFile) :
    (runL1Sync cfg E disk 1).state.planner.pushed = [⟨⟨0, 0, false⟩, 0, 1, 0⟩] := by
  obtain ⟨q, hq, hpushed⟩ := plan_from_zero cfg E.toProvider hzero
  have hstart : Planner.start cfg E.toProvider = .ok (Planner.init cfg) := by
    simp [Planner.start, hzero]
  have hend : cfg.pastEnd cfg.startBlock = false := by
    unfold L1SyncConfig.pastEnd
    rw [hzero]
    cases cfg.endBlock <;> simp
  unfold runL1Sync
  simp only [hfront, hstart]
  show (iterate (syncBody cfg E) 1 (SyncState.init cfg disk)).state.planner.pushed = _
  have hround : syncRound cfg E (SyncState.init cfg disk) =
      ({ SyncState.init cfg disk with planner := q }.consume cfg E >>=
        fun s => .ok { s with round := s.round + 1 }) := by
    unfold syncRound
    rw [if_neg (by simp [SyncState.init, hend])]
    rw [plan_of_ok hq]
    rfl
  have hcons := consume_pushed cfg E { SyncState.init cfg disk with planner := q } rfl
  have hbody : syncBody cfg E (SyncState.init cfg disk) =
      (syncRound cfg E (SyncState.init cfg disk) >>= fun s => .ok (some s)) := rfl
  cases hc : { SyncState.init cfg disk with planner := q }.consume cfg E with
  | error e =>
    rw [hc] at hcons hround
    rw [hround] at hbody
    rw [iterate_error hbody]
    exact hcons.trans hpushed
  | ok t =>
    rw [hc] at hcons hround
    rw [hround] at hbody
    rw [iterate_some hbody]
    exact hcons.trans hpushed

/-! ### Completeness -/

/-- **The planner misses nothing** exactly if the run does not start at an L1 block 0 that holds a batch. -/
theorem planner_complete_iff (E : L1Env γ β) (cfg : L1SyncConfig) (disk : ResumeFile)
    (hP : E.toProvider.Truthful count) (hmono : Monotone count) :
    (∀ rounds, Complete cfg count (runL1Sync cfg E disk rounds).state.planner) ↔
      ((∃ f, cfg.l2Frontier = some f ∧ f ≤ cfg.dbTipL2) ∨ (cfg.startBlock = 0 → count 0 = 0)) := by
  constructor
  · intro h
    by_cases hfront : ∃ f, cfg.l2Frontier = some f ∧ f ≤ cfg.dbTipL2
    · exact Or.inl hfront
    · refine Or.inr (fun hzero => ?_)
      have hnone : cfg.l2Frontier.filter (· ≤ cfg.dbTipL2) = none := by
        rw [Option.filter_eq_none_iff]
        intro f hf hle
        exact hfront ⟨f, hf, by simpa using hle⟩
      have hseen := (h 1).seen ⟨⟨0, 0, false⟩, 0, 1, 0⟩ (by rw [run_from_zero hzero hnone]; simp)
      exact hseen.2.symm
  · rintro (⟨f, hf, hle⟩ | h0) rounds
    · have hsome : cfg.l2Frontier.filter (· ≤ cfg.dbTipL2) = some f := by
        rw [Option.filter_eq_some_iff]
        exact ⟨hf, by simpa using hle⟩
      unfold runL1Sync
      simp only [hsome]
      exact (WellPlanned.init cfg count).complete
    · exact (run_wellPlanned hP hmono h0 disk rounds).complete

/-- **The planner misses nothing.**  No L1 has a batch in its block 0. -/
theorem planner_complete (E : L1Env γ β) (cfg : L1SyncConfig) (disk : ResumeFile)
    (hP : E.toProvider.Truthful count) (hmono : Monotone count) (hzero : count 0 = 0) (rounds : ℕ) :
    Complete cfg count (runL1Sync cfg E disk rounds).state.planner :=
  (planner_complete_iff E cfg disk hP hmono).mpr (Or.inr fun _ => hzero) rounds

theorem planner_complete_posted :
    Complete .small (L1History.postedAt [2, 5]).count (runL1Sync .small ((L1History.postedAt [2, 5]).env
      (fun clock => 3 + clock % 4) (fun _ => 0) (fun _ => .saved)) .absent 40).state.planner :=
  planner_complete _ _ .absent (L1History.env_truthful (L1History.postedAt_fits (by decide)) _ _ _).provider
    L1History.count_monotone (by decide) 40

end ArbReth.Sync
