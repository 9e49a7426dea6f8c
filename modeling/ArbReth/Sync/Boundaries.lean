import ArbReth.Sync.Coverage
import ArbReth.Sync.Checkpoints

/-! # Runs on a fixed L1 history

On a fixed L1 history, a run that starts at a true boundary stays on the chain of that history: what it
has derived so far is the chain from its start on, and every boundary it reaches is a true one
(`OnChain`).  The window planner may not lose a batch for this, so the start must not be an L1 block 0
with a batch in it (`L1History.Usable`).

What a run derives is then determined by the history alone: two runs from different boundaries derive the
same blocks above any L2 block both have started at or below (`OnChain.same_blocks`). -/

namespace ArbReth.Sync

open ArbReth.L1 ArbReth.Loop ArbReth.Runs

variable {γ β : Type} {H : L1History γ β} {cfg : L1SyncConfig} {E : L1Env γ β} {s s' : SyncState β}
  {disk : ResumeFile}

/-- The start point of a configuration, as a boundary. -/
def L1SyncConfig.start (cfg : L1SyncConfig) : L1ResumeCheckpoint :=
  ⟨cfg.startBlock, cfg.startDelayedCount, cfg.startL2Block⟩

/-- A true boundary from which the planner misses nothing. -/
structure L1History.Usable (H : L1History γ β) (cp : L1ResumeCheckpoint) : Prop where
  boundary : H.TrueBoundary cp
  zero : cp.l1Block = 0 → H.batches 0 = []

theorem L1History.Usable.count_zero {cp : L1ResumeCheckpoint} (h : H.Usable cp) (hzero : cp.l1Block = 0) :
    H.count 0 = 0 := by
  rw [(L1History.count_eq_countBefore_iff 0).mpr (h.zero hzero)]
  rfl

/-! ### The invariant -/

structure OnChain (H : L1History γ β) (cfg : L1SyncConfig) (s : SyncState β) : Prop where
  planned : WellPlanned cfg H.count s.planner
  windows : ∀ w ∈ s.planner.inflight, ∃ x ∈ s.planner.pushed, x.window = w
  /-- The windows in flight continue at the block up to which everything is consumed. -/
  inflight : s.completion = none → Tiles s.consumeCursor s.planner.inflight s.planner.spawnCursor
  next : s.completion = none → s.feed.nextL2 = cfg.startL2Block + 1 + s.derived.flatten.length
  /-- What is derived is the chain from the start up to some L1 block: while the run goes on, up to the
  block it has consumed. -/
  chain : ∃ n messages after, cfg.startBlock ≤ n ∧
    H.derive cfg.startDelayedCount (H.range cfg.startBlock n) = some (messages, after) ∧
    numberFrom 0 s.derived.flatten = numberFrom 0 messages ∧
    (s.completion = none → n = s.consumeCursor ∧ after = s.delayed)
  reached : ∀ cp ∈ s.reached, H.Usable cp

theorem OnChain.congr (h : OnChain H cfg s) (hp : s'.planner = s.planner)
    (hcc : s'.consumeCursor = s.consumeCursor) (hd : s'.delayed = s.delayed) (hf : s'.feed = s.feed)
    (hder : s'.derived = s.derived) (hc : s'.completion = none → s.completion = none)
    (hr : s'.reached = s.reached) : OnChain H cfg s' := by
  refine ⟨?_, ?_, fun hn => ?_, fun hn => ?_, ?_, ?_⟩
  · rw [hp]
    exact h.planned
  · rw [hp]
    exact h.windows
  · rw [hp, hcc]
    exact h.inflight (hc hn)
  · rw [hf, hder]
    exact h.next (hc hn)
  · obtain ⟨n, messages, after, hle, hmsgs, heq, hrun⟩ := h.chain
    rw [hder, hcc, hd]
    exact ⟨n, messages, after, hle, hmsgs, heq, fun hn => hrun (hc hn)⟩
  · rw [hr]
    exact h.reached

theorem OnChain.initial (H : L1History γ β) (cfg : L1SyncConfig) (disk : ResumeFile) :
    OnChain H cfg (SyncState.init cfg disk) := by
  refine ⟨WellPlanned.init cfg H.count, (fun _ h => nomatch h), fun _ => rfl, fun _ => rfl,
    ⟨cfg.startBlock, [], cfg.startDelayedCount, le_rfl, ?_, rfl, fun _ => ⟨rfl, rfl⟩⟩,
    (fun _ h => nomatch h)⟩
  rw [L1History.range_self]
  rfl

/-! ### Consuming a window -/

variable {w : Window}

/-- The batches of a window are those of the history, whether it is scanned or not. -/
theorem resolve_eq (hE : H.Truthful E) (hs : OnChain H cfg s) (hw : w ∈ s.planner.inflight)
    {resolved : List (ResolvedBatch γ)} (h : s.resolve E w = .ok resolved) :
    resolved = H.range w.fromBlock (w.toBlock + 1) := by
  unfold SyncState.resolve at h
  split at h
  · split at h
    · exact hE.resolveBatches _ _ _ _ (mapError_ok.mp h)
    · rename_i hscan
      obtain ⟨x, hx, rfl⟩ := hs.windows w hw
      have hbarren := (hs.planned.pushes x hx).barren (by simpa using hscan)
      rw [← Except.ok.inj h, L1History.range_eq_nil]
      intro n h1 h2
      exact hbarren n h1 (by omega)
  · cases h

variable {range : DerivedRange β}

theorem derive_eq (hE : H.Truthful E) (h : s.derive E w (H.range w.fromBlock (w.toBlock + 1)) = .ok range) :
    ∃ messages, H.derive s.delayed (H.range w.fromBlock (w.toBlock + 1)) = some (messages, range.nextDelayedCount) ∧
      range.messages = numberFrom 0 messages := by
  have hder := mapError_ok.mp h
  unfold deriveFromResolved at hder
  cases hlast : (H.range w.fromBlock (w.toBlock + 1)).getLast? with
  | none =>
    rw [hlast] at hder
    rw [List.getLast?_eq_none_iff.mp hlast]
    cases hder
    exact ⟨[], rfl, rfl⟩
  | some last =>
    rw [hlast] at hder
    obtain ⟨ms, hms, hrange⟩ := bind_ok.mp hder
    cases hrange
    obtain ⟨messages, after, hd, hnum⟩ := hE.assemble _ _ _ _ _ hms
    rw [L1History.derive_after hd hlast] at hd
    exact ⟨messages, hd, hnum⟩

variable {r : Except Unit WindowDelivery}

theorem OnChain.consumed (hE : H.Truthful E) (hs : OnChain H cfg s) {rest : List Window} {feed : Feed β}
    (h : Consumed cfg E s w rest range r feed) : Tiles (w.toBlock + 1) rest s.planner.spawnCursor ∧
      ∃ messages, cfg.startBlock ≤ w.toBlock + 1 ∧
        H.derive cfg.startDelayedCount (H.range cfg.startBlock (w.toBlock + 1)) =
          some (messages, range.nextDelayedCount) ∧
        numberFrom 0 (s.derived ++ [range.messages]).flatten = numberFrom 0 messages := by
  have htiles := hs.inflight h.running
  rw [h.front] at htiles
  obtain ⟨hfrom, hle, hrest⟩ := htiles
  obtain ⟨resolved, hres, hder⟩ := h.derived
  obtain rfl := resolve_eq hE hs (by rw [h.front]; exact List.mem_cons_self) hres
  obtain ⟨new, hnew, hnum⟩ := derive_eq hE hder
  obtain ⟨n, messages, after, hn, hmsgs, heq, hrun⟩ := hs.chain
  obtain ⟨rfl, rfl⟩ := hrun h.running
  rw [hfrom] at hnew hle
  refine ⟨hrest, messages ++ new, by omega, ?_, ?_⟩
  · rw [← L1History.range_append hn (show s.consumeCursor ≤ w.toBlock + 1 by omega)]
    exact L1History.derive_append.mpr ⟨messages, s.delayed, new, hmsgs, hnew, rfl⟩
  · have hlen : s.derived.flatten.length = messages.length := by
      simpa using congrArg List.length heq
    rw [List.flatten_append, List.flatten_singleton, numberFrom_append, numberFrom_append, heq, hlen,
      hnum, numberFrom_numberFrom]

/-- A run that ends while it delivers a window has derived the chain up to the end of the window. -/
theorem OnChain.stop (hE : H.Truthful E) (hs : OnChain H cfg s) {rest : List Window} {feed : Feed β}
    (h : Consumed cfg E s w rest range r feed) (completion : L1SyncCompletion) :
    OnChain H cfg { s.pop rest range feed with completion := some completion } := by
  obtain ⟨-, messages, hle, hmsgs, heq⟩ := hs.consumed hE h
  refine ⟨⟨hs.planned.tiles, hs.planned.pushes⟩, fun v hv => hs.windows v ?_, (fun h => nomatch h),
    (fun h => nomatch h), ⟨_, messages, _, hle, hmsgs, heq, (fun h => nomatch h)⟩, hs.reached⟩
  rw [h.front]
  exact List.mem_cons_of_mem _ hv

theorem OnChain.boundary (hstart : H.Usable cfg.start) (hs : OnChain H cfg s) (hrun : s.completion = none) :
    H.Usable ⟨s.consumeCursor, s.delayed, s.feed.nextL2 - 1⟩ := by
  obtain ⟨n, messages, after, hn, hmsgs, heq, hcur⟩ := hs.chain
  obtain ⟨rfl, rfl⟩ := hcur hrun
  obtain ⟨first, hfirst, hl2⟩ := hstart.boundary
  have hlen : s.derived.flatten.length = messages.length := by
    simpa using congrArg List.length heq
  have hnext := hs.next hrun
  have hl2' : cfg.startL2Block = H.genesisBlock + first.length := hl2
  refine ⟨⟨first ++ messages, ?_, ?_⟩, fun hzero => hstart.zero ?_⟩
  · show H.derive H.firstDelayedCount (H.range 0 s.consumeCursor) = _
    rw [← L1History.range_append (Nat.zero_le _) hn]
    exact L1History.derive_append.mpr ⟨first, cfg.startDelayedCount, messages, hfirst, hmsgs, rfl⟩
  · show s.feed.nextL2 - 1 = _
    rw [List.length_append]
    omega
  · have hcc : s.consumeCursor = 0 := hzero
    show cfg.startBlock = 0
    omega

/-! ### Whole runs -/

theorem step_onChain (hE : H.Truthful E) (hstart : H.Usable cfg.start)
    (hs : OnChain H cfg s ∧ Counts H.count s.planner) (h : SyncStep cfg E s s') :
    OnChain H cfg s' ∧ Counts H.count s'.planner := by
  obtain ⟨hs, hcounts⟩ := hs
  obtain ⟨hwell, hcounts'⟩ :=
    step_wellPlanned hE.provider L1History.count_monotone ⟨hs.planned, hcounts⟩ h
  refine ⟨?_, hcounts'⟩
  cases h with
  | exhaust hrun hend => exact hs.congr rfl rfl rfl rfl rfl (fun h => nomatch h) rfl
  | tick => exact hs.congr rfl rfl rfl rfl rfl (fun h => h) rfl
  | flush outcome persisted =>
    have hr := reached_maybeWriteCheckpoint s outcome persisted
    obtain ⟨_, _, _, _, hflush⟩ := maybeWriteCheckpoint_frame s outcome persisted
    rw [hflush] at hr ⊢
    exact hs.congr rfl rfl rfl rfl rfl (fun h => h) hr
  | queue hrun hck =>
    refine ⟨hs.planned, hs.windows, hs.inflight, hs.next, hs.chain, fun cp hcp => ?_⟩
    rw [reached_queueCheckpoint] at hcp
    rcases List.mem_append.mp hcp with hcp | hcp
    · exact hs.reached cp hcp
    · obtain rfl := List.mem_singleton.mp hcp
      exact hs.boundary hstart hrun
  | plan planner hp =>
    obtain ⟨hplanned, -⟩ := (Planner.plan_ensures hE.provider L1History.count_monotone hcounts).leaves hp
    exact ⟨hwell, hplanned.inflight_pushed hs.windows, fun hrun => hplanned.inflight_tiles (hs.inflight hrun),
      hs.next, hs.chain, hs.reached⟩
  | close hcons => exact hs.stop hE hcons _
  | reach hcons hd => exact hs.stop hE hcons _
  | @advance w rest range d feed hcons hd =>
    obtain ⟨hrest, messages, hle, hmsgs, heq⟩ := hs.consumed hE hcons
    refine ⟨hwell, fun v hv => hs.windows v ?_, fun _ => hrest, fun _ => ?_,
      ⟨_, messages, _, hle, hmsgs, heq, fun _ => ⟨rfl, rfl⟩⟩, hs.reached⟩
    · rw [hcons.front]
      exact List.mem_cons_of_mem _ hv
    · have hnext := enqueueDerivedWindow_nextL2 hd hcons.delivered
      have hold := hs.next hcons.running
      show feed.nextL2 = cfg.startL2Block + 1 + (s.derived ++ [range.messages]).flatten.length
      rw [List.flatten_append, List.flatten_singleton, List.length_append]
      omega

/-- **A run stays on the chain** of the history, whatever fails. -/
theorem run_onChain (hE : H.Truthful E) (hstart : H.Usable cfg.start) (disk : ResumeFile) (rounds : ℕ) :
    OnChain H cfg (runL1Sync cfg E disk rounds).state := by
  refine runL1Sync_state (fun s => OnChain H cfg s ∧ Counts H.count s.planner) (OnChain H cfg)
    (fun _ h => h.1) (fun _ => OnChain.initial H cfg disk)
    (fun _ _ _ => (OnChain.initial H cfg disk).congr rfl rfl rfl rfl rfl (fun h => nomatch h) rfl)
    (fun _ planner hplanner => ?_) (fun s s' hs h => step_onChain hE hstart hs h) rounds
  have hens := Planner.start_ensures hE.provider (fun h => hstart.count_zero h)
  rw [hplanner] at hens
  obtain ⟨hplanned, hcounts⟩ := hens
  have hinit := OnChain.initial H cfg disk
  exact ⟨⟨hinit.planned.planned hplanned, hplanned.inflight_pushed hinit.windows,
    fun _ => hplanned.inflight_tiles rfl, hinit.next, hinit.chain, hinit.reached⟩, hcounts⟩

/-! ### The same blocks -/

/-- The messages a run has derived for the L2 blocks above `tip`, under their block numbers. -/
def blocksAbove (cfg : L1SyncConfig) (tip : ℕ) (s : SyncState β) : List (BroadcastFeedMessage β) :=
  numberFrom (tip + 1) (s.derived.flatten.drop (tip - cfg.startL2Block))

/-- The blocks above the tip are those of the chain from its beginning. -/
theorem OnChain.blocksAbove_eq (hs : OnChain H cfg s) (hstart : H.Usable cfg.start) {tip : ℕ}
    (htip : cfg.startL2Block ≤ tip) :
    ∃ n chain after, H.derive H.firstDelayedCount (H.range 0 n) = some (chain, after) ∧
      blocksAbove cfg tip s = numberFrom (tip + 1) (chain.drop (tip - H.genesisBlock)) ∧
      (s.completion = none → n = s.consumeCursor) := by
  obtain ⟨n, messages, after, hn, hmsgs, heq, hcur⟩ := hs.chain
  obtain ⟨first, hfirst, hl2⟩ := hstart.boundary
  have hl2' : cfg.startL2Block = H.genesisBlock + first.length := hl2
  refine ⟨n, first ++ messages, after, ?_, ?_, fun hrun => (hcur hrun).1⟩
  · rw [← L1History.range_append (Nat.zero_le _) hn]
    exact L1History.derive_append.mpr ⟨first, cfg.startDelayedCount, messages, hfirst, hmsgs, rfl⟩
  · have hnil : first.drop (tip - H.genesisBlock) = [] := List.drop_of_length_le (by omega)
    have hoff : tip - H.genesisBlock - first.length = tip - cfg.startL2Block := by omega
    rw [List.drop_append, hnil, List.nil_append, hoff]
    exact numberFrom_drop_congr heq _ _

/-- The chain up to an earlier L1 block is a first part of the chain up to a later one. -/
theorem L1History.derive_isPrefix {m n mid after : ℕ} {ms ns : List (BroadcastFeedMessage β)} (hle : m ≤ n)
    (hm : H.derive H.firstDelayedCount (H.range 0 m) = some (ms, mid))
    (hn : H.derive H.firstDelayedCount (H.range 0 n) = some (ns, after)) : ms <+: ns := by
  rw [← L1History.range_append (Nat.zero_le m) hle] at hn
  obtain ⟨ms₁, mid₁, ms₂, h1, -, rfl⟩ := L1History.derive_append.mp hn
  rw [hm] at h1
  cases h1
  exact List.prefix_append _ _

/-- Two runs have derived the same blocks above the tip, as far as both have come; once they have
consumed the same L1 blocks, exactly the same. -/
structure SameBlocks (cfg cfg' : L1SyncConfig) (tip : ℕ) (s s' : SyncState β) : Prop where
  comparable : blocksAbove cfg tip s <+: blocksAbove cfg' tip s' ∨
    blocksAbove cfg' tip s' <+: blocksAbove cfg tip s
  equal : s.completion = none → s'.completion = none → s.consumeCursor = s'.consumeCursor →
    blocksAbove cfg tip s = blocksAbove cfg' tip s'

/-- Where a run started does not matter for what it derives above the tip. -/
theorem OnChain.same_blocks {cfg' : L1SyncConfig} {tip : ℕ} (hs : OnChain H cfg s)
    (hs' : OnChain H cfg' s') (hstart : H.Usable cfg.start) (hstart' : H.Usable cfg'.start)
    (htip : cfg.startL2Block ≤ tip) (htip' : cfg'.startL2Block ≤ tip) : SameBlocks cfg cfg' tip s s' := by
  obtain ⟨m, ms, mid, hm, hblocks, hcur⟩ := hs.blocksAbove_eq hstart htip
  obtain ⟨n, ns, after, hn, hblocks', hcur'⟩ := hs'.blocksAbove_eq hstart' htip'
  refine ⟨?_, fun hrun hrun' heq => ?_⟩
  · rw [hblocks, hblocks']
    rcases Nat.le_total m n with hle | hle
    · exact Or.inl (numberFrom_isPrefix ((L1History.derive_isPrefix hle hm hn).drop _) _)
    · exact Or.inr (numberFrom_isPrefix ((L1History.derive_isPrefix hle hn hm).drop _) _)
  · have hmn : m = n := by rw [hcur hrun, hcur' hrun', heq]
    subst hmn
    rw [hm] at hn
    cases hn
    rw [hblocks, hblocks']

end ArbReth.Sync
