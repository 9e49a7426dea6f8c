import ArbReth.Sync.CachedRun

/-! # Runs that get complete answers or none

In a world in which every request gets the complete answer or fails in transport, the batches of a window
are those of the chain, or resolving them fails in transport (`OnTrack.resolve`); and a window of a chain that
derives from complete answers is derived, or deriving it fails in transport (`Consistent.derive`).

A run in such a world stays at boundaries of that derivation (`OnTrack`, kept by every step), and it carries
the caches of that derivation (`Consistent`). -/

namespace ArbReth.Sync

open ArbReth.L1 ArbReth.Derive ArbReth.Loop ArbReth.Runs ArbReth.Interrupted ArbReth.Buffered

variable {D : Deployment} {W : World} {cfg : L1SyncConfig} {s s' : SyncState FeedBody}

/-! ### The batch count -/

variable {caches : DeriveCaches} {starts : List L1ResumeCheckpoint}

theorem batchLogs_succ (n : ℕ) :
    D.reader.batchLogs 0 (n + 1) = D.reader.batchLogs 0 n ++ D.reader.batchLogs (n + 1) (n + 1) := by
  have hblocks : blocks 0 (n + 1) = blocks 0 n ++ blocks (n + 1) (n + 1) := by
    show List.range' 0 (n + 1 + 1) = List.range' 0 (n + 1) ++ List.range' (n + 1) (n + 1 + 1 - (n + 1))
    rw [Nat.add_sub_cancel_left, ← List.range'_append_1, Nat.zero_add]
  simp only [SequencerInboxReader.batchLogs, SequencerInboxReader.batchFilter, History.getLogs, hblocks, List.flatMap_append, List.filter_append]
  rfl

theorem batchCount_succ (n : ℕ) :
    D.batchCount (n + 1) = D.batchCount n + (D.reader.batchLogs (n + 1) (n + 1)).length := by
  rw [Deployment.batchCount, batchLogs_succ, List.length_append]
  rfl

theorem batchCount_monotone : Monotone D.batchCount :=
  monotone_nat_of_le_succ fun n => by
    rw [batchCount_succ]
    exact Nat.le_add_right _ _

theorem batchLogs_zero : D.reader.batchLogs 0 0 = [] := by
  refine List.eq_nil_iff_forall_not_mem.mpr fun log hlog => ?_
  obtain ⟨⟨n, -, hn, hmem⟩, -⟩ := History.mem_getLogs.mp hlog
  obtain rfl : n = 0 := Nat.le_zero.mp hn
  have hgenesis : D.reader.history.logs 0 = [] := D.chain.genesis
  rw [hgenesis] at hmem
  cases hmem

/-- Where the count does not rise there is no batch to resolve. -/
theorem resolve_barren {a b : ℕ} (h : ∀ n, a ≤ n → n ≤ b → D.batchCount n = countBefore D.batchCount n) :
    D.resolve a b = .ok [] := by
  have hlogs : D.reader.batchLogs a b = [] := by
    refine List.eq_nil_iff_forall_not_mem.mpr fun log hlog => ?_
    obtain ⟨⟨n, ha, hb, hmem⟩, haccepts⟩ := History.mem_getLogs.mp hlog
    have hn : log ∈ D.reader.batchLogs n n := History.mem_getLogs.mpr ⟨⟨n, le_rfl, le_rfl, hmem⟩, haccepts⟩
    have hnil : D.reader.batchLogs n n = [] := by
      cases n with
      | zero => exact batchLogs_zero
      | succ n =>
        have hflat := h (n + 1) ha hb
        rw [batchCount_succ] at hflat
        have hlen : D.batchCount n + (D.reader.batchLogs (n + 1) (n + 1)).length = D.batchCount n := hflat
        exact List.length_eq_zero_iff.mp (by omega)
    rw [hnil] at hn
    cases hn
  rw [Deployment.resolve, SequencerInboxReader.resolveBatches_eq, hlogs, List.mergeSort_nil]
  rfl

/-! ### What a world of complete answers gives -/

variable {resolved : List (DeliveredBatch × Bytes)}

theorem resolve_env (hW : W.Complete D) (caches : DeriveCaches) {s : SyncState FeedBody} {w : Window}
    (hresolve : D.resolve w.fromBlock w.toBlock = .ok resolved)
    (hbarren : w.scanned = false → D.resolve w.fromBlock w.toBlock = .ok []) :
    s.resolve (W.env D caches) w = .ok (resolved.map resolvedBatch) ∨
      s.resolve (W.env D caches) w = .error (.provider .resolveBatches, s) ∨ (W.taskEnds s.round = false ∧
        s.resolve (W.env D caches) w = .error (.prefetchTask w.fromBlock w.toBlock, s)) := by
  unfold SyncState.resolve
  by_cases htask : (W.env D caches).taskEnds s.round = true
  · rw [if_pos htask]
    by_cases hscan : w.scanned = true
    · rw [if_pos hscan]
      have hint := SequencerInboxReader.resolveBatchesAt_interrupts (S := D.reader) rfl
        (hW.resolving s.round w.fromBlock w.toBlock) D.beacon w.fromBlock w.toBlock
      have henv : (W.env D caches).resolveBatches s.round w.fromBlock w.toBlock =
          ((D.reader.resolveBatchesAt (W.resolving s.round w.fromBlock w.toBlock) D.beacon w.fromBlock
            w.toBlock).map (·.map resolvedBatch)).mapError l1Error := rfl
      rw [henv]
      rcases hint.ok hresolve with h | h
      · rw [h]
        exact Or.inl rfl
      · rw [h]
        exact Or.inr (Or.inl rfl)
    · rw [if_neg hscan]
      cases hresolve.symm.trans (hbarren (by simpa using hscan))
      exact Or.inl rfl
  · rw [if_neg htask]
    exact Or.inr (Or.inr ⟨Bool.not_eq_true _ ▸ htask, rfl⟩)

/-- The reader a run has in a round gives what a reader with complete answers gives, or fails in transport. -/
theorem delayedReader_interrupts (hW : W.Complete D) (round : ℕ) :
    ∃ R, D.Reads R ∧ ∀ a b, Interrupts .rpc (W.delayedReader D round a b) (R a b) := by
  refine ⟨fun a b => fetchDelayed D.codec D.contracts D.chain.toHistory D.bridge a b
    ((W.schedule round a b).order (originLogs D.chain.toHistory a b)) (W.schedule round a b).metasFirst,
    fun a b => ⟨_, _, (W.schedule round a b).completes _, rfl⟩, fun a b => ?_⟩
  exact fetchDelayedAt_interrupts (hW.reading round a b) D.codec D.contracts D.bridge a b _

theorem map_contents (resolved : List (DeliveredBatch × Bytes)) :
    (resolved.map resolvedBatch).map (·.contents) = resolved := by
  rw [List.map_map]
  exact List.map_id resolved

variable {range : DerivedRange FeedBody}

theorem derive_env_ok {s : SyncState FeedBody} {w : Window} (h : s.derive (W.env D caches) w (resolved.map resolvedBatch) = .ok range) :
    (∃ out, W.derive D caches s.round resolved w.toBlock s.delayed = .ok out) ∧
      range.nextDelayedCount = lastCount s.delayed resolved := by
  have hder := mapError_ok.mp h
  unfold Sync.deriveFromResolved at hder
  rw [List.getLast?_map] at hder
  unfold lastCount
  cases hlast : resolved.getLast? with
  | none =>
    rw [hlast] at hder
    cases hder
    rw [List.getLast?_eq_none_iff.mp hlast]
    exact ⟨⟨_, rfl⟩, rfl⟩
  | some last =>
    rw [hlast] at hder
    obtain ⟨messages, hmessages, hrange⟩ := bind_ok.mp hder
    cases hrange
    refine ⟨?_, rfl⟩
    have hassemble := mapError_ok.mp hmessages
    rw [map_contents] at hassemble
    cases hout : W.derive D caches s.round resolved w.toBlock s.delayed with
    | error err =>
      rw [hout] at hassemble
      cases hassemble
    | ok out => exact ⟨out, rfl⟩

theorem derive_env_error {s t : SyncState FeedBody} {w : Window} {e : L1SyncError} (h : s.derive (W.env D caches) w (resolved.map resolvedBatch) = .error (e, t)) :
    ∃ err, W.derive D caches s.round resolved w.toBlock s.delayed = .error err ∧
      e = .l1 .deriveFromResolved (l1Error err) := by
  obtain ⟨e', hder, he⟩ := mapError_error.mp h
  cases he
  unfold Sync.deriveFromResolved at hder
  rw [List.getLast?_map] at hder
  cases hlast : resolved.getLast? with
  | none =>
    rw [hlast] at hder
    cases hder
  | some last =>
    rw [hlast] at hder
    rcases bind_error.mp hder with hassemble | ⟨messages, -, h⟩
    · obtain ⟨err, herr, rfl⟩ := mapError_error.mp hassemble
      rw [map_contents] at herr
      cases hout : W.derive D caches s.round resolved w.toBlock s.delayed with
      | error err' =>
        rw [hout] at herr
        obtain rfl := Except.error.inj herr
        exact ⟨err', rfl, rfl⟩
      | ok out =>
        rw [hout] at herr
        cases herr
    · cases h

/-! ### Windows one after another -/

variable {ws : List (ℕ × DelayedReader)}

theorem Deployment.Covers.snoc {a b n : ℕ} {R : DelayedReader} (h : D.Covers a ws b)
    (hle : b ≤ n) (hR : D.Reads R) : D.Covers a (ws ++ [(n, R)]) (n + 1) := by
  induction ws generalizing a with
  | nil =>
    obtain rfl : a = b := h
    exact ⟨hle, hR, rfl⟩
  | cons w ws ih => exact ⟨h.1, h.2.1, ih h.2.2⟩

theorem windows_snoc {a b : ℕ} (h : D.Covers a ws b) (s : Deployment.Carried)
    (w : ℕ × DelayedReader) : D.windows a s (ws ++ [w]) = D.windows a s ws >>= fun s' => D.window b s' w := by
  induction ws generalizing a s with
  | nil =>
    obtain rfl : a = b := h
    show (D.window a s w >>= fun s' => .ok s') = D.window a s w
    cases D.window a s w <;> rfl
  | cons v ws ih =>
    show (D.window a s v >>= fun s' => D.windows (v.1 + 1) s' (ws ++ [w])) =
      (D.window a s v >>= fun s' => D.windows (v.1 + 1) s' ws) >>= fun s' => D.window b s' w
    cases D.window a s v with
    | error e => rfl
    | ok s' => exact ih h.2.2 s'

/-- The batches of a window that starts at a boundary can be resolved. -/
theorem Deployment.Derives.resolve (hD : D.Derives starts) {a b d : ℕ} (ha : D.Boundary starts a d) (hle : a ≤ b)
    {R : DelayedReader} (hR : D.Reads R) : ∃ resolved, D.resolve a b = .ok resolved := by
  obtain ⟨s, hs⟩ := hD a d ha [(b, R)] (b + 1) ⟨hle, hR, rfl⟩
  obtain ⟨s', hwindow, -⟩ := bind_ok.mp hs
  obtain ⟨resolved, hresolved, -⟩ := bind_ok.mp hwindow
  exact ⟨resolved, hresolved⟩

/-! ### The boundaries of a run -/

/-- The planner has missed nothing, and the run is at a boundary and has queued only boundaries. -/
structure OnTrack (D : Deployment) (starts : List L1ResumeCheckpoint) (cfg : L1SyncConfig) (s : SyncState FeedBody) :
    Prop where
  planned : WellPlanned cfg D.batchCount s.planner
  counts : Counts D.batchCount s.planner
  windows : ∀ w ∈ s.planner.inflight, ∃ x ∈ s.planner.pushed, x.window = w
  inflight : s.completion = none → Tiles s.consumeCursor s.planner.inflight s.planner.spawnCursor
  cursor : s.completion = none → D.Boundary starts s.consumeCursor s.delayed
  reached : ∀ cp ∈ s.reached, D.Boundary starts cp.l1Block cp.delayedCount

variable {w : Window} {rest : List Window}

theorem OnTrack.congr (h : OnTrack D starts cfg s) (hp : s'.planner = s.planner)
    (hcc : s'.consumeCursor = s.consumeCursor) (hd : s'.delayed = s.delayed)
    (hc : s'.completion = none → s.completion = none) (hr : s'.reached = s.reached) : OnTrack D starts cfg s' := by
  refine ⟨?_, ?_, ?_, fun hn => ?_, fun hn => ?_, ?_⟩
  · rw [hp]
    exact h.planned
  · rw [hp]
    exact h.counts
  · rw [hp]
    exact h.windows
  · rw [hp, hcc]
    exact h.inflight (hc hn)
  · rw [hcc, hd]
    exact h.cursor (hc hn)
  · rw [hr]
    exact h.reached

theorem OnTrack.front (hs : OnTrack D starts cfg s) (hrun : s.completion = none)
    (hfront : s.planner.inflight = w :: rest) : w.fromBlock = s.consumeCursor ∧ s.consumeCursor ≤ w.toBlock ∧
      Tiles (w.toBlock + 1) rest s.planner.spawnCursor := by
  have htiles := hs.inflight hrun
  rw [hfront] at htiles
  obtain ⟨hfrom, hle, hrest⟩ := htiles
  exact ⟨hfrom, hfrom ▸ hle, hrest⟩

/-- The batches of the window at the front are those of the chain, unless a request fails. -/
theorem OnTrack.resolve (hW : W.Complete D) (hD : D.Derives starts) (hs : OnTrack D starts cfg s)
    (hrun : s.completion = none) (hfront : s.planner.inflight = w :: rest) (caches : DeriveCaches) :
    ∃ resolved, D.resolve s.consumeCursor w.toBlock = .ok resolved ∧
      (s.resolve (W.env D caches) w = .ok (resolved.map resolvedBatch) ∨
        s.resolve (W.env D caches) w = .error (.provider .resolveBatches, s) ∨ (W.taskEnds s.round = false ∧
          s.resolve (W.env D caches) w = .error (.prefetchTask w.fromBlock w.toBlock, s))) := by
  obtain ⟨hfrom, hle, -⟩ := hs.front hrun hfront
  obtain ⟨R, hR, -⟩ := delayedReader_interrupts hW s.round
  obtain ⟨resolved, hresolved⟩ := hD.resolve (hs.cursor hrun) hle hR
  refine ⟨resolved, hresolved, resolve_env hW caches (by rw [hfrom, hresolved]) fun hscan => ?_⟩
  have hmem : w ∈ s.planner.inflight := by
    rw [hfront]
    exact List.mem_cons_self
  obtain ⟨x, hx, rfl⟩ := hs.windows w hmem
  exact resolve_barren ((hs.planned.pushes x hx).barren hscan)

theorem OnTrack.resolve_ok (hW : W.Complete D) (hD : D.Derives starts) (hs : OnTrack D starts cfg s)
    (hrun : s.completion = none) (hfront : s.planner.inflight = w :: rest)
    {batches : List (ResolvedBatch (DeliveredBatch × Bytes))} (h : s.resolve (W.env D caches) w = .ok batches) :
    ∃ resolved, D.resolve s.consumeCursor w.toBlock = .ok resolved ∧ batches = resolved.map resolvedBatch := by
  obtain ⟨resolved, hresolved, hok | herr | ⟨-, herr⟩⟩ := hs.resolve hW hD hrun hfront caches
  · exact ⟨resolved, hresolved, Except.ok.inj (h.symm.trans hok)⟩
  · rw [herr] at h
    cases h
  · rw [herr] at h
    cases h

theorem OnTrack.consumed (hW : W.Complete D) (hD : D.Derives starts) (hs : OnTrack D starts cfg s)
    {r : Except Unit WindowDelivery} {feed : Feed FeedBody} (h : Consumed cfg (W.env D caches) s w rest range r feed) :
    D.Boundary starts (w.toBlock + 1) range.nextDelayedCount := by
  obtain ⟨-, hle, -⟩ := hs.front h.running h.front
  obtain ⟨batches, hbatches, hderive⟩ := h.derived
  obtain ⟨resolved, hresolved, rfl⟩ := hs.resolve_ok hW hD h.running h.front hbatches
  rw [(derive_env_ok hderive).2]
  exact .window (hs.cursor h.running) hle hresolved

theorem OnTrack.stop (hs : OnTrack D starts cfg s) (hfront : s.planner.inflight = w :: rest)
    (range : DerivedRange FeedBody) (feed : Feed FeedBody) (completion : L1SyncCompletion) :
    OnTrack D starts cfg { s.pop rest range feed with completion := some completion } := by
  refine ⟨⟨hs.planned.tiles, hs.planned.pushes⟩, ⟨hs.counts.seen, hs.counts.head⟩, fun v hv => hs.windows v ?_,
    (fun h => nomatch h), (fun h => nomatch h), hs.reached⟩
  rw [hfront]
  exact List.mem_cons_of_mem _ hv

theorem step_onTrack (hW : W.Complete D) (hD : D.Derives starts) (hs : OnTrack D starts cfg s)
    (h : SyncStep cfg (W.env D caches) s s') : OnTrack D starts cfg s' := by
  cases h with
  | exhaust hrun hend => exact hs.congr rfl rfl rfl (fun h => nomatch h) rfl
  | tick => exact hs.congr rfl rfl rfl (fun h => h) rfl
  | flush outcome persisted =>
    have hr := reached_maybeWriteCheckpoint s outcome persisted
    obtain ⟨_, _, _, _, hflush⟩ := maybeWriteCheckpoint_frame s outcome persisted
    rw [hflush] at hr ⊢
    exact hs.congr rfl rfl rfl (fun h => h) hr
  | queue hrun hck =>
    refine ⟨hs.planned, hs.counts, hs.windows, hs.inflight, hs.cursor, fun cp hcp => ?_⟩
    rw [reached_queueCheckpoint] at hcp
    rcases List.mem_append.mp hcp with hcp | hcp
    · exact hs.reached cp hcp
    · obtain rfl := List.mem_singleton.mp hcp
      exact hs.cursor hrun
  | plan planner hp =>
    obtain ⟨hplanned, hcounts⟩ := (Planner.plan_ensures hW.provider batchCount_monotone hs.counts).leaves hp
    exact ⟨hs.planned.planned hplanned, hcounts, hplanned.inflight_pushed hs.windows,
      fun hrun => hplanned.inflight_tiles (hs.inflight hrun), hs.cursor, hs.reached⟩
  | close hcons => exact hs.stop hcons.front _ _ _
  | reach hcons hd => exact hs.stop hcons.front _ _ _
  | @advance w rest range d feed hcons hd =>
    obtain ⟨-, -, hrest⟩ := hs.front hcons.running hcons.front
    refine ⟨⟨hs.planned.tiles, hs.planned.pushes⟩, ⟨hs.counts.seen, hs.counts.head⟩, fun v hv => hs.windows v ?_,
      fun _ => hrest, fun _ => hs.consumed hW hD hcons, hs.reached⟩
    rw [hcons.front]
    exact List.mem_cons_of_mem _ hv

theorem OnTrack.start {planner : Planner} (hW : W.Complete D)
    (hstart : D.Boundary starts cfg.startBlock cfg.startDelayedCount) (disk : ResumeFile)
    (h : Planner.start cfg W.provider = .ok planner) :
    OnTrack D starts cfg { SyncState.init cfg disk with planner } := by
  have hzero : D.batchCount 0 = 0 := by
    rw [Deployment.batchCount, batchLogs_zero]
    rfl
  have hens : Ensures (Planner.Keeps cfg D.batchCount (.init cfg)) (· = .init cfg) (Planner.start cfg W.provider) :=
    Planner.start_ensures hW.provider fun _ => hzero
  rw [h] at hens
  obtain ⟨hplanned, hcounts⟩ := hens
  exact ⟨(WellPlanned.init cfg D.batchCount).planned hplanned, hcounts,
    hplanned.inflight_pushed (fun _ h => nomatch h), fun _ => hplanned.inflight_tiles rfl, fun _ => hstart,
    (fun _ h => nomatch h)⟩

/-! ### The caches of a run -/

/-- Consuming the same windows from complete answers leads to the same cursor and the same caches. -/
def Consistent (D : Deployment) (cfg : L1SyncConfig) (s : SyncState FeedBody) (caches : DeriveCaches) : Prop :=
  s.completion = none → ∃ ws, D.Covers cfg.startBlock ws s.consumeCursor ∧
    D.windows cfg.startBlock ⟨cfg.startDelayedCount, .new⟩ ws = .ok ⟨s.delayed, caches⟩

/-- The window at the front is derived, and the caches stay consistent, unless a request fails. -/
theorem Consistent.derive (hW : W.Complete D) (hD : D.Derives starts)
    (hstart : D.Boundary starts cfg.startBlock cfg.startDelayedCount) (hc : Consistent D cfg s caches)
    (hrun : s.completion = none) (hle : s.consumeCursor ≤ w.toBlock) (hresolved : D.resolve s.consumeCursor w.toBlock = .ok resolved) :
    W.derive D caches s.round resolved w.toBlock s.delayed = .error .rpc ∨
      ∃ out, W.derive D caches s.round resolved w.toBlock s.delayed = .ok out ∧
        ∀ t : SyncState FeedBody, t.consumeCursor = w.toBlock + 1 → t.delayed = lastCount s.delayed resolved →
          Consistent D cfg t out.2 := by
  obtain ⟨ws, hcovers, hws⟩ := hc hrun
  obtain ⟨R, hR, hreads⟩ := delayedReader_interrupts hW s.round
  have hsnoc := hcovers.snoc hle hR
  obtain ⟨after, hafter⟩ := hD _ _ hstart _ _ hsnoc
  have hwindow := hafter
  rw [windows_snoc hcovers, hws, ok_bind] at hwindow
  obtain ⟨resolved', hresolved', h⟩ := bind_ok.mp hwindow
  obtain rfl := Except.ok.inj (hresolved'.symm.trans hresolved)
  obtain ⟨out, hout, h⟩ := bind_ok.mp h
  obtain rfl := Except.ok.inj h
  have hint := deriveFromResolvedCached_interrupts hreads (fun l1Block seqNum hash =>
    SequencerInboxReader.statsForReportedBatchAt_interrupts (S := D.reader) rfl (hW.reporting s.round hash) D.codec
      l1Block seqNum hash) D.codec resolved' w.toBlock s.delayed D.delayedWindow caches
  rcases hint.ok hout with hok | herr
  · refine Or.inr ⟨out, hok, fun t hcursor hdelayed _ => ⟨ws ++ [(w.toBlock, R)], ?_, ?_⟩⟩
    · rw [hcursor]
      exact hsnoc
    · rw [hafter, hdelayed, deriveFromResolvedCached_nextDelayedCount hout]
  · exact Or.inl herr

end ArbReth.Sync
