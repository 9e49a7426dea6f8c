import ArbReth.L1.Reader
import ArbReth.Lib.Runs

/-! # The L1 window planner

`run_l1_sync` (`arb-reth-sync/src/l1_sync.rs`) walks the L1 chain in windows.  It keeps a queue of windows in flight, and
decides for each one from the batch count whether it has to be scanned.

`Planner` holds the variables of that part of the loop: `start`, `refreshHead` and `fill` are its
three pieces.  A request that fails ends the run, so a failure carries the planner it happened in.
`pushed` is the history of the windows put in flight and has no counterpart in the source.

What planning does is `Planned`: it appends windows that continue at the cursor, stay at or below the
safe head and the end block, and are empty only where the batch count does not rise (`plan_ensures`).
It rests on `Counts`: the count the planner remembers belongs to the block before the cursor, and the
count it caches for the safe head is the one of the safe head. -/

namespace ArbReth.Sync

open ArbReth.L1 ArbReth.Runs

/-! ### Configuration and errors -/

/-- `L1SyncConfig`, without what only the transport and the derivation read. -/
structure L1SyncConfig where
  startBlock : ℕ
  endBlock : Option ℕ
  startDelayedCount : ℕ
  startL2Block : ℕ
  dbTipL2 : ℕ
  l2Frontier : Option ℕ
  genesisBlock : ℕ
  /-- Whether there is a checkpoint path. -/
  checkpointing : Bool
  batchWindow : ℕ
  confirmations : ℕ
  prefetchWindows : ℕ
deriving DecidableEq, Repr

/-- The requests of a run. -/
inductive Operation where
  | batchCountStart
  | getBlockNumber
  | batchCountSafeHead
  | batchCountWinTo
  | batchCountScanHi
  | firstBlockWithBatchCountAbove
  | resolveBatches
  | deriveFromResolved
deriving DecidableEq, Repr

inductive L1SyncError where
  | provider (operation : Operation)
  | derivation (operation : Operation)
  | persistedTip
  | prefetchTask (fromBlock toBlock : ℕ)
  | frontierNotReached (frontier lastDerived : ℕ)
deriving DecidableEq, Repr

/-- A transport failure can be retried, any other failure is one of the derivation. -/
def L1SyncError.l1 (operation : Operation) : L1Error → L1SyncError
  | .rpc => .provider operation
  | .decode => .derivation operation

def L1SyncError.isRetryable : L1SyncError → Bool
  | .provider _ => true
  | _ => false

namespace L1SyncConfig

def prefetch (cfg : L1SyncConfig) : ℕ := max cfg.prefetchWindows 1

def window (cfg : L1SyncConfig) : ℕ := max cfg.batchWindow 1

/-- The cursor is past the end block. -/
def pastEnd (cfg : L1SyncConfig) (cursor : ℕ) : Bool := cfg.endBlock.any (· < cursor)

/-- The safe head, capped by the end block. -/
def scanHi (cfg : L1SyncConfig) (safeHead : ℕ) : ℕ := cfg.endBlock.elim safeHead (min · safeHead)

/-- Windows of one block, one in flight, from the start of both chains. -/
def small : L1SyncConfig where
  startBlock := 0
  endBlock := none
  startDelayedCount := 0
  startL2Block := 0
  dbTipL2 := 0
  l2Frontier := none
  genesisBlock := 0
  checkpointing := true
  batchWindow := 1
  confirmations := 0
  prefetchWindows := 1

end L1SyncConfig

/-! ### Windows -/

/-- A range of L1 blocks in flight: to be scanned, or known to be empty. -/
structure Window where
  fromBlock : ℕ
  toBlock : ℕ
  scanned : Bool
deriving DecidableEq, Repr

/-- A window put in flight: the safe head at that time, and the cursor and the batch count after. -/
structure Push where
  window : Window
  safeHead : ℕ
  spawnCursor : ℕ
  seenBatchCount : ℕ
deriving DecidableEq, Repr

/-- The windows follow each other without a gap or an overlap, from `a` up to before `b`. -/
def Tiles : ℕ → List Window → ℕ → Prop
  | a, [], b => a = b
  | a, w :: ws, b => w.fromBlock = a ∧ w.fromBlock ≤ w.toBlock ∧ Tiles (w.toBlock + 1) ws b

theorem Tiles.append {a b c : ℕ} {ws vs : List Window} (h₁ : Tiles a ws b) (h₂ : Tiles b vs c) :
    Tiles a (ws ++ vs) c := by
  induction ws generalizing a with
  | nil =>
    obtain rfl : a = b := h₁
    exact h₂
  | cons w ws ih => exact ⟨h₁.1, h₁.2.1, ih h₁.2.2⟩

theorem Tiles.exists_window {a b n : ℕ} {ws : List Window} (h : Tiles a ws b) (h1 : a ≤ n)
    (h2 : n < b) : ∃ w ∈ ws, w.fromBlock ≤ n ∧ n ≤ w.toBlock := by
  induction ws generalizing a with
  | nil =>
    have hab : a = b := h
    omega
  | cons w ws ih =>
    obtain ⟨hfrom, -, htail⟩ := h
    by_cases hn : n ≤ w.toBlock
    · exact ⟨w, List.mem_cons_self, by omega, hn⟩
    · obtain ⟨v, hv, hmem⟩ := ih htail (by omega)
      exact ⟨v, List.mem_cons_of_mem _ hv, hmem⟩

/-! ### Planning -/

structure Planner where
  spawnCursor : ℕ
  safeHead : ℕ
  seenBatchCount : ℕ
  headBatchCount : ℕ
  inflight : List Window
  /-- The moment of the next request. -/
  clock : ℕ
  pushed : List Push
deriving DecidableEq, Repr

namespace Planner

/-- A batch-count request. -/
def countAt (P : Provider) (operation : Operation) (atBlock : ℕ) (p : Planner) :
    Except (L1SyncError × Planner) (ℕ × Planner) :=
  match batchCount P p.clock atBlock with
  | .error e => .error (.l1 operation e, p)
  | .ok (count, clock) => .ok (count, { p with clock })

/-- The count at a block, which is cached for the safe head. -/
def countOrHead (P : Provider) (operation : Operation) (atBlock : ℕ) (p : Planner) :
    Except (L1SyncError × Planner) (ℕ × Planner) :=
  if atBlock = p.safeHead then .ok (p.headBatchCount, p) else p.countAt P operation atBlock

/-- The variables before the loop. -/
def init (cfg : L1SyncConfig) : Planner := ⟨cfg.startBlock, 0, 0, 0, [], 0, []⟩

/-- The planner at the start of the loop; it has seen the batches before the start block. -/
def start (cfg : L1SyncConfig) (P : Provider) : Except (L1SyncError × Planner) Planner :=
  if cfg.startBlock = 0 then .ok (init cfg)
  else do
    let (count, p) ← (init cfg).countAt P .batchCountStart (cfg.startBlock - 1)
    .ok { p with seenBatchCount := count }

/-- A new safe head, once the cursor has passed the old one. -/
def refreshHead (cfg : L1SyncConfig) (P : Provider) (p : Planner) :
    Except (L1SyncError × Planner) Planner :=
  if p.safeHead < p.spawnCursor then
    match P.getBlockNumber p.clock with
    | none => .error (.provider .getBlockNumber, p)
    | some head =>
      let safeHead := head - cfg.confirmations
      match batchCount P (p.clock + 1) safeHead with
      | .error e => .error (.l1 .batchCountSafeHead e, p)
      | .ok (headBatchCount, clock) => .ok { p with clock, safeHead, headBatchCount }
  else .ok p

/-- Put a window in flight. -/
def push (p : Planner) (w : Window) (seenBatchCount : ℕ) : Planner :=
  { p with
    inflight := p.inflight ++ [w]
    spawnCursor := w.toBlock + 1
    seenBatchCount
    pushed := p.pushed ++ [⟨w, p.safeHead, w.toBlock + 1, seenBatchCount⟩] }

/-- The end of a barren stretch that reaches at least to `winTo`. -/
def barrenEnd (P : Provider) (winTo scanHi : ℕ) (p : Planner) :
    Except (L1SyncError × Planner) (ℕ × Planner) := do
  let (hiBatchCount, p) ← p.countOrHead P .batchCountScanHi scanHi
  if hiBatchCount = p.seenBatchCount then .ok (scanHi, p)
  else
    match firstBlockWithBatchCountAbove P p.clock (winTo + 1) scanHi p.seenBatchCount with
    | .error e => .error (.l1 .firstBlockWithBatchCountAbove e, p)
    | .ok (block, clock) => .ok (block - 1, { p with clock })

/-- One round of the fill loop: the next window is scanned if it delivers a batch, and otherwise
extended to the whole barren stretch. -/
def fillStep (cfg : L1SyncConfig) (P : Provider) (p : Planner) :
    Except (L1SyncError × Planner) Planner := do
  let fromBlock := p.spawnCursor
  let scanHi := cfg.scanHi p.safeHead
  let winTo := min (fromBlock + cfg.window - 1) scanHi
  let (winBatchCount, p) ← p.countOrHead P .batchCountWinTo winTo
  if p.seenBatchCount < winBatchCount then .ok (p.push ⟨fromBlock, winTo, true⟩ winBatchCount)
  else do
    let (toBlock, p) ← p.barrenEnd P winTo scanHi
    .ok (p.push ⟨fromBlock, toBlock, false⟩ p.seenBatchCount)

/-- The fill loop.  Every round puts one window in flight, so the room left in the queue bounds the
rounds. -/
def fill (cfg : L1SyncConfig) (P : Provider) : ℕ → Planner → Except (L1SyncError × Planner) Planner
  | 0, p => .ok p
  | room + 1, p =>
    if p.spawnCursor ≤ p.safeHead ∧ cfg.pastEnd p.spawnCursor = false then do
      let p ← p.fillStep cfg P
      fill cfg P room p
    else .ok p

/-- Head refresh and fill, as at the top of each round of the sync loop. -/
def plan (cfg : L1SyncConfig) (P : Provider) (p : Planner) : Except (L1SyncError × Planner) Planner := do
  let p ← p.refreshHead cfg P
  fill cfg P (cfg.prefetch - p.inflight.length) p

end Planner

/-! ### How planning fails -/

namespace Planner

/-- A failure of planning is one of the provider. -/
def ProviderFailure (e : L1SyncError × Planner) : Prop := ∃ operation, e.1 = .provider operation

variable {cfg : L1SyncConfig} {P : Provider}

theorem countAt_fails (operation : Operation) (atBlock : ℕ) (p : Planner) :
    FailsOnly ProviderFailure (p.countAt P operation atBlock) := by
  intro e h
  unfold countAt at h
  cases hb : batchCount P p.clock atBlock with
  | error e' =>
    rw [hb, batchCount_error hb] at h
    rw [← Except.error.inj h]
    exact ⟨operation, rfl⟩
  | ok out =>
    rw [hb] at h
    cases h

theorem countOrHead_fails (operation : Operation) (atBlock : ℕ) (p : Planner) :
    FailsOnly ProviderFailure (p.countOrHead P operation atBlock) := by
  unfold countOrHead
  split
  · exact FailsOnly.ok _
  · exact countAt_fails operation atBlock p

theorem barrenEnd_fails (winTo scanHi : ℕ) (p : Planner) : FailsOnly ProviderFailure (p.barrenEnd P winTo scanHi) := by
  refine (countOrHead_fails _ _ p).bind fun out => ?_
  obtain ⟨hiBatchCount, q⟩ := out
  simp only
  split
  · exact FailsOnly.ok _
  · intro e h
    cases hs : firstBlockWithBatchCountAbove P q.clock (winTo + 1) scanHi q.seenBatchCount with
    | error e' =>
      rw [hs, firstBlockWithBatchCountAbove_error hs] at h
      rw [← Except.error.inj h]
      exact ⟨_, rfl⟩
    | ok out =>
      rw [hs] at h
      cases h

theorem fillStep_fails (p : Planner) : FailsOnly ProviderFailure (p.fillStep cfg P) := by
  refine (countOrHead_fails _ _ p).bind fun out => ?_
  obtain ⟨winBatchCount, q⟩ := out
  simp only
  split
  · exact FailsOnly.ok _
  · exact (barrenEnd_fails _ _ q).bind fun _ => FailsOnly.ok _

theorem fill_fails (room : ℕ) (p : Planner) : FailsOnly ProviderFailure (fill cfg P room p) := by
  induction room generalizing p with
  | zero => exact FailsOnly.ok p
  | succ room ih =>
    unfold fill
    split
    · exact (fillStep_fails p).bind fun q => ih q
    · exact FailsOnly.ok p

theorem refreshHead_fails (p : Planner) : FailsOnly ProviderFailure (p.refreshHead cfg P) := by
  unfold refreshHead
  split
  · cases P.getBlockNumber p.clock with
    | none =>
      intro e h
      rw [← Except.error.inj h]
      exact ⟨_, rfl⟩
    | some head =>
      intro e h
      cases hb : batchCount P (p.clock + 1) (head - cfg.confirmations) with
      | error e' =>
        simp only [hb, batchCount_error hb] at h
        rw [← Except.error.inj h]
        exact ⟨_, rfl⟩
      | ok out =>
        simp only [hb] at h
        cases h
  · exact FailsOnly.ok p

theorem plan_fails (p : Planner) : FailsOnly ProviderFailure (p.plan cfg P) :=
  (refreshHead_fails p).bind fun q => fill_fails _ q

theorem start_fails (cfg : L1SyncConfig) (P : Provider) : FailsOnly ProviderFailure (start cfg P) := by
  unfold start
  split
  · exact FailsOnly.ok _
  · exact (countAt_fails _ _ _).bind fun _ => FailsOnly.ok _

end Planner

/-! ### What planning does -/

variable {cfg : L1SyncConfig} {P : Provider} {count : ℕ → ℕ} {p q r : Planner}

/-- The batch count before a block; nothing is posted before block 0. -/
def countBefore (count : ℕ → ℕ) : ℕ → ℕ
  | 0 => 0
  | n + 1 => count n

theorem countBefore_le (hmono : Monotone count) {m n : ℕ} (h : m ≤ n) : countBefore count m ≤ count n := by
  cases m with
  | zero => exact Nat.zero_le _
  | succ m => exact hmono (by omega)

/-- What a window put in flight satisfies. -/
structure Push.Sound (cfg : L1SyncConfig) (count : ℕ → ℕ) (x : Push) : Prop where
  safe : x.window.toBlock ≤ x.safeHead
  capped : ∀ e, cfg.endBlock = some e → x.window.toBlock ≤ e
  cursor : x.spawnCursor = x.window.toBlock + 1
  seen : x.seenBatchCount = count x.window.toBlock
  barren : x.window.scanned = false →
    ∀ n, x.window.fromBlock ≤ n → n ≤ x.window.toBlock → count n = countBefore count n

/-- From `p` to `q` the planner put sound windows in flight that continue at the cursor of `p`. -/
def Planned (cfg : L1SyncConfig) (count : ℕ → ℕ) (p q : Planner) : Prop :=
  ∃ xs : List Push, q.pushed = p.pushed ++ xs ∧ q.inflight = p.inflight ++ xs.map (·.window) ∧
    Tiles p.spawnCursor (xs.map (·.window)) q.spawnCursor ∧ ∀ x ∈ xs, x.Sound cfg count

theorem Planned.of_eq (h1 : q.pushed = p.pushed) (h2 : q.inflight = p.inflight)
    (h3 : q.spawnCursor = p.spawnCursor) : Planned cfg count p q :=
  ⟨[], by simp [h1], by simp [h2], h3.symm, by simp⟩

theorem Planned.trans (h₁ : Planned cfg count p q) (h₂ : Planned cfg count q r) : Planned cfg count p r := by
  obtain ⟨xs, hp, hi, ht, hs⟩ := h₁
  obtain ⟨ys, hp', hi', ht', hs'⟩ := h₂
  refine ⟨xs ++ ys, by rw [hp', hp, List.append_assoc], by rw [hi', hi, List.map_append,
    List.append_assoc], ?_, fun x hx => ?_⟩
  · rw [List.map_append]
    exact ht.append ht'
  · rcases List.mem_append.mp hx with hx | hx
    · exact hs x hx
    · exact hs' x hx

theorem Planned.inflight_pushed (h : Planned cfg count p q)
    (hp : ∀ w ∈ p.inflight, ∃ x ∈ p.pushed, x.window = w) : ∀ w ∈ q.inflight, ∃ x ∈ q.pushed, x.window = w := by
  obtain ⟨xs, hpushed, hinfl, -, -⟩ := h
  intro w hw
  rw [hpushed]
  rw [hinfl] at hw
  rcases List.mem_append.mp hw with hw | hw
  · obtain ⟨x, hx, rfl⟩ := hp w hw
    exact ⟨x, List.mem_append_left _ hx, rfl⟩
  · obtain ⟨x, hx, rfl⟩ := List.mem_map.mp hw
    exact ⟨x, List.mem_append_right _ hx, rfl⟩

theorem Planned.inflight_tiles {cursor : ℕ} (h : Planned cfg count p q) (ht : Tiles cursor p.inflight p.spawnCursor) :
    Tiles cursor q.inflight q.spawnCursor := by
  obtain ⟨xs, -, hinfl, htiles, -⟩ := h
  rw [hinfl]
  exact ht.append htiles

/-- The counts the planner works with are those of the blocks they stand for. -/
structure Counts (count : ℕ → ℕ) (p : Planner) : Prop where
  seen : p.seenBatchCount = countBefore count p.spawnCursor
  head : p.spawnCursor ≤ p.safeHead → p.headBatchCount = count p.safeHead

namespace Planner

theorem countAt_ensures (hP : P.Truthful count) (operation : Operation) (n : ℕ) (p : Planner) :
    Ensures (fun out => out.1 = count n ∧ ∃ clock, out.2 = { p with clock }) (· = p)
      (p.countAt P operation n) := by
  unfold countAt
  cases h : batchCount P p.clock n with
  | error e => exact rfl
  | ok out => exact ⟨batchCount_ok hP h, out.2, rfl⟩

theorem countOrHead_ensures (hP : P.Truthful count) (hc : Counts count p)
    (hle : p.spawnCursor ≤ p.safeHead) (operation : Operation) (n : ℕ) :
    Ensures (fun out => out.1 = count n ∧ ∃ clock, out.2 = { p with clock }) (· = p)
      (p.countOrHead P operation n) := by
  unfold countOrHead
  by_cases hn : n = p.safeHead
  · rw [if_pos hn]
    exact ⟨by rw [hn]; exact hc.head hle, p.clock, rfl⟩
  · rw [if_neg hn]
    exact countAt_ensures hP operation n p

theorem barrenEnd_ensures (hP : P.Truthful count) (hmono : Monotone count) (hc : Counts count p)
    (hle : p.spawnCursor ≤ p.safeHead) {winTo scanHi : ℕ} (hwin : winTo ≤ scanHi)
    (hfrom : p.spawnCursor ≤ winTo) (hbarren : count winTo ≤ p.seenBatchCount) :
    Ensures (fun out => winTo ≤ out.1 ∧ out.1 ≤ scanHi ∧ count out.1 = p.seenBatchCount ∧
        ∃ clock, out.2 = { p with clock })
      (fun q => ∃ clock, q = { p with clock }) (p.barrenEnd P winTo scanHi) := by
  refine Ensures.bind ((countOrHead_ensures hP hc hle _ scanHi).mono (fun _ h => h)
    (fun q hq => ⟨p.clock, hq⟩)) ?_
  rintro ⟨hiCount, q⟩ ⟨hhi, clock, rfl⟩
  simp only at hhi
  subst hhi
  have hseen := hc.seen
  have hge : p.seenBatchCount ≤ count winTo := by
    rw [hseen]
    exact countBefore_le hmono hfrom
  by_cases heq : count scanHi = p.seenBatchCount
  · simp only [heq, if_true]
    exact ⟨hwin, le_rfl, heq, clock, rfl⟩
  · simp only [if_neg heq]
    have habove : p.seenBatchCount < count scanHi := by
      have := hmono hwin
      omega
    cases hs : firstBlockWithBatchCountAbove P clock (winTo + 1) scanHi p.seenBatchCount with
    | error e => exact ⟨clock, rfl⟩
    | ok out =>
      obtain ⟨block, clock'⟩ := out
      have hlt : winTo < scanHi := by
        rcases Nat.lt_or_eq_of_le hwin with h | h
        · exact h
        · rw [h] at hbarren
          omega
      obtain ⟨⟨⟨hlo, -⟩, hleast⟩, hhi⟩ := firstBlockWithBatchCountAbove_ok hP hmono hlt habove hs
      refine ⟨by show winTo ≤ block - 1; omega, by show block - 1 ≤ scanHi; omega, ?_, clock', rfl⟩
      -- the block before the one found is not above the count seen
      show count (block - 1) = p.seenBatchCount
      have hmid := hmono (show winTo ≤ block - 1 by omega)
      have hnot : ¬ p.seenBatchCount < count (block - 1) := by
        intro hlt'
        by_cases hw : winTo + 1 ≤ block - 1
        · have := hleast ⟨hw, hlt'⟩
          omega
        · obtain rfl : block - 1 = winTo := by omega
          omega
      omega

theorem push_planned {w : Window} {clock : ℕ} (hmono : Monotone count)
    (hfrom : w.fromBlock = p.spawnCursor) (hle : w.fromBlock ≤ w.toBlock) (hhi : w.toBlock ≤ cfg.scanHi p.safeHead)
    (hbarren : w.scanned = false → count w.toBlock = countBefore count w.fromBlock) :
    Planned cfg count p ({ p with clock }.push w (count w.toBlock)) := by
  refine ⟨[⟨w, p.safeHead, w.toBlock + 1, count w.toBlock⟩], rfl, rfl, ⟨hfrom, hle, rfl⟩, ?_⟩
  intro x hx
  obtain rfl := List.mem_singleton.mp hx
  have hcap : w.toBlock ≤ p.safeHead ∧ ∀ e, cfg.endBlock = some e → w.toBlock ≤ e := by
    unfold L1SyncConfig.scanHi at hhi
    cases he : cfg.endBlock with
    | none =>
      rw [he] at hhi
      exact ⟨hhi, by simp⟩
    | some e =>
      rw [he] at hhi
      have hmin : w.toBlock ≤ min e p.safeHead := hhi
      refine ⟨by omega, fun e' he' => ?_⟩
      cases he'
      omega
  refine ⟨hcap.1, hcap.2, rfl, rfl, fun hs n h1 h2 => ?_⟩
  -- the count is the same at both ends, so it does not rise in between
  have hflat := hbarren hs
  have e1 : countBefore count w.fromBlock ≤ countBefore count n := by
    cases n with
    | zero =>
      obtain h0 : w.fromBlock = 0 := by
        have : w.fromBlock ≤ 0 := h1
        omega
      rw [h0]
    | succ n =>
      cases hf : w.fromBlock with
      | zero => exact Nat.zero_le _
      | succ m =>
        have hm : m + 1 ≤ n + 1 := hf ▸ h1
        exact hmono (show m ≤ n by omega)
  have e2 : countBefore count n ≤ count n := countBefore_le hmono le_rfl
  have e3 : count n ≤ count w.toBlock := hmono h2
  omega

/-- What a piece of planning leaves, whether it succeeds or a request fails. -/
abbrev Keeps (cfg : L1SyncConfig) (count : ℕ → ℕ) (p q : Planner) : Prop :=
  Planned cfg count p q ∧ Counts count q

theorem fillStep_ensures (hP : P.Truthful count) (hmono : Monotone count) (hc : Counts count p)
    (hle : p.spawnCursor ≤ p.safeHead) (hend : cfg.pastEnd p.spawnCursor = false) :
    Ensures (Keeps cfg count p) (Keeps cfg count p) (p.fillStep cfg P) := by
  have hhi : p.spawnCursor ≤ cfg.scanHi p.safeHead := by
    unfold L1SyncConfig.scanHi
    unfold L1SyncConfig.pastEnd at hend
    cases he : cfg.endBlock with
    | none => exact hle
    | some e =>
      rw [he] at hend
      have hge : ¬ e < p.spawnCursor := by simpa using hend
      exact le_min (by omega) hle
  have hwindow : 1 ≤ cfg.window := le_max_right _ _
  have hseen := hc.seen
  refine Ensures.bind ((countOrHead_ensures hP hc hle _ _).mono (fun _ h => h)
    (fun q hq => by rw [hq]; exact ⟨Planned.of_eq rfl rfl rfl, hc⟩)) ?_
  rintro ⟨winCount, q⟩ ⟨hwin, clock, rfl⟩
  simp only at hwin
  subst hwin
  generalize hto : min (p.spawnCursor + cfg.window - 1) (cfg.scanHi p.safeHead) = winTo
  have hto1 : p.spawnCursor ≤ winTo := by omega
  have hto2 : winTo ≤ cfg.scanHi p.safeHead := by omega
  simp only
  by_cases hrise : p.seenBatchCount < count winTo
  · rw [if_pos hrise]
    refine ⟨push_planned hmono rfl hto1 hto2 nofun, rfl, fun hle' => hc.head ?_⟩
    have : winTo + 1 ≤ p.safeHead := hle'
    omega
  · rw [if_neg hrise]
    have hc' : Counts count { p with clock } := ⟨hc.seen, hc.head⟩
    refine Ensures.bind ((barrenEnd_ensures hP hmono hc' hle hto2 hto1 (by simpa using hrise)).mono
      (fun _ h => h) (fun q hq => ?_)) ?_
    · obtain ⟨clock', rfl⟩ := hq
      exact ⟨Planned.of_eq rfl rfl rfl, hc.seen, hc.head⟩
    · rintro ⟨toBlock, q⟩ ⟨h1, h2, h3, clock', rfl⟩
      simp only at h1 h2 h3
      have hseen' : p.seenBatchCount = count toBlock := h3.symm
      simp only [hseen']
      refine ⟨push_planned hmono rfl (by show p.spawnCursor ≤ toBlock; omega) h2 (fun _ => ?_), rfl,
        fun hle' => hc.head ?_⟩
      · show count toBlock = countBefore count p.spawnCursor
        rw [← hseen, h3]
      · have : toBlock + 1 ≤ p.safeHead := hle'
        omega

theorem fill_ensures (hP : P.Truthful count) (hmono : Monotone count) (room : ℕ) : ∀ {p : Planner}, Counts count p →
      Ensures (Keeps cfg count p) (Keeps cfg count p) (fill cfg P room p) := by
  induction room with
  | zero => exact fun hc => ⟨Planned.of_eq rfl rfl rfl, hc⟩
  | succ room ih =>
    intro p hc
    unfold fill
    split
    · rename_i hcond
      refine Ensures.bind (fillStep_ensures hP hmono hc hcond.1 hcond.2) ?_
      rintro q ⟨hpq, hc'⟩
      exact (ih hc').mono (fun r hr => ⟨hpq.trans hr.1, hr.2⟩) (fun r hr => ⟨hpq.trans hr.1, hr.2⟩)
    · exact ⟨Planned.of_eq rfl rfl rfl, hc⟩

theorem refreshHead_ensures (hP : P.Truthful count) (hc : Counts count p) :
    Ensures (Keeps cfg count p) (Keeps cfg count p) (p.refreshHead cfg P) := by
  unfold refreshHead
  split
  · cases P.getBlockNumber p.clock with
    | none => exact ⟨Planned.of_eq rfl rfl rfl, hc⟩
    | some head =>
      simp only
      cases hb : batchCount P (p.clock + 1) (head - cfg.confirmations) with
      | error e => exact ⟨Planned.of_eq rfl rfl rfl, hc⟩
      | ok out => exact ⟨Planned.of_eq rfl rfl rfl, hc.seen, fun _ => batchCount_ok hP hb⟩
  · exact ⟨Planned.of_eq rfl rfl rfl, hc⟩

/-- **Planning** puts sound windows in flight and keeps the counts, whether it succeeds or a request
fails. -/
theorem plan_ensures (hP : P.Truthful count) (hmono : Monotone count) (hc : Counts count p) :
    Ensures (Keeps cfg count p) (Keeps cfg count p) (p.plan cfg P) := by
  refine Ensures.bind (refreshHead_ensures hP hc) ?_
  rintro q ⟨hpq, hc'⟩
  exact (fill_ensures hP hmono _ hc').mono (fun r hr => ⟨hpq.trans hr.1, hr.2⟩)
    (fun r hr => ⟨hpq.trans hr.1, hr.2⟩)

/-- At the start the counts are right, unless the run starts at block 0 and there is a batch in it. -/
theorem start_ensures (hP : P.Truthful count) (h0 : cfg.startBlock = 0 → count 0 = 0) :
    Ensures (Keeps cfg count (init cfg)) (· = init cfg) (start cfg P) := by
  unfold start
  split
  · rename_i hs
    refine ⟨Planned.of_eq rfl rfl rfl, ?_, fun _ => (h0 hs).symm⟩
    show 0 = countBefore count cfg.startBlock
    rw [hs]
    rfl
  · rename_i hs
    refine Ensures.bind (countAt_ensures hP _ _ _) ?_
    rintro ⟨n, q⟩ ⟨hn, clock, rfl⟩
    refine ⟨Planned.of_eq rfl rfl rfl, ?_, fun hle => ?_⟩
    · show n = countBefore count cfg.startBlock
      obtain ⟨m, hm⟩ : ∃ m, cfg.startBlock = m + 1 := ⟨cfg.startBlock - 1, by omega⟩
      rw [hm]
      rw [hm] at hn
      exact hn
    · exact absurd (Nat.le_zero.mp hle) hs

end Planner

end ArbReth.Sync
