import ArbReth.Engine.TxLoop

/-! # The order of transactions in a block

The loop attempts every root and then its retries, level by level; with the senders known and the
start-block transaction accepted it comes to an end if only finitely many retries are scheduled, and
the block holds the accepted transactions in that order (`block_order`). -/

namespace ArbReth.Engine

open ArbReth.Runs ArbReth.Loop ArbReth.Evm ArbReth.Worklist

variable {μ β σ δ : Type} {M : BlockEnv μ β σ δ} {c c' : LoopCore β σ δ}
  {s s' s₀ : LoopState β σ δ} {b : BlockBuilder β σ} {msg : μ}

/-! ### The end of the loop -/

/-- Only finitely many retries are scheduled, however long the loop runs. -/
def FiniteRetries (M : BlockEnv μ β σ δ) (s₀ : LoopState β σ δ) : Prop :=
  ∃ N, ∀ n s, iterate (loopBody M) n s₀ = .running s → (s.attempts.flatMap (·.children)).length ≤ N

def SendersRecover (s₀ : LoopState β σ δ) : Prop := ∀ p ∈ s₀.userTxs, ∃ sender, p.2 = .ok sender

/-- Execution accepts the start-block transaction, if there is one. -/
def StartAccepted (M : BlockEnv μ β σ δ) (s₀ : LoopState β σ δ) : Prop :=
  ∀ tx, s₀.first = some tx → accepts M s₀.core.builder (.of .startBlock tx) = true

/-- With senders known and the start-block transaction accepted, no round fails. -/
theorem loop_never_fails (hsetup : setup M msg = .ok s₀) (hsend : SendersRecover s₀)
    (hstart : StartAccepted M s₀) (n : ℕ) (e : ProduceError) : iterate (loopBody M) n s₀ ≠ .failed e := by
  intro hf
  obtain ⟨m, s, -, hrun, herr⟩ := iterate_failed_error hf
  -- senders stay known, and the start-block transaction is taken in the first round
  have hinv : (∀ p ∈ s.userTxs, ∃ sender, p.2 = .ok sender) ∧
      (∀ tx ∈ s.redeems, ∃ sender, tx.sender = .ok sender) ∧ (s.first ≠ none → s = s₀) := by
    refine iterate_invariant (fun s => (∀ p ∈ s.userTxs, ∃ sender, p.2 = .ok sender) ∧
      (∀ tx ∈ s.redeems, ∃ sender, tx.sender = .ok sender) ∧ (s.first ≠ none → s = s₀)) ?_ ?_ hrun
    · refine ⟨hsend, fun tx htx => ?_, fun _ => rfl⟩
      rw [(setup_ok hsetup).1] at htx
      cases htx
    · rintro u u' ⟨huser, hredeem, -⟩ hbody
      obtain ⟨t, v, core, retries, hp, ha, rfl⟩ := loopBody_ok hbody
      have hfirst := LoopState.pop_first hp
      have hsub : (∀ p ∈ v.userTxs, p ∈ u.userTxs) ∧ ∀ tx ∈ v.redeems, tx ∈ u.redeems := by
        obtain ⟨tx, -, -, rfl⟩ | ⟨-, tx, redeems, hr, -, rfl⟩ | ⟨-, -, tx, sender, userTxs, hu, -, rfl⟩ :=
          LoopState.pop_cases hp
        · exact ⟨fun _ h => h, fun _ h => h⟩
        · exact ⟨fun _ h => h, fun _ h => hr ▸ List.mem_cons_of_mem _ h⟩
        · exact ⟨fun _ h => hu ▸ List.mem_cons_of_mem _ h, fun _ h => h⟩
      refine ⟨fun p hmem => huser p (hsub.1 p hmem), fun tx htx => ?_, fun hne => absurd hfirst hne⟩
      rcases List.mem_append.mp htx with htx | htx
      · exact hredeem tx (hsub.2 tx htx)
      · exact attempt_retries_sender ha htx
  obtain ⟨huser, hredeem, hfirst⟩ := hinv
  obtain ⟨t, v, hp, ha⟩ := loopBody_error herr
  rw [(LoopState.pop_core hp).1] at ha
  obtain ⟨tx, htx, rfl, -⟩ | ⟨-, tx, redeems, hr, rfl, -⟩ | ⟨-, -, tx, sender, userTxs, hu, rfl, -⟩ :=
    LoopState.pop_cases hp
  · obtain rfl := hfirst (by simp [htx])
    have hacc := hstart tx htx
    obtain ⟨se, hse, -⟩ | ⟨-, sender, be, hse, he, -⟩ := attempt_error ha
    · simp [accepts, hse] at hacc
    · simp only [accepts, hse] at hacc
      rw [he] at hacc
      cases hacc
  · obtain ⟨sender, hs⟩ := hredeem tx (hr ▸ List.mem_cons_self)
    obtain ⟨se, hse, -⟩ | ⟨hk, -⟩ := attempt_error ha
    · cases hs.symm.trans hse
    · cases hk
  · obtain ⟨a, hs⟩ := huser (tx, sender) (hu ▸ List.mem_cons_self)
    obtain ⟨se, hse, -⟩ | ⟨hk, -⟩ := attempt_error ha
    · cases hs.symm.trans hse
    · cases hk

/-- The loop ends, and from then on more rounds change nothing. -/
theorem loop_ends (hsetup : setup M msg = .ok s₀) (hsend : SendersRecover s₀)
    (hstart : StartAccepted M s₀) (hfin : FiniteRetries M s₀) :
    ∃ N s, ∀ fuel, N ≤ fuel → iterate (loopBody M) fuel s₀ = .done s := by
  obtain ⟨N, hN⟩ := hfin
  have hwork := iterate_work (M := M) (setup_ready hsetup)
  rw [setup_work hsetup] at hwork
  have hbound : ∀ n w, iterate (step (visit M)) n (Work.start s₀.core s₀.roots) = .running w →
      w.scheduled.length ≤ N := by
    intro n w hw
    rw [hwork] at hw
    cases hs : iterate (loopBody M) n s₀ with
    | running s =>
      rw [hs] at hw
      cases hw
      exact hN n s hs
    | done s =>
      rw [hs] at hw
      cases hw
    | failed e =>
      rw [hs] at hw
      cases hw
  have hends := ends_of_bounded hbound
  rw [hwork] at hends
  cases hs : iterate (loopBody M) (s₀.roots.length + N + 1) s₀ with
  | running s =>
    rw [hs] at hends
    obtain ⟨w, hw⟩ | ⟨e, he⟩ := hends
    · cases hw
    · cases he
  | failed e => exact absurd hs (loop_never_fails hsetup hsend hstart _ e)
  | done s => exact ⟨_, s, fun fuel hfuel => iterate_done_stable hs hfuel⟩

theorem attempts_prefix {n : ℕ} (h : iterate (loopBody M) n s = .running s') : s.attempts <+: s'.attempts := by
  refine iterate_invariant (fun m => s.attempts <+: m.attempts) (List.prefix_refl _) ?_ h
  intro m m' hm hbody
  obtain ⟨t, v, core, retries, hp, -, rfl⟩ := loopBody_ok hbody
  rw [← (LoopState.pop_core hp).2] at hm
  exact hm.trans (List.prefix_append _ _)

theorem finiteRetries_of_done {n : ℕ} (hd : iterate (loopBody M) n s₀ = .done s) : FiniteRetries M s₀ := by
  refine ⟨(s.attempts.flatMap (·.children)).length, fun m u hu => ?_⟩
  have hlt : m < n := by
    by_contra hge
    rw [iterate_done_stable hd (by omega)] at hu
    cases hu
  obtain ⟨j, rfl⟩ : ∃ j, n = m + j := ⟨n - m, by omega⟩
  rw [iterate_add hu] at hd
  obtain ⟨k, -, hs⟩ := iterate_done_running hd
  obtain ⟨rest, hrest⟩ := attempts_prefix hs
  rw [← hrest, List.flatMap_append, List.length_append]
  omega

/-! ### The order -/

/-- A transaction that schedules a retry was included and succeeded. -/
theorem succeeded_of_children {vs : List (Visit (LoopCore β σ δ) (Task β))}
    (h : Chain (visit M) c vs c') {v : Visit (LoopCore β σ δ) (Task β)} (hv : v ∈ vs) (hne : v.children ≠ []) :
    ∃ sender out b, v.task.sender = .ok sender ∧
      v.before.builder.executeTransaction M.toArbEvm ⟨v.task.tx, sender⟩ = .ok (out, b) ∧
      out.result.success = true := by
  obtain ⟨m, hm⟩ := h.exec_of_mem hv
  obtain ⟨retries, ha, hch⟩ := visit_ok hm
  obtain ⟨sender, hs, ⟨e, -, -, -, hr⟩ | ⟨out, b, he, -, hr, -⟩⟩ := attempt_ok ha
  · rw [hch, hr] at hne
    exact absurd rfl hne
  · refine ⟨sender, out, b, hs, he, ?_⟩
    by_contra hrev
    rw [hch, hr, scheduleRetries_reverted (by simpa using hrev)] at hne
    exact hne rfl

theorem finish_transactions {block : SealedBlock β} (h : finish M b = .ok block) :
    block.transactions = b.transactions := by
  obtain ⟨⟨headerInfo, receipts, gasUsed⟩, -, h⟩ := bind_ok.mp h
  obtain ⟨hash, -, h⟩ := bind_ok.mp h
  rw [← Except.ok.inj h]

theorem setup_indexed (hsetup : setup M msg = .ok s₀) : Indexed M s₀.core := by
  obtain ⟨-, -, htxs, hidx, hf, he, -⟩ := setup_ok hsetup
  refine ⟨by simp [htxs, hidx], fun _ => ?_, fun _ => ⟨hf, he⟩, fun _ _ => ?_⟩
  · rw [hf, htxs]
    rfl
  · rw [he, htxs]
    rfl

/-- A rejected start-block transaction ends production in the first round. -/
theorem loop_fails_of_start_rejected (hsetup : setup M msg = .ok s₀) (hstart : ¬ StartAccepted M s₀) :
    ∃ e, ∀ fuel, 1 ≤ fuel → iterate (loopBody M) fuel s₀ = .failed (.startBlock e) := by
  unfold StartAccepted at hstart
  push Not at hstart
  obtain ⟨tx, htx, hrej⟩ := hstart
  have hsender : (Task.of .startBlock tx).sender = .ok arbosAddress :=
    (setup_ok hsetup).2.2.2.2.2.2.2 tx htx
  have hpop : s₀.pop = some (.of .startBlock tx, { s₀ with first := none }) := by
    unfold LoopState.pop
    rw [htx]
  cases he : s₀.core.builder.executeTransaction M.toArbEvm ⟨tx, arbosAddress⟩ with
  | ok p =>
    refine absurd ?_ hrej
    unfold accepts
    rw [hsender]
    show (s₀.core.builder.executeTransaction M.toArbEvm ⟨tx, arbosAddress⟩).isOk = true
    rw [he]
    rfl
  | error e =>
    refine ⟨e, fun fuel hfuel => ?_⟩
    obtain ⟨n, rfl⟩ : ∃ n, fuel = n + 1 := ⟨fuel - 1, by omega⟩
    apply iterate_error
    exact loopBody_of_error hpop (attempt_startBlock_error rfl hsender he)

/-- **Block order.**  If the start-block transaction is accepted, the loop attempts it and its retries, then each user
transaction and its retries level by level, each exactly once; the block holds the accepted ones in that order. -/
theorem block_order (hsetup : setup M msg = .ok s₀) (hsend : SendersRecover s₀) :
    (StartAccepted M s₀ → FiniteRetries M s₀ → ∃ N s, (∀ fuel, N ≤ fuel → iterate (loopBody M) fuel s₀ = .done s) ∧
        Ordered (visit M) s₀.core s₀.roots s.attempts s.core ∧
        (s.attempts.map (·.task)).Perm (s₀.roots ++ s.attempts.flatMap (·.children)) ∧
        (∀ v ∈ s.attempts, v.children ≠ [] → ∃ sender out b, v.task.sender = .ok sender ∧
          v.before.builder.executeTransaction M.toArbEvm ⟨v.task.tx, sender⟩ = .ok (out, b) ∧
          out.result.success = true) ∧ ∀ block, finish M s.core.builder = .ok block → block.transactions.map (·.tx) =
            (s.attempts.filter (fun v => accepts M v.before.builder v.task)).map (·.task.tx) ∧
          ∀ subscribed, M.txLogStream = some subscribed → s.core.frontiers.map (·.key) = indexed block.transactions ∧
            s.core.events.map (·.key) = (indexed block.transactions).filter (fun p => subscribed p.1)) ∧
    (¬ StartAccepted M s₀ → ∃ e, ∀ fuel, 1 ≤ fuel → iterate (loopBody M) fuel s₀ = .failed (.startBlock e)) := by
  refine ⟨fun hstart hfin => ?_, loop_fails_of_start_rejected hsetup⟩
  obtain ⟨N, s, hdone⟩ := loop_ends hsetup hsend hstart hfin
  have hord := ordered_of_loop_done hsetup (hdone N le_rfl)
  have hindexed := (setup_indexed hsetup).chain hord.chain
  refine ⟨N, s, hdone, hord, hord.perm, fun v hv => succeeded_of_children hord.chain hv, ?_⟩
  intro block hblock
  rw [finish_transactions hblock]
  refine ⟨transactions_of_chain hord.chain (setup_ok hsetup).2.2.1, fun subscribed hsub => ?_⟩
  exact ⟨hindexed.frontiers (by simp [hsub]), hindexed.events subscribed hsub⟩

/-! ### A scripted environment -/

/-- A transaction that announces its own outcome. -/
inductive Script where
  | rejected (e : EVMError)
  | reverted
  | succeeds (retries : List Script)

/-- Transactions follow their scripts, and the EVM remembers the retries of the last one; a message is a list of
senders and scripts. -/
def scriptEnv (start : Script) :
    BlockEnv (List (Except SignatureError Address × Script)) Script (List Script) Unit where
  transactSystemCall evm _ := .ok ((), evm)
  transact evm tx :=
    match tx.tx.body with
    | .rejected e => .error e
    | .reverted => .ok (⟨⟨false, 1, []⟩, ()⟩, evm)
    | .succeeds retries => .ok (⟨⟨true, 1, [⟨0, [], []⟩]⟩, ()⟩, retries)
  commit evm _ := evm
  chain _ := ⟨0, none⟩
  startBlockPrelude _ := some ⟨0, 0, start⟩
  readBlockHeaderInfo _ := .ok ⟨0, 0, 0, 0⟩
  parentNumber := 0
  parentHash := 0
  digestMessage msg := some (msg.map fun p => ⟨0x02, 1, 1, p.1, p.2⟩)
  builderForNextBlock _ := some []
  baseFeeWei _ := some 0
  setBaseFee evm _ := evm
  isRedeemScheduledLog _ := true
  scheduledRetriesFromRedeemLogs evm _ := ([], evm.map fun script => ⟨2, 2, 0, script⟩)
  frontierId _ _ hash := hash
  txLogStream := some fun _ => true
  assembleBlock _ _ := .ok 0

def scriptStart (start : Script) (msg : List (Except SignatureError Address × Script)) :
    LoopState Script (List Script) Unit where
  core := ⟨⟨⟨[], 0, [], 0⟩, []⟩, 0, [], []⟩
  first := some (ArbInternalTx.envelope ⟨0, 0, start⟩)
  redeems := []
  userTxs := (msg.map fun p => ⟨0x02, 1, 1, p.1, p.2⟩).map fun tx => (tx, tx.sender)
  attempts := []

theorem setup_scriptEnv (start : Script) (msg : List (Except SignatureError Address × Script)) :
    setup (scriptEnv start) msg = .ok (scriptStart start msg) := rfl

theorem scriptStart_senders {start : Script} {msg : List (Except SignatureError Address × Script)}
    (h : ∀ p ∈ msg, ∃ sender, p.1 = .ok sender) : SendersRecover (scriptStart start msg) := by
  intro p hp
  obtain ⟨tx, htx, rfl⟩ := List.mem_map.mp hp
  obtain ⟨q, hq, rfl⟩ := List.mem_map.mp htx
  exact h q hq

theorem scriptStart_accepted (retries : List Script) (msg : List (Except SignatureError Address × Script)) :
    StartAccepted (scriptEnv (.succeeds retries)) (scriptStart (.succeeds retries) msg) := by
  intro tx htx
  rw [← Option.some.inj htx]
  rfl

def cascadeScript : List (Except SignatureError Address × Script) :=
  [(.ok 1, .succeeds [.succeeds [.reverted], .reverted]),
    (.ok 2, .rejected (.transaction .nonceTooHigh)), (.ok 3, .succeeds [])]

theorem block_order_cascade : ∃ N s, (∀ fuel, N ≤ fuel →
        iterate (loopBody (scriptEnv (.succeeds []))) fuel (scriptStart (.succeeds []) cascadeScript) = .done s) ∧
      Ordered (visit (scriptEnv (.succeeds []))) (scriptStart (.succeeds []) cascadeScript).core
        (scriptStart (.succeeds []) cascadeScript).roots s.attempts s.core := by
  have hsend : SendersRecover (scriptStart (.succeeds []) cascadeScript) := by
    apply scriptStart_senders
    simp [cascadeScript]
  obtain ⟨s', hs'⟩ : ∃ s, iterate (loopBody (scriptEnv (.succeeds []))) 8
      (scriptStart (.succeeds []) cascadeScript) = .done s := ⟨_, rfl⟩
  obtain ⟨N, s, hdone, hord, -⟩ := (block_order (setup_scriptEnv _ _) hsend).1
    (scriptStart_accepted [] cascadeScript) (finiteRetries_of_done hs')
  exact ⟨N, s, hdone, hord⟩

/-- With a rejected start-block transaction nothing else is attempted. -/
theorem start_rejected_attempts_nothing_else :
    setup (scriptEnv (.rejected (.transaction .other))) [(.ok 1, .succeeds [])] =
        .ok (scriptStart (.rejected (.transaction .other)) [(.ok 1, .succeeds [])]) ∧
      SendersRecover (scriptStart (.rejected (.transaction .other)) [(.ok 1, .succeeds [])]) ∧
      FiniteRetries (scriptEnv (.rejected (.transaction .other)))
        (scriptStart (.rejected (.transaction .other)) [(.ok 1, .succeeds [])]) ∧
      ∀ fuel, 1 ≤ fuel → iterate (loopBody (scriptEnv (.rejected (.transaction .other)))) fuel
        (scriptStart (.rejected (.transaction .other)) [(.ok 1, .succeeds [])]) =
          .failed (.startBlock (.validation 0 .other)) := by
  have hfail : ∀ n, iterate (loopBody (scriptEnv (.rejected (.transaction .other)))) (n + 1)
      (scriptStart (.rejected (.transaction .other)) [(.ok 1, .succeeds [])]) =
        .failed (.startBlock (.validation 0 .other)) := fun n => iterate_error rfl
  refine ⟨rfl, scriptStart_senders (by simp), ⟨0, fun n s hs => ?_⟩, fun fuel hfuel => ?_⟩
  · cases n with
    | zero =>
      cases hs
      exact le_rfl
    | succ n =>
      rw [hfail n] at hs
      cases hs
  · obtain ⟨n, rfl⟩ : ∃ n, fuel = n + 1 := ⟨fuel - 1, by omega⟩
    exact hfail n

end ArbReth.Engine
