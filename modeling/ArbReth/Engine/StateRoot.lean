import ArbReth.Engine.TxLoop

/-! # The state-root task

While a block is produced (`arb-reth-engine/src/engine.rs`), a task may compute its state root from
the state updates as they are committed.  A hook on the database hands every committed update to the
task and looks for account changes the task cannot represent (`sparse_root_hazards`): one such change
anywhere in the block, and the task's root is discarded.  Without a root from the task the builder
computes it synchronously from the merged state.

The hook is part of the database, so production with a task is `produce` over the EVM that carries
one (`BlockEnv.hooked`).  Removing the hook from the state everywhere gives production without it
(`loop_unhook`), and what the hook has received at the end of the loop is what the block committed:
the prelude's update and that of every included transaction, in order (`loop_fed`).

The trie updates that go with a root are left out.  The task is any function of the updates it received. -/

namespace ArbReth.Engine

open ArbReth.Runs ArbReth.Loop ArbReth.Evm ArbReth.Worklist

variable {μ β σ δ : Type}

/-! ### Hazards -/

/-- What `sparse_root_hazards` reads of an account of a state update. -/
structure AccountStatus where
  isSelfdestructed : Bool
  isCreated : Bool
  isEmpty : Bool
deriving DecidableEq, Repr

def sparseHazardSelfdestruct : UInt8 := (1 : UInt8) <<< 0

def sparseHazardCreatedEmpty : UInt8 := (1 : UInt8) <<< 1

/-- The loop body of `sparse_root_hazards`. -/
def addHazards (preserveCreatedEmptyAccounts : Bool) (hazards : UInt8) (account : AccountStatus) : UInt8 :=
  let hazards := if account.isSelfdestructed then hazards ||| sparseHazardSelfdestruct else hazards
  if preserveCreatedEmptyAccounts && account.isCreated && account.isEmpty then
    hazards ||| sparseHazardCreatedEmpty
  else hazards

def sparseRootHazards (state : List AccountStatus) (preserveCreatedEmptyAccounts : Bool) : UInt8 :=
  state.foldl (addHazards preserveCreatedEmptyAccounts) 0

/-- The account changes the task cannot represent. -/
def AccountStatus.Incompatible (preserveCreatedEmptyAccounts : Bool) (account : AccountStatus) : Prop :=
  account.isSelfdestructed ∨ (preserveCreatedEmptyAccounts ∧ account.isCreated ∧ account.isEmpty)

section Hazards

variable {preserve : Bool} {account : AccountStatus} {state : List AccountStatus} {h : UInt8}

theorem addHazards_eq_zero : addHazards preserve h account = 0 ↔ h = 0 ∧ ¬account.Incompatible preserve := by
  have hself : sparseHazardSelfdestruct ≠ 0 := by decide
  have hcreated : sparseHazardCreatedEmpty ≠ 0 := by decide
  unfold addHazards AccountStatus.Incompatible
  cases account.isSelfdestructed <;> cases preserve <;> cases account.isCreated <;>
    cases account.isEmpty <;> simp [hself, hcreated]

theorem foldl_addHazards_eq_zero :
    state.foldl (addHazards preserve) h = 0 ↔ h = 0 ∧ ∀ a ∈ state, ¬a.Incompatible preserve := by
  induction state generalizing h with
  | nil => simp
  | cons account state ih =>
    rw [List.foldl_cons, ih, addHazards_eq_zero, List.forall_mem_cons, and_assoc]

theorem sparseRootHazards_eq_zero : sparseRootHazards state preserve = 0 ↔ ∀ a ∈ state, ¬a.Incompatible preserve := by
  rw [sparseRootHazards, foldl_addHazards_eq_zero, and_iff_right rfl]

end Hazards

/-! ### The hook -/

/-- The hook on the database: the hazards seen and the updates handed to the task. -/
structure SparseHook (δ : Type) where
  hazardsSeen : UInt8
  updates : List δ

def SparseHook.onState (hazards : δ → UInt8) (h : SparseHook δ) (update : δ) : SparseHook δ :=
  let observed := hazards update
  { hazardsSeen := if observed ≠ 0 then h.hazardsSeen ||| observed else h.hazardsSeen
    updates := h.updates ++ [update] }

/-- The hook after a list of updates. -/
def SparseHook.after (hazards : δ → UInt8) (updates : List δ) : SparseHook δ :=
  updates.foldl (SparseHook.onState hazards) ⟨0, []⟩

section Hook

variable {hazards : δ → UInt8} {updates : List δ}

theorem SparseHook.after_append (update : δ) : SparseHook.after hazards (updates ++ [update]) =
      (SparseHook.after hazards updates).onState hazards update := by
  simp [SparseHook.after]

theorem SparseHook.after_updates : (SparseHook.after hazards updates).updates = updates := by
  induction updates using List.reverseRecOn with
  | nil => rfl
  | append_singleton updates update ih => rw [SparseHook.after_append, SparseHook.onState, ih]

theorem SparseHook.after_hazardsSeen :
    (SparseHook.after hazards updates).hazardsSeen = 0 ↔ ∀ update ∈ updates, hazards update = 0 := by
  induction updates using List.reverseRecOn with
  | nil => simp [SparseHook.after]
  | append_singleton updates update ih =>
    rw [SparseHook.after_append, List.forall_mem_append, ← ih]
    by_cases h : hazards update = 0
    · simp [SparseHook.onState, h]
    · simp [SparseHook.onState, h]

end Hook

/-- The EVM whose database has room for a hook. -/
structure Hooked (σ δ : Type) where
  evm : σ
  hook : Option (SparseHook δ)

/-- Committing an update calls the hook; nothing else does. -/
def hookedEvm (V : ArbEvm β σ δ) (hazards : δ → UInt8) : ArbEvm β (Hooked σ δ) δ where
  transactSystemCall s parentHash :=
    (V.transactSystemCall s.evm parentHash).map fun p => (p.1, { s with evm := p.2 })
  transact s tx := (V.transact s.evm tx).map fun p => (p.1, { s with evm := p.2 })
  commit s update := ⟨V.commit s.evm update, s.hook.map (·.onState hazards update)⟩
  chain s := V.chain s.evm
  startBlockPrelude s := V.startBlockPrelude s.evm
  readBlockHeaderInfo s := V.readBlockHeaderInfo s.evm

/-- The executor over the EVM alone. -/
def unhookExecutor (x : ArbBlockExecutor (Hooked σ δ)) : ArbBlockExecutor σ :=
  ⟨x.evm.evm, x.parentHash, x.receipts, x.gasUsed⟩

def unhookBuilder (b : BlockBuilder β (Hooked σ δ)) : BlockBuilder β σ :=
  ⟨unhookExecutor b.executor, b.transactions⟩

/-- The surroundings of a production with a hook on the database, or with none.  The hook is set on the
fresh builder, before the pre-execution changes. -/
def BlockEnv.hooked (M : BlockEnv μ β σ δ) (hazards : δ → UInt8) (hook : Option (SparseHook δ)) :
    BlockEnv μ β (Hooked σ δ) δ where
  toArbEvm := hookedEvm M.toArbEvm hazards
  parentNumber := M.parentNumber
  parentHash := M.parentHash
  digestMessage := M.digestMessage
  builderForNextBlock msg := (M.builderForNextBlock msg).map fun evm => ⟨evm, hook⟩
  baseFeeWei s := M.baseFeeWei s.evm
  setBaseFee s fee := { s with evm := M.setBaseFee s.evm fee }
  isRedeemScheduledLog := M.isRedeemScheduledLog
  scheduledRetriesFromRedeemLogs s logs :=
    let (evm, retries) := M.scheduledRetriesFromRedeemLogs s.evm logs
    ({ s with evm }, retries)
  frontierId := M.frontierId
  txLogStream := M.txLogStream
  assembleBlock b info := M.assembleBlock (unhookBuilder b) info

/-! ### Root selection and sealing -/

/-- What the task answers when the hook is dropped: a root from the updates it received, or a failure. -/
abbrev StateRootTask (δ : Type) := List δ → Except String B256

/-- The surroundings of a production that accounts for the state root. -/
structure RootEnv (μ β σ δ : Type) extends BlockEnv μ β σ δ where
  /-- The accounts of a state update. -/
  accounts : δ → List AccountStatus
  /-- The ArbOS version in the parent header, if the header decodes. -/
  parentArbosVersion : Option ℕ
  /-- `state_root_with_updates` of the merged state. -/
  stateRoot : σ → Except BlockExecutionError B256
  /-- The assembly of the header around a state root: the block hash. -/
  assembleWithRoot : BlockBuilder β σ → ArbBlockHeaderInfo → B256 → Except BlockExecutionError B256
  assembleBlock_eq : ∀ b info, assembleBlock b info = stateRoot b.executor.evm >>= assembleWithRoot b info

namespace RootEnv

variable (E : RootEnv μ β σ δ)

/-- The version as production uses it: eight bits, zero if the header does not decode. -/
def version : ℕ := (E.parentArbosVersion.map (· % 2 ^ 8)).getD 0

/-- Not `is_enabled_in(ARBOS_30)`. -/
def preserveCreatedEmptyAccounts : Bool := !decide (30 ≤ E.version)

def hazards (update : δ) : UInt8 := sparseRootHazards (E.accounts update) E.preserveCreatedEmptyAccounts

/-- The root handed to the builder once the loop has ended. -/
def precomputedRoot (task : Option (StateRootTask δ)) (hook : Option (SparseHook δ)) : Option B256 :=
  match task, hook with
  | some task, some hook => if hook.hazardsSeen ≠ 0 then none else (task hook.updates).toOption
  | _, _ => none

/-- A sealed block with the state root in its header. -/
structure RootedBlock (β : Type) where
  stateRoot : B256
  block : SealedBlock β

/-- `BlockBuilder::finish` with the precomputed state root, if there is one. -/
def finish (b : BlockBuilder β σ) (precomputed : Option B256) :
    Except BlockExecutionError (RootedBlock β) := do
  let (headerInfo, receipts, gasUsed) ← b.executor.finish E.toArbEvm
  let root ← precomputed.elim (E.stateRoot b.executor.evm) .ok
  let hash ← E.assembleWithRoot b headerInfo root
  .ok ⟨root, ⟨hash, b.transactions, receipts, gasUsed⟩⟩

/-- After the loop: ask the task for the root and seal the block. -/
def sealBlock (task : Option (StateRootTask δ)) :
    Progress ProduceError (LoopState β (Hooked σ δ) δ) → Except ProduceError (Option (RootedBlock β))
  | .running _ => .ok none
  | .failed e => .error e
  | .done s => do
    let precomputed := precomputedRoot task s.core.builder.executor.evm.hook
    let block ← (E.finish (unhookBuilder s.core.builder) precomputed).mapError .finish
    .ok (some block)

/-- The surroundings of the loop: with a hook on the database if there is a task. -/
def loopEnv (task : Option (StateRootTask δ)) : BlockEnv μ β (Hooked σ δ) δ :=
  E.toBlockEnv.hooked E.hazards (task.map fun _ => ⟨0, []⟩)

/-- `produce_with_timing` with a state-root task or without one. -/
def produce (task : Option (StateRootTask δ)) (fuel : ℕ) (msg : μ) :
    Except ProduceError (Option (RootedBlock β)) := do
  let s ← setup (E.loopEnv task) msg
  E.sealBlock task (iterate (loopBody (E.loopEnv task)) fuel s)

end RootEnv

/-! ### Removing the hook -/

section Unhook

variable {M : BlockEnv μ β σ δ} {V : ArbEvm β σ δ} {hz : δ → UInt8} {hook : Option (SparseHook δ)}
  {b b' : BlockBuilder β (Hooked σ δ)} {c c' : LoopCore β (Hooked σ δ) δ} {t : Task β}
  {s s' s₀ : LoopState β (Hooked σ δ) δ} {out : ResultAndState δ} {msg : μ} {tx : Recovered β}

def LoopCore.unhook (c : LoopCore β (Hooked σ δ) δ) : LoopCore β σ δ :=
  ⟨unhookBuilder c.builder, c.transactionIndex, c.frontiers, c.events⟩

def LoopState.unhook (s : LoopState β (Hooked σ δ) δ) : LoopState β σ δ :=
  ⟨s.core.unhook, s.first, s.redeems, s.userTxs,
    s.attempts.map fun v => ⟨v.before.unhook, v.task, v.children⟩⟩

theorem executeTransaction_unhook (V : ArbEvm β σ δ) (hz : δ → UInt8) (b : BlockBuilder β (Hooked σ δ))
    (tx : Recovered β) : (unhookBuilder b).executeTransaction V tx =
      (b.executeTransaction (hookedEvm V hz) tx).map fun p => (p.1, unhookBuilder p.2) := by
  unfold BlockBuilder.executeTransaction ArbBlockExecutor.executeTransactionWithoutCommit
  have hevm : (unhookBuilder b).executor.evm = b.executor.evm.evm := rfl
  simp only [hookedEvm, hevm]
  cases V.transact b.executor.evm.evm tx with
  | error e => rfl
  | ok p => rfl

theorem observe_unhook (hz : δ → UInt8) (hook : Option (SparseHook δ)) :
    (c.observe (M.hooked hz hook) t out b).unhook = c.unhook.observe M t out (unhookBuilder b) := by
  unfold LoopCore.observe
  simp only [BlockEnv.hooked]
  cases M.txLogStream with
  | none => rfl
  | some subscribed => rfl

theorem scheduleRetries_unhook (hz : δ → UInt8) (hook : Option (SparseHook δ)) :
    scheduleRetries M (unhookBuilder b) out = Prod.map unhookBuilder id (scheduleRetries (M.hooked hz hook) b out) := by
  unfold scheduleRetries
  dsimp only
  split
  · rename_i h
    have h' : (out.result.success &&
        !(out.result.logs.filter (M.hooked hz hook).isRedeemScheduledLog).isEmpty) = true := h
    rw [if_pos h']
    rfl
  · rename_i h
    have h' : ¬(out.result.success &&
        !(out.result.logs.filter (M.hooked hz hook).isRedeemScheduledLog).isEmpty) = true := h
    rw [if_neg h']
    rfl

theorem attempt_unhook (hz : δ → UInt8) (hook : Option (SparseHook δ)) :
    attempt M c.unhook t = (attempt (M.hooked hz hook) c t).map fun p => (p.1.unhook, p.2) := by
  unfold attempt
  cases t.sender with
  | error e => rfl
  | ok sender =>
    have hexec := executeTransaction_unhook M.toArbEvm hz c.builder ⟨t.tx, sender⟩
    have hbuilder : c.unhook.builder = unhookBuilder c.builder := rfl
    have hevm : (M.hooked hz hook).toArbEvm = hookedEvm M.toArbEvm hz := rfl
    simp only [hbuilder, hexec, hevm]
    cases c.builder.executeTransaction (hookedEvm M.toArbEvm hz) ⟨t.tx, sender⟩ with
    | error e =>
      simp only [Except.map]
      split
      · rfl
      · rfl
    | ok p =>
      obtain ⟨out, b⟩ := p
      simp only [Except.map, ← observe_unhook hz hook, observe_builder]
      have hb : (c.observe (M.hooked hz hook) t out b).unhook.builder = unhookBuilder b := by
        rw [observe_unhook, observe_builder]
      simp only [hb, scheduleRetries_unhook hz hook]
      rfl

theorem pop_unhook : s.unhook.pop = s.pop.map fun p => (p.1, p.2.unhook) := by
  obtain ⟨core, first, redeems, userTxs, attempts⟩ := s
  cases first with
  | some tx => rfl
  | none =>
    cases redeems with
    | cons tx redeems => rfl
    | nil =>
      cases userTxs with
      | cons p userTxs => rfl
      | nil => rfl

theorem loopBody_unhook : Refines (loopBody (M.hooked hz hook)) (loopBody M) LoopState.unhook (fun _ => True) s := by
  unfold Refines loopBody
  rw [pop_unhook]
  cases s.pop with
  | none => exact Or.inr (Or.inl ⟨rfl, rfl⟩)
  | some p =>
    obtain ⟨t, m⟩ := p
    have hcore : m.unhook.core = m.core.unhook := rfl
    simp only [Option.map_some, hcore, attempt_unhook hz hook]
    cases attempt (M.hooked hz hook) m.core t with
    | error e => exact Or.inl ⟨e, rfl, rfl⟩
    | ok q =>
      simp [LoopState.unhook, Except.map, bind, Except.bind]

theorem loop_unhook (hz : δ → UInt8) (hook : Option (SparseHook δ)) (n : ℕ) :
    iterate (loopBody M) n s.unhook = (iterate (loopBody (M.hooked hz hook)) n s).map LoopState.unhook :=
  iterate_refines (fun _ _ => loopBody_unhook) trivial n

theorem setup_unhook (M : BlockEnv μ β σ δ) (hz : δ → UInt8) (hook : Option (SparseHook δ)) (msg : μ) :
    setup M msg = (setup (M.hooked hz hook) msg).map LoopState.unhook := by
  unfold setup ArbBlockExecutor.applyPreExecutionChanges ArbBlockExecutor.new
  simp only [BlockEnv.hooked, hookedEvm]
  cases M.digestMessage msg with
  | none => rfl
  | some txs =>
    cases M.builderForNextBlock msg with
    | none => rfl
    | some evm =>
      simp only [Option.map_some, Option.elim_some, ok_bind]
      cases M.transactSystemCall evm M.parentHash with
      | error e => rfl
      | ok p =>
        obtain ⟨prelude, evm'⟩ := p
        simp only [Except.map, Except.mapError, ok_bind]
        cases M.baseFeeWei (M.commit evm' prelude) with
        | none => rfl
        | some fee => rfl

/-! ### What the hook receives -/

/-- The update of one attempt: that of an included transaction.  A dropped one commits nothing. -/
def includedUpdate (M : BlockEnv μ β σ δ) (v : Visit (LoopCore β σ δ) (Task β)) : Option δ :=
  match v.task.sender with
  | .error _ => none
  | .ok sender =>
    (v.before.builder.executeTransaction M.toArbEvm ⟨v.task.tx, sender⟩).toOption.map (·.1.state)

/-- The update of the pre-execution changes. -/
def preludeUpdate (M : BlockEnv μ β σ δ) (msg : μ) : Option δ :=
  (M.builderForNextBlock msg).bind fun evm =>
    (M.transactSystemCall evm M.parentHash).toOption.map (·.1)

/-- Every state update the block commits, in order. -/
def committedUpdates (M : BlockEnv μ β σ δ) (msg : μ) (s : LoopState β σ δ) : List δ :=
  (preludeUpdate M msg).toList ++ s.attempts.filterMap (includedUpdate M)

theorem hook_executeTransaction (h : b.executeTransaction (hookedEvm V hz) tx = .ok (out, b')) :
    b'.executor.evm.hook = b.executor.evm.hook.map (·.onState hz out.state) := by
  unfold BlockBuilder.executeTransaction ArbBlockExecutor.executeTransactionWithoutCommit at h
  simp only [hookedEvm] at h
  cases ht : V.transact b.executor.evm.evm tx with
  | error e =>
    rw [ht] at h
    cases h
  | ok p =>
    rw [ht] at h
    cases h
    rfl

theorem hook_scheduleRetries :
    (scheduleRetries (M.hooked hz hook) b out).1.executor.evm.hook = b.executor.evm.hook := by
  unfold scheduleRetries
  simp only
  split
  · rfl
  · rfl

/-- The hook has received the updates and nothing else. -/
def LoopCore.Fed (hz : δ → UInt8) (updates : List δ) (c : LoopCore β (Hooked σ δ) δ) : Prop :=
  c.builder.executor.evm.hook = some (.after hz updates)

/-- An attempt hands the update of an included transaction to the hook, and nothing otherwise. -/
theorem LoopCore.Fed.attempt {updates : List δ} {retries : List (ArbTxEnvelope β)}
    (hc : c.Fed hz updates) (children : List (Task β)) (h : attempt (M.hooked hz hook) c t = .ok (c', retries)) :
    c'.Fed hz (updates ++ (includedUpdate M ⟨c.unhook, t, children⟩).toList) := by
  obtain ⟨sender, hs, hcase⟩ := attempt_ok h
  have hexec := executeTransaction_unhook M.toArbEvm hz c.builder ⟨t.tx, sender⟩
  have hbuilder : c.unhook.builder = unhookBuilder c.builder := rfl
  have hevm : (M.hooked hz hook).toArbEvm = hookedEvm M.toArbEvm hz := rfl
  rw [hevm] at hcase
  obtain ⟨e, he, -, rfl, -⟩ | ⟨out, b, he, hb, -⟩ := hcase
  · have hnone : includedUpdate M ⟨c'.unhook, t, children⟩ = none := by
      simp only [includedUpdate, hs, hbuilder, hexec, he]
      rfl
    rw [hnone, Option.toList_none, List.append_nil]
    exact hc
  · have hsome : includedUpdate M ⟨c.unhook, t, children⟩ = some out.state := by
      simp only [includedUpdate, hs, hbuilder, hexec, he]
      rfl
    unfold LoopCore.Fed at hc ⊢
    rw [hsome, hb, hook_scheduleRetries, hook_executeTransaction he, hc, Option.toList_some,
      SparseHook.after_append]
    rfl

theorem hook_applyPreExecutionChanges {x x' : ArbBlockExecutor (Hooked σ δ)}
    (h : x.applyPreExecutionChanges (hookedEvm V hz) = .ok x') :
    ∃ update evm, V.transactSystemCall x.evm.evm x.parentHash = .ok (update, evm) ∧
      x'.evm.hook = x.evm.hook.map (·.onState hz update) := by
  unfold ArbBlockExecutor.applyPreExecutionChanges at h
  simp only [hookedEvm] at h
  cases ht : V.transactSystemCall x.evm.evm x.parentHash with
  | error e =>
    rw [ht] at h
    cases h
  | ok p =>
    rw [ht] at h
    cases h
    exact ⟨p.1, p.2, rfl, rfl⟩

theorem setup_fed (h : setup (M.hooked hz (some ⟨0, []⟩)) msg = .ok s₀) :
    s₀.core.Fed hz (committedUpdates M msg s₀.unhook) := by
  have hattempts : s₀.unhook.attempts = [] := by
    rw [LoopState.unhook, (setup_ok h).2.1, List.map_nil]
  rw [committedUpdates, hattempts]
  obtain ⟨txs, -, h⟩ := bind_ok.mp h
  obtain ⟨evm, hevm, h⟩ := bind_ok.mp h
  obtain ⟨executor, hpre, h⟩ := bind_ok.mp h
  obtain ⟨baseFee, -, h⟩ := bind_ok.mp h
  have hhook : s₀.core.builder.executor.evm.hook = executor.evm.hook := by
    rw [← Except.ok.inj h]
    rfl
  obtain ⟨update, evm', hcall, hupdate⟩ := hook_applyPreExecutionChanges (mapError_ok.mp hpre)
  cases hb : M.builderForNextBlock msg with
  | none =>
    simp only [BlockEnv.hooked, hb] at hevm
    cases hevm
  | some base =>
    simp only [BlockEnv.hooked, hb] at hevm
    cases hevm
    have hprelude : preludeUpdate M msg = some update := by
      have hcall' : M.transactSystemCall base M.parentHash = .ok (update, evm') := hcall
      rw [preludeUpdate, hb, Option.bind_some, hcall']
      rfl
    rw [LoopCore.Fed, hhook, hupdate, hprelude]
    rfl

theorem loopBody_fed (hfed : s.core.Fed hz (committedUpdates M msg s.unhook))
    (h : loopBody (M.hooked hz hook) s = .ok (some s')) : s'.core.Fed hz (committedUpdates M msg s'.unhook) := by
  obtain ⟨t, m, core, retries, hpop, hattempt, rfl⟩ := loopBody_ok h
  obtain ⟨hcore, hattempts⟩ := LoopState.pop_core hpop
  have hunhook : committedUpdates M msg s.unhook = committedUpdates M msg m.unhook := by
    simp only [committedUpdates, LoopState.unhook, hattempts]
  rw [hunhook, ← hcore] at hfed
  have hnext := hfed.attempt (retries.map (Task.of .scheduledRetry)) hattempt
  cases hu : includedUpdate M ⟨m.core.unhook, t, retries.map (Task.of .scheduledRetry)⟩ with
  | none => simpa [committedUpdates, LoopState.unhook, hu] using hnext
  | some update => simpa [committedUpdates, LoopState.unhook, hu] using hnext

theorem loop_fed {n : ℕ} (h : setup (M.hooked hz (some ⟨0, []⟩)) msg = .ok s₀)
    (hloop : iterate (loopBody (M.hooked hz (some ⟨0, []⟩))) n s₀ = .done s) :
    s.core.Fed hz (committedUpdates M msg s.unhook) := by
  obtain ⟨m, -, hrun⟩ := iterate_done_running hloop
  exact iterate_invariant (fun s => s.core.Fed hz (committedUpdates M msg s.unhook)) (setup_fed h)
    (fun _ _ => loopBody_fed) hrun

end Unhook

/-! ### The same block with and without the task -/

namespace RootEnv

variable {E : RootEnv μ β σ δ} {task : StateRootTask δ} {fuel : ℕ} {msg : μ} {b : BlockBuilder β σ}
  {update : δ} {updates : List δ}

/-- The parent is of a version before ArbOS 30. -/
def beforeArbos30 (E : RootEnv μ β σ δ) : Bool := decide (E.parentArbosVersion.getD 0 < 30)

/-- A self-destructed account or, before ArbOS 30, a created empty one. -/
def Incompatible (E : RootEnv μ β σ δ) (update : δ) : Prop :=
  ∃ account ∈ E.accounts update, account.Incompatible E.beforeArbos30

/-- A task is sound for a block: given every update of the block, in order, a root it returns is the synchronous one.
-/
def SoundTask (E : RootEnv μ β σ δ) (msg : μ) (task : StateRootTask δ) : Prop :=
  ∀ fuel s₀ s root, setup E.toBlockEnv msg = .ok s₀ →
    iterate (loopBody E.toBlockEnv) fuel s₀ = .done s →
    (∀ update ∈ committedUpdates E.toBlockEnv msg s, ¬E.Incompatible update) →
    task (committedUpdates E.toBlockEnv msg s) = .ok root →
    E.stateRoot s.core.builder.executor.evm = .ok root

/-- Cutting the version to eight bits can only make the check stricter. -/
theorem preserve_of_beforeArbos30 (h : E.beforeArbos30 = true) : E.preserveCreatedEmptyAccounts = true := by
  have hlt : E.parentArbosVersion.getD 0 < 30 := of_decide_eq_true h
  have hversion : E.version < 30 := by
    unfold version
    cases hv : E.parentArbosVersion with
    | none => decide
    | some v =>
      rw [hv] at hlt
      exact (Nat.mod_le v _).trans_lt hlt
  simp [preserveCreatedEmptyAccounts, hversion]

theorem not_incompatible (h : E.hazards update = 0) : ¬E.Incompatible update := by
  rintro ⟨account, hmem, hself | ⟨hbefore, hcreated⟩⟩
  · exact sparseRootHazards_eq_zero.mp h account hmem (Or.inl hself)
  · exact sparseRootHazards_eq_zero.mp h account hmem
      (Or.inr ⟨preserve_of_beforeArbos30 hbefore, hcreated⟩)

/-- A root comes from a task that was given the updates, none of which it cannot represent. -/
theorem precomputedRoot_some {root : B256}
    (h : precomputedRoot (some task) (some (.after E.hazards updates)) = some root) :
    task updates = .ok root ∧ ∀ update ∈ updates, ¬E.Incompatible update := by
  simp only [precomputedRoot, SparseHook.after_updates] at h
  split at h
  · cases h
  · rename_i hzero
    have hnone := SparseHook.after_hazardsSeen.mp (not_not.mp hzero)
    exact ⟨toOption_eq_some.mp h, fun update hmem => not_incompatible (hnone update hmem)⟩

theorem finish_precomputed {precomputed : Option B256}
    (h : ∀ root, precomputed = some root → E.stateRoot b.executor.evm = .ok root) :
    E.finish b precomputed = E.finish b none := by
  cases precomputed with
  | none => rfl
  | some root => simp only [finish, Option.elim_some, Option.elim_none, h root rfl]

/-- The end of a production that computes the root synchronously, over the EVM without a hook. -/
def sealSync (E : RootEnv μ β σ δ) :
    Progress ProduceError (LoopState β σ δ) → Except ProduceError (Option (RootedBlock β))
  | .running _ => .ok none
  | .failed e => .error e
  | .done s => do
    let block ← (E.finish s.core.builder none).mapError .finish
    .ok (some block)

/-- Production with a task or without one is production over the EVM without a hook, with the
synchronous root. -/
theorem produce_eq {task : Option (StateRootTask δ)} (htask : ∀ t, task = some t → E.SoundTask msg t) :
    E.produce task fuel msg =
      setup E.toBlockEnv msg >>= fun s => E.sealSync (iterate (loopBody E.toBlockEnv) fuel s) := by
  unfold produce
  have hsetup := setup_unhook E.toBlockEnv E.hazards (task.map fun _ => ⟨0, []⟩) msg
  rw [hsetup]
  cases hs : setup (E.loopEnv task) msg with
  | error e =>
    rw [loopEnv] at hs
    rw [hs]
    rfl
  | ok s₀ =>
    rw [loopEnv] at hs
    rw [hs] at hsetup ⊢
    simp only [Except.map, ok_bind]
    rw [loop_unhook E.hazards (task.map fun _ => ⟨0, []⟩)]
    cases hloop : iterate (loopBody (E.loopEnv task)) fuel s₀ with
    | running s =>
      rw [loopEnv] at hloop
      rw [hloop]
      rfl
    | failed e =>
      rw [loopEnv] at hloop
      rw [hloop]
      rfl
    | done s =>
      rw [loopEnv] at hloop
      rw [hloop]
      have hplain : iterate (loopBody E.toBlockEnv) fuel s₀.unhook = .done s.unhook := by
        rw [loop_unhook E.hazards (task.map fun _ => ⟨0, []⟩), hloop]
        rfl
      have hroot : ∀ root, precomputedRoot task s.core.builder.executor.evm.hook = some root →
          E.stateRoot (unhookBuilder s.core.builder).executor.evm = .ok root := by
        intro root hroot
        cases task with
        | none => cases hroot
        | some t =>
          rw [loop_fed hs hloop] at hroot
          obtain ⟨hok, hcompatible⟩ := precomputedRoot_some hroot
          exact htask t rfl fuel s₀.unhook s.unhook root hsetup hplain hcompatible hok
      simp only [RootEnv.sealBlock, finish_precomputed hroot]
      rfl

/-- The sealed blocks are those of production as it is modelled without regard to the root. -/
theorem finish_block : (E.finish b none).map (·.block) = Engine.finish E.toBlockEnv b := by
  unfold finish Engine.finish
  cases b.executor.finish E.toArbEvm with
  | error e => rfl
  | ok p =>
    obtain ⟨info, receipts, gasUsed⟩ := p
    simp only [Option.elim_none, E.assembleBlock_eq]
    cases E.stateRoot b.executor.evm with
    | error e => rfl
    | ok root =>
      simp only [ok_bind]
      cases E.assembleWithRoot b info root with
      | error e => rfl
      | ok hash => rfl

/-- The task never changes a block: production with any sound task has the outcome of production without one. -/
theorem produce_task_irrelevant (E : RootEnv μ β σ δ) (task : Option (StateRootTask δ)) (fuel : ℕ) (msg : μ)
    (htask : ∀ t, task = some t → E.SoundTask msg t) : E.produce task fuel msg = E.produce none fuel msg ∧
      (E.produce task fuel msg).map (Option.map (·.block)) =
        (Engine.produce E.toBlockEnv fuel msg).map (Option.map (·.block)) := by
  have hnone : ∀ t, (none : Option (StateRootTask δ)) = some t → E.SoundTask msg t :=
    fun t h => absurd h (by simp)
  refine ⟨(produce_eq htask).trans (produce_eq hnone).symm, ?_⟩
  rw [produce_eq htask]
  unfold Engine.produce
  cases setup E.toBlockEnv msg with
  | error e => rfl
  | ok s₀ =>
    simp only [ok_bind]
    cases iterate (loopBody E.toBlockEnv) fuel s₀ with
    | running s => rfl
    | failed e => rfl
    | done s =>
      simp only [sealSync, Engine.sealBlock, ← finish_block]
      cases E.finish s.core.builder none with
      | error e => rfl
      | ok block => rfl

/-- To be sound for a block whose loop ends is a matter of that block's updates alone. -/
theorem soundTask_of_done {s₀ s : LoopState β σ δ} (n : ℕ) (hsetup : setup E.toBlockEnv msg = .ok s₀)
    (hloop : iterate (loopBody E.toBlockEnv) n s₀ = .done s)
    (h : (∀ update ∈ committedUpdates E.toBlockEnv msg s, ¬E.Incompatible update) →
      ∀ root, task (committedUpdates E.toBlockEnv msg s) = .ok root →
        E.stateRoot s.core.builder.executor.evm = .ok root) : E.SoundTask msg task := by
  intro fuel s₀' s' root hsetup' hloop'
  cases hsetup.symm.trans hsetup'
  have hs : s' = s := by
    have h1 := iterate_done_stable hloop (Nat.le_max_left n fuel)
    have h2 := iterate_done_stable hloop' (Nat.le_max_right n fuel)
    exact Progress.done.inj (h2.symm.trans h1)
  rw [hs]
  exact fun hcompatible => h hcompatible root

namespace SampleRoot

/-- A transaction that changes some accounts, or an invalid one. -/
abbrev Changes := Option (List AccountStatus)

/-- The database keeps the accounts changed so far, and the root counts them. -/
def env : RootEnv (List Changes) Changes (List AccountStatus) (List AccountStatus) where
  transactSystemCall s _ := .ok ([], s)
  transact s tx := tx.tx.body.elim (.error (.transaction .nonceTooLow)) fun update =>
    .ok (⟨⟨true, 1, []⟩, update⟩, s)
  commit s update := s ++ update
  chain _ := ⟨0, none⟩
  startBlockPrelude _ := some ⟨1, 1, some []⟩
  readBlockHeaderInfo _ := .ok ⟨0, 0, 30, 0⟩
  parentNumber := 0
  parentHash := 0
  digestMessage msg := some (msg.map fun changes => ⟨2, 0, 0, .ok 0, changes⟩)
  builderForNextBlock _ := some []
  baseFeeWei _ := some 1
  setBaseFee s _ := s
  isRedeemScheduledLog _ := false
  scheduledRetriesFromRedeemLogs s _ := (s, [])
  frontierId _ _ _ := 0
  txLogStream := none
  assembleBlock b _ := .ok b.executor.evm.length
  accounts update := update
  parentArbosVersion := some 30
  stateRoot s := .ok s.length
  assembleWithRoot _ _ root := .ok root
  assembleBlock_eq _ _ := rfl

/-- A task that forgets self-destructed accounts. -/
def forgetful : StateRootTask (List AccountStatus) := fun updates =>
  .ok (updates.flatten.filter fun account => !account.isSelfdestructed).length

def created : AccountStatus := ⟨false, true, true⟩

def destroyed : AccountStatus := ⟨true, false, false⟩

theorem forgetful_sound_created : env.SoundTask [some [created], none, some [created, created]] forgetful :=
  soundTask_of_done 5 rfl rfl fun _ _ h => congrArg Except.ok (Except.ok.inj h)

theorem forgetful_sound_destroyed : env.SoundTask [some [created], some [destroyed]] forgetful := by
  refine soundTask_of_done 5 rfl rfl fun hcompatible => ?_
  exact absurd ⟨destroyed, by decide, Or.inl rfl⟩ (hcompatible [destroyed] (by decide))

/-- The first block takes the root of the task; in the second a self-destructed account forces the synchronous root. -/
theorem produce_task_irrelevant_forgetful :
    env.produce (some forgetful) 5 [some [created], none, some [created, created]] =
        env.produce none 5 [some [created], none, some [created, created]] ∧
      env.produce (some forgetful) 5 [some [created], some [destroyed]] =
        env.produce none 5 [some [created], some [destroyed]] ∧
      (env.produce (some forgetful) 5 [some [created], some [destroyed]]).toOption.map
        (Option.map (·.stateRoot)) = some (some 2) := by
  refine ⟨(produce_task_irrelevant env (some forgetful) 5 _ ?_).1,
    (produce_task_irrelevant env (some forgetful) 5 _ ?_).1, by decide +kernel⟩
  · intro t ht
    cases ht
    exact forgetful_sound_created
  · intro t ht
    cases ht
    exact forgetful_sound_destroyed

end SampleRoot

end RootEnv

end ArbReth.Engine
