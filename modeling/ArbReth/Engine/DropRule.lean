import ArbReth.Engine.BlockOrder

/-! # Which transactions a block drops

Two rules for the transactions of a message:

* no sequenced transaction stops production: whatever cannot be executed is left out and the rest of
  the block is unaffected (`includeOrDrop`);
* only a transaction that is invalid on the state before it is left out; any other failure of an
  execution stops production.

The first rule holds iff all senders recover (`production_includes_or_drops_iff`).  The loop drops a transaction for every
kind of execution error, so the second holds iff the EVM reports nothing but invalid transactions
(`production_drops_only_invalid_iff`). -/

namespace ArbReth.Engine

open ArbReth.Runs ArbReth.Loop ArbReth.Evm ArbReth.Worklist

variable {μ β σ δ : Type} {M : BlockEnv μ β σ δ} {c c' : LoopCore β σ δ} {t : Task β}
  {s s' s₀ : LoopState β σ δ} {b b' : BlockBuilder β σ} {msg : μ}

/-! ### The first rule -/

/-- The first rule: an accepted transaction is included and schedules its retries, any other one is left out. -/
def includeOrDrop (M : BlockEnv μ β σ δ) (b : BlockBuilder β σ) (t : Task β) :
    Except ProduceError (BlockBuilder β σ × List (Task β)) :=
  match t.sender with
  | .error e => if t.kind = .startBlock then .error (.sender t.tx.ty e) else .ok (b, [])
  | .ok sender =>
    match b.executeTransaction M.toArbEvm ⟨t.tx, sender⟩ with
    | .error e => if t.kind = .startBlock then .error (.startBlock e) else .ok (b, [])
    | .ok (out, b) =>
      .ok ((scheduleRetries M b out).1,
        (scheduleRetries M b out).2.map (Task.of .scheduledRetry))

variable {children : List (Task β)}

theorem includeOrDrop_children (h : includeOrDrop M b t = .ok (b', children)) : ∀ a ∈ children, ∃ sender, a.sender = .ok sender := by
  unfold includeOrDrop at h
  cases hs : t.sender with
  | error e =>
    simp only [hs] at h
    split at h
    · cases h
    · cases h
      simp
  | ok sender =>
    simp only [hs] at h
    cases he : b.executeTransaction M.toArbEvm ⟨t.tx, sender⟩ with
    | error e =>
      simp only [he] at h
      split at h
      · cases h
      · cases h
        simp
    | ok p =>
      simp only [he] at h
      cases h
      intro a ha
      obtain ⟨tx, htx, rfl⟩ := List.mem_map.mp ha
      exact scheduleRetries_sender htx

theorem visit_of_includeOrDrop (hc : c.builder = b)
    (hs : ∃ sender, t.sender = .ok sender) (h : includeOrDrop M b t = .ok (b', children)) :
    ∃ c', visit M c t = .ok (c', children) ∧ c'.builder = b' := by
  subst hc
  obtain ⟨sender, hs⟩ := hs
  unfold includeOrDrop at h
  unfold visit attempt
  simp only [hs] at h ⊢
  cases he : c.builder.executeTransaction M.toArbEvm ⟨t.tx, sender⟩ with
  | error e =>
    simp only [he] at h ⊢
    split at h
    · cases h
    · rename_i hk
      cases h
      rw [if_neg hk]
      exact ⟨c, rfl, rfl⟩
  | ok p =>
    simp only [he, observe_builder] at h ⊢
    cases h
    exact ⟨_, rfl, rfl⟩

variable {order : List (Visit (BlockBuilder β σ) (Task β))}

/-- The transactions the rule includes are the accepted ones. -/
theorem includeOrDrop_transactions (h : Chain (includeOrDrop M) b order b') (hb : b.transactions = []) :
    b'.transactions.map (·.tx) = (order.filter (fun v => accepts M v.before v.task)).map (·.task.tx) := by
  refine Chain.induction (fun ws m => m.transactions.map (·.tx) =
    (ws.filter (fun v => accepts M v.before v.task)).map (·.task.tx)) h (by simp [hb]) ?_
  intro ws m m' a children ih hv
  rw [List.filter_append, List.map_append, ← ih]
  unfold includeOrDrop at hv
  cases hs : a.sender with
  | error e =>
    simp only [hs] at hv
    split at hv
    · cases hv
    · cases hv
      simp [accepts, hs]
  | ok sender =>
    simp only [hs] at hv
    cases he : m.executeTransaction M.toArbEvm ⟨a.tx, sender⟩ with
    | error e =>
      simp only [he] at hv
      split at hv
      · cases hv
      · cases hv
        simp [accepts, hs, he, Except.isOk, Except.toBool]
    | ok p =>
      simp only [he] at hv
      cases hv
      simp [accepts, hs, he, Except.isOk, Except.toBool, scheduleRetries_transactions,
        BlockBuilder.executeTransaction_ok he]

/-! ### Production and the loop -/

theorem produce_eq (hsetup : setup M msg = .ok s₀) (fuel : ℕ) :
    produce M fuel msg = sealBlock M (iterate (loopBody M) fuel s₀) := by
  unfold produce
  rw [hsetup]
  rfl

theorem produce_of_done {fuel : ℕ} {block : SealedBlock β} (hsetup : setup M msg = .ok s₀)
    (hd : iterate (loopBody M) fuel s₀ = .done s) (hf : finish M s.core.builder = .ok block) :
    produce M fuel msg = .ok (some ⟨block, s⟩) := by
  rw [produce_eq hsetup, hd]
  simp only [sealBlock, hf]
  rfl

theorem produce_of_failed {fuel : ℕ} {e : ProduceError} (hsetup : setup M msg = .ok s₀)
    (hf : iterate (loopBody M) fuel s₀ = .failed e) : produce M fuel msg = .error e := by
  rw [produce_eq hsetup, hf]
  rfl

theorem produce_some {fuel : ℕ} {p : Production β σ δ} (hsetup : setup M msg = .ok s₀)
    (h : produce M fuel msg = .ok (some p)) :
    iterate (loopBody M) fuel s₀ = .done p.loop ∧ finish M p.loop.core.builder = .ok p.block := by
  rw [produce_eq hsetup] at h
  cases hi : iterate (loopBody M) fuel s₀ with
  | running s =>
    rw [hi] at h
    cases h
  | failed e =>
    rw [hi] at h
    cases h
  | done s =>
    rw [hi] at h
    obtain ⟨block, h1, h2⟩ := bind_ok.mp h
    rw [mapError_ok] at h1
    cases h2
    exact ⟨rfl, h1⟩

/-! ### No transaction stops production -/

/-- The rule leads to a last block: the start-block transaction is accepted, and the retries come to
an end. -/
def CascadeEnds (M : BlockEnv μ β σ δ) (s₀ : LoopState β σ δ) : Prop :=
  ∃ order b, Ordered (includeOrDrop M) s₀.core.builder s₀.roots order b

/-- Ordered visits under the rule are visits of the loop, as long as the senders are known. -/
theorem ordered_visit {roots : List (Task β)} (h : Ordered (includeOrDrop M) c.builder roots order b) (hsend : ∀ t ∈ roots, ∃ sender, t.sender = .ok sender) :
    ∃ vs c', Ordered (visit M) c roots vs c' ∧ c'.builder = b := by
  have hsim : ∀ b c t b' children, c.builder = b → (∃ sender, t.sender = .ok sender) →
      includeOrDrop M b t = .ok (b', children) →
      ∃ c', visit M c t = .ok (c', children) ∧ c'.builder = b' ∧
        ∀ a ∈ children, ∃ sender, a.sender = .ok sender := by
    intro b c t b' children hc hs h
    obtain ⟨c', hv, hb'⟩ := visit_of_includeOrDrop hc hs h
    exact ⟨c', hv, hb', includeOrDrop_children h⟩
  exact h.simulate hsim rfl hsend

theorem first_sender (hsetup : setup M msg = .ok s₀) {t : Task β}
    (ht : t ∈ (s₀.first.map (Task.of .startBlock)).toList) : ∃ sender, t.sender = .ok sender := by
  rw [Option.mem_toList, Option.map_eq_some_iff] at ht
  obtain ⟨tx, htx, rfl⟩ := ht
  exact ⟨arbosAddress, (setup_ok hsetup).2.2.2.2.2.2.2 tx htx⟩

/-- The first user transaction without a sender stops the loop when its turn comes. -/
theorem loop_fails_of_sender (hsetup : setup M msg = .ok s₀) (hends : CascadeEnds M s₀) (hsend : ¬ SendersRecover s₀) :
    ∃ N ty e, ∀ fuel, N ≤ fuel → iterate (loopBody M) fuel s₀ = .failed (.sender ty e) := by
  -- split the user transactions at the first one without a sender
  obtain ⟨before, tx, e, rest, huser, hbefore⟩ : ∃ before tx e rest,
      s₀.userTxs = before ++ (tx, .error e) :: rest ∧ ∀ p ∈ before, ∃ sender, p.2 = .ok sender := by
    cases hfind : s₀.userTxs.find? (fun p => !p.2.isOk) with
    | none =>
      refine absurd (fun p hp => ?_) hsend
      have hok := List.find?_eq_none.mp hfind p hp
      exact isOk_iff.mp (by simpa using hok)
    | some p =>
      obtain ⟨hp, before, rest, huser, hbefore⟩ := List.find?_eq_some_iff_append.mp hfind
      obtain ⟨tx, sender⟩ := p
      cases sender with
      | ok a => cases hp
      | error e => exact ⟨before, tx, e, rest, huser, fun q hq => isOk_iff.mp (by simpa using hbefore q hq)⟩
  obtain ⟨order, b, hord⟩ := hends
  have hroots : s₀.roots = ((s₀.first.map (Task.of .startBlock)).toList ++
      before.map (fun p => ⟨p.1, p.2, .user⟩)) ++
      ⟨tx, .error e, .user⟩ :: rest.map (fun p => ⟨p.1, p.2, .user⟩) := by
    simp [LoopState.roots, huser]
  rw [hroots] at hord
  obtain ⟨order₁, b₁, order₂, hord₁, -, -⟩ := ordered_append hord
  -- up to there the loop follows the rule
  obtain ⟨vs, c, hvisits, -⟩ := ordered_visit hord₁ (fun t ht => by
    rcases List.mem_append.mp ht with ht | ht
    · exact first_sender hsetup ht
    · obtain ⟨p, hp, rfl⟩ := List.mem_map.mp ht
      exact hbefore p hp)
  refine ⟨vs.length + 1, tx.ty, e, fun fuel hfuel => ?_⟩
  have hstop : visit M c ⟨tx, .error e, .user⟩ = .error (.sender tx.ty e) := rfl
  have hfail := hvisits.iterate_failed hstop (rest.map (fun p => ⟨p.1, p.2, .user⟩)) hfuel
  rw [← hroots, ← setup_work hsetup, iterate_work (setup_ready hsetup)] at hfail
  cases hi : iterate (loopBody M) fuel s₀ with
  | running s =>
    rw [hi] at hfail
    cases hfail
  | done s =>
    rw [hi] at hfail
    cases hfail
  | failed e' =>
    rw [hi] at hfail
    rw [Progress.failed.inj hfail]

/-- The property of the first rule: production seals the block to which the rule leads, which holds
exactly the accepted transactions. -/
def IncludesOrDrops (M : BlockEnv μ β σ δ) (msg : μ) (s₀ : LoopState β σ δ) : Prop :=
  ∃ N order b block, Ordered (includeOrDrop M) s₀.core.builder s₀.roots order b ∧
    finish M b = .ok block ∧
    block.transactions.map (·.tx) =
      (order.filter (fun v => accepts M v.before v.task)).map (·.task.tx) ∧
    ∀ fuel, N ≤ fuel → ∃ s, produce M fuel msg = .ok (some ⟨block, s⟩)

/-- **No sequenced transaction halts the chain, if the senders recover**, the start-block transaction is accepted and
the retries come to an end; and only then. -/
theorem production_includes_or_drops_iff (hsetup : setup M msg = .ok s₀)
    (hfinish : ∀ order b, Ordered (includeOrDrop M) s₀.core.builder s₀.roots order b → (finish M b).isOk = true) :
    IncludesOrDrops M msg s₀ ↔ SendersRecover s₀ ∧ CascadeEnds M s₀ := by
  constructor
  · rintro ⟨N, order, b, block, hord, -, -, hprod⟩
    refine ⟨?_, order, b, hord⟩
    by_contra hsend
    obtain ⟨N', ty, e, hfail⟩ := loop_fails_of_sender hsetup ⟨order, b, hord⟩ hsend
    obtain ⟨s, hs⟩ := hprod (max N N') (le_max_left _ _)
    rw [produce_of_failed hsetup (hfail _ (le_max_right _ _))] at hs
    cases hs
  · rintro ⟨hsend, order, b, hord⟩
    obtain ⟨vs, c, hvisits, hc⟩ := ordered_visit hord (fun t ht => by
      rcases List.mem_append.mp ht with ht | ht
      · exact first_sender hsetup ht
      · obtain ⟨p, hp, rfl⟩ := List.mem_map.mp ht
        exact hsend p hp)
    obtain ⟨block, hblock⟩ := isOk_iff.mp (hfinish order b hord)
    refine ⟨vs.length + 1, order, b, block, hord, hblock, ?_, fun fuel hfuel => ?_⟩
    · rw [finish_transactions hblock]
      exact includeOrDrop_transactions hord.chain (setup_ok hsetup).2.2.1
    · obtain ⟨s, hd, hcore, -⟩ := loop_done_of_ordered hsetup hvisits hfuel
      refine ⟨s, produce_of_done hsetup hd ?_⟩
      rw [hcore, hc]
      exact hblock

theorem production_includes_or_drops_cascade : IncludesOrDrops (scriptEnv (.succeeds [])) cascadeScript
      (scriptStart (.succeeds []) cascadeScript) := by
  have hsend : SendersRecover (scriptStart (.succeeds []) cascadeScript) := by
    apply scriptStart_senders
    simp [cascadeScript]
  obtain ⟨w, hw⟩ : ∃ w, iterate (step (includeOrDrop (scriptEnv (.succeeds [])))) 8
      (Work.start (scriptStart (.succeeds []) cascadeScript).core.builder
        (scriptStart (.succeeds []) cascadeScript).roots) = .done w := ⟨_, rfl⟩
  have hends : CascadeEnds (scriptEnv (.succeeds [])) (scriptStart (.succeeds []) cascadeScript) :=
    ⟨_, _, ordered_of_iterate_done hw⟩
  exact (production_includes_or_drops_iff (setup_scriptEnv _ _) (fun _ _ _ => rfl)).mpr ⟨hsend, hends⟩

/-- One user transaction with a bad signature: everything else is in order, and production fails. -/
theorem unrecoverable_sender_halts :
    StartAccepted (scriptEnv (.succeeds [])) (scriptStart (.succeeds []) [(.error .k256, .succeeds [])]) ∧
      CascadeEnds (scriptEnv (.succeeds [])) (scriptStart (.succeeds []) [(.error .k256, .succeeds [])]) ∧
      (∀ b, (finish (scriptEnv (.succeeds [])) b).isOk = true) ∧
      (∀ fuel, 2 ≤ fuel → produce (scriptEnv (.succeeds [])) fuel [(.error .k256, .succeeds [])] =
        .error (.sender 0x02 .k256)) := by
  obtain ⟨w, hw⟩ : ∃ w, iterate (step (includeOrDrop (scriptEnv (.succeeds [])))) 3
      (Work.start (scriptStart (.succeeds []) [(.error .k256, .succeeds [])]).core.builder
        (scriptStart (.succeeds []) [(.error .k256, .succeeds [])]).roots) = .done w := ⟨_, rfl⟩
  refine ⟨scriptStart_accepted _ _, ⟨_, _, ordered_of_iterate_done hw⟩, fun b => rfl, fun fuel hfuel => ?_⟩
  obtain ⟨n, rfl⟩ : ∃ n, fuel = n + 2 := ⟨fuel - 2, by omega⟩
  refine produce_of_failed (setup_scriptEnv _ _) ?_
  rw [iterate_some rfl]
  exact iterate_error rfl

/-! ### The second rule -/

/-- The loop comes to attempt the transaction `t` when its variables are `c`. -/
def Takes (M : BlockEnv μ β σ δ) (s₀ : LoopState β σ δ) (c : LoopCore β σ δ) (t : Task β) : Prop :=
  ∃ n s s', iterate (loopBody M) n s₀ = .running s ∧ s.pop = some (t, s') ∧ s'.core = c

theorem takes_of_mem_attempts {n : ℕ} (h₀ : s₀.attempts = []) (h : iterate (loopBody M) n s₀ = .running s) :
    ∀ v ∈ s.attempts, Takes M s₀ v.before v.task := by
  induction n generalizing s with
  | zero =>
    cases h
    simp [h₀]
  | succ n ih =>
    obtain ⟨m, hm, hbody⟩ := iterate_running_succ h
    obtain ⟨t, m', core, retries, hp, -, rfl⟩ := loopBody_ok hbody
    intro v hv
    rcases List.mem_append.mp hv with hv | hv
    · rw [(LoopState.pop_core hp).2] at hv
      exact ih hm v hv
    · obtain rfl := List.mem_singleton.mp hv
      exact ⟨n, m, m', hm, hp, rfl⟩

/-- The property of the second rule: if executing a user transaction or a retry fails for another reason than that it
is invalid, no block is sealed. -/
def DropsOnlyInvalid (M : BlockEnv μ β σ δ) (msg : μ) (s₀ : LoopState β σ δ) : Prop :=
  (∀ c t sender e, Takes M s₀ c t → t.kind ≠ .startBlock → t.sender = .ok sender →
    c.builder.executeTransaction M.toArbEvm ⟨t.tx, sender⟩ = .error e → ¬ e.IsValidation →
    ∀ fuel p, produce M fuel msg ≠ .ok (some p)) ∧
  ∀ fuel p, produce M fuel msg = .ok (some p) → ∀ v ∈ p.loop.attempts, v.task.kind ≠ .startBlock →
    ∀ sender e, v.task.sender = .ok sender →
      v.before.builder.executeTransaction M.toArbEvm ⟨v.task.tx, sender⟩ = .error e → e.IsValidation

/-- **Only invalid transactions are dropped, if the EVM fails on no other**, and only then: there is no failure for
which the loop would stop. -/
theorem production_drops_only_invalid_iff (hsetup : setup M msg = .ok s₀)
    (hsend : SendersRecover s₀) (hstart : StartAccepted M s₀) (hfin : FiniteRetries M s₀)
    (hfinish : ∀ n s, iterate (loopBody M) n s₀ = .done s → (finish M s.core.builder).isOk = true) :
    DropsOnlyInvalid M msg s₀ ↔ ∀ c t sender err, Takes M s₀ c t → t.kind ≠ .startBlock → t.sender = .ok sender →
        M.transact c.builder.executor.evm ⟨t.tx, sender⟩ = .error err → ∃ e, err = .transaction e := by
  -- production seals a block whatever the loop drops
  obtain ⟨N, s, hdone⟩ := loop_ends hsetup hsend hstart hfin
  obtain ⟨block, hblock⟩ := isOk_iff.mp (hfinish N s (hdone N le_rfl))
  have hsealed := produce_of_done hsetup (hdone N le_rfl) hblock
  constructor
  · rintro ⟨hstop, -⟩ c t sender err htakes hk hs herr
    have hexec : c.builder.executeTransaction M.toArbEvm ⟨t.tx, sender⟩ = .error (.evm err t.tx.trieHash) :=
      BlockBuilder.executeTransaction_error.mpr ⟨err, herr, rfl⟩
    by_contra hinvalid
    have hval : ¬ (BlockExecutionError.evm err t.tx.trieHash).IsValidation := by
      rwa [BlockExecutionError.evm_isValidation]
    exact hstop c t sender _ htakes hk hs hexec hval N _ hsealed
  · intro hevm
    have hval : ∀ c t sender e, Takes M s₀ c t → t.kind ≠ .startBlock → t.sender = .ok sender →
        c.builder.executeTransaction M.toArbEvm ⟨t.tx, sender⟩ = .error e → e.IsValidation := by
      intro c t sender e htakes hk hs hexec
      obtain ⟨err, herr, rfl⟩ := BlockBuilder.executeTransaction_error.mp hexec
      rw [BlockExecutionError.evm_isValidation]
      exact hevm c t sender err htakes hk hs herr
    refine ⟨fun c t sender e htakes hk hs hexec hno => ?_, fun fuel p hp v hv hk sender e hs hexec => ?_⟩
    · exact absurd (hval c t sender e htakes hk hs hexec) hno
    · obtain ⟨hd, -⟩ := produce_some hsetup hp
      obtain ⟨m, -, hrun⟩ := iterate_done_running hd
      have htakes := takes_of_mem_attempts (setup_ok hsetup).2.1 hrun v hv
      exact hval _ _ sender e htakes hk hs hexec

theorem production_drops_only_invalid_nonce :
    DropsOnlyInvalid (scriptEnv (.succeeds [])) [(.ok 2, .rejected (.transaction .nonceTooHigh))]
      (scriptStart (.succeeds []) [(.ok 2, .rejected (.transaction .nonceTooHigh))]) := by
  obtain ⟨s, hs⟩ : ∃ s, iterate (loopBody (scriptEnv (.succeeds []))) 3
      (scriptStart (.succeeds []) [(.ok 2, .rejected (.transaction .nonceTooHigh))]) = .done s := ⟨_, rfl⟩
  refine (production_drops_only_invalid_iff (setup_scriptEnv _ _) (scriptStart_senders (by simp))
    (scriptStart_accepted _ _) (finiteRetries_of_done hs) (fun _ _ _ => rfl)).mpr ?_
  rintro c t sender err ⟨n, m, m', hrun, hpop, rfl⟩ hk hsender herr
  have hn : n < 3 := by
    by_contra hge
    rw [iterate_done_stable hs (by omega)] at hrun
    cases hrun
  -- the start-block transaction, the user transaction, nothing
  interval_cases n
  · cases hrun
    cases hpop
    exact absurd rfl hk
  · cases hrun
    cases hpop
    exact ⟨.nonceTooHigh, (Except.error.inj herr).symm⟩
  · cases hrun
    cases hpop

/-- A database error while a user transaction is executed: the block is sealed without it. -/
theorem database_error_drops_transaction :
    ∃ p, produce (scriptEnv (.succeeds [])) 3 [(.ok 2, .rejected .database)] = .ok (some p) ∧
      p.block.transactions.map (·.tx.ty) = [0x6a] ∧
      (∃ v ∈ p.loop.attempts, v.task.kind = .user ∧ v.task.sender = .ok 2 ∧
        v.before.builder.executeTransaction (scriptEnv (.succeeds [])).toArbEvm ⟨v.task.tx, 2⟩ =
          .error (.internal 1 .database)) ∧ ¬ DropsOnlyInvalid (scriptEnv (.succeeds [])) [(.ok 2, .rejected .database)]
        (scriptStart (.succeeds []) [(.ok 2, .rejected .database)]) := by
  obtain ⟨p, hp, hty, v, hv, hk, hs, he⟩ :
      ∃ p, produce (scriptEnv (.succeeds [])) 3 [(.ok 2, .rejected .database)] = .ok (some p) ∧
        p.block.transactions.map (·.tx.ty) = [0x6a] ∧
        ∃ v ∈ p.loop.attempts, v.task.kind = .user ∧ v.task.sender = .ok 2 ∧
          v.before.builder.executeTransaction (scriptEnv (.succeeds [])).toArbEvm ⟨v.task.tx, 2⟩ =
            .error (.internal 1 .database) :=
    ⟨_, rfl, rfl, _, List.mem_cons_of_mem _ List.mem_cons_self, rfl, rfl, rfl⟩
  refine ⟨p, hp, hty, ⟨v, hv, hk, hs, he⟩, fun hrule => ?_⟩
  exact hrule.2 3 p hp v hv (by rw [hk]; decide) 2 _ hs he

end ArbReth.Engine
