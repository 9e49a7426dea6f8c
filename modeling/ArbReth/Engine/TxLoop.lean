import ArbReth.Engine.Produce

/-! # The transaction loop as a worklist

The transaction loop is a worklist: the start-block transaction and the user transactions are its
roots, the scheduled retries its queue (`loopBody_refines`).  So a loop that ends has attempted its
transactions in the order of `Lib/Worklist.lean`, and every such order is one the loop takes
(`ordered_of_loop_done`, `loop_done_of_ordered`).

Along the way the transaction index handed to the frontier and to the event stream stays the number
of transactions in the block (`Indexed`). -/

namespace ArbReth.Engine

open ArbReth.Runs ArbReth.Loop ArbReth.Evm ArbReth.Worklist

variable {μ β σ δ : Type} {M : BlockEnv μ β σ δ} {c c' : LoopCore β σ δ} {t : Task β}
  {s s' s₀ : LoopState β σ δ} {retries : List (ArbTxEnvelope β)} {b : BlockBuilder β σ}
  {out : ResultAndState δ} {msg : μ}

/-! ### What one attempt does -/

theorem scheduleRetries_transactions : (scheduleRetries M b out).1.transactions = b.transactions := by
  unfold scheduleRetries
  simp only
  split <;> rfl

theorem scheduleRetries_sender {tx : ArbTxEnvelope β} (h : tx ∈ (scheduleRetries M b out).2) :
    ∃ sender, tx.sender = .ok sender := by
  unfold scheduleRetries at h
  simp only at h
  split at h
  · obtain ⟨retry, -, rfl⟩ := List.mem_map.mp h
    exact ⟨retry.sender, rfl⟩
  · cases h

theorem scheduleRetries_reverted (h : out.result.success = false) : (scheduleRetries M b out).2 = [] := by
  simp [scheduleRetries, h]

theorem observe_builder : (c.observe M t out b).builder = b := by
  unfold LoopCore.observe
  split <;> rfl

theorem observe_transactionIndex : (c.observe M t out b).transactionIndex = c.transactionIndex + 1 := by
  unfold LoopCore.observe
  split <;> rfl

/-- The two ways an attempt can go on: the transaction is dropped, or it is included. -/
theorem attempt_ok (h : attempt M c t = .ok (c', retries)) : ∃ sender, t.sender = .ok sender ∧
      ((∃ e, c.builder.executeTransaction M.toArbEvm ⟨t.tx, sender⟩ = .error e ∧
          t.kind ≠ .startBlock ∧ c' = c ∧ retries = []) ∨
        ∃ out b, c.builder.executeTransaction M.toArbEvm ⟨t.tx, sender⟩ = .ok (out, b) ∧
          c'.builder = (scheduleRetries M b out).1 ∧ retries = (scheduleRetries M b out).2 ∧
          c'.transactionIndex = c.transactionIndex + 1 ∧ c'.frontiers = (c.observe M t out b).frontiers ∧
          c'.events = (c.observe M t out b).events) := by
  unfold attempt at h
  cases hs : t.sender with
  | error e =>
    rw [hs] at h
    cases h
  | ok sender =>
    rw [hs] at h
    refine ⟨sender, rfl, ?_⟩
    cases he : c.builder.executeTransaction M.toArbEvm ⟨t.tx, sender⟩ with
    | error e =>
      simp only [he] at h
      split at h
      · cases h
      · rename_i hk
        cases h
        exact Or.inl ⟨e, rfl, hk, rfl, rfl⟩
    | ok p =>
      obtain ⟨out, b⟩ := p
      simp only [he, observe_builder] at h
      cases h
      exact Or.inr ⟨out, b, rfl, rfl, rfl, observe_transactionIndex, rfl, rfl⟩

variable {e : ProduceError}

theorem attempt_error (h : attempt M c t = .error e) :
    (∃ se, t.sender = .error se ∧ e = .sender t.tx.ty se) ∨ (t.kind = .startBlock ∧ ∃ sender be, t.sender = .ok sender ∧
        c.builder.executeTransaction M.toArbEvm ⟨t.tx, sender⟩ = .error be ∧ e = .startBlock be) := by
  unfold attempt at h
  cases hs : t.sender with
  | error se =>
    rw [hs] at h
    exact Or.inl ⟨se, rfl, (Except.error.inj h).symm⟩
  | ok sender =>
    rw [hs] at h
    cases he : c.builder.executeTransaction M.toArbEvm ⟨t.tx, sender⟩ with
    | error be =>
      simp only [he] at h
      split at h
      · rename_i hk
        exact Or.inr ⟨hk, sender, be, rfl, he, (Except.error.inj h).symm⟩
      · cases h
    | ok p =>
      simp only [he] at h
      cases h

theorem attempt_startBlock_error {sender : Address} {e : BlockExecutionError} (hk : t.kind = .startBlock)
    (hs : t.sender = .ok sender) (he : c.builder.executeTransaction M.toArbEvm ⟨t.tx, sender⟩ = .error e) :
    attempt M c t = .error (.startBlock e) := by
  simp only [attempt, hs, he, hk, if_true]

theorem attempt_retries_sender (h : attempt M c t = .ok (c', retries)) {tx : ArbTxEnvelope β}
    (htx : tx ∈ retries) : ∃ sender, tx.sender = .ok sender := by
  obtain ⟨-, -, ⟨-, -, -, -, rfl⟩ | ⟨out, b, -, -, rfl, -⟩⟩ := attempt_ok h
  · cases htx
  · exact scheduleRetries_sender htx

/-! ### The loop is a worklist -/

/-- The loop body for one transaction, with the retries as tasks. -/
def visit (M : BlockEnv μ β σ δ) (c : LoopCore β σ δ) (t : Task β) :
    Except ProduceError (LoopCore β σ δ × List (Task β)) := do
  let (c, retries) ← attempt M c t
  .ok (c, retries.map (Task.of .scheduledRetry))

theorem visit_ok {children : List (Task β)} (h : visit M c t = .ok (c', children)) :
    ∃ retries, attempt M c t = .ok (c', retries) ∧ children = retries.map (Task.of .scheduledRetry) := by
  obtain ⟨⟨c₁, retries⟩, h1, h2⟩ := bind_ok.mp h
  cases h2
  exact ⟨retries, h1, rfl⟩

/-- The transactions given at the start of the loop, in the order of their priority. -/
def LoopState.roots (s : LoopState β σ δ) : List (Task β) :=
  (s.first.map (Task.of .startBlock)).toList ++ s.userTxs.map (fun p => ⟨p.1, p.2, .user⟩)

def LoopState.work (s : LoopState β σ δ) : Work (LoopCore β σ δ) (Task β) :=
  ⟨s.core, s.redeems.map (Task.of .scheduledRetry), s.roots, s.attempts⟩

/-- Retries wait only once the start-block transaction has been taken. -/
def LoopState.Ready (s : LoopState β σ δ) : Prop := s.first = none ∨ s.redeems = []

theorem LoopState.pop_cases (h : s.pop = some (t, s')) :
    (∃ tx, s.first = some tx ∧ t = .of .startBlock tx ∧ s' = { s with first := none }) ∨
      (s.first = none ∧ ∃ tx redeems, s.redeems = tx :: redeems ∧ t = .of .scheduledRetry tx ∧
        s' = { s with redeems }) ∨
      (s.first = none ∧ s.redeems = [] ∧ ∃ tx sender userTxs, s.userTxs = (tx, sender) :: userTxs ∧
        t = ⟨tx, sender, .user⟩ ∧ s' = { s with userTxs }) := by
  obtain ⟨core, first, redeems, userTxs, attempts⟩ := s
  cases first with
  | some tx =>
    cases h
    exact Or.inl ⟨tx, rfl, rfl, rfl⟩
  | none =>
    cases redeems with
    | cons tx redeems =>
      cases h
      exact Or.inr (Or.inl ⟨rfl, tx, redeems, rfl, rfl, rfl⟩)
    | nil =>
      cases userTxs with
      | nil => cases h
      | cons p userTxs =>
        cases h
        exact Or.inr (Or.inr ⟨rfl, rfl, p.1, p.2, userTxs, rfl, rfl, rfl⟩)

theorem LoopState.pop_first (h : s.pop = some (t, s')) : s'.first = none := by
  obtain ⟨tx, -, -, rfl⟩ | ⟨hfirst, tx, redeems, -, -, rfl⟩ | ⟨hfirst, -, tx, sender, userTxs, -, -, rfl⟩ :=
    LoopState.pop_cases h
  · rfl
  · exact hfirst
  · exact hfirst

/-- One round: a transaction is taken and attempted, and its retries are queued. -/
theorem loopBody_ok (h : loopBody M s = .ok (some s')) :
    ∃ t m core retries, s.pop = some (t, m) ∧ attempt M m.core t = .ok (core, retries) ∧
      s' = { m with
        core
        redeems := m.redeems ++ retries
        attempts := m.attempts ++ [⟨m.core, t, retries.map (Task.of .scheduledRetry)⟩] } := by
  unfold loopBody at h
  cases hp : s.pop with
  | none =>
    rw [hp] at h
    cases h
  | some p =>
    rw [hp] at h
    obtain ⟨⟨core, retries⟩, h1, h2⟩ := bind_ok.mp h
    exact ⟨p.1, p.2, core, retries, rfl, h1, (Option.some.inj (Except.ok.inj h2)).symm⟩

theorem loopBody_error (h : loopBody M s = .error e) : ∃ t m, s.pop = some (t, m) ∧ attempt M m.core t = .error e := by
  unfold loopBody at h
  cases hp : s.pop with
  | none =>
    rw [hp] at h
    cases h
  | some p =>
    rw [hp] at h
    cases ha : attempt M p.2.core p.1 with
    | error e' =>
      simp only [ha] at h
      exact ⟨p.1, p.2, rfl, ha.trans (congrArg Except.error (Except.error.inj h))⟩
    | ok q =>
      simp only [ha] at h
      cases h

theorem loopBody_of_error (hp : s.pop = some (t, s'))
    (ha : attempt M s'.core t = .error e) : loopBody M s = .error e := by
  unfold loopBody
  rw [hp]
  simp only [ha]
  rfl

theorem LoopState.pop_core (h : s.pop = some (t, s')) : s'.core = s.core ∧ s'.attempts = s.attempts := by
  obtain ⟨tx, -, -, rfl⟩ | ⟨-, tx, redeems, -, -, rfl⟩ | ⟨-, -, tx, sender, userTxs, -, -, rfl⟩ :=
    LoopState.pop_cases h
  all_goals exact ⟨rfl, rfl⟩

theorem LoopState.work_pop (hr : s.Ready) : s.work.pop = s.pop.map (fun p => (p.1, p.2.work)) := by
  obtain ⟨core, first, redeems, userTxs, attempts⟩ := s
  cases first with
  | some t =>
    obtain rfl : redeems = [] := hr.elim nofun id
    rfl
  | none =>
    cases redeems with
    | cons t redeems => rfl
    | nil => cases userTxs <;> rfl

theorem loopBody_refines (hr : s.Ready) : Refines (loopBody M) (step (visit M)) LoopState.work LoopState.Ready s := by
  unfold Refines loopBody step
  rw [LoopState.work_pop hr]
  cases hp : s.pop with
  | none => exact Or.inr (Or.inl ⟨rfl, rfl⟩)
  | some p =>
    obtain ⟨t, s'⟩ := p
    have hcore : s'.work.state = s'.core := rfl
    simp only [Option.map_some, hcore, visit]
    cases ha : attempt M s'.core t with
    | error e => exact Or.inl ⟨e, rfl, rfl⟩
    | ok q =>
      obtain ⟨c', retries⟩ := q
      have hfirst : s'.first = none := LoopState.pop_first hp
      refine Or.inr (Or.inr ⟨_, rfl, Or.inl hfirst, ?_⟩)
      simp [LoopState.work, LoopState.roots, bind, Except.bind]

theorem iterate_work (hr : s.Ready) (n : ℕ) :
    iterate (step (visit M)) n s.work = (iterate (loopBody M) n s).map LoopState.work :=
  iterate_refines (fun _ h => loopBody_refines h) hr n

/-- The state in which `setup` enters the loop. -/
theorem setup_ok (h : setup M msg = .ok s₀) : s₀.redeems = [] ∧ s₀.attempts = [] ∧ s₀.core.builder.transactions = [] ∧
      s₀.core.transactionIndex = 0 ∧ s₀.core.frontiers = [] ∧ s₀.core.events = [] ∧
      (∃ txs, M.digestMessage msg = some txs ∧ s₀.userTxs = txs.map fun tx => (tx, tx.sender)) ∧
      ∀ tx, s₀.first = some tx → tx.sender = .ok arbosAddress := by
  obtain ⟨txs, h1, h⟩ := bind_ok.mp h
  obtain ⟨evm, -, h⟩ := bind_ok.mp h
  obtain ⟨executor, -, h⟩ := bind_ok.mp h
  obtain ⟨baseFee, -, h⟩ := bind_ok.mp h
  cases h
  refine ⟨rfl, rfl, rfl, rfl, rfl, rfl, ⟨txs, ?_, rfl⟩, fun tx htx => ?_⟩
  · cases hd : M.digestMessage msg with
    | none =>
      rw [hd] at h1
      cases h1
    | some txs' =>
      rw [hd] at h1
      rw [Except.ok.inj h1]
  · obtain ⟨internal, -, rfl⟩ := Option.map_eq_some_iff.mp htx
    rfl

theorem setup_ready (h : setup M msg = .ok s₀) : s₀.Ready := Or.inr (setup_ok h).1

theorem setup_work (h : setup M msg = .ok s₀) : s₀.work = Work.start s₀.core s₀.roots := by
  obtain ⟨hredeems, hattempts, -⟩ := setup_ok h
  simp [LoopState.work, Work.start, hredeems, hattempts]

theorem ordered_of_loop_done (h : setup M msg = .ok s₀) {n : ℕ} (hd : iterate (loopBody M) n s₀ = .done s) :
    Ordered (visit M) s₀.core s₀.roots s.attempts s.core := by
  have hw := iterate_work (M := M) (setup_ready h) n
  rw [hd, setup_work h] at hw
  exact ordered_of_iterate_done hw

variable {vs : List (Visit (LoopCore β σ δ) (Task β))}

theorem loop_done_of_ordered (h : setup M msg = .ok s₀) (ho : Ordered (visit M) s₀.core s₀.roots vs c) {n : ℕ} (hn : vs.length < n) :
    ∃ s, iterate (loopBody M) n s₀ = .done s ∧ s.core = c ∧ s.attempts = vs := by
  have hw := iterate_work (M := M) (setup_ready h) n
  rw [setup_work h, ho.iterate_done hn] at hw
  cases hd : iterate (loopBody M) n s₀ with
  | running s =>
    rw [hd] at hw
    cases hw
  | failed e =>
    rw [hd] at hw
    cases hw
  | done s =>
    rw [hd] at hw
    have hwork : s.work = ⟨c, [], [], vs⟩ := (Progress.done.inj hw).symm
    exact ⟨s, rfl, congrArg Work.state hwork, congrArg Work.visited hwork⟩

/-! ### Positions -/

/-- Whether a transaction is accepted by execution on top of a block under construction. -/
def accepts (M : BlockEnv μ β σ δ) (b : BlockBuilder β σ) (t : Task β) : Bool :=
  match t.sender with
  | .error _ => false
  | .ok sender => (b.executeTransaction M.toArbEvm ⟨t.tx, sender⟩).isOk

/-- The positions and hashes of the transactions of a block. -/
def indexed (txs : List (Recovered β)) : List (ℕ × B256) := txs.zipIdx.map fun p => (p.2, p.1.tx.hash)

theorem indexed_append (txs : List (Recovered β)) (tx : Recovered β) :
    indexed (txs ++ [tx]) = indexed txs ++ [(txs.length, tx.tx.hash)] := by
  simp [indexed, List.zipIdx_append]

def FrontierAdvance.key (f : FrontierAdvance δ) : ℕ × B256 := (f.transactionIndex, f.transactionHash)

def ArbTxLogEvent.key (e : ArbTxLogEvent ℕ) : ℕ × B256 := (e.transactionIndex, e.transactionHash)

/-- What the frontier and the stream were told about the transactions of the block: the frontier
about each one, the stream about those at which it had a subscriber. -/
structure Indexed (M : BlockEnv μ β σ δ) (c : LoopCore β σ δ) : Prop where
  index : c.transactionIndex = c.builder.transactions.length
  frontiers : M.txLogStream.isSome → c.frontiers.map (·.key) = indexed c.builder.transactions
  disabled : M.txLogStream = none → c.frontiers = [] ∧ c.events = []
  events : ∀ subscribed, M.txLogStream = some subscribed →
    c.events.map (·.key) = (indexed c.builder.transactions).filter (fun p => subscribed p.1)

theorem Indexed.attempt (hi : Indexed M c) (h : attempt M c t = .ok (c', retries)) : Indexed M c' := by
  obtain ⟨sender, -, ⟨-, -, -, rfl, -⟩ | ⟨out, b, he, hb, -, hindex, hfrontiers, hevents⟩⟩ := attempt_ok h
  · exact hi
  · have htxs : c'.builder.transactions = c.builder.transactions ++ [⟨t.tx, sender⟩] := by
      rw [hb, scheduleRetries_transactions, BlockBuilder.executeTransaction_ok he]
    have hidx := hi.index
    have hindex' : c'.transactionIndex = c'.builder.transactions.length := by
      rw [hindex, htxs, hidx]
      simp
    cases hstream : M.txLogStream with
    | none =>
      have hnone := hi.disabled hstream
      refine ⟨hindex', by simp [hstream], fun _ => ?_, by simp [hstream]⟩
      rw [hfrontiers, hevents]
      simpa only [LoopCore.observe, hstream] using hnone
    | some subscribed =>
      have hf := hi.frontiers (by simp [hstream])
      have hev := hi.events subscribed hstream
      refine ⟨hindex', fun _ => ?_, by simp [hstream], fun f hsub => ?_⟩
      · rw [hfrontiers, htxs, indexed_append, ← hf, ← hidx]
        simp only [LoopCore.observe, hstream, List.map_append]
        rfl
      · obtain rfl : subscribed = f := Option.some.inj (hstream.symm.trans hsub)
        rw [hevents, htxs, indexed_append, List.filter_append, ← hev, ← hidx]
        simp only [LoopCore.observe, hstream]
        cases hs : subscribed c.transactionIndex with
        | true =>
          simp only [if_true, List.map_append, List.filter_cons_of_pos, hs, List.filter_nil]
          rfl
        | false => simp [hs]

theorem Indexed.chain (h : Chain (visit M) c vs c') (hi : Indexed M c) : Indexed M c' := by
  refine Chain.induction (fun _ m => Indexed M m) h hi ?_
  intro _ m m' a children ih hv
  obtain ⟨retries, ha, -⟩ := visit_ok hv
  exact ih.attempt ha

/-- The included transactions are the accepted ones, in the order of the visits. -/
theorem transactions_of_chain (h : Chain (visit M) c vs c') (hc : c.builder.transactions = []) : c'.builder.transactions.map (·.tx) =
      (vs.filter (fun v => accepts M v.before.builder v.task)).map (·.task.tx) := by
  refine Chain.induction (fun ws m => m.builder.transactions.map (·.tx) =
    (ws.filter (fun v => accepts M v.before.builder v.task)).map (·.task.tx)) h (by simp [hc]) ?_
  intro ws m m' a children ih hv
  obtain ⟨retries, ha, -⟩ := visit_ok hv
  rw [List.filter_append, List.map_append, ← ih]
  obtain ⟨sender, hs, ⟨e, he, -, heq, -⟩ | ⟨out, b, he, hb, -⟩⟩ := attempt_ok ha
  · have hacc : accepts M m.builder a = false := by simp [accepts, hs, he, Except.isOk, Except.toBool]
    simp [hacc, heq]
  · have hacc : accepts M m.builder a = true := by simp [accepts, hs, he, Except.isOk, Except.toBool]
    simp [hacc, hb, scheduleRetries_transactions, BlockBuilder.executeTransaction_ok he]

end ArbReth.Engine
