import ArbReth.Engine.TxLoop
import ArbReth.Lib.Codec

/-! # Execution frontiers

`ArbExecutionFrontierStore` (`arb-reth-engine/src/tx_log_stream.rs`) retains the state after each of the latest
transactions, for all blocks that are being built.  Each `advance` of a block adds a frontier, whose updates are a chain
shared with the earlier ones of the block. -/

namespace ArbReth.Engine

open ArbReth.Runs ArbReth.Loop ArbReth.Evm
open ArbReth.Codec (toBe)

structure FrontierBlockBase (σ : Type) where
  parentHash : B256
  preExecutionState : σ

/-- The frontier of a call of `advance`.  The chain of updates is a list, the latest one first. -/
structure ArbExecutionFrontier (δ σ : Type) where
  frontierId : B256
  call : FrontierAdvance δ
  base : FrontierBlockBase σ
  tail : List δ

variable {δ σ : Type}

def ArbExecutionFrontier.stateUpdates (f : ArbExecutionFrontier δ σ) : List δ := f.tail.reverse

structure ArbExecutionFrontierStore (δ σ : Type) where
  order : List B256
  frontiers : B256 → Option (ArbExecutionFrontier δ σ)

namespace ArbExecutionFrontierStore

/-- The oldest entries go until the capacity is kept. -/
def expire (capacity : ℕ) : List B256 → (B256 → Option (ArbExecutionFrontier δ σ)) → ArbExecutionFrontierStore δ σ
  | [], m => ⟨[], m⟩
  | id :: order, m =>
    if capacity < (id :: order).length then expire capacity order (Function.update m id none) else ⟨id :: order, m⟩

def insert (capacity : ℕ) (s : ArbExecutionFrontierStore δ σ) (f : ArbExecutionFrontier δ σ) :
    ArbExecutionFrontierStore δ σ :=
  expire (max capacity 1)
    (if (s.frontiers f.frontierId).isNone then s.order ++ [f.frontierId] else s.order)
    (Function.update s.frontiers f.frontierId (some f))

/-- The queue and the map have the same identifiers, each once. -/
structure WellFormed (capacity : ℕ) (s : ArbExecutionFrontierStore δ σ) : Prop where
  nodup : s.order.Nodup
  same : ∀ id, id ∈ s.order ↔ (s.frontiers id).isSome = true
  bounded : s.order.length ≤ capacity

theorem expire_spec (capacity : ℕ) {order : List B256} {m : B256 → Option (ArbExecutionFrontier δ σ)}
    (hnodup : order.Nodup) (hsame : ∀ id, id ∈ order ↔ (m id).isSome = true) :
    (expire capacity order m).WellFormed capacity ∧
      ∀ id f, (expire capacity order m).frontiers id = some f → m id = some f := by
  induction order generalizing m with
  | nil => exact ⟨⟨hnodup, hsame, Nat.zero_le _⟩, fun _ _ h => h⟩
  | cons first order ih =>
    rw [expire]
    split
    · obtain ⟨hfirst, hnodup⟩ := List.nodup_cons.mp hnodup
      obtain ⟨hwf, hkept⟩ := @ih (Function.update m first none) hnodup fun id => by
        rcases eq_or_ne id first with rfl | hne
        · simp [hfirst]
        · rw [Function.update_of_ne hne, ← hsame, List.mem_cons, or_iff_right hne]
      refine ⟨hwf, fun id f h => ?_⟩
      have hid := hkept id f h
      rcases eq_or_ne id first with rfl | hne
      · simp at hid
      · rwa [Function.update_of_ne hne] at hid
    · exact ⟨⟨hnodup, hsame, Nat.le_of_not_lt ‹_›⟩, fun _ _ h => h⟩

theorem insert_spec {capacity : ℕ} {s : ArbExecutionFrontierStore δ σ} (h : s.WellFormed (max capacity 1))
    (f : ArbExecutionFrontier δ σ) : (s.insert capacity f).WellFormed (max capacity 1) ∧
      ∀ id g, (s.insert capacity f).frontiers id = some g →
        id = f.frontierId ∧ g = f ∨ id ≠ f.frontierId ∧ s.frontiers id = some g := by
  have hnone : (s.frontiers f.frontierId).isNone = true ↔ f.frontierId ∉ s.order := by
    rw [h.same, Option.isNone_iff_eq_none, Option.not_isSome_iff_eq_none]
  have hnodup : (if (s.frontiers f.frontierId).isNone then s.order ++ [f.frontierId] else s.order).Nodup := by
    split
    · exact List.nodup_append'.mpr ⟨h.nodup, List.nodup_singleton _, by simpa using hnone.mp ‹_›⟩
    · exact h.nodup
  obtain ⟨hwf, hkept⟩ := expire_spec (max capacity 1) hnodup (m := Function.update s.frontiers f.frontierId (some f))
    fun id => by
      rcases eq_or_ne id f.frontierId with rfl | hne
      · split
        · simp
        · simpa using not_not.mp (mt hnone.mpr ‹_›)
      · split <;> simp [hne, h.same]
  refine ⟨hwf, fun id g hg => ?_⟩
  have hid := hkept id g hg
  rcases eq_or_ne id f.frontierId with rfl | hne
  · exact Or.inl ⟨rfl, by simpa using hid.symm⟩
  · exact Or.inr ⟨hne, by rwa [Function.update_of_ne hne] at hid⟩

end ArbExecutionFrontierStore

/-- A block that is being built: its handle, and the database to which its transactions are committed. -/
structure ArbExecutionFrontierBlock (δ σ : Type) where
  base : FrontierBlockBase σ
  tail : List δ
  db : σ

/-- The blocks that are being built, and the store they share. -/
structure Building (δ σ : Type) where
  blocks : ℕ → ArbExecutionFrontierBlock δ σ
  store : ArbExecutionFrontierStore δ σ

namespace Building

variable (keccak256 : List UInt8 → B256) (commit : σ → δ → σ) (capacity : ℕ) (bases : ℕ → FrontierBlockBase σ)

def start : Building δ σ := ⟨fun i => ⟨bases i, [], (bases i).preExecutionState⟩, ⟨[], fun _ => none⟩⟩

def identity (base : FrontierBlockBase σ) (a : FrontierAdvance δ) : B256 :=
  keccak256 (toBe 32 base.parentHash.toNat ++ toBe 8 a.blockNumber ++ toBe 8 a.transactionIndex ++
    toBe 32 a.transactionHash.toNat)

/-- A transaction of a block is committed, and its block advances. -/
def advance (w : Building δ σ) (c : ℕ × FrontierAdvance δ) : Building δ σ :=
  let b := w.blocks c.1
  let tail := c.2.update :: b.tail
  ⟨Function.update w.blocks c.1 ⟨b.base, tail, commit b.db c.2.update⟩,
    w.store.insert capacity ⟨identity keccak256 b.base c.2, c.2, b.base, tail⟩⟩

def after (calls : List (ℕ × FrontierAdvance δ)) : Building δ σ :=
  calls.foldl (advance keccak256 commit capacity) (start bases)

/-- The updates of a block. -/
def updates (calls : List (ℕ × FrontierAdvance δ)) (i : ℕ) : List δ :=
  (calls.filter (·.1 = i)).map (·.2.update)

theorem blocks_after (calls : List (ℕ × FrontierAdvance δ)) (i : ℕ) :
    (after keccak256 commit capacity bases calls).blocks i = ⟨bases i, (updates calls i).reverse,
      (updates calls i).foldl commit (bases i).preExecutionState⟩ := by
  induction calls using List.reverseRecOn with
  | nil => rfl
  | append_singleton calls c ih =>
    rw [after, List.foldl_concat, ← after, advance]
    rcases eq_or_ne i c.1 with rfl | hne
    · simp [ih, updates]
    · simp [ih, updates, hne, hne.symm]

/-! ### The transaction loop

The calls of a block come from its transaction loop, and `db` is the database that the loop has committed to. -/

section loop
variable {μ β ς : Type} {M : BlockEnv μ β ς δ}

/-- The database behind the EVM of a block, which only commits change. -/
structure Database (M : BlockEnv μ β ς δ) (σ : Type) where
  view : ς → σ
  commit : σ → δ → σ
  view_commit : ∀ evm update, view (M.commit evm update) = commit (view evm) update
  view_transact : ∀ evm tx out evm', M.transact evm tx = .ok (out, evm') → view evm' = view evm
  view_retries : ∀ evm logs, view (M.scheduledRetriesFromRedeemLogs evm logs).1 = view evm

/-- From `c` to `c'` the loop has handed over the updates that it has committed. -/
def Commits (D : Database M σ) (c c' : LoopCore β ς δ) : Prop :=
  ∃ new, c'.frontiers = c.frontiers ++ new ∧
    D.view c'.builder.executor.evm = (new.map (·.update)).foldl D.commit (D.view c.builder.executor.evm)

variable (D : Database M σ) (hstream : M.txLogStream.isSome)
include hstream

theorem attempt_commits {c c' : LoopCore β ς δ} {t : Task β} {retries : List (ArbTxEnvelope β)}
    (h : attempt M c t = .ok (c', retries)) : Commits D c c' := by
  obtain ⟨subscribed, hsubscribed⟩ := Option.isSome_iff_exists.mp hstream
  obtain ⟨sender, -, ⟨-, -, -, rfl, -⟩ | ⟨out, b, hexec, hbuilder, -, -, hfrontiers, -⟩⟩ := attempt_ok h
  · exact ⟨[], (List.append_nil _).symm, rfl⟩
  · obtain ⟨⟨output, executor⟩, hwithout, hb⟩ := bind_ok.mp hexec
    obtain ⟨⟨result, evm⟩, htransact, hexecutor⟩ := bind_ok.mp hwithout
    cases hexecutor
    cases hb
    have hview := D.view_transact _ _ _ _ (mapError_ok.mp htransact)
    refine ⟨_, hfrontiers.trans (by rw [LoopCore.observe, hsubscribed]), ?_⟩
    have hretries : D.view c'.builder.executor.evm = D.view (M.commit evm result.state) := by
      rw [hbuilder, scheduleRetries]
      dsimp only
      split
      · exact D.view_retries _ _
      · rfl
    rw [hretries, D.view_commit, hview]
    rfl

theorem loop_commits {n : ℕ} {s s' : LoopState β ς δ} (h : iterate (loopBody M) n s = .running s') :
    Commits D s.core s'.core := by
  refine iterate_invariant (fun t => Commits D s.core t.core) ⟨[], (List.append_nil _).symm, rfl⟩ ?_ h
  rintro t t' ⟨new, hnew, hview⟩ hbody
  obtain ⟨task, m, core, retries, hpop, hattempt, rfl⟩ := loopBody_ok hbody
  obtain ⟨new', hnew', hview'⟩ := attempt_commits D hstream hattempt
  rw [(LoopState.pop_core hpop).1] at hnew' hview'
  refine ⟨new ++ new', hnew'.trans (by rw [hnew, List.append_assoc]), hview'.trans ?_⟩
  rw [hview, List.map_append, List.foldl_append]

/-- After the calls that its loop has made so far, the database of a block is that of the loop. -/
theorem db_eq_loop {n : ℕ} {s s' : LoopState β ς δ} (h : iterate (loopBody M) n s = .running s')
    (hs : s.core.frontiers = []) {calls : List (ℕ × FrontierAdvance δ)} {i : ℕ}
    (hbase : (bases i).preExecutionState = D.view s.core.builder.executor.evm)
    (hcalls : (calls.filter (·.1 = i)).map (·.2) = s'.core.frontiers) :
    ((after keccak256 D.commit capacity bases calls).blocks i).db = D.view s'.core.builder.executor.evm := by
  obtain ⟨new, hnew, hview⟩ := loop_commits D hstream h
  rw [hs, List.nil_append] at hnew
  rw [blocks_after, hview, hbase, ← hnew, ← hcalls, List.map_map]
  rfl

end loop

/-- **Execution frontiers are exact.**  What is retained under an identifier comes from the latest call that has produced
it, and its updates lead from the state before the block to the state after the transaction. -/
theorem frontiers_exact (calls : List (ℕ × FrontierAdvance δ)) :
    (after keccak256 commit capacity bases calls).store.WellFormed (max capacity 1) ∧
      ∀ id f, (after keccak256 commit capacity bases calls).store.frontiers id = some f →
        ∃ before i a later, calls = before ++ (i, a) :: later ∧
          f.frontierId = id ∧ f.call = a ∧ f.base = bases i ∧ identity keccak256 (bases i) a = id ∧
          (∀ c ∈ later, identity keccak256 (bases c.1) c.2 ≠ id) ∧ f.stateUpdates = updates (before ++ [(i, a)]) i ∧
          f.stateUpdates.foldl commit f.base.preExecutionState =
            ((after keccak256 commit capacity bases (before ++ [(i, a)])).blocks i).db := by
  induction calls using List.reverseRecOn with
  | nil => exact ⟨⟨List.nodup_nil, by simp [after, start], Nat.zero_le _⟩, fun id f h => by cases h⟩
  | append_singleton calls c ih =>
    obtain ⟨hwf, hkept⟩ := ih
    obtain ⟨i, a⟩ := c
    have hstore : (after keccak256 commit capacity bases (calls ++ [(i, a)])).store =
        (after keccak256 commit capacity bases calls).store.insert capacity
          ⟨identity keccak256 (bases i) a, a, bases i, a.update :: (updates calls i).reverse⟩ := by
      rw [after, List.foldl_concat, ← after, advance]
      simp only [blocks_after]
    obtain ⟨hwf', hinsert⟩ := ArbExecutionFrontierStore.insert_spec hwf
      ⟨identity keccak256 (bases i) a, a, bases i, a.update :: (updates calls i).reverse⟩
    rw [hstore]
    refine ⟨hwf', fun id f hf => ?_⟩
    rcases hinsert id f hf with ⟨rfl, rfl⟩ | ⟨hne, hf⟩
    · refine ⟨calls, i, a, [], rfl, rfl, rfl, rfl, rfl, (fun _ h => by cases h), ?_⟩
      simp [ArbExecutionFrontier.stateUpdates, updates, blocks_after]
    · obtain ⟨before, j, b, later, rfl, hid, hcall, hbase, hident, hlater, hrest⟩ := hkept id f hf
      refine ⟨before, j, b, later ++ [(i, a)], by simp, hid, hcall, hbase, hident, fun c hc => ?_, hrest⟩
      rcases List.mem_append.mp hc with hc | hc
      · exact hlater c hc
      · rw [List.mem_singleton.mp hc]
        exact hne.symm

/-- A store of capacity 0 retains a frontier. -/
theorem zero_capacity_retains : ((after (fun _ => 0) (fun _ _ => ()) 0 (fun _ => ⟨0, ()⟩)
    [(0, ⟨1, 0, 0, (), ⟨0, none⟩⟩)]).store : ArbExecutionFrontierStore Unit Unit).order.length = 1 := by
  rfl

end Building

end ArbReth.Engine
