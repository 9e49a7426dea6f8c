import ArbReth.Sync.L1Sync

/-! # The chain of an L1 history

A fixed L1 history says which batches each L1 block holds and which messages a batch decodes to, given
the delayed cursor before it.  It determines an L2 chain: `derive` reads a list of batches in order,
threading the delayed cursor, and yields their messages.

A boundary is *true* if it is what deriving every batch before its L1 block leaves
(`L1History.TrueBoundary`).  Between true boundaries the chain can be derived in pieces
(`derive_append`).  `L1History.Truthful` ties the oracle of a run to a history: it may fail at any
time, but what it answers is what the history says.  `L1History.env` is a world that never fails. -/

namespace ArbReth.Sync

open ArbReth.L1

variable {γ β : Type}

/-! ### Numbering -/

/-- Consecutive sequence numbers from `k` on. -/
def numberFrom : ℕ → List (BroadcastFeedMessage β) → List (BroadcastFeedMessage β)
  | _, [] => []
  | k, m :: ms => { m with sequenceNumber := k } :: numberFrom (k + 1) ms

@[simp] theorem numberFrom_nil (k : ℕ) : numberFrom k ([] : List (BroadcastFeedMessage β)) = [] := rfl

@[simp] theorem numberFrom_cons (k : ℕ) (m : BroadcastFeedMessage β) (ms : List (BroadcastFeedMessage β)) :
    numberFrom k (m :: ms) = { m with sequenceNumber := k } :: numberFrom (k + 1) ms := rfl

@[simp] theorem length_numberFrom (k : ℕ) (ms : List (BroadcastFeedMessage β)) :
    (numberFrom k ms).length = ms.length := by
  induction ms generalizing k with
  | nil => rfl
  | cons m ms ih => simp [ih]

theorem numberFrom_append (k : ℕ) (ms ms' : List (BroadcastFeedMessage β)) :
    numberFrom k (ms ++ ms') = numberFrom k ms ++ numberFrom (k + ms.length) ms' := by
  induction ms generalizing k with
  | nil => rfl
  | cons m ms ih =>
    have hlen : k + 1 + ms.length = k + (ms.length + 1) := by omega
    simp [ih, hlen]

variable {ms ms' : List (BroadcastFeedMessage β)}

theorem numberFrom_isPrefix (h : ms <+: ms') (k : ℕ) : numberFrom k ms <+: numberFrom k ms' := by
  obtain ⟨t, rfl⟩ := h
  rw [numberFrom_append]
  exact List.prefix_append _ _

@[simp] theorem numberFrom_numberFrom (k j : ℕ) (ms : List (BroadcastFeedMessage β)) :
    numberFrom k (numberFrom j ms) = numberFrom k ms := by
  induction ms generalizing k j with
  | nil => rfl
  | cons m ms ih => simp [ih]

theorem drop_numberFrom (k n : ℕ) (ms : List (BroadcastFeedMessage β)) :
    (numberFrom k ms).drop n = numberFrom (k + n) (ms.drop n) := by
  induction ms generalizing k n with
  | nil => simp
  | cons m ms ih =>
    cases n with
    | zero => rfl
    | succ n =>
      have hk : k + 1 + n = k + (n + 1) := by omega
      simp [ih, hk]

/-- Two lists that differ in their numbers at most still do after dropping the same part. -/
theorem numberFrom_drop_congr {j : ℕ}
    (h : numberFrom j ms = numberFrom j ms') (k n : ℕ) : numberFrom k (ms.drop n) = numberFrom k (ms'.drop n) := by
  have hdrop := congrArg (fun l => numberFrom k (l.drop n)) h
  simpa [drop_numberFrom] using hdrop

theorem mem_numberFrom {k : ℕ} {ms : List (BroadcastFeedMessage β)} {m : BroadcastFeedMessage β}
    (h : m ∈ numberFrom k ms) : k ≤ m.sequenceNumber ∧ m.sequenceNumber < k + ms.length := by
  induction ms generalizing k with
  | nil => cases h
  | cons m' ms ih =>
    rw [numberFrom_cons] at h
    rcases List.mem_cons.mp h with rfl | h
    · exact ⟨le_rfl, by simp⟩
    · have := ih h
      rw [List.length_cons]
      omega

theorem exists_mem_numberFrom (k : ℕ) (ms : List (BroadcastFeedMessage β)) (j : ℕ) (hj : j < ms.length) :
    ∃ m ∈ numberFrom k ms, m.sequenceNumber = k + j := by
  induction ms generalizing k j with
  | nil => cases hj
  | cons m ms ih =>
    cases j with
    | zero => exact ⟨{ m with sequenceNumber := k }, by simp, rfl⟩
    | succ j =>
      obtain ⟨m', hm', hnum⟩ := ih (k + 1) j (by simpa using hj)
      exact ⟨m', List.mem_cons_of_mem _ hm', by omega⟩

/-! ### Histories -/

structure L1History (γ β : Type) where
  /-- The batches of an L1 block, in log order. -/
  batches : ℕ → List (ResolvedBatch γ)
  /-- The messages of a batch, given the delayed cursor before it; they are not numbered yet. -/
  decode : ℕ → ResolvedBatch γ → Option (List (BroadcastFeedMessage β))
  /-- The delayed cursor before the first batch. -/
  firstDelayedCount : ℕ
  /-- The L2 block before the first message. -/
  genesisBlock : ℕ

namespace L1History

variable (H : L1History γ β)

/-- The batches of the L1 blocks from `a` up to before `b`. -/
def range (a b : ℕ) : List (ResolvedBatch γ) := (List.range' a (b - a)).flatMap H.batches

/-- The messages of some batches and the delayed cursor after them. -/
def derive : ℕ → List (ResolvedBatch γ) → Option (List (BroadcastFeedMessage β) × ℕ)
  | delayed, [] => some ([], delayed)
  | delayed, b :: bs => do
    let messages ← H.decode delayed b
    let (rest, after) ← derive b.afterDelayedMessagesRead bs
    some (messages ++ rest, after)

/-- The batch count at an L1 block. -/
def count (n : ℕ) : ℕ := (H.range 0 (n + 1)).length

/-- Deriving every batch before the L1 block leaves this delayed cursor and this L2 block. -/
def TrueBoundary (cp : L1ResumeCheckpoint) : Prop :=
  ∃ messages, H.derive H.firstDelayedCount (H.range 0 cp.l1Block) = some (messages, cp.delayedCount) ∧
    cp.l2Block = H.genesisBlock + messages.length

/-- The answers of the world are those of the history. -/
structure Truthful (E : L1Env γ β) : Prop where
  provider : E.toProvider.Truthful H.count
  resolveBatches : ∀ round a b bs, E.resolveBatches round a b = .ok bs → bs = H.range a (b + 1)
  assemble : ∀ round a b delayed ms,
    E.assemble round (H.range a (b + 1)) b delayed = .ok ms →
      ∃ messages after, H.derive delayed (H.range a (b + 1)) = some (messages, after) ∧
        ms = numberFrom 0 messages

/-- A world that always answers: its L1 head, its durable tip and its saves are given. -/
def env (head tip : ℕ → ℕ) (save : ℕ → SaveOutcome) : L1Env γ β where
  getBlockNumber clock := some (head clock)
  call _ n := some (word (H.count n))
  taskEnds _ := true
  resolveBatches _ a b := .ok (H.range a (b + 1))
  assemble _ bs _ delayed :=
    match H.derive delayed bs with
    | none => .error .decode
    | some (messages, _) => .ok (numberFrom 0 messages)
  feedOpen _ := true
  persistedTip round := some (tip round)
  save

variable {H}

theorem env_truthful (hfits : ∀ n, H.count n < u64Size) (head tip : ℕ → ℕ) (save : ℕ → SaveOutcome) :
    H.Truthful (H.env head tip save) := by
  refine ⟨⟨hfits, fun _ n out h => Or.inl (Option.some.inj h).symm⟩,
    fun _ a b bs h => (Except.ok.inj h).symm, fun _ a b delayed ms h => ?_⟩
  unfold env at h
  simp only at h
  cases hd : H.derive delayed (H.range a (b + 1)) with
  | none =>
    rw [hd] at h
    cases h
  | some out =>
    rw [hd] at h
    exact ⟨out.1, out.2, rfl, (Except.ok.inj h).symm⟩

/-! ### Batches -/

@[simp] theorem range_self (a : ℕ) : H.range a a = [] := by simp [range]

theorem range_append {a b c : ℕ} (h1 : a ≤ b) (h2 : b ≤ c) : H.range a b ++ H.range b c = H.range a c := by
  unfold range
  rw [← List.flatMap_append]
  have hb : b = a + (b - a) := by omega
  have hc : c - a = (b - a) + (c - b) := by omega
  rw [hc, ← List.range'_append_1, ← hb]

theorem range_singleton (n : ℕ) : H.range n (n + 1) = H.batches n := by
  simp [range]

theorem countBefore_count (n : ℕ) : countBefore H.count n = (H.range 0 n).length := by
  cases n with
  | zero => simp [countBefore]
  | succ n => rfl

theorem count_monotone : Monotone H.count := by
  intro a b hab
  unfold count
  rw [← range_append (Nat.zero_le (a + 1)) (show a + 1 ≤ b + 1 by omega), List.length_append]
  exact Nat.le_add_right _ _

/-- The count does not rise at a block exactly when the block has no batch. -/
theorem count_eq_countBefore_iff (n : ℕ) : H.count n = countBefore H.count n ↔ H.batches n = [] := by
  have hsplit : H.count n = countBefore H.count n + (H.batches n).length := by
    rw [countBefore_count, count, ← range_append (Nat.zero_le n) (Nat.le_succ n), range_singleton,
      List.length_append]
  rw [hsplit, ← List.length_eq_zero_iff]
  omega

/-- Where the count does not rise there is nothing to derive. -/
theorem range_eq_nil {a b : ℕ} (h : ∀ n, a ≤ n → n < b → H.count n = countBefore H.count n) : H.range a b = [] := by
  unfold range
  rw [List.flatMap_eq_nil_iff]
  intro n hn
  rw [List.mem_range'_1] at hn
  exact (count_eq_countBefore_iff n).mp (h n hn.1 (by omega))

/-! ### Derivation in pieces -/

/-- A list of batches is derived in two parts, the second with the cursor the first one leaves. -/
theorem derive_append {delayed after : ℕ} {bs bs' : List (ResolvedBatch γ)} {ms : List (BroadcastFeedMessage β)} :
    H.derive delayed (bs ++ bs') = some (ms, after) ↔
      ∃ ms₁ mid ms₂, H.derive delayed bs = some (ms₁, mid) ∧ H.derive mid bs' = some (ms₂, after) ∧
        ms = ms₁ ++ ms₂ := by
  induction bs generalizing delayed ms with
  | nil =>
    constructor
    · exact fun h => ⟨[], delayed, ms, rfl, h, rfl⟩
    · rintro ⟨ms₁, mid, ms₂, h1, h2, rfl⟩
      cases h1
      exact h2
  | cons b bs ih =>
    rw [List.cons_append]
    simp only [derive, Option.bind_eq_bind, Option.bind_eq_some_iff, Option.some.injEq,
      Prod.mk.injEq, Prod.exists]
    constructor
    · rintro ⟨m, hm, rest, aft, hrest, rfl, rfl⟩
      obtain ⟨ms₁, mid, ms₂, h1, h2, rfl⟩ := ih.mp hrest
      exact ⟨m ++ ms₁, mid, ms₂, ⟨m, hm, ms₁, mid, h1, rfl, rfl⟩, h2,
        (List.append_assoc m ms₁ ms₂).symm⟩
    · rintro ⟨ms₁, mid, ms₂, ⟨m, hm, rest, aft, hrest, rfl, rfl⟩, h2, rfl⟩
      exact ⟨m, hm, rest ++ ms₂, after, ih.mpr ⟨rest, aft, ms₂, hrest, h2, rfl⟩,
        (List.append_assoc m rest ms₂).symm, rfl⟩

/-- The delayed cursor after some batches is that of the last one. -/
theorem derive_after {delayed after : ℕ} {bs : List (ResolvedBatch γ)} {last : ResolvedBatch γ}
    {ms : List (BroadcastFeedMessage β)} (h : H.derive delayed bs = some (ms, after))
    (hlast : bs.getLast? = some last) : after = last.afterDelayedMessagesRead := by
  obtain ⟨front, rfl⟩ := List.getLast?_eq_some_iff.mp hlast
  obtain ⟨ms₁, mid, ms₂, -, h2, -⟩ := derive_append.mp h
  simp only [derive, Option.bind_eq_bind, Option.bind_eq_some_iff, Option.some.injEq,
    Prod.mk.injEq, Prod.exists] at h2
  obtain ⟨m, -, rest, aft, ⟨-, rfl⟩, -, rfl⟩ := h2
  rfl

/-! ### A small history -/

/-- One batch with one message in each of some L1 blocks; each batch moves the delayed cursor to the
number of its block. -/
def postedAt (blocks : List ℕ) : L1History Unit Unit where
  batches n := if n ∈ blocks then [⟨n, ()⟩] else []
  decode _ b := some [⟨0, b.afterDelayedMessagesRead, ()⟩]
  firstDelayedCount := 0
  genesisBlock := 0

theorem postedAt_count_le (blocks : List ℕ) (n : ℕ) : (postedAt blocks).count n ≤ blocks.length := by
  have hfilter : ∀ ns : List ℕ, (ns.flatMap (postedAt blocks).batches).length =
      (ns.filter (· ∈ blocks)).length := by
    intro ns
    induction ns with
    | nil => rfl
    | cons m ns ih =>
      rw [List.flatMap_cons, List.length_append, ih, List.filter_cons]
      by_cases hm : m ∈ blocks
      · simp [postedAt, hm, Nat.add_comm]
      · simp [postedAt, hm]
  unfold count range
  rw [hfilter]
  refine List.Subperm.length_le (List.subperm_of_subset ((List.nodup_range' 1).filter _) (fun m hm => ?_))
  simpa using (List.mem_filter.mp hm).2

theorem postedAt_fits {blocks : List ℕ} (h : blocks.length < u64Size) (n : ℕ) : (postedAt blocks).count n < u64Size :=
  (postedAt_count_le blocks n).trans_lt h

end L1History

end ArbReth.Sync
