import ArbReth.L1.Assemble
import ArbReth.L1.Resolve
import ArbReth.L1.Inbox

/-! # Derivation of windows

`derive_from_resolved_cached` (`arb-reth-l1/src/sync.rs`) derives the messages of one window of resolved
batches.  The delayed messages that the window consumes come from the `DelayedCache`, and the statistics
of the batches that its batch posting reports name from a cache by data hash, both of which are carried
from window to window.  `derive_from_resolved` is the same with fresh caches. -/

namespace ArbReth.L1

open ArbReth.Derive ArbReth.Runs

structure DerivedRange where
  messages : List (BroadcastFeedMessage FeedBody)
  nextDelayedCount : ℕ
  batches : ℕ
deriving DecidableEq, Repr

/-! ### Report statistics -/

/-- The variables of `seed_report_stats`: the seed, and the cache that is read and filled. -/
structure SeedState where
  seed : ReportStats
  cache : ReportStats

/-- Reads the statistics of a reported batch, by its block, number and hash. -/
abbrev StatsReader := ℕ → ℕ → B256 → Except DeriveError BatchDataStats

/-- One delayed message; only a report on a batch outside of the window needs statistics. -/
def SeedState.message (stats : StatsReader) (inRange : List B256) (s : SeedState) (m : DelayedMessage) :
    Except DeriveError SeedState :=
  if m.kind ≠ kindBatchPostingReport then .ok s
  else
    match reportDataHash m.data with
    | none => .error (.missing "report data_hash")
    | some dataHash =>
      if dataHash ∈ inRange ∨ (s.seed dataHash).isSome then .ok s
      else
        match s.cache dataHash with
        | some stats => .ok { s with seed := s.seed.insert dataHash stats }
        | none =>
          match reportBatchNum m.data with
          | none => .error (.missing "report batch num")
          | some seq => do
            let stats ← stats m.blockNumber seq dataHash
            .ok
              { seed := s.seed.insert dataHash stats
                cache := s.cache.insert dataHash stats }

def seedReportStats (stats : StatsReader) (delayed : DelayedMap) (inRange : List B256) (cache : ReportStats) :
    Except DeriveError SeedState :=
  run (SeedState.message stats inRange) ⟨.empty, cache⟩ (delayed.toList.map (·.2))

/-- Record a batch by its data hash, unless the hash is there already. -/
def recordBatch (X : Codec) (cache : ReportStats) (b : DeliveredBatch × Bytes) : ReportStats :=
  if (cache (batchDataHash X b.1)).isSome then cache
  else cache.insert (batchDataHash X b.1) (batchDataStats (serializeBatch b.1))

/-! ### Windows -/

structure DeriveCaches where
  delayed : DelayedCache
  reports : ReportStats

def DeriveCaches.new : DeriveCaches := ⟨.new, .empty⟩

def deriveFromResolvedCachedM (X : Codec) (stats : StatsReader) (resolved : List (DeliveredBatch × Bytes))
    (toBlock startDelayedCount window : ℕ) (c : DeriveCaches) : Fetching (DerivedRange × DeriveCaches) :=
  match resolved.getLast? with
  | none => return (⟨[], startDelayedCount, 0⟩, c)
  | some last =>
    let nextDelayedCount := last.1.event.afterDelayedMessagesRead
    let reports := resolved.foldl (recordBatch X) c.reports
    let inRange := resolved.map fun b => batchDataHash X b.1
    if nextDelayedCount ≤ startDelayedCount then do
      let messages ← .done (assembleFeedMessagesWithSeed X resolved noDelayed startDelayedCount .empty)
      return (⟨messages, nextDelayedCount, resolved.length⟩, ⟨c.delayed, reports⟩)
    else do
      let covered ← c.delayed.cover toBlock startDelayedCount nextDelayedCount window
      let seeded ← .done (seedReportStats stats covered.1 inRange reports)
      let messages ← .done
        (assembleFeedMessagesWithSeed X resolved covered.1.message startDelayedCount seeded.seed)
      return (⟨messages, nextDelayedCount, resolved.length⟩, ⟨covered.2, seeded.cache⟩)

def deriveFromResolvedCached (X : Codec) (stats : StatsReader) (R : DelayedReader)
    (resolved : List (DeliveredBatch × Bytes)) (toBlock startDelayedCount window : ℕ) (c : DeriveCaches) :
    Except DeriveError (DerivedRange × DeriveCaches) :=
  R.run (deriveFromResolvedCachedM X stats resolved toBlock startDelayedCount window c)

def deriveFromResolved (X : Codec) (S : SequencerInboxReader) (R : DelayedReader)
    (resolved : List (DeliveredBatch × Bytes)) (toBlock startDelayedCount window : ℕ) :
    Except DeriveError DerivedRange := do
  let derived ← deriveFromResolvedCached X (S.statsForReportedBatch X) R resolved toBlock startDelayedCount window .new
  .ok derived.1

/-- A window moves the delayed cursor to that of its last batch. -/
theorem deriveFromResolvedCached_nextDelayedCount {X : Codec} {stats : StatsReader} {R : DelayedReader}
    {resolved : List (DeliveredBatch × Bytes)} {toBlock startDelayedCount window : ℕ} {c : DeriveCaches}
    {out : DerivedRange × DeriveCaches}
    (h : deriveFromResolvedCached X stats R resolved toBlock startDelayedCount window c = .ok out) :
    out.1.nextDelayedCount = lastCount startDelayedCount resolved := by
  unfold deriveFromResolvedCached deriveFromResolvedCachedM at h
  unfold lastCount
  cases hlast : resolved.getLast? with
  | none =>
    rw [hlast] at h
    cases h
    rfl
  | some last =>
    rw [hlast] at h
    simp only at h
    split at h
    · obtain ⟨messages, -, hout⟩ := DelayedReader.bind_ok.mp h
      cases hout
      rfl
    · obtain ⟨covered, -, h⟩ := DelayedReader.bind_ok.mp h
      obtain ⟨seeded, -, h⟩ := DelayedReader.bind_ok.mp h
      obtain ⟨messages, -, hout⟩ := DelayedReader.bind_ok.mp h
      cases hout
      rfl

/-! ### The reports agree -/

variable {X : Codec} {S : SequencerInboxReader} {known : Set DeliveredBatch} {inRange : List B256}

/-- Every entry of the map is about a known batch. -/
def ReportStats.About (m : ReportStats) (X : Codec) (known : Set DeliveredBatch) : Prop :=
  ∀ hash stats, m hash = some stats →
    ∃ b ∈ known, batchDataHash X b = hash ∧ stats = batchDataStats (serializeBatch b)

variable {m : ReportStats} {stats stats' : BatchDataStats}

theorem ReportStats.insert_eq_some {hash hash' : B256} (h : m.insert hash stats hash' = some stats') : (hash' = hash ∧ stats' = stats) ∨ m hash' = some stats' := by
  unfold ReportStats.insert at h
  by_cases hh : hash' = hash
  · rw [hh, Function.update_self] at h
    exact Or.inl ⟨hh, (Option.some.inj h).symm⟩
  · rw [Function.update_of_ne hh] at h
    exact Or.inr h

theorem ReportStats.About.empty : ReportStats.About .empty X known := fun _ _ h => by cases h

theorem ReportStats.About.insert (h : m.About X known) {b : DeliveredBatch} (hb : b ∈ known) :
    (m.insert (batchDataHash X b) (batchDataStats (serializeBatch b))).About X known := by
  intro hash stats hstats
  rcases ReportStats.insert_eq_some hstats with ⟨rfl, rfl⟩ | hstats
  · exact ⟨b, hb, rfl, rfl⟩
  · exact h hash stats hstats

theorem ReportStats.About.record {resolved : List (DeliveredBatch × Bytes)}
    (h : m.About X known) (hknown : ∀ b ∈ resolved, b.1 ∈ known) :
    (resolved.foldl (recordBatch X) m).About X known := by
  induction resolved generalizing m with
  | nil => exact h
  | cons b resolved ih =>
    rw [List.foldl_cons]
    refine ih ?_ fun b' hb' => hknown b' (List.mem_cons_of_mem _ hb')
    unfold recordBatch
    split
    · exact h
    · exact h.insert (hknown b List.mem_cons_self)

/-- Two known batches with one hash have the same statistics. -/
theorem stats_unique (hinj : Set.InjOn X.keccak256 (serializeBatch '' known)) {b b' : DeliveredBatch}
    (hb : b ∈ known) (hb' : b' ∈ known) (h : batchDataHash X b = batchDataHash X b') :
    batchDataStats (serializeBatch b) = batchDataStats (serializeBatch b') :=
  congrArg batchDataStats (hinj (Set.mem_image_of_mem _ hb) (Set.mem_image_of_mem _ hb') h)

/-- The seeding of an isolated window beside that of the same window with carried caches. -/
structure SeedsAgree (X : Codec) (known : Set DeliveredBatch) (inRange : List B256) (s t : SeedState) : Prop where
  seed : s.seed = t.seed
  isolated : ∀ hash, (s.cache hash).isSome → hash ∈ inRange ∨ (s.seed hash).isSome
  carried : t.cache.About X known

theorem SeedsAgree.insert_isolated {s t : SeedState} (h : SeedsAgree X known inRange s t) {dataHash hash : B256}
    (hsome : (s.cache.insert dataHash stats hash).isSome) :
    hash ∈ inRange ∨ (s.seed.insert dataHash stats' hash).isSome := by
  unfold ReportStats.insert at hsome ⊢
  by_cases hh : hash = dataHash
  · rw [hh, Function.update_self]
    exact Or.inr rfl
  · rw [Function.update_of_ne hh] at hsome ⊢
    exact h.isolated hash hsome

theorem SeedsAgree.message (hinj : Set.InjOn X.keccak256 (serializeBatch '' known))
    (hknown : ∀ b, S.Delivered b → b ∈ known) {s s' t : SeedState} {m : DelayedMessage}
    (h : SeedsAgree X known inRange s t) (hstep : s.message (S.statsForReportedBatch X) inRange m = .ok s') :
    ∃ t', t.message (S.statsForReportedBatch X) inRange m = .ok t' ∧ SeedsAgree X known inRange s' t' := by
  unfold SeedState.message at hstep ⊢
  by_cases hkind : m.kind ≠ kindBatchPostingReport
  · rw [if_pos hkind] at hstep ⊢
    rw [← Except.ok.inj hstep]
    exact ⟨t, rfl, h⟩
  rw [if_neg hkind] at hstep ⊢
  cases hhash : reportDataHash m.data with
  | none =>
    simp only [hhash] at hstep
    cases hstep
  | some dataHash =>
    simp only [hhash] at hstep ⊢
    rw [← h.seed]
    by_cases hin : dataHash ∈ inRange ∨ (s.seed dataHash).isSome
    · rw [if_pos hin] at hstep ⊢
      rw [← Except.ok.inj hstep]
      exact ⟨t, rfl, h⟩
    rw [if_neg hin] at hstep ⊢
    -- the isolated window fetches the statistics
    have hmiss : s.cache dataHash = none := by
      by_contra hsome
      exact hin (h.isolated dataHash (Option.isSome_iff_ne_none.mpr hsome))
    simp only [hmiss] at hstep
    cases hseq : reportBatchNum m.data with
    | none =>
      simp only [hseq] at hstep
      cases hstep
    | some seq =>
      simp only [hseq] at hstep ⊢
      obtain ⟨stats, hstats, hstep⟩ := bind_ok.mp hstep
      obtain ⟨b, hb, hbhash, rfl⟩ := SequencerInboxReader.statsForReportedBatch_ok hstats
      rw [← Except.ok.inj hstep]
      cases hcache : t.cache dataHash with
      | some stats' =>
        obtain ⟨b', hb', hbhash', rfl⟩ := h.carried dataHash stats' hcache
        rw [stats_unique hinj hb' (hknown b hb) (hbhash'.trans hbhash.symm)]
        exact ⟨_, rfl, rfl, fun hash hsome => h.insert_isolated hsome, h.carried⟩
      | none =>
        refine ⟨_, bind_ok.mpr ⟨_, hstats, rfl⟩, rfl, fun hash hsome => h.insert_isolated hsome, ?_⟩
        rw [← hbhash]
        exact h.carried.insert (hknown b hb)

variable {inbox : Inbox} {R R' : DelayedReader} {resolved : List (DeliveredBatch × Bytes)}
  {toBlock startDelayedCount window cursor top : ℕ} {c : DeriveCaches} {d : DerivedRange}

/-- The carried caches say nothing wrong, and the delayed cache lacks nothing from `cursor` on. -/
structure DeriveCaches.Valid (X : Codec) (known : Set DeliveredBatch) (inbox : Inbox) (cursor top : ℕ)
    (c : DeriveCaches) : Prop where
  delayed : c.delayed.Valid inbox cursor top
  reports : c.reports.About X known

theorem DeriveCaches.Valid.new : DeriveCaches.new.Valid X known inbox cursor top :=
  ⟨.new, .empty⟩

end ArbReth.L1
