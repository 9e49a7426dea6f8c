import ArbReth.L1.Batch

/-! # Assembly of the feed

`assemble_feed_messages_with_seed` (`arb-reth-l1/src/assemble.rs`) decodes a run of batches, one after
the other, into one numbered stream of feed messages.  It threads the delayed cursor from batch to
batch and collects the statistics of the batches it has seen, which the batch posting reports among
the delayed messages refer to.

The stream of a batch is a feed form of what the multiplexer emits for it (`FeedOf`), so a run of
batches whose counts do not fall emits as one multiplexer would (`assembleFrom_emits`). -/

namespace ArbReth.L1

open ArbReth.Derive ArbReth.Runs

def kindBatchPostingReport : UInt8 := 13

/-- A derived message as a feed message; a batch posting report needs the statistics of its batch. -/
def derivedToFeed (m : DerivedMessage) (seq : ℕ) (reportStats : ReportStats) :
    Except DeriveError (BroadcastFeedMessage FeedBody) :=
  if m.header.kind = kindBatchPostingReport then
    match reportDataHash m.l2Msg with
    | none => .error (.missing "batch posting report data_hash")
    | some hash =>
      match reportStats hash with
      | none => .error (.missing "batch posting report stats (batch not seen)")
      | some stats => .ok (derivedToFeedMessageWithStats m seq (some stats))
  else .ok (derivedToFeedMessage m seq)

/-- The segments of a resolved payload; an empty one has none. -/
def payloadSegments (X : Codec) (payload : Bytes) : Except DeriveError (List Segment) :=
  if payload = [] then .ok []
  else do
    let bytes ← (decompressPayload X payload).mapError .batch
    (parseSegments bytes).mapError .batch

def decodePayloadMessages (X : Codec) (header : BatchHeader) (payload : Bytes) (beforeDelayedCount : ℕ)
    (delayed : DelayedSource) : Except DeriveError (List DerivedMessage) := do
  let segments ← payloadSegments X payload
  (extractMessages X header segments beforeDelayedCount delayed).mapError .mux

/-- The feed forms of some messages, numbered from `seq`. -/
def toFeedFrom (reportStats : ReportStats) :
    ℕ → List DerivedMessage → Except DeriveError (List (BroadcastFeedMessage FeedBody))
  | _, [] => .ok []
  | seq, m :: ms => do
    let msg ← derivedToFeed m seq reportStats
    let msgs ← toFeedFrom reportStats (seq + 1) ms
    .ok (msg :: msgs)

def batchToFeedMessages (X : Codec) (batch : DeliveredBatch) (payload : Bytes) (beforeDelayedCount : ℕ)
    (delayed : DelayedSource) (reportStats : ReportStats) (seqStart : ℕ) :
    Except DeriveError (List (BroadcastFeedMessage FeedBody)) := do
  let msgs ← decodePayloadMessages X batch.event.batchHeader payload beforeDelayedCount delayed
  toFeedFrom reportStats seqStart msgs

/-- The variables of the assembly loop. -/
structure Assembly where
  reportStats : ReportStats
  before : ℕ
  seq : ℕ
  out : List (BroadcastFeedMessage FeedBody)

/-- One batch. -/
def Assembly.batch (X : Codec) (delayed : DelayedSource) (s : Assembly) (b : DeliveredBatch × Bytes) :
    Except DeriveError Assembly := do
  let reportStats := s.reportStats.insert (batchDataHash X b.1) (batchDataStats (serializeBatch b.1))
  let msgs ← batchToFeedMessages X b.1 b.2 s.before delayed reportStats s.seq
  .ok
    { reportStats
      before := b.1.event.afterDelayedMessagesRead
      seq := s.seq + msgs.length
      out := s.out ++ msgs }

def assembleFeedMessagesWithSeed (X : Codec) (resolved : List (DeliveredBatch × Bytes))
    (delayed : DelayedSource) (startDelayedCount : ℕ) (seedStats : ReportStats) :
    Except DeriveError (List (BroadcastFeedMessage FeedBody)) := do
  let s ← run (Assembly.batch X delayed) ⟨seedStats, startDelayedCount, 0, []⟩ resolved
  .ok s.out

/-! ### The feed form of an emission -/

/-- The message comes from the delayed inbox. -/
def fromDelayed (m : BroadcastFeedMessage FeedBody) : Bool := m.body.requestId.isSome

/-- `m` is the feed form of `d` with the number `seq`. -/
def IsFeedOf (seq : ℕ) (d : DerivedMessage) (m : BroadcastFeedMessage FeedBody) : Prop :=
  ∃ stats, m = derivedToFeedMessageWithStats d seq stats

/-- The messages are the feed forms of `ds`, numbered from `seq`. -/
structure FeedOf (seq : ℕ) (ds : List DerivedMessage) (ms : List (BroadcastFeedMessage FeedBody)) : Prop where
  forms : List.Forall₂ (fun d m => IsFeedOf m.sequenceNumber d m) ds ms
  numbers : ms.map (·.sequenceNumber) = List.range' seq ms.length

variable {X : Codec} {seq : ℕ} {ds ds' : List DerivedMessage} {ms ms' : List (BroadcastFeedMessage FeedBody)}

theorem derivedToFeed_ok {stats : ReportStats} {d : DerivedMessage} {m : BroadcastFeedMessage FeedBody}
    (h : derivedToFeed d seq stats = .ok m) : IsFeedOf seq d m := by
  unfold derivedToFeed at h
  split at h
  · split at h
    · cases h
    · split at h
      · cases h
      · exact ⟨_, (Except.ok.inj h).symm⟩
  · exact ⟨none, (Except.ok.inj h).symm⟩

theorem FeedOf.nil (seq : ℕ) : FeedOf seq [] [] := ⟨List.Forall₂.nil, rfl⟩

theorem FeedOf.append (h : FeedOf seq ds ms) (h' : FeedOf (seq + ms.length) ds' ms') :
    FeedOf seq (ds ++ ds') (ms ++ ms') := by
  refine ⟨List.rel_append h.forms h'.forms, ?_⟩
  rw [List.map_append, h.numbers, h'.numbers, List.length_append]
  exact List.range'_append_1

theorem toFeedFrom_ok {stats : ReportStats} : ∀ {seq : ℕ} {ds : List DerivedMessage}
    {ms : List (BroadcastFeedMessage FeedBody)}, toFeedFrom stats seq ds = .ok ms → FeedOf seq ds ms := by
  intro seq ds
  induction ds generalizing seq with
  | nil =>
    intro ms h
    rw [← Except.ok.inj h]
    exact FeedOf.nil seq
  | cons d ds ih =>
    intro ms h
    obtain ⟨m, h1, h⟩ := bind_ok.mp h
    obtain ⟨rest, h2, h⟩ := bind_ok.mp h
    obtain ⟨stats', rfl⟩ := derivedToFeed_ok h1
    have hrest := ih h2
    rw [← Except.ok.inj h]
    refine ⟨List.Forall₂.cons ⟨stats', rfl⟩ hrest.forms, ?_⟩
    rw [List.map_cons, hrest.numbers, List.length_cons, List.range'_succ]
    rfl

theorem decodePayloadMessages_emits {header : BatchHeader} {payload : Bytes} {before : ℕ}
    {delayed : DelayedSource} {out : List DerivedMessage} (hle : before ≤ header.afterDelayedMessages)
    (h : decodePayloadMessages X header payload before delayed = .ok out) :
    Emits delayed before out header.afterDelayedMessages := by
  obtain ⟨segments, -, h⟩ := bind_ok.mp h
  exact extractMessages_emits hle (mapError_ok.mp h)

/-! ### Runs of batches -/

/-- The delayed counts of a run of batches do not fall below the cursor or below each other. -/
def CountsRise (startDelayedCount : ℕ) (resolved : List (DeliveredBatch × Bytes)) : Prop :=
  (startDelayedCount :: resolved.map (·.1.event.afterDelayedMessagesRead)).Pairwise (· ≤ ·)

/-- The delayed cursor after a run of batches. -/
def lastCount (startDelayedCount : ℕ) (resolved : List (DeliveredBatch × Bytes)) : ℕ :=
  (resolved.getLast?.map (·.1.event.afterDelayedMessagesRead)).getD startDelayedCount

@[simp] theorem lastCount_concat (start : ℕ) (resolved : List (DeliveredBatch × Bytes)) (b : DeliveredBatch × Bytes) :
    lastCount start (resolved ++ [b]) = b.1.event.afterDelayedMessagesRead := by
  simp [lastCount]

/-- What the loop has done after some batches. -/
structure Assembled (delayed : DelayedSource) (start : ℕ) (done : List (DeliveredBatch × Bytes))
    (s : Assembly) : Prop where
  before : s.before = lastCount start done
  seq : s.seq = s.out.length
  emitted : ∃ ds, Emits delayed start ds s.before ∧ FeedOf 0 ds s.out

variable {delayed : DelayedSource} {start : ℕ} {done : List (DeliveredBatch × Bytes)} {s s' : Assembly}
  {b : DeliveredBatch × Bytes}

theorem Assembly.batch_ok (hle : s.before ≤ b.1.event.afterDelayedMessagesRead) (h : s.batch X delayed b = .ok s') :
    ∃ ds msgs, Emits delayed s.before ds b.1.event.afterDelayedMessagesRead ∧ FeedOf s.seq ds msgs ∧
      s'.out = s.out ++ msgs ∧ s'.seq = s.seq + msgs.length ∧ s'.before = b.1.event.afterDelayedMessagesRead := by
  obtain ⟨msgs, hmsgs, h⟩ := bind_ok.mp h
  obtain ⟨ds, hds, hfeed⟩ := bind_ok.mp hmsgs
  rw [← Except.ok.inj h]
  exact ⟨ds, msgs, decodePayloadMessages_emits hle hds, toFeedFrom_ok hfeed, rfl, rfl, rfl⟩

theorem Assembled.batch (hs : Assembled delayed start done s)
    (hle : s.before ≤ b.1.event.afterDelayedMessagesRead) (h : s.batch X delayed b = .ok s') :
    Assembled delayed start (done ++ [b]) s' := by
  obtain ⟨ds', msgs, hemits', hfeed', hout, hseq, hbefore⟩ := Assembly.batch_ok hle h
  obtain ⟨ds, hemits, hfeed⟩ := hs.emitted
  refine ⟨by rw [hbefore, lastCount_concat], ?_, ds ++ ds', ?_, ?_⟩
  · rw [hseq, hout, hs.seq, List.length_append]
  · rw [hbefore]
    exact hemits.append hemits'
  · rw [hout]
    refine hfeed.append ?_
    rwa [zero_add, ← hs.seq]

/-- In a run whose counts rise, the cursor before a batch is at or below its count. -/
theorem CountsRise.lastCount_le (h : CountsRise start (done ++ [b])) :
    lastCount start done ≤ b.1.event.afterDelayedMessagesRead := by
  unfold CountsRise at h
  rw [List.map_append, ← List.cons_append, List.pairwise_append] at h
  refine h.2.2 _ ?_ _ (by simp)
  unfold lastCount
  cases hl : done.getLast? with
  | none => simp
  | some last =>
    refine List.mem_cons_of_mem _ ?_
    exact List.mem_map_of_mem (List.mem_of_getLast? hl)

variable {resolved : List (DeliveredBatch × Bytes)}

theorem CountsRise.of_isPrefix (h : CountsRise start resolved) (hp : done <+: resolved) : CountsRise start done := by
  obtain ⟨rest, rfl⟩ := hp
  unfold CountsRise at h ⊢
  rw [List.map_append, ← List.cons_append] at h
  exact (List.pairwise_append.mp h).1

theorem run_assembled {seed : ReportStats} (hrise : CountsRise start resolved) (h : run (Assembly.batch X delayed) ⟨seed, start, 0, []⟩ resolved = .ok s) :
    Assembled delayed start resolved s := by
  refine run_induction (Assembled delayed start) ⟨rfl, rfl, [], .nil, FeedOf.nil 0⟩ ?_ h
  intro done b m m' hp _ hm hstep
  refine hm.batch ?_ hstep
  rw [hm.before]
  exact (hrise.of_isPrefix hp).lastCount_le

/-- The messages of a run of batches are the feed forms of one emission. -/
theorem assemble_emits {seed : ReportStats} {out : List (BroadcastFeedMessage FeedBody)} (hrise : CountsRise start resolved)
    (h : assembleFeedMessagesWithSeed X resolved delayed start seed = .ok out) :
    ∃ ds, Emits delayed start ds (lastCount start resolved) ∧ FeedOf 0 ds out := by
  obtain ⟨s, hs, h⟩ := bind_ok.mp h
  have hasm := run_assembled hrise hs
  obtain ⟨ds, hemits, hfeed⟩ := hasm.emitted
  rw [← Except.ok.inj h, ← hasm.before]
  exact ⟨ds, hemits, hfeed⟩

/-! ### Read off the feed -/

theorem FeedOf.reads (h : FeedOf seq ds ms) : ms.map (·.body.delayedMessagesRead) = ds.map (·.delayedMessagesRead) := by
  rw [eq_comm, ← List.forall₂_eq_eq_eq, List.forall₂_map_left_iff, List.forall₂_map_right_iff]
  refine h.forms.imp fun d m hm => ?_
  obtain ⟨stats, hm⟩ := hm
  rw [hm]
  rfl

theorem FeedOf.filter_fromDelayed (h : FeedOf seq ds ms) :
    List.Forall₂ (fun d m => IsFeedOf m.sequenceNumber d m) (ds.filter DerivedMessage.isDelayed)
      (ms.filter fromDelayed) := by
  refine List.rel_filter (fun d m hm => ?_) h.forms
  obtain ⟨stats, hm⟩ := hm
  rw [hm]
  rfl

/-- The messages of an assembled feed are numbered from zero, the read counts never fall, and the delayed messages are
those between the starting cursor and the last count, once each and in order. -/
theorem assemble_reads_each_delayed_once (X : Codec) (resolved : List (DeliveredBatch × Bytes))
    (delayed : DelayedSource) (startDelayedCount : ℕ) (seedStats : ReportStats)
    (out : List (BroadcastFeedMessage FeedBody)) (hrise : CountsRise startDelayedCount resolved)
    (h : assembleFeedMessagesWithSeed X resolved delayed startDelayedCount seedStats = .ok out) :
    out.map (·.sequenceNumber) = List.range out.length ∧
    out.Pairwise (fun m m' => m.body.delayedMessagesRead ≤ m'.body.delayedMessagesRead) ∧ (∀ m, out.getLast? = some m →
      m.body.delayedMessagesRead = lastCount startDelayedCount resolved) ∧
    List.Forall₂ (fun i m => ∃ dm, delayed i = some dm ∧ IsFeedOf m.sequenceNumber (dm.toDerived (i + 1)) m)
      (List.range' startDelayedCount (lastCount startDelayedCount resolved - startDelayedCount))
      (out.filter fromDelayed) := by
  obtain ⟨ds, hemits, hfeed⟩ := assemble_emits hrise h
  refine ⟨?_, ?_, ?_, ?_⟩
  · rw [hfeed.numbers, List.range_eq_range']
  · have hsorted := hemits.sorted
    rw [← List.pairwise_map (f := fun m : DerivedMessage => m.delayedMessagesRead) (R := (· ≤ ·)),
      ← hfeed.reads, List.pairwise_map] at hsorted
    exact hsorted
  · intro m hm
    have hlast : (ds.map (·.delayedMessagesRead)).getLast? = some m.body.delayedMessagesRead := by
      rw [← hfeed.reads, List.getLast?_map, hm]
      rfl
    rw [List.getLast?_map] at hlast
    obtain ⟨d, hd, hread⟩ := Option.map_eq_some_iff.mp hlast
    rw [← hread]
    exact hemits.last_read hd
  · refine (forall₂_comp hemits.delayed_filter hfeed.filter_fromDelayed).imp ?_
    rintro i m ⟨_, ⟨dm, hdm, rfl⟩, hm⟩
    exact ⟨dm, hdm, hm⟩

/-- A delayed message without a body. -/
def emptyDelayed (index : ℕ) : DelayedMessage where
  kind := 9
  sender := 7
  blockNumber := 5
  timestamp := 11
  inboxSeqNum := index
  baseFeeL1 := 0
  data := []
  beforeInboxAcc := 0

theorem assemble_reads_each_delayed_once_two_batches : ∃ out, assembleFeedMessagesWithSeed plainCodec
        [(.delayedOnly 4 1, []), (.delayedOnly 5 3, [])] (fun i => some (emptyDelayed i)) 0 .empty = .ok out ∧
      out.length = 3 ∧ out.map (·.sequenceNumber) = List.range out.length ∧
      ∀ m, out.getLast? = some m → m.body.delayedMessagesRead = 3 := by
  have hrise : CountsRise 0 [(.delayedOnly 4 1, []), (.delayedOnly 5 3, [])] := by
    simp [CountsRise, DeliveredBatch.delayedOnly]
  have hout : assembleFeedMessagesWithSeed plainCodec [(.delayedOnly 4 1, []), (.delayedOnly 5 3, [])]
      (fun i => some (emptyDelayed i)) 0 .empty =
      .ok ((List.range 3).map fun i => derivedToFeedMessage ((emptyDelayed i).toDerived (i + 1)) i) := rfl
  have hreads := assemble_reads_each_delayed_once _ _ _ 0 _ _ hrise hout
  exact ⟨_, hout, rfl, hreads.1, hreads.2.2.1⟩

end ArbReth.L1
