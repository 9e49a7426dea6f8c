import ArbReth.Derive.Multiplexer

/-! # The specification of the multiplexer

What a batch means, without the running values of the walk.  A sequencer message at a segment has the sums of
the deltas of all segments before it; a delayed message at a segment has the index that the number of delayed
segments before it gives (`segmentOutput`); the rest of the delayed messages follow at the end
(`batchOutput`).  `Accepts` says which batches have a meaning.

`extractMessages` succeeds exactly on these batches and returns that output. -/

namespace ArbReth.Derive

open ArbReth.Runs

def Segment.is (kind : SegmentKind) (seg : Segment) : Bool := decide (SegmentKind.ofByte seg.kind = kind)

/-- The number of delayed segments. -/
def delayedCount (segs : List Segment) : ℕ := segs.countP (Segment.is .delayedMessages)

/-- The deltas of the segments of one kind. -/
def deltas (kind : SegmentKind) (segs : List Segment) : List ℕ :=
  segs.filterMap (fun seg => if seg.is kind then Rlp.decodeUint 8 seg.data else none)

/-- The value that the deltas of one kind add up to. -/
def advanced (kind : SegmentKind) (segs : List Segment) : ℕ := (deltas kind segs).sum % u64Size

/-- The sequencer message with the given data after some segments. -/
def sequencerMessage (header : BatchHeader) (start : ℕ) (before : List Segment) (l2Msg : Bytes) : DerivedMessage where
  header :=
    { kind := kindL2Message
      poster := batchPosterAddress
      blockNumber := clamp (advanced .advanceL1Block before) header.minL1Block header.maxL1Block
      timestamp := clamp (advanced .advanceTimestamp before) header.minTimestamp header.maxTimestamp
      requestId := none
      l1BaseFee := 0 }
  l2Msg
  delayedMessagesRead := start + delayedCount before

/-- The delayed message with an index, if the source has it. -/
def delayedOutput (delayed : DelayedSource) (i : ℕ) : List DerivedMessage :=
  (delayed i).toList.map (fun dm => dm.toDerived (i + 1))

/-- What a segment emits after some segments. -/
def segmentOutput (X : Codec) (header : BatchHeader) (delayed : DelayedSource) (start : ℕ) (before : List Segment)
    (seg : Segment) : List DerivedMessage :=
  match SegmentKind.ofByte seg.kind with
  | .l2Message => [sequencerMessage header start before seg.data]
  | .l2MessageBrotli => (X.brotli seg.data).toList.map (sequencerMessage header start before)
  | .delayedMessages => delayedOutput delayed (start + delayedCount before)
  | _ => []

def segmentsOutput (X : Codec) (header : BatchHeader) (delayed : DelayedSource) (start : ℕ) (segs : List Segment) :
    List DerivedMessage :=
  segs.zipIdx.flatMap (fun p => segmentOutput X header delayed start (segs.take p.2) p.1)

/-- The messages of a batch: those of its segments, and the delayed messages up to its count that the segments
have not taken. -/
def batchOutput (X : Codec) (header : BatchHeader) (delayed : DelayedSource) (start : ℕ) (segs : List Segment) :
    List DerivedMessage :=
  segmentsOutput X header delayed start segs ++
    (List.range' (start + delayedCount segs) (header.afterDelayedMessages - (start + delayedCount segs))).flatMap
      (delayedOutput delayed)

/-- The data of every segment can be read. -/
structure SegmentsReadable (X : Codec) (segs : List Segment) : Prop where
  advance : ∀ seg ∈ segs, seg.is .advanceTimestamp = true ∨ seg.is .advanceL1Block = true →
    ∃ d, Rlp.decodeUint 8 seg.data = some d
  brotli : ∀ seg ∈ segs, seg.is .l2MessageBrotli = true →
    ∃ l2, X.brotli seg.data = some l2 ∧ l2.length ≤ maxL2MessageSize

/-- Its segments can be read, they take no more delayed messages than the batch counts, and the source has all of
those. -/
structure Accepts (X : Codec) (header : BatchHeader) (delayed : DelayedSource) (start : ℕ) (segs : List Segment) :
    Prop where
  readable : SegmentsReadable X segs
  count : delayedCount segs ≤ header.afterDelayedMessages - start
  source : ∀ i, start ≤ i → i < max start header.afterDelayedMessages → ∃ dm, delayed i = some dm

variable {X : Codec} {header : BatchHeader} {delayed : DelayedSource} {start : ℕ} {segs : List Segment} {seg : Segment}

/-! ### One more segment -/

theorem delayedCount_concat : delayedCount (segs ++ [seg]) = delayedCount segs + if seg.is .delayedMessages then 1 else 0 := by
  unfold delayedCount
  rw [List.countP_append, List.countP_singleton]

theorem advanced_concat_of_not (kind : SegmentKind) (h : seg.is kind = false) :
    advanced kind (segs ++ [seg]) = advanced kind segs := by
  unfold advanced deltas
  rw [List.filterMap_append, List.filterMap_cons, h]
  simp

theorem advanced_concat {kind : SegmentKind} (h : seg.is kind = true) {d : ℕ} (hd : Rlp.decodeUint 8 seg.data = some d) :
    advanced kind (segs ++ [seg]) = (advanced kind segs + d) % u64Size := by
  unfold advanced deltas
  rw [List.filterMap_append, List.filterMap_cons, h, if_pos rfl, hd, Nat.mod_add_mod]
  simp

theorem segmentsOutput_concat : segmentsOutput X header delayed start (segs ++ [seg]) =
    segmentsOutput X header delayed start segs ++ segmentOutput X header delayed start segs seg := by
  unfold segmentsOutput
  rw [List.zipIdx_append, List.flatMap_append]
  congr 1
  · -- the segments before another are not affected by one at the end
    refine List.flatMap_congr fun p hp => ?_
    have hlt : p.2 < segs.length := by
      have hp' := List.mem_zipIdx hp
      omega
    rw [List.take_append_of_le_length hlt.le]
  · simp

theorem segmentsReadable_concat : SegmentsReadable X (segs ++ [seg]) ↔
    SegmentsReadable X segs ∧ SegmentsReadable X [seg] := by
  constructor
  · intro h
    refine ⟨⟨fun s hs => h.advance s (List.mem_append_left _ hs), fun s hs => h.brotli s (List.mem_append_left _ hs)⟩, ?_⟩
    exact ⟨fun s hs => h.advance s (List.mem_append_right _ hs), fun s hs => h.brotli s (List.mem_append_right _ hs)⟩
  · rintro ⟨h, h'⟩
    constructor
    · intro s hs
      rcases List.mem_append.mp hs with hs | hs
      · exact h.advance s hs
      · exact h'.advance s hs
    · intro s hs
      rcases List.mem_append.mp hs with hs | hs
      · exact h.brotli s hs
      · exact h'.brotli s hs

/-! ### The walk -/

/-- The running values after some segments. -/
def stateAfter (X : Codec) (header : BatchHeader) (delayed : DelayedSource) (start : ℕ) (segs : List Segment) :
    MuxState where
  timestamp := advanced .advanceTimestamp segs
  block := advanced .advanceL1Block segs
  delayedRead := start + delayedCount segs
  out := segmentsOutput X header delayed start segs

/-- A segment can be taken after some segments. -/
def Takes (X : Codec) (header : BatchHeader) (delayed : DelayedSource) (start : ℕ) (segs : List Segment)
    (seg : Segment) : Prop :=
  SegmentsReadable X [seg] ∧ (seg.is .delayedMessages = true → start + delayedCount segs < header.afterDelayedMessages ∧
    ∃ dm, delayed (start + delayedCount segs) = some dm)

theorem segmentsReadable_singleton : SegmentsReadable X [seg] ↔
    (seg.is .advanceTimestamp = true ∨ seg.is .advanceL1Block = true → ∃ d, Rlp.decodeUint 8 seg.data = some d) ∧
      (seg.is .l2MessageBrotli = true → ∃ l2, X.brotli seg.data = some l2 ∧ l2.length ≤ maxL2MessageSize) := by
  constructor
  · intro h
    exact ⟨h.advance seg (List.mem_singleton_self seg), h.brotli seg (List.mem_singleton_self seg)⟩
  · rintro ⟨hadvance, hbrotli⟩
    constructor
    · intro s hs
      rw [List.mem_singleton.mp hs]
      exact hadvance
    · intro s hs
      rw [List.mem_singleton.mp hs]
      exact hbrotli

theorem readDelayed_ok {s s' : MuxState} : s.readDelayed delayed = .ok s' ↔ (∃ dm, delayed s.delayedRead = some dm) ∧
      s' = { s with delayedRead := s.delayedRead + 1, out := s.out ++ delayedOutput delayed s.delayedRead } := by
  unfold MuxState.readDelayed delayedOutput
  cases delayed s.delayedRead with
  | none => simp
  | some dm => simp [eq_comm]

/-- One segment is taken iff it can be, and the running values are those after it. -/
theorem segment_stateAfter {s' : MuxState} :
    (stateAfter X header delayed start segs).segment X header delayed seg = .ok s' ↔
      Takes X header delayed start segs seg ∧ s' = stateAfter X header delayed start (segs ++ [seg]) := by
  unfold Takes stateAfter
  rw [segmentsReadable_singleton, segmentsOutput_concat, delayedCount_concat]
  unfold MuxState.segment segmentOutput
  cases hkind : SegmentKind.ofByte seg.kind with
  | advanceTimestamp =>
    have his : seg.is .advanceTimestamp = true := decide_eq_true hkind
    cases hd : Rlp.decodeUint 8 seg.data with
    | none => simp [his]
    | some d =>
      rw [advanced_concat his hd, advanced_concat_of_not .advanceL1Block (by simp [Segment.is, hkind])]
      simp [Segment.is, hkind, eq_comm]
  | advanceL1Block =>
    have his : seg.is .advanceL1Block = true := decide_eq_true hkind
    cases hd : Rlp.decodeUint 8 seg.data with
    | none => simp [his]
    | some d =>
      rw [advanced_concat his hd, advanced_concat_of_not .advanceTimestamp (by simp [Segment.is, hkind])]
      simp [Segment.is, hkind, eq_comm]
  | l2Message =>
    rw [advanced_concat_of_not .advanceL1Block (by simp [Segment.is, hkind]),
      advanced_concat_of_not .advanceTimestamp (by simp [Segment.is, hkind])]
    simp [Segment.is, hkind, eq_comm, MuxState.pushL2, makeL2Message, sequencerMessage]
  | l2MessageBrotli =>
    rw [advanced_concat_of_not .advanceL1Block (by simp [Segment.is, hkind]),
      advanced_concat_of_not .advanceTimestamp (by simp [Segment.is, hkind])]
    cases X.brotli seg.data with
    | none => simp [Segment.is, hkind]
    | some l2 =>
      by_cases hsize : maxL2MessageSize < l2.length
      · simp [Segment.is, hkind, hsize, Nat.not_le.mpr hsize]
      · simp [Segment.is, hkind, hsize, Nat.le_of_not_lt hsize, eq_comm, MuxState.pushL2, makeL2Message,
          sequencerMessage]
  | delayedMessages =>
    rw [advanced_concat_of_not .advanceL1Block (by simp [Segment.is, hkind]),
      advanced_concat_of_not .advanceTimestamp (by simp [Segment.is, hkind])]
    by_cases hpast : header.afterDelayedMessages ≤ start + delayedCount segs
    · simp [Segment.is, hkind, hpast, Nat.not_lt.mpr hpast]
    · simp only [if_neg hpast, readDelayed_ok]
      simp [Segment.is, hkind, Nat.lt_of_not_le hpast, add_assoc]
  | unknown =>
    rw [advanced_concat_of_not .advanceL1Block (by simp [Segment.is, hkind]),
      advanced_concat_of_not .advanceTimestamp (by simp [Segment.is, hkind])]
    simp [Segment.is, hkind, eq_comm]

/-- What the segments alone need of the batch. -/
structure AcceptsSegments (X : Codec) (header : BatchHeader) (delayed : DelayedSource) (start : ℕ)
    (segs : List Segment) : Prop where
  readable : SegmentsReadable X segs
  count : delayedCount segs ≤ header.afterDelayedMessages - start
  source : ∀ i, start ≤ i → i < start + delayedCount segs → ∃ dm, delayed i = some dm

theorem acceptsSegments_concat : AcceptsSegments X header delayed start (segs ++ [seg]) ↔
    AcceptsSegments X header delayed start segs ∧ Takes X header delayed start segs seg := by
  constructor
  · rintro ⟨hreadable, hcount, hsource⟩
    rw [delayedCount_concat] at hcount hsource
    obtain ⟨hreadable, hseg⟩ := segmentsReadable_concat.mp hreadable
    refine ⟨⟨hreadable, by omega, fun i hi hi' => hsource i hi (by omega)⟩, hseg, fun hdelayed => ?_⟩
    rw [if_pos hdelayed] at hcount hsource
    exact ⟨by omega, hsource _ (by omega) (by omega)⟩
  · rintro ⟨⟨hreadable, hcount, hsource⟩, hseg, htake⟩
    refine ⟨segmentsReadable_concat.mpr ⟨hreadable, hseg⟩, ?_, ?_⟩
    · rw [delayedCount_concat]
      split
      · have hlt := (htake ‹_›).1
        omega
      · exact hcount
    · intro i hi hi'
      rw [delayedCount_concat] at hi'
      split at hi'
      · rcases Nat.lt_or_ge i (start + delayedCount segs) with hlt | hge
        · exact hsource i hi hlt
        · obtain rfl : i = start + delayedCount segs := by omega
          exact (htake ‹_›).2
      · exact hsource i hi hi'

theorem run_segment_iff {s : MuxState} : run (MuxState.segment X header delayed) ⟨0, 0, start, []⟩ segs = .ok s ↔
      AcceptsSegments X header delayed start segs ∧ s = stateAfter X header delayed start segs := by
  induction segs using List.reverseRecOn generalizing s with
  | nil =>
    have hnone : AcceptsSegments X header delayed start [] := by
      refine ⟨⟨fun s hs => absurd hs List.not_mem_nil, fun s hs => absurd hs List.not_mem_nil⟩, Nat.zero_le _, ?_⟩
      intro i hi hi'
      exact absurd hi' (Nat.not_lt.mpr hi)
    rw [run_nil, Except.ok.injEq, eq_comm]
    exact ⟨fun h => ⟨hnone, h⟩, fun h => h.2⟩
  | append_singleton segs seg ih =>
    rw [run_snoc_ok, acceptsSegments_concat]
    constructor
    · rintro ⟨m, hrun, hstep⟩
      obtain ⟨haccepts, rfl⟩ := ih.mp hrun
      obtain ⟨htakes, hs⟩ := segment_stateAfter.mp hstep
      exact ⟨⟨haccepts, htakes⟩, hs⟩
    · rintro ⟨⟨haccepts, htakes⟩, hs⟩
      exact ⟨_, ih.mpr ⟨haccepts, rfl⟩, segment_stateAfter.mpr ⟨htakes, hs⟩⟩

theorem forceInclude_ok (n : ℕ) : ∀ {s s' : MuxState}, s.forceInclude delayed n = .ok s' ↔
    (∀ i, s.delayedRead ≤ i → i < s.delayedRead + n → ∃ dm, delayed i = some dm) ∧
      s' = { s with
        delayedRead := s.delayedRead + n
        out := s.out ++ (List.range' s.delayedRead n).flatMap (delayedOutput delayed) } := by
  induction n with
  | zero =>
    intro s s'
    have hvacuous : ∀ i, s.delayedRead ≤ i → i < s.delayedRead + 0 → ∃ dm, delayed i = some dm :=
      fun i hi hi' => absurd hi' (Nat.not_lt.mpr hi)
    simp only [MuxState.forceInclude, Except.ok.injEq, List.range'_zero, List.flatMap_nil, List.append_nil,
      Nat.add_zero]
    exact ⟨fun h => ⟨hvacuous, h.symm⟩, fun h => h.2.symm⟩
  | succ n ih =>
    intro s s'
    simp only [MuxState.forceInclude, bind_ok, readDelayed_ok, ih]
    rw [List.range'_succ, List.flatMap_cons]
    constructor
    · rintro ⟨m, ⟨hfirst, rfl⟩, hrest, rfl⟩
      refine ⟨fun i hi hi' => ?_, by simp [add_comm, add_left_comm]⟩
      rcases Nat.eq_or_lt_of_le hi with rfl | hlt
      · exact hfirst
      · exact hrest i hlt (by dsimp only; omega)
    · rintro ⟨hsource, rfl⟩
      refine ⟨_, ⟨hsource _ le_rfl (by omega), rfl⟩, fun i hi hi' => ?_, by simp [add_comm, add_left_comm]⟩
      dsimp only at hi hi'
      exact hsource i (by omega) (by omega)

theorem extractMessages_ok {out : List DerivedMessage} : extractMessages X header segs start delayed = .ok out ↔
      Accepts X header delayed start segs ∧ out = batchOutput X header delayed start segs := by
  unfold extractMessages
  simp only [bind_ok, run_segment_iff, forceInclude_ok, Except.ok.injEq]
  constructor
  · rintro ⟨s, ⟨⟨hreadable, hcount, hsource⟩, rfl⟩, s', ⟨hrest, rfl⟩, rfl⟩
    refine ⟨⟨hreadable, hcount, fun i hi hi' => ?_⟩, rfl⟩
    rcases Nat.lt_or_ge i (start + delayedCount segs) with hlt | hge
    · exact hsource i hi hlt
    · refine hrest i hge ?_
      dsimp only [stateAfter]
      omega
  · rintro ⟨⟨hreadable, hcount, hsource⟩, rfl⟩
    refine ⟨_, ⟨⟨hreadable, hcount, fun i hi hi' => hsource i hi (by omega)⟩, rfl⟩, _, ⟨fun i hi hi' => ?_, rfl⟩, rfl⟩
    dsimp only [stateAfter] at hi hi'
    exact hsource i (by omega) (by omega)

/-- A batch is decoded iff it can be accepted; its output is then given by its segments, and every message has read as
many delayed messages as were emitted up to it. -/
theorem extract_messages_spec (X : Codec) (header : BatchHeader) (segs : List Segment) (start : ℕ)
    (delayed : DelayedSource) :
    ((∃ out, extractMessages X header segs start delayed = .ok out) ↔ Accepts X header delayed start segs) ∧
    ∀ out, extractMessages X header segs start delayed = .ok out → out = batchOutput X header delayed start segs ∧
      List.Forall₂ (fun i m => ∃ dm, delayed i = some dm ∧ m = dm.toDerived (i + 1))
        (List.range' start (max start header.afterDelayedMessages - start)) (out.filter DerivedMessage.isDelayed) ∧
      ∀ k m, out[k]? = some m → m.delayedMessagesRead = start + (out.take (k + 1)).countP DerivedMessage.isDelayed := by
  refine ⟨?_, fun out h => ?_⟩
  · constructor
    · rintro ⟨out, h⟩
      exact (extractMessages_ok.mp h).1
    · intro h
      exact ⟨_, extractMessages_ok.mpr ⟨h, rfl⟩⟩
  · have hemits := extractMessages_emits_max h
    exact ⟨(extractMessages_ok.mp h).2, hemits.delayed_filter, hemits.read_eq⟩

/-! A batch that counts three delayed messages from the second on: it steps the L1 block back by one, takes one
delayed message between its sequencer messages and leaves one for the end. -/

namespace SampleBatch

def bounds : BatchHeader := ⟨10, 20, 100, 200, 3⟩

def inbox : DelayedSource := fun i => some ⟨9, 0, 50, 12, i, 0, [], 0⟩

def segments : List Segment :=
  [⟨4, [0x81, 150]⟩, ⟨0, [1]⟩, ⟨2, []⟩, ⟨4, [0x88, 255, 255, 255, 255, 255, 255, 255, 255]⟩, ⟨7, []⟩, ⟨1, [2, 2]⟩]

def codec : Codec := ⟨some, fun _ => 0⟩

def output : List DerivedMessage :=
  [⟨⟨3, batchPosterAddress, 150, 10, none, 0⟩, [1], 1⟩, ⟨⟨9, 0, 50, 12, some 1, 0⟩, [], 2⟩,
    ⟨⟨3, batchPosterAddress, 149, 10, none, 0⟩, [2, 2], 2⟩, ⟨⟨9, 0, 50, 12, some 2, 0⟩, [], 3⟩]

end SampleBatch

open SampleBatch in
theorem extract_messages_spec_sample :
    Accepts codec bounds inbox 1 segments ∧ output = batchOutput codec bounds inbox 1 segments ∧
      (∀ k m, output[k]? = some m →
        m.delayedMessagesRead = 1 + (output.take (k + 1)).countP DerivedMessage.isDelayed) := by
  have hrun : extractMessages codec bounds segments 1 inbox = .ok output := toOption_eq_some.mp (by decide +kernel)
  obtain ⟨hiff, hout⟩ := extract_messages_spec codec bounds segments 1 inbox
  exact ⟨hiff.mp ⟨output, hrun⟩, (hout output hrun).1, (hout output hrun).2.2⟩

end ArbReth.Derive
