import ArbReth.Derive.Batch
import ArbReth.Lib.Runs

/-! # The batch multiplexer

`extract_messages` (`arb-reth-derive/src/multiplexer.rs`) walks the segments of a batch and emits its
messages: sequencer messages, and delayed messages at a running cursor.  When the segments are
exhausted it reads delayed messages until the cursor has reached the batch's count.

`Emits src c out r` is what a multiplexer may do in general: starting with the cursor at `c` it emitted
`out`, of which the messages with a request id are exactly the delayed messages `c`, …, `r - 1` of the
source, and the cursor is at `r`.  It composes (`Emits.append`), so it holds of a batch
(`extractMessages_emits`) and of any run of batches. -/

namespace ArbReth.Derive

open ArbReth.Runs

inductive MultiplexerError where
  | advanceDelta (what : String)
  | brotli
  | oversizeL2Message
  | delayedMissing (index : ℕ)
  | delayedPastCount (read after : ℕ)
deriving DecidableEq, Repr

def maxL2MessageSize : ℕ := 262144

def batchPosterAddress : Address := 0xA4B000000000000000000073657175656e636572

def kindL2Message : UInt8 := 3

/-- The kinds of segments (`segment_kind`). -/
inductive SegmentKind where
  | l2Message
  | l2MessageBrotli
  | delayedMessages
  | advanceTimestamp
  | advanceL1Block
  | unknown
deriving DecidableEq, Repr

def SegmentKind.ofByte (b : UInt8) : SegmentKind :=
  if b = 0 then .l2Message
  else if b = 1 then .l2MessageBrotli
  else if b = 2 then .delayedMessages
  else if b = 3 then .advanceTimestamp
  else if b = 4 then .advanceL1Block
  else .unknown

def clamp (v lo hi : ℕ) : ℕ := min (max v lo) hi

def makeL2Message (header : BatchHeader) (l2Msg : Bytes) (timestamp block delayed : ℕ) :
    DerivedMessage where
  header :=
    { kind := kindL2Message
      poster := batchPosterAddress
      blockNumber := clamp block header.minL1Block header.maxL1Block
      timestamp := clamp timestamp header.minTimestamp header.maxTimestamp
      requestId := none
      l1BaseFee := 0 }
  l2Msg
  delayedMessagesRead := delayed

/-- The running values of the walk. -/
structure MuxState where
  timestamp : ℕ
  block : ℕ
  delayedRead : ℕ
  out : List DerivedMessage
deriving DecidableEq, Repr

namespace MuxState

def pushL2 (s : MuxState) (header : BatchHeader) (l2Msg : Bytes) : MuxState :=
  { s with out := s.out ++ [makeL2Message header l2Msg s.timestamp s.block s.delayedRead] }

/-- Emit the delayed message at the cursor. -/
def readDelayed (delayed : DelayedSource) (s : MuxState) : Except MultiplexerError MuxState :=
  match delayed s.delayedRead with
  | none => .error (.delayedMissing s.delayedRead)
  | some dm =>
    .ok { s with delayedRead := s.delayedRead + 1, out := s.out ++ [dm.toDerived (s.delayedRead + 1)] }

/-- One segment.  The deltas are added modulo `2 ^ 64`: a batch steps back by a large advance. -/
def segment (X : Codec) (header : BatchHeader) (delayed : DelayedSource) (s : MuxState) (seg : Segment) :
    Except MultiplexerError MuxState :=
  match SegmentKind.ofByte seg.kind with
  | .advanceTimestamp =>
    match Rlp.decodeUint 8 seg.data with
    | none => .error (.advanceDelta "timestamp")
    | some d => .ok { s with timestamp := (s.timestamp + d) % u64Size }
  | .advanceL1Block =>
    match Rlp.decodeUint 8 seg.data with
    | none => .error (.advanceDelta "l1block")
    | some d => .ok { s with block := (s.block + d) % u64Size }
  | .l2Message => .ok (s.pushL2 header seg.data)
  | .l2MessageBrotli =>
    match X.brotli seg.data with
    | none => .error .brotli
    | some l2 => if maxL2MessageSize < l2.length then .error .oversizeL2Message else .ok (s.pushL2 header l2)
  | .delayedMessages =>
    if header.afterDelayedMessages ≤ s.delayedRead then
      .error (.delayedPastCount s.delayedRead header.afterDelayedMessages)
    else s.readDelayed delayed
  | .unknown => .ok s

/-- Read `n` more delayed messages. -/
def forceInclude (delayed : DelayedSource) : ℕ → MuxState → Except MultiplexerError MuxState
  | 0, s => .ok s
  | n + 1, s => do
    let s ← s.readDelayed delayed
    forceInclude delayed n s

end MuxState

/-- The messages of a batch; the last loop runs while the cursor is below the batch's count. -/
def extractMessages (X : Codec) (header : BatchHeader) (segments : List Segment) (beforeDelayedCount : ℕ)
    (delayed : DelayedSource) : Except MultiplexerError (List DerivedMessage) := do
  let s ← run (MuxState.segment X header delayed) ⟨0, 0, beforeDelayedCount, []⟩ segments
  let s ← s.forceInclude delayed (header.afterDelayedMessages - s.delayedRead)
  .ok s.out

/-! ### What a multiplexer emits -/

/-- The message comes from the delayed inbox. -/
def DerivedMessage.isDelayed (m : DerivedMessage) : Bool := m.header.requestId.isSome

/-- From the cursor `c` on, `out` was emitted and the cursor moved to `r`. -/
inductive Emits (src : DelayedSource) (c : ℕ) : List DerivedMessage → ℕ → Prop
  | nil : Emits src c [] c
  | l2 {out : List DerivedMessage} {r : ℕ} (m : DerivedMessage) (hl2 : m.isDelayed = false)
      (hread : m.delayedMessagesRead = r) (h : Emits src c out r) : Emits src c (out ++ [m]) r
  | delayed {out : List DerivedMessage} {r : ℕ} (dm : DelayedMessage) (hdm : src r = some dm)
      (h : Emits src c out r) : Emits src c (out ++ [dm.toDerived (r + 1)]) (r + 1)

namespace Emits

variable {src : DelayedSource} {c r q : ℕ} {out out' : List DerivedMessage}

theorem append (h : Emits src c out r) (h' : Emits src r out' q) : Emits src c (out ++ out') q := by
  induction h' with
  | nil => simpa using h
  | l2 m hl2 hread _ ih =>
    rw [← List.append_assoc]
    exact ih.l2 m hl2 hread
  | delayed dm hdm _ ih =>
    rw [← List.append_assoc]
    exact ih.delayed dm hdm

theorem le (h : Emits src c out r) : c ≤ r := by
  induction h with
  | nil => exact le_rfl
  | l2 _ _ _ _ ih => exact ih
  | delayed _ _ _ ih => exact ih.trans (Nat.le_succ _)

theorem read_le (h : Emits src c out r) : ∀ m ∈ out, m.delayedMessagesRead ≤ r := by
  induction h with
  | nil => simp
  | l2 m _ hread _ ih =>
    intro m' hm'
    rcases List.mem_append.mp hm' with hm' | hm'
    · exact ih m' hm'
    · rw [List.mem_singleton.mp hm', hread]
  | delayed dm _ _ ih =>
    intro m' hm'
    rcases List.mem_append.mp hm' with hm' | hm'
    · exact (ih m' hm').trans (Nat.le_succ _)
    · rw [List.mem_singleton.mp hm']
      exact le_rfl

theorem sorted (h : Emits src c out r) : out.Pairwise (fun m m' => m.delayedMessagesRead ≤ m'.delayedMessagesRead) := by
  induction h with
  | nil => exact List.Pairwise.nil
  | l2 m _ hread h ih =>
    refine List.pairwise_append.mpr ⟨ih, List.pairwise_singleton _ _, fun a ha b hb => ?_⟩
    rw [List.mem_singleton.mp hb, hread]
    exact h.read_le a ha
  | delayed dm _ h ih =>
    refine List.pairwise_append.mpr ⟨ih, List.pairwise_singleton _ _, fun a ha b hb => ?_⟩
    rw [List.mem_singleton.mp hb]
    exact (h.read_le a ha).trans (Nat.le_succ _)

theorem last_read (h : Emits src c out r) {m : DerivedMessage} (hm : out.getLast? = some m) :
    m.delayedMessagesRead = r := by
  cases h with
  | nil => cases hm
  | l2 m' _ hread _ =>
    rw [List.getLast?_concat] at hm
    rw [← Option.some.inj hm, hread]
  | delayed dm _ _ =>
    rw [List.getLast?_concat] at hm
    rw [← Option.some.inj hm]
    rfl

theorem cursor_eq (h : Emits src c out r) : r = c + out.countP DerivedMessage.isDelayed := by
  induction h with
  | nil => rfl
  | l2 m hl2 _ _ ih =>
    rw [List.countP_append, List.countP_singleton, hl2]
    exact ih
  | delayed dm _ _ ih =>
    rw [List.countP_append, ih]
    rfl

/-- Every message has read as many delayed messages as were emitted up to it. -/
theorem read_eq (h : Emits src c out r) : ∀ k m, out[k]? = some m →
    m.delayedMessagesRead = c + (out.take (k + 1)).countP DerivedMessage.isDelayed := by
  -- the last message is at the cursor, and the others are not affected by it
  have hlast : ∀ {out : List DerivedMessage} {m : DerivedMessage}, (∀ k m', out[k]? = some m' →
      m'.delayedMessagesRead = c + (out.take (k + 1)).countP DerivedMessage.isDelayed) →
      m.delayedMessagesRead = c + (out ++ [m]).countP DerivedMessage.isDelayed → ∀ k m', (out ++ [m])[k]? = some m' →
      m'.delayedMessagesRead = c + ((out ++ [m]).take (k + 1)).countP DerivedMessage.isDelayed := by
    intro out m ih hm k m' hget
    rcases Nat.lt_trichotomy k out.length with hlt | rfl | hgt
    · rw [List.getElem?_append_left hlt] at hget
      rw [List.take_append_of_le_length hlt]
      exact ih k m' hget
    · rw [List.getElem?_concat_length] at hget
      rw [← Option.some.inj hget, List.take_of_length_le (by simp)]
      exact hm
    · rw [List.getElem?_eq_none (by simpa using hgt)] at hget
      cases hget
  induction h with
  | nil =>
    intro k m hget
    cases hget
  | l2 m hl2 hread h ih => exact hlast ih (hread.trans (h.l2 m hl2 hread).cursor_eq)
  | delayed dm hdm h ih => exact hlast ih (h.delayed dm hdm).cursor_eq

/-- The delayed messages of the output are those of the source from `c` on, in order. -/
theorem delayed_filter (h : Emits src c out r) :
    List.Forall₂ (fun i m => ∃ dm, src i = some dm ∧ m = dm.toDerived (i + 1)) (List.range' c (r - c))
      (out.filter DerivedMessage.isDelayed) := by
  induction h with
  | nil => simp
  | l2 m hl2 _ _ ih =>
    rw [List.filter_append]
    simpa [hl2] using ih
  | @delayed out r dm hdm h ih =>
    have hle := h.le
    have hrange : List.range' c (r + 1 - c) = List.range' c (r - c) ++ [r] := by
      have hlen : r + 1 - c = (r - c) + 1 := by omega
      have hlast : c + (r - c) = r := by omega
      rw [hlen, List.range'_1_concat, hlast]
    have hdelayed : (dm.toDerived (r + 1)).isDelayed = true := rfl
    rw [hrange, List.filter_append, List.filter_cons_of_pos hdelayed, List.filter_nil]
    exact List.rel_append ih (List.Forall₂.cons ⟨dm, hdm, rfl⟩ List.Forall₂.nil)

end Emits

variable {X : Codec} {header : BatchHeader} {delayed : DelayedSource} {s s' : MuxState} {c : ℕ}

theorem MuxState.readDelayed_emits (hs : Emits delayed c s.out s.delayedRead) (h : s.readDelayed delayed = .ok s') :
    Emits delayed c s'.out s'.delayedRead ∧ s'.delayedRead = s.delayedRead + 1 := by
  unfold MuxState.readDelayed at h
  cases hdm : delayed s.delayedRead with
  | none =>
    rw [hdm] at h
    cases h
  | some dm =>
    rw [hdm] at h
    rw [← Except.ok.inj h]
    exact ⟨hs.delayed dm hdm, rfl⟩

/-- A segment emits at most one message, and never reads past the batch's count. -/
theorem MuxState.segment_emits {seg : Segment} (hs : Emits delayed c s.out s.delayedRead)
    (hle : s.delayedRead ≤ max c header.afterDelayedMessages) (h : s.segment X header delayed seg = .ok s') :
    Emits delayed c s'.out s'.delayedRead ∧ s'.delayedRead ≤ max c header.afterDelayedMessages := by
  unfold MuxState.segment at h
  cases hk : SegmentKind.ofByte seg.kind with
  | advanceTimestamp =>
    simp only [hk] at h
    split at h
    · cases h
    · rw [← Except.ok.inj h]
      exact ⟨hs, hle⟩
  | advanceL1Block =>
    simp only [hk] at h
    split at h
    · cases h
    · rw [← Except.ok.inj h]
      exact ⟨hs, hle⟩
  | l2Message =>
    simp only [hk] at h
    rw [← Except.ok.inj h]
    exact ⟨hs.l2 _ rfl rfl, hle⟩
  | l2MessageBrotli =>
    simp only [hk] at h
    split at h
    · cases h
    · split at h
      · cases h
      · rw [← Except.ok.inj h]
        exact ⟨hs.l2 _ rfl rfl, hle⟩
  | delayedMessages =>
    simp only [hk] at h
    split at h
    · cases h
    · obtain ⟨hs', hread⟩ := readDelayed_emits hs h
      exact ⟨hs', by omega⟩
  | unknown =>
    simp only [hk] at h
    rw [← Except.ok.inj h]
    exact ⟨hs, hle⟩

theorem MuxState.forceInclude_emits (n : ℕ) : ∀ {s s' : MuxState}, Emits delayed c s.out s.delayedRead →
    s.forceInclude delayed n = .ok s' → Emits delayed c s'.out s'.delayedRead ∧ s'.delayedRead = s.delayedRead + n := by
  induction n with
  | zero =>
    intro s s' hs h
    rw [← Except.ok.inj h]
    exact ⟨hs, rfl⟩
  | succ n ih =>
    intro s s' hs h
    obtain ⟨s₁, h1, h2⟩ := bind_ok.mp h
    obtain ⟨hs₁, hread₁⟩ := readDelayed_emits hs h1
    obtain ⟨hs', hread'⟩ := ih hs₁ h2
    exact ⟨hs', by omega⟩

/-- A batch reads the delayed messages from its starting cursor up to its count, if the cursor is below. -/
theorem extractMessages_emits_max {segments : List Segment} {before : ℕ} {out : List DerivedMessage}
    (h : extractMessages X header segments before delayed = .ok out) :
    Emits delayed before out (max before header.afterDelayedMessages) := by
  obtain ⟨s, hsegs, h⟩ := bind_ok.mp h
  obtain ⟨s', hforce, h⟩ := bind_ok.mp h
  have hs : Emits delayed before s.out s.delayedRead ∧ s.delayedRead ≤ max before header.afterDelayedMessages := by
    refine run_invariant (fun s : MuxState => Emits delayed before s.out s.delayedRead ∧
      s.delayedRead ≤ max before header.afterDelayedMessages) ⟨.nil, le_max_left _ _⟩ ?_ hsegs
    rintro seg m m' ⟨hm, hmle⟩ hstep
    exact MuxState.segment_emits hm hmle hstep
  obtain ⟨hs', hread⟩ := MuxState.forceInclude_emits _ hs.1 hforce
  have hfinal : s'.delayedRead = max before header.afterDelayedMessages := by
    have hle := hs.2
    have hge := hs.1.le
    omega
  rw [← Except.ok.inj h, ← hfinal]
  exact hs'

theorem extractMessages_emits {segments : List Segment} {before : ℕ} {out : List DerivedMessage}
    (hle : before ≤ header.afterDelayedMessages) (h : extractMessages X header segments before delayed = .ok out) :
    Emits delayed before out header.afterDelayedMessages := by
  have hemits := extractMessages_emits_max h
  rwa [max_eq_right hle] at hemits

end ArbReth.Derive
