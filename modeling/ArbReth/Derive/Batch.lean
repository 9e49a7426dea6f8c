import ArbReth.Primitives
import ArbReth.Lib.Rlp
import ArbReth.Lib.Keyed

/-! # Batches and messages of the derivation

The binary forms that `arb-reth-derive` works with: the segments of a sequencer batch
(`batch.rs`), delayed-inbox messages (`delayed.rs`) and the messages a batch decodes to
(`message.rs`).

Decompression and hashing are external (`Codec`). -/

namespace ArbReth.Derive

abbrev Bytes := List UInt8

/-- The functions of other libraries that the derivation calls. -/
structure Codec where
  /-- Brotli decompression with the empty dictionary. -/
  brotli : Bytes → Option Bytes
  keccak256 : Bytes → B256

/-! ### Batch framing -/

/-- The time bounds and the delayed cursor of a batch. -/
structure BatchHeader where
  minTimestamp : ℕ
  maxTimestamp : ℕ
  minL1Block : ℕ
  maxL1Block : ℕ
  afterDelayedMessages : ℕ
deriving DecidableEq, Repr

inductive BatchError where
  | truncated
  | unsupportedFlag (flag : UInt8)
  | brotli
  | rlp (what : String)
  | eventDataWrongLen (length : ℕ)
deriving DecidableEq, Repr

/-- Decompress a payload; the first byte is its flag, and only the brotli flag is handled here. -/
def decompressPayload (X : Codec) : Bytes → Except BatchError Bytes
  | [] => .error .truncated
  | flag :: body =>
    if flag = 0 then (X.brotli body).elim (.error .brotli) .ok else .error (.unsupportedFlag flag)

structure Segment where
  kind : UInt8
  data : Bytes
deriving DecidableEq, Repr

/-- The segment of one item; an empty item has none. -/
def Segment.ofItem : Bytes → List Segment
  | [] => []
  | kind :: data => [⟨kind, data⟩]

/-- The stream of RLP strings in a decompressed batch. -/
def parseSegments (buf : Bytes) : Except BatchError (List Segment) :=
  if buf = [] then .ok []
  else
    match _h : Rlp.decodeHeader buf with
    | none => .error (.rlp "segment header")
    | some (header, rest) =>
      if header.list then .error (.rlp "segment is a list, expected string")
      else if rest.length < header.payloadLength then .error (.rlp "segment length exceeds data")
      else do
        let segs ← parseSegments (rest.drop header.payloadLength)
        .ok (Segment.ofItem (rest.take header.payloadLength) ++ segs)
termination_by buf.length
decreasing_by
  rw [List.length_drop]
  exact (Rlp.decodeHeader_advances ‹_›).2.2

/-- One turn of the loop of `parseSegments`: the item at the front of the buffer, and what is left of it. -/
def nextItem (buf : Bytes) : Except BatchError (Bytes × Bytes) :=
  match Rlp.decodeHeader buf with
  | none => .error (.rlp "segment header")
  | some (header, rest) =>
    if header.list then .error (.rlp "segment is a list, expected string")
    else if rest.length < header.payloadLength then .error (.rlp "segment length exceeds data")
    else .ok (rest.take header.payloadLength, rest.drop header.payloadLength)

theorem parseSegments_step (buf : Bytes) :
    parseSegments buf =
      (if buf = [] then .ok []
      else do
        let turn ← nextItem buf
        let segs ← parseSegments turn.2
        .ok (Segment.ofItem turn.1 ++ segs)) := by
  rw [parseSegments]
  unfold nextItem
  split
  · rfl
  · split
    · rename_i hnone
      rw [hnone]
      rfl
    · rename_i header rest hsome
      rw [hsome]
      dsimp only
      split
      · rfl
      · split
        · rfl
        · rfl

/-- A turn takes its item out of the buffer, behind the header, and leaves less than there was. -/
theorem nextItem_ok {buf item rest : Bytes} (h : nextItem buf = .ok (item, rest)) :
    item ++ rest <:+ buf ∧ rest.length < buf.length ∧
      ∃ body, Rlp.decodeHeader buf = some (⟨false, item.length⟩, body) := by
  unfold nextItem at h
  split at h
  · cases h
  · rename_i header body hheader
    obtain ⟨hle, hsuffix, hlt⟩ := Rlp.decodeHeader_advances hheader
    split at h
    · cases h
    · rename_i hlist
      rw [if_neg (Nat.not_lt.mpr hle)] at h
      cases h
      have hlength : (body.take header.payloadLength).length = header.payloadLength := List.length_take_of_le hle
      refine ⟨?_, ?_, body, ?_⟩
      · rw [List.take_append_drop]
        exact hsuffix
      · rw [List.length_drop]
        exact hlt
      · rw [hheader, hlength]
        cases header with
        | mk list n =>
          cases Bool.eq_false_of_not_eq_true hlist
          rfl

theorem nextItem_encodeString {s : Bytes} (h : s.length < 2 ^ 64) (rest : Bytes) :
    nextItem (Rlp.encodeString s ++ rest) = .ok (s, rest) := by
  unfold nextItem
  rw [Rlp.decodeHeader_encodeString h]
  dsimp only
  rw [if_neg Bool.false_ne_true, if_neg (by rw [List.length_append]; omega), List.take_left, List.drop_left]

/-- Strings written one after another are read back as their segments; a turn of the loop always leaves a shorter
buffer. -/
theorem parseSegments_stream (items : List Bytes) (h : ∀ s ∈ items, s.length < 2 ^ 64) :
    parseSegments (items.flatMap Rlp.encodeString) = .ok (items.flatMap Segment.ofItem) ∧
      ∀ buf : Bytes,
        (parseSegments buf =
          if buf = [] then .ok []
          else do
            let turn ← nextItem buf
            let segs ← parseSegments turn.2
            .ok (Segment.ofItem turn.1 ++ segs)) ∧
        ∀ item rest, nextItem buf = .ok (item, rest) →
          item ++ rest <:+ buf ∧ rest.length < buf.length ∧
            ∃ body, Rlp.decodeHeader buf = some (⟨false, item.length⟩, body) := by
  refine ⟨?_, fun buf => ⟨parseSegments_step buf, fun _ _ hitem => nextItem_ok hitem⟩⟩
  induction items with
  | nil => rw [List.flatMap_nil, List.flatMap_nil, parseSegments_step, if_pos rfl]
  | cons s items ih =>
    rw [List.forall_mem_cons] at h
    rw [List.flatMap_cons, List.flatMap_cons, parseSegments_step, nextItem_encodeString h.1, if_neg]
    · change (parseSegments (items.flatMap Rlp.encodeString) >>= fun segs => Except.ok (Segment.ofItem s ++ segs)) = _
      rw [ih h.2]
      rfl
    · intro hnil
      have hread := nextItem_encodeString h.1 (items.flatMap Rlp.encodeString)
      rw [hnil] at hread
      cases hread

theorem parseSegments_stream_sample : parseSegments [0x82, 0, 0xff, 0x80, 0x05] = .ok [⟨0, [0xff]⟩, ⟨5, []⟩] :=
  (parseSegments_stream [[0, 0xff], [], [0x05]] (by decide)).1

/-! ### Messages -/

structure L1IncomingMessageHeader where
  kind : UInt8
  poster : Address
  blockNumber : ℕ
  timestamp : ℕ
  /-- Present for messages of the delayed inbox only. -/
  requestId : Option B256
  l1BaseFee : ℕ
deriving DecidableEq, Repr

structure DerivedMessage where
  header : L1IncomingMessageHeader
  l2Msg : Bytes
  delayedMessagesRead : ℕ
deriving DecidableEq, Repr

/-- A message of the delayed inbox, as reconstructed from L1. -/
structure DelayedMessage where
  kind : UInt8
  sender : Address
  blockNumber : ℕ
  timestamp : ℕ
  inboxSeqNum : ℕ
  baseFeeL1 : ℕ
  data : Bytes
  beforeInboxAcc : B256
deriving DecidableEq, Repr

namespace DelayedMessage

def messageDataHash (X : Codec) (m : DelayedMessage) : B256 := X.keccak256 m.data

def requestId (m : DelayedMessage) : B256 := BitVec.ofNat 256 m.inboxSeqNum

def toDerived (m : DelayedMessage) (delayedMessagesRead : ℕ) : DerivedMessage where
  header :=
    { kind := m.kind
      poster := m.sender
      blockNumber := m.blockNumber
      timestamp := m.timestamp
      requestId := some m.requestId
      l1BaseFee := m.baseFeeL1 }
  l2Msg := m.data
  delayedMessagesRead

end DelayedMessage

/-- Where the delayed messages come from, by index. -/
abbrev DelayedSource := ℕ → Option DelayedMessage

def noDelayed : DelayedSource := fun _ => none

/-- Delayed messages by their index. -/
abbrev DelayedMap := Std.TreeMap ℕ DelayedMessage

def DelayedMap.fromMessages (ms : List DelayedMessage) : DelayedMap :=
  Keyed.insertAll DelayedMessage.inboxSeqNum ∅ ms

def DelayedMap.message (map : DelayedMap) : DelayedSource := fun i => map[i]?

end ArbReth.Derive
