import ArbReth.Engine.Produce
import ArbReth.Lib.Grammar

/-! # Frames of the MEV log stream

`encode_event` (`arb-reth-node/src/mev_tx_logs.rs`) writes the logs of a transaction as one frame.
The length is added up in one pass over the logs, and the bytes are written in another.  A client
reads the frames by the layout of `docs/mev-tx-log-ipc.md`, which is `readFrame` here: of a sequence
of frames it reads the events that were written, and nothing is left over
(`frames_decode_uniquely`). -/

namespace ArbReth.Node.MevTxLogs

open ArbReth.Codec
open ArbReth.Codec.Reader (take byte fail)
open ArbReth.Engine (ArbTxExecutionKind)
open ArbReth.Evm (Log)

/-- The event with its words. -/
abbrev ArbTxLogEvent := Engine.ArbTxLogEvent (BitVec 64)

inductive EncodeError where
  | tooManyLogs
  | tooManyTopics
  | dataExceeds4GiB
  | lengthOverflow
  | frameExceeds4GiB

def u32Size : ℕ := 2 ^ 32

def frameVersion : UInt8 := 2
def fixedBodyLen : ℕ := 96
def maxLogTopics : ℕ := 4

def recordLen (log : Log) : ℕ := 25 + log.topics.length * 32 + log.data.length

/-- One turn of the loop that adds up the length. -/
def addRecord (bodyLen : ℕ) (log : Log) : Except EncodeError ℕ :=
  if maxLogTopics < log.topics.length then .error .tooManyTopics
  else if u32Size ≤ log.data.length then .error .dataExceeds4GiB
  else if u64Size ≤ bodyLen + recordLen log then .error .lengthOverflow
  else .ok (bodyLen + recordLen log)

def kindByte : ArbTxExecutionKind → UInt8
  | .startBlock => 0
  | .user => 1
  | .scheduledRetry => 2

def recordBytes (log : Log) : Bytes :=
  toBe 20 log.address.toNat ++ (UInt8.ofNat log.topics.length :: (toBe 4 log.data.length ++
    (log.topics.flatMap (toBe 32 ·.toNat) ++ log.data)))

def bodyBytes (event : ArbTxLogEvent) : Bytes :=
  frameVersion :: kindByte event.kind :: (if event.success then 1 else 0) :: 0 :: (toBe 8 event.blockNumber.toNat ++
    (toBe 8 event.transactionIndex.toNat ++ (toBe 8 event.gasUsed.toNat ++
      (toBe 32 event.transactionHash.toNat ++ (toBe 32 event.frontierId.toNat ++
        (toBe 4 event.logs.length ++ event.logs.flatMap recordBytes))))))

def encodeEvent (event : ArbTxLogEvent) : Except EncodeError Bytes :=
  if u32Size ≤ event.logs.length then .error .tooManyLogs
  else do
    let bodyLen ← event.logs.foldlM addRecord fixedBodyLen
    if u32Size ≤ bodyLen then .error .frameExceeds4GiB else .ok (toBe 4 bodyLen ++ bodyBytes event)

/-! ### The documented layout -/

inductive FrameError where
  | runsPastFrame
  | unknownVersion
  | unknownKind
  | unknownSuccess
  | nonzeroFlags
  | tooManyTopics
  | trailingBytes

def readWord (w : ℕ) : Reader FrameError (BitVec (8 * w)) :=
  return BitVec.ofNat (8 * w) (ofBe (← take .runsPastFrame w))

def readLength : Reader FrameError ℕ := return ofBe (← take .runsPastFrame 4)

/-- A byte with a given meaning. -/
def readByte {α : Type} (meaning : UInt8 → Except FrameError α) : Reader FrameError α := do
  Reader.ofExcept (meaning (← byte .runsPastFrame))

def expect (e : FrameError) (expected found : UInt8) : Except FrameError Unit :=
  if found = expected then .ok () else .error e

def kindOf (found : UInt8) : Except FrameError ArbTxExecutionKind :=
  if found = 0 then .ok .startBlock else if found = 1 then .ok .user else if found = 2 then .ok .scheduledRetry
  else .error .unknownKind

def successOf (found : UInt8) : Except FrameError Bool :=
  if found = 1 then .ok true else if found = 0 then .ok false else .error .unknownSuccess

def topicCountOf (found : UInt8) : Except FrameError ℕ :=
  if found.toNat ≤ 4 then .ok found.toNat else .error .tooManyTopics

def readRecord : Reader FrameError Log := do
  let address ← readWord 20
  let topicCount ← readByte topicCountOf
  let dataLength ← readLength
  let topics ← Reader.replicate (readWord 32) topicCount
  let data ← take .runsPastFrame dataLength
  return ⟨address, topics, data⟩

def readBody : Reader FrameError ArbTxLogEvent := do
  readByte (expect .unknownVersion 2)
  let kind ← readByte kindOf
  let success ← readByte successOf
  readByte (expect .nonzeroFlags 0)
  let blockNumber ← readWord 8
  let transactionIndex ← readWord 8
  let gasUsed ← readWord 8
  let transactionHash ← readWord 32
  let frontierId ← readWord 32
  let logCount ← readLength
  let logs ← Reader.replicate readRecord logCount
  return ⟨blockNumber, transactionIndex, transactionHash, frontierId, kind, success, gasUsed, logs⟩

def readFrame : Reader FrameError ArbTxLogEvent := do
  let frameLength ← readLength
  let body ← take .runsPastFrame frameLength
  let (event, trailing) ← Reader.ofExcept (readBody body)
  if trailing = [] then return event else fail .trailingBytes

/-- A stream is read frame by frame, up to its end. -/
inductive Reads : Bytes → List ArbTxLogEvent → Prop
  | done : Reads [] []
  | frame {input rest : Bytes} {event : ArbTxLogEvent} {events : List ArbTxLogEvent} :
      readFrame input = .ok (event, rest) → Reads rest events → Reads input (event :: events)

/-! ### The length of a body -/

/-- What fits in a record. -/
def LogFits (log : Log) : Prop := log.topics.length ≤ maxLogTopics ∧ log.data.length < u32Size

def bodyLength (event : ArbTxLogEvent) : ℕ := fixedBodyLen + (event.logs.map recordLen).sum

theorem addRecord_eq_ok {n m : ℕ} {log : Log} :
    addRecord n log = .ok m ↔ LogFits log ∧ m = n + recordLen log ∧ m < u64Size := by
  unfold addRecord LogFits
  split
  · simp [Nat.not_le.mpr ‹_›]
  · split
    · simp [Nat.not_lt.mpr ‹u32Size ≤ _›]
    · split
      · simp
        omega
      · simp [eq_comm]
        omega

theorem foldlM_addRecord {n m : ℕ} {logs : List Log} (hm : m < u32Size) :
    logs.foldlM addRecord n = .ok m ↔ (∀ log ∈ logs, LogFits log) ∧ m = n + (logs.map recordLen).sum := by
  have hsizes : u32Size < u64Size := by decide
  induction logs generalizing n with
  | nil => simp [pure, Except.pure, eq_comm]
  | cons log logs ih =>
    rw [List.foldlM_cons, List.forall_mem_cons, List.map_cons, List.sum_cons, ← Nat.add_assoc]
    cases hadd : addRecord n log with
    | error e =>
      refine ⟨(fun h => by cases h), fun ⟨⟨hfits, _⟩, hsum⟩ => ?_⟩
      cases hadd.symm.trans (addRecord_eq_ok.mpr ⟨hfits, rfl, by omega⟩)
    | ok n' =>
      obtain ⟨hfits, rfl, -⟩ := addRecord_eq_ok.mp hadd
      exact ih.trans ⟨fun h => ⟨⟨hfits, h.1⟩, h.2⟩, fun h => ⟨h.1.2, h.2⟩⟩

def Fits (event : ArbTxLogEvent) : Prop :=
  event.logs.length < u32Size ∧ (∀ log ∈ event.logs, LogFits log) ∧ bodyLength event < u32Size

variable {event : ArbTxLogEvent}

theorem encodeEvent_eq_ok {frame : Bytes} :
    encodeEvent event = .ok frame ↔ Fits event ∧ frame = toBe 4 (bodyLength event) ++ bodyBytes event := by
  unfold encodeEvent Fits
  split
  · simp [Nat.not_lt.mpr ‹u32Size ≤ _›]
  · cases hlen : event.logs.foldlM addRecord fixedBodyLen with
    | error e =>
      refine ⟨(fun h => by cases h), fun ⟨⟨_, hfits, hlt⟩, _⟩ => ?_⟩
      cases hlen.symm.trans ((foldlM_addRecord hlt).mpr ⟨hfits, rfl⟩)
    | ok n =>
      change (if u32Size ≤ n then Except.error EncodeError.frameExceeds4GiB else .ok _) = _ ↔ _
      split
      · refine ⟨(fun h => by cases h), fun ⟨⟨_, hfits, hlt⟩, _⟩ => ?_⟩
        cases hlen.symm.trans ((foldlM_addRecord hlt).mpr ⟨hfits, rfl⟩)
        omega
      · obtain ⟨hfits, rfl⟩ := (foldlM_addRecord (by omega)).mp hlen
        simp only [Except.ok.injEq, eq_comm, bodyLength]
        exact ⟨fun h => ⟨⟨by omega, hfits, by omega⟩, h⟩, fun h => h.2⟩

theorem length_recordBytes (log : Log) : (recordBytes log).length = recordLen log := by
  have htopics : (log.topics.flatMap (toBe 32 ·.toNat)).length = log.topics.length * 32 :=
    length_flatMap_of_forall fun topic _ => length_toBe 32 _
  simp only [recordBytes, recordLen, List.length_append, List.length_cons, length_toBe, htopics]
  omega

theorem length_bodyBytes (event : ArbTxLogEvent) : (bodyBytes event).length = bodyLength event := by
  have hlogs : (event.logs.flatMap recordBytes).length = (event.logs.map recordLen).sum := by
    rw [List.length_flatMap]
    simp only [length_recordBytes]
  simp only [bodyBytes, bodyLength, fixedBodyLen, List.length_append, List.length_cons, length_toBe, hlogs]
  omega

/-! ### Reading back -/

theorem readWord_append {w : ℕ} (x : BitVec (8 * w)) (rest : Bytes) :
    readWord w (toBe w x.toNat ++ rest) = .ok (x, rest) := by
  refine bind_ok (take_eq_ok_iff.mpr ⟨length_toBe w x.toNat, rfl⟩) ?_
  rw [ofBe_toBe_bitVec]
  rfl

theorem readLength_append {n : ℕ} (h : n < u32Size) (rest : Bytes) : readLength (toBe 4 n ++ rest) = .ok (n, rest) := by
  refine bind_ok (take_eq_ok_iff.mpr ⟨length_toBe 4 n, rfl⟩) ?_
  rw [ofBe_toBe 4 n h]
  rfl

theorem readByte_cons {α : Type} {meaning : UInt8 → Except FrameError α} {b : UInt8} {a : α} (h : meaning b = .ok a)
    (rest : Bytes) : readByte meaning (b :: rest) = .ok (a, rest) := by
  refine bind_ok rfl ?_
  rw [h]
  rfl

theorem readRecord_append {log : Log} (h : LogFits log) (rest : Bytes) :
    readRecord (recordBytes log ++ rest) = .ok (log, rest) := by
  obtain ⟨htopics, hdata⟩ := h
  have hcount : topicCountOf (UInt8.ofNat log.topics.length) = .ok log.topics.length := by
    have hnat : (UInt8.ofNat log.topics.length).toNat = log.topics.length :=
      UInt8.toNat_ofNat_of_lt' (htopics.trans_lt (by decide))
    rw [topicCountOf, hnat]
    exact if_pos htopics
  unfold recordBytes
  simp only [List.append_assoc, List.cons_append]
  refine bind_ok (readWord_append (w := 20) log.address _) (bind_ok (readByte_cons hcount _) ?_)
  refine bind_ok (readLength_append hdata _) (bind_ok (replicate_ok (fun topic _ => readWord_append (w := 32) topic) _) ?_)
  exact bind_ok (take_eq_ok_iff.mpr ⟨rfl, rfl⟩) rfl

theorem readBody_bodyBytes (h : Fits event) : readBody (bodyBytes event) = .ok (event, []) := by
  obtain ⟨hcount, hlogs, -⟩ := h
  have hkind : kindOf (kindByte event.kind) = .ok event.kind := by cases event.kind <;> rfl
  have hsuccess : successOf (if event.success then 1 else 0) = .ok event.success := by cases event.success <;> rfl
  have hrecords := replicate_ok (fun log hlog => readRecord_append (hlogs log hlog)) []
  rw [List.append_nil] at hrecords
  have hexpect (e : FrameError) (b : UInt8) : expect e b b = .ok () := if_pos rfl
  refine bind_ok (readByte_cons (hexpect _ 2) _) (bind_ok (readByte_cons hkind _) (bind_ok (readByte_cons hsuccess _) ?_))
  refine bind_ok (readByte_cons (hexpect _ 0) _) (bind_ok (readWord_append (w := 8) event.blockNumber _) ?_)
  refine bind_ok (readWord_append (w := 8) event.transactionIndex _) (bind_ok (readWord_append (w := 8) event.gasUsed _) ?_)
  refine bind_ok (readWord_append (w := 32) event.transactionHash _) ?_
  refine bind_ok (readWord_append (w := 32) event.frontierId _) (bind_ok (readLength_append hcount _) ?_)
  exact bind_ok hrecords rfl

theorem readFrame_append {frame : Bytes} (h : encodeEvent event = .ok frame) (rest : Bytes) :
    readFrame (frame ++ rest) = .ok (event, rest) := by
  obtain ⟨hfits, rfl⟩ := encodeEvent_eq_ok.mp h
  rw [List.append_assoc]
  refine bind_ok (readLength_append hfits.2.2 _) (bind_ok (take_eq_ok_iff.mpr ⟨length_bodyBytes event, rfl⟩) ?_)
  rw [readBody_bodyBytes hfits]
  rfl

theorem reads_cons {input rest : Bytes} {found : List ArbTxLogEvent}
    (hread : readFrame input = .ok (event, rest)) (h : Reads input found) :
    ∃ later, found = event :: later ∧ Reads rest later := by
  cases h with
  | done => cases hread
  | frame hfound hlater =>
    cases hread.symm.trans hfound
    exact ⟨_, rfl, hlater⟩

/-- **Frames are read back.**  A sequence of frames is read as the events that were encoded, and as nothing else. -/
theorem frames_decode_uniquely :
    (∀ events frames, List.Forall₂ (fun event frame => encodeEvent event = .ok frame) events frames →
      ∀ found, Reads frames.flatten found ↔ found = events) ∧
    ∀ event, (∃ e, encodeEvent event = .error e) ↔ (∃ log ∈ event.logs, 4 < log.topics.length) ∨
      2 ^ 32 ≤ event.logs.length ∨ (∃ log ∈ event.logs, 2 ^ 32 ≤ log.data.length) ∨ 2 ^ 32 ≤ (bodyBytes event).length := by
  constructor
  · intro events frames h
    induction h with
    | nil =>
      intro found
      refine ⟨fun h => ?_, fun h => h ▸ .done⟩
      cases h with
      | done => rfl
      | frame hread _ => cases hread
    | cons hencode _ ih =>
      rw [List.flatten_cons]
      intro found
      refine ⟨fun h => ?_, fun h => h ▸ .frame (readFrame_append hencode _) ((ih _).mpr rfl)⟩
      obtain ⟨later, rfl, hlater⟩ := reads_cons (readFrame_append hencode _) h
      rw [(ih _).mp hlater]
  · intro event
    have hok : (∃ e, encodeEvent event = .error e) ↔ ¬ Fits event := by
      cases hencode : encodeEvent event with
      | error e =>
        refine ⟨fun _ h => ?_, fun _ => ⟨e, rfl⟩⟩
        cases hencode.symm.trans (encodeEvent_eq_ok.mpr ⟨h, rfl⟩)
      | ok frame =>
        refine ⟨?_, fun h => absurd (encodeEvent_eq_ok.mp hencode).1 h⟩
        rintro ⟨e, ⟨⟩⟩
    rw [hok, length_bodyBytes]
    simp only [Fits, LogFits, maxLogTopics, u32Size]
    grind

end ArbReth.Node.MevTxLogs
