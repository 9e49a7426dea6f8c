import ArbReth.Lib.Grammar
import ArbReth.Snapshot.ResumePoint
import ArbReth.Storage.Batch

/-! # The stream of a full snapshot

`reth-export --mode full-snapshot` writes one stream: a manifest, then the blocks, the state history and the state, all
up to the convert point.  `SnapshotStream` (`arb-reth-genesis/src/snapshot_stream.rs`) reads it one record at a time and
checks what needs no database: headers are numbered and linked, history objects advance and their roots are chained.

What the import sees of a stream are its records and the error it ends in, if any (`source`).  Every record takes bytes
from the stream, so there is always such an end. -/

namespace ArbReth.Snapshot

open ArbReth.Codec
open ArbReth.Codec.Audited
open ArbReth.Runs
open ArbReth.Tracing
open ArbReth.Storage (U256)

/-- Where the conversion stops: state, blocks and history all end here. -/
structure Manifest where
  block : ℕ
  root : B256
  stateId : ℕ
  hash : B256
  resume : Option ResumePoint
deriving DecidableEq, Repr

/-- The nonce, balance and code hash of an account before a block. -/
structure PreviousAccount where
  nonce : ℕ
  balance : U256
  codeHash : Option B256
deriving DecidableEq, Repr

structure HistoryAccount where
  address : Address
  /-- `none` if the account did not exist before the block. -/
  previous : Option PreviousAccount
  storage : List (B256 × U256)
deriving DecidableEq, Repr

structure HistoryObject where
  stateId : ℕ
  block : ℕ
  parentRoot : B256
  postRoot : B256
  accounts : List HistoryAccount
deriving DecidableEq, Repr

inductive Record where
  | header (block : ℕ) (hash : B256) (rlp : Bytes)
  | body (block : ℕ) (rlp : Bytes)
  | receipts (block : ℕ) (rlp : Bytes)
  | history (object : HistoryObject)
  | account (hashedAddress : B256) (nonce : ℕ) (balance : U256) (codeHash : Option B256)
  | storage (hashedSlot : B256) (value : U256)
  | code (hash : B256) (code : Bytes)
deriving DecidableEq, Repr

inductive Section where
  | manifest
  | blocks
  | history
  | state
deriving DecidableEq, Repr

inductive StreamError where
  | unexpectedEof
  | varintOverflow
  | integerTooWide (length : ℕ)
  /-- `B256::from_slice` panics. -/
  | hashLength (length : ℕ)
  | magic (found : Bytes)
  | expectedManifest (tag : UInt8)
  | expectedBlocks (tag : UInt8)
  | invalidTag (tag : UInt8) (sec : Section)
  | rlp
  | headerTrailingBytes
  | headerHash (block : ℕ) (hash : B256)
  | aboveConvertPoint (block convertPoint : ℕ)
  | blocksJump (lastNumber block : ℕ)
  | wrongParent (block lastNumber : ℕ)
  | historyVersion (stateId : ℕ) (version : UInt8)
  | historyAboveConvertPoint (stateId block convertPoint : ℕ)
  | historyDoesNotAdvance (stateId block lastBlock : ℕ)
  | historyNotChained (stateId block : ℕ) (parentRoot lastPost : B256)
  | codeHash (hash : B256)
  | noHistory
  | historyEndsAt (block : ℕ)
  | historyEndsInRoot (root : B256)
deriving DecidableEq, Repr

/-! ### What is demanded of the machine -/

inductive Demand where
  /-- A vector of so many elements, each of at least this size in the stream, with so many bytes left. -/
  | allocate (count size available : ℕ)
  /-- `B256::from_slice(&code_hash)`. -/
  | codeHash (length : ℕ)
  /-- `B256::from_slice(parent)`, in the text of an error. -/
  | parentHash (length : ℕ)
  /-- `last_number + 1`. -/
  | nextNumber (lastNumber : ℕ)
  /-- `header + len`. -/
  | itemEnd (header length : ℕ)
  /-- `shift += 7`, in 32 bits. -/
  | shift (bits : ℕ)
  /-- `1 + n`. -/
  | headerLength (n : ℕ)
  /-- What is taken off the first byte of an RLP item. -/
  | lessFirst (first base : ℕ)
  /-- `&blob[end..]`. -/
  | tail (start length : ℕ)
deriving DecidableEq, Repr

abbrev StreamReader (α : Type) := Audited Demand StreamError α

/-! ### Fields -/

def readU8 : StreamReader UInt8 := plain (Reader.byte .unexpectedEof)

def readUvarint : StreamReader ℕ := Audited.uvarint .unexpectedEof .varintOverflow .shift

def readB256 : StreamReader B256 := return BitVec.ofNat 256 (ofBe (← plain (Reader.take .unexpectedEof 32)))

def readAddress : StreamReader Address := return BitVec.ofNat 160 (ofBe (← plain (Reader.take .unexpectedEof 20)))

/-- At most 255 bytes: a balance, a code hash or the value of a slot. -/
def readShortBytes : StreamReader Bytes := do
  let length ← readU8
  demand fun input => .allocate length.toNat 1 input.length
  plain (Reader.take .unexpectedEof length.toNat)

def shortU256 (bytes : Bytes) : Except StreamError U256 :=
  if 32 < bytes.length then .error (.integerTooWide bytes.length) else .ok (BitVec.ofNat 256 (ofBe bytes))

def readShortU256 : StreamReader U256 := do
  check (shortU256 (← readShortBytes))

/-- No bytes stand for no code. -/
def shortHash (bytes : Bytes) : Traced Demand StreamError (Option B256) :=
  if bytes = [] then pure none
  else request (.codeHash bytes.length) (if bytes.length = 32 then .ok (some (BitVec.ofNat 256 (ofBe bytes)))
    else .error (.hashLength bytes.length))

def readCodeHash : StreamReader (Option B256) := do
  check (shortHash (← readShortBytes))

def readBlob : StreamReader Bytes := do
  let length ← readUvarint
  demand fun input => .allocate length 1 input.length
  plain (Reader.take .unexpectedEof length)

/-! ### The parent hash of a header -/

/-- The item has its length in `first - base` bytes. -/
def longLengths (blob : Bytes) (first : UInt8) (base : ℕ) : Traced Demand StreamError (ℕ × ℕ) := do
  request (.lessFirst first.toNat base) (.ok ())
  request (.headerLength (first.toNat - base)) (.ok ())
  if blob.length < 1 + (first.toNat - base) then Tracing.fail .rlp
  else return (1 + (first.toNat - base), ofBe ((blob.drop 1).take (first.toNat - base)))

/-- The length of the header of an RLP item and of its payload. -/
def rlpLengths (blob : Bytes) (first : UInt8) : Traced Demand StreamError (ℕ × ℕ) :=
  if first < 0x80 then pure (0, 1)
  else if first < 0xb8 then request (.lessFirst first.toNat 0x80) (.ok (1, first.toNat - 0x80))
  else if first < 0xc0 then longLengths blob first 0xb7
  else if first < 0xf8 then request (.lessFirst first.toNat 0xc0) (.ok (1, first.toNat - 0xc0))
  else longLengths blob first 0xf7

/-- The payload of the first RLP item, and what follows it. -/
def rlpSplit (blob : Bytes) (wantList : Bool) : Traced Demand StreamError (Bytes × Bytes) :=
  match blob with
  | [] => Tracing.fail .rlp
  | first :: _ => do
    let (header, length) ← rlpLengths blob first
    if decide (0xc0 ≤ first) ≠ wantList then Tracing.fail .rlp
    else do
      request (.itemEnd header length) (.ok ())
      if blob.length < header + length then Tracing.fail .rlp
      else
        request (.tail (header + length) blob.length)
          (.ok ((blob.drop header).take length, blob.drop (header + length)))

def skipFields : ℕ → Bytes → Traced Demand StreamError Bytes
  | 0, cursor => pure cursor
  | n + 1, cursor => do
    let (_, next) ← rlpSplit cursor false
    skipFields n next

/-- The payload of a top-level field of a header: 0 is the parent hash. -/
def headerField (rlp : Bytes) (index : ℕ) : Traced Demand StreamError Bytes := do
  let (fields, rest) ← rlpSplit rlp true
  if rest ≠ [] then Tracing.fail .headerTrailingBytes
  else
    let cursor ← skipFields index fields
    return (← rlpSplit cursor false).1

/-! ### Records -/

/-- Section tags lie above the record tags. -/
def Section.tag : Section → UInt8
  | manifest => 0xf1
  | blocks => 0xf2
  | history => 0xf3
  | state => 0xf4

def sectionEnd : UInt8 := 0xff

def recEnd : UInt8 := 0x00
def recHeader : UInt8 := 0x01
def recBody : UInt8 := 0x02
def recReceipts : UInt8 := 0x03
def recAccount : UInt8 := 0x04
def recStorage : UInt8 := 0x05
def recCode : UInt8 := 0x06

/-- From this version on, history objects have raw slot keys. -/
def historyVersionRawSlots : UInt8 := 1

/-- The bytes of `ARBSNAP2`. -/
def magic : Bytes := [0x41, 0x52, 0x42, 0x53, 0x4e, 0x41, 0x50, 0x32]

/-- The section that a tag opens; their order is fixed. -/
def Section.opens (s : Section) (tag : UInt8) : Option Section :=
  match s with
  | manifest => if tag = Section.tag blocks then some blocks else none
  | blocks => if tag = Section.tag history then some history else none
  | history => if tag = Section.tag state then some state else none
  | state => none

/-- What the reader remembers from one record to the next. -/
structure Progress where
  sec : Section
  /-- The last header: its number and hash. -/
  lastBlock : Option (ℕ × B256)
  /-- The last history object: its block and post root. -/
  lastHistory : Option (ℕ × B256)
deriving DecidableEq, Repr

section reading
variable (keccak256 : Bytes → B256) (manifest : Manifest)

/-- A header builds on the one before. -/
def checkParent (p : Progress) (block : ℕ) (hash : B256) (parent : Bytes) : Traced Demand StreamError Progress :=
  match p.lastBlock with
  | none => pure { p with lastBlock := some (block, hash) }
  | some (lastNumber, lastHash) => do
    request (.nextNumber lastNumber) (.ok ())
    if block ≠ (lastNumber + 1) % u64Size then Tracing.fail (.blocksJump lastNumber block)
    else if parent ≠ toBe 32 lastHash.toNat then
      request (.parentHash parent.length) (.error (.wrongParent block lastNumber))
    else pure { p with lastBlock := some (block, hash) }

def checkHeader (p : Progress) (block : ℕ) (hash : B256) (rlp : Bytes) : Traced Demand StreamError Progress :=
  if keccak256 rlp ≠ hash then Tracing.fail (.headerHash block hash)
  else if manifest.block < block then Tracing.fail (.aboveConvertPoint block manifest.block)
  else headerField rlp 0 >>= checkParent p block hash

def checkHistory (p : Progress) (stateId block : ℕ) (version : UInt8) (parentRoot postRoot : B256) :
    Except StreamError Progress :=
  if version ≠ historyVersionRawSlots then .error (.historyVersion stateId version)
  else if manifest.block < block then .error (.historyAboveConvertPoint stateId block manifest.block)
  else
    match p.lastHistory with
    | none => .ok { p with lastHistory := some (block, postRoot) }
    | some (lastBlock, lastPost) =>
      if block ≤ lastBlock then .error (.historyDoesNotAdvance stateId block lastBlock)
      else if parentRoot ≠ lastPost then .error (.historyNotChained stateId block parentRoot lastPost)
      else .ok { p with lastHistory := some (block, postRoot) }

def readPrevious (present : UInt8) : StreamReader (Option PreviousAccount) :=
  if present = 0 then pure none
  else do
    let nonce ← readUvarint
    let balance ← readShortU256
    let codeHash ← readCodeHash
    return some ⟨nonce, balance, codeHash⟩

def readSlot : StreamReader (B256 × U256) := do
  let key ← readB256
  let value ← readShortU256
  return (key, value)

/-- The bytes of a slot: its key and at least the length of its value. -/
def leastSlot : ℕ := 33

/-- The bytes of an account of a history object: its address, a flag and at least one byte for the number of slots. -/
def leastAccount : ℕ := 22

def readHistoryAccount : StreamReader HistoryAccount := do
  let address ← readAddress
  let previous ← readU8 >>= readPrevious
  let slots ← readUvarint
  demand fun input => .allocate (min slots 4096) leastSlot input.length
  let storage ← replicate readSlot slots
  return ⟨address, previous, storage⟩

def readHistory (p : Progress) : StreamReader (HistoryObject × Progress) := do
  let stateId ← readUvarint
  let block ← readUvarint
  let version ← readU8
  let parentRoot ← readB256
  let postRoot ← readB256
  let p' ← check (checkHistory manifest p stateId block version parentRoot postRoot)
  let count ← readUvarint
  demand fun input => .allocate (min count 4096) leastAccount input.length
  let accounts ← replicate readHistoryAccount count
  return (⟨stateId, block, parentRoot, postRoot, accounts⟩, p')

def readHeader (p : Progress) : StreamReader (Record × Progress) := do
  let block ← readUvarint
  let hash ← readB256
  let rlp ← readBlob
  let p' ← check (checkHeader keccak256 manifest p block hash rlp)
  return (.header block hash rlp, p')

def readBody : StreamReader Record := do
  let block ← readUvarint
  let rlp ← readBlob
  return .body block rlp

def readReceipts : StreamReader Record := do
  let block ← readUvarint
  let rlp ← readBlob
  return .receipts block rlp

def readAccount : StreamReader Record := do
  let hashedAddress ← readB256
  let nonce ← readUvarint
  let balance ← readShortU256
  let codeHash ← readCodeHash
  return .account hashedAddress nonce balance codeHash

def readStorage : StreamReader Record := do
  let hashedSlot ← readB256
  let value ← readShortU256
  return .storage hashedSlot value

def checkCode (hash : B256) (code : Bytes) : Except StreamError Record :=
  if keccak256 code ≠ hash then .error (.codeHash hash) else .ok (.code hash code)

def readCode : StreamReader Record := do
  let hash ← readB256
  let code ← readBlob
  check (checkCode keccak256 hash code)

/-- The record that a tag announces in the current section. -/
def readRecord (p : Progress) (tag : UInt8) : StreamReader (Record × Progress) :=
  match p.sec with
  | .blocks =>
    if tag = recHeader then readHeader keccak256 manifest p
    else if tag = recBody then (·, p) <$> readBody
    else if tag = recReceipts then (·, p) <$> readReceipts
    else fail (.invalidTag tag p.sec)
  | .history =>
    if tag = recHeader then (fun o => (.history o.1, o.2)) <$> readHistory manifest p
    else fail (.invalidTag tag p.sec)
  | .state =>
    if tag = recAccount then (·, p) <$> readAccount
    else if tag = recStorage then (·, p) <$> readStorage
    else if tag = recCode then (·, p) <$> readCode keccak256
    else fail (.invalidTag tag p.sec)
  | .manifest => fail (.expectedBlocks tag)

/-- Tags, up to and including that of a record; `none` at the end of the stream. -/
def nextTag (p : Progress) : StreamReader (Option (Record × Progress))
  | [] => Tracing.fail .unexpectedEof
  | tag :: rest =>
    match p.sec.opens tag with
    | some s => nextTag { p with sec := s } rest
    | none =>
      if p.sec = .state ∧ tag = sectionEnd then pure (none, rest)
      else if p.sec = .manifest then Tracing.fail (.expectedBlocks tag)
      else if tag = recEnd then nextTag p rest
      else (some <$> readRecord keccak256 manifest p tag) rest

/-! ### The stream -/

structure SnapshotStream where
  inner : Bytes
  manifest : Manifest
  progress : Progress
  /-- A record that was handed back. -/
  held : Option Record
  finished : Bool
deriving DecidableEq, Repr

def checkMagic (found : Bytes) : Except StreamError Unit := if found ≠ magic then .error (.magic found) else .ok ()

def checkManifestTag (tag : UInt8) : Except StreamError Unit :=
  if tag ≠ Section.tag .manifest then .error (.expectedManifest tag) else .ok ()

def readResume (present : UInt8) : StreamReader (Option ResumePoint) :=
  if present = 1 then do
    let l1Block ← readUvarint
    let delayedCount ← readUvarint
    let l2Block ← readUvarint
    return some ⟨l1Block, delayedCount, l2Block⟩
  else pure none

def readManifest : StreamReader Manifest := do
  check (checkMagic (← plain (Reader.take .unexpectedEof 8)))
  check (checkManifestTag (← readU8))
  let block ← readUvarint
  let root ← readB256
  let stateId ← readUvarint
  let hash ← readB256
  let resume ← readU8 >>= readResume
  return ⟨block, root, stateId, hash, resume⟩

namespace SnapshotStream

/-- `SnapshotStream::open`. -/
def openStream (bytes : Bytes) : Except StreamError SnapshotStream := do
  let (manifest, inner) ← (readManifest bytes).val
  return ⟨inner, manifest, ⟨.manifest, none, none⟩, none, false⟩

def unread (st : SnapshotStream) (record : Record) : SnapshotStream := { st with held := some record }

def nextRecord (st : SnapshotStream) : Except StreamError (Option Record × SnapshotStream) :=
  match st.held with
  | some record => .ok (some record, { st with held := none })
  | none =>
    if st.finished then .ok (none, st)
    else
      match (nextTag keccak256 st.manifest st.progress st.inner).val with
      | .error e => .error e
      | .ok (none, rest) => .ok (none, { st with inner := rest, finished := true })
      | .ok (some (record, p), rest) => .ok (some record, { st with inner := rest, progress := p })

/-- The reader hands out these records, one after the other. -/
inductive HandsOut : SnapshotStream → List Record → SnapshotStream → Prop
  | nil (st : SnapshotStream) : HandsOut st [] st
  | cons {st st' st'' : SnapshotStream} {record : Record} {records : List Record} :
      st.nextRecord keccak256 = .ok (some record, st') → HandsOut st' records st'' →
        HandsOut st (record :: records) st''

/-- The reader hands out these records, and then says that it is at the end. -/
def Delivers (st : SnapshotStream) (records : List Record) (last : SnapshotStream) : Prop :=
  ∃ mid, HandsOut keccak256 st records mid ∧ mid.nextRecord keccak256 = .ok (none, last)

end SnapshotStream

/-- The last history object ends at the exported state root. -/
def checkHistoryMeetsState (last : Option (ℕ × B256)) : Except StreamError Unit :=
  match last with
  | none => .error .noHistory
  | some (block, postRoot) =>
    if block ≠ manifest.block then .error (.historyEndsAt block)
    else if postRoot ≠ manifest.root then .error (.historyEndsInRoot postRoot)
    else .ok ()

/-! ### History objects advance and are chained -/

/-- An object after the last one: below the convert point, above the last block and from the last root on. -/
def Advances (convertPoint : ℕ) (last : Option (ℕ × B256)) (object : HistoryObject) : Prop :=
  object.block ≤ convertPoint ∧ ∀ l, last = some l → l.1 < object.block ∧ object.parentRoot = l.2

/-- The last history object after one more record. -/
def Record.seen (last : Option (ℕ × B256)) : Record → Option (ℕ × B256)
  | history object => some (object.block, object.postRoot)
  | _ => last

/-- The history objects of a list of records, each after the one before. -/
def Chained (convertPoint : ℕ) : Option (ℕ × B256) → List Record → Prop
  | _, [] => True
  | last, record :: records =>
    (∀ object, record = .history object → Advances convertPoint last object) ∧
      Chained convertPoint (record.seen last) records

/-- What the reader checks and remembers about the history, at one record. -/
def Remembers (p : Progress) (x : Record × Progress) : Prop :=
  x.2.lastHistory = x.1.seen p.lastHistory ∧
    ∀ object, x.1 = .history object → Advances manifest.block p.lastHistory object

theorem checkHistory_ok {p p' : Progress} {stateId block : ℕ} {version : UInt8} {parentRoot postRoot : B256}
    (h : checkHistory manifest p stateId block version parentRoot postRoot = .ok p') :
    version = historyVersionRawSlots ∧ p' = { p with lastHistory := some (block, postRoot) } ∧ block ≤ manifest.block ∧
      ∀ l, p.lastHistory = some l → l.1 < block ∧ parentRoot = l.2 := by
  simp only [checkHistory] at h
  split at h
  · cases h
  · refine ⟨not_not.mp ‹_›, ?_⟩
    split at h
    · cases h
    · split at h
      · rename_i hnone
        cases h
        exact ⟨rfl, by omega, fun l hl => by rw [hnone] at hl; cases hl⟩
      · rename_i lastBlock lastPost hsome
        split at h
        · cases h
        · split at h
          · cases h
          · cases h
            refine ⟨rfl, by omega, fun l hl => ?_⟩
            cases hsome.symm.trans hl
            exact ⟨by omega, not_not.mp ‹_›⟩

/-! ### What is checked at one record -/

/-- The last header after one more record. -/
def Record.headed (last : Option (ℕ × B256)) : Record → Option (ℕ × B256)
  | header block hash _ => some (block, hash)
  | _ => last

/-- A header after the last one: with its own hash, below the convert point, with the next number and the last hash. -/
def Builds (last : Option (ℕ × B256)) (block : ℕ) (hash : B256) (rlp : Bytes) : Prop :=
  keccak256 rlp = hash ∧ block ≤ manifest.block ∧
    ∀ l, last = some l → block = (l.1 + 1) % u64Size ∧ (headerField rlp 0).val = .ok (toBe 32 l.2.toNat)

/-- What the reader checks and remembers at one record. -/
structure Checks (p : Progress) (x : Record × Progress) : Prop where
  history : Remembers manifest p x
  headed : x.2.lastBlock = x.1.headed p.lastBlock
  builds : ∀ block hash rlp, x.1 = .header block hash rlp → Builds keccak256 manifest p.lastBlock block hash rlp
  code : ∀ hash code, x.1 = .code hash code → keccak256 code = hash

variable {hash : B256}

theorem checkParent_val_iff {p p' : Progress} {block : ℕ} {parent : Bytes} :
    (checkParent p block hash parent).val = .ok p' ↔ p' = { p with lastBlock := some (block, hash) } ∧
      ∀ l, p.lastBlock = some l → block = (l.1 + 1) % u64Size ∧ parent = toBe 32 l.2.toNat := by
  unfold checkParent
  cases p.lastBlock with
  | none => simp [pure, eq_comm]
  | some l =>
    simp only [Option.some.injEq, forall_eq']
    by_cases hblock : block = (l.1 + 1) % u64Size
    · by_cases hparent : parent = toBe 32 l.2.toNat
      · simp [hblock, hparent, request, bind, Except.bind, pure, eq_comm]
      · simp [hblock, hparent, request, bind, Except.bind]
    · simp [hblock, request, bind, Except.bind, Tracing.fail]

theorem checkHeader_val_iff {p p' : Progress} {block : ℕ} {rlp : Bytes} :
    (checkHeader keccak256 manifest p block hash rlp).val = .ok p' ↔
      p' = { p with lastBlock := some (block, hash) } ∧ keccak256 rlp = hash ∧ block ≤ manifest.block ∧
        ∃ parent, (headerField rlp 0).val = .ok parent ∧
          ∀ l, p.lastBlock = some l → block = (l.1 + 1) % u64Size ∧ parent = toBe 32 l.2.toNat := by
  unfold checkHeader
  by_cases hhash : keccak256 rlp = hash
  · by_cases hblock : block ≤ manifest.block
    · simp only [hhash, ne_eq, not_true_eq_false, if_false, Nat.not_lt.mpr hblock, hblock, true_and]
      exact bind_ok.trans (by simp only [checkParent_val_iff]; tauto)
    · simp [hhash, hblock, Nat.not_le.mp hblock, Tracing.fail]
  · simp [hhash, Tracing.fail]

theorem checkHeader_ok {p p' : Progress} {block : ℕ} {rlp : Bytes}
    (h : (checkHeader keccak256 manifest p block hash rlp).val = .ok p') :
    p' = { p with lastBlock := some (block, hash) } ∧ Builds keccak256 manifest p.lastBlock block hash rlp := by
  obtain ⟨hp', hhash, hblock, parent, hparent, hlast⟩ := (checkHeader_val_iff keccak256 manifest).mp h
  refine ⟨hp', hhash, hblock, fun l hl => ?_⟩
  obtain ⟨hnext, hword⟩ := hlast l hl
  rw [← hword]
  exact ⟨hnext, hparent⟩

/-- The section in which a record stands. -/
def Record.sec : Record → Section
  | header .. | body .. | receipts .. => .blocks
  | history .. => .history
  | account .. | storage .. | code .. => .state

def Record.tag : Record → UInt8
  | header .. => recHeader
  | body .. => recBody
  | receipts .. => recReceipts
  | history .. => recHeader
  | account .. => recAccount
  | storage .. => recStorage
  | code .. => recCode

/-- The record passes the checks of the reader, which then remembers the second progress. -/
def Admits (p : Progress) : Record → Progress → Prop
  | .header block hash rlp, p' => (checkHeader keccak256 manifest p block hash rlp).val = .ok p'
  | .history o, p' =>
    checkHistory manifest p o.stateId o.block historyVersionRawSlots o.parentRoot o.postRoot = .ok p'
  | .code hash code, p' => keccak256 code = hash ∧ p' = p
  | _, p' => p' = p

variable {keccak256 manifest} {p p' : Progress} {record : Record}

theorem Admits.sec (h : Admits keccak256 manifest p record p') : p'.sec = p.sec := by
  cases record with
  | header block hash rlp => rw [(checkHeader_ok keccak256 manifest h).1]
  | history o => rw [(checkHistory_ok manifest h).2.1]
  | code hash code => rw [h.2]
  | _ =>
    obtain rfl := h
    rfl

theorem Admits.checks (h : Admits keccak256 manifest p record p') : Checks keccak256 manifest p (record, p') := by
  cases record with
  | header block hash rlp =>
    obtain ⟨rfl, hbuilds⟩ := checkHeader_ok keccak256 manifest h
    refine ⟨⟨rfl, by simp⟩, rfl, fun block' hash' rlp' hrecord => ?_, by simp⟩
    cases hrecord
    exact hbuilds
  | history o =>
    obtain ⟨-, rfl, hadvances⟩ := checkHistory_ok manifest h
    refine ⟨⟨rfl, fun object hobject => ?_⟩, rfl, by simp, by simp⟩
    cases hobject
    exact hadvances
  | code hash code =>
    obtain ⟨hhash, rfl⟩ := h
    refine ⟨⟨rfl, by simp⟩, rfl, by simp, fun hash' code' hcode => ?_⟩
    cases hcode
    exact hhash
  | _ =>
    obtain rfl := h
    exact ⟨⟨rfl, by simp⟩, rfl, by simp, by simp⟩

end reading

/-- A hash for small samples. -/
def lengthHash (bytes : Bytes) : B256 := BitVec.ofNat 256 bytes.length

end ArbReth.Snapshot
