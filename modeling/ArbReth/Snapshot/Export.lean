import ArbReth.Snapshot.Builder

/-! # Writing a full snapshot

The exporter (`go-exporter/reth-export.go`, mode `full-snapshot`) writes the stream from the databases of a Nitro node:
canonical blocks, the raw tables of the state history, and the tries at the convert point.  `Geth` has what it reads
them with.

The state is walked in ranges of the account keys at the same time, and what the walks have written is
appended in the order of the ranges.  The walks share the set of codes that have been written, so it is
the schedule that decides behind which account a code stands (`Marked`).

A content is held by the databases when reading them gives its parts (`Holds`).  Then, for every schedule,
the bytes are those that `StreamBuilder` makes of the content with the records of the state in the order
in which they were written, and the reader hands these records out again. -/

namespace ArbReth.Snapshot

open ArbReth.Codec
open ArbReth.Runs
open ArbReth.Storage (U256)

/-! ### What the exporter reads -/

/-- The tables of one state history object, as they are in the freezer. -/
structure RawHistory where
  metadata : Bytes
  accIndex : Bytes
  slotIndex : Bytes
  accData : Bytes
  slotData : Bytes

/-- An account as go-ethereum decodes it. -/
structure StateAccount where
  nonce : ℕ
  balance : U256
  root : B256
  codeHash : Bytes

/-- The databases and decoders of go-ethereum. -/
structure Geth where
  /-- Zero if there is none. -/
  readCanonicalHash : ℕ → B256
  readHeaderRlp : B256 → ℕ → Bytes
  readBodyRlp : B256 → ℕ → Bytes
  readReceiptsRlp : B256 → ℕ → Bytes
  readStateHistory : ℕ → Option RawHistory
  readCode : B256 → Bytes
  /-- The leaves of the account trie at a root, in the order of their keys. -/
  accountTrie : B256 → Option (List (B256 × Bytes))
  /-- The leaves of the storage trie of an account, for the state root, the owner and the storage root. -/
  storageTrie : B256 → B256 → B256 → Option (List (B256 × Bytes))
  /-- `rlp.DecodeBytes` into a byte slice. -/
  decodeBytes : Bytes → Option Bytes
  /-- `rlp.DecodeBytes` into an account. -/
  decodeAccount : Bytes → Option StateAccount
  /-- `types.FullAccount`, for the slim encoding. -/
  fullAccount : Bytes → Option StateAccount
  emptyRootHash : B256

structure ConvertPoint where
  block : ℕ
  root : B256
  stateId : ℕ

/-- Where the export stops. -/
inductive ExportError where
  | noCanonicalHash (block : ℕ)
  | missingHeader (block : ℕ)
  | readStateHistory (id : ℕ)
  | metaSize (length : ℕ)
  | unknownVersion (version : UInt8)
  | hashedSlots (id : ℕ)
  | hashedSlotsAboveGenesis (id block : ℕ)
  | accIndexSize (length : ℕ)
  | slotIndexSize (length : ℕ)
  | accDataRange (start stop : ℕ)
  | previousAccount (address : Bytes)
  | slotEntry (index : ℕ)
  | slotDataRange (start stop : ℕ)
  | slotValue (address : Bytes)
  | openAccountTrie
  | decodeAccount (key : B256)
  | noCode (hash : B256)
  | openStorageTrie (owner : B256)
  | decodeStorage (owner : B256)
deriving DecidableEq, Repr

/-! ### The writers -/

def histMetaSize : ℕ := 73
def histAccIndexSize : ℕ := 33
def histSlotIndexSize : ℕ := 37

def histVersionHashedSlots : UInt8 := 0

/-- `binary.PutUvarint`. -/
def writeUvarint (v : ℕ) : Bytes := Codec.uvarint v

def writeShortBytes (b : Bytes) : Bytes := UInt8.ofNat b.length :: b

def writeBlob (b : Bytes) : Bytes := writeUvarint b.length ++ b

/-- `Bytes` of a `uint256.Int`: the bytes that it needs, of its 32. -/
def balanceBytes (balance : U256) : Bytes := (toBe 32 balance.toNat).drop (32 - byteLength balance.toNat)

section writers
variable (keccak256 : Bytes → B256) (geth : Geth)

def emptyCodeHash : Bytes := wordBytes (keccak256 [])

def writeCodeHash (codeHash : Bytes) : Bytes :=
  if codeHash = emptyCodeHash keccak256 then [0] else writeShortBytes codeHash

/-- An empty input is a zero slot. -/
def rlpStringPayload (b : Bytes) : Option Bytes := if b = [] then some [] else geth.decodeBytes b

def writePrevious (addr blob : Bytes) : Except ExportError Bytes :=
  if blob = [] then .ok [0]
  else
    match geth.fullAccount blob with
    | none => .error (.previousAccount addr)
    | some acct => .ok ([1] ++ writeUvarint acct.nonce ++ writeShortBytes (balanceBytes acct.balance) ++
        writeCodeHash keccak256 acct.codeHash)

/-- The entry of a slot: its key, and the length and offset of its value. -/
def writeSlot (raw : RawHistory) (addr : Bytes) (index : ℕ) : Except ExportError Bytes :=
  if raw.slotIndex.length < index * histSlotIndexSize + histSlotIndexSize then .error (.slotEntry index)
  else
    let entry := slice raw.slotIndex (index * histSlotIndexSize) ((index + 1) * histSlotIndexSize)
    let vlen := (entry.getD 32 0).toNat
    let voff := ofBe (slice entry 33 37)
    if raw.slotData.length < voff + vlen then .error (.slotDataRange voff (voff + vlen))
    else
      match rlpStringPayload geth (slice raw.slotData voff (voff + vlen)) with
      | none => .error (.slotValue addr)
      | some value => .ok (slice entry 0 32 ++ writeShortBytes value)

/-- The entry of an account: its address, the length and offset of its data, and the first of its slots and their
number. -/
def writeHistoryAccount (raw : RawHistory) (i : ℕ) : Except ExportError Bytes :=
  let entry := slice raw.accIndex (i * histAccIndexSize) ((i + 1) * histAccIndexSize)
  let addr := slice entry 0 20
  let length := (entry.getD 20 0).toNat
  let offset := ofBe (slice entry 21 25)
  let storageOffset := ofBe (slice entry 25 29)
  let storageSlots := ofBe (slice entry 29 33)
  if raw.accData.length < offset + length then .error (.accDataRange offset (offset + length))
  else do
    let previous ← writePrevious keccak256 geth addr (slice raw.accData offset (offset + length))
    let slots ← (List.range storageSlots).mapM fun s => writeSlot geth raw addr (storageOffset + s)
    return addr ++ previous ++ writeUvarint storageSlots ++ slots.flatten

def historyBlock (raw : RawHistory) : ℕ := ofBe (slice raw.metadata 65 histMetaSize)

def writeHistoryObject (id : ℕ) (raw : RawHistory) : Except ExportError Bytes :=
  let version := raw.metadata.getD 0 0
  if raw.metadata.length ≠ histMetaSize then .error (.metaSize raw.metadata.length)
  else if historyVersionRawSlots < version then .error (.unknownVersion version)
  else if version = histVersionHashedSlots then .error (.hashedSlots id)
  else if raw.accIndex.length % histAccIndexSize ≠ 0 then .error (.accIndexSize raw.accIndex.length)
  else if raw.slotIndex.length % histSlotIndexSize ≠ 0 then .error (.slotIndexSize raw.slotIndex.length)
  else do
    let nAccounts := raw.accIndex.length / histAccIndexSize
    let accounts ← (List.range nAccounts).mapM (writeHistoryAccount keccak256 geth raw)
    return [recHeader] ++ writeUvarint id ++ writeUvarint (historyBlock raw) ++ [version] ++ slice raw.metadata 1 33 ++
      slice raw.metadata 33 65 ++ writeUvarint nAccounts ++ accounts.flatten

/-- An object of the genesis state, with hashed slot keys. -/
def isHashed (raw : RawHistory) : Bool :=
  raw.metadata.length = histMetaSize ∧ raw.metadata.getD 0 0 = histVersionHashedSlots

/-- Hashed objects before the first one that is written are passed over, if they are of block 0. -/
def streamHistoryRange : ℕ → List ℕ → Except ExportError Bytes
  | _, [] => .ok []
  | emitted, id :: ids =>
    match geth.readStateHistory id with
    | none => .error (.readStateHistory id)
    | some raw =>
      if isHashed raw ∧ emitted = 0 then
        if historyBlock raw ≠ 0 then .error (.hashedSlotsAboveGenesis id (historyBlock raw))
        else streamHistoryRange emitted ids
      else do
        let object ← writeHistoryObject keccak256 geth id raw
        let rest ← streamHistoryRange (emitted + 1) ids
        return object ++ rest

def writeHistorySection (point : ConvertPoint) : Except ExportError Bytes := do
  let objects ← streamHistoryRange keccak256 geth 0 (List.range' 1 point.stateId)
  return [Section.tag .history] ++ objects ++ [recEnd]

def writeResume : Option ResumePoint → Bytes
  | none => [0]
  | some r => [1] ++ writeUvarint r.l1Block ++ writeUvarint r.delayedCount ++ writeUvarint r.l2Block

def writeManifestSection (point : ConvertPoint) (resume : Option ResumePoint) : Except ExportError Bytes :=
  let hash := geth.readCanonicalHash point.block
  if hash = 0 then .error (.noCanonicalHash point.block)
  else .ok ([Section.tag .manifest] ++ writeUvarint point.block ++ wordBytes point.root ++ writeUvarint point.stateId ++
    wordBytes hash ++ writeResume resume)

/-- A body or the receipts of a block, if there are any. -/
def writeOptional (tag : UInt8) (n : ℕ) (blob : Bytes) : Bytes :=
  if 0 < blob.length then [tag] ++ writeUvarint n ++ writeBlob blob else []

def writeBlock (n : ℕ) : Except ExportError Bytes :=
  let hash := geth.readCanonicalHash n
  let header := geth.readHeaderRlp hash n
  if hash = 0 then .error (.noCanonicalHash n)
  else if header.length = 0 then .error (.missingHeader n)
  else .ok ([recHeader] ++ writeUvarint n ++ wordBytes hash ++ writeBlob header ++
    writeOptional recBody n (geth.readBodyRlp hash n) ++ writeOptional recReceipts n (geth.readReceiptsRlp hash n))

def writeBlocksSection (point : ConvertPoint) : Except ExportError Bytes := do
  let blocks ← (List.range (point.block + 1)).mapM (writeBlock geth)
  return [Section.tag .blocks] ++ blocks.flatten ++ [recEnd]

/-- The last 32 bytes, as a hash. -/
def bytesToHash (b : Bytes) : B256 := BitVec.ofNat 256 (ofBe b)

/-- Code is written once. -/
def walkCode (seenCode : List B256) (codeHash : Bytes) : Except ExportError (Bytes × List B256) :=
  if codeHash = emptyCodeHash keccak256 then .ok ([], seenCode)
  else
    let hash := bytesToHash codeHash
    let code := geth.readCode hash
    if hash ∈ seenCode then .ok ([], seenCode)
    else if code.length = 0 then .error (.noCode hash)
    else .ok ([recCode] ++ wordBytes hash ++ writeBlob code, hash :: seenCode)

def walkSlot (owner : B256) (leaf : B256 × Bytes) : Except ExportError Bytes :=
  match geth.decodeBytes leaf.2 with
  | none => .error (.decodeStorage owner)
  | some value => .ok ([recStorage] ++ wordBytes leaf.1 ++ writeShortBytes value)

def walkStorage (root owner storageRoot : B256) : Except ExportError Bytes :=
  if storageRoot = geth.emptyRootHash then .ok []
  else
    match geth.storageTrie root owner storageRoot with
    | none => .error (.openStorageTrie owner)
    | some leaves => do
      let slots ← leaves.mapM (walkSlot geth owner)
      return slots.flatten

/-- One turn of the loop of `walkStateRange`.  The only access to what the walks share is the one to the
codes. -/
def walkAccount (root : B256) (seenCode : List B256) (leaf : B256 × Bytes) : Except ExportError (Bytes × List B256) :=
  match geth.decodeAccount leaf.2 with
  | none => .error (.decodeAccount leaf.1)
  | some acc => do
    let (code, seenCode') ← walkCode keccak256 geth seenCode acc.codeHash
    let storage ← walkStorage geth root leaf.1 acc.root
    return ([recAccount] ++ wordBytes leaf.1 ++ writeUvarint acc.nonce ++ writeShortBytes (balanceBytes acc.balance) ++
      writeCodeHash keccak256 acc.codeHash ++ code ++ storage, seenCode')

end writers

/-! ### The walks -/

/-- The `i`-th of `n` equal parts of the account keys begins here. -/
def partitionBoundary (i n : ℕ) : ℕ := 2 ^ 256 * i / n

/-- The leaves of a range.  The iterator starts at the first key that is not below `lo`. -/
def rangeLeaves (lo hi : Option ℕ) (leaves : List (B256 × Bytes)) : List (B256 × Bytes) :=
  (leaves.dropWhile fun leaf => lo.any (leaf.1.toNat < ·)).takeWhile fun leaf => hi.all (leaf.1.toNat < ·)

/-- What the `i`-th of `n` walks is about. -/
def partition (n i : ℕ) : List (B256 × Bytes) → List (B256 × Bytes) :=
  rangeLeaves (if 0 < i then some (partitionBoundary i n) else none)
    (if i < n - 1 then some (partitionBoundary (i + 1) n) else none)

/-- The leaves that a walk has not come to, and what it has written. -/
structure WalkPart where
  rest : List (B256 × Bytes)
  out : Bytes

structure Walks where
  parts : ℕ → WalkPart
  seenCode : List B256

namespace Walks

/-- There are `n` walks. -/
def start (n : ℕ) (leaves : List (B256 × Bytes)) : Walks :=
  ⟨fun i => ⟨if i < n then partition n i leaves else [], []⟩, []⟩

/-- The `i`-th walk comes to its next account, if there is one. -/
def step (keccak256 : Bytes → B256) (geth : Geth) (root : B256) (w : Walks) (i : ℕ) : Except ExportError Walks :=
  match (w.parts i).rest with
  | [] => .ok w
  | leaf :: rest => do
    let (bytes, seenCode) ← walkAccount keccak256 geth root w.seenCode leaf
    return ⟨Function.update w.parts i ⟨rest, (w.parts i).out ++ bytes⟩, seenCode⟩

/-- The parts, in the order of the ranges. -/
def output (w : Walks) (n : ℕ) : Bytes := (List.range n).flatMap fun i => (w.parts i).out

end Walks

/-- Without `--parallel` there is one walk, over all keys. -/
def walkers (parallel : ℕ) : ℕ := max parallel 1

section streams
variable (keccak256 : Bytes → B256) (geth : Geth)

/-- The schedule says which walk comes to its next account. -/
def writeStateSection (parallel : ℕ) (schedule : List ℕ) (point : ConvertPoint) : Except ExportError Bytes :=
  match geth.accountTrie point.root with
  | none => .error .openAccountTrie
  | some leaves => do
    let w ← run (Walks.step keccak256 geth point.root) (.start (walkers parallel) leaves) schedule
    return [Section.tag .state] ++ w.output (walkers parallel) ++ [recEnd]

/-- All walks come to the ends of their ranges, which the exporter waits for. -/
def WalksFinish (parallel : ℕ) (schedule : List ℕ) (root : B256) : Prop :=
  ∀ leaves, geth.accountTrie root = some leaves → ∀ i < walkers parallel,
    (partition (walkers parallel) i leaves).length ≤ schedule.count i

/-- The stream, for a convert point and a resume point that have been found. -/
def fullSnapshot (parallel : ℕ) (schedule : List ℕ) (point : ConvertPoint) (resume : Option ResumePoint) :
    Except ExportError Bytes := do
  let manifest ← writeManifestSection geth point resume
  let blocks ← writeBlocksSection geth point
  let history ← writeHistorySection keccak256 geth point
  let state ← writeStateSection keccak256 geth parallel schedule point
  return magic ++ manifest ++ blocks ++ history ++ state ++ [sectionEnd]

end streams

/-! ### Contents, and databases that hold them -/

/-- An account with its storage. -/
structure AccountContent where
  hashedAddress : B256
  nonce : ℕ
  balance : U256
  codeHash : Option B256
  slots : List (B256 × U256)
deriving DecidableEq, Repr

/-- What a stream is about. -/
structure Content where
  manifest : Manifest
  blocks : List BlockContent
  objects : List HistoryObject
  accounts : List AccountContent
  code : B256 → Bytes

/-- An account, its code if it is written here, and its slots. -/
def AccountContent.records (code : B256 → Bytes) (a : AccountContent) (withCode : Bool) : List Record :=
  .account a.hashedAddress a.nonce a.balance a.codeHash ::
    ((if withCode then (a.codeHash.map fun hash => Record.code hash (code hash)).toList else []) ++
      a.slots.map fun slot => .storage slot.1 slot.2)

/-- Accounts, each with whether its code is written behind it. -/
abbrev Marked := List (AccountContent × Bool)

def Marked.records (code : B256 → Bytes) (ms : Marked) : List Record := ms.flatMap fun x => x.1.records code x.2

/-- The codes that are written. -/
def Marked.codes (ms : Marked) : List B256 := ms.flatMap fun x => if x.2 then x.1.codeHash.toList else []

/-- The accounts of the content in their order, and each of their codes once. -/
structure Content.Marks (c : Content) (ms : Marked) : Prop where
  accounts : ms.map Prod.fst = c.accounts
  once : ms.codes.Nodup
  all : ∀ a ∈ c.accounts, ∀ hash, a.codeHash = some hash → hash ∈ ms.codes

/-- All records, in the order of the sections. -/
def Content.records (keccak256 : Bytes → B256) (c : Content) (ms : Marked) : List Record :=
  blockRecords keccak256 0 c.blocks ++ (c.objects.map .history ++ ms.records c.code)

/-- The stream that `StreamBuilder` makes of a content. -/
def Content.build (keccak256 : Bytes → B256) (c : Content) (ms : Marked) : Bytes :=
  StreamBuilder.build keccak256 c.manifest (blockRecords keccak256 0 c.blocks) (c.objects.map .history)
    (ms.records c.code)

/-- Blocks 0 to the convert point with linked headers, a chained history below it, and code under its hash; numbers and
lengths fit their types. -/
structure Content.WellFormed (keccak256 : Bytes → B256) (c : Content) : Prop where
  manifest : c.manifest.Fits
  count : c.blocks.length = c.manifest.block + 1
  blocks : ∀ b ∈ c.blocks, b.Fits
  linked : HeadersLinked keccak256 c.blocks
  objects : ∀ o ∈ c.objects, o.Fits
  below : ∀ o ∈ c.objects, o.block ≤ c.manifest.block
  chained : HistoryChained c.objects
  nonce : ∀ a ∈ c.accounts, a.nonce < u64Size
  code : ∀ a ∈ c.accounts, ∀ hash, a.codeHash = some hash → keccak256 (c.code hash) = hash ∧ (c.code hash).length < u64Size

/-- An entry of the account index. -/
structure AccountEntry where
  address : Address
  length : UInt8
  offset : BitVec 32
  storageOffset : BitVec 32
  storageSlots : BitVec 32

def AccountEntry.bytes (e : AccountEntry) : Bytes :=
  addressBytes e.address ++ ([e.length] ++ (toBe 4 e.offset.toNat ++ (toBe 4 e.storageOffset.toNat ++
    toBe 4 e.storageSlots.toNat)))

/-- An entry of the storage index. -/
structure SlotEntry where
  key : B256
  length : UInt8
  offset : BitVec 32

def SlotEntry.bytes (e : SlotEntry) : Bytes := wordBytes e.key ++ ([e.length] ++ toBe 4 e.offset.toNat)

section holding
variable (keccak256 : Bytes → B256) (geth : Geth)

/-- The fields of a decoded account; without code it has the hash of no bytes. -/
structure StateAccount.Is (acct : StateAccount) (nonce : ℕ) (balance : U256) (codeHash : Option B256) : Prop where
  nonce_eq : acct.nonce = nonce
  balance_eq : acct.balance = balance
  codeHash_eq : acct.codeHash = (codeHash.map wordBytes).getD (emptyCodeHash keccak256)
  codeHash_ne : codeHash ≠ some (keccak256 [])

def HoldsPrevious (blob : Bytes) : Option PreviousAccount → Prop
  | none => blob = []
  | some p => blob ≠ [] ∧ ∃ acct, geth.fullAccount blob = some acct ∧ acct.Is keccak256 p.nonce p.balance p.codeHash

def HoldsSlot (raw : RawHistory) (e : SlotEntry) (slot : B256 × U256) : Prop :=
  e.key = slot.1 ∧ e.offset.toNat + e.length.toNat ≤ raw.slotData.length ∧
    rlpStringPayload geth (slice raw.slotData e.offset.toNat (e.offset.toNat + e.length.toNat)) = some (numberBytes slot.2)

structure HoldsHistoryAccount (raw : RawHistory) (slots : List SlotEntry) (e : AccountEntry) (a : HistoryAccount) :
    Prop where
  address : e.address = a.address
  range : e.offset.toNat + e.length.toNat ≤ raw.accData.length
  previous : HoldsPrevious keccak256 geth (slice raw.accData e.offset.toNat (e.offset.toNat + e.length.toNat)) a.previous
  count : e.storageSlots.toNat = a.storage.length
  storage : ∀ s (h : s < a.storage.length), ∃ slot, slots[e.storageOffset.toNat + s]? = some slot ∧
    HoldsSlot geth raw slot a.storage[s]

/-- The tables of a history object. -/
structure Represents (raw : RawHistory) (o : HistoryObject) : Prop where
  metadata : raw.metadata =
    [historyVersionRawSlots] ++ (wordBytes o.parentRoot ++ (wordBytes o.postRoot ++ toBe 8 o.block))
  tables : ∃ (accounts : List AccountEntry) (slots : List SlotEntry),
    raw.accIndex = accounts.flatMap AccountEntry.bytes ∧ raw.slotIndex = slots.flatMap SlotEntry.bytes ∧
      List.Forall₂ (HoldsHistoryAccount keccak256 geth raw slots) accounts o.accounts

/-- A block in the database.  An empty blob is one that is not there. -/
structure HoldsBlock (n : ℕ) (b : BlockContent) : Prop where
  hash : geth.readCanonicalHash n = keccak256 b.rlp
  hash_ne : keccak256 b.rlp ≠ 0
  header : geth.readHeaderRlp (keccak256 b.rlp) n = b.rlp
  body : geth.readBodyRlp (keccak256 b.rlp) n = b.body.getD []
  body_ne : b.body ≠ some []
  receipts : geth.readReceiptsRlp (keccak256 b.rlp) n = b.receipts.getD []
  receipts_ne : b.receipts ≠ some []

/-- The history in the freezer: objects of the genesis state, and from then on those of the content. -/
structure HoldsHistory (c : Content) : Prop where
  ids : ∃ skipped, skipped + c.objects.length = c.manifest.stateId ∧
    (∀ id, 1 ≤ id → id ≤ skipped →
      ∃ raw, geth.readStateHistory id = some raw ∧ isHashed raw = true ∧ historyBlock raw = 0) ∧
    ∀ i (h : i < c.objects.length), c.objects[i].stateId = skipped + 1 + i ∧
      ∃ raw, geth.readStateHistory (skipped + 1 + i) = some raw ∧ Represents keccak256 geth raw c.objects[i]

def HoldsStorage (root owner storageRoot : B256) (slots : List (B256 × U256)) : Prop :=
  if storageRoot = geth.emptyRootHash then slots = []
  else ∃ leaves, geth.storageTrie root owner storageRoot = some leaves ∧
    List.Forall₂ (fun leaf slot => leaf.1 = slot.1 ∧ geth.decodeBytes leaf.2 = some (numberBytes slot.2)) leaves slots

/-- A leaf of the account trie, with the storage trie that belongs to it. -/
def HoldsAccount (root : B256) (leaf : B256 × Bytes) (a : AccountContent) : Prop :=
  leaf.1 = a.hashedAddress ∧ ∃ acct, geth.decodeAccount leaf.2 = some acct ∧
    acct.Is keccak256 a.nonce a.balance a.codeHash ∧ HoldsStorage geth root a.hashedAddress acct.root a.slots

structure Holds (c : Content) : Prop where
  hash : geth.readCanonicalHash c.manifest.block = c.manifest.hash
  blocks : ∀ n (h : n < c.blocks.length), HoldsBlock keccak256 geth n c.blocks[n]
  history : HoldsHistory keccak256 geth c
  state : ∃ leaves, geth.accountTrie c.manifest.root = some leaves ∧
    List.Forall₂ (HoldsAccount keccak256 geth c.manifest.root) leaves c.accounts
  code : ∀ a ∈ c.accounts, ∀ hash, a.codeHash = some hash → geth.readCode hash = c.code hash ∧ c.code hash ≠ []

end holding

/-! ### Entries of the tables -/

namespace AccountEntry
variable (e : AccountEntry)

theorem length_bytes : e.bytes.length = histAccIndexSize := by
  simp [bytes, addressBytes, histAccIndexSize]

theorem slice_address : slice e.bytes 0 20 = addressBytes e.address := by
  simp [slice, bytes, addressBytes]

theorem getD_length : e.bytes.getD 20 0 = e.length := by
  simp [bytes, addressBytes]

theorem slice_offset : slice e.bytes 21 25 = toBe 4 e.offset.toNat := by
  simp [slice, bytes, addressBytes, List.drop_append, List.take_append]

theorem slice_storageOffset : slice e.bytes 25 29 = toBe 4 e.storageOffset.toNat := by
  simp [slice, bytes, addressBytes, List.drop_append, List.take_append]

theorem slice_storageSlots : slice e.bytes 29 33 = toBe 4 e.storageSlots.toNat := by
  simp [slice, bytes, addressBytes, List.drop_append, List.drop_eq_nil_of_le]

end AccountEntry

namespace SlotEntry
variable (e : SlotEntry)

theorem length_bytes : e.bytes.length = histSlotIndexSize := by
  simp [bytes, wordBytes, histSlotIndexSize]

theorem slice_key : slice e.bytes 0 32 = wordBytes e.key := by
  simp [slice, bytes, wordBytes]

theorem getD_length : e.bytes.getD 32 0 = e.length := by
  simp [bytes, wordBytes]

theorem slice_offset : slice e.bytes 33 37 = toBe 4 e.offset.toNat := by
  simp [slice, bytes, wordBytes, List.drop_append, List.take_of_length_le]

end SlotEntry

theorem ofBe_toBe_four (x : BitVec 32) : ofBe (toBe 4 x.toNat) = x.toNat := ofBe_toBe 4 x.toNat x.isLt

theorem balanceBytes_eq (balance : U256) : balanceBytes balance = numberBytes balance :=
  (trim_toBe (w := 32) balance.isLt).symm

theorem wordBytes_injective : Function.Injective wordBytes := by
  intro x y h
  rw [← ofBe_toBe_bitVec (w := 32) x, ← ofBe_toBe_bitVec (w := 32) y]
  exact congrArg (fun bytes => BitVec.ofNat 256 (ofBe bytes)) h

/-! ### The writers and the builder -/

section agreement
variable {keccak256 : Bytes → B256} {geth : Geth}

theorem writeCodeHash_eq {acct : StateAccount} {nonce : ℕ} {balance : U256} {codeHash : Option B256}
    (h : acct.Is keccak256 nonce balance codeHash) :
    writeCodeHash keccak256 acct.codeHash = putShort (codeHashBytes codeHash) := by
  rw [writeCodeHash, h.codeHash_eq]
  cases codeHash with
  | none => exact if_pos rfl
  | some hash =>
    have hne : wordBytes hash ≠ emptyCodeHash keccak256 := fun heq =>
      h.codeHash_ne (congrArg some (wordBytes_injective heq))
    rw [Option.map_some, Option.getD_some, if_neg hne]
    rfl

theorem writePrevious_eq {addr blob : Bytes} {previous : Option PreviousAccount}
    (h : HoldsPrevious keccak256 geth blob previous) :
    writePrevious keccak256 geth addr blob = .ok (StreamBuilder.previousBytes previous) := by
  cases previous with
  | none => exact if_pos h
  | some p =>
    obtain ⟨hne, acct, hacct, his⟩ := h
    rw [writePrevious, if_neg hne, hacct]
    simp only
    rw [writeCodeHash_eq his, his.nonce_eq, his.balance_eq, balanceBytes_eq, writeUvarint, ← putUvarint_eq]
    rfl

variable {raw : RawHistory}

theorem writeSlot_eq {addr : Bytes} {slots : List SlotEntry} {i : ℕ} {e : SlotEntry}
    {slot : B256 × U256} (htable : raw.slotIndex = slots.flatMap SlotEntry.bytes) (hi : slots[i]? = some e)
    (h : HoldsSlot geth raw e slot) : writeSlot geth raw addr i = .ok (StreamBuilder.slotBytes slot) := by
  obtain ⟨hkey, hrange, hvalue⟩ := h
  obtain ⟨hlt, hget⟩ := List.getElem?_eq_some_iff.mp hi
  have hentry : slice raw.slotIndex (i * histSlotIndexSize) ((i + 1) * histSlotIndexSize) = e.bytes := by
    rw [htable, slice_flatMap (fun e _ => e.length_bytes) hlt, hget]
  have hlength : raw.slotIndex.length = slots.length * histSlotIndexSize := by
    rw [htable, length_flatMap_of_forall fun e _ => e.length_bytes]
  have hfits : ¬ raw.slotIndex.length < i * histSlotIndexSize + histSlotIndexSize := by
    rw [hlength, ← Nat.succ_mul]
    exact Nat.not_lt.mpr (Nat.mul_le_mul_right _ hlt)
  simp only [writeSlot, hentry, e.slice_key, e.getD_length, e.slice_offset, ofBe_toBe_four]
  rw [if_neg hfits, if_neg (Nat.not_lt.mpr hrange), hvalue, hkey]
  rfl

theorem writeHistoryAccount_eq {accounts : List AccountEntry} {slots : List SlotEntry} {i : ℕ}
    {a : HistoryAccount} (haccounts : raw.accIndex = accounts.flatMap AccountEntry.bytes)
    (hslots : raw.slotIndex = slots.flatMap SlotEntry.bytes) (hi : i < accounts.length)
    (h : HoldsHistoryAccount keccak256 geth raw slots accounts[i] a) :
    writeHistoryAccount keccak256 geth raw i = .ok (StreamBuilder.historyAccountBytes a) := by
  have hentry : slice raw.accIndex (i * histAccIndexSize) ((i + 1) * histAccIndexSize) = accounts[i].bytes := by
    rw [haccounts, slice_flatMap (fun e _ => e.length_bytes) hi]
  generalize accounts[i] = e at hentry h
  have hmap (addr : Bytes) : (List.range a.storage.length).mapM
      (fun s => writeSlot geth raw addr (e.storageOffset.toNat + s)) = .ok (a.storage.map StreamBuilder.slotBytes) := by
    refine mapM_range_ok fun s hs => ?_
    obtain ⟨slot, hslot, hholds⟩ := h.storage s hs
    exact writeSlot_eq hslots hslot hholds
  simp only [writeHistoryAccount, hentry, e.slice_address, e.getD_length, e.slice_offset, e.slice_storageOffset,
    e.slice_storageSlots, ofBe_toBe_four]
  rw [if_neg (Nat.not_lt.mpr h.range), writePrevious_eq h.previous, h.count, hmap, h.address, writeUvarint,
    ← putUvarint_eq, StreamBuilder.historyAccountBytes, List.flatMap_def]
  rfl

variable {o : HistoryObject}

theorem slice_metadata (h : Represents keccak256 geth raw o) :
    slice raw.metadata 1 33 = wordBytes o.parentRoot ∧ slice raw.metadata 33 65 = wordBytes o.postRoot ∧
      slice raw.metadata 65 histMetaSize = toBe 8 o.block := by
  rw [h.metadata]
  simp [slice, wordBytes, histMetaSize, List.drop_append, List.take_of_length_le]

theorem isHashed_of_represents (h : Represents keccak256 geth raw o) : isHashed raw = false := by
  rw [isHashed, h.metadata]
  simp [historyVersionRawSlots, histVersionHashedSlots]

theorem historyBlock_eq (h : Represents keccak256 geth raw o)
    (hfits : o.block < u64Size) : historyBlock raw = o.block := by
  rw [historyBlock, (slice_metadata h).2.2]
  exact ofBe_toBe 8 o.block hfits

theorem writeHistoryObject_eq (h : Represents keccak256 geth raw o) (hfits : o.block < u64Size) :
    writeHistoryObject keccak256 geth o.stateId raw = .ok ((Record.history o).bytes keccak256) := by
  obtain ⟨accounts, slots, haccounts, hslots, hholds⟩ := h.tables
  have hmeta : raw.metadata.length = histMetaSize := by
    rw [h.metadata]
    simp [wordBytes, histMetaSize]
  have hversion : raw.metadata.getD 0 0 = historyVersionRawSlots := by rw [h.metadata]; rfl
  have hacc : raw.accIndex.length = accounts.length * histAccIndexSize := by
    rw [haccounts, length_flatMap_of_forall fun e _ => e.length_bytes]
  have hslot : raw.slotIndex.length = slots.length * histSlotIndexSize := by
    rw [hslots, length_flatMap_of_forall fun e _ => e.length_bytes]
  have hcount : accounts.length = o.accounts.length := hholds.length_eq
  have hmap : (List.range o.accounts.length).mapM (writeHistoryAccount keccak256 geth raw) =
      .ok (o.accounts.map StreamBuilder.historyAccountBytes) := by
    refine mapM_range_ok fun i hi => ?_
    refine writeHistoryAccount_eq haccounts hslots (hcount ▸ hi) ?_
    exact (List.forall₂_iff_get.mp hholds).2 i (hcount ▸ hi) hi
  obtain ⟨hparent, hpost, -⟩ := slice_metadata h
  simp only [writeHistoryObject, hversion]
  rw [if_neg (not_not.mpr hmeta), if_neg (by decide), if_neg (by decide),
    if_neg (not_not.mpr (by rw [hacc, Nat.mul_mod_left])), if_neg (not_not.mpr (by rw [hslot, Nat.mul_mod_left])), hacc,
    Nat.mul_div_cancel _ (by decide), hcount, hmap, historyBlock_eq h hfits, hparent, hpost]
  simp only [writeUvarint, ← putUvarint_eq]
  rfl

/-- Objects with raw slot keys are written one after the other. -/
theorem streamHistoryRange_objects {objects : List HistoryObject} (first emitted : ℕ)
    (hfits : ∀ o ∈ objects, o.block < u64Size) (h : ∀ i (hi : i < objects.length), objects[i].stateId = first + i ∧
      ∃ raw, geth.readStateHistory (first + i) = some raw ∧ Represents keccak256 geth raw objects[i]) :
    streamHistoryRange keccak256 geth emitted (List.range' first objects.length) =
      .ok ((objects.map Record.history).flatMap (Record.bytes keccak256)) := by
  induction objects generalizing first emitted with
  | nil => rfl
  | cons o os ih =>
    obtain ⟨hid, raw, hraw, hrep⟩ := h 0 (by simp)
    simp only [Nat.add_zero] at hid hraw hrep
    have htail := ih (first + 1) (emitted + 1) (fun o ho => hfits o (by simp [ho]))
      (fun i hi => by
        have hi' := h (i + 1) (by simpa using hi)
        rw [show first + (i + 1) = first + 1 + i by omega] at hi'
        exact hi')
    rw [List.length_cons, List.range'_succ, streamHistoryRange, hraw]
    simp only
    rw [if_neg (by rw [isHashed_of_represents hrep]; simp), ← hid, writeHistoryObject_eq hrep (hfits o (by simp)), hid,
      htail]
    rfl

theorem streamHistoryRange_skip {first skipped : ℕ} {ids : List ℕ} (h : ∀ id, first ≤ id → id < first + skipped →
      ∃ raw, geth.readStateHistory id = some raw ∧ isHashed raw = true ∧ historyBlock raw = 0) :
    streamHistoryRange keccak256 geth 0 (List.range' first skipped ++ ids) = streamHistoryRange keccak256 geth 0 ids := by
  induction skipped generalizing first with
  | zero => rfl
  | succ skipped ih =>
    obtain ⟨raw, hraw, hhashed, hblock⟩ := h first le_rfl (by omega)
    rw [List.range'_succ, List.cons_append, streamHistoryRange, hraw]
    simp only
    rw [if_pos ⟨hhashed, trivial⟩, if_neg (not_not.mpr hblock)]
    exact ih fun id hle hlt => h id (by omega) (by omega)

variable {c : Content} {point : ConvertPoint}

theorem writeHistorySection_eq (hpoint : point.stateId = c.manifest.stateId)
    (hfits : ∀ o ∈ c.objects, o.Fits) (h : HoldsHistory keccak256 geth c) : writeHistorySection keccak256 geth point =
      .ok ([Section.tag .history] ++ (c.objects.map Record.history).flatMap (Record.bytes keccak256) ++ [recEnd]) := by
  obtain ⟨skipped, hsum, hskip, hobjects⟩ := h.ids
  have hsplit : List.range' 1 point.stateId = List.range' 1 skipped ++ List.range' (skipped + 1) c.objects.length := by
    rw [hpoint, ← hsum, List.range'_append_1.symm, Nat.add_comm 1]
  rw [writeHistorySection, hsplit, streamHistoryRange_skip fun id hle hlt => hskip id hle (by omega),
    streamHistoryRange_objects (skipped + 1) 0 (fun o ho => (hfits o ho).block) hobjects]
  rfl

theorem body_bytes (keccak256 : Bytes → B256) (n : ℕ) (b : Bytes) :
    (Record.body n b).bytes keccak256 = [recBody] ++ (putUvarint n ++ (putUvarint b.length ++ b)) := by
  simp [Record.bytes, StreamBuilder.put, StreamBuilder.body]

theorem receipts_bytes (keccak256 : Bytes → B256) (n : ℕ) (b : Bytes) :
    (Record.receipts n b).bytes keccak256 = [recReceipts] ++ (putUvarint n ++ (putUvarint b.length ++ b)) := by
  simp [Record.bytes, StreamBuilder.put, StreamBuilder.receipts]

theorem writeOptional_eq {tag : UInt8} {n : ℕ} (make : Bytes → Record)
    (hmake : ∀ b, (make b).bytes keccak256 = [tag] ++ (putUvarint n ++ (putUvarint b.length ++ b))) {blob : Option Bytes}
    (h : blob ≠ some []) :
    writeOptional tag n (blob.getD []) = (blob.map make).toList.flatMap (Record.bytes keccak256) := by
  cases blob with
  | none => rfl
  | some b =>
    have hpos : 0 < b.length := List.length_pos_iff.mpr fun hnil => h (congrArg some hnil)
    simp [writeOptional, hpos, hmake, writeUvarint, writeBlob, putUvarint_eq]

theorem writeBlock_eq {n : ℕ} {b : BlockContent} (h : HoldsBlock keccak256 geth n b) (hne : b.rlp ≠ []) :
    writeBlock geth n = .ok ((b.records keccak256 n).flatMap (Record.bytes keccak256)) := by
  have hlength : b.rlp.length ≠ 0 := fun hzero => hne (List.length_eq_zero_iff.mp hzero)
  have hbody := writeOptional_eq (Record.body n) (body_bytes keccak256 n) h.body_ne
  have hreceipts := writeOptional_eq (Record.receipts n) (receipts_bytes keccak256 n) h.receipts_ne
  simp only [writeBlock, h.hash, h.header, h.body, h.receipts]
  rw [if_neg h.hash_ne, if_neg hlength, hbody, hreceipts]
  simp [BlockContent.records, Record.bytes, StreamBuilder.put, StreamBuilder.header, writeUvarint, writeBlob, putUvarint_eq]

variable {blocks : List BlockContent}

theorem mapM_writeBlock (n : ℕ)
    (h : ∀ i (hi : i < blocks.length), HoldsBlock keccak256 geth (n + i) blocks[i]) (hne : ∀ b ∈ blocks, b.rlp ≠ []) :
    ∃ parts, (List.range' n blocks.length).mapM (writeBlock geth) = .ok parts ∧
      parts.flatten = (blockRecords keccak256 n blocks).flatMap (Record.bytes keccak256) := by
  induction blocks generalizing n with
  | nil => exact ⟨[], rfl, rfl⟩
  | cons b bs ih =>
    obtain ⟨parts, hparts, hflat⟩ := ih (n + 1)
      (fun i hi => by
        have hi' := h (i + 1) (by simpa using hi)
        rw [show n + (i + 1) = n + 1 + i by omega] at hi'
        exact hi')
      (fun b hb => hne b (by simp [hb]))
    have hfirst := writeBlock_eq (h 0 (by simp)) (hne b (by simp))
    rw [Nat.add_zero] at hfirst
    refine ⟨(b.records keccak256 n).flatMap (Record.bytes keccak256) :: parts, ?_, ?_⟩
    · rw [List.length_cons, List.range'_succ, List.mapM_cons, hfirst, hparts]
      rfl
    · rw [List.flatten_cons, hflat, blockRecords, List.flatMap_append]

theorem writeBlocksSection_eq (hcount : blocks.length = point.block + 1)
    (h : ∀ i (hi : i < blocks.length), HoldsBlock keccak256 geth i blocks[i]) (hne : ∀ b ∈ blocks, b.rlp ≠ []) :
    writeBlocksSection geth point =
      .ok ([Section.tag .blocks] ++ (blockRecords keccak256 0 blocks).flatMap (Record.bytes keccak256) ++ [recEnd]) := by
  have hzero : ∀ i (hi : i < blocks.length), HoldsBlock keccak256 geth (0 + i) blocks[i] := by
    intro i hi
    rw [Nat.zero_add]
    exact h i hi
  obtain ⟨parts, hparts, hflat⟩ := mapM_writeBlock 0 hzero hne
  rw [writeBlocksSection, ← hcount, List.range_eq_range', hparts, ← hflat]
  rfl

variable {code : B256 → Bytes}

/-- The code of the account has not been written. -/
def AccountContent.isNew (a : AccountContent) (seenCode : List B256) : Bool := a.codeHash.any (· ∉ seenCode)

theorem walkCode_eq {seenCode : List B256} {acct : StateAccount} {a : AccountContent}
    (h : acct.Is keccak256 a.nonce a.balance a.codeHash) (hcode : ∀ hash, a.codeHash = some hash →
      geth.readCode hash = code hash ∧ code hash ≠ [] ∧ keccak256 (code hash) = hash) :
    walkCode keccak256 geth seenCode acct.codeHash =
      .ok ((if a.isNew seenCode then (a.codeHash.map fun hash => Record.code hash (code hash)).toList else []).flatMap
        (Record.bytes keccak256), Marked.codes [(a, a.isNew seenCode)] ++ seenCode) := by
  rw [walkCode, h.codeHash_eq, AccountContent.isNew, Marked.codes]
  cases hcase : a.codeHash with
  | none => exact if_pos rfl
  | some hash =>
    obtain ⟨hread, hne, hhash⟩ := hcode hash hcase
    have hnotEmpty : wordBytes hash ≠ emptyCodeHash keccak256 := fun heq =>
      h.codeHash_ne (hcase.trans (congrArg some (wordBytes_injective heq)))
    have hback : bytesToHash (wordBytes hash) = hash := ofBe_toBe_bitVec (w := 32) hash
    have hlength : (code hash).length ≠ 0 := fun hzero => hne (List.length_eq_zero_iff.mp hzero)
    rw [Option.map_some, Option.getD_some, if_neg hnotEmpty]
    by_cases hseen : hash ∈ seenCode
    · simp [hback, hseen]
    · simp [hback, hseen, hcase, hread, hlength, Record.bytes, StreamBuilder.put, StreamBuilder.code, writeUvarint,
        writeBlob, putUvarint_eq, hhash]

theorem walkStorage_eq (keccak256 : Bytes → B256) {root owner storageRoot : B256} {slots : List (B256 × U256)}
    (h : HoldsStorage geth root owner storageRoot slots) : walkStorage geth root owner storageRoot =
      .ok ((slots.map fun slot => Record.storage slot.1 slot.2).flatMap (Record.bytes keccak256)) := by
  rw [HoldsStorage] at h
  rw [walkStorage]
  split at h
  · rename_i hempty
    rw [if_pos hempty, h]
    rfl
  · rename_i hempty
    obtain ⟨leaves, htrie, hleaves⟩ := h
    have hmap : leaves.mapM (walkSlot geth owner) =
        .ok (slots.map fun slot => (Record.storage slot.1 slot.2).bytes keccak256) := by
      rw [mapM_ok, List.forall₂_map_right_iff]
      refine hleaves.imp fun leaf slot hleaf => ?_
      rw [walkSlot, hleaf.2, hleaf.1]
      simp [Record.bytes, StreamBuilder.put, StreamBuilder.storage, writeShortBytes, putShort]
    rw [if_neg hempty, htrie]
    simp only [hmap]
    rw [List.flatMap_map]
    rfl

theorem walkAccount_eq {root : B256} {leaf : B256 × Bytes} {a : AccountContent}
    (h : HoldsAccount keccak256 geth root leaf a) (hcode : ∀ hash, a.codeHash = some hash →
      geth.readCode hash = code hash ∧ code hash ≠ [] ∧ keccak256 (code hash) = hash) (seenCode : List B256) :
    walkAccount keccak256 geth root seenCode leaf =
      .ok ((a.records code (a.isNew seenCode)).flatMap (Record.bytes keccak256),
        Marked.codes [(a, a.isNew seenCode)] ++ seenCode) := by
  obtain ⟨hkey, acct, hacct, his, hstorage⟩ := h
  rw [walkAccount, hacct, hkey]
  simp only
  rw [walkCode_eq his hcode, walkStorage_eq keccak256 hstorage, his.nonce_eq, his.balance_eq, writeCodeHash_eq his,
    balanceBytes_eq]
  simp only [bind, Except.bind, pure, Except.pure, AccountContent.records]
  simp [Record.bytes, StreamBuilder.put, StreamBuilder.account, writeUvarint, putUvarint_eq, writeShortBytes, putShort]

/-! ### The ranges -/

/-- The leaves before the `i`-th range. -/
def before (n i : ℕ) (leaf : B256 × Bytes) : Bool :=
  if i = 0 then false else if n ≤ i then true else leaf.1.toNat < partitionBoundary i n

theorem partition_eq {n i : ℕ} (hi : i < n) (leaves : List (B256 × Bytes)) :
    partition n i leaves = (leaves.dropWhile (before n i)).takeWhile (before n (i + 1)) := by
  have hlo : (fun leaf : B256 × Bytes =>
      (if 0 < i then some (partitionBoundary i n) else none).any (leaf.1.toNat < ·)) = before n i := by
    funext leaf
    unfold before
    by_cases hzero : i = 0
    · rw [if_neg (hzero ▸ Nat.lt_irrefl 0), if_pos hzero, Option.any_none]
    · rw [if_pos (Nat.pos_of_ne_zero hzero), if_neg hzero, if_neg (Nat.not_le.mpr hi), Option.any_some]
  have hhi : (fun leaf : B256 × Bytes =>
      (if i < n - 1 then some (partitionBoundary (i + 1) n) else none).all (leaf.1.toNat < ·)) = before n (i + 1) := by
    funext leaf
    unfold before
    by_cases hlast : i < n - 1
    · rw [if_pos hlast, if_neg i.succ_ne_zero, if_neg (Nat.not_le.mpr (Nat.add_lt_of_lt_sub hlast)), Option.all_some]
    · rw [if_neg hlast, if_neg i.succ_ne_zero, if_pos (Nat.le_add_of_sub_le (Nat.le_of_not_lt hlast)), Option.all_none]
  rw [partition, rangeLeaves, hlo, hhi]

theorem before_mono {n i : ℕ} {leaf : B256 × Bytes} (h : before n i leaf = true) : before n (i + 1) leaf = true := by
  have hmono : partitionBoundary i n ≤ partitionBoundary (i + 1) n :=
    Nat.div_le_div_right (Nat.mul_le_mul_left _ i.le_succ)
  unfold before at h ⊢
  split at h
  · cases h
  · rw [if_neg i.succ_ne_zero]
    split
    · rfl
    · rename_i hlast
      rw [if_neg fun hle => hlast (hle.trans i.le_succ)] at h
      exact decide_eq_true ((of_decide_eq_true h).trans_le hmono)

theorem dropWhile_dropWhile {α : Type} {p q : α → Bool} (h : ∀ a, p a = true → q a = true) (l : List α) :
    (l.dropWhile p).dropWhile q = l.dropWhile q := by
  induction l with
  | nil => rfl
  | cons a l ih =>
    cases hp : p a with
    | true => rw [List.dropWhile_cons_of_pos hp, ih, List.dropWhile_cons_of_pos (h a hp)]
    | false => rw [List.dropWhile_cons_of_neg (by simp [hp])]

/-- The ranges are next to each other and cover all keys. -/
theorem flatMap_partition {n : ℕ} (hn : 0 < n) (leaves : List (B256 × Bytes)) :
    (List.range n).flatMap (partition n · leaves) = leaves := by
  have hfront (k : ℕ) (hk : k ≤ n) :
      (List.range k).flatMap (partition n · leaves) ++ leaves.dropWhile (before n k) = leaves := by
    induction k with
    | zero =>
      have hnone : before n 0 = fun _ => false := rfl
      simp [hnone]
    | succ k ih =>
      rw [List.range_succ, List.flatMap_append, List.flatMap_singleton, partition_eq hk, List.append_assoc,
        ← dropWhile_dropWhile (fun _ => before_mono) leaves, List.takeWhile_append_dropWhile]
      exact ih (Nat.le_of_succ_le hk)
  have hall : before n n = fun _ => true := by
    funext leaf
    simp [before, Nat.pos_iff_ne_zero.mp hn]
  have hlast := hfront n le_rfl
  rwa [hall, List.dropWhile_eq_nil_iff.mpr fun _ _ => rfl, List.append_nil] at hlast

theorem exists_flatMap_of_forall₂ {α β : Type} {R : α → β → Prop} {f : ℕ → List α} {n : ℕ} {bs : List β}
    (h : List.Forall₂ R ((List.range n).flatMap f) bs) :
    ∃ g, bs = (List.range n).flatMap g ∧ ∀ i < n, List.Forall₂ R (f i) (g i) := by
  induction n generalizing bs with
  | zero =>
    cases h
    exact ⟨fun _ => [], rfl, nofun⟩
  | succ n ih =>
    rw [List.range_succ, List.flatMap_append, List.flatMap_singleton] at h
    obtain ⟨front, last, rfl, hfront, hlast⟩ : ∃ front last, bs = front ++ last ∧
        List.Forall₂ R ((List.range n).flatMap f) front ∧ List.Forall₂ R (f n) last :=
      ⟨_, _, (List.take_append_drop _ bs).symm, (List.forall₂_take_append _ _ _ h.flip).flip,
        (List.forall₂_drop_append _ _ _ h.flip).flip⟩
    obtain ⟨g, rfl, hg⟩ := ih hfront
    refine ⟨Function.update g n last, ?_, fun i hi => ?_⟩
    · rw [List.range_succ, List.flatMap_append, List.flatMap_singleton, Function.update_self]
      exact congrArg (· ++ last) (List.flatMap_congr fun i hi => by
        rw [Function.update_of_ne (List.mem_range.mp hi).ne])
    · rcases Nat.lt_succ_iff_lt_or_eq.mp hi with hlt | rfl
      · rw [Function.update_of_ne hlt.ne]
        exact hg i hlt
      · rwa [Function.update_self]

theorem perm_flatMap_update {α β : Type} {f : ℕ → β} {F : β → List α} {j n : ℕ} (hj : j < n) {b : β} {x : List α}
    (hb : F b = F (f j) ++ x) :
    ((List.range n).flatMap fun i => F (Function.update f j b i)).Perm ((List.range n).flatMap (fun i => F (f i)) ++ x) := by
  induction n with
  | zero => cases hj
  | succ n ih =>
    simp only [List.range_succ, List.flatMap_append, List.flatMap_singleton]
    rcases Nat.lt_succ_iff_lt_or_eq.mp hj with hlt | rfl
    · rw [Function.update_of_ne hlt.ne']
      refine ((ih hlt).append_right _).trans ?_
      rw [List.append_assoc, List.append_assoc]
      exact List.perm_append_comm.append_left _
    · have hsame : (List.range j).flatMap (fun i => F (Function.update f j b i)) =
          (List.range j).flatMap fun i => F (f i) :=
        List.flatMap_congr fun i hi => by rw [Function.update_of_ne (List.mem_range.mp hi).ne]
      rw [Function.update_self, hb, hsame, List.append_assoc]

/-! ### Any schedule -/

/-- What the walks have done and have still to do.  The codes that they share are those that are written. -/
structure Tracks (keccak256 : Bytes → B256) (geth : Geth) (root : B256) (code : B256 → Bytes) (n : ℕ)
    (all : ℕ → List AccountContent) (w : Walks) (done : ℕ → Marked) : Prop where
  rest : ∀ i, ∃ todo, List.Forall₂ (HoldsAccount keccak256 geth root) (w.parts i).rest todo ∧
    (done i).map Prod.fst ++ todo = all i
  out : ∀ i, (w.parts i).out = ((done i).records code).flatMap (Record.bytes keccak256)
  codes : ((List.range n).flatMap fun i => (done i).codes).Perm w.seenCode
  nodup : w.seenCode.Nodup
  seen : ∀ i, ∀ x ∈ done i, ∀ hash, x.1.codeHash = some hash → hash ∈ w.seenCode

theorem codes_isNew (a : AccountContent) (seenCode : List B256) :
    (∀ hash ∈ Marked.codes [(a, a.isNew seenCode)], hash ∉ seenCode) ∧ (Marked.codes [(a, a.isNew seenCode)]).Nodup ∧
      ∀ hash, a.codeHash = some hash → hash ∈ Marked.codes [(a, a.isNew seenCode)] ++ seenCode := by
  cases hcase : a.codeHash with
  | none => simp [Marked.codes, AccountContent.isNew, hcase]
  | some hash =>
    by_cases hseen : hash ∈ seenCode
    · simp [Marked.codes, AccountContent.isNew, hcase, hseen]
    · simp [Marked.codes, AccountContent.isNew, hcase, hseen]

variable {root : B256} {n : ℕ} {all : ℕ → List AccountContent}

theorem Tracks.step {w : Walks} {done : ℕ → Marked} (h : Tracks keccak256 geth root code n all w done)
    (hall : ∀ i, n ≤ i → all i = []) (hcode : ∀ i, ∀ a ∈ all i, ∀ hash, a.codeHash = some hash →
      geth.readCode hash = code hash ∧ code hash ≠ [] ∧ keccak256 (code hash) = hash) (j : ℕ) :
    ∃ w' done', w.step keccak256 geth root j = .ok w' ∧ Tracks keccak256 geth root code n all w' done' ∧
      ∀ i, (w'.parts i).rest = (w.parts i).rest.drop (if j = i then 1 else 0) := by
  obtain ⟨todo, htodo, hsplit⟩ := h.rest j
  unfold Walks.step
  cases hrest : (w.parts j).rest with
  | nil =>
    refine ⟨w, done, rfl, h, fun i => ?_⟩
    by_cases hij : j = i
    · rw [← hij, hrest, List.drop_nil]
    · rw [if_neg hij, List.drop_zero]
  | cons leaf rest =>
    rw [hrest] at htodo
    obtain ⟨a, todo, hleaf, hlater, rfl⟩ := List.forall₂_cons_left_iff.mp htodo
    have hmem : a ∈ all j := hsplit ▸ (by simp)
    have hj : j < n := Nat.lt_of_not_le fun hle => by
      rw [hall j hle] at hmem
      cases hmem
    obtain ⟨hfresh, hone, hown⟩ := codes_isNew a w.seenCode
    simp only [walkAccount_eq hleaf (hcode j a hmem) w.seenCode]
    refine ⟨_, Function.update done j (done j ++ [(a, a.isNew w.seenCode)]), rfl, ⟨fun i => ?_, fun i => ?_, ?_, ?_, ?_⟩,
      fun i => ?_⟩
    · by_cases hij : i = j
      · subst hij
        simp only [Function.update_self]
        exact ⟨todo, hlater, by simpa using hsplit⟩
      · simp only [Function.update_of_ne hij]
        exact h.rest i
    · by_cases hij : i = j
      · subst hij
        simp only [Function.update_self]
        rw [h.out i]
        simp [Marked.records]
      · simp only [Function.update_of_ne hij]
        exact h.out i
    · have hcodes : Marked.codes (done j ++ [(a, a.isNew w.seenCode)]) =
          (done j).codes ++ Marked.codes [(a, a.isNew w.seenCode)] := List.flatMap_append
      exact ((perm_flatMap_update hj hcodes).trans (h.codes.append_right _)).trans List.perm_append_comm
    · exact List.nodup_append'.mpr ⟨hone, h.nodup, fun hash hhash hseen => hfresh hash hhash hseen⟩
    · intro i x hx hash hhash
      by_cases hij : i = j
      · subst hij
        rw [Function.update_self, List.mem_append, List.mem_singleton] at hx
        rcases hx with hx | rfl
        · exact List.mem_append_right _ (h.seen i x hx hash hhash)
        · exact hown hash hhash
      · rw [Function.update_of_ne hij] at hx
        exact List.mem_append_right _ (h.seen i x hx hash hhash)
    · by_cases hij : j = i
      · subst hij
        simp only [Function.update_self, hrest]
        rw [if_pos trivial]
        rfl
      · simp only [Function.update_of_ne (Ne.symm hij)]
        rw [if_neg hij, List.drop_zero]

theorem Tracks.run {w : Walks} {done : ℕ → Marked} (h : Tracks keccak256 geth root code n all w done)
    (hall : ∀ i, n ≤ i → all i = []) (hcode : ∀ i, ∀ a ∈ all i, ∀ hash, a.codeHash = some hash →
      geth.readCode hash = code hash ∧ code hash ≠ [] ∧ keccak256 (code hash) = hash) (schedule : List ℕ) :
    ∃ w' done', run (Walks.step keccak256 geth root) w schedule = .ok w' ∧
      Tracks keccak256 geth root code n all w' done' ∧
      ∀ i, (w'.parts i).rest = (w.parts i).rest.drop (schedule.count i) := by
  induction schedule generalizing w done with
  | nil => exact ⟨w, done, rfl, h, fun i => (List.drop_zero).symm⟩
  | cons j schedule ih =>
    obtain ⟨w₁, done₁, hstep, h₁, hrest₁⟩ := h.step hall hcode j
    obtain ⟨w', done', hrun, h', hrest'⟩ := ih h₁
    refine ⟨w', done', run_cons_ok.mpr ⟨w₁, hstep, hrun⟩, h', fun i => ?_⟩
    rw [hrest', hrest₁, List.drop_drop, List.count_cons]
    congr 1
    by_cases hij : j = i
    · simp [hij, Nat.add_comm]
    · simp [hij]

theorem writeStateSection_eq {parallel : ℕ} {schedule : List ℕ} (hpoint : point.root = c.manifest.root)
    (hcode : ∀ a ∈ c.accounts, ∀ hash, a.codeHash = some hash → keccak256 (c.code hash) = hash)
    (h : Holds keccak256 geth c) (hschedule : WalksFinish geth parallel schedule c.manifest.root) :
    ∃ ms, c.Marks ms ∧ writeStateSection keccak256 geth parallel schedule point =
      .ok ([Section.tag .state] ++ (ms.records c.code).flatMap (Record.bytes keccak256) ++ [recEnd]) := by
  obtain ⟨leaves, htrie, hleaves⟩ := h.state
  have hn : 0 < walkers parallel := Nat.lt_of_lt_of_le Nat.one_pos (Nat.le_max_right ..)
  generalize hwalkers : walkers parallel = n at hn
  rw [← flatMap_partition hn leaves] at hleaves
  obtain ⟨parts, haccounts, hparts⟩ := exists_flatMap_of_forall₂ hleaves
  let all (i : ℕ) : List AccountContent := if i < n then parts i else []
  have hall (i : ℕ) (hi : i < n) : all i = parts i := if_pos hi
  have hmem (i : ℕ) (a : AccountContent) (ha : a ∈ all i) : a ∈ c.accounts := by
    by_cases hi : i < n
    · rw [haccounts]
      exact List.mem_flatMap.mpr ⟨i, List.mem_range.mpr hi, hall i hi ▸ ha⟩
    · rw [show all i = [] from if_neg hi] at ha
      cases ha
  have hstart : Tracks keccak256 geth c.manifest.root c.code n all (.start n leaves) fun _ => [] := by
    refine ⟨fun i => ⟨all i, ?_, rfl⟩, fun _ => rfl, by simp [Marked.codes, Walks.start], List.nodup_nil, by simp⟩
    by_cases hi : i < n
    · simpa [Walks.start, all, hi] using hparts i hi
    · simp [Walks.start, all, hi]
  obtain ⟨w, done, hrun, htracks, hrest⟩ := hstart.run (fun i hi => if_neg (Nat.not_lt.mpr hi))
    (fun i a ha hash hhash => ⟨(h.code a (hmem i a ha) hash hhash).1, (h.code a (hmem i a ha) hash hhash).2,
      hcode a (hmem i a ha) hash hhash⟩) schedule
  -- all walks have come to their ends
  have hdone (i : ℕ) (hi : i < n) : (done i).map Prod.fst = parts i := by
    obtain ⟨todo, htodo, hsplit⟩ := htracks.rest i
    have hlength := hschedule leaves htrie i (hwalkers ▸ hi)
    rw [hwalkers] at hlength
    rw [hrest, show ((Walks.start n leaves).parts i).rest = partition n i leaves from if_pos hi,
      List.drop_eq_nil_of_le hlength] at htodo
    cases htodo
    rw [← hall i hi, ← hsplit, List.append_nil]
  refine ⟨(List.range n).flatMap done, ⟨?_, ?_, fun a ha hash hhash => ?_⟩, ?_⟩
  · rw [List.map_flatMap, haccounts]
    exact List.flatMap_congr fun i hi => hdone i (List.mem_range.mp hi)
  · rw [Marked.codes, List.flatMap_assoc]
    exact htracks.codes.nodup_iff.mpr htracks.nodup
  · rw [haccounts] at ha
    obtain ⟨i, hi, ha⟩ := List.mem_flatMap.mp ha
    rw [← hdone i (List.mem_range.mp hi)] at ha
    obtain ⟨x, hx, rfl⟩ := List.mem_map.mp ha
    rw [Marked.codes, List.flatMap_assoc]
    exact htracks.codes.mem_iff.mpr (htracks.seen i x hx hash hhash)
  · rw [writeStateSection, hpoint, htrie]
    simp only [hwalkers, hrun]
    rw [Marked.records, List.flatMap_assoc, List.flatMap_assoc, ok_bind, Walks.output,
      List.flatMap_congr fun i _ => (htracks.out i).trans List.flatMap_assoc]
    rfl

theorem writeManifestSection_eq {manifest : Manifest} (hhash : geth.readCanonicalHash manifest.block = manifest.hash)
    (hne : manifest.hash ≠ 0) :
    writeManifestSection geth ⟨manifest.block, manifest.root, manifest.stateId⟩ manifest.resume =
      .ok ([Section.tag .manifest] ++ putUvarint manifest.block ++ wordBytes manifest.root ++
        putUvarint manifest.stateId ++ wordBytes manifest.hash ++ StreamBuilder.resumeBytes manifest.resume) := by
  have hresume : writeResume manifest.resume = StreamBuilder.resumeBytes manifest.resume := by
    cases manifest.resume with
    | none => rfl
    | some r => simp only [writeResume, StreamBuilder.resumeBytes, writeUvarint, putUvarint_eq]
  simp only [writeManifestSection, hhash, hresume, writeUvarint, ← putUvarint_eq]
  exact if_neg hne

theorem rlp_ne_nil (h : HeadersLinked keccak256 blocks) : ∀ b ∈ blocks, b.rlp ≠ [] := by
  intro b hb hnil
  obtain ⟨parent, hparent⟩ := h.parsed b hb
  rw [hnil] at hparent
  cases hparent

theorem Holds.hash_ne (h : Holds keccak256 geth c) (hcount : c.blocks.length = c.manifest.block + 1) :
    c.manifest.hash ≠ 0 := by
  have hlast := h.blocks c.manifest.block (by omega)
  rw [← h.hash, hlast.hash]
  exact hlast.hash_ne

theorem fullSnapshot_eq {parallel : ℕ} {schedule : List ℕ} (hwf : c.WellFormed keccak256)
    (h : Holds keccak256 geth c) (hschedule : WalksFinish geth parallel schedule c.manifest.root) :
    ∃ ms, c.Marks ms ∧ fullSnapshot keccak256 geth parallel schedule
      ⟨c.manifest.block, c.manifest.root, c.manifest.stateId⟩ c.manifest.resume = .ok (c.build keccak256 ms) := by
  have hpoint : (⟨c.manifest.block, c.manifest.root, c.manifest.stateId⟩ : ConvertPoint).root = c.manifest.root := rfl
  obtain ⟨ms, hms, hstate⟩ := writeStateSection_eq hpoint (fun a ha hash hhash => (hwf.code a ha hash hhash).1) h hschedule
  refine ⟨ms, hms, ?_⟩
  rw [fullSnapshot, writeManifestSection_eq h.hash (h.hash_ne hwf.count),
    writeBlocksSection_eq hwf.count h.blocks (rlp_ne_nil hwf.linked), writeHistorySection_eq rfl hwf.objects h.history,
    hstate, Content.build, StreamBuilder.build_eq]
  simp only [bind, Except.bind, pure, Except.pure, StreamBuilder.start]
  simp

theorem Content.Marks.ofState {ms : Marked} (h : c.Marks ms) (hwf : c.WellFormed keccak256) :
    ∀ record ∈ ms.records c.code, record.OfState keccak256 := by
  intro record hrecord
  obtain ⟨⟨a, withCode⟩, hx, hrecord⟩ := List.mem_flatMap.mp hrecord
  have ha : a ∈ c.accounts := h.accounts ▸ List.mem_map_of_mem hx
  simp only [AccountContent.records, List.mem_cons, List.mem_append, List.mem_map] at hrecord
  obtain rfl | hrecord | ⟨slot, -, rfl⟩ := hrecord
  · exact hwf.nonce a ha
  · cases withCode with
    | false => cases hrecord
    | true =>
      obtain ⟨hash, hhash, rfl⟩ := Option.mem_map.mp (Option.mem_toList.mp hrecord)
      exact hwf.code a ha hash hhash
  · trivial

end agreement

/-- **Exporter and reader agree.**  Whatever the schedule of the walks, the exporter and the builder write the
same bytes for the content with the records of the state as they were written, and the reader hands out these
records. -/
theorem export_is_read_back {keccak256 : Bytes → B256} {geth : Geth} {c : Content} (hwf : c.WellFormed keccak256)
    (h : Holds keccak256 geth c) (parallel : ℕ) (schedule : List ℕ)
    (hschedule : WalksFinish geth parallel schedule c.manifest.root) :
    ∃ ms, c.Marks ms ∧ fullSnapshot keccak256 geth parallel schedule
        ⟨c.manifest.block, c.manifest.root, c.manifest.stateId⟩ c.manifest.resume = .ok (c.build keccak256 ms) ∧
      ∃ st, SnapshotStream.openStream (c.build keccak256 ms) = .ok st ∧ st.manifest = c.manifest ∧
        ∃ last, st.Delivers keccak256 (c.records keccak256 ms) last := by
  obtain ⟨ms, hms, hbytes⟩ := fullSnapshot_eq hwf h hschedule
  exact ⟨ms, hms, hbytes, build_delivers hwf.manifest hwf.count.le hwf.blocks hwf.linked hwf.objects hwf.below
    hwf.chained (hms.ofState hwf)⟩

/-- A header that has nothing but its parent hash. -/
def bareHeader (parent : B256) : Bytes := [0xe1, 0xa0] ++ wordBytes parent

def smallContent : Content where
  manifest := ⟨1, 9, 2, 34, some ⟨300, 4, 1⟩⟩
  blocks := [⟨bareHeader 0, none, none⟩, ⟨bareHeader 34, some [0xc0], none⟩]
  objects := [⟨2, 1, 8, 9, [⟨5, some ⟨3, 256, none⟩, [(6, 0)]⟩]⟩]
  accounts := [⟨7, 1, 1000, some 2, [(4, 77)]⟩, ⟨BitVec.ofNat 256 (2 ^ 255), 1, 1000, some 2, [(4, 77)]⟩]
  code := fun _ => [0x60, 0x00]

def smallHistory (id : ℕ) : Option RawHistory :=
  if id = 1 then some ⟨[0] ++ (wordBytes 0 ++ (wordBytes 8 ++ toBe 8 0)), [], [], [], []⟩
  else if id = 2 then
    some ⟨[1] ++ (wordBytes 8 ++ (wordBytes 9 ++ toBe 8 1)), (AccountEntry.mk 5 1 0 0 1).bytes,
      (SlotEntry.mk 6 0 0).bytes, [0xaa], []⟩
  else none

def smallGeth : Geth where
  readCanonicalHash n := if n ≤ 1 then 34 else 0
  readHeaderRlp _ n := if n = 0 then bareHeader 0 else bareHeader 34
  readBodyRlp _ n := if n = 1 then [0xc0] else []
  readReceiptsRlp _ _ := []
  readStateHistory := smallHistory
  readCode _ := [0x60, 0x00]
  accountTrie _ := some [(7, [0xbb]), (BitVec.ofNat 256 (2 ^ 255), [0xbb])]
  storageTrie _ _ _ := some [(4, [77])]
  decodeBytes b := some b
  decodeAccount _ := some ⟨1, 1000, 12, wordBytes 2⟩
  fullAccount _ := some ⟨3, 256, 11, wordBytes 0⟩
  emptyRootHash := 11

theorem smallContent_wellFormed : smallContent.WellFormed lengthHash where
  manifest := ⟨by decide, by decide, fun r hr => by obtain rfl := Option.some.inj hr; decide⟩
  count := rfl
  blocks := by
    intro b hb
    obtain rfl | rfl : b = ⟨bareHeader 0, none, none⟩ ∨ b = ⟨bareHeader 34, some [0xc0], none⟩ := by
      simpa [smallContent] using hb
    · exact ⟨by decide, by simp, by simp⟩
    · exact ⟨by decide, fun blob hblob => by obtain rfl := Option.some.inj hblob; decide, by simp⟩
  linked := by
    refine ⟨fun b hb => ?_, List.isChain_cons_cons.mpr ⟨by decide +kernel, .singleton _⟩⟩
    obtain rfl | rfl : b = ⟨bareHeader 0, none, none⟩ ∨ b = ⟨bareHeader 34, some [0xc0], none⟩ := by
      simpa [smallContent] using hb
    · exact ⟨wordBytes 0, by decide +kernel⟩
    · exact ⟨wordBytes 34, by decide +kernel⟩
  objects := by
    intro o ho
    obtain rfl := List.mem_singleton.mp ho
    exact ⟨by decide, by decide, by decide, by simp [u64Size], by simp [u64Size]⟩
  below := by
    intro o ho
    obtain rfl := List.mem_singleton.mp ho
    exact le_rfl
  chained := .singleton _
  nonce := by decide
  code := by
    intro a ha hash hhash
    obtain rfl : hash = 2 := by
      simp only [smallContent, List.mem_cons, List.not_mem_nil, or_false] at ha
      rcases ha with rfl | rfl <;> exact (Option.some.inj hhash).symm
    exact ⟨rfl, by decide⟩

theorem smallGeth_holds : Holds lengthHash smallGeth smallContent where
  hash := rfl
  blocks := by
    intro n hn
    obtain rfl | rfl : n = 0 ∨ n = 1 := by
      have : n < 2 := hn
      omega
    · change HoldsBlock lengthHash smallGeth 0 ⟨bareHeader 0, none, none⟩
      exact ⟨rfl, by decide, rfl, rfl, by decide, rfl, by decide⟩
    · change HoldsBlock lengthHash smallGeth 1 ⟨bareHeader 34, some [0xc0], none⟩
      exact ⟨rfl, by decide, rfl, rfl, by decide, rfl, by decide⟩
  history := by
    refine ⟨1, rfl, fun id hle hge => ?_, fun i hi => ?_⟩
    · obtain rfl : id = 1 := by omega
      exact ⟨_, rfl, by decide +kernel, by decide +kernel⟩
    · obtain rfl : i = 0 := by
        have : i < 1 := hi
        omega
      refine ⟨rfl, _, rfl, rfl, [⟨5, 1, 0, 0, 1⟩], [⟨6, 0, 0⟩], rfl, rfl, .cons ?_ .nil⟩
      refine ⟨rfl, by decide, ⟨by decide, _, rfl, rfl, rfl, rfl, by decide⟩, rfl, fun s hs => ?_⟩
      obtain rfl : s = 0 := by
        have : s < 1 := hs
        omega
      have hzero : some [] = some (numberBytes 0) := by decide +kernel
      exact ⟨_, rfl, rfl, by decide, hzero⟩
  state := by
    have hstorage (owner : B256) : HoldsStorage smallGeth 9 owner 12 [(4, 77)] := by
      rw [HoldsStorage, if_neg (by decide)]
      exact ⟨_, rfl, .cons ⟨rfl, by decide +kernel⟩ .nil⟩
    exact ⟨_, rfl, .cons ⟨rfl, _, rfl, ⟨rfl, rfl, rfl, by decide⟩, hstorage 7⟩
      (.cons ⟨rfl, _, rfl, ⟨rfl, rfl, rfl, by decide⟩, hstorage _⟩ .nil)⟩
  code := by
    intro a ha hash hhash
    exact ⟨rfl, List.cons_ne_nil _ _⟩

/-- Two walks: that of the second half of the keys comes first. -/
theorem export_is_read_back_small : ∃ ms, smallContent.Marks ms ∧
    fullSnapshot lengthHash smallGeth 2 [1, 0] ⟨1, 9, 2⟩ (some ⟨300, 4, 1⟩) = .ok (smallContent.build lengthHash ms) ∧
    ∃ st, SnapshotStream.openStream (smallContent.build lengthHash ms) = .ok st ∧ st.manifest = smallContent.manifest ∧
      ∃ last, st.Delivers lengthHash (smallContent.records lengthHash ms) last := by
  refine export_is_read_back smallContent_wellFormed smallGeth_holds 2 [1, 0] fun leaves hleaves i hi => ?_
  obtain rfl := Option.some.inj hleaves
  change i < 2 at hi
  interval_cases i <;> decide +kernel

end ArbReth.Snapshot
