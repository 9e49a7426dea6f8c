import ArbReth.Primitives
import ArbReth.Lib.Keyed
import ArbReth.Lib.Runs

/-! # Storage V2 persistence batches

Reth's Storage V2 keeps the state under hashed keys, while its unwind changesets keep plain slots.
`prepare_storage_v2_batch` (`arb-reth-engine/src/storage_v2.rs`) enriches a batch of executed blocks before
it is persisted: it records the plain slots that legacy blocks touch in a sidecar database, and completes
the reverts of accounts whose storage a legacy block wipes with the slots that the wipe erases.

Hash maps that the code iterates are ordered maps here, and its unstable sort is an insertion sort; the order shows only
in which of several errors is reported.  Reads of the database that fail are left out.  The sidecar is committed before the
reverts are completed, so a failure carries the sidecar it leaves behind. -/

namespace ArbReth.Storage

open ArbReth.Runs

abbrev U256 := BitVec 256

/-- `keccak256` of slots and of addresses. -/
structure Keccak where
  slot : B256 → B256
  address : Address → B256

/-! ### Blocks -/

/-- What a slot held before the block. -/
inductive RevertToSlot where
  | some (value : U256)
  | destroyed
deriving DecidableEq, Repr

structure AccountRevert where
  wipeStorage : Bool
  storage : Std.TreeMap B256 RevertToSlot

/-- Of the accounts of a bundle only the storage keys are read. -/
structure BundleState where
  state : List (List B256)
  reverts : List (List (Address × AccountRevert))

structure HashedStorageSorted where
  wiped : Bool
  storageSlots : List (B256 × U256)
deriving DecidableEq, Repr

/-- The hashed changes of a block.  Of an account only whether it exists after the block is read. -/
structure HashedPostStateSorted where
  accounts : List (B256 × Bool)
  storages : Std.TreeMap B256 HashedStorageSorted

/-- What decoding the Arbitrum fields of a header gives. -/
inductive ArbHeaderInfo where
  | undecodable
  | notArbitrum
  | arbitrum (arbosFormatVersion : ℕ)
deriving DecidableEq, Repr

structure Header where
  number : ℕ
  hash : B256
  parentHash : B256
  info : ArbHeaderInfo
deriving DecidableEq, Repr

structure ExecutedBlock where
  header : Header
  state : BundleState
  hashedState : HashedPostStateSorted

/-- The blocks whose state is to be persisted, followed by those that mask it, and the frontiers. -/
structure SaveBlocksInput where
  blocks : List ExecutedBlock
  prevDbTip : ℕ
  prevPartialStateTrie : ℕ
  newDbTip : ℕ
  newPartialStateTrie : ℕ

/-- The sidecar: plain slots by their hash. -/
abbrev SlotPreimages := B256 → Option B256

/-- The database as one read-only provider sees it. -/
structure Database where
  useHashedState : Bool
  lastBlockNumber : ℕ
  /-- The `Finish` checkpoint, with the frontier of the partial state trie if it has one. -/
  finishCheckpoint : Option (ℕ × Option ℕ)
  headerByNumber : ℕ → Option Header
  hashedStorages : B256 → Std.TreeMap B256 U256

inductive StorageError where
  | frontierCacheIncomplete (missing : String)
  | confirmedFrontiers (input confirmed : ℕ × ℕ)
  | durableTip (input durable : ℕ)
  | finishCheckpoint (input checkpoint : ℕ × ℕ)
  | missingFrontierHeader (number : ℕ)
  | durableBlockNumberOverflow
  | blockNumberOverflow
  | blockNumber (number expected tip : ℕ)
  | blockParent (number : ℕ) (parent expected : B256)
  | emptyBatch
  | blockZero
  | missingParentHeader (number : ℕ)
  | undecodableHeader (number : ℕ)
  | notArbitrum (number : ℕ)
  | conflictingPreimages (hashedSlot first second : B256)
  | corruptSidecar (hashedSlot expected found : B256)
  | storageNotLoaded (address : Address)
  | missingPreimage (hashedSlot : B256) (address : Address)
  | corruptPreimage (hashedSlot : B256) (address : Address)
deriving DecidableEq, Repr

/-! ### Validation -/

/-- The frontiers that the persistence service has confirmed: numbers and hashes. -/
structure PersistenceFrontiers where
  lastBlock : Option (ℕ × B256)
  lastStateTrieBlock : Option (ℕ × B256)

def PersistenceFrontiers.stateTrieParent (f : PersistenceFrontiers) (prevDbTip prevPartialStateTrie : ℕ) :
    Except StorageError B256 :=
  match f.lastBlock, f.lastStateTrieBlock with
  | none, _ => .error (.frontierCacheIncomplete "database tip")
  | some _, none => .error (.frontierCacheIncomplete "state/trie tip")
  | some block, some stateTrie =>
    if (block.1, stateTrie.1) ≠ (prevDbTip, prevPartialStateTrie) then
      .error (.confirmedFrontiers (prevDbTip, prevPartialStateTrie) (block.1, stateTrie.1))
    else .ok stateTrie.2

def readDurablePersistenceFrontier (db : Database) (prevDbTip prevPartialStateTrie : ℕ) :
    Except StorageError B256 :=
  if db.lastBlockNumber ≠ prevDbTip then .error (.durableTip prevDbTip db.lastBlockNumber)
  else
    let checkpoint := (db.finishCheckpoint.map fun c => (c.1, c.2.getD c.1)).getD (0, 0)
    if checkpoint ≠ (prevDbTip, prevPartialStateTrie) then
      .error (.finishCheckpoint (prevDbTip, prevPartialStateTrie) checkpoint)
    else
      (db.headerByNumber prevPartialStateTrie).elim (.error (.missingFrontierHeader prevPartialStateTrie))
        fun header => .ok header.hash

/-- Two attempts, each with a provider of its own. -/
def readBootstrapPersistenceFrontier (first second : Database) (prevDbTip prevPartialStateTrie : ℕ) :
    Except StorageError B256 :=
  match readDurablePersistenceFrontier first prevDbTip prevPartialStateTrie with
  | .ok parent => .ok parent
  | .error _ => readDurablePersistenceFrontier second prevDbTip prevPartialStateTrie

/-- The blocks follow each other, from the number and the parent that are expected. -/
def validateBlocksFrom (tip : ℕ) : ℕ → B256 → List ExecutedBlock → Except StorageError Unit
  | _, _, [] => .ok ()
  | expectedNumber, expectedParent, block :: blocks =>
    if block.header.number ≠ expectedNumber then .error (.blockNumber block.header.number expectedNumber tip)
    else if block.header.parentHash ≠ expectedParent then
      .error (.blockParent block.header.number block.header.parentHash expectedParent)
    else if u64Size ≤ expectedNumber + 1 then .error .blockNumberOverflow
    else validateBlocksFrom tip (expectedNumber + 1) block.header.hash blocks

def validatePersistenceBlocks (blocks : List ExecutedBlock) (prevPartialStateTrie : ℕ) (expectedParent : B256) :
    Except StorageError Unit :=
  if u64Size ≤ prevPartialStateTrie + 1 then .error .durableBlockNumberOverflow
  else validateBlocksFrom prevPartialStateTrie (prevPartialStateTrie + 1) expectedParent blocks

/-- The providers that a call opens, in order: its own, and those of the bootstrap attempts. -/
structure ProviderFactory where
  provider : Database
  first : Database
  second : Database

def validatePersistenceBatch (factory : ProviderFactory) (frontiers : PersistenceFrontiers)
    (blocks : List ExecutedBlock) (prevDbTip prevPartialStateTrie : ℕ) : Except StorageError Unit := do
  let expectedParent ←
    (if frontiers.lastStateTrieBlock.isSome then frontiers.stateTrieParent prevDbTip prevPartialStateTrie
    else readBootstrapPersistenceFrontier factory.first factory.second prevDbTip prevPartialStateTrie)
  validatePersistenceBlocks blocks prevPartialStateTrie expectedParent

/-- Whether the child of a header runs under an ArbOS version before 20. -/
def legacyChild (parent : Header) : Except StorageError Bool :=
  match parent.info with
  | .undecodable => .error (.undecodableHeader parent.number)
  | .notArbitrum => .error (.notArbitrum parent.number)
  | .arbitrum version => .ok (decide (version < 20))

def legacyFlagsFrom : Header → List ExecutedBlock → Except StorageError (List Bool)
  | _, [] => .ok []
  | parent, block :: blocks => do
    let isLegacy ← legacyChild parent
    let flags ← legacyFlagsFrom block.header blocks
    .ok (isLegacy :: flags)

/-- The source panics on an empty batch. -/
def legacyBlockFlags (db : Database) : List ExecutedBlock → Except StorageError (List Bool)
  | [] => .error .emptyBatch
  | block :: blocks =>
    if block.header.number = 0 then .error .blockZero
    else
      match db.headerByNumber (block.header.number - 1) with
      | none => .error (.missingParentHeader (block.header.number - 1))
      | some parent => legacyFlagsFrom parent (block :: blocks)

/-! ### Slot preimages -/

/-- The plain slots that a block names, in the storage of its accounts and in its reverts. -/
def BundleState.plainSlots (s : BundleState) : List B256 :=
  s.state.flatten ++ s.reverts.flatten.flatMap (fun r => r.2.storage.keys)

def collectSlotPreimages (K : Keccak) (blocks : List (ExecutedBlock × Bool)) : List (B256 × B256) :=
  blocks.flatMap fun b => if b.2 then b.1.state.plainSlots.map (fun slot => (K.slot slot, slot)) else []

/-- Two neighbours with one hash and different slots. -/
def firstConflict : List (B256 × B256) → Option ((B256 × B256) × (B256 × B256))
  | a :: b :: entries => if a.1 = b.1 ∧ a.2 ≠ b.2 then some (a, b) else firstConflict (b :: entries)
  | _ => none

/-- Drop the entries whose hash is that of the entry before. -/
def dedupFrom : B256 → List (B256 × B256) → List (B256 × B256)
  | _, [] => []
  | key, e :: entries => if e.1 = key then dedupFrom key entries else e :: dedupFrom e.1 entries

def dedupByKey : List (B256 × B256) → List (B256 × B256)
  | [] => []
  | e :: entries => e :: dedupFrom e.1 entries

/-- The entries that the sidecar does not have; one that it has must agree. -/
def missingPreimages (preimages : SlotPreimages) :
    List (B256 × B256) → Except StorageError (List (B256 × B256))
  | [] => .ok []
  | (hashedSlot, plainSlot) :: entries =>
    match preimages hashedSlot with
    | none => do
      let missing ← missingPreimages preimages entries
      .ok ((hashedSlot, plainSlot) :: missing)
    | some existing =>
      if existing = plainSlot then missingPreimages preimages entries
      else .error (.corruptSidecar hashedSlot plainSlot existing)

/-- The sidecar with the preimages of the legacy blocks. -/
def recordPreimages (K : Keccak) (blocks : List (ExecutedBlock × Bool)) (preimages : SlotPreimages) :
    Except StorageError SlotPreimages :=
  let entries := (collectSlotPreimages K blocks).insertionSort (fun a b => a.1 ≤ b.1)
  match firstConflict entries with
  | some (first, second) => .error (.conflictingPreimages first.1 first.2 second.2)
  | none => do
    let missing ← missingPreimages preimages (dedupByKey entries)
    .ok (Keyed.setAll preimages missing)

/-! ### Wipes -/

/-- The addresses whose storage the block wipes. -/
def wipedStorageAddresses (s : BundleState) : List Address :=
  s.reverts.flatten.filterMap fun r => if r.2.wipeStorage then some r.1 else none

def blockHasStorageWipe (block : ExecutedBlock) : Bool := !(wipedStorageAddresses block.state).isEmpty

def collectWipeAddresses (blocks : List (ExecutedBlock × Bool)) : List Address :=
  (blocks.flatMap fun b => if b.2 then wipedStorageAddresses b.1.state else []).eraseDups

structure TrackedStorage where
  address : Address
  slots : Std.TreeMap B256 U256

/-- The storage of the accounts that the batch wipes, by hashed address. -/
abbrev Tracked := B256 → Option TrackedStorage

def loadWipedAccountStorage (K : Keccak) (db : Database) (addresses : List Address) : Tracked :=
  Keyed.setAll (fun _ => none)
    (addresses.map fun address => (K.address address, ⟨address, db.hashedStorages (K.address address)⟩))

/-- One slot that the wipe erases.  A value that the revert already has stays. -/
def injectSlot (K : Keccak) (preimages : SlotPreimages) (address : Address)
    (storage : Std.TreeMap B256 RevertToSlot) (slot : B256 × U256) :
    Except StorageError (Std.TreeMap B256 RevertToSlot) :=
  match preimages slot.1 with
  | none => .error (.missingPreimage slot.1 address)
  | some plainSlot =>
    if K.slot plainSlot ≠ slot.1 then .error (.corruptPreimage slot.1 address)
    else
      match storage[plainSlot]? with
      | some (.some value) => .ok (storage.insert plainSlot (.some value))
      | _ => .ok (storage.insert plainSlot (.some slot.2))

def injectAccount (K : Keccak) (tracked : Tracked) (preimages : SlotPreimages)
    (r : Address × AccountRevert) : Except StorageError (Address × AccountRevert) :=
  if r.2.wipeStorage then
    match tracked (K.address r.1) with
    | none => .error (.storageNotLoaded r.1)
    | some current => do
      let storage ← run (injectSlot K preimages r.1) r.2.storage current.slots.toList
      .ok (r.1, { r.2 with storage })
  else .ok r

def injectPlainWipeReverts (K : Keccak) (tracked : Tracked) (preimages : SlotPreimages)
    (reverts : List (List (Address × AccountRevert))) :
    Except StorageError (List (List (Address × AccountRevert))) :=
  reverts.mapM fun transition => transition.mapM (injectAccount K tracked preimages)

def markWiped (storages : Std.TreeMap B256 HashedStorageSorted) (hashedAddress : B256) :
    Std.TreeMap B256 HashedStorageSorted :=
  storages.insert hashedAddress
    (match storages[hashedAddress]? with
    | some storage => { storage with wiped := true }
    | none => ⟨true, []⟩)

/-- The hashed changes with every wipe of the reverts marked. -/
def markHashedStorageWipes (K : Keccak) (block : ExecutedBlock) : HashedPostStateSorted :=
  { block.hashedState with
    storages := ((wipedStorageAddresses block.state).map K.address).foldl markWiped block.hashedState.storages }

def HashedStorageSorted.apply (storage : HashedStorageSorted) (slots : Std.TreeMap B256 U256) :
    Std.TreeMap B256 U256 :=
  storage.storageSlots.foldl (fun slots e => if e.2 = 0 then slots.erase e.1 else slots.insert e.1 e.2)
    (if storage.wiped then ∅ else slots)

/-- The slots of one account after a block. -/
def HashedPostStateSorted.apply (updates : HashedPostStateSorted) (hashedAddress : B256)
    (slots : Std.TreeMap B256 U256) : Std.TreeMap B256 U256 :=
  if updates.accounts.any (fun a => decide (a.1 = hashedAddress) && !a.2) then ∅
  else
    match updates.storages[hashedAddress]? with
    | none => slots
    | some storage => storage.apply slots

/-- Both loops of the source treat each account by itself. -/
def applyHashedUpdates (tracked : Tracked) (updates : HashedPostStateSorted) : Tracked := fun hashedAddress =>
  (tracked hashedAddress).map fun current =>
    { current with slots := updates.apply hashedAddress current.slots }

/-- One block of the wipe loop. -/
def enrichBlock (K : Keccak) (preimages : SlotPreimages) (tracked : Tracked) (b : ExecutedBlock × Bool) :
    Except StorageError ExecutedBlock :=
  if b.2 && blockHasStorageWipe b.1 then do
    let reverts ← injectPlainWipeReverts K tracked preimages b.1.state.reverts
    .ok
      { b.1 with
        state := { b.1.state with reverts }
        hashedState := markHashedStorageWipes K b.1 }
  else .ok b.1

def enrichBlocks (K : Keccak) (preimages : SlotPreimages) :
    Tracked → List (ExecutedBlock × Bool) → Except StorageError (List ExecutedBlock)
  | _, [] => .ok []
  | tracked, b :: blocks => do
    let block ← enrichBlock K preimages tracked b
    let rest ← enrichBlocks K preimages (applyHashedUpdates tracked block.hashedState) blocks
    .ok (block :: rest)

/-! ### The batch -/

/-- The batch with completed reverts, and the sidecar; a failure comes with the sidecar as well. -/
def prepareStorageV2Batch (K : Keccak) (factory : ProviderFactory) (frontiers : PersistenceFrontiers)
    (input : SaveBlocksInput) (preimages : SlotPreimages) :
    Except (StorageError × SlotPreimages) (SaveBlocksInput × SlotPreimages) :=
  if factory.provider.useHashedState = false then .ok (input, preimages)
  else do
    (validatePersistenceBatch factory frontiers input.blocks input.prevDbTip input.prevPartialStateTrie).mapError
      (·, preimages)
    let legacy ← (legacyBlockFlags factory.provider input.blocks).mapError (·, preimages)
    if !legacy.any id then .ok (input, preimages)
    else do
      let blocks := input.blocks.zip legacy
      let preimages ← (recordPreimages K blocks preimages).mapError (·, preimages)
      let addresses := collectWipeAddresses blocks
      if addresses.isEmpty then .ok (input, preimages)
      else do
        let tracked := loadWipedAccountStorage K factory.provider addresses
        let blocks ← (enrichBlocks K preimages tracked blocks).mapError (·, preimages)
        .ok ({ input with blocks }, preimages)

end ArbReth.Storage
