import ArbReth.Snapshot.Blocks
import ArbReth.Snapshot.History
import ArbReth.Sync.ResumeLog

/-! # The commands that import a full snapshot

`snapshot import-full` (`commands/snapshot_full.rs`) takes a stream into an empty datadir: blocks, history and state, each
committed in batches; then it computes the state root, renames the changeset files, and finalizes.  `snapshot finalize`
is for a datadir whose import has stopped after its state root.  It takes the convert point from the headers and the
first block of the history from the file names, and runs the same final steps.

A datadir is a durable state, and a command is a program over it that can be cut at every write.  The completion manifest
is the last thing written. -/

namespace ArbReth.Snapshot

open ArbReth.Codec (Bytes)
open ArbReth.Durable
open ArbReth.Runs (mapError_ok)
open ArbReth.Storage (U256)
open ArbReth.Sync (L1ResumeLog)

/-! ### The state section -/

/-- The tables `HashedAccounts`, `HashedStorages` and `Bytecodes`.  The second one has a set of slots for every account. -/
structure HashedState where
  accounts : B256 → Option PreviousAccount
  storages : List (B256 × B256 × U256)
  bytecodes : B256 → Option Bytes

def HashedState.empty : HashedState := ⟨fun _ => none, [], fun _ => none⟩

def HashedState.putAccount (s : HashedState) (hashedAddress : B256) (account : PreviousAccount) : HashedState :=
  { s with accounts := Function.update s.accounts hashedAddress (some account) }

def HashedState.upsertSlot (s : HashedState) (owner hashedSlot : B256) (value : U256) : HashedState :=
  { s with storages := if (owner, hashedSlot, value) ∈ s.storages then s.storages
      else s.storages ++ [(owner, hashedSlot, value)] }

def HashedState.putCode (s : HashedState) (hash : B256) (code : Bytes) : HashedState :=
  { s with bytecodes := Function.update s.bytecodes hash (some code) }

structure StateSectionStats where
  accounts : ℕ
  slots : ℕ
  bytecodes : ℕ
deriving DecidableEq, Repr

inductive StateError where
  | stream (e : StreamError)
  | slotBeforeAccount (hashedSlot : B256)
  | unexpectedRecord (record : Record)
  | empty
  | missingCode (hash : B256)
deriving DecidableEq, Repr

/-- The variables of `write_state`; `tx` are the tables as the open transaction sees them. -/
structure StateWriter where
  tx : HashedState
  written : ℕ
  account : Option B256
  wanted : List B256
  provided : List B256
  stats : StateSectionStats

namespace StateWriter

def start (s : HashedState) : StateWriter := ⟨s, 0, none, [], [], ⟨0, 0, 0⟩⟩

def putAccount (w : StateWriter) (hashedAddress : B256) (nonce : ℕ) (balance : U256) (codeHash : Option B256) :
    StateWriter :=
  { w with
    tx := w.tx.putAccount hashedAddress ⟨nonce, balance, codeHash⟩
    wanted := w.wanted ++ codeHash.toList
    account := some hashedAddress
    stats := { w.stats with accounts := w.stats.accounts + 1 }
    written := w.written + 1 }

def upsertSlot (w : StateWriter) (owner hashedSlot : B256) (value : U256) : StateWriter :=
  { w with
    tx := w.tx.upsertSlot owner hashedSlot value
    stats := { w.stats with slots := w.stats.slots + 1 }
    written := w.written + 1 }

def putCode (w : StateWriter) (hash : B256) (code : Bytes) : StateWriter :=
  { w with
    tx := w.tx.putCode hash code
    provided := w.provided ++ [hash]
    stats := { w.stats with bytecodes := w.stats.bytecodes + 1 }
    written := w.written + 1 }

def commit (w : StateWriter) : Prog HashedState StateError StateWriter := do
  Prog.write fun _ => w.tx
  return { w with written := 0 }

def commitFull (threshold : ℕ) (w : StateWriter) : Prog HashedState StateError StateWriter :=
  if threshold ≤ w.written then w.commit else pure w

/-- What is checked at the end of the section. -/
def checkEnd (w : StateWriter) : Except StateError Unit :=
  if w.stats.accounts = 0 then .error .empty
  else
    match w.wanted.find? (· ∉ w.provided) with
    | some hash => .error (.missingCode hash)
    | none => .ok ()

end StateWriter

def writeStateRecords (threshold : ℕ) (ending : Option StreamError) :
    List Record → StateWriter → Prog HashedState StateError StateWriter
  | [], w => do
    let w ← w.commitFull threshold
    match ending with
    | some e => Prog.fail (.stream e)
    | none => w.commit
  | record :: records, w => do
    let w ← w.commitFull threshold
    match record with
    | .account hashedAddress nonce balance codeHash =>
      writeStateRecords threshold ending records (w.putAccount hashedAddress nonce balance codeHash)
    | .storage hashedSlot value =>
      match w.account with
      | none => Prog.fail (.slotBeforeAccount hashedSlot)
      | some owner =>
        -- a zero slot is absent from the trie
        if value = 0 then writeStateRecords threshold ending records w
        else writeStateRecords threshold ending records (w.upsertSlot owner hashedSlot value)
    | .code hash code => writeStateRecords threshold ending records (w.putCode hash code)
    | record => Prog.fail (.unexpectedRecord record)

def writeState (threshold : ℕ) (src : Source) : Prog HashedState StateError StateSectionStats := do
  let s ← Prog.get
  let w ← writeStateRecords threshold src.ending src.records (.start s)
  Prog.ofExcept w.checkEnd
  return w.stats

/-! ### The datadir -/

/-- A file that is written in place; a crash can leave it torn. -/
inductive FileState (α : Type) where
  | torn
  | whole (content : α)
deriving DecidableEq, Repr

/-- A segment file: the block range in its header, and the one in the name of each of its parts. -/
structure SegmentFile where
  header : ℕ × ℕ
  data : ℕ × ℕ
  conf : ℕ × ℕ
  off : ℕ × ℕ
  csoff : ℕ × ℕ
deriving DecidableEq, Repr

/-- reth's `DEFAULT_BLOCKS_PER_STATIC_FILE`. -/
def blocksPerFile : ℕ := 500000

/-- A file is named after its slot.  Only the first one has a header that starts later, at `expectedBlockStart`. -/
def segmentFile (lo i : ℕ) : SegmentFile :=
  let slot := (lo / blocksPerFile + i) * blocksPerFile
  let name := (slot, slot + blocksPerFile - 1)
  ⟨(max lo slot, slot + blocksPerFile - 1), name, name, name, name⟩

/-- The files that hold some entries. -/
def segmentFiles {α : Type} (expectedBlockStart : Option ℕ) (entries : List (ℕ × α)) : List SegmentFile :=
  match expectedBlockStart, entries.getLast? with
  | some lo, some (hi, _) => (List.range (hi / blocksPerFile - lo / blocksPerFile + 1)).map (segmentFile lo)
  | _, _ => []

/-- The stages whose indices are built at the end. -/
inductive IndexStage where
  | senderRecovery
  | transactionLookup
  | indexAccountHistory
  | indexStorageHistory
deriving DecidableEq, Repr

/-- The rows of the tables of a stage. -/
abbrev IndexRows : Type := List (Bytes × Bytes)

/-- What a stage reports after a batch of its work. -/
structure ExecOutput where
  checkpoint : ℕ
  done : Bool
deriving DecidableEq, Repr

/-- `snapshot-import.json`, whose presence says that an import is complete. -/
structure SnapshotImportManifest where
  blockNumber : ℕ
  blockHash : B256
  stateRoot : B256
deriving DecidableEq, Repr

/-- A head, with the hash of its header encoded again. -/
structure SnapshotHead where
  number : ℕ
  hash : B256
  header : Header
  hashSlow : B256
deriving DecidableEq, Repr

structure Datadir (Tx Receipt : Type) where
  /-- The directories `static_files` and `rocksdb` exist. -/
  directories : Bool
  /-- The database in `db` exists. -/
  database : Bool
  blocks : BlockStore Tx Receipt
  changesets : Changesets
  accountFiles : List SegmentFile
  storageFiles : List SegmentFile
  state : HashedState
  indices : IndexStage → IndexRows
  /-- The checkpoint of all stages. -/
  checkpoints : Option ℕ
  /-- The last block without account and storage history, by the prune checkpoints. -/
  historyBoundary : Option ℕ
  resumeLog : Option (FileState L1ResumeLog)
  importManifest : Option (FileState SnapshotImportManifest)
  /-- The database of slot preimages in `db/preimage` exists. -/
  preimages : Bool
  /-- Its manifest, if there is one: whether it is valid. -/
  preimageManifest : Option Bool

variable {Tx Receipt : Type}

namespace Datadir

/-- The directories are created, and with them the static files, without any entry. -/
def createDirectories (d : Datadir Tx Receipt) : Datadir Tx Receipt :=
  { d with
    directories := true
    blocks := ⟨none, [], []⟩
    changesets := ⟨none, [], []⟩
    accountFiles := []
    storageFiles := [] }

/-- The database is created, without any row. -/
def createDatabase (d : Datadir Tx Receipt) : Datadir Tx Receipt :=
  { d with
    database := true
    state := .empty
    indices := fun _ => []
    checkpoints := none
    historyBoundary := none }

/-- An empty target, with or without slot preimages. -/
def target (preimages : Bool) (preimageManifest : Option Bool) : Datadir Tx Receipt where
  directories := false
  database := false
  blocks := ⟨none, [], []⟩
  changesets := ⟨none, [], []⟩
  accountFiles := []
  storageFiles := []
  state := .empty
  indices := fun _ => []
  checkpoints := none
  historyBoundary := none
  resumeLog := none
  importManifest := none
  preimages := preimages
  preimageManifest := preimageManifest

def blocksPart : Durable.Part (Datadir Tx Receipt) (BlockStore Tx Receipt) where
  view d := d.blocks
  put d blocks := { d with blocks := blocks }
  view_put _ _ := rfl
  put_put _ _ _ := rfl

/-- The changesets and the files that they are in. -/
def changesetsPart : Durable.Part (Datadir Tx Receipt) Changesets where
  view d := d.changesets
  put d c := { d with
    changesets := c
    accountFiles := segmentFiles c.expectedBlockStart c.accounts
    storageFiles := segmentFiles c.expectedBlockStart c.storage }
  view_put _ _ := rfl
  put_put _ _ _ := rfl

def indexPart (stage : IndexStage) : Durable.Part (Datadir Tx Receipt) IndexRows where
  view d := d.indices stage
  put d rows := { d with indices := Function.update d.indices stage rows }
  view_put _ _ := Function.update_self ..
  put_put _ _ _ := by simp

def statePart : Durable.Part (Datadir Tx Receipt) HashedState where
  view d := d.state
  put d state := { d with state := state }
  view_put _ _ := rfl
  put_put _ _ _ := rfl

end Datadir

inductive ImportError where
  | staleResume
  | manifestExists
  | databaseExists
  | remove
  | stream (e : StreamError)
  | blocks (e : BlockError)
  | history (e : HistoryError)
  | state (e : StateError)
  | historyBelowBlocks (history blocks : ℕ)
  | stateRoot (root expected : B256)
  | stage (stage : IndexStage)
  | missingHeader (block : ℕ)
  | headHash (block : ℕ) (hash expected : B256)
  | resumeAboveConvertPoint (l2Block block : ℕ)
  | manifestMismatch
  | invalidHead
  | alreadyFinished
  | noSegments
  | noHeaders
  | unexpectedStateRoot (root expected : B256)
  | arbosVersion
  | unsupportedSnapshot (block : ℕ)
  | missingPreimages
  | preimageManifest
  | incomplete
  | unreadable
deriving DecidableEq, Repr

/-- What the import takes from elsewhere. -/
structure Importer (Tx Receipt : Type) extends BlockCodec Tx Receipt where
  keccak256 : Bytes → B256
  /-- The hash of a header that is encoded again. -/
  hashSlow : PendingBlock Tx Receipt → B256
  /-- The root of the trie over the hashed state. -/
  stateRoot : HashedState → B256
  /-- One batch of a stage of reth on its way to a block, from a checkpoint. -/
  execute : IndexStage → ℕ → Option ℕ → BlockStore Tx Receipt → Changesets → IndexRows → Option (IndexRows × ExecOutput)
  /-- A stage that is not done has come closer to the block. -/
  advances : ∀ {stage target checkpoint blocks changesets rows rows' output},
    execute stage target checkpoint blocks changesets rows = some (rows', output) → output.done = false →
      target - output.checkpoint < target - checkpoint.getD 0

/-- `BLOCK_BATCH`, `TX_BATCH`, `CHANGESET_BATCH` and `STATE_COMMIT_THRESHOLD`. -/
def blockBatch : ℕ := 4000
def txBatch : ℕ := 50000
def changesetBatch : ℕ := 250000
def stateCommitThreshold : ℕ := 250000

abbrev ImportProg (Tx Receipt α : Type) : Type := Prog (Datadir Tx Receipt) ImportError α

/-! ### Up to the state root -/

/-- What stands in the way of an import.  A database of slot preimages does not. -/
def Datadir.checkFresh (d : Datadir Tx Receipt) : Except ImportError Unit :=
  if d.resumeLog.isSome then .error .staleResume
  else if d.importManifest.isSome then .error .manifestExists
  else if d.database then .error .databaseExists
  else if d.directories then .error .remove
  else .ok ()

def ensureFreshImportTarget : ImportProg Tx Receipt Unit := do
  let d ← Prog.get
  Prog.ofExcept d.checkFresh

def openFactory : ImportProg Tx Receipt Unit := Prog.write fun d => if d.database then d else d.createDatabase

section commands
variable (X : Importer Tx Receipt)

def checkStateRoot (expected : B256) : ImportProg Tx Receipt Unit := do
  let d ← Prog.get
  Prog.require (X.stateRoot d.state = expected) (.stateRoot (X.stateRoot d.state) expected)

/-- The sections of the stream, with the first block of the history. -/
def writeSections (src : Source) : ImportProg Tx Receipt ℕ := do
  let (blocks, src) ← (writeBlocks X.toBlockCodec blockBatch txBatch src).zoom Datadir.blocksPart .blocks
  let (history, src) ← (writeHistory changesetBatch src).zoom Datadir.changesetsPart .history
  Prog.require (blocks.firstBlock ≤ history.firstBlock) (.historyBelowBlocks history.firstBlock blocks.firstBlock)
  let _ ← (writeState stateCommitThreshold src).zoom Datadir.statePart .state
  return history.firstBlock

/-- `import_full` up to and with its check of the state root. -/
def loadSnapshot (bytes : Bytes) : ImportProg Tx Receipt (Manifest × ℕ) := do
  ensureFreshImportTarget
  let st ← Prog.ofExcept ((SnapshotStream.openStream bytes).mapError .stream)
  Prog.write Datadir.createDirectories
  openFactory
  let historyFrom ← writeSections X (st.source X.keccak256)
  checkStateRoot X st.manifest.root
  return (st.manifest, historyFrom)

end commands

/-! ### From the state root on -/

/-- The states of a file while its parts are renamed to the range in its header. -/
def SegmentFile.renames (f : SegmentFile) : List SegmentFile :=
  if f.data = f.header then []
  else
    [{ f with data := f.header }, { f with data := f.header, conf := f.header },
      { f with data := f.header, conf := f.header, off := f.header },
      { f with data := f.header, conf := f.header, off := f.header, csoff := f.header }]

/-- The states of a directory while its files are renamed one after the other. -/
def renameStates : List SegmentFile → List (List SegmentFile)
  | [] => []
  | f :: files => f.renames.map (· :: files) ++ (renameStates files).map (f.renames.getLastD f :: ·)

def renameChangesetFilesToHeader : ImportProg Tx Receipt Unit := do
  Prog.writeAll fun d => (renameStates d.accountFiles).map fun files => { d with accountFiles := files }
  Prog.writeAll fun d => (renameStates d.storageFiles).map fun files => { d with storageFiles := files }

section commands
variable (X : Importer Tx Receipt)

/-- The loop of `run_stage`, with a commit after each batch. -/
def executeStage (stage : IndexStage) (target : ℕ) (blocks : BlockStore Tx Receipt) (changesets : Changesets)
    (checkpoint : Option ℕ) : Prog IndexRows ImportError Unit := fun rows =>
  match _h : X.execute stage target checkpoint blocks changesets rows with
  | none => ⟨[], .error (.stage stage)⟩
  | some (rows', output) =>
    if _hdone : output.done = true then ⟨[rows'], .ok ()⟩
    else
      let later := executeStage stage target blocks changesets (some output.checkpoint) rows'
      ⟨rows' :: later.writes, later.result⟩
termination_by target - checkpoint.getD 0
decreasing_by exact X.advances _h (Bool.eq_false_of_not_eq_true _hdone)

/-- A stage starts without a checkpoint, also where an index exists. -/
def runStage (stage : IndexStage) (target : ℕ) : ImportProg Tx Receipt Unit := do
  let d ← Prog.get
  (executeStage X stage target d.blocks d.changesets none).zoom (Datadir.indexPart stage) id

def Datadir.sealedHeader (d : Datadir Tx Receipt) (block : ℕ) : Except ImportError (PendingBlock Tx Receipt) :=
  match d.blocks.blocks.find? (·.number = block) with
  | some head => .ok head
  | none => .error (.missingHeader block)

/-- The prune checkpoints for a history that starts at a block; the old ones stay if nothing is missing. -/
def historyBoundary (historyFrom : ℕ) (old : Option ℕ) : Option ℕ :=
  if historyFrom = 0 then old else some (historyFrom - 1)

/-- The log with the boundary that the stream carries. -/
def resumeLogOf (resume : ResumePoint) : L1ResumeLog := ⟨[⟨resume.l1Block, resume.delayedCount, resume.l2Block⟩]⟩

def writeResumeLog (manifest : Manifest) : ImportProg Tx Receipt Unit :=
  match manifest.resume with
  | none => pure ()
  | some resume => do
    Prog.require (resume.l2Block ≤ manifest.block) (.resumeAboveConvertPoint resume.l2Block manifest.block)
    Prog.write fun d => { d with resumeLog := some .torn }
    Prog.write fun d => { d with resumeLog := some (.whole (resumeLogOf resume)) }

/-- The completion manifest for a head. -/
def SnapshotHead.manifest (head : SnapshotHead) : SnapshotImportManifest :=
  ⟨head.number, head.hash, head.header.stateRoot⟩

def validateSnapshotImportManifest (manifest : SnapshotImportManifest) (head : SnapshotHead) : Except ImportError Unit :=
  if manifest ≠ head.manifest then .error .manifestMismatch
  else if head.header.number ≠ head.number ∨ head.hashSlow ≠ head.hash then .error .invalidHead
  else .ok ()

/-- The file is created, so it must not exist. -/
def writeSnapshotImportManifest (head : SnapshotHead) : ImportProg Tx Receipt Unit := do
  Prog.ofExcept (validateSnapshotImportManifest head.manifest head)
  let d ← Prog.get
  Prog.require (d.importManifest = none) .manifestExists
  Prog.write fun d => { d with importManifest := some .torn }
  Prog.write fun d => { d with importManifest := some (.whole head.manifest) }

def finalize (manifest : Manifest) (historyFrom : ℕ) : ImportProg Tx Receipt Unit := do
  runStage X .senderRecovery manifest.block
  runStage X .transactionLookup manifest.block
  runStage X .indexAccountHistory manifest.block
  runStage X .indexStorageHistory manifest.block
  let d ← Prog.get
  let head ← Prog.ofExcept (d.sealedHeader manifest.block)
  Prog.require (head.hash = manifest.hash) (.headHash manifest.block head.hash manifest.hash)
  Prog.write fun d => { d with
    checkpoints := some manifest.block
    historyBoundary := historyBoundary historyFrom d.historyBoundary }
  writeResumeLog manifest
  writeSnapshotImportManifest ⟨manifest.block, head.hash, head.header, X.hashSlow head⟩

/-- `import_full` after its check of the state root. -/
def finishImport (manifest : Manifest) (historyFrom : ℕ) : ImportProg Tx Receipt Unit := do
  renameChangesetFilesToHeader
  finalize X manifest historyFrom

def importFull (bytes : Bytes) : ImportProg Tx Receipt Unit := do
  let (manifest, historyFrom) ← loadSnapshot X bytes
  finishImport X manifest historyFrom

/-- The lowest start in the names of the account changeset files. -/
def Datadir.lowestChangesetBlock (d : Datadir Tx Receipt) : Except ImportError ℕ :=
  match (d.accountFiles.map fun f => f.data.1).min? with
  | some lowest => .ok lowest
  | none => .error .noSegments

def Datadir.highestHeader (d : Datadir Tx Receipt) : Except ImportError ℕ :=
  match d.blocks.blocks.getLast? with
  | some b => .ok b.number
  | none => .error .noHeaders

def finalizeDatadir : ImportProg Tx Receipt Unit := do
  let d ← Prog.get
  Prog.require (d.importManifest = none) .alreadyFinished
  let historyFrom ← Prog.ofExcept d.lowestChangesetBlock
  openFactory
  let d ← Prog.get
  let block ← Prog.ofExcept d.highestHeader
  let head ← Prog.ofExcept (d.sealedHeader block)
  finalize X ⟨block, head.header.stateRoot, 0, head.hash, none⟩ historyFrom

end commands

/-! ### What the final steps do -/

section finalizing
variable {X : Importer Tx Receipt} {d t : Datadir Tx Receipt} {manifest : Manifest} {historyFrom : ℕ}
  {head : PendingBlock Tx Receipt}

/-- What a stage does on a datadir. -/
def Importer.stageRun (X : Importer Tx Receipt) (target : ℕ) (d : Datadir Tx Receipt) (stage : IndexStage) :
    Outcome IndexRows ImportError Unit :=
  executeStage X stage target d.blocks d.changesets none (d.indices stage)

/-- The index that a stage leaves. -/
def Importer.index (X : Importer Tx Receipt) (target : ℕ) (d : Datadir Tx Receipt) (stage : IndexStage) : IndexRows :=
  (X.stageRun target d stage).final (d.indices stage)

/-- What the final steps can have changed when they are cut. -/
structure Finalizing (X : Importer Tx Receipt) (manifest : Manifest) (historyFrom : ℕ) (d t : Datadir Tx Receipt) :
    Prop where
  rest : t = { d with
    indices := t.indices
    checkpoints := t.checkpoints
    historyBoundary := t.historyBoundary
    resumeLog := t.resumeLog
    importManifest := t.importManifest }
  indices : ∀ stage, t.indices stage ∈ d.indices stage :: (X.stageRun manifest.block d stage).writes
  boundary : t.historyBoundary = d.historyBoundary ∨
    t.historyBoundary = historyBoundary historyFrom d.historyBoundary
  log : manifest.resume = none → t.resumeLog = d.resumeLog
  complete : ∀ m, t.importManifest = some (.whole m) → d.importManifest = some (.whole m) ∨
    ∃ head, d.sealedHeader manifest.block = .ok head ∧ m = ⟨manifest.block, head.hash, head.header.stateRoot⟩

/-- What the final steps need. -/
structure Ready (X : Importer Tx Receipt) (manifest : Manifest) (head : PendingBlock Tx Receipt)
    (d : Datadir Tx Receipt) : Prop where
  indexed : ∀ stage, (X.stageRun manifest.block d stage).result = .ok ()
  header : d.sealedHeader manifest.block = .ok head
  hash : head.hash = manifest.hash
  resume : ∀ r, manifest.resume = some r → r.l2Block ≤ manifest.block
  valid : head.header.number = manifest.block ∧ X.hashSlow head = head.hash
  fresh : d.importManifest = none

/-- The log after the final steps. -/
def finalLog (manifest : Manifest) (old : Option (FileState L1ResumeLog)) : Option (FileState L1ResumeLog) :=
  match manifest.resume with
  | none => old
  | some resume => some (.whole (resumeLogOf resume))

/-- The datadir after the final steps. -/
def finalized (X : Importer Tx Receipt) (manifest : Manifest) (historyFrom : ℕ) (head : PendingBlock Tx Receipt)
    (d : Datadir Tx Receipt) : Datadir Tx Receipt :=
  { d with
    indices := X.index manifest.block d
    checkpoints := some manifest.block
    historyBoundary := historyBoundary historyFrom d.historyBoundary
    resumeLog := finalLog manifest d.resumeLog
    importManifest := some (.whole ⟨manifest.block, head.hash, head.header.stateRoot⟩) }

/-- The final steps, every write of which is one of `H`. -/
abbrev Writes {α : Type} (H P : Datadir Tx Receipt → Prop) (p : ImportProg Tx Receipt α)
    (Q : α → Datadir Tx Receipt → Prop) (E : ImportError → Datadir Tx Receipt → Prop) : Prop :=
  Triple (fun _ t => H t) P p Q E

variable {E : ImportError → Datadir Tx Receipt → Prop} {H : Datadir Tx Receipt → Prop}

theorem Importer.index_mem (X : Importer Tx Receipt) (target : ℕ) (d : Datadir Tx Receipt) (stage : IndexStage) :
    X.index target d stage ∈ d.indices stage :: (X.stageRun target d stage).writes :=
  List.mem_cons.mpr (after_eq_or_mem _ _)

theorem Finalizing.of_indices (historyFrom : ℕ) {indices : IndexStage → IndexRows}
    (h : ∀ stage, indices stage ∈ d.indices stage :: (X.stageRun manifest.block d stage).writes) :
    Finalizing X manifest historyFrom d { d with indices := indices } :=
  ⟨rfl, h, .inl rfl, fun _ => rfl, fun _ hm => .inl hm⟩

/-- The indices once some of the stages are done. -/
def Importer.indicesAfter (X : Importer Tx Receipt) (target : ℕ) (d : Datadir Tx Receipt) (done : List IndexStage)
    (stage : IndexStage) : IndexRows :=
  if stage ∈ done then X.index target d stage else d.indices stage

theorem update_indicesAfter (X : Importer Tx Receipt) (target : ℕ) (d : Datadir Tx Receipt) (done : List IndexStage)
    (stage : IndexStage) : Function.update (X.indicesAfter target d done) stage (X.index target d stage) =
      X.indicesAfter target d (stage :: done) := by
  funext other
  by_cases hother : other = stage
  · rw [hother, Function.update_self, Importer.indicesAfter, if_pos List.mem_cons_self]
  · simp [Importer.indicesAfter, hother]

theorem runStage_spec (historyFrom : ℕ) {stage : IndexStage} {done : List IndexStage} (hnew : stage ∉ done)
    (hE : (X.stageRun manifest.block d stage).result ≠ .ok () → ∀ e t, E e t) :
    Writes (Finalizing X manifest historyFrom d) (· = { d with indices := X.indicesAfter manifest.block d done })
      (runStage X stage manifest.block) (fun _ t =>
        t = { d with indices := X.indicesAfter manifest.block d (stage :: done) } ∧
          (X.stageRun manifest.block d stage).result = .ok ()) E := by
  refine Triple.bind (Q := fun d' t => t = { d with indices := X.indicesAfter manifest.block d done } ∧ d' = t)
    (.get fun t ht => ⟨ht, rfl⟩) fun d' => ?_
  rintro t ⟨rfl, rfl⟩
  have hview : X.indicesAfter manifest.block d done stage = d.indices stage := if_neg hnew
  have hrun : executeStage X stage manifest.block d.blocks d.changesets none (X.indicesAfter manifest.block d done stage) =
      X.stageRun manifest.block d stage := by rw [hview, Importer.stageRun]
  have hafter := after_map_put (Datadir.indexPart stage)
    (s := { d with indices := X.indicesAfter manifest.block d done }) (by simp [Datadir.indexPart])
  simp only [Prog.zoom, Datadir.indexPart, hrun] at hafter ⊢
  rw [hafter, hview]
  constructor
  · refine isChain_of_forall _ fun u hu => ?_
    obtain ⟨rows, hrows, rfl⟩ := List.mem_map.mp hu
    refine .of_indices historyFrom fun other => ?_
    by_cases hother : other = stage
    · subst hother
      rw [Function.update_self]
      exact List.mem_cons_of_mem _ hrows
    · rw [Function.update_of_ne hother, Importer.indicesAfter]
      split
      · exact X.index_mem manifest.block d other
      · exact List.mem_cons_self
  · cases hresult : (X.stageRun manifest.block d stage).result with
    | error e => exact hE (by rw [hresult]; simp) _ _
    | ok u =>
      refine ⟨?_, rfl⟩
      rw [← update_indicesAfter]
      rfl

variable {Q : Unit → Datadir Tx Receipt → Prop}

theorem runStages_spec (X : Importer Tx Receipt) (manifest : Manifest) (historyFrom : ℕ) (d : Datadir Tx Receipt)
    {p : ImportProg Tx Receipt Unit}
    (hE : (∃ stage, (X.stageRun manifest.block d stage).result ≠ .ok ()) → ∀ e t, E e t)
    (hp : (∀ stage, (X.stageRun manifest.block d stage).result = .ok ()) → Writes (Finalizing X manifest historyFrom d)
      (· = { d with indices := X.index manifest.block d }) p Q E) :
    Writes (Finalizing X manifest historyFrom d) (· = d) (do
      runStage X .senderRecovery manifest.block
      runStage X .transactionLookup manifest.block
      runStage X .indexAccountHistory manifest.block
      runStage X .indexStorageHistory manifest.block
      p) Q E := by
  have hstage (stage : IndexStage) (done : List IndexStage) (hnew : stage ∉ done) : Writes (Finalizing X manifest historyFrom d)
      (· = { d with indices := X.indicesAfter manifest.block d done }) (runStage X stage manifest.block) _ E :=
    runStage_spec historyFrom hnew fun h => hE ⟨stage, h⟩
  refine Triple.pre ?_ (P := (· = { d with indices := X.indicesAfter manifest.block d [] })) fun t ht => ?_
  swap
  · rw [ht]
    congr 1
  refine (hstage .senderRecovery [] (by decide)).bind fun _ => .assume fun hsenders => ?_
  refine (hstage .transactionLookup _ (by decide)).bind fun _ => .assume fun hlookup => ?_
  refine (hstage .indexAccountHistory _ (by decide)).bind fun _ => .assume fun haccounts => ?_
  refine (hstage .indexStorageHistory _ (by decide)).bind fun _ => .assume fun hstorage => ?_
  refine (hp fun stage => by cases stage <;> assumption).pre ?_
  rintro t rfl
  congr 1
  funext stage
  cases stage <;> rfl

/-- The state after the commit of the checkpoints. -/
def committed (X : Importer Tx Receipt) (manifest : Manifest) (historyFrom : ℕ) (d : Datadir Tx Receipt) :
    Datadir Tx Receipt :=
  { d with
    indices := X.index manifest.block d
    checkpoints := some manifest.block
    historyBoundary := historyBoundary historyFrom d.historyBoundary }

theorem writeResumeLog_spec (X : Importer Tx Receipt) (manifest : Manifest) (historyFrom : ℕ)
    (d : Datadir Tx Receipt) (hE : ∀ r, manifest.resume = some r → ¬r.l2Block ≤ manifest.block → ∀ e t, E e t) :
    Writes (Finalizing X manifest historyFrom d) (· = committed X manifest historyFrom d) (writeResumeLog manifest)
      (fun _ t => t = { committed X manifest historyFrom d with resumeLog := finalLog manifest d.resumeLog } ∧
        ∀ r, manifest.resume = some r → r.l2Block ≤ manifest.block) E := by
  rw [writeResumeLog, finalLog]
  cases hresume : manifest.resume with
  | none => exact .pure fun t ht => ⟨ht, fun r hr => (by cases hr)⟩
  | some resume =>
    have hH (log : Option (FileState L1ResumeLog)) :
        Finalizing X manifest historyFrom d { committed X manifest historyFrom d with resumeLog := log } :=
      ⟨rfl, X.index_mem manifest.block d, .inr rfl, fun hnone => (by rw [hresume] at hnone; cases hnone), fun _ hm => .inl hm⟩
    refine Triple.require_bind (fun t _ hl2 => hE resume hresume hl2 _ t) fun hl2 => ?_
    refine Triple.bind (Q := fun _ t => t = { committed X manifest historyFrom d with resumeLog := some .torn })
      (.write fun t ht => (by subst ht; exact ⟨hH _, rfl⟩)) fun _ => ?_
    refine .write fun t ht => ?_
    subst ht
    exact ⟨hH _, rfl, fun r hr => Option.some.inj hr ▸ hl2⟩

theorem validate_manifest_ok {head : SnapshotHead} : validateSnapshotImportManifest head.manifest head = .ok () ↔
      head.header.number = head.number ∧ head.hashSlow = head.hash := by
  rw [validateSnapshotImportManifest, if_neg (not_not.mpr rfl)]
  split
  · rename_i h
    simp only [reduceCtorEq, false_iff]
    rintro ⟨hnumber, hhash⟩
    exact h.elim (· hnumber) (· hhash)
  · rename_i h
    simpa [not_or] using h

theorem writeSnapshotImportManifest_spec (head : SnapshotHead) (d : Datadir Tx Receipt)
    (hvalid : ¬(head.header.number = head.number ∧ head.hashSlow = head.hash) → ∀ e t, E e t)
    (hfresh : d.importManifest ≠ none → ∀ e t, E e t) (htorn : H { d with importManifest := some .torn })
    (hwhole : head.header.number = head.number ∧ head.hashSlow = head.hash → d.importManifest = none →
      H { d with importManifest := some (.whole head.manifest) } ∧
        Q () { d with importManifest := some (.whole head.manifest) }) :
    Writes H (· = d) (writeSnapshotImportManifest head) Q E := by
  refine Triple.ofExcept_bind (fun e he t _ => hvalid ?_ e t) fun _ hok => ?_
  · intro hhead
    rw [validate_manifest_ok.mpr hhead] at he
    cases he
  refine Triple.bind (Q := fun d' t => t = d ∧ d' = d) (.get fun t ht => ⟨ht, ht⟩) fun d' => .assume fun hd' => ?_
  subst hd'
  refine Triple.require_bind (fun t _ h => hfresh h _ t) fun hnone => ?_
  refine Triple.bind (Q := fun _ t => t = { d' with importManifest := some .torn })
    (.write fun t ht => (by subst ht; exact ⟨htorn, rfl⟩)) fun _ => ?_
  refine .write fun t ht => ?_
  subst ht
  exact hwhole (validate_manifest_ok.mp hok) hnone

/-- The final steps succeed if and only if they are ready to, and then leave the same datadir each time. -/
theorem finalize_spec (X : Importer Tx Receipt) (manifest : Manifest) (historyFrom : ℕ) (d : Datadir Tx Receipt) :
    Writes (Finalizing X manifest historyFrom d) (· = d) (finalize X manifest historyFrom)
      (fun _ t => ∃ head, Ready X manifest head d ∧ t = finalized X manifest historyFrom head d)
      fun _ _ => ¬∃ head, Ready X manifest head d := by
  refine runStages_spec X manifest historyFrom d ?_ fun hindexed => ?_
  · rintro ⟨stage, hstage⟩ _ _ ⟨head, hready⟩
    exact hstage (hready.indexed stage)
  refine Triple.bind (Q := fun d' t => t = { d with indices := X.index manifest.block d } ∧ d' = t)
    (.get fun t ht => ⟨ht, rfl⟩) fun d' => ?_
  refine Triple.pre (P := fun t => t = { d with indices := X.index manifest.block d } ∧ d'.blocks = d.blocks) ?_ ?_
  swap
  · rintro t ⟨rfl, rfl⟩
    exact ⟨rfl, rfl⟩
  refine .assume fun hd' => ?_
  have hheader : d'.sealedHeader manifest.block = d.sealedHeader manifest.block := by
    rw [Datadir.sealedHeader, hd', Datadir.sealedHeader]
  rw [hheader]
  refine Triple.ofExcept_bind ?_ fun head hhead => ?_
  · rintro e he _ - ⟨head, hready⟩
    rw [hready.header] at he
    cases he
  have same (head' : PendingBlock Tx Receipt) (h : Ready X manifest head' d) : head' = head :=
    Except.ok.inj (h.header.symm.trans hhead)
  refine Triple.require_bind ?_ fun hhash => ?_
  · rintro _ - hne ⟨head', hready⟩
    exact hne (same head' hready ▸ hready.hash)
  refine Triple.bind (Q := fun _ t => t = committed X manifest historyFrom d) (.write ?_) fun _ => ?_
  · rintro t rfl
    exact ⟨⟨rfl, X.index_mem manifest.block d, .inr rfl, fun _ => rfl, fun _ hm => .inl hm⟩, rfl⟩
  refine Triple.bind (writeResumeLog_spec X manifest historyFrom d ?_) fun _ => .assume fun hresume => ?_
  · rintro r hr hl2 _ _ ⟨head', hready⟩
    exact hl2 (hready.resume r hr)
  have hlog : manifest.resume = none → finalLog manifest d.resumeLog = d.resumeLog := by
    intro hnone
    rw [finalLog, hnone]
  refine writeSnapshotImportManifest_spec _ _ ?_ ?_ ?_ ?_
  · rintro hinvalid _ _ ⟨head', hready⟩
    exact hinvalid (same head' hready ▸ hready.valid)
  · rintro hexists _ _ ⟨head', hready⟩
    exact hexists hready.fresh
  · exact ⟨rfl, X.index_mem manifest.block d, .inr rfl, hlog, fun _ hm => (by cases hm)⟩
  · intro hvalid hnone
    refine ⟨⟨rfl, X.index_mem manifest.block d, .inr rfl, hlog, fun m hm => .inr ⟨head, hhead, ?_⟩⟩, head,
      ⟨hindexed, hhead, hhash, hresume, hvalid, hnone⟩, rfl⟩
    cases hm
    rfl

end finalizing

/-! ### What the renames do -/

/-- All parts of a file have the range of its header. -/
def SegmentFile.renamed (f : SegmentFile) : SegmentFile := f.renames.getLastD f

theorem SegmentFile.renamed_data (f : SegmentFile) : f.renamed.data = f.header := by
  rw [renamed, renames]
  split
  · assumption
  · rfl

theorem after_renameStates (files : List SegmentFile) : after files (renameStates files) = files.map SegmentFile.renamed := by
  have hcons (f : SegmentFile) (files : List SegmentFile) (states : List (List SegmentFile)) :
      after (f :: files) (states.map (f :: ·)) = f :: after files states := by
    rcases List.eq_nil_or_concat states with rfl | ⟨states, last, rfl⟩
    · rfl
    · simp [after]
  have hhead (f : SegmentFile) (files : List SegmentFile) :
      after (f :: files) (f.renames.map (· :: files)) = f.renamed :: files := by
    rw [SegmentFile.renamed, SegmentFile.renames]
    split <;> rfl
  induction files with
  | nil => rfl
  | cons f files ih => rw [renameStates, after_append, hhead, ← SegmentFile.renamed, hcons, ih, List.map_cons]

/-- What the renames can have changed when they are cut. -/
def Renaming (d t : Datadir Tx Receipt) : Prop :=
  t = { d with accountFiles := t.accountFiles, storageFiles := t.storageFiles }

def Datadir.renamed (d : Datadir Tx Receipt) : Datadir Tx Receipt :=
  { d with
    accountFiles := d.accountFiles.map SegmentFile.renamed
    storageFiles := d.storageFiles.map SegmentFile.renamed }

theorem renameChangesetFilesToHeader_spec {E : ImportError → Datadir Tx Receipt → Prop} (d : Datadir Tx Receipt) :
    Writes (Renaming d) (· = d) renameChangesetFilesToHeader (fun _ t => t = d.renamed) E := by
  have hafter (files : List SegmentFile) (put : List SegmentFile → Datadir Tx Receipt) :
      after (put files) ((renameStates files).map put) = put (files.map SegmentFile.renamed) := by
    rw [← after_renameStates]
    rcases List.eq_nil_or_concat (renameStates files) with h | ⟨states, last, h⟩
    · rw [h]
      rfl
    · simp [after]
  refine Triple.bind (Q := fun _ t => t = { d with accountFiles := d.accountFiles.map SegmentFile.renamed })
    (.writeAll_of_forall ?_) fun _ => .writeAll_of_forall ?_
  · intro t ht
    rw [ht]
    refine ⟨fun t ht => ?_, hafter d.accountFiles fun files => { d with accountFiles := files }⟩
    obtain ⟨files, -, rfl⟩ := List.mem_map.mp ht
    rfl
  · intro t ht
    rw [ht]
    refine ⟨fun t ht => ?_, hafter d.storageFiles fun files =>
      { d with accountFiles := d.accountFiles.map SegmentFile.renamed, storageFiles := files }⟩
    obtain ⟨files, -, rfl⟩ := List.mem_map.mp ht
    rfl

/-! ### What an import that passes its check has written -/

section loading
variable {X : Importer Tx Receipt} {d t : Datadir Tx Receipt}

/-- The changesets start where they should, and so do their files. -/
structure Filed (historyFrom : ℕ) (t : Datadir Tx Receipt) : Prop where
  start : t.changesets.expectedBlockStart = some historyFrom
  entries : t.changesets.accounts ≠ []
  accountFiles : t.accountFiles = segmentFiles t.changesets.expectedBlockStart t.changesets.accounts
  storageFiles : t.storageFiles = segmentFiles t.changesets.expectedBlockStart t.changesets.storage

/-- The headers are those of the stream, and end with the convert point. -/
structure Landed (X : Importer Tx Receipt) (st : SnapshotStream) (t : Datadir Tx Receipt) : Prop where
  headers : t.blocks.blocks.map PendingBlock.record <+: headerRecords X.toBlockCodec (st.source X.keccak256).records
  head : t.highestHeader = .ok st.manifest.block

/-- What is as it was in the target: there is no completion manifest, and the slot preimages are not touched. -/
def Unfinished (d t : Datadir Tx Receipt) : Prop := t.importManifest = none ∧ t.preimageManifest = d.preimageManifest

/-- The database was created by this command, which has written none of the files that come last. -/
structure Opened (d t : Datadir Tx Receipt) : Prop where
  database : t.database = true
  boundary : t.historyBoundary = none
  log : t.resumeLog = none
  unfinished : Unfinished d t

structure Loaded (X : Importer Tx Receipt) (bytes : Bytes) (manifest : Manifest) (historyFrom : ℕ)
    (d t : Datadir Tx Receipt) : Prop where
  opened : Opened d t
  filed : Filed historyFrom t
  landed : ∃ st, SnapshotStream.openStream bytes = .ok st ∧ st.manifest = manifest ∧ Landed X st t
  root : X.stateRoot t.state = manifest.root

theorem checkFresh_ok (h : d.checkFresh = .ok ()) :
    d.resumeLog = none ∧ d.importManifest = none ∧ d.database = false ∧ d.directories = false := by
  simp only [Datadir.checkFresh] at h
  split at h
  · cases h
  · split at h
    · cases h
    · split at h
      · cases h
      · split at h
        · cases h
        · simp_all

/-- What the history section leaves, in files that belong to its changesets. -/
theorem Filed.of_history {src : Source} {x : HistorySectionStats × Source}
    (hfiles : t.accountFiles = segmentFiles t.changesets.expectedBlockStart t.changesets.accounts ∧
      t.storageFiles = segmentFiles t.changesets.expectedBlockStart t.changesets.storage)
    (h : ∃ w os, src.records = os.map Record.history ++ x.2.records ∧ Written w os t.changesets ∧
      (∀ o, x.2.records.head? ≠ some (.history o)) ∧ w.stats.objects ≠ 0 ∧
      w.stats.lastBlock = src.manifest.block ∧ x.1 = w.stats) : Filed x.1.firstBlock t := by
  obtain ⟨w, os, -, hos, -, hobjects, -, hstats⟩ := h
  cases os with
  | nil => exact absurd hos.count hobjects
  | cons o os =>
    obtain ⟨hstart, hfirst⟩ := hos.start (by simp)
    refine ⟨?_, ?_, hfiles.1, hfiles.2⟩
    · rw [hstats, hfirst, hstart]
    · rw [hos.accounts]
      simp [accountEntries, Dense.fill]

theorem writeSections_spec (X : Importer Tx Receipt) (st : SnapshotStream) (d : Datadir Tx Receipt) :
    Writes (Unfinished d)
      (fun t => t.blocks = ⟨none, [], []⟩ ∧ Opened d t ∧ t.changesets = ⟨none, [], []⟩ ∧ t.accountFiles = [] ∧
        t.storageFiles = [])
      (writeSections X (st.source X.keccak256)) (fun historyFrom t => Opened d t ∧ Filed historyFrom t ∧ Landed X st t)
      fun _ _ => True := by
  -- the blocks go into empty segments, and leave the changesets empty
  refine Triple.bind ((writeBlocks_spec X.toBlockCodec blockBatch txBatch (st.source X.keccak256)).zoom
    Datadir.blocksPart (fun t x ht => ⟨⟨ht.1.database, ht.1.boundary, ht.1.log, ht.1.unfinished⟩, ht.2⟩)
    (fun t x ht => ht.1.unfinished) fun _ _ _ => trivial) fun x => ?_
  obtain ⟨blocks, src⟩ := x
  -- so do the history objects, and leave the blocks
  refine Triple.bind (Triple.pre ((writeHistory_spec changesetBatch src).zoom
    (F := fun t => Opened d t ∧ Landed X st t ∧
      t.accountFiles = segmentFiles t.changesets.expectedBlockStart t.changesets.accounts ∧
      t.storageFiles = segmentFiles t.changesets.expectedBlockStart t.changesets.storage)
    Datadir.changesetsPart (fun t x ht => ⟨⟨ht.1.database, ht.1.boundary, ht.1.log, ht.1.unfinished⟩, ⟨ht.2.1.headers, ht.2.1.head⟩, rfl, rfl⟩)
    (fun t x ht => ht.1.unfinished) fun _ _ _ => trivial) ?_) fun y => ?_
  · rintro t ⟨⟨hcommitted, ⟨b, hb, hnumber⟩, -⟩, hopen, hempty, hfiles⟩
    refine ⟨hempty, hopen, ⟨hcommitted.headers, ?_⟩, ?_⟩
    · change t.blocks.blocks.getLast? = some b at hb
      rw [Datadir.highestHeader, hb]
      exact congrArg Except.ok hnumber
    · rw [hempty, hfiles.1, hfiles.2]
      exact ⟨rfl, rfl⟩
  obtain ⟨history, src'⟩ := y
  refine Triple.require_bind (fun _ _ _ => trivial) fun _ => ?_
  refine Triple.bind (Triple.pre ((Triple.vacuous (writeState stateCommitThreshold src')).zoom
    (F := fun t => Opened d t ∧ Filed history.firstBlock t ∧ Landed X st t) Datadir.statePart
    (fun t x ht => ⟨⟨ht.1.database, ht.1.boundary, ht.1.log, ht.1.unfinished⟩, ⟨ht.2.1.start, ht.2.1.entries, ht.2.1.accountFiles, ht.2.1.storageFiles⟩,
      ht.2.2.headers, ht.2.2.head⟩)
    (fun t x ht => ht.1.unfinished) fun _ _ _ => trivial) ?_) fun _ => .pure fun t ht => ht.2
  rintro t ⟨hwritten, hopen, hlanded, hfiles⟩
  exact ⟨trivial, hopen, .of_history hfiles hwritten, hlanded⟩

theorem ensureFreshImportTarget_spec (H : Datadir Tx Receipt → Prop) (d : Datadir Tx Receipt) :
    Writes H (· = d) ensureFreshImportTarget (fun _ t => t = d ∧ d.checkFresh = .ok ()) fun _ _ => True := by
  refine Triple.bind (Q := fun d' t => t = d ∧ d' = d) (.get fun t ht => ⟨ht, ht⟩) fun d' => ?_
  refine .assume fun hd' => ?_
  rw [hd']
  exact .ofExcept (fun _ hok t ht => ⟨ht, hok⟩) fun _ _ _ _ => trivial

theorem checkStateRoot_spec (H P : Datadir Tx Receipt → Prop) (X : Importer Tx Receipt) (expected : B256) :
    Writes H P (checkStateRoot X expected) (fun _ t => P t ∧ X.stateRoot t.state = expected) fun _ _ => True := by
  refine Triple.bind (Q := fun d' t => P t ∧ d' = t) (.get fun t ht => ⟨ht, rfl⟩) fun d' => ?_
  refine (Triple.require fun _ _ _ => trivial).post ?_
  rintro _ t ⟨⟨ht, rfl⟩, hroot⟩
  exact ⟨ht, hroot⟩

/-- An import writes nothing into a datadir with a database, and no completion manifest before its check. -/
theorem loadSnapshot_spec (X : Importer Tx Receipt) (bytes : Bytes) (d : Datadir Tx Receipt) :
    Writes (fun t => Unfinished d t ∧ d.database = false) (· = d) (loadSnapshot X bytes)
      (fun x t => Loaded X bytes x.1 x.2 d t) fun _ _ => True := by
  refine (ensureFreshImportTarget_spec _ d).bind fun _ => .assume fun hok => ?_
  obtain ⟨hlog, hmanifest, hdatabase, -⟩ := checkFresh_ok hok
  refine Triple.ofExcept_bind (fun _ _ _ _ => trivial) fun st hst => ?_
  refine Triple.bind (Q := fun _ t => t = d.createDirectories) (.write ?_) fun _ => ?_
  · rintro t rfl
    exact ⟨⟨⟨hmanifest, rfl⟩, hdatabase⟩, rfl⟩
  refine Triple.bind (Q := fun _ t => t = d.createDirectories.createDatabase) (.write ?_) fun _ => ?_
  · rintro t rfl
    have hcreate : (if d.createDirectories.database then d.createDirectories else d.createDirectories.createDatabase) =
        d.createDirectories.createDatabase := if_neg (by simp [Datadir.createDirectories, hdatabase])
    rw [hcreate]
    exact ⟨⟨⟨hmanifest, rfl⟩, hdatabase⟩, rfl⟩
  refine Triple.bind (Triple.pre ((writeSections_spec X st d).mono fun _ t ht => ⟨ht, hdatabase⟩) ?_) fun historyFrom => ?_
  · rintro t rfl
    exact ⟨rfl, ⟨rfl, rfl, hlog, hmanifest, rfl⟩, rfl, rfl, rfl⟩
  refine (checkStateRoot_spec _ _ X st.manifest.root).bind fun _ => .pure fun t ht => ?_
  exact ⟨ht.1.1, ht.1.2.1, ⟨st, mapError_ok.mp hst, rfl, ht.1.2.2⟩, ht.2⟩

end loading

end ArbReth.Snapshot
