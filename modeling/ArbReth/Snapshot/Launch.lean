import ArbReth.Snapshot.Completion

/-! # Launching a node on an imported snapshot

An import that has not written its completion manifest is unfinished.  The node looks for that manifest when it boots from
a snapshot head, but it has to accept datadirs from before there were such manifests (`validate_snapshot_import_for_launch`
in `commands/snapshot.rs`): only the manifest of the slot preimages tells it that the completion manifest is missing, and
that one is there only for snapshots from before ArbOS 20.  A boot from chain info and genesis does not look at all
(`resolve_bootstrap` in `commands/node.rs`). -/

namespace ArbReth.Snapshot

open ArbReth.Codec (Bytes)
open ArbReth.Durable

variable {Tx Receipt : Type}

/-! ### The import of a head state -/

/-- Whether a snapshot needs its slot preimages. -/
inductive SnapshotPreimagePolicy where
  | canonicalGenesisRequired
  | notRequired
deriving DecidableEq, Repr

/-- A head with the ArbOS version that its header has, if it can be decoded. -/
structure LaunchHead extends SnapshotHead where
  arbosFormatVersion : Option ℕ
deriving DecidableEq, Repr

/-- The genesis of Arbitrum One: `GENESIS_BLOCK_NUMBER`, `GENESIS_BLOCK_HASH` and `GENESIS_STATE_ROOT`. -/
def arbitrumOneNumber : ℕ := 22207817
def arbitrumOneHash : B256 := 0x7d237dd685b96381544e223f8906e35645d63b89c19983f2246db48568c07986
def arbitrumOneStateRoot : B256 := 0x7f2bfc4481d02bfcfc606ebb949384ef78d03a0f30a2dc9cccd652eb80926ae1

def validateSnapshotIdentity (expected : B256) (head : LaunchHead) : Except ImportError SnapshotPreimagePolicy :=
  if head.header.number ≠ head.number ∨ head.hashSlow ≠ head.hash then .error .invalidHead
  else if head.header.stateRoot ≠ expected then .error (.unexpectedStateRoot head.header.stateRoot expected)
  else
    match head.arbosFormatVersion with
    | none => .error .arbosVersion
    | some version =>
      if 20 ≤ version then .ok .notRequired
      else if head.number ≠ arbitrumOneNumber ∨ head.hash ≠ arbitrumOneHash ∨ expected ≠ arbitrumOneStateRoot then
        .error (.unsupportedSnapshot head.number)
      else .ok .canonicalGenesisRequired

/-- The slot preimages are there, if they are needed. -/
def Datadir.checkPreimages (d : Datadir Tx Receipt) (policy : SnapshotPreimagePolicy) : Except ImportError Unit :=
  match policy with
  | .notRequired => .ok ()
  | .canonicalGenesisRequired =>
    if !d.preimages then .error .missingPreimages
    else if d.preimageManifest ≠ some true then .error .preimageManifest
    else .ok ()

/-- What `write_head_blocks` writes. -/
structure HeadTables (Tx Receipt : Type) where
  blocks : BlockStore Tx Receipt
  changesets : Changesets
  accountFiles : List SegmentFile
  storageFiles : List SegmentFile
  checkpoints : Option ℕ
  historyBoundary : Option ℕ

def Datadir.headPart : Durable.Part (Datadir Tx Receipt) (HeadTables Tx Receipt) where
  view d := ⟨d.blocks, d.changesets, d.accountFiles, d.storageFiles, d.checkpoints, d.historyBoundary⟩
  put d x := { d with
    blocks := x.blocks
    changesets := x.changesets
    accountFiles := x.accountFiles
    storageFiles := x.storageFiles
    checkpoints := x.checkpoints
    historyBoundary := x.historyBoundary }
  view_put _ _ := rfl
  put_put _ _ _ := rfl

/-- The inputs of `snapshot import`; the programs that import the state and write the head can be any here. -/
structure HeadImport (Tx Receipt : Type) where
  head : LaunchHead
  expected : B256
  preflight : Except ImportError Unit
  streamImport : Prog HashedState ImportError Unit
  writeHeadBlocks : Prog (HeadTables Tx Receipt) ImportError Unit

def snapshotImport (X : Importer Tx Receipt) (args : HeadImport Tx Receipt) : ImportProg Tx Receipt Unit := do
  ensureFreshImportTarget
  let policy ← Prog.ofExcept (validateSnapshotIdentity args.expected args.head)
  let d ← Prog.get
  Prog.ofExcept (d.checkPreimages policy)
  Prog.ofExcept args.preflight
  Prog.write Datadir.createDirectories
  openFactory
  args.streamImport.zoom Datadir.statePart id
  checkStateRoot X args.expected
  args.writeHeadBlocks.zoom Datadir.headPart id
  renameChangesetFilesToHeader
  writeSnapshotImportManifest args.head.toSnapshotHead

/-! ### The launch -/

def validateSnapshotImportForLaunch (d : Datadir Tx Receipt) (head : LaunchHead) : Except ImportError Unit :=
  match d.importManifest with
  | none =>
    -- without either file the datadir counts as an old one
    if d.preimageManifest.isSome then .error .incomplete else .ok ()
  | some .torn => .error .unreadable
  | some (.whole manifest) => do
    validateSnapshotImportManifest manifest head.toSnapshotHead
    let policy ← validateSnapshotIdentity head.header.stateRoot head
    d.checkPreimages policy

/-- The ways to boot on an imported datadir. -/
inductive BootMode where
  | chainInfoGenesis
  | snapshotHead (head : LaunchHead)

def resolveBootstrap (mode : BootMode) (d : Datadir Tx Receipt) : Except ImportError Unit :=
  match mode with
  | .chainInfoGenesis => .ok ()
  | .snapshotHead head => validateSnapshotImportForLaunch d head

inductive ImportCommand (Tx Receipt : Type) where
  | head (args : HeadImport Tx Receipt)
  | full (bytes : Bytes)

def ImportCommand.run (X : Importer Tx Receipt) : ImportCommand Tx Receipt → ImportProg Tx Receipt Unit
  | .head args => snapshotImport X args
  | .full bytes => importFull X bytes

/-- The import is of a snapshot from before ArbOS 20, which needs its slot preimages. -/
def ImportCommand.NeedsPreimages : ImportCommand Tx Receipt → Prop
  | .head args => validateSnapshotIdentity args.expected args.head = .ok .canonicalGenesisRequired
  | .full _ => False

/-! ### The slot preimages of an import -/

section preimages
variable {X : Importer Tx Receipt} {d t : Datadir Tx Receipt}

theorem checkPreimages_ok (h : d.checkPreimages .canonicalGenesisRequired = .ok ()) : d.preimageManifest = some true := by
  simp only [Datadir.checkPreimages] at h
  split at h
  · cases h
  · split at h
    · cases h
    · rename_i hmanifest
      exact not_not.mp hmanifest

/-- The manifest of the slot preimages is as it was in the target, and is there if it is needed. -/
def KeepsPreimages (command : ImportCommand Tx Receipt) (d t : Datadir Tx Receipt) : Prop :=
  t.preimageManifest = d.preimageManifest ∧ (command.NeedsPreimages → d.preimageManifest = some true)

theorem importFull_keeps (bytes : Bytes) (hcut : Cut (importFull X bytes) d t) : KeepsPreimages (.full bytes) d t := by
  refine ⟨?_, False.elim⟩
  rcases hcut.of_bind with hcut | ⟨⟨manifest, historyFrom⟩, hload, hcut⟩
  · rcases (loadSnapshot_spec X bytes d).cut_of_forall rfl hcut with rfl | ⟨hunfinished, -⟩
    · rfl
    · exact hunfinished.2
  · have hloaded := (loadSnapshot_spec X bytes d).finally rfl hload
    rw [← hloaded.opened.unfinished.2]
    rcases hcut.of_bind with hcut | ⟨u, hrename, hcut⟩
    · rcases (renameChangesetFilesToHeader_spec (E := fun _ _ => True) _).cut_of_forall rfl hcut with rfl | ht
      · rfl
      · rw [ht]
    · rw [(renameChangesetFilesToHeader_spec (E := fun _ _ => True) _).finally rfl hrename] at hcut
      rcases (finalize_spec X manifest historyFrom _).cut_of_forall rfl hcut with rfl | ht
      · rfl
      · rw [ht.rest]
        rfl

theorem snapshotImport_spec (X : Importer Tx Receipt) (args : HeadImport Tx Receipt) (d : Datadir Tx Receipt) :
    Writes (KeepsPreimages (.head args) d) (· = d) (snapshotImport X args) (fun _ _ => True) fun _ _ => True := by
  refine (ensureFreshImportTarget_spec _ d).bind fun _ => .assume fun _ => ?_
  refine Triple.ofExcept_bind (fun _ _ _ _ => trivial) fun policy hpolicy => ?_
  refine Triple.bind (Q := fun d' t => t = d ∧ d' = d) (.get fun t ht => ⟨ht, ht⟩) fun d' => .assume fun hd' => ?_
  rw [hd']
  refine Triple.ofExcept_bind (fun _ _ _ _ => trivial) fun _ hpreimages => ?_
  -- nothing is created before this point, and nothing touches the preimages after it
  have hneeds : ImportCommand.NeedsPreimages (.head args) → d.preimageManifest = some true := by
    intro hneeds
    cases hpolicy.symm.trans hneeds
    exact checkPreimages_ok hpreimages
  have keeps {t : Datadir Tx Receipt} (ht : t.preimageManifest = d.preimageManifest) : KeepsPreimages (.head args) d t :=
    ⟨ht, hneeds⟩
  refine Triple.ofExcept_bind (fun _ _ _ _ => trivial) fun _ _ => ?_
  refine Triple.bind (Q := fun _ t => t.preimageManifest = d.preimageManifest) (.write ?_) fun _ => ?_
  · rintro t rfl
    exact ⟨keeps rfl, rfl⟩
  refine Triple.bind (Q := fun _ t => t.preimageManifest = d.preimageManifest) (.write ?_) fun _ => ?_
  · intro t ht
    have hopen : (if t.database then t else t.createDatabase).preimageManifest = d.preimageManifest := by
      split <;> exact ht
    exact ⟨keeps hopen, hopen⟩
  refine Triple.bind (Triple.pre ((Triple.vacuous args.streamImport).zoom Datadir.statePart (fun t x ht => ht)
    (fun t x ht => keeps ht) fun _ _ _ => trivial) fun t ht => ⟨trivial, ht⟩) fun _ => ?_
  refine (checkStateRoot_spec _ _ X args.expected).bind fun _ => ?_
  refine Triple.bind (Triple.pre ((Triple.vacuous args.writeHeadBlocks).zoom Datadir.headPart (fun t x ht => ht)
    (fun t x ht => keeps ht) fun _ _ _ => trivial) fun t ht => ⟨trivial, ht.1.2⟩) fun _ => ?_
  refine Triple.bind (Q := fun _ t => t.preimageManifest = d.preimageManifest) (Triple.of_forall fun s hs => ?_) fun _ =>
    Triple.of_forall fun s hs => ?_
  · refine ((renameChangesetFilesToHeader_spec s).mono fun _ t ht => keeps ?_).post ?_
    · rw [ht]
      exact hs.2
    · rintro _ t rfl
      exact hs.2
  · exact writeSnapshotImportManifest_spec _ s (fun _ _ _ => trivial) (fun _ _ _ => trivial) (keeps hs) fun _ _ =>
      ⟨keeps hs, trivial⟩

/-- Wherever an import stops, the manifest of the slot preimages is the one of the target. -/
theorem ImportCommand.keepsPreimages (command : ImportCommand Tx Receipt) (hcut : Cut (command.run X) d t) :
    t = d ∨ KeepsPreimages command d t := by
  cases command with
  | head args => exact (snapshotImport_spec X args d).cut_of_forall rfl hcut
  | full bytes => exact .inr (importFull_keeps bytes hcut)

end preimages

/-! ### Unfinished imports -/

/-- **An unfinished import is refused** iff the node boots from a snapshot head, whichever, and one of the two manifests
is there: that of the slot preimages, which every target of an import from before ArbOS 20 has, or a torn one of the
import. -/
theorem unfinished_import_refused (X : Importer Tx Receipt) (command : ImportCommand Tx Receipt) (preimages : Bool)
    (preimageManifest : Option Bool) (t : Datadir Tx Receipt)
    (hcut : Cut (command.run X) (.target preimages preimageManifest) t) (hdatabase : t.database = true)
    (hmanifest : ∀ manifest, t.importManifest ≠ some (.whole manifest)) (mode : BootMode) :
    ((∃ e, resolveBootstrap mode t = .error e) ↔
      (∃ head, mode = .snapshotHead head) ∧ (preimageManifest.isSome ∨ t.importManifest.isSome)) ∧
    (command.NeedsPreimages → preimageManifest.isSome) := by
  obtain ⟨hkeeps, hneeds⟩ : KeepsPreimages command (.target preimages preimageManifest) t := by
    rcases command.keepsPreimages hcut with rfl | h
    · cases hdatabase
    · exact h
  have hkeeps : t.preimageManifest = preimageManifest := hkeeps
  refine ⟨?_, fun h => Option.isSome_of_eq_some (hneeds h)⟩
  cases mode with
  | chainInfoGenesis => simp [resolveBootstrap]
  | snapshotHead head =>
    rw [resolveBootstrap, validateSnapshotImportForLaunch, hkeeps]
    cases hfile : t.importManifest with
    | none => cases preimageManifest <;> simp
    | some file =>
      cases file with
      | torn => simp
      | whole manifest => exact absurd hfile (hmanifest manifest)

theorem unfinished_import_refused_created :
    ∃ t, Cut ((ImportCommand.full (toyStream 5 5 5 [0])).run toyImporter) (.target true (some true)) t ∧
      t.database = true ∧ (∀ manifest, t.importManifest ≠ some (.whole manifest)) ∧
      ∀ head, ∃ e, resolveBootstrap (.snapshotHead head) t = .error e := by
  have hfind : ((importFull toyImporter (toyStream 5 5 5 [0]) (.target true (some true))).writes.find?
      fun t => t.database).map (fun t => (t.database, t.importManifest)) = some (true, none) := by
    decide +kernel
  obtain ⟨t, ht, hobserved⟩ := Option.map_eq_some_iff.mp hfind
  obtain ⟨hdatabase, hnone⟩ : t.database = true ∧ t.importManifest = none := by simpa using hobserved
  have hcut : Cut ((ImportCommand.full (toyStream 5 5 5 [0])).run toyImporter) (.target true (some true)) t :=
    .inr (List.mem_of_find?_eq_some ht)
  have hmanifest (manifest : SnapshotImportManifest) : t.importManifest ≠ some (.whole manifest) := by simp [hnone]
  exact ⟨t, hcut, hdatabase, hmanifest, fun head =>
    (unfinished_import_refused toyImporter _ true (some true) t hcut hdatabase hmanifest _).1.mpr ⟨⟨head, rfl⟩, .inl rfl⟩⟩

/-- Stopped after the commit of its checkpoints, a full import without slot preimages is accepted by every boot. -/
theorem unfinished_import_launches :
    ∃ t, Cut ((ImportCommand.full (toyStream 5 5 5 [0])).run toyImporter) (.target false none) t ∧
      t.database = true ∧ t.checkpoints = some 0 ∧ t.importManifest = none ∧
      ∀ mode, resolveBootstrap mode t = .ok () := by
  have hfind : ((importFull toyImporter (toyStream 5 5 5 [0]) (.target false none)).writes.find?
      fun t => t.checkpoints.isSome).map (fun t => (t.database, t.checkpoints, t.importManifest, t.preimageManifest)) =
        some (true, some 0, none, none) := by
    decide +kernel
  obtain ⟨t, ht, hobserved⟩ := Option.map_eq_some_iff.mp hfind
  obtain ⟨hdatabase, hcheckpoints, hnone, hpreimages⟩ : t.database = true ∧ t.checkpoints = some 0 ∧
      t.importManifest = none ∧ t.preimageManifest = none := by simpa using hobserved
  refine ⟨t, .inr (List.mem_of_find?_eq_some ht), hdatabase, hcheckpoints, hnone, fun mode => ?_⟩
  cases mode with
  | chainInfoGenesis => rfl
  | snapshotHead head =>
    rw [resolveBootstrap, validateSnapshotImportForLaunch, hnone]
    exact if_neg (by simp [hpreimages])

end ArbReth.Snapshot
