import ArbReth.Lib.Durable
import ArbReth.Lib.Runs
import ArbReth.Recovery.Journal

/-! # The recover command

A run of `recover` as a program over what is on disk: the active incident, the journal, the resume log and the
chain in the database.  The requests to the canonical node and their answers are kept with the state of the run, so that
an answer can depend on all that came before.  What the run meets outside (whether the lock is free, whether the database
opens, how far a save comes, what the finite replay persists and returns) is given by its environment.

The finite replay extends the chain and leaves the other files alone.  Reads of the static files may fail in the scan for
a checkpoint (`HeaderReader`); in a whole run they do not. -/

namespace ArbReth.Recovery

open ArbReth.Sync ArbReth.Durable
open ArbReth.Durable.Prog (get write writeAll ofExcept fail require attempt)

structure LocalHeader where
  hash : B256
  stateRoot : B256
deriving DecidableEq, Repr

structure Chain where
  tip : ℕ
  header : ℕ → Option LocalHeader

structure Disk where
  /-- The active incident, if there is a valid one. -/
  incident : Option Incident
  journal : JournalFile
  resume : ResumeFile
  chain : Chain

/-- A request to the canonical node and its answer. -/
inductive Exchange where
  | connect (answer : Except RecoveryAuthorityError Unit)
  | header (number : ℕ) (answer : Except RecoveryAuthorityError HeaderObservation)

def Exchange.succeeded : Exchange → Bool
  | .connect answer => answer.isOk
  | .header _ answer => answer.isOk

/-- The state of a run: the disk, and what was asked and answered so far. -/
structure Run where
  disk : Disk
  exchanges : List Exchange

abbrev Recover (α : Type) := Prog Run RecoverError α

/-- What the boot files give (`Boot`). -/
structure Boot where
  chainId : ℕ
  genesisBlock : ℕ
  genesisHash : B256
  /-- The genesis hash of the chain spec. -/
  specGenesisHash : B256
  sequencerInbox : Address
  bridge : Address
deriving DecidableEq, Repr

/-- The arguments of the command, with what its boot files resolve to and which strings are HTTP URLs. -/
structure RecoverArgs where
  canonicalL2Rpc : String
  l1Rpc : String
  l1Beacon : String
  l1EndBlock : ℕ
  maxRecoveryL2Blocks : ℕ
  l1Prefetch : ℕ
  l1GetlogsRange : ℕ
  resolved : Except String Boot
  isHttpUrl : String → Bool

/-- What the finite replay is given to do. -/
structure StoppedFiniteConfig where
  checkpoint : L1ResumeCheckpoint
  frontier : ℕ

structure Env where
  connect : Except RecoveryAuthorityError Unit
  canonical : List Exchange → ℕ → Except RecoveryAuthorityError HeaderObservation
  lockFree : Bool
  opens : OpenSite → Bool
  consistent : OpenSite → Bool
  unwindCommits : Bool
  journalSave : Phase → SaveOutcome
  resumeSave : SaveOutcome
  /-- The chains that the replay persists, one after the other, and its result. -/
  finiteRunner : StoppedFiniteConfig → Chain → List Chain × Except String HeaderObservation

/-! ### Reading -/

def disk : Recover Disk := do
  let s ← get
  return s.disk

def loadActiveIncident : Recover Incident := do
  let d ← disk
  ofExcept (d.incident.elim (.error .incidentUnreadable) .ok)

def readStrictJournal : JournalFile → Except RecoverError (Option RecoveryJournal)
  | .absent => .ok none
  | .malformed => .error .journalMalformed
  | .present journal =>
    if journal.schemaVersion ≠ 2 then .error (.journalSchema journal.schemaVersion) else .ok (some journal)

def strictJournal : Recover (Option RecoveryJournal) := do
  let d ← disk
  ofExcept (readStrictJournal d.journal)

def loadStrictResume : Recover L1ResumeLog := do
  let d ← disk
  ofExcept (d.resume.loadStrict.mapError .resumeLog)

def boot (args : RecoverArgs) (incident : Incident) : Except RecoverError Boot :=
  match args.resolved with
  | .error reason => .error (.boot reason)
  | .ok boot => if boot.chainId ≠ incident.effectiveChainId then .error .bootChainId else .ok boot

def recoveryIdentity (args : RecoverArgs) (boot : Boot) : RecoveryIdentity where
  chainId := boot.chainId
  genesisBlock := boot.genesisBlock
  genesisHash := boot.genesisHash
  sequencerInbox := boot.sequencerInbox
  bridge := boot.bridge
  canonicalL2Rpc := args.canonicalL2Rpc
  l1Rpc := args.l1Rpc
  l1Beacon := args.l1Beacon
  l1EndBlock := args.l1EndBlock
  maxRecoveryL2Blocks := args.maxRecoveryL2Blocks
  l1Prefetch := args.l1Prefetch
  l1GetlogsRange := args.l1GetlogsRange

def observation (number : ℕ) (header : LocalHeader) : HeaderObservation := ⟨number, header.hash, header.stateRoot⟩

def connect (env : Env) : Recover Unit := do
  write fun s => { s with exchanges := s.exchanges ++ [.connect env.connect] }
  ofExcept (env.connect.mapError .authority)

/-- Ask the canonical node for a header. -/
def canonicalHeader (env : Env) (number : ℕ) : Recover HeaderObservation := do
  let s ← get
  write fun t => { t with exchanges := t.exchanges ++ [.header number (env.canonical s.exchanges number)] }
  ofExcept ((env.canonical s.exchanges number).mapError .authority)

/-! ### Writing the journal -/

/-- Replace a file by way of a rename; a failure may come before or after it. -/
def replaceFile (outcome : SaveOutcome) (f : Disk → Disk) (e : RecoverError) : Recover Unit :=
  match outcome with
  | .failedBeforeRename => fail e
  | .saved => write fun s => { s with disk := f s.disk }
  | .failedAfterRename => do
    write fun s => { s with disk := f s.disk }
    fail e

/-- The run holds the lock, so a journal that is there already is one it has not read. -/
def createJournal (env : Env) (journal : RecoveryJournal) : Recover RecoveryJournal := do
  let d ← disk
  if d.journal = .absent then do
    replaceFile (env.journalSave .prepared) (fun d => { d with journal := .present journal })
      (.journalSaveFailed .prepared)
    return journal
  else do
    let existing ← strictJournal
    require (existing = some journal) .concurrentJournal
    return journal

def saveJournal (env : Env) (journal : RecoveryJournal) : Recover Unit := do
  let current ← strictJournal
  match current with
  | none => fail .journalGone
  | some current => do
    require (sameImmutableIdentity current journal) .journalIdentityChanged
    require (legalPhaseTransition current.phase journal.phase) (.illegalTransition current.phase journal.phase)
    replaceFile (env.journalSave journal.phase) (fun d => { d with journal := .present journal })
      (.journalSaveFailed journal.phase)

def persistTerminalFailure {α : Type} (env : Env) (journal : RecoveryJournal) (cause : RecoverError) : Recover α := do
  saveJournal env { journal with phase := .failed }
  fail cause

/-! ### Checks before the lock -/

/-- How a header of the static files is read. -/
abbrev HeaderReader := ℕ → Except RecoverError (Option LocalHeader)

/-- The candidates from the newest to the oldest; the first that agrees with the canonical node is chosen. -/
def chooseFrom (env : Env) (readHeader : HeaderReader) (incident : Incident) (maxSpan : ℕ) :
    List L1ResumeCheckpoint → Recover L1ResumeCheckpoint
  | [] => fail .noCheckpoint
  | checkpoint :: checkpoints => do
    let found ← ofExcept (readHeader checkpoint.l2Block)
    match found with
    | none => chooseFrom env readHeader incident maxSpan checkpoints
    | some header => do
      let canonical ← canonicalHeader env checkpoint.l2Block
      if observation checkpoint.l2Block header = canonical then do
        require (incident.l2BlockNumber - checkpoint.l2Block ≤ maxSpan)
          (.spanExceeds (incident.l2BlockNumber - checkpoint.l2Block) maxSpan)
        return checkpoint
      else chooseFrom env readHeader incident maxSpan checkpoints

def chooseCheckpoint (env : Env) (log : L1ResumeLog) (incident : Incident) (readHeader : HeaderReader) (maxSpan : ℕ) :
    Recover L1ResumeCheckpoint :=
  chooseFrom env readHeader incident maxSpan
    (log.checkpoints.reverse.filter (fun cp => cp.l2Block < incident.l2BlockNumber))

structure Preflight where
  boot : Boot
  incident : Incident
  log : L1ResumeLog

def preflight (env : Env) (args : RecoverArgs) : Recover Preflight := do
  require (args.maxRecoveryL2Blocks ≠ 0) .zeroMaxRecoveryBlocks
  require (args.l1Prefetch ≠ 0 ∧ args.l1GetlogsRange ≠ 0) .zeroL1Bounds
  let incident ← loadActiveIncident
  let boot ← ofExcept (boot args incident)
  let log ← loadStrictResume
  connect env
  let frontier ← canonicalHeader env incident.l2BlockNumber
  require (frontier.hash = incident.canonicalHash ∧ frontier.stateRoot = incident.canonicalStateRoot)
    (.authority (.mismatch "canonical incident frontier no longer matches active incident authority"))
  return ⟨boot, incident, log⟩

/-- An existing journal must be of the same recovery, and not failed. -/
def checkInitialJournal (args : RecoverArgs) (incident : Incident) (boot : Boot) (journal : Option RecoveryJournal) :
    Recover Unit := do
  require (∀ existing ∈ journal, existing.incident = incident ∧ existing.identity = recoveryIdentity args boot)
    .identityMismatch
  require (∀ existing ∈ journal, existing.phase ≠ .failed) .markedFailed

def checkGenesis (boot : Boot) (chain : Chain) : Recover Unit :=
  match chain.header boot.genesisBlock with
  | none => fail .genesisMissing
  | some genesis => require (genesis.hash = boot.specGenesisHash) .genesisMismatch

/-- The checkpoint is still on the canonical chain. -/
def checkCheckpoint (env : Env) (chain : Chain) (checkpoint : L1ResumeCheckpoint) : Recover Unit :=
  match chain.header checkpoint.l2Block with
  | none => fail .checkpointMissing
  | some header => do
    let canonical ← canonicalHeader env checkpoint.l2Block
    require (observation checkpoint.l2Block header = canonical) .checkpointMismatch

def validateFiniteInputs (args : RecoverArgs) (checkpoint : L1ResumeCheckpoint) : Recover Unit := do
  require (args.isHttpUrl args.l1Rpc) (.invalidUrl "--l1-rpc")
  require (args.isHttpUrl args.l1Beacon) (.invalidUrl "--l1-beacon")
  require (checkpoint.l1Block ≤ args.l1EndBlock) .endBlockBeforeCheckpoint

/-- What the checks before the lock have found. -/
structure Plan where
  boot : Boot
  incident : Incident
  log : L1ResumeLog
  initialJournal : Option RecoveryJournal
  checkpoint : L1ResumeCheckpoint

def selectCheckpoint (env : Env) (args : RecoverArgs) (found : Preflight) (chain : Chain) :
    Option RecoveryJournal → Recover L1ResumeCheckpoint
  | some existing => return existing.checkpoint
  | none => chooseCheckpoint env found.log found.incident (fun n => .ok (chain.header n)) args.maxRecoveryL2Blocks

def checkBounds (args : RecoverArgs) (incident : Incident) (checkpoint : L1ResumeCheckpoint) : Recover Unit := do
  require (checkpoint.l2Block < incident.l2BlockNumber) .checkpointNotBelowFrontier
  require (incident.l2BlockNumber - checkpoint.l2Block ≤ args.maxRecoveryL2Blocks)
    (.spanExceeds (incident.l2BlockNumber - checkpoint.l2Block) args.maxRecoveryL2Blocks)
  validateFiniteInputs args checkpoint

def plan (env : Env) (args : RecoverArgs) : Recover Plan := do
  let initialIncident ← loadActiveIncident
  let initialBoot ← ofExcept (boot args initialIncident)
  let initialJournal ← strictJournal
  checkInitialJournal args initialIncident initialBoot initialJournal
  let found ← preflight env args
  let d ← disk
  checkGenesis found.boot d.chain
  let checkpoint ← selectCheckpoint env args found d.chain initialJournal
  checkCheckpoint env d.chain checkpoint
  checkBounds args found.incident checkpoint
  return ⟨found.boot, found.incident, found.log, initialJournal, checkpoint⟩

/-! ### Under the lock -/

/-- An existing journal is the one that the plan was made for. -/
def checkLockedJournal (args : RecoverArgs) (plan : Plan) (incident : Incident) (log : L1ResumeLog)
    (existing : RecoveryJournal) : Recover Unit := do
  require (existing.incident = incident) .differentIncident
  require (existing.identity = recoveryIdentity args plan.boot) .identityMismatch
  require (existing.phase ≠ .failed) .markedFailed
  require (existing.checkpoint = plan.checkpoint ∧ existing.target = plan.checkpoint.l2Block ∧
    existing.frontier = incident.l2BlockNumber) .journalChanged
  let truncated ← ofExcept (truncatedResumeFrom log plan.checkpoint)
  require (existing.truncatedResume = truncated) .journalChanged

/-- Read everything again under the lock. -/
def lockedJournal (env : Env) (args : RecoverArgs) (plan : Plan) : Recover (Option RecoveryJournal) := do
  require (env.lockFree = true) .lockHeld
  let incident ← loadActiveIncident
  require (incident = plan.incident) .incidentChanged
  let log ← loadStrictResume
  require (log = plan.log) .resumeLogChanged
  let journal ← strictJournal
  require (¬(plan.initialJournal.isSome ∧ journal.isNone)) .journalDisappeared
  match journal with
  | none => return none
  | some existing => do
    checkLockedJournal args plan incident log existing
    return some existing

/-- The journal of a recovery that begins. -/
def newJournal (args : RecoverArgs) (plan : Plan) (truncated : L1ResumeLog) (tip : ℕ) : RecoveryJournal where
  schemaVersion := 2
  identity := recoveryIdentity args plan.boot
  incident := plan.incident
  checkpoint := plan.checkpoint
  truncatedResume := truncated
  originalTip := tip
  target := plan.checkpoint.l2Block
  frontier := plan.incident.l2BlockNumber
  phase := .prepared

/-- The journal to work with: the existing one, or a new one that is published. -/
def publishJournal (env : Env) (args : RecoverArgs) (plan : Plan) (journal : Option RecoveryJournal) :
    Recover RecoveryJournal := do
  require (env.opens .locked = true) (.openFailed .locked)
  let d ← disk
  require (journal.isSome ∨ plan.incident.l2BlockNumber ≤ d.chain.tip)
    (.tipBelowFrontier d.chain.tip plan.incident.l2BlockNumber)
  require (plan.boot.genesisBlock ≤ plan.checkpoint.l2Block) .checkpointBelowGenesis
  match journal with
  | some existing => do
    require (existing.target = plan.checkpoint.l2Block ∧ existing.frontier = plan.incident.l2BlockNumber)
      .targetMismatch
    return existing
  | none => do
    let truncated ← ofExcept (truncatedResumeFrom plan.log plan.checkpoint)
    createJournal env (newJournal args plan truncated d.chain.tip)

/-! ### Unwinding -/

/-- Remove the blocks above a height. -/
def Chain.unwind (chain : Chain) (target : ℕ) : Chain where
  tip := target
  header n := if n ≤ target then chain.header n else none

/-- `factory.provider()` on a database that opens and is consistent. -/
def openConsistent (env : Env) (site : OpenSite) : Recover Chain := do
  require (env.opens site = true) (.openFailed site)
  require (env.consistent site = true) (.inconsistent site)
  let d ← disk
  return d.chain

def commitUnwind (env : Env) (journal : RecoveryJournal) : Recover Unit :=
  if env.unwindCommits then
    write fun s => { s with disk := { s.disk with chain := s.disk.chain.unwind journal.target } }
  else persistTerminalFailure env journal .unwindFailed

/-- The tip is the target after the database is opened again. -/
def confirmUnwound (env : Env) (journal : RecoveryJournal) : Recover RecoveryJournal := do
  let chain ← openConsistent env .reopen
  if chain.tip ≠ journal.target then
    persistTerminalFailure env journal (.reopenedElsewhere chain.tip journal.target)
  else if journal.phase = .prepared then do
    saveJournal env { journal with phase := .unwound }
    return { journal with phase := .unwound }
  else return journal

/-- The journal of a database at its target, or `none` for one at the frontier. -/
def unwindAndReopen (env : Env) (journal : RecoveryJournal) : Recover (Option RecoveryJournal) := do
  let chain ← openConsistent env .unwind
  let action ← ofExcept (durableTipAction journal chain.tip)
  match action with
  | .verifyFrontier => return none
  | .unwindToTarget => do
    commitUnwind env journal
    let journal ← confirmUnwound env journal
    return some journal
  | .atTarget => do
    let journal ← confirmUnwound env journal
    return some journal

/-! ### The resume log -/

def saveResume (env : Env) (journal : RecoveryJournal) : Recover Unit := do
  let saved ← attempt (replaceFile env.resumeSave (fun d => { d with resume := .wrapped journal.truncatedResume })
    .resumeSaveFailed)
  match saved with
  | .ok _ => return ()
  | .error e => persistTerminalFailure env journal e

/-- A log that is cut back already is not written again. -/
def replaceResume (env : Env) (log : L1ResumeLog) (journal : RecoveryJournal) : Recover Unit :=
  if log ≠ journal.truncatedResume then saveResume env journal else pure ()

/-- The log on disk is the one that the journal names. -/
def checkDurableResume (env : Env) (journal : RecoveryJournal) : Recover Unit := do
  let durable ← attempt loadStrictResume
  match durable with
  | .error e => persistTerminalFailure env journal e
  | .ok durable =>
    if durable = journal.truncatedResume then return ()
    else persistTerminalFailure env journal .durableResumeMismatch

def durablyTruncateResume (env : Env) (log : L1ResumeLog) (journal : RecoveryJournal) : Recover RecoveryJournal := do
  let derived ← ofExcept (truncatedResumeFrom log journal.checkpoint)
  if derived ≠ journal.truncatedResume then persistTerminalFailure env journal .truncationMismatch
  else
    match journal.phase with
    | .unwound => do
      replaceResume env log journal
      checkDurableResume env journal
      saveJournal env { journal with phase := .resumeTruncated }
      return { journal with phase := .resumeTruncated }
    | .resumeTruncated => do
      checkDurableResume env journal
      return journal
    | phase => fail (.truncateFromPhase phase)

/-! ### Replay and verification -/

def finiteReplay (env : Env) (config : StoppedFiniteConfig) : Recover HeaderObservation := do
  let s ← get
  writeAll fun s => (env.finiteRunner config s.disk.chain).1.map fun chain =>
    { s with disk := { s.disk with chain } }
  ofExcept ((env.finiteRunner config s.disk.chain).2.mapError .finite)

def verifyDurableFrontier (env : Env) (journal : RecoveryJournal) : Recover Unit := do
  require (env.opens .verify = true) (.openFailed .verify)
  let d ← disk
  match d.chain.header journal.frontier with
  | none => fail .frontierHeaderMissing
  | some header => do
    require (d.chain.tip = journal.frontier) (.frontierTip d.chain.tip journal.frontier)
    let canonical ← canonicalHeader env journal.frontier
    require (observation journal.frontier header = canonical) .frontierMismatch

/-- A restart finds the database at the frontier. -/
def verifyRestart (env : Env) (journal : RecoveryJournal) : Recover Unit := do
  let verified ← attempt (verifyDurableFrontier env journal)
  match verified with
  | .error (.authority e) => fail (.authority e)
  | .error e => if journal.phase = .resumeTruncated then persistTerminalFailure env journal e else fail e
  | .ok _ =>
    if journal.phase = .resumeTruncated then saveJournal env { journal with phase := .frontierMatched }
    else return ()

/-- Replay from the checkpoint, and publish success if the durable frontier is the canonical one. -/
def replayAndVerify (env : Env) (journal : RecoveryJournal) : Recover Unit := do
  let rebuilt ← finiteReplay env ⟨journal.checkpoint, journal.frontier⟩
  let canonical ← canonicalHeader env journal.frontier
  if rebuilt ≠ canonical then persistTerminalFailure env journal .rebuiltMismatch
  else do
    let verified ← attempt (verifyDurableFrontier env journal)
    match verified with
    | .error (.authority e) => fail (.authority e)
    | .error e => persistTerminalFailure env journal e
    | .ok _ => saveJournal env { journal with phase := .frontierMatched }

/-- One run of the command (`run_inner_with_before_lock`). -/
def recover (env : Env) (args : RecoverArgs) : Recover Unit := do
  let plan ← plan env args
  let existing ← lockedJournal env args plan
  let journal ← publishJournal env args plan existing
  let unwound ← unwindAndReopen env journal
  match unwound with
  | none => verifyRestart env journal
  | some journal => do
    let journal ← durablyTruncateResume env plan.log journal
    replayAndVerify env journal

/-! ### Rules for the readers -/

section Rules

variable {G : Run → Run → Prop} {P : Run → Prop} {E : RecoverError → Run → Prop}

theorem disk_triple : Triple G P disk (fun d s => P s ∧ s.disk = d) E :=
  Triple.bind (Triple.get (Q := fun a s => P s ∧ s = a) fun _ hs => ⟨hs, rfl⟩) fun _ =>
    Triple.pure fun _ hs => ⟨hs.1, congrArg Run.disk hs.2⟩

theorem read_triple {α : Type} {f : Disk → Except RecoverError α} (hE : ∀ s e, P s → f s.disk = .error e → E e s) :
    Triple G P (disk >>= fun d => ofExcept (f d)) (fun a s => P s ∧ f s.disk = .ok a) E := by
  refine Triple.bind disk_triple fun d => Triple.ofExcept ?_ ?_
  · rintro a ha s ⟨hs, rfl⟩
    exact ⟨hs, ha⟩
  · rintro e he s ⟨hs, rfl⟩
    exact hE s e hs he

end Rules

theorem readStrictJournal_some {file : JournalFile} {journal : RecoveryJournal}
    (h : readStrictJournal file = .ok (some journal)) : file = .present journal ∧ journal.schemaVersion = 2 := by
  cases file with
  | absent => cases h
  | malformed => cases h
  | present current =>
    simp only [readStrictJournal] at h
    split at h
    · cases h
    · rename_i hversion
      cases h
      exact ⟨rfl, not_not.mp hversion⟩

end ArbReth.Recovery
