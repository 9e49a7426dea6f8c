import ArbReth.Primitives
import ArbReth.Sync.ResumeLog

/-! # The recovery journal

`arb-reth recover` (`arb-reth-node/src/commands/recover.rs`) rebuilds a stopped node after it has diverged from a
trusted L2 node: it unwinds the database to a checkpoint below the incident, cuts the resume log back to that
checkpoint, and replays from L1 up to the incident.  The journal on disk says how far a recovery has come.  Only
its phase changes once it is published; the phase and the durable tip decide what a restart does. -/

namespace ArbReth.Recovery

open ArbReth.Sync

inductive Phase where
  | prepared
  | unwound
  | resumeTruncated
  | frontierMatched
  | failed
deriving DecidableEq, Repr

structure HeaderObservation where
  number : ℕ
  hash : B256
  stateRoot : B256
deriving DecidableEq, Repr

structure Incident where
  schemaVersion : ℕ
  effectiveChainId : ℕ
  l2BlockNumber : ℕ
  localHash : B256
  canonicalHash : B256
  localStateRoot : B256
  canonicalStateRoot : B256
  detectedAtUnixSecs : ℕ
deriving DecidableEq, Repr

structure RecoveryIdentity where
  chainId : ℕ
  genesisBlock : ℕ
  genesisHash : B256
  sequencerInbox : Address
  bridge : Address
  canonicalL2Rpc : String
  l1Rpc : String
  l1Beacon : String
  l1EndBlock : ℕ
  maxRecoveryL2Blocks : ℕ
  l1Prefetch : ℕ
  l1GetlogsRange : ℕ
deriving DecidableEq, Repr

structure RecoveryJournal where
  schemaVersion : ℕ
  identity : RecoveryIdentity
  incident : Incident
  checkpoint : L1ResumeCheckpoint
  truncatedResume : L1ResumeLog
  originalTip : ℕ
  target : ℕ
  frontier : ℕ
  phase : Phase
deriving DecidableEq, Repr

/-- What is at the path of the journal. -/
inductive JournalFile where
  | absent
  | malformed
  | present (journal : RecoveryJournal)
deriving DecidableEq, Repr

/-- Failures of the canonical L2 node. -/
inductive RecoveryAuthorityError where
  | unavailable (message : String)
  | malformed (message : String)
  | mismatch (message : String)
deriving DecidableEq, Repr

/-- Where the database is opened. -/
inductive OpenSite where
  | locked
  | unwind
  | reopen
  | verify
deriving DecidableEq, Repr

inductive RecoverError where
  | incidentUnreadable
  | boot (reason : String)
  | bootChainId
  | journalMalformed
  | journalSchema (version : ℕ)
  | identityMismatch
  | markedFailed
  | zeroMaxRecoveryBlocks
  | zeroL1Bounds
  | resumeLog (error : LoadError)
  | authority (error : RecoveryAuthorityError)
  | genesisMissing
  | genesisMismatch
  | spanExceeds (span maximum : ℕ)
  | noCheckpoint
  | checkpointMissing
  | checkpointMismatch
  | checkpointNotBelowFrontier
  | invalidUrl (name : String)
  | endBlockBeforeCheckpoint
  | lockHeld
  | incidentChanged
  | resumeLogChanged
  | journalDisappeared
  | differentIncident
  | journalChanged
  | resumeNotRetaining
  | openFailed (site : OpenSite)
  | inconsistent (site : OpenSite)
  | tipBelowFrontier (tip frontier : ℕ)
  | checkpointBelowGenesis
  | targetMismatch
  | concurrentJournal
  | journalSaveFailed (phase : Phase)
  | journalGone
  | journalIdentityChanged
  | illegalTransition (before after : Phase)
  | terminallyFailed
  | incompatibleTip (tip : ℕ) (phase : Phase)
  | unwindFailed
  | reopenedElsewhere (tip target : ℕ)
  | truncationMismatch
  | resumeSaveFailed
  | durableResumeMismatch
  | truncateFromPhase (phase : Phase)
  | finite (reason : String)
  | rebuiltMismatch
  | frontierHeaderMissing
  | frontierTip (tip frontier : ℕ)
  | frontierMismatch
deriving DecidableEq, Repr

/-! ### Decisions -/

def sameImmutableIdentity (left right : RecoveryJournal) : Bool :=
  left.schemaVersion = right.schemaVersion && left.identity = right.identity && left.incident = right.incident &&
    left.checkpoint = right.checkpoint && left.truncatedResume = right.truncatedResume &&
    left.originalTip = right.originalTip && left.target = right.target && left.frontier = right.frontier

def legalPhaseTransition (before after : Phase) : Bool :=
  before = after ||
    match before, after with
    | .prepared, .unwound | .prepared, .failed => true
    | .unwound, .resumeTruncated | .unwound, .failed => true
    | .resumeTruncated, .frontierMatched | .resumeTruncated, .failed => true
    | _, _ => false

inductive DurableTipAction where
  | unwindToTarget
  | atTarget
  | verifyFrontier
deriving DecidableEq, Repr

/-- What to do, from the journal and the durable tip. -/
def durableTipAction (journal : RecoveryJournal) (tip : ℕ) : Except RecoverError DurableTipAction :=
  match journal.phase with
  | .prepared =>
    if journal.target ≤ tip then .ok (if journal.target < tip then .unwindToTarget else .atTarget)
    else .error (.incompatibleTip tip journal.phase)
  | .unwound => if tip = journal.target then .ok .atTarget else .error (.incompatibleTip tip journal.phase)
  | .resumeTruncated =>
    if tip = journal.target then .ok .atTarget
    else if journal.target < tip ∧ tip < journal.frontier then .ok .unwindToTarget
    else if tip = journal.frontier then .ok .verifyFrontier
    else .error (.incompatibleTip tip journal.phase)
  | .frontierMatched =>
    if tip = journal.frontier then .ok .verifyFrontier else .error (.incompatibleTip tip journal.phase)
  | .failed => .error .terminallyFailed

/-- Drop every boundary above an L2 block (`L1ResumeLog::truncate_to`). -/
def truncateTo (log : L1ResumeLog) (l2Block : ℕ) : L1ResumeLog := ⟨log.checkpoints.filter (·.l2Block ≤ l2Block)⟩

/-- The part of the log that recovery keeps; it must end with the checkpoint. -/
def truncatedResumeFrom (log : L1ResumeLog) (checkpoint : L1ResumeCheckpoint) : Except RecoverError L1ResumeLog :=
  let truncated := truncateTo log checkpoint.l2Block
  if truncated.checkpoints.getLast? = some checkpoint then .ok truncated else .error .resumeNotRetaining

/-! ### Facts about the decisions -/

theorem sameImmutableIdentity_iff {left right : RecoveryJournal} :
    sameImmutableIdentity left right = true ↔ right = { left with phase := right.phase } := by
  obtain ⟨v, i, n, c, r, o, t, f, p⟩ := left
  obtain ⟨v', i', n', c', r', o', t', f', p'⟩ := right
  simp only [sameImmutableIdentity, Bool.and_eq_true, decide_eq_true_eq, RecoveryJournal.mk.injEq, and_true]
  constructor
  · rintro ⟨⟨⟨⟨⟨⟨⟨rfl, rfl⟩, rfl⟩, rfl⟩, rfl⟩, rfl⟩, rfl⟩, rfl⟩
    exact ⟨rfl, rfl, rfl, rfl, rfl, rfl, rfl, rfl⟩
  · rintro ⟨rfl, rfl, rfl, rfl, rfl, rfl, rfl, rfl⟩
    exact ⟨⟨⟨⟨⟨⟨⟨rfl, rfl⟩, rfl⟩, rfl⟩, rfl⟩, rfl⟩, rfl⟩, rfl⟩

theorem durableTipAction_cases {journal : RecoveryJournal} {tip : ℕ} {action : DurableTipAction}
    (h : durableTipAction journal tip = .ok action) :
    (action = .unwindToTarget ∧ journal.target < tip ∧ (journal.phase = .prepared ∨ journal.phase = .resumeTruncated)) ∨
      (action = .atTarget ∧ tip = journal.target ∧
        (journal.phase = .prepared ∨ journal.phase = .unwound ∨ journal.phase = .resumeTruncated)) ∨
      (action = .verifyFrontier ∧ tip = journal.frontier ∧
        (journal.phase = .resumeTruncated ∨ journal.phase = .frontierMatched)) := by
  unfold durableTipAction at h
  cases hp : journal.phase with
  | prepared =>
    simp only [hp] at h
    split at h
    · split at h
      · cases h
        exact Or.inl ⟨rfl, by assumption, Or.inl rfl⟩
      · cases h
        exact Or.inr (Or.inl ⟨rfl, by omega, Or.inl rfl⟩)
    · cases h
  | unwound =>
    simp only [hp] at h
    split at h
    · cases h
      exact Or.inr (Or.inl ⟨rfl, by assumption, Or.inr (Or.inl rfl)⟩)
    · cases h
  | resumeTruncated =>
    simp only [hp] at h
    split at h
    · cases h
      exact Or.inr (Or.inl ⟨rfl, by assumption, Or.inr (Or.inr rfl)⟩)
    · split at h
      · rename_i hbetween
        cases h
        exact Or.inl ⟨rfl, hbetween.1, Or.inr rfl⟩
      · split at h
        · cases h
          exact Or.inr (Or.inr ⟨rfl, by assumption, Or.inl rfl⟩)
        · cases h
  | frontierMatched =>
    simp only [hp] at h
    split at h
    · cases h
      exact Or.inr (Or.inr ⟨rfl, by assumption, Or.inr rfl⟩)
    · cases h
  | failed =>
    simp only [hp] at h
    cases h

theorem truncateTo_idem (log : L1ResumeLog) (l2Block : ℕ) :
    truncateTo (truncateTo log l2Block) l2Block = truncateTo log l2Block := by
  unfold truncateTo
  rw [List.filter_filter]
  simp only [Bool.and_self]

variable {log truncated : L1ResumeLog} {checkpoint : L1ResumeCheckpoint}

theorem truncatedResumeFrom_ok : truncatedResumeFrom log checkpoint = .ok truncated ↔
      truncateTo log checkpoint.l2Block = truncated ∧ truncated.checkpoints.getLast? = some checkpoint := by
  unfold truncatedResumeFrom
  dsimp only
  constructor
  · intro h
    split at h
    · rename_i hlast
      cases h
      exact ⟨rfl, hlast⟩
    · cases h
  · rintro ⟨rfl, hlast⟩
    rw [if_pos hlast]

theorem truncatedResumeFrom_self (h : truncatedResumeFrom log checkpoint = .ok truncated) :
    truncatedResumeFrom truncated checkpoint = .ok truncated := by
  obtain ⟨rfl, hlast⟩ := truncatedResumeFrom_ok.mp h
  exact truncatedResumeFrom_ok.mpr ⟨truncateTo_idem log _, hlast⟩

theorem truncateTo_ascending {log : L1ResumeLog} (h : log.Ascending) (l2Block : ℕ) :
    (truncateTo log l2Block).Ascending := by
  have htrans : IsTrans L1ResumeCheckpoint (·.l2Block < ·.l2Block) := ⟨fun _ _ _ => Nat.lt_trans⟩
  exact (List.isChain_iff_pairwise.mpr ((List.isChain_iff_pairwise.mp h).filter _))

end ArbReth.Recovery
