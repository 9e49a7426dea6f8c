import ArbReth.Recovery.Recover

/-! # What holds on disk during a recovery

For fixed arguments, a fixed incident and a fixed canonical chain: the journal is bound to the three of them, and the
phase says how far the database and the resume log are. -/

namespace ArbReth.Recovery

open ArbReth.Sync ArbReth.Durable

/-- The bounds that a checkpoint passes before a journal is published. -/
structure ArgsFit (args : RecoverArgs) (incident : Incident) (checkpoint : L1ResumeCheckpoint) : Prop where
  maxSpan : args.maxRecoveryL2Blocks ≠ 0
  l1Bounds : args.l1Prefetch ≠ 0 ∧ args.l1GetlogsRange ≠ 0
  below : checkpoint.l2Block < incident.l2BlockNumber
  span : incident.l2BlockNumber - checkpoint.l2Block ≤ args.maxRecoveryL2Blocks
  l1Rpc : args.isHttpUrl args.l1Rpc = true
  l1Beacon : args.isHttpUrl args.l1Beacon = true
  endBlock : checkpoint.l1Block ≤ args.l1EndBlock

/-- The block of a checkpoint is the canonical one. -/
def OnCanonical (authority : ℕ → HeaderObservation) (chain : Chain) (number : ℕ) : Prop :=
  ∃ header, chain.header number = some header ∧ observation number header = authority number

def HasGenesis (boot : Boot) (chain : Chain) : Prop :=
  ∃ genesis, chain.header boot.genesisBlock = some genesis ∧ genesis.hash = boot.specGenesisHash

/-- The log can be read, and recovery keeps a given part of it. -/
def Retains (file : ResumeFile) (checkpoint : L1ResumeCheckpoint) (truncated : L1ResumeLog) : Prop :=
  ∃ log, file.loadStrict = .ok log ∧ truncatedResumeFrom log checkpoint = .ok truncated

/-- What stays the same during a recovery: the arguments, the incident and the canonical chain. -/
structure Case where
  args : RecoverArgs
  incident : Incident
  authority : ℕ → HeaderObservation

section Fixed

variable (c : Case)

/-- The journal is the one of this recovery, and the disk has what it needs. -/
structure Case.Bound (boot : Boot) (journal : RecoveryJournal) (d : Disk) : Prop where
  schema : journal.schemaVersion = 2
  boots : ArbReth.Recovery.boot c.args c.incident = .ok boot
  incident_eq : journal.incident = c.incident
  identity : journal.identity = recoveryIdentity c.args boot
  target : journal.target = journal.checkpoint.l2Block
  frontier : journal.frontier = c.incident.l2BlockNumber
  fits : ArgsFit c.args c.incident journal.checkpoint
  retains : Retains d.resume journal.checkpoint journal.truncatedResume
  canonical : OnCanonical c.authority d.chain journal.target
  genesis : HasGenesis boot d.chain
  genesisBelow : boot.genesisBlock ≤ journal.target
  tip : journal.target ≤ d.chain.tip

/-- How far the database and the resume log are in a phase. -/
def PhaseHolds (journal : RecoveryJournal) (d : Disk) : Prop :=
  match journal.phase with
  | .prepared => True
  | .unwound => d.chain.tip = journal.target
  | .resumeTruncated => d.chain.tip ≤ journal.frontier ∧ d.resume = .wrapped journal.truncatedResume
  | .frontierMatched => d.chain.tip = journal.frontier ∧ d.resume = .wrapped journal.truncatedResume
  | .failed => True

/-- A disk with a journal of this recovery. -/
structure Case.Journaled (journal : RecoveryJournal) (d : Disk) : Prop where
  active : d.incident = some c.incident
  present : d.journal = .present journal
  bound : ∃ boot, c.Bound boot journal d
  phase : PhaseHolds journal d

/-- The invariant of a recovery. -/
def Case.Inv (d : Disk) : Prop :=
  (d.incident = some c.incident ∧ d.journal = .absent) ∨ ∃ journal, c.Journaled journal d

end Fixed

/-- The moves of the phase. -/
inductive PhaseMove : Phase → Phase → Prop
  | stay (phase : Phase) : PhaseMove phase phase
  | unwind : PhaseMove .prepared .unwound
  | truncate : PhaseMove .unwound .resumeTruncated
  | verify : PhaseMove .resumeTruncated .frontierMatched
  | fail (phase : Phase) : PhaseMove phase .failed

theorem PhaseMove.of_legal {before after : Phase} (h : legalPhaseTransition before after = true) :
    PhaseMove before after := by
  cases before <;> cases after <;>
    first
    | exact .stay _
    | exact .fail _
    | exact .unwind
    | exact .truncate
    | exact .verify
    | cases h

/-- What a durable write may change: the phase of a journal moves, no block up to its target is changed, and the resume
log is replaced in the phase `unwound` only. -/
structure Advance (s t : Disk) : Prop where
  journal : ∀ journal', t.journal = .present journal' →
    (s.journal = .absent ∧ journal'.phase = .prepared) ∨
      ∃ journal, s.journal = .present journal ∧ journal' = { journal with phase := journal'.phase } ∧
        PhaseMove journal.phase journal'.phase
  kept : ∀ journal, s.journal = .present journal → ∃ journal', t.journal = .present journal'
  blocks : ∀ journal', t.journal = .present journal' →
    journal'.target ≤ t.chain.tip ∧ ∀ n ≤ journal'.target, t.chain.header n = s.chain.header n
  resume : t.resume = s.resume ∨ ∃ journal, s.journal = .present journal ∧ journal.phase = .unwound ∧
    t.resume = .wrapped journal.truncatedResume

section Lemmas

variable {c : Case} {boot : Boot} {journal : RecoveryJournal} {d d' : Disk}

theorem Case.Inv.incident_eq (h : c.Inv d) : d.incident = some c.incident := by
  rcases h with ⟨h, -⟩ | ⟨journal, h⟩
  · exact h
  · exact h.active

theorem Case.Journaled.inv (h : c.Journaled journal d) : c.Inv d :=
  Or.inr ⟨journal, h⟩

theorem Case.Inv.journaled (h : c.Inv d) (hjournal : d.journal = .present journal) :
    c.Journaled journal d := by
  rcases h with ⟨-, h⟩ | ⟨journal', h⟩
  · rw [h] at hjournal
    cases hjournal
  · have heq := h.present.symm.trans hjournal
    cases heq
    exact h

theorem Case.Inv.tip_of_present (h : c.Inv d) (hjournal : d.journal = .present journal) :
    journal.target ≤ d.chain.tip := by
  obtain ⟨boot, hbound⟩ := (h.journaled hjournal).bound
  exact hbound.tip

/-- From `resumeTruncated` on the resume log is the truncated one. -/
theorem Case.Journaled.resume_of_phase (h : c.Journaled journal d)
    (hphase : journal.phase = .resumeTruncated ∨ journal.phase = .frontierMatched) :
    d.resume = .wrapped journal.truncatedResume := by
  have hholds := h.phase
  unfold PhaseHolds at hholds
  rcases hphase with hp | hp
  · rw [hp] at hholds
    exact hholds.2
  · rw [hp] at hholds
    exact hholds.2

theorem Advance.refl (h : c.Inv d) : Advance d d :=
  ⟨fun journal hj => Or.inr ⟨journal, hj, rfl, .stay _⟩, fun journal hj => ⟨journal, hj⟩,
    fun _ hj => ⟨h.tip_of_present hj, fun _ _ => rfl⟩, Or.inl rfl⟩

theorem Advance.of_phase (h : c.Journaled journal d) {phase : Phase}
    (hmove : PhaseMove journal.phase phase) : Advance d { d with journal := .present { journal with phase } } := by
  obtain ⟨boot, hbound⟩ := h.bound
  refine ⟨fun journal' hj => ?_, fun _ _ => ⟨_, rfl⟩, fun journal' hj => ?_, Or.inl rfl⟩
  · cases hj
    exact Or.inr ⟨journal, h.present, rfl, hmove⟩
  · cases hj
    exact ⟨hbound.tip, fun _ _ => rfl⟩

/-- The chain or the resume log has changed under the same journal. -/
theorem Advance.of_same_journal (h : c.Journaled journal d)
    (h' : c.Journaled journal d')
    (hblocks : ∀ n ≤ journal.target, d'.chain.header n = d.chain.header n)
    (hresume : d'.resume = d.resume ∨ journal.phase = .unwound ∧ d'.resume = .wrapped journal.truncatedResume) :
    Advance d d' := by
  obtain ⟨boot, hbound⟩ := h'.bound
  refine ⟨fun journal' hj => ?_, fun _ _ => ⟨_, h'.present⟩, fun journal' hj => ?_,
    hresume.imp_right fun hresume => ⟨journal, h.present, hresume⟩⟩
  · have heq := h'.present.symm.trans hj
    cases heq
    exact Or.inr ⟨journal, h.present, rfl, .stay _⟩
  · have heq := h'.present.symm.trans hj
    cases heq
    exact ⟨hbound.tip, hblocks⟩

/-- The binding of the journal survives a change of the phase. -/
theorem Case.Bound.phase (h : c.Bound boot journal d) (phase : Phase) :
    c.Bound boot { journal with phase }
      { d with journal := .present { journal with phase } } :=
  ⟨h.schema, h.boots, h.incident_eq, h.identity, h.target, h.frontier, h.fits, h.retains, h.canonical, h.genesis,
    h.genesisBelow, h.tip⟩

theorem Case.Bound.target_lt (h : c.Bound boot journal d) : journal.target < journal.frontier := by
  rw [h.target, h.frontier]
  exact h.fits.below

/-- The binding survives a change of the chain above the target. -/
theorem Case.Bound.chain (h : c.Bound boot journal d) {chain : Chain}
    (htip : journal.target ≤ chain.tip) (hblocks : ∀ n ≤ journal.target, chain.header n = d.chain.header n) :
    c.Bound boot journal { d with chain } := by
  obtain ⟨header, hheader, hcanonical⟩ := h.canonical
  obtain ⟨genesis, hgenesis, hhash⟩ := h.genesis
  exact ⟨h.schema, h.boots, h.incident_eq, h.identity, h.target, h.frontier, h.fits, h.retains,
    ⟨header, (hblocks _ le_rfl).trans hheader, hcanonical⟩,
    ⟨genesis, (hblocks _ h.genesisBelow).trans hgenesis, hhash⟩, h.genesisBelow, htip⟩

variable {file : ResumeFile}

theorem loadStrict_ok {log : L1ResumeLog} (h : file.loadStrict = .ok log) : file = .wrapped log ∧ log.Ascending := by
  cases file with
  | absent => cases h
  | malformed => cases h
  | legacy cp => cases h
  | wrapped log' =>
    have heq : log' = log := by
      simp only [ResumeFile.loadStrict] at h
      split at h
      · cases h
      · exact Except.ok.inj h
    subst heq
    exact ⟨rfl, (ResumeFile.loadStrict_wrapped log').mp h⟩

variable {checkpoint : L1ResumeCheckpoint}

theorem Retains.loadStrict_truncated {truncated : L1ResumeLog}
    (h : Retains file checkpoint truncated) : (ResumeFile.wrapped truncated).loadStrict = .ok truncated := by
  obtain ⟨log, hload, htruncated⟩ := h
  obtain ⟨rfl, -⟩ := truncatedResumeFrom_ok.mp htruncated
  exact (ResumeFile.loadStrict_wrapped _).mpr (truncateTo_ascending (loadStrict_ok hload).2 _)

theorem Retains.truncated {truncated : L1ResumeLog}
    (h : Retains file checkpoint truncated) : Retains (.wrapped truncated) checkpoint truncated := by
  have hload := h.loadStrict_truncated
  obtain ⟨log, -, htruncated⟩ := h
  exact ⟨truncated, hload, truncatedResumeFrom_self htruncated⟩

theorem Case.Bound.truncated (h : c.Bound boot journal d) :
    c.Bound boot journal { d with resume := .wrapped journal.truncatedResume } :=
  ⟨h.schema, h.boots, h.incident_eq, h.identity, h.target, h.frontier, h.fits, h.retains.truncated, h.canonical,
    h.genesis, h.genesisBelow, h.tip⟩

/-- In every phase but `failed` the tip has an action. -/
theorem durableTipAction_ok (h : c.Journaled journal d) (hphase : journal.phase ≠ .failed) :
    ∃ action, durableTipAction journal d.chain.tip = .ok action := by
  obtain ⟨boot, hbound⟩ := h.bound
  have htip := hbound.tip
  have hholds := h.phase
  unfold PhaseHolds at hholds
  unfold durableTipAction
  cases hp : journal.phase with
  | prepared => exact ⟨_, if_pos htip⟩
  | unwound =>
    rw [hp] at hholds
    exact ⟨_, if_pos hholds⟩
  | resumeTruncated =>
    rw [hp] at hholds
    have hle := hholds.1
    dsimp only
    split
    · exact ⟨_, rfl⟩
    · split
      · exact ⟨_, rfl⟩
      · exact ⟨_, if_pos (by omega)⟩
  | frontierMatched =>
    rw [hp] at hholds
    exact ⟨_, if_pos hholds.1⟩
  | failed => exact absurd hp hphase

end Lemmas

end ArbReth.Recovery
