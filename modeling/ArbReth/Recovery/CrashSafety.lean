import ArbReth.Recovery.Invariant

/-! # Recovery survives crashes

Every durable write of a run keeps the invariant and advances the recovery; and a run that finds the journal of an
unfinished recovery does not refuse it.  So a recovery can be cut at any time and any number of times. -/

namespace ArbReth.Recovery

open ArbReth.Sync ArbReth.Durable ArbReth.Runs
open ArbReth.Durable.Prog (get write writeAll ofExcept fail require attempt)

/-- A failure by which a run refuses what it finds.  The others come from outside. -/
def RecoverError.isRefusal : RecoverError → Bool
  | .authority _ | .lockHeld | .openFailed _ | .inconsistent _ | .journalSaveFailed _ | .unwindFailed
  | .resumeSaveFailed | .finite _ | .rebuiltMismatch | .frontierHeaderMissing | .frontierTip _ _
  | .frontierMismatch => false
  | _ => true

/-- The canonical node answers from one chain, if it answers. -/
def FixedAuthority (authority : ℕ → HeaderObservation) (env : Env) : Prop :=
  ∀ exchanges n o, env.canonical exchanges n = .ok o → o = authority n

/-- The replay extends a chain that ends at the checkpoint, and persists nothing above the frontier. -/
def ReplaysWithin (env : Env) : Prop :=
  ∀ config chain, chain.tip = config.checkpoint.l2Block → ∀ c ∈ (env.finiteRunner config chain).1,
    config.checkpoint.l2Block ≤ c.tip ∧ c.tip ≤ config.frontier ∧
      ∀ n ≤ config.checkpoint.l2Block, c.header n = chain.header n

/-- What the checks before the lock have established. -/
structure Case.PlanFits (c : Case) (d : Disk) (plan : Plan) : Prop where
  boots : boot c.args c.incident = .ok plan.boot
  incident_eq : plan.incident = c.incident
  log : d.resume.loadStrict = .ok plan.log
  journal : readStrictJournal d.journal = .ok plan.initialJournal
  genesis : HasGenesis plan.boot d.chain
  canonical : OnCanonical c.authority d.chain plan.checkpoint.l2Block
  fits : ArgsFit c.args c.incident plan.checkpoint
  existing : ∀ journal ∈ plan.initialJournal, journal.checkpoint = plan.checkpoint

def At (d : Disk) (s : Run) : Prop := s.disk = d

/-- A run that is a restart fails without a refusal. -/
def Fails (restart : Prop) (e : RecoverError) (_ : Run) : Prop := restart → e.isRefusal = false

section Rules

variable {α β : Type} {G : Run → Run → Prop} {E : RecoverError → Run → Prop} {d : Disk} {Q : α → Run → Prop}

theorem disk_bind {f : Disk → Recover α} (h : Triple G (At d) (f d) Q E) : Triple G (At d) (disk >>= f) Q E :=
  Triple.bind disk_triple fun d' => by
    rintro s ⟨hs, hd⟩
    rw [← hd, hs]
    exact h s hs

theorem read_bind {f : Disk → Except RecoverError β} {k : β → Recover α}
    (herror : ∀ e, f d = .error e → ∀ s, At d s → E e s) (h : ∀ b, f d = .ok b → Triple G (At d) (k b) Q E) :
    Triple G (At d) ((disk >>= fun d => ofExcept (f d)) >>= k) Q E := by
  refine Triple.bind (read_triple fun s e hs he => ?_) fun b => ?_
  · rw [hs] at he
    exact herror e he s hs
  · rintro s ⟨hs, hb⟩
    rw [hs] at hb
    exact h b hb s hs

end Rules

section Fixed

variable {α : Type} (c : Case)

/-- A durable write of a recovery. -/
def Case.Step (s t : Run) : Prop := c.Inv t.disk ∧ Advance s.disk t.disk

/-- A part of a run on the disk `d`: its writes are steps of the recovery, and it does not refuse a restart. -/
abbrev Case.Goes (restart : Prop) (d : Disk) (p : Recover α) (Q : α → Run → Prop) : Prop :=
  Triple c.Step (At d) p Q (Fails restart)

variable {c} {env : Env} {restart : Prop} {d : Disk} {Q : α → Run → Prop}

/-- What a restart can rely on. -/
def Case.Restartable (c : Case) (d : Disk) : Prop :=
  ∃ journal boot, d.journal = .present journal ∧ journal.phase ≠ .failed ∧
    c.Bound boot journal d

variable (hauthority : FixedAuthority c.authority env) (hinv : c.Inv d)
  (hrestart : restart → c.Restartable d)

/-! ### Requests -/

include hinv in
theorem exchange_bind {E : RecoverError → Run → Prop} {exchange : Exchange} {p : Recover α}
    (h : Triple c.Step (At d) p Q E) : Triple c.Step (At d)
      ((write fun s => { s with exchanges := s.exchanges ++ [exchange] } : Recover Unit) >>= fun _ => p) Q E := by
  refine Triple.bind (Triple.write (Q := fun _ s => At d s) ?_) fun _ => h
  rintro s rfl
  exact ⟨⟨hinv, Advance.refl hinv⟩, rfl⟩

include hinv in
theorem connect_bind {k : Unit → Recover α} (h : c.Goes restart d (k ()) Q) :
    c.Goes restart d (connect env >>= k) Q := by
  refine Triple.bind (Q := fun _ s => At d s) ?_ fun _ => h
  refine exchange_bind hinv (Triple.ofExcept (fun _ _ _ hs => hs) fun e he s _ _ => ?_)
  obtain ⟨a, -, rfl⟩ := mapError_error.mp he
  rfl

include hauthority hinv in
/-- A request ends the run, or gives the header of the fixed chain. -/
theorem canonicalHeader_at {E : RecoverError → Run → Prop} {k : HeaderObservation → Recover α} {number : ℕ}
    (hE : ∀ a s, At d s → E (.authority a) s)
    (h : Triple c.Step (At d) (k (c.authority number)) Q E) :
    Triple c.Step (At d) (canonicalHeader env number >>= k) Q E := by
  refine Triple.bind (Q := fun o s => At d s ∧ o = c.authority number) ?_ fun o => Triple.assume fun ho => ho ▸ h
  refine Triple.bind (Triple.get (Q := fun _ s => At d s) fun _ hs => hs) fun s => ?_
  refine exchange_bind hinv (Triple.ofExcept (fun o ho t ht => ?_) fun e he t ht => ?_)
  · exact ⟨ht, hauthority _ _ _ (mapError_ok.mp ho)⟩
  · obtain ⟨a, -, rfl⟩ := mapError_error.mp he
    exact hE a t ht

include hauthority hinv in
theorem canonicalHeader_bind {k : HeaderObservation → Recover α} {number : ℕ}
    (h : c.Goes restart d (k (c.authority number)) Q) :
    c.Goes restart d (canonicalHeader env number >>= k) Q :=
  canonicalHeader_at hauthority hinv (fun _ _ _ _ => rfl) h

/-! ### Checks before the lock -/

theorem Case.Restartable.strict (h : c.Restartable d) :
    ∃ journal boot, readStrictJournal d.journal = .ok (some journal) ∧ journal.phase ≠ .failed ∧
      c.Bound boot journal d := by
  obtain ⟨journal, boot, hpresent, hphase, hbound⟩ := h
  refine ⟨journal, boot, ?_, hphase, hbound⟩
  rw [hpresent]
  exact if_neg (not_not.mpr hbound.schema)

include hinv in
theorem loadActiveIncident_bind {k : Incident → Recover α} (h : c.Goes restart d (k c.incident) Q) :
    c.Goes restart d (loadActiveIncident >>= k) Q := by
  refine read_bind (fun e he => ?_) fun found hfound => ?_
  · rw [hinv.incident_eq] at he
    cases he
  · rw [hinv.incident_eq] at hfound
    cases hfound
    exact h

include hrestart in
theorem boot_bind {k : Boot → Recover α} (h : ∀ boot, ArbReth.Recovery.boot c.args c.incident = .ok boot →
      c.Goes restart d (k boot) Q) :
    c.Goes restart d (ofExcept (boot c.args c.incident) >>= k) Q := by
  refine Triple.ofExcept_bind (fun e he s _ hr => ?_) h
  obtain ⟨journal, boot, -, -, hbound⟩ := hrestart hr
  rw [hbound.boots] at he
  cases he

include hrestart in
theorem strictJournal_bind {k : Option RecoveryJournal → Recover α}
    (h : ∀ journal, readStrictJournal d.journal = .ok journal → c.Goes restart d (k journal) Q) :
    c.Goes restart d (strictJournal >>= k) Q := by
  refine read_bind (fun e he s _ hr => ?_) h
  obtain ⟨journal, boot, hstrict, -⟩ := (hrestart hr).strict
  rw [hstrict] at he
  cases he

include hrestart in
theorem loadStrictResume_bind {k : L1ResumeLog → Recover α} (h : ∀ log, d.resume.loadStrict = .ok log →
      c.Goes restart d (k log) Q) :
    c.Goes restart d (loadStrictResume >>= k) Q := by
  refine read_bind (fun e he s _ hr => ?_) fun log hlog => h log (mapError_ok.mp hlog)
  obtain ⟨journal, boot, -, -, hbound⟩ := hrestart hr
  obtain ⟨log, hlog, -⟩ := hbound.retains
  rw [hlog] at he
  cases he

theorem check_bind {cond : Prop} [Decidable cond] {e : RecoverError} {p : Recover α}
    (hc : restart → cond) (h : cond → c.Goes restart d p Q) :
    c.Goes restart d (require cond e >>= fun _ => p) Q :=
  Triple.require_bind (fun _ _ hnot hr => absurd (hc hr) hnot) h

theorem check_last {cond : Prop} [Decidable cond] {e : RecoverError} (hc : restart → cond) :
    c.Goes restart d (require cond e) (fun _ s => At d s ∧ cond) :=
  Triple.require fun _ _ hnot hr => absurd (hc hr) hnot

include hrestart in
theorem checkInitialJournal_triple {boot : Boot} {journal : Option RecoveryJournal}
    (hboot : ArbReth.Recovery.boot c.args c.incident = .ok boot) (hjournal : readStrictJournal d.journal = .ok journal) :
    c.Goes restart d (checkInitialJournal c.args c.incident boot journal) (fun _ s => At d s) := by
  have hsame (hr : restart) : ∃ existing boot', journal = some existing ∧ existing.phase ≠ .failed ∧
      c.Bound boot' existing d ∧ boot' = boot := by
    obtain ⟨existing, boot', hstrict, hphase, hbound⟩ := (hrestart hr).strict
    exact ⟨existing, boot', Except.ok.inj (hjournal.symm.trans hstrict), hphase, hbound,
      Except.ok.inj (hbound.boots.symm.trans hboot)⟩
  refine check_bind (fun hr => ?_) fun _ => (check_last fun hr => ?_).post fun _ _ hs => hs.1
  · obtain ⟨existing, boot', rfl, -, hbound, rfl⟩ := hsame hr
    rintro j ⟨⟩
    exact ⟨hbound.incident_eq, hbound.identity⟩
  · obtain ⟨existing, boot', rfl, hphase, -⟩ := hsame hr
    rintro j ⟨⟩
    exact hphase

include hauthority hinv hrestart in
theorem preflight_triple : c.Goes restart d (preflight env c.args)
      (fun found s => At d s ∧ (boot c.args c.incident = .ok found.boot ∧ found.incident = c.incident ∧
        d.resume.loadStrict = .ok found.log ∧ c.args.maxRecoveryL2Blocks ≠ 0 ∧
          c.args.l1Prefetch ≠ 0 ∧ c.args.l1GetlogsRange ≠ 0)) := by
  have hfits (hr : restart) : ∃ checkpoint, ArgsFit c.args c.incident checkpoint := by
    obtain ⟨journal, boot, -, -, hbound⟩ := hrestart hr
    exact ⟨_, hbound.fits⟩
  refine check_bind (fun hr => (hfits hr).elim fun _ h => h.maxSpan) fun hmax => ?_
  refine check_bind (fun hr => (hfits hr).elim fun _ h => h.l1Bounds) fun hl1 => ?_
  refine loadActiveIncident_bind hinv (boot_bind hrestart fun boot hboot => ?_)
  refine loadStrictResume_bind hrestart fun log hlog => connect_bind hinv ?_
  refine canonicalHeader_bind hauthority hinv ?_
  -- a canonical frontier that has changed is a failure of the authority
  refine Triple.require_bind (fun _ _ _ _ => rfl) fun _ => Triple.pure fun s hs => ?_
  exact ⟨hs, hboot, rfl, hlog, hmax, hl1⟩

include hauthority hinv in
theorem chooseFrom_triple
    (hrestart : ¬restart) (readHeader : HeaderReader) (maxSpan : ℕ) (checkpoints : List L1ResumeCheckpoint) :
    c.Goes restart d (chooseFrom env readHeader c.incident maxSpan checkpoints)
      (fun _ s => At d s) := by
  induction checkpoints with
  | nil => exact Triple.fail fun _ _ hr => absurd hr hrestart
  | cons checkpoint checkpoints ih =>
    refine Triple.ofExcept_bind (fun _ _ _ _ hr => absurd hr hrestart) fun found _ => ?_
    split
    · exact ih
    · refine canonicalHeader_bind hauthority hinv ?_
      split
      · exact check_bind (fun hr => absurd hr hrestart) fun _ => Triple.pure fun _ hs => hs
      · exact ih

include hauthority hinv hrestart in
theorem selectCheckpoint_triple {found : Preflight}
    (hincident : found.incident = c.incident) {journal : Option RecoveryJournal}
    (hjournal : readStrictJournal d.journal = .ok journal) :
    c.Goes restart d (selectCheckpoint env c.args found d.chain journal)
      (fun checkpoint s => At d s ∧ ∀ existing ∈ journal, existing.checkpoint = checkpoint) := by
  cases journal with
  | some existing =>
    refine Triple.pure fun s hs => ⟨hs, ?_⟩
    rintro j ⟨⟩
    rfl
  | none =>
    have hnot : ¬restart := by
      intro hr
      obtain ⟨existing, -, hstrict, -⟩ := (hrestart hr).strict
      rw [hjournal] at hstrict
      cases hstrict
    rw [selectCheckpoint, hincident]
    refine (chooseFrom_triple hauthority hinv hnot _ _ _).post fun _ _ hs => ⟨hs, ?_⟩
    rintro j ⟨⟩

variable {checkpoint : L1ResumeCheckpoint}

theorem Case.Restartable.at_checkpoint (h : c.Restartable d) {journal : Option RecoveryJournal}
    (hjournal : readStrictJournal d.journal = .ok journal) (hexisting : ∀ existing ∈ journal, existing.checkpoint = checkpoint) :
    ∃ existing boot, journal = some existing ∧ existing.checkpoint = checkpoint ∧ existing.phase ≠ .failed ∧
      c.Bound boot existing d := by
  obtain ⟨existing, boot, hstrict, hphase, hbound⟩ := h.strict
  cases hjournal.symm.trans hstrict
  exact ⟨existing, boot, rfl, hexisting existing rfl, hphase, hbound⟩

theorem checkGenesis_triple {boot : Boot} (hgenesis : restart → HasGenesis boot d.chain) :
    c.Goes restart d (checkGenesis boot d.chain)
      (fun _ s => At d s ∧ HasGenesis boot d.chain) := by
  unfold checkGenesis
  cases hheader : d.chain.header boot.genesisBlock with
  | none =>
    refine Triple.fail fun _ _ hr => ?_
    obtain ⟨genesis, h, -⟩ := hgenesis hr
    rw [hheader] at h
    cases h
  | some genesis =>
    refine (check_last fun hr => ?_).post fun _ _ hs => ⟨hs.1, genesis, hheader, hs.2⟩
    obtain ⟨genesis', h, hhash⟩ := hgenesis hr
    rw [hheader] at h
    cases h
    exact hhash

include hauthority hinv in
theorem checkCheckpoint_triple (hcanonical : restart → OnCanonical c.authority d.chain checkpoint.l2Block) :
    c.Goes restart d (checkCheckpoint env d.chain checkpoint)
      (fun _ s => At d s ∧ OnCanonical c.authority d.chain checkpoint.l2Block) := by
  unfold checkCheckpoint
  cases hheader : d.chain.header checkpoint.l2Block with
  | none =>
    refine Triple.fail fun _ _ hr => ?_
    obtain ⟨header, h, -⟩ := hcanonical hr
    rw [hheader] at h
    cases h
  | some header =>
    refine canonicalHeader_bind hauthority hinv ?_
    refine (check_last fun hr => ?_).post fun _ _ hs => ⟨hs.1, header, hheader, hs.2⟩
    obtain ⟨header', h, heq⟩ := hcanonical hr
    rw [hheader] at h
    cases h
    exact heq

theorem checkBounds_triple (hmax : c.args.maxRecoveryL2Blocks ≠ 0)
    (hl1 : c.args.l1Prefetch ≠ 0 ∧ c.args.l1GetlogsRange ≠ 0) (hfits : restart → ArgsFit c.args c.incident checkpoint) :
    c.Goes restart d (checkBounds c.args c.incident checkpoint)
      (fun _ s => At d s ∧ ArgsFit c.args c.incident checkpoint) := by
  refine check_bind (fun hr => (hfits hr).below) fun hbelow => ?_
  refine check_bind (fun hr => (hfits hr).span) fun hspan => ?_
  refine check_bind (fun hr => (hfits hr).l1Rpc) fun hrpc => ?_
  refine check_bind (fun hr => (hfits hr).l1Beacon) fun hbeacon => ?_
  exact (check_last fun hr => (hfits hr).endBlock).post fun _ _ hs => ⟨hs.1, hmax, hl1, hbelow, hspan, hrpc, hbeacon, hs.2⟩

include hauthority hinv hrestart in
theorem plan_triple : c.Goes restart d (plan env c.args)
      (fun plan s => At d s ∧ c.PlanFits d plan) := by
  refine loadActiveIncident_bind hinv (boot_bind hrestart fun initialBoot hinitial => ?_)
  refine strictJournal_bind hrestart fun journal hjournal => ?_
  refine Triple.bind (checkInitialJournal_triple hrestart hinitial hjournal) fun _ => ?_
  refine Triple.bind (preflight_triple hauthority hinv hrestart) fun found => Triple.assume ?_
  rintro ⟨hboot, hincident, hlog, hmax, hl1⟩
  refine disk_bind (Triple.bind (checkGenesis_triple fun hr => ?_) fun _ => Triple.assume fun hgenesis => ?_)
  · obtain ⟨existing, boot, -, -, hbound⟩ := hrestart hr
    cases hbound.boots.symm.trans hboot
    exact hbound.genesis
  refine Triple.bind (selectCheckpoint_triple hauthority hinv hrestart hincident hjournal) fun checkpoint =>
    Triple.assume fun hexisting => ?_
  refine Triple.bind (checkCheckpoint_triple hauthority hinv fun hr => ?_) fun _ => Triple.assume fun hcanonical => ?_
  · obtain ⟨existing, boot, -, rfl, -, hbound⟩ := (hrestart hr).at_checkpoint hjournal hexisting
    exact hbound.target ▸ hbound.canonical
  rw [hincident]
  refine Triple.bind (checkBounds_triple hmax hl1 fun hr => ?_) fun _ => Triple.assume fun hfits => ?_
  · obtain ⟨existing, boot, -, rfl, -, hbound⟩ := (hrestart hr).at_checkpoint hjournal hexisting
    exact hbound.fits
  exact Triple.pure fun s hs => ⟨hs, hboot, hincident ▸ rfl, hlog, hjournal, hgenesis, hcanonical, hfits, hexisting⟩

/-! ### Under the lock -/

include hrestart in
theorem checkLockedJournal_triple {plan : Plan} (hplan : c.PlanFits d plan)
    {existing : RecoveryJournal} (hexisting : plan.initialJournal = some existing) :
    c.Goes restart d (checkLockedJournal c.args plan c.incident plan.log existing)
      (fun _ s => At d s ∧ existing.phase ≠ .failed) := by
  have hbound (hr : restart) : existing.checkpoint = plan.checkpoint ∧ existing.phase ≠ .failed ∧
      c.Bound plan.boot existing d := by
    obtain ⟨existing', boot, heq, hcheckpoint, hphase, hbound⟩ :=
      (hrestart hr).at_checkpoint hplan.journal hplan.existing
    cases hexisting.symm.trans heq
    cases hbound.boots.symm.trans hplan.boots
    exact ⟨hcheckpoint, hphase, hbound⟩
  have htruncated (hr : restart) :
      truncatedResumeFrom plan.log plan.checkpoint = .ok existing.truncatedResume := by
    obtain ⟨hcheckpoint, -, hbound⟩ := hbound hr
    obtain ⟨log, hlog, htruncated⟩ := hbound.retains
    cases hlog.symm.trans hplan.log
    exact hcheckpoint ▸ htruncated
  refine check_bind (fun hr => (hbound hr).2.2.incident_eq) fun _ => ?_
  refine check_bind (fun hr => (hbound hr).2.2.identity) fun _ => ?_
  refine check_bind (fun hr => (hbound hr).2.1) fun hphase => ?_
  refine check_bind (fun hr => ?_) fun _ => ?_
  · obtain ⟨hcheckpoint, -, hbound⟩ := hbound hr
    exact ⟨hcheckpoint, hcheckpoint ▸ hbound.target, hbound.frontier⟩
  refine Triple.ofExcept_bind (fun e he s _ hr => ?_) fun truncated hok => ?_
  · rw [htruncated hr] at he
    cases he
  exact (check_last fun hr => Except.ok.inj ((htruncated hr).symm.trans hok)).post fun _ _ hs => ⟨hs.1, hphase⟩

include hinv hrestart in
theorem lockedJournal_triple {plan : Plan} (hplan : c.PlanFits d plan) :
    c.Goes restart d (lockedJournal env c.args plan)
      (fun existing s => At d s ∧ (existing = plan.initialJournal ∧ ∀ journal ∈ existing, journal.phase ≠ .failed)) := by
  refine Triple.require_bind (fun _ _ _ _ => rfl) fun _ => loadActiveIncident_bind hinv ?_
  refine check_bind (fun _ => hplan.incident_eq.symm) fun _ => loadStrictResume_bind hrestart fun log hlog => ?_
  cases hplan.log.symm.trans hlog
  refine check_bind (fun _ => rfl) fun _ => strictJournal_bind hrestart fun journal hjournal => ?_
  cases hplan.journal.symm.trans hjournal
  refine check_bind (fun _ h => ?_) fun _ => ?_
  · obtain ⟨hsome, hnone⟩ := h
    rw [Option.isNone_iff_eq_none.mp hnone] at hsome
    cases hsome
  cases hexisting : plan.initialJournal with
  | none =>
    refine Triple.pure fun s hs => ⟨hs, rfl, ?_⟩
    rintro j ⟨⟩
  | some existing =>
    refine Triple.bind (checkLockedJournal_triple hrestart hplan hexisting) fun _ => ?_
    refine Triple.pure fun s hs => ⟨hs.1, rfl, ?_⟩
    rintro j ⟨⟩
    exact hs.2

/-! ### Writing the journal -/

/-- A file is replaced, or the failure leaves it as it was or replaced. -/
theorem replaceFile_at {outcome : SaveOutcome} {f : Disk → Disk} {e : RecoverError}
    (hinv : c.Inv (f d)) (hadvance : Advance d (f d)) :
    Triple c.Step (At d) (replaceFile outcome f e) (fun _ s => At (f d) s)
      (fun e' s => e' = e ∧ (At d s ∨ At (f d) s)) := by
  have hwrite : Triple c.Step (At d)
      (write fun s => { s with disk := f s.disk } : Recover Unit) (fun _ s => At (f d) s)
      (fun e' s => e' = e ∧ (At d s ∨ At (f d) s)) := by
    refine Triple.write ?_
    rintro s rfl
    exact ⟨⟨hinv, hadvance⟩, rfl⟩
  cases outcome with
  | saved => exact hwrite
  | failedBeforeRename => exact Triple.fail fun s hs => ⟨rfl, Or.inl hs⟩
  | failedAfterRename => exact hwrite.bind fun _ => Triple.fail fun s hs => ⟨rfl, Or.inr hs⟩

variable {journal : RecoveryJournal}

theorem Case.Journaled.strict (h : c.Journaled journal d) :
    readStrictJournal d.journal = .ok (some journal) := by
  obtain ⟨boot, hbound⟩ := h.bound
  rw [h.present]
  exact if_neg (not_not.mpr hbound.schema)

theorem Case.Journaled.move (h : c.Journaled journal d) {phase : Phase}
    (hholds : PhaseHolds { journal with phase } d) :
    c.Journaled { journal with phase }
      { d with journal := .present { journal with phase } } := by
  obtain ⟨boot, hbound⟩ := h.bound
  exact ⟨h.active, rfl, ⟨boot, hbound.phase phase⟩, hholds⟩

theorem saveJournal_at (h : c.Journaled journal d) {phase : Phase}
    (hlegal : legalPhaseTransition journal.phase phase = true) (hholds : PhaseHolds { journal with phase } d) :
    c.Goes restart d (saveJournal env { journal with phase })
      (fun _ s => At { d with journal := .present { journal with phase } } s) := by
  refine read_bind (fun e he => ?_) fun current hcurrent => ?_
  · rw [h.strict] at he
    cases he
  cases h.strict.symm.trans hcurrent
  refine check_bind (fun _ => sameImmutableIdentity_iff.mpr rfl) fun _ => check_bind (fun _ => hlegal) fun _ => ?_
  refine (replaceFile_at (h.move hholds).inv (Advance.of_phase h (.of_legal hlegal))).conseq (fun _ hs => hs)
    (fun _ _ hs => hs) ?_
  rintro e s ⟨rfl, -⟩ -
  rfl

theorem persistTerminalFailure_at (h : c.Journaled journal d)
    (hlegal : legalPhaseTransition journal.phase .failed = true) {cause : RecoverError}
    (hcause : cause.isRefusal = false) :
    c.Goes restart d (persistTerminalFailure env journal cause) Q :=
  (saveJournal_at h hlegal trivial).bind fun _ => Triple.fail fun _ _ _ => hcause

theorem createJournal_at (habsent : d.journal = .absent) (hrestart : ¬restart)
    (h : c.Journaled journal { d with journal := .present journal })
    (hphase : journal.phase = .prepared) :
    c.Goes restart d (createJournal env journal)
      (fun created s => At { d with journal := .present journal } s ∧ created = journal) := by
  refine disk_bind ?_
  rw [if_pos habsent]
  refine Triple.bind ((replaceFile_at h.inv ?_).conseq (fun _ hs => hs) (fun _ _ hs => hs)
    fun _ _ _ hr => absurd hr hrestart) fun _ => Triple.pure fun s hs => ⟨hs, rfl⟩
  refine ⟨fun journal' hj => ?_, fun _ _ => ⟨_, rfl⟩, fun journal' hj => ⟨h.inv.tip_of_present hj, fun _ _ => rfl⟩,
    Or.inl rfl⟩
  cases hj
  exact Or.inl ⟨habsent, hphase⟩

theorem readStrictJournal_none {file : JournalFile} (h : readStrictJournal file = .ok none) : file = .absent := by
  cases file with
  | absent => rfl
  | malformed => cases h
  | present journal =>
    simp only [readStrictJournal] at h
    split at h <;> cases h

theorem Case.PlanFits.newJournal {plan : Plan} (h : c.PlanFits d plan)
    (hinv : c.Inv d) {truncated : L1ResumeLog}
    (htruncated : truncatedResumeFrom plan.log plan.checkpoint = .ok truncated)
    (hgenesis : plan.boot.genesisBlock ≤ plan.checkpoint.l2Block) (htip : c.incident.l2BlockNumber ≤ d.chain.tip) :
    c.Journaled (newJournal c.args plan truncated d.chain.tip)
      { d with journal := .present (newJournal c.args plan truncated d.chain.tip) } where
  active := hinv.incident_eq
  present := rfl
  bound := ⟨plan.boot, rfl, h.boots, h.incident_eq, rfl, rfl, congrArg Incident.l2BlockNumber h.incident_eq, h.fits,
    ⟨plan.log, h.log, htruncated⟩, h.canonical, h.genesis, hgenesis, h.fits.below.le.trans htip⟩
  phase := trivial

include hinv hrestart in
theorem publishJournal_at {plan : Plan} (hplan : c.PlanFits d plan)
    (hlive : ∀ existing ∈ plan.initialJournal, existing.phase ≠ .failed) :
    c.Goes restart d (publishJournal env c.args plan plan.initialJournal)
      (fun journal s => ∃ d', At d' s ∧ c.Journaled journal d' ∧ journal.phase ≠ .failed ∧
        d'.resume = d.resume) := by
  refine Triple.require_bind (fun _ _ _ _ => rfl) fun _ => disk_bind ?_
  refine check_bind (fun hr => ?_) fun htip => ?_
  · obtain ⟨existing, -, heq, -⟩ := (hrestart hr).at_checkpoint hplan.journal hplan.existing
    exact Or.inl (heq ▸ rfl)
  refine check_bind (fun hr => ?_) fun hgenesis => ?_
  · obtain ⟨existing, boot, -, hcheckpoint, -, hbound⟩ := (hrestart hr).at_checkpoint hplan.journal hplan.existing
    cases hbound.boots.symm.trans hplan.boots
    exact hcheckpoint ▸ hbound.target ▸ hbound.genesisBelow
  cases hexisting : plan.initialJournal with
  | some existing =>
    have hjournaled := hinv.journaled (readStrictJournal_some (hexisting ▸ hplan.journal)).1
    obtain ⟨boot, hbound⟩ := hjournaled.bound
    refine check_bind (fun _ => ?_) fun _ => Triple.pure fun s hs =>
      ⟨d, hs, hjournaled, hlive existing hexisting, rfl⟩
    rw [hplan.incident_eq, ← hplan.existing existing hexisting]
    exact ⟨hbound.target, hbound.frontier⟩
  | none =>
    have hstrict : readStrictJournal d.journal = .ok none := hexisting ▸ hplan.journal
    have hnot : ¬restart := by
      intro hr
      obtain ⟨existing, -, heq, -⟩ := (hrestart hr).strict
      rw [hstrict] at heq
      cases heq
    refine Triple.ofExcept_bind (fun _ _ _ _ hr => absurd hr hnot) fun truncated htruncated => ?_
    have hfrontier : c.incident.l2BlockNumber ≤ d.chain.tip := by
      rw [hexisting, hplan.incident_eq] at htip
      exact htip.resolve_left (by decide)
    have hnew := hplan.newJournal hinv htruncated hgenesis hfrontier
    refine (createJournal_at (readStrictJournal_none hstrict) hnot hnew rfl).post ?_
    rintro created s ⟨hs, rfl⟩
    exact ⟨_, hs, hnew, (by decide : Phase.prepared ≠ .failed), rfl⟩

/-! ### Unwinding -/

theorem openConsistent_bind {k : Chain → Recover α} {site : OpenSite}
    (h : c.Goes restart d (k d.chain) Q) :
    c.Goes restart d (openConsistent env site >>= k) Q := by
  refine Triple.bind (Q := fun chain s => At d s ∧ chain = d.chain) ?_ fun chain =>
    Triple.assume fun hchain => hchain ▸ h
  refine Triple.require_bind (fun _ _ _ _ => rfl) fun _ => Triple.require_bind (fun _ _ _ _ => rfl) fun _ => ?_
  exact disk_bind (Triple.pure fun s hs => ⟨hs, rfl⟩)

/-- The journal holds for another chain that agrees up to the target. -/
theorem Case.Journaled.chain (h : c.Journaled journal d) {chain : Chain}
    (htip : journal.target ≤ chain.tip) (hblocks : ∀ n ≤ journal.target, chain.header n = d.chain.header n)
    (hholds : PhaseHolds journal { d with chain }) : c.Journaled journal { d with chain } := by
  obtain ⟨boot, hbound⟩ := h.bound
  exact ⟨h.active, h.present, ⟨boot, hbound.chain htip hblocks⟩, hholds⟩

theorem unwind_header {chain : Chain} {target n : ℕ} (h : n ≤ target) :
    (chain.unwind target).header n = chain.header n := if_pos h

theorem Case.Journaled.unwind (h : c.Journaled journal d)
    (hphase : journal.phase = .prepared ∨ journal.phase = .resumeTruncated) :
    c.Journaled journal { d with chain := d.chain.unwind journal.target } := by
  obtain ⟨boot, hbound⟩ := h.bound
  refine h.chain le_rfl (fun n hn => unwind_header hn) ?_
  have hholds := h.phase
  unfold PhaseHolds at hholds ⊢
  rcases hphase with hp | hp
  · rw [hp]
    trivial
  · rw [hp] at hholds ⊢
    exact ⟨hbound.target_lt.le, hholds.2⟩

theorem commitUnwind_at (h : c.Journaled journal d)
    (hphase : journal.phase = .prepared ∨ journal.phase = .resumeTruncated) :
    c.Goes restart d (commitUnwind env journal)
      (fun _ s => At { d with chain := d.chain.unwind journal.target } s) := by
  unfold commitUnwind
  split
  · refine Triple.write ?_
    rintro s rfl
    exact ⟨⟨(h.unwind hphase).inv, Advance.of_same_journal h (h.unwind hphase) (fun n hn => unwind_header hn)
      (Or.inl rfl)⟩, rfl⟩
  · refine persistTerminalFailure_at h ?_ rfl
    rcases hphase with hp | hp
    · rw [hp]
      rfl
    · rw [hp]
      rfl

/-- A disk at its target, ready for the resume log to be cut back. -/
structure Case.AtTarget (c : Case) (resume : ResumeFile)
    (journal : RecoveryJournal) (d : Disk) : Prop where
  journaled : c.Journaled journal d
  tip : d.chain.tip = journal.target
  phase : journal.phase = .unwound ∨ journal.phase = .resumeTruncated
  resume_eq : d.resume = resume

theorem confirmUnwound_at (h : c.Journaled journal d) (htip : d.chain.tip = journal.target)
    (hphase : journal.phase = .prepared ∨ journal.phase = .unwound ∨ journal.phase = .resumeTruncated) :
    c.Goes restart d (confirmUnwound env journal)
      (fun journal' s => ∃ d', At d' s ∧ c.AtTarget d.resume journal' d') := by
  refine openConsistent_bind ?_
  rw [if_neg (not_not.mpr htip)]
  by_cases hprepared : journal.phase = .prepared
  · rw [if_pos hprepared]
    have hlegal : legalPhaseTransition journal.phase .unwound = true := by rw [hprepared]; rfl
    refine Triple.bind (saveJournal_at h hlegal htip) fun _ => Triple.pure fun s hs => ⟨_, hs, h.move htip, htip, Or.inl rfl, rfl⟩
  · rw [if_neg hprepared]
    exact Triple.pure fun s hs => ⟨d, hs, h, htip, hphase.resolve_left hprepared, rfl⟩

/-- A disk at the frontier, to be verified. -/
structure Case.ToVerify (c : Case) (journal : RecoveryJournal) (d : Disk) : Prop where
  journaled : c.Journaled journal d
  tip : d.chain.tip = journal.frontier
  phase : journal.phase = .resumeTruncated ∨ journal.phase = .frontierMatched

theorem unwindAndReopen_at (h : c.Journaled journal d) (hphase : journal.phase ≠ .failed) :
    c.Goes restart d (unwindAndReopen env journal)
      (fun unwound s => ∃ d', At d' s ∧ match unwound with
        | none => c.ToVerify journal d'
        | some journal' => c.AtTarget d.resume journal' d') := by
  refine openConsistent_bind (Triple.ofExcept_bind (fun e he s _ _ => ?_) fun action haction => ?_)
  · obtain ⟨action, hok⟩ := durableTipAction_ok h hphase
    rw [hok] at he
    cases he
  · rcases durableTipAction_cases haction with ⟨rfl, -, hp⟩ | ⟨rfl, htip, hp⟩ | ⟨rfl, htip, hp⟩
    · refine Triple.bind (commitUnwind_at h hp) fun _ => ?_
      refine Triple.bind (confirmUnwound_at (h.unwind hp) rfl (hp.imp_right Or.inr)) fun journal' => ?_
      exact Triple.pure fun s hs => hs
    · refine Triple.bind (confirmUnwound_at h htip hp) fun journal' => ?_
      exact Triple.pure fun s hs => hs
    · exact Triple.pure fun s hs => ⟨d, hs, h, htip, hp⟩

/-! ### The resume log -/

theorem Case.Journaled.truncated (h : c.Journaled journal d) (hphase : journal.phase = .unwound) :
    c.Journaled journal { d with resume := .wrapped journal.truncatedResume } := by
  obtain ⟨boot, hbound⟩ := h.bound
  refine ⟨h.active, h.present, ⟨boot, hbound.truncated⟩, ?_⟩
  have hholds := h.phase
  unfold PhaseHolds at hholds ⊢
  rw [hphase] at hholds ⊢
  exact hholds

/-- The failure of a save is recorded, wherever it came from. -/
theorem saveResume_at (h : c.Journaled journal d) (hphase : journal.phase = .unwound) :
    c.Goes restart d (saveResume env journal)
      (fun _ s => At { d with resume := .wrapped journal.truncatedResume } s) := by
  have hlegal : legalPhaseTransition journal.phase .failed = true := by rw [hphase]; rfl
  have htruncated := h.truncated hphase
  refine Triple.bind (Triple.attempt (replaceFile_at htruncated.inv
    (Advance.of_same_journal h htruncated (fun _ _ => rfl) (Or.inr ⟨hphase, rfl⟩)))) fun saved => ?_
  cases saved with
  | ok _ => exact Triple.pure fun _ hs => hs
  | error e =>
    rintro s ⟨rfl, hs | hs⟩
    · exact persistTerminalFailure_at h hlegal rfl s hs
    · exact persistTerminalFailure_at htruncated hlegal rfl s hs

theorem checkDurableResume_at (h : c.Journaled journal d)
    (hresume : d.resume = .wrapped journal.truncatedResume) :
    c.Goes restart d (checkDurableResume env journal) (fun _ s => At d s) := by
  obtain ⟨boot, hbound⟩ := h.bound
  have hload : d.resume.loadStrict = .ok journal.truncatedResume := by
    rw [hresume]
    exact hbound.retains.loadStrict_truncated
  refine Triple.bind (Triple.attempt (read_triple (E := fun _ _ => False) fun s e hs he => ?_)) fun durable => ?_
  · rw [hs, hload] at he
    cases he
  · rintro s hs
    cases durable with
    | error e => exact hs.elim
    | ok durable =>
      obtain ⟨hs, hdurable⟩ := hs
      rw [hs, hload] at hdurable
      cases hdurable
      dsimp only
      rw [if_pos rfl]
      exact Triple.pure (fun _ hs => hs) s hs

/-- A disk with the cut resume log, ready for the replay. -/
structure Case.ToReplay (c : Case) (journal : RecoveryJournal) (d : Disk) : Prop where
  journaled : c.Journaled journal d
  tip : d.chain.tip = journal.target
  phase : journal.phase = .resumeTruncated

theorem Case.ToReplay.holds (h : c.ToReplay journal d) :
    d.chain.tip ≤ journal.frontier ∧ d.resume = .wrapped journal.truncatedResume := by
  have hholds := h.journaled.phase
  unfold PhaseHolds at hholds
  rw [h.phase] at hholds
  exact hholds

theorem replaceResume_at {log : L1ResumeLog} (h : c.Journaled journal d)
    (hphase : journal.phase = .unwound) (hlog : d.resume.loadStrict = .ok log) :
    c.Goes restart d (replaceResume env log journal)
      (fun _ s => At { d with resume := .wrapped journal.truncatedResume } s) := by
  unfold replaceResume
  split
  · exact saveResume_at h hphase
  · rename_i hsame
    have hresume := (loadStrict_ok hlog).1
    rw [not_not.mp hsame] at hresume
    rw [← hresume]
    exact Triple.pure fun _ hs => hs

theorem durablyTruncateResume_at {log : L1ResumeLog}
    (h : c.AtTarget d.resume journal d) (hlog : d.resume.loadStrict = .ok log) :
    c.Goes restart d (durablyTruncateResume env log journal)
      (fun journal' s => ∃ d', At d' s ∧ c.ToReplay journal' d') := by
  obtain ⟨boot, hbound⟩ := h.journaled.bound
  have hderived : truncatedResumeFrom log journal.checkpoint = .ok journal.truncatedResume := by
    obtain ⟨log', hlog', htruncated⟩ := hbound.retains
    cases hlog'.symm.trans hlog
    exact htruncated
  refine Triple.ofExcept_bind (fun e he => ?_) fun derived hok => ?_
  · rw [hderived] at he
    cases he
  cases hderived.symm.trans hok
  rw [if_neg (not_not.mpr rfl)]
  rcases h.phase with hp | hp
  · simp only [hp]
    have htruncated := h.journaled.truncated hp
    have hlegal : legalPhaseTransition journal.phase .resumeTruncated = true := by rw [hp]; rfl
    have hholds : d.chain.tip ≤ journal.frontier := h.tip ▸ hbound.target_lt.le
    refine Triple.bind (replaceResume_at h.journaled hp hlog) fun _ => ?_
    refine Triple.bind (checkDurableResume_at htruncated rfl) fun _ => ?_
    refine Triple.bind (saveJournal_at htruncated hlegal ⟨hholds, rfl⟩) fun _ => ?_
    exact Triple.pure fun s hs => ⟨_, hs, htruncated.move ⟨hholds, rfl⟩, h.tip, rfl⟩
  · simp only [hp]
    have hreplay : c.ToReplay journal d := ⟨h.journaled, h.tip, hp⟩
    refine Triple.bind (checkDurableResume_at h.journaled hreplay.holds.2) fun _ => ?_
    exact Triple.pure fun s hs => ⟨d, hs, hreplay⟩

/-! ### Replay and verification -/

/-- A sequence of chains under one journal, all of which agree up to the target. -/
theorem isChain_replay {s : Run} {chains : List Chain} (hs : c.Journaled journal s.disk)
    (hresume : s.disk.resume = d.resume)
    (h : ∀ x ∈ chains, c.Journaled journal { d with chain := x } ∧
      ∀ n ≤ journal.target, x.header n = s.disk.chain.header n) {exchanges : List Exchange} :
    List.IsChain c.Step
      (s :: chains.map fun x => ⟨{ d with chain := x }, exchanges⟩) := by
  induction chains generalizing s with
  | nil => exact List.isChain_singleton s
  | cons x chains ih =>
    obtain ⟨hx, hblocks⟩ := h x List.mem_cons_self
    refine List.isChain_cons_cons.mpr ⟨⟨hx.inv, Advance.of_same_journal hs hx hblocks (Or.inl hresume.symm)⟩,
      ih hx rfl fun x' hx' => ?_⟩
    obtain ⟨hj, hblocks'⟩ := h x' (List.mem_cons_of_mem _ hx')
    exact ⟨hj, fun n hn => (hblocks' n hn).trans (hblocks n hn).symm⟩

theorem finiteReplay_at (hreplays : ReplaysWithin env) (h : c.ToReplay journal d) :
    c.Goes restart d (finiteReplay env ⟨journal.checkpoint, journal.frontier⟩)
      (fun _ s => ∃ d', At d' s ∧ c.Journaled journal d') := by
  obtain ⟨boot, hbound⟩ := h.journaled.bound
  have hchains : ∀ x ∈ (env.finiteRunner ⟨journal.checkpoint, journal.frontier⟩ d.chain).1,
      c.Journaled journal { d with chain := x } ∧
        ∀ n ≤ journal.target, x.header n = d.chain.header n := by
    intro x hx
    obtain ⟨hlow, hhigh, hblocks⟩ := hreplays ⟨journal.checkpoint, journal.frontier⟩ d.chain
      (h.tip.trans hbound.target) x hx
    rw [← hbound.target] at hlow hblocks
    refine ⟨h.journaled.chain hlow hblocks ?_, hblocks⟩
    unfold PhaseHolds
    rw [h.phase]
    exact ⟨hhigh, h.holds.2⟩
  refine Triple.bind (Triple.get (Q := fun _ s => At d s) fun _ hs => hs) fun s₀ => ?_
  refine Triple.bind (Triple.writeAll (Q := fun _ s => ∃ d', At d' s ∧ c.Journaled journal d') ?_)
    fun _ => Triple.ofExcept (fun _ _ _ hs => hs) fun e he s _ _ => ?_
  · rintro s rfl
    refine ⟨isChain_replay h.journaled rfl hchains, ?_⟩
    rcases after_eq_or_mem s ((env.finiteRunner ⟨journal.checkpoint, journal.frontier⟩ s.disk.chain).1.map
      fun chain => { s with disk := { s.disk with chain } }) with hafter | hafter
    · rw [hafter]
      exact ⟨s.disk, rfl, h.journaled⟩
    · obtain ⟨x, hx, heq⟩ := List.mem_map.mp hafter
      rw [← heq]
      exact ⟨_, rfl, (hchains x hx).1⟩
  · obtain ⟨reason, -, rfl⟩ := mapError_error.mp he
    rfl

include hauthority hinv in
theorem verifyDurableFrontier_at : Triple c.Step (At d) (verifyDurableFrontier env journal)
      (fun _ s => At d s ∧ d.chain.tip = journal.frontier) (fun e s => At d s ∧ e.isRefusal = false) := by
  refine Triple.require_bind (fun _ hs _ => ⟨hs, rfl⟩) fun _ => disk_bind ?_
  split
  · exact Triple.fail fun _ hs => ⟨hs, rfl⟩
  · refine Triple.require_bind (fun _ hs _ => ⟨hs, rfl⟩) fun htip => ?_
    refine canonicalHeader_at hauthority hinv (fun _ _ hs => ⟨hs, rfl⟩) ?_
    exact (Triple.require fun _ hs _ => ⟨hs, rfl⟩).post fun _ _ hs => ⟨hs.1, htip⟩

/-- Success is saved for a disk at the frontier with the cut resume log. -/
theorem saveMatched_at (h : c.Journaled journal d) (hphase : journal.phase = .resumeTruncated)
    (htip : d.chain.tip = journal.frontier) :
    c.Goes restart d (saveJournal env { journal with phase := .frontierMatched })
      (fun _ _ => True) := by
  have hlegal : legalPhaseTransition journal.phase .frontierMatched = true := by rw [hphase]; rfl
  have hholds := h.phase
  unfold PhaseHolds at hholds
  rw [hphase] at hholds
  exact (saveJournal_at h hlegal ⟨htip, hholds.2⟩).post fun _ _ _ => trivial

/-- A failed verification is terminal, unless the canonical node has failed. -/
theorem failVerified_at (h : c.Journaled journal d) (hphase : journal.phase = .resumeTruncated)
    {e : RecoverError} (he : e.isRefusal = false) {Q : Unit → Run → Prop} :
    c.Goes restart d (persistTerminalFailure env journal e) Q := by
  refine persistTerminalFailure_at h ?_ he
  rw [hphase]
  rfl

include hauthority in
theorem verifyRestart_at (h : c.ToVerify journal d) :
    c.Goes restart d (verifyRestart env journal) (fun _ _ => True) := by
  refine Triple.bind (verifyDurableFrontier_at hauthority h.journaled.inv).attempt fun verified => ?_
  cases verified with
  | ok _ =>
    refine Triple.assume fun htip => ?_
    dsimp only
    split
    · rename_i hphase
      exact saveMatched_at h.journaled hphase htip
    · exact Triple.pure fun _ _ => trivial
  | error e =>
    refine Triple.assume fun he => ?_
    split
    · exact Triple.fail fun _ _ _ => rfl
    · rename_i heq
      cases heq
      split
      · rename_i hphase
        exact failVerified_at h.journaled hphase he
      · exact Triple.fail fun _ _ _ => he
    · rename_i heq
      cases heq

include hauthority in
theorem replayAndVerify_at (hreplays : ReplaysWithin env) (h : c.ToReplay journal d) :
    c.Goes restart d (replayAndVerify env journal) (fun _ _ => True) := by
  refine Triple.bind (finiteReplay_at hreplays h) fun rebuilt => ?_
  rintro s ⟨d', hs, hjournaled⟩
  refine canonicalHeader_bind hauthority hjournaled.inv ?_ s hs
  split
  · exact failVerified_at hjournaled h.phase rfl
  · refine Triple.bind (verifyDurableFrontier_at hauthority hjournaled.inv).attempt fun verified => ?_
    cases verified with
    | ok _ => exact Triple.assume fun htip => saveMatched_at hjournaled h.phase htip
    | error e =>
      refine Triple.assume fun he => ?_
      split
      · exact Triple.fail fun _ _ _ => rfl
      · rename_i heq
        cases heq
        exact failVerified_at hjournaled h.phase he
      · rename_i heq
        cases heq

/-- Every durable write of a run is a step of the recovery, and a restart is not refused. -/
theorem recover_at (restart : Prop) (hauthority : FixedAuthority c.authority env) (hreplays : ReplaysWithin env)
    (hinv : c.Inv d) (hrestart : restart → c.Restartable d) :
    c.Goes restart d (recover env c.args) (fun _ _ => True) := by
  refine Triple.bind (plan_triple hauthority hinv hrestart) fun plan => Triple.assume fun hplan => ?_
  refine Triple.bind (lockedJournal_triple hinv hrestart hplan) fun existing => Triple.assume ?_
  rintro ⟨rfl, hlive⟩
  refine Triple.bind (publishJournal_at hinv hrestart hplan hlive) fun journal => ?_
  rintro s ⟨d₁, hs, hjournaled, hphase, hresume⟩
  refine Triple.bind (unwindAndReopen_at hjournaled hphase) (fun unwound => ?_) s hs
  rintro s ⟨d₂, hs, hunwound⟩
  cases unwound with
  | none => exact verifyRestart_at hauthority hunwound s hs
  | some journal' =>
    have hat : c.AtTarget d₂.resume journal' d₂ :=
      ⟨hunwound.journaled, hunwound.tip, hunwound.phase, rfl⟩
    have hlog : d₂.resume.loadStrict = .ok plan.log := by
      rw [hunwound.resume_eq, hresume]
      exact hplan.log
    refine Triple.bind (durablyTruncateResume_at hat hlog) (fun journal'' => ?_) s hs
    rintro s ⟨d₃, hs, hreplay⟩
    exact replayAndVerify_at hauthority hreplays hreplay s hs

end Fixed

/-! ### Series of runs -/

/-- One run with the same arguments and the same canonical chain, cut at any time. -/
def CutRun (args : RecoverArgs) (authority : ℕ → HeaderObservation) (d d' : Disk) : Prop :=
  ∃ env, FixedAuthority authority env ∧ ReplaysWithin env ∧ ∃ t, Cut (recover env args) ⟨d, []⟩ t ∧ t.disk = d'

section Series

variable {c : Case} {env : Env} {start d : Disk}

theorem recover_no_incident {args : RecoverArgs} (h : d.incident = none) :
    (recover env args ⟨d, []⟩).writes = [] := by
  have hrun : Triple (fun _ _ => False) (At d) (recover env args) (fun _ _ => True) (fun _ _ => True) := by
    refine Triple.bind (Q := fun _ _ => False) (read_bind (fun _ _ _ _ => trivial) fun b hb => ?_) fun _ s hs => hs.elim
    rw [h] at hb
    cases hb
  have hchain := (hrun ⟨d, []⟩ rfl).1
  cases hwrites : (recover env args ⟨d, []⟩).writes with
  | nil => rfl
  | cons t ts =>
    rw [hwrites] at hchain
    exact (List.isChain_cons_cons.mp hchain).1.elim

theorem Case.Inv.step {t : Run} (h : c.Inv d) {s : Run} (hs : s.disk = d)
    (hsteps : Relation.ReflTransGen c.Step s t) : c.Inv t.disk := by
  cases hsteps with
  | refl => exact hs ▸ h
  | tail _ hstep => exact hstep.1

theorem inv_of_runs (hincident : start.incident = some c.incident) (hjournal : start.journal = .absent)
    (hruns : Relation.ReflTransGen (CutRun c.args c.authority) start d) : c.Inv d := by
  induction hruns with
  | refl => exact Or.inl ⟨hincident, hjournal⟩
  | tail _ hcut ih =>
    obtain ⟨env, hauthority, hreplays, t, hcut, rfl⟩ := hcut
    have hrun := recover_at False hauthority hreplays ih False.elim
    exact ih.step rfl (hrun.cut (s := ⟨_, []⟩) rfl hcut)

theorem eq_of_runs_no_incident {args : RecoverArgs} {authority : ℕ → HeaderObservation}
    (hincident : start.incident = none) (hruns : Relation.ReflTransGen (CutRun args authority) start d) :
    d = start := by
  induction hruns with
  | refl => rfl
  | tail _ hcut ih =>
    obtain ⟨env, -, -, t, hcut, rfl⟩ := hcut
    subst ih
    rcases hcut with rfl | hcut
    · rfl
    · rw [recover_no_incident hincident] at hcut
      cases hcut

theorem Case.Journaled.restartable {journal : RecoveryJournal} (h : c.Journaled journal d)
    (hphase : journal.phase ≠ .failed) : c.Restartable d := by
  obtain ⟨boot, hbound⟩ := h.bound
  exact ⟨journal, boot, h.present, hphase, hbound⟩

end Series

/-- Any series of runs, each cut at any time.  On a disk that it reaches, the tip has an action unless the journal has
failed, and every write of the next run keeps to `Advance`. -/
theorem recover_crash_safe (args : RecoverArgs) (authority : ℕ → HeaderObservation) (start d : Disk)
    (hjournal : start.journal = .absent) (hruns : Relation.ReflTransGen (CutRun args authority) start d) :
    (∀ journal, d.journal = .present journal →
      (journal.phase ≠ .failed → ∃ action, durableTipAction journal d.chain.tip = .ok action) ∧
        (journal.phase = .resumeTruncated ∨ journal.phase = .frontierMatched →
          d.resume = .wrapped journal.truncatedResume)) ∧ ∀ env, FixedAuthority authority env → ReplaysWithin env →
        List.IsChain (fun s t => Advance s.disk t.disk) (⟨d, []⟩ :: (recover env args ⟨d, []⟩).writes) ∧
          ∀ journal, d.journal = .present journal → journal.phase ≠ .failed →
            ∀ e, (recover env args ⟨d, []⟩).result = .error e → e.isRefusal = false := by
  cases hincident : start.incident with
  | none =>
    obtain rfl := eq_of_runs_no_incident hincident hruns
    rw [hjournal]
    refine ⟨?_, fun env _ _ => ⟨?_, ?_⟩⟩
    · rintro journal ⟨⟩
    · rw [recover_no_incident hincident]
      exact List.isChain_singleton _
    · rintro journal ⟨⟩
  | some incident =>
    have hinv := inv_of_runs (c := ⟨args, incident, authority⟩) hincident hjournal hruns
    refine ⟨fun journal hj => ⟨durableTipAction_ok (hinv.journaled hj), (hinv.journaled hj).resume_of_phase⟩,
      fun env hauthority hreplays => ⟨?_, fun journal hj hphase e he => ?_⟩⟩
    · exact (recover_at False hauthority hreplays hinv False.elim ⟨d, []⟩ rfl).1.imp fun _ _ h => h.2
    · have hrestart := (hinv.journaled hj).restartable hphase
      have hends := (recover_at True hauthority hreplays hinv (fun _ => hrestart) ⟨d, []⟩ rfl).2
      rw [he] at hends
      exact hends trivial

/-! A node that has diverged at block eight, with a checkpoint at block five. -/

def sampleHeader (n : ℕ) : LocalHeader := ⟨BitVec.ofNat 256 n, BitVec.ofNat 256 n⟩

def sampleAuthority (n : ℕ) : HeaderObservation := observation n (sampleHeader n)

def sampleIncident : Incident where
  schemaVersion := 1
  effectiveChainId := 42161
  l2BlockNumber := 8
  localHash := 108
  canonicalHash := 8
  localStateRoot := 108
  canonicalStateRoot := 8
  detectedAtUnixSecs := 0

def sampleArgs : RecoverArgs where
  canonicalL2Rpc := "l2"
  l1Rpc := "l1"
  l1Beacon := "beacon"
  l1EndBlock := 30
  maxRecoveryL2Blocks := 10
  l1Prefetch := 1
  l1GetlogsRange := 1
  resolved := .ok ⟨42161, 0, 0, 0, 0, 0⟩
  isHttpUrl _ := true

def sampleDisk : Disk where
  incident := some sampleIncident
  journal := .absent
  resume := .wrapped ⟨[⟨20, 0, 5⟩, ⟨25, 0, 8⟩]⟩
  chain := ⟨9, fun n => if n < 8 then some (sampleHeader n) else some (sampleHeader (n + 100))⟩

/-- The replay is stopped after one block. -/
def sampleEnv : Env where
  connect := .ok ()
  canonical _ n := .ok (sampleAuthority n)
  lockFree := true
  opens _ := true
  consistent _ := true
  unwindCommits := true
  journalSave _ := .saved
  resumeSave := .saved
  finiteRunner config chain :=
    if chain.tip < config.frontier then
      ([⟨chain.tip + 1, fun n => if n ≤ chain.tip then chain.header n else some (sampleHeader n)⟩], .error "stopped")
    else ([], .error "stopped")

def sampleCut : Run := after ⟨sampleDisk, []⟩ (recover sampleEnv sampleArgs ⟨sampleDisk, []⟩).writes

theorem sampleEnv_fixedAuthority : FixedAuthority sampleAuthority sampleEnv := by
  rintro exchanges n o ⟨⟩
  rfl

theorem sampleEnv_replaysWithin : ReplaysWithin sampleEnv := by
  intro config chain htip c hc
  simp only [sampleEnv] at hc
  split at hc
  · rename_i hlt
    obtain rfl := List.mem_singleton.mp hc
    exact ⟨by dsimp only; omega, hlt, fun n hn => if_pos (htip ▸ hn)⟩
  · cases hc

theorem sampleCut_reached : Relation.ReflTransGen (CutRun sampleArgs sampleAuthority) sampleDisk sampleCut.disk :=
  .single ⟨sampleEnv, sampleEnv_fixedAuthority, sampleEnv_replaysWithin, sampleCut, after_eq_or_mem _ _, rfl⟩

theorem recover_crash_safe_stopped_replay :
    ((∃ journal, sampleCut.disk.journal = .present journal ∧ journal.phase = .resumeTruncated ∧ journal.target = 5 ∧
      journal.frontier = 8) ∧ sampleCut.disk.chain.tip = 6) ∧
      ∀ e, (recover sampleEnv sampleArgs ⟨sampleCut.disk, []⟩).result = .error e → e.isRefusal = false := by
  obtain ⟨journal, hjournal⟩ : ∃ journal, sampleCut.disk.journal = .present journal ∧
      journal.phase = .resumeTruncated ∧ journal.target = 5 ∧ journal.frontier = 8 := ⟨_, rfl, rfl, rfl, rfl⟩
  refine ⟨⟨⟨journal, hjournal⟩, by decide +kernel⟩, ?_⟩
  refine ((recover_crash_safe sampleArgs sampleAuthority sampleDisk sampleCut.disk rfl sampleCut_reached).2 sampleEnv
    sampleEnv_fixedAuthority sampleEnv_replaysWithin).2 journal hjournal.1 ?_
  rw [hjournal.2.1]
  decide

end ArbReth.Recovery
