import ArbReth.Recovery.Recover

/-! # Success is verified

The journal reaches `frontierMatched` only right after the durable frontier was found to be the canonical one, and it
reaches `failed` only in a run whose canonical requests were all answered. -/

namespace ArbReth.Recovery

open ArbReth.Sync ArbReth.Durable ArbReth.Runs
open ArbReth.Durable.Prog (get write writeAll ofExcept fail require attempt)

/-- The phase of the journal on disk. -/
def Run.phase (s : Run) : Option Phase :=
  match s.disk.journal with
  | .present journal => some journal.phase
  | _ => none

theorem Run.phase_eq_some {s : Run} {phase : Phase} :
    s.phase = some phase ↔ ∃ journal, s.disk.journal = .present journal ∧ journal.phase = phase := by
  unfold Run.phase
  cases s.disk.journal with
  | absent => simp
  | malformed => simp
  | present journal => simp

/-- Every canonical request of the run so far was answered. -/
def Run.Answered (s : Run) : Prop := ∀ exchange ∈ s.exchanges, exchange.succeeded = true

/-- The durable frontier is the one that the canonical node has named in this run. -/
def Run.AtFrontier (s : Run) (frontier : ℕ) : Prop :=
  s.disk.chain.tip = frontier ∧ ∃ header, s.disk.chain.header frontier = some header ∧
    Exchange.header frontier (.ok (observation frontier header)) ∈ s.exchanges

/-- What a write of a run may do to the phase. -/
structure VerifiedStep (s t : Run) : Prop where
  matched : t.phase = some .frontierMatched → s.phase = some .frontierMatched ∨
    ∃ journal, t.disk.journal = .present journal ∧ s.AtFrontier journal.frontier
  failed : t.phase = some .failed → s.phase = some .failed ∨ s.Answered
  terminal : s.phase = some .failed → t.phase = some .failed

theorem VerifiedStep.of_journal_eq {s t : Run} (h : t.disk.journal = s.disk.journal) : VerifiedStep s t := by
  have hphase : t.phase = s.phase := by
    unfold Run.phase
    rw [h]
  exact ⟨fun ht => Or.inl (hphase ▸ ht), fun ht => Or.inl (hphase ▸ ht), fun hs => hphase ▸ hs⟩

/-- How a run may fail: with a failure of the canonical node, or with all requests answered. -/
def Ended (e : RecoverError) (s : Run) : Prop := (∃ a, e = .authority a) ∨ s.Answered

/-- Programs that keep to the steps above, from a run with all requests answered. -/
def Safe {α : Type} (p : Recover α) : Prop :=
  Triple VerifiedStep Run.Answered p (fun _ s => s.Answered) Ended

variable {α β : Type} {env : Env} {args : RecoverArgs}

/-! ### Parts that do not write the journal -/

theorem Safe.bind {p : Recover α} {f : α → Recover β} (hp : Safe p) (hf : ∀ a, Safe (f a)) : Safe (p >>= f) :=
  Triple.bind hp hf

theorem Safe.pure (a : α) : Safe (Pure.pure a) := Triple.pure fun _ hs => hs

theorem Safe.ofExcept (x : Except RecoverError α) : Safe (ofExcept x) :=
  Triple.ofExcept (fun _ _ _ hs => hs) fun _ _ _ hs => Or.inr hs

theorem Safe.fail (e : RecoverError) : Safe (fail e : Recover α) := Safe.ofExcept _

theorem Safe.require (c : Prop) [Decidable c] (e : RecoverError) : Safe (require c e) := by
  have h : Triple VerifiedStep Run.Answered (Prog.require c e) (fun _ s => s.Answered ∧ c) Ended :=
    Triple.require fun _ hs _ => Or.inr hs
  exact h.post fun _ _ hs => hs.1

theorem safe_disk : Safe disk := disk_triple.post fun _ _ hs => hs.1

theorem safe_loadActiveIncident : Safe loadActiveIncident := safe_disk.bind fun _ => Safe.ofExcept _

theorem safe_strictJournal : Safe strictJournal := safe_disk.bind fun _ => Safe.ofExcept _

theorem safe_loadStrictResume : Safe loadStrictResume := safe_disk.bind fun _ => Safe.ofExcept _

theorem exchange_triple (R : Run → Prop) (exchange : Exchange) : Triple VerifiedStep (fun s => s.Answered ∧ R s)
      (write fun s => { s with exchanges := s.exchanges ++ [exchange] } : Recover Unit)
      (fun _ t => ∃ s, s.Answered ∧ R s ∧ t = { s with exchanges := s.exchanges ++ [exchange] }) Ended :=
  Triple.write fun s hs => ⟨VerifiedStep.of_journal_eq rfl, s, hs.1, hs.2, rfl⟩

theorem Run.Answered.snoc {s : Run} (h : s.Answered) {exchange : Exchange} (he : exchange.succeeded = true) :
    Run.Answered { s with exchanges := s.exchanges ++ [exchange] } := by
  intro x hx
  rcases List.mem_append.mp hx with hx | hx
  · exact h x hx
  · rw [List.mem_singleton.mp hx]
    exact he

theorem safe_connect : Safe (connect env) := by
  refine Triple.bind ((exchange_triple (fun _ => True) _).pre fun _ hs => ⟨hs, trivial⟩) fun _ => Triple.ofExcept ?_ ?_
  · rintro a hok t ⟨s, hs, -, rfl⟩
    exact hs.snoc (by unfold Exchange.succeeded; rw [mapError_ok.mp hok]; rfl)
  · rintro e he t -
    obtain ⟨a, -, ha⟩ := mapError_error.mp he
    exact Or.inl ⟨a, ha.symm⟩

theorem canonicalHeader_triple (R : Disk → Prop) (number : ℕ) :
    Triple VerifiedStep (fun s => s.Answered ∧ R s.disk) (canonicalHeader env number)
      (fun o s => s.Answered ∧ R s.disk ∧ Exchange.header number (.ok o) ∈ s.exchanges) Ended := by
  refine Triple.bind (Triple.get (Q := fun _ s => s.Answered ∧ R s.disk) fun _ hs => hs) fun a => ?_
  refine Triple.bind (exchange_triple (fun s => R s.disk) _) fun _ => Triple.ofExcept ?_ ?_
  · rintro o hok t ⟨s, hs, hR, rfl⟩
    have hanswer := mapError_ok.mp hok
    refine ⟨hs.snoc (by unfold Exchange.succeeded; rw [hanswer]; rfl), hR, ?_⟩
    rw [hanswer]
    exact List.mem_append_right _ (List.mem_singleton_self _)
  · rintro e he t -
    obtain ⟨a, -, ha⟩ := mapError_error.mp he
    exact Or.inl ⟨a, ha.symm⟩

theorem safe_canonicalHeader (number : ℕ) : Safe (canonicalHeader env number) :=
  (canonicalHeader_triple (fun _ => True) number).conseq (fun _ hs => ⟨hs, trivial⟩) (fun _ _ hs => hs.1)
    fun _ _ he => he

theorem safe_chooseFrom (readHeader : HeaderReader) (incident : Incident) (maxSpan : ℕ)
    (checkpoints : List L1ResumeCheckpoint) : Safe (chooseFrom env readHeader incident maxSpan checkpoints) := by
  induction checkpoints with
  | nil => exact Safe.fail _
  | cons checkpoint checkpoints ih =>
    unfold chooseFrom
    refine (Safe.ofExcept _).bind fun found => ?_
    split
    · exact ih
    · refine (safe_canonicalHeader _).bind fun canonical => ?_
      split
      · exact (Safe.require _ _).bind fun _ => Safe.pure _
      · exact ih

theorem safe_preflight : Safe (preflight env args) :=
  (Safe.require _ _).bind fun _ => (Safe.require _ _).bind fun _ => safe_loadActiveIncident.bind fun _ =>
    (Safe.ofExcept _).bind fun _ => safe_loadStrictResume.bind fun _ => safe_connect.bind fun _ =>
      (safe_canonicalHeader _).bind fun _ => (Safe.require _ _).bind fun _ => Safe.pure _

theorem safe_checkGenesis (boot : Boot) (chain : Chain) : Safe (checkGenesis boot chain) := by
  unfold checkGenesis
  split
  · exact Safe.fail _
  · exact Safe.require _ _

theorem safe_checkCheckpoint (chain : Chain) (checkpoint : L1ResumeCheckpoint) :
    Safe (checkCheckpoint env chain checkpoint) := by
  unfold checkCheckpoint
  split
  · exact Safe.fail _
  · exact (safe_canonicalHeader _).bind fun _ => Safe.require _ _

theorem safe_selectCheckpoint (found : Preflight) (chain : Chain) (journal : Option RecoveryJournal) :
    Safe (selectCheckpoint env args found chain journal) := by
  cases journal with
  | some existing => exact Safe.pure _
  | none => exact safe_chooseFrom _ _ _ _

theorem safe_checkBounds (incident : Incident) (checkpoint : L1ResumeCheckpoint) :
    Safe (checkBounds args incident checkpoint) :=
  (Safe.require _ _).bind fun _ => (Safe.require _ _).bind fun _ => (Safe.require _ _).bind fun _ =>
    (Safe.require _ _).bind fun _ => Safe.require _ _

theorem safe_plan : Safe (plan env args) :=
  safe_loadActiveIncident.bind fun _ => (Safe.ofExcept _).bind fun _ => safe_strictJournal.bind fun _ =>
    ((Safe.require _ _).bind fun _ => Safe.require _ _).bind fun _ => safe_preflight.bind fun _ =>
      safe_disk.bind fun _ => (safe_checkGenesis _ _).bind fun _ => (safe_selectCheckpoint _ _ _).bind fun _ =>
        (safe_checkCheckpoint _ _).bind fun _ => (safe_checkBounds _ _).bind fun _ => Safe.pure _

theorem safe_lockedJournal (plan : Plan) : Safe (lockedJournal env args plan) := by
  refine (Safe.require _ _).bind fun _ => safe_loadActiveIncident.bind fun _ => (Safe.require _ _).bind fun _ =>
    safe_loadStrictResume.bind fun _ => (Safe.require _ _).bind fun _ => safe_strictJournal.bind fun journal =>
      (Safe.require _ _).bind fun _ => ?_
  cases journal with
  | none => exact Safe.pure _
  | some existing =>
    exact ((Safe.require _ _).bind fun _ => (Safe.require _ _).bind fun _ => (Safe.require _ _).bind fun _ =>
      (Safe.require _ _).bind fun _ => (Safe.ofExcept _).bind fun _ => Safe.require _ _).bind fun _ => Safe.pure _

theorem safe_openConsistent (site : OpenSite) : Safe (openConsistent env site) :=
  (Safe.require _ _).bind fun _ => (Safe.require _ _).bind fun _ => safe_disk.bind fun _ => Safe.pure _

/-! ### Parts that write -/

theorem replaceFile_triple {P : Run → Prop} {outcome : SaveOutcome} {f : Disk → Disk} {e : RecoverError}
    (h : ∀ s, P s → VerifiedStep s { s with disk := f s.disk } ∧ s.Answered) :
    Triple VerifiedStep P (replaceFile outcome f e) (fun _ s => s.Answered) (fun _ s => s.Answered) := by
  have hwrite : Triple VerifiedStep P (write fun s => { s with disk := f s.disk } : Recover Unit)
      (fun _ s => s.Answered) (fun _ s => s.Answered) := Triple.write h
  cases outcome with
  | saved => exact hwrite
  | failedBeforeRename => exact Triple.fail fun s hs => (h s hs).2
  | failedAfterRename => exact hwrite.bind fun _ => Triple.fail fun _ hs => hs

theorem legalPhaseTransition_failed {after : Phase} (h : legalPhaseTransition .failed after = true) :
    after = .failed := by
  cases after with
  | failed => rfl
  | _ => exact absurd h (by decide)

/-- To save `frontierMatched` the run must be at the frontier. -/
theorem saveJournal_triple (journal : RecoveryJournal) :
    Triple VerifiedStep (fun s => s.Answered ∧ (journal.phase = .frontierMatched → s.AtFrontier journal.frontier))
      (saveJournal env journal) (fun _ s => s.Answered) Ended := by
  refine Triple.bind (read_triple fun _ _ hs _ => Or.inr hs.1) fun current => ?_
  cases current with
  | none => exact Triple.fail fun _ hs => Or.inr hs.1.1
  | some current =>
    refine Triple.bind (Triple.require fun _ hs _ => Or.inr hs.1.1) fun _ => ?_
    refine Triple.bind (Triple.require fun _ hs _ => Or.inr hs.1.1.1) fun _ => ?_
    refine (replaceFile_triple ?_).conseq (fun _ hs => hs) (fun _ _ hs => hs) fun _ _ he => Or.inr he
    rintro s ⟨⟨⟨⟨hanswered, hfrontier⟩, hread⟩, -⟩, hlegal⟩
    have hphase : s.phase = some current.phase := by
      unfold Run.phase
      rw [(readStrictJournal_some hread).1]
    refine ⟨⟨fun hmatched => Or.inr ⟨journal, rfl, hfrontier (Option.some.inj hmatched)⟩,
      fun _ => Or.inr hanswered, fun hfailed => ?_⟩, hanswered⟩
    rw [hphase, Option.some.injEq] at hfailed
    rw [hfailed] at hlegal
    exact congrArg some (legalPhaseTransition_failed hlegal)

variable {journal : RecoveryJournal}

theorem safe_saveJournal (h : journal.phase ≠ .frontierMatched) : Safe (saveJournal env journal) :=
  (saveJournal_triple journal).pre fun _ hs => ⟨hs, fun hmatched => absurd hmatched h⟩

theorem safe_persistTerminalFailure (journal : RecoveryJournal) (cause : RecoverError) :
    Safe (persistTerminalFailure env journal cause : Recover α) :=
  (safe_saveJournal (by decide : Phase.failed ≠ .frontierMatched)).bind fun _ => Safe.fail _

theorem safe_createJournal (hphase : journal.phase = .prepared) : Safe (createJournal env journal) := by
  refine Triple.bind disk_triple fun d => ?_
  split
  · rename_i habsent
    refine Triple.bind ((replaceFile_triple ?_).conseq (fun _ hs => hs) (fun _ _ hs => hs) fun _ _ he => Or.inr he)
      fun _ => Safe.pure _
    rintro s ⟨hanswered, rfl⟩
    refine ⟨⟨fun hmatched => ?_, fun hfailed => ?_, fun hfailed => ?_⟩, hanswered⟩
    · have h := Option.some.inj hmatched
      rw [hphase] at h
      cases h
    · exact Or.inr hanswered
    · unfold Run.phase at hfailed
      rw [habsent] at hfailed
      cases hfailed
  · exact (safe_strictJournal.bind fun _ => (Safe.require _ _).bind fun _ => Safe.pure _).pre fun _ hs => hs.1

theorem safe_publishJournal (plan : Plan) (journal : Option RecoveryJournal) :
    Safe (publishJournal env args plan journal) := by
  refine (Safe.require _ _).bind fun _ => safe_disk.bind fun d => (Safe.require _ _).bind fun _ =>
    (Safe.require _ _).bind fun _ => ?_
  cases journal with
  | some existing => exact (Safe.require _ _).bind fun _ => Safe.pure _
  | none => exact (Safe.ofExcept _).bind fun _ => safe_createJournal rfl

theorem safe_commitUnwind (journal : RecoveryJournal) : Safe (commitUnwind env journal) := by
  unfold commitUnwind
  split
  · exact Triple.write fun s hs => ⟨VerifiedStep.of_journal_eq rfl, hs⟩
  · exact safe_persistTerminalFailure _ _

theorem safe_confirmUnwound (journal : RecoveryJournal) : Safe (confirmUnwound env journal) := by
  refine (safe_openConsistent _).bind fun chain => ?_
  split
  · exact safe_persistTerminalFailure _ _
  · split
    · exact (safe_saveJournal (by decide : Phase.unwound ≠ .frontierMatched)).bind fun _ => Safe.pure _
    · exact Safe.pure _

theorem safe_unwindAndReopen (journal : RecoveryJournal) : Safe (unwindAndReopen env journal) := by
  refine (safe_openConsistent _).bind fun chain => (Safe.ofExcept _).bind fun action => ?_
  cases action with
  | verifyFrontier => exact Safe.pure _
  | unwindToTarget =>
    exact (safe_commitUnwind _).bind fun _ => (safe_confirmUnwound _).bind fun _ => Safe.pure _
  | atTarget => exact (safe_confirmUnwound _).bind fun _ => Safe.pure _

theorem safe_saveResume (journal : RecoveryJournal) : Safe (saveResume env journal) := by
  refine Triple.bind (Triple.attempt (replaceFile_triple fun s hs => ⟨VerifiedStep.of_journal_eq rfl, hs⟩))
    fun saved => ?_
  cases saved with
  | ok _ => exact Safe.pure _
  | error e => exact safe_persistTerminalFailure _ _

theorem safe_checkDurableResume (journal : RecoveryJournal) : Safe (checkDurableResume env journal) := by
  refine Triple.bind (Triple.attempt (read_triple (E := fun _ s => s.Answered) fun _ _ hs _ => hs)) fun durable => ?_
  cases durable with
  | error e => exact safe_persistTerminalFailure _ _
  | ok durable =>
    refine Triple.pre ?_ fun _ hs => hs.1
    dsimp only
    split
    · exact Safe.pure _
    · exact safe_persistTerminalFailure _ _

theorem safe_durablyTruncateResume (log : L1ResumeLog) (journal : RecoveryJournal) :
    Safe (durablyTruncateResume env log journal) := by
  refine (Safe.ofExcept _).bind fun derived => ?_
  split
  · exact safe_persistTerminalFailure _ _
  · split
    · refine Safe.bind ?_ fun _ => (safe_checkDurableResume _).bind fun _ =>
        (safe_saveJournal (by decide : Phase.resumeTruncated ≠ .frontierMatched)).bind fun _ => Safe.pure _
      unfold replaceResume
      split
      · exact safe_saveResume _
      · exact Safe.pure _
    · exact (safe_checkDurableResume _).bind fun _ => Safe.pure _
    · exact Safe.fail _

/-- The states of a replay share the journal and the answers. -/
theorem isChain_of_journal_eq {s : Run} {ts : List Run} (h : ∀ t ∈ ts, t.disk.journal = s.disk.journal) :
    List.IsChain VerifiedStep (s :: ts) := by
  induction ts generalizing s with
  | nil => exact List.isChain_singleton s
  | cons t ts ih =>
    have ht := h t List.mem_cons_self
    refine List.isChain_cons_cons.mpr ⟨VerifiedStep.of_journal_eq ht, ih fun u hu => ?_⟩
    rw [h u (List.mem_cons_of_mem _ hu), ht]

theorem safe_finiteReplay (config : StoppedFiniteConfig) : Safe (finiteReplay env config) := by
  refine Triple.bind (Triple.get (Q := fun _ s => s.Answered) fun _ hs => hs) fun s => ?_
  refine Safe.bind (Triple.writeAll fun t ht => ⟨isChain_of_journal_eq ?_, ?_⟩) fun _ => Safe.ofExcept _
  · rintro u hu
    obtain ⟨chain, -, rfl⟩ := List.mem_map.mp hu
    rfl
  · rcases after_eq_or_mem t ((env.finiteRunner config t.disk.chain).1.map fun chain =>
      { t with disk := { t.disk with chain } }) with h | h
    · rw [h]
      exact ht
    · obtain ⟨chain, -, hchain⟩ := List.mem_map.mp h
      rw [← hchain]
      exact ht

theorem verifyDurableFrontier_triple (journal : RecoveryJournal) :
    Triple VerifiedStep Run.Answered (verifyDurableFrontier env journal)
      (fun _ s => s.Answered ∧ s.AtFrontier journal.frontier) Ended := by
  refine Triple.bind (Safe.require _ _) fun _ => ?_
  refine Triple.bind disk_triple fun d => ?_
  cases hheader : d.chain.header journal.frontier with
  | none => exact Triple.fail fun _ hs => Or.inr hs.1
  | some header =>
    refine Triple.bind (Triple.require fun _ hs _ => Or.inr hs.1) fun _ => ?_
    refine Triple.bind ((canonicalHeader_triple (fun d' => d' = d ∧ d.chain.tip = journal.frontier) _).pre ?_)
      fun canonical => ?_
    · rintro s ⟨⟨hanswered, rfl⟩, htip⟩
      exact ⟨hanswered, rfl, htip⟩
    · refine Triple.post (Triple.require fun _ hs _ => Or.inr (And.left hs)) ?_
      rintro - s ⟨⟨hanswered, ⟨rfl, htip⟩, hanswer⟩, heq⟩
      exact ⟨hanswered, htip, header, hheader, heq ▸ hanswer⟩

theorem safe_saveMatched (journal : RecoveryJournal) :
    Triple VerifiedStep (fun s => s.Answered ∧ s.AtFrontier journal.frontier)
      (saveJournal env { journal with phase := .frontierMatched }) (fun _ s => s.Answered) Ended :=
  (saveJournal_triple _).pre fun _ hs => ⟨hs.1, fun _ => hs.2⟩

theorem safe_verifyRestart (journal : RecoveryJournal) : Safe (verifyRestart env journal) := by
  refine Triple.bind (verifyDurableFrontier_triple journal).attempt fun verified => ?_
  cases verified with
  | ok _ =>
    dsimp only
    split
    · exact safe_saveMatched journal
    · exact Triple.pure fun _ hs => hs.1
  | error e =>
    cases e with
    | authority a => exact Triple.fail fun _ _ => Or.inl ⟨a, rfl⟩
    | _ =>
      refine Triple.pre (P := Run.Answered) ?_ fun _ hs => hs.resolve_left (by rintro ⟨a, ha⟩; cases ha)
      dsimp only
      split
      · exact safe_persistTerminalFailure _ _
      · exact Safe.fail _

theorem safe_replayAndVerify (journal : RecoveryJournal) : Safe (replayAndVerify env journal) := by
  refine (safe_finiteReplay _).bind fun rebuilt => (safe_canonicalHeader _).bind fun canonical => ?_
  split
  · exact safe_persistTerminalFailure _ _
  · refine Triple.bind (verifyDurableFrontier_triple journal).attempt fun verified => ?_
    cases verified with
    | ok _ => exact safe_saveMatched journal
    | error e =>
      cases e with
      | authority a => exact Triple.fail fun _ _ => Or.inl ⟨a, rfl⟩
      | _ =>
        exact (safe_persistTerminalFailure _ _).pre fun _ hs => hs.resolve_left (by rintro ⟨a, ha⟩; cases ha)

theorem safe_recover : Safe (recover env args) := by
  refine safe_plan.bind fun plan => (safe_lockedJournal _).bind fun existing =>
    (safe_publishJournal _ _).bind fun journal => (safe_unwindAndReopen _).bind fun unwound => ?_
  cases unwound with
  | none => exact safe_verifyRestart _
  | some journal => exact (safe_durablyTruncateResume _ _).bind fun journal => safe_replayAndVerify _

/-- One run, cut at any time. -/
def RunCut (d d' : Disk) : Prop := ∃ env args t, Cut (recover env args) ⟨d, []⟩ t ∧ t.disk = d'

theorem safe_cut {s t : Run} (hs : s.Answered) (ht : Cut (recover env args) s t) (hfailed : s.phase = some .failed) :
    t.phase = some .failed := by
  have hsteps := safe_recover.cut hs ht
  clear ht
  induction hsteps with
  | refl => exact hfailed
  | tail _ hstep ih => exact hstep.terminal ih

/-- In every run every write keeps to `VerifiedStep`: `frontierMatched` is saved only for the frontier that the
canonical node has named, and `failed` is not left. -/
theorem recovery_success_is_verified :
    (∀ env args d, List.IsChain VerifiedStep (⟨d, []⟩ :: (recover env args ⟨d, []⟩).writes)) ∧
      ∀ d d', Relation.ReflTransGen RunCut d d' → ∀ journal, d.journal = .present journal → journal.phase = .failed →
        ∃ journal', d'.journal = .present journal' ∧ journal'.phase = .failed := by
  have hstart (d : Disk) : Run.Answered ⟨d, []⟩ := fun _ h => absurd h List.not_mem_nil
  refine ⟨fun env args d => (safe_recover _ (hstart d)).1, fun d d' hruns => ?_⟩
  induction hruns with
  | refl => exact fun journal hjournal hfailed => ⟨journal, hjournal, hfailed⟩
  | @tail d₁ _ _ hcut ih =>
    intro journal hjournal hfailed
    obtain ⟨env, args, t, hcut, rfl⟩ := hcut
    exact Run.phase_eq_some.mp
      (safe_cut (hstart d₁) hcut (Run.phase_eq_some.mpr (ih journal hjournal hfailed)))

end ArbReth.Recovery
