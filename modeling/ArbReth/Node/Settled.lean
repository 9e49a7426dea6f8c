import ArbReth.Node.DriveLoop

/-! # What is unsettled between batches

The driver of the loop is always the one that the calls made so far lead to, so that all that is known of sequences of
calls holds of it.  A batch leaves its last applied block unsettled iff the last message that was handed over had its
tail deferred and was applied; this needs messages above the frontier at the end of the batch. -/

namespace ArbReth.Node

open ArbReth.Engine ArbReth.Engine.ArbEngineDriver ArbReth.Events ArbReth.Runs

variable {β : Type} {N : Launch β} {s t : DriveState β}

namespace DriveState

/-! ### What a step can do -/

theorem closeInput_eq (N : Launch β) (s : DriveState β) : ∃ scheduler, s.closeInput N = { s with scheduler } := by
  unfold closeInput
  split
  · exact ⟨_, rfl⟩
  · exact ⟨s.scheduler, rfl⟩

theorem closeIfSet_eq (N : Launch β) (s : DriveState β) : ∃ scheduler, s.closeIfSet N = { s with scheduler } := by
  unfold closeIfSet
  split
  · exact closeInput_eq N s
  · exact ⟨s.scheduler, rfl⟩

/-- What a step means for the driver. -/
inductive Move (N : Launch β) (s t : DriveState β) : Prop where
  /-- A step of the environment. -/
  | outside (driver : t.driver = s.driver) (calls : t.calls = s.calls) (batches : t.batches = s.batches)
      (control : t.control = s.control)
  /-- A step between two batches, or from the end of one. -/
  | idle (driver : t.driver = s.driver) (calls : t.calls = s.calls) (batches : t.batches = s.batches)
      (before : s.control.betweenBatches = true ∨ ∃ batch, s.control = .processing batch [])
      (after : t.control.betweenBatches = true)
  | selected (batch : SelectedBatch β) (driver : t.driver = s.driver) (calls : t.calls = s.calls)
      (batches : t.batches = s.batches ++ [batch]) (before : s.control.betweenBatches = true)
      (after : t.control = .processing batch (deferTails batch.source batch.messages))
  | rejected (batch : SelectedBatch β) (h : HandOver β) (rest : List (HandOver β)) (rejects : N.Rejects h.message)
      (driver : t.driver = s.driver) (calls : t.calls = s.calls) (batches : t.batches = s.batches)
      (before : s.control = .processing batch (h :: rest)) (after : t.control = .processing batch rest)
  | handed (batch : SelectedBatch β) (h : HandOver β) (rest : List (HandOver β))
      (driver : s.driver.call N.tree h.call = .ok t.driver) (calls : t.calls = s.calls ++ [h.call])
      (batches : t.batches = s.batches) (before : s.control = .processing batch (h :: rest))
      (after : t.control = .processing batch rest)
  | failed (error : DriveError) (driver : t.driver = s.driver) (calls : t.calls = s.calls)
      (batches : t.batches = s.batches) (after : t.control = .ended (.error error))

theorem Move.of_beginIteration (hcontrol : s.control = .top) : Move N s (s.beginIteration N) := by
  have hbetween : s.control.betweenBatches = true := by
    rw [hcontrol]
    rfl
  unfold beginIteration
  split
  · exact .failed _ rfl rfl rfl rfl
  · obtain ⟨scheduler, heq⟩ := closeIfSet_eq N s
    rw [heq]
    exact .idle rfl rfl rfl (Or.inl hbetween) rfl

theorem Move.of_resume {scheduler : IngressScheduler β} {nextSequence : ℕ} {watching : Bool} {next : BatchStep β}
    (hbetween : s.control.betweenBatches = true) :
    Move N s ({ s with scheduler }.resume nextSequence watching next) := by
  cases next with
  | goto pc => exact .idle rfl rfl rfl (Or.inl hbetween) rfl
  | ret selected =>
    cases selected with
    | none => exact .idle rfl rfl rfl (Or.inl hbetween) rfl
    | some batch => exact .selected batch rfl rfl rfl hbetween rfl

variable {h : HandOver β}

/-- A hand-over that succeeds has rejected the message or called the driver. -/
theorem handOver_ok {d d' : ArbEngineDriver β} (hok : handOver N.tree N.mode N.genesisBlock d h = .ok d') :
    (N.admits h.message = false ∧ N.Rejects h.message ∧ d' = d) ∨
      (N.admits h.message = true ∧ d.call N.tree h.call = .ok d') := by
  obtain ⟨admission, hdecision, hok⟩ := bind_ok.mp hok
  rw [mapError_ok] at hdecision
  cases admission with
  | admitted blockNumber =>
    refine Or.inr ⟨?_, mapError_ok.mp hok⟩
    unfold Launch.admits
    rw [hdecision]
  | rejectedAboveFrontier blockNumber frontier =>
    refine Or.inl ⟨?_, ⟨blockNumber, frontier, hdecision⟩, (Except.ok.inj hok).symm⟩
    unfold Launch.admits
    rw [hdecision]

variable {batch : SelectedBatch β} {rest : List (HandOver β)}

theorem Move.of_processMessage (hcontrol : s.control = .processing batch (h :: rest)) : Move N s (s.processMessage N batch h rest) := by
  obtain ⟨scheduler, heq⟩ := closeIfSet_eq N s
  unfold processMessage
  rw [heq]
  cases hok : handOver N.tree N.mode N.genesisBlock s.driver h with
  | error e =>
    simp only [hok]
    exact .failed _ rfl rfl rfl rfl
  | ok driver =>
    simp only [hok]
    rcases handOver_ok hok with ⟨hadmits, hrejects, rfl⟩ | ⟨hadmits, hcall⟩
    · refine .rejected batch h rest hrejects rfl ?_ rfl hcontrol rfl
      simp only [hadmits, Bool.false_eq_true, if_false]
    · refine .handed batch h rest hcall ?_ rfl hcontrol rfl
      simp only [hadmits, if_true]

/-- A step that closes the input before the selection begins again. -/
theorem Move.of_close (hbetween : s.control.betweenBatches = true) :
    Move N s { s.closeInput N with control := .top } := by
  obtain ⟨scheduler, heq⟩ := closeInput_eq N s
  rw [heq]
  exact .idle rfl rfl rfl (Or.inl hbetween) rfl

theorem Move.of_loopStep (h : s.loopStep N = some t) : Move N s t := by
  unfold loopStep at h
  cases hcontrol : s.control with
  | top =>
    rw [hcontrol] at h
    cases h
    exact .of_beginIteration hcontrol
  | loaded nextSequence =>
    rw [hcontrol] at h
    cases h
    exact .idle rfl rfl rfl (Or.inl (by rw [hcontrol]; rfl)) rfl
  | polling nextSequence watching =>
    rw [hcontrol] at h
    have hbetween : s.control.betweenBatches = true := by
      rw [hcontrol]
      rfl
    dsimp only at h
    split at h
    · cases h
      exact .of_close hbetween
    · cases h
      exact .idle rfl rfl rfl (Or.inl hbetween) rfl
  | selecting nextSequence watching pc =>
    rw [hcontrol] at h
    obtain ⟨next, -, rfl⟩ := Option.map_eq_some_iff.mp h
    exact .of_resume (by rw [hcontrol]; rfl)
  | processing batch rest =>
    rw [hcontrol] at h
    cases rest with
    | nil =>
      cases h
      exact .idle rfl rfl rfl (Or.inr ⟨batch, hcontrol⟩) rfl
    | cons next rest =>
      cases h
      exact .of_processMessage hcontrol
  | ended result =>
    rw [hcontrol] at h
    cases h

theorem closeWaiting_eq (h : s.closeWaiting N = some t) :
    (∃ nextSequence, s.control = .selecting nextSequence true .waiting) ∧ s.fired = true ∧
      t = { s.closeInput N with control := .top } := by
  unfold closeWaiting at h
  split at h
  · rename_i nextSequence hcontrol
    split at h
    · rename_i hfired
      exact ⟨⟨nextSequence, hcontrol⟩, hfired, (Option.some.inj h).symm⟩
    · cases h
  · cases h

theorem Move.of_step {e : DriveEvent β} (h : s.step N e = some t) : Move N s t := by
  cases e with
  | send source message =>
    cases h
    exact .outside rfl rfl rfl rfl
  | disconnect source =>
    cases h
    exact .outside rfl rfl rfl rfl
  | close =>
    simp only [step] at h
    split at h
    · cases h
      exact .outside rfl rfl rfl rfl
    · cases h
  | fire =>
    simp only [step] at h
    split at h
    · cases h
      exact .outside rfl rfl rfl rfl
    · cases h
  | loop => exact .of_loopStep h
  | closeWins =>
    obtain ⟨⟨nextSequence, hcontrol⟩, -, rfl⟩ := closeWaiting_eq h
    exact .of_close (by rw [hcontrol]; rfl)

/-! ### The calls -/

variable {tip : SealedHeader} {n₀ : ℕ}

theorem run_calls (h : Reachable N (initial N tip n₀) s) : run (call N.tree) (start tip n₀) s.calls = .ok s.driver := by
  induction h with
  | refl => rfl
  | tail _ hstep ih =>
    obtain ⟨e, hstep⟩ := hstep
    cases Move.of_step hstep with
    | outside hdriver hcalls _ _ => rw [hdriver, hcalls, ih]
    | idle hdriver hcalls _ _ _ => rw [hdriver, hcalls, ih]
    | selected _ hdriver hcalls _ _ _ => rw [hdriver, hcalls, ih]
    | rejected _ _ _ _ hdriver hcalls _ _ _ => rw [hdriver, hcalls, ih]
    | handed _ _ _ hdriver hcalls _ _ _ =>
      rw [hcalls]
      exact run_snoc_ok.mpr ⟨_, ih, hdriver⟩
    | failed _ hdriver hcalls _ _ => rw [hdriver, hcalls, ih]

/-! ### The tail of a batch -/

theorem getLast?_deferTails {source : MessageSource} {messages : List (BroadcastFeedMessage β)} (hlast : h ∈ (deferTails source messages).getLast?) : h.deferTail = false ∧ h.message ∈ messages.getLast? := by
  induction messages with
  | nil => cases hlast
  | cons message rest ih =>
    cases rest with
    | nil =>
      obtain rfl : h = ⟨source, message, false⟩ := (Option.some.inj hlast).symm
      exact ⟨rfl, rfl⟩
    | cons next rest => exact ih hlast

/-- No batch ends with a message above the frontier. -/
def EndsAdmitted (N : Launch β) (batches : List (SelectedBatch β)) : Prop :=
  ∀ batch ∈ batches, ∀ message ∈ batch.messages.getLast?, ¬N.Rejects message

/-- Everything is settled outside of a batch; the last call that is left of a batch will settle. -/
def TailSettles (N : Launch β) (s : DriveState β) : Prop :=
  match s.control with
  | .processing _ rest => (rest = [] → s.driver.pendingApplied = none) ∧
      ∀ h ∈ rest.getLast?, h.deferTail = false ∧ ¬N.Rejects h.message
  | .ended (.error _) => True
  | _ => s.driver.pendingApplied = none

theorem tailSettles_between (h : s.control.betweenBatches = true) :
    TailSettles N s ↔ s.driver.pendingApplied = none := by
  unfold TailSettles
  cases hcontrol : s.control with
  | processing batch rest =>
    rw [hcontrol] at h
    cases h
  | ended result =>
    cases result with
    | error e =>
      rw [hcontrol] at h
      cases h
    | ok _ => exact Iff.rfl
  | top => exact Iff.rfl
  | loaded _ => exact Iff.rfl
  | polling _ _ => exact Iff.rfl
  | selecting _ _ _ => exact Iff.rfl

theorem tailSettles_processing (hcontrol : s.control = .processing batch rest) : TailSettles N s ↔ (rest = [] → s.driver.pendingApplied = none) ∧
      ∀ h ∈ rest.getLast?, h.deferTail = false ∧ ¬N.Rejects h.message := by
  unfold TailSettles
  rw [hcontrol]

theorem TailSettles.move (h : TailSettles N s) (hreported : Reported tip s.driver) (hends : EndsAdmitted N t.batches)
    (hmove : Move N s t) : TailSettles N t := by
  cases hmove with
  | outside hdriver _ _ hcontrol =>
    unfold TailSettles at h ⊢
    rw [hcontrol, hdriver]
    exact h
  | idle hdriver _ _ hbefore hafter =>
    rw [tailSettles_between hafter, hdriver]
    rcases hbefore with hbefore | ⟨batch, hbefore⟩
    · exact (tailSettles_between hbefore).mp h
    · exact ((tailSettles_processing hbefore).mp h).1 rfl
  | selected batch hdriver _ hbatches hbefore hafter =>
    rw [tailSettles_processing hafter, hdriver]
    refine ⟨fun _ => (tailSettles_between hbefore).mp h, fun last hlast => ?_⟩
    obtain ⟨hdefer, hmessage⟩ := getLast?_deferTails hlast
    exact ⟨hdefer, hends batch (hbatches ▸ List.mem_append_right _ List.mem_cons_self) _ hmessage⟩
  | rejected batch last rest hrejects hdriver _ _ hbefore hafter =>
    rw [tailSettles_processing hafter, hdriver]
    obtain ⟨-, hlast⟩ := (tailSettles_processing hbefore).mp h
    cases rest with
    | nil => exact absurd hrejects (hlast last rfl).2
    | cons next rest => exact ⟨fun hnil => absurd hnil (List.cons_ne_nil _ _), hlast⟩
  | handed batch last rest hdriver _ _ hbefore hafter =>
    rw [tailSettles_processing hafter]
    obtain ⟨-, hlast⟩ := (tailSettles_processing hbefore).mp h
    cases rest with
    | nil => exact ⟨fun _ => (hreported.call hdriver).2 (Or.inl (hlast last rfl).1), fun _ hc => by cases hc⟩
    | cons next rest => exact ⟨fun hnil => absurd hnil (List.cons_ne_nil _ _), hlast⟩
  | failed e _ _ _ hafter =>
    unfold TailSettles
    rw [hafter]
    trivial

theorem tailSettles (h : Reachable N (initial N tip n₀) s) (hends : EndsAdmitted N s.batches) : TailSettles N s := by
  induction h with
  | refl => exact rfl
  | @tail m t hreach hstep ih =>
    obtain ⟨e, hstep⟩ := hstep
    have hmove := Move.of_step hstep
    refine (ih fun batch hbatch => hends batch ?_).move (Reported.run (run_calls hreach)) hends hmove
    cases hmove with
    | selected _ _ _ hbatches _ _ => exact hbatches ▸ List.mem_append_left _ hbatch
    | outside _ _ hbatches _ | idle _ _ hbatches _ _ | rejected _ _ _ _ _ _ hbatches _ _
    | handed _ _ _ _ _ hbatches _ _ | failed _ _ _ hbatches _ => exact hbatches ▸ hbatch

theorem not_rejects_ordinary (h : N.mode = .ordinary) (message : BroadcastFeedMessage β) : ¬N.Rejects message := by
  rintro ⟨blockNumber, frontier, hdecision⟩
  rw [h] at hdecision
  simp only [admitEngineHandoff] at hdecision
  split at hdecision <;> cases hdecision

theorem settled_iff_last_call (h : Reachable N (initial N tip n₀) s) :
    s.driver.pendingApplied = none ↔ ∀ calls c m, s.calls = calls ++ [c] →
      run (call N.tree) (start tip n₀) calls = .ok m → c.deferTail = false ∨ c.message.sequenceNumber ≠ m.nextSeq := by
  have hrun := run_calls h
  constructor
  · intro hnone calls c m hcalls hm
    rw [hcalls] at hrun
    obtain ⟨m', hm', hcall⟩ := run_snoc_ok.mp hrun
    cases hm'.symm.trans hm
    by_contra hnot
    push Not at hnot
    obtain ⟨hdefer, hseq⟩ := hnot
    exact call_inFlight hcall hseq (Bool.eq_true_of_not_eq_false hdefer) hnone
  · intro hlast
    rcases List.eq_nil_or_concat s.calls with hnil | ⟨calls, c, hcalls⟩
    · rw [hnil] at hrun
      rw [← Except.ok.inj hrun]
      rfl
    · rw [List.concat_eq_append] at hcalls
      rw [hcalls] at hrun
      obtain ⟨m, hm, hcall⟩ := run_snoc_ok.mp hrun
      exact ((Reported.run hm).call hcall).2 (hlast calls c m hcalls hm)

/-- **Between batches** no block is in flight iff every applied block is reported, and iff the last call was told to
settle or has applied nothing. -/
theorem settled_between_batches (N : Launch β) (tip : SealedHeader) (n₀ : ℕ) (s : DriveState β)
    (hreach : Reachable N (initial N tip n₀) s) (hbetween : s.control.betweenBatches = true) :
    (s.driver.pendingApplied = none ↔ Unreported s.driver.trace []) ∧
      (s.driver.pendingApplied = none ↔ ∀ calls c m, s.calls = calls ++ [c] →
        run (call N.tree) (start tip n₀) calls = .ok m → c.deferTail = false ∨ c.message.sequenceNumber ≠ m.nextSeq) ∧
      (EndsAdmitted N s.batches → s.driver.pendingApplied = none) ∧
      (N.mode = .ordinary → s.driver.pendingApplied = none) := by
  have hsettles (hends : EndsAdmitted N s.batches) : s.driver.pendingApplied = none :=
    (tailSettles_between hbetween).mp (tailSettles hreach hends)
  refine ⟨?_, settled_iff_last_call hreach, hsettles, fun hmode => hsettles fun _ _ message _ =>
    not_rejects_ordinary hmode message⟩
  have hunreported := (Reported.run (run_calls hreach)).unreported
  constructor
  · intro hnone
    rwa [hnone] at hunreported
  · intro hreported
    have heq := List.append_cancel_left (hunreported.symm.trans hreported)
    cases hp : s.driver.pendingApplied with
    | none => rfl
    | some p =>
      rw [hp] at heq
      cases heq

/-- A finite run up to block eight from block seven, with the messages of blocks eight and nine in one batch. -/
def frontierBatch : List (DriveEvent Unit) :=
  [.send .l1 ⟨3, 0, ()⟩, .send .l1 ⟨4, 0, ()⟩] ++ List.replicate 11 .loop

theorem settled_between_batches_below_frontier :
    ∃ s, Reachable ⟨.finite 9, 5, sequentialTree⟩ (initial ⟨.finite 9, 5, sequentialTree⟩ ⟨7, 0, 0⟩ 3) s ∧
      s.control.betweenBatches = true ∧ appliedNumbers s.driver.trace = [3, 4] ∧ Unreported s.driver.trace [] := by
  obtain ⟨s, hs, hbetween, happlied, hlast⟩ : ∃ s, steps (step ⟨.finite 9, 5, sequentialTree⟩)
      (initial ⟨.finite 9, 5, sequentialTree⟩ ⟨7, 0, 0⟩ 3) frontierBatch = some s ∧ s.control.betweenBatches = true ∧
      appliedNumbers s.driver.trace = [3, 4] ∧ s.batches.map (·.messages.getLast?) = [some ⟨4, 0, ()⟩] :=
    ⟨_, rfl, rfl, by decide +kernel, by decide +kernel⟩
  have hreach : Reachable _ _ s := .of_steps _ hs
  obtain ⟨hreported, -, hends, -⟩ := settled_between_batches _ _ _ s hreach hbetween
  refine ⟨s, hreach, hbetween, happlied, hreported.mp (hends fun batch hbatch message hmessage => ?_)⟩
  have hmem : batch.messages.getLast? ∈ s.batches.map (·.messages.getLast?) := List.mem_map_of_mem hbatch
  rw [hlast, List.mem_singleton] at hmem
  rw [hmem] at hmessage
  cases hmessage
  rintro ⟨blockNumber, frontier, hdecision⟩
  cases hdecision

/-- The block at the frontier is applied with its tail deferred; the message after it is rejected, with the block
unsettled. -/
theorem frontier_block_left_unsettled :
    ∃ s, Reachable ⟨.finite 8, 5, sequentialTree⟩ (initial ⟨.finite 8, 5, sequentialTree⟩ ⟨7, 0, 0⟩ 3) s ∧
      s.control.betweenBatches = true ∧ s.driver.pendingApplied.isSome = true ∧
      appliedNumbers s.driver.trace = [3] ∧ reports s.driver.trace = [] :=
  ⟨_, .of_steps frontierBatch rfl, rfl, by decide +kernel, by decide +kernel, by decide +kernel⟩

end DriveState

end ArbReth.Node
