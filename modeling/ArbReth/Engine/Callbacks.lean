import ArbReth.Engine.Reconcile

/-! # The applied callback

The final forkchoice update of a block is settled while the next block is built, at the end of a call or by a later
call that applies nothing, and the block is reported then.  The trace of the driver is the requests of one block after
the other, with each report after the requests of the next block; so the reports are those of the applied blocks in
their order, with at most the newest block left out at the end of a call. -/

namespace ArbReth.Engine

open ArbReth.Runs

variable {β : Type}

namespace ArbEngineDriver

/-! ### Traces -/

/-- The sequence number that an event reports. -/
def reportOf : Event β → Option ℕ
  | .onApplied seq => some seq
  | _ => none

def isRequest : Event β → Bool
  | .onApplied _ => false
  | _ => true

/-- The event hands a block to the tree. -/
def handsOver : Event β → Bool
  | .insertExecutedBlock _ | .forkchoiceUpdated _ => true
  | _ => false

/-- The sequence numbers under which blocks were applied. -/
def appliedNumbers (trace : List (Event β)) : List ℕ := (trace.filterMap appliedOf).map (·.sequenceNumber)

/-- The sequence numbers that were reported. -/
def reports (trace : List (Event β)) : List ℕ := trace.filterMap reportOf

/-- The applied blocks are reported in their order, except for the last ones. -/
def Unreported (trace : List (Event β)) (seqs : List ℕ) : Prop := appliedNumbers trace = reports trace ++ seqs

/-- Only the newest block is unreported, or it and its predecessor while it is handed to the tree. -/
def Moment (trace : List (Event β)) : Prop :=
  ∃ seqs, Unreported trace seqs ∧
    (seqs.length ≤ 1 ∨ seqs.length = 2 ∧ ∃ e ∈ trace.getLast?, handsOver e = true)

/-- The requests for one block. -/
def lifecycle (parent : SealedHeader) (a : AppliedBlock β) : List (Event β) :=
  [.payloadAttributes parent.hash ⟨max a.message.l1Timestamp parent.timestamp, a.message⟩, .insertExecutedBlock a,
    .forkchoiceUpdated a.block.hash]

/-- The requests for blocks on top of each other. -/
def lifecycles (parent : SealedHeader) : List (AppliedBlock β) → List (Event β)
  | [] => []
  | a :: as => lifecycle parent a ++ lifecycles a.block as

/-- The head after blocks on top of each other. -/
def headAfter (parent : SealedHeader) (as : List (AppliedBlock β)) : SealedHeader :=
  (as.map (·.block)).getLastD parent

/-- The report of the block that is in flight. -/
def callback (pending : Option PendingAppliedBlock) : List (Event β) :=
  pending.toList.map fun p => .onApplied p.sequenceNumber

variable {t : List (Event β)} {seqs : List ℕ}

theorem appliedNumbers_append (t u : List (Event β)) :
    appliedNumbers (t ++ u) = appliedNumbers t ++ appliedNumbers u := by
  simp [appliedNumbers]

theorem reports_append (t u : List (Event β)) : reports (t ++ u) = reports t ++ reports u := by
  simp [reports]

theorem lifecycles_snoc (parent : SealedHeader) (as : List (AppliedBlock β)) (a : AppliedBlock β) :
    lifecycles parent (as ++ [a]) = lifecycles parent as ++ lifecycle (headAfter parent as) a := by
  induction as generalizing parent with
  | nil => exact List.append_nil _
  | cons b as ih =>
    have hhead : headAfter parent (b :: as) = headAfter b.block as := List.getLastD_cons ..
    rw [List.cons_append, lifecycles, lifecycles, ih, hhead, List.append_assoc]

theorem headAfter_snoc (parent : SealedHeader) (as : List (AppliedBlock β)) (a : AppliedBlock β) :
    headAfter parent (as ++ [a]) = a.block := by
  simp [headAfter]

variable {e : Event β}

theorem Unreported.snoc {seqs' : List ℕ} (h : Unreported t seqs)
    (he : seqs ++ appliedNumbers [e] = reports [e] ++ seqs') : Unreported (t ++ [e]) seqs' := by
  unfold Unreported at h ⊢
  rw [appliedNumbers_append, reports_append, h, List.append_assoc, List.append_assoc, he]

/-- What holds of every earlier moment and of the present one. -/
theorem moments_snoc (h : ∀ p, p <+: t → Moment p) (hlast : Moment (t ++ [e])) : ∀ p, p <+: t ++ [e] → Moment p := by
  intro p hp
  rcases List.prefix_concat_iff.mp hp with rfl | hp
  · exact hlast
  · exact h p hp

/-- The reported numbers are consecutive if the applied ones are. -/
theorem Unreported.consecutive {first n : ℕ} (h : Unreported t seqs)
    (happlied : appliedNumbers t = List.range' first n) : reports t = List.range' first (reports t).length := by
  obtain ⟨k, -, hk, -⟩ := List.range'_eq_append_iff.mp (happlied.symm.trans h)
  rw [hk, List.length_range']

/-! ### What a step adds to the trace -/

variable {E : EngineTree β} {s s' : ArbEngineDriver β} {msg : BroadcastFeedMessage β}

theorem send_eq (h : s.send E e = .ok s') : s' = { s with trace := s.trace ++ [e] } := by
  obtain ⟨_, -, h⟩ := bind_ok.mp h
  exact (Except.ok.inj h).symm

theorem settlePendingApplied_eq {completed : Option ℕ} (h : s.settlePendingApplied E = .ok (completed, s')) :
    s' = { s with pendingApplied := none } ∧ completed = s.pendingApplied.map (·.sequenceNumber) := by
  unfold settlePendingApplied at h
  cases hp : s.pendingApplied with
  | none =>
    rw [hp] at h
    cases h
    exact ⟨by rw [← hp], rfl⟩
  | some p =>
    rw [hp] at h
    obtain ⟨_, -, h⟩ := bind_ok.mp h
    cases h
    exact ⟨rfl, rfl⟩

theorem report_eq (s : ArbEngineDriver β) (pending : Option PendingAppliedBlock) :
    s.report (pending.map (·.sequenceNumber)) = { s with trace := s.trace ++ callback pending } := by
  cases pending with
  | none => simp [report, callback]
  | some p => rfl

theorem settleAndReport_eq (h : s.settleAndReport E = .ok s') :
    s' = { s with pendingApplied := none, trace := s.trace ++ callback s.pendingApplied } := by
  obtain ⟨⟨completed, m⟩, hsettle, h⟩ := bind_ok.mp h
  obtain ⟨rfl, rfl⟩ := settlePendingApplied_eq hsettle
  dsimp only at h
  rw [report_eq] at h
  exact (Except.ok.inj h).symm

theorem applyNext_eq (h : s.applyNext E msg = .ok s') : ∃ block, s' = { s with
    tip := block, nextSeq := s.nextSeq + 1, pendingApplied := some ⟨s.nextSeq, block⟩,
    trace := s.trace ++ lifecycle s.tip ⟨s.nextSeq, msg, block⟩ ++ callback s.pendingApplied } := by
  obtain ⟨⟨completed, m⟩, happly, h⟩ := bind_ok.mp h
  obtain ⟨s₁, hsend, happly⟩ := bind_ok.mp happly
  obtain ⟨⟨c, s₂⟩, hsettle, happly⟩ := bind_ok.mp happly
  obtain ⟨block, -, happly⟩ := bind_ok.mp happly
  obtain ⟨s₃, hqueue, happly⟩ := bind_ok.mp happly
  cases happly
  obtain ⟨s₄, hinsert, hqueue⟩ := bind_ok.mp hqueue
  obtain ⟨s₅, hforkchoice, hqueue⟩ := bind_ok.mp hqueue
  obtain rfl := send_eq hsend
  obtain ⟨rfl, rfl⟩ := settlePendingApplied_eq hsettle
  obtain rfl := send_eq hinsert
  obtain rfl := send_eq hforkchoice
  cases hqueue
  dsimp only at h
  rw [report_eq] at h
  simp only [bumpNextSeq] at h
  split at h
  · refine ⟨block, (Except.ok.inj h).symm.trans ?_⟩
    simp [lifecycle, nativePayloadAttributes]
  · cases h

/-! ### The invariant -/

/-- The trace of a driver that was started on a tip. -/
structure Reported (tip : SealedHeader) (s : ArbEngineDriver β) : Prop where
  head : s.tip = headAfter tip s.applied
  requests : s.trace.filter isRequest = lifecycles tip s.applied
  unreported : Unreported s.trace (s.pendingApplied.toList.map (·.sequenceNumber))
  moments : ∀ p, p <+: s.trace → Moment p

variable {tip : SealedHeader}

theorem Reported.start (tip : SealedHeader) (n₀ : ℕ) : Reported tip (start tip n₀ : ArbEngineDriver β) := by
  refine ⟨rfl, rfl, rfl, fun p hp => ?_⟩
  rw [List.prefix_nil.mp hp]
  exact ⟨[], rfl, Or.inl (Nat.zero_le 1)⟩

theorem Reported.congr (h : Reported tip s) (htip : s'.tip = s.tip) (hpending : s'.pendingApplied = s.pendingApplied)
    (htrace : s'.trace = s.trace) : Reported tip s' := by
  have happlied : s'.applied = s.applied := congrArg (List.filterMap appliedOf) htrace
  exact ⟨by rw [htip, happlied, h.head], by rw [htrace, happlied, h.requests],
    by rw [htrace, hpending]; exact h.unreported, by rw [htrace]; exact h.moments⟩

theorem length_pending (pending : Option PendingAppliedBlock) : (pending.toList.map (·.sequenceNumber)).length ≤ 1 := by
  cases pending <;> simp

/-- The callback of the block in flight, with the blocks applied after it. -/
theorem moments_callback {pending : Option PendingAppliedBlock}
    (h : Unreported t (pending.toList.map (·.sequenceNumber) ++ seqs)) (hlen : seqs.length ≤ 1)
    (hmoments : ∀ p, p <+: t → Moment p) :
    Unreported (t ++ callback pending) seqs ∧ ∀ p, p <+: t ++ callback pending → Moment p := by
  cases pending with
  | none =>
    rw [callback, Option.toList_none, List.map_nil, List.append_nil]
    exact ⟨h, hmoments⟩
  | some p =>
    have hreport : Unreported (t ++ [.onApplied p.sequenceNumber]) seqs := h.snoc (List.append_nil _)
    exact ⟨hreport, moments_snoc hmoments ⟨seqs, hreport, Or.inl hlen⟩⟩

theorem applied_callback (pending : Option PendingAppliedBlock) :
    (callback pending : List (Event β)).filterMap appliedOf = [] ∧
      (callback pending : List (Event β)).filter isRequest = [] := by
  cases pending with
  | none => exact ⟨rfl, rfl⟩
  | some p => exact ⟨rfl, rfl⟩

theorem Reported.settleAndReport (h : Reported tip s) (hsettle : s.settleAndReport E = .ok s') :
    Reported tip s' ∧ s'.pendingApplied = none := by
  obtain rfl := settleAndReport_eq hsettle
  refine ⟨?_, rfl⟩
  have hunreported := h.unreported
  rw [← List.append_nil (List.map _ _)] at hunreported
  obtain ⟨hreported, hmoments⟩ := moments_callback hunreported (Nat.zero_le 1) h.moments
  have happlied : ArbEngineDriver.applied
      { s with pendingApplied := none, trace := s.trace ++ callback s.pendingApplied } = s.applied := by
    simp [applied, applied_callback]
  refine ⟨?_, ?_, hreported, hmoments⟩
  · rw [happlied]
    exact h.head
  · rw [happlied, List.filter_append, (applied_callback _).2, List.append_nil]
    exact h.requests

/-- While a block is handed over its predecessor is not reported yet. -/
theorem moments_lifecycle {pending : List ℕ} (h : Unreported t pending) (hlen : pending.length ≤ 1)
    (hmoments : ∀ p, p <+: t → Moment p) (parent : SealedHeader) (a : AppliedBlock β) :
    Unreported (t ++ lifecycle parent a) (pending ++ [a.sequenceNumber]) ∧
      ∀ p, p <+: t ++ lifecycle parent a → Moment p := by
  have hattributes := h.snoc (e := .payloadAttributes parent.hash
    ⟨max a.message.l1Timestamp parent.timestamp, a.message⟩) (List.append_nil _)
  have hinsert := hattributes.snoc (e := .insertExecutedBlock a) rfl
  have hforkchoice := hinsert.snoc (e := .forkchoiceUpdated a.block.hash) (List.append_nil _)
  -- one or two, by whether there is a block in flight
  have hseqs : (pending ++ [a.sequenceNumber]).length ≤ 1 ∨ (pending ++ [a.sequenceNumber]).length = 2 := by
    rw [List.length_append, List.length_singleton]
    omega
  have hafter := moments_snoc (moments_snoc (moments_snoc hmoments ⟨_, hattributes, Or.inl hlen⟩)
    ⟨_, hinsert, hseqs.imp_right fun hseqs => ⟨hseqs, _, List.getLast?_concat .., rfl⟩⟩)
    ⟨_, hforkchoice, hseqs.imp_right fun hseqs => ⟨hseqs, _, List.getLast?_concat .., rfl⟩⟩
  rw [List.append_assoc, List.append_assoc] at hforkchoice hafter
  exact ⟨hforkchoice, hafter⟩

theorem Reported.applyNext (h : Reported tip s) (happly : s.applyNext E msg = .ok s') : Reported tip s' := by
  obtain ⟨block, rfl⟩ := applyNext_eq happly
  obtain ⟨hlifecycle, hmoments⟩ := moments_lifecycle h.unreported (length_pending _) h.moments s.tip
    ⟨s.nextSeq, msg, block⟩
  obtain ⟨hreported, hmoments⟩ := moments_callback hlifecycle le_rfl hmoments
  have happlied : (s.trace ++ lifecycle s.tip ⟨s.nextSeq, msg, block⟩ ++ callback s.pendingApplied).filterMap appliedOf =
      s.applied ++ [⟨s.nextSeq, msg, block⟩] := by
    rw [List.filterMap_append, List.filterMap_append, (applied_callback _).1, List.append_nil]
    rfl
  refine ⟨?_, ?_, hreported, hmoments⟩
  · unfold applied
    rw [happlied, headAfter_snoc]
  · unfold applied
    rw [happlied, lifecycles_snoc, List.filter_append, List.filter_append, (applied_callback _).2, List.append_nil,
      h.requests, ← h.head]
    rfl

theorem drain_invariant (I : ArbEngineDriver β → Prop)
    (hstep : ∀ m buffered m', I m → m.removeNext.applyNext E buffered = .ok m' → I m') (fuel : ℕ) :
    ∀ {s s' : ArbEngineDriver β}, I s → drain E fuel s = .ok s' → I s' := by
  induction fuel with
  | zero =>
    intro s s' h hdrain
    cases hdrain
    exact h
  | succ fuel ih =>
    intro s s' h hdrain
    simp only [drain] at hdrain
    cases hk : s.pending[s.nextSeq]? with
    | none =>
      rw [hk] at hdrain
      cases hdrain
      exact h
    | some buffered =>
      rw [hk] at hdrain
      obtain ⟨m, happly, hdrain⟩ := bind_ok.mp hdrain
      exact ih (hstep s buffered m h happly) hdrain

theorem Reported.drain (h : Reported tip s) {fuel : ℕ} (hdrain : ArbEngineDriver.drain E fuel s = .ok s') :
    Reported tip s' := by
  refine drain_invariant (Reported tip) (fun m buffered m' hm happly => ?_) fuel h hdrain
  have hremoved : Reported tip m.removeNext := hm.congr rfl rfl rfl
  exact hremoved.applyNext happly

theorem Reported.settleTail (h : Reported tip s) {deferTail : Bool} (htail : s.settleTail E deferTail = .ok s') :
    Reported tip s' ∧ (deferTail = false → s'.pendingApplied = none) := by
  cases deferTail with
  | true =>
    cases htail
    exact ⟨h, fun hf => by cases hf⟩
  | false =>
    obtain ⟨hreported, hnone⟩ := h.settleAndReport htail
    exact ⟨hreported, fun _ => hnone⟩

variable {c : Call β}

/-- A call keeps the invariant, and leaves a block in flight only if it has applied its own message and was told to
defer the tail. -/
theorem Reported.call (h : Reported tip s) (hcall : s.call E c = .ok s') :
    Reported tip s' ∧ (c.deferTail = false ∨ c.message.sequenceNumber ≠ s.nextSeq → s'.pendingApplied = none) := by
  obtain ⟨⟨hash, m⟩, hadvance, hcall⟩ := bind_ok.mp hcall
  cases hcall
  unfold advanceWithAppliedInner at hadvance
  cases hd : s.disposition c.message.sequenceNumber with
  | next =>
    have hseq : c.message.sequenceNumber = s.nextSeq := by
      unfold disposition at hd
      split at hd
      · cases hd
      · split at hd
        · split at hd <;> cases hd
        · omega
    rw [hd] at hadvance
    obtain ⟨s₁, happly, hadvance⟩ := bind_ok.mp hadvance
    obtain ⟨s₂, hdrain, hadvance⟩ := bind_ok.mp hadvance
    obtain ⟨s₃, htail, hadvance⟩ := bind_ok.mp hadvance
    cases hadvance
    obtain ⟨hreported, hnone⟩ := ((h.applyNext happly).drain hdrain).settleTail htail
    exact ⟨hreported.congr rfl rfl rfl, fun hor => hnone (hor.resolve_right fun hne => hne hseq)⟩
  | buffered =>
    rw [hd] at hadvance
    obtain ⟨m', hsettle, hadvance⟩ := bind_ok.mp hadvance
    cases hadvance
    have hinserted : Reported tip { s with pending := s.pending.insert c.message.sequenceNumber c.message } :=
      h.congr rfl rfl rfl
    exact (hinserted.settleAndReport hsettle).imp_right fun hnone _ => hnone
  | duplicate | refused =>
    rw [hd] at hadvance
    obtain ⟨m', hsettle, hadvance⟩ := bind_ok.mp hadvance
    cases hadvance
    exact (h.settleAndReport hsettle).imp_right fun hnone _ => hnone

/-- A call that applies its message and defers the tail leaves a block in flight. -/
theorem call_inFlight (hcall : s.call E c = .ok s') (hseq : c.message.sequenceNumber = s.nextSeq)
    (hdefer : c.deferTail = true) : s'.pendingApplied ≠ none := by
  obtain ⟨⟨hash, m⟩, hadvance, hcall⟩ := bind_ok.mp hcall
  cases hcall
  unfold advanceWithAppliedInner at hadvance
  rw [hseq, disposition_eq_next, hdefer] at hadvance
  obtain ⟨s₁, happly, hadvance⟩ := bind_ok.mp hadvance
  obtain ⟨s₂, hdrain, hadvance⟩ := bind_ok.mp hadvance
  obtain ⟨s₃, htail, hadvance⟩ := bind_ok.mp hadvance
  cases hadvance
  cases htail
  -- each application leaves its own block in flight
  have happlied {m m' : ArbEngineDriver β} {msg : BroadcastFeedMessage β} (h : m.applyNext E msg = .ok m') :
      m'.pendingApplied ≠ none := by
    obtain ⟨block, rfl⟩ := applyNext_eq h
    exact Option.some_ne_none _
  have hflight : s₂.pendingApplied ≠ none :=
    drain_invariant (fun m => m.pendingApplied ≠ none) (fun _ _ _ _ h => happlied h) _ (happlied happly) hdrain
  exact hflight

theorem Reported.run {n₀ : ℕ} {calls : List (Call β)}
    (h : Runs.run (ArbEngineDriver.call E) (ArbEngineDriver.start tip n₀) calls = .ok s) : Reported tip s :=
  run_invariant (Reported tip) (Reported.start tip n₀) (fun _ _ _ hm hcall => (hm.call hcall).1) h

/-- **The applied callback.**  The reports are those of the applied blocks in order, with at most the newest one
missing; the requests are those for one block after the other; a call that settles its tail leaves nothing unreported.
-/
theorem reports_follow_applied (E : EngineTree β) (tip : SealedHeader) (n₀ : ℕ) (calls : List (Call β))
    (s : ArbEngineDriver β) (h : run (call E) (start tip n₀) calls = .ok s) :
    reports s.trace = List.range' n₀ (reports s.trace).length ∧
      Unreported s.trace (s.pendingApplied.toList.map (·.sequenceNumber)) ∧ (∀ p, p <+: s.trace → Moment p) ∧
      s.trace.filter isRequest = lifecycles tip s.applied ∧
      ∀ c s', s.call E c = .ok s' → c.deferTail = false ∨ c.message.sequenceNumber ≠ s.nextSeq →
        Unreported s'.trace [] := by
  have hreported := Reported.run h
  obtain ⟨-, -, hrun⟩ := run_from_start h
  refine ⟨hreported.unreported.consecutive hrun.numbers, hreported.unreported, hreported.moments, hreported.requests,
    fun c s' hcall hsettles => ?_⟩
  obtain ⟨hreported', hnone⟩ := hreported.call hcall
  have hunreported := hreported'.unreported
  rwa [hnone hsettles] at hunreported

theorem reports_follow_applied_out_of_order :
    ∃ s, run (call sequentialTree) (start ⟨7, 0, 0⟩ 3) (callsOf [5, 4, 3, 6]) = .ok s ∧
      reports s.trace = List.range' 3 (reports s.trace).length ∧
      Unreported s.trace (s.pendingApplied.toList.map (·.sequenceNumber)) ∧ (∀ p, p <+: s.trace → Moment p) ∧
      s.trace.filter isRequest = lifecycles ⟨7, 0, 0⟩ s.applied := by
  obtain ⟨s, hs⟩ : ∃ s, run (call sequentialTree) (start ⟨7, 0, 0⟩ 3) (callsOf [5, 4, 3, 6]) = .ok s :=
    isOk_iff.mp (by decide +kernel)
  obtain ⟨hconsecutive, hunreported, hmoments, hrequests, -⟩ := reports_follow_applied _ _ _ _ s hs
  exact ⟨s, hs, hconsecutive, hunreported, hmoments, hrequests⟩

/-- Between the insertion of a block and the callback of its predecessor neither of them is reported. -/
theorem two_unreported_in_handover : ∃ s, run (call sequentialTree) (start ⟨7, 0, 0⟩ 4) (callsOf [4, 5]) = .ok s ∧
      ∃ p, p <+: s.trace ∧ appliedNumbers p = [4, 5] ∧ reports p = [] :=
  ⟨_, rfl, _, List.take_prefix 5 _, by decide +kernel, by decide +kernel⟩

end ArbEngineDriver

end ArbReth.Engine
