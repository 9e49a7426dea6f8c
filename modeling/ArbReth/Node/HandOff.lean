import ArbReth.Engine.Reconcile

/-! # The hand-over from the message sources to the driver

The drive loop of the launcher (`arb-reth-node/src/launcher.rs`) receives messages from two
sources, the live feed and L1 derivation, decides about each one whether it may pass
(`admit_engine_handoff`) and hands it to `advance_with_applied_overlap`.

The L1 source counts its messages consecutively, the feed delivers anything.  The two meet in one
cursor and one bounded buffer, and `l1_never_held_back` says that the L1 source does not notice:
its messages are always at or below the cursor, so none of them is buffered or refused, whatever
the feed did before. -/

namespace ArbReth.Node

open ArbReth.Runs ArbReth.Engine ArbReth.Engine.ArbEngineDriver

variable {β : Type}

/-! ### Admission -/

/-- The launch mode: the serving node, or a run that stops at a frontier block. -/
inductive ArbLaunchMode where
  | ordinary
  | finite (frontier : ℕ)
deriving DecidableEq, Repr

/-- The failures of the conversion between sequence and block numbers. -/
inductive EngineHandoffAdmissionError where
  | frontierBelowGenesis (frontier genesisBlock : ℕ)
  | sequenceNumberOverflow (sequenceNumber genesisBlock : ℕ)
  | tipBelowGenesis (tip genesisBlock : ℕ)
  | nextSequenceOverflow (tip genesisBlock : ℕ)
deriving DecidableEq, Repr

/-- The admission decision. -/
inductive EngineHandoffAdmission where
  | admitted (blockNumber : ℕ)
  | rejectedAboveFrontier (blockNumber frontier : ℕ)
deriving DecidableEq, Repr

def finiteHandoffAdmission (blockNumber frontier genesisBlock : ℕ) :
    Except EngineHandoffAdmissionError EngineHandoffAdmission :=
  if frontier < genesisBlock then .error (.frontierBelowGenesis frontier genesisBlock)
  else if frontier < blockNumber then .ok (.rejectedAboveFrontier blockNumber frontier)
  else .ok (.admitted blockNumber)

def admitEngineHandoff (mode : ArbLaunchMode) (sequenceNumber genesisBlock : ℕ) :
    Except EngineHandoffAdmissionError EngineHandoffAdmission :=
  let blockNumber := sequenceNumber + genesisBlock
  if blockNumber < u64Size then
    match mode with
    | .ordinary => .ok (.admitted blockNumber)
    | .finite frontier => finiteHandoffAdmission blockNumber frontier genesisBlock
  else .error (.sequenceNumberOverflow sequenceNumber genesisBlock)

/-! ### The hand-over -/

/-- Where a message comes from. -/
inductive MessageSource where
  | feed
  | l1
deriving DecidableEq, Repr

/-- One message of a selected batch.  `deferTail` says that the batch holds another message after
it. -/
structure HandOver (β : Type) where
  source : MessageSource
  message : BroadcastFeedMessage β
  deferTail : Bool
deriving DecidableEq, Repr

/-- What ends the drive loop. -/
inductive DriveError where
  | admission (e : EngineHandoffAdmissionError)
  | driver (e : DriverError)
deriving DecidableEq, Repr

/-- The call the driver receives. -/
def HandOver.call (h : HandOver β) : Call β := ⟨h.message, h.deferTail⟩

/-- One round of the batch loop: admission, then the driver.  A message above the frontier is
skipped; an error ends the loop. -/
def handOver (E : EngineTree β) (mode : ArbLaunchMode) (genesisBlock : ℕ) (s : ArbEngineDriver β)
    (h : HandOver β) : Except DriveError (ArbEngineDriver β) := do
  match ← (admitEngineHandoff mode h.message.sequenceNumber genesisBlock).mapError .admission with
  | .rejectedAboveFrontier _ _ => .ok s
  | .admitted _ => (ArbEngineDriver.call E s h.call).mapError .driver

variable {E : EngineTree β} {mode : ArbLaunchMode} {g : ℕ} {s s' : ArbEngineDriver β} {h : HandOver β}

/-- In the ordinary mode a hand-over that succeeds is a call of the driver. -/
theorem handOver_ordinary_ok (hs : handOver E .ordinary g s h = .ok s') : ArbEngineDriver.call E s h.call = .ok s' := by
  obtain ⟨admission, h1, h2⟩ := bind_ok.mp hs
  rw [mapError_ok] at h1
  simp only [admitEngineHandoff] at h1
  split at h1
  · rw [← Except.ok.inj h1] at h2
    exact mapError_ok.mp h2
  · cases h1

variable {handed : List (HandOver β)}

theorem run_handOver_ok (hr : run (handOver E .ordinary g) s handed = .ok s') :
    run (ArbEngineDriver.call E) s (handed.map HandOver.call) = .ok s' := by
  refine run_induction (fun done m => run (ArbEngineDriver.call E) s (done.map HandOver.call) = .ok m)
    rfl ?_ hr
  intro done h m m' _ _ ih hm
  rw [List.map_append]
  exact run_snoc_ok.mpr ⟨m, ih, handOver_ordinary_ok hm⟩

/-! ### Hand-overs that succeed -/

section succeeds

variable (hE : E.Succeeds)
include hE

theorem send_succeeds (s : ArbEngineDriver β) (e : Event β) : ∃ s', s.send E e = .ok s' := by
  unfold ArbEngineDriver.send
  rw [hE.accept]
  exact ⟨_, rfl⟩

theorem settlePendingApplied_succeeds (s : ArbEngineDriver β) : ∃ x, s.settlePendingApplied E = .ok x := by
  unfold settlePendingApplied
  cases s.pendingApplied with
  | none => exact ⟨_, rfl⟩
  | some p =>
    simp only [hE.settleForkchoice]
    exact ⟨_, rfl⟩

theorem settleAndReport_succeeds (s : ArbEngineDriver β) : ∃ s', s.settleAndReport E = .ok s' := by
  obtain ⟨⟨completed, m⟩, hm⟩ := settlePendingApplied_succeeds hE s
  exact ⟨_, bind_ok.mpr ⟨_, hm, rfl⟩⟩

theorem applyOneNative_succeeds (s : ArbEngineDriver β) (seq : ℕ) (msg : BroadcastFeedMessage β) :
    ∃ x, s.applyOneNative E seq msg = .ok x := by
  obtain ⟨s₁, h₁⟩ := send_succeeds hE s (.payloadAttributes s.tip.hash (s.nativePayloadAttributes msg))
  obtain ⟨⟨completed, s₂⟩, h₂⟩ := settlePendingApplied_succeeds hE s₁
  obtain ⟨built, hbuilt⟩ := hE.resolvePayload s₂.trace s₂.tip (s.nativePayloadAttributes msg)
  obtain ⟨s₃, h₃⟩ := send_succeeds hE s₂ (.insertExecutedBlock ⟨seq, msg, built⟩)
  obtain ⟨s₄, h₄⟩ := send_succeeds hE s₃ (.forkchoiceUpdated built.hash)
  exact ⟨_, bind_ok.mpr ⟨s₁, h₁, bind_ok.mpr ⟨_, h₂, bind_ok.mpr ⟨built, hbuilt, bind_ok.mpr
    ⟨_, bind_ok.mpr ⟨s₃, h₃, bind_ok.mpr ⟨s₄, h₄, rfl⟩⟩, rfl⟩⟩⟩⟩⟩

theorem applyNext_succeeds (s : ArbEngineDriver β) (msg : BroadcastFeedMessage β)
    (hnext : s.nextSeq + 1 < u64Size) : ∃ s', s.applyNext E msg = .ok s' := by
  obtain ⟨⟨completed, m⟩, hm⟩ := applyOneNative_succeeds hE s s.nextSeq msg
  obtain ⟨-, -, -, -, hseq, -, -⟩ := applyOneNative_ok hm
  have hbump : (m.report completed).nextSeq + 1 < u64Size := by
    rw [(report_keeps m completed).1.nextSeq, hseq]
    exact hnext
  exact ⟨_, bind_ok.mpr ⟨_, hm, if_pos hbump⟩⟩

/-- The cursor only passes numbers that are buffered. -/
theorem drain_succeeds (fuel : ℕ) (s : ArbEngineDriver β) (hpending : ∀ k ∈ s.pending, k + 1 < u64Size) :
    ∃ s', drain E fuel s = .ok s' := by
  induction fuel generalizing s with
  | zero => exact ⟨s, rfl⟩
  | succ fuel ih =>
    unfold drain
    cases hbuffered : s.pending[s.nextSeq]? with
    | none => exact ⟨s, rfl⟩
    | some buffered =>
      have hnext := hpending _ ((mem_pending_iff s _).mpr ⟨buffered, hbuffered⟩)
      obtain ⟨m, hm⟩ := applyNext_succeeds hE s.removeNext buffered hnext
      obtain ⟨-, -, -, -, -, hpend, -⟩ := applyNext_ok hm
      obtain ⟨s', hs'⟩ := ih m fun k hk => by
        rw [hpend, ← mem_held, removeNext_held, Finset.mem_erase, mem_held] at hk
        exact hpending k hk.2
      exact ⟨s', bind_ok.mpr ⟨m, hm, hs'⟩⟩

theorem call_succeeds (s : ArbEngineDriver β) (c : Call β) (hpending : ∀ k ∈ s.pending, k + 1 < u64Size)
    (hmessage : c.message.sequenceNumber + 1 < u64Size) : ∃ s', ArbEngineDriver.call E s c = .ok s' := by
  suffices h : ∃ x, s.advanceWithAppliedInner E c.message c.deferTail = .ok x by
    obtain ⟨x, hx⟩ := h
    exact ⟨_, bind_ok.mpr ⟨x, hx, rfl⟩⟩
  have hsettle (s : ArbEngineDriver β) : ∃ x, (do
      let s ← s.settleAndReport E
      .ok (s.tip.hash, s)) = Except.ok x := by
    obtain ⟨m, hm⟩ := settleAndReport_succeeds hE s
    exact ⟨_, bind_ok.mpr ⟨m, hm, rfl⟩⟩
  unfold advanceWithAppliedInner
  rcases Nat.lt_trichotomy c.message.sequenceNumber s.nextSeq with hlt | heq | hgt
  · rw [disposition_eq_duplicate hlt]
    exact hsettle s
  · rw [heq, disposition_eq_next]
    obtain ⟨s₁, h₁⟩ := applyNext_succeeds hE s c.message (heq ▸ hmessage)
    obtain ⟨-, -, -, -, -, hpend, -⟩ := applyNext_ok h₁
    obtain ⟨s₂, h₂⟩ := drain_succeeds hE s₁.pending.size s₁ (by rwa [hpend])
    obtain ⟨s₃, h₃⟩ : ∃ s₃, s₂.settleTail E c.deferTail = .ok s₃ := by
      unfold settleTail
      split
      · exact ⟨s₂, rfl⟩
      · exact settleAndReport_succeeds hE s₂
    exact ⟨_, bind_ok.mpr ⟨s₁, h₁, bind_ok.mpr ⟨s₂, h₂, bind_ok.mpr ⟨s₃, h₃, rfl⟩⟩⟩⟩
  · by_cases hp : s.pending.size < maxPending
    · rw [disposition_eq_buffered hgt hp]
      exact hsettle _
    · rw [disposition_eq_refused hgt hp]
      exact hsettle s

end succeeds

/-- The block number of the message and the number after its own are 64-bit numbers. -/
def Fits (genesisBlock : ℕ) (h : HandOver β) : Prop := h.message.sequenceNumber + max genesisBlock 1 < u64Size

/-- The numbers in the buffer were handed over, so the cursor does not leave the 64-bit range. -/
theorem exists_run_handOver (hE : E.Succeeds) (tip : SealedHeader) (n₀ : ℕ)
    (hfits : ∀ h ∈ handed, Fits g h) : ∃ m, run (handOver E .ordinary g) (start tip n₀) handed = .ok m := by
  suffices h : ∃ m, run (handOver E .ordinary g) (start tip n₀) handed = .ok m ∧
      m.Consistent ∧ ∀ k ∈ m.pending, k + 1 < u64Size by
    obtain ⟨m, hm, -⟩ := h
    exact ⟨m, hm⟩
  refine exists_run_ok (fun m : ArbEngineDriver β => m.Consistent ∧ ∀ k ∈ m.pending, k + 1 < u64Size)
    ⟨start_consistent tip n₀, fun k hk => absurd hk Std.TreeMap.not_mem_emptyc⟩ ?_
  rintro h hh m ⟨hc, hpending⟩
  have hfit : h.message.sequenceNumber + max g 1 < u64Size := hfits h hh
  have hnext : h.call.message.sequenceNumber + 1 < u64Size := by
    show h.message.sequenceNumber + 1 < u64Size
    omega
  obtain ⟨m', hm'⟩ := call_succeeds hE m h.call hpending hnext
  refine ⟨m', ?_, ?_⟩
  · unfold handOver admitEngineHandoff
    rw [if_pos (by omega)]
    exact mapError_ok.mpr hm'
  · obtain ⟨hc', hcur, -⟩ := call_refines hc hm'
    refine ⟨hc', fun k hk => ?_⟩
    rw [← mem_held, hcur] at hk
    rcases Finset.mem_insert.mp (Reorder.held_deliver_subset _ _ _ hk) with rfl | hk
    · exact hnext
    · exact hpending k ((mem_held m k).mp hk)

/-! ### The L1 source -/

/-- The sequence numbers of the L1 messages among the hand-overs, in order. -/
def l1Sequence (handed : List (HandOver β)) : List ℕ :=
  (handed.filter (·.source = .l1)).map (·.message.sequenceNumber)

theorem l1Sequence_append (handed rest : List (HandOver β)) :
    l1Sequence (handed ++ rest) = l1Sequence handed ++ l1Sequence rest := by
  unfold l1Sequence
  rw [List.filter_append, List.map_append]

/-- A prefix of consecutive numbers, and the number after it. -/
theorem l1Sequence_next {a n : ℕ} {handed done : List (HandOver β)}
    (hL1 : l1Sequence handed = List.range' a n) (hp : done ++ [h] <+: handed)
    (hsrc : h.source = .l1) : h.message.sequenceNumber = a + (l1Sequence done).length := by
  obtain ⟨rest, rfl⟩ := hp
  rw [l1Sequence_append, l1Sequence_append, List.append_assoc] at hL1
  have hone : l1Sequence [h] = [h.message.sequenceNumber] := by simp [l1Sequence, hsrc]
  have hget : (List.range' a n)[(l1Sequence done).length]? = some h.message.sequenceNumber := by
    rw [← hL1, hone, List.getElem?_append_right le_rfl]
    simp
  rw [List.getElem?_eq_some_iff] at hget
  obtain ⟨hlt, hget⟩ := hget
  rw [← hget, List.getElem_range', one_mul]

/-- **The cursor stays ahead of the L1 source**: having taken `k` consecutive L1 messages from `a` on, it is at least
`a + k`. -/
theorem l1_le_nextSeq {tip : SealedHeader} {n₀ a n : ℕ} (ha : a ≤ n₀) (hL1 : l1Sequence handed = List.range' a n) {done : List (HandOver β)} (hp : done <+: handed)
    (hr : run (handOver E .ordinary g) (start tip n₀) done = .ok s) : a + (l1Sequence done).length ≤ s.nextSeq := by
  refine run_induction (fun done m => a + (l1Sequence done).length ≤ m.nextSeq) ?_ ?_ hr
  · exact ha
  · intro done' h m m' hp' hm ih hstep
    have hcall := handOver_ordinary_ok hstep
    obtain ⟨hc, -, -⟩ := run_from_start (run_handOver_ok hm)
    obtain ⟨-, hcur, -⟩ := call_refines hc hcall
    have hnext : m'.nextSeq = (Reorder.deliver maxPending m.cursor h.message.sequenceNumber).next :=
      congrArg Reorder.Cursor.next hcur
    rw [l1Sequence_append, List.length_append, hnext]
    cases hsrc : h.source with
    | feed =>
      -- the feed only ever moves the cursor forward
      have hmono := Reorder.next_le_deliver maxPending h.message.sequenceNumber m.cursor
      have hone : (l1Sequence [h]).length = 0 := by simp [l1Sequence, hsrc]
      have hcn : m.cursor.next = m.nextSeq := rfl
      omega
    | l1 =>
      have hseq := l1Sequence_next hL1 (hp'.trans hp) hsrc
      have hlt := Reorder.lt_deliver_next maxPending (c := m.cursor) (hseq.trans_le ih)
      have hone : (l1Sequence [h]).length = 1 := by simp [l1Sequence, hsrc]
      omega

/-- **The feed never blocks or loses derivation** with numbers that fit.  Every L1 message finds the cursor at or above
it, and once handled it is below the cursor. -/
theorem l1_never_held_back {E : EngineTree β} (hE : E.Succeeds) (tip : SealedHeader) {g n₀ a n : ℕ} (ha : a ≤ n₀)
    {handed : List (HandOver β)} (hL1 : l1Sequence handed = List.range' a n) (hfits : ∀ h ∈ handed, Fits g h) :
    (∃ m, run (handOver E .ordinary g) (start tip n₀) handed = .ok m) ∧
    ∀ done h, done ++ [h] <+: handed → h.source = .l1 →
      ∃ m m', run (handOver E .ordinary g) (start tip n₀) done = .ok m ∧ handOver E .ordinary g m h = .ok m' ∧
        (m.disposition h.message.sequenceNumber = .duplicate ∨ m.disposition h.message.sequenceNumber = .next) ∧
        h.message.sequenceNumber < m'.nextSeq ∧ (∀ k ∈ m'.pending, k ∈ m.pending) ∧
        ((h.message.sequenceNumber = m.nextSeq ∧ ∃ block rest,
            m'.applied = m.applied ++ ⟨h.message.sequenceNumber, h.message, block⟩ :: rest) ∨
          (m'.applied = m.applied ∧ (h.message.sequenceNumber < n₀ ∨
            h.message.sequenceNumber ∈ m.applied.map (·.sequenceNumber)))) := by
  obtain ⟨last, hlast⟩ := exists_run_handOver hE tip n₀ hfits
  refine ⟨⟨last, hlast⟩, fun done h hp hsrc => ?_⟩
  obtain ⟨m', hrun'⟩ := run_prefix hlast hp
  obtain ⟨m, hr, hm'⟩ := run_snoc_ok.mp hrun'
  have hle : h.message.sequenceNumber ≤ m.nextSeq := by
    rw [l1Sequence_next hL1 hp hsrc]
    exact l1_le_nextSeq ha hL1 ((List.prefix_append done [h]).trans hp) hr
  obtain ⟨hc, -, hrun⟩ := run_from_start (run_handOver_ok hr)
  have hcall := handOver_ordinary_ok hm'
  obtain ⟨-, hcur, -⟩ := call_refines hc hcall
  have hpast : h.message.sequenceNumber < m'.nextSeq := by
    have hlt := Reorder.lt_deliver_next maxPending (c := m.cursor) hle
    exact lt_of_lt_of_eq hlt (congrArg Reorder.Cursor.next hcur).symm
  refine ⟨m, m', hr, hm', ?_⟩
  rcases Nat.lt_or_eq_of_le hle with hlt | heq
  · obtain ⟨hkeep, happ⟩ := call_drop (c := h.call) (Or.inl (disposition_eq_duplicate hlt)) hcall
    refine ⟨Or.inl (disposition_eq_duplicate hlt), hpast, fun k hk => hkeep.pending ▸ hk, Or.inr ⟨happ, ?_⟩⟩
    -- the applied numbers are those from `n₀` up to the cursor
    have hnext : m.nextSeq = n₀ + m.applied.length := hrun.nextSeq
    have hnums : m.applied.map (·.sequenceNumber) = List.range' n₀ m.applied.length := hrun.numbers
    rw [hnums, List.mem_range'_1]
    omega
  · obtain ⟨⟨block, new, hnew⟩, -, hpend⟩ := call_next (c := h.call) hc heq hcall
    refine ⟨Or.inr (heq ▸ disposition_eq_next), hpast, fun k hk => ?_, Or.inl ⟨heq, block, new, ?_⟩⟩
    · rw [mem_pending_iff, hpend] at hk
      split at hk
      · exact (mem_pending_iff m k).mpr hk
      · obtain ⟨_, hk⟩ := hk
        cases hk
    · rw [hnew.applied, heq]
      rfl

theorem sequentialTree_succeeds : sequentialTree.Succeeds :=
  ⟨fun _ _ => rfl, fun _ _ _ => ⟨_, rfl⟩, fun _ _ => rfl⟩

def mixedHandOvers : List (HandOver Unit) :=
  [⟨.feed, ⟨5, 0, ()⟩, false⟩, ⟨.l1, ⟨2, 0, ()⟩, true⟩, ⟨.feed, ⟨4, 0, ()⟩, false⟩,
    ⟨.l1, ⟨3, 0, ()⟩, false⟩, ⟨.l1, ⟨4, 0, ()⟩, false⟩]

theorem l1_never_held_back_mixed : l1Sequence mixedHandOvers = List.range' 2 3 ∧ (∀ h ∈ mixedHandOvers, Fits 7 h) ∧
      ∃ m, run (handOver sequentialTree .ordinary 7) (start ⟨9, 0, 0⟩ 3) (mixedHandOvers.take 3) = .ok m ∧
        (m.disposition 3 = .duplicate ∨ m.disposition 3 = .next) := by
  have hL1 : l1Sequence mixedHandOvers = List.range' 2 3 := by decide
  have hfits : ∀ h ∈ mixedHandOvers, Fits 7 h := by
    unfold Fits
    decide
  obtain ⟨m, -, hm, -, hdisposition, -⟩ := (l1_never_held_back sequentialTree_succeeds ⟨9, 0, 0⟩
    (show 2 ≤ 3 by decide) hL1 hfits).2 (mixedHandOvers.take 3) ⟨.l1, ⟨3, 0, ()⟩, false⟩ ⟨mixedHandOvers.drop 4, by decide⟩ rfl
  exact ⟨hL1, hfits, m, hm, hdisposition⟩

/-- The block number of the feed message is no 64-bit number; the loop ends before the L1 message. -/
theorem overflowing_feed_ends_loop :
    sequentialTree.Succeeds ∧ l1Sequence [⟨.feed, ⟨2 ^ 64 - 1, 0, ()⟩, false⟩, ⟨.l1, ⟨1, 0, ()⟩, false⟩] = List.range' 1 1 ∧
      run (handOver sequentialTree .ordinary 7) (start ⟨7, 0, 0⟩ 1)
          [⟨.feed, ⟨2 ^ 64 - 1, 0, ()⟩, false⟩, ⟨.l1, ⟨1, 0, ()⟩, false⟩] =
        .error (.admission (.sequenceNumberOverflow (2 ^ 64 - 1) 7)) :=
  ⟨sequentialTree_succeeds, by decide, rfl⟩

end ArbReth.Node
