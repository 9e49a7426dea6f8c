import ArbReth.Engine.Driver
import ArbReth.Lib.Reorder

/-! # Sequence reconciliation

The driver refines the reorder buffer of `Lib/Reorder.lean`: through `cursor` a successful call is
`Reorder.deliver maxPending` on the sequence number of its message (`call_refines`), and the blocks
it applies are exactly the numbers the cursor passes (`AppliedRun`).  From this follow

* `drive_reconciles`: over any sequence of calls the applied sequence numbers are consecutive from
  the seeded cursor, the tip and the cursor stay in step, and the buffer stays above the cursor;
* `delivery_order_independent`: while the buffer is never full, the cursor is the least missing
  sequence number, so the delivery order does not matter. -/

namespace ArbReth.Engine

open ArbReth.Runs

variable {β : Type}

namespace ArbEngineDriver

variable {E : EngineTree β} {s s' : ArbEngineDriver β} {msg : BroadcastFeedMessage β} {seq : ℕ}

/-! ### What a successful step does -/

/-- The tip, the cursor and the buffer are untouched. -/
structure Keeps (s s' : ArbEngineDriver β) : Prop where
  tip : s'.tip = s.tip
  nextSeq : s'.nextSeq = s.nextSeq
  pending : s'.pending = s.pending

theorem send_ok {e : Event β} (h : s.send E e = .ok s') :
    Keeps s s' ∧ s'.applied = s.applied ++ (appliedOf e).toList := by
  obtain ⟨_, _, h⟩ := bind_ok.mp h
  rw [← Except.ok.inj h]
  refine ⟨⟨rfl, rfl, rfl⟩, ?_⟩
  cases e <;> simp [applied, appliedOf]

theorem settlePendingApplied_ok {completed : Option ℕ}
    (h : s.settlePendingApplied E = .ok (completed, s')) : Keeps s s' ∧ s'.applied = s.applied := by
  unfold settlePendingApplied at h
  cases hp : s.pendingApplied with
  | none =>
    rw [hp] at h
    cases h
    exact ⟨⟨rfl, rfl, rfl⟩, rfl⟩
  | some p =>
    rw [hp] at h
    obtain ⟨_, _, h⟩ := bind_ok.mp h
    cases h
    exact ⟨⟨rfl, rfl, rfl⟩, rfl⟩

theorem report_keeps (s : ArbEngineDriver β) (completed : Option ℕ) :
    Keeps s (s.report completed) ∧ (s.report completed).applied = s.applied := by
  cases completed with
  | none => exact ⟨⟨rfl, rfl, rfl⟩, rfl⟩
  | some q => exact ⟨⟨rfl, rfl, rfl⟩, by simp [report, applied, appliedOf]⟩

variable {s₁ s₂ s₃ : ArbEngineDriver β}

theorem Keeps.trans (h₁ : Keeps s₁ s₂) (h₂ : Keeps s₂ s₃) : Keeps s₁ s₃ :=
  ⟨h₂.tip.trans h₁.tip, h₂.nextSeq.trans h₁.nextSeq, h₂.pending.trans h₁.pending⟩

theorem settleAndReport_ok (h : s.settleAndReport E = .ok s') : Keeps s s' ∧ s'.applied = s.applied := by
  obtain ⟨⟨completed, m⟩, h1, h2⟩ := bind_ok.mp h
  obtain ⟨k1, a1⟩ := settlePendingApplied_ok h1
  obtain ⟨k2, a2⟩ := report_keeps m completed
  rw [← Except.ok.inj h2]
  exact ⟨k1.trans k2, a2.trans a1⟩

theorem queueAppliedBlock_ok {built : SealedHeader} (h : s.queueAppliedBlock E seq msg built = .ok s') :
    s'.tip = built ∧ s'.nextSeq = s.nextSeq ∧ s'.pending = s.pending ∧
      s'.applied = s.applied ++ [⟨seq, msg, built⟩] := by
  obtain ⟨s₁, h1, h⟩ := bind_ok.mp h
  obtain ⟨s₂, h2, h⟩ := bind_ok.mp h
  obtain ⟨k1, a1⟩ := send_ok h1
  obtain ⟨k2, a2⟩ := send_ok h2
  have k := k1.trans k2
  rw [← Except.ok.inj h]
  refine ⟨rfl, k.nextSeq, k.pending, ?_⟩
  show s₂.applied = _
  rw [a2, a1]
  simp [appliedOf]

theorem applyOneNative_ok {completed : Option ℕ} (h : s.applyOneNative E seq msg = .ok (completed, s')) :
    ∃ trace block, E.resolvePayload trace s.tip (s.nativePayloadAttributes msg) = .ok block ∧
      s'.tip = block ∧ s'.nextSeq = s.nextSeq ∧ s'.pending = s.pending ∧
      s'.applied = s.applied ++ [⟨seq, msg, block⟩] := by
  obtain ⟨s₁, h1, h⟩ := bind_ok.mp h
  obtain ⟨⟨c, s₂⟩, h2, h⟩ := bind_ok.mp h
  obtain ⟨block, h3, h⟩ := bind_ok.mp h
  obtain ⟨s₃, h4, h⟩ := bind_ok.mp h
  cases h
  obtain ⟨k1, a1⟩ := send_ok h1
  obtain ⟨k2, a2⟩ := settlePendingApplied_ok h2
  obtain ⟨htip, hseq, hpend, happ⟩ := queueAppliedBlock_ok h4
  have k := k1.trans k2
  refine ⟨s₂.trace, block, k.tip ▸ h3, htip, hseq.trans k.nextSeq, hpend.trans k.pending, ?_⟩
  rw [happ, a2, a1]
  simp [appliedOf]

/-- One application: the tip is the block built on the old tip, the message is recorded under the
old cursor, and the cursor moves by one. -/
theorem applyNext_ok (h : s.applyNext E msg = .ok s') :
    ∃ trace block, E.resolvePayload trace s.tip (s.nativePayloadAttributes msg) = .ok block ∧
      s'.tip = block ∧ s'.nextSeq = s.nextSeq + 1 ∧ s'.pending = s.pending ∧
      s'.applied = s.applied ++ [⟨s.nextSeq, msg, block⟩] := by
  obtain ⟨⟨completed, m⟩, h1, h2⟩ := bind_ok.mp h
  obtain ⟨trace, block, hb, htip, hseq, hpend, happ⟩ := applyOneNative_ok h1
  obtain ⟨k, a⟩ := report_keeps m completed
  simp only [bumpNextSeq] at h2
  split at h2
  · rw [← Except.ok.inj h2]
    refine ⟨trace, block, hb, k.tip.trans htip, ?_, k.pending.trans hpend, a.trans happ⟩
    show (m.report completed).nextSeq + 1 = s.nextSeq + 1
    rw [k.nextSeq, hseq]
  · cases h2

/-! ### Runs of applications -/

/-- From `s` to `s'` the driver applied exactly the blocks `new`: consecutively, each from its own message and on top
of the one before. -/
structure AppliedRun (E : EngineTree β) (s s' : ArbEngineDriver β) (new : List (AppliedBlock β)) :
    Prop where
  applied : s'.applied = s.applied ++ new
  nextSeq : s'.nextSeq = s.nextSeq + new.length
  numbers : new.map (·.sequenceNumber) = List.range' s.nextSeq new.length
  own : ∀ a ∈ new, a.message.sequenceNumber = a.sequenceNumber
  tip : E.Sequential → s'.tip.number = s.tip.number + new.length
  blocks : E.Sequential → ∀ a ∈ new, a.block.number + s.nextSeq = s.tip.number + 1 + a.sequenceNumber

theorem AppliedRun.refl (h1 : s'.applied = s.applied) (h2 : s'.nextSeq = s.nextSeq)
    (h3 : s'.tip = s.tip) : AppliedRun E s s' [] :=
  ⟨by simp [h1], by simp [h2], rfl, by simp, fun _ => by simp [h3], fun _ => by simp⟩

theorem AppliedRun.single (h : s.applyNext E msg = .ok s') (hseq : msg.sequenceNumber = s.nextSeq) :
    ∃ block, AppliedRun E s s' [⟨s.nextSeq, msg, block⟩] := by
  obtain ⟨trace, block, hb, htip, hnext, -, happ⟩ := applyNext_ok h
  refine ⟨block, happ, hnext, rfl, by simpa using hseq, fun hE => ?_, fun hE a ha => ?_⟩
  · rw [htip, hE _ _ _ _ hb]
    rfl
  · obtain rfl := List.mem_singleton.mp ha
    show block.number + s.nextSeq = s.tip.number + 1 + s.nextSeq
    rw [hE _ _ _ _ hb]

theorem AppliedRun.trans {new₁ new₂ : List (AppliedBlock β)}
    (h₁ : AppliedRun E s₁ s₂ new₁) (h₂ : AppliedRun E s₂ s₃ new₂) : AppliedRun E s₁ s₃ (new₁ ++ new₂) := by
  refine ⟨?_, ?_, ?_, ?_, fun hE => ?_, fun hE a ha => ?_⟩
  · rw [h₂.applied, h₁.applied, List.append_assoc]
  · rw [h₂.nextSeq, h₁.nextSeq, List.length_append]
    omega
  · rw [List.map_append, h₁.numbers, h₂.numbers, h₁.nextSeq, List.length_append]
    exact List.range'_append_1
  · intro a ha
    rcases List.mem_append.mp ha with ha | ha
    · exact h₁.own a ha
    · exact h₂.own a ha
  · have e1 := h₁.tip hE
    have e2 := h₂.tip hE
    rw [List.length_append]
    omega
  · rcases List.mem_append.mp ha with ha | ha
    · exact h₁.blocks hE a ha
    · have e1 := h₂.blocks hE a ha
      have e2 := h₁.tip hE
      have e3 := h₁.nextSeq
      omega

/-! ### The cursor and the buffer -/

/-- The reorder buffer of the driver. -/
def cursor (s : ArbEngineDriver β) : Reorder.Cursor := ⟨s.nextSeq, s.pending.keys.toFinset⟩

theorem mem_held (s : ArbEngineDriver β) (k : ℕ) : k ∈ s.cursor.held ↔ k ∈ s.pending := by
  simp [cursor]

theorem card_held (s : ArbEngineDriver β) : s.cursor.held.card = s.pending.size := by
  unfold cursor
  rw [List.toFinset_card_of_nodup, Std.TreeMap.length_keys]
  exact Std.TreeMap.nodup_keys

theorem mem_pending_iff (s : ArbEngineDriver β) (k : ℕ) : k ∈ s.pending ↔ ∃ m, s.pending[k]? = some m := by
  rw [Std.TreeMap.mem_iff_isSome_getElem?, Option.isSome_iff_exists]

theorem cursor_congr (h1 : s'.nextSeq = s.nextSeq) (h2 : s'.pending = s.pending) : s'.cursor = s.cursor := by
  unfold cursor
  rw [h1, h2]

/-- Every buffered message is stored under its own sequence number. -/
def Consistent (s : ArbEngineDriver β) : Prop :=
  ∀ (k : ℕ) (m : BroadcastFeedMessage β), s.pending[k]? = some m → m.sequenceNumber = k

/-- Applying from a driver whose buffer lost an entry is applying from the driver. -/
theorem AppliedRun.of_removeNext {new : List (AppliedBlock β)} (h : AppliedRun E s.removeNext s' new) :
    AppliedRun E s s' new :=
  ⟨h.applied, h.nextSeq, h.numbers, h.own, h.tip, h.blocks⟩

theorem removeNext_getElem? (s : ArbEngineDriver β) (k : ℕ) :
    s.removeNext.pending[k]? = if k = s.nextSeq then none else s.pending[k]? := by
  unfold removeNext
  rw [Std.TreeMap.getElem?_erase]
  by_cases hks : k = s.nextSeq
  · simp [hks]
  · rw [if_neg hks, if_neg (fun he => hks (Std.LawfulEqOrd.eq_of_compare he).symm)]

theorem removeNext_held (s : ArbEngineDriver β) : s.removeNext.cursor.held = s.cursor.held.erase s.nextSeq := by
  ext k
  rw [Finset.mem_erase, mem_held, mem_held, mem_pending_iff, mem_pending_iff]
  simp only [removeNext_getElem?]
  by_cases hks : k = s.nextSeq <;> simp [hks]

theorem Consistent.removeNext (hc : s.Consistent) : s.removeNext.Consistent := by
  intro k m hm
  rw [removeNext_getElem?] at hm
  split at hm
  · cases hm
  · exact hc k m hm

theorem Consistent.congr (hc : s.Consistent) (h : s'.pending = s.pending) : s'.Consistent := by
  intro k m hm
  exact hc k m (h ▸ hm)

/-- The drain loop runs the cursor to the first gap of the buffer and removes what it passes. -/
theorem drain_ok (fuel : ℕ) : ∀ {s s' : ArbEngineDriver β}, s.pending.size ≤ fuel → s.Consistent →
    drain E fuel s = .ok s' →
    (∃ new, AppliedRun E s s' new) ∧ s'.nextSeq = Reorder.firstGap s.cursor.held s.nextSeq ∧
      ∀ k, s'.pending[k]? = if s.nextSeq ≤ k ∧ k < s'.nextSeq then none else s.pending[k]? := by
  induction fuel with
  | zero =>
    intro s s' hfuel _ h
    cases h
    have hgap : s.nextSeq ∉ s.cursor.held := by
      have hcard : s.cursor.held.card = 0 := by rw [card_held]; omega
      rw [Finset.card_eq_zero.mp hcard]
      exact Finset.notMem_empty _
    refine ⟨⟨[], AppliedRun.refl rfl rfl rfl⟩, (Reorder.firstGap_of_notMem hgap).symm, fun k => ?_⟩
    rw [if_neg (by omega)]
  | succ fuel ih =>
    intro s s' hfuel hc h
    simp only [drain] at h
    cases hk : s.pending[s.nextSeq]? with
    | none =>
      rw [hk] at h
      cases h
      have hgap : s.nextSeq ∉ s.cursor.held := by
        rw [mem_held, mem_pending_iff]
        simp [hk]
      refine ⟨⟨[], AppliedRun.refl rfl rfl rfl⟩, (Reorder.firstGap_of_notMem hgap).symm,
        fun k => ?_⟩
      rw [if_neg (by omega)]
    | some m =>
      rw [hk] at h
      obtain ⟨s₂, h1, h2⟩ := bind_ok.mp h
      have hmem : s.nextSeq ∈ s.pending := (mem_pending_iff s _).mpr ⟨m, hk⟩
      obtain ⟨block, hrun⟩ := AppliedRun.single h1 (hc _ _ hk)
      obtain ⟨-, -, -, -, hnext, hpend, -⟩ := applyNext_ok h1
      -- the round removed one entry, so the remaining fuel covers the rest
      have hsize : s₂.pending.size ≤ fuel := by
        have hcontains : s.pending.contains s.nextSeq = true := hmem
        rw [hpend]
        simp only [ArbEngineDriver.removeNext, Std.TreeMap.size_erase, hcontains, if_true]
        omega
      obtain ⟨⟨new, hrun'⟩, hgap, hrest⟩ := ih hsize (hc.removeNext.congr hpend) h2
      have hheld : s₂.cursor.held = s.cursor.held.erase s.nextSeq := by
        rw [← removeNext_held]
        unfold cursor
        rw [hpend]
      have hnext' : s₂.nextSeq = s.nextSeq + 1 := hnext
      have hle := hrun'.nextSeq
      refine ⟨⟨_, hrun.of_removeNext.trans hrun'⟩, ?_, fun k => ?_⟩
      · rw [hgap, hheld, hnext', Reorder.firstGap_erase (by omega),
          ← Reorder.firstGap_of_mem ((mem_held s _).mpr hmem)]
      · rw [hrest, hpend, removeNext_getElem?, hnext']
        by_cases hks : k = s.nextSeq
        · rw [if_neg (by omega), if_pos hks, if_pos (by omega)]
        · rw [if_neg hks]
          by_cases hlt : s.nextSeq ≤ k ∧ k < s'.nextSeq
          · rw [if_pos (by omega), if_pos hlt]
          · rw [if_neg (by omega), if_neg hlt]

theorem retainPending_getElem? (s : ArbEngineDriver β) (k : ℕ) :
    s.retainPending.pending[k]? = if s.nextSeq ≤ k then s.pending[k]? else none := by
  unfold retainPending
  rw [Std.TreeMap.getElem?_filter']
  cases s.pending[k]? with
  | none => simp
  | some m => by_cases hk : s.nextSeq ≤ k <;> simp [hk]

/-! ### A call refines a delivery -/

variable {c : Call β}

theorem disposition_eq_duplicate (h : seq < s.nextSeq) : s.disposition seq = .duplicate := by
  simp [disposition, h]

theorem disposition_eq_buffered (h : s.nextSeq < seq) (hp : s.pending.size < maxPending) :
    s.disposition seq = .buffered := by
  simp [disposition, h, hp, Nat.lt_asymm h]

theorem disposition_eq_refused (h : s.nextSeq < seq) (hp : ¬ s.pending.size < maxPending) :
    s.disposition seq = .refused := by
  simp [disposition, h, hp, Nat.lt_asymm h]

theorem disposition_eq_next : s.disposition s.nextSeq = .next := by simp [disposition]

/-- A call that drops its message only settles the previous block. -/
theorem call_drop (hd : s.disposition c.message.sequenceNumber = .duplicate ∨
      s.disposition c.message.sequenceNumber = .refused) (h : s.call E c = .ok s') :
    Keeps s s' ∧ s'.applied = s.applied := by
  obtain ⟨⟨hash, m⟩, h1, h2⟩ := bind_ok.mp h
  cases h2
  unfold advanceWithAppliedInner at h1
  rcases hd with hd | hd
  all_goals
    rw [hd] at h1
    obtain ⟨m', h3, h4⟩ := bind_ok.mp h1
    cases h4
    exact settleAndReport_ok h3

/-- A buffered message is stored, and the previous block settled. -/
theorem call_buffer (hd : s.disposition c.message.sequenceNumber = .buffered) (h : s.call E c = .ok s') :
    s'.tip = s.tip ∧ s'.nextSeq = s.nextSeq ∧ s'.applied = s.applied ∧
      s'.pending = s.pending.insert c.message.sequenceNumber c.message := by
  obtain ⟨⟨hash, m⟩, h1, h2⟩ := bind_ok.mp h
  cases h2
  unfold advanceWithAppliedInner at h1
  rw [hd] at h1
  obtain ⟨m', h3, h4⟩ := bind_ok.mp h1
  cases h4
  obtain ⟨k, a⟩ := settleAndReport_ok h3
  exact ⟨k.tip, k.nextSeq, a, k.pending⟩

theorem settleTail_ok {deferTail : Bool} (h : s.settleTail E deferTail = .ok s') :
    Keeps s s' ∧ s'.applied = s.applied := by
  cases deferTail with
  | true =>
    cases h
    exact ⟨⟨rfl, rfl, rfl⟩, rfl⟩
  | false => exact settleAndReport_ok h

/-- The awaited message is applied first, then the buffer is drained up to its first gap. -/
theorem call_next (hc : s.Consistent) (hseq : c.message.sequenceNumber = s.nextSeq)
    (h : s.call E c = .ok s') :
    (∃ block new, AppliedRun E s s' (⟨s.nextSeq, c.message, block⟩ :: new)) ∧
      s'.nextSeq = Reorder.firstGap s.cursor.held (s.nextSeq + 1) ∧
      ∀ k, s'.pending[k]? = if s'.nextSeq ≤ k then s.pending[k]? else none := by
  obtain ⟨⟨hash, m⟩, h1, h2⟩ := bind_ok.mp h
  cases h2
  unfold advanceWithAppliedInner at h1
  rw [hseq, disposition_eq_next] at h1
  obtain ⟨s₁, h3, h4⟩ := bind_ok.mp h1
  obtain ⟨s₂, h5, h6⟩ := bind_ok.mp h4
  obtain ⟨s₃, h7, h8⟩ := bind_ok.mp h6
  cases h8
  obtain ⟨block, hrun⟩ := AppliedRun.single h3 hseq
  obtain ⟨-, -, -, -, hnext, hpend, -⟩ := applyNext_ok h3
  obtain ⟨⟨new, hrun'⟩, hgap, hrest⟩ := drain_ok s₁.pending.size le_rfl (hc.congr hpend) h5
  -- the deferred and the settled tail leave the same cursor and buffer
  obtain ⟨k, a⟩ := settleTail_ok h7
  have hheld : s₁.cursor.held = s.cursor.held := by unfold cursor; rw [hpend]
  have hnext₃ : s₃.nextSeq = Reorder.firstGap s.cursor.held (s.nextSeq + 1) := by
    rw [k.nextSeq, hgap, hheld, hnext]
  refine ⟨⟨block, new, ?_⟩, hnext₃, fun q => ?_⟩
  · have hrun₃ : AppliedRun E s₂ s₃.retainPending [] := AppliedRun.refl a k.nextSeq k.tip
    have := hrun.trans (hrun'.trans hrun₃)
    rwa [List.append_nil] at this
  · rw [retainPending_getElem?]
    show (if s₃.nextSeq ≤ q then s₃.pending[q]? else none) = if s₃.nextSeq ≤ q then _ else none
    by_cases hq : s₃.nextSeq ≤ q
    · have hlt : ¬ q < s₂.nextSeq := by rw [← k.nextSeq]; omega
      rw [if_pos hq, if_pos hq, k.pending, hrest, if_neg (fun hh => hlt hh.2), hpend]
    · rw [if_neg hq, if_neg hq]

/-- **Refinement**: a successful call is a delivery to the reorder buffer, and applies exactly the
numbers the cursor passes. -/
theorem call_refines (hc : s.Consistent) (h : s.call E c = .ok s') : s'.Consistent ∧
      s'.cursor = Reorder.deliver maxPending s.cursor c.message.sequenceNumber ∧ ∃ new, AppliedRun E s s' new := by
  rcases Nat.lt_trichotomy c.message.sequenceNumber s.nextSeq with hlt | heq | hgt
  · obtain ⟨k, a⟩ := call_drop (Or.inl (disposition_eq_duplicate hlt)) h
    refine ⟨hc.congr k.pending, ?_, [], AppliedRun.refl a k.nextSeq k.tip⟩
    rw [Reorder.deliver_below (c := s.cursor) hlt]
    exact cursor_congr k.nextSeq k.pending
  · obtain ⟨⟨block, new, hrun⟩, hnext, hpend⟩ := call_next hc heq h
    refine ⟨?_, ?_, _, hrun⟩
    · intro q m hm
      rw [hpend] at hm
      split at hm
      · exact hc q m hm
      · cases hm
    · have e : c.message.sequenceNumber = s.cursor.next := heq
      rw [e, Reorder.deliver_next]
      refine Reorder.Cursor.mk.injEq .. |>.mpr ⟨hnext, ?_⟩
      ext q
      rw [Finset.mem_filter, mem_held]
      show q ∈ s'.cursor.held ↔ _
      rw [mem_held, mem_pending_iff, mem_pending_iff, hpend]
      show _ ↔ _ ∧ Reorder.firstGap s.cursor.held (s.nextSeq + 1) ≤ q
      rw [← hnext]
      by_cases hq : s'.nextSeq ≤ q <;> simp [hq]
  · by_cases hp : s.pending.size < maxPending
    · obtain ⟨htip, hnext, happ, hpend⟩ := call_buffer (disposition_eq_buffered hgt hp) h
      have hget : ∀ q, s'.pending[q]? =
          if q = c.message.sequenceNumber then some c.message else s.pending[q]? := by
        intro q
        rw [hpend, Std.TreeMap.getElem?_insert]
        by_cases hq : q = c.message.sequenceNumber
        · simp [hq]
        · rw [if_neg hq, if_neg (fun he => hq (Std.LawfulEqOrd.eq_of_compare he).symm)]
      refine ⟨?_, ?_, [], AppliedRun.refl happ hnext htip⟩
      · intro q m hm
        rw [hget] at hm
        split at hm
        · rename_i hq
          rw [← Option.some.inj hm, hq]
        · exact hc q m hm
      · rw [Reorder.deliver_above (c := s.cursor) hgt (by rw [card_held]; exact hp)]
        refine Reorder.Cursor.mk.injEq .. |>.mpr ⟨hnext, ?_⟩
        ext q
        rw [Finset.mem_insert, mem_held]
        show q ∈ s'.cursor.held ↔ _
        rw [mem_held, mem_pending_iff, mem_pending_iff, hget]
        by_cases hq : q = c.message.sequenceNumber <;> simp [hq]
    · obtain ⟨k, a⟩ := call_drop (Or.inr (disposition_eq_refused hgt hp)) h
      refine ⟨hc.congr k.pending, ?_, [], AppliedRun.refl a k.nextSeq k.tip⟩
      rw [Reorder.deliver_refused (c := s.cursor) hgt (by rw [card_held]; exact hp)]
      exact cursor_congr k.nextSeq k.pending

/-! ### Whole runs -/

theorem start_consistent (tip : SealedHeader) (n₀ : ℕ) : (start tip n₀ : ArbEngineDriver β).Consistent := by
  intro k m hm
  simp [start] at hm

theorem start_cursor (tip : SealedHeader) (n₀ : ℕ) : (start tip n₀ : ArbEngineDriver β).cursor = ⟨n₀, ∅⟩ := by
  refine Reorder.Cursor.mk.injEq .. |>.mpr ⟨rfl, Finset.eq_empty_of_forall_notMem (fun k hk => ?_)⟩
  exact Std.TreeMap.not_mem_emptyc ((mem_held (start tip n₀) k).mp hk)

variable {tip : SealedHeader} {calls : List (Call β)}

/-- What every run from a fresh driver keeps: the blocks applied so far are one run of
applications, and the buffer is above the cursor. -/
theorem run_from_start {n₀ : ℕ} (h : run (call E) (start tip n₀) calls = .ok s) :
    s.Consistent ∧ Reorder.Settled s.cursor ∧ AppliedRun E (start tip n₀) s s.applied := by
  refine run_invariant (fun m => m.Consistent ∧ Reorder.Settled m.cursor ∧
    AppliedRun E (start tip n₀) m m.applied) ⟨start_consistent tip n₀, ?_, ?_⟩ ?_ h
  · rw [start_cursor]
    intro q hq
    exact absurd hq (Finset.notMem_empty q)
  · exact AppliedRun.refl rfl rfl rfl
  · rintro c m m' ⟨hc, hset, hrun⟩ hcall
    obtain ⟨hc', hcur, new, hnew⟩ := call_refines hc hcall
    refine ⟨hc', hcur ▸ Reorder.deliver_settled hset _ _, ?_⟩
    rw [hnew.applied]
    exact hrun.trans hnew

/-- **Reconciliation.**  After every call the applied numbers are the consecutive ones from the seeded cursor, the tip
is the block of the last, and the buffer is strictly above the cursor. -/
theorem drive_reconciles {g : ℕ} {tip : SealedHeader} (hg : g ≤ tip.number) (hE : E.Sequential)
    {calls : List (Call β)} {t : ArbEngineDriver β} (h : drive E g tip calls = .ok t) :
    ∀ done, done <+: calls → ∃ m, drive E g tip done = .ok m ∧
      m.applied.map (·.sequenceNumber) = List.range' (tip.number - g + 1) m.applied.length ∧
      m.nextSeq = tip.number - g + 1 + m.applied.length ∧ m.tip.number = g + m.nextSeq - 1 ∧
      (∀ k ∈ m.pending, m.nextSeq < k) ∧ ∀ a ∈ m.applied, a.message.sequenceNumber = a.sequenceNumber ∧
        a.block.number = g + a.sequenceNumber := by
  intro done hdone
  obtain ⟨s₀, h0, hr⟩ := bind_ok.mp h
  obtain ⟨m, hm⟩ := run_prefix hr hdone
  refine ⟨m, bind_ok.mpr ⟨s₀, h0, hm⟩, ?_⟩
  have hs₀ : start tip (tip.number - g + 1) = s₀ := by
    simp only [spawn] at h0
    split at h0
    · exact Except.ok.inj h0
    · cases h0
  rw [← hs₀] at hm
  obtain ⟨-, hset, hrun⟩ := run_from_start hm
  have hnext : m.nextSeq = tip.number - g + 1 + m.applied.length := hrun.nextSeq
  have htip : m.tip.number = tip.number + m.applied.length := hrun.tip hE
  refine ⟨hrun.numbers, hnext, by omega, fun k hk => hset k ((mem_held m k).mpr hk), fun a ha => ?_⟩
  have hblock : a.block.number + (tip.number - g + 1) = tip.number + 1 + a.sequenceNumber :=
    hrun.blocks hE a ha
  exact ⟨hrun.own a ha, by omega⟩

/-- A tree that accepts everything and builds the next block of every parent. -/
def sequentialTree : EngineTree Unit where
  accept _ _ := .ok ()
  resolvePayload _ parent attributes :=
    .ok ⟨parent.number + 1, attributes.timestamp, parent.hash + 1⟩
  settleForkchoice _ _ := .ok ()

/-- Calls with the given sequence numbers. -/
def callsOf (seqs : List ℕ) : List (Call Unit) := seqs.map (fun q => ⟨⟨q, 0, ()⟩, q % 2 == 0⟩)

theorem drive_reconciles_out_of_order : ∃ m, drive sequentialTree 5 ⟨7, 0, 0⟩ (callsOf [5, 4, 9, 3, 3, 1]) = .ok m ∧
      m.applied.map (·.sequenceNumber) = List.range' 3 m.applied.length ∧
      m.nextSeq = 3 + m.applied.length ∧ m.tip.number = 5 + m.nextSeq - 1 ∧ (∀ k ∈ m.pending, m.nextSeq < k) ∧
      ∀ a ∈ m.applied, a.message.sequenceNumber = a.sequenceNumber ∧ a.block.number = 5 + a.sequenceNumber := by
  have hE : sequentialTree.Sequential := by
    intro trace parent attributes block h
    rw [← Except.ok.inj h]
  obtain ⟨t, ht⟩ : ∃ t, drive sequentialTree 5 ⟨7, 0, 0⟩ (callsOf [5, 4, 9, 3, 3, 1]) = .ok t :=
    isOk_iff.mp (by decide +kernel)
  exact drive_reconciles (by decide) hE ht _ (List.prefix_refl _)

/-- The reorder buffer stays below its bound throughout the run. -/
def NeverFull (E : EngineTree β) (s : ArbEngineDriver β) (calls : List (Call β)) : Prop :=
  ∀ done m, done <+: calls → run (call E) s done = .ok m → m.pending.size < maxPending

/-- A run of fewer calls than the bound cannot fill the buffer. -/
theorem neverFull_of_length_lt {n₀ : ℕ} (hlen : calls.length < maxPending) : NeverFull E (start tip n₀) calls := by
  intro done m hp hm
  have hsize : m.pending.size ≤ done.length := by
    refine run_induction (fun done m => m.pending.size ≤ done.length) ?_ ?_ hm
    · simp [start]
    · intro done c m m' _ hm ih hcall
      obtain ⟨hc, -, -⟩ := run_from_start hm
      obtain ⟨-, hcur, -⟩ := call_refines hc hcall
      have hle := Reorder.card_deliver_le maxPending c.message.sequenceNumber m.cursor
      rw [← hcur, card_held, card_held] at hle
      rw [List.length_append, List.length_singleton]
      omega
  have := hp.length_le
  omega

/-- The delivered sequence numbers. -/
def sequenceNumbers (calls : List (Call β)) : List ℕ := calls.map (·.message.sequenceNumber)

/-- While the buffer is never full, the cursor accounts exactly for what was delivered. -/
theorem run_exact {n₀ : ℕ} (hfull : NeverFull E (start tip n₀) calls) (h : run (call E) (start tip n₀) calls = .ok s) :
    Reorder.Exact n₀ (sequenceNumbers calls) s.cursor := by
  refine run_induction (fun done m => Reorder.Exact n₀ (sequenceNumbers done) m.cursor) ?_ ?_ h
  · rw [start_cursor]
    exact Reorder.Exact.initial n₀
  · intro done c m m' hp hm hex hcall
    obtain ⟨hc, -, -⟩ := run_from_start hm
    obtain ⟨-, hcur, -⟩ := call_refines hc hcall
    have hlt := hfull done m ((List.prefix_append done [c]).trans hp) hm
    rw [hcur]
    unfold sequenceNumbers
    rw [List.map_append]
    exact hex.deliver (by rw [card_held]; exact hlt) _

/-- **Delivery order does not matter**, while the reorder buffer is never full. -/
theorem delivery_order_independent (E : EngineTree β) (tip : SealedHeader) (n₀ : ℕ) :
    (∀ calls s, NeverFull E (start tip n₀) calls → run (call E) (start tip n₀) calls = .ok s →
      IsLeast {q | n₀ ≤ q ∧ q ∉ sequenceNumbers calls} s.nextSeq ∧ s.nextSeq ∉ s.pending ∧
      s.applied.map (·.sequenceNumber) = List.range' n₀ (s.nextSeq - n₀)) ∧
    (∀ calls₁ calls₂ s₁ s₂, NeverFull E (start tip n₀) calls₁ → NeverFull E (start tip n₀) calls₂ →
      run (call E) (start tip n₀) calls₁ = .ok s₁ → run (call E) (start tip n₀) calls₂ = .ok s₂ →
      (∀ q, q ∈ sequenceNumbers calls₁ ↔ q ∈ sequenceNumbers calls₂) → s₁.nextSeq = s₂.nextSeq ∧
        s₁.applied.map (·.sequenceNumber) = s₂.applied.map (·.sequenceNumber)) := by
  have key : ∀ calls s, NeverFull E (start tip n₀) calls →
      run (call E) (start tip n₀) calls = .ok s →
      IsLeast {q | n₀ ≤ q ∧ q ∉ sequenceNumbers calls} s.nextSeq ∧
      s.nextSeq ∉ s.pending ∧
      s.applied.map (·.sequenceNumber) = List.range' n₀ (s.nextSeq - n₀) := by
    intro calls s hfull h
    obtain ⟨-, hset, hrun⟩ := run_from_start h
    refine ⟨(run_exact hfull h).isLeast, fun hmem => ?_, ?_⟩
    · exact lt_irrefl _ (hset s.nextSeq ((mem_held s _).mpr hmem))
    · have hnext : s.nextSeq = n₀ + s.applied.length := hrun.nextSeq
      rw [hrun.numbers, hnext, Nat.add_sub_cancel_left]
      rfl
  refine ⟨key, ?_⟩
  intro calls₁ calls₂ s₁ s₂ hf₁ hf₂ h₁ h₂ hsame
  obtain ⟨hl₁, -, ha₁⟩ := key calls₁ s₁ hf₁ h₁
  obtain ⟨hl₂, -, ha₂⟩ := key calls₂ s₂ hf₂ h₂
  have hset : {q | n₀ ≤ q ∧ q ∉ sequenceNumbers calls₁} = {q | n₀ ≤ q ∧ q ∉ sequenceNumbers calls₂} := by
    simp only [hsame]
  have hnext : s₁.nextSeq = s₂.nextSeq := hl₁.unique (hset ▸ hl₂)
  exact ⟨hnext, by rw [ha₁, ha₂, hnext]⟩

theorem delivery_order_independent_three :
    ∃ s₁ s₂, run (call sequentialTree) (start ⟨7, 0, 0⟩ 3) (callsOf [5, 4, 3]) = .ok s₁ ∧
      run (call sequentialTree) (start ⟨7, 0, 0⟩ 3) (callsOf [3, 5, 3, 4]) = .ok s₂ ∧ s₁.nextSeq = s₂.nextSeq ∧
      s₁.applied.map (·.sequenceNumber) = s₂.applied.map (·.sequenceNumber) := by
  obtain ⟨s₁, h₁⟩ : ∃ s, run (call sequentialTree) (start ⟨7, 0, 0⟩ 3) (callsOf [5, 4, 3]) = .ok s :=
    isOk_iff.mp (by decide +kernel)
  obtain ⟨s₂, h₂⟩ : ∃ s, run (call sequentialTree) (start ⟨7, 0, 0⟩ 3) (callsOf [3, 5, 3, 4]) = .ok s :=
    isOk_iff.mp (by decide +kernel)
  refine ⟨s₁, s₂, h₁, h₂, ?_⟩
  refine (delivery_order_independent sequentialTree ⟨7, 0, 0⟩ 3).2 _ _ s₁ s₂
    (neverFull_of_length_lt (by decide)) (neverFull_of_length_lt (by decide)) h₁ h₂ ?_
  intro q
  simp [sequenceNumbers, callsOf]
  omega

end ArbEngineDriver

end ArbReth.Engine
