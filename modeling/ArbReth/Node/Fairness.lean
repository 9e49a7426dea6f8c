import ArbReth.Node.IngressRun

/-! # Fairness of the scheduler

A selection leaves the head of the source that it does not select where it is.  When the batch is completed this source
is owed the turn, so the next selection serves it, unless an L1 message closes the gap ahead of the feed.  `Follows`
says this of two selections in a row, and `Fair` of all selections of a run. -/

namespace ArbReth.Node

variable {β : Type}

theorem MessageSource.other_ne (source : MessageSource) : source.other ≠ source := by
  cases source <;> decide

theorem MessageSource.eq_of_ne_other {source s : MessageSource} (h : s ≠ source.other) : s = source := by
  cases source <;> cases s <;> first | rfl | exact absurd rfl h

namespace Selection

def source (x : Selection β) : MessageSource := x.begun.source

def kind (x : Selection β) : BatchKind := x.begun.kind

/-- The head of the source that was not selected. -/
def rival (x : Selection β) : Option (ℕ × BroadcastFeedMessage β) := x.head x.source.other

/-- The selection takes the head of its source. -/
def Serves (x : Selection β) : Prop := ∃ p, x.head x.source = some p ∧ x.begun.messages = [p.2]

theorem Serves.messages_eq {x : Selection β} (h : x.Serves) {p : ℕ × BroadcastFeedMessage β}
    (hp : x.head x.source = some p) : x.begun.messages = [p.2] := by
  obtain ⟨q, hq, hmessages⟩ := h
  cases hq.symm.trans hp
  exact hmessages

/-- Why a selection has won over the other source. -/
def Wins (x : Selection β) (owed : MessageSource) : Prop :=
  x.rival.isSome = true → (x.source = .l1 ∧ x.kind = .gapCloser) ∨ (x.kind = .ordinary ∧ owed = x.source)

/-- The head that has lost is still there, and now is selected or loses to a gap closer. -/
def Follows (x y : Selection β) : Prop :=
  ∀ p, x.rival = some p → y.head x.source.other = some p ∧
    (y.source = x.source.other ∨ (x.source = .l1 ∧ y.source = .l1 ∧ y.kind = .gapCloser))

end Selection

def NextBatch.isFilling : NextBatch β → Bool
  | .filling _ => true
  | _ => false

/-! ### One selection -/

namespace IngressScheduler

variable {s s' : IngressScheduler β} {nextSequence : ℕ} {batch : SelectedBatch β}

/-- How a batch is started. -/
structure Begins (s : IngressScheduler β) (batch : SelectedBatch β) (s' : IngressScheduler β) : Prop where
  first : ∃ first, (s.port batch.source).pending = some first ∧ batch.messages = [first]
  rest : s' = s.setPort batch.source (s.port batch.source).takePending
  turn : (s.port batch.source.other).pending.isSome = true →
    (batch.source = .l1 ∧ batch.kind = .gapCloser) ∨ (batch.kind = .ordinary ∧ s.owed = batch.source)

theorem choose_cases (s : IngressScheduler β) (nextSequence : ℕ) : ((∀ source, (s.port source).pending = none) ∧
        (s.choose nextSequence = (.ret none, s) ∨ s.choose nextSequence = (.goto .waiting, s))) ∨
      ∃ batch s', s.choose nextSequence = (.goto (.filling batch), s') ∧ Begins s batch s' := by
  have hport : s.port .feed = s.feed ∧ s.port .l1 = s.l1 := ⟨rfl, rfl⟩
  unfold choose
  cases hfeed : s.feed.pending with
  | none =>
    cases hl1 : s.l1.pending with
    | none =>
      refine Or.inl ⟨fun source => ?_, ?_⟩
      · cases source with
        | feed => exact hfeed
        | l1 => exact hl1
      · dsimp only
        split
        · exact Or.inl rfl
        · exact Or.inr rfl
    | some l1 =>
      refine Or.inr ⟨_, _, rfl, ⟨l1, hl1, rfl⟩, rfl, fun hother => ?_⟩
      simp [MessageSource.other, hport, hfeed] at hother
  | some feed =>
    cases hl1 : s.l1.pending with
    | none =>
      refine Or.inr ⟨_, _, rfl, ⟨feed, hfeed, rfl⟩, rfl, fun hother => ?_⟩
      simp [MessageSource.other, hport, hl1] at hother
    | some l1 =>
      dsimp only
      split
      · exact Or.inr ⟨_, _, rfl, ⟨l1, hl1, rfl⟩, rfl, fun _ => Or.inl ⟨rfl, rfl⟩⟩
      · split
        · rename_i howed
          exact Or.inr ⟨_, _, rfl, ⟨feed, hfeed, rfl⟩, rfl, fun _ => Or.inr ⟨rfl, howed⟩⟩
        · rename_i howed
          exact Or.inr ⟨_, _, rfl, ⟨l1, hl1, rfl⟩, rfl, fun _ => Or.inr ⟨rfl, howed⟩⟩

variable {message : BroadcastFeedMessage β}

theorem choose_of_alone {source : MessageSource} (hpending : (s.port source).pending = some message) (hother : (s.port source.other).pending = none) :
    s.choose nextSequence = s.beginBatch source message .ordinary := by
  cases source with
  | feed =>
    have hfeed : s.feed.pending = some message := hpending
    have hl1 : s.l1.pending = none := hother
    simp [choose, hfeed, hl1]
  | l1 =>
    have hl1 : s.l1.pending = some message := hpending
    have hfeed : s.feed.pending = none := hother
    simp [choose, hfeed, hl1]

/-- What filling a batch leaves alone. -/
structure Extends (s : IngressScheduler β) (batch : SelectedBatch β) (next : BatchStep β × IngressScheduler β) : Prop where
  extended : ∃ batch', (next.1 = .goto (.filling batch') ∨ next.1 = .ret (some batch')) ∧
    batch'.source = batch.source ∧ batch'.kind = batch.kind
  other : next.2.port batch.source.other = s.port batch.source.other

theorem extend_cases (s : IngressScheduler β) (batch : SelectedBatch β) : Extends s batch (s.extend batch) := by
  have hother (p : Port β) : (s.setPort batch.source p).port batch.source.other = s.port batch.source.other :=
    port_setPort_of_ne batch.source.other_ne s p
  have hpush (message : BroadcastFeedMessage β) {s' : IngressScheduler β}
      (h : s'.port batch.source.other = s.port batch.source.other) : Extends s batch (push batch message, s') :=
    ⟨⟨_, Or.inl rfl, rfl, rfl⟩, h⟩
  have hret {s' : IngressScheduler β} (h : s'.port batch.source.other = s.port batch.source.other) :
      Extends s batch (.ret (some batch), s') :=
    ⟨⟨_, Or.inr rfl, rfl, rfl⟩, h⟩
  unfold extend
  split
  · split
    · rename_i message rest hsource _
      refine hpush message ?_
      rw [hsource]
      rfl
    · simp only [receiveMore]
      split
      · exact hpush _ (hother _)
      · exact hret rfl
      · exact hret (hother _)
  · exact hret rfl

theorem tryFillHead_pending {source : MessageSource} (h : (s.port source).pending = some message) (filled : MessageSource) :
    ((s.tryFillHead filled).port source).pending = some message := by
  have htryFill (p : Port β) (hp : p.pending = some message) : p.tryFill = p := by
    simp [Port.tryFill, hp]
  cases filled with
  | feed =>
    cases source with
    | feed =>
      have heq := htryFill s.feed h
      simpa [tryFillHead, port, heq] using h
    | l1 => exact h
  | l1 =>
    rcases tryFillHead_l1 s with ⟨-, heq⟩ | ⟨first, rest, -, -, hnone, heq⟩ | ⟨-, heq⟩
    · rw [heq]
      cases source with
      | feed => exact h
      | l1 =>
        have heq := htryFill s.l1 h
        simpa [port, heq] using h
    · rw [heq]
      cases source with
      | feed => exact h
      | l1 => cases hnone.symm.trans h
    · rw [heq]
      exact h

end IngressScheduler

/-! ### Runs -/

namespace IngressRun

open Selection ArbReth.Events

variable {σ τ : IngressRun β} {x : Selection β}

/-- `complete_batch` is called after every batch, with this batch. -/
def Orderly (σ : IngressRun β) : IngressEvent β → Prop
  | .call _ => σ.uncompleted = none
  | .complete source kind => σ.uncompleted = some (source, kind)
  | _ => True

instance (σ : IngressRun β) : DecidablePred σ.Orderly
  | .call _ => inferInstanceAs (Decidable (σ.uncompleted = none))
  | .complete source kind => inferInstanceAs (Decidable (σ.uncompleted = some (source, kind)))
  | .send _ _ | .disconnect _ | .closeL1 _ | .poll | .cancel => isTrue trivial

/-- What the scheduler can come to with `complete_batch` after every batch. -/
def OrderlyReachable (σ τ : IngressRun β) : Prop := Reaches (guarded Orderly step) σ τ

/-- How far the batch of the last selection is. -/
inductive Stage (σ : IngressRun β) (x : Selection β) : Prop where
  | filling (nextSequence : ℕ) (batch : SelectedBatch β) (hcall : σ.call = some (nextSequence, .filling batch))
      (hsource : batch.source = x.source) (hkind : batch.kind = x.kind) (hwins : x.Wins σ.scheduler.owed)
  | returned (hcall : σ.call = none) (hlast : σ.uncompleted = some (x.source, x.kind))
      (hwins : x.Wins σ.scheduler.owed)
  | completed (hcall : ∀ nextSequence pc, σ.call = some (nextSequence, pc) → pc.isFilling = false)
      (hlast : σ.uncompleted = none) (howed : x.rival.isSome = true → σ.scheduler.owed = x.source.other)

/-- What is known since the last selection. -/
structure Since (σ : IngressRun β) (x : Selection β) : Prop where
  rival : ∀ p, x.rival = some p → σ.head x.source.other = some p
  stage : Stage σ x

structure Fair (σ : IngressRun β) : Prop where
  serves : ∀ x ∈ σ.selections, x.Serves
  follows : σ.selections.IsChain Follows
  since : ∀ x ∈ σ.selections.getLast?, Since σ x

theorem Stage.of_eq (h : Stage σ x) (hcall : τ.call = σ.call) (hlast : τ.uncompleted = σ.uncompleted)
    (howed : τ.scheduler.owed = σ.scheduler.owed) : Stage τ x := by
  cases h with
  | filling n batch hbatch hsource hkind hwins =>
    exact .filling n batch (hcall.trans hbatch) hsource hkind (howed ▸ hwins)
  | returned hidle hreturned hwins => exact .returned (hcall.trans hidle) (hlast.trans hreturned) (howed ▸ hwins)
  | completed hnot hnone hturn =>
    exact .completed (fun n pc h => hnot n pc (hcall.symm.trans h)) (hlast.trans hnone)
      (fun hrival => howed.trans (hturn hrival))

theorem head_congr {source : MessageSource} (hbatches : τ.batches = σ.batches)
    (hpending : (τ.scheduler.port source).pending = (σ.scheduler.port source).pending) :
    τ.head source = σ.head source := by
  unfold head delivered
  rw [hbatches, hpending]

/-- A change from outside keeps the heads, the turn and the call. -/
theorem Since.outside (h : Since σ x) (hbatches : τ.batches = σ.batches) (hcall : τ.call = σ.call)
    (hlast : τ.uncompleted = σ.uncompleted) (hscheduler : IngressScheduler.Outside σ.scheduler τ.scheduler) :
    Since τ x := by
  refine ⟨fun p hp => ?_, h.stage.of_eq hcall hlast hscheduler.owed⟩
  rw [head_congr hbatches (hscheduler.pending _)]
  exact h.rival p hp

theorem Stage.owed (h : Stage σ x) {nextSequence : ℕ} {pc : NextBatch β} (hcall : σ.call = some (nextSequence, pc))
    (hpc : pc.isFilling = false) :
    σ.uncompleted = none ∧ (x.rival.isSome = true → σ.scheduler.owed = x.source.other) := by
  cases h with
  | filling n batch hfilling _ _ _ =>
    cases hcall.symm.trans hfilling
    cases hpc
  | returned hidle _ _ => cases hcall.symm.trans hidle
  | completed _ hlast howed => exact ⟨hlast, howed⟩

/-- The completion of the last batch gives the turn to the other source. -/
theorem completeBatch_owed {s : IngressScheduler β} (hwins : x.Wins s.owed) (hrival : x.rival.isSome = true) :
    (s.completeBatch x.source x.kind).owed = x.source.other := by
  rcases hwins hrival with ⟨hsource, hkind⟩ | ⟨hkind, howed⟩
  · rw [hkind, hsource]
    rfl
  · rw [hkind]
    simp [IngressScheduler.completeBatch, howed]

/-- The selection that `choose` makes. -/
theorem follows_of_begins (h : Since σ x) {nextSequence : ℕ} (hcall : σ.call = some (nextSequence, .choose))
    {batch : SelectedBatch β} {s' : IngressScheduler β} (hbegins : IngressScheduler.Begins σ.scheduler batch s') :
    x.Follows ⟨nextSequence, σ.head .feed, σ.head .l1, batch⟩ := by
  intro p hp
  obtain ⟨-, howed⟩ := h.stage.owed hcall rfl
  have hrival := h.rival p hp
  refine ⟨?_, ?_⟩
  · cases hsource : x.source.other <;> rw [hsource] at hrival <;> exact hrival
  · by_cases hother : batch.source = x.source.other
    · exact Or.inl hother
    · right
      -- the winner is the source that has won before, against a head that was there
      have hsame : batch.source = x.source := MessageSource.eq_of_ne_other hother
      obtain ⟨message, hmessage, -⟩ := Option.map_eq_some_iff.mp hrival
      have hpending : (σ.scheduler.port batch.source.other).pending.isSome = true := by
        rw [hsame, hmessage]
        rfl
      rcases hbegins.turn hpending with ⟨hl1, hkind⟩ | ⟨-, hturn⟩
      · exact ⟨hsame.symm.trans hl1, hl1, hkind⟩
      · exfalso
        have hturn' := howed (by rw [hp]; rfl)
        rw [hturn, hsame] at hturn'
        exact x.source.other_ne hturn'.symm

theorem resume_selections (σ : IngressRun β) (nextSequence : ℕ) (next : BatchStep β) :
    (σ.resume nextSequence next).selections = σ.selections := by
  unfold resume
  split <;> rfl

theorem Fair.start : Fair (start : IngressRun β) := by
  refine ⟨fun x hx => ?_, List.isChain_nil, fun x hx => ?_⟩
  · cases hx
  · cases hx

theorem Fair.keep (hσ : Fair σ) (hselections : τ.selections = σ.selections) (hsince : ∀ x, Since σ x → Since τ x) :
    Fair τ := by
  refine ⟨?_, ?_, fun x hx => hsince x (hσ.since x ?_)⟩
  · rw [hselections]
    exact hσ.serves
  · rw [hselections]
    exact hσ.follows
  · rw [← hselections]
    exact hx

theorem Fair.goto (hσ : Fair σ) {nextSequence : ℕ} {pc : NextBatch β} (pc' : NextBatch β) {s' : IngressScheduler β}
    (hcall : σ.call = some (nextSequence, pc)) (hpc : pc.isFilling = false) (hpc' : pc'.isFilling = false)
    (howed : s'.owed = σ.scheduler.owed)
    (hpending : ∀ source message, (σ.scheduler.port source).pending = some message →
      (s'.port source).pending = some message) :
    Fair { σ with scheduler := s', call := some (nextSequence, pc'), selections := σ.selections ++ [] } := by
  refine hσ.keep (List.append_nil _) fun x hx => ?_
  obtain ⟨hlast, hturn⟩ := hx.stage.owed hcall hpc
  refine ⟨fun p hp => ?_, .completed (fun n pc hgoto => ?_) hlast fun hrival => howed.trans (hturn hrival)⟩
  · obtain ⟨message, hmessage, rfl⟩ := Option.map_eq_some_iff.mp (hx.rival p hp)
    exact Option.map_eq_some_iff.mpr ⟨message, hpending _ _ hmessage, rfl⟩
  · cases hgoto
    exact hpc'

theorem Fair.begins (hσ : Fair σ) {nextSequence : ℕ} (hcall : σ.call = some (nextSequence, .choose))
    {batch : SelectedBatch β} {s' : IngressScheduler β} (hbegins : IngressScheduler.Begins σ.scheduler batch s') :
    Fair { σ with
      scheduler := s', call := some (nextSequence, .filling batch),
      selections := σ.selections ++ [⟨nextSequence, σ.head .feed, σ.head .l1, batch⟩] } := by
  obtain ⟨first, hfirst, hmessages⟩ := hbegins.first
  have hhead (source : MessageSource) :
      Selection.head ⟨nextSequence, σ.head .feed, σ.head .l1, batch⟩ source = σ.head source := by
    cases source <;> rfl
  refine ⟨fun x hx => ?_, ?_, fun x hx => ?_⟩
  · rcases List.mem_append.mp hx with hx | hx
    · exact hσ.serves x hx
    · rw [List.mem_singleton.mp hx]
      refine ⟨((σ.delivered batch.source).length, first), (hhead batch.source).trans ?_, hmessages⟩
      exact Option.map_eq_some_iff.mpr ⟨first, hfirst, rfl⟩
  · refine List.isChain_append.mpr ⟨hσ.follows, List.isChain_singleton _, fun x hx y hy => ?_⟩
    cases hy
    exact follows_of_begins (hσ.since x hx) hcall hbegins
  · rw [List.getLast?_concat] at hx
    cases hx
    have hkept : s'.port batch.source.other = σ.scheduler.port batch.source.other := by
      rw [hbegins.rest]
      exact IngressScheduler.port_setPort_of_ne batch.source.other_ne _ _
    have howed : s'.owed = σ.scheduler.owed := by
      rw [hbegins.rest]
      cases batch.source <;> rfl
    refine ⟨fun p hp => ?_, .filling nextSequence batch rfl rfl rfl fun hrival => ?_⟩
    · rw [← (hhead batch.source.other).symm.trans hp]
      exact head_congr rfl (congrArg Port.pending hkept)
    · dsimp only
      rw [howed]
      refine hbegins.turn ?_
      unfold Selection.rival at hrival
      rw [hhead, IngressRun.head, Option.isSome_map] at hrival
      exact hrival

theorem Since.extend (h : Since σ x) {nextSequence : ℕ} {batch : SelectedBatch β}
    (hcall : σ.call = some (nextSequence, .filling batch)) {next : BatchStep β × IngressScheduler β}
    (howed : next.2.owed = σ.scheduler.owed) (hext : IngressScheduler.Extends σ.scheduler batch next) :
    Since ({ σ with scheduler := next.2 }.resume nextSequence next.1) x := by
  obtain ⟨hsource, hkind, hwins⟩ : batch.source = x.source ∧ batch.kind = x.kind ∧ x.Wins σ.scheduler.owed := by
    cases h.stage with
    | filling n b hfilling hsource hkind hwins =>
      cases hcall.symm.trans hfilling
      exact ⟨hsource, hkind, hwins⟩
    | returned hidle _ _ => cases hcall.symm.trans hidle
    | completed hnot _ _ => cases hnot _ _ hcall
  have hpending : (next.2.port x.source.other).pending = (σ.scheduler.port x.source.other).pending := by
    rw [← hsource, hext.other]
  rw [← howed] at hwins
  obtain ⟨batch', hnext, hsource', hkind'⟩ := hext.extended
  rw [hsource] at hsource'
  rw [hkind] at hkind'
  rcases hnext with hnext | hnext
  · rw [hnext]
    refine ⟨fun p hp => ?_, .filling nextSequence batch' rfl hsource' hkind' hwins⟩
    rw [← h.rival p hp]
    exact head_congr rfl hpending
  · rw [hnext]
    refine ⟨fun p hp => ?_, .returned rfl ?_ hwins⟩
    · -- the batch is not of the other source, whose position stays
      rw [← h.rival p hp]
      have hnil : batch'.messagesOf x.source.other = [] := by
        rw [SelectedBatch.messagesOf, hsource', if_neg fun hc => x.source.other_ne hc.symm]
      simp [IngressRun.head, IngressRun.delivered, resume, hnil, hpending]
    · rw [← hsource', ← hkind']
      rfl

theorem Fair.poll (hσ : Fair σ) (hlossless : Lossless σ) (h : σ.poll = some τ) : Fair τ := by
  obtain ⟨nextSequence, pc, next, hcall, hnext, rfl⟩ := poll_cases h
  have hfits := hlossless.fits _ _ hcall
  have howed := (IngressScheduler.nextBatchStep_advances hlossless.shut hfits hnext).same.owed
  cases pc with
  | fillFeed =>
    cases hnext
    exact hσ.goto .fillL1 hcall rfl rfl howed fun source message hm =>
      IngressScheduler.tryFillHead_pending hm .feed
  | fillL1 =>
    cases hnext
    exact hσ.goto .choose hcall rfl rfl howed fun source message hm =>
      IngressScheduler.tryFillHead_pending hm .l1
  | choose =>
    have hchoose := Option.some.inj hnext
    rcases IngressScheduler.choose_cases σ.scheduler nextSequence with ⟨-, heq | heq⟩ | ⟨batch, s', heq, hbegins⟩
    · obtain rfl := heq.symm.trans hchoose
      refine hσ.keep (List.append_nil _) fun x hx => ⟨hx.rival, ?_⟩
      obtain ⟨hlast, hturn⟩ := hx.stage.owed hcall rfl
      exact .completed (fun _ _ hc => by cases hc) hlast hturn
    · obtain rfl := heq.symm.trans hchoose
      exact hσ.goto .waiting hcall rfl rfl rfl fun _ _ hm => hm
    · obtain rfl := heq.symm.trans hchoose
      exact hσ.begins hcall hbegins
  | waiting =>
    obtain ⟨s', hwait, rfl⟩ := Option.map_eq_some_iff.mp hnext
    refine hσ.goto .fillFeed hcall rfl rfl howed fun source message hm => ?_
    -- there is no head while the call waits
    cases source with
    | feed => cases hfits.1.symm.trans hm
    | l1 => cases hfits.2.1.symm.trans hm
  | filling batch =>
    cases hnext
    have hselected : σ.selected nextSequence (.filling batch) (σ.scheduler.extend batch).1 = [] := rfl
    rw [hselected, List.append_nil]
    exact hσ.keep (resume_selections _ _ _) fun x hx => hx.extend hcall howed (IngressScheduler.extend_cases _ _)

theorem Fair.step {e : IngressEvent β} (hσ : Fair σ) (hlossless : Lossless σ) (horderly : σ.Orderly e)
    (h : σ.step e = some τ) : Fair τ := by
  cases e with
  | send source message =>
    cases h
    exact hσ.keep rfl fun x hx => hx.outside rfl rfl rfl (.setPort _ _ _)
  | disconnect source =>
    cases h
    exact hσ.keep rfl fun x hx => hx.outside rfl rfl rfl (.setPort _ _ _)
  | closeL1 maxSequence =>
    simp only [IngressRun.step] at h
    split at h
    · rename_i hclose
      cases h
      refine hσ.keep rfl fun x hx => ⟨fun p hp => ?_, hx.stage.of_eq rfl rfl rfl⟩
      rw [← hx.rival p hp]
      refine head_congr rfl ?_
      cases x.source.other with
      | feed => rfl
      | l1 => exact IngressScheduler.closeL1Input_pending hclose.2
    · cases h
  | call nextSequence =>
    simp only [IngressRun.step] at h
    split at h
    · rename_i hidle
      cases h
      refine hσ.keep rfl fun x hx => ⟨hx.rival, .completed (fun n pc hcall => ?_) horderly ?_⟩
      · cases hcall
        rfl
      · cases hx.stage with
        | filling n batch hcall _ _ _ => simp [hcall] at hidle
        | returned _ hlast _ => cases hlast.symm.trans horderly
        | completed _ _ howed => exact howed
    · cases h
  | poll => exact hσ.poll hlossless h
  | cancel =>
    obtain ⟨n, hcall, rfl⟩ := cancel_cases h
    refine hσ.keep rfl fun x hx => ⟨hx.rival, ?_⟩
    obtain ⟨hlast, hturn⟩ := hx.stage.owed hcall rfl
    exact .completed (fun _ _ hc => by cases hc) hlast hturn
  | complete source kind =>
    simp only [IngressRun.step] at h
    split at h
    · rename_i hidle
      cases h
      refine hσ.keep rfl fun x hx => ⟨fun p hp => ?_, ?_⟩
      · rw [← hx.rival p hp]
        obtain ⟨owed, heq⟩ := σ.scheduler.completeBatch_eq source kind
        refine head_congr rfl ?_
        dsimp only
        rw [heq]
        cases x.source.other <;> rfl
      · cases hx.stage with
        | filling n batch hcall _ _ _ => simp [hcall] at hidle
        | returned hcall hlast hwins =>
          cases hlast.symm.trans horderly
          refine .completed (fun n pc hc => ?_) rfl fun hrival => completeBatch_owed hwins hrival
          cases hcall.symm.trans hc
        | completed _ hlast _ => cases hlast.symm.trans horderly
    · cases h

theorem Fair.of_orderly (h : OrderlyReachable IngressRun.start σ) : Fair σ := by
  refine (h.invariant (I := fun σ => Lossless σ ∧ Fair σ) (fun σ e τ hσ hstep => ?_) ⟨.start, .start⟩).2
  obtain ⟨horderly, he⟩ := guarded_eq_some.mp hstep
  exact ⟨hσ.1.step he, hσ.2.step hσ.1 horderly he⟩

/-! ### Waiting heads -/

/-- A head of the feed that has lost a selection loses only to gap closers until it is served. -/
theorem served_after_gap_closers {rest : List (Selection β)} {p : ℕ × BroadcastFeedMessage β}
    (hchain : (x :: rest).IsChain Follows) (hsource : x.source = .l1) (hfeed : x.feed = some p) :
    ∃ gaps tail, rest = gaps ++ tail ∧ (∀ y ∈ gaps, y.kind = .gapCloser ∧ y.feed = some p) ∧
      ∀ y ∈ tail.head?, y.source = .feed ∧ y.feed = some p := by
  induction rest generalizing x with
  | nil => exact ⟨[], [], rfl, by simp, by simp⟩
  | cons y rest ih =>
    obtain ⟨hfollows, htail⟩ := List.isChain_cons_cons.mp hchain
    have hrival : x.rival = some p := by
      unfold Selection.rival
      rw [hsource]
      exact hfeed
    obtain ⟨hhead, hnext⟩ := hfollows p hrival
    rw [hsource] at hhead hnext
    rcases hnext with hnext | ⟨-, hl1, hkind⟩
    · refine ⟨[], y :: rest, rfl, by simp, fun z hz => ?_⟩
      cases hz
      exact ⟨hnext, hhead⟩
    · obtain ⟨gaps, tail, rfl, hgaps, hserved⟩ := ih htail hl1 hhead
      refine ⟨y :: gaps, tail, rfl, fun z hz => ?_, hserved⟩
      rcases List.mem_cons.mp hz with rfl | hz
      · exact ⟨hkind, hhead⟩
      · exact hgaps z hz

/-- **Bounded overtaking.**  Every selection serves a head; an L1 head that was there when the feed has won is served
next; a feed head that was there when L1 has won is served before any further ordinary batch of L1. -/
theorem serves_waiting_heads (h : OrderlyReachable start σ) :
    (∀ before x y after, σ.selections = before ++ x :: y :: after → x.source = .feed → ∀ p, x.l1 = some p →
        y.l1 = some p ∧ y.source = .l1 ∧ y.begun.messages = [p.2]) ∧
      (∀ before x rest, σ.selections = before ++ x :: rest → x.source = .l1 → ∀ p, x.feed = some p →
        ∃ gaps tail, rest = gaps ++ tail ∧ (∀ y ∈ gaps, y.kind = .gapCloser ∧ y.feed = some p) ∧
          ∀ y ∈ tail.head?, y.source = .feed ∧ y.feed = some p ∧ y.begun.messages = [p.2]) ∧
      (∀ x ∈ σ.selections, x.Serves) ∧ ∀ nextSequence source message, σ.call = some (nextSequence, .choose) →
        (σ.scheduler.port source).pending = some message → (σ.scheduler.port source.other).pending = none →
        ∃ τ, σ.poll = some τ ∧ τ.selections =
          σ.selections ++ [⟨nextSequence, σ.head .feed, σ.head .l1, ⟨source, [message], .ordinary⟩⟩] := by
  have hσ := Fair.of_orderly h
  refine ⟨?_, ?_, hσ.serves, ?_⟩
  · intro before x y after hselections hsource p hp
    have hchain := hσ.follows
    rw [hselections] at hchain
    obtain ⟨hfollows, -⟩ := List.isChain_cons_cons.mp (List.isChain_append.mp hchain).2.1
    have hrival : x.rival = some p := by
      unfold Selection.rival
      rw [hsource]
      exact hp
    obtain ⟨hhead, hnext⟩ := hfollows p hrival
    rw [hsource] at hhead hnext
    rcases hnext with hnext | ⟨hfeed, -, -⟩
    · have hy : y ∈ σ.selections := hselections ▸ by simp
      exact ⟨hhead, hnext, (hσ.serves y hy).messages_eq (hnext ▸ hhead)⟩
    · cases hfeed
  · intro before x rest hselections hsource p hp
    have hchain := hσ.follows
    rw [hselections] at hchain
    obtain ⟨gaps, tail, rfl, hgaps, hserved⟩ :=
      served_after_gap_closers (List.isChain_append.mp hchain).2.1 hsource hp
    refine ⟨gaps, tail, rfl, hgaps, fun y hy => ?_⟩
    obtain ⟨hfeed, hhead⟩ := hserved y hy
    have hmem : y ∈ σ.selections := by
      rw [hselections]
      simp [List.mem_of_mem_head? hy]
    exact ⟨hfeed, hhead, (hσ.serves y hmem).messages_eq (hfeed ▸ hhead)⟩
  · intro nextSequence source message hcall hpending hother
    have hpoll : σ.poll = some ({ σ with
        scheduler := (σ.scheduler.choose nextSequence).2,
        selections := σ.selections ++ σ.selected nextSequence .choose (σ.scheduler.choose nextSequence).1 }.resume
          nextSequence (σ.scheduler.choose nextSequence).1) := by
      simp [poll, hcall, IngressScheduler.nextBatchStep]
    refine ⟨_, hpoll, ?_⟩
    rw [resume_selections, IngressScheduler.choose_of_alone hpending hother]
    rfl

/-- A call that selects one message and the completion of its batch. -/
def oneBatch (nextSequence : ℕ) (source : MessageSource) (kind : BatchKind) : List (IngressEvent Unit) :=
  .call nextSequence :: List.replicate 4 .poll ++ [.complete source kind]

/-- Feed and L1 alternate, and a gap closer goes ahead of the feed once. -/
def alternating : List (IngressEvent Unit) :=
  ([.send .feed ⟨1, 0, ()⟩, .send .l1 ⟨1, 0, ()⟩] : List (IngressEvent Unit)) ++ oneBatch 0 .feed .ordinary ++
    ([.send .feed ⟨4, 0, ()⟩] : List (IngressEvent Unit)) ++ oneBatch 0 .l1 .ordinary ++
    ([.send .l1 ⟨2, 0, ()⟩] : List (IngressEvent Unit)) ++ oneBatch 2 .l1 .gapCloser ++ oneBatch 3 .feed .ordinary

theorem serves_waiting_heads_alternating :
    ∃ (σ : IngressRun Unit) (x y z w : Selection Unit) (p : ℕ × BroadcastFeedMessage Unit),
      OrderlyReachable start σ ∧ σ.selections = [x, y, z, w] ∧ (x.source = .feed ∧ x.l1 = y.l1) ∧
      (y.source = .l1 ∧ y.feed = some p) ∧ z.kind = .gapCloser ∧
      ∃ gaps tail, [z, w] = gaps ++ tail ∧ (∀ g ∈ gaps, g.kind = .gapCloser ∧ g.feed = some p) ∧
        ∀ g ∈ tail.head?, g.source = .feed ∧ g.feed = some p ∧ g.begun.messages = [p.2] := by
  have hrun : (steps (guarded Orderly step) start alternating).map selections = some
      [⟨0, some (0, ⟨1, 0, ()⟩), some (0, ⟨1, 0, ()⟩), ⟨.feed, [⟨1, 0, ()⟩], .ordinary⟩⟩,
        ⟨0, some (1, ⟨4, 0, ()⟩), some (0, ⟨1, 0, ()⟩), ⟨.l1, [⟨1, 0, ()⟩], .ordinary⟩⟩,
        ⟨2, some (1, ⟨4, 0, ()⟩), some (1, ⟨2, 0, ()⟩), ⟨.l1, [⟨2, 0, ()⟩], .gapCloser⟩⟩,
        ⟨3, some (1, ⟨4, 0, ()⟩), none, ⟨.feed, [⟨4, 0, ()⟩], .ordinary⟩⟩] := by
    rfl
  obtain ⟨σ, hσ, hselections⟩ := Option.map_eq_some_iff.mp hrun
  have hreach : OrderlyReachable start σ := .of_steps _ hσ
  obtain ⟨hfirst, hsecond, -, -⟩ := serves_waiting_heads hreach
  obtain ⟨hsame, hy, -⟩ := hfirst [] _ _ _ hselections rfl _ rfl
  exact ⟨σ, _, _, _, _, _, hreach, hselections, ⟨rfl, hsame.symm⟩, ⟨hy, rfl⟩, rfl,
    hsecond [_] _ _ hselections hy _ rfl⟩

end IngressRun

end ArbReth.Node
