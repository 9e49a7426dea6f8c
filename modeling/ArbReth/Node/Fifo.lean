import ArbReth.Node.Ingress

/-! # The scheduler is a queue for each source

What the scheduler holds of a source is its head, the messages that were retained at a close and the channel, in this
order.  A step of `next_batch` only moves messages from the front of this queue to the batch it is filling
(`nextBatchStep_advances`), and a source is marked as closed only when nothing of it is left (`Shut`). -/

namespace ArbReth.Node

variable {β : Type}

/-! ### Ports -/

/-- What a port can do by itself: take a message as its head, or see that no more will come. -/
inductive PortStep (p : Port β) : Port β → Prop where
  | keep : PortStep p p
  | receive (message : BroadcastFeedMessage β) (rest : Receiver β) (hpending : p.pending = none)
      (hqueue : p.messages.queue = message :: rest.queue) (hlive : rest.live = p.messages.live) :
      PortStep p { p with pending := some message, messages := rest }
  | shut (hmessages : p.messages = ⟨[], false⟩) : PortStep p { p with isOpen := false }

theorem Receiver.tryRecv_message {r rest : Receiver β} {message : BroadcastFeedMessage β}
    (h : r.tryRecv = .message message rest) : r.queue = message :: rest.queue ∧ rest.live = r.live := by
  unfold Receiver.tryRecv at h
  cases hqueue : r.queue with
  | nil =>
    rw [hqueue] at h
    dsimp only at h
    split at h <;> cases h
  | cons first queue =>
    rw [hqueue] at h
    cases h
    exact ⟨rfl, rfl⟩

theorem Receiver.tryRecv_disconnected {r : Receiver β} (h : r.tryRecv = .disconnected) : r = ⟨[], false⟩ := by
  obtain ⟨queue, live⟩ := r
  cases queue with
  | nil =>
    cases live with
    | false => rfl
    | true => cases h
  | cons first queue => cases h

theorem Receiver.tryRecv_empty {r : Receiver β} (h : r.tryRecv = .empty) : r = ⟨[], true⟩ := by
  obtain ⟨queue, live⟩ := r
  cases queue with
  | nil =>
    cases live with
    | false => cases h
    | true => rfl
  | cons first queue => cases h

theorem PortStep.of_tryFill (p : Port β) : PortStep p p.tryFill := by
  unfold Port.tryFill
  split
  · exact .keep
  · rename_i hopen
    have hpending : p.pending = none := by
      simp only [Bool.or_eq_true, not_or, Option.not_isSome_iff_eq_none] at hopen
      exact hopen.2
    split
    · rename_i message rest hrecv
      obtain ⟨hqueue, hlive⟩ := Receiver.tryRecv_message hrecv
      exact .receive message rest hpending hqueue hlive
    · exact .keep
    · rename_i hrecv
      exact .shut (Receiver.tryRecv_disconnected hrecv)

variable {p p' : Port β}

theorem PortStep.of_recv (hpending : p.pending = none) (h : p.recv = some p') : PortStep p p' := by
  unfold Port.recv at h
  split at h
  · cases h
  · split at h
    · rename_i message rest hrecv
      obtain ⟨hqueue, hlive⟩ := Receiver.tryRecv_message hrecv
      cases h
      exact .receive message rest hpending hqueue hlive
    · cases h
    · rename_i hrecv
      cases h
      exact .shut (Receiver.tryRecv_disconnected hrecv)

/-- A port that has received or was closed has no more to wait for. -/
theorem Port.recv_none {p : Port β} (h : p.recv = none) : p.isOpen = false ∨ p.messages = ⟨[], true⟩ := by
  unfold Port.recv at h
  split at h
  · rename_i hopen
    simp only [Bool.not_eq_true'] at hopen
    exact Or.inl hopen
  · split at h
    · cases h
    · rename_i hrecv
      exact Or.inr (Receiver.tryRecv_empty hrecv)
    · cases h

/-- The head of a port and its channel. -/
def Port.held (p : Port β) : List (BroadcastFeedMessage β) := p.pending.toList ++ p.messages.queue

/-- A port is marked as closed when its channel is used up. -/
def Port.Shut (p : Port β) : Prop := p.isOpen = false → p.messages = ⟨[], false⟩

theorem PortStep.held (h : PortStep p p') : p'.held = p.held := by
  cases h with
  | keep => rfl
  | receive message rest hpending hqueue _ => simp [Port.held, hpending, hqueue]
  | shut _ => rfl

theorem PortStep.shut_iff (h : PortStep p p') (hshut : p.Shut) : p'.Shut := by
  cases h with
  | keep => exact hshut
  | receive message rest hpending hqueue hlive =>
    intro hopen
    have hmessages := hshut hopen
    rw [hmessages] at hqueue
    cases hqueue
  | shut hmessages => exact fun _ => hmessages

theorem PortStep.live (h : PortStep p p') : p'.messages.live = p.messages.live := by
  cases h with
  | keep => rfl
  | receive _ _ _ _ hlive => exact hlive
  | shut _ => rfl

/-! ### The scheduler -/

namespace IngressScheduler

variable {s s' : IngressScheduler β}

/-- What the scheduler holds of a source, in order. -/
def held (s : IngressScheduler β) : MessageSource → List (BroadcastFeedMessage β)
  | .feed => s.feed.held
  | .l1 => s.l1.pending.toList ++ (s.l1Buffered ++ s.l1.messages.queue)

structure Shut (s : IngressScheduler β) : Prop where
  feed : s.feed.Shut
  l1 : s.l1.Shut
  buffered : s.l1.isOpen = false → s.l1Buffered = []

/-- What a step of the scheduler keeps, apart from the messages it selects. -/
structure Same (s s' : IngressScheduler β) : Prop where
  owed : s'.owed = s.owed
  live : ∀ source, (s'.port source).messages.live = (s.port source).messages.live

/-- A step that selects nothing: the queues, the marks of closed sources and what `Same` says are kept. -/
structure Kept (s s' : IngressScheduler β) : Prop where
  held : ∀ source, s'.held source = s.held source
  shut : s'.Shut
  same : Same s s'

theorem Kept.refl (hshut : s.Shut) : Kept s s := ⟨fun _ => rfl, hshut, rfl, fun _ => rfl⟩

@[simp] theorem port_setPort (s : IngressScheduler β) (source : MessageSource) (p : Port β) :
    (s.setPort source p).port source = p := by
  cases source <;> rfl

theorem port_setPort_of_ne {source other : MessageSource} (h : other ≠ source) (s : IngressScheduler β) (p : Port β) :
    (s.setPort source p).port other = s.port other := by
  cases source <;> cases other <;> first | rfl | exact absurd rfl h

theorem Shut.port (hshut : s.Shut) (source : MessageSource) : (s.port source).Shut := by
  cases source with
  | feed => exact hshut.feed
  | l1 => exact hshut.l1

variable {source : MessageSource}

theorem Shut.setPort (hshut : s.Shut) {p : Port β} (hp : p.Shut)
    (hbuffered : source = .l1 → p.isOpen = false → s.l1Buffered = []) : (s.setPort source p).Shut := by
  cases source with
  | feed => exact ⟨hp, hshut.l1, hshut.buffered⟩
  | l1 => exact ⟨hshut.feed, hp, hbuffered rfl⟩

theorem Same.setPort {p : Port β} (h : p.messages.live = (s.port source).messages.live) :
    Same s (s.setPort source p) := by
  refine ⟨by cases source <;> rfl, fun other => ?_⟩
  by_cases hother : other = source
  · rw [hother, port_setPort, h]
  · rw [port_setPort_of_ne hother]

theorem held_setPort_of_ne {source other : MessageSource} (h : other ≠ source) (s : IngressScheduler β) (p : Port β) :
    (s.setPort source p).held other = s.held other := by
  cases source <;> cases other <;> first | rfl | exact absurd rfl h

/-- A port moves.  What was retained of L1 comes before its channel, so then there must be nothing. -/
theorem Kept.setPort (source : MessageSource) {p : Port β} (h : PortStep (s.port source) p)
    (hbuffered : source = .l1 → s.l1Buffered = []) (hshut : s.Shut) : Kept s (s.setPort source p) := by
  refine ⟨fun other => ?_, hshut.setPort (h.shut_iff (hshut.port source)) fun hl1 _ => hbuffered hl1, .setPort h.live⟩
  by_cases hother : other = source
  · have hheld := h.held
    subst hother
    cases other with
    | feed => exact hheld
    | l1 =>
      unfold IngressScheduler.held
      have hnone : (s.setPort .l1 p).l1Buffered = [] := hbuffered rfl
      rw [hbuffered rfl, hnone]
      exact hheld
  · exact held_setPort_of_ne hother s p

/-- The front of the queue of a source is taken. -/
structure Takes (s : IngressScheduler β) (source : MessageSource) (message : BroadcastFeedMessage β)
    (s' : IngressScheduler β) : Prop where
  front : s.held source = message :: s'.held source
  others : ∀ other, other ≠ source → s'.held other = s.held other
  head : (s'.port source).pending = none
  feed : source = .l1 → s'.feed = s.feed
  shut : s'.Shut
  same : Same s s'

variable {message : BroadcastFeedMessage β}

theorem Takes.pending (source : MessageSource) (hshut : s.Shut) (h : (s.port source).pending = some message) :
    Takes s source message (s.setPort source (s.port source).takePending) := by
  refine ⟨?_, fun other hother => held_setPort_of_ne hother _ _, by simp [Port.takePending], ?_, ?_, .setPort rfl⟩
  · cases source with
    | feed =>
      have hpending : s.feed.pending = some message := h
      simp [held, Port.held, port, setPort, Port.takePending, hpending]
    | l1 =>
      have hpending : s.l1.pending = some message := h
      simp [held, port, setPort, Port.takePending, hpending]
  · rintro rfl
    rfl
  · refine hshut.setPort (hshut.port source) ?_
    rintro rfl
    exact hshut.buffered

/-- Without a head, a message can be taken from the channel directly. -/
theorem Takes.queue {rest : Receiver β} (hshut : s.Shut)
    (hpending : (s.port source).pending = none) (hqueue : (s.port source).messages.queue = message :: rest.queue)
    (hlive : rest.live = (s.port source).messages.live) (hbuffered : source = .l1 → s.l1Buffered = []) :
    Takes s source message (s.setPort source { s.port source with messages := rest }) := by
  have hstep := PortStep.receive message rest hpending hqueue hlive
  have hkept := Kept.setPort source hstep hbuffered hshut
  have htakes := Takes.pending source hkept.shut (congrArg Port.pending (port_setPort _ _ _))
  -- the message is put in place as the head and taken from there
  have heq : s.setPort source { s.port source with messages := rest } =
      (s.setPort source { s.port source with pending := some message, messages := rest }).setPort source
        ((s.setPort source { s.port source with pending := some message, messages := rest }).port source).takePending := by
    cases source with
    | feed =>
      have hnone : s.feed.pending = none := hpending
      simp [setPort, port, Port.takePending, hnone]
    | l1 =>
      have hnone : s.l1.pending = none := hpending
      simp [setPort, port, Port.takePending, hnone]
  rw [heq]
  refine ⟨(hkept.held source).symm.trans htakes.front, fun other hother => ?_, htakes.head, fun hl1 => ?_, htakes.shut, ?_⟩
  · rw [htakes.others other hother, hkept.held]
  · subst hl1
    rfl
  · exact ⟨htakes.same.owed.trans hkept.same.owed, fun other => (htakes.same.live other).trans (hkept.same.live other)⟩

theorem Takes.buffered {rest : List (BroadcastFeedMessage β)} (hshut : s.Shut)
    (hpending : s.l1.pending = none) (hbuffered : s.l1Buffered = message :: rest) :
    Takes s .l1 message { s with l1Buffered := rest } := by
  refine ⟨by simp [held, hpending, hbuffered], fun other hother => ?_, hpending, fun _ => rfl, ?_, rfl, fun _ => ?_⟩
  · cases other with
    | feed => rfl
    | l1 => exact absurd rfl hother
  · refine ⟨hshut.feed, hshut.l1, fun hopen => ?_⟩
    have hnil := hshut.buffered hopen
    rw [hbuffered] at hnil
    cases hnil
  · rfl

theorem tryFill_of_not_ready {p : Port β} (h : ¬(p.isOpen && p.pending.isNone) = true) : p.tryFill = p := by
  unfold Port.tryFill
  cases hopen : p.isOpen with
  | false => rfl
  | true =>
    cases hpending : p.pending with
    | none => simp [hopen, hpending] at h
    | some message => rfl

/-- The head of L1 comes from the channel, from what was retained, or is left as it is. -/
theorem tryFillHead_l1 (s : IngressScheduler β) :
    (s.l1Buffered = [] ∧ s.tryFillHead .l1 = { s with l1 := s.l1.tryFill }) ∨
      (∃ message rest, s.l1Buffered = message :: rest ∧ s.l1.isOpen = true ∧ s.l1.pending = none ∧
        s.tryFillHead .l1 = { s with l1 := { s.l1 with pending := some message }, l1Buffered := rest }) ∨
      (¬(s.l1.isOpen && s.l1.pending.isNone) = true ∧ s.tryFillHead .l1 = s) := by
  obtain ⟨feed, l1, buffered, owed⟩ := s
  cases buffered with
  | nil => exact Or.inl ⟨rfl, rfl⟩
  | cons message rest =>
    by_cases hready : (l1.isOpen && l1.pending.isNone) = true
    · right; left
      have hhead := hready
      simp only [Bool.and_eq_true, Option.isNone_iff_eq_none] at hhead
      exact ⟨message, rest, rfl, hhead.1, hhead.2, if_pos hready⟩
    · right; right
      refine ⟨hready, (if_neg hready).trans ?_⟩
      rw [tryFill_of_not_ready hready]

theorem tryFillHead_kept (hshut : s.Shut) (source : MessageSource) : Kept s (s.tryFillHead source) := by
  cases source with
  | feed => exact Kept.setPort .feed (.of_tryFill _) (fun h => by cases h) hshut
  | l1 =>
    rcases tryFillHead_l1 s with ⟨hbuffered, heq⟩ | ⟨message, rest, hbuffered, hopen, hpending, heq⟩ | ⟨-, heq⟩
    · rw [heq]
      exact Kept.setPort .l1 (.of_tryFill _) (fun _ => hbuffered) hshut
    · rw [heq]
      refine ⟨fun source => ?_, ⟨hshut.feed, hshut.l1, fun hclosed => ?_⟩, rfl, fun source => ?_⟩
      · cases source with
        | feed => rfl
        | l1 => simp [held, hpending, hbuffered]
      · exact absurd (hopen.symm.trans hclosed) (by decide)
      · cases source <;> rfl
    · rw [heq]
      exact Kept.refl hshut

/-- A head of L1 is missing afterwards only if nothing was retained. -/
theorem tryFillHead_l1_buffered (hpending : (s.tryFillHead .l1).l1.pending = none)
    (hopen : (s.tryFillHead .l1).l1.isOpen = true) : (s.tryFillHead .l1).l1Buffered = [] := by
  rcases tryFillHead_l1 s with ⟨hbuffered, heq⟩ | ⟨message, rest, -, -, -, heq⟩ | ⟨hready, heq⟩
  · rw [heq]
    exact hbuffered
  · rw [heq] at hpending
    cases hpending
  · rw [heq] at hpending hopen
    simp [hpending, hopen] at hready

end IngressScheduler

/-! ### Batches -/

/-- The messages of a batch, if it is from the given source. -/
def SelectedBatch.messagesOf (batch : SelectedBatch β) (source : MessageSource) : List (BroadcastFeedMessage β) :=
  if batch.source = source then batch.messages else []

/-- The batch that is being filled. -/
def NextBatch.taken : NextBatch β → MessageSource → List (BroadcastFeedMessage β)
  | .filling batch, source => batch.messagesOf source
  | _, _ => []

def BatchStep.taken : BatchStep β → MessageSource → List (BroadcastFeedMessage β)
  | .goto pc, source => pc.taken source
  | .ret (some batch), source => batch.messagesOf source
  | .ret none, _ => []

/-- A gap closer is one L1 message at the cursor, with a head of the feed above it. -/
def ClosesGap (nextSequence : ℕ) (s : IngressScheduler β) (batch : SelectedBatch β) : Prop :=
  batch.source = .l1 ∧ ∃ message feed, batch.messages = [message] ∧ message.sequenceNumber = nextSequence ∧
    s.feed.pending = some feed ∧ nextSequence < feed.sequenceNumber

/-- What holds of a batch of a call with the given argument. -/
structure SelectedBatch.Fits (nextSequence : ℕ) (s : IngressScheduler β) (batch : SelectedBatch β) : Prop where
  nonempty : 1 ≤ batch.messages.length
  bounded : batch.messages.length ≤ maxMessageBatch
  head : (s.port batch.source).pending = none
  gap : batch.kind = .gapCloser → ClosesGap nextSequence s batch

def NextBatch.Fits (nextSequence : ℕ) (s : IngressScheduler β) : NextBatch β → Prop
  | .fillFeed | .fillL1 => True
  | .choose => s.l1.pending = none → s.l1.isOpen = true → s.l1Buffered = []
  | .waiting => s.feed.pending = none ∧ s.l1.pending = none ∧ (s.l1.isOpen = true → s.l1Buffered = []) ∧
      (s.feed.isOpen = true ∨ s.l1.isOpen = true)
  | .filling batch => batch.Fits nextSequence s

def BatchStep.Fits (nextSequence : ℕ) (s : IngressScheduler β) : BatchStep β → Prop
  | .goto pc => pc.Fits nextSequence s
  | .ret (some batch) => batch.Fits nextSequence s
  | .ret none => (∀ source, s.held source = []) ∧ ∀ source, (s.port source).messages.live = false

/-- What a step of `next_batch` does to the queues. -/
structure Advances (nextSequence : ℕ) (taken : MessageSource → List (BroadcastFeedMessage β)) (s : IngressScheduler β)
    (next : BatchStep β × IngressScheduler β) : Prop where
  queues : ∀ source, next.1.taken source ++ next.2.held source = taken source ++ s.held source
  fits : next.1.Fits nextSequence next.2
  shut : next.2.Shut
  same : s.Same next.2

namespace IngressScheduler

variable {s s' : IngressScheduler β} {nextSequence : ℕ}

variable {pc : NextBatch β}

theorem Kept.advances (h : Kept s s') (hpc : ∀ source, pc.taken source = [])
    (hfits : pc.Fits nextSequence s') : Advances nextSequence (fun _ => []) s (.goto pc, s') := by
  refine ⟨fun source => ?_, hfits, h.shut, h.same⟩
  simp only [BatchStep.taken, hpc, h.held]

/-- The head of a source becomes the first message of a batch. -/
theorem beginBatch_advances (hshut : s.Shut) {source : MessageSource} {first : BroadcastFeedMessage β} {kind : BatchKind}
    (hfirst : (s.port source).pending = some first)
    (hgap : kind = .gapCloser → source = .l1 ∧ first.sequenceNumber = nextSequence ∧
      ∃ feed, s.feed.pending = some feed ∧ nextSequence < feed.sequenceNumber) :
    Advances nextSequence (fun _ => []) s (s.beginBatch source first kind) := by
  have htakes := Takes.pending source hshut hfirst
  refine ⟨fun other => ?_, ⟨le_rfl, Nat.succ_le_succ (Nat.zero_le 63), htakes.head, fun hkind => ?_⟩, htakes.shut,
    htakes.same⟩
  · by_cases hother : source = other
    · subst hother
      simp [beginBatch, BatchStep.taken, NextBatch.taken, SelectedBatch.messagesOf, htakes.front]
    · have hheld := htakes.others other fun h => hother h.symm
      simp [beginBatch, BatchStep.taken, NextBatch.taken, SelectedBatch.messagesOf, hother, hheld]
  · obtain ⟨rfl, hseq, feed, hfeed, hlt⟩ := hgap hkind
    exact ⟨rfl, first, feed, rfl, hseq, hfeed, hlt⟩

theorem choose_advances (hshut : s.Shut) (hfits : NextBatch.Fits nextSequence s .choose) :
    Advances nextSequence (fun _ => []) s (s.choose nextSequence) := by
  have hnone : BatchKind.ordinary ≠ .gapCloser := by decide
  unfold choose
  cases hfeed : s.feed.pending with
  | none =>
    cases hl1 : s.l1.pending with
    | none =>
      dsimp only
      split
      · rename_i hclosed
        simp only [Bool.and_eq_true, Bool.not_eq_true'] at hclosed
        have hfeedEmpty := hshut.feed hclosed.1
        have hl1Empty := hshut.l1 hclosed.2
        have hbuffered := hshut.buffered hclosed.2
        refine ⟨fun source => rfl, ⟨fun source => ?_, fun source => ?_⟩, hshut, rfl, fun _ => rfl⟩
        · cases source <;> simp [held, Port.held, hfeed, hl1, hfeedEmpty, hl1Empty, hbuffered]
        · cases source <;> simp [port, hfeedEmpty, hl1Empty]
      · rename_i hopen
        refine (Kept.refl hshut).advances (fun _ => rfl) ⟨hfeed, hl1, hfits hl1, ?_⟩
        simp only [Bool.and_eq_true, Bool.not_eq_true', not_and_or, Bool.not_eq_false] at hopen
        exact hopen
    | some l1 => exact beginBatch_advances hshut hl1 fun h => absurd h hnone
  | some feed =>
    cases hl1 : s.l1.pending with
    | none => exact beginBatch_advances hshut hfeed fun h => absurd h hnone
    | some l1 =>
      dsimp only
      split
      · rename_i hgap
        exact beginBatch_advances hshut hl1 fun _ => ⟨rfl, hgap.1, feed, hfeed, hgap.2⟩
      · cases s.owed with
        | feed => exact beginBatch_advances hshut hfeed fun h => absurd h hnone
        | l1 => exact beginBatch_advances hshut hl1 fun h => absurd h hnone

theorem waitForHead_kept (hshut : s.Shut) (hfits : NextBatch.Fits nextSequence s .waiting)
    (h : s.waitForHead = some s') : Kept s s' := by
  obtain ⟨hfeed, hl1, hbuffered, -⟩ := hfits
  have hfromFeed {s'} (h : (s.feed.recv.map fun feed => { s with feed }) = some s') : Kept s s' := by
    obtain ⟨feed, hrecv, rfl⟩ := Option.map_eq_some_iff.mp h
    exact Kept.setPort .feed (.of_recv hfeed hrecv) (fun h => by cases h) hshut
  have hfromL1 {s'} (h : (s.l1.recv.map fun l1 => { s with l1 }) = some s') : Kept s s' := by
    obtain ⟨l1, hrecv, rfl⟩ := Option.map_eq_some_iff.mp h
    have hopen : s.l1.isOpen = true := by
      cases hopen : s.l1.isOpen with
      | true => rfl
      | false => simp [Port.recv, hopen] at hrecv
    exact Kept.setPort .l1 (.of_recv hl1 hrecv) (fun _ => hbuffered hopen) hshut
  simp only [waitForHead] at h
  split at h
  · rcases (Option.orElse_eq_some _ _ _).mp h with h | ⟨-, h⟩
    · exact hfromFeed h
    · exact hfromL1 h
  · rcases (Option.orElse_eq_some _ _ _).mp h with h | ⟨-, h⟩
    · exact hfromL1 h
    · exact hfromFeed h

variable {batch : SelectedBatch β}

theorem ret_advances (hshut : s.Shut) (hfits : batch.Fits nextSequence s) :
    Advances nextSequence batch.messagesOf s (.ret (some batch), s) :=
  ⟨fun _ => rfl, hfits, hshut, rfl, fun _ => rfl⟩

/-- A message from the front of the queue is added to an ordinary batch. -/
theorem push_advances {message : BroadcastFeedMessage β} (htakes : Takes s batch.source message s')
    (hkind : batch.kind = .ordinary) (hlt : batch.messages.length < maxMessageBatch) :
    Advances nextSequence batch.messagesOf s (push batch message, s') := by
  refine ⟨fun source => ?_, ⟨by simp, by simpa using hlt, htakes.head, fun hgap => ?_⟩, htakes.shut, htakes.same⟩
  · by_cases hs : batch.source = source
    · subst hs
      simp [push, BatchStep.taken, NextBatch.taken, SelectedBatch.messagesOf, htakes.front]
    · have hkept := htakes.others source fun h => hs h.symm
      simp [push, BatchStep.taken, NextBatch.taken, SelectedBatch.messagesOf, hs, hkept]
  · rw [hkind] at hgap
    cases hgap

theorem receiveMore_advances (hshut : s.Shut) (hfits : batch.Fits nextSequence s) (hkind : batch.kind = .ordinary)
    (hlt : batch.messages.length < maxMessageBatch) (hbuffered : batch.source = .l1 → s.l1Buffered = []) :
    Advances nextSequence batch.messagesOf s (s.receiveMore batch) := by
  simp only [receiveMore]
  split
  · rename_i message rest hrecv
    obtain ⟨hqueue, hlive⟩ := Receiver.tryRecv_message hrecv
    exact push_advances (Takes.queue hshut hfits.head hqueue hlive hbuffered) hkind hlt
  · exact ret_advances hshut hfits
  · rename_i hrecv
    have hkept := Kept.setPort batch.source (.shut (Receiver.tryRecv_disconnected hrecv)) hbuffered hshut
    refine ⟨fun source => ?_, ⟨hfits.nonempty, hfits.bounded, ?_, fun hgap => ?_⟩, hkept.shut, hkept.same⟩
    · dsimp only [BatchStep.taken]
      rw [hkept.held]
    · simp only [port_setPort]
      exact hfits.head
    · rw [hkind] at hgap
      cases hgap

theorem extend_advances (hshut : s.Shut) (hfits : batch.Fits nextSequence s) :
    Advances nextSequence batch.messagesOf s (s.extend batch) := by
  unfold extend
  split
  · rename_i hroom
    split
    · rename_i message rest hsource hbuffered
      have hhead := hfits.head
      rw [hsource] at hhead
      have htakes := Takes.buffered hshut hhead hbuffered
      rw [← hsource] at htakes
      exact push_advances htakes hroom.1 hroom.2
    · rename_i hnot
      refine receiveMore_advances hshut hfits hroom.1 hroom.2 fun hsource => ?_
      cases hbuffered : s.l1Buffered with
      | nil => rfl
      | cons message rest => exact (hnot message rest hsource hbuffered).elim
  · exact ret_advances hshut hfits

/-- **A step of `next_batch`.** -/
theorem nextBatchStep_advances {next : BatchStep β × IngressScheduler β} (hshut : s.Shut)
    (hfits : pc.Fits nextSequence s) (h : s.nextBatchStep nextSequence pc = some next) :
    Advances nextSequence pc.taken s next := by
  cases pc with
  | fillFeed =>
    cases h
    exact (tryFillHead_kept hshut .feed).advances (fun _ => rfl) trivial
  | fillL1 =>
    cases h
    exact (tryFillHead_kept hshut .l1).advances (fun _ => rfl) tryFillHead_l1_buffered
  | choose =>
    cases h
    exact choose_advances hshut hfits
  | waiting =>
    obtain ⟨s', hwait, rfl⟩ := Option.map_eq_some_iff.mp h
    exact (waitForHead_kept hshut hfits hwait).advances (fun _ => rfl) trivial
  | filling batch =>
    cases h
    exact extend_advances hshut hfits

/-! ### What comes from outside -/

/-- Only the channels have changed. -/
structure Outside (s s' : IngressScheduler β) : Prop where
  pending : ∀ source, (s'.port source).pending = (s.port source).pending
  isOpen : ∀ source, (s'.port source).isOpen = (s.port source).isOpen
  buffered : s'.l1Buffered = s.l1Buffered
  owed : s'.owed = s.owed

theorem Outside.setPort (s : IngressScheduler β) (source : MessageSource) (messages : Receiver β) :
    Outside s (s.setPort source { s.port source with messages }) := by
  refine ⟨fun other => ?_, fun other => ?_, by cases source <;> rfl, by cases source <;> rfl⟩
  · cases source <;> cases other <;> rfl
  · cases source <;> cases other <;> rfl

theorem Outside.fits (h : Outside s s') (hfits : pc.Fits nextSequence s) : pc.Fits nextSequence s' := by
  have hfeed : s'.feed.pending = s.feed.pending := h.pending .feed
  have hl1 : s'.l1.pending = s.l1.pending := h.pending .l1
  have hfeedOpen : s'.feed.isOpen = s.feed.isOpen := h.isOpen .feed
  have hl1Open : s'.l1.isOpen = s.l1.isOpen := h.isOpen .l1
  cases pc with
  | fillFeed => trivial
  | fillL1 => trivial
  | choose =>
    unfold NextBatch.Fits at hfits ⊢
    rw [hl1, hl1Open, h.buffered]
    exact hfits
  | waiting =>
    unfold NextBatch.Fits at hfits ⊢
    rw [hfeed, hl1, hfeedOpen, hl1Open, h.buffered]
    exact hfits
  | filling batch =>
    refine ⟨hfits.nonempty, hfits.bounded, (h.pending batch.source).trans hfits.head, fun hkind => ?_⟩
    obtain ⟨hsource, message, feed, hmessages, hseq, hpending, hlt⟩ := hfits.gap hkind
    exact ⟨hsource, message, feed, hmessages, hseq, hfeed.trans hpending, hlt⟩

theorem Shut.send (hshut : s.Shut) (source : MessageSource) (message : BroadcastFeedMessage β) :
    (s.setPort source { s.port source with messages := (s.port source).messages.send message }).Shut := by
  refine hshut.setPort (fun hopen => ?_) ?_
  · rw [hshut.port source hopen]
    rfl
  · rintro rfl
    exact hshut.buffered

theorem Shut.disconnect (hshut : s.Shut) (source : MessageSource) :
    (s.setPort source { s.port source with messages := (s.port source).messages.close }).Shut := by
  refine hshut.setPort (fun hopen => ?_) ?_
  · rw [hshut.port source hopen]
    rfl
  · rintro rfl
    exact hshut.buffered

theorem held_setMessages (s : IngressScheduler β) (source : MessageSource) {messages : Receiver β}
    {more : List (BroadcastFeedMessage β)} (h : messages.queue = (s.port source).messages.queue ++ more) :
    (s.setPort source { s.port source with messages }).held source = s.held source ++ more := by
  cases source with
  | feed =>
    have hqueue : messages.queue = s.feed.messages.queue ++ more := h
    simp [held, Port.held, setPort, port, hqueue]
  | l1 =>
    have hqueue : messages.queue = s.l1.messages.queue ++ more := h
    simp [held, setPort, port, hqueue]

theorem send_queue (r : Receiver β) (message : BroadcastFeedMessage β) :
    (r.send message).queue = r.queue ++ if r.live then [message] else [] := by
  unfold Receiver.send
  split <;> simp

/-- What is left of L1 after `close_l1_input`. -/
theorem closeL1Input_held (s : IngressScheduler β) (maxSequence : ℕ) : (s.closeL1Input maxSequence).held .l1 =
      s.l1.pending.toList.filter (fun message => message.sequenceNumber ≤ maxSequence) ++
        (s.l1Buffered ++ s.l1.messages.queue.filter (fun message => message.sequenceNumber ≤ maxSequence)) := by
  simp only [held, closeL1Input, List.append_nil]
  cases hpending : s.l1.pending with
  | none => rfl
  | some message => by_cases hle : message.sequenceNumber ≤ maxSequence <;> simp [Option.filter, hle]

theorem closeL1Input_held_of_le {maxSequence : ℕ} (h : ∀ message ∈ s.held .l1, message.sequenceNumber ≤ maxSequence) :
    (s.closeL1Input maxSequence).held .l1 = s.held .l1 := by
  have hpending := List.filter_eq_self (p := fun message => decide (message.sequenceNumber ≤ maxSequence))
    (l := s.l1.pending.toList) |>.mpr fun message hmem => decide_eq_true (h message (by simp [held, hmem]))
  have hqueue := List.filter_eq_self (p := fun message => decide (message.sequenceNumber ≤ maxSequence))
    (l := s.l1.messages.queue) |>.mpr fun message hmem => decide_eq_true (h message (by simp [held, hmem]))
  rw [closeL1Input_held, hpending, hqueue]
  rfl

theorem closeL1Input_pending {maxSequence : ℕ} (h : ∀ message ∈ s.held .l1, message.sequenceNumber ≤ maxSequence) :
    (s.closeL1Input maxSequence).l1.pending = s.l1.pending := by
  cases hpending : s.l1.pending with
  | none => simp [closeL1Input, hpending]
  | some message =>
    have hle : message.sequenceNumber ≤ maxSequence := h message (by simp [held, hpending])
    simp [closeL1Input, hpending, hle]

theorem closeL1Input_shut (hshut : s.Shut) (maxSequence : ℕ) : (s.closeL1Input maxSequence).Shut := by
  refine ⟨hshut.feed, fun _ => rfl, fun hopen => ?_⟩
  simpa [closeL1Input] using hopen

/-! ### The end of a batch -/

theorem completeBatch_eq (s : IngressScheduler β) (source : MessageSource) (kind : BatchKind) :
    ∃ owed, s.completeBatch source kind = { s with owed } := by
  unfold completeBatch
  split
  · exact ⟨_, rfl⟩
  · split
    · exact ⟨_, rfl⟩
    · exact ⟨s.owed, rfl⟩

theorem completeBatch_held (s : IngressScheduler β) (source : MessageSource) (kind : BatchKind) (other : MessageSource) :
    (s.completeBatch source kind).held other = s.held other := by
  obtain ⟨owed, heq⟩ := s.completeBatch_eq source kind
  rw [heq]
  cases other <;> rfl

theorem completeBatch_shut (hshut : s.Shut) (source : MessageSource) (kind : BatchKind) :
    (s.completeBatch source kind).Shut := by
  obtain ⟨owed, heq⟩ := s.completeBatch_eq source kind
  rw [heq]
  exact ⟨hshut.feed, hshut.l1, hshut.buffered⟩

end IngressScheduler

end ArbReth.Node
