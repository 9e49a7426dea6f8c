import ArbReth.Node.Feed
import ArbReth.Lib.Events
import Mathlib

/-! # The reconnect cursor of the feed

A source that reconnects asks for the feed from `resume_sequence` on, which `coordinate` (`arb-reth-node/src/feed.rs`)
stores while it runs.  The steps of its loop between two awaits are taken apart here, since the sources read the cursor at
any moment: an item is received and observed, the cursor is stored, and only then is the message sent, which waits for room
in the engine channel.

A sequence below the published cursor has been sent, or it is the one that is being sent (`cursor_crosses_sent`).  When the
engine channel closes, the message of the failed send stays below the cursor (`closed_channel_drops_message`); the
coordinator returns with it. -/

namespace ArbReth.Node

open ArbReth.Events

variable {β : Type}

/-- Where the coordinator stands in its loop. -/
inductive CoordinatorPhase (β : Type) where
  | receiving
  /-- A first copy has been observed and the cursor is still to be stored. -/
  | won (item : FeedIngress β)
  /-- In `output.send(..).await`. -/
  | sending (item : FeedIngress β)
  /-- The send failed and the coordinator has returned. -/
  | closed (item : FeedIngress β)

inductive CoordinatorEvent (β : Type) where
  | receive (item : FeedIngress β)
  | store
  | accepted
  | channelClosed

/-- The coordinator within its loop, with the sequences that it has observed so far. -/
structure CoordinatorRun (β : Type) extends Coordinator β where
  phase : CoordinatorPhase β
  observed : List ℕ

namespace CoordinatorRun

def start (resumeSequence : ℕ) : CoordinatorRun β := ⟨.start resumeSequence, .receiving, []⟩

/-- An item arrives: its first copy is to be sent, any other one is dropped. -/
def receive (σ : CoordinatorRun β) (item : FeedIngress β) : CoordinatorRun β :=
  match σ.race.observe item.sequence item.readyForChannelAt with
  | (.first, race) => { σ with race, phase := .won item, observed := σ.observed ++ [item.sequence] }
  | (_, race) => { σ with race, observed := σ.observed ++ [item.sequence] }

/-- One step of the loop; `none` where the event cannot happen. -/
def step (σ : CoordinatorRun β) (event : CoordinatorEvent β) : Option (CoordinatorRun β) :=
  match σ.phase, event with
  | .receiving, .receive item => some (σ.receive item)
  | .won item, .store => some { σ with resumeSequence := σ.race.nextResume, phase := .sending item }
  | .sending item, .accepted => some { σ with sent := σ.sent ++ [item.message], phase := .receiving }
  | .sending item, .channelClosed => some { σ with phase := .closed item }
  | _, _ => none

/-- What the coordinator can come to. -/
def Reachable (σ τ : CoordinatorRun β) : Prop := Reaches step σ τ

/-- The message that has been observed and not been sent. -/
def pending (σ : CoordinatorRun β) : List (FeedIngress β) :=
  match σ.phase with
  | .receiving => []
  | .won item | .sending item | .closed item => [item]

def sentSequences (σ : CoordinatorRun β) : List ℕ := σ.sent.map BroadcastFeedMessage.sequenceNumber

variable {σ τ : CoordinatorRun β} {event : CoordinatorEvent β}

/-- What a step can do. -/
inductive Takes (σ : CoordinatorRun β) : CoordinatorRun β → Prop where
  | first (item : FeedIngress β) (hphase : σ.phase = .receiving) (hnot : item.sequence ∉ σ.race.recent)
      (hlow : σ.race.nextResume ≤ item.sequence) :
      Takes σ { σ with race := σ.race.enter item.sequence item.readyForChannelAt, phase := .won item,
                       observed := σ.observed ++ [item.sequence] }
  | again (item : FeedIngress β) (hphase : σ.phase = .receiving) :
      Takes σ { σ with observed := σ.observed ++ [item.sequence] }
  | store (item : FeedIngress β) (hphase : σ.phase = .won item) :
      Takes σ { σ with resumeSequence := σ.race.nextResume, phase := .sending item }
  | accepted (item : FeedIngress β) (hphase : σ.phase = .sending item) :
      Takes σ { σ with sent := σ.sent ++ [item.message], phase := .receiving }
  | channelClosed (item : FeedIngress β) (hphase : σ.phase = .sending item) :
      Takes σ { σ with phase := .closed item }

end CoordinatorRun

/-- An observation enters a sequence that is not in the map and not below the cursor, and changes nothing for another. -/
theorem SequenceRace.observe_cases (race : SequenceRace) (sequence : ℕ) (readyAt : Instant) :
    (sequence ∉ race.recent ∧ race.nextResume ≤ sequence ∧
        race.observe sequence readyAt = (.first, race.enter sequence readyAt)) ∨
      ∃ observation, observation ≠ .first ∧ race.observe sequence readyAt = (observation, race) := by
  by_cases hmem : sequence ∈ race.recent
  · right
    obtain ⟨first, hfirst⟩ := Option.isSome_iff_exists.mp (Std.TreeMap.isSome_getElem?_iff_mem.mpr hmem)
    exact ⟨.duplicate (some first), by simp, by rw [SequenceRace.observe, hfirst]⟩
  · by_cases hlow : sequence < race.nextResume
    · right
      refine ⟨.stale, by simp, ?_⟩
      rw [SequenceRace.observe, Std.TreeMap.getElem?_eq_none hmem]
      exact if_pos hlow
    · exact .inl ⟨hmem, Nat.not_lt.mp hlow, observe_first hmem (Nat.not_lt.mp hlow) readyAt⟩

namespace CoordinatorRun

variable {σ τ : CoordinatorRun β} {event : CoordinatorEvent β}

theorem receive_again {item : FeedIngress β} {observation : Observation} (hother : observation ≠ .first)
    (hobs : σ.race.observe item.sequence item.readyForChannelAt = (observation, σ.race)) :
    σ.receive item = { σ with observed := σ.observed ++ [item.sequence] } := by
  rw [receive, hobs]
  cases observation with
  | first => exact absurd rfl hother
  | duplicate winner => rfl
  | stale => rfl

theorem receive_takes (item : FeedIngress β) (hphase : σ.phase = .receiving) : Takes σ (σ.receive item) := by
  rcases σ.race.observe_cases item.sequence item.readyForChannelAt with
    ⟨hnot, hlow, hobs⟩ | ⟨observation, hother, hobs⟩
  · rw [receive, hobs]
    exact .first item hphase hnot hlow
  · rw [receive_again hother hobs]
    exact .again item hphase

theorem takes_of_step (h : σ.step event = some τ) : Takes σ τ := by
  unfold step at h
  cases hphase : σ.phase with
  | receiving =>
    rw [hphase] at h
    cases event with
    | receive item =>
      cases h
      exact receive_takes item hphase
    | store => cases h
    | accepted => cases h
    | channelClosed => cases h
  | won item =>
    rw [hphase] at h
    cases event with
    | store =>
      cases h
      exact .store item hphase
    | receive x => cases h
    | accepted => cases h
    | channelClosed => cases h
  | sending item =>
    rw [hphase] at h
    cases event with
    | accepted =>
      cases h
      exact .accepted item hphase
    | channelClosed =>
      cases h
      exact .channelClosed item hphase
    | receive x => cases h
    | store => cases h
  | closed item =>
    rw [hphase] at h
    cases event <;> cases h

/-! ### What holds all along -/

/-- A sequence was handed to the engine channel, or is about to be. -/
def Handed (σ : CoordinatorRun β) (k : ℕ) : Prop := k ∈ σ.sentSequences ∨ k ∈ σ.pending.map FeedIngress.sequence

/-- A sequence has been sent, or its send has begun. -/
def Settled (σ : CoordinatorRun β) (k : ℕ) : Prop :=
  k ∈ σ.sentSequences ∨ ∃ item, (σ.phase = .sending item ∨ σ.phase = .closed item) ∧ item.sequence = k

/-- The race and the published cursor against what has been sent. -/
structure Inv (c : ℕ) (σ : CoordinatorRun β) : Prop where
  published : c ≤ σ.resumeSequence ∧ σ.resumeSequence ≤ σ.race.nextResume
  /-- The cursor of the race runs ahead of the published one from an observation to the store. -/
  stored : (∀ item, σ.phase ≠ .won item) → σ.resumeSequence = σ.race.nextResume
  settled : ∀ k, c ≤ k → k < σ.resumeSequence → σ.Settled k
  crossed : ∀ k, c ≤ k → k < σ.race.nextResume → σ.Handed k
  recent : ∀ k ∈ σ.race.recent, σ.Handed k
  size : σ.race.recent.size ≤ maxRecentSequences
  observed : ∀ k, σ.Handed k → k ∈ σ.observed

theorem Inv.start (c : ℕ) : Inv c (start c : CoordinatorRun β) where
  published := ⟨le_rfl, le_rfl⟩
  stored _ := rfl
  settled k hle hlt := absurd hlt (Nat.not_lt.mpr hle)
  crossed k hle hlt := absurd hlt (Nat.not_lt.mpr hle)
  recent k hk := by simp [CoordinatorRun.start, Coordinator.start, SequenceRace.new] at hk
  size := Nat.zero_le _
  observed k hk := by simp [Handed, CoordinatorRun.start, Coordinator.start, sentSequences, pending] at hk

variable {c : ℕ} {item : FeedIngress β}

/-- A first copy is entered: the cursor crosses only what has arrived, and eviction only forgets. -/
theorem Inv.first (h : Inv c σ) (hphase : σ.phase = .receiving) :
    Inv c { σ with race := σ.race.enter item.sequence item.readyForChannelAt, phase := .won item,
                   observed := σ.observed ++ [item.sequence] } := by
  have hidle (k : ℕ) (hk : σ.Handed k) : k ∈ σ.sentSequences := by
    simpa [Handed, pending, hphase] using hk
  have hinserted : ∀ k ∈ σ.race.recent.insert item.sequence item.readyForChannelAt,
      k ∈ σ.sentSequences ∨ k = item.sequence := by
    intro k hk
    rw [Std.TreeMap.mem_insert, Nat.compare_eq_eq] at hk
    exact hk.symm.imp (fun hold => hidle k (h.recent k hold)) Eq.symm
  obtain ⟨hle, hcrossed⟩ := SequenceRace.advance_spec (σ.race.recent.insert item.sequence item.readyForChannelAt)
    (σ.race.recent.insert item.sequence item.readyForChannelAt).size σ.race.nextResume
  refine ⟨⟨h.published.1, h.published.2.trans hle⟩, fun hnot => absurd rfl (hnot item), fun k hc hlt => ?_,
    fun k hc hlt => ?_, fun k hk => ?_, SequenceRace.size_evict_le _ le_rfl, fun k hk => ?_⟩
  · exact .inl (hidle k (h.crossed k hc (hlt.trans_le h.published.2)))
  · by_cases hold : k < σ.race.nextResume
    · exact .inl (hidle k (h.crossed k hc hold))
    · exact (hinserted k (hcrossed k (Nat.not_lt.mp hold) hlt)).imp id fun heq => List.mem_singleton.mpr heq
  · exact (hinserted k (SequenceRace.mem_of_mem_evict _ hk)).imp id fun heq => List.mem_singleton.mpr heq
  · rcases hk with hsent | hpending
    · exact List.mem_append_left _ (h.observed k (.inl hsent))
    · exact List.mem_append_right _ hpending

theorem Inv.again (h : Inv c σ) (sequence : ℕ) : Inv c { σ with observed := σ.observed ++ [sequence] } :=
  ⟨h.published, h.stored, h.settled, h.crossed, h.recent, h.size, fun k hk => List.mem_append_left _ (h.observed k hk)⟩

theorem Inv.store (h : Inv c σ) (hphase : σ.phase = .won item) :
    Inv c { σ with resumeSequence := σ.race.nextResume, phase := .sending item } := by
  have hhanded (k : ℕ) (hk : σ.Handed k) : k ∈ σ.sentSequences ∨ k = item.sequence := by
    simpa [Handed, pending, hphase] using hk
  have hsame (k : ℕ) (hk : σ.Handed k) :
      Handed { σ with resumeSequence := σ.race.nextResume, phase := .sending item } k :=
    (hhanded k hk).imp id List.mem_singleton.mpr
  refine ⟨⟨h.published.1.trans h.published.2, le_rfl⟩, fun _ => rfl, fun k hc hlt => ?_,
    fun k hc hlt => hsame k (h.crossed k hc hlt), fun k hk => hsame k (h.recent k hk), h.size, fun k hk => ?_⟩
  · exact (hhanded k (h.crossed k hc hlt)).imp id fun heq => ⟨item, .inl rfl, heq.symm⟩
  · refine h.observed k (hk.imp id fun hitem => ?_)
    simpa [pending, hphase] using hitem

theorem Inv.accepted (h : Inv c σ) (hphase : σ.phase = .sending item) :
    Inv c { σ with sent := σ.sent ++ [item.message], phase := .receiving } := by
  have hsent (k : ℕ) : k ∈ sentSequences { σ with sent := σ.sent ++ [item.message], phase := .receiving } ↔
      k ∈ σ.sentSequences ∨ k = item.sequence := by
    simp [sentSequences, FeedIngress.sequence]
  have hhanded (k : ℕ) : σ.Handed k ↔ k ∈ σ.sentSequences ∨ k = item.sequence := by
    simp [Handed, pending, hphase]
  have hstored := h.stored (by simp [hphase])
  refine ⟨h.published, fun _ => hstored, fun k hc hlt => .inl ((hsent k).mpr ?_),
    fun k hc hlt => .inl ((hsent k).mpr ((hhanded k).mp (h.crossed k hc hlt))),
    fun k hk => .inl ((hsent k).mpr ((hhanded k).mp (h.recent k hk))), h.size, fun k hk => ?_⟩
  · exact (hhanded k).mp (h.crossed k hc (hlt.trans_le h.published.2))
  · rcases hk with hk | hk
    · exact h.observed k ((hhanded k).mpr ((hsent k).mp hk))
    · cases hk

theorem Inv.channelClosed (h : Inv c σ) (hphase : σ.phase = .sending item) :
    Inv c { σ with phase := .closed item } := by
  have hhanded (k : ℕ) : Handed { σ with phase := .closed item } k ↔ σ.Handed k := by
    simp [Handed, sentSequences, pending, hphase]
  have hstored := h.stored (by simp [hphase])
  refine ⟨h.published, fun _ => hstored, fun k hc hlt => ?_, fun k hc hlt => (hhanded k).mpr (h.crossed k hc hlt),
    fun k hk => (hhanded k).mpr (h.recent k hk), h.size, fun k hk => h.observed k ((hhanded k).mp hk)⟩
  refine (h.settled k hc hlt).imp id fun ⟨x, hx, heq⟩ => ⟨x, .inr ?_, heq⟩
  rw [hphase] at hx
  rcases hx with hx | hx
  · exact congrArg _ (CoordinatorPhase.sending.inj hx)
  · cases hx

theorem Inv.step (h : Inv c σ) (htakes : Takes σ τ) : Inv c τ := by
  cases htakes with
  | first item hphase hnot hlow => exact h.first hphase
  | again item hphase => exact h.again item.sequence
  | store item hphase => exact h.store hphase
  | accepted item hphase => exact h.accepted hphase
  | channelClosed item hphase => exact h.channelClosed hphase

theorem Inv.reachable (h : Inv c σ) (hruns : Reachable σ τ) : Inv c τ :=
  hruns.invariant (fun _ _ _ hinv hstep => hinv.step (takes_of_step hstep)) h

theorem resumeSequence_le_of_takes (h : Inv c σ) (htakes : Takes σ τ) : σ.resumeSequence ≤ τ.resumeSequence := by
  cases htakes with
  | store item hphase => exact h.published.2
  | first item hphase hnot hlow => exact le_rfl
  | again item hphase => exact le_rfl
  | accepted item hphase => exact le_rfl
  | channelClosed item hphase => exact le_rfl

theorem resumeSequence_mono (h : Inv c σ) (hruns : Reachable σ τ) : σ.resumeSequence ≤ τ.resumeSequence :=
  Reaches.monotone (I := Inv c) (f := fun σ => σ.resumeSequence)
    (fun _ _ _ hinv hstep => hinv.step (takes_of_step hstep))
    (fun _ _ _ hinv hstep => resumeSequence_le_of_takes hinv (takes_of_step hstep)) h hruns

/-- What has not been observed is not below the cursor of the race, so it is a first copy. -/
theorem Inv.observe_first (h : Inv c σ) {n : ℕ} (hn : σ.resumeSequence ≤ n) (hnew : n ∉ σ.observed) (readyAt : Instant) :
    (σ.race.observe n readyAt).1 = .first := by
  have hhigh : σ.race.nextResume ≤ n := by
    by_contra hlow
    exact hnew (h.observed n (h.crossed n (h.published.1.trans hn) (Nat.not_le.mp hlow)))
  have hnot : n ∉ σ.race.recent := fun hmem => hnew (h.observed n (h.recent n hmem))
  rw [SequenceRace.observe_first hnot hhigh]

/-- **The published cursor never skips a message.**  It does not go back, every sequence up to it has been sent or is
being sent, and a new one at or above it is taken as a first copy. -/
theorem cursor_crosses_sent (c : ℕ) (σ : CoordinatorRun β) (hσ : Reachable (start c) σ) :
    (∀ τ, Reachable σ τ → σ.resumeSequence ≤ τ.resumeSequence) ∧
      (∀ k, c ≤ k → k < σ.resumeSequence → k ∈ σ.sentSequences ∨
        ∃ item, (σ.phase = .sending item ∨ σ.phase = .closed item) ∧ item.sequence = k) ∧
      σ.race.recent.size ≤ maxRecentSequences ∧
      ∀ n, σ.resumeSequence ≤ n → n ∉ σ.observed → ∀ readyAt, (σ.race.observe n readyAt).1 = .first :=
  have h : Inv c σ := (Inv.start c).reachable hσ
  ⟨fun _ hruns => resumeSequence_mono h hruns, h.settled, h.size, fun _ hn hnew => h.observe_first hn hnew⟩

/-- The sources read cursor `2` while the message of sequence `1` waits for room in the channel. -/
theorem cursor_crosses_sent_sample : ∃ σ : CoordinatorRun Unit, σ.resumeSequence = 2 ∧ σ.sentSequences = [0] ∧
      ∀ k, 0 ≤ k → k < 2 → k ∈ [0] ∨ ∃ item, (σ.phase = .sending item ∨ σ.phase = .closed item) ∧ item.sequence = k := by
  obtain ⟨σ, hσ, hview⟩ := Option.map_eq_some_iff.mp (show (steps step (start 0)
    ([.receive ⟨⟨0, 0, ()⟩, 0, 0⟩, .store, .accepted, .receive ⟨⟨1, 0, ()⟩, 1, 1⟩, .store] :
      List (CoordinatorEvent Unit))).map (fun σ => (σ.resumeSequence, σ.sentSequences)) = some (2, [0]) by rfl)
  obtain ⟨hresume, hsent⟩ := Prod.mk.inj hview
  have h := (cursor_crosses_sent 0 σ (.of_steps _ hσ)).2.1
  rw [hresume, hsent] at h
  exact ⟨σ, hresume, hsent, h⟩

/-- The engine channel is closed when the message of sequence `0` is sent: it is neither sent nor being sent. -/
theorem closed_channel_drops_message :
    ∃ σ : CoordinatorRun Unit, Reachable (start 0) σ ∧ σ.resumeSequence = 1 ∧ 0 ∉ σ.sentSequences ∧
      ∀ item, σ.phase ≠ .sending item := by
  obtain ⟨σ, hσ, hview⟩ := Option.map_eq_some_iff.mp (show (steps step (start 0)
    ([.receive ⟨⟨0, 0, ()⟩, 0, 0⟩, .store, .channelClosed] : List (CoordinatorEvent Unit))).map
      (fun σ => (σ.resumeSequence, σ.sentSequences, (σ.step .accepted).isSome)) = some (1, [], false) by rfl)
  obtain ⟨hresume, hrest⟩ := Prod.mk.inj hview
  obtain ⟨hsent, hphase⟩ := Prod.mk.inj hrest
  refine ⟨σ, .of_steps _ hσ, hresume, by rw [hsent]; exact List.not_mem_nil, fun item hsending => ?_⟩
  simp only [step, hsending] at hphase
  cases hphase

/-! ### The cursor keeps up -/

/-- The cursor of the race waits for a sequence that is missing, or has come to the last one. -/
def Waits (race : SequenceRace) : Prop := race.nextResume ∉ race.recent ∨ u64Size ≤ race.nextResume + 1

theorem waits_enter (race : SequenceRace) (sequence : ℕ) (readyAt : Instant) : Waits (race.enter sequence readyAt) := by
  have hrounds : ((race.recent.insert sequence readyAt).keys.toFinset.filter (race.nextResume ≤ ·)).card ≤
      (race.recent.insert sequence readyAt).size := by
    refine (Finset.card_filter_le _ _).trans ((List.toFinset_card_le _).trans ?_)
    exact Std.TreeMap.length_keys.le
  exact (SequenceRace.advance_stops _ hrounds).imp_left fun hnot hmem => hnot (SequenceRace.mem_of_mem_evict _ hmem)

/-- **The published cursor does not lag behind**: but for the moment before it is stored, the sequence that it names is
not among those that are remembered. -/
theorem cursor_keeps_up (c : ℕ) (σ : CoordinatorRun β) (hσ : Reachable (start c) σ)
    (hstored : ∀ item, σ.phase ≠ .won item) : σ.resumeSequence ∉ σ.race.recent ∨ u64Size ≤ σ.resumeSequence + 1 := by
  have hinv : Inv c σ ∧ Waits σ.race := by
    refine hσ.invariant (I := fun σ => Inv c σ ∧ Waits σ.race)
      (fun _ _ _ hinv hstep => ⟨hinv.1.step (takes_of_step hstep), ?_⟩) ⟨Inv.start c, Or.inl ?_⟩
    · cases takes_of_step hstep with
      | first item hphase hnot hlow => exact waits_enter _ _ _
      | again item hphase => exact hinv.2
      | store item hphase => exact hinv.2
      | accepted item hphase => exact hinv.2
      | channelClosed item hphase => exact hinv.2
    · simp [CoordinatorRun.start, Coordinator.start, SequenceRace.new]
  rw [hinv.1.stored hstored]
  exact hinv.2

/-- With sequence `1` ahead of sequence `0`, the cursor waits for `0`. -/
theorem cursor_keeps_up_sample :
    ∃ σ : CoordinatorRun Unit, σ.resumeSequence = 0 ∧ 1 ∈ σ.race.recent ∧ 0 ∉ σ.race.recent := by
  obtain ⟨σ, hσ, hview⟩ := Option.map_eq_some_iff.mp (show (steps step (start 0)
    ([.receive ⟨⟨1, 0, ()⟩, 0, 0⟩, .store, .accepted] : List (CoordinatorEvent Unit))).map
      (fun σ => (σ.resumeSequence, σ.race.recent.contains 1, (σ.step (.receive ⟨⟨1, 0, ()⟩, 0, 0⟩)).isSome)) =
        some (0, true, true) by rfl)
  obtain ⟨hresume, hrest⟩ := Prod.mk.inj hview
  obtain ⟨hmem, hphase⟩ := Prod.mk.inj hrest
  have h := cursor_keeps_up 0 σ (.of_steps _ hσ) fun item hwon => by simp [step, hwon] at hphase
  rw [hresume] at h
  exact ⟨σ, hresume, Std.TreeMap.contains_iff_mem.mp hmem, h.resolve_right (by decide)⟩

/-! ### Items taken as a whole -/

/-- The coordinator that takes each item as a whole passes through these states. -/
theorem coordinate_reachable (accepts : ℕ → Bool) (items : List (FeedIngress β)) (hphase : σ.phase = .receiving) :
    ∃ τ, Reachable σ τ ∧ τ.toCoordinator = coordinate accepts σ.toCoordinator items := by
  induction items generalizing σ with
  | nil => exact ⟨σ, .refl σ, rfl⟩
  | cons item items ih =>
    have hreceive : Reachable σ (σ.receive item) :=
      Reaches.single (show σ.step (.receive item) = some (σ.receive item) by simp only [step, hphase])
    rcases σ.race.observe_cases item.sequence item.readyForChannelAt with
      ⟨-, -, hobs⟩ | ⟨observation, hother, hobs⟩
    · have hsending : Reachable σ { σ with
          race := σ.race.enter item.sequence item.readyForChannelAt, phase := .sending item,
          resumeSequence := (σ.race.enter item.sequence item.readyForChannelAt).nextResume,
          observed := σ.observed ++ [item.sequence] } := by
        refine hreceive.snoc .store ?_
        rw [receive, hobs]
        rfl
      by_cases haccepts : accepts σ.sent.length = true
      · obtain ⟨τ, hτ, heq⟩ := ih (σ := { σ with
          race := σ.race.enter item.sequence item.readyForChannelAt, phase := .receiving,
          resumeSequence := (σ.race.enter item.sequence item.readyForChannelAt).nextResume,
          sent := σ.sent ++ [item.message], observed := σ.observed ++ [item.sequence] }) rfl
        refine ⟨τ, (hsending.snoc .accepted rfl).trans hτ, ?_⟩
        rw [heq, coordinate, hobs]
        exact (if_pos haccepts).symm
      · refine ⟨_, hsending.snoc .channelClosed rfl, ?_⟩
        rw [coordinate, hobs]
        exact (if_neg haccepts).symm
    · rw [receive_again hother hobs] at hreceive
      obtain ⟨τ, hτ, heq⟩ := ih (σ := { σ with observed := σ.observed ++ [item.sequence] }) hphase
      refine ⟨τ, hreceive.trans hτ, heq.trans ?_⟩
      rw [coordinate, hobs]
      cases observation with
      | first => exact absurd rfl hother
      | duplicate winner => rfl
      | stale => rfl

theorem coordinate_reachable_start : ∃ τ : CoordinatorRun Unit, Reachable (start 0) τ ∧
    τ.toCoordinator = coordinate (· < 1) (start 0).toCoordinator [⟨⟨1, 0, ()⟩, 0, 0⟩, ⟨⟨0, 0, ()⟩, 1, 1⟩] :=
  coordinate_reachable _ _ rfl

end CoordinatorRun

end ArbReth.Node
