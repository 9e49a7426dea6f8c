import ArbReth.Primitives
import Mathlib

/-! # The race of the feed sources

Several sources send the messages of the sequencer feed, and `coordinate` (`arb-reth-node/src/feed.rs`) forwards the first
copy of each sequence number.  `SequenceRace` remembers the sequences that have arrived, in a map with a bound: when it is
full its lowest entries go.  They are not missed if the cursor has passed them, since all below the cursor is stale.

The cursor stops at the first sequence that has not arrived.  With more than the bound above such a gap, entries go that
the cursor has not passed, and their next copies count as first ones (`copy_after_eviction`). -/

namespace ArbReth.Node

variable {β : Type}

/-- A point in time. -/
abbrev Instant := ℕ

/-- The bound of the map (`MAX_RECENT_SEQUENCES`). -/
def maxRecentSequences : ℕ := 16384

inductive Observation where
  | first
  | duplicate (winnerReadyAt : Option Instant)
  | stale
deriving DecidableEq, Repr

/-- The cursor for reconnects, and when the first copy of each recent sequence was ready. -/
structure SequenceRace where
  nextResume : ℕ
  recent : Std.TreeMap ℕ Instant

/-- `BTreeMap::pop_first`. -/
def popFirst (m : Std.TreeMap ℕ Instant) : Std.TreeMap ℕ Instant :=
  match m.minKey? with
  | none => m
  | some k => m.erase k

namespace SequenceRace

def new (nextResume : ℕ) : SequenceRace := ⟨nextResume, ∅⟩

/-- The cursor crosses sequences that have arrived; it needs at most one round for each entry. -/
def advance (recent : Std.TreeMap ℕ Instant) : ℕ → ℕ → ℕ
  | 0, next => next
  | rounds + 1, next =>
    if recent.contains next then
      if next + 1 < u64Size then advance recent rounds (next + 1) else next
    else next

/-- The lowest entries go until the bound is kept; one in each round. -/
def evict : ℕ → Std.TreeMap ℕ Instant → Std.TreeMap ℕ Instant
  | 0, m => m
  | rounds + 1, m => if maxRecentSequences < m.size then evict rounds (popFirst m) else m

/-- The race after the first copy of a sequence. -/
def enter (race : SequenceRace) (sequence : ℕ) (readyAt : Instant) : SequenceRace :=
  let recent := race.recent.insert sequence readyAt
  ⟨advance recent recent.size race.nextResume, evict recent.size recent⟩

def observe (race : SequenceRace) (sequence : ℕ) (readyAt : Instant) : Observation × SequenceRace :=
  match race.recent[sequence]? with
  | some first => (.duplicate (some first), race)
  | none => if sequence < race.nextResume then (.stale, race) else (.first, race.enter sequence readyAt)

end SequenceRace

structure FeedIngress (β : Type) where
  message : BroadcastFeedMessage β
  frameReceivedAt : Instant
  readyForChannelAt : Instant

def FeedIngress.sequence (item : FeedIngress β) : ℕ := item.message.sequenceNumber

/-- The coordinator: its race, the cursor that it publishes to the sources, and what it has sent to the engine. -/
structure Coordinator (β : Type) where
  race : SequenceRace
  resumeSequence : ℕ
  sent : List (BroadcastFeedMessage β)

def Coordinator.start (resumeSequence : ℕ) : Coordinator β := ⟨.new resumeSequence, resumeSequence, []⟩

/-- The coordinator over the arrivals; `accepts` says whether the engine channel takes the next message.  It stops when
the channel is closed. -/
def coordinate (accepts : ℕ → Bool) : Coordinator β → List (FeedIngress β) → Coordinator β
  | c, [] => c
  | c, item :: items =>
    match c.race.observe item.sequence item.readyForChannelAt with
    | (.first, race) =>
      if accepts c.sent.length then coordinate accepts ⟨race, race.nextResume, c.sent ++ [item.message]⟩ items
      else ⟨race, race.nextResume, c.sent⟩
    | (.duplicate _, race) => coordinate accepts { c with race } items
    | (.stale, race) => coordinate accepts { c with race } items

/-! ### The map and the cursor -/

section maps
variable {m : Std.TreeMap ℕ Instant} {k : ℕ}

theorem mem_popFirst : k ∈ popFirst m ↔ k ∈ m ∧ m.minKey? ≠ some k := by
  unfold popFirst
  cases hmin : m.minKey? with
  | none => simp
  | some j =>
    simp only [Std.TreeMap.mem_erase, ne_eq, Nat.compare_eq_eq, Option.some.injEq]
    tauto

theorem size_popFirst (h : 0 < m.size) : (popFirst m).size + 1 = m.size := by
  unfold popFirst
  cases hmin : m.minKey? with
  | none =>
    rw [Std.TreeMap.minKey?_eq_none_iff, Std.TreeMap.isEmpty_eq_size_eq_zero, beq_iff_eq] at hmin
    omega
  | some j =>
    have hmem : j ∈ m := (Std.TreeMap.minKey?_eq_some_iff_mem_and_forall.mp hmin).1
    simp only [Std.TreeMap.size_erase, Std.TreeMap.contains_iff_mem, hmem, if_true]
    omega

theorem minKey?_le (h : k ∈ m) {j : ℕ} (hj : m.minKey? = some j) : j ≤ k := by
  have hle := (Std.TreeMap.minKey?_eq_some_iff_mem_and_forall.mp hj).2 k h
  exact Nat.isLE_compare.mp hle

theorem exists_not_mem_of_card_lt {S : Finset ℕ} (h : S.card < m.size) : ∃ k ∈ m, k ∉ S := by
  by_contra hall
  have hsub : m.keys.toFinset ⊆ S := by
    intro k hk
    by_contra hnot
    exact hall ⟨k, Std.TreeMap.mem_keys.mp (List.mem_toFinset.mp hk), hnot⟩
  have hnodup : m.keys.Nodup := Std.TreeMap.nodup_keys
  have hcard := Finset.card_le_card hsub
  rw [List.toFinset_card_of_nodup hnodup, Std.TreeMap.length_keys] at hcard
  omega

end maps

namespace SequenceRace

variable {m : Std.TreeMap ℕ Instant} {k next : ℕ}

theorem advance_of_not_mem (rounds : ℕ) (h : next ∉ m) : advance m rounds next = next := by
  cases rounds with
  | zero => rfl
  | succ rounds => rw [advance, if_neg (by simpa [Std.TreeMap.contains_iff_mem] using h)]

theorem advance_spec (m : Std.TreeMap ℕ Instant) (rounds next : ℕ) :
    next ≤ advance m rounds next ∧ ∀ k, next ≤ k → k < advance m rounds next → k ∈ m := by
  induction rounds generalizing next with
  | zero => exact ⟨le_rfl, fun k hle hlt => absurd hlt (Nat.not_lt.mpr hle)⟩
  | succ rounds ih =>
    rw [advance]
    split
    · rename_i hmem
      split
      · obtain ⟨hle, hcrossed⟩ := ih (next + 1)
        refine ⟨by omega, fun k hk hlt => ?_⟩
        rcases Nat.eq_or_lt_of_le hk with rfl | hk
        · exact Std.TreeMap.contains_iff_mem.mp hmem
        · exact hcrossed k hk hlt
      · exact ⟨le_rfl, fun k hle hlt => absurd hlt (Nat.not_lt.mpr hle)⟩
    · exact ⟨le_rfl, fun k hle hlt => absurd hlt (Nat.not_lt.mpr hle)⟩

/-- A round for each entry is enough: the cursor ends at a sequence that is missing, or at the last one. -/
theorem advance_stops (rounds : ℕ) (h : (m.keys.toFinset.filter (next ≤ ·)).card ≤ rounds) :
    advance m rounds next ∉ m ∨ u64Size ≤ advance m rounds next + 1 := by
  induction rounds generalizing next with
  | zero =>
    left
    intro hmem
    have hkey : next ∈ m.keys.toFinset.filter (next ≤ ·) := by
      simp only [Finset.mem_filter, List.mem_toFinset, Std.TreeMap.mem_keys, le_refl, and_true]
      exact hmem
    rw [Finset.card_eq_zero.mp (Nat.le_zero.mp h)] at hkey
    cases hkey
  | succ rounds ih =>
    rw [advance]
    split
    · rename_i hmem
      split
      · refine ih ?_
        have hkey : next ∈ m.keys.toFinset.filter (next ≤ ·) := by
          simp only [Finset.mem_filter, List.mem_toFinset, Std.TreeMap.mem_keys, le_refl, and_true]
          exact Std.TreeMap.contains_iff_mem.mp hmem
        have hsub : m.keys.toFinset.filter (next + 1 ≤ ·) ⊂ m.keys.toFinset.filter (next ≤ ·) := by
          refine Finset.ssubset_iff_subset_ne.mpr ⟨?_, fun heq => ?_⟩
          · intro k hk
            simp only [Finset.mem_filter] at hk ⊢
            exact ⟨hk.1, by omega⟩
          · rw [← heq, Finset.mem_filter] at hkey
            omega
        have := Finset.card_lt_card hsub
        omega
      · omega
    · rename_i hnot
      left
      simpa [Std.TreeMap.contains_iff_mem] using hnot

theorem evict_of_size_le (rounds : ℕ) (h : m.size ≤ maxRecentSequences) : evict rounds m = m := by
  cases rounds with
  | zero => rfl
  | succ rounds => rw [evict, if_neg (by omega)]

theorem size_evict_le (rounds : ℕ) (h : m.size ≤ rounds) : (evict rounds m).size ≤ maxRecentSequences := by
  induction rounds generalizing m with
  | zero => exact h.trans (Nat.zero_le _)
  | succ rounds ih =>
    rw [evict]
    split
    · have := size_popFirst (m := m) (by omega)
      exact ih (by omega)
    · omega

theorem mem_of_mem_evict (rounds : ℕ) (h : k ∈ evict rounds m) : k ∈ m := by
  induction rounds generalizing m with
  | zero => exact h
  | succ rounds ih =>
    rw [evict] at h
    split at h
    · exact (mem_popFirst.mp (ih h)).1
    · exact h

/-- With at most the bound at or above the cursor, only entries below it go. -/
theorem mem_evict (rounds : ℕ) {S : Finset ℕ} (hcard : S.card ≤ maxRecentSequences)
    (hS : ∀ k ∈ m, next ≤ k → k ∈ S) (hk : k ∈ m) (hle : next ≤ k) : k ∈ evict rounds m := by
  induction rounds generalizing m with
  | zero => exact hk
  | succ rounds ih =>
    rw [evict]
    split
    · rename_i hsize
      refine ih (fun j hj hle => hS j (mem_popFirst.mp hj).1 hle) (mem_popFirst.mpr ⟨hk, fun hmin => ?_⟩)
      obtain ⟨j, hj, hnot⟩ := exists_not_mem_of_card_lt (hcard.trans_lt hsize)
      have hlow : j < next := by
        by_contra hge
        exact hnot (hS j hj (by omega))
      have := minKey?_le hj hmin
      omega
    · exact hk

/-! ### One arrival -/

/-- The race after some arrivals, from a cursor on. -/
def after (cursor : ℕ) (items : List (FeedIngress β)) : SequenceRace :=
  items.foldl (fun race item => (race.observe item.sequence item.readyForChannelAt).2) (.new cursor)

/-- What a race knows of the sequences that have arrived: those that the cursor has crossed, and those in the map. -/
structure Knows (cursor : ℕ) (seen : List ℕ) (race : SequenceRace) : Prop where
  crossed : cursor ≤ race.nextResume ∧ ∀ k, cursor ≤ k → k < race.nextResume → k ∈ seen
  recent : ∀ k ∈ race.recent, k ∈ seen
  known : ∀ k ∈ seen, cursor ≤ k → k < race.nextResume ∨ k ∈ race.recent

theorem Knows.new (cursor : ℕ) : Knows cursor [] (.new cursor) where
  crossed := ⟨le_rfl, fun k hle hlt => absurd hlt (Nat.not_lt.mpr hle)⟩
  recent k hk := by simp [SequenceRace.new] at hk
  known k hk := by cases hk

variable {cursor sequence : ℕ} {seen : List ℕ} {race : SequenceRace} {readyAt : Instant}

/-- A sequence that has arrived and is seen again leaves the race as it is. -/
theorem Knows.again (h : Knows cursor seen race) (hknown : sequence < race.nextResume ∨ sequence ∈ race.recent) :
    Knows cursor (seen ++ [sequence]) race where
  crossed := ⟨h.crossed.1, fun k hle hlt => List.mem_append_left _ (h.crossed.2 k hle hlt)⟩
  recent k hk := List.mem_append_left _ (h.recent k hk)
  known k hk hle := by
    rcases List.mem_append.mp hk with hk | hk
    · exact h.known k hk hle
    · rw [List.mem_singleton.mp hk]
      exact hknown

theorem Knows.enter (h : Knows cursor seen race)
    (hbound : ((seen ++ [sequence]).toFinset.filter ((race.enter sequence readyAt).nextResume ≤ ·)).card ≤
      maxRecentSequences) : Knows cursor (seen ++ [sequence]) (race.enter sequence readyAt) := by
  have hmem (k : ℕ) : k ∈ race.recent.insert sequence readyAt ↔ sequence = k ∨ k ∈ race.recent := by
    rw [Std.TreeMap.mem_insert, Nat.compare_eq_eq]
  have hseen : ∀ k ∈ race.recent.insert sequence readyAt, k ∈ seen ++ [sequence] := by
    intro k hk
    rcases (hmem k).mp hk with rfl | hk
    · simp
    · exact List.mem_append_left _ (h.recent k hk)
  obtain ⟨hle, hcrossed⟩ := advance_spec (race.recent.insert sequence readyAt)
    (race.recent.insert sequence readyAt).size race.nextResume
  refine ⟨⟨h.crossed.1.trans hle, fun k hk hlt => ?_⟩, fun k hk => hseen k (mem_of_mem_evict _ hk), fun k hk hck => ?_⟩
  · by_cases hold : k < race.nextResume
    · exact List.mem_append_left _ (h.crossed.2 k hk hold)
    · exact hseen k (hcrossed k (by omega) hlt)
  · by_cases hlow : k < (race.enter sequence readyAt).nextResume
    · exact .inl hlow
    · refine .inr (mem_evict _ hbound (fun j hj hjle => ?_) ?_ (Nat.not_lt.mp hlow))
      · exact Finset.mem_filter.mpr ⟨List.mem_toFinset.mpr (hseen j hj), hjle⟩
      · rw [hmem]
        rcases List.mem_append.mp hk with hk | hk
        · rcases h.known k hk hck with hold | hrecent
          · exact absurd (lt_of_lt_of_le hold hle) hlow
          · exact .inr hrecent
        · exact .inl (List.mem_singleton.mp hk).symm

/-- A sequence at or above the cursor that is not in the map is a first one. -/
theorem observe_first (hnot : sequence ∉ race.recent) (hle : race.nextResume ≤ sequence) (readyAt : Instant) :
    race.observe sequence readyAt = (.first, race.enter sequence readyAt) := by
  rw [SequenceRace.observe, Std.TreeMap.getElem?_eq_none hnot]
  exact if_neg (Nat.not_lt.mpr hle)

/-- What an observation says about the sequences that have arrived. -/
theorem Knows.observe (h : Knows cursor seen race)
    (hbound : ((seen ++ [sequence]).toFinset.filter ((race.observe sequence readyAt).2.nextResume ≤ ·)).card ≤
      maxRecentSequences) : Knows cursor (seen ++ [sequence]) (race.observe sequence readyAt).2 ∧
      ((race.observe sequence readyAt).1 = .first → sequence ∉ seen) := by
  unfold SequenceRace.observe at hbound ⊢
  cases hget : race.recent[sequence]? with
  | some first =>
    have hmem : sequence ∈ race.recent := by
      rw [← Std.TreeMap.isSome_getElem?_iff_mem, hget]
      rfl
    exact ⟨h.again (.inr hmem), fun hfirst => by cases hfirst⟩
  | none =>
    have hnot : sequence ∉ race.recent := by
      rw [← Std.TreeMap.isSome_getElem?_iff_mem, hget]
      simp
    simp only [hget] at hbound ⊢
    split
    · rename_i hlow
      exact ⟨h.again (.inl hlow), fun hfirst => by cases hfirst⟩
    · rename_i hhigh
      rw [if_neg hhigh] at hbound
      refine ⟨h.enter hbound, fun _ hseen => ?_⟩
      rcases h.known sequence hseen (h.crossed.1.trans (Nat.not_lt.mp hhigh)) with hlow | hrecent
      · exact hhigh hlow
      · exact hnot hrecent

end SequenceRace

/-! ### The coordinator -/

/-- The first copy of a sequence among the arrivals. -/
def FirstCopy (arrivals : List (FeedIngress β)) (message : BroadcastFeedMessage β) : Prop :=
  ∃ before item later, arrivals = before ++ item :: later ∧ item.message = message ∧
    ∀ x ∈ before, x.sequence ≠ message.sequenceNumber

variable {arrivals : List (FeedIngress β)} {message : BroadcastFeedMessage β}

theorem FirstCopy.append (h : FirstCopy arrivals message) (more : List (FeedIngress β)) : FirstCopy (arrivals ++ more) message := by
  obtain ⟨before, item, later, rfl, hitem, hbefore⟩ := h
  exact ⟨before, item, later ++ more, by simp, hitem, hbefore⟩

theorem FirstCopy.sequence_mem (h : FirstCopy arrivals message) : message.sequenceNumber ∈ arrivals.map FeedIngress.sequence := by
  obtain ⟨before, item, later, rfl, rfl, -⟩ := h
  exact List.mem_map.mpr ⟨item, by simp, rfl⟩

/-- At most the bound of distinct sequences at or above the cursor have arrived, at any time. -/
def WithinBound (cursor : ℕ) (arrivals : List (FeedIngress β)) : Prop :=
  ∀ arrived, arrived <+: arrivals →
    ((arrived.map FeedIngress.sequence).toFinset.filter ((SequenceRace.after cursor arrived).nextResume ≤ ·)).card ≤
      maxRecentSequences

/-- Each sequence was sent at most once, as its first copy. -/
structure SentOnce (arrivals : List (FeedIngress β)) (sent : List (BroadcastFeedMessage β)) : Prop where
  once : (sent.map BroadcastFeedMessage.sequenceNumber).Nodup
  first : ∀ message ∈ sent, FirstCopy arrivals message

variable {sent : List (BroadcastFeedMessage β)}

theorem SentOnce.append (h : SentOnce arrivals sent) (more : List (FeedIngress β)) : SentOnce (arrivals ++ more) sent :=
  ⟨h.once, fun message hmessage => (h.first message hmessage).append more⟩

theorem SentOnce.send (h : SentOnce arrivals sent) {item : FeedIngress β} (hnew : item.sequence ∉ arrivals.map FeedIngress.sequence) :
    SentOnce (arrivals ++ [item]) (sent ++ [item.message]) where
  once := by
    rw [List.map_append, List.nodup_append]
    refine ⟨h.once, List.nodup_singleton _, fun a ha b hb heq => ?_⟩
    obtain ⟨message, hmessage, rfl⟩ := List.mem_map.mp ha
    obtain rfl := List.mem_singleton.mp hb
    have hmem := (h.first message hmessage).sequence_mem
    rw [heq] at hmem
    exact hnew hmem
  first message hmessage := by
    rcases List.mem_append.mp hmessage with hmessage | hmessage
    · exact (h.first message hmessage).append [item]
    · rw [List.mem_singleton.mp hmessage]
      refine ⟨arrivals, item, [], rfl, rfl, fun x hx heq => ?_⟩
      exact hnew (List.mem_map.mpr ⟨x, hx, heq⟩)

/-- The coordinator goes on from what has arrived to what is still to come. -/
theorem coordinate_sentOnce (accepts : ℕ → Bool) {cursor : ℕ} (items arrived : List (FeedIngress β))
    (hbound : WithinBound cursor (arrived ++ items)) (c : Coordinator β)
    (hrace : c.race = SequenceRace.after cursor arrived)
    (hknows : c.race.Knows cursor (arrived.map FeedIngress.sequence)) (hsent : SentOnce arrived c.sent) :
    SentOnce (arrived ++ items) (coordinate accepts c items).sent := by
  induction items generalizing arrived c with
  | nil =>
    rw [List.append_nil]
    exact hsent
  | cons item items ih =>
    have hsplit : arrived ++ item :: items = arrived ++ [item] ++ items := by simp
    have hafter : SequenceRace.after cursor (arrived ++ [item]) =
        (c.race.observe item.sequence item.readyForChannelAt).2 := by
      rw [SequenceRace.after, List.foldl_append, hrace]
      rfl
    have hcard := hbound (arrived ++ [item]) ⟨items, hsplit.symm⟩
    rw [hafter, List.map_append] at hcard
    obtain ⟨hnext, hfirst⟩ := hknows.observe hcard
    rw [hsplit] at hbound ⊢
    have hknows' : (c.race.observe item.sequence item.readyForChannelAt).2.Knows cursor
        ((arrived ++ [item]).map FeedIngress.sequence) := by
      rw [List.map_append]
      exact hnext
    rw [coordinate]
    cases hobs : c.race.observe item.sequence item.readyForChannelAt with
    | mk observation race =>
      rw [hobs] at hafter hknows' hfirst
      cases observation with
      | first =>
        have hsent' := hsent.send (hfirst rfl)
        simp only
        split
        · exact ih _ hbound ⟨race, race.nextResume, c.sent ++ [item.message]⟩ hafter.symm hknows' hsent'
        · exact (hsent.append [item]).append items
      | duplicate winner => exact ih _ hbound { c with race } hafter.symm hknows' (hsent.append [item])
      | stale => exact ih _ hbound { c with race } hafter.symm hknows' (hsent.append [item])

/-- **The first copy of each sequence is forwarded, and no other**, while no more than the bound wait above the cursor.
-/
theorem forwards_first_copies (accepts : ℕ → Bool) (cursor : ℕ) (arrivals : List (FeedIngress β))
    (hbound : WithinBound cursor arrivals) : SentOnce arrivals (coordinate accepts (.start cursor) arrivals).sent :=
  coordinate_sentOnce accepts arrivals [] hbound (.start cursor) rfl (.new cursor) ⟨.nil, fun _ h => by cases h⟩

def sampleArrivals : List (FeedIngress Unit) :=
  [⟨⟨11, 0, ()⟩, 1, 1⟩, ⟨⟨11, 0, ()⟩, 2, 2⟩, ⟨⟨10, 0, ()⟩, 3, 3⟩, ⟨⟨9, 0, ()⟩, 4, 4⟩]

theorem forwards_first_copies_sample :
    SentOnce sampleArrivals (coordinate (fun _ => true) (.start 10) sampleArrivals).sent := by
  refine forwards_first_copies _ 10 sampleArrivals fun arrived harrived => ?_
  calc ((arrived.map FeedIngress.sequence).toFinset.filter _).card
      ≤ (arrived.map FeedIngress.sequence).toFinset.card := Finset.card_filter_le _ _
    _ ≤ (arrived.map FeedIngress.sequence).length := List.toFinset_card_le _
    _ ≤ maxRecentSequences := by
        rw [List.length_map]
        exact harrived.length_le.trans (by decide)

/-! ### More than the bound above a gap -/

section gap
variable {item : ℕ → FeedIngress β} {c n : ℕ} {race : SequenceRace}

/-- The race with its cursor at `c`, where the `n` sequences above are the recent ones. -/
structure AboveGap (c n : ℕ) (race : SequenceRace) : Prop where
  cursor : race.nextResume = c
  mem : ∀ k, k ∈ race.recent ↔ c < k ∧ k ≤ c + n
  size : race.recent.size = n

theorem AboveGap.start (c : ℕ) : AboveGap c 0 (.new c) :=
  ⟨rfl, fun k => by simp [SequenceRace.new], rfl⟩

theorem AboveGap.inserted (h : AboveGap c n race) (readyAt : Instant) :
    (∀ k, k ∈ race.recent.insert (c + n + 1) readyAt ↔ c < k ∧ k ≤ c + (n + 1)) ∧
      (race.recent.insert (c + n + 1) readyAt).size = n + 1 := by
  constructor
  · intro k
    rw [Std.TreeMap.mem_insert, Nat.compare_eq_eq, h.mem]
    omega
  · have hnot : c + n + 1 ∉ race.recent := by
      rw [h.mem]
      omega
    rw [Std.TreeMap.size_insert, if_neg (by simpa [Std.TreeMap.contains_iff_mem] using hnot), h.size]

theorem AboveGap.observe (h : AboveGap c n race) (readyAt : Instant) :
    race.observe (c + n + 1) readyAt = (.first, race.enter (c + n + 1) readyAt) := by
  refine SequenceRace.observe_first ?_ (by rw [h.cursor]; omega) readyAt
  rw [h.mem]
  omega

theorem AboveGap.enter (h : AboveGap c n race) (hn : n < maxRecentSequences) (readyAt : Instant) :
    AboveGap c (n + 1) (race.enter (c + n + 1) readyAt) := by
  obtain ⟨hmem, hsize⟩ := h.inserted readyAt
  have hgap : c ∉ race.recent.insert (c + n + 1) readyAt := by
    rw [hmem]
    omega
  refine ⟨?_, ?_, ?_⟩
  · rw [SequenceRace.enter, h.cursor]
    exact SequenceRace.advance_of_not_mem _ hgap
  · rw [SequenceRace.enter, SequenceRace.evict_of_size_le _ (by omega)]
    exact hmem
  · rw [SequenceRace.enter, SequenceRace.evict_of_size_le _ (by omega)]
    exact hsize

theorem AboveGap.overflow (h : AboveGap c maxRecentSequences race) (readyAt : Instant) :
    (race.enter (c + maxRecentSequences + 1) readyAt).nextResume = c ∧
      c + 1 ∉ (race.enter (c + maxRecentSequences + 1) readyAt).recent := by
  obtain ⟨hmem, hsize⟩ := h.inserted readyAt
  have hgap : c ∉ race.recent.insert (c + maxRecentSequences + 1) readyAt := by
    rw [hmem]
    omega
  have hmin : (race.recent.insert (c + maxRecentSequences + 1) readyAt).minKey? = some (c + 1) := by
    rw [Std.TreeMap.minKey?_eq_some_iff_mem_and_forall, hmem]
    refine ⟨by omega, fun k hk => Nat.isLE_compare.mpr ?_⟩
    have := (hmem k).mp hk
    omega
  constructor
  · rw [SequenceRace.enter, h.cursor]
    exact SequenceRace.advance_of_not_mem _ hgap
  · rw [SequenceRace.enter]
    simp only [hsize, SequenceRace.evict]
    intro hin
    exact (mem_popFirst.mp (SequenceRace.mem_of_mem_evict _ hin)).2 hmin

theorem coordinate_first {accepts : ℕ → Bool} {coordinator : Coordinator β} {x : FeedIngress β} {race' : SequenceRace}
    (haccepts : ∀ i, accepts i = true)
    (h : coordinator.race.observe x.sequence x.readyForChannelAt = (.first, race')) (items : List (FeedIngress β)) :
    coordinate accepts coordinator (x :: items) =
      coordinate accepts ⟨race', race'.nextResume, coordinator.sent ++ [x.message]⟩ items := by
  rw [coordinate, h]
  simp only [haccepts, if_true]

/-- While the map is not full, what arrives above the gap is forwarded and remembered. -/
theorem coordinate_aboveGap (hitem : ∀ k, (item k).sequence = k) {accepts : ℕ → Bool} (haccepts : ∀ i, accepts i = true)
    (more : List (FeedIngress β)) (j : ℕ) (hn : n + j ≤ maxRecentSequences) (coordinator : Coordinator β)
    (h : AboveGap c n coordinator.race) : ∃ race resume, AboveGap c (n + j) race ∧
      coordinate accepts coordinator ((List.range' (c + n + 1) j).map item ++ more) = coordinate accepts
          ⟨race, resume, coordinator.sent ++ ((List.range' (c + n + 1) j).map item).map FeedIngress.message⟩ more := by
  induction j generalizing n coordinator with
  | zero =>
    refine ⟨coordinator.race, coordinator.resumeSequence, h, ?_⟩
    simp
  | succ j ih =>
    have hobs := h.observe (item (c + n + 1)).readyForChannelAt
    have hnext := h.enter (by omega) (item (c + n + 1)).readyForChannelAt
    generalize coordinator.race.enter (c + n + 1) (item (c + n + 1)).readyForChannelAt = race' at hobs hnext
    obtain ⟨race, resume, hrace, hrun⟩ := ih (by omega)
      ⟨race', race'.nextResume, coordinator.sent ++ [(item (c + n + 1)).message]⟩ hnext
    refine ⟨race, resume, ?_, ?_⟩
    · rw [show n + (j + 1) = n + 1 + j by omega]
      exact hrace
    · rw [List.range'_succ, List.map_cons, List.cons_append,
        coordinate_first haccepts (by rw [hitem]; exact hobs), show c + n + 1 + 1 = c + (n + 1) + 1 by omega, hrun]
      simp

/-- With one more sequence above a gap than the map can hold, the lowest of them is forwarded again. -/
theorem copy_after_eviction (item : ℕ → FeedIngress β) (hitem : ∀ k, (item k).sequence = k) (accepts : ℕ → Bool)
    (haccepts : ∀ i, accepts i = true) (c : ℕ) : (coordinate accepts (.start c)
        ((List.range' (c + 1) (maxRecentSequences + 1)).map item ++ [item (c + 1)])).sent =
      ((List.range' (c + 1) (maxRecentSequences + 1)).map item ++ [item (c + 1)]).map FeedIngress.message := by
  obtain ⟨race, resume, hrace, hrun⟩ := coordinate_aboveGap hitem haccepts
    [item (c + maxRecentSequences + 1), item (c + 1)] maxRecentSequences (n := 0) (by omega) (.start c) (.start c)
  obtain ⟨hcursor, hgone⟩ := hrace.overflow (item (c + maxRecentSequences + 1)).readyForChannelAt
  have hagain := SequenceRace.observe_first hgone (by rw [hcursor]; omega) (item (c + 1)).readyForChannelAt
  rw [List.range'_concat, List.map_append, List.append_assoc, Nat.one_mul, show c + 1 + maxRecentSequences =
    c + maxRecentSequences + 1 by omega]
  change (coordinate accepts (.start c) ((List.range' (c + 1) maxRecentSequences).map item ++
    [item (c + maxRecentSequences + 1), item (c + 1)])).sent = _
  rw [hrun, coordinate_first haccepts (by rw [hitem]; exact hrace.observe _),
    coordinate_first haccepts (by rw [hitem]; exact hagain), coordinate]
  simp [Coordinator.start]

end gap

/-- Sequences 1 to 16,385 arrive before sequence 0, and then sequence 1 again. -/
theorem sequence_forwarded_twice :
    ¬SentOnce ((List.range' 1 16385).map (fun k => ⟨⟨k, 0, ()⟩, 0, 0⟩) ++ [(⟨⟨1, 0, ()⟩, 0, 0⟩ : FeedIngress Unit)])
      (coordinate (fun _ => true) (.start 0)
        ((List.range' 1 16385).map (fun k => ⟨⟨k, 0, ()⟩, 0, 0⟩) ++ [⟨⟨1, 0, ()⟩, 0, 0⟩])).sent := by
  intro h
  have honce := h.once
  have hsent := copy_after_eviction (fun k => (⟨⟨k, 0, ()⟩, 0, 0⟩ : FeedIngress Unit)) (fun _ => rfl) (fun _ => true)
    (fun _ => rfl) 0
  change (coordinate (fun _ => true) (.start 0) ((List.range' 1 16385).map _ ++ [_])).sent = _ at hsent
  rw [hsent, List.map_append, List.map_append, List.nodup_append] at honce
  refine honce.2.2 1 ?_ 1 ?_ rfl
  · rw [List.map_map, List.map_map, List.mem_map]
    exact ⟨1, List.mem_range'_1.mpr (by decide), rfl⟩
  · exact List.mem_singleton.mpr rfl

end ArbReth.Node
