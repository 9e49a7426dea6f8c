import ArbReth.Sync.History

/-! # What is sent on the feed channel

The derived messages of a run are those of the L2 blocks from `startL2Block + 1` on, window after
window.  A run sends the ones above the durable tip and up to the frontier (`due`), in order and
numbered by message index, and stops at the frontier (`Delivered`).  A closed channel cuts this short;
nothing else does. -/

namespace ArbReth.Sync

open ArbReth.L1 ArbReth.Loop ArbReth.Runs

variable {γ β : Type} {cfg : L1SyncConfig} {E : L1Env γ β} {s s' : SyncState β} {disk : ResumeFile}

/-- The derived messages that have to be sent: those of the blocks above the durable tip, up to the
frontier. -/
def due (cfg : L1SyncConfig) (derived : List (BroadcastFeedMessage β)) : List (BroadcastFeedMessage β) :=
  (match cfg.l2Frontier with
    | none => derived
    | some frontier => derived.take (frontier - cfg.startL2Block)).drop (cfg.dbTipL2 - cfg.startL2Block)

/-! ### One window -/

/-- The blocks from `a` up to before `b` do not contain the frontier. -/
def Passes (cfg : L1SyncConfig) (a b : ℕ) : Prop :=
  ∀ f, cfg.l2Frontier = some f → cfg.dbTipL2 < f → a ≤ f → b ≤ f

/-- How the delivery of a window ends, if the `k` messages from block `bn` on are dealt with. -/
def Ends (cfg : L1SyncConfig) (feedOpen : ℕ → Bool) (bn k len : ℕ) (f : Feed β) :
    Except Unit WindowDelivery → Prop
  | .error _ => k < len ∧ Passes cfg bn (bn + k) ∧ feedOpen f.sent.length = false
  | .ok d =>
    match d.frontierReached with
    | none => k = len ∧ f.nextL2 = bn + k ∧ Passes cfg bn (bn + k)
    | some completion => ∃ b, completion = .frontierReached b ∧ cfg.l2Frontier = some b ∧
        cfg.dbTipL2 < b ∧ b + 1 = bn + k ∧ f.nextL2 = bn + k

variable {r : Except Unit WindowDelivery}

theorem Ends.cons {feedOpen : ℕ → Bool} {bn k len : ℕ} {f : Feed β} (hbn : cfg.dbTipL2 < bn → cfg.l2Frontier ≠ some bn) (h : Ends cfg feedOpen (bn + 1) k len f r) :
    Ends cfg feedOpen bn (k + 1) (len + 1) f r := by
  have hpass : Passes cfg (bn + 1) (bn + 1 + k) → Passes cfg bn (bn + (k + 1)) := by
    intro hp b hb htip hle
    have hne : b ≠ bn := by
      rintro rfl
      exact hbn htip hb
    have := hp b hb htip (by omega)
    omega
  unfold Ends at h ⊢
  cases r with
  | error u => exact ⟨by have := h.1; omega, hpass h.2.1, h.2.2⟩
  | ok d =>
    simp only at h ⊢
    cases hd : d.frontierReached with
    | none =>
      rw [hd] at h
      obtain ⟨h1, h2, h3⟩ := h
      exact ⟨by omega, by omega, hpass h3⟩
    | some completion =>
      rw [hd] at h
      obtain ⟨b, h1, h2, h3, h4, h5⟩ := h
      exact ⟨b, h1, h2, h3, by omega, by omega⟩

/-- The delivery of a window sends the messages of the first `k` blocks, without those that are already
durable, under consecutive message indices. -/
theorem enqueueDerivedWindow_spec (hgen : cfg.genesisBlock ≤ cfg.dbTipL2) (feedOpen : ℕ → Bool)
    (ms : List (BroadcastFeedMessage β)) {d : WindowDelivery} (hd : d.frontierReached = none) {bn : ℕ}
    {sent : List (BroadcastFeedMessage β)} {f : Feed β}
    (h : enqueueDerivedWindow cfg feedOpen ms d ⟨bn, sent⟩ = (r, f)) : ∃ k ≤ ms.length,
      f.sent = sent ++ numberFrom (max bn (cfg.dbTipL2 + 1) - cfg.genesisBlock)
        ((ms.take k).drop (cfg.dbTipL2 + 1 - bn)) ∧ Ends cfg feedOpen bn k ms.length f r := by
  induction ms generalizing d bn sent with
  | nil =>
    cases h
    refine ⟨0, le_rfl, by simp, ?_⟩
    simp only [Ends, hd]
    exact ⟨rfl, rfl, fun b _ _ hle => hle⟩
  | cons msg ms ih =>
    unfold enqueueDerivedWindow at h
    split at h
    · -- a durable block is counted and skipped
      obtain ⟨k, hk, hsent, hends⟩ := ih (d := { d with skipped := d.skipped + 1 }) hd h
      refine ⟨k + 1, by simpa using hk, ?_, hends.cons (fun hlt => absurd hlt (by omega))⟩
      have hdrop : cfg.dbTipL2 + 1 - bn = (cfg.dbTipL2 + 1 - (bn + 1)) + 1 := by omega
      have hmax : max (bn + 1) (cfg.dbTipL2 + 1) = max bn (cfg.dbTipL2 + 1) := by omega
      rw [hsent, hmax, List.take_succ_cons, hdrop, List.drop_succ_cons]
    · have hdrop : cfg.dbTipL2 + 1 - bn = 0 := by omega
      have hmax : max bn (cfg.dbTipL2 + 1) = bn := by omega
      split at h
      · split at h
        · -- the frontier
          rename_i hfront
          cases h
          refine ⟨1, by simp, ?_, bn, rfl, hfront, by omega, rfl, rfl⟩
          rw [hdrop, hmax]
          simp
        · rename_i hfront
          obtain ⟨k, hk, hsent, hends⟩ := ih hd h
          refine ⟨k + 1, by simpa using hk, ?_, hends.cons (fun _ => hfront)⟩
          have hdrop' : cfg.dbTipL2 + 1 - (bn + 1) = 0 := by omega
          have hmax' : max (bn + 1) (cfg.dbTipL2 + 1) - cfg.genesisBlock =
              bn - cfg.genesisBlock + 1 := by omega
          rw [hsent, hdrop, hmax, hdrop', hmax', List.take_succ_cons, List.drop_zero,
            List.drop_zero, numberFrom_cons, List.append_assoc]
          rfl
      · -- the channel is closed
        rename_i hclosed
        cases h
        refine ⟨0, Nat.zero_le _, by simp, by simp, fun b _ _ hle => hle, ?_⟩
        simpa using hclosed

/-! ### The whole run -/

/-- The messages of the first `k` derived blocks have been dealt with: those above the durable tip are
sent. -/
structure Delivered (cfg : L1SyncConfig) (E : L1Env γ β) (s : SyncState β) (k : ℕ) : Prop where
  le : k ≤ s.derived.flatten.length
  sent : s.feed.sent = numberFrom (cfg.dbTipL2 + 1 - cfg.genesisBlock)
    ((s.derived.flatten.take k).drop (cfg.dbTipL2 - cfg.startL2Block))
  /-- Until the frontier is reached, all of them are below it. -/
  below : (∀ b, s.completion ≠ some (.frontierReached b)) →
    ∀ f, cfg.l2Frontier = some f → cfg.dbTipL2 < f ∧ cfg.startL2Block + k < f
  running : s.completion = none → k = s.derived.flatten.length
  next : k = s.derived.flatten.length → s.feed.nextL2 = cfg.startL2Block + 1 + k
  exhausted : s.completion = some .exhausted →
    k = s.derived.flatten.length ∨ E.feedOpen s.feed.sent.length = false
  reached : ∀ f, s.completion = some (.frontierReached f) →
    cfg.l2Frontier = some f ∧ cfg.dbTipL2 < f ∧ f = cfg.startL2Block + k

theorem length_flatten_concat (derived : List (List (BroadcastFeedMessage β))) (ms : List (BroadcastFeedMessage β)) :
    (derived ++ [ms]).flatten.length = derived.flatten.length + ms.length := by simp

variable {k : ℕ}

theorem Delivered.congr (h : Delivered cfg E s k) (hf : s'.feed = s.feed)
    (hd : s'.derived = s.derived) (hc : s'.completion = s.completion) : Delivered cfg E s' k := by
  refine ⟨?_, ?_, ?_, ?_, ?_, ?_, ?_⟩
  · rw [hd]; exact h.le
  · rw [hf, hd]; exact h.sent
  · rw [hc]; exact h.below
  · rw [hc, hd]; exact h.running
  · rw [hf, hd]; exact h.next
  · rw [hc, hf, hd]; exact h.exhausted
  · rw [hc]; exact h.reached

section

variable (htip : cfg.startL2Block ≤ cfg.dbTipL2) (hgen : cfg.genesisBlock ≤ cfg.dbTipL2)

include htip hgen

/-- A window is delivered on top of what has been delivered before. -/
theorem Delivered.consumed {k : ℕ} (hs : Delivered cfg E s k) {w : Window} {rest : List Window}
    {range : DerivedRange β} {r : Except Unit WindowDelivery} {feed : Feed β}
    (h : Consumed cfg E s w rest range r feed) : ∃ j, j ≤ range.messages.length ∧
      feed.sent = numberFrom (cfg.dbTipL2 + 1 - cfg.genesisBlock)
        (((s.derived ++ [range.messages]).flatten.take (k + j)).drop (cfg.dbTipL2 - cfg.startL2Block)) ∧
      Ends cfg E.feedOpen (cfg.startL2Block + 1 + k) j range.messages.length feed r := by
  have hk := hs.running h.running
  have hnext := hs.next hk
  have hdel := h.delivered
  rw [show s.feed = ⟨cfg.startL2Block + 1 + k, s.feed.sent⟩ by rw [← hnext]] at hdel
  obtain ⟨j, hj, hsent, hends⟩ := enqueueDerivedWindow_spec hgen E.feedOpen range.messages rfl hdel
  refine ⟨j, hj, ?_, hends⟩
  have hall : s.derived.flatten.take k = s.derived.flatten := List.take_of_length_le (by omega)
  have htake : (s.derived ++ [range.messages]).flatten.take (k + j) =
      s.derived.flatten ++ range.messages.take j := by
    rw [List.flatten_append, List.flatten_singleton, List.take_append, List.take_of_length_le (by omega)]
    congr 2
    omega
  rw [hsent, hs.sent, hall, htake, List.drop_append, numberFrom_append, List.length_drop]
  congr 2
  · omega
  · congr 1
    omega

/-- Every step of the loop keeps what has been delivered in order. -/
theorem step_delivered (hs : ∃ k, Delivered cfg E s k) (h : SyncStep cfg E s s') : ∃ k, Delivered cfg E s' k := by
  obtain ⟨k, hk⟩ := hs
  cases h with
  | plan planner hp => exact ⟨k, hk.congr rfl rfl rfl⟩
  | tick => exact ⟨k, hk.congr rfl rfl rfl⟩
  | queue hrun hck => exact ⟨k, hk.congr rfl rfl rfl⟩
  | flush outcome persisted =>
    obtain ⟨_, _, _, _, hflush⟩ := maybeWriteCheckpoint_frame s outcome persisted
    rw [hflush]
    exact ⟨k, hk.congr rfl rfl rfl⟩
  | exhaust hrun hend =>
    exact ⟨k, hk.le, hk.sent, fun _ => hk.below (by simp [hrun]), nofun, hk.next,
      fun _ => Or.inl (hk.running hrun), nofun⟩
  | @close w rest range u feed hcons =>
    obtain ⟨j, hj, hsent, hlt, hpass, hclosed⟩ := hk.consumed htip hgen hcons
    have hlen := hk.running hcons.running
    have hflat := length_flatten_concat s.derived range.messages
    refine ⟨k + j, (by omega : k + j ≤ (s.derived ++ [range.messages]).flatten.length), hsent,
      fun _ f hf => ?_, nofun, fun hall => ?_, fun _ => Or.inr hclosed, nofun⟩
    · have hb := hk.below (by simp [hcons.running]) f hf
      have := hpass f hf hb.1 (by omega)
      exact ⟨hb.1, by omega⟩
    · have hall' : k + j = (s.derived ++ [range.messages]).flatten.length := hall
      omega
  | @reach w rest range d feed completion hcons hd =>
    obtain ⟨j, hj, hsent, hends⟩ := hk.consumed htip hgen hcons
    have hlen := hk.running hcons.running
    have hflat := length_flatten_concat s.derived range.messages
    simp only [Ends, hd] at hends
    obtain ⟨b, rfl, hb, hlt, heq, hnext⟩ := hends
    refine ⟨k + j, (by omega : k + j ≤ (s.derived ++ [range.messages]).flatten.length), hsent,
      fun hne => absurd rfl (hne b), nofun, fun _ => ?_, nofun, fun f hf => ?_⟩
    · show feed.nextL2 = _
      omega
    · obtain rfl : b = f := by simpa using hf
      exact ⟨hb, hlt, by omega⟩
  | @advance w rest range d feed hcons hd =>
    obtain ⟨j, hj, hsent, hends⟩ := hk.consumed htip hgen hcons
    have hlen := hk.running hcons.running
    have hflat := length_flatten_concat s.derived range.messages
    simp only [Ends, hd] at hends
    obtain ⟨hall, hnext, hpass⟩ := hends
    have hrun : ((s.pop rest range feed).advance w range).completion = none := hcons.running
    refine ⟨k + j, (by omega : k + j ≤ (s.derived ++ [range.messages]).flatten.length), hsent,
      fun _ f hf => ?_, fun _ => (by omega : k + j = (s.derived ++ [range.messages]).flatten.length),
      fun _ => ?_, by simp [hrun], by simp [hrun]⟩
    · have hb := hk.below (by simp [hcons.running]) f hf
      have := hpass f hf hb.1 (by omega)
      exact ⟨hb.1, by omega⟩
    · show feed.nextL2 = _
      omega

/-- A run has delivered in order, or it returned before deriving anything. -/
theorem run_delivered (E : L1Env γ β) (disk : ResumeFile) (rounds : ℕ) :
    (∃ k, Delivered cfg E (runL1Sync cfg E disk rounds).state k) ∨
      ∃ f, cfg.l2Frontier = some f ∧ f ≤ cfg.dbTipL2 ∧ (runL1Sync cfg E disk rounds).state =
        { SyncState.init cfg disk with completion := some (.frontierReached f) } := by
  have hinit : ∀ planner, cfg.l2Frontier.filter (· ≤ cfg.dbTipL2) = none →
      Delivered cfg E { SyncState.init cfg disk with planner } 0 := by
    intro planner hnone
    refine ⟨le_rfl, by simp [SyncState.init], fun _ f hf => ?_, fun _ => rfl, fun _ => rfl, nofun, nofun⟩
    rw [Option.filter_eq_none_iff] at hnone
    have hlt : ¬ f ≤ cfg.dbTipL2 := by simpa using hnone f hf
    exact ⟨by omega, by omega⟩
  exact runL1Sync_state (fun s => ∃ k, Delivered cfg E s k)
    (fun s => (∃ k, Delivered cfg E s k) ∨ ∃ f, cfg.l2Frontier = some f ∧ f ≤ cfg.dbTipL2 ∧
      s = { SyncState.init cfg disk with completion := some (.frontierReached f) })
    (fun _ h => Or.inl h) (fun hnone => Or.inl ⟨0, hinit _ hnone⟩)
    (fun f hf hle => Or.inr ⟨f, hf, hle, rfl⟩) (fun hnone planner _ => ⟨0, hinit planner hnone⟩)
    (fun s s' hs h => step_delivered htip hgen hs h) rounds

end

/-! ### What has been sent -/

theorem Delivered.sent_isPrefix (h : Delivered cfg E s k) :
    s.feed.sent <+: numberFrom (cfg.dbTipL2 + 1 - cfg.genesisBlock) (due cfg s.derived.flatten) := by
  rw [h.sent]
  refine numberFrom_isPrefix (List.IsPrefix.drop ?_ _) _
  cases hf : cfg.l2Frontier with
  | none => exact List.take_prefix _ _
  | some f =>
    refine List.take_prefix_take_left ?_
    by_cases hr : ∃ b, s.completion = some (.frontierReached b)
    · obtain ⟨b, hb⟩ := hr
      obtain ⟨hf', -, hk⟩ := h.reached b hb
      obtain rfl : f = b := Option.some.inj (hf.symm.trans hf')
      omega
    · have := (h.below (not_exists.mp hr) f hf).2
      omega

/-- It is all of what is due, unless the channel has refused a message. -/
theorem Delivered.sent_eq (h : Delivered cfg E s k)
    (hopen : s.completion = some .exhausted → E.feedOpen s.feed.sent.length = true) :
    s.feed.sent = numberFrom (cfg.dbTipL2 + 1 - cfg.genesisBlock) (due cfg s.derived.flatten) := by
  rw [h.sent]
  congr 1
  congr 1
  by_cases hr : ∃ b, s.completion = some (.frontierReached b)
  · obtain ⟨b, hb⟩ := hr
    obtain ⟨hf, -, hk⟩ := h.reached b hb
    rw [hf]
    congr 1
    omega
  · have hall : k = s.derived.flatten.length := by
      cases hc : s.completion with
      | none => exact h.running hc
      | some c =>
        cases c with
        | exhausted =>
          rcases h.exhausted hc with hk | hk
          · exact hk
          · rw [hopen hc] at hk
            cases hk
        | frontierReached b => exact absurd ⟨b, hc⟩ hr
    cases hf : cfg.l2Frontier with
    | none => exact List.take_of_length_le (by omega)
    | some f =>
      have := (h.below (not_exists.mp hr) f hf).2
      show _ = s.derived.flatten.take (f - cfg.startL2Block)
      rw [List.take_of_length_le (by omega), List.take_of_length_le (by omega)]

section

variable (htip : cfg.startL2Block ≤ cfg.dbTipL2) (hgen : cfg.genesisBlock ≤ cfg.dbTipL2)

include htip hgen

theorem Delivered.mem_sent {k : ℕ} (h : Delivered cfg E s k) {m : BroadcastFeedMessage β} (hm : m ∈ s.feed.sent) :
    cfg.dbTipL2 < m.sequenceNumber + cfg.genesisBlock ∧ m.sequenceNumber + cfg.genesisBlock ≤ cfg.startL2Block + k := by
  rw [h.sent] at hm
  obtain ⟨h1, h2⟩ := mem_numberFrom hm
  rw [List.length_drop, List.length_take] at h2
  omega

/-- The frontier has been sent exactly if it has been reached. -/
theorem Delivered.frontier_sent_iff {k f : ℕ} (h : Delivered cfg E s k) (hf : cfg.l2Frontier = some f) :
    (∃ m ∈ s.feed.sent, m.sequenceNumber + cfg.genesisBlock = f) ↔ s.completion = some (.frontierReached f) := by
  constructor
  · rintro ⟨m, hm, hmf⟩
    have hle := (h.mem_sent htip hgen hm).2
    by_contra hne
    have hb : ∀ b, s.completion ≠ some (.frontierReached b) := by
      intro b hb
      obtain rfl : f = b := Option.some.inj (hf.symm.trans (h.reached b hb).1)
      exact hne hb
    have := (h.below hb f hf).2
    omega
  · intro hc
    obtain ⟨-, hlt, hk⟩ := h.reached f hc
    have hle := h.le
    -- the last message that was sent
    have hlen : (numberFrom (cfg.dbTipL2 + 1 - cfg.genesisBlock)
        ((s.derived.flatten.take k).drop (cfg.dbTipL2 - cfg.startL2Block))).length = f - cfg.dbTipL2 := by
      rw [length_numberFrom, List.length_drop, List.length_take]
      omega
    obtain ⟨m, hm, hnum⟩ := exists_mem_numberFrom (cfg.dbTipL2 + 1 - cfg.genesisBlock)
      ((s.derived.flatten.take k).drop (cfg.dbTipL2 - cfg.startL2Block)) (f - cfg.dbTipL2 - 1)
      (by rw [length_numberFrom] at hlen; omega)
    exact ⟨m, by rw [h.sent]; exact hm, by omega⟩

end

/-! ### Returning -/

theorem syncRound_error_completion (cfg : L1SyncConfig) (E : L1Env γ β) (hrun : s.completion = none) :
    Ensures (fun _ => True) (fun t : SyncState β => t.completion = none) (syncRound cfg E s) := by
  unfold syncRound
  split
  · unfold finish
    cases cfg.l2Frontier with
    | none => exact trivial
    | some f => exact hrun
  · refine Ensures.bind (Q := fun t => t.completion = none) ?_ (fun t ht =>
      Ensures.bind (Q := fun _ => True) ?_ (fun _ _ => trivial))
    · cases hp : s.plan cfg E with
      | error e => exact (plan_steps (Or.inr ⟨e.1, hp⟩)).2.trans hrun
      | ok t => exact (plan_steps (Or.inl hp)).2.trans hrun
    · exact consume_ensures ht trivial ht (fun _ _ _ _ _ _ => trivial) (fun _ _ _ _ _ _ _ _ => trivial)
        (fun _ _ _ _ _ _ _ => trivial) (fun _ _ _ _ _ _ _ _ => ⟨ht, fun _ _ => trivial⟩)

theorem run_returns {rounds : ℕ} {c : L1SyncCompletion} (h : (runL1Sync cfg E disk rounds).state.completion = some c) :
    ∃ rounds' t, runL1Sync cfg E disk rounds' = .done t ∧ t.completion = some c := by
  unfold runL1Sync at h ⊢
  cases hf : cfg.l2Frontier.filter (· ≤ cfg.dbTipL2) with
  | some f =>
    rw [hf] at h
    exact ⟨0, _, rfl, h⟩
  | none =>
    rw [hf] at h
    cases hs : Planner.start cfg E.toProvider with
    | error e =>
      rw [hs] at h
      cases h
    | ok planner =>
      rw [hs] at h
      simp only at h ⊢
      cases hi : iterate (syncBody cfg E) rounds { SyncState.init cfg disk with planner } with
      | done t =>
        rw [hi] at h
        exact ⟨rounds, t, hi, h⟩
      | running t =>
        -- the next round sees the result and leaves the loop
        rw [hi] at h
        have hc : t.completion = some c := h
        refine ⟨rounds + 1, t, ?_, hc⟩
        rw [iterate_add hi]
        exact iterate_none (by unfold syncBody; rw [hc])
      | failed e =>
        rw [hi] at h
        have hc : e.2.completion = some c := h
        obtain ⟨n, t, -, -, hbody⟩ := iterate_failed_error hi
        unfold syncBody at hbody
        cases hrun : t.completion with
        | some c' =>
          rw [hrun] at hbody
          cases hbody
        | none =>
          rw [hrun] at hbody
          have hens := syncRound_error_completion cfg E hrun
          cases hr : syncRound cfg E t with
          | ok t' =>
            simp only [hr] at hbody
            cases hbody
          | error e' =>
            simp only [hr] at hbody
            rw [hr] at hens
            obtain rfl : e' = e := Except.error.inj hbody
            have hnone : e'.2.completion = none := hens
            rw [hnone] at hc
            cases hc

/-! ### The delivery of a run -/

/-- What a run has sent, in the state it is in. -/
structure NumberedFeed (cfg : L1SyncConfig) (E : L1Env γ β) (s : SyncState β) : Prop where
  /-- Nothing is sent but what is due, in order and under the message indices of the blocks from
  `dbTipL2 + 1` on. -/
  sent : s.feed.sent <+: numberFrom (cfg.dbTipL2 + 1 - cfg.genesisBlock) (due cfg s.derived.flatten)
  /-- All of it is sent while the run goes on, and in the end if the channel stays open. -/
  complete : s.completion = none ∨ (∀ n, E.feedOpen n = true) →
    s.feed.sent = numberFrom (cfg.dbTipL2 + 1 - cfg.genesisBlock) (due cfg s.derived.flatten)
  frontier : ∀ m ∈ s.feed.sent, ∀ f, cfg.l2Frontier = some f → m.sequenceNumber + cfg.genesisBlock ≤ f
  /-- Once the derived windows are delivered, the last one up to its end, the next block is the one
  after the derived messages. -/
  next : (s.completion = none ∨
      s.completion = some (.frontierReached (cfg.startL2Block + s.derived.flatten.length))) →
    s.feed.nextL2 - 1 = cfg.startL2Block + s.derived.flatten.length

theorem Delivered.numberedFeed (h : Delivered cfg E s k) (htip : cfg.startL2Block ≤ cfg.dbTipL2)
    (hgen : cfg.genesisBlock ≤ cfg.dbTipL2) : NumberedFeed cfg E s := by
  refine ⟨h.sent_isPrefix, fun hopen => h.sent_eq (fun hex => ?_), fun m hm f hf => ?_, fun hc => ?_⟩
  · rcases hopen with hnone | hopen
    · rw [hnone] at hex
      cases hex
    · exact hopen _
  · have hle := (h.mem_sent htip hgen hm).2
    by_cases hr : ∃ b, s.completion = some (.frontierReached b)
    · obtain ⟨b, hb⟩ := hr
      obtain ⟨hf', -, hk⟩ := h.reached b hb
      obtain rfl : f = b := Option.some.inj (hf.symm.trans hf')
      omega
    · have := (h.below (not_exists.mp hr) f hf).2
      omega
  · have hall : k = s.derived.flatten.length := by
      rcases hc with hc | hc
      · exact h.running hc
      · have := (h.reached _ hc).2.2
        omega
    have := h.next hall
    omega

/-- **Delivery**: a run sends exactly the messages of the blocks above the durable tip up to the frontier, numbered by
message index. -/
theorem l1_delivery_numbered (E : L1Env γ β) (cfg : L1SyncConfig) (disk : ResumeFile)
    (htip : cfg.startL2Block ≤ cfg.dbTipL2) (hgen : cfg.genesisBlock ≤ cfg.dbTipL2) :
    (∀ rounds, NumberedFeed cfg E (runL1Sync cfg E disk rounds).state) ∧
      ∀ f, (∃ rounds t, runL1Sync cfg E disk rounds = .done t ∧ t.completion = some (.frontierReached f)) ↔
        cfg.l2Frontier = some f ∧ (f ≤ cfg.dbTipL2 ∨ ∃ rounds, ∃ m ∈ (runL1Sync cfg E disk rounds).state.feed.sent,
            m.sequenceNumber + cfg.genesisBlock = f) := by
  refine ⟨fun rounds => ?_, fun f => ⟨?_, ?_⟩⟩
  · rcases run_delivered htip hgen E disk rounds with ⟨k, hk⟩ | ⟨f, hf, hle, hs⟩
    · exact hk.numberedFeed htip hgen
    · rw [hs]
      have hdue : due cfg ([] : List (BroadcastFeedMessage β)) = [] := by
        unfold due
        cases cfg.l2Frontier <;> simp
      exact ⟨List.nil_prefix, fun _ => by simp [SyncState.init, hdue], (fun _ h => nomatch h),
        fun _ => rfl⟩
  · rintro ⟨rounds, t, ht, hc⟩
    have hdel := run_delivered htip hgen E disk rounds
    rw [ht] at hdel
    rcases hdel with ⟨k, hk⟩ | ⟨g, hg, hle, hs⟩
    · have hf := (hk.reached f hc).1
      refine ⟨hf, Or.inr ⟨rounds, ?_⟩⟩
      rw [ht]
      exact (hk.frontier_sent_iff htip hgen hf).mpr hc
    · have hfg : g = f := by
        have hgc : t.completion = some (.frontierReached g) := congrArg (·.completion) hs
        simpa using hgc.symm.trans hc
      subst hfg
      exact ⟨hg, Or.inl hle⟩
  · rintro ⟨hf, hle | ⟨rounds, hm⟩⟩
    · have hsome : cfg.l2Frontier.filter (· ≤ cfg.dbTipL2) = some f := by
        rw [Option.filter_eq_some_iff]
        exact ⟨hf, by simpa using hle⟩
      refine ⟨0, { SyncState.init cfg disk with completion := some (.frontierReached f) }, ?_, rfl⟩
      unfold runL1Sync
      simp only [hsome]
    · rcases run_delivered htip hgen E disk rounds with ⟨k, hk⟩ | ⟨g, hg, hle, hs⟩
      · exact run_returns ((hk.frontier_sent_iff htip hgen hf).mp hm)
      · rw [hs] at hm
        obtain ⟨m, hm, -⟩ := hm
        cases hm

theorem l1_delivery_numbered_frontier :
    NumberedFeed { L1SyncConfig.small with startBlock := 1, dbTipL2 := 1, l2Frontier := some 3 }
        ((L1History.postedAt [1, 2, 3, 4]).env (fun _ => 9) (fun _ => 1) (fun _ => .saved))
        (runL1Sync { L1SyncConfig.small with startBlock := 1, dbTipL2 := 1, l2Frontier := some 3 }
          ((L1History.postedAt [1, 2, 3, 4]).env (fun _ => 9) (fun _ => 1) (fun _ => .saved))
          .absent 4).state ∧
      (runL1Sync { L1SyncConfig.small with startBlock := 1, dbTipL2 := 1, l2Frontier := some 3 }
          ((L1History.postedAt [1, 2, 3, 4]).env (fun _ => 9) (fun _ => 1) (fun _ => .saved))
          .absent 4).state.feed.sent = [⟨2, 2, ()⟩, ⟨3, 3, ()⟩] :=
  ⟨(l1_delivery_numbered _ _ .absent (by decide) (by decide)).1 4, by decide⟩

end ArbReth.Sync
