import ArbReth.Node.HandOff
import ArbReth.Sync.Numbering

/-! # From L1 to the chain

What `run_l1_sync` sends is handed to the driver, among whatever comes from the feed.  When it returns that the frontier
is reached, the chain is there. -/

namespace ArbReth.Node

open ArbReth.Engine ArbReth.Engine.ArbEngineDriver ArbReth.Runs ArbReth.Sync

variable {γ β : Type}

theorem map_sequenceNumber_numberFrom (k : ℕ) (ms : List (BroadcastFeedMessage β)) :
    (numberFrom k ms).map (·.sequenceNumber) = List.range' k ms.length := by
  induction ms generalizing k with
  | nil => rfl
  | cons m ms ih => simp [ih, List.range'_succ]

section
variable {cfg : L1SyncConfig} {L : L1Env γ β} {disk : ResumeFile} {rounds : ℕ} {s : SyncState β}
  (htip : cfg.startL2Block ≤ cfg.dbTipL2) (hgen : cfg.genesisBlock ≤ cfg.dbTipL2)
  (hs : (runL1Sync cfg L disk rounds).state = s)
include htip hgen hs

/-- What a run has sent is numbered from the block after the durable tip, and reaches a frontier that it returns. -/
theorem sent_numbered :
    s.feed.sent.map (·.sequenceNumber) = List.range' (cfg.dbTipL2 + 1 - cfg.genesisBlock) s.feed.sent.length ∧
      ∀ f, s.completion = some (.frontierReached f) → f ≤ cfg.dbTipL2 + s.feed.sent.length := by
  rcases hs ▸ run_delivered htip hgen L disk rounds with ⟨k, hk⟩ | ⟨g, -, hle, rfl⟩
  · refine ⟨by rw [hk.sent, map_sequenceNumber_numberFrom, length_numberFrom], fun f hf => ?_⟩
    obtain ⟨-, hlt, heq⟩ := hk.reached f hf
    have hle := hk.le
    rw [hk.sent, length_numberFrom, List.length_drop, List.length_take]
    omega
  · refine ⟨rfl, fun f hf => ?_⟩
    obtain rfl : g = f := by simpa using hf
    exact Nat.le_add_right_of_le hle

/-- **The derived chain is built.**  However the messages of a run are interleaved with those of the feed: the driver has
applied the blocks after the durable tip without a gap, at least as many as were sent; so the tip is not below a frontier
that the run returns. -/
theorem derived_chain_is_built {E : EngineTree β} (hE : E.Sequential) {tip : SealedHeader}
    (hnumber : tip.number = cfg.dbTipL2) {handed : List (HandOver β)}
    (hL1 : (handed.filter (·.source = .l1)).map (·.message) = s.feed.sent) {m : ArbEngineDriver β}
    (hrun : run (handOver E .ordinary cfg.genesisBlock) (start tip (cfg.dbTipL2 + 1 - cfg.genesisBlock)) handed = .ok m) :
    m.applied.map (·.block.number) = List.range' (cfg.dbTipL2 + 1) m.applied.length ∧
      m.tip.number = cfg.dbTipL2 + m.applied.length ∧ s.feed.sent.length ≤ m.applied.length ∧
      ∀ f, s.completion = some (.frontierReached f) → f ≤ m.tip.number := by
  obtain ⟨hsent, hfrontier⟩ := sent_numbered htip hgen hs
  have hseq : l1Sequence handed = List.range' (cfg.dbTipL2 + 1 - cfg.genesisBlock) s.feed.sent.length := by
    rw [← hsent, ← hL1, l1Sequence, List.map_map]
    rfl
  have hcursor := l1_le_nextSeq le_rfl hseq (List.prefix_refl handed) hrun
  obtain ⟨-, -, happlied⟩ := run_from_start (run_handOver_ok hrun)
  have hnext : m.nextSeq = cfg.dbTipL2 + 1 - cfg.genesisBlock + m.applied.length := happlied.nextSeq
  have hlength : s.feed.sent.length ≤ m.applied.length := by
    rw [hseq, List.length_range'] at hcursor
    omega
  have htop : m.tip.number = cfg.dbTipL2 + m.applied.length := by rw [happlied.tip hE, start, hnumber]
  have hblock : ∀ a ∈ m.applied, a.block.number = cfg.genesisBlock + a.sequenceNumber := fun a ha => by
    have h : a.block.number + (cfg.dbTipL2 + 1 - cfg.genesisBlock) = tip.number + 1 + a.sequenceNumber :=
      happlied.blocks hE a ha
    omega
  have hnumbers : m.applied.map (·.sequenceNumber) =
      List.range' (cfg.dbTipL2 + 1 - cfg.genesisBlock) m.applied.length := happlied.numbers
  refine ⟨?_, htop, hlength, fun f hf => (hfrontier f hf).trans (by omega)⟩
  calc m.applied.map (·.block.number)
      = (m.applied.map (·.sequenceNumber)).map (cfg.genesisBlock + ·) := by
        rw [List.map_map]
        exact List.map_congr_left hblock
    _ = List.range' (cfg.dbTipL2 + 1) m.applied.length := by
        rw [hnumbers, List.map_add_range', ← Nat.add_sub_assoc (Nat.le_succ_of_le hgen), Nat.add_sub_cancel_left]

end

/-- The L2 blocks 2 and 3 are derived, and the feed has the second one first. -/
theorem derived_chain_is_built_frontier : ∃ m,
    run (handOver sequentialTree .ordinary 0) (start ⟨1, 0, 0⟩ 2)
      [⟨.feed, ⟨3, 9, ()⟩, false⟩, ⟨.l1, ⟨2, 2, ()⟩, true⟩, ⟨.l1, ⟨3, 3, ()⟩, false⟩] = .ok m ∧ 3 ≤ m.tip.number := by
  obtain ⟨m, hm⟩ : ∃ m, run (handOver sequentialTree .ordinary 0) (start ⟨1, 0, 0⟩ 2)
      [⟨.feed, ⟨3, 9, ()⟩, false⟩, ⟨.l1, ⟨2, 2, ()⟩, true⟩, ⟨.l1, ⟨3, 3, ()⟩, false⟩] = .ok m :=
    isOk_iff.mp (by decide +kernel)
  have hE : sequentialTree.Sequential := fun _ _ _ _ h => by rw [← Except.ok.inj h]
  have hs : (runL1Sync { L1SyncConfig.small with startBlock := 1, dbTipL2 := 1, l2Frontier := some 3 }
      ((L1History.postedAt [1, 2, 3, 4]).env (fun _ => 9) (fun _ => 1) (fun _ => .saved)) .absent 4).state = _ := rfl
  have h := derived_chain_is_built (by decide) (by decide) hs hE rfl (by decide) hm
  exact ⟨m, hm, h.2.2.2 3 (by decide)⟩

end ArbReth.Node
