import ArbReth.Primitives
import ArbReth.Lib.Bisect
import ArbReth.Lib.Runs

/-! # The resume point of an exported snapshot

A converted datadir has no derivation cursor.  The exporter (`go-exporter/reth-export.go`) computes one from the batch
metadata of Nitro: the last batch whose blocks are all at or below the convert point, and from there back over the
batches that share a parent-chain block with the next one, since derivation resumes at a whole parent-chain block.

The walk back stops at batch 0 in any case.  If batch 0 shares its block with batches above the
convert point, then they are skipped when the node resumes.  And a batch that is walked back over may
have no message of its own: its blocks are covered, but the delayed messages it reads are not counted. -/

namespace ArbReth.Snapshot

open ArbReth.Runs

/-- What a restart of derivation needs (`resumeCheckpoint`, `ResumePoint`). -/
structure ResumePoint where
  l1Block : ℕ
  delayedCount : ℕ
  l2Block : ℕ
deriving DecidableEq, Repr

structure BatchMetadata where
  messageCount : ℕ
  delayedMessageCount : ℕ
  parentChainBlock : ℕ
deriving DecidableEq, Repr

/-- The batches in `arbitrumdata`; an entry that is missing or does not decode is `none`. -/
structure ArbitrumData where
  batchCount : ℕ
  batch : ℕ → Option BatchMetadata

inductive ResumeError where
  | convertPointRequired
  | noBatches
  | readBatchMeta (seq : ℕ)
  | batchZeroAbove (lastBlock convertPoint : ℕ)
deriving DecidableEq, Repr

def ArbitrumData.read (d : ArbitrumData) (seq : ℕ) : Except ResumeError BatchMetadata :=
  match d.batch seq with
  | some batch => .ok batch
  | none => .error (.readBatchMeta seq)

/-- The last L2 block of a batch, in the arithmetic of `uint64`. -/
def BatchMetadata.lastBlock (batch : BatchMetadata) (genesisBlock : ℕ) : ℕ :=
  (genesisBlock + batch.messageCount + (u64Size - 1)) % u64Size

namespace ArbitrumData

variable (d : ArbitrumData)

def lastBlock (genesisBlock seq : ℕ) : Except ResumeError ℕ := do
  let batch ← d.read seq
  return batch.lastBlock genesisBlock

/-- Step back until the batch is the last one in its parent-chain block. -/
def stepBack : ℕ → Except ResumeError ℕ
  | 0 => .ok 0
  | chosen + 1 =>
    if chosen + 2 < d.batchCount then do
      let next ← d.read (chosen + 2)
      let batch ← d.read (chosen + 1)
      if next.parentChainBlock = batch.parentChainBlock then stepBack chosen else .ok (chosen + 1)
    else .ok (chosen + 1)

def computeResumePoint (convertPoint genesisBlock : ℕ) : Except ResumeError ResumePoint := do
  if convertPoint = 0 then .error .convertPointRequired
  else if d.batchCount = 0 then .error .noBatches
  else
    let first ← d.lastBlock genesisBlock 0
    if convertPoint < first then .error (.batchZeroAbove first convertPoint)
    else
      let lo ← Bisect.searchLast
        (fun mid => do
          let last ← d.lastBlock genesisBlock mid
          return decide (last ≤ convertPoint))
        (d.batchCount - 1) 0 (d.batchCount - 1)
      let chosen ← d.stepBack lo
      let batch ← d.read chosen
      return ⟨(batch.parentChainBlock + 1) % u64Size, batch.delayedMessageCount, batch.lastBlock genesisBlock⟩

end ArbitrumData

/-- The checkpoint at the end of a batch. -/
def BatchMetadata.checkpoint (batch : BatchMetadata) (genesisBlock : ℕ) : ResumePoint :=
  ⟨batch.parentChainBlock + 1, batch.delayedMessageCount, batch.lastBlock genesisBlock⟩

/-- A table of batches as the inbox has posted them, for which the numbers of blocks fit. -/
structure Posted (d : ArbitrumData) (g : ℕ) (table : ℕ → BatchMetadata) : Prop where
  read : ∀ j < d.batchCount, d.batch j = some (table j)
  first : 1 ≤ (table 0).messageCount
  messages : ∀ j < d.batchCount, ∀ i ≤ j, (table i).messageCount ≤ (table j).messageCount
  delayed : ∀ j < d.batchCount, ∀ i ≤ j,
    (table i).delayedMessageCount ≤ (table j).delayedMessageCount
  blocks : ∀ j < d.batchCount, ∀ i ≤ j, (table i).parentChainBlock ≤ (table j).parentChainBlock
  messagesFit : ∀ j < d.batchCount, g + (table j).messageCount ≤ u64Size
  blocksFit : ∀ j < d.batchCount, (table j).parentChainBlock + 1 < u64Size

section Boundary

variable (d : ArbitrumData) (g : ℕ) (table : ℕ → BatchMetadata) (P : ℕ)

/-- A checkpoint from which no batch is missed: what is posted before `l1_block` is covered by
`l2_block`, and the delayed messages are those of the covered batches. -/
structure Boundary (cp : ResumePoint) : Prop where
  before : ∀ j < d.batchCount, (table j).parentChainBlock < cp.l1Block →
    (table j).lastBlock g ≤ cp.l2Block
  after : ∀ j < d.batchCount, cp.l2Block < (table j).lastBlock g →
    cp.l1Block ≤ (table j).parentChainBlock
  delayed : ∃ m < d.batchCount, (∀ j < d.batchCount, (table j).lastBlock g ≤ cp.l2Block ↔ j ≤ m) ∧
    cp.delayedCount = (table m).delayedMessageCount
  bounded : cp.l2Block ≤ P

/-- Batch 0 shares its parent-chain block with no batch above the convert point. -/
def ZeroApart : Prop :=
  ∀ j < d.batchCount, P < (table j).lastBlock g →
    (table 0).parentChainBlock ≠ (table j).parentChainBlock

/-- Batch `i` is the last one before a parent-chain block in which a batch `k` above the convert
point is posted; a batch `j` of that block with no message after those of `i` reads no delayed
message either. -/
def EmptyReadNothing : Prop :=
  ∀ i j k, i < j → j < d.batchCount → k < d.batchCount →
    (table i).parentChainBlock < (table (i + 1)).parentChainBlock →
    (table (i + 1)).parentChainBlock = (table j).parentChainBlock →
    (table j).parentChainBlock = (table k).parentChainBlock →
    (table j).lastBlock g ≤ P → P < (table k).lastBlock g →
    (table i).messageCount = (table j).messageCount →
    (table i).delayedMessageCount = (table j).delayedMessageCount

end Boundary

namespace Posted

variable {d : ArbitrumData} {g : ℕ} {table : ℕ → BatchMetadata} {P : ℕ}

theorem read_eq (h : Posted d g table) {seq : ℕ} (hseq : seq < d.batchCount) : d.read seq = .ok (table seq) := by
  unfold ArbitrumData.read
  rw [h.read seq hseq]

theorem messageCount_pos (h : Posted d g table) {seq : ℕ} (hseq : seq < d.batchCount) : 1 ≤ (table seq).messageCount :=
  h.first.trans (h.messages seq hseq 0 (Nat.zero_le _))

theorem lastBlock_eq (h : Posted d g table) {seq : ℕ} (hseq : seq < d.batchCount) :
    (table seq).lastBlock g = g + (table seq).messageCount - 1 := by
  have hpos := h.messageCount_pos hseq
  have hfit := h.messagesFit seq hseq
  have hsize : 0 < u64Size := by decide
  have hsplit : g + (table seq).messageCount + (u64Size - 1) = (g + (table seq).messageCount - 1) + u64Size := by omega
  unfold BatchMetadata.lastBlock
  rw [hsplit, Nat.add_mod_right, Nat.mod_eq_of_lt (by omega)]

theorem lastBlock_mono (h : Posted d g table) {i j : ℕ} (hij : i ≤ j) (hj : j < d.batchCount) :
    (table i).lastBlock g ≤ (table j).lastBlock g := by
  have hle := h.messages j hj i hij
  have hi := h.lastBlock_eq (lt_of_le_of_lt hij hj)
  have hj' := h.lastBlock_eq hj
  omega

/-- The walk back ends at batch 0 or at the last batch of its parent-chain block, and passes only batches that share
their block with the next one. -/
theorem stepBack_ok (h : Posted d g table) {lo : ℕ} (hlo : lo < d.batchCount) :
    ∃ chosen, d.stepBack lo = .ok chosen ∧ chosen ≤ lo ∧
      (∀ j, chosen < j → j ≤ lo → j + 1 < d.batchCount ∧ (table (j + 1)).parentChainBlock = (table j).parentChainBlock) ∧
      (chosen = 0 ∨ chosen + 1 = d.batchCount ∨
        (table chosen).parentChainBlock < (table (chosen + 1)).parentChainBlock) := by
  induction lo with
  | zero => exact ⟨0, rfl, le_rfl, fun j hj hle => by omega, Or.inl rfl⟩
  | succ lo ih =>
    unfold ArbitrumData.stepBack
    by_cases hnext : lo + 2 < d.batchCount
    · rw [if_pos hnext, h.read_eq hnext, h.read_eq hlo, ok_bind, ok_bind]
      by_cases hsame : (table (lo + 2)).parentChainBlock = (table (lo + 1)).parentChainBlock
      · rw [if_pos hsame]
        obtain ⟨chosen, hchosen, hle, hpassed, hstop⟩ := ih (by omega)
        refine ⟨chosen, hchosen, by omega, fun j hj hjle => ?_, hstop⟩
        rcases Nat.lt_or_eq_of_le hjle with hlt | rfl
        · exact hpassed j hj (by omega)
        · exact ⟨hnext, hsame⟩
      · rw [if_neg hsame]
        refine ⟨lo + 1, rfl, le_rfl, fun j hj hle => by omega, Or.inr (Or.inr ?_)⟩
        have hmono := h.blocks (lo + 2) hnext (lo + 1) (by omega)
        have hne : (table (lo + 1)).parentChainBlock ≠ (table (lo + 2)).parentChainBlock := fun hc => hsame hc.symm
        exact lt_of_le_of_ne hmono hne
    · rw [if_neg hnext]
      exact ⟨lo + 1, rfl, le_rfl, fun j hj hle => by omega, Or.inr (Or.inl (by omega))⟩

/-- What is chosen: the walk back from the last batch that is covered by the convert point. -/
theorem computeResumePoint_ok (h : Posted d g table) (hP : P ≠ 0) (hcount : 0 < d.batchCount)
    (hfirst : (table 0).lastBlock g ≤ P) :
    ∃ lo chosen, lo < d.batchCount ∧ (∀ j, j < d.batchCount → ((table j).lastBlock g ≤ P ↔ j ≤ lo)) ∧
      d.stepBack lo = .ok chosen ∧ chosen ≤ lo ∧
      d.computeResumePoint P g = .ok ((table chosen).checkpoint g) := by
  have hlast (seq : ℕ) (hseq : seq < d.batchCount) : d.lastBlock g seq = .ok ((table seq).lastBlock g) := by
    unfold ArbitrumData.lastBlock
    rw [h.read_eq hseq]
    rfl
  obtain ⟨lo, hlo, -, ⟨hle, hcovered⟩, hgreatest⟩ := Bisect.searchLast_isGreatest
    (fun mid => do
      let last ← d.lastBlock g mid
      return decide (last ≤ P))
    (fun k => (table k).lastBlock g ≤ P) (d.batchCount - 1)
    (fun a b hab hb hPb => (h.lastBlock_mono hab (by omega)).trans hPb)
    (fun k hk => ⟨decide ((table k).lastBlock g ≤ P), by rw [hlast k (by omega)]; rfl, decide_eq_true_iff⟩)
    (d.batchCount - 1) (Nat.sub_le _ _) (Nat.zero_le (d.batchCount - 1)) le_rfl hfirst
  obtain ⟨chosen, hchosen, hchosenle, -, -⟩ := h.stepBack_ok (show lo < d.batchCount by omega)
  refine ⟨lo, chosen, by omega, fun j hj => ⟨fun hcov => hgreatest ⟨by omega, hcov⟩, fun hjle =>
    (h.lastBlock_mono hjle (by omega)).trans hcovered⟩, hchosen, hchosenle, ?_⟩
  have hfits := h.blocksFit chosen (by omega)
  unfold ArbitrumData.computeResumePoint
  rw [if_neg hP, if_neg hcount.ne', hlast 0 hcount, ok_bind, if_neg (Nat.not_lt.mpr hfirst), hlo, ok_bind, hchosen,
    ok_bind, h.read_eq (show chosen < d.batchCount by omega), ok_bind, Nat.mod_eq_of_lt hfits]
  exact rfl

/-- The batches that the walk back has passed share the block of the first batch above the convert point. -/
theorem passed_block {chosen lo : ℕ} (hpassed : ∀ j, chosen < j → j ≤ lo →
      j + 1 < d.batchCount ∧ (table (j + 1)).parentChainBlock = (table j).parentChainBlock) {j : ℕ} (hj : chosen < j)
    (hle : j ≤ lo) : lo + 1 < d.batchCount ∧ (table (lo + 1)).parentChainBlock = (table j).parentChainBlock := by
  refine ⟨(hpassed lo (by omega) le_rfl).1, ?_⟩
  induction lo, hle using Nat.le_induction with
  | base => exact (hpassed j hj le_rfl).2
  | succ lo hjlo ih =>
    rw [(hpassed (lo + 1) (by omega) le_rfl).2]
    exact ih fun k hk hklo => hpassed k hk (by omega)

/-- A batch that the walk back has passed is not a boundary. -/
theorem not_boundary_of_passed {c lo : ℕ} (hcovered : ∀ j < d.batchCount, (table j).lastBlock g ≤ P ↔ j ≤ lo)
    (hpassed : ∀ j, c < j → j ≤ lo →
      j + 1 < d.batchCount ∧ (table (j + 1)).parentChainBlock = (table j).parentChainBlock)
    {k : ℕ} (hck : c < k) (hk : k < d.batchCount) :
    ¬Boundary d g table P ((table k).checkpoint g) := by
  intro hb
  have hle : k ≤ lo := (hcovered k hk).mp hb.bounded
  obtain ⟨hnext, hblock⟩ := passed_block hpassed hck hle
  have hlast := hb.before (lo + 1) hnext (by rw [hblock]; exact Nat.lt_succ_self _)
  have := (hcovered (lo + 1) hnext).mp (hlast.trans hb.bounded)
  omega

/-- **The resume point** is the end of a batch, and the end of no later batch is a boundary.  It is
itself one exactly if batch 0 is apart from the batches above the convert point and no delayed message
is read by a batch without messages of its own that is walked back over. -/
theorem resume_point_is_boundary (h : Posted d g table) (hP : P ≠ 0) (hcount : 0 < d.batchCount)
    (hfirst : (table 0).lastBlock g ≤ P) :
    ∃ c < d.batchCount, d.computeResumePoint P g = .ok ((table c).checkpoint g) ∧
      (∀ k < d.batchCount, c < k → ¬Boundary d g table P ((table k).checkpoint g)) ∧
      (Boundary d g table P ((table c).checkpoint g) ↔
        ZeroApart d g table P ∧ EmptyReadNothing d g table P) := by
  obtain ⟨lo, c, hlo, hcovered, hstep, hcle, heq⟩ := h.computeResumePoint_ok hP hcount hfirst
  obtain ⟨c', hstep', -, hpassed, hstop⟩ := h.stepBack_ok hlo
  cases hstep.symm.trans hstep'
  have hc : c < d.batchCount := by omega
  refine ⟨c, hc, heq, fun k hk hck => not_boundary_of_passed hcovered hpassed hck hk,
    fun hb => ⟨fun j hj habove hsame => ?_, fun i j k hij hj hk hstart hij' hjk hbelow habove hmsg => ?_⟩,
    fun ⟨hzero, hempty⟩ => ?_⟩
  · have hmono := h.blocks c hc 0 (Nat.zero_le _)
    have hle := (hb.before j hj (Nat.lt_succ_of_le (hsame ▸ hmono))).trans hb.bounded
    omega
  · -- the walk back ends before the first batch of the block, that is at `i`
    have hjlo := (hcovered j hj).mp hbelow
    have hlok : lo < k := by
      by_contra hge
      have := (hcovered k hk).mpr (by omega)
      omega
    have hci : c ≤ i := by
      by_contra hgt
      have h1 := h.blocks c hc (i + 1) (by omega)
      have h2 := h.blocks k hk (c + 1) (by omega)
      omega
    have hic : i ≤ c := by
      by_contra hgt
      have := (hpassed i (by omega) (by omega)).2
      omega
    obtain rfl : c = i := le_antisymm hci hic
    obtain ⟨m, hm, hiff, hdelayed⟩ := hb.delayed
    have hsame : (table c).lastBlock g = (table j).lastBlock g := by
      rw [h.lastBlock_eq hc, h.lastBlock_eq hj, hmsg]
    have hjm := h.delayed m hm j ((hiff j hj).mp hsame.ge)
    exact le_antisymm (h.delayed j hj c hij.le) (hjm.trans hdelayed.ge)
  · -- batch `c` is the last one of its parent-chain block
    have hlast (hnext : c + 1 < d.batchCount) :
        (table c).parentChainBlock < (table (c + 1)).parentChainBlock := by
      rcases hstop with rfl | hend | hlt
      · have hblock : lo + 1 < d.batchCount ∧
            (table (lo + 1)).parentChainBlock = (table 1).parentChainBlock := by
          rcases Nat.eq_zero_or_pos lo with rfl | hpos
          · exact ⟨hnext, rfl⟩
          · exact passed_block hpassed Nat.zero_lt_one hpos
        have habove : P < (table (lo + 1)).lastBlock g := by
          by_contra hle
          have := (hcovered (lo + 1) hblock.1).mp (Nat.not_lt.mp hle)
          omega
        have hne := hzero (lo + 1) hblock.1 habove
        exact lt_of_le_of_ne (h.blocks 1 hnext 0 (Nat.zero_le _)) (hblock.2 ▸ hne)
      · omega
      · exact hlt
    have hbefore (j : ℕ) (hj : j < d.batchCount)
        (hlt : (table j).parentChainBlock < (table c).parentChainBlock + 1) : j ≤ c := by
      by_contra hgt
      have hmono := h.blocks j hj (c + 1) (by omega)
      have hlt' := hlast (by omega)
      omega
    refine ⟨fun j hj hlt => h.lastBlock_mono (hbefore j hj hlt) hc, fun j hj hlt => ?_, ?_, (hcovered c hc).mpr hcle⟩
    · by_contra hge
      have hle := h.lastBlock_mono (hbefore j hj (Nat.not_le.mp hge)) hc
      exact absurd hlt (Nat.not_lt.mpr hle)
    -- the last batch that is covered
    let m := Nat.findGreatest (fun j => (table j).lastBlock g ≤ (table c).lastBlock g) (d.batchCount - 1)
    have hm : m < d.batchCount := by
      have : m ≤ d.batchCount - 1 := Nat.findGreatest_le _
      omega
    have hmc : (table m).lastBlock g ≤ (table c).lastBlock g :=
      Nat.findGreatest_spec (P := fun j => (table j).lastBlock g ≤ (table c).lastBlock g)
        (show c ≤ d.batchCount - 1 by omega) le_rfl
    have hgreatest (j : ℕ) (hj : j < d.batchCount) (hle : (table j).lastBlock g ≤ (table c).lastBlock g) : j ≤ m :=
      Nat.le_findGreatest (by omega) hle
    refine ⟨m, hm, fun j hj => ⟨hgreatest j hj, fun hle => (h.lastBlock_mono hle hm).trans hmc⟩, ?_⟩
    rcases Nat.lt_or_eq_of_le (hgreatest c hc le_rfl) with hcm | hcm
    · have hmlo : m ≤ lo := (hcovered m hm).mp (hmc.trans ((hcovered c hc).mpr hcle))
      obtain ⟨hnext, hblock⟩ := passed_block hpassed hcm hmlo
      obtain ⟨-, hblock'⟩ := passed_block hpassed (Nat.lt_succ_self c) (by omega)
      have habove : P < (table (lo + 1)).lastBlock g := by
        by_contra hle
        have := (hcovered (lo + 1) hnext).mp (Nat.not_lt.mp hle)
        omega
      have hmsg : (table c).messageCount = (table m).messageCount := by
        have hmono := h.messages m hm c hcm.le
        have h1 := h.lastBlock_eq hc
        have h2 := h.lastBlock_eq hm
        have := h.messageCount_pos hc
        omega
      exact hempty c m (lo + 1) hcm hm hnext (hlast (by omega)) (hblock'.symm.trans hblock) hblock.symm
        ((hcovered m hm).mpr hmlo) habove hmsg
    · exact congrArg (fun j => (table j).delayedMessageCount) hcm

end Posted

/-- The batches of a list. -/
def tableOf (batches : List BatchMetadata) : ArbitrumData := ⟨batches.length, fun seq => batches[seq]?⟩

/-- Batch 2 has no message of its own and shares its block with batch 3. -/
def fourBatches (delayed : ℕ) : List BatchMetadata := [⟨1, 1, 9⟩, ⟨3, 1, 10⟩, ⟨3, delayed, 11⟩, ⟨5, 2, 11⟩]

/-- The convert point lies in batch 3: the walk goes back over batch 2, which reads no delayed message. -/
theorem resume_point_is_boundary_stepped_back :
    (tableOf (fourBatches 1)).computeResumePoint 8 5 = .ok ⟨11, 1, 7⟩ ∧
      Boundary (tableOf (fourBatches 1)) 5 (fun j => (fourBatches 1).getD j ⟨5, 2, 11⟩) 8 ⟨11, 1, 7⟩ := by
  have hvalue : (tableOf (fourBatches 1)).computeResumePoint 8 5 = .ok ⟨11, 1, 7⟩ := by decide +kernel
  have hposted : Posted (tableOf (fourBatches 1)) 5 fun j => (fourBatches 1).getD j ⟨5, 2, 11⟩ :=
    ⟨by decide, by decide, by decide, by decide, by decide, by decide, by decide⟩
  obtain ⟨c, -, hcp, -, hiff⟩ := Posted.resume_point_is_boundary (P := 8) hposted (by decide) (by decide) (by decide)
  rw [← Except.ok.inj (hcp.symm.trans hvalue)]
  refine ⟨hcp, hiff.mpr ⟨fun j hj => ?_, fun i j k hij hj hk => ?_⟩⟩
  · change j < 4 at hj
    interval_cases j <;> decide
  · change j < 4 at hj
    change k < 4 at hk
    interval_cases j <;> interval_cases i <;> interval_cases k <;> decide

/-- The second batch is in the block of batch 0 and is missed; with four batches, the delayed message that
batch 2 reads is not counted although its blocks are covered. -/
theorem sibling_of_batch_zero_skipped :
    (∃ cp, (tableOf [⟨1, 1, 10⟩, ⟨3, 1, 10⟩]).computeResumePoint 6 5 = .ok cp ∧
      (⟨3, 1, 10⟩ : BatchMetadata).parentChainBlock < cp.l1Block ∧
      cp.l2Block < (⟨3, 1, 10⟩ : BatchMetadata).lastBlock 5) ∧
    ∃ cp, (tableOf (fourBatches 2)).computeResumePoint 7 5 = .ok cp ∧
      (⟨3, 2, 11⟩ : BatchMetadata).lastBlock 5 ≤ cp.l2Block ∧ cp.delayedCount < 2 :=
  ⟨⟨⟨11, 1, 5⟩, by decide +kernel, by decide, by decide⟩, ⟨11, 1, 7⟩, by decide +kernel, by decide, by decide⟩

end ArbReth.Snapshot
