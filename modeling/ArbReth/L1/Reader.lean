import ArbReth.Primitives
import ArbReth.Lib.Bisect

/-! # The batch count of the sequencer inbox

`SequencerInboxReader` (`arb-reth-l1/src/reader.rs`) asks an L1 provider how many batches the
`SequencerInbox` had posted as of a block, and finds by bisection the block of the next batch.

A provider answers each request at some moment, so its answers depend on a clock; a request that
fails gives `none`.  `Provider.Truthful` says that the answers it gives are the ABI words of a fixed
batch count, which is a 64-bit number, or empty where the contract has no code. -/

namespace ArbReth.L1

inductive L1Error where
  | rpc
  | decode
deriving DecidableEq, Repr

/-- An L1 execution-layer endpoint.  The first argument is the moment of the request. -/
structure Provider where
  getBlockNumber : ℕ → Option ℕ
  /-- The `batchCount()` call at a block. -/
  call : ℕ → ℕ → Option (List UInt8)

/-- Reads the last eight bytes of the returned word; a short answer is a contract without code. -/
def decodeBatchCount (out : List UInt8) : ℕ :=
  if out.length < 32 then 0
  else ((out.drop 24).take 8).foldl (fun count byte => count * 256 + byte.toNat) 0

/-- `batch_count`: the count, and the moment after the request. -/
def batchCount (P : Provider) (clock atBlock : ℕ) : Except L1Error (ℕ × ℕ) :=
  match P.call clock atBlock with
  | none => .error .rpc
  | some out => .ok (decodeBatchCount out, clock + 1)

/-- Whether the count at a block exceeds `count`. -/
def countAbove (P : Provider) (count clock atBlock : ℕ) : Except L1Error (Bool × ℕ) :=
  match batchCount P clock atBlock with
  | .error e => .error e
  | .ok (n, clock) => .ok (decide (count < n), clock)

def firstBlockWithBatchCountAbove (P : Provider) (clock lo hi count : ℕ) : Except L1Error (ℕ × ℕ) :=
  Bisect.search (countAbove P count) (hi - lo) clock lo hi

theorem batchCount_error {P : Provider} {clock atBlock : ℕ} {e : L1Error} (h : batchCount P clock atBlock = .error e) :
    e = .rpc := by
  unfold batchCount at h
  cases hc : P.call clock atBlock with
  | none =>
    rw [hc] at h
    exact (Except.error.inj h).symm
  | some out =>
    rw [hc] at h
    cases h

theorem firstBlockWithBatchCountAbove_error {P : Provider} {clock lo hi count : ℕ} {e : L1Error}
    (h : firstBlockWithBatchCountAbove P clock lo hi count = .error e) : e = .rpc := by
  obtain ⟨clock', n, hprobe⟩ := Bisect.search_error _ h
  unfold countAbove at hprobe
  cases hb : batchCount P clock' n with
  | error e' =>
    rw [hb] at hprobe
    rw [← Except.error.inj hprobe]
    exact batchCount_error hb
  | ok out =>
    rw [hb] at hprobe
    cases hprobe

/-! ### Truthful answers -/

/-- A number as a 32-byte big-endian word. -/
def word (n : ℕ) : List UInt8 := (List.range 32).map fun i => UInt8.ofNat (n / 256 ^ (31 - i))

theorem decodeBatchCount_word {n : ℕ} (h : n < u64Size) : decodeBatchCount (word n) = n := by
  have hbytes : ((word n).drop 24).take 8 =
      [UInt8.ofNat (n / 256 ^ 7), UInt8.ofNat (n / 256 ^ 6), UInt8.ofNat (n / 256 ^ 5),
        UInt8.ofNat (n / 256 ^ 4), UInt8.ofNat (n / 256 ^ 3), UInt8.ofNat (n / 256 ^ 2),
        UInt8.ofNat (n / 256 ^ 1), UInt8.ofNat (n / 256 ^ 0)] := rfl
  have hlen : ¬ (word n).length < 32 := by simp [word]
  unfold decodeBatchCount
  rw [if_neg hlen, hbytes]
  simp only [List.foldl_cons, List.foldl_nil, UInt8.toNat_ofNat']
  unfold u64Size at h
  omega

/-- The provider answers for the batch count `count`. -/
structure Provider.Truthful (P : Provider) (count : ℕ → ℕ) : Prop where
  fits : ∀ n, count n < u64Size
  call : ∀ clock n out, P.call clock n = some out → out = word (count n) ∨ (out = [] ∧ count n = 0)

variable {P : Provider} {count : ℕ → ℕ}

theorem batchCount_ok (hP : P.Truthful count) {clock clock' n k : ℕ}
    (h : batchCount P clock n = .ok (k, clock')) : k = count n := by
  unfold batchCount at h
  cases hc : P.call clock n with
  | none =>
    rw [hc] at h
    cases h
  | some out =>
    rw [hc] at h
    cases h
    rcases hP.call clock n out hc with rfl | ⟨rfl, hzero⟩
    · exact decodeBatchCount_word (hP.fits n)
    · rw [hzero]
      rfl

/-- The bisection finds the first block whose count is above `k`, if there is one up to `hi`. -/
theorem firstBlockWithBatchCountAbove_ok (hP : P.Truthful count) (hmono : Monotone count)
    {clock clock' lo hi k r : ℕ} (hle : lo ≤ hi) (hhi : k < count hi)
    (h : firstBlockWithBatchCountAbove P clock lo hi k = .ok (r, clock')) :
    IsLeast {n | lo ≤ n ∧ k < count n} r ∧ r ≤ hi := by
  refine Bisect.search_isLeast (fun a b hab ha => ?_) (fun s n above s' hprobe => ?_) _ le_rfl hle hhi h
  · exact lt_of_lt_of_le ha (hmono hab)
  · unfold countAbove at hprobe
    cases hb : batchCount P s n with
    | error e =>
      rw [hb] at hprobe
      cases hprobe
    | ok out =>
      obtain ⟨m, clock₁⟩ := out
      rw [hb] at hprobe
      cases hprobe
      rw [batchCount_ok hP hb, decide_eq_true_iff]

end ArbReth.L1
