import Mathlib

/-! # The resume log

`L1ResumeLog` (`arb-reth-sync/src/resume.rs`) is the list of derivation boundaries a node keeps on
disk, so that a restart can continue from one of them.  `record` appends a boundary, or replaces the
last one if it reaches the same L2 block, and thins out what is older than the newest
`recentCheckpoints` entries.

`record` looks at the last entry only.  It keeps an ascending log ascending exactly when the new
boundary is not below that entry (`record_ascending_iff`), and so does a whole series of boundaries
that starts at or above it and does not go down (`recordAll_ascending`).  Nothing enters the log but
what is recorded (`mem_recordAll`). -/

namespace ArbReth.Sync

/-- A boundary of the derivation: with every batch before `l1Block` consumed, the delayed cursor is
`delayedCount` and the L2 chain has reached `l2Block`. -/
structure L1ResumeCheckpoint where
  l1Block : ℕ
  delayedCount : ℕ
  l2Block : ℕ
deriving DecidableEq, Repr

structure L1ResumeLog where
  checkpoints : List L1ResumeCheckpoint
deriving DecidableEq, Repr

/-- How many recent boundaries remain at full resolution (`RECENT_CHECKPOINTS`). -/
def recentCheckpoints : ℕ := 128

/-- The L2 span of one historical boundary (`HISTORICAL_CHECKPOINT_L2_INTERVAL`). -/
def historicalCheckpointL2Interval : ℕ := 100000

namespace L1ResumeLog

/-- The first boundary of each bucket; `lastBucket` is the bucket of the boundary kept last. -/
def earliestPerBucket : Option ℕ → List L1ResumeCheckpoint → List L1ResumeCheckpoint
  | _, [] => []
  | lastBucket, checkpoint :: checkpoints =>
    let bucket := checkpoint.l2Block / historicalCheckpointL2Interval
    if lastBucket = some bucket then earliestPerBucket lastBucket checkpoints
    else checkpoint :: earliestPerBucket (some bucket) checkpoints

def compactHistory (log : L1ResumeLog) : L1ResumeLog :=
  let recentStart := log.checkpoints.length - recentCheckpoints
  if recentStart = 0 then log
  else ⟨earliestPerBucket none (log.checkpoints.take recentStart) ++ log.checkpoints.drop recentStart⟩

/-- The log before it is compacted: a boundary with the L2 block of the last entry replaces it. -/
def append (log : L1ResumeLog) (cp : L1ResumeCheckpoint) : L1ResumeLog :=
  if log.checkpoints.getLast?.any (·.l2Block = cp.l2Block) then ⟨log.checkpoints.dropLast ++ [cp]⟩
  else ⟨log.checkpoints ++ [cp]⟩

def record (log : L1ResumeLog) (cp : L1ResumeCheckpoint) : L1ResumeLog :=
  (log.append cp).compactHistory

/-- Record a series of boundaries. -/
def recordAll (log : L1ResumeLog) (cps : List L1ResumeCheckpoint) : L1ResumeLog := cps.foldl record log

/-- The newest boundary at or below an L2 block. -/
def resumeFor (log : L1ResumeLog) (l2Block : ℕ) : Option L1ResumeCheckpoint :=
  log.checkpoints.reverse.find? (·.l2Block ≤ l2Block)

/-- The order `load_strict` asks for. -/
def Ascending (log : L1ResumeLog) : Prop := log.checkpoints.IsChain (·.l2Block < ·.l2Block)

instance (log : L1ResumeLog) : Decidable log.Ascending :=
  inferInstanceAs (Decidable (log.checkpoints.IsChain (·.l2Block < ·.l2Block)))

end L1ResumeLog

/-! ### The file -/

/-- What is at the path of the log. -/
inductive ResumeFile where
  | absent
  /-- Bytes that are neither schema. -/
  | malformed
  /-- The legacy schema: one bare checkpoint. -/
  | legacy (cp : L1ResumeCheckpoint)
  | wrapped (log : L1ResumeLog)
deriving DecidableEq, Repr

inductive LoadError where
  | unreadable
  | schema
  | notAscending
deriving DecidableEq, Repr

/-- How far a save came: the rename takes effect even if the directory sync after it fails. -/
inductive SaveOutcome where
  | saved
  | failedBeforeRename
  | failedAfterRename
deriving DecidableEq, Repr

namespace ResumeFile

def load : ResumeFile → Option L1ResumeLog
  | .absent | .malformed => none
  | .legacy cp => some ⟨[cp]⟩
  | .wrapped log => some log

/-- Some pair of neighbours is not strictly ascending. -/
def outOfOrder (cps : List L1ResumeCheckpoint) : Bool :=
  (cps.zip cps.tail).any (fun pair => pair.2.l2Block ≤ pair.1.l2Block)

def loadStrict : ResumeFile → Except LoadError L1ResumeLog
  | .absent => .error .unreadable
  | .malformed | .legacy _ => .error .schema
  | .wrapped log => if outOfOrder log.checkpoints then .error .notAscending else .ok log

def save (file : ResumeFile) (log : L1ResumeLog) : SaveOutcome → ResumeFile
  | .saved | .failedAfterRename => .wrapped log
  | .failedBeforeRename => file

/-- The log a run starts with. -/
def loaded (file : ResumeFile) : L1ResumeLog := file.load.getD ⟨[]⟩

theorem outOfOrder_eq_false (cps : List L1ResumeCheckpoint) :
    outOfOrder cps = false ↔ cps.IsChain (·.l2Block < ·.l2Block) := by
  induction cps with
  | nil => simp [outOfOrder]
  | cons cp cps ih =>
    cases cps with
    | nil => simp [outOfOrder]
    | cons cp' cps =>
      have hcons : outOfOrder (cp :: cp' :: cps) =
          (decide (cp'.l2Block ≤ cp.l2Block) || outOfOrder (cp' :: cps)) := rfl
      rw [hcons, Bool.or_eq_false_iff, ih, List.isChain_cons_cons, decide_eq_false_iff_not, not_le]

/-- The strict reader accepts a log exactly when it is ascending. -/
theorem loadStrict_wrapped (log : L1ResumeLog) : (ResumeFile.wrapped log).loadStrict = .ok log ↔ log.Ascending := by
  unfold loadStrict L1ResumeLog.Ascending
  rw [← outOfOrder_eq_false]
  cases h : outOfOrder log.checkpoints <;> simp [h]

end ResumeFile

/-! ### Recording -/

namespace L1ResumeLog

variable {log : L1ResumeLog} {cp : L1ResumeCheckpoint} {cps : List L1ResumeCheckpoint}

theorem earliestPerBucket_sublist (lastBucket : Option ℕ) (cps : List L1ResumeCheckpoint) :
    (earliestPerBucket lastBucket cps).Sublist cps := by
  induction cps generalizing lastBucket with
  | nil => exact List.Sublist.slnil
  | cons cp cps ih =>
    unfold earliestPerBucket
    simp only
    split
    · exact (ih _).cons _
    · exact (ih _).cons_cons _

theorem compactHistory_sublist (log : L1ResumeLog) : log.compactHistory.checkpoints.Sublist log.checkpoints := by
  unfold compactHistory
  simp only
  split
  · exact List.Sublist.refl _
  · have h := (earliestPerBucket_sublist none
      (log.checkpoints.take (log.checkpoints.length - recentCheckpoints))).append
      (List.Sublist.refl (log.checkpoints.drop (log.checkpoints.length - recentCheckpoints)))
    rwa [List.take_append_drop] at h

theorem suffix_compactHistory (log : L1ResumeLog) {tail : List L1ResumeCheckpoint}
    (h : tail <:+ log.checkpoints) (hlen : tail.length ≤ recentCheckpoints) :
    tail <:+ log.compactHistory.checkpoints := by
  unfold compactHistory
  simp only
  split
  · exact h
  · refine List.IsSuffix.trans ?_ (List.suffix_append _ _)
    refine List.suffix_of_suffix_length_le h (List.drop_suffix _ _) ?_
    rw [List.length_drop]
    have := h.length_le
    omega

theorem append_suffix (log : L1ResumeLog) (cp : L1ResumeCheckpoint) : [cp] <:+ (log.append cp).checkpoints := by
  unfold append
  split
  · exact List.suffix_append _ _
  · exact List.suffix_append _ _

theorem record_getLast? (log : L1ResumeLog) (cp : L1ResumeCheckpoint) :
    (log.record cp).checkpoints.getLast? = some cp := by
  have h : [cp] <:+ (log.record cp).checkpoints :=
    suffix_compactHistory _ (append_suffix log cp) (Nat.le_of_ble_eq_true rfl)
  obtain ⟨front, hfront⟩ := h
  rw [← hfront, List.getLast?_concat]

theorem mem_record {x : L1ResumeCheckpoint} (h : x ∈ (log.record cp).checkpoints) : x ∈ log.checkpoints ∨ x = cp := by
  have hx : x ∈ (log.append cp).checkpoints := (compactHistory_sublist _).subset h
  unfold append at hx
  split at hx
  · rcases List.mem_append.mp hx with hx | hx
    · exact Or.inl (List.dropLast_subset _ hx)
    · exact Or.inr (List.mem_singleton.mp hx)
  · rcases List.mem_append.mp hx with hx | hx
    · exact Or.inl hx
    · exact Or.inr (List.mem_singleton.mp hx)

theorem recordAll_cons : log.recordAll (cp :: cps) = (log.record cp).recordAll cps :=
  List.foldl_cons

theorem recordAll_append (cps' : List L1ResumeCheckpoint) :
    log.recordAll (cps ++ cps') = (log.recordAll cps).recordAll cps' := List.foldl_append

theorem mem_recordAll {x : L1ResumeCheckpoint} (h : x ∈ (log.recordAll cps).checkpoints) :
    x ∈ log.checkpoints ∨ x ∈ cps := by
  induction cps generalizing log with
  | nil => exact Or.inl h
  | cons cp cps ih =>
    rw [recordAll_cons] at h
    rcases ih h with h | h
    · rcases mem_record h with h | rfl
      · exact Or.inl h
      · exact Or.inr List.mem_cons_self
    · exact Or.inr (List.mem_cons_of_mem _ h)

theorem Ascending.sublist {log' : L1ResumeLog} (h : log.Ascending)
    (hs : log'.checkpoints.Sublist log.checkpoints) : log'.Ascending := by
  have : Trans (fun a b : L1ResumeCheckpoint => a.l2Block < b.l2Block)
      (fun a b : L1ResumeCheckpoint => a.l2Block < b.l2Block)
      (fun a b : L1ResumeCheckpoint => a.l2Block < b.l2Block) := ⟨fun h1 h2 => Nat.lt_trans h1 h2⟩
  exact List.IsChain.sublist h hs

/-- A new boundary is not below the newest entry. -/
def NotBelow (log : L1ResumeLog) (cp : L1ResumeCheckpoint) : Prop :=
  ∀ newest, log.checkpoints.getLast? = some newest → newest.l2Block ≤ cp.l2Block

theorem append_ascending (h : log.Ascending) (hcp : log.NotBelow cp) : (log.append cp).Ascending := by
  unfold append
  cases hlast : log.checkpoints.getLast? with
  | none =>
    rw [List.getLast?_eq_none_iff.mp hlast]
    exact List.IsChain.singleton cp
  | some newest =>
    have hle := hcp newest hlast
    obtain ⟨front, he⟩ := List.getLast?_eq_some_iff.mp hlast
    unfold Ascending at h
    rw [he]
    rw [he, List.isChain_append] at h
    by_cases heq : newest.l2Block = cp.l2Block
    · simp only [Option.any_some, heq, decide_true, if_true, List.dropLast_concat]
      unfold Ascending
      rw [List.isChain_append]
      refine ⟨h.1, List.IsChain.singleton cp, fun x hx y hy => ?_⟩
      have hxy := h.2.2 x hx newest rfl
      obtain rfl : cp = y := Option.some.inj hy
      rw [← heq]
      exact hxy
    · simp only [Option.any_some, heq, decide_false, Bool.false_eq_true, if_false]
      unfold Ascending
      rw [List.isChain_append]
      refine ⟨List.isChain_append.mpr h, List.IsChain.singleton cp, fun x hx y hy => ?_⟩
      rw [List.getLast?_concat] at hx
      obtain rfl : newest = x := Option.some.inj hx
      obtain rfl : cp = y := Option.some.inj hy
      exact lt_of_le_of_ne hle heq

/-- **Recording** keeps an ascending log ascending exactly when the boundary is not below the newest
entry. -/
theorem record_ascending_iff (h : log.Ascending) : (log.record cp).Ascending ↔ log.NotBelow cp := by
  constructor
  · intro hrec newest hnewest
    by_contra hlt
    -- the two last entries survive compaction, and they are out of order
    have happ : (log.append cp).checkpoints = log.checkpoints ++ [cp] := by
      unfold append
      rw [hnewest]
      have hne : newest.l2Block ≠ cp.l2Block := by omega
      simp [hne]
    obtain ⟨front, hfront⟩ := List.getLast?_eq_some_iff.mp hnewest
    have hsuf : [newest, cp] <:+ (log.record cp).checkpoints := by
      refine suffix_compactHistory _ ⟨front, ?_⟩ (Nat.le_of_ble_eq_true rfl)
      rw [happ, hfront, List.append_assoc]
      rfl
    obtain ⟨init, hinit⟩ := hsuf
    unfold Ascending at hrec
    rw [← hinit, List.isChain_append] at hrec
    have hpair := List.isChain_pair.mp hrec.2.1
    omega
  · exact fun hcp => (append_ascending h hcp).sublist (compactHistory_sublist _)

/-- A series of boundaries that does not go down and starts at or above the newest entry keeps the
log ascending. -/
theorem recordAll_ascending (h : log.Ascending) (hsorted : cps.Pairwise (·.l2Block ≤ ·.l2Block))
    (hcps : ∀ cp ∈ cps, log.NotBelow cp) : (log.recordAll cps).Ascending := by
  induction cps generalizing log with
  | nil => exact h
  | cons cp cps ih =>
    obtain ⟨hhead, htail⟩ := List.pairwise_cons.mp hsorted
    rw [recordAll_cons]
    refine ih ((record_ascending_iff h).mpr (hcps cp List.mem_cons_self)) htail (fun x hx newest hn => ?_)
    rw [record_getLast?] at hn
    obtain rfl : cp = newest := Option.some.inj hn
    exact hhead x hx

/-- The boundary a restart picks is one of the log, and not above the tip. -/
theorem resumeFor_mem {tip : ℕ} (h : log.resumeFor tip = some cp) : cp ∈ log.checkpoints ∧ cp.l2Block ≤ tip := by
  unfold resumeFor at h
  have hmem := List.mem_of_find?_eq_some h
  have hle := List.find?_some h
  exact ⟨List.mem_reverse.mp hmem, by simpa using hle⟩

theorem resumeFor_of_le {tip : ℕ} (h : ∀ cp ∈ log.checkpoints, cp.l2Block ≤ tip) :
    log.resumeFor tip = log.checkpoints.getLast? := by
  unfold resumeFor
  rw [List.getLast?_eq_head?_reverse]
  cases hrev : log.checkpoints.reverse with
  | nil => rfl
  | cons newest older =>
    have hmem : newest ∈ log.checkpoints := by
      rw [← List.mem_reverse, hrev]
      exact List.mem_cons_self
    rw [List.find?_cons_of_pos (by simpa using h newest hmem)]
    rfl

end L1ResumeLog

end ArbReth.Sync
