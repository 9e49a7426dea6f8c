import ArbReth.Recovery.Journal

/-! # What compaction keeps

The resume log is compacted at every `record`, on top of what earlier compactions have left, and `truncate_to` cuts it
back in between.  Beside it runs the log that is never compacted (`keep`): what it has is what was recorded, not replaced
since and not cut off (`Standing`).  The compacted log is a sublist of it, in which every boundary is represented by an
earlier one of its bucket (`Represents`); so a restart is sent back by less than one bucket. -/

namespace ArbReth.Sync

open ArbReth.Recovery (truncateTo)

inductive LogOp where
  | record (cp : L1ResumeCheckpoint)
  | truncate (l2Block : ℕ)
deriving DecidableEq, Repr

/-- The interval of L2 blocks that a boundary belongs to. -/
def L1ResumeCheckpoint.bucket (cp : L1ResumeCheckpoint) : ℕ := cp.l2Block / historicalCheckpointL2Interval

namespace L1ResumeLog

def apply (log : L1ResumeLog) : LogOp → L1ResumeLog
  | .record cp => log.record cp
  | .truncate l2Block => truncateTo log l2Block

/-- The same without compaction. -/
def keep (log : L1ResumeLog) : LogOp → L1ResumeLog
  | .record cp => log.append cp
  | .truncate l2Block => truncateTo log l2Block

/-- What was recorded since the last truncation. -/
def keepRecent (log : L1ResumeLog) : LogOp → L1ResumeLog
  | .record cp => log.append cp
  | .truncate _ => ⟨[]⟩

/-- The log after a series of operations on an empty one. -/
def runOps (ops : List LogOp) : L1ResumeLog := ops.foldl apply ⟨[]⟩

def recent (ops : List LogOp) : L1ResumeLog := ops.foldl keepRecent ⟨[]⟩

end L1ResumeLog

/-- No boundary goes below the one before, or below the point to which the log was cut back since. -/
def Orderly : ℕ → List LogOp → Prop
  | _, [] => True
  | floor, .record cp :: ops => floor ≤ cp.l2Block ∧ Orderly cp.l2Block ops
  | floor, .truncate l2Block :: ops => Orderly (min floor l2Block) ops

instance : ∀ floor ops, Decidable (Orderly floor ops)
  | _, [] => .isTrue trivial
  | floor, .record cp :: ops =>
    have := instDecidableOrderly cp.l2Block ops
    inferInstanceAs (Decidable (floor ≤ cp.l2Block ∧ Orderly cp.l2Block ops))
  | floor, .truncate l2Block :: ops => instDecidableOrderly (min floor l2Block) ops

/-- A boundary is neither cut off nor replaced by these operations. -/
def Survives (ops : List LogOp) (cp : L1ResumeCheckpoint) : Prop :=
  (∀ l2Block, .truncate l2Block ∈ ops → cp.l2Block ≤ l2Block) ∧
    ∀ cp', .record cp' ∈ ops → cp'.l2Block ≠ cp.l2Block

/-- A boundary that was recorded, and has not been cut off or replaced by a later one of its L2 block. -/
def Standing (ops : List LogOp) (cp : L1ResumeCheckpoint) : Prop :=
  ∃ before after, ops = before ++ .record cp :: after ∧ Survives after cp

/-- The buckets of all recorded boundaries. -/
def touched (ops : List LogOp) : Finset ℕ :=
  (ops.filterMap fun op => match op with
    | .record cp => some cp.bucket
    | .truncate _ => none).toFinset

variable {log full latest : L1ResumeLog} {cp b r : L1ResumeCheckpoint} {cps : List L1ResumeCheckpoint} {floor : ℕ}

/-! ### The log that is never compacted -/

/-- No entry is above `floor`. -/
def L1ResumeLog.AtMost (log : L1ResumeLog) (floor : ℕ) : Prop := ∀ b ∈ log.checkpoints, b.l2Block ≤ floor

theorem L1ResumeLog.AtMost.notBelow (h : full.AtMost floor) (hcp : floor ≤ cp.l2Block) : full.NotBelow cp := by
  intro newest hnewest
  have := h newest (List.mem_of_getLast? hnewest)
  omega

theorem mem_append_iff (hfull : full.Ascending) (hcp : full.NotBelow cp) :
    b ∈ (full.append cp).checkpoints ↔ b = cp ∨ b ∈ full.checkpoints ∧ b.l2Block ≠ cp.l2Block := by
  have hbelow (front : List L1ResumeCheckpoint) (newest : L1ResumeCheckpoint) (hsplit : full.checkpoints = front ++ [newest]) :
      ∀ x ∈ front, x.l2Block < newest.l2Block := by
    intro x hx
    have htrans : IsTrans L1ResumeCheckpoint (·.l2Block < ·.l2Block) := ⟨fun _ _ _ => Nat.lt_trans⟩
    have hpairs := List.isChain_iff_pairwise.mp hfull
    rw [hsplit, List.pairwise_append] at hpairs
    exact hpairs.2.2 x hx newest (by simp)
  unfold L1ResumeLog.append
  cases hlast : full.checkpoints.getLast? with
  | none =>
    rw [List.getLast?_eq_none_iff.mp hlast]
    simp
  | some newest =>
    obtain ⟨front, hsplit⟩ := List.getLast?_eq_some_iff.mp hlast
    have hle := hcp newest hlast
    have hfront := hbelow front newest hsplit
    rw [hsplit]
    by_cases heq : newest.l2Block = cp.l2Block
    · simp only [Option.any_some, heq, decide_true, if_true, List.dropLast_concat, List.mem_append, List.mem_singleton]
      constructor
      · rintro (hb | rfl)
        · have := hfront b hb
          exact .inr ⟨.inl hb, by omega⟩
        · exact .inl rfl
      · rintro (rfl | ⟨hb | rfl, hne⟩)
        · exact .inr rfl
        · exact .inl hb
        · exact absurd heq hne
    · simp only [Option.any_some, heq, decide_false, Bool.false_eq_true, if_false, List.mem_append, List.mem_singleton]
      constructor
      · rintro ((hb | rfl) | rfl)
        · have := hfront b hb
          exact .inr ⟨.inl hb, by omega⟩
        · exact .inr ⟨.inr rfl, heq⟩
        · exact .inl rfl
      · rintro (rfl | ⟨hb, -⟩)
        · exact .inr rfl
        · exact .inl hb

theorem mem_truncateTo {l2Block : ℕ} :
    b ∈ (truncateTo full l2Block).checkpoints ↔ b ∈ full.checkpoints ∧ b.l2Block ≤ l2Block := by
  simp [truncateTo]

theorem append_atMost (hfull : full.Ascending) (h : full.AtMost floor) (hcp : floor ≤ cp.l2Block) :
    (full.append cp).AtMost cp.l2Block := by
  intro b hb
  rcases (mem_append_iff hfull (h.notBelow hcp)).mp hb with rfl | ⟨hb, -⟩
  · exact le_rfl
  · exact (h b hb).trans hcp

theorem truncateTo_atMost (h : full.AtMost floor) (l2Block : ℕ) : (truncateTo full l2Block).AtMost (min floor l2Block) := by
  intro b hb
  obtain ⟨hmem, hle⟩ := mem_truncateTo.mp hb
  exact le_min (h b hmem) hle

variable {ops : List LogOp}

/-- What the log that is never compacted has after a series of operations. -/
theorem mem_foldl_keep (hops : Orderly floor ops) (hfull : full.Ascending) (hmost : full.AtMost floor) :
    b ∈ (ops.foldl L1ResumeLog.keep full).checkpoints ↔ b ∈ full.checkpoints ∧ Survives ops b ∨ Standing ops b := by
  induction ops generalizing full floor with
  | nil =>
    constructor
    · intro hb
      exact .inl ⟨hb, by simp [Survives]⟩
    · rintro (⟨hb, -⟩ | ⟨before, after, h, -⟩)
      · exact hb
      · simp at h
  | cons op ops ih =>
    rw [List.foldl_cons]
    have hstanding : Standing (op :: ops) b ↔ op = .record b ∧ Survives ops b ∨ Standing ops b := by
      constructor
      · rintro ⟨before, after, hsplit, hafter⟩
        cases before with
        | nil =>
          cases hsplit
          exact .inl ⟨rfl, hafter⟩
        | cons x before =>
          cases hsplit
          exact .inr ⟨before, after, rfl, hafter⟩
      · rintro (⟨rfl, hafter⟩ | ⟨before, after, rfl, hafter⟩)
        · exact ⟨[], ops, rfl, hafter⟩
        · exact ⟨op :: before, after, rfl, hafter⟩
    rw [hstanding]
    cases op with
    | record cp =>
      obtain ⟨hle, hops⟩ := hops
      have hnot := hmost.notBelow hle
      rw [L1ResumeLog.keep, ih hops (L1ResumeLog.append_ascending hfull hnot) (append_atMost hfull hmost hle),
        mem_append_iff hfull hnot]
      have hsurvives : Survives (.record cp :: ops) b ↔ b.l2Block ≠ cp.l2Block ∧ Survives ops b := by
        simp only [Survives, List.mem_cons, reduceCtorEq, false_or, LogOp.record.injEq, forall_eq_or_imp]
        constructor
        · rintro ⟨ht, hne, hr⟩
          exact ⟨hne.symm, ht, hr⟩
        · rintro ⟨hne, ht, hr⟩
          exact ⟨ht, hne.symm, hr⟩
      rw [hsurvives, LogOp.record.injEq, eq_comm (a := cp)]
      tauto
    | truncate l2Block =>
      rw [L1ResumeLog.keep, ih hops (Recovery.truncateTo_ascending hfull l2Block) (truncateTo_atMost hmost l2Block),
        mem_truncateTo]
      have hsurvives : Survives (.truncate l2Block :: ops) b ↔ b.l2Block ≤ l2Block ∧ Survives ops b := by
        simp only [Survives, List.mem_cons, reduceCtorEq, false_or, LogOp.truncate.injEq, forall_eq_or_imp]
        tauto
      rw [hsurvives]
      simp only [reduceCtorEq, false_and, false_or]
      tauto

/-! ### Compaction -/

theorem L1ResumeLog.Ascending.pairwise (h : log.Ascending) : log.checkpoints.Pairwise (·.l2Block < ·.l2Block) := by
  have htrans : IsTrans L1ResumeCheckpoint (·.l2Block < ·.l2Block) := ⟨fun _ _ _ => Nat.lt_trans⟩
  exact List.isChain_iff_pairwise.mp h

/-- A boundary has one in the list that is not above it, in the same bucket. -/
def Represents (cps : List L1ResumeCheckpoint) (b : L1ResumeCheckpoint) : Prop :=
  ∃ r ∈ cps, r.l2Block ≤ b.l2Block ∧ r.bucket = b.bucket

theorem Represents.of_mem (h : b ∈ cps) : Represents cps b := ⟨b, h, le_rfl, rfl⟩

variable {cps' : List L1ResumeCheckpoint}

theorem Represents.trans (h : Represents cps b) (h' : ∀ r ∈ cps, Represents cps' r) : Represents cps' b := by
  obtain ⟨r, hr, hle, hbucket⟩ := h
  obtain ⟨r', hr', hle', hbucket'⟩ := h' r hr
  exact ⟨r', hr', hle'.trans hle, hbucket'.trans hbucket⟩

theorem Represents.mono (h : Represents cps b) (hsub : cps ⊆ cps') : Represents cps' b := by
  obtain ⟨r, hr, hle⟩ := h
  exact ⟨r, hsub hr, hle⟩

/-- Less than one bucket lies between a boundary and the one that represents it. -/
theorem sub_lt_of_bucket_eq (h : r.bucket = b.bucket) : b.l2Block - r.l2Block < historicalCheckpointL2Interval := by
  unfold L1ResumeCheckpoint.bucket historicalCheckpointL2Interval at *
  omega

theorem bucket_le_of_lt (h : r.l2Block < b.l2Block) : r.bucket ≤ b.bucket := Nat.div_le_div_right h.le

theorem represents_earliestPerBucket (lastBucket : Option ℕ) (hcps : cps.Pairwise (·.l2Block < ·.l2Block)) :
    ∀ b ∈ cps, lastBucket = some b.bucket ∨ Represents (L1ResumeLog.earliestPerBucket lastBucket cps) b := by
  induction cps generalizing lastBucket with
  | nil =>
    intro b hb
    cases hb
  | cons cp cps ih =>
    obtain ⟨hlt, htail⟩ := List.pairwise_cons.mp hcps
    intro b hb
    simp only [L1ResumeLog.earliestPerBucket]
    split
    · rename_i hbucket
      rcases List.mem_cons.mp hb with rfl | hb
      · exact .inl hbucket
      · exact ih lastBucket htail b hb
    · rcases List.mem_cons.mp hb with rfl | hb
      · exact .inr (.of_mem List.mem_cons_self)
      · rcases ih (some cp.bucket) htail b hb with hbucket | hrep
        · exact .inr ⟨cp, List.mem_cons_self, (hlt b hb).le, Option.some.inj hbucket⟩
        · exact .inr (hrep.mono (List.subset_cons_self _ _))

theorem lt_bucket_of_mem_earliestPerBucket {bucket : ℕ} (hcps : cps.Pairwise (·.l2Block < ·.l2Block))
    (hle : ∀ b ∈ cps, bucket ≤ b.bucket) : ∀ b ∈ L1ResumeLog.earliestPerBucket (some bucket) cps, bucket < b.bucket := by
  induction cps generalizing bucket with
  | nil =>
    intro b hb
    cases hb
  | cons cp cps ih =>
    obtain ⟨hlt, htail⟩ := List.pairwise_cons.mp hcps
    have hcp := hle cp List.mem_cons_self
    intro b hb
    simp only [L1ResumeLog.earliestPerBucket] at hb
    split at hb
    · exact ih htail (fun b hb => hle b (List.mem_cons_of_mem _ hb)) b hb
    · rename_i hne
      have hlt' : bucket < cp.bucket := lt_of_le_of_ne hcp fun heq => hne (congrArg some heq)
      rcases List.mem_cons.mp hb with rfl | hb
      · exact hlt'
      · exact hlt'.trans (ih htail (fun b hb => bucket_le_of_lt (hlt b hb)) b hb)

/-- What is left of the old boundaries is one in each bucket. -/
theorem earliestPerBucket_pairwise (lastBucket : Option ℕ) (hcps : cps.Pairwise (·.l2Block < ·.l2Block)) :
    (L1ResumeLog.earliestPerBucket lastBucket cps).Pairwise (·.bucket < ·.bucket) := by
  induction cps generalizing lastBucket with
  | nil => exact .nil
  | cons cp cps ih =>
    obtain ⟨hlt, htail⟩ := List.pairwise_cons.mp hcps
    simp only [L1ResumeLog.earliestPerBucket]
    split
    · exact ih lastBucket htail
    · refine List.pairwise_cons.mpr ⟨?_, ih _ htail⟩
      exact lt_bucket_of_mem_earliestPerBucket htail fun b hb => bucket_le_of_lt (hlt b hb)

theorem compactHistory_represents (h : log.Ascending) :
    ∀ r ∈ log.checkpoints, Represents log.compactHistory.checkpoints r := by
  intro r hr
  unfold L1ResumeLog.compactHistory
  simp only
  split
  · exact .of_mem hr
  · rw [← List.take_append_drop (log.checkpoints.length - recentCheckpoints) log.checkpoints] at hr
    rcases List.mem_append.mp hr with hr | hr
    · have hprefix := h.pairwise.sublist (List.take_sublist (log.checkpoints.length - recentCheckpoints) _)
      rcases represents_earliestPerBucket none hprefix r hr with hnone | hrep
      · cases hnone
      · exact hrep.mono (List.subset_append_left _ _)
    · exact .of_mem (List.mem_append_right _ hr)

/-- One boundary in each bucket, and the recent ones. -/
def Thinned (cps : List L1ResumeCheckpoint) : Prop :=
  ∃ old new, cps = old ++ new ∧ old.Pairwise (·.bucket < ·.bucket) ∧ new.length ≤ recentCheckpoints

theorem compactHistory_thinned (h : log.Ascending) : Thinned log.compactHistory.checkpoints := by
  unfold L1ResumeLog.compactHistory
  simp only
  split
  · exact ⟨[], log.checkpoints, rfl, .nil, by omega⟩
  · refine ⟨_, _, rfl, earliestPerBucket_pairwise none (h.pairwise.sublist (List.take_sublist _ _)), ?_⟩
    rw [List.length_drop]
    omega

theorem Thinned.filter (h : Thinned cps) (p : L1ResumeCheckpoint → Bool) : Thinned (cps.filter p) := by
  obtain ⟨old, new, rfl, hold, hnew⟩ := h
  exact ⟨old.filter p, new.filter p, List.filter_append .., hold.filter p, (List.length_filter_le _ _).trans hnew⟩

theorem Thinned.length_le (h : Thinned cps) {buckets : Finset ℕ} (hbuckets : ∀ b ∈ cps, b.bucket ∈ buckets) :
    cps.length ≤ recentCheckpoints + buckets.card := by
  obtain ⟨old, new, rfl, hold, hnew⟩ := h
  have hnodup : (old.map L1ResumeCheckpoint.bucket).Nodup := by
    rw [List.Nodup, List.pairwise_map]
    exact hold.imp fun hlt => hlt.ne
  have hcard : old.length ≤ buckets.card := by
    rw [← List.length_map L1ResumeCheckpoint.bucket, ← List.toFinset_card_of_nodup hnodup]
    refine Finset.card_le_card fun k hk => ?_
    obtain ⟨b, hb, rfl⟩ := List.mem_map.mp (List.mem_toFinset.mp hk)
    exact hbuckets b (List.mem_append_left _ hb)
  rw [List.length_append]
  omega

/-! ### One operation -/

theorem append_of_lt (h : ∀ x ∈ log.checkpoints, x.l2Block < cp.l2Block) :
    (log.append cp).checkpoints = log.checkpoints ++ [cp] := by
  unfold L1ResumeLog.append
  cases hlast : log.checkpoints.getLast? with
  | none => rfl
  | some newest =>
    have hne : newest.l2Block ≠ cp.l2Block := (h newest (List.mem_of_getLast? hlast)).ne
    simp [hne]

theorem append_of_eq {front : List L1ResumeCheckpoint} {newest : L1ResumeCheckpoint}
    (h : log.checkpoints = front ++ [newest]) (heq : newest.l2Block = cp.l2Block) :
    (log.append cp).checkpoints = front ++ [cp] := by
  unfold L1ResumeLog.append
  rw [h]
  simp [heq]

theorem append_sublist (hsub : log.checkpoints.Sublist full.checkpoints) (hfull : full.Ascending)
    (hcp : full.NotBelow cp) : (log.append cp).checkpoints.Sublist (full.append cp).checkpoints := by
  rcases List.eq_nil_or_concat' full.checkpoints with hnil | ⟨front, newest, hsplit⟩
  · rw [hnil, List.sublist_nil] at hsub
    rw [append_of_lt (by simp [hsub]), append_of_lt (by simp [hnil]), hsub, hnil]
  · have hfront : ∀ x ∈ front, x.l2Block < newest.l2Block := by
      intro x hx
      have hpairs := hfull.pairwise
      rw [hsplit, List.pairwise_append] at hpairs
      exact hpairs.2.2 x hx newest (by simp)
    have hle := hcp newest (by rw [hsplit, List.getLast?_concat])
    rcases Nat.eq_or_lt_of_le hle with heq | hlt
    · rw [append_of_eq hsplit heq]
      rw [hsplit, List.sublist_append_iff] at hsub
      obtain ⟨front', last, hlog, hfront', hlast⟩ := hsub
      rcases List.sublist_singleton.mp hlast with rfl | rfl
      · -- the last boundary has been compacted away, so that the new one does not replace anything
        rw [List.append_nil] at hlog
        rw [append_of_lt (fun x hx => heq ▸ hfront x (hfront'.subset (hlog ▸ hx))), hlog]
        exact hfront'.append (List.Sublist.refl _)
      · rw [append_of_eq hlog heq]
        exact hfront'.append (List.Sublist.refl _)
    · have hall : ∀ x ∈ full.checkpoints, x.l2Block < cp.l2Block := by
        intro x hx
        rw [hsplit] at hx
        rcases List.mem_append.mp hx with hx | hx
        · exact (hfront x hx).trans hlt
        · rwa [List.mem_singleton.mp hx]
      rw [append_of_lt hall, append_of_lt fun x hx => hall x (hsub.subset hx)]
      exact hsub.append (List.Sublist.refl _)

/-- The compacted log beside the one that is never compacted, and what was recorded since the last truncation. -/
structure Follows (floor : ℕ) (log full latest : L1ResumeLog) : Prop where
  sublist : log.checkpoints.Sublist full.checkpoints
  ascending : full.Ascending
  atMost : full.AtMost floor
  represented : ∀ b ∈ full.checkpoints, Represents log.checkpoints b
  thinned : Thinned log.checkpoints
  recent : latest.checkpoints.rtake recentCheckpoints <:+ log.checkpoints

theorem Follows.start : Follows 0 ⟨[]⟩ ⟨[]⟩ ⟨[]⟩ where
  sublist := .refl _
  ascending := .nil
  atMost := by simp [L1ResumeLog.AtMost]
  represented := by simp
  thinned := ⟨[], [], rfl, .nil, Nat.zero_le _⟩
  recent := List.rtake_nil recentCheckpoints ▸ List.nil_suffix

theorem rtake_suffix_rtake {α : Type} (l : List α) {m n : ℕ} (h : m ≤ n) : l.rtake m <:+ l.rtake n := by
  refine List.suffix_of_suffix_length_le (List.drop_suffix _ l) (List.drop_suffix _ l) ?_
  unfold List.rtake
  rw [List.length_drop, List.length_drop]
  omega

theorem rtake_append_suffix (h : latest.checkpoints.rtake recentCheckpoints <:+ log.checkpoints) (cp : L1ResumeCheckpoint) :
    (latest.append cp).checkpoints.rtake recentCheckpoints <:+ (log.append cp).checkpoints := by
  obtain ⟨n, hn⟩ : ∃ n, recentCheckpoints = n + 1 := ⟨127, rfl⟩
  rw [hn] at h ⊢
  rcases List.eq_nil_or_concat' latest.checkpoints with hnil | ⟨front, newest, hsplit⟩
  · rw [append_of_lt (by simp [hnil]), hnil, List.rtake_concat_succ, List.rtake_nil]
    exact L1ResumeLog.append_suffix log cp
  · rw [hsplit, List.rtake_concat_succ] at h
    obtain ⟨init, hinit⟩ := h
    rw [← List.append_assoc] at hinit
    by_cases heq : newest.l2Block = cp.l2Block
    · rw [append_of_eq hsplit heq, append_of_eq hinit.symm heq, List.rtake_concat_succ, List.append_assoc]
      exact List.suffix_append _ _
    · have hpush (l : L1ResumeLog) (front : List L1ResumeCheckpoint) (hl : l.checkpoints = front ++ [newest]) :
          (l.append cp).checkpoints = l.checkpoints ++ [cp] := by
        unfold L1ResumeLog.append
        rw [hl]
        simp [heq]
      rw [hpush latest front hsplit, hpush log _ hinit.symm, List.rtake_concat_succ]
      obtain ⟨init', hinit'⟩ := (rtake_suffix_rtake latest.checkpoints (Nat.le_succ n)).trans
        (show latest.checkpoints.rtake (n + 1) <:+ log.checkpoints by rw [hsplit, List.rtake_concat_succ, ← hinit]; simp)
      exact ⟨init', by rw [← List.append_assoc, hinit']⟩

theorem Follows.record (h : Follows floor log full latest) (hcp : floor ≤ cp.l2Block) :
    Follows cp.l2Block (log.record cp) (full.append cp) (latest.append cp) := by
  have hnot := h.atMost.notBelow hcp
  have hlog : log.Ascending := h.ascending.sublist h.sublist
  have hmost : log.AtMost floor := fun b hb => h.atMost b (h.sublist.subset hb)
  have hnot' := hmost.notBelow hcp
  have happend := L1ResumeLog.append_ascending hlog hnot'
  refine ⟨?_, L1ResumeLog.append_ascending h.ascending hnot, append_atMost h.ascending h.atMost hcp, ?_, ?_, ?_⟩
  · exact (L1ResumeLog.compactHistory_sublist _).trans (append_sublist h.sublist h.ascending hnot)
  · intro b hb
    have hrep : Represents (log.append cp).checkpoints b := by
      rcases (mem_append_iff h.ascending hnot).mp hb with rfl | ⟨hb, hne⟩
      · exact .of_mem ((mem_append_iff hlog hnot').mpr (.inl rfl))
      · obtain ⟨r, hr, hle, hbucket⟩ := h.represented b hb
        have hb' := h.atMost b hb
        exact ⟨r, (mem_append_iff hlog hnot').mpr (.inr ⟨hr, by omega⟩), hle, hbucket⟩
    exact hrep.trans (compactHistory_represents happend)
  · exact compactHistory_thinned happend
  · refine L1ResumeLog.suffix_compactHistory _ (rtake_append_suffix h.recent cp) ?_
    rw [List.rtake, List.length_drop]
    omega

theorem Follows.truncate (h : Follows floor log full latest) (l2Block : ℕ) :
    Follows (min floor l2Block) (truncateTo log l2Block) (truncateTo full l2Block) ⟨[]⟩ where
  sublist := h.sublist.filter _
  ascending := Recovery.truncateTo_ascending h.ascending l2Block
  atMost := truncateTo_atMost h.atMost l2Block
  represented b hb := by
    obtain ⟨hmem, hle⟩ := mem_truncateTo.mp hb
    obtain ⟨r, hr, hrb, hbucket⟩ := h.represented b hmem
    exact ⟨r, mem_truncateTo.mpr ⟨hr, hrb.trans hle⟩, hrb, hbucket⟩
  thinned := h.thinned.filter _
  recent := List.rtake_nil recentCheckpoints ▸ List.nil_suffix

theorem Follows.foldl (h : Follows floor log full latest) (hops : Orderly floor ops) :
    ∃ floor', Follows floor' (ops.foldl L1ResumeLog.apply log) (ops.foldl L1ResumeLog.keep full)
      (ops.foldl L1ResumeLog.keepRecent latest) := by
  induction ops generalizing floor log full latest with
  | nil => exact ⟨floor, h⟩
  | cons op ops ih =>
    cases op with
    | record cp =>
      obtain ⟨hle, hops⟩ := hops
      simp only [List.foldl_cons, L1ResumeLog.apply, L1ResumeLog.keep, L1ResumeLog.keepRecent]
      exact ih (h.record hle) hops
    | truncate l2Block => exact ih (h.truncate l2Block) hops

/-! ### Where a restart resumes -/

theorem resumeFor_eq_none {t : ℕ} : log.resumeFor t = none ↔ ∀ b ∈ log.checkpoints, t < b.l2Block := by
  simp [L1ResumeLog.resumeFor]

theorem resumeFor_newest (h : log.Ascending) {t : ℕ} (hr : log.resumeFor t = some r) :
    ∀ b ∈ log.checkpoints, b.l2Block ≤ t → b.l2Block ≤ r.l2Block := by
  intro b hb hle
  obtain ⟨-, newer, older, hsplit, hnewer⟩ := List.find?_eq_some_iff_append.mp hr
  have hpairs := List.pairwise_reverse.mpr h.pairwise
  rw [hsplit, List.pairwise_append] at hpairs
  have hmem : b ∈ newer ++ r :: older := by
    rw [← hsplit]
    exact List.mem_reverse.mpr hb
  rcases List.mem_append.mp hmem with hmem | hmem
  · have hnot := hnewer b hmem
    simp [hle] at hnot
  · rcases List.mem_cons.mp hmem with rfl | hmem
    · exact le_rfl
    · exact (List.rel_of_pairwise_cons hpairs.2.1 hmem).le

theorem Standing.bucket_mem (h : Standing ops b) : b.bucket ∈ touched ops := by
  obtain ⟨before, after, rfl, -⟩ := h
  rw [touched, List.mem_toFinset, List.mem_filterMap]
  exact ⟨.record b, by simp, rfl⟩

/-- What the compacted log says about the boundaries that were recorded. -/
structure Compacted (ops : List LogOp) (log : L1ResumeLog) : Prop where
  ascending : log.Ascending
  /-- The newest boundaries since the last truncation are all there. -/
  recent : (L1ResumeLog.recent ops).checkpoints.rtake recentCheckpoints <:+ log.checkpoints
  length_le : log.checkpoints.length ≤ recentCheckpoints + (touched ops).card
  resumeFor_none : ∀ t, log.resumeFor t = none ↔ ∀ b, Standing ops b → t < b.l2Block
  /-- A restart goes back from the newest boundary by less than one bucket. -/
  resumeFor_near : ∀ t b, Standing ops b → b.l2Block ≤ t →
    (∀ b', Standing ops b' → b'.l2Block ≤ t → b'.l2Block ≤ b.l2Block) →
    ∃ r, log.resumeFor t = some r ∧ Standing ops r ∧ r.l2Block ≤ b.l2Block ∧
      b.l2Block - r.l2Block < historicalCheckpointL2Interval

/-- **Compaction keeps what a restart needs**, through any orderly series of recordings and truncations. -/
theorem resume_log_compaction (ops : List LogOp) (hops : Orderly 0 ops) : Compacted ops (L1ResumeLog.runOps ops) := by
  obtain ⟨floor, hfollows⟩ := Follows.start.foldl hops
  have hstanding (b : L1ResumeCheckpoint) : b ∈ (ops.foldl L1ResumeLog.keep ⟨[]⟩).checkpoints ↔ Standing ops b := by
    rw [mem_foldl_keep hops Follows.start.ascending Follows.start.atMost]
    simp
  have hlog : (L1ResumeLog.runOps ops).Ascending := hfollows.ascending.sublist hfollows.sublist
  have hmem {b : L1ResumeCheckpoint} (hb : b ∈ (L1ResumeLog.runOps ops).checkpoints) : Standing ops b :=
    (hstanding b).mp (hfollows.sublist.subset hb)
  have hrep {b : L1ResumeCheckpoint} (hb : Standing ops b) : Represents (L1ResumeLog.runOps ops).checkpoints b :=
    hfollows.represented b ((hstanding b).mpr hb)
  refine ⟨hlog, hfollows.recent, hfollows.thinned.length_le fun b hb => (hmem hb).bucket_mem, fun t => ?_, ?_⟩
  · rw [resumeFor_eq_none]
    constructor
    · intro habove b hb
      obtain ⟨r, hr, hle, -⟩ := hrep hb
      exact (habove r hr).trans_le hle
    · intro habove b hb
      exact habove b (hmem hb)
  · intro t b hb hle hnewest
    obtain ⟨x, hx, hxb, hbucket⟩ := hrep hb
    cases hfound : (L1ResumeLog.runOps ops).resumeFor t with
    | none =>
      have := resumeFor_eq_none.mp hfound x hx
      omega
    | some r =>
      obtain ⟨hr, hrt⟩ := L1ResumeLog.resumeFor_mem hfound
      have hxr := resumeFor_newest hlog hfound x hx (by omega)
      have hnear := sub_lt_of_bucket_eq hbucket
      exact ⟨r, rfl, hmem hr, hnewest r (hmem hr) hrt, by omega⟩

/-- Two hundred recordings, four in a bucket, a truncation into the middle and one more. -/
def sampleOps : List LogOp :=
  (List.range 200).map (fun i => .record ⟨i, 0, i * (historicalCheckpointL2Interval / 4)⟩) ++
    [.truncate (150 * (historicalCheckpointL2Interval / 4)), .record ⟨150, 1, 151 * (historicalCheckpointL2Interval / 4)⟩]

theorem resume_log_compaction_sample :
    (L1ResumeLog.runOps sampleOps).checkpoints.length = 98 ∧ Compacted sampleOps (L1ResumeLog.runOps sampleOps) :=
  ⟨by decide +kernel, resume_log_compaction sampleOps (by decide +kernel)⟩

end ArbReth.Sync
