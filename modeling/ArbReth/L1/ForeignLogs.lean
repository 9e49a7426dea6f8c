import ArbReth.L1.Delayed

/-! # Foreign inbox logs

Any L1 account can emit a log with the signature of `InboxMessageDelivered` or of
`InboxMessageDeliveredFromOrigin`.  An `Addition` is a history together with the same history to which such
logs were added, between the others and with any posting transactions.

A body that a foreign log carries is stored under its emitter and never looked up, so readable foreign
logs change nothing (`fetchDelayed_added`).  But every body log of the range is read before any of them is
looked up: one that cannot be read makes the whole read fail (`fetchDelayed_unreadable`). -/

namespace ArbReth.L1

open ArbReth.Derive ArbReth.Runs ArbReth.Buffered

/-- Two histories, one of which has more logs: the logs of the larger one, marked where they were added,
and the transactions of both. -/
structure Addition where
  logs : ℕ → List (Log × Bool)
  before : B256 → Option Transaction
  after : B256 → Option Transaction

namespace Addition

def base (A : Addition) : History where
  logs := fun n => ((A.logs n).filter (fun l => !l.2)).map (·.1)
  transactions := A.before

def full (A : Addition) : History where
  logs := fun n => (A.logs n).map (·.1)
  transactions := A.after

/-- The log was added in the block range. -/
def Added (A : Addition) (fromBlock toBlock : ℕ) (log : Log) : Prop :=
  ∃ n, fromBlock ≤ n ∧ n ≤ toBlock ∧ (log, true) ∈ A.logs n

/-- An event of the bridge in the range names the inbox. -/
def Named (A : Addition) (bridge : Address) (fromBlock toBlock : ℕ) (inbox : Address) : Prop :=
  ∃ log ∈ A.base.getLogs (metaFilter bridge fromBlock toBlock),
    ∃ event, metaEvent log = .ok event ∧ event.inbox = inbox

/-- What was added in the range are inbox logs of emitters that no event of the bridge in the range names;
the transactions that the other logs refer to are the same. -/
structure Foreign (A : Addition) (bridge : Address) (fromBlock toBlock : ℕ) : Prop where
  event : ∀ log, A.Added fromBlock toBlock log →
    log.event = .inboxMessageDelivered ∨ log.event = .inboxMessageDeliveredFromOrigin
  address : ∀ log, A.Added fromBlock toBlock log → ¬ A.Named bridge fromBlock toBlock log.address
  transactions : ∀ log ∈ A.base.getLogs (bodyFilter .inboxMessageDeliveredFromOrigin fromBlock toBlock),
    ∀ txHash, log.transactionHash = some txHash → A.after txHash = A.before txHash

variable {X : Codec} {C : Contracts} {A : Addition} {bridge : Address} {fromBlock toBlock : ℕ}
  {metasFirst : Bool}

/-- The marked logs of a filter. -/
def marked (A : Addition) (f : LogFilter) : List (Log × Bool) :=
  ((blocks f.fromBlock f.toBlock).flatMap A.logs).filter (fun l => f.accepts l.1)

theorem mem_marked {f : LogFilter} {l : Log × Bool} :
    l ∈ A.marked f ↔ (∃ n, f.fromBlock ≤ n ∧ n ≤ f.toBlock ∧ l ∈ A.logs n) ∧ f.accepts l.1 = true := by
  unfold marked
  rw [List.mem_filter, List.mem_flatMap]
  simp only [mem_blocks, and_assoc]

theorem getLogs_full (f : LogFilter) : A.full.getLogs f = (A.marked f).map (·.1) := by
  unfold History.getLogs marked full
  rw [← List.map_flatMap, List.filter_map]
  rfl

theorem getLogs_base (f : LogFilter) : A.base.getLogs f = ((A.marked f).filter (fun l => !l.2)).map (·.1) := by
  unfold History.getLogs marked base
  rw [← List.map_flatMap, List.filter_map, ← List.filter_flatMap, List.filter_filter, List.filter_filter]
  congr 1
  refine List.filter_congr fun l _ => ?_
  exact Bool.and_comm _ _

theorem getLogs_meta (hA : A.Foreign bridge fromBlock toBlock) : A.full.getLogs (metaFilter bridge fromBlock toBlock) =
      A.base.getLogs (metaFilter bridge fromBlock toBlock) := by
  rw [getLogs_full, getLogs_base, List.filter_eq_self.mpr]
  rintro ⟨log, mark⟩ hl
  obtain ⟨⟨n, hfrom, hto, hmem⟩, haccepts⟩ := mem_marked.mp hl
  cases mark with
  | false => rfl
  | true =>
    have hevent : log.event = .messageDelivered := LogFilter.accepts_event haccepts
    rcases hA.event log ⟨n, hfrom, hto, hmem⟩ with h | h
    · rw [hevent] at h
      cases h
    · rw [hevent] at h
      cases h

theorem fetchMetas_full (hA : A.Foreign bridge fromBlock toBlock) :
    fetchMetas A.full bridge fromBlock toBlock = fetchMetas A.base bridge fromBlock toBlock := by
  rw [fetchMetas_eq, fetchMetas_eq, getLogs_meta hA]

/-! ### Bodies -/

/-- Entries of emitters that are never looked up do not show. -/
theorem setAll_unmarked {named : Address → Prop} {entry entry' : Log → Except DeriveError BodyEntry}
    (haddress : ∀ log e, entry log = .ok e → e.1.2 = log.address) {ls : List (Log × Bool)}
    (hsame : ∀ log, (log, false) ∈ ls → entry log = entry' log)
    (hforeign : ∀ log, (log, true) ∈ ls → ¬ named log.address) {es es' : List BodyEntry} {m m' : Bodies}
    (hes : (ls.map (·.1)).mapM entry = .ok es) (hes' : ((ls.filter (fun l => !l.2)).map (·.1)).mapM entry' = .ok es')
    (hm : ∀ i a, named a → m (i, a) = m' (i, a)) :
    ∀ i a, named a → Keyed.setAll m es (i, a) = Keyed.setAll m' es' (i, a) := by
  induction ls generalizing es es' m m' with
  | nil =>
    rw [← Except.ok.inj hes, ← Except.ok.inj hes']
    exact hm
  | cons l ls ih =>
    obtain ⟨log, mark⟩ := l
    have hsame' : ∀ log, (log, false) ∈ ls → entry log = entry' log :=
      fun log' h => hsame log' (List.mem_cons_of_mem _ h)
    have hforeign' : ∀ log, (log, true) ∈ ls → ¬ named log.address :=
      fun log' h => hforeign log' (List.mem_cons_of_mem _ h)
    obtain ⟨e, rest, he, hrest, rfl⟩ := List.forall₂_cons_left_iff.mp (mapM_ok.mp hes)
    cases mark with
    | false =>
      obtain ⟨e', rest', he', hrest', rfl⟩ := List.forall₂_cons_left_iff.mp (mapM_ok.mp hes')
      have hee : e = e' := by
        rw [← hsame log List.mem_cons_self, he] at he'
        exact Except.ok.inj he'
      simp only [Keyed.setAll_cons, hee]
      refine ih hsame' hforeign' (mapM_ok.mpr hrest) (mapM_ok.mpr hrest') fun i a ha => ?_
      by_cases hk : (i, a) = e'.1
      · rw [hk, Function.update_self, Function.update_self]
      · rw [Function.update_of_ne hk, Function.update_of_ne hk, hm i a ha]
    | true =>
      simp only [Keyed.setAll_cons]
      refine ih hsame' hforeign' (mapM_ok.mpr hrest) hes' fun i a ha => ?_
      have hk : (i, a) ≠ e.1 := by
        intro hk
        refine hforeign log List.mem_cons_self ?_
        rwa [← haddress log e he, ← hk]
      rw [Function.update_of_ne hk, hm i a ha]

def markedOrigin (A : Addition) (fromBlock toBlock : ℕ) : List (Log × Bool) :=
  A.marked (bodyFilter .inboxMessageDeliveredFromOrigin fromBlock toBlock)

theorem added_of_mem_marked {event : Event} {log : Log}
    (h : (log, true) ∈ A.marked (bodyFilter event fromBlock toBlock)) :
    A.Added fromBlock toBlock log ∧ log.event = event :=
  ⟨(mem_marked.mp h).1, LogFilter.accepts_event (mem_marked.mp h).2⟩

/-- Every added log can be read. -/
def AddedReadable (A : Addition) (C : Contracts) (fromBlock toBlock : ℕ) : Prop :=
  ∀ log, A.Added fromBlock toBlock log → Readable C A.after log

theorem originBodyEntry_base (hA : A.Foreign bridge fromBlock toBlock) {log : Log}
    (hlog : (log, false) ∈ A.markedOrigin fromBlock toBlock) :
    originBodyEntry C A.after log = originBodyEntry C A.before log := by
  have hbase : log ∈ A.base.getLogs (bodyFilter .inboxMessageDeliveredFromOrigin fromBlock toBlock) := by
    rw [getLogs_base]
    exact List.mem_map.mpr ⟨(log, false), List.mem_filter.mpr ⟨hlog, rfl⟩, rfl⟩
  simp only [originBodyEntry, run_originBodyEntryM]
  cases htx : log.transactionHash with
  | none => rfl
  | some txHash => simp only [found, Option.elim_some, ok_bind, hA.transactions log hbase txHash htx]

/-- A traversal of marked logs succeeds iff that of the unmarked ones does, when the marked ones can be
read. -/
theorem exists_mapM_unmarked (entry entry' : Log → Except DeriveError BodyEntry) {ls : List (Log × Bool)}
    (hsame : ∀ log, (log, false) ∈ ls → entry log = entry' log)
    (hread : ∀ log, (log, true) ∈ ls → ∃ e, entry log = .ok e) : (∃ es, (ls.map (·.1)).mapM entry = .ok es) ↔
      ∃ es, ((ls.filter (fun l => !l.2)).map (·.1)).mapM entry' = .ok es := by
  rw [exists_mapM_ok, exists_mapM_ok]
  constructor
  · intro h log hlog
    obtain ⟨⟨log', mark⟩, hl, rfl⟩ := List.mem_map.mp hlog
    obtain ⟨hl, hmark⟩ := List.mem_filter.mp hl
    cases mark with
    | true => cases hmark
    | false =>
      rw [← hsame log' hl]
      exact h log' (List.mem_map.mpr ⟨_, hl, rfl⟩)
  · intro h log hlog
    obtain ⟨⟨log', mark⟩, hl, rfl⟩ := List.mem_map.mp hlog
    cases mark with
    | true => exact hread log' hl
    | false =>
      rw [hsame log' hl]
      exact h log' (List.mem_map.mpr ⟨_, List.mem_filter.mpr ⟨hl, rfl⟩, rfl⟩)

variable {done : List (Log × Bool)}

/-- The inline bodies of both histories are read or not alike. -/
theorem exists_inline (hread : A.AddedReadable C fromBlock toBlock) :
    (∃ es, (A.full.getLogs (bodyFilter .inboxMessageDelivered fromBlock toBlock)).mapM inlineBodyEntry = .ok es) ↔
      ∃ es, (A.base.getLogs (bodyFilter .inboxMessageDelivered fromBlock toBlock)).mapM inlineBodyEntry = .ok es := by
  rw [getLogs_full, getLogs_base]
  refine exists_mapM_unmarked _ _ (fun _ _ => rfl) fun log hlog => ?_
  obtain ⟨hadded, hevent⟩ := added_of_mem_marked hlog
  exact (hread log hadded).1 hevent

/-- So are the fetched ones, in orders of completion that agree. -/
theorem exists_fetched (hA : A.Foreign bridge fromBlock toBlock) (hread : A.AddedReadable C fromBlock toBlock)
    (hdone : Completes 8 (A.markedOrigin fromBlock toBlock) [] done) :
    (∃ es, (done.map (·.1)).mapM (originBodyEntry C A.after) = .ok es) ↔
      ∃ es, ((done.filter (fun l => !l.2)).map (·.1)).mapM (originBodyEntry C A.before) = .ok es := by
  refine exists_mapM_unmarked _ _ (fun log hlog => ?_) fun log hlog => ?_
  · exact originBodyEntry_base hA (hdone.mem_iff.mp hlog)
  · obtain ⟨hadded, hevent⟩ := added_of_mem_marked (hdone.mem_iff.mp hlog)
    exact (hread log hadded).2 hevent

theorem exists_fetchBodies (hA : A.Foreign bridge fromBlock toBlock) (hread : A.AddedReadable C fromBlock toBlock)
    (hdone : Completes 8 (A.markedOrigin fromBlock toBlock) [] done) :
    (∃ bodies, fetchBodies C A.full fromBlock toBlock (done.map (·.1)) = .ok bodies) ↔
      ∃ bodies, fetchBodies C A.base fromBlock toBlock ((done.filter (fun l => !l.2)).map (·.1)) = .ok bodies := by
  constructor
  · rintro ⟨bodies, h⟩
    obtain ⟨inline, fetched, hinline, hfetched, -⟩ := fetchBodies_ok.mp h
    obtain ⟨inline', hinline'⟩ := (exists_inline hread).mp ⟨inline, hinline⟩
    obtain ⟨fetched', hfetched'⟩ := (exists_fetched hA hread hdone).mp ⟨fetched, hfetched⟩
    exact ⟨_, fetchBodies_ok.mpr ⟨inline', fetched', hinline', hfetched', rfl⟩⟩
  · rintro ⟨bodies, h⟩
    obtain ⟨inline, fetched, hinline, hfetched, -⟩ := fetchBodies_ok.mp h
    obtain ⟨inline', hinline'⟩ := (exists_inline hread).mpr ⟨inline, hinline⟩
    obtain ⟨fetched', hfetched'⟩ := (exists_fetched hA hread hdone).mpr ⟨fetched, hfetched⟩
    exact ⟨_, fetchBodies_ok.mpr ⟨inline', fetched', hinline', hfetched', rfl⟩⟩

theorem fetchBodies_agree (hA : A.Foreign bridge fromBlock toBlock)
    (hdone : Completes 8 (A.markedOrigin fromBlock toBlock) [] done) {bodies bodies' : Bodies}
    (h : fetchBodies C A.full fromBlock toBlock (done.map (·.1)) = .ok bodies)
    (h' : fetchBodies C A.base fromBlock toBlock ((done.filter (fun l => !l.2)).map (·.1)) = .ok bodies')
    (i : ℕ) (a : Address) (ha : A.Named bridge fromBlock toBlock a) : bodies (i, a) = bodies' (i, a) := by
  obtain ⟨inline, fetched, hinline, hfetched, rfl⟩ := fetchBodies_ok.mp h
  obtain ⟨inline', fetched', hinline', hfetched', rfl⟩ := fetchBodies_ok.mp h'
  rw [getLogs_full] at hinline
  rw [getLogs_base] at hinline'
  refine setAll_unmarked (fun _ _ => originBodyEntry_address)
    (fun log hlog => originBodyEntry_base hA (hdone.mem_iff.mp hlog)) (fun log hlog => ?_) hfetched hfetched'
    (fun i a ha => ?_) i a ha
  · exact hA.address log (added_of_mem_marked (hdone.mem_iff.mp hlog)).1
  · refine setAll_unmarked (fun _ _ => inlineBodyEntry_address) (fun _ _ => rfl) (fun log hlog => ?_) hinline
      hinline' (fun _ _ _ => rfl) i a ha
    exact hA.address log (added_of_mem_marked hlog).1

/-! ### Reads -/

/-- Readable foreign logs change nothing, whatever the order in which the fetches complete. -/
theorem fetchDelayed_added (hA : A.Foreign bridge fromBlock toBlock) (hread : A.AddedReadable C fromBlock toBlock)
    (hdone : Completes 8 (A.markedOrigin fromBlock toBlock) [] done) :
    (fetchDelayed X C A.full bridge fromBlock toBlock (done.map (·.1)) metasFirst).toOption =
      (fetchDelayed X C A.base bridge fromBlock toBlock ((done.filter (fun l => !l.2)).map (·.1))
        metasFirst).toOption := by
  have hpair : ∀ {metas bodies bodies'}, fetchMetas A.base bridge fromBlock toBlock = .ok metas →
      fetchBodies C A.full fromBlock toBlock (done.map (·.1)) = .ok bodies →
      fetchBodies C A.base fromBlock toBlock ((done.filter (fun l => !l.2)).map (·.1)) = .ok bodies' →
      (metas.toList.map (·.2)).mapM (pairBody X bodies) =
        (metas.toList.map (·.2)).mapM (pairBody X bodies') := by
    intro metas bodies bodies' hmetas hbodies hbodies'
    refine mapM_congr fun event he => ?_
    obtain ⟨log, hlog, hevent⟩ := mem_fetchMetas hmetas he
    unfold pairBody
    rw [fetchBodies_agree hA hdone hbodies hbodies' _ _ ⟨log, hlog, event, hevent, rfl⟩]
  ext ms
  rw [toOption_eq_some, toOption_eq_some, fetchDelayed_ok, fetchDelayed_ok, fetchMetas_full hA]
  constructor
  · rintro ⟨metas, bodies, hmetas, hbodies, h⟩
    obtain ⟨bodies', hbodies'⟩ := (exists_fetchBodies hA hread hdone).mp ⟨bodies, hbodies⟩
    exact ⟨metas, bodies', hmetas, hbodies', hpair hmetas hbodies hbodies' ▸ h⟩
  · rintro ⟨metas, bodies', hmetas, hbodies', h⟩
    obtain ⟨bodies, hbodies⟩ := (exists_fetchBodies hA hread hdone).mpr ⟨bodies', hbodies'⟩
    exact ⟨metas, bodies, hmetas, hbodies, hpair hmetas hbodies hbodies' ▸ h⟩

theorem originLogs_full : originLogs A.full fromBlock toBlock = (A.markedOrigin fromBlock toBlock).map (·.1) :=
  getLogs_full _

theorem originLogs_base : originLogs A.base fromBlock toBlock =
    ((A.markedOrigin fromBlock toBlock).filter (fun l => !l.2)).map (·.1) := getLogs_base _

theorem outcome_added (hA : A.Foreign bridge fromBlock toBlock)
    (hread : A.AddedReadable C fromBlock toBlock) (r : Option (List DelayedMessage)) :
    Outcome X C A.full bridge fromBlock toBlock r ↔ Outcome X C A.base bridge fromBlock toBlock r := by
  constructor
  · rintro ⟨_, ⟨done, metasFirst, hdone, rfl⟩, rfl⟩
    rw [originLogs_full] at hdone
    obtain ⟨marks, hmarks, rfl⟩ := hdone.lift
    have hbase := (hmarks.filter (fun l => !l.2)).map (·.1)
    rw [← originLogs_base] at hbase
    exact ⟨_, ⟨_, metasFirst, hbase, rfl⟩, (fetchDelayed_added hA hread hmarks).symm⟩
  · rintro ⟨_, ⟨done, metasFirst, hdone, rfl⟩, rfl⟩
    rw [originLogs_base] at hdone
    obtain ⟨marks, hmarks, rfl⟩ := hdone.lift_filter (by decide)
    have hfull := hmarks.map (·.1)
    rw [← originLogs_full] at hfull
    exact ⟨_, ⟨_, metasFirst, hfull, rfl⟩, fetchDelayed_added hA hread hmarks⟩

end Addition

theorem fetchDelayed_unreadable {X : Codec} {C : Contracts} {H : History} {bridge : Address}
    {fromBlock toBlock n : ℕ} {log : Log} (hfrom : fromBlock ≤ n) (hto : n ≤ toBlock) (hlog : log ∈ H.logs n)
    (hbad : ¬ Readable C H.transactions log) (r : Option (List DelayedMessage))
    (h : Outcome X C H bridge fromBlock toBlock r) : r = none := by
  obtain ⟨x, hx, rfl⟩ := h
  cases x with
  | error e => rfl
  | ok ms => exact absurd (hx.readable hfrom hto hlog) hbad

/-- Foreign inbox logs leave a read of the range as it was iff all of them can be read, or the read fails without them
too. -/
theorem foreign_logs_unnoticed_iff (X : Codec) (C : Contracts) (A : Addition) (bridge : Address)
    (fromBlock toBlock : ℕ) (hA : A.Foreign bridge fromBlock toBlock) :
    (∀ r, Outcome X C A.full bridge fromBlock toBlock r ↔ Outcome X C A.base bridge fromBlock toBlock r) ↔
      (∀ log, A.Added fromBlock toBlock log → Readable C A.after log) ∨
        ∀ r, Outcome X C A.base bridge fromBlock toBlock r → r = none := by
  have hfails : ¬ A.AddedReadable C fromBlock toBlock →
      ∀ r, Outcome X C A.full bridge fromBlock toBlock r → r = none := by
    intro hread r hr
    unfold Addition.AddedReadable at hread
    push Not at hread
    obtain ⟨log, ⟨n, hfrom, hto, hlog⟩, hbad⟩ := hread
    exact fetchDelayed_unreadable hfrom hto (List.mem_map.mpr ⟨_, hlog, rfl⟩) hbad r hr
  constructor
  · intro h
    by_cases hread : A.AddedReadable C fromBlock toBlock
    · exact Or.inl hread
    · exact Or.inr fun r hr => hfails hread r ((h r).mpr hr)
  · intro h r
    by_cases hread : A.AddedReadable C fromBlock toBlock
    · exact Addition.outcome_added hA hread r
    · have hbase := h.resolve_left hread
      have hnone : ∀ H : History, (∀ r, Outcome X C H bridge fromBlock toBlock r → r = none) →
          (Outcome X C H bridge fromBlock toBlock r ↔ r = none) := by
        intro H hH
        obtain ⟨x, hx⟩ := exists_fetchDelayed X C H bridge fromBlock toBlock
        refine ⟨hH r, fun hr => ⟨x, hx, ?_⟩⟩
        rw [hr]
        exact hH _ ⟨x, hx, rfl⟩
      rw [hnone _ (hfails hread), hnone _ hbase]

/-- A history without logs, to which one inbox log of the emitter `1` is added in block 7. -/
def loneInboxLog (indexed : List B256) (data : Bytes) : Addition where
  logs := fun n =>
    if n = 7 then
      [({ address := 1
          event := .inboxMessageDelivered
          indexed
          data
          blockNumber := some 7
          logIndex := some 0
          transactionHash := none }, true)]
    else []
  before := fun _ => none
  after := fun _ => none

theorem loneInboxLog_foreign (indexed : List B256) (data : Bytes) : (loneInboxLog indexed data).Foreign 2 7 7 := by
  have hadded : ∀ log, (loneInboxLog indexed data).Added 7 7 log → log.event = .inboxMessageDelivered := by
    rintro log ⟨n, hfrom, hto, hlog⟩
    obtain rfl : n = 7 := by omega
    simp only [loneInboxLog, ↓reduceIte, List.mem_singleton, Prod.mk.injEq, and_true] at hlog
    rw [hlog]
  refine ⟨fun log hlog => Or.inl (hadded log hlog), fun log _ => ?_, fun log hlog => ?_⟩
  · rintro ⟨log', hlog', -⟩
    cases hlog'
  · cases hlog

theorem foreign_logs_unnoticed_iff_readable : (loneInboxLog [0] (List.replicate 64 0)).Foreign 2 7 7 ∧
    ∀ r, Outcome plainCodec plainContracts (loneInboxLog [0] (List.replicate 64 0)).full 2 7 7 r ↔
      Outcome plainCodec plainContracts (loneInboxLog [0] (List.replicate 64 0)).base 2 7 7 r := by
  have hforeign := loneInboxLog_foreign [0] (List.replicate 64 0)
  refine ⟨hforeign, (foreign_logs_unnoticed_iff _ _ _ 2 7 7 hforeign).mpr (Or.inl ?_)⟩
  rintro log ⟨n, hfrom, hto, hlog⟩
  obtain rfl : n = 7 := by omega
  simp only [loneInboxLog, ↓reduceIte, List.mem_singleton, Prod.mk.injEq, and_true] at hlog
  rw [hlog]
  exact ⟨fun _ => ⟨((0, 1), []), by decide +kernel⟩, fun h => by cases h⟩

/-- A foreign log without its indexed topic: the read of the range fails, and without the log it returns
no messages. -/
theorem foreign_log_without_topic_fails : (loneInboxLog [] []).Foreign 2 7 7 ∧
    Outcome plainCodec plainContracts (loneInboxLog [] []).base 2 7 7 (some []) ∧
    ∀ r, Outcome plainCodec plainContracts (loneInboxLog [] []).full 2 7 7 r → r = none := by
  refine ⟨loneInboxLog_foreign [] [], ⟨.ok [], ⟨[], true, .nil, rfl⟩, rfl⟩, ?_⟩
  refine fetchDelayed_unreadable le_rfl le_rfl (List.mem_singleton_self _) fun h => ?_
  obtain ⟨e, he⟩ := h.1 rfl
  cases he

end ArbReth.L1
