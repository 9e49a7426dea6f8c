import ArbReth.L1.Delayed
import ArbReth.L1.DelayedCache

/-! # An inbox in the logs of L1

`History.Delivers` says what it means that an L1 history has delivered the messages of an inbox: every
`MessageDelivered` event of the bridge is about one of them, in its block, and the body it belongs to is
in the logs of that block, and only that body in any other.

Reading a block range then gives the messages delivered in it, in whatever order the transaction fetches
complete, iff every body log of the range can be read (`FetchDelayed.delivered`, `FetchDelayed.ok_iff`). -/

namespace ArbReth.L1

open ArbReth.Derive ArbReth.Runs ArbReth.Buffered

/-- The log has a body for an index and an inbox. -/
def HasBody (C : Contracts) (transactions : B256 → Option Transaction) (log : Log) (key : ℕ × Address)
    (body : Bytes) : Prop :=
  (log.event = .inboxMessageDelivered ∧ inlineBodyEntry log = .ok (key, body)) ∨
    (log.event = .inboxMessageDeliveredFromOrigin ∧ originBodyEntry C transactions log = .ok (key, body))

/-- The body of a log, with its index and inbox. -/
def bodyEntry? (C : Contracts) (transactions : B256 → Option Transaction) (log : Log) : Option BodyEntry :=
  match log.event with
  | .inboxMessageDelivered => (inlineBodyEntry log).toOption
  | .inboxMessageDeliveredFromOrigin => (originBodyEntry C transactions log).toOption
  | _ => none

theorem hasBody_iff {C : Contracts} {transactions : B256 → Option Transaction} {log : Log} {key : ℕ × Address}
    {body : Bytes} : HasBody C transactions log key body ↔ bodyEntry? C transactions log = some (key, body) := by
  unfold HasBody bodyEntry?
  cases log.event <;> simp [toOption_eq_some]

/-- A log of the range has a body for the index and the inbox. -/
def BodyInRange (C : Contracts) (H : History) (fromBlock toBlock : ℕ) (key : ℕ × Address) (body : Bytes) : Prop :=
  ∃ n log, fromBlock ≤ n ∧ n ≤ toBlock ∧ log ∈ H.logs n ∧ HasBody C H.transactions log key body

structure History.Delivers (X : Codec) (C : Contracts) (H : History) (bridge : Address) (inbox : Inbox) :
    Prop where
  /-- An event of the bridge is about a message of the inbox, whose body is in the same block. -/
  event : ∀ n, ∀ log ∈ H.logs n, log.event = .messageDelivered → log.address = bridge →
    ∃ event m, metaEvent log = .ok event ∧ event.intoMessage X m.data = .ok m ∧
      inbox.delivery event.index = some (n, m) ∧
      (∃ log' ∈ H.logs n, HasBody C H.transactions log' (event.index, event.inbox) m.data) ∧
      ∀ n', ∀ log' ∈ H.logs n', ∀ body, HasBody C H.transactions log' (event.index, event.inbox) body →
        body = m.data
  /-- Every message of the inbox has its event. -/
  log : ∀ i n m, inbox.delivery i = some (n, m) →
    ∃ log ∈ H.logs n, log.event = .messageDelivered ∧ log.address = bridge ∧
      ∃ event, metaEvent log = .ok event ∧ event.index = i

variable {X : Codec} {C : Contracts} {H : History} {bridge : Address} {inbox : Inbox}
  {fromBlock toBlock top : ℕ} {done : List Log}

theorem mem_metaLogs {log : Log} : log ∈ H.getLogs (metaFilter bridge fromBlock toBlock) ↔
      (∃ n, fromBlock ≤ n ∧ n ≤ toBlock ∧ log ∈ H.logs n) ∧ log.event = .messageDelivered ∧ log.address = bridge := by
  rw [History.mem_getLogs]
  refine and_congr_right fun _ => ?_
  unfold LogFilter.accepts
  rw [Bool.and_eq_true, Bool.and_eq_true, decide_eq_true_iff]
  simp [metaFilter]

variable {bodies : Bodies} {key : ℕ × Address} {body : Bytes}

section
variable (hdone : Completes 8 (originLogs H fromBlock toBlock) [] done)
  (hbodies : fetchBodies C H fromBlock toBlock done = .ok bodies)
include hdone hbodies

/-- What is found among the bodies of the range is the body of one of its logs. -/
theorem fetchBodies_sound (h : bodies key = some body) : BodyInRange C H fromBlock toBlock key body := by
  obtain ⟨inline, fetched, hinline, hfetched, rfl⟩ := fetchBodies_ok.mp hbodies
  rw [← Keyed.setAll_append] at h
  rcases Keyed.of_setAll h with h | h
  · rcases List.mem_append.mp h with h | h
    · obtain ⟨log, hlog, hentry⟩ := mapM_ok_mem hinline h
      obtain ⟨⟨n, hfrom, hto, hmem⟩, hevent⟩ := mem_bodyLogs.mp hlog
      exact ⟨n, log, hfrom, hto, hmem, Or.inl ⟨hevent, hentry⟩⟩
    · obtain ⟨log, hlog, hentry⟩ := mapM_ok_mem hfetched h
      obtain ⟨⟨n, hfrom, hto, hmem⟩, hevent⟩ := mem_bodyLogs.mp (hdone.mem_iff.mp hlog)
      exact ⟨n, log, hfrom, hto, hmem, Or.inr ⟨hevent, hentry⟩⟩
  · cases h

theorem fetchBodies_complete (h : BodyInRange C H fromBlock toBlock key body) : ∃ body', bodies key = some body' := by
  obtain ⟨inline, fetched, hinline, hfetched, rfl⟩ := fetchBodies_ok.mp hbodies
  obtain ⟨n, log, hfrom, hto, hmem, hbody⟩ := h
  have hentry : (key, body) ∈ inline ++ fetched := by
    rcases hbody with ⟨hevent, hentry⟩ | ⟨hevent, hentry⟩
    · have hlog := mem_bodyLogs.mpr ⟨⟨n, hfrom, hto, hmem⟩, hevent⟩
      obtain ⟨e, he, hentry'⟩ := mem_of_mapM_ok hinline hlog
      cases hentry.symm.trans hentry'
      exact List.mem_append_left _ he
    · have hlog := hdone.mem_iff.mpr (mem_bodyLogs.mpr ⟨⟨n, hfrom, hto, hmem⟩, hevent⟩)
      obtain ⟨e, he, hentry'⟩ := mem_of_mapM_ok hfetched hlog
      cases hentry.symm.trans hentry'
      exact List.mem_append_right _ he
  rw [← Keyed.setAll_append]
  exact Keyed.exists_setAll hentry

/-- When the bodies of a range can be read, a body under a key is found if it is the only one. -/
theorem fetchBodies_lookup {n : ℕ} (hfrom : fromBlock ≤ n) (hto : n ≤ toBlock) {log : Log} (hlog : log ∈ H.logs n) (hbody : HasBody C H.transactions log key body)
    (huniq : ∀ n', ∀ log' ∈ H.logs n', ∀ body', HasBody C H.transactions log' key body' → body' = body) :
    bodies key = some body := by
  obtain ⟨body', hfound⟩ := fetchBodies_complete hdone hbodies ⟨n, log, hfrom, hto, hlog, hbody⟩
  obtain ⟨n', log', -, -, hlog', hbody'⟩ := fetchBodies_sound hdone hbodies hfound
  rw [hfound, huniq n' log' hlog' body' hbody']

end

theorem exists_fetchBodies_of_readable (hdone : Completes 8 (originLogs H fromBlock toBlock) [] done)
    (hread : ∀ n, fromBlock ≤ n → n ≤ toBlock → ∀ log ∈ H.logs n, Readable C H.transactions log) :
    ∃ bodies, fetchBodies C H fromBlock toBlock done = .ok bodies := by
  have hinline : ∃ es,
      (H.getLogs (bodyFilter .inboxMessageDelivered fromBlock toBlock)).mapM inlineBodyEntry = .ok es := by
    refine exists_mapM_ok.mpr fun log hlog => ?_
    obtain ⟨⟨n, hfrom, hto, hmem⟩, hevent⟩ := mem_bodyLogs.mp hlog
    exact (hread n hfrom hto log hmem).1 hevent
  have hfetched : ∃ es, done.mapM (originBodyEntry C H.transactions) = .ok es := by
    refine exists_mapM_ok.mpr fun log hlog => ?_
    obtain ⟨⟨n, hfrom, hto, hmem⟩, hevent⟩ := mem_bodyLogs.mp (hdone.mem_iff.mp hlog)
    exact (hread n hfrom hto log hmem).2 hevent
  obtain ⟨inline, hinline⟩ := hinline
  obtain ⟨fetched, hfetched⟩ := hfetched
  exact ⟨_, fetchBodies_ok.mpr ⟨inline, fetched, hinline, hfetched, rfl⟩⟩

variable {metas : Std.TreeMap ℕ DelayedEvent}

/-- Every event of the metadata of a range is about a message that was delivered in it. -/
theorem delivery_of_meta (hD : H.Delivers X C bridge inbox)
    (hmetas : fetchMetas H bridge fromBlock toBlock = .ok metas) {event : DelayedEvent}
    (he : event ∈ metas.toList.map (·.2)) :
    ∃ n m, inbox.delivery event.index = some (n, m) ∧ fromBlock ≤ n ∧ n ≤ toBlock ∧
      event.intoMessage X m.data = .ok m ∧
      (∃ log ∈ H.logs n, HasBody C H.transactions log (event.index, event.inbox) m.data) ∧
      ∀ n', ∀ log ∈ H.logs n', ∀ body, HasBody C H.transactions log (event.index, event.inbox) body →
        body = m.data := by
  obtain ⟨log, hlog, hevent⟩ := mem_fetchMetas hmetas he
  obtain ⟨⟨n, hfrom, hto, hmem⟩, hkind, haddress⟩ := mem_metaLogs.mp hlog
  obtain ⟨event', m, hevent', hinto, hdelivery, hbody⟩ := hD.event n log hmem hkind haddress
  cases hevent.symm.trans hevent'
  exact ⟨n, m, hdelivery, hfrom, hto, hinto, hbody⟩

/-- Every event of the metadata of a range is paired with its message. -/
theorem pairBody_of_delivers (hD : H.Delivers X C bridge inbox)
    (hdone : Completes 8 (originLogs H fromBlock toBlock) [] done)
    (hbodies : fetchBodies C H fromBlock toBlock done = .ok bodies)
    (hmetas : fetchMetas H bridge fromBlock toBlock = .ok metas) {event : DelayedEvent}
    (he : event ∈ metas.toList.map (·.2)) :
    ∃ n m, pairBody X bodies event = .ok m ∧ inbox.delivery event.index = some (n, m) ∧ fromBlock ≤ n ∧
      n ≤ toBlock := by
  obtain ⟨n, m, hdelivery, hfrom, hto, hinto, ⟨log, hlog, hbody⟩, huniq⟩ := delivery_of_meta hD hmetas he
  refine ⟨n, m, ?_, hdelivery, hfrom, hto⟩
  unfold pairBody
  rw [fetchBodies_lookup hdone hbodies hfrom hto hlog hbody huniq]
  exact hinto

/-- A message delivered in the range has its event in the metadata. -/
theorem exists_meta_of_delivery (hD : H.Delivers X C bridge inbox)
    (hmetas : fetchMetas H bridge fromBlock toBlock = .ok metas) {i n : ℕ} {m : DelayedMessage}
    (hdelivery : inbox.delivery i = some (n, m)) (hfrom : fromBlock ≤ n) (hto : n ≤ toBlock) :
    ∃ event ∈ metas.toList.map (·.2), event.index = i := by
  obtain ⟨log, hlog, hkind, haddress, event, hevent, hindex⟩ := hD.log i n m hdelivery
  obtain ⟨events, hevents, hmetas⟩ := bind_ok.mp (fetchMetas_eq.symm.trans hmetas)
  obtain ⟨event', hmem, hevent'⟩ :=
    mem_of_mapM_ok hevents (mem_metaLogs.mpr ⟨⟨n, hfrom, hto, hlog⟩, hkind, haddress⟩)
  cases hevent.symm.trans hevent'
  rw [← Except.ok.inj hmetas]
  obtain ⟨found, hfound⟩ := Keyed.exists_getElem?_insertAll DelayedEvent.index ∅ hmem
  refine ⟨found, List.mem_map.mpr ⟨(event.index, found), ?_, rfl⟩, ?_⟩
  · exact Std.TreeMap.mem_toList_iff_getElem?_eq_some.mpr hfound
  · rcases Keyed.of_getElem?_insertAll hfound with h | h
    · rw [h.2, hindex]
    · rw [Std.TreeMap.getElem?_emptyc] at h
      cases h

/-- A read that succeeds returns what was delivered in the range. -/
theorem FetchDelayed.delivered (hD : H.Delivers X C bridge inbox) {ms : List DelayedMessage}
    (h : FetchDelayed X C H bridge fromBlock toBlock (.ok ms)) (m : DelayedMessage) :
    m ∈ ms ↔ ∃ n, inbox.delivery m.inboxSeqNum = some (n, m) ∧ fromBlock ≤ n ∧ n ≤ toBlock := by
  obtain ⟨done, metasFirst, hdone, hfetch⟩ := h
  obtain ⟨metas, bodies, hmetas, hbodies, hms⟩ := fetchDelayed_ok.mp hfetch
  constructor
  · intro hm
    obtain ⟨event, he, hm'⟩ := mapM_ok_mem hms hm
    obtain ⟨n, m', hpair, hdelivery, hfrom, hto⟩ := pairBody_of_delivers hD hdone hbodies hmetas he
    cases hm'.symm.trans hpair
    rw [inbox.index _ n m hdelivery]
    exact ⟨n, hdelivery, hfrom, hto⟩
  · rintro ⟨n, hdelivery, hfrom, hto⟩
    obtain ⟨event, he, hindex⟩ := exists_meta_of_delivery hD hmetas hdelivery hfrom hto
    obtain ⟨n', m', hpair, hdelivery', -, -⟩ := pairBody_of_delivers hD hdone hbodies hmetas he
    rw [hindex, hdelivery] at hdelivery'
    cases hdelivery'
    obtain ⟨m'', hm'', hpair'⟩ := mem_of_mapM_ok hms he
    cases hpair.symm.trans hpair'
    exact hm''

end ArbReth.L1
