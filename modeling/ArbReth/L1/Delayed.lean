import ArbReth.L1.Logs
import ArbReth.Lib.Buffered

/-! # The delayed inbox

`DelayedInboxReader::fetch_delayed` (`arb-reth-l1/src/delayed.rs`) reconstructs the delayed messages of a
block range.  The bridge's `MessageDelivered` events give the metadata; the bodies come from the
`InboxMessageDelivered` and `InboxMessageDeliveredFromOrigin` logs of every emitter, the second kind
through the posting transaction, eight fetches at a time.  A body is paired with its metadata by index
and inbox address.

The order in which the fetches complete and which of two failing scans is reported are arguments of
`fetchDelayedM`, which asks an execution client; `fetchDelayed` is this program over an L1 history, and
`FetchDelayed` is what it may return. -/

namespace ArbReth.L1

open ArbReth.Derive ArbReth.Runs ArbReth.Buffered ArbReth.Requests
open ArbReth.Codec (ofBe)

/-- A `MessageDelivered` event with the L1 block it was emitted in. -/
structure DelayedEvent where
  index : ℕ
  beforeInboxAcc : B256
  inbox : Address
  kind : UInt8
  sender : Address
  messageDataHash : B256
  baseFeeL1 : ℕ
  timestamp : ℕ
  l1Block : ℕ
deriving DecidableEq, Repr

/-- The message of an event and its body, whose hash is checked. -/
def DelayedEvent.intoMessage (X : Codec) (e : DelayedEvent) (body : Bytes) :
    Except DeriveError DelayedMessage :=
  let index := e.index
  let msg : DelayedMessage :=
    { kind := e.kind
      sender := e.sender
      blockNumber := e.l1Block
      timestamp := e.timestamp
      inboxSeqNum := index
      baseFeeL1 := e.baseFeeL1
      data := body
      beforeInboxAcc := e.beforeInboxAcc }
  if msg.messageDataHash X = e.messageDataHash then .ok msg
  else .error (.blob s!"delayed body hash mismatch at index {index}")

/-! ### Parsing -/

def topicU64 (log : Log) (what : String) : Except DeriveError ℕ :=
  (log.indexed[0]?).elim (.error (.missing what)) fun t => .ok (topicValue t)

def parseMessageDelivered (indexed : List B256) (data : Bytes) (l1Block : ℕ) :
    Except DeriveError DelayedEvent :=
  match indexed with
  | index :: beforeInboxAcc :: _ =>
    if data.length ≠ 6 * 32 then .error (.batch (.eventDataWrongLen data.length))
    else
      .ok
        { index := topicValue index
          beforeInboxAcc
          inbox := BitVec.ofNat 160 (ofBe ((wordAt data 0).drop 12))
          kind := (wordAt data 1).getD 31 0
          sender := BitVec.ofNat 160 (ofBe ((wordAt data 2).drop 12))
          messageDataHash := BitVec.ofNat 256 (ofBe (wordAt data 3))
          baseFeeL1 := ofBe (wordAt data 4)
          timestamp := u64Word data 5
          l1Block }
  | _ => .error (.missing "MessageDelivered indexed topics")

def parseInboxMessageData : Bytes → Except DeriveError Bytes :=
  abiBytes "InboxMessageDelivered data head" "InboxMessageDelivered length overflow"
    "InboxMessageDelivered body"

/-! ### Metadata -/

def metaFilter (bridge : Address) (fromBlock toBlock : ℕ) : LogFilter where
  address := some bridge
  event := .messageDelivered
  topic1 := none
  fromBlock
  toBlock

def metaEvent (log : Log) : Except DeriveError DelayedEvent :=
  match log.blockNumber with
  | none => .error (.missing "MessageDelivered block_number")
  | some l1Block => parseMessageDelivered log.indexed log.data l1Block

def fetchMetasM (bridge : Address) (fromBlock toBlock : ℕ) : Reads (Std.TreeMap ℕ DelayedEvent) := do
  let logs ← getLogs (metaFilter bridge fromBlock toBlock)
  let events ← .done (logs.mapM metaEvent)
  return Keyed.insertAll DelayedEvent.index ∅ events

def fetchMetas (H : History) (bridge : Address) (fromBlock toBlock : ℕ) :
    Except DeriveError (Std.TreeMap ℕ DelayedEvent) := H.run (fetchMetasM bridge fromBlock toBlock)

/-! ### Bodies -/

/-- A body with the index and the emitter it is stored under. -/
abbrev BodyEntry := (ℕ × Address) × Bytes

abbrev Bodies := ℕ × Address → Option Bytes

/-- The body logs of a range carry no filter on the emitter. -/
def bodyFilter (event : Event) (fromBlock toBlock : ℕ) : LogFilter where
  address := none
  event
  topic1 := none
  fromBlock
  toBlock

def inlineBodyEntry (log : Log) : Except DeriveError BodyEntry := do
  let index ← topicU64 log "InboxMessageDelivered messageNum"
  let data ← parseInboxMessageData log.data
  .ok ((index, log.address), data)

def fetchFromOriginBodyM (C : Contracts) (log : Log) : Reads Bytes := do
  let tx ← logTransaction "from-origin transaction" log
  .done (C.sendL2MessageFromOrigin.abiDecode tx.input)

def originBodyEntryM (C : Contracts) (log : Log) : Reads BodyEntry := do
  let index ← .done (topicU64 log "InboxMessageDeliveredFromOrigin messageNum")
  let data ← fetchFromOriginBodyM C log
  return ((index, log.address), data)

def originBodyEntry (C : Contracts) (transactions : B256 → Option Transaction) : Log → Except DeriveError BodyEntry :=
  fun log => History.run ⟨fun _ => [], transactions⟩ (originBodyEntryM C log)

/-- A program whose requests are numbered: 0 are the scans, `i + 1` is the `i`th transaction fetch to complete. -/
abbrev Numbered := Asks (ℕ × Request) (fun q => q.2.Answer) DeriveError

def numbered {α : Type} (i : ℕ) (x : Reads α) : Numbered α := x.rename fun q => (i, q)

/-- `order` is the order in which the transaction fetches complete. -/
def fetchBodiesM (C : Contracts) (fromBlock toBlock : ℕ) (order : List Log → List Log) (inlineFirst : Bool) :
    Numbered Bodies := do
  let scans ← .join inlineFirst (numbered 0 (getLogs (bodyFilter .inboxMessageDelivered fromBlock toBlock)))
    (numbered 0 (getLogs (bodyFilter .inboxMessageDeliveredFromOrigin fromBlock toBlock))) pure
  let inline ← .done (scans.1.mapM inlineBodyEntry)
  let fetched ← (order scans.2).zipIdx.mapM fun p => numbered (p.2 + 1) (originBodyEntryM C p.1)
  return Keyed.setAll (Keyed.setAll (fun _ => none) inline) fetched

def fetchBodies (C : Contracts) (H : History) (fromBlock toBlock : ℕ) (done : List Log) : Except DeriveError Bodies :=
  (fetchBodiesM C fromBlock toBlock (fun _ => done) true).eval fun q : ℕ × Request => H.answer q.2

/-! ### The join -/

def pairBody (X : Codec) (bodies : Bodies) (event : DelayedEvent) : Except DeriveError DelayedMessage :=
  match bodies (event.index, event.inbox) with
  | none => .error (.missing "delayed message body for (index, inbox)")
  | some body => event.intoMessage X body

def fetchDelayedM (X : Codec) (C : Contracts) (bridge : Address) (fromBlock toBlock : ℕ)
    (order : List Log → List Log) (metasFirst inlineFirst : Bool) : Numbered (List DelayedMessage) :=
  .join metasFirst (numbered 0 (fetchMetasM bridge fromBlock toBlock)) (fetchBodiesM C fromBlock toBlock order inlineFirst)
    fun joined => .done ((joined.1.toList.map (·.2)).mapM (pairBody X joined.2))

/-- `done` is the order in which the transaction fetches complete. -/
def fetchDelayed (X : Codec) (C : Contracts) (H : History) (bridge : Address) (fromBlock toBlock : ℕ)
    (done : List Log) (metasFirst : Bool) : Except DeriveError (List DelayedMessage) :=
  (fetchDelayedM X C bridge fromBlock toBlock (fun _ => done) metasFirst true).eval fun q : ℕ × Request => H.answer q.2

def originLogs (H : History) (fromBlock toBlock : ℕ) : List Log :=
  H.getLogs (bodyFilter .inboxMessageDeliveredFromOrigin fromBlock toBlock)

/-- What `fetch_delayed` may return. -/
def FetchDelayed (X : Codec) (C : Contracts) (H : History) (bridge : Address) (fromBlock toBlock : ℕ)
    (r : Except DeriveError (List DelayedMessage)) : Prop :=
  ∃ done metasFirst, Completes 8 (originLogs H fromBlock toBlock) [] done ∧
    fetchDelayed X C H bridge fromBlock toBlock done metasFirst = r

/-- Success with some messages, or failure. -/
def Outcome (X : Codec) (C : Contracts) (H : History) (bridge : Address) (fromBlock toBlock : ℕ)
    (r : Option (List DelayedMessage)) : Prop :=
  ∃ x, FetchDelayed X C H bridge fromBlock toBlock x ∧ x.toOption = r

/-- The body in the log can be read. -/
def Readable (C : Contracts) (transactions : B256 → Option Transaction) (log : Log) : Prop :=
  (log.event = .inboxMessageDelivered → ∃ e, inlineBodyEntry log = .ok e) ∧
  (log.event = .inboxMessageDeliveredFromOrigin → ∃ e, originBodyEntry C transactions log = .ok e)

variable {X : Codec} {C : Contracts} {H : History} {bridge : Address} {fromBlock toBlock : ℕ}
  {done : List Log} {metasFirst : Bool}

theorem fetchMetas_eq : fetchMetas H bridge fromBlock toBlock =
    (H.getLogs (metaFilter bridge fromBlock toBlock)).mapM metaEvent >>= fun events =>
      .ok (Keyed.insertAll DelayedEvent.index ∅ events) := by
  simp only [fetchMetas, fetchMetasM, History.run_bind, History.run_getLogs, History.run_done, History.run_pure, ok_bind]

theorem run_originBodyEntryM (log : Log) : H.run (originBodyEntryM C log) = (do
    let index ← topicU64 log "InboxMessageDeliveredFromOrigin messageNum"
    let txHash ← found "log transaction_hash" log.transactionHash
    let tx ← found "from-origin transaction" (H.transactions txHash)
    let data ← C.sendL2MessageFromOrigin.abiDecode tx.input
    .ok ((index, log.address), data)) := by
  simp only [originBodyEntryM, fetchFromOriginBodyM, logTransaction, History.run_bind, History.run_done,
    History.run_pure, History.run_getTransactionByHash, ok_bind, bind_assoc]

theorem eval_numbered {α : Type} (i : ℕ) (x : Reads α) :
    (numbered i x).eval (fun q : ℕ × Request => H.answer q.2) = H.run x :=
  Asks.eval_rename (A := fun q : ℕ × Request => q.2.Answer) (fun q => (i, q)) x

theorem fetchBodies_ok {bodies : Bodies} : fetchBodies C H fromBlock toBlock done = .ok bodies ↔ ∃ inline fetched,
        (H.getLogs (bodyFilter .inboxMessageDelivered fromBlock toBlock)).mapM inlineBodyEntry = .ok inline ∧
        done.mapM (originBodyEntry C H.transactions) = .ok fetched ∧
        Keyed.setAll (Keyed.setAll (fun _ => none) inline) fetched = bodies := by
  have hfetched : (done.zipIdx.mapM fun p => H.run (originBodyEntryM C p.1)) =
      done.mapM (originBodyEntry C H.transactions) := by
    rw [← mapM_zipIdx (originBodyEntry C H.transactions)]
    simp only [originBodyEntry, run_originBodyEntryM]
  simp only [fetchBodies, fetchBodiesM, Asks.eval_bind, Asks.eval, eval_numbered, Asks.eval_mapM, History.run_getLogs,
    tryJoin, ok_bind, Asks.eval_pure, hfetched]
  simp only [bind_ok, Except.ok.injEq, exists_and_left]

theorem fetchDelayed_ok {ms : List DelayedMessage} :
    fetchDelayed X C H bridge fromBlock toBlock done metasFirst = .ok ms ↔
      ∃ metas bodies, fetchMetas H bridge fromBlock toBlock = .ok metas ∧
        fetchBodies C H fromBlock toBlock done = .ok bodies ∧
        (metas.toList.map (·.2)).mapM (pairBody X bodies) = .ok ms := by
  rw [fetchDelayed, fetchDelayedM, Asks.eval, eval_numbered, bind_ok]
  constructor
  · rintro ⟨⟨metas, bodies⟩, hjoin, h⟩
    exact ⟨metas, bodies, (tryJoin_ok.mp hjoin).1, (tryJoin_ok.mp hjoin).2, h⟩
  · rintro ⟨metas, bodies, hmetas, hbodies, h⟩
    exact ⟨(metas, bodies), tryJoin_ok.mpr ⟨hmetas, hbodies⟩, h⟩

theorem inlineBodyEntry_address {log : Log} {e : BodyEntry} (h : inlineBodyEntry log = .ok e) :
    e.1.2 = log.address := by
  obtain ⟨index, -, h⟩ := bind_ok.mp h
  obtain ⟨data, -, h⟩ := bind_ok.mp h
  rw [← Except.ok.inj h]

variable {transactions : B256 → Option Transaction}

theorem originBodyEntry_address {log : Log} {e : BodyEntry}
    (h : originBodyEntry C transactions log = .ok e) : e.1.2 = log.address := by
  rw [originBodyEntry, run_originBodyEntryM] at h
  simp only [bind_ok, Except.ok.injEq] at h
  obtain ⟨index, -, txHash, -, tx, -, data, -, rfl⟩ := h
  rfl

instance {log : Log} : Decidable (Readable C transactions log) :=
  decidable_of_iff ((log.event = .inboxMessageDelivered → (inlineBodyEntry log).isOk) ∧
    (log.event = .inboxMessageDeliveredFromOrigin → (originBodyEntry C transactions log).isOk))
    (by simp only [Readable, isOk_iff])

theorem mem_bodyLogs {event : Event} {log : Log} : log ∈ H.getLogs (bodyFilter event fromBlock toBlock) ↔
      (∃ n, fromBlock ≤ n ∧ n ≤ toBlock ∧ log ∈ H.logs n) ∧ log.event = event := by
  rw [History.mem_getLogs]
  refine and_congr_right fun _ => ⟨LogFilter.accepts_event, fun h => ?_⟩
  simp [LogFilter.accepts, bodyFilter, h]

/-- A read that succeeds has read every body log of its range. -/
theorem FetchDelayed.readable {ms : List DelayedMessage} (h : FetchDelayed X C H bridge fromBlock toBlock (.ok ms))
    {n : ℕ} {log : Log} (hfrom : fromBlock ≤ n) (hto : n ≤ toBlock) (hlog : log ∈ H.logs n) :
    Readable C H.transactions log := by
  obtain ⟨done, metasFirst, hdone, hfetch⟩ := h
  obtain ⟨metas, bodies, -, hbodies, -⟩ := fetchDelayed_ok.mp hfetch
  obtain ⟨inline, fetched, hinline, hfetched, -⟩ := fetchBodies_ok.mp hbodies
  refine ⟨fun hevent => exists_mapM_ok.mp ⟨inline, hinline⟩ log ?_, fun hevent => ?_⟩
  · exact mem_bodyLogs.mpr ⟨⟨n, hfrom, hto, hlog⟩, hevent⟩
  · refine exists_mapM_ok.mp ⟨fetched, hfetched⟩ log (hdone.mem_iff.mpr ?_)
    exact mem_bodyLogs.mpr ⟨⟨n, hfrom, hto, hlog⟩, hevent⟩

theorem exists_fetchDelayed (X : Codec) (C : Contracts) (H : History) (bridge : Address)
    (fromBlock toBlock : ℕ) : ∃ r, FetchDelayed X C H bridge fromBlock toBlock r :=
  ⟨_, _, true, Completes.inOrder (by decide) _, rfl⟩

/-- Every event of the metadata comes from a log of the bridge. -/
theorem mem_fetchMetas {metas : Std.TreeMap ℕ DelayedEvent} (h : fetchMetas H bridge fromBlock toBlock = .ok metas)
    {event : DelayedEvent} (he : event ∈ metas.toList.map (·.2)) :
    ∃ log ∈ H.getLogs (metaFilter bridge fromBlock toBlock), metaEvent log = .ok event := by
  rw [fetchMetas_eq] at h
  obtain ⟨events, hevents, h⟩ := bind_ok.mp h
  obtain ⟨⟨k, e⟩, hmem, rfl⟩ := List.mem_map.mp he
  rw [← Except.ok.inj h] at hmem
  exact mapM_ok_mem hevents (Keyed.mem_toList_insertAll hmem).1

end ArbReth.L1
