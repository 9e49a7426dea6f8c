import ArbReth.L1.Inbox

/-! # Reconstruction of delayed messages

What `fetch_delayed` returns for a block range, stated over the logs of the range: the events of the bridge,
read from their logs, and the bodies that the logs of any emitter have under an index and that emitter.

Where the events have distinct indices and every event has a body with the right hash under its index and its
inbox, and no other body there, one message is returned per event, by ascending index (`Rebuilds`).  On any
logs at all, what is returned has a body with the hash that an event with its index names. -/

namespace ArbReth.L1

open ArbReth.Derive ArbReth.Runs ArbReth.Buffered
open ArbReth.Codec (toBe)

/-- The event has its body in the range, and any body there under its index and its inbox has the hash that
it names. -/
def DelayedEvent.Matched (X : Codec) (C : Contracts) (H : History) (fromBlock toBlock : ℕ) (e : DelayedEvent) : Prop :=
  (∃ body, BodyInRange C H fromBlock toBlock (e.index, e.inbox) body) ∧
    ∀ body, BodyInRange C H fromBlock toBlock (e.index, e.inbox) body → X.keccak256 body = e.messageDataHash

/-- The message of an event. -/
structure Rebuilt (X : Codec) (e : DelayedEvent) (m : DelayedMessage) : Prop where
  kind : m.kind = e.kind
  sender : m.sender = e.sender
  blockNumber : m.blockNumber = e.l1Block
  timestamp : m.timestamp = e.timestamp
  inboxSeqNum : m.inboxSeqNum = e.index
  baseFeeL1 : m.baseFeeL1 = e.baseFeeL1
  beforeInboxAcc : m.beforeInboxAcc = e.beforeInboxAcc
  data : X.keccak256 m.data = e.messageDataHash

/-- One message per event, by ascending index. -/
def Rebuilds (X : Codec) (events : List DelayedEvent) (ms : List DelayedMessage) : Prop :=
  ∃ sorted : List DelayedEvent, sorted.Perm events ∧ sorted.Pairwise (fun e e' => e.index < e'.index) ∧
    List.Forall₂ (Rebuilt X) sorted ms

variable {X : Codec} {C : Contracts} {H : History} {bridge : Address} {fromBlock toBlock : ℕ} {done : List Log}

variable {e : DelayedEvent}

theorem intoMessage_ok {body : Bytes} {m : DelayedMessage} (h : e.intoMessage X body = .ok m) : Rebuilt X e m := by
  unfold DelayedEvent.intoMessage at h
  dsimp only at h
  split at h
  · cases h
    exact ⟨rfl, rfl, rfl, rfl, rfl, rfl, rfl, ‹_›⟩
  · cases h

theorem exists_intoMessage {body : Bytes} (h : X.keccak256 body = e.messageDataHash) :
    ∃ m, e.intoMessage X body = .ok m := by
  unfold DelayedEvent.intoMessage
  exact ⟨_, if_pos h⟩

theorem pairBody_ok {bodies : Bodies} {m : DelayedMessage} (h : pairBody X bodies e = .ok m) : Rebuilt X e m := by
  unfold pairBody at h
  split at h
  · cases h
  · exact intoMessage_ok h

/-- A matched event is paired with a body, whatever the order of the fetches. -/
theorem DelayedEvent.Matched.pairBody (h : e.Matched X C H fromBlock toBlock)
    (hdone : Completes 8 (originLogs H fromBlock toBlock) [] done) {bodies : Bodies}
    (hbodies : fetchBodies C H fromBlock toBlock done = .ok bodies) : ∃ m, L1.pairBody X bodies e = .ok m := by
  obtain ⟨⟨body, hbody⟩, hhash⟩ := h
  obtain ⟨body', hfound⟩ := fetchBodies_complete hdone hbodies hbody
  unfold L1.pairBody
  rw [hfound]
  exact exists_intoMessage (hhash body' (fetchBodies_sound hdone hbodies hfound))

/-- Every read returns one message per event, by ascending index; on any logs, every message has a body with the hash
that an event with its index names. -/
theorem delayed_reconstruction (X : Codec) (C : Contracts) (H : History) (bridge : Address) (fromBlock toBlock : ℕ) :
    (∀ events, (H.getLogs (metaFilter bridge fromBlock toBlock)).mapM metaEvent = .ok events →
      (events.map DelayedEvent.index).Nodup →
      (∀ n, fromBlock ≤ n → n ≤ toBlock → ∀ log ∈ H.logs n, Readable C H.transactions log) →
      (∀ e ∈ events, e.Matched X C H fromBlock toBlock) →
      ∀ r, FetchDelayed X C H bridge fromBlock toBlock r → ∃ ms, r = .ok ms ∧ Rebuilds X events ms) ∧
    (∀ ms, FetchDelayed X C H bridge fromBlock toBlock (.ok ms) → ∀ m ∈ ms,
      ∃ log ∈ H.getLogs (metaFilter bridge fromBlock toBlock), ∃ e, metaEvent log = .ok e ∧
        e.index = m.inboxSeqNum ∧ X.keccak256 m.data = e.messageDataHash) := by
  constructor
  · rintro events hevents hnodup hread hmatched r ⟨done, metasFirst, hdone, rfl⟩
    have hmetas : fetchMetas H bridge fromBlock toBlock = .ok (Keyed.insertAll DelayedEvent.index ∅ events) :=
      fetchMetas_eq.trans (bind_ok.mpr ⟨events, hevents, rfl⟩)
    obtain ⟨bodies, hbodies⟩ := exists_fetchBodies_of_readable hdone hread
    have hperm := Keyed.perm_toList_insertAll hnodup
    have hpair : ∀ e ∈ (Keyed.insertAll DelayedEvent.index ∅ events).toList.map (·.2), ∃ m, pairBody X bodies e = .ok m :=
      fun e he => (hmatched e (hperm.mem_iff.mp he)).pairBody hdone hbodies
    obtain ⟨ms, hms⟩ := exists_mapM_ok.mpr hpair
    refine ⟨ms, fetchDelayed_ok.mpr ⟨_, bodies, hmetas, hbodies, hms⟩, _, hperm, ?_, ?_⟩
    · exact Keyed.pairwise_toList_insertAll DelayedEvent.index events
    · exact (mapM_ok.mp hms).imp fun e m hm => pairBody_ok hm
  · rintro ms ⟨done, metasFirst, hdone, hfetch⟩ m hm
    obtain ⟨metas, bodies, hmetas, -, hms⟩ := fetchDelayed_ok.mp hfetch
    obtain ⟨e, he, hpair⟩ := mapM_ok_mem hms hm
    obtain ⟨log, hlog, hevent⟩ := mem_fetchMetas hmetas he
    have hrebuilt := pairBody_ok hpair
    exact ⟨log, hlog, e, hevent, hrebuilt.inboxSeqNum.symm, hrebuilt.data⟩

/-! Two messages of two inboxes, the second one delivered first, one with its body in a transaction; a third
emitter has a body log with one of the indices. -/

namespace TwoInboxes

def eventLog (index : B256) (inbox hash : ℕ) : Log where
  address := 2
  event := .messageDelivered
  indexed := [index, 0]
  data := toBe 32 inbox ++ List.replicate 64 0 ++ toBe 32 hash ++ List.replicate 64 0
  blockNumber := some 1
  logIndex := some 0
  transactionHash := none

def inlineLog (index : B256) (inbox : Address) (byte : UInt8) : Log where
  address := inbox
  event := .inboxMessageDelivered
  indexed := [index]
  data := toBe 32 32 ++ toBe 32 1 ++ [byte]
  blockNumber := some 1
  logIndex := some 1
  transactionHash := none

def originLog (index : B256) (inbox : Address) : Log where
  address := inbox
  event := .inboxMessageDeliveredFromOrigin
  indexed := [index]
  data := []
  blockNumber := some 1
  logIndex := some 2
  transactionHash := some 0

def logs : List Log := [inlineLog 1 7 5, eventLog 1 7 5, inlineLog 1 9 6, originLog 0 8, eventLog 0 8 4]

def history : History := .ofBlocks [[], logs] fun _ => some ⟨[4], none⟩

/-- The events of the two messages. -/
def events : List DelayedEvent := [⟨1, 0, 7, 0, 0, 5, 0, 0, 1⟩, ⟨0, 0, 8, 0, 0, 4, 0, 0, 1⟩]

/-- Every body for an event has the hash that it names. -/
theorem hash_eq {e : DelayedEvent} (he : e ∈ events) {body : Bytes}
    (h : BodyInRange plainContracts history 0 3 (e.index, e.inbox) body) :
    plainCodec.keccak256 body = e.messageDataHash := by
  obtain ⟨n, log, -, -, hlog, hbody⟩ := h
  refine History.forall_logs (P := fun _ log => ∀ entry ∈ bodyEntry? plainContracts history.transactions log,
    ∀ e ∈ events, entry.1 = (e.index, e.inbox) → plainCodec.keccak256 entry.2 = e.messageDataHash)
    ?_ hlog _ (hasBody_iff.mp hbody) e he rfl
  decide +kernel

theorem matched {e : DelayedEvent} (he : e ∈ events) : e.Matched plainCodec plainContracts history 0 3 := by
  refine ⟨?_, fun body h => hash_eq he h⟩
  unfold events at he
  simp only [List.mem_cons, List.not_mem_nil, or_false] at he
  rcases he with rfl | rfl
  · exact ⟨[5], 1, inlineLog 1 7 5, by decide, by decide, by decide, hasBody_iff.mpr (by decide +kernel)⟩
  · exact ⟨[4], 1, originLog 0 8, by decide, by decide, by decide, hasBody_iff.mpr (by decide +kernel)⟩

end TwoInboxes

open TwoInboxes in
theorem delayed_reconstruction_two_inboxes :
    (∀ r, FetchDelayed plainCodec plainContracts history 2 0 3 r → ∃ ms, r = .ok ms ∧ Rebuilds plainCodec events ms) ∧
    ∃ m : DelayedMessage, (∃ log ∈ history.getLogs (metaFilter 2 0 3), ∃ e, metaEvent log = .ok e ∧ e.index = m.inboxSeqNum ∧
      plainCodec.keccak256 m.data = e.messageDataHash) ∧ m.data = [4] := by
  obtain ⟨hcomplete, hsound⟩ := delayed_reconstruction plainCodec plainContracts history 2 0 3
  have hevents : (history.getLogs (metaFilter 2 0 3)).mapM metaEvent = .ok events :=
    toOption_eq_some.mp (by decide +kernel)
  refine ⟨?_, ?_⟩
  · refine hcomplete events hevents (by decide +kernel) (fun _ _ _ _ hlog => ?_) fun e he => matched he
    refine History.forall_logs (P := fun _ log => Readable plainContracts history.transactions log) ?_ hlog
    decide +kernel
  · have hfetch : FetchDelayed plainCodec plainContracts history 2 0 3
        (.ok [⟨0, 0, 1, 0, 0, 0, [4], 0⟩, ⟨0, 0, 1, 0, 1, 0, [5], 0⟩]) :=
      ⟨_, true, Completes.inOrder (by decide) _, toOption_eq_some.mp (by decide +kernel)⟩
    exact ⟨_, hsound _ hfetch _ List.mem_cons_self, rfl⟩

end ArbReth.L1
