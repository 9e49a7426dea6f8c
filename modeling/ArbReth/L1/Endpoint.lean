import ArbReth.L1.Derive
import ArbReth.Derive.Blob

/-! # Readers over an endpoint

The readers of the other modules take their answers from a fixed L1 history.  Here they take them from an endpoint and a
beacon node (`arb-reth-l1/src/beacon.rs`): every request is answered or fails in transport, which is `L1Error::Rpc`.

An `Endpoint` is what the requests of one piece of work get.  No piece makes a request twice, apart from
the numbered attempts of the beacon client, and different pieces have different endpoints (`ℕ → Endpoint`
where one function does several), so an endpoint may answer the same request differently each time.

`Endpoint.Complete` is an endpoint that fails in transport or gives the true answer, `Endpoint.Lagging` one
that may in addition not know yet what it is asked for.  With complete endpoints every reader does what
the reader of the history does, or fails in transport (`resolveBatchesAt_interrupts`,
`deriveFromResolvedCached_interrupts`). -/

namespace ArbReth.L1

open ArbReth.Derive ArbReth.Runs ArbReth.Buffered ArbReth.Interrupted ArbReth.Requests

/-! ### Endpoints -/

structure BlobSidecar where
  versionedHash : B256
  blob : Blob

/-- The outcome of one request to the beacon node.  Network errors, rate limits and server errors are transient. -/
inductive HttpAnswer where
  | success (sidecars : List BlobSidecar)
  | transient
  | permanent

/-- An execution-layer endpoint and a beacon node.  `none` is a transport failure. -/
structure Endpoint where
  getLogs : LogFilter → Option (List Log)
  getTransactionByHash : B256 → Option (Option Transaction)
  /-- The timestamp of a block. -/
  getBlockByNumber : ℕ → Option (Option ℕ)
  /-- The sidecars of a slot, by the number of the attempt. -/
  getBlobSidecars : ℕ → ℕ → HttpAnswer

/-- L1 as it is.  There are no transactions in its first block. -/
structure Chain extends History where
  timestamp : ℕ → Option ℕ
  sidecars : ℕ → List BlobSidecar
  genesis : logs 0 = []

/-- What is answered is true. -/
structure Endpoint.Complete (chain : Chain) (P : Endpoint) : Prop where
  getLogs : ∀ f logs, P.getLogs f = some logs → logs = chain.getLogs f
  getTransactionByHash : ∀ hash tx, P.getTransactionByHash hash = some tx → tx = chain.transactions hash
  getBlockByNumber : ∀ n time, P.getBlockByNumber n = some time → time = chain.timestamp n
  getBlobSidecars : ∀ attempt slot sidecars, P.getBlobSidecars attempt slot = .success sidecars →
    sidecars = chain.sidecars slot

/-- What is answered is true, except that a transaction, a block or a sidecar may be reported as not found
although it exists. -/
structure Endpoint.Lagging (chain : Chain) (P : Endpoint) : Prop where
  getLogs : ∀ f logs, P.getLogs f = some logs → logs = chain.getLogs f
  getTransactionByHash : ∀ hash tx, P.getTransactionByHash hash = some tx →
    tx = none ∨ tx = chain.transactions hash
  getBlockByNumber : ∀ n time, P.getBlockByNumber n = some time → time = none ∨ time = chain.timestamp n
  getBlobSidecars : ∀ attempt slot sidecars, P.getBlobSidecars attempt slot = .success sidecars →
    sidecars.Sublist (chain.sidecars slot)

theorem Endpoint.Complete.lagging {chain : Chain} {P : Endpoint} (h : P.Complete chain) : P.Lagging chain where
  getLogs := h.getLogs
  getTransactionByHash hash tx htx := Or.inr (h.getTransactionByHash hash tx htx)
  getBlockByNumber n time htime := Or.inr (h.getBlockByNumber n time htime)
  getBlobSidecars attempt slot sidecars hs := by rw [h.getBlobSidecars attempt slot sidecars hs]

/-- An endpoint that answers every request. -/
def Chain.endpoint (chain : Chain) : Endpoint where
  getLogs f := some (chain.getLogs f)
  getTransactionByHash hash := some (chain.transactions hash)
  getBlockByNumber n := some (chain.timestamp n)
  getBlobSidecars _ slot := .success (chain.sidecars slot)

theorem Chain.endpoint_complete (chain : Chain) : chain.endpoint.Complete chain where
  getLogs _ _ h := (Option.some.inj h).symm
  getTransactionByHash _ _ h := (Option.some.inj h).symm
  getBlockByNumber _ _ h := (Option.some.inj h).symm
  getBlobSidecars _ _ _ h := (HttpAnswer.success.inj h).symm

namespace Endpoint

/-- A failure in transport. -/
def reply {α : Type} (answer : Option α) : Except DeriveError α := answer.elim (.error .rpc) .ok

def answer (P : Endpoint) : ∀ q : Request, Except DeriveError q.Answer
  | .getLogs f => reply (P.getLogs f)
  | .getTransactionByHash hash => reply (P.getTransactionByHash hash)

end Endpoint

section Requests

variable {chain : Chain} {P : Endpoint}

theorem reply_interrupts {α : Type} {answer : Option α} {truth : α} (h : ∀ a, answer = some a → a = truth) :
    Interrupts .rpc (Endpoint.reply answer) (.ok truth) := by
  cases answer with
  | none => exact Or.inl rfl
  | some a => exact Or.inr (congrArg _ (h a rfl))

theorem answer_interrupts (h : P.Complete chain) (q : Request) :
    Interrupts .rpc (P.answer q) (chain.toHistory.answer q) := by
  cases q with
  | getLogs f => exact reply_interrupts (h.getLogs f)
  | getTransactionByHash hash => exact reply_interrupts (h.getTransactionByHash hash)

end Requests

/-! ### Blobs -/

structure BeaconClient where
  genesisTime : ℕ
  secondsPerSlot : ℕ

def BeaconClient.slotForTimestamp (beacon : BeaconClient) (ts : ℕ) : ℕ :=
  (ts - beacon.genesisTime) / beacon.secondsPerSlot

/-- The attempts still to make, from attempt number `attempt` on. -/
def Endpoint.retrySidecars (P : Endpoint) (slot : ℕ) : ℕ → ℕ → Except DeriveError (List BlobSidecar)
  | 0, _ => .error .rpc
  | left + 1, attempt =>
    match P.getBlobSidecars attempt slot with
    | .success sidecars => .ok sidecars
    | .permanent => .error .rpc
    | .transient => P.retrySidecars slot left (attempt + 1)

def Endpoint.blobSidecars (P : Endpoint) (slot : ℕ) : Except DeriveError (List BlobSidecar) :=
  P.retrySidecars slot 12 1

/-- The `Debug` form of a decoding error. -/
def blobDecodeErrorText : BlobDecodeError → String
  | .spareBits bits => s!"SpareBits({bits})"
  | .rlp what => s!"Rlp(\"{what}\")"

/-- The part of `blob_batch_payload` after the sidecars are there. -/
def blobsPayload (versionedHashes : List B256) (sidecars : List BlobSidecar) : Except DeriveError Bytes := do
  let blobs ← versionedHashes.mapM fun vh =>
    ((sidecars.find? fun s => decide (s.versionedHash = vh)).map (·.blob)).elim
      (.error (.missing "blob sidecar for versioned hash")) .ok
  (decodeBlobs blobs).mapError fun e => .blob (blobDecodeErrorText e)

def Endpoint.resolveBlobPayload (P : Endpoint) (beacon : BeaconClient) (blockNumber : ℕ)
    (versionedHashes : List B256) : Except DeriveError Bytes := do
  let timestamp ← reply (P.getBlockByNumber blockNumber)
  let timestamp ← found "L1 block" timestamp
  let sidecars ← P.blobSidecars (beacon.slotForTimestamp timestamp)
  blobsPayload versionedHashes sidecars

/-- The payload as L1 has it. -/
def Chain.resolveBlobPayload (chain : Chain) (beacon : BeaconClient) (blockNumber : ℕ)
    (versionedHashes : List B256) : Except DeriveError Bytes := do
  let timestamp ← found "L1 block" (chain.timestamp blockNumber)
  blobsPayload versionedHashes (chain.sidecars (beacon.slotForTimestamp timestamp))

section Blobs

variable {chain : Chain} {P : Endpoint}

theorem blobSidecars_interrupts (h : P.Complete chain) (slot : ℕ) :
    Interrupts .rpc (P.blobSidecars slot) (.ok (chain.sidecars slot)) := by
  have hretry : ∀ left attempt, Interrupts .rpc (P.retrySidecars slot left attempt)
      (.ok (chain.sidecars slot)) := by
    intro left
    induction left with
    | zero => exact fun _ => Or.inl rfl
    | succ left ih =>
      intro attempt
      unfold Endpoint.retrySidecars
      cases ha : P.getBlobSidecars attempt slot with
      | success sidecars =>
        rw [h.getBlobSidecars attempt slot sidecars ha]
        exact Or.inr rfl
      | permanent => exact Or.inl rfl
      | transient => exact ih (attempt + 1)
  exact hretry 12 1

theorem resolveBlobPayload_interrupts (h : P.Complete chain) (beacon : BeaconClient) (blockNumber : ℕ)
    (versionedHashes : List B256) : Interrupts .rpc (P.resolveBlobPayload beacon blockNumber versionedHashes)
      (chain.resolveBlobPayload beacon blockNumber versionedHashes) := by
  refine (reply_interrupts (h.getBlockByNumber blockNumber)).bind (g := fun timestamp => found "L1 block" timestamp >>=
    fun timestamp => blobsPayload versionedHashes (chain.sidecars (beacon.slotForTimestamp timestamp))) fun _ _ => ?_
  exact (Interrupts.refl DeriveError.rpc _).bind fun _ _ => (blobSidecars_interrupts h _).bind fun _ _ => .refl _ _

end Blobs

/-! ### Batches -/

namespace SequencerInboxReader

/-- The answers of an endpoint; with a beacon client it retrieves blobs. -/
def answerAt (P : Endpoint) (beacon : Option BeaconClient) :
    ∀ q : ResolveRequest, Except DeriveError q.Answer
  | .inl q => P.answer q
  | .inr (blockNumber, versionedHashes) =>
    beacon.elim (.error .rpc) fun beacon => P.resolveBlobPayload beacon blockNumber versionedHashes

variable (S : SequencerInboxReader)

/-- `N i` answers the requests with number `i`. -/
def resolveBatchesAt (N : ℕ → Endpoint) (beacon : Option BeaconClient) (fromBlock toBlock : ℕ) :
    Except DeriveError (List (DeliveredBatch × Bytes)) :=
  (S.resolveBatchesM beacon.isSome fromBlock toBlock).eval fun q : ℕ × ResolveRequest => answerAt (N q.1) beacon q.2

def statsForReportedBatchAt (P : Endpoint) (X : Codec) (l1Block seqNum : ℕ) (dataHash : B256) :
    Except DeriveError BatchDataStats :=
  (S.statsForReportedBatchM X l1Block seqNum dataHash).eval P.answer

variable {S} {chain : Chain} (hS : S.history = chain.toHistory)

include hS

theorem statsForReportedBatchAt_interrupts {P : Endpoint} (h : P.Complete chain) (X : Codec) (l1Block seqNum : ℕ)
    (dataHash : B256) : Interrupts .rpc (S.statsForReportedBatchAt P X l1Block seqNum dataHash)
      (S.statsForReportedBatch X l1Block seqNum dataHash) := by
  rw [statsForReportedBatch, hS]
  exact Asks.eval_interrupts (answer_interrupts h) _

theorem resolveBatchesAt_interrupts {N : ℕ → Endpoint} (hN : ∀ i, (N i).Complete chain)
    (beacon : Option BeaconClient) (fromBlock toBlock : ℕ) :
    Interrupts .rpc (S.resolveBatchesAt N beacon fromBlock toBlock)
      (S.resolveBatches (beacon.map chain.resolveBlobPayload) fromBlock toBlock) := by
  rw [resolveBatches, Option.isSome_map]
  refine Asks.eval_interrupts (fun ⟨i, q⟩ => ?_) _
  cases q with
  | inl q =>
    change Interrupts .rpc ((N i).answer q) (S.history.answer q)
    rw [hS]
    exact answer_interrupts (hN i) q
  | inr q =>
    cases beacon with
    | none => exact .refl _ _
    | some beacon => exact resolveBlobPayload_interrupts (hN i) beacon q.1 q.2

end SequencerInboxReader

/-! ### Delayed messages -/

/-- How the concurrent parts of one `fetch_delayed` run: the order of the transaction fetches, and which failing scan
is reported. -/
structure ReadSchedule where
  order : List Log → List Log
  completes : ∀ logs, Completes 8 logs [] (order logs)
  metasFirst : Bool
  inlineFirst : Bool

/-- `N i` answers the requests with number `i`. -/
def fetchDelayedAt (X : Codec) (C : Contracts) (N : ℕ → Endpoint) (bridge : Address) (fromBlock toBlock : ℕ)
    (sched : ReadSchedule) : Except DeriveError (List DelayedMessage) :=
  (fetchDelayedM X C bridge fromBlock toBlock sched.order sched.metasFirst sched.inlineFirst).eval
    fun q : ℕ × Request => (N q.1).answer q.2

/-- Reading a range gives what the history says, for the order in which the fetches complete. -/
theorem fetchDelayedAt_interrupts {chain : Chain} {N : ℕ → Endpoint} (hN : ∀ i, (N i).Complete chain) (X : Codec)
    (C : Contracts) (bridge : Address) (fromBlock toBlock : ℕ) (sched : ReadSchedule) :
    Interrupts .rpc (fetchDelayedAt X C N bridge fromBlock toBlock sched)
      (fetchDelayed X C chain.toHistory bridge fromBlock toBlock
        (sched.order (originLogs chain.toHistory fromBlock toBlock)) sched.metasFirst) := by
  have hanswer : ∀ q : ℕ × Request, Interrupts .rpc ((N q.1).answer q.2) (chain.toHistory.answer q.2) :=
    fun q => answer_interrupts (hN q.1) q.2
  -- the scans of the history do not fail, and the order is that of its logs
  exact Asks.eval_interrupts hanswer _

/-! ### Windows -/

section Windows

variable {R R' : DelayedReader} {stats stats' : StatsReader}

theorem SeedState.message_interrupts
    (hstats : ∀ l1Block seqNum hash, Interrupts .rpc (stats l1Block seqNum hash) (stats' l1Block seqNum hash))
    (inRange : List B256) (s : SeedState) (m : DelayedMessage) :
    Interrupts .rpc (s.message stats inRange m) (s.message stats' inRange m) := by
  unfold SeedState.message
  split
  · exact .refl _ _
  · cases reportDataHash m.data with
    | none => exact .refl _ _
    | some dataHash =>
      simp only
      split
      · exact .refl _ _
      · cases s.cache dataHash with
        | some stats => exact .refl _ _
        | none =>
          cases reportBatchNum m.data with
          | none => exact .refl _ _
          | some seq => exact (hstats _ _ _).bind fun _ _ => .refl _ _

theorem deriveFromResolvedCached_interrupts (hR : ∀ a b, Interrupts .rpc (R a b) (R' a b))
    (hstats : ∀ l1Block seqNum hash, Interrupts .rpc (stats l1Block seqNum hash) (stats' l1Block seqNum hash))
    (X : Codec) (resolved : List (DeliveredBatch × Bytes)) (toBlock startDelayedCount window : ℕ) (c : DeriveCaches) :
    Interrupts .rpc (deriveFromResolvedCached X stats R resolved toBlock startDelayedCount window c)
      (deriveFromResolvedCached X stats' R' resolved toBlock startDelayedCount window c) := by
  unfold deriveFromResolvedCached deriveFromResolvedCachedM
  cases resolved.getLast? with
  | none => exact .refl _ _
  | some last =>
    simp only
    split <;> simp only [DelayedReader.run_bind]
    · exact .refl _ _
    · refine (Asks.eval_interrupts (fun r : ℕ × ℕ => hR r.1 r.2) _).bind fun covered _ =>
        Interrupts.bind ?_ fun _ _ => .refl _ _
      exact Interrupts.run (SeedState.message_interrupts hstats _) _ _

end Windows

end ArbReth.L1
