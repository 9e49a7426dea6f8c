import ArbReth.Storage.WipeReverts

/-! # The persistence proxy

`spawn_persistence` (`arb-reth-engine/src/storage_v2.rs`) puts a thread in front of the persistence service of
the node.  It takes the actions of the engine one by one, prepares the batches among them, hands every action on
to the service, its delegate, and sends the result back.  It remembers the frontiers of the last result, and a
batch is checked against these; before the first result they are read from the database.

The loop ends when a batch cannot be prepared and when the delegate does not answer: `handle` then leaves a
proxy that does nothing any more.  Each action comes with the databases that the proxy sees and with what the delegate does. -/

namespace ArbReth.Storage

open ArbReth.Runs

/-- What the delegate reports after a save or a removal: numbers and hashes. -/
structure PersistenceResult where
  lastBlock : ℕ × B256
  lastStateTrieBlock : ℕ × B256
deriving DecidableEq, Repr

inductive PersistenceAction where
  | saveBlocks (input : SaveBlocksInput)
  | removeBlocksAbove (block : ℕ)
  /-- An action that is handed on without waiting for a result. -/
  | other (block : ℕ)

/-- What the delegate does with an action. -/
inductive Delegate where
  /-- It does not take the action. -/
  | closed
  /-- It takes the action and gives no result. -/
  | silent
  | answers (result : PersistenceResult)
deriving DecidableEq, Repr

structure Request where
  action : PersistenceAction
  /-- Nothing if the database or the sidecar cannot be read. -/
  factory : Option ProviderFactory
  delegate : Delegate

/-- What the proxy did with a request: what it handed on, and the response that it sent. -/
structure Reply where
  forwarded : Option PersistenceAction
  response : Option PersistenceResult

/-- The proxy stopped or had stopped before. -/
def Reply.none : Reply := ⟨.none, .none⟩

def PersistenceFrontiers.update (result : PersistenceResult) : PersistenceFrontiers where
  lastBlock := some result.lastBlock
  lastStateTrieBlock := some result.lastStateTrieBlock

structure Proxy where
  running : Bool
  frontiers : PersistenceFrontiers
  preimages : SlotPreimages

namespace Proxy

def start (preimages : SlotPreimages) : Proxy := ⟨true, ⟨none, none⟩, preimages⟩

def stop (p : Proxy) : Proxy := { p with running := false }

/-- Prepare a batch; what cannot be read makes it fail. -/
def prepare (K : Keccak) (p : Proxy) (factory : Option ProviderFactory) (input : SaveBlocksInput) :
    Except SlotPreimages (SaveBlocksInput × SlotPreimages) :=
  factory.elim (.error p.preimages) fun factory =>
    (prepareStorageV2Batch K factory p.frontiers input p.preimages).mapError (·.2)

/-- Hand an action on and wait for its result. -/
def delegateTo (p : Proxy) (action : PersistenceAction) : Delegate → Proxy × Reply
  | .closed => (p.stop, .none)
  | .silent => (p.stop, ⟨some action, none⟩)
  | .answers result => ({ p with frontiers := .update result }, ⟨some action, some result⟩)

/-- Hand an action on without waiting. -/
def sendAction (p : Proxy) (action : PersistenceAction) : Delegate → Proxy × Reply
  | .closed => (p.stop, .none)
  | _ => (p, ⟨some action, none⟩)

/-- One round of the loop. -/
def handle (K : Keccak) (p : Proxy) (request : Request) : Proxy × Reply :=
  if p.running = false then (p, .none)
  else
    match request.action with
    | .saveBlocks input =>
      match p.prepare K request.factory input with
      | .error preimages => ({ p with preimages }.stop, .none)
      | .ok (input, preimages) => { p with preimages }.delegateTo (.saveBlocks input) request.delegate
    | .removeBlocksAbove block => p.delegateTo (.removeBlocksAbove block) request.delegate
    | .other block => p.sendAction (.other block) request.delegate

/-- The proxy after some requests. -/
def after (K : Keccak) (p : Proxy) (requests : List Request) : Proxy :=
  requests.foldl (fun p request => (p.handle K request).1) p

/-- What it did with each of some requests. -/
def replies (K : Keccak) : Proxy → List Request → List Reply
  | _, [] => []
  | p, request :: requests => (p.handle K request).2 :: replies K (p.handle K request).1 requests

end Proxy

/-! ### What is guaranteed -/

/-- The headers are consecutive from the block after `number` on, each with the hash of the one before; the
first one has `parent`. -/
def Continues (number : ℕ) (parent : B256) (headers : List Header) : Prop :=
  ∀ k header, headers[k]? = some header →
    header.number = number + 1 + k ∧ (parent :: headers.map Header.hash)[k]? = some header.parentHash

/-- The frontiers of the `Finish` checkpoint: of the database and of the state and trie. -/
def Database.checkpoint (db : Database) : ℕ × ℕ := (db.finishCheckpoint.map fun c => (c.1, c.2.getD c.1)).getD (0, 0)

/-- The batch starts at the frontiers of the last result or, if there was none, at those of the database. -/
def StartsAtFrontier (confirmed : Option PersistenceResult) (factory : ProviderFactory) (input : SaveBlocksInput) :
    Prop :=
  ∃ parent, Continues input.prevPartialStateTrie parent (input.blocks.map ExecutedBlock.header) ∧
    ((∃ result, confirmed = some result ∧ result.lastBlock.1 = input.prevDbTip ∧
        result.lastStateTrieBlock = (input.prevPartialStateTrie, parent)) ∨
      (confirmed = none ∧ ∃ db header, (db = factory.first ∨ db = factory.second) ∧
        db.lastBlockNumber = input.prevDbTip ∧ db.checkpoint = (input.prevDbTip, input.prevPartialStateTrie) ∧
        db.headerByNumber input.prevPartialStateTrie = some header ∧ header.hash = parent))

/-- The result that was sent back last. -/
def confirmed (replies : List Reply) : Option PersistenceResult := (replies.filterMap Reply.response).getLast?

/-- The batch of the request is rejected. -/
def Rejected (K : Keccak) (p : Proxy) (request : Request) : Prop :=
  ∃ input, request.action = .saveBlocks input ∧ ∃ preimages, p.prepare K request.factory input = .error preimages

/-- The delegate does not do what the request needs of it. -/
def DelegateFails (request : Request) : Prop :=
  match request.action with
  | .other _ => request.delegate = .closed
  | _ => request.delegate = .closed ∨ request.delegate = .silent

/-! ### One batch -/

variable {K : Keccak} {factory : ProviderFactory} {frontiers : PersistenceFrontiers} {input output : SaveBlocksInput}
  {preimages preimages' : SlotPreimages}

variable {parent : B256} {blocks : List ExecutedBlock}

theorem validateBlocksFrom_ok {tip number : ℕ} (h : validateBlocksFrom tip (number + 1) parent blocks = .ok ()) :
    Continues number parent (blocks.map ExecutedBlock.header) := by
  induction blocks generalizing number parent with
  | nil =>
    intro k header hget
    cases hget
  | cons block blocks ih =>
    unfold validateBlocksFrom at h
    split at h
    · cases h
    · next hnumber =>
      split at h
      · cases h
      · next hparent =>
        split at h
        · cases h
        · intro k header hget
          cases k with
          | zero =>
            cases hget
            rw [not_not] at hnumber hparent
            exact ⟨hnumber, congrArg some hparent.symm⟩
          | succ k =>
            obtain ⟨hnumber', hparent'⟩ := ih h k header hget
            exact ⟨by omega, hparent'⟩

theorem validatePersistenceBlocks_ok {tip : ℕ} (h : validatePersistenceBlocks blocks tip parent = .ok ()) :
    Continues tip parent (blocks.map ExecutedBlock.header) := by
  unfold validatePersistenceBlocks at h
  split at h
  · cases h
  · exact validateBlocksFrom_ok h

variable {tip stateTrie : ℕ}

theorem readDurablePersistenceFrontier_ok {db : Database} (h : readDurablePersistenceFrontier db tip stateTrie = .ok parent) :
    ∃ header, db.lastBlockNumber = tip ∧ db.checkpoint = (tip, stateTrie) ∧
      db.headerByNumber stateTrie = some header ∧ header.hash = parent := by
  unfold readDurablePersistenceFrontier at h
  split at h
  · cases h
  · next htip =>
    dsimp only at h
    split at h
    · cases h
    · next hcheckpoint =>
      rw [not_not] at htip hcheckpoint
      cases hheader : db.headerByNumber stateTrie with
      | none =>
        rw [hheader] at h
        cases h
      | some header =>
        rw [hheader] at h
        exact ⟨header, htip, hcheckpoint, rfl, Except.ok.inj h⟩

theorem readBootstrapPersistenceFrontier_ok {first second : Database} (h : readBootstrapPersistenceFrontier first second tip stateTrie = .ok parent) :
    readDurablePersistenceFrontier first tip stateTrie = .ok parent ∨
      readDurablePersistenceFrontier second tip stateTrie = .ok parent := by
  unfold readBootstrapPersistenceFrontier at h
  split at h
  · next hfirst =>
    rw [hfirst]
    exact Or.inl h
  · exact Or.inr h

theorem stateTrieParent_ok {result : PersistenceResult} (h : (PersistenceFrontiers.update result).stateTrieParent tip stateTrie = .ok parent) :
    result.lastBlock.1 = tip ∧ result.lastStateTrieBlock = (stateTrie, parent) := by
  unfold PersistenceFrontiers.stateTrieParent PersistenceFrontiers.update at h
  dsimp only at h
  split at h
  · cases h
  · next htips =>
    rw [not_not] at htips
    obtain ⟨htip, hstateTrie⟩ := Prod.mk.inj htips
    exact ⟨htip, Prod.ext hstateTrie (Except.ok.inj h)⟩

/-- The frontiers that the proxy remembers. -/
def frontiersOf : Option PersistenceResult → PersistenceFrontiers
  | none => ⟨none, none⟩
  | some result => .update result

variable {last : Option PersistenceResult}

theorem validatePersistenceBatch_ok (h : validatePersistenceBatch factory (frontiersOf last) input.blocks input.prevDbTip input.prevPartialStateTrie =
      .ok ()) : StartsAtFrontier last factory input := by
  unfold validatePersistenceBatch at h
  obtain ⟨parent, hparent, h⟩ := bind_ok.mp h
  refine ⟨parent, validatePersistenceBlocks_ok h, ?_⟩
  cases last with
  | some result =>
    obtain ⟨htip, hstateTrie⟩ := stateTrieParent_ok hparent
    exact Or.inl ⟨result, rfl, htip, hstateTrie⟩
  | none =>
    rcases readBootstrapPersistenceFrontier_ok hparent with hread | hread
    · obtain ⟨header, hheader⟩ := readDurablePersistenceFrontier_ok hread
      exact Or.inr ⟨rfl, factory.first, header, Or.inl rfl, hheader⟩
    · obtain ⟨header, hheader⟩ := readDurablePersistenceFrontier_ok hread
      exact Or.inr ⟨rfl, factory.second, header, Or.inr rfl, hheader⟩

theorem enrichBlocks_headers {tracked : Tracked} {blocks : List (ExecutedBlock × Bool)} {out : List ExecutedBlock}
    (h : enrichBlocks K preimages tracked blocks = .ok out) :
    out.map ExecutedBlock.header = (blocks.map Prod.fst).map ExecutedBlock.header := by
  induction blocks generalizing tracked out with
  | nil =>
    cases h
    rfl
  | cons b blocks ih =>
    obtain ⟨block, hblock, h⟩ := bind_ok.mp h
    obtain ⟨rest, hrest, h⟩ := bind_ok.mp h
    cases h
    have hheader : block.header = b.1.header := by
      unfold enrichBlock at hblock
      split at hblock
      · obtain ⟨reverts, -, hblock⟩ := bind_ok.mp hblock
        rw [← Except.ok.inj hblock]
      · rw [← Except.ok.inj hblock]
    rw [List.map_cons, List.map_cons, List.map_cons, hheader, ih hrest]

/-- A batch that is handed on has passed the validation, with its own frontiers and headers. -/
theorem prepareStorageV2Batch_validated (hv2 : factory.provider.useHashedState = true)
    (h : prepareStorageV2Batch K factory frontiers input preimages = .ok (output, preimages')) :
    validatePersistenceBatch factory frontiers input.blocks input.prevDbTip input.prevPartialStateTrie = .ok () ∧
      output.blocks.map ExecutedBlock.header = input.blocks.map ExecutedBlock.header ∧
      output.prevDbTip = input.prevDbTip ∧ output.prevPartialStateTrie = input.prevPartialStateTrie := by
  unfold prepareStorageV2Batch at h
  rw [hv2, if_neg Bool.false_ne_true.symm] at h
  obtain ⟨⟨⟩, hvalid, h⟩ := bind_ok.mp h
  obtain ⟨legacy, hlegacy, h⟩ := bind_ok.mp h
  refine ⟨mapError_ok.mp hvalid, ?_⟩
  split at h
  · cases h
    exact ⟨rfl, rfl, rfl⟩
  · obtain ⟨recorded, -, h⟩ := bind_ok.mp h
    dsimp only at h
    split at h
    · cases h
      exact ⟨rfl, rfl, rfl⟩
    · obtain ⟨blocks, hblocks, h⟩ := bind_ok.mp h
      cases h
      refine ⟨?_, rfl, rfl⟩
      have hheaders := enrichBlocks_headers (mapError_ok.mp hblocks)
      rwa [List.map_fst_zip (legacyBlockFlags_length (mapError_ok.mp hlegacy)).ge] at hheaders

/-- What is handed on from a prepared batch starts at the frontier. -/
theorem startsAtFrontier_of_prepare (hv2 : factory.provider.useHashedState = true)
    (h : prepareStorageV2Batch K factory (frontiersOf last) input preimages = .ok (output, preimages')) :
    StartsAtFrontier last factory output := by
  obtain ⟨hvalid, hheaders, htip, hstateTrie⟩ := prepareStorageV2Batch_validated hv2 h
  obtain ⟨parent, hcontinues, hfrontier⟩ := validatePersistenceBatch_ok hvalid
  unfold StartsAtFrontier
  rw [hheaders, htip, hstateTrie]
  exact ⟨parent, hcontinues, hfrontier⟩

/-! ### One round -/

namespace Proxy

variable {p : Proxy} {request : Request}

theorem handle_stopped (K : Keccak) (request : Request) (h : p.running = false) : p.handle K request = (p, .none) := by
  unfold handle
  exact if_pos h

theorem handle_frontiers (K : Keccak) (p : Proxy) (request : Request) :
    (p.handle K request).1.frontiers = ((p.handle K request).2.response.map .update).getD p.frontiers := by
  have hdelegate : ∀ (p : Proxy) action delegate,
      (p.delegateTo action delegate).1.frontiers = ((p.delegateTo action delegate).2.response.map .update).getD p.frontiers := by
    intro p action delegate
    cases delegate <;> rfl
  unfold handle
  split
  · rfl
  · cases request.action with
    | saveBlocks input =>
      dsimp only
      split
      · rfl
      · exact hdelegate _ _ _
    | removeBlocksAbove block => exact hdelegate _ _ _
    | other block => cases request.delegate <;> rfl

/-- After a failure the proxy has stopped, and it has not responded. -/
theorem handle_fails (h : Rejected K p request ∨ DelegateFails request) :
    (p.handle K request).1.running = false ∧ (p.handle K request).2.response = none := by
  have hdelegate : ∀ (p : Proxy) action, request.delegate = .closed ∨ request.delegate = .silent →
      (p.delegateTo action request.delegate).1.running = false ∧
        (p.delegateTo action request.delegate).2.response = none := by
    rintro p action (h | h) <;> rw [h] <;> exact ⟨rfl, rfl⟩
  unfold handle
  split
  · exact ⟨‹_›, rfl⟩
  · rcases h with ⟨input, haction, preimages, hprepare⟩ | h
    · rw [haction]
      dsimp only
      rw [hprepare]
      exact ⟨rfl, rfl⟩
    · unfold DelegateFails at h
      cases haction : request.action with
      | saveBlocks input =>
        rw [haction] at h
        dsimp only
        split
        · exact ⟨rfl, rfl⟩
        · exact hdelegate _ _ h
      | removeBlocksAbove block =>
        rw [haction] at h
        exact hdelegate _ _ h
      | other block =>
        rw [haction] at h
        dsimp only at h ⊢
        rw [h]
        exact ⟨rfl, rfl⟩

theorem handle_rejected (h : Rejected K p request) : (p.handle K request).2 = .none := by
  obtain ⟨input, haction, preimages, hprepare⟩ := h
  unfold handle
  split
  · rfl
  · rw [haction]
    dsimp only
    rw [hprepare]

/-- A batch that is handed on was prepared with the frontiers of the proxy. -/
theorem prepared_of_forwarded {output : SaveBlocksInput} (hfactory : request.factory = some factory)
    (h : (p.handle K request).2.forwarded = some (.saveBlocks output)) :
    ∃ input preimages, prepareStorageV2Batch K factory p.frontiers input p.preimages = .ok (output, preimages) := by
  have hdelegate : ∀ (p : Proxy) action delegate, (p.delegateTo action delegate).2.forwarded = some (.saveBlocks output) →
      action = .saveBlocks output := by
    intro p action delegate h
    cases delegate with
    | closed => cases h
    | silent => exact Option.some.inj h
    | answers result => exact Option.some.inj h
  unfold handle at h
  split at h
  · cases h
  · cases haction : request.action with
    | saveBlocks input =>
      rw [haction] at h
      dsimp only at h
      split at h
      · cases h
      · next prepared preimages hprepare =>
        cases hdelegate _ _ _ h
        unfold prepare at hprepare
        rw [hfactory] at hprepare
        exact ⟨input, preimages, mapError_ok.mp hprepare⟩
    | removeBlocksAbove block =>
      rw [haction] at h
      cases hdelegate _ _ _ h
    | other block =>
      rw [haction] at h
      dsimp only at h
      unfold sendAction at h
      split at h
      · cases h
      · cases h

/-! ### Runs -/

theorem replies_append (K : Keccak) (p : Proxy) (as bs : List Request) :
    p.replies K (as ++ bs) = p.replies K as ++ (p.after K as).replies K bs := by
  induction as generalizing p with
  | nil => rfl
  | cons request as ih =>
    rw [List.cons_append, replies, replies, ih, List.cons_append]
    rfl

theorem length_replies (K : Keccak) (p : Proxy) (requests : List Request) :
    (p.replies K requests).length = requests.length := by
  induction requests generalizing p with
  | nil => rfl
  | cons request requests ih => rw [replies, List.length_cons, List.length_cons, ih]

variable {requests : List Request}

theorem replies_split {k : ℕ} (K : Keccak) (p : Proxy) (h : requests[k]? = some request) :
    p.replies K requests = p.replies K (requests.take k) ++ ((p.after K (requests.take k)).handle K request).2 ::
      ((p.after K (requests.take k)).handle K request).1.replies K (requests.drop (k + 1)) := by
  obtain ⟨hk, hget⟩ := List.getElem?_eq_some_iff.mp h
  have hsplit : requests = requests.take k ++ request :: requests.drop (k + 1) := by
    rw [← hget, ← List.drop_eq_getElem_cons hk, List.take_append_drop]
  conv_lhs => rw [hsplit, replies_append]
  rfl

theorem getElem?_replies {k : ℕ} (K : Keccak) (p : Proxy) (h : requests[k]? = some request) :
    (p.replies K requests)[k]? = some ((p.after K (requests.take k)).handle K request).2 := by
  have hk : (p.replies K (requests.take k)).length = k := by
    rw [length_replies, List.length_take, min_eq_left (List.getElem?_eq_some_iff.mp h).1.le]
  rw [replies_split K p h, List.getElem?_append_right hk.le, hk, Nat.sub_self]
  rfl

theorem take_replies {k : ℕ} (K : Keccak) (p : Proxy) (h : requests[k]? = some request) :
    (p.replies K requests).take k = p.replies K (requests.take k) := by
  have hk : (p.replies K (requests.take k)).length = k := by
    rw [length_replies, List.length_take, min_eq_left (List.getElem?_eq_some_iff.mp h).1.le]
  rw [replies_split K p h, List.take_left' hk]

theorem replies_stopped (K : Keccak) (requests : List Request) (h : p.running = false) :
    ∀ reply ∈ p.replies K requests, reply = .none := by
  induction requests with
  | nil => exact fun reply hreply => absurd hreply List.not_mem_nil
  | cons request requests ih =>
    intro reply hreply
    rw [replies, handle_stopped K request h] at hreply
    rcases List.mem_cons.mp hreply with hreply | hreply
    · exact hreply
    · exact ih reply hreply

/-- Along a run the proxy remembers the frontiers of the last response. -/
theorem after_frontiers (K : Keccak) (preimages : SlotPreimages) (requests : List Request) :
    ((start preimages).after K requests).frontiers = frontiersOf (confirmed ((start preimages).replies K requests)) := by
  induction requests using List.reverseRecOn with
  | nil => rfl
  | append_singleton requests request ih =>
    have hafter : (start preimages).after K (requests ++ [request]) =
        (((start preimages).after K requests).handle K request).1 := by
      unfold after
      rw [List.foldl_append]
      rfl
    rw [hafter, replies_append, handle_frontiers, ih]
    unfold confirmed
    rw [List.filterMap_append]
    unfold replies
    cases hresponse : (((start preimages).after K requests).handle K request).2.response with
    | none => simp [replies, hresponse]
    | some result => simp [replies, hresponse, frontiersOf]

end Proxy

/-- A batch that is handed on starts at the frontiers of the last result, or of the database before the first one; a
rejected batch has no response, and nothing later is handed on. -/
theorem persistence_fail_stop (K : Keccak) (preimages : SlotPreimages) (requests : List Request) :
    (∀ k request reply factory input, requests[k]? = some request →
      ((Proxy.start preimages).replies K requests)[k]? = some reply → request.factory = some factory →
      factory.provider.useHashedState = true → reply.forwarded = some (.saveBlocks input) →
      StartsAtFrontier (confirmed (((Proxy.start preimages).replies K requests).take k)) factory input) ∧
    ∀ k request, requests[k]? = some request →
      Rejected K ((Proxy.start preimages).after K (requests.take k)) request ∨ DelegateFails request →
      ∃ reply, ((Proxy.start preimages).replies K requests)[k]? = some reply ∧ reply.response = none ∧
        (Rejected K ((Proxy.start preimages).after K (requests.take k)) request → reply.forwarded = none) ∧
        ∀ j later, k < j → ((Proxy.start preimages).replies K requests)[j]? = some later →
          later.forwarded = none ∧ later.response = none := by
  constructor
  · intro k request reply factory input hrequest hreply hfactory hv2 hforwarded
    rw [Proxy.getElem?_replies K _ hrequest, Option.some.injEq] at hreply
    rw [← hreply] at hforwarded
    obtain ⟨prepared, preimages', hprepare⟩ := Proxy.prepared_of_forwarded hfactory hforwarded
    rw [Proxy.after_frontiers] at hprepare
    rw [Proxy.take_replies K _ hrequest]
    exact startsAtFrontier_of_prepare hv2 hprepare
  · intro k request hrequest hfails
    obtain ⟨hstopped, hresponse⟩ := Proxy.handle_fails hfails
    refine ⟨_, Proxy.getElem?_replies K _ hrequest, hresponse, fun hrejected => ?_, fun j later hj hlater => ?_⟩
    · rw [Proxy.handle_rejected hrejected]
      rfl
    · rw [Proxy.replies_split K _ hrequest, ← List.singleton_append, ← List.append_assoc,
        List.getElem?_append_right] at hlater
      · have hnone := Proxy.replies_stopped K _ hstopped later (List.mem_of_getElem? hlater)
        rw [hnone]
        exact ⟨rfl, rfl⟩
      · rw [List.length_append, Proxy.length_replies, List.length_take, List.length_singleton]
        omega

/-! A batch that starts at the checkpoint of the database, one that does not continue it, and a removal. -/

namespace SampleRun

def keccak : Keccak := ⟨id, fun address => address.setWidth 256⟩

def header (number parent : ℕ) : Header := ⟨number, BitVec.ofNat 256 number, BitVec.ofNat 256 parent, .arbitrum 20⟩

def block (number parent : ℕ) : ExecutedBlock := ⟨header number parent, ⟨[], []⟩, ⟨[], ∅⟩⟩

def database : Database where
  useHashedState := true
  lastBlockNumber := 1
  finishCheckpoint := some (1, none)
  headerByNumber n := if n ≤ 3 then some (header n (n - 1)) else none
  hashedStorages _ := ∅

def providers : ProviderFactory := ⟨database, database, database⟩

def batch : SaveBlocksInput := ⟨[block 2 1, block 3 2], 1, 1, 3, 3⟩

def detached : SaveBlocksInput := ⟨[block 4 2], 3, 3, 4, 4⟩

def requests : List Request :=
  [⟨.saveBlocks batch, some providers, .answers ⟨(3, 3), (3, 3)⟩⟩,
    ⟨.saveBlocks detached, some providers, .answers ⟨(4, 4), (4, 4)⟩⟩,
    ⟨.removeBlocksAbove 2, some providers, .answers ⟨(2, 2), (2, 2)⟩⟩]

end SampleRun

open SampleRun in
theorem persistence_fail_stop_detached : StartsAtFrontier none providers batch ∧
      ∃ reply, ((Proxy.start fun _ => none).replies keccak requests)[1]? = some reply ∧ reply.response = none ∧
        reply.forwarded = none ∧ ∀ j later, 1 < j →
          ((Proxy.start fun _ => none).replies keccak requests)[j]? = some later →
          later.forwarded = none ∧ later.response = none := by
  obtain ⟨hstarts, hfails⟩ := persistence_fail_stop keccak (fun _ => none) requests
  have hrejected : Rejected keccak ((Proxy.start fun _ => none).after keccak (requests.take 1))
      ⟨.saveBlocks detached, some providers, .answers ⟨(4, 4), (4, 4)⟩⟩ := ⟨detached, rfl, _, rfl⟩
  refine ⟨hstarts 0 _ _ providers batch rfl rfl rfl rfl rfl, ?_⟩
  obtain ⟨reply, hreply, hresponse, hforwarded, hlater⟩ := hfails 1 _ rfl (Or.inl hrejected)
  exact ⟨reply, hreply, hresponse, hforwarded hrejected, hlater⟩

end ArbReth.Storage
