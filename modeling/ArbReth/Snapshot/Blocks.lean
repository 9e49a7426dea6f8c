import ArbReth.Lib.Durable
import ArbReth.Snapshot.Source

/-! # The blocks of a snapshot

`write_blocks` (`commands/snapshot_full.rs`) gathers the records of a block until the next header or the end of the
section, and commits blocks in batches.  The roots of a body and of receipts are computed again from what was decoded and
compared with the header, when their record arrives.

Nothing is compared for a record that does not arrive.  So a block without a body is committed under any transactions
root, and one without transactions and receipts under any receipts root. -/

namespace ArbReth.Snapshot

open ArbReth.Codec (Bytes)
open ArbReth.Durable
open ArbReth.Runs (toOption_eq_some)

/-- The fields of a header that the import reads. -/
structure Header where
  number : ℕ
  stateRoot : B256
  transactionsRoot : B256
  receiptsRoot : B256
deriving DecidableEq, Repr

/-- The encodings of blocks and the roots of their tries, which are reth's. -/
structure BlockCodec (Tx Receipt : Type) where
  /-- The header at the front, and the bytes after it. -/
  decodeHeader : Bytes → Option (Header × Bytes)
  decodeBody : Bytes → Option (List Tx × Bytes)
  txType : Tx → UInt8
  decodeStoredReceipts : Bytes → List UInt8 → Option (List Receipt)
  calculateTransactionRoot : List Tx → B256
  calculateReceiptRoot : List Receipt → B256

variable {Tx Receipt : Type}

/-- The records of one block. -/
structure PendingBlock (Tx Receipt : Type) where
  number : ℕ
  hash : B256
  header : Header
  body : Option (List Tx)
  receipts : Option (List Receipt)
deriving DecidableEq, Repr

def PendingBlock.txCount (b : PendingBlock Tx Receipt) : ℕ := (b.body.getD []).length

inductive Part where
  | body
  | receipts
deriving DecidableEq, Repr

inductive BlockError where
  | stream (e : StreamError)
  | decodeHeader (block : ℕ)
  | trailingHeaderBytes (block : ℕ)
  | headerNumber (block number : ℕ)
  | beforeAnyHeader (block : ℕ) (part : Part)
  | otherBlockOpen (block : ℕ) (part : Part) (number : ℕ)
  | decodeBody (block : ℕ)
  | trailingBodyBytes (block : ℕ)
  | transactionsRoot (block : ℕ) (root expected : B256)
  | receiptsWithoutBody (block : ℕ)
  | decodeReceipts (block : ℕ)
  | receiptsRoot (block : ℕ) (root expected : B256)
  | transactionsWithoutReceipts (block count : ℕ)
  | numberingDiverged (block indices nextTxNum : ℕ)
  | empty
  | endsAt (lastBlock convertPoint : ℕ)
deriving DecidableEq, Repr

/-- What is committed: the blocks in order, where the header segment begins if not at zero, and the receipts with their
transaction numbers. -/
structure BlockStore (Tx Receipt : Type) where
  headersFrom : Option ℕ
  blocks : List (PendingBlock Tx Receipt)
  receipts : List (Receipt × ℕ)
deriving DecidableEq, Repr

/-- The next transaction number by the body indices. -/
def BlockStore.nextTxNum (store : BlockStore Tx Receipt) : ℕ := (store.blocks.map PendingBlock.txCount).sum

structure BlockSectionStats where
  blocks : ℕ
  bodies : ℕ
  transactions : ℕ
  receiptSets : ℕ
  receipts : ℕ
  firstBlock : ℕ
  lastBlock : ℕ
deriving DecidableEq, Repr

def BlockSectionStats.add (s : BlockSectionStats) (b : PendingBlock Tx Receipt) : BlockSectionStats where
  blocks := s.blocks + 1
  bodies := s.bodies + if b.body.isSome then 1 else 0
  transactions := s.transactions + b.txCount
  receiptSets := s.receiptSets + if b.receipts.isSome then 1 else 0
  receipts := s.receipts + (b.receipts.getD []).length
  firstBlock := if s.blocks = 0 then b.number else s.firstBlock
  lastBlock := b.number

/-- The variables of `write_blocks`. -/
structure BlockWriter (Tx Receipt : Type) where
  stats : BlockSectionStats
  batch : List (PendingBlock Tx Receipt)
  pending : Option (PendingBlock Tx Receipt)
  batchTxs : ℕ
  nextTxNum : ℕ
  first : Bool
deriving DecidableEq, Repr

/-! ### One record -/

section records
variable (X : BlockCodec Tx Receipt)

def checkBlockHeader (block : ℕ) (hash : B256) (rlp : Bytes) : Except BlockError (PendingBlock Tx Receipt) :=
  match X.decodeHeader rlp with
  | none => .error (.decodeHeader block)
  | some (header, rest) =>
    if rest ≠ [] then .error (.trailingHeaderBytes block)
    else if header.number ≠ block then .error (.headerNumber block header.number)
    else .ok ⟨block, hash, header, none, none⟩

def expectPending (pending : Option (PendingBlock Tx Receipt)) (block : ℕ) (part : Part) :
    Except BlockError (PendingBlock Tx Receipt) :=
  match pending with
  | none => .error (.beforeAnyHeader block part)
  | some target => if target.number ≠ block then .error (.otherBlockOpen block part target.number) else .ok target

def checkBody (target : PendingBlock Tx Receipt) (block : ℕ) (rlp : Bytes) :
    Except BlockError (PendingBlock Tx Receipt) :=
  match X.decodeBody rlp with
  | none => .error (.decodeBody block)
  | some (body, rest) =>
    if rest ≠ [] then .error (.trailingBodyBytes block)
    else if X.calculateTransactionRoot body ≠ target.header.transactionsRoot then
      .error (.transactionsRoot block (X.calculateTransactionRoot body) target.header.transactionsRoot)
    else .ok { target with body := some body }

/-- The stored form has no transaction types, so the body has to be there. -/
def checkReceipts (target : PendingBlock Tx Receipt) (block : ℕ) (rlp : Bytes) :
    Except BlockError (PendingBlock Tx Receipt) :=
  match target.body with
  | none => .error (.receiptsWithoutBody block)
  | some body =>
    match X.decodeStoredReceipts rlp (body.map X.txType) with
    | none => .error (.decodeReceipts block)
    | some receipts =>
      if X.calculateReceiptRoot receipts ≠ target.header.receiptsRoot then
        .error (.receiptsRoot block (X.calculateReceiptRoot receipts) target.header.receiptsRoot)
      else .ok { target with receipts := some receipts }

end records

/-! ### One batch -/

/-- The receipts of a batch, numbered from `txNum` on. -/
def appendReceipts : ℕ → List (PendingBlock Tx Receipt) → Except BlockError (List (Receipt × ℕ))
  | _, [] => .ok []
  | txNum, b :: batch =>
    match b.receipts with
    | some receipts => do
      let rest ← appendReceipts (txNum + receipts.length) batch
      return receipts.zipIdx txNum ++ rest
    | none =>
      if 0 < b.txCount then .error (.transactionsWithoutReceipts b.number b.txCount)
      else appendReceipts txNum batch

namespace BlockWriter

def start : BlockWriter Tx Receipt := ⟨⟨0, 0, 0, 0, 0, 0, 0⟩, [], none, 0, 0, true⟩

/-- What the store is after a batch. -/
def extend (w : BlockWriter Tx Receipt) (store : BlockStore Tx Receipt) (first : PendingBlock Tx Receipt)
    (receipts : List (Receipt × ℕ)) : BlockStore Tx Receipt where
  headersFrom := if w.first ∧ 0 < first.number then some first.number else store.headersFrom
  blocks := store.blocks ++ w.batch
  receipts := store.receipts ++ receipts

/-- The counter of the import agrees with the body indices. -/
def checkNumbering (w : BlockWriter Tx Receipt) (store : BlockStore Tx Receipt) : Except BlockError Unit :=
  if store.nextTxNum ≠ w.nextTxNum then .error (.numberingDiverged w.stats.lastBlock store.nextTxNum w.nextTxNum)
  else .ok ()

/-- The variables after a batch. -/
def flushed (w : BlockWriter Tx Receipt) : BlockWriter Tx Receipt :=
  { w with
    stats := w.batch.foldl BlockSectionStats.add w.stats
    nextTxNum := w.nextTxNum + (w.batch.map PendingBlock.txCount).sum
    first := false
    batch := [] }

/-- A batch is committed as a whole. -/
def flushBlocks (w : BlockWriter Tx Receipt) : Prog (BlockStore Tx Receipt) BlockError (BlockWriter Tx Receipt) :=
  match w.batch with
  | [] => pure w
  | first :: _ => do
    let store ← Prog.get
    let receipts ← Prog.ofExcept (appendReceipts w.nextTxNum w.batch)
    Prog.ofExcept (w.flushed.checkNumbering (w.extend store first receipts))
    Prog.write fun store => w.extend store first receipts
    return w.flushed

/-- The open block is complete. -/
def close (w : BlockWriter Tx Receipt) : BlockWriter Tx Receipt :=
  match w.pending with
  | none => w
  | some done => { w with batch := w.batch ++ [done], batchTxs := w.batchTxs + done.txCount, pending := none }

/-- Flushes a batch that is large enough. -/
def flushFull (blockBatch txBatch : ℕ) (w : BlockWriter Tx Receipt) :
    Prog (BlockStore Tx Receipt) BlockError (BlockWriter Tx Receipt) :=
  if blockBatch ≤ w.batch.length ∨ txBatch ≤ w.batchTxs then do
    let flushed ← w.flushBlocks
    return { flushed with batchTxs := 0 }
  else pure w

end BlockWriter

/-! ### The section -/

section writing
variable (X : BlockCodec Tx Receipt) (blockBatch txBatch : ℕ) (ending : Option StreamError)

/-- The records of the section; the first one that is not of a block goes back to the stream. -/
def writeBlockRecords : List Record → BlockWriter Tx Receipt →
    Prog (BlockStore Tx Receipt) BlockError (BlockWriter Tx Receipt × List Record)
  | [], w =>
    match ending with
    | some e => Prog.fail (.stream e)
    | none => do
      let flushed ← w.close.flushBlocks
      return (flushed, [])
  | record :: records, w =>
    match record with
    | .header block hash rlp => do
      let w ← w.close.flushFull blockBatch txBatch
      let opened ← Prog.ofExcept (checkBlockHeader X block hash rlp)
      writeBlockRecords records { w with pending := some opened }
    | .body block rlp => do
      let target ← Prog.ofExcept (expectPending w.pending block .body)
      let target ← Prog.ofExcept (checkBody X target block rlp)
      writeBlockRecords records { w with pending := some target }
    | .receipts block rlp => do
      let target ← Prog.ofExcept (expectPending w.pending block .receipts)
      let target ← Prog.ofExcept (checkReceipts X target block rlp)
      writeBlockRecords records { w with pending := some target }
    | _ => do
      let flushed ← w.close.flushBlocks
      return (flushed, record :: records)

end writing

/-- What is checked at the end of the section. -/
def checkBlocksEnd (manifest : Manifest) (stats : BlockSectionStats) : Except BlockError Unit :=
  if stats.blocks = 0 then .error .empty
  else if stats.lastBlock ≠ manifest.block then .error (.endsAt stats.lastBlock manifest.block)
  else .ok ()

def writeBlocks (X : BlockCodec Tx Receipt) (blockBatch txBatch : ℕ) (src : Source) :
    Prog (BlockStore Tx Receipt) BlockError (BlockSectionStats × Source) := do
  let (w, records) ← writeBlockRecords X blockBatch txBatch src.ending src.records .start
  Prog.ofExcept (checkBlocksEnd src.manifest w.stats)
  match records with
  | [] => return (w.stats, { src with records := [] })
  | record :: records =>
    let src := { src with records := records, lastHistory := record.seen src.lastHistory }
    return (w.stats, src.unread record)

/-! ### Records that arrive are checked -/

/-- The roots of what has arrived are those of the header. -/
structure Checked (X : BlockCodec Tx Receipt) (b : PendingBlock Tx Receipt) : Prop where
  body : ∀ txs, b.body = some txs → X.calculateTransactionRoot txs = b.header.transactionsRoot
  receipts : ∀ rs, b.receipts = some rs → X.calculateReceiptRoot rs = b.header.receiptsRoot

/-- The header records of a stream that decode: number, hash and header. -/
def headerRecords (X : BlockCodec Tx Receipt) (records : List Record) : List (ℕ × B256 × Header) :=
  records.filterMap fun record =>
    match record with
    | .header block hash rlp => (X.decodeHeader rlp).map fun decoded => (block, hash, decoded.1)
    | _ => none

def PendingBlock.record (b : PendingBlock Tx Receipt) : ℕ × B256 × Header := (b.number, b.hash, b.header)

/-- A header of a stream, and which of the other records of its block come before the next one. -/
structure BlockGroup where
  record : ℕ × B256 × Header
  body : Bool
  receipts : Bool
deriving DecidableEq, Repr

def hasBody : List Record → Bool
  | .body .. :: _ => true
  | .receipts .. :: records => hasBody records
  | _ => false

def hasReceipts : List Record → Bool
  | .receipts .. :: _ => true
  | .body .. :: records => hasReceipts records
  | _ => false

def blockGroups (X : BlockCodec Tx Receipt) : List Record → List BlockGroup
  | [] => []
  | .header block hash rlp :: records =>
    ((X.decodeHeader rlp).map fun decoded =>
      ⟨(block, hash, decoded.1), hasBody records, hasReceipts records⟩).toList ++ blockGroups X records
  | _ :: records => blockGroups X records

theorem map_blockGroups (X : BlockCodec Tx Receipt) (records : List Record) :
    (blockGroups X records).map BlockGroup.record = headerRecords X records := by
  induction records with
  | nil => rfl
  | cons record records ih =>
    cases record with
    | header block hash rlp =>
      cases hdecode : X.decodeHeader rlp <;> simpa [blockGroups, headerRecords, hdecode] using ih
    | _ => simpa [blockGroups, headerRecords] using ih

/-- A missing record has the root of the empty list in the header. -/
def BlockGroup.Rooted (X : BlockCodec Tx Receipt) (g : BlockGroup) : Prop :=
  (g.body = false → g.record.2.2.transactionsRoot = X.calculateTransactionRoot []) ∧
    (g.receipts = false → g.record.2.2.receiptsRoot = X.calculateReceiptRoot [])

/-- What is known of a block when these records are still to be read. -/
def PendingBlock.group (b : PendingBlock Tx Receipt) (records : List Record) : BlockGroup :=
  ⟨b.record, b.body.isSome || hasBody records, b.receipts.isSome || hasReceipts records⟩

/-- The body and the receipts have the roots in the header, where a missing record counts as the empty list. -/
def PendingBlock.Matches (X : BlockCodec Tx Receipt) (b : PendingBlock Tx Receipt) : Prop :=
  X.calculateTransactionRoot (b.body.getD []) = b.header.transactionsRoot ∧
    X.calculateReceiptRoot (b.receipts.getD []) = b.header.receiptsRoot

/-- The blocks that are committed or wait, in order. -/
def BlockWriter.all (w : BlockWriter Tx Receipt) (store : BlockStore Tx Receipt) : List (PendingBlock Tx Receipt) :=
  store.blocks ++ w.batch ++ w.pending.toList

variable {X : BlockCodec Tx Receipt} {w : BlockWriter Tx Receipt} {store : BlockStore Tx Receipt}

variable {block : ℕ} {rlp : Bytes} {b : PendingBlock Tx Receipt}

theorem checkBlockHeader_ok {hash : B256} (h : checkBlockHeader X block hash rlp = .ok b) :
    Checked X b ∧ ∀ records, blockGroups X (.header block hash rlp :: records) = b.group records :: blockGroups X records := by
  simp only [checkBlockHeader] at h
  split at h
  · cases h
  · rename_i header rest hdecode
    split at h
    · cases h
    · split at h
      · cases h
      · cases h
        refine ⟨⟨fun txs htxs => (by cases htxs), fun rs hrs => (by cases hrs)⟩, fun records => ?_⟩
        simp [blockGroups, hdecode, PendingBlock.group, PendingBlock.record]

theorem expectPending_ok {pending : Option (PendingBlock Tx Receipt)} {part : Part}
    (h : expectPending pending block part = .ok b) : pending = some b := by
  simp only [expectPending] at h
  split at h
  · cases h
  · split at h
    · cases h
    · exact congrArg some (Except.ok.inj h)

theorem Checked.checkBody {b b' : PendingBlock Tx Receipt} (hb : Checked X b) (h : checkBody X b block rlp = .ok b') :
    Checked X b' ∧ ∀ records, b'.group records = b.group (.body block rlp :: records) := by
  simp only [Snapshot.checkBody] at h
  split at h
  · cases h
  · split at h
    · cases h
    · split at h
      · cases h
      · rename_i hroot
        cases h
        refine ⟨⟨fun txs htxs => ?_, hb.receipts⟩, fun records => ?_⟩
        swap
        · simp [PendingBlock.group, PendingBlock.record, hasBody, hasReceipts]
        cases htxs
        exact not_not.mp hroot

theorem Checked.checkReceipts {b b' : PendingBlock Tx Receipt} (hb : Checked X b) (h : checkReceipts X b block rlp = .ok b') :
    Checked X b' ∧ ∀ records, b'.group records = b.group (.receipts block rlp :: records) := by
  simp only [Snapshot.checkReceipts] at h
  split at h
  · cases h
  · split at h
    · cases h
    · split at h
      · cases h
      · rename_i hroot
        cases h
        refine ⟨⟨hb.body, fun rs hrs => ?_⟩, fun records => ?_⟩
        swap
        · simp [PendingBlock.group, PendingBlock.record, hasBody, hasReceipts]
        cases hrs
        exact not_not.mp hroot

/-! ### What is committed -/

/-- The blocks are those of the groups up to some point, and what has arrived for them was checked. -/
structure Committed (X : BlockCodec Tx Receipt) (groups : List BlockGroup) (blocks : List (PendingBlock Tx Receipt)) :
    Prop where
  checked : ∀ b ∈ blocks, Checked X b
  groups : blocks.map (PendingBlock.group · []) <+: groups

/-- The numbers of some blocks. -/
structure BlockSectionStats.Counts (s : BlockSectionStats) (blocks : List (PendingBlock Tx Receipt)) : Prop where
  count : s.blocks = blocks.length
  lastBlock : ∀ b, blocks.getLast? = some b → s.lastBlock = b.number

variable {blocks : List (PendingBlock Tx Receipt)}

theorem BlockSectionStats.Counts.add {s : BlockSectionStats} (h : s.Counts blocks) (batch : List (PendingBlock Tx Receipt)) : (batch.foldl add s).Counts (blocks ++ batch) := by
  induction batch generalizing s blocks with
  | nil => simpa using h
  | cons b batch ih =>
    have hb : (s.add b).Counts (blocks ++ [b]) := by
      refine ⟨by simp [BlockSectionStats.add, h.count], fun b' hb' => ?_⟩
      rw [List.getLast?_concat] at hb'
      cases hb'
      rfl
    simpa using ih hb

/-- The invariant of the loop: what is committed, what waits and what is still to be read. -/
structure Gathered (X : BlockCodec Tx Receipt) (groups : List BlockGroup) (records : List Record)
    (w : BlockWriter Tx Receipt) (store : BlockStore Tx Receipt) : Prop where
  checked : ∀ b ∈ w.all store, Checked X b
  groups : (store.blocks ++ w.batch).map (PendingBlock.group · []) ++
    (w.pending.toList.map (PendingBlock.group · records) ++ blockGroups X records) = groups
  counted : w.stats.Counts store.blocks

variable {groups : List BlockGroup} {records : List Record}

theorem Gathered.committed (h : Gathered X groups records w store) : Committed X groups store.blocks := by
  refine ⟨fun b hb => h.checked b (by simp [BlockWriter.all, hb]), ?_⟩
  rw [← h.groups, List.map_append, List.append_assoc]
  exact List.prefix_append _ _

/-- Every commit leaves checked blocks. -/
abbrev Commits {α : Type} (X : BlockCodec Tx Receipt) (groups : List BlockGroup) (P : BlockStore Tx Receipt → Prop)
    (p : Prog (BlockStore Tx Receipt) BlockError α) (Q : α → BlockStore Tx Receipt → Prop) : Prop :=
  Triple (fun _ store => Committed X groups store.blocks) P p Q fun _ _ => True

theorem BlockWriter.close_all (w : BlockWriter Tx Receipt) (store : BlockStore Tx Receipt) :
    w.close.all store = w.all store := by
  rw [BlockWriter.close]
  split
  · rfl
  · rename_i done hpending
    simp [BlockWriter.all, hpending]

theorem BlockWriter.close_pending (w : BlockWriter Tx Receipt) : w.close.pending = none := by
  rw [BlockWriter.close]
  split
  · assumption
  · rfl

theorem BlockWriter.close_stats (w : BlockWriter Tx Receipt) : w.close.stats = w.stats := by
  rw [BlockWriter.close]
  split <;> rfl

/-- No other record of the open block comes. -/
def NoParts (records : List Record) : Prop := hasBody records = false ∧ hasReceipts records = false

theorem Gathered.close (h : Gathered X groups records w store) (hends : NoParts records) :
    Gathered X groups records w.close store := by
  refine ⟨by rw [w.close_all store]; exact h.checked, ?_, by rw [w.close_stats]; exact h.counted⟩
  rw [← h.groups, BlockWriter.close]
  split
  · rfl
  · rename_i done hpending
    simp [hpending, PendingBlock.group, hends.1, hends.2, hasBody, hasReceipts]

theorem Gathered.extend (h : Gathered X groups records w store) (first : PendingBlock Tx Receipt)
    (receipts : List (Receipt × ℕ)) : Gathered X groups records w.flushed (w.extend store first receipts) := by
  refine ⟨?_, ?_, h.counted.add w.batch⟩
  · simpa [BlockWriter.all, BlockWriter.flushed, BlockWriter.extend] using h.checked
  · rw [← h.groups]
    simp [BlockWriter.flushed, BlockWriter.extend]

theorem flushBlocks_spec (X : BlockCodec Tx Receipt) (groups : List BlockGroup) (records : List Record)
    (w : BlockWriter Tx Receipt) : Commits X groups (Gathered X groups records w) w.flushBlocks fun w' store =>
      Gathered X groups records w' store ∧ w'.pending = w.pending := by
  rw [BlockWriter.flushBlocks]
  split
  · exact .pure fun store h => ⟨h, rfl⟩
  · rename_i first rest hbatch
    refine Triple.bind (Q := fun _ store => Gathered X groups records w store) (.get fun store h => h) fun store => ?_
    refine Triple.ofExcept_bind (fun _ _ _ _ => trivial) fun receipts _ => ?_
    refine Triple.ofExcept_bind (fun _ _ _ _ => trivial) fun _ _ => ?_
    refine Triple.bind (Q := fun _ store => Gathered X groups records w.flushed store)
      (.write fun store h => ⟨(h.extend first receipts).committed, h.extend first receipts⟩) fun _ => ?_
    exact .pure fun store h => ⟨h, rfl⟩

theorem flushFull_spec (X : BlockCodec Tx Receipt) (groups : List BlockGroup) (records : List Record)
    (blockBatch txBatch : ℕ) (w : BlockWriter Tx Receipt) :
    Commits X groups (Gathered X groups records w) (w.flushFull blockBatch txBatch) fun w' store =>
      Gathered X groups records w' store ∧ w'.pending = w.pending := by
  rw [BlockWriter.flushFull]
  split
  · exact (flushBlocks_spec X groups records w).bind fun w' =>
      .pure fun store h => ⟨⟨h.1.checked, h.1.groups, h.1.counted⟩, h.2⟩
  · exact .pure fun store h => ⟨h, rfl⟩

theorem Gathered.header {hash : B256} (h : Gathered X groups (.header block hash rlp :: records) w store)
    (hpending : w.pending = none) (hb : Checked X b)
    (hgroup : blockGroups X (.header block hash rlp :: records) = b.group records :: blockGroups X records) :
    Gathered X groups records { w with pending := some b } store := by
  refine ⟨fun b' hb' => ?_, ?_, h.counted⟩
  · simp only [BlockWriter.all, Option.toList_some, List.mem_append, List.mem_singleton] at hb'
    rcases hb' with hb' | rfl
    · exact h.checked b' (by simpa [BlockWriter.all, hpending] using hb')
    · exact hb
  · rw [← h.groups, hpending, hgroup]
    rfl

theorem Gathered.amend {record : Record} (h : Gathered X groups (record :: records) w store)
    (hrecord : blockGroups X (record :: records) = blockGroups X records) {b b' : PendingBlock Tx Receipt}
    (hpending : w.pending = some b)
    (hb' : Checked X b → Checked X b' ∧ ∀ records, b'.group records = b.group (record :: records)) :
    Gathered X groups records { w with pending := some b' } store := by
  obtain ⟨hchecked, hgroup⟩ := hb' (h.checked b (by simp [BlockWriter.all, hpending]))
  refine ⟨fun b'' hb'' => ?_, ?_, h.counted⟩
  · simp only [BlockWriter.all, Option.toList_some, List.mem_append, List.mem_singleton] at hb''
    rcases hb'' with hb'' | rfl
    · exact h.checked b'' (by simp only [BlockWriter.all, List.mem_append]; exact .inl hb'')
    · exact hchecked
  · rw [← h.groups, hpending, hrecord]
    simp [hgroup]

theorem writeBlockRecords_spec (X : BlockCodec Tx Receipt) (groups : List BlockGroup) (blockBatch txBatch : ℕ)
    (ending : Option StreamError) (records : List Record) (w : BlockWriter Tx Receipt) :
    Commits X groups (Gathered X groups records w) (writeBlockRecords X blockBatch txBatch ending records w)
      fun x store => Gathered X groups x.2 x.1 store ∧ x.1.pending = none := by
  have stop (records : List Record) (w : BlockWriter Tx Receipt) (hends : NoParts records) :
      Commits X groups (Gathered X groups records w) (do
        let flushed ← w.close.flushBlocks
        return (flushed, records)) fun x store => Gathered X groups x.2 x.1 store ∧ x.1.pending = none :=
    ((flushBlocks_spec X groups records w.close).pre fun store h => h.close hends).bind fun w' =>
      .pure fun store h => ⟨h.1, h.2.trans w.close_pending⟩
  induction records generalizing w with
  | nil =>
    cases ending with
    | some e =>
      simp only [writeBlockRecords]
      exact .fail fun _ _ => trivial
    | none =>
      simp only [writeBlockRecords]
      exact stop [] w ⟨rfl, rfl⟩
  | cons record records ih =>
    cases record with
    | header block hash rlp =>
      simp only [writeBlockRecords]
      refine ((flushFull_spec X groups _ blockBatch txBatch w.close).pre fun store h => h.close ⟨rfl, rfl⟩).bind fun w' => ?_
      refine Triple.ofExcept_bind (fun _ _ _ _ => trivial) fun opened hopened => ?_
      obtain ⟨hchecked, hgroup⟩ := checkBlockHeader_ok hopened
      exact (ih _).pre fun store h => h.1.header (h.2.trans w.close_pending) hchecked (hgroup _)
    | body block rlp =>
      simp only [writeBlockRecords]
      refine Triple.ofExcept_bind (fun _ _ _ _ => trivial) fun target htarget => ?_
      refine Triple.ofExcept_bind (fun _ _ _ _ => trivial) fun target' htarget' => ?_
      exact (ih _).pre fun store h => h.amend rfl (expectPending_ok htarget) fun hb => hb.checkBody htarget'
    | receipts block rlp =>
      simp only [writeBlockRecords]
      refine Triple.ofExcept_bind (fun _ _ _ _ => trivial) fun target htarget => ?_
      refine Triple.ofExcept_bind (fun _ _ _ _ => trivial) fun target' htarget' => ?_
      exact (ih _).pre fun store h => h.amend rfl (expectPending_ok htarget) fun hb => hb.checkReceipts htarget'
    | _ =>
      simp only [writeBlockRecords]
      exact stop _ w ⟨rfl, rfl⟩

theorem checkBlocksEnd_ok {manifest : Manifest} {stats : BlockSectionStats} (h : checkBlocksEnd manifest stats = .ok ())
    (hstats : stats.Counts blocks) : ∃ b, blocks.getLast? = some b ∧ b.number = manifest.block := by
  simp only [checkBlocksEnd] at h
  split at h
  · cases h
  · rename_i hblocks
    split at h
    · cases h
    · rename_i hlast
      have hne : blocks ≠ [] := by
        rintro rfl
        exact hblocks hstats.count
      have hb := List.getLast?_eq_some_getLast hne
      exact ⟨_, hb, (hstats.lastBlock _ hb).symm.trans (not_not.mp hlast)⟩

theorem writeBlocks_spec (X : BlockCodec Tx Receipt) (blockBatch txBatch : ℕ) (src : Source) :
    Commits X (blockGroups X src.records) (· = ⟨none, [], []⟩) (writeBlocks X blockBatch txBatch src)
      fun x store => Committed X (blockGroups X src.records) store.blocks ∧
        (∃ b, store.blocks.getLast? = some b ∧ b.number = src.manifest.block) ∧ x.2.manifest = src.manifest := by
  have hstart : ∀ store : BlockStore Tx Receipt, store = ⟨none, [], []⟩ →
      Gathered X (blockGroups X src.records) src.records .start store := by
    rintro store rfl
    exact ⟨fun b hb => (by cases hb), rfl, rfl, fun b hb => (by cases hb)⟩
  refine ((writeBlockRecords_spec X _ blockBatch txBatch src.ending src.records .start).pre hstart).bind fun x => ?_
  obtain ⟨w, records⟩ := x
  refine Triple.ofExcept_bind (fun _ _ _ _ => trivial) fun _ hend => ?_
  cases records <;> exact .pure fun store h => ⟨h.1.committed, checkBlocksEnd_ok hend h.1.counted, rfl⟩

theorem Committed.headers (h : Committed X (blockGroups X records) blocks) :
    blocks.map PendingBlock.record <+: headerRecords X records := by
  have hmap := h.groups.map BlockGroup.record
  rwa [map_blockGroups, List.map_map] at hmap

/-- What has arrived was checked, so only a record that is missing can make a difference. -/
theorem Checked.matches_iff (h : Checked X b) : b.Matches X ↔ (b.group []).Rooted X := by
  refine and_congr ?_ ?_
  · cases htxs : b.body with
    | none => simp [PendingBlock.group, PendingBlock.record, htxs, hasBody, eq_comm]
    | some txs => simp [PendingBlock.group, htxs, h.body txs htxs]
  · cases hrs : b.receipts with
    | none => simp [PendingBlock.group, PendingBlock.record, hrs, hasReceipts, eq_comm]
    | some rs => simp [PendingBlock.group, hrs, h.receipts rs hrs]

/-- **The committed blocks match their headers** exactly if, among as many headers of the stream, every one without a
body or without receipts before the next has the root of the empty list. -/
theorem committed_blocks_match_headers (X : BlockCodec Tx Receipt) (blockBatch txBatch : ℕ) (src : Source)
    (store : BlockStore Tx Receipt) (hcut : Cut (writeBlocks X blockBatch txBatch src) ⟨none, [], []⟩ store) :
    store.blocks.map PendingBlock.record <+: headerRecords X src.records ∧
      ((∀ b ∈ store.blocks, b.Matches X) ↔
        ∀ g ∈ (blockGroups X src.records).take store.blocks.length, g.Rooted X) := by
  have hcommitted : Committed X (blockGroups X src.records) store.blocks := by
    rcases Relation.ReflTransGen.cases_tail ((writeBlocks_spec X blockBatch txBatch src).cut rfl hcut) with
      rfl | ⟨_, -, h⟩
    · exact ⟨fun b hb => (by cases hb), List.nil_prefix⟩
    · exact h
  have htake := List.prefix_iff_eq_take.mp hcommitted.groups
  rw [List.length_map] at htake
  refine ⟨hcommitted.headers, ?_⟩
  rw [← htake, List.forall_mem_map]
  exact forall₂_congr fun b hb => (hcommitted.checked b hb).matches_iff

/-- Transactions and receipts are numbers, and a root is the length of its list; a header is its transactions root. -/
def countingCodec : BlockCodec UInt8 UInt8 where
  decodeHeader rlp :=
    match rlp with
    | [_, root] => some (⟨0, 0, BitVec.ofNat 256 root.toNat, BitVec.ofNat 256 root.toNat⟩, [])
    | _ => none
  decodeBody rlp := some (rlp, [])
  txType tx := tx
  decodeStoredReceipts rlp _ := some rlp
  calculateTransactionRoot txs := BitVec.ofNat 256 txs.length
  calculateReceiptRoot rs := BitVec.ofNat 256 rs.length

/-- A stream with one block, whose header has the given transactions root, and the given records of it. -/
def oneBlock (root : UInt8) (records : Bytes) : Bytes :=
  magic ++ [0xf1, 0] ++ List.replicate 32 0xee ++ [1] ++ List.replicate 32 0 ++ [0, 0xf2] ++
    [0x01, 0] ++ List.replicate 32 0 ++ [2, 0xc1, root] ++ records ++ [0x00, 0xf3] ++
    [0x01, 1, 0, 1] ++ List.replicate 32 0x11 ++ List.replicate 32 0xee ++ [0] ++ [0x00, 0xf4, 0x00, 0xff]

/-- What the import of such a stream commits. -/
def committedBlocks (bytes : Bytes) : Option (List (List (PendingBlock UInt8 UInt8))) :=
  (SnapshotStream.openStream bytes).toOption.map fun st =>
    (writeBlocks countingCodec 4000 50000 (st.source fun _ => 0) ⟨none, [], []⟩).writes.map BlockStore.blocks

theorem exists_of_committedBlocks {bytes : Bytes} {b : PendingBlock UInt8 UInt8}
    (h : committedBlocks bytes = some [[b]]) : ∃ st store, SnapshotStream.openStream bytes = .ok st ∧
      Cut (writeBlocks countingCodec 4000 50000 (st.source fun _ => 0)) ⟨none, [], []⟩ store ∧ store.blocks = [b] := by
  obtain ⟨st, hst, hwrites⟩ := Option.map_eq_some_iff.mp h
  obtain ⟨store, hwrites, hblocks⟩ := List.map_eq_singleton_iff.mp hwrites
  exact ⟨st, store, toOption_eq_some.mp hst, .inr (by rw [hwrites]; simp), hblocks⟩

theorem committed_blocks_match_headers_two_transactions :
    ∃ st store b, SnapshotStream.openStream (oneBlock 2 [0x02, 0, 2, 7, 8, 0x03, 0, 2, 5, 6]) = .ok st ∧
      Cut (writeBlocks countingCodec 4000 50000 (st.source fun _ => 0)) ⟨none, [], []⟩ store ∧ b ∈ store.blocks ∧
      b.body = some [7, 8] ∧ b.Matches countingCodec := by
  obtain ⟨st, store, hst, hcut, hblocks⟩ := exists_of_committedBlocks
    (b := ⟨0, 0, ⟨0, 0, 2, 2⟩, some [7, 8], some [5, 6]⟩) (by decide +kernel :
      committedBlocks (oneBlock 2 [0x02, 0, 2, 7, 8, 0x03, 0, 2, 5, 6]) = _)
  have hmem : (⟨0, 0, ⟨0, 0, 2, 2⟩, some [7, 8], some [5, 6]⟩ : PendingBlock UInt8 UInt8) ∈ store.blocks := by
    simp [hblocks]
  have hgroups : ((SnapshotStream.openStream (oneBlock 2 [0x02, 0, 2, 7, 8, 0x03, 0, 2, 5, 6])).toOption.map fun st =>
      blockGroups countingCodec (st.source fun _ => 0).records) = some [⟨(0, 0, ⟨0, 0, 2, 2⟩), true, true⟩] := by
    decide +kernel
  rw [hst] at hgroups
  refine ⟨st, store, _, hst, hcut, hmem, rfl,
    (committed_blocks_match_headers countingCodec 4000 50000 _ store hcut).2.mpr (fun g hg => ?_) _ hmem⟩
  rw [show blockGroups _ _ = _ from Option.some.inj hgroups, hblocks] at hg
  obtain rfl := List.mem_singleton.mp hg
  exact ⟨nofun, nofun⟩

/-- A header that commits to two transactions without any other record: the block is committed without a body. -/
theorem absent_body_is_committed : ∃ st store b, SnapshotStream.openStream (oneBlock 2 []) = .ok st ∧
      Cut (writeBlocks countingCodec 4000 50000 (st.source fun _ => 0)) ⟨none, [], []⟩ store ∧ b ∈ store.blocks ∧
      countingCodec.calculateTransactionRoot (b.body.getD []) ≠ b.header.transactionsRoot := by
  obtain ⟨st, store, hst, hcut, hblocks⟩ := exists_of_committedBlocks
    (b := ⟨0, 0, ⟨0, 0, 2, 2⟩, none, none⟩) (by decide +kernel : committedBlocks (oneBlock 2 []) = _)
  exact ⟨st, store, _, hst, hcut, by rw [hblocks]; exact List.mem_singleton_self _, by decide⟩

end ArbReth.Snapshot
