import ArbReth.Lib.Dense
import ArbReth.Lib.Durable
import ArbReth.Snapshot.Source

/-! # The state history of a snapshot, as changesets

The history objects of a stream say what a block has overwritten, which is what reth keeps in its changeset segments.
The segments are indexed by position, so that a block without an object needs an empty entry.  `write_history`
(`commands/snapshot_full.rs`) collects objects until they have enough entries and then appends them with the empty
entries before each; a cursor carries the next block from one batch to the next.

Whatever the size of a batch, the entries are those that `Dense.fill` gives for all the objects at once. -/

namespace ArbReth.Snapshot

open ArbReth.Runs
open ArbReth.Codec (Bytes)
open ArbReth.Dense
open ArbReth.Durable (Prog Triple Outcome)
open ArbReth.Storage (U256)

structure AccountBeforeTx where
  address : Address
  info : Option PreviousAccount
deriving DecidableEq, Repr

structure StorageBeforeTx where
  address : Address
  key : B256
  value : U256
deriving DecidableEq, Repr

def HistoryObject.accountsBefore (object : HistoryObject) : List AccountBeforeTx :=
  object.accounts.map fun account => ⟨account.address, account.previous⟩

def HistoryObject.slotsBefore (object : HistoryObject) : List StorageBeforeTx :=
  object.accounts.flatMap fun account => account.storage.map fun slot => ⟨account.address, slot.1, slot.2⟩

/-- The changes that count towards the size of a batch. -/
def HistoryObject.entries (object : HistoryObject) : ℕ :=
  (object.accounts.map fun account => 1 + account.storage.length).sum

/-- The segments of account and storage changesets, with the entries that were appended. -/
structure Changesets where
  expectedBlockStart : Option ℕ
  accounts : List (ℕ × List AccountBeforeTx)
  storage : List (ℕ × List StorageBeforeTx)
deriving DecidableEq, Repr

def Changesets.append (c : Changesets) (block : ℕ) (accounts : List AccountBeforeTx) (slots : List StorageBeforeTx) :
    Changesets :=
  { c with accounts := c.accounts ++ [(block, accounts)], storage := c.storage ++ [(block, slots)] }

structure HistorySectionStats where
  objects : ℕ
  blocks : ℕ
  accounts : ℕ
  slots : ℕ
  firstBlock : ℕ
  lastBlock : ℕ
deriving DecidableEq, Repr

inductive HistoryError where
  | stream (e : StreamError)
  | notAbovePrevious (block previous : ℕ)
  | empty
  | endsAt (lastBlock convertPoint : ℕ)
deriving DecidableEq, Repr

/-! ### One batch -/

/-- The state of `flush_history`; `next` is the next block that the segments expect. -/
structure Flush where
  changesets : Changesets
  stats : HistorySectionStats
  next : ℕ
deriving DecidableEq, Repr

/-- A block that changed nothing. -/
def Flush.appendEmpty (f : Flush) (block : ℕ) : Flush :=
  { f with
    changesets := f.changesets.append block [] []
    stats := { f.stats with blocks := f.stats.blocks + 1 } }

def Flush.appendObject (f : Flush) (object : HistoryObject) : Except HistoryError Flush :=
  if object.block < f.next then .error (.notAbovePrevious object.block (f.next - 1))
  else
    let filled := (List.range' f.next (object.block - f.next)).foldl appendEmpty f
    .ok {
      changesets := filled.changesets.append object.block object.accountsBefore object.slotsBefore
      stats := { filled.stats with
        objects := filled.stats.objects + 1
        blocks := filled.stats.blocks + 1
        accounts := filled.stats.accounts + object.accountsBefore.length
        slots := filled.stats.slots + object.slotsBefore.length
        lastBlock := object.block }
      next := object.block + 1 }

/-- The variables of `write_history`. -/
structure HistoryWriter where
  stats : HistorySectionStats
  batch : List HistoryObject
  batchEntries : ℕ
  cursor : Option ℕ
deriving DecidableEq, Repr

namespace HistoryWriter

def start : HistoryWriter := ⟨⟨0, 0, 0, 0, 0, 0⟩, [], 0, none⟩

/-- Where a batch begins; the segments start at the first block of the first batch. -/
def beginFlush (w : HistoryWriter) (c : Changesets) (first : HistoryObject) : Flush :=
  match w.cursor with
  | some next => ⟨c, w.stats, next⟩
  | none => ⟨{ c with expectedBlockStart := some first.block }, { w.stats with firstBlock := first.block }, first.block⟩

/-- A batch is committed as a whole. -/
def flushHistory (w : HistoryWriter) : Prog Changesets HistoryError HistoryWriter :=
  match w.batch with
  | [] => pure w
  | first :: _ => do
    let c ← Prog.get
    let done ← Prog.ofExcept (w.batch.foldlM Flush.appendObject (w.beginFlush c first))
    Prog.write fun _ => done.changesets
    return { w with stats := done.stats, cursor := some done.next, batch := [] }

def push (w : HistoryWriter) (object : HistoryObject) : HistoryWriter :=
  { w with batch := w.batch ++ [object], batchEntries := w.batchEntries + object.entries }

end HistoryWriter

/-! ### The section -/

/-- The records of the section; the first one that is not of the history goes back to the stream. -/
def writeObjects (changesetBatch : ℕ) (ending : Option StreamError) :
    List Record → Option (ℕ × B256) → HistoryWriter →
      Prog Changesets HistoryError (HistoryWriter × List Record × Option (ℕ × B256))
  | [], last, w =>
    match ending with
    | some e => Prog.fail (.stream e)
    | none => do
      let flushed ← w.flushHistory
      return (flushed, [], last)
  | record :: records, last, w =>
    match record with
    | .history object =>
      let w := w.push object
      let last := some (object.block, object.postRoot)
      if changesetBatch ≤ w.batchEntries then do
        let flushed ← w.flushHistory
        writeObjects changesetBatch ending records last { flushed with batchEntries := 0 }
      else writeObjects changesetBatch ending records last w
    | _ => do
      let flushed ← w.flushHistory
      return (flushed, record :: records, last)

/-- What is checked at the end of the section. -/
def checkHistoryEnd (manifest : Manifest) (stats : HistorySectionStats) (last : Option (ℕ × B256)) :
    Except HistoryError Unit :=
  if stats.objects = 0 then .error .empty
  else
    match checkHistoryMeetsState manifest last with
    | .error e => .error (.stream e)
    | .ok () =>
      if stats.lastBlock ≠ manifest.block then .error (.endsAt stats.lastBlock manifest.block) else .ok ()

def writeHistory (changesetBatch : ℕ) (src : Source) : Prog Changesets HistoryError (HistorySectionStats × Source) := do
  let (w, records, last) ← writeObjects changesetBatch src.ending src.records src.lastHistory .start
  Prog.ofExcept (checkHistoryEnd src.manifest w.stats last)
  return (w.stats, { src with records := records, lastHistory := last })

/-! ### What a batch appends -/

/-- The entries that belong to some objects, from a block on. -/
def accountEntries (next : ℕ) (objects : List HistoryObject) : List (ℕ × List AccountBeforeTx) :=
  fill HistoryObject.block HistoryObject.accountsBefore [] next objects

def storageEntries (next : ℕ) (objects : List HistoryObject) : List (ℕ × List StorageBeforeTx) :=
  fill HistoryObject.block HistoryObject.slotsBefore [] next objects

/-- A flush that has appended some objects. -/
structure Appends (f f' : Flush) (objects : List HistoryObject) : Prop where
  accounts : f'.changesets.accounts = f.changesets.accounts ++ accountEntries f.next objects
  storage : f'.changesets.storage = f.changesets.storage ++ storageEntries f.next objects
  expectedBlockStart : f'.changesets.expectedBlockStart = f.changesets.expectedBlockStart
  next : f'.next = after HistoryObject.block f.next objects
  count : f'.stats.objects = f.stats.objects + objects.length
  firstBlock : f'.stats.firstBlock = f.stats.firstBlock
  lastBlock : ∀ o, objects.getLast? = some o → f'.stats.lastBlock = o.block

theorem Flush.foldl_appendEmpty (f : Flush) (blocks : List ℕ) :
    (blocks.foldl appendEmpty f).changesets.accounts = f.changesets.accounts ++ blocks.map (·, []) ∧
      (blocks.foldl appendEmpty f).changesets.storage = f.changesets.storage ++ blocks.map (·, []) ∧
      (blocks.foldl appendEmpty f).changesets.expectedBlockStart = f.changesets.expectedBlockStart ∧
      (blocks.foldl appendEmpty f).stats.objects = f.stats.objects ∧
      (blocks.foldl appendEmpty f).stats.firstBlock = f.stats.firstBlock := by
  induction blocks generalizing f with
  | nil => simp
  | cons block blocks ih =>
    obtain ⟨haccounts, hstorage, hstart, hobjects, hfirst⟩ := ih (f.appendEmpty block)
    rw [List.foldl_cons, haccounts, hstorage, hstart, hobjects, hfirst]
    simp [appendEmpty, Changesets.append]

theorem Flush.appendObject_ok {f f' : Flush} {object : HistoryObject} (h : f.appendObject object = .ok f') :
    Appends f f' [object] := by
  simp only [appendObject] at h
  split at h
  · cases h
  · cases h
    obtain ⟨haccounts, hstorage, hstart, hobjects, hfirst⟩ :=
      f.foldl_appendEmpty (List.range' f.next (object.block - f.next))
    refine ⟨?_, ?_, hstart, rfl, ?_, hfirst, fun o ho => ?_⟩
    · simp [Changesets.append, haccounts, accountEntries, fill]
    · simp [Changesets.append, hstorage, storageEntries, fill]
    · simp [hobjects]
    · cases ho
      rfl

theorem Appends.refl (f : Flush) : Appends f f [] :=
  ⟨by simp [accountEntries, fill], by simp [storageEntries, fill], rfl, rfl, rfl, rfl, fun o ho => by cases ho⟩

theorem Appends.trans {f f' f'' : Flush} {os os' : List HistoryObject} (h : Appends f f' os) (h' : Appends f' f'' os')
    (hlast : os' = [] → os = []) : Appends f f'' (os ++ os') where
  accounts := by
    rw [h'.accounts, h.accounts, h.next, List.append_assoc]
    exact congrArg _ (fill_append _ _ _ _ _ _).symm
  storage := by
    rw [h'.storage, h.storage, h.next, List.append_assoc]
    exact congrArg _ (fill_append _ _ _ _ _ _).symm
  expectedBlockStart := h'.expectedBlockStart.trans h.expectedBlockStart
  next := by rw [h'.next, h.next, after_append]
  count := by rw [h'.count, h.count, List.length_append, Nat.add_assoc]
  firstBlock := h'.firstBlock.trans h.firstBlock
  lastBlock o ho := by
    cases os' with
    | nil =>
      rw [hlast rfl] at ho
      cases ho
    | cons a os' =>
      rw [List.getLast?_append_of_ne_nil _ (by simp)] at ho
      exact h'.lastBlock o ho

theorem foldlM_appendObject {f f' : Flush} {objects : List HistoryObject}
    (h : objects.foldlM Flush.appendObject f = .ok f') : Appends f f' objects := by
  induction objects using List.reverseRecOn generalizing f' with
  | nil =>
    cases h
    exact .refl f
  | append_singleton objects object ih =>
    rw [List.foldlM_append] at h
    obtain ⟨mid, hmid, h⟩ := bind_ok.mp h
    obtain ⟨last, hlast, h⟩ := bind_ok.mp h
    cases h
    exact (ih hmid).trans (Flush.appendObject_ok hlast) fun hnil => by cases hnil

/-! ### What the section writes -/

/-- The first block of some objects, `S_lo`. -/
def firstBlock (objects : List HistoryObject) : ℕ := (objects.head?.map HistoryObject.block).getD 0

/-- These objects have been flushed. -/
structure Written (w : HistoryWriter) (objects : List HistoryObject) (c : Changesets) : Prop where
  accounts : c.accounts = accountEntries (firstBlock objects) objects
  storage : c.storage = storageEntries (firstBlock objects) objects
  count : w.stats.objects = objects.length
  cursor : w.cursor = if objects = [] then none else some (after HistoryObject.block (firstBlock objects) objects)
  start : objects ≠ [] → c.expectedBlockStart = some (firstBlock objects) ∧ w.stats.firstBlock = firstBlock objects
  lastBlock : ∀ o, objects.getLast? = some o → w.stats.lastBlock = o.block

variable {w : HistoryWriter} {objects : List HistoryObject} {c : Changesets}

theorem Written.begin : Written .start [] ⟨none, [], []⟩ :=
  ⟨rfl, rfl, rfl, rfl, fun h => absurd rfl h, fun o ho => by cases ho⟩

theorem Written.batch (hw : Written w objects c) (batch : List HistoryObject) (batchEntries : ℕ) :
    Written { w with batch := batch, batchEntries := batchEntries } objects c :=
  ⟨hw.accounts, hw.storage, hw.count, hw.cursor, hw.start, hw.lastBlock⟩

/-- A batch goes on where the objects that have been flushed end. -/
theorem Written.beginFlush (hw : Written w objects c) (first : HistoryObject) (rest : List HistoryObject) :
    Appends ⟨⟨some (firstBlock (objects ++ first :: rest)), [], []⟩, ⟨0, 0, 0, 0, firstBlock (objects ++ first :: rest), 0⟩,
      firstBlock (objects ++ first :: rest)⟩ (w.beginFlush c first) objects := by
  cases objects with
  | nil =>
    have hcursor : w.cursor = none := hw.cursor
    rw [HistoryWriter.beginFlush, hcursor]
    exact ⟨hw.accounts, hw.storage, rfl, rfl, by simp [hw.count], rfl, fun o ho => by cases ho⟩
  | cons o os =>
    have hcursor : w.cursor = some (after HistoryObject.block o.block (o :: os)) := hw.cursor
    rw [HistoryWriter.beginFlush, hcursor]
    obtain ⟨hstart, hfirst⟩ := hw.start (by simp)
    exact ⟨hw.accounts, hw.storage, hstart, rfl, by simp [hw.count], hfirst, hw.lastBlock⟩

/-- A triple about the end of a program alone. -/
abbrev Finishes {α : Type} (P : Changesets → Prop) (p : Prog Changesets HistoryError α)
    (Q : α → Changesets → Prop) : Prop :=
  Triple (fun _ _ => True) P p Q fun _ _ => True

theorem flushHistory_spec (w : HistoryWriter) (objects : List HistoryObject) :
    Finishes (Written w objects) w.flushHistory fun w' c => Written w' (objects ++ w.batch) c ∧ w'.batch = [] := by
  rw [HistoryWriter.flushHistory]
  split
  · rename_i hbatch
    rw [hbatch, List.append_nil]
    exact .pure fun c hw => ⟨hw, hbatch⟩
  · rename_i first rest hbatch
    refine Triple.bind (Q := fun c c' => Written w objects c' ∧ c' = c) (.get fun c hw => ⟨hw, rfl⟩) fun c => ?_
    refine Triple.ofExcept_bind (fun _ _ _ _ => trivial) fun done hdone => ?_
    refine Triple.bind (Q := fun _ c' => Written w objects c ∧ c' = done.changesets)
      (.write fun c' hw => ⟨trivial, hw.2 ▸ hw.1, rfl⟩) fun _ => .pure ?_
    rintro _ ⟨hw, rfl⟩
    rw [hbatch] at hdone ⊢
    -- everything up to here and this batch, as one run over all the objects
    have happ := (hw.beginFlush first rest).trans (foldlM_appendObject hdone) fun hnil => by cases hnil
    refine ⟨⟨by simpa using happ.accounts, by simpa using happ.storage, by simpa using happ.count, ?_, fun _ => ?_,
      happ.lastBlock⟩, rfl⟩
    · rw [if_neg (by simp)]
      exact congrArg some happ.next
    · exact ⟨happ.expectedBlockStart, happ.firstBlock⟩

/-- The loop flushes the history objects at the front of the records, whatever the size of a batch. -/
theorem writeObjects_spec (changesetBatch : ℕ) (ending : Option StreamError) (records : List Record)
    (last : Option (ℕ × B256)) (w : HistoryWriter) (objects : List HistoryObject) :
    Finishes (Written w objects) (writeObjects changesetBatch ending records last w) fun x c =>
      ∃ os, records = os.map Record.history ++ x.2.1 ∧ Written x.1 (objects ++ w.batch ++ os) c ∧
        ∀ o, x.2.1.head? ≠ some (.history o) := by
  have stop (rest : List Record) (hrest : ∀ o, rest.head? ≠ some (.history o)) (last : Option (ℕ × B256))
      (w : HistoryWriter) (objects : List HistoryObject) :
      Finishes (Written w objects) (do
        let flushed ← w.flushHistory
        return (flushed, rest, last)) fun x c =>
          ∃ os, rest = os.map Record.history ++ x.2.1 ∧ Written x.1 (objects ++ w.batch ++ os) c ∧
            ∀ o, x.2.1.head? ≠ some (.history o) :=
    (flushHistory_spec w objects).bind fun w' => .pure fun c hw => ⟨[], rfl, by simpa using hw.1, hrest⟩
  induction records generalizing last w objects with
  | nil =>
    cases ending with
    | some e =>
      simp only [writeObjects]
      exact .fail fun _ _ => trivial
    | none =>
      simp only [writeObjects]
      exact stop [] (by simp) last w objects
  | cons record records ih =>
    cases record with
    | history object =>
      have hpush (c : Changesets) (hw : Written w objects c) : Written (w.push object) objects c := hw.batch _ _
      simp only [writeObjects]
      split
      · refine ((flushHistory_spec (w.push object) objects).pre hpush).bind fun flushed => .assume fun hbatch => ?_
        refine ((ih _ _ _).pre fun c hw => hw.batch _ _).post ?_
        rintro x c ⟨os, rfl, hos, hrest⟩
        exact ⟨object :: os, rfl, by simpa [hbatch, HistoryWriter.push] using hos, hrest⟩
      · refine ((ih _ (w.push object) objects).pre hpush).post ?_
        rintro x c ⟨os, rfl, hos, hrest⟩
        exact ⟨object :: os, rfl, by simpa [HistoryWriter.push] using hos, hrest⟩
    | _ =>
      simp only [writeObjects]
      exact stop _ (by simp) last w objects

variable {last : Option (ℕ × B256)}

theorem Chained.sorted {convertPoint : ℕ} {objects : List HistoryObject}
    {rest : List Record} (h : Chained convertPoint last (objects.map Record.history ++ rest)) :
    (∀ l, last = some l → ∀ o ∈ objects, l.1 < o.block) ∧ objects.Pairwise (·.block < ·.block) ∧
      ∀ o ∈ objects, o.block ≤ convertPoint := by
  induction objects generalizing last with
  | nil => simp
  | cons o os ih =>
    obtain ⟨hadvances, hrest⟩ := h
    obtain ⟨hle, hlast⟩ := hadvances o rfl
    obtain ⟨habove, hsorted, hbelow⟩ := ih hrest
    have habove : ∀ o' ∈ os, o.block < o'.block := habove _ rfl
    refine ⟨fun l hl o' ho' => ?_, List.pairwise_cons.mpr ⟨habove, hsorted⟩, fun o' ho' => ?_⟩
    · have hlt := (hlast l hl).1
      rcases List.mem_cons.mp ho' with rfl | ho'
      · exact hlt
      · exact hlt.trans (habove o' ho')
    · rcases List.mem_cons.mp ho' with rfl | ho'
      · exact hle
      · exact hbelow o' ho'

theorem checkHistoryEnd_ok {manifest : Manifest} {stats : HistorySectionStats} (h : checkHistoryEnd manifest stats last = .ok ()) : stats.objects ≠ 0 ∧ stats.lastBlock = manifest.block := by
  simp only [checkHistoryEnd] at h
  split at h
  · cases h
  · split at h
    · cases h
    · split at h
      · cases h
      · exact ⟨‹_›, not_not.mp ‹_›⟩

theorem writeHistory_spec (changesetBatch : ℕ) (src : Source) :
    Finishes (· = ⟨none, [], []⟩) (writeHistory changesetBatch src) fun x c =>
      ∃ w os, src.records = os.map Record.history ++ x.2.records ∧ Written w os c ∧
        (∀ o, x.2.records.head? ≠ some (.history o)) ∧ w.stats.objects ≠ 0 ∧
        w.stats.lastBlock = src.manifest.block ∧ x.1 = w.stats := by
  have hbegin : ∀ c : Changesets, c = ⟨none, [], []⟩ → Written .start [] c := by
    rintro c rfl
    exact .begin
  refine ((writeObjects_spec changesetBatch src.ending src.records src.lastHistory .start []).pre hbegin).bind fun x => ?_
  obtain ⟨w, records, last⟩ := x
  refine Triple.ofExcept_bind (fun _ _ _ _ => trivial) fun _ hcheck => .pure ?_
  rintro c ⟨os, hrecords, hos, hrest⟩
  obtain ⟨hobjects, hlast⟩ := checkHistoryEnd_ok hcheck
  exact ⟨w, os, hrecords, hos, hrest, hobjects, hlast, rfl⟩

/-- The entry of a block in the account changesets: what its object has, or nothing. -/
def accountEntry (objects : List HistoryObject) (block : ℕ) : ℕ × List AccountBeforeTx :=
  entry HistoryObject.block HistoryObject.accountsBefore [] objects block

def storageEntry (objects : List HistoryObject) (block : ℕ) : ℕ × List StorageBeforeTx :=
  entry HistoryObject.block HistoryObject.slotsBefore [] objects block

/-- **The changesets cover the history**: one entry for every block from the first object's to the convert point, in
order. -/
theorem changesets_cover_history (keccak256 : Bytes → B256) (bytes : Bytes) (st : SnapshotStream)
    (hopen : SnapshotStream.openStream bytes = .ok st) (src : Source)
    (hsrc : src.records <:+ (st.source keccak256).records) (hmanifest : src.manifest = st.manifest)
    (changesetBatch : ℕ) (outcome : Outcome Changesets HistoryError (HistorySectionStats × Source))
    (houtcome : writeHistory changesetBatch src ⟨none, [], []⟩ = outcome) (stats : HistorySectionStats) (src' : Source)
    (h : outcome.result = .ok (stats, src')) :
    ∃ first rest, src.records = (first :: rest).map Record.history ++ src'.records ∧
      (∀ o, src'.records.head? ≠ some (.history o)) ∧ (first :: rest).Pairwise (·.block < ·.block) ∧
      (outcome.final ⟨none, [], []⟩).expectedBlockStart = some first.block ∧ (outcome.final ⟨none, [], []⟩).accounts =
        (List.range' first.block (st.manifest.block + 1 - first.block)).map (accountEntry (first :: rest)) ∧
      (outcome.final ⟨none, [], []⟩).storage =
        (List.range' first.block (st.manifest.block + 1 - first.block)).map (storageEntry (first :: rest)) := by
  subst houtcome
  obtain ⟨w, os, hrecords, hos, hrest, hobjects, hlast, -⟩ := (writeHistory_spec changesetBatch src).finally rfl h
  -- the reader has checked that the objects advance
  have hheld : st.held = none := by
    obtain ⟨x, -, hx⟩ := bind_ok.mp hopen
    cases hx
    rfl
  obtain ⟨mid, hrun, -⟩ := SnapshotStream.handsOut_drain keccak256 st (st.size + 1)
  obtain ⟨last', hchained⟩ := (hrun.chained hheld).of_suffix hsrc
  rw [hrecords] at hchained
  obtain ⟨-, hsorted, -⟩ := hchained.sorted
  cases os with
  | nil => exact absurd hos.count hobjects
  | cons first rest =>
    have hfrom : ∀ o ∈ first :: rest, first.block ≤ o.block := by
      intro o ho
      rcases List.mem_cons.mp ho with rfl | ho
      · exact le_rfl
      · exact (List.rel_of_pairwise_cons hsorted ho).le
    have hafter : after HistoryObject.block first.block (first :: rest) = st.manifest.block + 1 := by
      obtain ⟨init, o, heq⟩ := List.eq_nil_or_concat (first :: rest) |>.resolve_left (by simp)
      have ho := hos.lastBlock o (by rw [heq]; simp)
      rw [heq, List.concat_eq_append, after_concat, ← ho, hlast, hmanifest]
    refine ⟨first, rest, hrecords, hrest, hsorted, (hos.start (by simp)).1, ?_, ?_⟩
    · rw [hos.accounts, ← hafter]
      exact fill_eq_map hfrom hsorted
    · rw [hos.storage, ← hafter]
      exact fill_eq_map hfrom hsorted

/-- A stream with the convert point 7, no blocks, and history objects at 4 and 7 with one account each. -/
def gapHistory : Bytes :=
  magic ++ [0xf1, 7] ++ List.replicate 32 0xee ++ [2] ++ List.replicate 32 0xaa ++ [0, 0xf2, 0x00, 0xf3] ++
    [0x01, 1, 4, 1] ++ List.replicate 32 0x11 ++ List.replicate 32 0x22 ++ [1] ++ List.replicate 20 0x33 ++ [0, 0] ++
    [0x01, 2, 7, 1] ++ List.replicate 32 0x22 ++ List.replicate 32 0xee ++ [1] ++ List.replicate 20 0x44 ++ [0, 0] ++
    [0x00, 0xf4, 0x00, 0xff]

/-- Flushed after each object, the blocks 5 and 6 get their empty entries. -/
theorem gapHistory_accepted : ((SnapshotStream.openStream gapHistory).toOption.bind fun st =>
      (writeHistory 1 (st.source fun _ => 0) ⟨none, [], []⟩).result.toOption.map fun _ =>
        ((writeHistory 1 (st.source fun _ => 0) ⟨none, [], []⟩).final ⟨none, [], []⟩).accounts.map Prod.fst) =
      some [4, 5, 6, 7] := by
  decide +kernel

theorem changesets_cover_history_gap : ∃ st stats src', SnapshotStream.openStream gapHistory = .ok st ∧
      (writeHistory 1 (st.source fun _ => 0) ⟨none, [], []⟩).result = .ok (stats, src') ∧
      ((writeHistory 1 (st.source fun _ => 0) ⟨none, [], []⟩).final ⟨none, [], []⟩).accounts.map Prod.fst =
        [4, 5, 6, 7] ∧
      ∃ first rest, (st.source fun _ => 0).records = (first :: rest).map Record.history ++ src'.records ∧
        ((writeHistory 1 (st.source fun _ => 0) ⟨none, [], []⟩).final ⟨none, [], []⟩).accounts =
          (List.range' first.block (st.manifest.block + 1 - first.block)).map (accountEntry (first :: rest)) := by
  obtain ⟨st, hst, hwrite⟩ := Option.bind_eq_some_iff.mp gapHistory_accepted
  obtain ⟨⟨stats, src'⟩, hwrite, hblocks⟩ := Option.map_eq_some_iff.mp hwrite
  rw [toOption_eq_some] at hst hwrite
  obtain ⟨first, rest, hrecords, -, -, -, haccounts, -⟩ :=
    changesets_cover_history (fun _ => 0) gapHistory st hst _ (List.suffix_refl _) rfl 1 _ rfl stats src' hwrite
  exact ⟨st, stats, src', hst, hwrite, hblocks, first, rest, hrecords, haccounts⟩

end ArbReth.Snapshot
