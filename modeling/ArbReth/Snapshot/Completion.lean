import ArbReth.Snapshot.Import

/-! # What the completion manifest of a snapshot stands for

The completion manifest has the state root of the head header.  Nothing compares that header with the root in the manifest
of the stream, against which the computed root was compared, and `snapshot finalize` computes no root.  So the completion
manifest stands for a verified state only if the two roots of the stream agree, and if `snapshot finalize` is kept for
imports that have passed their check.

`snapshot finalize` has no stream.  After a cut of the final steps it comes to the same end as the import, except for what
it cannot know: the resume point of the stream, and what the files are to be called. -/

namespace ArbReth.Snapshot

open ArbReth.Codec (Bytes)
open ArbReth.Durable
open ArbReth.Runs (toOption_eq_some)

variable {Tx Receipt : Type} {X : Importer Tx Receipt} {d t : Datadir Tx Receipt}

/-! ### Histories of a datadir -/

section histories
variable (X : Importer Tx Receipt) (accept : Bytes → Prop) (mayFinalize : Bool → Prop)

/-- The datadirs that any sequence of commands can leave, each cut anywhere, and whether the import has passed its
check of the state root.  `accept` and `mayFinalize` restrict the streams and the use of `snapshot finalize`. -/
inductive Reached : Bool → Datadir Tx Receipt → Prop where
  | target (preimages : Bool) (preimageManifest : Option Bool) : Reached false (.target preimages preimageManifest)
  | load {b : Bool} {d t : Datadir Tx Receipt} {bytes : Bytes} (h : Reached b d) (hbytes : accept bytes)
      (hcut : Cut (loadSnapshot X bytes) d t) : Reached b t
  | finish {b : Bool} {d t : Datadir Tx Receipt} {bytes : Bytes} {manifest : Manifest} {historyFrom : ℕ} (h : Reached b d)
      (hbytes : accept bytes) (hload : (loadSnapshot X bytes d).result = .ok (manifest, historyFrom))
      (hcut : Cut (finishImport X manifest historyFrom) ((loadSnapshot X bytes d).final d) t) : Reached true t
  | finalize {b : Bool} {d t : Datadir Tx Receipt} (h : Reached b d) (hb : mayFinalize b)
      (hcut : Cut (finalizeDatadir X) d t) : Reached b t

variable {X accept mayFinalize}

/-- `snapshot import-full`, cut anywhere. -/
theorem Reached.importFull {b : Bool} {bytes : Bytes} (h : Reached X accept mayFinalize b d) (hbytes : accept bytes)
    (hcut : Cut (importFull X bytes) d t) : ∃ b', Reached X accept mayFinalize b' t := by
  rcases hcut.of_bind with hcut | ⟨⟨manifest, historyFrom⟩, hload, hcut⟩
  · exact ⟨b, h.load hbytes hcut⟩
  · exact ⟨true, h.finish hbytes hload hcut⟩

end histories

/-- Every header of the stream at the convert point has the state root of the manifest. -/
def RootsAgree (X : Importer Tx Receipt) (bytes : Bytes) : Prop :=
  ∀ st, SnapshotStream.openStream bytes = .ok st →
    ∀ record ∈ headerRecords X.toBlockCodec (st.source X.keccak256).records,
      record.1 = st.manifest.block → record.2.2.stateRoot = st.manifest.root

/-! ### A verified state -/

/-- The head of a datadir has the root of its state, and the completion manifest names the head. -/
structure Verified (X : Importer Tx Receipt) (block : ℕ) (d : Datadir Tx Receipt) : Prop where
  database : d.database = true
  highest : d.highestHeader = .ok block
  roots : ∀ b ∈ d.blocks.blocks, b.number = block → b.header.stateRoot = X.stateRoot d.state
  complete : ∀ m, d.importManifest = some (.whole m) → ∃ head ∈ d.blocks.blocks, head.number = block ∧
    m = ⟨block, head.hash, head.header.stateRoot⟩

variable {block : ℕ} {head : PendingBlock Tx Receipt}

theorem sealedHeader_ok (h : d.sealedHeader block = .ok head) : head ∈ d.blocks.blocks ∧ head.number = block := by
  rw [Datadir.sealedHeader] at h
  split at h
  · rename_i hfind
    cases h
    exact ⟨List.mem_of_find?_eq_some hfind, by simpa using List.find?_some hfind⟩
  · cases h

variable {historyFrom : ℕ} {manifest : Manifest} {bytes : Bytes}

theorem Loaded.verified (hbytes : RootsAgree X bytes)
    (h : Loaded X bytes manifest historyFrom d t) : Verified X manifest.block t := by
  obtain ⟨st, hopen, rfl, hlanded⟩ := h.landed
  refine ⟨h.opened.database, hlanded.head, fun b hb hnumber => ?_, fun m hm => ?_⟩
  · have hrecord : b.record ∈ headerRecords X.toBlockCodec (st.source X.keccak256).records :=
      hlanded.headers.subset (List.mem_map_of_mem hb)
    exact (hbytes st hopen _ hrecord hnumber).trans h.root.symm
  · rw [h.opened.unfinished.1] at hm
    cases hm

theorem Verified.renaming (h : Verified X block d) (ht : Renaming d t) : Verified X block t := by
  rw [Renaming] at ht
  rw [ht]
  exact ⟨h.database, h.highest, h.roots, h.complete⟩

theorem Verified.finalizing (h : Verified X manifest.block d)
    (ht : Finalizing X manifest historyFrom d t) : Verified X manifest.block t := by
  have hcomplete : ∀ m, t.importManifest = some (.whole m) → ∃ head ∈ d.blocks.blocks, head.number = manifest.block ∧
      m = ⟨manifest.block, head.hash, head.header.stateRoot⟩ := by
    intro m hm
    rcases ht.complete m hm with hm | ⟨head, hhead, rfl⟩
    · exact h.complete m hm
    · obtain ⟨hmem, hnumber⟩ := sealedHeader_ok hhead
      exact ⟨head, hmem, hnumber, rfl⟩
  rw [ht.rest]
  exact ⟨h.database, h.highest, h.roots, hcomplete⟩

/-- The renames and the final steps of an import keep a verified state. -/
theorem Verified.finishImport (h : Verified X manifest.block d)
    (hcut : Cut (finishImport X manifest historyFrom) d t) : Verified X manifest.block t := by
  rcases hcut.of_bind with hcut | ⟨u, hrename, hcut⟩
  · rcases (renameChangesetFilesToHeader_spec (E := fun _ _ => True) d).cut_of_forall rfl hcut with rfl | ht
    · exact h
    · exact h.renaming ht
  · have hrenamed := (renameChangesetFilesToHeader_spec (E := fun _ _ => True) d).finally rfl hrename
    rw [hrenamed] at hcut
    have hd : Verified X manifest.block d.renamed := h.renaming rfl
    rcases (finalize_spec X manifest historyFrom d.renamed).cut_of_forall rfl hcut with rfl | ht
    · exact hd
    · exact hd.finalizing ht

/-! ### `snapshot finalize` -/

/-- What `snapshot finalize` takes from a datadir. -/
structure Resumes (d : Datadir Tx Receipt) (manifest : Manifest) (historyFrom : ℕ) : Prop where
  historyFrom : d.lowestChangesetBlock = .ok historyFrom
  highest : d.highestHeader = .ok manifest.block
  head : ∃ head, d.sealedHeader manifest.block = .ok head ∧
    manifest = ⟨manifest.block, head.header.stateRoot, 0, head.hash, none⟩

theorem Resumes.unique {m m' : Manifest} {f f' : ℕ} (h : Resumes d m f) (h' : Resumes d m' f') : m = m' ∧ f = f' := by
  have hf := Except.ok.inj (h.historyFrom.symm.trans h'.historyFrom)
  have hblock := Except.ok.inj (h.highest.symm.trans h'.highest)
  obtain ⟨head, hhead, hm⟩ := h.head
  obtain ⟨head', hhead', hm'⟩ := h'.head
  rw [hblock] at hhead hm
  cases hhead.symm.trans hhead'
  exact ⟨hm.trans hm'.symm, hf⟩

/-- `snapshot finalize` on a datadir with a database and without a completion manifest. -/
theorem finalizeDatadir_spec (X : Importer Tx Receipt) (d : Datadir Tx Receipt) (hdatabase : d.database = true) :
    Writes (fun t => t = d ∨ ∃ manifest historyFrom, Resumes d manifest historyFrom ∧ Finalizing X manifest historyFrom d t)
      (· = d) (finalizeDatadir X)
      (fun _ t => ∃ manifest historyFrom head, Resumes d manifest historyFrom ∧ Ready X manifest head d ∧
        t = finalized X manifest historyFrom head d)
      fun _ _ => ∀ manifest historyFrom, Resumes d manifest historyFrom → ¬∃ head, Ready X manifest head d := by
  refine Triple.bind (Q := fun d' t => t = d ∧ d' = d) (.get fun t ht => ⟨ht, ht⟩) fun d' => .assume fun hd' => ?_
  subst hd'
  refine Triple.require_bind ?_ fun _ => ?_
  · rintro t - hexists manifest historyFrom - ⟨head, hready⟩
    exact hexists hready.fresh
  refine Triple.ofExcept_bind ?_ fun historyFrom hfrom => ?_
  · intro e he t _ manifest historyFrom hresumes
    rw [hresumes.historyFrom] at he
    cases he
  refine Triple.bind (Q := fun _ t => t = d') (.write ?_) fun _ => ?_
  · rintro t rfl
    rw [if_pos hdatabase]
    exact ⟨.inl rfl, rfl⟩
  refine Triple.bind (Q := fun d'' t => t = d' ∧ d'' = d') (.get fun t ht => ⟨ht, ht⟩) fun d'' => .assume fun hd'' => ?_
  rw [hd'']
  refine Triple.ofExcept_bind ?_ fun block hblock => ?_
  · intro e he t _ manifest historyFrom hresumes
    rw [hresumes.highest] at he
    cases he
  refine Triple.ofExcept_bind ?_ fun head hhead => ?_
  · intro e he t _ manifest historyFrom hresumes
    obtain ⟨head, hhead, -⟩ := hresumes.head
    rw [← Except.ok.inj (hblock.symm.trans hresumes.highest)] at hhead
    rw [hhead] at he
    cases he
  have hresumes : Resumes d' ⟨block, head.header.stateRoot, 0, head.hash, none⟩ historyFrom :=
    ⟨hfrom, hblock, head, hhead, rfl⟩
  refine ((finalize_spec X _ historyFrom d').mono fun _ t ht => .inr ⟨_, _, hresumes, ht⟩).conseq (fun _ h => h) ?_ ?_
  · rintro _ t ⟨head', hready, rfl⟩
    exact ⟨_, _, head', hresumes, hready, rfl⟩
  · intro _ t hnot manifest historyFrom' hresumes'
    rw [(hresumes'.unique hresumes).1]
    exact hnot

theorem Verified.finalizeDatadir (h : Verified X block d) (hcut : Cut (finalizeDatadir X) d t) :
    Verified X block t := by
  rcases (finalizeDatadir_spec X d h.database).cut_of_forall rfl hcut with rfl | rfl | ⟨manifest, historyFrom, hresumes, ht⟩
  · exact h
  · exact h
  · obtain rfl : manifest.block = block := Except.ok.inj (hresumes.highest.symm.trans h.highest)
    exact h.finalizing ht

/-! ### The completion manifest -/

/-- What holds of a datadir before and after its import has passed the check. -/
def Sound (X : Importer Tx Receipt) (b : Bool) (d : Datadir Tx Receipt) : Prop :=
  if b then ∃ block, Verified X block d else d.importManifest = none

theorem Reached.sound {b : Bool} (h : Reached X (RootsAgree X) (· = true) b d) : Sound X b d := by
  induction h with
  | target preimages preimageManifest => rfl
  | @load b d t bytes h hbytes hcut ih =>
    rcases (loadSnapshot_spec X bytes d).cut_of_forall rfl hcut with rfl | ⟨⟨hmanifest, -⟩, hdatabase⟩
    · exact ih
    · cases b with
      | false => exact hmanifest
      | true =>
        obtain ⟨block, hverified⟩ := ih
        rw [hverified.database] at hdatabase
        cases hdatabase
  | @finish b d t bytes manifest historyFrom h hbytes hload hcut ih =>
    have hloaded := (loadSnapshot_spec X bytes d).finally rfl hload
    exact ⟨manifest.block, (hloaded.verified hbytes).finishImport hcut⟩
  | @finalize b d t h hb hcut ih =>
    subst hb
    obtain ⟨block, hverified⟩ := ih
    exact ⟨block, hverified.finalizeDatadir hcut⟩

/-- **The completion manifest stands for a verified state**, if the headers of all streams have the root of their
manifest and `snapshot finalize` is run only after a verified import. -/
theorem completion_manifest_verified (X : Importer Tx Receipt) (b : Bool) (d : Datadir Tx Receipt)
    (h : Reached X (RootsAgree X) (· = true) b d) (m : SnapshotImportManifest)
    (hm : d.importManifest = some (.whole m)) :
    ∃ head ∈ d.blocks.blocks, head.number = m.blockNumber ∧ head.hash = m.blockHash ∧
      head.header.stateRoot = m.stateRoot ∧ X.stateRoot d.state = m.stateRoot := by
  have hsound := h.sound
  cases b with
  | false =>
    rw [show d.importManifest = none from hsound] at hm
    cases hm
  | true =>
    obtain ⟨block, hverified⟩ := hsound
    obtain ⟨head, hmem, hnumber, rfl⟩ := hverified.complete m hm
    exact ⟨head, hmem, hnumber, rfl, rfl, (hverified.roots head hmem hnumber).symm⟩

/-- Headers are their state root, the hash of a short text is the text, and the root of a state is the nonce of one
account. -/
def toyImporter : Importer UInt8 UInt8 where
  decodeHeader rlp :=
    match rlp with
    | [_, root] => some (⟨0, BitVec.ofNat 256 root.toNat, 0, 0⟩, [])
    | _ => none
  decodeBody rlp := some (rlp, [])
  txType tx := tx
  decodeStoredReceipts rlp _ := some rlp
  calculateTransactionRoot txs := BitVec.ofNat 256 txs.length
  calculateReceiptRoot rs := BitVec.ofNat 256 rs.length
  keccak256 bytes := BitVec.ofNat 256 (Codec.ofBe (1 :: bytes))
  hashSlow b := b.hash
  stateRoot s := BitVec.ofNat 256 ((s.accounts 1).elim 0 PreviousAccount.nonce)
  execute _ target _ _ _ _ := some ([([0], [1])], ⟨target, true⟩)
  advances h hdone := by cases h; cases hdone

/-- A word with the given last bytes. -/
def word (bytes : Bytes) : Bytes := List.replicate (32 - bytes.length) 0 ++ bytes

/-- A stream with the block 0 and one account: the roots in the manifest and in the header, the nonce of the account, and
the resume point. -/
def toyStream (root headerRoot nonce : UInt8) (resume : Bytes) : Bytes :=
  magic ++ [0xf1, 0] ++ word [root] ++ [1] ++ word [1, 0xc1, headerRoot] ++ resume ++ [0xf2] ++
    [0x01, 0] ++ word [1, 0xc1, headerRoot] ++ [2, 0xc1, headerRoot] ++ [0x00, 0xf3] ++
    [0x01, 1, 0, 1] ++ word [0] ++ word [root] ++ [0] ++ [0x00, 0xf4] ++
    [0x04] ++ word [1] ++ [nonce, 0, 0] ++ [0x00, 0xff]

/-- The datadir after the import of a stream into an empty target. -/
def imported (bytes : Bytes) : Datadir UInt8 UInt8 :=
  (importFull toyImporter bytes (.target false none)).final (.target false none)

theorem reached_imported (accept : Bytes → Prop) (mayFinalize : Bool → Prop) (bytes : Bytes) (hbytes : accept bytes) :
    ∃ b, Reached toyImporter accept mayFinalize b (imported bytes) :=
  (Reached.target false none).importFull hbytes (Cut.final _ _)

/-- The roots of the stream, as far as it can be read. -/
def agreeingRoots (bytes : Bytes) : Option Bool :=
  (SnapshotStream.openStream bytes).toOption.map fun st =>
    (headerRecords toyImporter.toBlockCodec (st.source toyImporter.keccak256).records).all fun record =>
      record.2.2.stateRoot = st.manifest.root

theorem rootsAgree_of_eq (h : agreeingRoots bytes = some true) : RootsAgree toyImporter bytes := by
  intro st hst record hrecord _
  rw [agreeingRoots, hst] at h
  have hall := List.all_eq_true.mp (Option.some.inj h) record hrecord
  simpa using hall

theorem completion_manifest_verified_toy :
    ∃ b, Reached toyImporter (RootsAgree toyImporter) (· = true) b (imported (toyStream 5 5 5 [0])) ∧
      (imported (toyStream 5 5 5 [0])).importManifest = some (.whole ⟨0, 0x1c105, 5⟩) ∧
      ∃ head ∈ (imported (toyStream 5 5 5 [0])).blocks.blocks, head.number = 0 ∧ head.hash = 0x1c105 ∧
        head.header.stateRoot = 5 ∧ toyImporter.stateRoot (imported (toyStream 5 5 5 [0])).state = 5 := by
  have hagree : RootsAgree toyImporter (toyStream 5 5 5 [0]) := rootsAgree_of_eq (by decide +kernel)
  obtain ⟨b, hb⟩ := reached_imported _ (· = true) _ hagree
  have hm : (imported (toyStream 5 5 5 [0])).importManifest = some (.whole ⟨0, 0x1c105, 5⟩) := by decide +kernel
  exact ⟨b, hb, hm, completion_manifest_verified toyImporter b _ hb _ hm⟩

/-- The state of the stream has the root 6 instead of 5.  The import stops there, and `snapshot finalize` completes it. -/
theorem rejected_import_is_completed : ∃ b d m, Reached toyImporter (RootsAgree toyImporter) (fun _ => True) b d ∧
      d.importManifest = some (.whole m) ∧ toyImporter.stateRoot d.state ≠ m.stateRoot := by
  have hagree : RootsAgree toyImporter (toyStream 5 5 6 [0]) := rootsAgree_of_eq (by decide +kernel)
  obtain ⟨b, hb⟩ := reached_imported _ (fun _ => True) _ hagree
  have hfinalize := hb.finalize trivial (Cut.final _ _)
  refine ⟨b, _, ⟨0, 0x1c105, 5⟩, hfinalize, ?_, ?_⟩
  · decide +kernel
  · decide +kernel

/-! ### After a cut -/

/-- All parts of a file are named after its header. -/
def SegmentFile.Matches (f : SegmentFile) : Prop :=
  f.data = f.header ∧ f.conf = f.header ∧ f.off = f.header ∧ f.csoff = f.header

theorem segmentFile_renamed_matches (lo i : ℕ) : (segmentFile lo i).renamed.Matches := by
  rw [SegmentFile.renamed, SegmentFile.renames]
  split
  · rename_i h
    exact ⟨h, h, h, h⟩
  · exact ⟨rfl, rfl, rfl, rfl⟩

theorem mem_segmentFiles {α : Type} {start : Option ℕ} {entries : List (ℕ × α)} {f : SegmentFile}
    (hf : f ∈ segmentFiles start entries) : ∃ lo i, f = segmentFile lo i := by
  unfold segmentFiles at hf
  split at hf
  · obtain ⟨i, -, rfl⟩ := List.mem_map.mp hf
    exact ⟨_, i, rfl⟩
  · cases hf

theorem segmentFile_header_fst (lo i : ℕ) :
    (segmentFile lo i).header.1 = max lo ((lo / blocksPerFile + i) * blocksPerFile) := rfl

theorem le_segmentFile_header (lo i : ℕ) : lo ≤ (segmentFile lo i).header.1 := by
  rw [segmentFile_header_fst]
  exact le_max_left _ _

theorem segmentFile_zero_header (lo : ℕ) : (segmentFile lo 0).header.1 = lo := by
  rw [segmentFile_header_fst, Nat.add_zero]
  exact max_eq_left (Nat.div_mul_le_self lo blocksPerFile)

theorem segmentFiles_eq {α : Type} {lo hi : ℕ} {a : α} {entries : List (ℕ × α)} (h : entries.getLast? = some (hi, a)) :
    segmentFiles (some lo) entries = (List.range (hi / blocksPerFile - lo / blocksPerFile + 1)).map (segmentFile lo) := by
  unfold segmentFiles
  rw [h]

theorem min_renamed_data (lo n : ℕ) :
    (((List.range (n + 1)).map (segmentFile lo)).map fun f => f.renamed.data.1).min? = some lo := by
  rw [List.min?_eq_some_iff]
  simp only [List.map_map, List.mem_map, Function.comp_apply, SegmentFile.renamed_data]
  constructor
  · exact ⟨0, List.mem_range.mpr n.succ_pos, segmentFile_zero_header lo⟩
  · rintro _ ⟨i, -, rfl⟩
    exact le_segmentFile_header lo i

/-- The names tell where the history starts, once they match the headers. -/
theorem Filed.lowestChangesetBlock (h : Filed historyFrom d) : d.renamed.lowestChangesetBlock = .ok historyFrom := by
  obtain ⟨⟨hi, changes⟩, hentry⟩ : ∃ entry, d.changesets.accounts.getLast? = some entry :=
    ⟨_, List.getLast?_eq_some_getLast h.entries⟩
  have hfiles := h.accountFiles
  rw [h.start, segmentFiles_eq hentry] at hfiles
  have hmin : (d.renamed.accountFiles.map fun f => f.data.1).min? = some historyFrom := by
    rw [Datadir.renamed, List.map_map, hfiles]
    exact min_renamed_data historyFrom _
  rw [Datadir.lowestChangesetBlock, hmin]

theorem historyBoundary_idem (historyFrom : ℕ) (old : Option ℕ) :
    historyBoundary historyFrom (historyBoundary historyFrom old) = historyBoundary historyFrom old := by
  unfold historyBoundary
  split <;> rfl

/-- Run again on what any of its commits has left, a stage of reth succeeds with the same index. -/
def Importer.Restartable (X : Importer Tx Receipt) : Prop :=
  ∀ stage target blocks changesets rows, (executeStage X stage target blocks changesets none rows).result = .ok () →
    ∀ rows' ∈ rows :: (executeStage X stage target blocks changesets none rows).writes,
      (executeStage X stage target blocks changesets none rows').result = .ok () ∧
        (executeStage X stage target blocks changesets none rows').final rows' =
          (executeStage X stage target blocks changesets none rows).final rows

theorem Finalizing.stageRun (hX : X.Restartable) (ht : Finalizing X manifest historyFrom d t) (stage : IndexStage)
    (h : (X.stageRun manifest.block d stage).result = .ok ()) : (X.stageRun manifest.block t stage).result = .ok () ∧
      X.index manifest.block t stage = X.index manifest.block d stage := by
  have hblocks : t.blocks = d.blocks := by rw [ht.rest]
  have hchangesets : t.changesets = d.changesets := by rw [ht.rest]
  have hrun := hX stage manifest.block d.blocks d.changesets (d.indices stage) h (t.indices stage) (ht.indices stage)
  rw [← hblocks, ← hchangesets] at hrun
  exact ⟨hrun.1, by rw [Importer.index, Importer.stageRun, hrun.2, hblocks, hchangesets]; rfl⟩

/-- The final steps after a cut of them leave what they would have left without it, but for the resume point. -/
theorem Finalizing.finalized_eq (hX : X.Restartable) (ht : Finalizing X manifest historyFrom d t)
    (hready : Ready X manifest head d) (manifest' : Manifest) (hblock : manifest'.block = manifest.block)
    (hlog : finalLog manifest' t.resumeLog = finalLog manifest d.resumeLog) :
    finalized X manifest' historyFrom head t = finalized X manifest historyFrom head d := by
  have hboundary : historyBoundary historyFrom t.historyBoundary = historyBoundary historyFrom d.historyBoundary := by
    rcases ht.boundary with h | h
    · rw [h]
    · rw [h, historyBoundary_idem]
  have hindices : X.index manifest.block t = X.index manifest.block d :=
    funext fun stage => (ht.stageRun hX stage (hready.indexed stage)).2
  rw [finalized, hboundary, hlog, hblock, hindices, ht.rest]
  rfl

/-- **`snapshot finalize` resumes an import** that is cut in its final steps, after the changeset files are renamed. -/
theorem finalize_resumes_import (X : Importer Tx Receipt) (hX : X.Restartable) (bytes : Bytes) (d : Datadir Tx Receipt) (manifest : Manifest)
    (historyFrom : ℕ) (himport : (importFull X bytes d).result = .ok ())
    (hload : (loadSnapshot X bytes d).result = .ok (manifest, historyFrom)) (loaded renamed t : Datadir Tx Receipt)
    (hloaded : (loadSnapshot X bytes d).final d = loaded)
    (hrenamed : (renameChangesetFilesToHeader loaded).final loaded = renamed)
    (hcut : Cut (finalize X manifest historyFrom) renamed t) (hmanifest : t.importManifest = none)
    (hlog : ∀ resume, manifest.resume = some resume → t.resumeLog = some (.whole (resumeLogOf resume))) :
    (finalizeDatadir X t).result = .ok () ∧ (finalizeDatadir X t).final t = (importFull X bytes d).final d ∧
      ((importFull X bytes d).final d).historyBoundary = (if historyFrom = 0 then none else some (historyFrom - 1)) ∧
      ∀ f ∈ ((importFull X bytes d).final d).accountFiles ++ ((importFull X bytes d).final d).storageFiles, f.Matches := by
  -- the import went through its check, the renames and the final steps
  obtain ⟨x, hx, hfinish, hfinal⟩ := ended_bind himport
  cases hload.symm.trans hx
  have hsnapshot := (loadSnapshot_spec X bytes d).finally rfl hload
  rw [hloaded] at hsnapshot hfinish hfinal
  obtain ⟨u, hrename, hfinalize, hfinal'⟩ := ended_bind hfinish
  have hrenamed' := (renameChangesetFilesToHeader_spec (E := fun _ _ => True) loaded).finally rfl hrename
  rw [hrenamed] at hrenamed' hfinalize hfinal'
  subst hrenamed'
  obtain ⟨head, hready, hend⟩ := (finalize_spec X manifest historyFrom loaded.renamed).finally rfl hfinalize
  obtain ⟨st, -, rfl, hlanded⟩ := hsnapshot.landed
  have himported : (importFull X bytes d).final d = finalized X st.manifest historyFrom head loaded.renamed :=
    hfinal.trans (hfinal'.trans hend)
  -- what the cut has left
  have ht : Finalizing X st.manifest historyFrom loaded.renamed t := by
    rcases (finalize_spec X st.manifest historyFrom loaded.renamed).cut_of_forall rfl hcut with rfl | ht
    · exact .of_indices _ fun stage => List.mem_cons_self
    · exact ht
  have hblocks : t.blocks = loaded.blocks := by
    rw [ht.rest]
    rfl
  have hheader : t.sealedHeader st.manifest.block = .ok head := by
    rw [Datadir.sealedHeader, hblocks]
    exact hready.header
  -- `snapshot finalize` finds the same convert point, head and first block
  have hresumes : Resumes t ⟨st.manifest.block, head.header.stateRoot, 0, head.hash, none⟩ historyFrom := by
    refine ⟨?_, ?_, head, hheader, rfl⟩
    · have hfiles : t.accountFiles = loaded.renamed.accountFiles := by rw [ht.rest]
      rw [Datadir.lowestChangesetBlock, hfiles]
      exact hsnapshot.filed.lowestChangesetBlock
    · rw [Datadir.highestHeader, hblocks]
      exact hlanded.head
  have hready' : Ready X ⟨st.manifest.block, head.header.stateRoot, 0, head.hash, none⟩ head t :=
    ⟨fun stage => (ht.stageRun hX stage (hready.indexed stage)).1, hheader, rfl, fun r hr => (by cases hr), hready.valid,
      hmanifest⟩
  have hdatabase : t.database = true := by
    rw [ht.rest]
    exact hsnapshot.opened.database
  obtain ⟨u', hresult, manifest', historyFrom', head', hresumes', hready'', hfinal''⟩ :=
    (finalizeDatadir_spec X t hdatabase).succeeds rfl fun _ _ hnot => hnot _ _ hresumes ⟨head, hready'⟩
  obtain ⟨rfl, rfl⟩ := hresumes'.unique hresumes
  obtain rfl := Except.ok.inj (hready''.header.symm.trans hheader)
  have hlog' : finalLog ⟨st.manifest.block, head'.header.stateRoot, 0, head'.hash, none⟩ t.resumeLog =
      finalLog st.manifest loaded.renamed.resumeLog := by
    cases hresume : st.manifest.resume with
    | none =>
      rw [finalLog, finalLog, hresume]
      exact ht.log hresume
    | some resume =>
      rw [finalLog, finalLog, hresume]
      exact hlog resume hresume
  refine ⟨hresult, hfinal''.trans ((ht.finalized_eq hX hready ⟨_, _, 0, _, none⟩ rfl hlog').trans himported.symm), ?_, ?_⟩
  · rw [himported]
    exact congrArg (historyBoundary historyFrom') hsnapshot.opened.boundary
  · intro f hf
    rw [himported] at hf
    obtain ⟨f', hf', rfl⟩ : ∃ f', (∃ lo i, f' = segmentFile lo i) ∧ f'.renamed = f := by
      rcases List.mem_append.mp hf with hf | hf
      · obtain ⟨f', hf', rfl⟩ := List.mem_map.mp hf
        exact ⟨f', mem_segmentFiles (hsnapshot.filed.accountFiles ▸ hf'), rfl⟩
      · obtain ⟨f', hf', rfl⟩ := List.mem_map.mp hf
        exact ⟨f', mem_segmentFiles (hsnapshot.filed.storageFiles ▸ hf'), rfl⟩
    obtain ⟨lo, i, rfl⟩ := hf'
    exact segmentFile_renamed_matches lo i

/-- The datadir after the check of the state root, and after the renames. -/
def checkedToy (bytes : Bytes) : Datadir UInt8 UInt8 :=
  (loadSnapshot toyImporter bytes (.target false none)).final (.target false none)

def renamedToy (bytes : Bytes) : Datadir UInt8 UInt8 :=
  (renameChangesetFilesToHeader (checkedToy bytes)).final (checkedToy bytes)

/-- What is observed at the first write with a condition, in the last part of an import. -/
def cutToy {α : Type} (bytes : Bytes) (run : Manifest → ℕ → ImportProg UInt8 UInt8 Unit) (start : Datadir UInt8 UInt8)
    (stop : Datadir UInt8 UInt8 → Bool) (observe : Manifest → Datadir UInt8 UInt8 → α) : Option α :=
  (loadSnapshot toyImporter bytes (.target false none)).result.toOption.bind fun x =>
    ((run x.1 x.2 start).writes.find? stop).map (observe x.1)

theorem exists_of_cutToy {α : Type} {run : Manifest → ℕ → ImportProg UInt8 UInt8 Unit}
    {start : Datadir UInt8 UInt8} {stop : Datadir UInt8 UInt8 → Bool} {observe : Manifest → Datadir UInt8 UInt8 → α} {a : α}
    (h : cutToy bytes run start stop observe = some a) : ∃ manifest historyFrom t,
      (loadSnapshot toyImporter bytes (.target false none)).result = .ok (manifest, historyFrom) ∧
      Cut (run manifest historyFrom) start t ∧ observe manifest t = a := by
  obtain ⟨⟨manifest, historyFrom⟩, hload, h⟩ := Option.bind_eq_some_iff.mp h
  obtain ⟨t, ht, rfl⟩ := Option.map_eq_some_iff.mp h
  exact ⟨manifest, historyFrom, t, toOption_eq_some.mp hload, .inr (List.mem_of_find?_eq_some ht), rfl⟩

theorem restartable_toyImporter : toyImporter.Restartable := by
  intro stage target blocks changesets rows _ rows' _
  have hrun (rows : IndexRows) : executeStage toyImporter stage target blocks changesets none rows =
      ⟨[[([0], [1])]], .ok ()⟩ := by
    rw [executeStage]
    rfl
  rw [hrun, hrun]
  exact ⟨rfl, rfl⟩

theorem finalize_resumes_import_toy : ∃ manifest historyFrom t,
      (importFull toyImporter (toyStream 5 5 5 [1, 9, 3, 0]) (.target false none)).result = .ok () ∧
      (loadSnapshot toyImporter (toyStream 5 5 5 [1, 9, 3, 0]) (.target false none)).result = .ok (manifest, historyFrom) ∧
      Cut (finalize toyImporter manifest historyFrom) (renamedToy (toyStream 5 5 5 [1, 9, 3, 0])) t ∧
      manifest.resume = some ⟨9, 3, 0⟩ ∧ t.importManifest = none ∧ t.resumeLog = some (.whole ⟨[⟨9, 3, 0⟩]⟩) ∧
      (finalizeDatadir toyImporter t).final t = imported (toyStream 5 5 5 [1, 9, 3, 0]) := by
  have himport : (importFull toyImporter (toyStream 5 5 5 [1, 9, 3, 0]) (.target false none)).result.toOption = some () := by
    decide +kernel
  have hcut : cutToy (toyStream 5 5 5 [1, 9, 3, 0]) (finalize toyImporter) (renamedToy (toyStream 5 5 5 [1, 9, 3, 0]))
      (fun t => t.resumeLog = some (.whole ⟨[⟨9, 3, 0⟩]⟩)) (fun m t => (m.resume, t.importManifest, t.resumeLog)) =
      some (some ⟨9, 3, 0⟩, none, some (.whole ⟨[⟨9, 3, 0⟩]⟩)) := by
    decide +kernel
  obtain ⟨manifest, historyFrom, t, hload, hcut, hobserved⟩ := exists_of_cutToy hcut
  obtain ⟨hresume, hmanifest, hlog⟩ : manifest.resume = some ⟨9, 3, 0⟩ ∧ t.importManifest = none ∧
      t.resumeLog = some (.whole ⟨[⟨9, 3, 0⟩]⟩) := by simpa using hobserved
  rw [toOption_eq_some] at himport
  refine ⟨manifest, historyFrom, t, himport, hload, hcut, hresume, hmanifest, hlog,
    (finalize_resumes_import toyImporter restartable_toyImporter _ _ manifest historyFrom himport hload _ _ t rfl rfl hcut hmanifest ?_).2.1⟩
  intro resume hresume'
  cases hresume.symm.trans hresume'
  exact hlog

/-- The import is cut after the commit of the checkpoints: `snapshot finalize` ends without the resume log. -/
theorem resume_log_is_lost : ∃ manifest historyFrom t,
      (importFull toyImporter (toyStream 5 5 5 [1, 9, 3, 0]) (.target false none)).result = .ok () ∧
      (loadSnapshot toyImporter (toyStream 5 5 5 [1, 9, 3, 0]) (.target false none)).result = .ok (manifest, historyFrom) ∧
      Cut (finishImport toyImporter manifest historyFrom) (checkedToy (toyStream 5 5 5 [1, 9, 3, 0])) t ∧
      t.importManifest = none ∧ (finalizeDatadir toyImporter t).result = .ok () ∧
      ((finalizeDatadir toyImporter t).final t).resumeLog ≠ (imported (toyStream 5 5 5 [1, 9, 3, 0])).resumeLog := by
  have himport : (importFull toyImporter (toyStream 5 5 5 [1, 9, 3, 0]) (.target false none)).result.toOption = some () := by
    decide +kernel
  have hlog : (imported (toyStream 5 5 5 [1, 9, 3, 0])).resumeLog = some (.whole ⟨[⟨9, 3, 0⟩]⟩) := by decide +kernel
  have hcut : cutToy (toyStream 5 5 5 [1, 9, 3, 0]) (finishImport toyImporter) (checkedToy (toyStream 5 5 5 [1, 9, 3, 0]))
      (fun t => t.checkpoints.isSome) (fun _ t => (t.importManifest, (finalizeDatadir toyImporter t).result.toOption,
        ((finalizeDatadir toyImporter t).final t).resumeLog)) = some (none, some (), none) := by
    decide +kernel
  obtain ⟨manifest, historyFrom, t, hload, hcut, hobserved⟩ := exists_of_cutToy hcut
  obtain ⟨hmanifest, hresult, hnone⟩ : t.importManifest = none ∧
      (finalizeDatadir toyImporter t).result.toOption = some () ∧
      ((finalizeDatadir toyImporter t).final t).resumeLog = none := by simpa using hobserved
  rw [toOption_eq_some] at himport hresult
  refine ⟨manifest, historyFrom, t, himport, hload, hcut, hmanifest, hresult, ?_⟩
  rw [hnone, hlog]
  simp

end ArbReth.Snapshot
