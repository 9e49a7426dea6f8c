import ArbReth.Snapshot.Source

/-! # Building a stream, and reading it back

`StreamBuilder` (`arb-reth-genesis/src/snapshot_stream.rs`) writes a stream in memory, with the framing of the exporter.
What it writes for a record is a spelling of it (`Record.spells_fields`); so for a content with linked headers and chained
history objects the reader delivers the records of all three sections and then the end. -/

namespace ArbReth.Snapshot

open ArbReth.Codec
open ArbReth.Storage (U256)

/-! ### The builder -/

structure StreamBuilder where
  out : Bytes

namespace StreamBuilder

def resumeBytes : Option ResumePoint → Bytes
  | none => [0]
  | some r => [1] ++ putUvarint r.l1Block ++ putUvarint r.delayedCount ++ putUvarint r.l2Block

/-- `StreamBuilder::new`. -/
def start (manifest : Manifest) : StreamBuilder :=
  ⟨magic ++ [Section.tag .manifest] ++ putUvarint manifest.block ++ wordBytes manifest.root ++
    putUvarint manifest.stateId ++ wordBytes manifest.hash ++ resumeBytes manifest.resume⟩

def openSection (b : StreamBuilder) (tag : UInt8) : StreamBuilder := ⟨b.out ++ [tag]⟩

def blocks (b : StreamBuilder) : StreamBuilder := b.openSection (Section.tag .blocks)
def historySection (b : StreamBuilder) : StreamBuilder := b.openSection (Section.tag .history)
def state (b : StreamBuilder) : StreamBuilder := b.openSection (Section.tag .state)

def endSection (b : StreamBuilder) : StreamBuilder := ⟨b.out ++ [recEnd]⟩

def header (keccak256 : Bytes → B256) (b : StreamBuilder) (block : ℕ) (rlp : Bytes) : StreamBuilder :=
  ⟨b.out ++ [recHeader] ++ putUvarint block ++ wordBytes (keccak256 rlp) ++ putUvarint rlp.length ++ rlp⟩

def body (b : StreamBuilder) (block : ℕ) (rlp : Bytes) : StreamBuilder :=
  ⟨b.out ++ [recBody] ++ putUvarint block ++ putUvarint rlp.length ++ rlp⟩

def receipts (b : StreamBuilder) (block : ℕ) (rlp : Bytes) : StreamBuilder :=
  ⟨b.out ++ [recReceipts] ++ putUvarint block ++ putUvarint rlp.length ++ rlp⟩

def previousBytes : Option PreviousAccount → Bytes
  | none => [0]
  | some a => [1] ++ putUvarint a.nonce ++ putShort (numberBytes a.balance) ++ putShort (codeHashBytes a.codeHash)

def slotBytes (slot : B256 × U256) : Bytes := wordBytes slot.1 ++ putShort (numberBytes slot.2)

def historyAccountBytes (a : HistoryAccount) : Bytes :=
  addressBytes a.address ++ previousBytes a.previous ++ putUvarint a.storage.length ++ a.storage.flatMap slotBytes

def history (b : StreamBuilder) (o : HistoryObject) : StreamBuilder :=
  ⟨b.out ++ [recHeader] ++ putUvarint o.stateId ++ putUvarint o.block ++ [historyVersionRawSlots] ++
    wordBytes o.parentRoot ++ wordBytes o.postRoot ++ putUvarint o.accounts.length ++
    o.accounts.flatMap historyAccountBytes⟩

def account (b : StreamBuilder) (hashedAddress : B256) (nonce : ℕ) (balance : U256) (codeHash : Option B256) :
    StreamBuilder :=
  ⟨b.out ++ [recAccount] ++ wordBytes hashedAddress ++ putUvarint nonce ++ putShort (numberBytes balance) ++
    putShort (codeHashBytes codeHash)⟩

def storage (b : StreamBuilder) (hashedSlot : B256) (value : U256) : StreamBuilder :=
  ⟨b.out ++ [recStorage] ++ wordBytes hashedSlot ++ putShort (numberBytes value)⟩

def code (keccak256 : Bytes → B256) (b : StreamBuilder) (code : Bytes) : StreamBuilder :=
  ⟨b.out ++ [recCode] ++ wordBytes (keccak256 code) ++ putUvarint code.length ++ code⟩

def finish (b : StreamBuilder) : Bytes := b.out ++ [sectionEnd]

/-- The call for a record.  The hashes of headers and of code are computed. -/
def put (keccak256 : Bytes → B256) (b : StreamBuilder) : Record → StreamBuilder
  | .header block _ rlp => b.header keccak256 block rlp
  | .body block rlp => b.body block rlp
  | .receipts block rlp => b.receipts block rlp
  | .history object => b.history object
  | .account hashedAddress nonce balance codeHash => b.account hashedAddress nonce balance codeHash
  | .storage hashedSlot value => b.storage hashedSlot value
  | .code _ bytes => b.code keccak256 bytes

/-- The calls for the records of the three sections. -/
def build (keccak256 : Bytes → B256) (manifest : Manifest) (blockRecords historyRecords stateRecords : List Record) :
    Bytes :=
  let b := blockRecords.foldl (put keccak256) (start manifest).blocks
  let b := historyRecords.foldl (put keccak256) b.endSection.historySection
  let b := stateRecords.foldl (put keccak256) b.endSection.state
  b.endSection.finish

end StreamBuilder

/-! ### What is written for a record -/

/-- The tag and the fields of a record. -/
def Record.bytes (keccak256 : Bytes → B256) (record : Record) : Bytes := ((StreamBuilder.mk []).put keccak256 record).out

section building
variable (keccak256 : Bytes → B256)

theorem StreamBuilder.put_out (b : StreamBuilder) (record : Record) :
    (b.put keccak256 record).out = b.out ++ record.bytes keccak256 := by
  cases record <;>
    simp [Record.bytes, put, header, body, receipts, history, account, storage, code]

theorem StreamBuilder.foldl_put_out (b : StreamBuilder) (records : List Record) :
    (records.foldl (put keccak256) b).out = b.out ++ records.flatMap (Record.bytes keccak256) := by
  induction records generalizing b with
  | nil => simp
  | cons record records ih => rw [List.foldl_cons, ih, put_out, List.flatMap_cons, List.append_assoc]

theorem StreamBuilder.build_eq (manifest : Manifest) (blockRecords historyRecords stateRecords : List Record) :
    build keccak256 manifest blockRecords historyRecords stateRecords =
      (start manifest).out ++ (Section.tag .blocks :: (blockRecords.flatMap (Record.bytes keccak256) ++
        (recEnd :: Section.tag .history :: (historyRecords.flatMap (Record.bytes keccak256) ++
          (recEnd :: Section.tag .state :: (stateRecords.flatMap (Record.bytes keccak256) ++
            [recEnd, sectionEnd])))))) := by
  simp [build, finish, endSection, state, historySection, blocks, openSection, foldl_put_out]

end building

/-! ### What is written for a record is a spelling of it -/

theorem documents_varint {v : ℕ} (h : v < u64Size) : (Token.varint v).Documents (putUvarint v) := by
  rw [putUvarint_eq]
  exact isVarint_uvarint h

theorem documents_integer (value : U256) : (Token.integer value).Documents (putShort (numberBytes value)) := by
  refine ⟨numberBytes value, rfl, (length_trim_le _).trans (length_toBe 32 _).le, ?_⟩
  rw [numberBytes, ofBe_trim, ofBe_toBe 32 _ (value.isLt.trans_le (by norm_num))]

theorem spells_blob {blob : Bytes} (h : blob.length < u64Size) :
    Spells Token.Documents (blobTokens blob) (putUvarint blob.length ++ blob) :=
  .cons (documents_varint h) (spells_singleton.mpr rfl)

/-- The numbers of a history object fit their types. -/
structure HistoryObject.Fits (o : HistoryObject) : Prop where
  stateId : o.stateId < u64Size
  block : o.block < u64Size
  accounts : o.accounts.length < u64Size
  nonce : ∀ a ∈ o.accounts, ∀ previous, a.previous = some previous → previous.nonce < u64Size
  storage : ∀ a ∈ o.accounts, a.storage.length < u64Size

theorem spells_historyAccount {a : HistoryAccount} (hnonce : ∀ p, a.previous = some p → p.nonce < u64Size)
    (hstorage : a.storage.length < u64Size) :
    Spells Token.Documents (historyAccountTokens a) (StreamBuilder.historyAccountBytes a) := by
  have hprevious : Spells Token.Documents (previousTokens a.previous) (StreamBuilder.previousBytes a.previous) := by
    cases hcase : a.previous with
    | none => exact spells_singleton.mpr rfl
    | some p =>
      rw [StreamBuilder.previousBytes, List.append_assoc, List.append_assoc]
      exact .cons rfl (.cons (documents_varint (hnonce p hcase)) (.cons (documents_integer _) (spells_singleton.mpr rfl)))
  rw [StreamBuilder.historyAccountBytes, List.append_assoc, List.append_assoc]
  exact .cons rfl (hprevious.append (.cons (documents_varint hstorage)
    (.flatMap fun slot _ => .cons rfl (spells_singleton.mpr (documents_integer slot.2)))))

section records
variable (keccak256 : Bytes → B256)

/-- The numbers of a record fit their types, and its hash is the one that is computed. -/
def Record.Fits : Record → Prop
  | header block hash rlp => block < u64Size ∧ keccak256 rlp = hash ∧ rlp.length < u64Size
  | body block rlp | receipts block rlp => block < u64Size ∧ rlp.length < u64Size
  | history object => object.Fits
  | account _ nonce _ _ => nonce < u64Size
  | storage _ _ => True
  | code hash bytes => keccak256 bytes = hash ∧ bytes.length < u64Size

/-- What is written after the tag. -/
def Record.fields : Record → Bytes
  | header block _ rlp => putUvarint block ++ (wordBytes (keccak256 rlp) ++ (putUvarint rlp.length ++ rlp))
  | body block rlp | receipts block rlp => putUvarint block ++ (putUvarint rlp.length ++ rlp)
  | history o => putUvarint o.stateId ++ (putUvarint o.block ++ ([historyVersionRawSlots] ++ (wordBytes o.parentRoot ++
      (wordBytes o.postRoot ++ (putUvarint o.accounts.length ++ o.accounts.flatMap StreamBuilder.historyAccountBytes)))))
  | account hashedAddress nonce balance codeHash => wordBytes hashedAddress ++ (putUvarint nonce ++
      (putShort (numberBytes balance) ++ putShort (codeHashBytes codeHash)))
  | storage hashedSlot value => wordBytes hashedSlot ++ putShort (numberBytes value)
  | code _ bytes => wordBytes (keccak256 bytes) ++ (putUvarint bytes.length ++ bytes)

theorem Record.bytes_eq (record : Record) : record.bytes keccak256 = record.tag :: record.fields keccak256 := by
  cases record <;> simp [bytes, fields, tag, StreamBuilder.put, StreamBuilder.header, StreamBuilder.body,
    StreamBuilder.receipts, StreamBuilder.history, StreamBuilder.account, StreamBuilder.storage, StreamBuilder.code]

theorem Record.spells_fields {record : Record} (h : record.Fits keccak256) :
    Spells Token.Documents record.tokens (record.fields keccak256) := by
  cases record with
  | header block hash rlp =>
    obtain ⟨hblock, rfl, hrlp⟩ := h
    exact .cons (documents_varint hblock) (.cons rfl (spells_blob hrlp))
  | body block rlp => exact .cons (documents_varint h.1) (spells_blob h.2)
  | receipts block rlp => exact .cons (documents_varint h.1) (spells_blob h.2)
  | history o =>
    refine .cons (documents_varint h.stateId) (.cons (documents_varint h.block) (.cons rfl (.cons rfl (.cons rfl ?_))))
    exact .cons (documents_varint h.accounts) (.flatMap fun a ha => spells_historyAccount (h.nonce a ha) (h.storage a ha))
  | account hashedAddress nonce balance codeHash =>
    exact .cons rfl (.cons (documents_varint h) (.cons (documents_integer balance) (spells_singleton.mpr rfl)))
  | storage hashedSlot value => exact .cons rfl (spells_singleton.mpr (documents_integer value))
  | code hash code =>
    obtain ⟨rfl, hcode⟩ := h
    exact .cons rfl (spells_blob hcode)

end records

/-! ### Streams are read back -/

/-- The records of a section, one after the other. -/
inductive AcceptsAll (keccak256 : Bytes → B256) (manifest : Manifest) : Progress → List Record → Progress → Prop
  | nil (p : Progress) : AcceptsAll keccak256 manifest p [] p
  | cons {p p' p'' : Progress} {record : Record} {records : List Record} : record.sec = p.sec → record.Fits keccak256 →
      Admits keccak256 manifest p record p' → AcceptsAll keccak256 manifest p' records p'' →
        AcceptsAll keccak256 manifest p (record :: records) p''

/-- The numbers of a manifest fit their types. -/
structure Manifest.Fits (manifest : Manifest) : Prop where
  block : manifest.block < u64Size
  stateId : manifest.stateId < u64Size
  resume : ∀ r, manifest.resume = some r → r.l1Block < u64Size ∧ r.delayedCount < u64Size ∧ r.l2Block < u64Size

section streams
variable {keccak256 : Bytes → B256} {manifest : Manifest} {p p' p'' : Progress}

theorem AcceptsAll.append {records records' : List Record} (h : AcceptsAll keccak256 manifest p records p')
    (h' : AcceptsAll keccak256 manifest p' records' p'') :
    AcceptsAll keccak256 manifest p (records ++ records') p'' := by
  induction h with
  | nil p => exact h'
  | cons hsec hfits hadmits _ ih => exact .cons hsec hfits hadmits (ih h')

theorem AcceptsAll.way {records : List Record} (h : AcceptsAll keccak256 manifest p records p') :
    Way keccak256 manifest p (records.flatMap (Record.bytes keccak256)) records p' := by
  induction h with
  | nil p => exact .nil p
  | cons hsec hfits hadmits _ ih =>
    have hspells := (Record.spells_fields keccak256 hfits).mono fun _ _ => Token.Documents.accepts
    rw [List.flatMap_cons, Record.bytes_eq, List.cons_append]
    exact .record hsec hadmits hspells ih

theorem spells_manifest (hfits : manifest.Fits) :
    Spells Token.Documents (manifestTokens manifest) (StreamBuilder.start manifest).out := by
  have hresume : Spells Token.Documents (resumeTokens manifest.resume) (StreamBuilder.resumeBytes manifest.resume) := by
    cases hcase : manifest.resume with
    | none => exact spells_singleton.mpr rfl
    | some r =>
      obtain ⟨hl1, hdelayed, hl2⟩ := hfits.resume r hcase
      rw [StreamBuilder.resumeBytes, List.append_assoc, List.append_assoc]
      exact .cons rfl (.cons (documents_varint hl1) (.cons (documents_varint hdelayed)
        (spells_singleton.mpr (documents_varint hl2))))
  simp only [StreamBuilder.start, List.append_assoc]
  exact .cons rfl (.cons rfl (.cons (documents_varint hfits.block) (.cons rfl (.cons (documents_varint hfits.stateId)
    (.cons rfl hresume)))))

end streams

/-! ### The content of a stream -/

/-- A block: the header, and what else is stored about it. -/
structure BlockContent where
  rlp : Bytes
  body : Option Bytes
  receipts : Option Bytes
deriving DecidableEq, Repr

def BlockContent.records (keccak256 : Bytes → B256) (n : ℕ) (b : BlockContent) : List Record :=
  .header n (keccak256 b.rlp) b.rlp :: ((b.body.map (Record.body n)).toList ++ (b.receipts.map (Record.receipts n)).toList)

/-- The records of consecutive blocks, from the `n`-th on. -/
def blockRecords (keccak256 : Bytes → B256) : ℕ → List BlockContent → List Record
  | _, [] => []
  | n, b :: bs => b.records keccak256 n ++ blockRecords keccak256 (n + 1) bs

/-- Headers can be parsed and name the one before. -/
structure HeadersLinked (keccak256 : Bytes → B256) (blocks : List BlockContent) : Prop where
  parsed : ∀ b ∈ blocks, ∃ parent, (headerField b.rlp 0).val = .ok parent
  linked : blocks.IsChain fun b c => (headerField c.rlp 0).val = .ok (wordBytes (keccak256 b.rlp))

/-- History objects advance, and each starts from the root in which the one before ended. -/
def HistoryChained (objects : List HistoryObject) : Prop :=
  objects.IsChain fun o o' => o.block < o'.block ∧ o'.parentRoot = o.postRoot

/-- The blobs of a block have a length that can be written. -/
structure BlockContent.Fits (b : BlockContent) : Prop where
  rlp : b.rlp.length < u64Size
  body : ∀ blob, b.body = some blob → blob.length < u64Size
  receipts : ∀ blob, b.receipts = some blob → blob.length < u64Size

/-- A record of the state section, with the code that belongs to its hash. -/
def Record.OfState (keccak256 : Bytes → B256) : Record → Prop
  | account _ nonce _ _ => nonce < u64Size
  | storage _ _ => True
  | code hash bytes => keccak256 bytes = hash ∧ bytes.length < u64Size
  | _ => False

section content
variable {keccak256 : Bytes → B256} {manifest : Manifest}

theorem acceptsAll_block {p p' : Progress} {n : ℕ} {b : BlockContent} (hsec : p.sec = .blocks) (hsec' : p'.sec = .blocks)
    (hn : n < u64Size) (hfits : b.Fits) (hcheck : (checkHeader keccak256 manifest p n (keccak256 b.rlp) b.rlp).val = .ok p') :
    AcceptsAll keccak256 manifest p (b.records keccak256 n) p' := by
  have hbody : AcceptsAll keccak256 manifest p' (b.body.map (Record.body n)).toList p' := by
    cases hblob : b.body with
    | none => exact .nil p'
    | some blob => exact .cons hsec'.symm ⟨hn, hfits.body blob hblob⟩ rfl (.nil p')
  have hreceipts : AcceptsAll keccak256 manifest p' (b.receipts.map (Record.receipts n)).toList p' := by
    cases hblob : b.receipts with
    | none => exact .nil p'
    | some blob => exact .cons hsec'.symm ⟨hn, hfits.receipts blob hblob⟩ rfl (.nil p')
  exact .cons hsec.symm ⟨hn, rfl, hfits.rlp⟩ hcheck (hbody.append hreceipts)

variable {blocks : List BlockContent}

theorem acceptsAll_blocks (lastHistory : Option (ℕ × B256)) (hfits : manifest.block < u64Size) (hblocks : ∀ b ∈ blocks, b.Fits) (hlinked : HeadersLinked keccak256 blocks) (n : ℕ)
    (hn : n + blocks.length ≤ manifest.block + 1) (last : Option (ℕ × B256)) (hlast : ∀ l, last = some l →
      l.1 + 1 = n ∧ ∀ b ∈ blocks.head?, (headerField b.rlp 0).val = .ok (wordBytes l.2)) :
    ∃ last', AcceptsAll keccak256 manifest ⟨.blocks, last, lastHistory⟩ (blockRecords keccak256 n blocks)
      ⟨.blocks, last', lastHistory⟩ := by
  induction blocks generalizing n last with
  | nil => exact ⟨last, .nil _⟩
  | cons b bs ih =>
    rw [List.length_cons] at hn
    obtain ⟨parent, hparent⟩ := hlinked.parsed b (by simp)
    have hcheck : (checkHeader keccak256 manifest ⟨.blocks, last, lastHistory⟩ n (keccak256 b.rlp) b.rlp).val = .ok _ :=
      (checkHeader_val_iff ..).mpr ⟨rfl, rfl, by omega, parent, hparent, fun l hl => by
        obtain ⟨hnext, hword⟩ := hlast l hl
        exact ⟨by rw [hnext, Nat.mod_eq_of_lt (by omega)], Except.ok.inj (hparent.symm.trans (hword b (by simp)))⟩⟩
    obtain ⟨last', htail⟩ := ih (fun b hb => hblocks b (by simp [hb]))
      ⟨fun b hb => hlinked.parsed b (by simp [hb]), hlinked.linked.tail⟩ (n + 1) (by omega) (some (n, keccak256 b.rlp))
      (fun l hl => by
        cases hl
        refine ⟨rfl, fun c hc => ?_⟩
        cases bs with
        | nil => cases hc
        | cons d ds =>
          cases hc
          exact (List.isChain_cons_cons.mp hlinked.linked).1)
    exact ⟨last', (acceptsAll_block rfl rfl (by omega) (hblocks b (by simp)) hcheck).append htail⟩

variable {objects : List HistoryObject}

theorem acceptsAll_history (lastBlock : Option (ℕ × B256)) (hfits : ∀ o ∈ objects, o.Fits) (hbelow : ∀ o ∈ objects, o.block ≤ manifest.block) (hchained : HistoryChained objects)
    (last : Option (ℕ × B256)) (hlast : ∀ l, last = some l → ∀ o ∈ objects.head?, l.1 < o.block ∧ o.parentRoot = l.2) :
    ∃ last', AcceptsAll keccak256 manifest ⟨.history, lastBlock, last⟩ (objects.map Record.history)
      ⟨.history, lastBlock, last'⟩ := by
  induction objects generalizing last with
  | nil => exact ⟨last, .nil _⟩
  | cons o os ih =>
    have hcheck : checkHistory manifest ⟨.history, lastBlock, last⟩ o.stateId o.block historyVersionRawSlots
        o.parentRoot o.postRoot = .ok ⟨.history, lastBlock, some (o.block, o.postRoot)⟩ := by
      have hle := hbelow o (by simp)
      rw [checkHistory, if_neg (not_not.mpr rfl), if_neg (by omega)]
      cases last with
      | none => rfl
      | some l =>
        obtain ⟨hlt, hroot⟩ := hlast l rfl o (by simp)
        simp only
        rw [if_neg (by omega), if_neg (not_not.mpr hroot)]
    obtain ⟨last', htail⟩ := ih (fun o ho => hfits o (by simp [ho])) (fun o ho => hbelow o (by simp [ho]))
      hchained.tail (some (o.block, o.postRoot))
      (fun l hl o' ho' => by
        cases hl
        cases os with
        | nil => cases ho'
        | cons d ds =>
          cases ho'
          exact (List.isChain_cons_cons.mp hchained).1)
    exact ⟨last', .cons rfl (hfits o (by simp)) hcheck htail⟩

theorem acceptsAll_state {p : Progress} (hsec : p.sec = .state) {records : List Record}
    (h : ∀ record ∈ records, record.OfState keccak256) : AcceptsAll keccak256 manifest p records p := by
  induction records with
  | nil => exact .nil p
  | cons record records ih =>
    have hlater := ih fun record hrecord => h record (by simp [hrecord])
    have hstate := h record (by simp)
    cases record with
    | account hashedAddress nonce balance codeHash => exact .cons hsec.symm hstate rfl hlater
    | storage hashedSlot value => exact .cons hsec.symm hstate rfl hlater
    | code hash bytes => exact .cons hsec.symm hstate ⟨hstate.1, rfl⟩ hlater
    | header block hash rlp => exact hstate.elim
    | body block rlp => exact hstate.elim
    | receipts block rlp => exact hstate.elim
    | history object => exact hstate.elim

/-- What was built is read back: the manifest, the records of all sections in their order, and the end. -/
theorem build_delivers (hmanifest : manifest.Fits) (hcount : blocks.length ≤ manifest.block + 1)
    (hblocks : ∀ b ∈ blocks, b.Fits) (hlinked : HeadersLinked keccak256 blocks) (hobjects : ∀ o ∈ objects, o.Fits) (hbelow : ∀ o ∈ objects, o.block ≤ manifest.block)
    (hchained : HistoryChained objects) {records : List Record} (hstate : ∀ record ∈ records, record.OfState keccak256) :
    ∃ st, SnapshotStream.openStream
        (StreamBuilder.build keccak256 manifest (blockRecords keccak256 0 blocks) (objects.map .history) records) = .ok st ∧
      st.manifest = manifest ∧
      ∃ last, st.Delivers keccak256 (blockRecords keccak256 0 blocks ++ (objects.map .history ++ records)) last := by
  obtain ⟨lastBlock, hblockPart⟩ := acceptsAll_blocks none hmanifest.block hblocks hlinked 0 (by omega) none (by simp)
  obtain ⟨last, hhistoryPart⟩ := acceptsAll_history lastBlock hobjects hbelow hchained none (by simp)
  have hstatePart : AcceptsAll keccak256 manifest ⟨.state, lastBlock, last⟩ records ⟨.state, lastBlock, last⟩ :=
    acceptsAll_state rfl hstate
  have hmanifestPart := (spells_manifest hmanifest).mono fun _ _ => Token.Documents.accepts
  -- the three sections and the tags between them, and then the end
  have hstateTag : Section.opens .history (Section.tag .state) = some .state := rfl
  have hhistoryTag : Section.opens .blocks (Section.tag .history) = some .history := rfl
  have hblocksTag : Section.opens .manifest (Section.tag .blocks) = some .blocks := rfl
  have hhistoryWay := hhistoryPart.way.append (.ends (by simp) (.opens hstateTag hstatePart.way))
  have hblockWay := hblockPart.way.append (.ends (by simp) (.opens hhistoryTag hhistoryWay))
  have hway : Way keccak256 manifest ⟨.manifest, none, none⟩ _ _ _ := .opens hblocksTag hblockWay
  have hpath := hway.path ((Way.ends (by simp) (.nil _)).path (.done rfl))
  rw [List.append_nil] at hpath
  obtain ⟨last, hdelivers, -⟩ := SnapshotStream.delivers_iff_path.mpr ⟨_, (List.append_nil _).symm, hpath⟩
  rw [StreamBuilder.build_eq]
  refine ⟨_, openStream_append hmanifestPart _, rfl, last, ?_⟩
  simpa using hdelivers

end content

end ArbReth.Snapshot
