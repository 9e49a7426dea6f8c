import ArbReth.Lib.HashChain
import ArbReth.Snapshot.Source

/-! # What a stream that is read to its end has shown

The reader checks a stream while it passes: a header against the one before, a history object against the one before, a
bytecode against its hash.  From one record to the next it remembers two pairs (`Progress`).  `Seen` says what all
records so far have in common with these; it is kept by every record (`Seen.snoc`), so it holds when the reader comes
to the end.

The bytes of such a stream are known from the grammar (`readToEnd_iff`), whatever follows them.  So a stream that is cut
before its last byte cannot be read to an end (`accepted_stream`). -/

namespace ArbReth.Snapshot

open ArbReth.Codec
open ArbReth.HashChain

/-! ### Headers and history objects among the records -/

structure HeaderRecord where
  block : ℕ
  hash : B256
  rlp : Bytes
deriving DecidableEq, Repr

def Record.header? : Record → Option HeaderRecord
  | header block hash rlp => some ⟨block, hash, rlp⟩
  | _ => none

def Record.history? : Record → Option HistoryObject
  | history object => some object
  | _ => none

def headersOf (records : List Record) : List HeaderRecord := records.filterMap Record.header?

def historiesOf (records : List Record) : List HistoryObject := records.filterMap Record.history?

@[simp] theorem headersOf_concat (records : List Record) (record : Record) :
    headersOf (records ++ [record]) = headersOf records ++ record.header?.toList := by
  cases hrecord : record.header? <;> simp [headersOf, hrecord]

@[simp] theorem historiesOf_concat (records : List Record) (record : Record) :
    historiesOf (records ++ [record]) = historiesOf records ++ record.history?.toList := by
  cases hrecord : record.history? <;> simp [historiesOf, hrecord]

section seen
variable (keccak256 : Bytes → B256) (manifest : Manifest)

/-- The header after one with this number and hash. -/
def HeaderAfter (last : ℕ × B256) (h : HeaderRecord) : Prop :=
  h.block = last.1 + 1 ∧ (headerField h.rlp 0).val = .ok (wordBytes last.2)

/-- The history object after one with this block and post root. -/
def HistoryAfter (last : ℕ × B256) (o : HistoryObject) : Prop := last.1 < o.block ∧ o.parentRoot = last.2

/-- The records so far, and what the reader remembers of them. -/
structure Seen (records : List Record) (p : Progress) : Prop where
  headers : Tracks (fun h : HeaderRecord => (h.block, h.hash)) HeaderAfter (headersOf records) p.lastBlock
  hashed : ∀ h ∈ headersOf records, keccak256 h.rlp = h.hash ∧ h.block ≤ manifest.block
  histories : Tracks (fun o : HistoryObject => (o.block, o.postRoot)) HistoryAfter (historiesOf records) p.lastHistory
  below : ∀ o ∈ historiesOf records, o.block ≤ manifest.block
  code : ∀ hash code, Record.code hash code ∈ records → keccak256 code = hash

theorem Seen.start (sec : Section) : Seen keccak256 manifest [] ⟨sec, none, none⟩ where
  headers := .nil
  hashed := by simp [headersOf]
  histories := .nil
  below := by simp [historiesOf]
  code := by simp

variable {keccak256 manifest} {records : List Record} {record : Record} {p p' : Progress}

/-- The number after the last one does not wrap: the last one is below the convert point. -/
theorem Seen.headerAfter (h : Seen keccak256 manifest records p) (hblock : manifest.block < u64Size - 1) {block : ℕ}
    {hash : B256} {rlp : Bytes} (hbuilds : Builds keccak256 manifest p.lastBlock block hash rlp) {last : ℕ × B256}
    (hlast : p.lastBlock = some last) : HeaderAfter last ⟨block, hash, rlp⟩ := by
  obtain ⟨-, -, hbuilds⟩ := hbuilds
  obtain ⟨hnumber, hparent⟩ := hbuilds last hlast
  have htracks := h.headers
  rw [hlast] at htracks
  obtain ⟨a, -, ha, rfl⟩ := htracks.mem_of_last
  have hle := (h.hashed a ha).2
  rw [Nat.mod_eq_of_lt (by omega)] at hnumber
  exact ⟨hnumber, hparent⟩

theorem Seen.snoc (h : Seen keccak256 manifest records p) (hblock : manifest.block < u64Size - 1)
    (hchecks : Checks keccak256 manifest p (record, p')) : Seen keccak256 manifest (records ++ [record]) p' := by
  have hheaded := hchecks.headed
  have hseen := hchecks.history.1
  simp only at hheaded hseen
  constructor
  · rw [headersOf_concat, hheaded]
    cases record with
    | header block hash rlp =>
      have hbuilds := hchecks.builds block hash rlp rfl
      exact h.headers.snoc fun last hlast => h.headerAfter hblock hbuilds hlast
    | _ => simpa [Record.header?, Record.headed] using h.headers
  · intro x hx
    rw [headersOf_concat, List.mem_append, Option.mem_toList] at hx
    rcases hx with hx | hx
    · exact h.hashed x hx
    · cases record with
      | header block hash rlp =>
        cases hx
        obtain ⟨hhash, hle, -⟩ := hchecks.builds block hash rlp rfl
        exact ⟨hhash, hle⟩
      | _ => cases hx
  · rw [historiesOf_concat, hseen]
    cases record with
    | history object => exact h.histories.snoc fun last hlast => (hchecks.history.2 object rfl).2 last hlast
    | _ => simpa [Record.history?, Record.seen] using h.histories
  · intro x hx
    rw [historiesOf_concat, List.mem_append, Option.mem_toList] at hx
    rcases hx with hx | hx
    · exact h.below x hx
    · cases record with
      | history object =>
        obtain rfl := Option.some.inj hx
        exact (hchecks.history.2 object rfl).1
      | _ => cases hx
  · intro hash code hcode
    rcases List.mem_append.mp hcode with hcode | hcode
    · exact h.code hash code hcode
    · exact hchecks.code hash code (List.mem_singleton.mp hcode).symm

end seen

/-! ### Whole streams -/

namespace SnapshotStream

/-- The stream is opened and read to its end. -/
def ReadToEnd (keccak256 : Bytes → B256) (bytes : Bytes) (records : List Record) (last : SnapshotStream) : Prop :=
  ∃ st, openStream bytes = .ok st ∧ st.Delivers keccak256 records last

/-- The error in which the reading of a stream ends, if it does not come to the end of the stream. -/
def ending (keccak256 : Bytes → B256) (bytes : Bytes) : Option StreamError :=
  match openStream bytes with
  | .error e => some e
  | .ok st => (st.source keccak256).ending

variable {keccak256 : Bytes → B256} {st st' mid mid' last last' : SnapshotStream} {record : Record}
  {records records' before : List Record} {bytes cut front : Bytes}

theorem openStream_ok (h : openStream bytes = .ok st) :
    (readManifest bytes).val = .ok (st.manifest, st.inner) ∧ st.progress = ⟨.manifest, none, none⟩ ∧ st.Fresh := by
  obtain ⟨⟨manifest, inner⟩, hread, h⟩ := Runs.bind_ok.mp h
  cases h
  exact ⟨hread, rfl, rfl, rfl⟩

theorem HandsOut.seen (hst : st.Fresh) (hblock : st.manifest.block < u64Size - 1)
    (hseen : Seen keccak256 st.manifest before st.progress) (h : HandsOut keccak256 st records mid) :
    Seen keccak256 st.manifest (before ++ records) mid.progress := by
  induction h generalizing before with
  | nil st => simpa using hseen
  | @cons st st' st'' record records hnext _ ih =>
    obtain ⟨p, rest, htag, rfl⟩ := hst.nextRecord_some hnext
    have hstep := hseen.snoc hblock (nextTag_checks htag)
    rw [List.append_cons]
    exact ih hst hblock hstep

theorem readToEnd_iff {manifest : Manifest} {rest : Bytes} :
    (∃ last, ReadToEnd keccak256 bytes records last ∧ last.manifest = manifest ∧ last.inner = rest) ↔
      ∃ head used, bytes = head ++ (used ++ rest) ∧ Spells Token.Accepts (manifestTokens manifest) head ∧
        Path keccak256 manifest ⟨.manifest, none, none⟩ used records := by
  constructor
  · rintro ⟨last, ⟨⟨inner, manifest', p, held, finished⟩, hopen, hdelivers⟩, rfl, rfl⟩
    obtain ⟨hmanifest, rfl, rfl, rfl⟩ := openStream_ok hopen
    obtain ⟨mid, hrun, hend⟩ := hdelivers
    obtain ⟨hmid, hsame⟩ := hrun.fresh ⟨rfl, rfl⟩
    obtain ⟨rest, -, rfl⟩ := hmid.nextRecord_none hend
    obtain ⟨used, rfl, hpath⟩ := delivers_iff_path.mp ⟨_, ⟨mid, hrun, hend⟩, hsame, rfl⟩
    obtain ⟨head, hhead, hspells⟩ := (takes_manifest manifest' bytes _).mp hmanifest
    rw [show mid.manifest = manifest' from hsame]
    exact ⟨head, used, hhead, hspells, hpath⟩
  · rintro ⟨head, used, rfl, hspells, hpath⟩
    obtain ⟨last, hdelivers, hlast⟩ := delivers_iff_path.mpr ⟨used, rfl, hpath⟩
    exact ⟨last, ⟨_, openStream_append hspells _, hdelivers⟩, hlast⟩

theorem HandsOut.unique (h : HandsOut keccak256 st records mid) (hend : mid.nextRecord keccak256 = .ok (none, last))
    (h' : HandsOut keccak256 st records' mid') (hend' : mid'.nextRecord keccak256 = .ok (none, last')) :
    records = records' ∧ last = last' := by
  induction h generalizing records' with
  | nil st =>
    cases h' with
    | nil =>
      cases hend.symm.trans hend'
      exact ⟨rfl, rfl⟩
    | cons hnext _ => cases hend.symm.trans hnext
  | cons hnext _ ih =>
    cases h' with
    | nil => cases hend'.symm.trans hnext
    | cons hnext' hlater =>
      obtain ⟨hrecord, rfl⟩ := Prod.mk.inj (Except.ok.inj (hnext.symm.trans hnext'))
      obtain ⟨rfl, hlast⟩ := ih hend hlater
      exact ⟨by rw [Option.some.inj hrecord], hlast⟩

/-- What was read to the end stays the same if something else follows it. -/
theorem ReadToEnd.exact (h : ReadToEnd keccak256 bytes records last) :
    ∃ front, bytes = front ++ sectionEnd :: last.inner ∧
      ∀ rest, ∃ last', ReadToEnd keccak256 (front ++ sectionEnd :: rest) records last' ∧ last'.inner = rest := by
  obtain ⟨head, used, rfl, hspells, hpath⟩ := readToEnd_iff.mp ⟨last, h, rfl, rfl⟩
  obtain ⟨front, q, rfl, hsec, hway⟩ := hpath
  have hpath : Path keccak256 last.manifest _ _ records := ⟨front, q, rfl, hsec, hway⟩
  refine ⟨head ++ front, by simp, fun rest => ?_⟩
  obtain ⟨last', hread, -, hrest⟩ := readToEnd_iff.mpr ⟨head, _, rfl, hspells, hpath⟩
  exact ⟨last', by simpa using hread, hrest⟩

theorem ReadToEnd.unique (h : ReadToEnd keccak256 bytes records last) (h' : ReadToEnd keccak256 bytes records' last') :
    records = records' ∧ last = last' := by
  obtain ⟨st, hopen, mid, hrun, hend⟩ := h
  obtain ⟨st', hopen', mid', hrun', hend'⟩ := h'
  cases hopen.symm.trans hopen'
  exact hrun.unique hend hrun' hend'

theorem readToEnd_of_ending (h : ending keccak256 bytes = none) :
    ∃ st mid last, openStream bytes = .ok st ∧ HandsOut keccak256 st (st.source keccak256).records mid ∧
      mid.nextRecord keccak256 = .ok (none, last) := by
  unfold ending at h
  cases hopen : openStream bytes with
  | error e =>
    rw [hopen] at h
    cases h
  | ok st =>
    rw [hopen] at h
    obtain ⟨mid, hrun, hend⟩ := handsOut_drain keccak256 st (st.size + 1)
    obtain ⟨last, hend⟩ := hend h
    exact ⟨st, mid, last, rfl, hrun, hend⟩

/-- A stream that is cut before its last byte does not come to an end. -/
theorem ReadToEnd.ending_of_cut (h : ReadToEnd keccak256 bytes records last)
    (hfront : bytes = front ++ sectionEnd :: last.inner) (hcut : cut <+: front) : ∃ e, ending keccak256 cut = some e := by
  refine Option.ne_none_iff_exists'.mp fun hnone => ?_
  obtain ⟨st', mid', last', hopen', hrun', hend'⟩ := readToEnd_of_ending hnone
  have hread : ReadToEnd keccak256 cut _ last' := ⟨st', hopen', mid', hrun', hend'⟩
  obtain ⟨front', rfl, hreads⟩ := hread.exact
  obtain ⟨more, rfl⟩ := hcut
  -- with the rest put back, the whole stream is read to the same place
  obtain ⟨last'', hwhole, hinner⟩ := hreads (last'.inner ++ more ++ sectionEnd :: last.inner)
  have hbytes : front' ++ sectionEnd :: (last'.inner ++ more ++ sectionEnd :: last.inner) = bytes := by simp [hfront]
  rw [hbytes] at hwhole
  obtain ⟨-, rfl⟩ := h.unique hwhole
  have hsame := congrArg List.length hinner
  simp only [List.length_append, List.length_cons] at hsame
  omega

/-- The last history object is at the convert point, so there is none after it. -/
theorem getLast?_of_check {after : List Record} {p p' : Progress} {manifest : Manifest}
    (hbefore : Seen keccak256 manifest before p) (hall : Seen keccak256 manifest (before ++ after) p')
    (hcheck : checkHistoryMeetsState manifest p.lastHistory = .ok ()) :
    ∃ o, (historiesOf (before ++ after)).getLast? = some o ∧ o.block = manifest.block ∧ o.postRoot = manifest.root := by
  have hlast : p.lastHistory = some (manifest.block, manifest.root) := by
    unfold checkHistoryMeetsState at hcheck
    split at hcheck
    · cases hcheck
    · split at hcheck
      · cases hcheck
      · split at hcheck
        · cases hcheck
        · rename_i hlast hblock hroot
          rw [hlast, not_not.mp hblock, not_not.mp hroot]
  have htracks := hbefore.histories
  rw [hlast] at htracks
  obtain ⟨o, hget, -, hkey⟩ := htracks.mem_of_last
  obtain ⟨hblock, hroot⟩ := Prod.mk.inj hkey
  have hsplit : historiesOf (before ++ after) = historiesOf before ++ historiesOf after := List.filterMap_append
  have hchain := hall.histories.chain
  rw [hsplit] at hchain
  have hnone : historiesOf after = [] := by
    cases hafter : historiesOf after with
    | nil => rfl
    | cons x xs =>
      rw [hafter, List.isChain_append] at hchain
      have hlt := (hchain.2.2 o hget x rfl).1
      have hle := hall.below x (by rw [hsplit, hafter]; simp)
      simp only [hblock] at hlt
      omega
  exact ⟨o, by rw [hsplit, hnone, List.append_nil, hget], hblock, hroot⟩

/-- **What an accepted stream is.** -/
theorem accepted_stream (keccak256 : Bytes → B256) {bytes : Bytes} {st mid last : SnapshotStream} {records : List Record}
    (hopen : openStream bytes = .ok st) (hblock : st.manifest.block < u64Size - 1)
    (hread : HandsOut keccak256 st records mid) (hend : mid.nextRecord keccak256 = .ok (none, last)) :
    ((headersOf records).IsChain fun a b => b.block = a.block + 1 ∧ (headerField b.rlp 0).val = .ok (wordBytes a.hash)) ∧
      (∀ h ∈ headersOf records, keccak256 h.rlp = h.hash ∧ h.block ≤ st.manifest.block) ∧
      ((historiesOf records).IsChain fun a b => a.block < b.block ∧ b.parentRoot = a.postRoot) ∧
      (∀ o ∈ historiesOf records, o.block ≤ st.manifest.block) ∧
      (∀ before after now, records = before ++ after → HandsOut keccak256 st before now →
        checkHistoryMeetsState now.manifest now.progress.lastHistory = .ok () →
          ∃ o, (historiesOf records).getLast? = some o ∧ o.block = st.manifest.block ∧ o.postRoot = st.manifest.root) ∧
      (∀ hash code, Record.code hash code ∈ records → keccak256 code = hash) ∧
      ∃ front, bytes = front ++ sectionEnd :: last.inner ∧ ∀ cut, cut <+: front → ∃ e, ending keccak256 cut = some e := by
  obtain ⟨-, hstart, hst⟩ := openStream_ok hopen
  have hnothing : Seen keccak256 st.manifest [] st.progress := by
    rw [hstart]
    exact .start keccak256 st.manifest _
  have hall := hread.seen hst hblock hnothing
  have hwhole : ReadToEnd keccak256 bytes records last := ⟨st, hopen, mid, hread, hend⟩
  obtain ⟨front, hfront, -⟩ := hwhole.exact
  refine ⟨hall.headers.chain, hall.hashed, hall.histories.chain, hall.below, ?_, hall.code, front, hfront,
    fun cut hcut => hwhole.ending_of_cut hfront hcut⟩
  intro before after now hsplit hbefore hcheck
  rw [(hbefore.fresh hst).2] at hcheck
  subst hsplit
  exact getLast?_of_check (hbefore.seen hst hblock hnothing) hall hcheck

def sampleHeader : Bytes := [0xe1, 0xa0] ++ toBe 32 34

def sampleStream : Bytes :=
  magic ++ [0xf1, 1] ++ toBe 32 7 ++ [1] ++ toBe 32 9 ++ [0] ++
    ([0xf2, 1, 0] ++ toBe 32 34 ++ [34] ++ sampleHeader ++ [1, 1] ++ toBe 32 34 ++ [34] ++ sampleHeader ++ [0]) ++
    ([0xf3, 1, 1, 1, 1] ++ toBe 32 5 ++ toBe 32 7 ++ [0, 0]) ++
    ([0xf4, 4] ++ toBe 32 3 ++ [0, 1, 5, 32] ++ toBe 32 2 ++ [6] ++ toBe 32 2 ++ [2, 0xaa, 0xbb, 0, 0xff])

theorem accepted_stream_sample :
    ∃ st mid last records front, openStream sampleStream = .ok st ∧ st.manifest.block < u64Size - 1 ∧
      HandsOut lengthHash st records mid ∧ mid.nextRecord lengthHash = .ok (none, last) ∧
      (headersOf records).length = 2 ∧ (historiesOf records).length = 1 ∧
      sampleStream = front ++ sectionEnd :: last.inner ∧
      ∀ cut, cut <+: front → ∃ e, ending lengthHash cut = some e := by
  have hending : ending lengthHash sampleStream = none := by decide +kernel
  obtain ⟨st, mid, last, hopen, hread, hend⟩ := readToEnd_of_ending hending
  have hcounts : (openStream sampleStream).toOption.map (fun st => (st.manifest.block,
      (headersOf (st.source lengthHash).records).length, (historiesOf (st.source lengthHash).records).length)) =
        some (1, 2, 1) := by decide +kernel
  rw [hopen] at hcounts
  obtain ⟨hblock, hcounts⟩ := Prod.mk.inj (Option.some.inj hcounts)
  obtain ⟨hheaders, hhistories⟩ := Prod.mk.inj hcounts
  have hlt : st.manifest.block < u64Size - 1 := by
    rw [hblock]
    decide
  obtain ⟨-, -, -, -, -, -, front, hfront, hcut⟩ := accepted_stream lengthHash hopen hlt hread hend
  exact ⟨st, mid, last, _, front, hopen, hlt, hread, hend, hheaders, hhistories, hfront, hcut⟩

end SnapshotStream

end ArbReth.Snapshot
