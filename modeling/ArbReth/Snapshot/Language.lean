import ArbReth.Snapshot.Accepted

/-! # The language of the reader

Which bytes does the reader of a stream accept, for a manifest and a list of records?  The tokens of the whole stream are
`streamTokens`: the manifest, and then three sections, each with its records and its end.  Before a record and at the end
of a section there may stand any number of end records; the format has none before a record and one at the end of a
section.

`accepted_language` says that this is all: the reader comes to the end of a stream with these records exactly if they
stand in the order of the sections, pass its checks, and the stream begins with a spelling of the tokens. -/

namespace ArbReth.Snapshot

open ArbReth.Codec

/-! ### Sections -/

/-- The records of a section, one after the other. -/
def recordTokens (records : List Record) : List Token :=
  records.flatMap fun record => .gap :: .byte record.tag :: record.tokens

theorem recordTokens_cons (record : Record) (records : List Record) (ts : List Token) :
    recordTokens (record :: records) ++ ts =
      .gap :: .byte record.tag :: (record.tokens ++ (recordTokens records ++ ts)) := by
  rw [recordTokens, List.flatMap_cons, List.cons_append, List.cons_append, List.cons_append, List.cons_append,
    List.append_assoc]
  rfl

def InSection (s : Section) (records : List Record) : Prop := ∀ record ∈ records, record.sec = s

/-- The sections from the current one on: their records and their tokens. -/
inductive Framed : Section → List Record → List Token → Prop
  | last {records : List Record} : InSection .state records →
      Framed .state records (recordTokens records ++ [.close, .byte sectionEnd])
  | next {s s' : Section} {tag : UInt8} {records later : List Record} {ts : List Token} : s ≠ .manifest →
      s.opens tag = some s' → InSection s records → Framed s' later ts →
        Framed s (records ++ later) (recordTokens records ++ .close :: .byte tag :: ts)
  | first {s : Section} {tag : UInt8} {records : List Record} {ts : List Token} :
      Section.opens .manifest tag = some s → Framed s records ts → Framed .manifest records (.byte tag :: ts)

section sections
variable (keccak256 : Bytes → B256) (manifest : Manifest)

/-- The records pass the checks of the reader, one after the other. -/
def Passes (p : Progress) : List Record → Prop
  | [] => True
  | record :: records => ∃ p', Admits keccak256 manifest { p with sec := record.sec } record p' ∧ Passes p' records

variable {keccak256 manifest} {p p' : Progress} {bytes rest : Bytes} {records later : List Record} {record : Record}

theorem passes_sec (s : Section) : Passes keccak256 manifest { p with sec := s } records ↔ Passes keccak256 manifest p records := by
  cases records with
  | nil => rfl
  | cons record records => rfl

theorem record_sec_ne_manifest (record : Record) : record.sec ≠ .manifest := by
  cases record <;> exact Section.noConfusion

variable {ts : List Token}

theorem spells_recEnd (h : Spells Token.Accepts (recordTokens records ++ .close :: ts) bytes) :
    Spells Token.Accepts (recordTokens records ++ .close :: ts) (recEnd :: bytes) := by
  cases records with
  | nil =>
    obtain ⟨-, v, rfl, ⟨k, rfl⟩, hv⟩ := h
    exact ⟨List.replicate (k + 1) recEnd, v, rfl, ⟨k + 1, rfl⟩, hv⟩
  | cons record records =>
    obtain ⟨-, v, rfl, ⟨k, rfl⟩, hv⟩ := h
    exact ⟨List.replicate (k + 1) recEnd, v, rfl, ⟨k + 1, rfl⟩, hv⟩

theorem spells_gap {b : UInt8} (h : Spells Token.Accepts ts bytes) :
    Spells Token.Accepts (.gap :: .byte b :: ts) (b :: bytes) :=
  ⟨[], b :: bytes, rfl, ⟨0, rfl⟩, [b], bytes, rfl, rfl, h⟩

theorem spells_close {b : UInt8} (h : Spells Token.Accepts ts bytes) :
    Spells Token.Accepts (.close :: .byte b :: ts) (b :: bytes) :=
  ⟨[], b :: bytes, rfl, ⟨0, rfl⟩, [b], bytes, rfl, rfl, h⟩

theorem Framed.cons {fields : Bytes} (h : Framed record.sec records ts)
    (hfields : Spells Token.Accepts record.tokens fields) (hts : Spells Token.Accepts ts bytes) :
    ∃ ts', Framed record.sec (record :: records) ts' ∧ Spells Token.Accepts ts' (record.tag :: (fields ++ bytes)) := by
  have hin {rs : List Record} (hrs : InSection record.sec rs) : InSection record.sec (record :: rs) := by
    intro r hr
    rcases List.mem_cons.mp hr with rfl | hr
    · rfl
    · exact hrs r hr
  generalize hs : record.sec = s at h
  cases h with
  | last hrs =>
    rw [← hs] at hrs
    refine ⟨_, .last (hs ▸ hin hrs), ?_⟩
    rw [recordTokens_cons]
    exact spells_gap (hfields.append hts)
  | next hne hopens hrs hlater =>
    rw [← hs] at hrs
    refine ⟨_, .next hne hopens (hs ▸ hin hrs) hlater, ?_⟩
    rw [recordTokens_cons]
    exact spells_gap (hfields.append hts)
  | first _ _ => exact absurd hs (record_sec_ne_manifest record)

theorem Path.framed (h : Path keccak256 manifest p bytes records) :
    Passes keccak256 manifest p records ∧ ∃ ts, Framed p.sec records ts ∧ Spells Token.Accepts ts bytes := by
  obtain ⟨front, q, rfl, hend, hway⟩ := h
  induction hway with
  | nil p =>
    rw [hend]
    exact ⟨trivial, _, .last (fun _ hr => by cases hr), spells_close rfl⟩
  | @opens p q s tag bytes records hopens _ ih =>
    obtain ⟨hpasses, ts, hframed, hspells⟩ := ih hend
    refine ⟨(passes_sec s).mp hpasses, ?_⟩
    by_cases hsec : p.sec = .manifest
    · rw [hsec] at hopens ⊢
      exact ⟨_, .first hopens hframed, [tag], _, rfl, rfl, hspells⟩
    · have hnone : InSection p.sec [] := fun _ hr => by cases hr
      exact ⟨_, .next hsec hopens hnone hframed, spells_close hspells⟩
  | @ends p q bytes records hsec _ ih =>
    obtain ⟨hpasses, ts, hframed, hspells⟩ := ih hend
    refine ⟨hpasses, ts, hframed, ?_⟩
    generalize p.sec = s at hframed hsec
    cases hframed with
    | last hrs => exact spells_recEnd hspells
    | next hne hopens hrs hlater => exact spells_recEnd hspells
    | first _ _ => exact absurd rfl hsec
  | @record p p' q record fields bytes records hsec hadmits hfields _ ih =>
    obtain ⟨hpasses, ts, hframed, hspells⟩ := ih hend
    rw [hadmits.sec, ← hsec] at hframed
    refine ⟨⟨p', ?_, hpasses⟩, ?_⟩
    · rw [hsec]
      exact hadmits
    · rw [← hsec, List.cons_append, List.append_assoc]
      exact hframed.cons hfields hspells

/-! ### Every spelling is a path -/

theorem Path.replicate (hsec : p.sec ≠ .manifest) (h : Path keccak256 manifest p bytes records) (k : ℕ) :
    Path keccak256 manifest p (List.replicate k recEnd ++ bytes) records := by
  induction k with
  | zero => exact h
  | succ k ih => exact (Way.ends hsec (.nil p)).path ih

/-- The records of a section, if the rest of the stream is known from the progress after them. -/
theorem path_records {s : Section} (hs : s ≠ .manifest) (hlater : ∀ (p : Progress) (bytes : Bytes), p.sec = s → Passes keccak256 manifest p later →
      Spells Token.Accepts (.close :: ts) bytes → Path keccak256 manifest p bytes later)
    (hrecords : InSection s records) (hsec : p.sec = s) (hpasses : Passes keccak256 manifest p (records ++ later))
    (hspells : Spells Token.Accepts (recordTokens records ++ .close :: ts) bytes) :
    Path keccak256 manifest p bytes (records ++ later) := by
  induction records generalizing p bytes with
  | nil => exact hlater p bytes hsec hpasses hspells
  | cons record records ih =>
    obtain ⟨p', hadmits, hpasses⟩ := hpasses
    have hrecord : record.sec = s := hrecords record (by simp)
    rw [hrecord, ← hsec] at hadmits
    rw [recordTokens_cons] at hspells
    obtain ⟨-, v, rfl, ⟨k, rfl⟩, -, w, rfl, rfl, hw⟩ := hspells
    obtain ⟨fields, bytes, rfl, hfields, hbytes⟩ := spells_append.mp hw
    have hrest := ih (fun r hr => hrecords r (by simp [hr])) (hadmits.sec.trans hsec) hpasses hbytes
    have hway := Way.record (hrecord.trans hsec.symm) hadmits hfields (.nil p')
    refine Path.replicate (by rwa [hsec]) ?_ k
    simpa using hway.path hrest

theorem Framed.path {s : Section} (h : Framed s records ts) (hsec : p.sec = s)
    (hpasses : Passes keccak256 manifest p records) (hspells : Spells Token.Accepts ts bytes) :
    Path keccak256 manifest p bytes records := by
  induction h generalizing p bytes with
  | @last records hrecords =>
    rw [← List.append_nil records] at hpasses ⊢
    refine path_records (by simp) (fun p bytes hsec _ hspells => ?_) hrecords hsec hpasses hspells
    obtain ⟨-, v, rfl, ⟨k, rfl⟩, hv⟩ := hspells
    obtain rfl : v = [sectionEnd] := (spells_singleton (A := Token.Accepts) (t := .byte sectionEnd)).mp hv
    exact Path.replicate (by simp [hsec]) (.done hsec) k
  | @next s s' tag records later ts hne hopens hrecords _ ih =>
    refine path_records hne (fun p bytes hsec hpasses hspells => ?_) hrecords hsec hpasses hspells
    obtain ⟨-, v, rfl, ⟨k, rfl⟩, -, w, rfl, rfl, hw⟩ := hspells
    rw [← hsec] at hopens
    exact Path.replicate (by rwa [hsec]) ((Way.opens hopens (.nil _)).path (ih rfl ((passes_sec s').mpr hpasses) hw)) k
  | @first s tag records ts hopens _ ih =>
    obtain ⟨-, w, rfl, rfl, hw⟩ := hspells
    rw [← hsec] at hopens
    exact (Way.opens hopens (.nil _)).path (ih rfl ((passes_sec s).mpr hpasses) hw)

end sections

/-! ### The three sections -/

/-- The records of a section. -/
def ofSection (s : Section) (records : List Record) : List Record := records.filter fun record => record.sec = s

/-- The records stand in the order of the sections. -/
def InOrder (records : List Record) : Prop :=
  records = ofSection .blocks records ++ (ofSection .history records ++ ofSection .state records)

def sectionTokens (records : List Record) : List Token :=
  .byte (Section.tag .blocks) :: (recordTokens (ofSection .blocks records) ++
    .close :: .byte (Section.tag .history) :: (recordTokens (ofSection .history records) ++
      .close :: .byte (Section.tag .state) :: (recordTokens (ofSection .state records) ++ [.close, .byte sectionEnd])))

/-- The tokens of a stream. -/
def streamTokens (manifest : Manifest) (records : List Record) : List Token :=
  manifestTokens manifest ++ sectionTokens records

theorem inSection_ofSection (s : Section) (records : List Record) : InSection s (ofSection s records) := by
  intro record hrecord
  simpa using (List.mem_filter.mp hrecord).2

theorem ofSection_eq {s : Section} {records : List Record} (h : InSection s records) : ofSection s records = records :=
  List.filter_eq_self.mpr fun record hrecord => by simpa using h record hrecord

theorem ofSection_of_ne {s s' : Section} {records : List Record} (h : InSection s records) (hne : s ≠ s') :
    ofSection s' records = [] :=
  List.filter_eq_nil_iff.mpr fun record hrecord => by simpa [h record hrecord] using hne

theorem ofSection_append (s : Section) (records later : List Record) :
    ofSection s (records ++ later) = ofSection s records ++ ofSection s later := List.filter_append ..

theorem framed_iff {records : List Record} {ts : List Token} :
    Framed .manifest records ts ↔ InOrder records ∧ ts = sectionTokens records := by
  constructor
  · intro h
    -- each section has one tag that opens the next one
    have hopen {tag tag' : UInt8} {s s' : Section} (h : (if tag = tag' then some s' else none) = some s) :
        tag = tag' ∧ s = s' := by
      obtain ⟨htag, hs⟩ := Option.ite_none_right_eq_some.mp h
      exact ⟨htag, (Option.some.inj hs).symm⟩
    cases h with
    | next hne _ _ _ => exact absurd rfl hne
    | first hopens h =>
      obtain ⟨rfl, rfl⟩ := hopen hopens
      cases h with
      | @next _ _ _ blocks _ _ _ hopens hblocks h =>
        obtain ⟨rfl, rfl⟩ := hopen hopens
        cases h with
        | @next _ _ _ history state _ _ hopens hhistory h =>
          obtain ⟨rfl, rfl⟩ := hopen hopens
          cases h with
          | next _ hopens _ _ => cases hopens
          | last hstate =>
            unfold InOrder sectionTokens
            simp only [ofSection_append, ofSection_eq hblocks, ofSection_eq hhistory, ofSection_eq hstate,
              ofSection_of_ne hblocks (show Section.blocks ≠ .history by decide),
              ofSection_of_ne hblocks (show Section.blocks ≠ .state by decide),
              ofSection_of_ne hhistory (show Section.history ≠ .blocks by decide),
              ofSection_of_ne hhistory (show Section.history ≠ .state by decide),
              ofSection_of_ne hstate (show Section.state ≠ .blocks by decide),
              ofSection_of_ne hstate (show Section.state ≠ .history by decide),
              List.append_nil, List.nil_append, and_self]
  · rintro ⟨hrecords, rfl⟩
    have hframed : Framed .manifest (ofSection .blocks records ++ (ofSection .history records ++ ofSection .state records))
        (sectionTokens records) :=
      .first rfl (.next (by decide) rfl (inSection_ofSection _ _) (.next (by decide) rfl (inSection_ofSection _ _)
        (.last (inSection_ofSection _ _))))
    have heq : records = _ := hrecords
    rwa [← heq] at hframed

/-- **The language of the reader.** -/
theorem accepted_language (keccak256 : Bytes → B256) (bytes rest : Bytes) (manifest : Manifest) (records : List Record) :
    (∃ last, SnapshotStream.ReadToEnd keccak256 bytes records last ∧ last.manifest = manifest ∧ last.inner = rest) ↔
      ∃ used, bytes = used ++ rest ∧ InOrder records ∧ Passes keccak256 manifest ⟨.manifest, none, none⟩ records ∧
        Spells Token.Accepts (streamTokens manifest records) used := by
  refine SnapshotStream.readToEnd_iff.trans ⟨?_, ?_⟩
  · rintro ⟨head, used, rfl, hhead, hpath⟩
    obtain ⟨hpasses, ts, hframed, hspells⟩ := hpath.framed
    obtain ⟨horder, rfl⟩ := framed_iff.mp hframed
    exact ⟨head ++ used, (List.append_assoc ..).symm, horder, hpasses, hhead.append hspells⟩
  · rintro ⟨used, rfl, horder, hpasses, hspells⟩
    obtain ⟨head, used, rfl, hhead, hused⟩ := spells_append.mp hspells
    exact ⟨head, used, List.append_assoc .., hhead, (framed_iff.mpr ⟨horder, rfl⟩).path rfl hpasses hused⟩

/-! ### Framings of one stream -/

/-- A manifest and a history object with one account, by the bytes for the resume point and for the account before the
block and the ends of the sections. -/
def sampleFraming (resumed present : UInt8) (blocks history state : ℕ) : Bytes :=
  magic ++ ([0xf1, 1] ++ toBe 32 7 ++ [1] ++ toBe 32 9 ++ [resumed]) ++
    (0xf2 :: List.replicate blocks recEnd) ++
    ([0xf3, 1, 1, 1, 1] ++ toBe 32 5 ++ toBe 32 7 ++ [1] ++ toBe 20 3 ++ [present, 0, 0, 0, 0] ++
      List.replicate history recEnd) ++
    (0xf4 :: List.replicate state recEnd) ++ [0xff]

def sampleManifest : Manifest := ⟨1, 7, 1, 9, none⟩

def sampleObject : HistoryObject := ⟨1, 1, 5, 7, [⟨3, some ⟨0, 0, none⟩, []⟩]⟩

theorem IsVarint.rest_eq {bytes rest : Bytes} (rest' : Bytes) {n : ℕ} (h : IsVarint bytes n)
    (hread : (readUvarint (bytes ++ rest)).val = .ok (n, rest')) : rest = rest' := by
  have hrest : (readUvarint (bytes ++ rest)).val = .ok (n, rest) :=
    uvarint_eq_ok_iff.mpr ⟨bytes, rfl, h⟩
  exact (Prod.mk.inj (Except.ok.inj (hrest.symm.trans hread))).2

/-- The second framing has a 2 for the resume point, a 7 for the account before the block, no end of the blocks and two
ends of the history. -/
theorem undocumented_accepted :
    SnapshotStream.ReadToEnd lengthHash (sampleFraming 0 1 1 1 1) [.history sampleObject]
        ⟨[], sampleManifest, ⟨.history, none, some (1, 7)⟩, none, true⟩ ∧
      SnapshotStream.ReadToEnd lengthHash (sampleFraming 2 7 0 2 1) [.history sampleObject]
        ⟨[], sampleManifest, ⟨.history, none, some (1, 7)⟩, none, true⟩ ∧
      (sampleFraming 0 1 1 1 1).length = (sampleFraming 2 7 0 2 1).length ∧
      ¬ Spells Token.Documents (streamTokens sampleManifest [.history sampleObject]) (sampleFraming 2 7 0 2 1) := by
  refine ⟨⟨⟨(sampleFraming 0 1 1 1 1).drop 76, sampleManifest, ⟨.manifest, none, none⟩, none, false⟩, ?_,
      ⟨[0, 0xf4, 0, 0xff], sampleManifest, ⟨.history, none, some (1, 7)⟩, none, false⟩, .cons ?_ (.nil _), ?_⟩,
    ⟨⟨(sampleFraming 2 7 0 2 1).drop 76, sampleManifest, ⟨.manifest, none, none⟩, none, false⟩, ?_,
      ⟨[0, 0, 0xf4, 0, 0xff], sampleManifest, ⟨.history, none, some (1, 7)⟩, none, false⟩, .cons ?_ (.nil _), ?_⟩,
    by decide +kernel, ?_⟩
  iterate 6 exact Runs.toOption_eq_some.mp (by decide +kernel)
  -- the reader says where the varints of the manifest end, and then the byte for the resume point comes
  rintro ⟨-, v, hbytes, rfl, -, w, rfl, rfl, block, x, rfl, hblock, -, y, rfl, rfl, id, z, rfl, hid, -, t, rfl, rfl, hrest⟩
  obtain ⟨-, s, rfl, rfl, -⟩ := hrest
  have hx := IsVarint.rest_eq ((sampleFraming 2 7 0 2 1).drop 10) hblock
    ((congrArg (fun bytes => (readUvarint (bytes.drop 9)).val) hbytes).symm.trans rfl)
  have hz := IsVarint.rest_eq ((sampleFraming 2 7 0 2 1).drop 43) hid
    ((congrArg (fun bytes => (readUvarint (bytes.drop 32)).val) hx).trans rfl)
  have hflag := congrArg (fun bytes => bytes[32]?) hz
  cases hflag

end ArbReth.Snapshot
