import ArbReth.Snapshot.Grammar

/-! # The records of a stream

Reading a stream is reading the list of its records (`source_nextRecord`), which are those that the
reader hands out (`handsOut_drain`).  Up to the end of the stream it goes along a path of the grammar
(`delivers_iff_path`).  The history objects among the records are chained (`HandsOut.chained`). -/

namespace ArbReth.Snapshot

open ArbReth.Codec

/-- What a reader of the stream can see: its records, the error in which it ends if it is malformed, and the last
history object that was read. -/
structure Source where
  manifest : Manifest
  records : List Record
  ending : Option StreamError
  lastHistory : Option (ℕ × B256)

namespace Source

def nextRecord (src : Source) : Except StreamError (Option Record × Source) :=
  match src.records with
  | record :: records =>
    .ok (some record, { src with records := records, lastHistory := record.seen src.lastHistory })
  | [] =>
    match src.ending with
    | none => .ok (none, src)
    | some e => .error e

def unread (src : Source) (record : Record) : Source := { src with records := record :: src.records }

end Source

namespace SnapshotStream

variable (keccak256 : Bytes → B256)

/-- How often the stream can be read at most. -/
def size (st : SnapshotStream) : ℕ := st.inner.length + if st.held.isSome then 1 else 0

def drain : ℕ → SnapshotStream → List Record × Option StreamError
  | 0, _ => ([], some .unexpectedEof)
  | fuel + 1, st =>
    match st.nextRecord keccak256 with
    | .error e => ([], some e)
    | .ok (none, _) => ([], none)
    | .ok (some record, st') => (record :: (drain fuel st').1, (drain fuel st').2)

def source (st : SnapshotStream) : Source where
  manifest := st.manifest
  records := (st.drain keccak256 (st.size + 1)).1
  ending := (st.drain keccak256 (st.size + 1)).2
  lastHistory := st.progress.lastHistory

variable {keccak256 : Bytes → B256} {st st' : SnapshotStream} {record : Record}

/-- A record was handed back before, or it comes from the stream. -/
theorem nextRecord_some (h : st.nextRecord keccak256 = .ok (some record, st')) :
    st.held = some record ∧ st' = { st with held := none } ∨
      st.held = none ∧ ∃ p rest, (nextTag keccak256 st.manifest st.progress st.inner).val = .ok (some (record, p), rest) ∧
        st' = { st with inner := rest, progress := p } := by
  unfold nextRecord at h
  split at h
  · rename_i hheld
    obtain ⟨hr, rfl⟩ := Prod.mk.inj (Except.ok.inj h)
    exact Or.inl ⟨hheld.trans hr, rfl⟩
  · rename_i hheld
    split at h
    · cases h
    · split at h
      · cases h
      · cases h
      · rename_i p rest hnext
        obtain ⟨hr, rfl⟩ := Prod.mk.inj (Except.ok.inj h)
        cases hr
        exact Or.inr ⟨hheld, p, rest, hnext, by rw [hheld]⟩

theorem nextRecord_none (h : st.nextRecord keccak256 = .ok (none, st')) :
    st.held = none ∧ (st.finished = true ∧ st' = st ∨
      ∃ rest, (nextTag keccak256 st.manifest st.progress st.inner).val = .ok (none, rest) ∧
        st' = { st with inner := rest, finished := true }) := by
  unfold nextRecord at h
  split at h
  · cases h
  · rename_i hheld
    refine ⟨hheld, ?_⟩
    split at h
    · cases h
      exact Or.inl ⟨‹_›, rfl⟩
    · split at h
      · cases h
      · rename_i rest hnext
        cases h
        exact Or.inr ⟨rest, hnext, by rw [hheld]⟩
      · cases h

theorem nextRecord_size (h : st.nextRecord keccak256 = .ok (some record, st')) : st'.size < st.size := by
  obtain ⟨hheld, rfl⟩ | ⟨hheld, p, rest, hnext, rfl⟩ := nextRecord_some h
  · simp [size, hheld]
  · have := nextTag_advances hnext
    simp only [size, hheld]
    omega

/-- Reading more often than the stream can be read changes nothing. -/
theorem drain_of_size_lt (keccak256 : Bytes → B256) {fuel fuel' : ℕ} (h : st.size < fuel) (h' : st.size < fuel') :
    st.drain keccak256 fuel = st.drain keccak256 fuel' := by
  induction fuel generalizing fuel' st with
  | zero => omega
  | succ fuel ih =>
    cases fuel' with
    | zero => omega
    | succ fuel' =>
      simp only [drain]
      cases hnext : st.nextRecord keccak256 with
      | error e => rfl
      | ok x =>
        obtain ⟨_ | record, st'⟩ := x
        · rfl
        · have hsize := nextRecord_size hnext
          have hrest : st'.drain keccak256 fuel = st'.drain keccak256 fuel' := ih (by omega) (by omega)
          simp only [hrest]

/-- A record that was handed back is the last one that was read. -/
def HeldLast (st : SnapshotStream) : Prop :=
  ∀ record, st.held = some record → record.seen st.progress.lastHistory = st.progress.lastHistory

theorem nextRecord_lastHistory (hst : st.HeldLast) (h : st.nextRecord keccak256 = .ok (some record, st')) :
    st'.manifest = st.manifest ∧ st'.progress.lastHistory = record.seen st.progress.lastHistory := by
  obtain ⟨hheld, rfl⟩ | ⟨-, p, rest, hnext, rfl⟩ := nextRecord_some h
  · exact ⟨rfl, (hst _ hheld).symm⟩
  · exact ⟨rfl, (nextTag_checks hnext).history.1⟩

theorem nextRecord_end (h : st.nextRecord keccak256 = .ok (none, st')) :
    st'.nextRecord keccak256 = .ok (none, st') ∧ st'.manifest = st.manifest ∧
      st'.progress.lastHistory = st.progress.lastHistory := by
  obtain ⟨hheld, ⟨-, rfl⟩ | ⟨rest, -, rfl⟩⟩ := nextRecord_none h
  · exact ⟨h, rfl, rfl⟩
  · exact ⟨by simp [nextRecord, hheld], rfl, rfl⟩

/-- **The reader and its records.**  Reading the stream is reading the list of its records. -/
theorem source_nextRecord (hst : st.HeldLast) :
    (st.source keccak256).nextRecord = (st.nextRecord keccak256).map fun x => (x.1, x.2.source keccak256) := by
  cases hnext : st.nextRecord keccak256 with
  | error e => simp [Source.nextRecord, source, drain, hnext, Except.map]
  | ok x =>
    obtain ⟨_ | record, st'⟩ := x
    · obtain ⟨hend, hmanifest, hlast⟩ := nextRecord_end hnext
      simp [Source.nextRecord, source, drain, hnext, hend, hmanifest, hlast, Except.map]
    · obtain ⟨hmanifest, hlast⟩ := nextRecord_lastHistory hst hnext
      have hrest := drain_of_size_lt keccak256 (nextRecord_size hnext) (Nat.lt_succ_self st'.size)
      simp [Source.nextRecord, source, drain, hnext, hmanifest, hlast, hrest, Except.map]

/-- The bytes of a code record stand before the end, and the stream breaks off behind them. -/
theorem source_nextRecord_broken : ∃ st st' : SnapshotStream, st.HeldLast ∧
    st.nextRecord lengthHash = .ok (some (.code 2 [0xaa, 0xbb]), st') ∧ st'.nextRecord lengthHash = .error .unexpectedEof ∧
    (st.source lengthHash).nextRecord = (st.nextRecord lengthHash).map fun x => (x.1, x.2.source lengthHash) := by
  let st : SnapshotStream := ⟨[recCode] ++ toBe 32 2 ++ [2, 0xaa, 0xbb], ⟨0, 0, 0, 0, none⟩, ⟨.state, none, none⟩, none, false⟩
  have hst : st.HeldLast := fun record h => by cases h
  exact ⟨st, { st with inner := [] }, hst, by decide +kernel, by decide +kernel, source_nextRecord hst⟩

/-- A record that was read is handed back: it is the first one again. -/
theorem source_unread (hheld : st.held = none) (record : Record) :
    (st.unread record).source keccak256 = (st.source keccak256).unread record := by
  have hnext : (st.unread record).nextRecord keccak256 = .ok (some record, st) := by
    rw [nextRecord]
    simp only [unread, ← hheld]
  have hsize : (st.unread record).size = st.size + 1 := by simp [size, unread, hheld]
  unfold source Source.unread
  rw [hsize, drain]
  simp only [hnext]
  rfl

theorem heldLast_unread (h : st.nextRecord keccak256 = .ok (some record, st')) (hst : st.HeldLast) :
    (st'.unread record).HeldLast := by
  intro record' hrecord'
  obtain rfl : record = record' := Option.some.inj hrecord'
  have hlast := (nextRecord_lastHistory hst h).2
  change record.seen st'.progress.lastHistory = st'.progress.lastHistory
  rw [hlast]
  cases record <;> rfl

/-! ### The records of a run -/

/-- What is drained was handed out, up to an error or to the end. -/
theorem handsOut_drain (keccak256 : Bytes → B256) (st : SnapshotStream) (fuel : ℕ) :
    ∃ mid, HandsOut keccak256 st (st.drain keccak256 fuel).1 mid ∧
      ((st.drain keccak256 fuel).2 = none → ∃ last, mid.nextRecord keccak256 = .ok (none, last)) := by
  induction fuel generalizing st with
  | zero => exact ⟨st, .nil st, nofun⟩
  | succ fuel ih =>
    simp only [drain]
    cases hnext : st.nextRecord keccak256 with
    | error e => exact ⟨st, .nil st, nofun⟩
    | ok x =>
      obtain ⟨_ | record, st'⟩ := x
      · exact ⟨st, .nil st, fun _ => ⟨st', hnext⟩⟩
      · obtain ⟨mid, hrun, hend⟩ := ih st'
        exact ⟨mid, .cons hnext hrun, hend⟩

variable {mid last : SnapshotStream} {records : List Record} {input rest : Bytes} {manifest : Manifest} {p q : Progress}

theorem HandsOut.chained (h : HandsOut keccak256 st records mid) (hheld : st.held = none) :
    Chained st.manifest.block st.progress.lastHistory records := by
  induction h with
  | nil st => trivial
  | cons hnext _ ih =>
    obtain ⟨hsome, -⟩ | ⟨-, p, rest, htag, rfl⟩ := nextRecord_some hnext
    · cases hheld.symm.trans hsome
    · obtain ⟨hlast, hadvances⟩ := (nextTag_checks htag).history
      refine ⟨hadvances, ?_⟩
      rw [← hlast]
      exact ih hheld

/-- Nothing was handed back, and the end was not reached. -/
def Fresh (st : SnapshotStream) : Prop := st.held = none ∧ st.finished = false

theorem Fresh.nextRecord_some (hst : st.Fresh) (h : st.nextRecord keccak256 = .ok (some record, st')) :
    ∃ p rest, (nextTag keccak256 st.manifest st.progress st.inner).val = .ok (some (record, p), rest) ∧
      st' = { st with inner := rest, progress := p } := by
  obtain ⟨hheld, -⟩ | ⟨-, hnext⟩ := SnapshotStream.nextRecord_some h
  · cases hst.1.symm.trans hheld
  · exact hnext

theorem Fresh.nextRecord_none (hst : st.Fresh) (h : st.nextRecord keccak256 = .ok (none, st')) :
    ∃ rest, (nextTag keccak256 st.manifest st.progress st.inner).val = .ok (none, rest) ∧
      st' = { st with inner := rest, finished := true } := by
  obtain ⟨-, ⟨hfinished, -⟩ | hnext⟩ := SnapshotStream.nextRecord_none h
  · cases hst.2.symm.trans hfinished
  · exact hnext

theorem HandsOut.fresh (hst : st.Fresh) (h : HandsOut keccak256 st records mid) :
    mid.Fresh ∧ mid.manifest = st.manifest := by
  induction h with
  | nil st => exact ⟨hst, rfl⟩
  | cons hnext _ ih =>
    obtain ⟨p, rest, -, rfl⟩ := hst.nextRecord_some hnext
    exact ih hst

theorem HandsOut.way (hst : st.Fresh) (h : HandsOut keccak256 st records mid) :
    ∃ used, st.inner = used ++ mid.inner ∧ Way keccak256 st.manifest st.progress used records mid.progress := by
  induction h with
  | nil st => exact ⟨[], rfl, .nil _⟩
  | cons hnext _ ih =>
    obtain ⟨p, rest, htag, rfl⟩ := hst.nextRecord_some hnext
    obtain ⟨used, hused, -, hway⟩ := nextTag_way htag
    obtain ⟨later, hlater, hrest⟩ := ih hst
    exact ⟨used ++ later, by rw [hused, List.append_assoc, ← hlater], (hway _ _ rfl).append hrest⟩

/-- The reader hands out these records and comes to tags behind them. -/
def HandsOutTo (keccak256 : Bytes → B256) (st : SnapshotStream) (records : List Record) (q : Progress) (rest : Bytes) : Prop :=
  ∃ now tags, HandsOut keccak256 st records now ∧ now.inner = tags ++ rest ∧
    Way keccak256 st.manifest now.progress tags [] q

/-- A tag in front. -/
theorem HandsOutTo.cons {tag : UInt8}
    (heq : nextTag keccak256 manifest p' (tag :: input) = nextTag keccak256 manifest p input)
    (hway : ∀ tags, Way keccak256 manifest p tags [] q → Way keccak256 manifest p' (tag :: tags) [] q)
    (h : HandsOutTo keccak256 ⟨input, manifest, p, none, false⟩ records q rest) :
    HandsOutTo keccak256 ⟨tag :: input, manifest, p', none, false⟩ records q rest := by
  obtain ⟨now, tags, hrun, hinner, htags⟩ := h
  cases hrun with
  | nil => exact ⟨_, tag :: tags, .nil _, congrArg (tag :: ·) hinner, hway tags htags⟩
  | cons hnext hrest =>
    obtain ⟨p₁, rest₁, htag, rfl⟩ := Fresh.nextRecord_some ⟨rfl, rfl⟩ hnext
    refine ⟨now, tags, .cons ?_ hrest, hinner, htags⟩
    simp only [nextRecord, heq, htag, Bool.false_eq_true, if_false]

theorem handsOutTo_of_way {used : Bytes} (h : Way keccak256 manifest p used records q) (rest : Bytes) :
    HandsOutTo keccak256 ⟨used ++ rest, manifest, p, none, false⟩ records q rest := by
  induction h with
  | nil p => exact ⟨_, [], .nil _, rfl, .nil p⟩
  | opens hopens _ ih => exact ih.cons (nextTag_opens hopens _) fun _ => .opens hopens
  | ends hne _ ih => exact ih.cons (nextTag_recEnd hne _) fun _ => .ends hne
  | record hrecord hadmits hfields _ ih =>
    obtain ⟨now, tags, hrun, hlast⟩ := ih
    refine ⟨now, tags, .cons ?_ hrun, hlast⟩
    simp only [nextRecord, List.cons_append, List.append_assoc, nextTag_record hrecord hadmits hfields,
      Bool.false_eq_true, if_false]

theorem nextTag_of_tags {tags : Bytes} (h : Way keccak256 manifest p tags [] q) (rest : Bytes) :
    nextTag keccak256 manifest p (tags ++ rest) = nextTag keccak256 manifest q rest := by
  generalize hnone : ([] : List Record) = records at h
  induction h with
  | nil p => rfl
  | opens hopens _ ih => exact (nextTag_opens hopens _).trans (ih hnone)
  | ends hne _ ih => exact (nextTag_recEnd hne _).trans (ih hnone)
  | record => cases hnone

theorem delivers_of_way {used : Bytes} (h : Way keccak256 manifest p used records q) (hsec : q.sec = .state) (rest : Bytes) :
    ∃ last, Delivers keccak256 ⟨used ++ sectionEnd :: rest, manifest, p, none, false⟩ records last ∧
      last.manifest = manifest ∧ last.inner = rest := by
  obtain ⟨now, tags, hrun, hinner, htags⟩ := handsOutTo_of_way h (sectionEnd :: rest)
  obtain ⟨⟨hheld, hfinished⟩, hmanifest⟩ := hrun.fresh ⟨rfl, rfl⟩
  refine ⟨{ now with inner := rest, finished := true }, ⟨now, hrun, ?_⟩, hmanifest, rfl⟩
  have htag : (nextTag keccak256 now.manifest now.progress now.inner).val = .ok (none, rest) := by
    rw [hinner, hmanifest, nextTag_of_tags htags, nextTag_sectionEnd hsec]
  rw [nextRecord, hheld]
  simp only [hfinished, htag, Bool.false_eq_true, if_false]

/-- The reader comes to the end of a stream with these records exactly along a path. -/
theorem delivers_iff_path :
    (∃ last, Delivers keccak256 ⟨input, manifest, p, none, false⟩ records last ∧ last.manifest = manifest ∧ last.inner = rest) ↔
      ∃ used, input = used ++ rest ∧ Path keccak256 manifest p used records := by
  constructor
  · rintro ⟨last, ⟨mid, hrun, hend⟩, -, rfl⟩
    obtain ⟨hmid, hsame⟩ := hrun.fresh ⟨rfl, rfl⟩
    obtain ⟨used, rfl, hway⟩ := hrun.way ⟨rfl, rfl⟩
    obtain ⟨rest, htag, rfl⟩ := hmid.nextRecord_none hend
    obtain ⟨later, hlater, hpath, -⟩ := nextTag_way htag
    rw [hsame] at hpath
    refine ⟨used ++ later, by rw [hlater, List.append_assoc], ?_⟩
    rw [← List.append_nil records]
    exact hway.path (hpath rfl)
  · rintro ⟨-, rfl, front, q, rfl, hsec, hway⟩
    rw [List.append_assoc]
    exact delivers_of_way hway hsec rest

end SnapshotStream

theorem Chained.of_suffix {convertPoint : ℕ} {last : Option (ℕ × B256)} {records rest : List Record}
    (h : Chained convertPoint last records) (hrest : rest <:+ records) : ∃ last', Chained convertPoint last' rest := by
  obtain ⟨front, rfl⟩ := hrest
  induction front generalizing last with
  | nil => exact ⟨last, h⟩
  | cons record front ih => exact ih h.2

end ArbReth.Snapshot
