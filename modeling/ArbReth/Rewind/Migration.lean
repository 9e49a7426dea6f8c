import ArbReth.Rewind.Layout
import Mathlib

/-! # Interrupted migrations

A run of `migrate_changeset_layout` that is cut is run again.  The second run decides by the data file that it finds and by
the header in its `.conf`.  So it completes the first one exactly if the cut has left the four files of every segment under
one name and the `.conf` with its whole length (`migrate_rerun`); between the first and the last rename, and within the
rewrite of the `.conf`, it does not.  Once a run has ended, another one writes nothing. -/

namespace ArbReth.Rewind

open ArbReth.Codec ArbReth.Durable ArbReth.Files

variable {genesis expEnd : ℕ} {seg : ChangesetSegment} {d t : Directory} {base : FileName} {conf : Bytes}
  {listing listing' : Directory → List FileName}

/-- The first block with a changeset. -/
abbrev target (genesis : ℕ) : ℕ := (genesis + 1) % u64Size

theorem target_lt (genesis : ℕ) : target genesis < u64Size := Nat.mod_lt _ (by decide)

/-- The base name of a segment that has been migrated. -/
abbrev alignedBase (genesis : ℕ) (seg : ChangesetSegment) (expEnd : ℕ) : FileName := newBase seg (target genesis) expEnd

/-! ### What the search leads to -/

theorem migrateSegment_none (hfind : (listing d).find? (isData seg) = none) :
    migrateSegment listing genesis seg d = ⟨[], .ok ()⟩ := by
  rw [migrateSegment, bind_apply_read (p := Prog.get) (a := d) rfl]
  simp only [hfind]
  rfl

theorem migrateSegment_some (hfind : (listing d).find? (isData seg) = some base) :
    migrateSegment listing genesis seg d = migrateData genesis seg base d := by
  rw [migrateSegment, bind_apply_read (p := Prog.get) (a := d) rfl]
  simp only [hfind]

/-- The data file has no `.conf`. -/
theorem migrateData_missing (hconf : d.lookup (file base .conf) = none) :
    migrateData genesis seg base d = ⟨[], .error (.notFound (file base .conf))⟩ := by
  have hread := read_missing hconf
  rw [migrateData, bind_apply_error (e := .notFound (file base .conf)) (by rw [hread]), hread]

theorem migrateData_skip (hconf : d.lookup (file base .conf) = some conf) (hshape : misSeeded genesis conf = none) :
    migrateData genesis seg base d = ⟨[], .ok ()⟩ := by
  rw [migrateData, bind_apply_read (read_ok hconf)]
  simp only [hshape]
  rfl

theorem migrateData_realign (hconf : d.lookup (file base .conf) = some conf)
    (hshape : misSeeded genesis conf = some expEnd) :
    migrateData genesis seg base d = realign seg (target genesis) base expEnd d := by
  rw [migrateData, bind_apply_read (read_ok hconf)]
  simp only [hshape]

theorem migrateSegment_skip (h : ∀ base, (listing d).find? (isData seg) = some base →
      ∃ conf, d.lookup (file base .conf) = some conf ∧ misSeeded genesis conf = none) :
    migrateSegment listing genesis seg d = ⟨[], .ok ()⟩ := by
  cases hfind : (listing d).find? (isData seg) with
  | none => exact migrateSegment_none hfind
  | some base =>
    obtain ⟨conf, hconf, hskip⟩ := h base hfind
    rw [migrateSegment_some hfind, migrateData_skip hconf hskip]

theorem Lists.find?_mem (hlists : Lists listing) {name : FileName} (h : (listing d).find? (isData seg) = some name) :
    name ∈ d ∧ isData seg name = true :=
  ⟨((hlists d).2 name).mp (List.mem_of_find?_eq_some h), List.find?_some h⟩

theorem Lists.find?_single (hlists : Lists listing) (hmem : base ∈ d) (hdata : isData seg base = true)
    (hsingle : ∀ name ∈ d, isData seg name = true → name = base) : (listing d).find? (isData seg) = some base := by
  cases hfind : (listing d).find? (isData seg) with
  | none =>
    have := List.find?_eq_none.mp hfind base (((hlists d).2 base).mpr hmem)
    exact absurd hdata this
  | some name =>
    obtain ⟨hname, hisData⟩ := hlists.find?_mem hfind
    rw [hsingle name hname hisData]

/-! ### Names of other segments stay -/

theorem keeps_realign (hbase : stem seg <+: base) (target expEnd : ℕ) :
    Keeps (fun name => ¬stem seg <+: name) (realign seg target base expEnd) := by
  have hnew : stem seg <+: newBase seg target expEnd := (isData_iff.mp (isData_newBase seg target expEnd)).1
  refine (Keeps.renameAll (fun kind h => h (stem_file hbase kind)) (fun kind h => h (stem_file hnew kind)) _).bind fun _ => ?_
  exact (Keeps.read _).bind fun conf => .rewrite fun h => h (stem_file hnew .conf)

theorem keeps_migrateData (hbase : stem seg <+: base) (genesis : ℕ) :
    Keeps (fun name => ¬stem seg <+: name) (migrateData genesis seg base) := by
  refine (Keeps.read _).bind fun conf => ?_
  cases misSeeded genesis conf with
  | none => exact .of_writes_nil fun _ => rfl
  | some expEnd => exact keeps_realign hbase _ expEnd

/-- A migration of a segment keeps the files that are not of the segment. -/
theorem keeps_migrateSegment (hlists : Lists listing) (genesis : ℕ) (seg : ChangesetSegment) :
    Keeps (fun name => ¬stem seg <+: name) (migrateSegment listing genesis seg) := by
  intro d t ht
  cases hfind : (listing d).find? (isData seg) with
  | none =>
    rw [Cut, migrateSegment_none hfind] at ht
    obtain rfl := ht.resolve_right List.not_mem_nil
    exact fun _ _ => rfl
  | some base =>
    rw [Cut, migrateSegment_some hfind] at ht
    exact keeps_migrateData (isData_iff.mp (hlists.find?_mem hfind).2).1 genesis d t ht

/-! ### A mis-seeded segment -/

/-- A mis-seeded data file with its companions, and nothing under the name that it is to get. -/
structure Seeded (genesis : ℕ) (seg : ChangesetSegment) (d : Directory) (base : FileName) (expEnd : ℕ) (conf : Bytes) :
    Prop where
  data : isData seg base = true
  files : ∀ kind, file base kind ∈ d
  lookup_conf : d.lookup (file base .conf) = some conf
  shape : misSeeded genesis conf = some expEnd
  vacant : base ≠ alignedBase genesis seg expEnd → ∀ kind, file (alignedBase genesis seg expEnd) kind ∉ d

/-- The four files under the new name. -/
def renamed (genesis : ℕ) (seg : ChangesetSegment) (base : FileName) (expEnd : ℕ) (d : Directory) : Directory :=
  moveAll (file base) (file (alignedBase genesis seg expEnd)) d FileKind.all

/-- And the new header in the `.conf`. -/
def migrated (genesis : ℕ) (seg : ChangesetSegment) (base : FileName) (expEnd : ℕ) (conf : Bytes) (d : Directory) :
    Directory :=
  (renamed genesis seg base expEnd d).insert (file (alignedBase genesis seg expEnd) .conf) (patch (target genesis) conf)

theorem FileKind.mem_all (kind : FileKind) : kind ∈ FileKind.all := by cases kind <;> decide

theorem alignedBase_dot_notMem (genesis : ℕ) (seg : ChangesetSegment) (expEnd : ℕ) :
    '.' ∉ alignedBase genesis seg expEnd := (isData_iff.mp (isData_newBase _ _ _)).2

theorem lookup_migrated_conf : (migrated genesis seg base expEnd conf d).lookup
    (file (alignedBase genesis seg expEnd) .conf) = some (patch (target genesis) conf) := Finmap.lookup_insert _

namespace Seeded

variable (h : Seeded genesis seg d base expEnd conf)
include h

theorem dot_notMem : '.' ∉ base := (isData_iff.mp h.data).2

theorem file_ne (hne : base ≠ alignedBase genesis seg expEnd) (j k : FileKind) :
    file base j ≠ file (alignedBase genesis seg expEnd) k := fun heq =>
  hne ((file_eq_file h.dot_notMem (alignedBase_dot_notMem _ _ _)).mp heq).1

theorem lookup_renamed (kind : FileKind) :
    (renamed genesis seg base expEnd d).lookup (file (alignedBase genesis seg expEnd) kind) =
      d.lookup (file base kind) := by
  by_cases heq : base = alignedBase genesis seg expEnd
  · rw [renamed, ← heq, moveAll_self]
  · exact lookup_moveAll_dst (file_injective h.dot_notMem) (file_injective (alignedBase_dot_notMem _ _ _)) (h.file_ne heq)
      (by decide) kind.mem_all (h.files kind)

end Seeded

/-- The states that the migration of a segment passes through, if it finds a `.conf` under the new name. -/
theorem realign_spec
    (hlookup : (renamed genesis seg base expEnd d).lookup (file (alignedBase genesis seg expEnd) .conf) = some conf) :
    (realign seg (target genesis) base expEnd d).result = .ok () ∧
      (realign seg (target genesis) base expEnd d).final d = migrated genesis seg base expEnd conf d ∧
      ∀ t, Cut (realign seg (target genesis) base expEnd) d t → (∃ n ≤ FileKind.all.length,
          t = moveAll (file base) (file (alignedBase genesis seg expEnd)) d (FileKind.all.take n)) ∨
        ∃ n ≤ (patch (target genesis) conf).length, t = (renamed genesis seg base expEnd d).insert
          (file (alignedBase genesis seg expEnd) .conf) ((patch (target genesis) conf).take n) := by
  obtain ⟨hok, hfinal, hwrites⟩ := renameAll_spec (ε := FileError FileName) (file base)
    (file (alignedBase genesis seg expEnd)) FileKind.all d
  have hread := read_ok hlookup
  have hreadOk : (read (file (alignedBase genesis seg expEnd) .conf) (renamed genesis seg base expEnd d)).result =
      .ok conf := by rw [hread]
  have hreadFinal : (read (file (alignedBase genesis seg expEnd) .conf) (renamed genesis seg base expEnd d)).final
      (renamed genesis seg base expEnd d) = renamed genesis seg base expEnd d := by rw [hread]; rfl
  rw [realign]
  refine ⟨?_, ?_, fun t ht => ?_⟩
  · rw [bind_apply hok, hfinal, ← renamed, bind_apply hreadOk]
    rfl
  · rw [final_bind hok, hfinal, ← renamed, final_bind hreadOk, hreadFinal, final_rewrite]
    rfl
  · rcases ht.of_bind with ht | ⟨_, -, ht⟩
    · rcases ht with rfl | ht
      · exact .inl ⟨0, Nat.zero_le _, rfl⟩
      · exact .inl (hwrites t ht)
    · rw [hfinal, ← renamed] at ht
      rcases ht.of_bind with ht | ⟨content, hcontent, ht⟩
      · rw [Cut, hread] at ht
        exact .inl ⟨_, le_rfl, (ht.resolve_right List.not_mem_nil).trans (by rw [renamed, List.take_length])⟩
      · rw [hreadFinal] at ht
        rw [hreadOk] at hcontent
        cases hcontent
        rcases ht with rfl | ht
        · exact .inl ⟨_, le_rfl, by rw [renamed, List.take_length]⟩
        · obtain ⟨n, hn, rfl⟩ := mem_writes_rewrite.mp ht
          exact .inr ⟨n, hn, rfl⟩

theorem Seeded.migrateSegment_eq (h : Seeded genesis seg d base expEnd conf)
    (hfind : (listing d).find? (isData seg) = some base) :
    migrateSegment listing genesis seg d = realign seg (target genesis) base expEnd d := by
  rw [migrateSegment_some hfind, migrateData_realign h.lookup_conf h.shape]

theorem Seeded.migrates (h : Seeded genesis seg d base expEnd conf) (hfind : (listing d).find? (isData seg) = some base) :
    (migrateSegment listing genesis seg d).result = .ok () ∧
      (migrateSegment listing genesis seg d).final d = migrated genesis seg base expEnd conf d := by
  rw [h.migrateSegment_eq hfind]
  obtain ⟨hok, hfinal, -⟩ := realign_spec ((h.lookup_renamed .conf).trans h.lookup_conf)
  exact ⟨hok, hfinal⟩

/-! ### Where a run was cut -/

/-- A single data file of the segment. -/
def Single (seg : ChangesetSegment) (d : Directory) (base : FileName) : Prop :=
  ∀ name ∈ d, isData seg name = true → name = base

/-- The four files of a segment stand under one name, and the `.conf` has a given length. -/
def Whole (seg : ChangesetSegment) (d : Directory) (length : ℕ) : Prop :=
  ∃ base conf, isData seg base = true ∧ (∀ kind, file base kind ∈ d) ∧ d.lookup (file base .conf) = some conf ∧
    conf.length = length

theorem file_data (base : FileName) : file base .data = base := List.append_nil base

namespace Seeded

variable (h : Seeded genesis seg d base expEnd conf)
include h

theorem whole : Whole seg d conf.length := ⟨base, conf, h.data, h.files, h.lookup_conf, rfl⟩

theorem base_mem : base ∈ d := by
  have := h.files .data
  rwa [file_data] at this

/-- Once the data file is renamed, it is the single one under the new name. -/
theorem single_moveAll (hsingle : Single seg d base) {kinds : List FileKind} (hmoved : FileKind.data ∈ kinds) :
    Single seg (moveAll (file base) (file (alignedBase genesis seg expEnd)) d kinds) (alignedBase genesis seg expEnd) := by
  intro name hname hdata
  by_cases hnew : ∃ kind, name = file (alignedBase genesis seg expEnd) kind
  · obtain ⟨kind, rfl⟩ := hnew
    rw [(isData_file (isData_newBase _ _ _)).mp hdata, file_data]
  · exfalso
    have hnot (kind : FileKind) : name ≠ file (alignedBase genesis seg expEnd) kind := fun heq => hnew ⟨kind, heq⟩
    have hne : base ≠ alignedBase genesis seg expEnd := by
      rintro heq
      rw [heq, moveAll_self] at hname
      exact hnot .data ((hsingle name hname hdata).trans (heq.trans (file_data _).symm))
    by_cases hold : ∃ kind, name = file base kind
    · obtain ⟨kind, rfl⟩ := hold
      rw [(isData_file h.data).mp hdata, Finmap.mem_iff,
        lookup_moveAll_src (file_injective h.dot_notMem) (h.file_ne hne) hmoved] at hname
      obtain ⟨content, hcontent⟩ := hname
      cases hcontent
    · rw [mem_congr (lookup_moveAll_of_ne (fun kind _ heq => hold ⟨kind, heq⟩) (fun kind _ => hnot kind))] at hname
      exact hold ⟨.data, (hsingle name hname hdata).trans (file_data base).symm⟩

theorem single_renamed (hsingle : Single seg d base) :
    Single seg (renamed genesis seg base expEnd d) (alignedBase genesis seg expEnd) :=
  h.single_moveAll hsingle FileKind.data.mem_all

theorem mem_renamed (kind : FileKind) :
    file (alignedBase genesis seg expEnd) kind ∈ renamed genesis seg base expEnd d :=
  (mem_congr (h.lookup_renamed kind)).mpr (h.files kind)

/-- After the renames the segment is still mis-seeded, with its new name. -/
theorem renamed : Seeded genesis seg (renamed genesis seg base expEnd d) (alignedBase genesis seg expEnd) expEnd conf where
  data := isData_newBase _ _ _
  files := h.mem_renamed
  lookup_conf := (h.lookup_renamed .conf).trans h.lookup_conf
  shape := h.shape
  vacant hne := absurd rfl hne

omit h in
theorem migrated_renamed :
    migrated genesis seg (alignedBase genesis seg expEnd) expEnd conf (Rewind.renamed genesis seg base expEnd d) =
      migrated genesis seg base expEnd conf d := by
  rw [migrated, Rewind.renamed, moveAll_self, migrated]

/-- The rewrite of the `.conf` leaves the data file the single one. -/
theorem single_insert (hsingle : Single seg d base) (content : Bytes) :
    Single seg ((Rewind.renamed genesis seg base expEnd d).insert (file (alignedBase genesis seg expEnd) .conf) content)
      (alignedBase genesis seg expEnd) := by
  intro name hname hdata
  rcases Finmap.mem_insert.mp hname with rfl | hname
  · cases (isData_file (isData_newBase seg (target genesis) expEnd)).mp hdata
  · exact h.single_renamed hsingle name hname hdata

theorem rerun_start (hlists : Lists listing) (hsingle : Single seg d base) :
    (migrateSegment listing genesis seg d).result = .ok () ∧
      (migrateSegment listing genesis seg d).final d = migrated genesis seg base expEnd conf d :=
  h.migrates (hlists.find?_single h.base_mem h.data hsingle)

theorem rerun_renamed (hlists : Lists listing) (hsingle : Single seg d base) :
    (migrateSegment listing genesis seg (Rewind.renamed genesis seg base expEnd d)).result = .ok () ∧
      (migrateSegment listing genesis seg (Rewind.renamed genesis seg base expEnd d)).final
        (Rewind.renamed genesis seg base expEnd d) = migrated genesis seg base expEnd conf d := by
  have hrerun := h.renamed.rerun_start hlists (h.single_renamed hsingle)
  rwa [migrated_renamed] at hrerun

/-- Whatever the rewrite has left, a second run takes the segment for aligned. -/
theorem rerun_torn (hlists : Lists listing) (hsingle : Single seg d base) (n : ℕ) :
    migrateSegment listing genesis seg ((Rewind.renamed genesis seg base expEnd d).insert
      (file (alignedBase genesis seg expEnd) .conf) ((patch (target genesis) conf).take n)) = ⟨[], .ok ()⟩ := by
  have hmem : alignedBase genesis seg expEnd ∈ (Rewind.renamed genesis seg base expEnd d).insert
      (file (alignedBase genesis seg expEnd) .conf) ((patch (target genesis) conf).take n) := by
    have := h.mem_renamed .data
    rw [file_data] at this
    exact Finmap.mem_insert.mpr (.inr this)
  rw [migrateSegment_some (hlists.find?_single hmem (isData_newBase _ _ _) (h.single_insert hsingle _))]
  exact migrateData_skip (Finmap.lookup_insert _)
    (misSeeded_take_patch (length_of_misSeeded h.shape) (target_lt genesis) genesis n)

/-- A file that is still to be renamed is not there under the new name. -/
theorem notMem_moveAll (hne : base ≠ alignedBase genesis seg expEnd) {kinds : List FileKind} {kind : FileKind}
    (hkind : kind ∉ kinds) :
    file (alignedBase genesis seg expEnd) kind ∉ moveAll (file base) (file (alignedBase genesis seg expEnd)) d kinds := by
  have hlookup : (moveAll (file base) (file (alignedBase genesis seg expEnd)) d kinds).lookup
      (file (alignedBase genesis seg expEnd) kind) = d.lookup (file (alignedBase genesis seg expEnd) kind) := by
    apply lookup_moveAll_of_ne
    · exact fun k _ => (h.file_ne hne k kind).symm
    · exact fun k hk heq => hkind (file_injective (alignedBase_dot_notMem genesis seg expEnd) heq ▸ hk)
  rw [mem_congr hlookup]
  exact h.vacant hne kind

/-- Some files are renamed and others are not: the second run fails, or leaves the `.csoff` under its old name. -/
theorem rerun_split (hlists : Lists listing) (hsingle : Single seg d base) (hne : base ≠ alignedBase genesis seg expEnd)
    (kinds : List FileKind) (hnodup : kinds.Nodup) (hdata : .data ∈ kinds) (hcsoff : .csoff ∉ kinds)
    (ht : t = moveAll (file base) (file (alignedBase genesis seg expEnd)) d kinds) :
    (∀ length, ¬Whole seg t length) ∧ ((migrateSegment listing genesis seg t).result ≠ .ok () ∨
      ∃ name, stem seg <+: name ∧ ((migrateSegment listing genesis seg t).final t).lookup name ≠
        (migrated genesis seg base expEnd conf d).lookup name) := by
  have hsingle' : Single seg t (alignedBase genesis seg expEnd) := ht ▸ h.single_moveAll hsingle hdata
  have hmoved (kind : FileKind) (hkind : kind ∈ kinds) :
      t.lookup (file (alignedBase genesis seg expEnd) kind) = d.lookup (file base kind) := by
    rw [ht]
    exact lookup_moveAll_dst (file_injective h.dot_notMem) (file_injective (alignedBase_dot_notMem _ _ _)) (h.file_ne hne)
      hnodup hkind (h.files kind)
  have hmem : alignedBase genesis seg expEnd ∈ t := by
    have := (mem_congr (hmoved .data hdata)).mpr (h.files .data)
    rwa [file_data] at this
  have hmissing (kind : FileKind) (hkind : kind ∉ kinds) : file (alignedBase genesis seg expEnd) kind ∉ t := by
    rw [ht]
    exact h.notMem_moveAll hne hkind
  constructor
  · rintro length ⟨base', conf', hdata', hfiles, -⟩
    have hmem' := hfiles .data
    rw [file_data] at hmem'
    have hbase := hsingle' base' hmem' hdata'
    exact hmissing .csoff hcsoff (hbase ▸ hfiles .csoff)
  · rw [migrateSegment_some (hlists.find?_single hmem (isData_newBase _ _ _) hsingle')]
    by_cases hconf : FileKind.conf ∈ kinds
    · right
      have hlookup := (hmoved .conf hconf).trans h.lookup_conf
      rw [migrateData_realign hlookup h.shape]
      have hself : Rewind.renamed genesis seg (alignedBase genesis seg expEnd) expEnd t = t := moveAll_self
      have hlookup' : (Rewind.renamed genesis seg (alignedBase genesis seg expEnd) expEnd t).lookup
          (file (alignedBase genesis seg expEnd) .conf) = some conf := by rw [hself, hlookup]
      obtain ⟨-, hfinal, -⟩ := realign_spec hlookup'
      refine ⟨file base .csoff, stem_file (isData_iff.mp h.data).1 _, ?_⟩
      have hold : t.lookup (file base .csoff) = d.lookup (file base .csoff) := by
        rw [ht]
        apply lookup_moveAll_of_ne
        · exact fun k hk heq => hcsoff (file_injective h.dot_notMem heq ▸ hk)
        · exact fun k _ => h.file_ne hne .csoff k
      obtain ⟨content, hcontent⟩ := Finmap.mem_iff.mp (h.files .csoff)
      rw [hfinal, migrated, migrated, Finmap.lookup_insert_of_ne _ (h.file_ne hne _ _),
        Finmap.lookup_insert_of_ne _ (h.file_ne hne _ _), hself, hold, hcontent, Rewind.renamed,
        lookup_moveAll_src (file_injective h.dot_notMem) (h.file_ne hne) FileKind.csoff.mem_all]
      exact Option.some_ne_none content
    · left
      rw [migrateData_missing (Finmap.lookup_eq_none.mpr (hmissing .conf hconf))]
      exact fun heq => by cases heq

/-- A run from where a run was cut: it ends like the first one exactly if the files are whole. -/
theorem rerun (hlists : Lists listing) (hsingle : Single seg d base)
    (ht : Cut (realign seg (target genesis) base expEnd) d t) :
    (Whole seg t conf.length ∧ (migrateSegment listing genesis seg t).result = .ok () ∧
        (migrateSegment listing genesis seg t).final t = migrated genesis seg base expEnd conf d) ∨
      ¬Whole seg t conf.length ∧ ((migrateSegment listing genesis seg t).result ≠ .ok () ∨
        ∃ name, stem seg <+: name ∧ ((migrateSegment listing genesis seg t).final t).lookup name ≠
          (migrated genesis seg base expEnd conf d).lookup name) := by
  have hlength : (patch (target genesis) conf).length = conf.length := length_patch (length_of_misSeeded h.shape)
  obtain ⟨-, -, hcuts⟩ := realign_spec ((h.lookup_renamed .conf).trans h.lookup_conf)
  rcases hcuts t ht with ⟨n, hn, hmoved⟩ | ⟨n, hn, rfl⟩
  · by_cases hstart : t = d
    · left
      rw [hstart]
      exact ⟨h.whole, h.rerun_start hlists hsingle⟩
    · have hne : base ≠ alignedBase genesis seg expEnd := by
        intro heq
        rw [← heq, moveAll_self] at hmoved
        exact hstart hmoved
      by_cases hall : n = 4
      · left
        have hrenamed : t = Rewind.renamed genesis seg base expEnd d := by
          rw [hmoved, hall]
          rfl
        rw [hrenamed]
        exact ⟨h.renamed.whole, h.rerun_renamed hlists hsingle⟩
      · right
        have hzero : n ≠ 0 := by
          rintro rfl
          exact hstart hmoved
        have hn' : n = 1 ∨ n = 2 ∨ n = 3 := by
          have : FileKind.all.length = 4 := rfl
          omega
        obtain ⟨hwhole, hbroken⟩ := h.rerun_split hlists hsingle hne (FileKind.all.take n)
          (by rcases hn' with rfl | rfl | rfl <;> decide) (by rcases hn' with rfl | rfl | rfl <;> decide)
          (by rcases hn' with rfl | rfl | rfl <;> decide) hmoved
        exact ⟨hwhole _, hbroken⟩
  · rw [h.rerun_torn hlists hsingle n]
    by_cases hfull : n = conf.length
    · left
      have hcontent : (patch (target genesis) conf).take n = patch (target genesis) conf := by
        rw [hfull, ← hlength, List.take_length]
      rw [hcontent]
      refine ⟨⟨alignedBase genesis seg expEnd, patch (target genesis) conf, isData_newBase _ _ _, fun kind => ?_,
        Finmap.lookup_insert _, hlength⟩, rfl, rfl⟩
      exact Finmap.mem_insert.mpr (.inr (h.mem_renamed kind))
    · right
      have htake : ((patch (target genesis) conf).take n).length = n := by
        rw [List.length_take]
        omega
      refine ⟨?_, .inr ⟨file (alignedBase genesis seg expEnd) .conf, ?_, ?_⟩⟩
      · rintro ⟨base', conf', hdata', hfiles, hconf', hlength'⟩
        have hmem := hfiles .data
        rw [file_data] at hmem
        have hbase := h.single_insert hsingle _ base' hmem hdata'
        rw [hbase, Finmap.lookup_insert, Option.some.injEq] at hconf'
        rw [← hconf', htake] at hlength'
        exact hfull hlength'
      · exact stem_file (isData_iff.mp (isData_newBase _ _ _)).1 _
      · change Finmap.lookup _ (Finmap.insert _ _ _) ≠ _
        rw [Finmap.lookup_insert, lookup_migrated_conf]
        intro heq
        have := congrArg List.length (Option.some.inj heq)
        rw [htake, hlength] at this
        exact hfull this

end Seeded

/-! ### One segment, run again -/

/-- Every data file of the segment is left alone. -/
def Settled (genesis : ℕ) (seg : ChangesetSegment) (d : Directory) : Prop :=
  ∀ name ∈ d, isData seg name = true → ∃ conf, d.lookup (file name .conf) = some conf ∧ misSeeded genesis conf = none

/-- The segment is mis-seeded in a single data file, or it is left alone. -/
def Ready (genesis : ℕ) (seg : ChangesetSegment) (d : Directory) : Prop :=
  (∃ base expEnd conf, Seeded genesis seg d base expEnd conf ∧ Single seg d base) ∨ Settled genesis seg d

/-- If the segment was mis-seeded, its four files stand under one name, with a `.conf` of the same length. -/
def Intact (genesis : ℕ) (seg : ChangesetSegment) (d t : Directory) : Prop :=
  ∀ base expEnd conf, Seeded genesis seg d base expEnd conf → Whole seg t conf.length

/-- The files of a segment are the same in two directories. -/
def Agree (seg : ChangesetSegment) (d t : Directory) : Prop := ∀ name, stem seg <+: name → t.lookup name = d.lookup name

theorem Settled.skip (h : Settled genesis seg d) (hlists : Lists listing) :
    migrateSegment listing genesis seg d = ⟨[], .ok ()⟩ :=
  migrateSegment_skip fun base hfind => h base (hlists.find?_mem hfind).1 (hlists.find?_mem hfind).2

theorem Seeded.not_skipped (h : Seeded genesis seg d base expEnd conf) :
    ¬∃ conf', d.lookup (file base .conf) = some conf' ∧ misSeeded genesis conf' = none := by
  rintro ⟨conf', hconf', hskip⟩
  cases h.lookup_conf.symm.trans hconf'
  cases h.shape.symm.trans hskip

theorem Settled.not_seeded (h : Settled genesis seg d) : ¬Seeded genesis seg d base expEnd conf := fun hseeded =>
  hseeded.not_skipped (h base hseeded.base_mem hseeded.data)

theorem Seeded.settled_migrated (h : Seeded genesis seg d base expEnd conf) (hsingle : Single seg d base) :
    Settled genesis seg (migrated genesis seg base expEnd conf d) := by
  intro name hname hdata
  obtain rfl := h.single_insert hsingle _ name hname hdata
  refine ⟨_, lookup_migrated_conf, ?_⟩
  have hskip := misSeeded_take_patch (length_of_misSeeded h.shape) (target_lt genesis) genesis
    (patch (target genesis) conf).length
  rwa [List.take_length] at hskip

namespace Agree

variable {seg' : ChangesetSegment}

theorem mem (h : Agree seg d t) {name : FileName} (hname : stem seg <+: name) : name ∈ t ↔ name ∈ d :=
  mem_congr (h name hname)

theorem symm (h : Agree seg d t) : Agree seg t d := fun name hname => (h name hname).symm

theorem file (h : Agree seg d t) (hbase : isData seg base = true) (kind : FileKind) :
    t.lookup (Rewind.file base kind) = d.lookup (Rewind.file base kind) := h _ (stem_file (isData_iff.mp hbase).1 kind)

theorem seeded (h : Agree seg d t) (hseeded : Seeded genesis seg d base expEnd conf) :
    Seeded genesis seg t base expEnd conf where
  data := hseeded.data
  files kind := (mem_congr (h.file hseeded.data kind)).mpr (hseeded.files kind)
  lookup_conf := (h.file hseeded.data .conf).trans hseeded.lookup_conf
  shape := hseeded.shape
  vacant hne kind hmem := hseeded.vacant hne kind ((mem_congr (h.file (isData_newBase _ _ _) kind)).mp hmem)

theorem single (h : Agree seg d t) (hsingle : Single seg d base) : Single seg t base := fun name hname hdata =>
  hsingle name ((h.mem (isData_iff.mp hdata).1).mp hname) hdata

theorem settled (h : Agree seg d t) (hsettled : Settled genesis seg d) : Settled genesis seg t := by
  intro name hname hdata
  obtain ⟨conf, hconf, hskip⟩ := hsettled name ((h.mem (isData_iff.mp hdata).1).mp hname) hdata
  exact ⟨conf, (h.file hdata .conf).trans hconf, hskip⟩

theorem ready (h : Agree seg d t) (hready : Ready genesis seg d) : Ready genesis seg t := by
  rcases hready with ⟨base, expEnd, conf, hseeded, hsingle⟩ | hsettled
  · exact .inl ⟨base, expEnd, conf, h.seeded hseeded, h.single hsingle⟩
  · exact .inr (h.settled hsettled)

theorem whole (h : Agree seg d t) {length : ℕ} (hwhole : Whole seg d length) : Whole seg t length := by
  obtain ⟨base, conf, hdata, hfiles, hconf, hlength⟩ := hwhole
  exact ⟨base, conf, hdata, fun kind => (mem_congr (h.file hdata kind)).mpr (hfiles kind),
    (h.file hdata .conf).trans hconf, hlength⟩

theorem of_cut (hlists : Lists listing) (hne : seg ≠ seg') (h : Cut (migrateSegment listing genesis seg) d t) :
    Agree seg' d t := fun name hname =>
  keeps_migrateSegment hlists genesis seg d t h name fun hother => hne (stem_unique hother hname)

end Agree

/-- One segment: a second run from a cut ends like the first exactly if the segment is intact. -/
theorem Ready.runs (h : Ready genesis seg d) : ∃ u, Settled genesis seg u ∧
    (∀ listing, Lists listing → (migrateSegment listing genesis seg d).result = .ok () ∧
      (migrateSegment listing genesis seg d).final d = u) ∧
    ∀ listing listing' t, Lists listing → Lists listing' → Cut (migrateSegment listing genesis seg) d t →
      (Intact genesis seg d t ∧ (migrateSegment listing' genesis seg t).result = .ok () ∧
          (migrateSegment listing' genesis seg t).final t = u) ∨
        ¬Intact genesis seg d t ∧ ((migrateSegment listing' genesis seg t).result ≠ .ok () ∨
          ∃ name, stem seg <+: name ∧ ((migrateSegment listing' genesis seg t).final t).lookup name ≠ u.lookup name) := by
  rcases h with ⟨base, expEnd, conf, hseeded, hsingle⟩ | hsettled
  · refine ⟨_, hseeded.settled_migrated hsingle, fun listing hlists => hseeded.rerun_start hlists hsingle,
      fun listing listing' t hlists hlists' ht => ?_⟩
    have hintact : Intact genesis seg d t ↔ Whole seg t conf.length := by
      refine ⟨fun h => h base expEnd conf hseeded, fun h base' expEnd' conf' hseeded' => ?_⟩
      obtain rfl := hsingle base' hseeded'.base_mem hseeded'.data
      have hconf := hseeded'.lookup_conf
      rw [hseeded.lookup_conf, Option.some.injEq] at hconf
      rwa [← hconf]
    rw [Cut, hseeded.migrateSegment_eq (hlists.find?_single hseeded.base_mem hseeded.data hsingle)] at ht
    rw [hintact]
    exact hseeded.rerun hlists' hsingle ht
  · refine ⟨d, hsettled, fun listing hlists => ?_, fun listing listing' t hlists hlists' ht => .inl ?_⟩
    · rw [hsettled.skip hlists]
      exact ⟨rfl, rfl⟩
    · rw [Cut, hsettled.skip hlists] at ht
      obtain rfl := ht.resolve_right List.not_mem_nil
      rw [hsettled.skip hlists']
      exact ⟨fun base expEnd conf hseeded => absurd hseeded hsettled.not_seeded, rfl, rfl⟩

/-! ### The whole migration, run again -/

section whole
variable {listing listing' : ChangesetSegment → Directory → List FileName}

theorem migrate_bind (listing : ChangesetSegment → Directory → List FileName) {u : Directory}
    (haccount : (migrateSegment (listing .account) genesis .account d).result = .ok ())
    (hu : (migrateSegment (listing .account) genesis .account d).final d = u) :
    (migrateChangesetLayout listing genesis d).result = (migrateSegment (listing .storage) genesis .storage u).result ∧
      (migrateChangesetLayout listing genesis d).final d = (migrateSegment (listing .storage) genesis .storage u).final u := by
  rw [migrateChangesetLayout, final_bind haccount, bind_apply haccount, hu]
  exact ⟨rfl, rfl⟩

theorem migrate_settled (hlists : ∀ seg, Lists (listing seg)) (h : ∀ seg, Settled genesis seg d) :
    migrateChangesetLayout listing genesis d = ⟨[], .ok ()⟩ := by
  rw [migrateChangesetLayout, bind_apply_read ((h .account).skip (hlists .account))]
  exact (h .storage).skip (hlists .storage)

/-- The account segment is broken for good: the rest of the run does not touch it. -/
theorem migrate_account_broken (hlists : ∀ seg, Lists (listing seg)) {u : Directory}
    (h : (migrateSegment (listing .account) genesis .account t).result ≠ .ok () ∨ ∃ name, stem .account <+: name ∧
        ((migrateSegment (listing .account) genesis .account t).final t).lookup name ≠ u.lookup name) :
    ¬((migrateChangesetLayout listing genesis t).result = .ok () ∧
      ∃ v, (migrateChangesetLayout listing genesis t).final t = v ∧ Agree .account u v) := by
  rintro ⟨hok, v, hv, hagree⟩
  obtain ⟨⟨⟩, haccount, hstorage, hfinal⟩ := ended_bind hok
  rcases h with h | ⟨name, hname, hdiffers⟩
  · exact h haccount
  · apply hdiffers
    rw [← hagree name hname, ← hv]
    change _ = Finmap.lookup name (((_ >>= _ : Prog Directory (FileError FileName) Unit) t).final t)
    rw [hfinal]
    exact ((Agree.of_cut (hlists .storage) (by decide) (Cut.final _ _)) name hname).symm

/-- **A migration that was cut is completed by a second run exactly if the cut has left every segment whole.** -/
theorem migrate_rerun (hlists : ∀ seg, Lists (listing seg)) (hlists' : ∀ seg, Lists (listing' seg)) (genesis : ℕ)
    (d : Directory) (hd : ∀ seg, Ready genesis seg d) : (migrateChangesetLayout listing genesis d).result = .ok () ∧
      (∀ t, Cut (migrateChangesetLayout listing genesis) d t →
        (((migrateChangesetLayout listing' genesis t).result = .ok () ∧
          (migrateChangesetLayout listing' genesis t).final t = (migrateChangesetLayout listing genesis d).final d) ↔
            ∀ seg, Intact genesis seg d t)) ∧
      migrateChangesetLayout listing' genesis ((migrateChangesetLayout listing genesis d).final d) = ⟨[], .ok ()⟩ := by
  obtain ⟨u, husettled, hurun, hucut⟩ := (hd .account).runs
  obtain ⟨haccount, hu⟩ := hurun _ (hlists .account)
  have hstorage_u : Agree .storage d u := hu ▸ Agree.of_cut (hlists .account) (by decide) (Cut.final _ _)
  obtain ⟨v, hvsettled, hvrun, hvcut⟩ := (hstorage_u.ready (hd .storage)).runs
  obtain ⟨hstorage, hv⟩ := hvrun _ (hlists .storage)
  have haccount_v : Agree .account u v := hv ▸ Agree.of_cut (hlists .storage) (by decide) (Cut.final _ _)
  obtain ⟨hresult, hfinal⟩ := migrate_bind listing haccount hu
  rw [hfinal, hv]
  have hsettled : ∀ seg, Settled genesis seg v := fun seg => by
    cases seg with
    | account => exact haccount_v.settled husettled
    | storage => exact hvsettled
  refine ⟨hresult.trans hstorage, fun t ht => ?_, migrate_settled hlists' hsettled⟩
  -- After the account segment it is intact: a second run on it has nothing to do.
  have hintact_u : Intact genesis .account d u := by
    have hcut : Cut (migrateSegment (listing .account) genesis .account) d u := hu ▸ Cut.final _ _
    rcases hucut _ _ u (hlists .account) (hlists' .account) hcut with ⟨hintact, -⟩ | ⟨-, hbroken⟩
    · exact hintact
    · rw [husettled.skip (hlists' .account)] at hbroken
      rcases hbroken with h | ⟨name, -, h⟩
      · exact absurd rfl h
      · exact absurd rfl h
  rcases ht.of_bind with ht | ⟨-, -, ht⟩
  · have hstorage_t : Agree .storage d t := Agree.of_cut (hlists .account) (by decide) ht
    rcases hucut _ _ t (hlists .account) (hlists' .account) ht with ⟨hintact, hok, hend⟩ | ⟨hintact, hbroken⟩
    · obtain ⟨hresult', hfinal'⟩ := migrate_bind listing' hok hend
      obtain ⟨hstorage', hv'⟩ := hvrun _ (hlists' .storage)
      refine iff_of_true ⟨hresult'.trans hstorage', hfinal'.trans hv'⟩ fun seg => ?_
      cases seg with
      | account => exact hintact
      | storage => exact fun base expEnd conf hseeded => hstorage_t.whole hseeded.whole
    · refine iff_of_false (fun h => ?_) fun h => hintact (h .account)
      exact migrate_account_broken hlists' hbroken ⟨h.1, v, h.2, haccount_v⟩
  · rw [hu] at ht
    have haccount_t : Agree .account u t := Agree.of_cut (hlists .storage) (by decide) ht
    have hskip := (haccount_t.settled husettled).skip (hlists' .account)
    have hok_account : (migrateSegment (listing' .account) genesis .account t).result = .ok () := by rw [hskip]
    have hend_account : (migrateSegment (listing' .account) genesis .account t).final t = t := by rw [hskip]; rfl
    obtain ⟨hresult', hfinal'⟩ := migrate_bind listing' hok_account hend_account
    rw [hresult', hfinal']
    have hintact_storage : Intact genesis .storage u t ↔ Intact genesis .storage d t :=
      ⟨fun h base expEnd conf hseeded => h base expEnd conf (hstorage_u.seeded hseeded),
        fun h base expEnd conf hseeded => h base expEnd conf (hstorage_u.symm.seeded hseeded)⟩
    rcases hvcut _ _ t (hlists .storage) (hlists' .storage) ht with ⟨hintact, hok, hend⟩ | ⟨hintact, hbroken⟩
    · refine iff_of_true ⟨hok, hend⟩ fun seg => ?_
      cases seg with
      | account => exact fun base expEnd conf hseeded => haccount_t.whole (hintact_u base expEnd conf hseeded)
      | storage => exact hintact_storage.mp hintact
    · refine iff_of_false (fun h => ?_) fun h => hintact (hintact_storage.mpr (h .storage))
      rcases hbroken with hbroken | ⟨name, -, hdiffers⟩
      · exact hbroken h.1
      · exact hdiffers (by rw [h.2])

end whole

/-- The entries in some order. -/
noncomputable def entries (d : Directory) : List FileName := d.keys.toList

theorem lists_entries : Lists entries := fun d =>
  ⟨Finset.nodup_toList _, fun name => by rw [entries, Finset.mem_toList, Finmap.mem_keys]⟩

/-- A segment of the slot from block 0 to block 9, with data from the imported head 5 on. -/
def sampleConf : Bytes := toLe 8 1 ++ toLe 8 0 ++ toLe 8 9 ++ [1] ++ toLe 8 5 ++ toLe 8 7

def sampleBase : FileName := "static_file_account-change-sets_0_9".toList

def sampleDirectory : Directory :=
  (((Finmap.insert (file sampleBase .data) [10] ∅).insert (file sampleBase .conf) sampleConf).insert
    (file sampleBase .off) [20]).insert (file sampleBase .csoff) [30]

theorem mem_sampleDirectory {name : FileName} : name ∈ sampleDirectory ↔ ∃ kind, name = file sampleBase kind := by
  simp only [sampleDirectory, Finmap.mem_insert, Finmap.notMem_empty, or_false]
  constructor
  · rintro (h | h | h | h) <;> exact ⟨_, h⟩
  · rintro ⟨kind, rfl⟩
    cases kind <;> simp

theorem sample_seeded : Seeded 5 .account sampleDirectory sampleBase 9 sampleConf where
  data := by decide
  files kind := mem_sampleDirectory.mpr ⟨kind, rfl⟩
  lookup_conf := by decide
  shape := by decide
  vacant hne kind hmem := by
    obtain ⟨kind', heq⟩ := mem_sampleDirectory.mp hmem
    exact hne ((file_eq_file (by decide) (by decide)).mp heq).1.symm

theorem sample_single : Single .account sampleDirectory sampleBase := by
  intro name hname hdata
  obtain ⟨kind, rfl⟩ := mem_sampleDirectory.mp hname
  rw [(isData_file (by decide)).mp hdata, file_data]

theorem sample_settled : Settled 5 .storage sampleDirectory := by
  intro name hname hdata
  obtain ⟨kind, rfl⟩ := mem_sampleDirectory.mp hname
  have hstem : stem .account <+: file sampleBase kind := stem_file (isData_iff.mp sample_seeded.data).1 kind
  cases stem_unique hstem (isData_iff.mp hdata).1

theorem sample_ready (seg : ChangesetSegment) : Ready 5 seg sampleDirectory := by
  cases seg with
  | account => exact .inl ⟨sampleBase, 9, sampleConf, sample_seeded, sample_single⟩
  | storage => exact .inr sample_settled

theorem migrate_rerun_sample : (∀ seg, Ready 5 seg sampleDirectory) ∧ migrateChangesetLayout (fun _ => entries) 5
        ((migrateChangesetLayout (fun _ => entries) 5 sampleDirectory).final sampleDirectory) = ⟨[], .ok ()⟩ :=
  ⟨sample_ready, (migrate_rerun (fun _ => lists_entries) (fun _ => lists_entries) 5 sampleDirectory sample_ready).2.2⟩

/-- Cut after the first rename, the migration fails whenever it is run again: it finds no `.conf`. -/
theorem cut_after_first_rename_fails : ∃ t, Cut (migrateChangesetLayout (fun _ => entries) 5) sampleDirectory t ∧
      ∀ listing : ChangesetSegment → Directory → List FileName, (∀ seg, Lists (listing seg)) →
        (migrateChangesetLayout listing 5 t).result = .error (.notFound (file (alignedBase 5 .account 9) .conf)) := by
  have hne : sampleBase ≠ alignedBase 5 .account 9 := by decide
  have hfile : file sampleBase .data ≠ file (alignedBase 5 .account 9) .data := sample_seeded.file_ne hne _ _
  refine ⟨moveAll (file sampleBase) (file (alignedBase 5 .account 9)) sampleDirectory [.data], ?_, fun listing hlists => ?_⟩
  · apply Cut.bind_left
    rw [Cut, sample_seeded.migrateSegment_eq
      (lists_entries.find?_single sample_seeded.base_mem sample_seeded.data sample_single)]
    refine Cut.bind_left ?_ _
    refine Cut.bind_left (.inr ?_) _
    rw [rename, if_pos ⟨sample_seeded.files .data, hfile⟩]
    exact List.mem_singleton.mpr rfl
  · have hsingle : Single .account (moveAll (file sampleBase) (file (alignedBase 5 .account 9)) sampleDirectory [.data])
        (alignedBase 5 .account 9) := sample_seeded.single_moveAll sample_single List.mem_cons_self
    have hmem : alignedBase 5 .account 9 ∈
        moveAll (file sampleBase) (file (alignedBase 5 .account 9)) sampleDirectory [.data] := by
      rw [← file_data (alignedBase 5 .account 9)]
      exact (mem_congr (lookup_move_dst (sample_seeded.files .data))).mpr (sample_seeded.files .data)
    have hfind := (hlists .account).find?_single hmem (isData_newBase _ _ _) hsingle
    have hmissing : file (alignedBase 5 .account 9) .conf ∉
        moveAll (file sampleBase) (file (alignedBase 5 .account 9)) sampleDirectory [.data] :=
      sample_seeded.notMem_moveAll hne (by decide)
    have hrun : (migrateSegment (listing .account) 5 .account
        (moveAll (file sampleBase) (file (alignedBase 5 .account 9)) sampleDirectory [.data])).result =
          .error (.notFound (file (alignedBase 5 .account 9) .conf)) := by
      rw [migrateSegment_some hfind, migrateData_missing (Finmap.lookup_eq_none.mpr hmissing)]
    rw [migrateChangesetLayout, bind_apply_error hrun]

end ArbReth.Rewind
