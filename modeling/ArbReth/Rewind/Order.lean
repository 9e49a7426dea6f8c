import ArbReth.Rewind.Migration
import Mathlib

/-! # The order in which the directory lists its entries

Each search of `migrate_changeset_layout` takes the data file that the directory lists first, and leaves the segment alone
if that one is aligned.  So a mis-seeded file among later ones is migrated exactly if it is listed before them
(`migrate_iff_listed_first`); a directory with another order keeps it (`later_file_listed_first`). -/

namespace ArbReth.Rewind

open ArbReth.Codec ArbReth.Durable ArbReth.Files

variable {genesis expEnd : ℕ} {seg : ChangesetSegment} {d t : Directory} {base : FileName} {conf : Bytes}

/-- The segment has one mis-seeded data file among others that are left alone, or all are. -/
def Mixed (genesis : ℕ) (seg : ChangesetSegment) (d : Directory) : Prop :=
  (∃ base expEnd conf, Seeded genesis seg d base expEnd conf ∧ ∀ name ∈ d, isData seg name = true → name ≠ base →
    ∃ conf, d.lookup (file name .conf) = some conf ∧ misSeeded genesis conf = none) ∨ Settled genesis seg d

/-- The migration changes the `.conf` under the new name. -/
theorem Seeded.migrated_ne (h : Seeded genesis seg d base expEnd conf) :
    (migrated genesis seg base expEnd conf d).lookup (file (alignedBase genesis seg expEnd) .conf) ≠
      d.lookup (file (alignedBase genesis seg expEnd) .conf) := by
  rw [lookup_migrated_conf]
  by_cases hbase : base = alignedBase genesis seg expEnd
  · rw [← hbase, h.lookup_conf]
    intro heq
    have hskip := misSeeded_take_patch (length_of_misSeeded h.shape) (target_lt genesis) genesis
      (patch (target genesis) conf).length
    rw [List.take_length, Option.some.inj heq, h.shape] at hskip
    cases hskip
  · rw [Finmap.lookup_eq_none.mpr (h.vacant hbase .conf)]
    exact Option.some_ne_none _

/-- A file that is neither of the old nor of the new name stays. -/
theorem lookup_migrated_of_ne {name : FileName} (hold : ∀ kind, name ≠ file base kind)
    (hnew : ∀ kind, name ≠ file (alignedBase genesis seg expEnd) kind) :
    (migrated genesis seg base expEnd conf d).lookup name = d.lookup name := by
  rw [migrated, Finmap.lookup_insert_of_ne _ (hnew .conf)]
  exact lookup_moveAll_of_ne (fun kind _ => hold kind) fun kind _ => hnew kind

theorem Agree.migrated (h : Agree seg d t) (hseeded : Seeded genesis seg d base expEnd conf) :
    Agree seg (migrated genesis seg base expEnd conf d) (migrated genesis seg base expEnd conf t) := by
  intro name hname
  have hseeded' := h.seeded hseeded
  by_cases hnew : ∃ kind, name = Rewind.file (alignedBase genesis seg expEnd) kind
  · obtain ⟨kind, rfl⟩ := hnew
    by_cases hconf : kind = .conf
    · rw [hconf, lookup_migrated_conf, lookup_migrated_conf]
    · have hne : Rewind.file (alignedBase genesis seg expEnd) kind ≠ Rewind.file (alignedBase genesis seg expEnd) .conf :=
        fun heq => hconf (file_injective (alignedBase_dot_notMem _ _ _) heq)
      rw [Rewind.migrated, Rewind.migrated, Finmap.lookup_insert_of_ne _ hne, Finmap.lookup_insert_of_ne _ hne,
        hseeded'.lookup_renamed, hseeded.lookup_renamed, h.file hseeded.data]
  · have hnot (kind : FileKind) : name ≠ Rewind.file (alignedBase genesis seg expEnd) kind := fun heq => hnew ⟨kind, heq⟩
    by_cases hold : ∃ kind, name = Rewind.file base kind
    · obtain ⟨kind, rfl⟩ := hold
      have hne : base ≠ alignedBase genesis seg expEnd := fun heq => hnot kind (by rw [← heq])
      rw [Rewind.migrated, Rewind.migrated, Finmap.lookup_insert_of_ne _ (hnot .conf),
        Finmap.lookup_insert_of_ne _ (hnot .conf), Rewind.renamed, Rewind.renamed,
        lookup_moveAll_src (file_injective hseeded.dot_notMem) (hseeded.file_ne hne) kind.mem_all,
        lookup_moveAll_src (file_injective hseeded.dot_notMem) (hseeded.file_ne hne) kind.mem_all]
    · rw [lookup_migrated_of_ne (fun kind heq => hold ⟨kind, heq⟩) hnot,
        lookup_migrated_of_ne (fun kind heq => hold ⟨kind, heq⟩) hnot]
      exact h name hname

theorem Agree.mixed (h : Agree seg d t) (hmixed : Mixed genesis seg d) : Mixed genesis seg t := by
  rcases hmixed with ⟨base, expEnd, conf, hseeded, hothers⟩ | hsettled
  · refine .inl ⟨base, expEnd, conf, h.seeded hseeded, fun name hname hdata hne => ?_⟩
    obtain ⟨conf', hconf', hskip⟩ := hothers name ((h.mem (isData_iff.mp hdata).1).mp hname) hdata hne
    exact ⟨conf', (h.file hdata .conf).trans hconf', hskip⟩
  · exact .inr (h.settled hsettled)

/-- One segment: the search finds the mis-seeded file or another one, and the segment is migrated or left as it is. -/
theorem Mixed.runs (h : Mixed genesis seg d) : ∃ u,
    (∀ base expEnd conf, Seeded genesis seg d base expEnd conf → u = migrated genesis seg base expEnd conf d) ∧
    (∀ name, (∀ base expEnd conf, Seeded genesis seg d base expEnd conf → ∀ kind,
      name ≠ file base kind ∧ name ≠ file (alignedBase genesis seg expEnd) kind) → u.lookup name = d.lookup name) ∧
    ∀ listing, Lists listing → (migrateSegment listing genesis seg d).result = .ok () ∧
      ((migrateSegment listing genesis seg d).final d = u ↔ ∀ base expEnd conf, Seeded genesis seg d base expEnd conf →
        (listing d).find? (isData seg) = some base) := by
  rcases h with ⟨base, expEnd, conf, hseeded, hothers⟩ | hsettled
  · have hunique : ∀ base' expEnd' conf', Seeded genesis seg d base' expEnd' conf' →
        base' = base ∧ expEnd' = expEnd ∧ conf' = conf := by
      intro base' expEnd' conf' hseeded'
      have hbase : base' = base := by
        by_contra hne
        exact hseeded'.not_skipped (hothers base' hseeded'.base_mem hseeded'.data hne)
      subst hbase
      have hconf := hseeded'.lookup_conf
      rw [hseeded.lookup_conf, Option.some.injEq] at hconf
      subst hconf
      have hshape := hseeded'.shape
      rw [hseeded.shape, Option.some.injEq] at hshape
      exact ⟨rfl, hshape.symm, rfl⟩
    refine ⟨migrated genesis seg base expEnd conf d, fun base' expEnd' conf' hseeded' => ?_, fun name hname => ?_,
      fun listing hlists => ?_⟩
    · obtain ⟨rfl, rfl, rfl⟩ := hunique base' expEnd' conf' hseeded'
      rfl
    · exact lookup_migrated_of_ne (fun kind => (hname base expEnd conf hseeded kind).1)
        fun kind => (hname base expEnd conf hseeded kind).2
    · by_cases hfind : (listing d).find? (isData seg) = some base
      · obtain ⟨hok, hfinal⟩ := hseeded.migrates hfind
        refine ⟨hok, iff_of_true hfinal fun base' expEnd' conf' hseeded' => ?_⟩
        rw [(hunique base' expEnd' conf' hseeded').1]
        exact hfind
      · have hskip : migrateSegment listing genesis seg d = ⟨[], .ok ()⟩ := by
          apply migrateSegment_skip
          intro name hname
          obtain ⟨hmem, hdata⟩ := hlists.find?_mem hname
          exact hothers name hmem hdata fun heq => hfind (heq ▸ hname)
        rw [hskip]
        refine ⟨rfl, iff_of_false (fun heq => ?_) fun hall => hfind (hall base expEnd conf hseeded)⟩
        have hsame : d = migrated genesis seg base expEnd conf d := heq
        exact hseeded.migrated_ne (by rw [← hsame])
  · refine ⟨d, fun base expEnd conf hseeded => absurd hseeded hsettled.not_seeded, fun _ _ => rfl,
      fun listing hlists => ?_⟩
    rw [hsettled.skip hlists]
    exact ⟨rfl, iff_of_true rfl fun base expEnd conf hseeded => absurd hseeded hsettled.not_seeded⟩

/-- The directory that the search for a segment sees. -/
def searched (listing : ChangesetSegment → Directory → List FileName) (genesis : ℕ) (d : Directory) :
    ChangesetSegment → Directory
  | .account => d
  | .storage => (migrateSegment (listing .account) genesis .account d).final d

/-- **The migration goes by the data file that is listed first**: it migrates exactly the mis-seeded files if these
are. -/
theorem migrate_iff_listed_first (genesis : ℕ) (d : Directory) (hd : ∀ seg, Mixed genesis seg d) : ∃ u : Directory,
    (∀ seg base expEnd conf, Seeded genesis seg d base expEnd conf → Agree seg (migrated genesis seg base expEnd conf d) u) ∧
    (∀ name, (∀ seg base expEnd conf, Seeded genesis seg d base expEnd conf → ∀ kind,
      name ≠ file base kind ∧ name ≠ file (alignedBase genesis seg expEnd) kind) → u.lookup name = d.lookup name) ∧
    ∀ listing : ChangesetSegment → Directory → List FileName, (∀ seg, Lists (listing seg)) →
      (migrateChangesetLayout listing genesis d).result = .ok () ∧
        ((migrateChangesetLayout listing genesis d).final d = u ↔ ∀ seg base expEnd conf,
          Seeded genesis seg d base expEnd conf →
            (listing seg (searched listing genesis d seg)).find? (isData seg) = some base) := by
  obtain ⟨u, humigrated, huother, hurun⟩ := (hd .account).runs
  -- A file of neither name of a mis-seeded account segment is as it was, in particular one of the other segment.
  have huoff : ∀ name, ¬stem .account <+: name → u.lookup name = d.lookup name := fun name hname =>
    huother name fun base expEnd conf hseeded kind => by
      constructor
      · exact fun heq => hname (heq ▸ stem_file (isData_iff.mp hseeded.data).1 kind)
      · exact fun heq => hname (heq ▸ stem_file (isData_iff.mp (isData_newBase _ _ _)).1 kind)
  have hstorage_u : Agree .storage d u := fun name hname => huoff name fun h => by cases stem_unique h hname
  obtain ⟨v, hvmigrated, hvother, hvrun⟩ := (hstorage_u.mixed (hd .storage)).runs
  have hvoff : ∀ name, ¬stem .storage <+: name → v.lookup name = u.lookup name := fun name hname =>
    hvother name fun base expEnd conf hseeded kind => by
      constructor
      · exact fun heq => hname (heq ▸ stem_file (isData_iff.mp hseeded.data).1 kind)
      · exact fun heq => hname (heq ▸ stem_file (isData_iff.mp (isData_newBase _ _ _)).1 kind)
  have haccount_v : Agree .account u v := fun name hname => hvoff name fun h => by cases stem_unique hname h
  refine ⟨v, fun seg base expEnd conf hseeded => ?_, fun name hname => ?_, fun listing hlists => ?_⟩
  · cases seg with
    | account =>
      rw [← humigrated base expEnd conf hseeded]
      exact haccount_v
    | storage =>
      rw [hvmigrated base expEnd conf (hstorage_u.seeded hseeded)]
      exact hstorage_u.migrated hseeded
  · rw [hvother name fun base expEnd conf hseeded => hname .storage base expEnd conf (hstorage_u.symm.seeded hseeded)]
    exact huother name (hname .account)
  · obtain ⟨haccount, hfirst⟩ := hurun _ (hlists .account)
    have hkept : Agree .storage d (searched listing genesis d .storage) :=
      Agree.of_cut (hlists .account) (by decide) (Cut.final _ _)
    obtain ⟨hresult, hfinal⟩ := migrate_bind listing haccount rfl
    obtain ⟨w, -, -, hwrun⟩ := (hkept.mixed (hd .storage)).runs
    refine ⟨hresult.trans (hwrun _ (hlists .storage)).1, ?_⟩
    rw [hfinal]
    constructor
    · intro hv
      -- The storage search does not touch the account files, so these are migrated already.
      have hu : (migrateSegment (listing .account) genesis .account d).final d = u := by
        refine Finmap.ext_lookup fun name => ?_
        by_cases hname : stem .account <+: name
        · rw [← haccount_v name hname, ← hv]
          exact (Agree.of_cut (hlists .storage) (by decide) (Cut.final _ _) name hname).symm
        · rw [huoff name hname]
          exact keeps_migrateSegment (hlists .account) genesis .account d _ (Cut.final _ _) name hname
      intro seg base expEnd conf hseeded
      cases seg with
      | account => exact hfirst.mp hu base expEnd conf hseeded
      | storage =>
        change (listing .storage ((migrateSegment (listing .account) genesis .account d).final d)).find? _ = _
        rw [hu] at hv ⊢
        exact (hvrun _ (hlists .storage)).2.mp hv base expEnd conf (hstorage_u.seeded hseeded)
    · intro hall
      have hu := hfirst.mpr fun base expEnd conf hseeded => hall .account base expEnd conf hseeded
      rw [hu]
      refine (hvrun _ (hlists .storage)).2.mpr fun base expEnd conf hseeded => ?_
      have := hall .storage base expEnd conf (hstorage_u.symm.seeded hseeded)
      rwa [searched, hu] at this

/-- The listing that begins with a given entry. -/
noncomputable def entriesFrom (first : FileName) (d : Directory) : List FileName :=
  if first ∈ d then first :: (d.keys.erase first).toList else entries d

theorem lists_entriesFrom (first : FileName) : Lists (entriesFrom first) := by
  intro d
  unfold entriesFrom
  split
  · rename_i hfirst
    refine ⟨List.nodup_cons.mpr ⟨by simp, Finset.nodup_toList _⟩, fun name => ?_⟩
    rw [List.mem_cons, Finset.mem_toList, Finset.mem_erase, Finmap.mem_keys]
    constructor
    · rintro (rfl | ⟨-, hmem⟩)
      · exact hfirst
      · exact hmem
    · intro hmem
      by_cases hname : name = first
      · exact .inl hname
      · exact .inr ⟨hname, hmem⟩
  · exact lists_entries d

theorem find?_entriesFrom {first : FileName} (hmem : first ∈ d) (hdata : isData seg first = true) :
    (entriesFrom first d).find? (isData seg) = some first := by
  rw [entriesFrom, if_pos hmem, List.find?_cons_of_pos hdata]

/-- The mis-seeded segment with a later, aligned file. -/
def laterBase : FileName := "static_file_account-change-sets_10_19".toList

def laterConf : Bytes := toLe 8 1 ++ toLe 8 10 ++ toLe 8 19 ++ [1] ++ toLe 8 10 ++ toLe 8 12

def twoFiles : Directory := (sampleDirectory.insert laterBase [11]).insert (file laterBase .conf) laterConf

theorem mem_twoFiles {name : FileName} :
    name ∈ twoFiles ↔ name = file laterBase .conf ∨ name = laterBase ∨ ∃ kind, name = file sampleBase kind := by
  simp only [twoFiles, Finmap.mem_insert, mem_sampleDirectory]

theorem twoFiles_seeded : Seeded 5 .account twoFiles sampleBase 9 sampleConf where
  data := by decide
  files kind := mem_twoFiles.mpr (.inr (.inr ⟨kind, rfl⟩))
  lookup_conf := by decide
  shape := by decide
  vacant hne kind hmem := by
    rcases mem_twoFiles.mp hmem with heq | heq | ⟨kind', heq⟩
    · exact absurd ((file_eq_file (by decide) (by decide)).mp heq).1 (by decide)
    · exact absurd ((file_eq_file (by decide) (by decide)).mp (heq.trans (file_data _).symm)).1 (by decide)
    · exact hne ((file_eq_file (by decide) (by decide)).mp heq).1.symm

theorem twoFiles_settled : Settled 5 .storage twoFiles := by
  intro name hname hdata
  have hstem : stem .account <+: name := by
    rcases mem_twoFiles.mp hname with rfl | rfl | ⟨kind, rfl⟩
    · exact stem_file (by decide) .conf
    · decide
    · exact stem_file (by decide) kind
  cases stem_unique hstem (isData_iff.mp hdata).1

theorem twoFiles_later {name : FileName} (hname : name ∈ twoFiles) (hdata : isData .account name = true)
    (hne : name ≠ sampleBase) : ∃ conf, twoFiles.lookup (file name .conf) = some conf ∧ misSeeded 5 conf = none := by
  rcases mem_twoFiles.mp hname with rfl | rfl | ⟨kind, rfl⟩
  · cases (isData_file (by decide)).mp hdata
  · exact ⟨laterConf, by decide, by decide⟩
  · rw [(isData_file (by decide)).mp hdata, file_data] at hne
    exact absurd rfl hne

theorem twoFiles_mixed (seg : ChangesetSegment) : Mixed 5 seg twoFiles := by
  cases seg with
  | account => exact .inl ⟨sampleBase, 9, sampleConf, twoFiles_seeded, fun _ => twoFiles_later⟩
  | storage => exact .inr twoFiles_settled

theorem migrate_iff_listed_first_sample :
    (∀ seg, Mixed 5 seg twoFiles) ∧ ∃ u, Agree .account (migrated 5 .account sampleBase 9 sampleConf twoFiles) u ∧
      (migrateChangesetLayout (fun _ => entriesFrom sampleBase) 5 twoFiles).result = .ok () ∧
      (migrateChangesetLayout (fun _ => entriesFrom sampleBase) 5 twoFiles).final twoFiles = u := by
  obtain ⟨u, hu, -, hrun⟩ := migrate_iff_listed_first 5 twoFiles twoFiles_mixed
  obtain ⟨hok, hfinal⟩ := hrun (fun _ => entriesFrom sampleBase) fun _ => lists_entriesFrom sampleBase
  refine ⟨twoFiles_mixed, u, hu .account sampleBase 9 sampleConf twoFiles_seeded, hok,
    hfinal.mpr fun seg base expEnd conf hseeded => ?_⟩
  cases seg with
  | account =>
    obtain rfl : base = sampleBase := by
      by_contra hne
      exact hseeded.not_skipped (twoFiles_later hseeded.base_mem hseeded.data hne)
    exact find?_entriesFrom hseeded.base_mem hseeded.data
  | storage => exact absurd hseeded twoFiles_settled.not_seeded

/-- The directory lists the later file first: the mis-seeded one is not migrated. -/
theorem later_file_listed_first : Lists (entriesFrom laterBase) ∧ Seeded 5 .account twoFiles sampleBase 9 sampleConf ∧
      migrateChangesetLayout (fun _ => entriesFrom laterBase) 5 twoFiles = ⟨[], .ok ()⟩ := by
  refine ⟨lists_entriesFrom laterBase, twoFiles_seeded, ?_⟩
  have hconf : twoFiles.lookup (file laterBase .conf) = some laterConf := by decide
  have haccount : migrateSegment (entriesFrom laterBase) 5 .account twoFiles = ⟨[], .ok ()⟩ := by
    rw [migrateSegment_some (find?_entriesFrom (mem_twoFiles.mpr (.inr (.inl rfl))) (by decide))]
    exact migrateData_skip hconf (by decide)
  rw [migrateChangesetLayout, bind_apply_read haccount]
  exact twoFiles_settled.skip (lists_entriesFrom laterBase)

end ArbReth.Rewind
