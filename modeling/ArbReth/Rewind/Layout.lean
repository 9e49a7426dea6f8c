import ArbReth.Lib.Codec
import ArbReth.Lib.Files
import ArbReth.Primitives
import Mathlib

/-! # The layout of the changeset segments

The snapshot import once seeded the changeset segments with the expected start of their 500k slot while the data starts at
the imported head.  `migrate_changeset_layout` (`arb-reth-node/src/commands/rewind.rs`) realigns them before the database
is opened: it looks for the data file of each segment, reads the header at the start of its `.conf`, renames the four files
of the segment and rewrites the `.conf` with the new start.

The program is over the directory of the static files (`ArbReth.Lib.Files`): each rename is one write, and the rewrite of
the `.conf` passes through all beginnings of its new content.  The order in which the directory lists its entries is a
parameter, for each of the two searches. -/

namespace ArbReth.Rewind

open ArbReth.Codec ArbReth.Durable ArbReth.Files

/-- A file name, as its characters. -/
abbrev FileName := List Char

abbrev Directory := Dir FileName

inductive ChangesetSegment where
  | account
  | storage
deriving DecidableEq, Repr

def ChangesetSegment.name : ChangesetSegment → FileName
  | .account => "account-change-sets".toList
  | .storage => "storage-change-sets".toList

/-- The files of a segment, under one base name. -/
inductive FileKind where
  | data
  | conf
  | off
  | csoff
deriving DecidableEq, Repr

def FileKind.ext : FileKind → FileName
  | .data => []
  | .conf => ".conf".toList
  | .off => ".off".toList
  | .csoff => ".csoff".toList

/-- In the order of the renames. -/
def FileKind.all : List FileKind := [.data, .conf, .off, .csoff]

def file (base : FileName) (kind : FileKind) : FileName := base ++ kind.ext

/-- `static_file_{seg}_`. -/
def stem (seg : ChangesetSegment) : FileName := "static_file_".toList ++ seg.name ++ "_".toList

/-- The name of a data file: it has the prefix of the segment and no extension. -/
def isData (seg : ChangesetSegment) (name : FileName) : Bool := (stem seg).isPrefixOf name && !name.contains '.'

/-- `static_file_{seg}_{target}_{exp_end}`. -/
def newBase (seg : ChangesetSegment) (target expEnd : ℕ) : FileName :=
  stem seg ++ Nat.toDigits 10 target ++ "_".toList ++ Nat.toDigits 10 expEnd

/-! ### The header in the `.conf` -/

def toLe (width value : ℕ) : Bytes := (toBe width value).reverse

/-- `u64::from_le_bytes` at an offset. -/
def u64At (conf : Bytes) (offset : ℕ) : ℕ := ofBe ((conf.drop offset).take 8).reverse

/-- The expected end of a header with the mis-seeded shape; all else is left alone. -/
def misSeeded (genesis : ℕ) (conf : Bytes) : Option ℕ :=
  if conf.length < 41 then none
  else if u64At conf 0 ≠ 1 ∨ conf.getD 24 0 ≠ 1 then none
  else if u64At conf 8 = u64At conf 25 then none
  else if u64At conf 25 ≠ genesis then none
  else some (u64At conf 16)

/-- The expected start (`[8..16]`) and the start of the block range (`[25..33]`) replaced. -/
def patch (target : ℕ) (conf : Bytes) : Bytes :=
  conf.take 8 ++ toLe 8 target ++ (conf.drop 16).take 9 ++ toLe 8 target ++ conf.drop 33

/-! ### The migration -/

/-- What follows once a segment is recognized. -/
def realign (seg : ChangesetSegment) (target : ℕ) (dataName : FileName) (expEnd : ℕ) :
    Prog Directory (FileError FileName) Unit := do
  let base := newBase seg target expEnd
  renameAll (file dataName) (file base) FileKind.all
  let conf ← read (file base .conf)
  rewrite (file base .conf) (patch target conf)

/-- What is done with the data file of a segment. -/
def migrateData (genesis : ℕ) (seg : ChangesetSegment) (dataName : FileName) :
    Prog Directory (FileError FileName) Unit := do
  let conf ← read (file dataName .conf)
  match misSeeded genesis conf with
  | none => pure ()
  | some expEnd => realign seg ((genesis + 1) % u64Size) dataName expEnd

def migrateSegment (listing : Directory → List FileName) (genesis : ℕ) (seg : ChangesetSegment) :
    Prog Directory (FileError FileName) Unit := do
  let d ← Prog.get
  match (listing d).find? (isData seg) with
  | none => pure ()
  | some dataName => migrateData genesis seg dataName

/-- `migrate_changeset_layout`; `listing` is the order in which each search finds the entries. -/
def migrateChangesetLayout (listing : ChangesetSegment → Directory → List FileName) (genesis : ℕ) :
    Prog Directory (FileError FileName) Unit := do
  migrateSegment (listing .account) genesis .account
  migrateSegment (listing .storage) genesis .storage

/-- A listing has every entry once. -/
def Lists (listing : Directory → List FileName) : Prop := ∀ d, (listing d).Nodup ∧ ∀ name, name ∈ listing d ↔ name ∈ d

/-! ### Names -/

variable {seg : ChangesetSegment}

theorem isData_iff {name : FileName} : isData seg name = true ↔ stem seg <+: name ∧ '.' ∉ name := by
  simp [isData]

theorem FileKind.ext_data_or (kind : FileKind) : kind.ext = [] ∨ ∃ rest, kind.ext = '.' :: rest := by
  cases kind with
  | data => exact .inl rfl
  | conf => exact .inr ⟨_, rfl⟩
  | off => exact .inr ⟨_, rfl⟩
  | csoff => exact .inr ⟨_, rfl⟩

variable {base : FileName}

theorem takeWhile_file (h : '.' ∉ base) (kind : FileKind) : (file base kind).takeWhile (· ≠ '.') = base := by
  have hbase : ∀ c ∈ base, decide (c ≠ '.') = true := fun c hc => by
    simpa using fun heq : c = '.' => h (heq ▸ hc)
  rw [file, List.takeWhile_append_of_pos hbase]
  rcases kind.ext_data_or with hext | ⟨rest, hext⟩
  · simp [hext]
  · simp [hext]

theorem file_eq_file {base base' : FileName} {kind kind' : FileKind} (h : '.' ∉ base) (h' : '.' ∉ base') :
    file base kind = file base' kind' ↔ base = base' ∧ kind = kind' := by
  constructor
  · intro heq
    have hbase : base = base' := by rw [← takeWhile_file h kind, heq, takeWhile_file h' kind']
    subst hbase
    have hext : kind.ext = kind'.ext := List.append_cancel_left heq
    refine ⟨rfl, ?_⟩
    cases kind <;> cases kind' <;> first | rfl | exact absurd hext (by decide)
  · rintro ⟨rfl, rfl⟩
    rfl

theorem file_injective (h : '.' ∉ base) : Function.Injective (file base) := fun _ _ heq =>
  ((file_eq_file h h).mp heq).2

theorem stem_file (h : stem seg <+: base) (kind : FileKind) :
    stem seg <+: file base kind := h.trans (List.prefix_append _ _)

theorem isData_file (h : isData seg base = true) {kind : FileKind} :
    isData seg (file base kind) = true ↔ kind = .data := by
  rw [isData_iff] at h ⊢
  constructor
  · rintro ⟨-, hdot⟩
    cases kind with
    | data => rfl
    | conf => exact absurd (List.mem_append_right _ (by decide)) hdot
    | off => exact absurd (List.mem_append_right _ (by decide)) hdot
    | csoff => exact absurd (List.mem_append_right _ (by decide)) hdot
  · rintro rfl
    rw [file, FileKind.ext, List.append_nil]
    exact h

theorem dot_notMem_toDigits (n : ℕ) : '.' ∉ Nat.toDigits 10 n := fun h =>
  absurd (Nat.isDigit_of_mem_toDigits (by decide) le_rfl h) (by decide)

theorem isData_newBase (seg : ChangesetSegment) (target expEnd : ℕ) : isData seg (newBase seg target expEnd) = true := by
  rw [isData_iff]
  refine ⟨by simp only [newBase, List.append_assoc]; exact List.prefix_append _ _, ?_⟩
  simp only [newBase, List.mem_append, not_or]
  exact ⟨⟨⟨by cases seg <;> decide, dot_notMem_toDigits target⟩, by decide⟩, dot_notMem_toDigits expEnd⟩

theorem stem_unique {seg seg' : ChangesetSegment} {name : FileName} (h : stem seg <+: name) (h' : stem seg' <+: name) :
    seg = seg' := by
  have hlength : (stem seg).length = (stem seg').length := by cases seg <;> cases seg' <;> decide
  have heq : stem seg = stem seg' :=
    List.IsPrefix.eq_of_length (List.prefix_of_prefix_length_le h h' hlength.le) hlength
  cases seg <;> cases seg' <;> first | rfl | exact absurd heq (by decide)

/-! ### Headers -/

theorem length_toLe (width value : ℕ) : (toLe width value).length = width := by
  rw [toLe, List.length_reverse, length_toBe]

theorem u64At_append (before after : Bytes) {value : ℕ} (h : value < u64Size) :
    u64At (before ++ (toLe 8 value ++ after)) before.length = value := by
  rw [u64At, List.drop_left, List.take_left' (length_toLe 8 value), toLe, List.reverse_reverse]
  exact ofBe_toBe 8 value (by simpa [u64Size] using h)

theorem u64At_take {conf : Bytes} {n offset : ℕ} (h : offset + 8 ≤ n) : u64At (conf.take n) offset = u64At conf offset := by
  rw [u64At, u64At, List.drop_take, List.take_take, Nat.min_eq_left (by omega)]

section patch
variable {target : ℕ} {conf : Bytes} (hlength : 41 ≤ conf.length)
include hlength

theorem length_patch : (patch target conf).length = conf.length := by
  simp only [patch, List.length_append, List.length_take, List.length_drop, length_toLe]
  omega

theorem u64At_patch (htarget : target < u64Size) :
    u64At (patch target conf) 8 = target ∧ u64At (patch target conf) 25 = target := by
  constructor
  · have h := u64At_append (conf.take 8) ((conf.drop 16).take 9 ++ toLe 8 target ++ conf.drop 33) htarget
    rw [List.length_take, Nat.min_eq_left (by omega)] at h
    simpa only [patch, List.append_assoc] using h
  · have h := u64At_append (conf.take 8 ++ toLe 8 target ++ (conf.drop 16).take 9) (conf.drop 33) htarget
    have hbefore : (conf.take 8 ++ toLe 8 target ++ (conf.drop 16).take 9).length = 25 := by
      simp only [List.length_append, List.length_take, List.length_drop, length_toLe]
      omega
    rw [hbefore] at h
    simpa only [patch, List.append_assoc] using h

/-- No beginning of the new content has the mis-seeded shape: it is too short, or both starts are the new one. -/
theorem misSeeded_take_patch (htarget : target < u64Size) (genesis n : ℕ) :
    misSeeded genesis ((patch target conf).take n) = none := by
  unfold misSeeded
  split
  · rfl
  · rename_i hlong
    have hn : 41 ≤ n := by
      rw [List.length_take] at hlong
      omega
    obtain ⟨hstart, hblock⟩ := u64At_patch hlength htarget
    split
    · rfl
    · rw [if_pos]
      rw [u64At_take (by omega), u64At_take (by omega), hstart, hblock]

end patch

theorem length_of_misSeeded {genesis expEnd : ℕ} {conf : Bytes} (h : misSeeded genesis conf = some expEnd) :
    41 ≤ conf.length := by
  unfold misSeeded at h
  split at h
  · cases h
  · omega

end ArbReth.Rewind
