import ArbReth.Lib.Durable
import Mathlib

/-! # Files of one directory

A directory maps names to contents.  A rename is one write; a file that is rewritten is truncated first and then grows, so
a cut can leave any beginning of the new content.  The files of a family, which share a base name, are renamed one after the
other: `moveAll` is the directory after that, and `renameAll` passes through `moveAll` of the first ones.

A program that only touches some of the names leaves the others as they are (`Keeps`). -/

namespace ArbReth.Files

open ArbReth.Durable

variable {ν κ ε α β : Type} [DecidableEq ν]

abbrev Dir (ν : Type) := Finmap (fun _ : ν => List UInt8)

inductive FileError (ν : Type) where
  | notFound (name : ν)

def read (name : ν) : Prog (Dir ν) (FileError ν) (List UInt8) := fun d =>
  match d.lookup name with
  | some content => ⟨[], .ok content⟩
  | none => ⟨[], .error (.notFound name)⟩

/-- A file under its new name, where it replaces one that was there. -/
def move (d : Dir ν) (src dst : ν) : Dir ν :=
  match d.lookup src with
  | some content => (d.erase src).insert dst content
  | none => d

/-- Renames a file if it is there and the name changes. -/
def rename (src dst : ν) : Prog (Dir ν) ε Unit := fun d =>
  if src ∈ d ∧ src ≠ dst then ⟨[move d src dst], .ok ()⟩ else ⟨[], .ok ()⟩

/-- Opens a file with truncation and writes the content. -/
def rewrite (name : ν) (content : List UInt8) : Prog (Dir ν) ε Unit :=
  Prog.writeAll fun d => (List.range (content.length + 1)).map fun n => d.insert name (content.take n)

/-- The files of a family under their new names. -/
def moveAll (src dst : κ → ν) (d : Dir ν) (family : List κ) : Dir ν :=
  family.foldl (fun d k => move d (src k) (dst k)) d

def renameAll (src dst : κ → ν) : List κ → Prog (Dir ν) ε Unit
  | [] => pure ()
  | k :: family => do
    rename (src k) (dst k)
    renameAll src dst family

variable {d : Dir ν} {name src dst : ν}

theorem mem_congr {d' : Dir ν} {name' : ν} (h : d.lookup name = d'.lookup name') : name ∈ d ↔ name' ∈ d' := by
  rw [Finmap.mem_iff, Finmap.mem_iff, h]

/-! ### One file -/

theorem read_ok {content : List UInt8} (h : d.lookup name = some content) : read name d = ⟨[], .ok content⟩ := by
  simp only [read, h]

theorem read_missing (h : d.lookup name = none) : read name d = ⟨[], .error (.notFound name)⟩ := by
  simp only [read, h]

theorem lookup_move_dst (h : src ∈ d) : (move d src dst).lookup dst = d.lookup src := by
  obtain ⟨content, hcontent⟩ := Finmap.mem_iff.mp h
  rw [move, hcontent]
  exact Finmap.lookup_insert _

theorem lookup_move_src (h : src ≠ dst) : (move d src dst).lookup src = none := by
  unfold move
  cases hcontent : d.lookup src with
  | none => exact hcontent
  | some content =>
    change ((d.erase src).insert dst content).lookup src = none
    rw [Finmap.lookup_insert_of_ne _ h, Finmap.lookup_erase]

theorem lookup_move_of_ne (hsrc : name ≠ src) (hdst : name ≠ dst) : (move d src dst).lookup name = d.lookup name := by
  unfold move
  cases hcontent : d.lookup src with
  | none => rfl
  | some content =>
    change ((d.erase src).insert dst content).lookup name = d.lookup name
    rw [Finmap.lookup_insert_of_ne _ hdst, Finmap.lookup_erase_ne hsrc]

theorem move_self : move d src src = d := by
  refine Finmap.ext_lookup fun name => ?_
  by_cases hname : name = src
  · subst hname
    by_cases hmem : name ∈ d
    · exact lookup_move_dst hmem
    · rw [move, Finmap.lookup_eq_none.mpr hmem]
      exact Finmap.lookup_eq_none.mpr hmem
  · exact lookup_move_of_ne hname hname

theorem result_rename : ((rename src dst : Prog (Dir ν) ε Unit) d).result = .ok () := by
  unfold rename
  split <;> rfl

theorem final_rename : ((rename src dst : Prog (Dir ν) ε Unit) d).final d = move d src dst := by
  unfold rename
  by_cases hmem : src ∈ d
  · by_cases hne : src = dst
    · rw [if_neg (fun h => h.2 hne), hne, move_self]
      rfl
    · rw [if_pos ⟨hmem, hne⟩]
      rfl
  · rw [if_neg (fun h => hmem h.1), move, Finmap.lookup_eq_none.mpr hmem]
    rfl

theorem mem_writes_rename {t : Dir ν} (h : t ∈ ((rename src dst : Prog (Dir ν) ε Unit) d).writes) :
    t = move d src dst := by
  unfold rename at h
  split at h
  · exact List.mem_singleton.mp h
  · cases h

theorem final_rewrite (content : List UInt8) :
    ((rewrite name content : Prog (Dir ν) ε Unit) d).final d = d.insert name content := by
  change after d ((List.range (content.length + 1)).map _) = _
  rw [List.range_succ, List.map_append, after_append]
  change after _ [d.insert name (content.take content.length)] = _
  rw [List.take_length]
  rfl

theorem mem_writes_rewrite {content : List UInt8} {t : Dir ν} :
    t ∈ ((rewrite name content : Prog (Dir ν) ε Unit) d).writes ↔
      ∃ n ≤ content.length, t = d.insert name (content.take n) := by
  change t ∈ (List.range (content.length + 1)).map _ ↔ _
  simp only [List.mem_map, List.mem_range, Nat.lt_succ_iff]
  exact exists_congr fun n => and_congr_right fun _ => eq_comm

/-! ### A family -/

section family
variable {src dst : κ → ν} {family : List κ} {k : κ}

theorem moveAll_cons : moveAll src dst d (k :: family) = moveAll src dst (move d (src k) (dst k)) family := rfl

theorem lookup_moveAll_of_ne (hsrc : ∀ k ∈ family, name ≠ src k) (hdst : ∀ k ∈ family, name ≠ dst k) :
    (moveAll src dst d family).lookup name = d.lookup name := by
  induction family generalizing d with
  | nil => rfl
  | cons k family ih =>
    rw [moveAll_cons, ih (fun j hj => hsrc j (List.mem_cons_of_mem _ hj)) (fun j hj => hdst j (List.mem_cons_of_mem _ hj))]
    exact lookup_move_of_ne (hsrc k List.mem_cons_self) (hdst k List.mem_cons_self)

theorem moveAll_self : moveAll src src d family = d := by
  induction family generalizing d with
  | nil => rfl
  | cons k family ih => rw [moveAll_cons, move_self, ih]

variable (hsrc : Function.Injective src) (hdst : Function.Injective dst) (hne : ∀ j k, src j ≠ dst k)
include hsrc hdst hne

theorem lookup_moveAll_dst (hnodup : family.Nodup) (hk : k ∈ family) (hmem : src k ∈ d) :
    (moveAll src dst d family).lookup (dst k) = d.lookup (src k) := by
  induction family generalizing d with
  | nil => cases hk
  | cons j family ih =>
    obtain ⟨hj, hnodup⟩ := List.nodup_cons.mp hnodup
    rw [moveAll_cons]
    rcases List.mem_cons.mp hk with rfl | hk
    · rw [lookup_moveAll_of_ne (fun i _ => (hne i k).symm) (fun i hi heq => hj (hdst heq ▸ hi))]
      exact lookup_move_dst hmem
    · have hkj : src k ≠ src j := fun heq => hj (hsrc heq ▸ hk)
      have hlookup := lookup_move_of_ne (d := d) hkj (hne k j)
      rw [ih hnodup hk ((mem_congr hlookup).mpr hmem), hlookup]

omit hdst in
theorem lookup_moveAll_src (hk : k ∈ family) : (moveAll src dst d family).lookup (src k) = none := by
  induction family generalizing d with
  | nil => cases hk
  | cons j family ih =>
    rw [moveAll_cons]
    by_cases hmem : k ∈ family
    · exact ih hmem
    · obtain rfl : k = j := (List.mem_cons.mp hk).resolve_right hmem
      have hother (i : κ) (hi : i ∈ family) : src k ≠ src i := fun heq => hmem (hsrc heq ▸ hi)
      rw [lookup_moveAll_of_ne hother (fun i _ => hne k i)]
      exact lookup_move_src (hne k k)

end family

theorem renameAll_spec (src dst : κ → ν) (family : List κ) (d : Dir ν) :
    ((renameAll src dst family : Prog (Dir ν) ε Unit) d).result = .ok () ∧
      ((renameAll src dst family : Prog (Dir ν) ε Unit) d).final d = moveAll src dst d family ∧
      ∀ t ∈ ((renameAll src dst family : Prog (Dir ν) ε Unit) d).writes,
        ∃ n ≤ family.length, t = moveAll src dst d (family.take n) := by
  induction family generalizing d with
  | nil => exact ⟨rfl, rfl, fun t ht => by cases ht⟩
  | cons k family ih =>
    have hok : ((rename (src k) (dst k) : Prog (Dir ν) ε Unit) d).result = .ok () := result_rename
    obtain ⟨hresult, hfinal, hwrites⟩ := ih (move d (src k) (dst k))
    rw [renameAll]
    refine ⟨?_, ?_, fun t ht => ?_⟩
    · rw [bind_apply hok, final_rename]
      exact hresult
    · rw [final_bind hok, final_rename]
      exact hfinal
    · rw [bind_apply hok, final_rename] at ht
      rcases List.mem_append.mp ht with ht | ht
      · refine ⟨1, by simp, ?_⟩
        rw [mem_writes_rename ht]
        rfl
      · obtain ⟨n, hn, rfl⟩ := hwrites t ht
        exact ⟨n + 1, by simpa using hn, rfl⟩

/-! ### Names that stay -/

/-- Every state that a program writes has the files with a property as they were. -/
def Keeps (P : ν → Prop) (p : Prog (Dir ν) ε α) : Prop :=
  ∀ d t, Cut p d t → ∀ name, P name → t.lookup name = d.lookup name

section keeps
variable {P : ν → Prop}

variable {p : Prog (Dir ν) ε α}

theorem Keeps.final (h : Keeps P p) (hname : P name) :
    ((p d).final d).lookup name = d.lookup name := h d _ (Cut.final p d) name hname

theorem Keeps.of_writes_nil (h : ∀ d, (p d).writes = []) : Keeps P p := by
  intro d t ht name _
  rcases ht with rfl | ht
  · rfl
  · rw [h d] at ht
    cases ht

theorem Keeps.read (name : ν) : Keeps P (read name) := .of_writes_nil fun d => by
  unfold Files.read
  split <;> rfl

theorem Keeps.bind {f : α → Prog (Dir ν) ε β} (hp : Keeps P p) (hf : ∀ a, Keeps P (f a)) : Keeps P (p >>= f) := by
  intro d t ht name hname
  rcases ht.of_bind with ht | ⟨a, -, ht⟩
  · exact hp d t ht name hname
  · exact (hf a _ t ht name hname).trans (hp.final hname)

theorem Keeps.rename {src dst : ν} (hsrc : ¬P src) (hdst : ¬P dst) : Keeps P (rename src dst : Prog (Dir ν) ε Unit) := by
  intro d t ht name hname
  rcases ht with rfl | ht
  · rfl
  · rw [mem_writes_rename ht]
    exact lookup_move_of_ne (fun heq => hsrc (heq ▸ hname)) (fun heq => hdst (heq ▸ hname))

theorem Keeps.renameAll {src dst : κ → ν} (hsrc : ∀ k, ¬P (src k)) (hdst : ∀ k, ¬P (dst k)) (family : List κ) :
    Keeps P (renameAll src dst family : Prog (Dir ν) ε Unit) := by
  induction family with
  | nil => exact .of_writes_nil fun _ => rfl
  | cons k family ih => exact (Keeps.rename (hsrc k) (hdst k)).bind fun _ => ih

theorem Keeps.rewrite {content : List UInt8} (hname : ¬P name) : Keeps P (rewrite name content : Prog (Dir ν) ε Unit) := by
  intro d t ht other hother
  rcases ht with rfl | ht
  · rfl
  · obtain ⟨n, -, rfl⟩ := mem_writes_rewrite.mp ht
    exact Finmap.lookup_insert_of_ne _ fun heq => hname (heq ▸ hother)

end keeps

end ArbReth.Files
