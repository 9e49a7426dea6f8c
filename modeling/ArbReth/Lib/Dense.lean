import Mathlib.Data.List.Basic
import Mathlib.Data.Nat.Notation
import Mathlib.Tactic.Common

/-! # Filling the gaps of a sparse list

The elements of a list have keys that increase.  `fill` gives a list with one entry for every number from a start on: the
value of the element that has this key, or an empty one.  It may be computed piece by piece (`fill_append`), with the
number after the last key carried from one piece to the next. -/

namespace ArbReth.Dense

variable {α β : Type} (key : α → ℕ) (val : α → β) (empty : β)

/-- The entries from `next` up to the key of the last element. -/
def fill : ℕ → List α → List (ℕ × β)
  | _, [] => []
  | next, a :: as =>
    (List.range' next (key a - next)).map (·, empty) ++ (key a, val a) :: fill (key a + 1) as

/-- The number after the last entry. -/
def after : ℕ → List α → ℕ
  | next, [] => next
  | _, a :: as => after (key a + 1) as

/-- The entry of one number. -/
def entry (as : List α) (n : ℕ) : ℕ × β := (n, (as.find? fun a => key a = n).elim empty val)

theorem after_append (next : ℕ) (as bs : List α) : after key next (as ++ bs) = after key (after key next as) bs := by
  induction as generalizing next with
  | nil => rfl
  | cons a as ih => exact ih _

theorem fill_append (next : ℕ) (as bs : List α) :
    fill key val empty next (as ++ bs) = fill key val empty next as ++ fill key val empty (after key next as) bs := by
  induction as generalizing next with
  | nil => rfl
  | cons a as ih => simp only [List.cons_append, fill, after, ih, List.append_assoc]

theorem after_concat (next : ℕ) (as : List α) (a : α) : after key next (as ++ [a]) = key a + 1 := by
  rw [after_append]
  rfl

variable {key val empty}

variable {as : List α}

theorem le_after {next : ℕ} (hfrom : ∀ a ∈ as, next ≤ key a) (hsorted : as.Pairwise (key · < key ·)) :
    next ≤ after key next as := by
  induction as generalizing next with
  | nil => exact Nat.le_refl _
  | cons a as ih =>
    have hsucc : key a + 1 ≤ after key (key a + 1) as :=
      ih (fun b hb => List.rel_of_pairwise_cons hsorted hb) hsorted.of_cons
    have hle := hfrom a (by simp)
    rw [after]
    omega

theorem entry_of_lt {n : ℕ} (h : ∀ a ∈ as, n < key a) : entry key val empty as n = (n, empty) := by
  rw [entry, List.find?_eq_none.mpr fun a ha => by have := h a ha; simp; omega]
  rfl

theorem entry_cons_of_ne {a : α} {n : ℕ} (h : key a ≠ n) :
    entry key val empty (a :: as) n = entry key val empty as n := by
  rw [entry, List.find?_cons_of_neg (by simpa using h)]
  rfl

/-- **The entries are those of the numbers in order**, none missing and none twice. -/
theorem fill_eq_map {next : ℕ} (hfrom : ∀ a ∈ as, next ≤ key a) (hsorted : as.Pairwise (key · < key ·)) :
    fill key val empty next as = (List.range' next (after key next as - next)).map (entry key val empty as) := by
  induction as generalizing next with
  | nil => simp [fill, after]
  | cons a as ih =>
    have habove : ∀ b ∈ as, key a + 1 ≤ key b := fun b hb => List.rel_of_pairwise_cons hsorted hb
    have hle := hfrom a (by simp)
    have hlast := le_after habove hsorted.of_cons
    have hsplit : after key next (a :: as) - next =
        (key a - next) + (1 + (after key (key a + 1) as - (key a + 1))) := by
      rw [after]
      omega
    rw [fill, ih habove hsorted.of_cons, hsplit, ← List.range'_append_1, ← List.range'_append_1, List.map_append,
      List.map_append, List.range'_one, show next + (key a - next) = key a by omega]
    have hgap : ∀ n ∈ List.range' next (key a - next), (n, empty) = entry key val empty (a :: as) n := by
      intro n hn
      rw [List.mem_range'_1] at hn
      refine (entry_of_lt fun b hb => ?_).symm
      rcases List.mem_cons.mp hb with rfl | hb
      · omega
      · have := habove b hb
        omega
    have hrest : ∀ n ∈ List.range' (key a + 1) (after key (key a + 1) as - (key a + 1)),
        entry key val empty as n = entry key val empty (a :: as) n := by
      intro n hn
      rw [List.mem_range'_1] at hn
      exact (entry_cons_of_ne (by omega)).symm
    rw [List.map_congr_left hgap, List.map_congr_left hrest]
    simp [entry]

end ArbReth.Dense
