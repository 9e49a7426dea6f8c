import Mathlib.Order.Bounds.Basic
import Mathlib.Data.Nat.Notation

/-! # Bisection with a fallible probe

`search probe fuel s lo hi` looks for the least number in `[lo, hi]` with a property that is kept
upwards.  The property is only accessible through `probe`, which may fail and changes a state
(`search_isLeast`).  `searchLast` looks for the greatest number with a property that is kept
downwards (`searchLast_isGreatest`). -/

namespace ArbReth.Bisect

variable {ε σ : Type}

/-- Halve `[lo, hi]` until it is a single number. -/
def search (probe : σ → ℕ → Except ε (Bool × σ)) : ℕ → σ → ℕ → ℕ → Except ε (ℕ × σ)
  | 0, s, lo, _ => .ok (lo, s)
  | fuel + 1, s, lo, hi =>
    if lo < hi then
      match probe s (lo + (hi - lo) / 2) with
      | .error e => .error e
      | .ok (true, s) => search probe fuel s lo (lo + (hi - lo) / 2)
      | .ok (false, s) => search probe fuel s (lo + (hi - lo) / 2 + 1) hi
    else .ok (lo, s)

variable {probe : σ → ℕ → Except ε (Bool × σ)} {P : ℕ → Prop}

/-- The search fails only where the probe does. -/
theorem search_error {e : ε} (fuel : ℕ) : ∀ {s : σ} {lo hi : ℕ}, search probe fuel s lo hi = .error e →
    ∃ s' k, probe s' k = .error e := by
  induction fuel with
  | zero =>
    intro s lo hi h
    cases h
  | succ fuel ih =>
    intro s lo hi h
    unfold search at h
    by_cases hlt : lo < hi
    · rw [if_pos hlt] at h
      cases hp : probe s (lo + (hi - lo) / 2) with
      | error e' =>
        rw [hp] at h
        exact ⟨s, _, hp.trans (congrArg Except.error (Except.error.inj h))⟩
      | ok out =>
        obtain ⟨above, s₁⟩ := out
        rw [hp] at h
        cases above with
        | true => exact ih h
        | false => exact ih h
    · rw [if_neg hlt] at h
      cases h

/-- The search ends at the least number with the property, if `hi` has it. -/
theorem search_isLeast (hmono : ∀ a b, a ≤ b → P a → P b)
    (hprobe : ∀ s k above s', probe s k = .ok (above, s') → (above = true ↔ P k)) (fuel : ℕ) :
    ∀ {s s' : σ} {lo hi r : ℕ}, hi - lo ≤ fuel → lo ≤ hi → P hi →
      search probe fuel s lo hi = .ok (r, s') → IsLeast {k | lo ≤ k ∧ P k} r ∧ r ≤ hi := by
  induction fuel with
  | zero =>
    intro s s' lo hi r hfuel hle hhi h
    cases h
    obtain rfl : lo = hi := by omega
    exact ⟨⟨⟨le_rfl, hhi⟩, fun k hk => hk.1⟩, le_rfl⟩
  | succ fuel ih =>
    intro s s' lo hi r hfuel hle hhi h
    unfold search at h
    by_cases hlt : lo < hi
    · rw [if_pos hlt] at h
      have hmid : lo + (hi - lo) / 2 < hi := by omega
      cases hp : probe s (lo + (hi - lo) / 2) with
      | error e =>
        rw [hp] at h
        cases h
      | ok out =>
        obtain ⟨above, s₁⟩ := out
        have hiff := hprobe s _ above s₁ hp
        rw [hp] at h
        cases above with
        | true =>
          obtain ⟨hleast, hr⟩ := ih (by omega) (by omega) (hiff.mp rfl) h
          exact ⟨hleast, by omega⟩
        | false =>
          -- nothing up to the middle has the property
          have hno : ∀ k, k ≤ lo + (hi - lo) / 2 → ¬ P k := by
            intro k hk hPk
            exact absurd (hiff.mpr (hmono k _ hk hPk)) (by decide)
          obtain ⟨⟨⟨hr1, hr2⟩, hleast⟩, hr⟩ := ih (by omega) (by omega) hhi h
          refine ⟨⟨⟨by omega, hr2⟩, fun k hk => ?_⟩, hr⟩
          refine hleast ⟨?_, hk.2⟩
          by_contra hkmid
          exact hno k (by omega) hk.2
    · rw [if_neg hlt] at h
      cases h
      obtain rfl : lo = hi := by omega
      exact ⟨⟨⟨le_rfl, hhi⟩, fun k hk => hk.1⟩, le_rfl⟩

/-! ### The last number -/

/-- Halve `[lo, hi]` from above until it is a single number. -/
def searchLast (probe : ℕ → Except ε Bool) : ℕ → ℕ → ℕ → Except ε ℕ
  | 0, lo, _ => .ok lo
  | fuel + 1, lo, hi =>
    if lo < hi then
      match probe ((lo + hi + 1) / 2) with
      | .error e => .error e
      | .ok true => searchLast probe fuel ((lo + hi + 1) / 2) hi
      | .ok false => searchLast probe fuel lo ((lo + hi + 1) / 2 - 1)
    else .ok lo

/-- The search ends at the greatest number with the property, if `lo` has it and no probe fails. -/
theorem searchLast_isGreatest (probe : ℕ → Except ε Bool) (P : ℕ → Prop) (top : ℕ)
    (hmono : ∀ a b, a ≤ b → b ≤ top → P b → P a)
    (hprobe : ∀ k, k ≤ top → ∃ below, probe k = .ok below ∧ (below = true ↔ P k)) (fuel : ℕ) :
    ∀ {lo hi : ℕ}, hi - lo ≤ fuel → lo ≤ hi → hi ≤ top → P lo →
      ∃ r, searchLast probe fuel lo hi = .ok r ∧ lo ≤ r ∧ IsGreatest {k | k ≤ hi ∧ P k} r := by
  induction fuel with
  | zero =>
    intro lo hi hfuel hle _ hlo
    obtain rfl : lo = hi := by omega
    exact ⟨lo, rfl, le_rfl, ⟨le_rfl, hlo⟩, fun k hk => hk.1⟩
  | succ fuel ih =>
    intro lo hi hfuel hle htop hlo
    unfold searchLast
    by_cases hlt : lo < hi
    · rw [if_pos hlt]
      obtain ⟨below, hk, hiff⟩ := hprobe ((lo + hi + 1) / 2) (by omega)
      rw [hk]
      cases below with
      | true =>
        obtain ⟨r, hr, hler, hgreatest⟩ := ih (by omega) (by omega) htop (hiff.mp rfl)
        exact ⟨r, hr, by omega, hgreatest⟩
      | false =>
        obtain ⟨r, hr, hler, ⟨hr1, hr2⟩, hgreatest⟩ := @ih lo ((lo + hi + 1) / 2 - 1) (by omega) (by omega)
          (by omega) hlo
        refine ⟨r, hr, hler, ⟨by omega, hr2⟩, fun k hk => hgreatest ⟨?_, hk.2⟩⟩
        -- nothing from the middle on has the property
        by_contra hkmid
        exact absurd (hiff.mpr (hmono _ k (by omega) (by have := hk.1; omega) hk.2)) (by decide)
    · rw [if_neg hlt]
      obtain rfl : lo = hi := by omega
      exact ⟨lo, rfl, le_rfl, ⟨le_rfl, hlo⟩, fun k hk => hk.1⟩

end ArbReth.Bisect
