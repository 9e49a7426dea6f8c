import ArbReth.Lib.Runs

/-! # Loops without a bound

A loop body either fails, asks to leave the loop (`none`) or returns the state for the next round.
`iterate body n s` is how far `n` rounds from `s` lead.  Once the loop has ended more rounds change
nothing (`iterate_stable`); a property of the states it passes through is proved round by round
(`iterate_invariant`); and a body that matches another one through a map of the states makes the
two loops run alike (`iterate_refines`).

A body may fail with the state in which it stopped.  `Progress.state` is then the last state of the
loop however it ended, and `iterate_state` the invariant rule for it. -/

namespace ArbReth.Loop

open ArbReth.Runs

variable {ε σ : Type}

/-- How far a loop has come after a number of rounds. -/
inductive Progress (ε σ : Type) where
  | running (s : σ)
  | done (s : σ)
  | failed (e : ε)

/-- At most `n` rounds of a loop whose body ends it with an error or with `none`. -/
def iterate (body : σ → Except ε (Option σ)) : ℕ → σ → Progress ε σ
  | 0, s => .running s
  | n + 1, s =>
    match body s with
    | .error e => .failed e
    | .ok none => .done s
    | .ok (some s') => iterate body n s'

variable {body : σ → Except ε (Option σ)} {s s' : σ} {n m : ℕ}

@[simp] theorem iterate_zero : iterate body 0 s = .running s := rfl

theorem iterate_error {e : ε} (h : body s = .error e) : iterate body (n + 1) s = .failed e := by
  simp only [iterate, h]

theorem iterate_none (h : body s = .ok none) : iterate body (n + 1) s = .done s := by
  simp only [iterate, h]

theorem iterate_some (h : body s = .ok (some s')) : iterate body (n + 1) s = iterate body n s' := by
  simp only [iterate, h]

/-- Two starts with the same first round run alike from there on. -/
theorem iterate_congr {s₁ s₂ : σ} (h : body s₁ = body s₂) (hrun : ∃ s', body s₁ = .ok (some s')) :
    iterate body (n + 1) s₁ = iterate body (n + 1) s₂ := by
  obtain ⟨s', hs'⟩ := hrun
  rw [iterate_some hs', iterate_some (h ▸ hs')]

theorem iterate_add (h : iterate body n s = .running s') (m : ℕ) : iterate body (n + m) s = iterate body m s' := by
  induction n generalizing s with
  | zero =>
    rw [iterate_zero] at h
    rw [Progress.running.inj h, Nat.zero_add]
  | succ n ih =>
    rw [Nat.add_right_comm]
    cases hb : body s with
    | error e =>
      rw [iterate_error hb] at h
      cases h
    | ok o =>
      cases o with
      | none =>
        rw [iterate_none hb] at h
        cases h
      | some t =>
        rw [iterate_some hb] at h
        rw [iterate_some hb]
        exact ih h

/-- Once the loop has ended, more rounds change nothing. -/
theorem iterate_stable (h : ∀ t, iterate body n s ≠ .running t) (hm : n ≤ m) : iterate body m s = iterate body n s := by
  induction n generalizing s m with
  | zero => exact absurd rfl (h s)
  | succ n ih =>
    obtain ⟨m, rfl⟩ : ∃ m', m = m' + 1 := ⟨m - 1, by omega⟩
    cases hb : body s with
    | error e => rw [iterate_error hb, iterate_error hb]
    | ok o =>
      cases o with
      | none => rw [iterate_none hb, iterate_none hb]
      | some t =>
        rw [iterate_some hb] at h
        rw [iterate_some hb, iterate_some hb]
        exact ih h (by omega)

theorem iterate_done_stable {t : σ} (h : iterate body n s = .done t) (hm : n ≤ m) : iterate body m s = .done t := by
  rw [← h]
  refine iterate_stable (fun u hu => ?_) hm
  rw [h] at hu
  cases hu

/-- The last round that ran, seen from the end. -/
theorem iterate_running_succ (h : iterate body (n + 1) s = .running s') :
    ∃ t, iterate body n s = .running t ∧ body t = .ok (some s') := by
  induction n generalizing s with
  | zero =>
    cases hb : body s with
    | error e =>
      rw [iterate_error hb] at h
      cases h
    | ok o =>
      cases o with
      | none =>
        rw [iterate_none hb] at h
        cases h
      | some t =>
        rw [iterate_some hb, iterate_zero] at h
        exact ⟨s, rfl, Progress.running.inj h ▸ hb⟩
  | succ n ih =>
    cases hb : body s with
    | error e =>
      rw [iterate_error hb] at h
      cases h
    | ok o =>
      cases o with
      | none =>
        rw [iterate_none hb] at h
        cases h
      | some t =>
        rw [iterate_some hb] at h
        obtain ⟨u, hu, hb'⟩ := ih h
        exact ⟨u, by rw [iterate_some hb, hu], hb'⟩

/-- A loop that has ended did so in a round that asked for no other. -/
theorem iterate_ended (h : ∀ t, iterate body n s ≠ .running t) : ∃ m t, m < n ∧ iterate body m s = .running t ∧
      ((body t = .ok none ∧ iterate body n s = .done t) ∨ ∃ e, body t = .error e ∧ iterate body n s = .failed e) := by
  induction n generalizing s with
  | zero => exact absurd rfl (h s)
  | succ n ih =>
    cases hb : body s with
    | error e => exact ⟨0, s, by omega, rfl, Or.inr ⟨e, hb, iterate_error hb⟩⟩
    | ok o =>
      cases o with
      | none => exact ⟨0, s, by omega, rfl, Or.inl ⟨hb, iterate_none hb⟩⟩
      | some t =>
        rw [iterate_some hb] at h ⊢
        obtain ⟨m, u, hm, hu, hend⟩ := ih h
        exact ⟨m + 1, u, by omega, by rw [iterate_some hb, hu], hend⟩

theorem iterate_done_running {t : σ} (h : iterate body n s = .done t) : ∃ m, m < n ∧ iterate body m s = .running t := by
  have hne : ∀ u, iterate body n s ≠ .running u := by simp [h]
  obtain ⟨m, u, hm, hu, ⟨-, hd⟩ | ⟨e, -, hf⟩⟩ := iterate_ended hne
  · rw [h] at hd
    exact ⟨m, hm, Progress.done.inj hd ▸ hu⟩
  · rw [h] at hf
    cases hf

theorem iterate_failed_error {e : ε} (h : iterate body n s = .failed e) :
    ∃ m t, m < n ∧ iterate body m s = .running t ∧ body t = .error e := by
  have hne : ∀ u, iterate body n s ≠ .running u := by simp [h]
  obtain ⟨m, u, hm, hu, ⟨-, hd⟩ | ⟨e', he, hf⟩⟩ := iterate_ended hne
  · rw [h] at hd
    cases hd
  · rw [h] at hf
    exact ⟨m, u, hm, hu, Progress.failed.inj hf ▸ he⟩

/-- The invariant rule for the states a loop passes through. -/
theorem iterate_invariant (I : σ → Prop) (h0 : I s) (hbody : ∀ t t', I t → body t = .ok (some t') → I t')
    (h : iterate body n s = .running s') : I s' := by
  induction n generalizing s' with
  | zero => exact Progress.running.inj h ▸ h0
  | succ n ih =>
    obtain ⟨t, ht, hb⟩ := iterate_running_succ h
    exact hbody t s' (ih ht) hb

/-- The outcome, seen through a map of the states. -/
def Progress.map {τ : Type} (π : σ → τ) : Progress ε σ → Progress ε τ
  | .running s => .running (π s)
  | .done s => .done (π s)
  | .failed e => .failed e

/-- Two loop bodies agree at `s`, and the first keeps the invariant. -/
def Refines {τ : Type} (body : σ → Except ε (Option σ)) (body' : τ → Except ε (Option τ)) (π : σ → τ)
    (I : σ → Prop) (s : σ) : Prop :=
  (∃ e, body s = .error e ∧ body' (π s) = .error e) ∨
    (body s = .ok none ∧ body' (π s) = .ok none) ∨
    ∃ s', body s = .ok (some s') ∧ I s' ∧ body' (π s) = .ok (some (π s'))

theorem iterate_refines {τ : Type} {body' : τ → Except ε (Option τ)} {π : σ → τ} {I : σ → Prop}
    (href : ∀ s, I s → Refines body body' π I s) (hI : I s) (n : ℕ) :
    iterate body' n (π s) = (iterate body n s).map π := by
  induction n generalizing s with
  | zero => rfl
  | succ n ih =>
    obtain ⟨e, h1, h2⟩ | ⟨h1, h2⟩ | ⟨s', h1, hI', h2⟩ := href s hI
    · rw [iterate_error h1, iterate_error h2]
      rfl
    · rw [iterate_none h1, iterate_none h2]
      rfl
    · rw [iterate_some h1, iterate_some h2]
      exact ih hI'

/-! ### Failing with a state -/

/-- The last state of a loop whose failures carry the state they happened in. -/
def Progress.state : Progress (ε × σ) σ → σ
  | .running s => s
  | .done s => s
  | .failed e => e.2

/-- The invariant rule up to the last state, whether the loop runs, has ended or has failed. -/
theorem iterate_state {body : σ → Except (ε × σ) (Option σ)} (I : σ → Prop) {s : σ} (h0 : I s)
    (hbody : ∀ t, I t → Ensures (fun o => ∀ t', o = some t' → I t') I (body t)) (n : ℕ) :
    I (iterate body n s).state := by
  induction n generalizing s with
  | zero => exact h0
  | succ n ih =>
    have hs := hbody s h0
    cases hb : body s with
    | error e =>
      rw [iterate_error hb]
      rw [hb] at hs
      exact hs
    | ok o =>
      rw [hb] at hs
      cases o with
      | none =>
        rw [iterate_none hb]
        exact h0
      | some t =>
        rw [iterate_some hb]
        exact ih (hs t rfl)

end ArbReth.Loop
