import ArbReth.Lib.Runs

/-! # Interrupted computations

A computation asks an outside world that gives the true answer or none.  Without one it fails with a
fixed error `e`; otherwise it does what it would do in a world that always answers.  `Interrupts e x y`
says so of the outcome `x` of the first and `y` of the second.  The relation is kept by sequencing and by
runs, so it is enough to prove it of the requests. -/

namespace ArbReth.Interrupted

open ArbReth.Runs

variable {ε σ α β γ : Type}

/-- `x` was interrupted with `e`, or it is `y`. -/
def Interrupts (e : ε) (x y : Except ε α) : Prop := x = .error e ∨ x = y

variable {e : ε} {x y : Except ε α} {f g : α → Except ε β}

theorem Interrupts.refl (e : ε) (x : Except ε α) : Interrupts e x x := Or.inr rfl

/-- Where the undisturbed computation succeeds, the other one can only be interrupted. -/
theorem Interrupts.ok {a : α} (h : Interrupts e x y) (hy : y = .ok a) : x = .ok a ∨ x = .error e := by
  rcases h with h | h
  · exact Or.inr h
  · exact Or.inl (h.trans hy)

theorem Interrupts.bind (h : Interrupts e x y) (hfg : ∀ a, y = .ok a → Interrupts e (f a) (g a)) :
    Interrupts e (x >>= f) (y >>= g) := by
  rcases h with h | h
  · rw [h]
    exact Or.inl rfl
  · rw [h]
    cases y with
    | error e' => exact Or.inr rfl
    | ok a => exact hfg a rfl

theorem Interrupts.run {step step' : σ → α → Except ε σ} (h : ∀ s a, Interrupts e (step s a) (step' s a))
    (s : σ) (as : List α) : Interrupts e (Runs.run step s as) (Runs.run step' s as) := by
  induction as generalizing s with
  | nil => exact Interrupts.refl e _
  | cons a as ih => exact (h s a).bind fun s' _ => ih s'

end ArbReth.Interrupted
