import Mathlib.Logic.Relation
import Mathlib.Order.Basic

/-! # Systems driven by events

A system takes an event in the states where it can happen.  `Reaches step` relates a state to those
that some sequence of events leads to, and `steps` runs a given sequence.  A property that every
step keeps holds in all states that are reached (`Reaches.invariant`).  `guarded` leaves out events
of the system. -/

namespace ArbReth.Events

open Relation (ReflTransGen)

variable {σ ε : Type} {step : σ → ε → Option σ} {s t u : σ}

def Reaches (step : σ → ε → Option σ) (s t : σ) : Prop := ReflTransGen (fun s t => ∃ e, step s e = some t) s t

def steps (step : σ → ε → Option σ) : σ → List ε → Option σ
  | s, [] => some s
  | s, e :: events => (step s e).bind fun t => steps step t events

theorem Reaches.refl (s : σ) : Reaches step s s := ReflTransGen.refl

theorem Reaches.trans (hst : Reaches step s t) (htu : Reaches step t u) : Reaches step s u := ReflTransGen.trans hst htu

theorem Reaches.single {e : ε} (h : step s e = some t) : Reaches step s t := ReflTransGen.single ⟨e, h⟩

theorem Reaches.snoc (hst : Reaches step s t) (e : ε) (h : step t e = some u) : Reaches step s u := hst.trans (.single h)

theorem Reaches.of_steps (events : List ε) (h : steps step s events = some t) : Reaches step s t := by
  induction events generalizing s with
  | nil =>
    obtain rfl := Option.some.inj h
    exact .refl s
  | cons e events ih =>
    obtain ⟨m, hm, h⟩ := Option.bind_eq_some_iff.mp h
    exact (Reaches.single hm).trans (ih h)

/-- The system with only those events that are allowed. -/
def guarded (allowed : σ → ε → Prop) [∀ s e, Decidable (allowed s e)] (step : σ → ε → Option σ)
    (s : σ) (e : ε) : Option σ :=
  if allowed s e then step s e else none

theorem guarded_eq_some {allowed : σ → ε → Prop} [∀ s e, Decidable (allowed s e)] {e : ε} :
    guarded allowed step s e = some t ↔ allowed s e ∧ step s e = some t := by
  unfold guarded
  split <;> simp [*]

theorem Reaches.of_guarded {allowed : σ → ε → Prop} [∀ s e, Decidable (allowed s e)]
    (h : Reaches (guarded allowed step) s t) : Reaches step s t :=
  ReflTransGen.mono (fun _ _ ⟨e, he⟩ => ⟨e, (guarded_eq_some.mp he).2⟩) s t h

/-- What every step keeps, every run keeps. -/
theorem Reaches.invariant {I : σ → Prop} (hstep : ∀ s e t, I s → step s e = some t → I t) (hs : I s)
    (h : Reaches step s t) : I t := by
  induction h with
  | refl => exact hs
  | tail _ hlast ih =>
    obtain ⟨e, he⟩ := hlast
    exact hstep _ e _ ih he

/-- A measure that no step lowers is not lowered by a run. -/
theorem Reaches.monotone {α : Type} [Preorder α] {I : σ → Prop} (hI : ∀ s e t, I s → step s e = some t → I t) {f : σ → α}
    (hf : ∀ s e t, I s → step s e = some t → f s ≤ f t) (hs : I s) (h : Reaches step s t) : f s ≤ f t := by
  induction h with
  | refl => exact le_rfl
  | tail hruns hlast ih =>
    obtain ⟨e, he⟩ := hlast
    exact ih.trans (hf _ e _ (Reaches.invariant hI hs hruns) he)

end ArbReth.Events
