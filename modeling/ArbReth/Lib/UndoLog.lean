import Mathlib

/-! # Undo logs

A step from one state of a keyed store to the next is recorded in a log of old values.  The log is exact
if every entry has the value before the step and every key whose value changed is in it; undoing it
then restores the state before the step, in whatever order the entries are applied.  Exact logs of
successive steps, undone from the last to the first, restore the first state. -/

namespace ArbReth.UndoLog

variable {κ ν : Type} [DecidableEq κ]

/-- Set every key of the log to its old value. -/
def undo (log : List (κ × ν)) (s : κ → ν) : κ → ν :=
  log.foldl (fun s e => Function.update s e.1 e.2) s

/-- Undo the logs of successive steps, the last one first. -/
def undoAll (logs : List (List (κ × ν))) (s : κ → ν) : κ → ν := logs.foldr undo s

structure Exact (before after : κ → ν) (log : List (κ × ν)) : Prop where
  old : ∀ e ∈ log, e.2 = before e.1
  listed : ∀ k, before k ≠ after k → ∃ e ∈ log, e.1 = k

variable {before after : κ → ν} {log : List (κ × ν)}

theorem undo_of_notMem {s : κ → ν} {k : κ} (h : ∀ e ∈ log, e.1 ≠ k) : undo log s k = s k := by
  induction log generalizing s with
  | nil => rfl
  | cons e log ih =>
    have hstep : undo (e :: log) s = undo log (Function.update s e.1 e.2) := rfl
    rw [hstep, ih fun e' he' => h e' (List.mem_cons_of_mem _ he'),
      Function.update_of_ne (h e List.mem_cons_self).symm]

theorem undo_of_mem {s : κ → ν} {k : κ} (hold : ∀ e ∈ log, e.2 = before e.1) (h : ∃ e ∈ log, e.1 = k) :
    undo log s k = before k := by
  induction log generalizing s with
  | nil =>
    obtain ⟨e, he, -⟩ := h
    cases he
  | cons e log ih =>
    have hstep : undo (e :: log) s = undo log (Function.update s e.1 e.2) := rfl
    rw [hstep]
    by_cases hlater : ∃ e ∈ log, e.1 = k
    · exact ih (fun e' he' => hold e' (List.mem_cons_of_mem _ he')) hlater
    · push Not at hlater
      obtain ⟨e', he', rfl⟩ := h
      obtain rfl : e' = e := by
        rcases List.mem_cons.mp he' with h | h
        · exact h
        · exact absurd rfl (hlater e' h)
      rw [undo_of_notMem hlater, Function.update_self, hold e' List.mem_cons_self]

theorem Exact.undo (h : Exact before after log) : undo log after = before := by
  funext k
  by_cases hk : ∃ e ∈ log, e.1 = k
  · exact undo_of_mem h.old hk
  · have hsame : before k = after k := by
      by_contra hne
      exact hk (h.listed k hne)
    push Not at hk
    rw [undo_of_notMem hk, hsame]

/-- The states of a run of steps, each recorded in an exact log. -/
inductive Recorded : (κ → ν) → List (List (κ × ν)) → (κ → ν) → Prop
  | nil (s : κ → ν) : Recorded s [] s
  | cons {s s' t : κ → ν} {log : List (κ × ν)} {logs : List (List (κ × ν))} (h : Exact s s' log)
      (hs : Recorded s' logs t) : Recorded s (log :: logs) t

theorem Recorded.undoAll {s t : κ → ν} {logs : List (List (κ × ν))} (h : Recorded s logs t) : undoAll logs t = s := by
  induction h with
  | nil s => rfl
  | @cons s s' t log logs hexact _ ih =>
    have hstep : UndoLog.undoAll (log :: logs) t = UndoLog.undo log (UndoLog.undoAll logs t) := rfl
    rw [hstep, ih, hexact.undo]

end ArbReth.UndoLog
