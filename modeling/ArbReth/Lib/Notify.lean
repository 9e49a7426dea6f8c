import Mathlib.Logic.Function.Basic
import Mathlib.Data.Nat.Notation

/-! # Notifications to all waiters

Tasks wait for a call of `notify_waiters`, each with a `Notified` future of its own.  A future registers when it is enabled;
`notify_waiters` wakes the futures that are registered.  A future that was created before such a call and is enabled after
it finds this by the count of calls, and needs no wake-up.  A task that holds no future has dropped its last one. -/

namespace ArbReth

variable {ι : Type}

/-- A future of a task. -/
inductive Notified where
  | created (calls : ℕ)
  | enabled
  | notified
deriving DecidableEq, Repr

/-- `notify_waiters` reaches a future. -/
def Notified.wake : Notified → Notified
  | .created calls => .created calls
  | .enabled => .notified
  | .notified => .notified

structure Notify (ι : Type) where
  calls : ℕ
  futures : ι → Option Notified

namespace Notify

def new : Notify ι := ⟨0, fun _ => none⟩

section tasks
variable [DecidableEq ι]

/-- A task makes a future; one that it held before is dropped. -/
def notified (n : Notify ι) (i : ι) : Notify ι :=
  { n with futures := Function.update n.futures i (some (.created n.calls)) }

def enable (n : Notify ι) (i : ι) : Notify ι :=
  match n.futures i with
  | some (.created calls) =>
    { n with futures := Function.update n.futures i (some (if calls = n.calls then .enabled else .notified)) }
  | _ => n

def drop (n : Notify ι) (i : ι) : Notify ι := { n with futures := Function.update n.futures i none }

variable {n : Notify ι} {i j : ι}

theorem futures_notified_of_ne (h : j ≠ i) : (n.notified i).futures j = n.futures j := Function.update_of_ne h _ _

theorem futures_drop_of_ne (h : j ≠ i) : (n.drop i).futures j = n.futures j := Function.update_of_ne h _ _

theorem futures_enable_of_ne (h : j ≠ i) : (n.enable i).futures j = n.futures j := by
  unfold enable
  cases n.futures i with
  | none => rfl
  | some future =>
    cases future with
    | created calls => exact Function.update_of_ne h _ _
    | enabled => rfl
    | notified => rfl

theorem futures_notified_self : (n.notified i).futures i = some (.created n.calls) := Function.update_self _ _ _

/-- Once it is enabled, a future is asleep or woken. -/
theorem futures_enable_self {calls : ℕ} (h : n.futures i = some (.created calls)) :
    (n.enable i).futures i = some .enabled ∨ (n.enable i).futures i = some .notified := by
  simp only [enable, h, Function.update_self]
  split
  · exact .inl rfl
  · exact .inr rfl

end tasks

/-- Wakes every future that is enabled. -/
def notifyWaiters (n : Notify ι) : Notify ι := ⟨n.calls + 1, fun i => (n.futures i).map Notified.wake⟩

variable {n : Notify ι} {i : ι}

theorem enabled_notifyWaiters (h : n.futures i = some .enabled ∨ n.futures i = some .notified) :
    n.notifyWaiters.futures i = some .notified := by
  rcases h with h | h <;> simp [notifyWaiters, h, Notified.wake]

theorem created_notifyWaiters {calls : ℕ} (h : n.futures i = some (.created calls)) :
    n.notifyWaiters.futures i = some (.created calls) := by
  simp [notifyWaiters, h, Notified.wake]

end Notify

end ArbReth
