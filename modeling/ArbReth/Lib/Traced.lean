import ArbReth.Lib.Runs

/-! # Computations that record their requests

A program that asks its environment is instrumented in the monad `Traced`: beside the result of the
computation, which may be a failure, it returns the requests made, those before a failure included.

The requests of this library are ranges of blocks, each with its first and its last block.  `Tiles log lo
stop` says that the blocks from `lo` up to `stop` are each in exactly one request of the log and that no
other block is in any. -/

namespace ArbReth.Tracing

variable {ρ ε α β : Type}

/-- A fallible computation with the requests it made. -/
structure Traced (ρ ε α : Type) where
  val : Except ε α
  requests : List ρ

/-- The requests that are made after a computation, if it does not fail. -/
def later (result : Except ε α) (k : α → List ρ) : List ρ :=
  match result with
  | .ok a => k a
  | .error _ => []

instance : Monad (Traced ρ ε) where
  pure a := ⟨.ok a, []⟩
  bind x f := ⟨x.val >>= fun a => (f a).val, x.requests ++ later x.val fun a => (f a).requests⟩

/-- A computation without requests. -/
instance : Coe (Except ε α) (Traced ρ ε α) := ⟨fun x => ⟨x, []⟩⟩

/-- Make a request. -/
def request (r : ρ) (answer : Except ε α) : Traced ρ ε α := ⟨answer, [r]⟩

/-- A failure without a request. -/
def fail (e : ε) : Traced ρ ε α := ⟨.error e, []⟩

/-! ### Ranges of blocks -/

/-- The block is in the range. -/
def inRange (n : ℕ) (r : ℕ × ℕ) : Bool := decide (r.1 ≤ n) && decide (n ≤ r.2)

/-- The blocks from `lo` up to `stop`, without it, are each in one range of the list, and no other is. -/
def Tiles (log : List (ℕ × ℕ)) (lo stop : ℕ) : Prop :=
  ∀ n, log.countP (inRange n) = if lo ≤ n ∧ n < stop then 1 else 0

namespace Tiles

variable {log log' : List (ℕ × ℕ)} {lo mid stop : ℕ}

theorem singleton (lo hi : ℕ) : Tiles [(lo, hi)] lo (hi + 1) := by
  intro n
  simp only [List.countP_singleton, inRange, Bool.and_eq_true, decide_eq_true_eq, Nat.lt_succ_iff]

/-- Two adjacent intervals, the lower one recorded first. -/
theorem append (h : Tiles log lo mid) (h' : Tiles log' mid stop) (hlo : lo ≤ mid) (hstop : mid ≤ stop) :
    Tiles (log ++ log') lo stop := by
  intro n
  rw [List.countP_append, h n, h' n]
  split_ifs <;> omega

/-- Two adjacent intervals, the upper one recorded first. -/
theorem append_below (h : Tiles log mid stop) (h' : Tiles log' lo mid) (hlo : lo ≤ mid) (hstop : mid ≤ stop) :
    Tiles (log ++ log') lo stop := by
  intro n
  rw [List.countP_append, h n, h' n]
  split_ifs <;> omega

end Tiles

end ArbReth.Tracing
