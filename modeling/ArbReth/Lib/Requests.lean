import ArbReth.Lib.Interrupted

/-! # Programs that ask

A program asks an outside world and goes on with the answers.  `Asks ρ A ε α` is the tree of such a
program: a request `q : ρ` has an answer in `A q`, and two programs may run at the same time, of which
both have to succeed.  `eval answer` runs a program in a world whose requests may fail, and
`requests answer` is the list of what it asks for.

A world that fails with a fixed error where another one answers only interrupts a program
(`eval_interrupts`). -/

namespace ArbReth.Requests

open ArbReth.Runs ArbReth.Interrupted

variable {ρ : Type} {A : ρ → Type} {ε α β γ : Type}

/-! ### Two at a time -/

/-- Both results, or the error of the one that fails first. -/
def tryJoin (leftFirst : Bool) (x : Except ε α) (y : Except ε β) : Except ε (α × β) :=
  match x, y with
  | .ok a, .ok b => .ok (a, b)
  | .error e, .ok _ => .error e
  | .ok _, .error e => .error e
  | .error e, .error e' => .error (if leftFirst then e else e')

theorem tryJoin_ok {leftFirst : Bool} {x : Except ε α} {y : Except ε β} {r : α × β} :
    tryJoin leftFirst x y = .ok r ↔ x = .ok r.1 ∧ y = .ok r.2 := by
  cases x <;> cases y <;> simp [tryJoin, Prod.ext_iff]

theorem tryJoin_interrupts {e : ε} {x x' : Except ε α} {y y' : Except ε β} (hx : Interrupts e x x')
    (hy : Interrupts e y y') (leftFirst : Bool) :
    Interrupts e (tryJoin leftFirst x y) (tryJoin leftFirst x' y') := by
  rcases hx with rfl | rfl
  · rcases hy with rfl | rfl
    · cases leftFirst <;> exact Or.inl rfl
    · cases y with
      | ok b => exact Or.inl rfl
      | error e =>
        cases leftFirst with
        | true => exact Or.inl rfl
        | false => cases x' <;> exact Or.inr rfl
  · rcases hy with rfl | rfl
    · cases x with
      | ok a => exact Or.inl rfl
      | error e =>
        cases leftFirst with
        | false => exact Or.inl rfl
        | true => cases y' <;> exact Or.inr rfl
    · exact .refl _ _

/-! ### Programs -/

inductive Asks (ρ : Type) (A : ρ → Type) (ε : Type) : Type → Type 1
  | done {α : Type} (x : Except ε α) : Asks ρ A ε α
  | ask {α : Type} (q : ρ) (k : A q → Asks ρ A ε α) : Asks ρ A ε α
  | join {α β γ : Type} (leftFirst : Bool) (x : Asks ρ A ε α) (y : Asks ρ A ε β) (k : α × β → Asks ρ A ε γ) :
      Asks ρ A ε γ

namespace Asks

def bind {α β : Type} : Asks ρ A ε α → (α → Asks ρ A ε β) → Asks ρ A ε β
  | done (.ok a), f => f a
  | done (.error e), _ => done (.error e)
  | ask q k, f => ask q fun a => (k a).bind f
  | join leftFirst x y k, f => join leftFirst x y fun p => (k p).bind f

instance : Monad (Asks ρ A ε) where
  pure a := done (.ok a)
  bind := bind

/-- Ask, and return the answer. -/
def request (q : ρ) : Asks ρ A ε (A q) := ask q fun a => done (.ok a)

def eval {α : Type} (answer : ∀ q, Except ε (A q)) : Asks ρ A ε α → Except ε α
  | done x => x
  | ask q k => answer q >>= fun a => (k a).eval answer
  | join leftFirst x y k => tryJoin leftFirst (x.eval answer) (y.eval answer) >>= fun p => (k p).eval answer

def requests {α : Type} (answer : ∀ q, Except ε (A q)) : Asks ρ A ε α → List ρ
  | done _ => []
  | ask q k =>
    q :: match answer q with
      | .ok a => (k a).requests answer
      | .error _ => []
  | join leftFirst x y k =>
    x.requests answer ++ y.requests answer ++ match tryJoin leftFirst (x.eval answer) (y.eval answer) with
      | .ok p => (k p).requests answer
      | .error _ => []

/-- The same program with other names for its requests. -/
def rename {ρ' : Type} {A : ρ' → Type} {α : Type} (f : ρ → ρ') : Asks ρ (fun q => A (f q)) ε α → Asks ρ' A ε α
  | done x => done x
  | ask q k => ask (f q) fun a => (k a).rename f
  | join leftFirst x y k => join leftFirst (x.rename f) (y.rename f) fun p => (k p).rename f

instance : LawfulMonad (Asks ρ A ε) := by
  have hassoc {α β γ : Type} (x : Asks ρ A ε α) (f : α → Asks ρ A ε β) (g : β → Asks ρ A ε γ) :
      (x.bind f).bind g = x.bind fun a => (f a).bind g := by
    induction x with
    | done x => cases x <;> rfl
    | ask q k ih => exact congrArg (ask q) (funext fun a => ih a f)
    | join leftFirst x y k _ _ ih => exact congrArg (join leftFirst x y) (funext fun p => ih p f)
  have hpure {α : Type} (x : Asks ρ A ε α) : x.bind (fun a => done (.ok a)) = x := by
    induction x with
    | done x => cases x <;> rfl
    | ask q k ih => exact congrArg (ask q) (funext ih)
    | join leftFirst x y k _ _ ih => exact congrArg (join leftFirst x y) (funext ih)
  exact LawfulMonad.mk' _ hpure (fun _ _ => rfl) hassoc

section worlds
variable {answer : ∀ q, Except ε (A q)}

@[simp] theorem eval_pure (a : α) : (pure a : Asks ρ A ε α).eval answer = .ok a := rfl

@[simp] theorem eval_done (x : Except ε α) : (done x : Asks ρ A ε α).eval answer = x := rfl

@[simp] theorem eval_request (q : ρ) : (request q : Asks ρ A ε (A q)).eval answer = answer q := bind_pure _

@[simp] theorem eval_bind (x : Asks ρ A ε α) (f : α → Asks ρ A ε β) :
    (x >>= f).eval answer = x.eval answer >>= fun a => (f a).eval answer := by
  change (x.bind f).eval answer = _
  induction x with
  | done x => cases x <;> rfl
  | ask q k ih =>
    rw [bind, eval, eval, bind_assoc]
    exact bind_congr fun a => ih a f
  | join leftFirst x y k _ _ ih =>
    rw [bind, eval, eval, bind_assoc]
    exact bind_congr fun p => ih p f

@[simp] theorem eval_mapM (f : β → Asks ρ A ε α) (bs : List β) :
    (bs.mapM f).eval answer = bs.mapM fun b => (f b).eval answer := by
  induction bs with
  | nil => rfl
  | cons b bs ih => simp only [List.mapM_cons, eval_bind, ih, eval_pure]; rfl

@[simp] theorem eval_rename {ρ' : Type} {A : ρ' → Type} {answer : ∀ q, Except ε (A q)} (f : ρ → ρ')
    (x : Asks ρ (fun q => A (f q)) ε α) : (x.rename f).eval answer = x.eval fun q => answer (f q) := by
  induction x with
  | done x => rfl
  | ask q k ih => exact bind_congr ih
  | join leftFirst x y k ihx ihy ih =>
    rw [rename, eval, eval, ihx, ihy]
    exact bind_congr ih

theorem requests_bind {x : Asks ρ A ε α} {a : α} (h : x.eval answer = .ok a) (f : α → Asks ρ A ε β) :
    (x >>= f).requests answer = x.requests answer ++ (f a).requests answer := by
  change (x.bind f).requests answer = _
  induction x with
  | done x =>
    obtain rfl : x = .ok a := h
    rfl
  | ask q k ih =>
    obtain ⟨b, hb, h⟩ := bind_ok.mp h
    simp only [bind, requests, hb, ih b h f, List.cons_append]
  | join leftFirst x y k _ _ ih =>
    obtain ⟨p, hp, h⟩ := bind_ok.mp h
    simp only [bind, requests, hp, ih p h f, List.append_assoc]

theorem eval_interrupts {e : ε} {truth : ∀ q, Except ε (A q)} (h : ∀ q, Interrupts e (answer q) (truth q))
    (x : Asks ρ A ε α) : Interrupts e (x.eval answer) (x.eval truth) := by
  induction x with
  | done x => exact .refl _ _
  | ask q k ih => exact (h q).bind fun a _ => ih a
  | join leftFirst x y k ihx ihy ih => exact (tryJoin_interrupts ihx ihy leftFirst).bind fun p _ => ih p

end worlds

end Asks

end ArbReth.Requests
