import ArbReth.Lib.Events
import ArbReth.Lib.Notify
import Mathlib

/-! # The completion of a finite run

A finite run has one supervisor, which calls `complete` once, and any number of tasks in `wait` (`FiniteCompletion` of
`arb-reth-node/src/launcher.rs`).  A waiter makes a `Notified` future and enables it before it looks at the state; the
completer stores the state before it calls `notify_waiters`.  Each of these is a step of its own, and a waiter may be
cancelled while it is not running: before its first poll, and at the await.

A waiter sleeps while the result is set only as long as the completer has its `notify_waiters` still to come
(`CompletionRun.completion_wakes_and_delivers`, `asleep_before_notify`).  A failure goes to the first waiter that looks. -/

namespace ArbReth.Node

open ArbReth.Events

variable {ι ρ : Type}

/-- `FiniteCompletionState`, for reports of type `ρ`. -/
inductive FiniteCompletionState (ρ : Type) where
  | pending
  | succeeded
  | failed (report : ρ)
  | failedAlreadyObserved
deriving DecidableEq, Repr

inductive WaitError (ρ : Type) where
  | report (report : ρ)
  /-- "finite completion failure was already observed" -/
  | alreadyObserved
deriving DecidableEq, Repr

abbrev WaitResult (ρ : Type) := Except (WaitError ρ) Unit

/-- The state that `complete` stores. -/
def FiniteCompletionState.ofResult : Except ρ Unit → FiniteCompletionState ρ
  | .ok () => .succeeded
  | .error report => .failed report

/-- What a waiter finds under the lock, and the state that it leaves. -/
def FiniteCompletionState.observe : FiniteCompletionState ρ → Option (WaitResult ρ) × FiniteCompletionState ρ
  | .pending => (none, .pending)
  | .succeeded => (some (.ok ()), .succeeded)
  | .failedAlreadyObserved => (some (.error .alreadyObserved), .failedAlreadyObserved)
  | .failed report => (some (.error (.report report)), .failedAlreadyObserved)

/-- Where a call of `wait` stands. -/
inductive WaitPhase (ρ : Type) where
  | idle
  | looping
  | created
  | enabled
  /-- At `notified.await`. -/
  | awaiting
  /-- The result has been taken and the lock released. -/
  | leaving (result : WaitResult ρ)
  | returned (result : WaitResult ρ)
  | cancelled
deriving DecidableEq

/-- Where the call of `complete` stands. -/
inductive CompletePhase (ρ : Type) where
  | before
  | stored (result : Except ρ Unit)
  | done (result : Except ρ Unit)
deriving DecidableEq

/-- The result that the completer has stored. -/
def CompletePhase.result : CompletePhase ρ → Option (Except ρ Unit)
  | .before => none
  | .stored result | .done result => some result

inductive CompletionEvent (ι ρ : Type) where
  | start (i : ι)
  | notified (i : ι)
  | enable (i : ι)
  | check (i : ι)
  | wake (i : ι)
  | leave (i : ι)
  | cancel (i : ι)
  | store (result : Except ρ Unit)
  | notifyWaiters

structure CompletionRun (ι ρ : Type) where
  state : FiniteCompletionState ρ
  notify : Notify ι
  waiters : ι → WaitPhase ρ
  completer : CompletePhase ρ

namespace CompletionRun

variable [DecidableEq ι]

/-- `FiniteCompletion::new`. -/
def new : CompletionRun ι ρ := ⟨.pending, .new, fun _ => .idle, .before⟩

def setWaiter (c : CompletionRun ι ρ) (i : ι) (phase : WaitPhase ρ) : CompletionRun ι ρ :=
  { c with waiters := Function.update c.waiters i phase }

/-- The waiter takes the lock.  A result ends the call, which drops the future. -/
def check (c : CompletionRun ι ρ) (i : ι) : CompletionRun ι ρ :=
  match c.state.observe with
  | (none, state) => { c with state }.setWaiter i .awaiting
  | (some result, state) => { c with state, notify := c.notify.drop i }.setWaiter i (.leaving result)

/-- One step of a waiter or of the completer; `none` where it cannot happen. -/
def step (c : CompletionRun ι ρ) : CompletionEvent ι ρ → Option (CompletionRun ι ρ)
  | .start i =>
    match c.waiters i with
    | .idle => some (c.setWaiter i .looping)
    | _ => none
  | .notified i =>
    match c.waiters i with
    | .looping => some ({ c with notify := c.notify.notified i }.setWaiter i .created)
    | _ => none
  | .enable i =>
    match c.waiters i with
    | .created => some ({ c with notify := c.notify.enable i }.setWaiter i .enabled)
    | _ => none
  | .check i =>
    match c.waiters i with
    | .enabled => some (c.check i)
    | _ => none
  | .wake i =>
    match c.waiters i, c.notify.futures i with
    | .awaiting, some .notified => some ({ c with notify := c.notify.drop i }.setWaiter i .looping)
    | _, _ => none
  | .leave i =>
    match c.waiters i with
    | .leaving result => some (c.setWaiter i (.returned result))
    | _ => none
  | .cancel i =>
    match c.waiters i with
    | .idle | .awaiting => some ({ c with notify := c.notify.drop i }.setWaiter i .cancelled)
    | _ => none
  | .store result =>
    match c.completer with
    | .before => some { c with state := .ofResult result, completer := .stored result }
    | _ => none
  | .notifyWaiters =>
    match c.completer with
    | .stored result => some { c with notify := c.notify.notifyWaiters, completer := .done result }
    | _ => none

def Reachable (c d : CompletionRun ι ρ) : Prop := Reaches step c d

/-- What a step can do. -/
inductive Takes (c : CompletionRun ι ρ) : CompletionRun ι ρ → Prop where
  | start (i : ι) (hi : c.waiters i = .idle) : Takes c (c.setWaiter i .looping)
  | notified (i : ι) (hi : c.waiters i = .looping) :
      Takes c ({ c with notify := c.notify.notified i }.setWaiter i .created)
  | enable (i : ι) (hi : c.waiters i = .created) :
      Takes c ({ c with notify := c.notify.enable i }.setWaiter i .enabled)
  | check (i : ι) (hi : c.waiters i = .enabled) : Takes c (c.check i)
  | wake (i : ι) (hi : c.waiters i = .awaiting) (hfuture : c.notify.futures i = some .notified) :
      Takes c ({ c with notify := c.notify.drop i }.setWaiter i .looping)
  | leave (i : ι) (result : WaitResult ρ) (hi : c.waiters i = .leaving result) :
      Takes c (c.setWaiter i (.returned result))
  | cancel (i : ι) (hi : c.waiters i = .idle ∨ c.waiters i = .awaiting) :
      Takes c ({ c with notify := c.notify.drop i }.setWaiter i .cancelled)
  | store (result : Except ρ Unit) (hbefore : c.completer = .before) :
      Takes c { c with state := .ofResult result, completer := .stored result }
  | notifyWaiters (result : Except ρ Unit) (hstored : c.completer = .stored result) :
      Takes c { c with notify := c.notify.notifyWaiters, completer := .done result }

theorem takes_of_step {c d : CompletionRun ι ρ} {event : CompletionEvent ι ρ} (h : c.step event = some d) : Takes c d := by
  cases event with
  | start i =>
    simp only [step] at h
    split at h
    · cases h
      exact .start i ‹_›
    · cases h
  | notified i =>
    simp only [step] at h
    split at h
    · cases h
      exact .notified i ‹_›
    · cases h
  | enable i =>
    simp only [step] at h
    split at h
    · cases h
      exact .enable i ‹_›
    · cases h
  | check i =>
    simp only [step] at h
    split at h
    · cases h
      exact .check i ‹_›
    · cases h
  | wake i =>
    simp only [step] at h
    split at h
    · cases h
      exact .wake i ‹_› ‹_›
    · cases h
  | leave i =>
    simp only [step] at h
    split at h
    · cases h
      exact .leave i _ ‹_›
    · cases h
  | cancel i =>
    simp only [step] at h
    split at h
    · cases h
      exact .cancel i (.inl ‹_›)
    · cases h
      exact .cancel i (.inr ‹_›)
    · cases h
  | store result =>
    simp only [step] at h
    split at h
    · cases h
      exact .store result ‹_›
    · cases h
  | notifyWaiters =>
    simp only [step] at h
    split at h
    · cases h
      exact .notifyWaiters _ ‹_›
    · cases h

end CompletionRun

/-! ### Who has the result -/

/-- The result that a call has taken. -/
def WaitPhase.result : WaitPhase ρ → Option (WaitResult ρ)
  | .leaving result | .returned result => some result
  | _ => none

/-- The results that the calls have taken, against the one that is stored: all share a success, one has the report of a
failure. -/
def Delivered (stored : Option (Except ρ Unit)) (state : FiniteCompletionState ρ) (results : ι → Option (WaitResult ρ)) :
    Prop :=
  match stored with
  | none => state = .pending ∧ ∀ i, results i = none
  | some (.ok ()) => state = .succeeded ∧ ∀ i result, results i = some result → result = .ok ()
  | some (.error report) =>
    (state = .failed report ∧ ∀ i, results i = none) ∨
      state = .failedAlreadyObserved ∧ ∃ i, results i = some (.error (.report report)) ∧
        ∀ j result, j ≠ i → results j = some result → result = .error .alreadyObserved

namespace Delivered

variable {stored : Option (Except ρ Unit)} {state : FiniteCompletionState ρ} {results : ι → Option (WaitResult ρ)}

theorem store (h : Delivered none state results) (result : Except ρ Unit) :
    Delivered (some result) (.ofResult result) results := by
  cases result with
  | ok u => exact ⟨rfl, fun i r hr => by rw [h.2 i] at hr; cases hr⟩
  | error report => exact .inl ⟨rfl, h.2⟩

theorem state_ne_pending {result : Except ρ Unit} (h : Delivered (some result) state results) : state ≠ .pending := by
  cases result with
  | ok u =>
    rw [h.1]
    exact fun heq => by cases heq
  | error report =>
    rcases h with ⟨rfl, -⟩ | ⟨rfl, -⟩ <;> exact fun heq => by cases heq

theorem observe [DecidableEq ι] (h : Delivered stored state results) {i : ι} {result : WaitResult ρ} (hi : results i = none)
    (hfound : state.observe.1 = some result) :
    Delivered stored state.observe.2 (Function.update results i (some result)) := by
  cases stored with
  | none =>
    rw [h.1] at hfound
    cases hfound
  | some outcome =>
    cases outcome with
    | ok u =>
      obtain ⟨rfl, hresults⟩ := h
      cases hfound
      refine ⟨rfl, fun j r hr => ?_⟩
      by_cases hj : j = i
      · rw [hj, Function.update_self] at hr
        exact (Option.some.inj hr).symm
      · rw [Function.update_of_ne hj] at hr
        exact hresults j r hr
    | error report =>
      right
      rcases h with ⟨rfl, hnone⟩ | ⟨rfl, holder, hholder, hothers⟩
      · cases hfound
        refine ⟨rfl, i, Function.update_self _ _ _, fun j r hj hr => ?_⟩
        rw [Function.update_of_ne hj, hnone j] at hr
        cases hr
      · cases hfound
        have hne : holder ≠ i := by
          rintro rfl
          rw [hi] at hholder
          cases hholder
        refine ⟨rfl, holder, by rw [Function.update_of_ne hne, hholder], fun j r hj hr => ?_⟩
        by_cases hji : j = i
        · rw [hji, Function.update_self] at hr
          exact (Option.some.inj hr).symm
        · rw [Function.update_of_ne hji] at hr
          exact hothers j r hj hr

end Delivered

/-! ### What holds all along -/

namespace CompletionRun

def results (c : CompletionRun ι ρ) (i : ι) : Option (WaitResult ρ) := (c.waiters i).result

section results
variable {c : CompletionRun ι ρ} {i : ι} {result : WaitResult ρ}

theorem results_of_returned (h : c.waiters i = .returned result) : c.results i = some result := by
  rw [results, h]
  rfl

/-- Who has taken a result is about to return it or has returned it. -/
theorem leaving_or_returned (h : c.results i = some result) :
    c.waiters i = .leaving result ∨ c.waiters i = .returned result := by
  unfold results at h
  cases hi : c.waiters i with
  | leaving r =>
    rw [hi] at h
    exact .inl (congrArg _ (Option.some.inj h))
  | returned r =>
    rw [hi] at h
    exact .inr (congrArg _ (Option.some.inj h))
  | idle => rw [hi] at h; cases h
  | looping => rw [hi] at h; cases h
  | created => rw [hi] at h; cases h
  | enabled => rw [hi] at h; cases h
  | awaiting => rw [hi] at h; cases h
  | cancelled => rw [hi] at h; cases h

end results

structure Inv (c : CompletionRun ι ρ) : Prop where
  created : ∀ i, c.waiters i = .created → ∃ calls, c.notify.futures i = some (.created calls)
  enabled : ∀ i, c.waiters i = .enabled ∨ c.waiters i = .awaiting →
    c.notify.futures i = some .enabled ∨ c.notify.futures i = some .notified
  woken : ∀ result, c.completer = .done result → ∀ i, c.waiters i = .awaiting → c.notify.futures i = some .notified
  delivered : Delivered c.completer.result c.state c.results

theorem Inv.new [DecidableEq ι] : Inv (new : CompletionRun ι ρ) where
  created i hi := by cases hi
  enabled i hi := by rcases hi with hi | hi <;> cases hi
  woken result hdone := by cases hdone
  delivered := ⟨rfl, fun _ => rfl⟩

/-- A waiter that sees a pending state is ahead of the completer. -/
theorem Inv.before_of_pending {c : CompletionRun ι ρ} (h : Inv c) (hpending : c.state = .pending) : c.completer = .before := by
  have hdelivered := h.delivered
  cases hcompleter : c.completer with
  | before => rfl
  | stored result =>
    rw [hcompleter] at hdelivered
    exact absurd hpending hdelivered.state_ne_pending
  | done result =>
    rw [hcompleter] at hdelivered
    exact absurd hpending hdelivered.state_ne_pending

variable [DecidableEq ι] {c d : CompletionRun ι ρ} {i : ι}

theorem results_setWaiter (phase : WaitPhase ρ) :
    (c.setWaiter i phase).results = Function.update c.results i phase.result :=
  Function.comp_update WaitPhase.result c.waiters i phase

/-- A step of one waiter, which holds a future as its new phase asks for. -/
theorem Inv.waiter (h : Inv c) {n : Notify ι} {state : FiniteCompletionState ρ} {phase : WaitPhase ρ}
    (hothers : ∀ j, j ≠ i → n.futures j = c.notify.futures j)
    (hcreated : phase = .created → ∃ calls, n.futures i = some (.created calls))
    (henabled : phase = .enabled ∨ phase = .awaiting → n.futures i = some .enabled ∨ n.futures i = some .notified)
    (hawaiting : phase = .awaiting → c.completer = .before)
    (hdelivered : Delivered c.completer.result state (Function.update c.results i phase.result)) :
    Inv ({ c with state, notify := n }.setWaiter i phase) := by
  have hwaiters (j : ι) : ({ c with state, notify := n }.setWaiter i phase).waiters j =
      if j = i then phase else c.waiters j := by
    by_cases hj : j = i
    · rw [if_pos hj, hj]
      exact Function.update_self _ _ _
    · rw [if_neg hj]
      exact Function.update_of_ne hj _ _
  refine ⟨fun j hj => ?_, fun j hj => ?_, fun result hdone j hj => ?_, ?_⟩
  · rw [hwaiters] at hj
    split at hj
    · rename_i heq
      exact heq ▸ hcreated hj
    · rename_i hne
      obtain ⟨calls, hcalls⟩ := h.created j hj
      exact ⟨calls, (hothers j hne).trans hcalls⟩
  · rw [hwaiters] at hj
    split at hj
    · rename_i heq
      exact heq ▸ henabled hj
    · rename_i hne
      exact (hothers j hne) ▸ h.enabled j hj
  · rw [hwaiters] at hj
    split at hj
    · have hbefore := hawaiting hj
      have hdone' : c.completer = .done result := hdone
      rw [hbefore] at hdone'
      cases hdone'
    · rename_i hne
      exact (hothers j hne).trans (h.woken result hdone j hj)
  · rw [results_setWaiter]
    exact hdelivered

theorem Inv.move (h : Inv c) {n : Notify ι} {phase : WaitPhase ρ} (hothers : ∀ j, j ≠ i → n.futures j = c.notify.futures j)
    (hcreated : phase = .created → ∃ calls, n.futures i = some (.created calls))
    (henabled : phase = .enabled ∨ phase = .awaiting → n.futures i = some .enabled ∨ n.futures i = some .notified)
    (hawaiting : phase = .awaiting → c.completer = .before) (hresult : phase.result = c.results i) :
    Inv ({ c with notify := n }.setWaiter i phase) := by
  refine h.waiter hothers hcreated henabled hawaiting ?_
  rw [hresult, Function.update_eq_self]
  exact h.delivered

theorem Inv.check (h : Inv c) (hi : c.waiters i = .enabled) : Inv (c.check i) := by
  have hnone : c.results i = none := by rw [results, hi]; rfl
  unfold CompletionRun.check
  split
  · rename_i state hobserve
    have hpending : c.state = .pending ∧ state = .pending := by
      cases hstate : c.state with
      | pending =>
        rw [hstate] at hobserve
        exact ⟨rfl, (congrArg Prod.snd hobserve).symm⟩
      | succeeded => rw [hstate] at hobserve; cases hobserve
      | failed report => rw [hstate] at hobserve; cases hobserve
      | failedAlreadyObserved => rw [hstate] at hobserve; cases hobserve
    refine h.waiter (fun _ _ => rfl) (fun heq => by cases heq) (fun _ => h.enabled i (.inl hi))
      (fun _ => h.before_of_pending hpending.1) ?_
    rw [show WaitPhase.result (.awaiting : WaitPhase ρ) = c.results i by rw [hnone]; rfl, Function.update_eq_self,
      hpending.2, ← hpending.1]
    exact h.delivered
  · rename_i result state hobserve
    refine h.waiter (fun j hj => Notify.futures_drop_of_ne hj) (fun heq => by cases heq)
      (fun heq => by rcases heq with heq | heq <;> cases heq) (fun heq => by cases heq) ?_
    have hdelivered := h.delivered.observe hnone (congrArg Prod.fst hobserve)
    rwa [show c.state.observe.2 = state from congrArg Prod.snd hobserve] at hdelivered

theorem Inv.step (h : Inv c) (htakes : Takes c d) : Inv d := by
  cases htakes with
  | start i hi =>
    exact h.move (fun _ _ => rfl) (fun heq => by cases heq) (fun heq => by rcases heq with heq | heq <;> cases heq)
      (fun heq => by cases heq) (by rw [results, hi]; rfl)
  | notified i hi =>
    exact h.move (fun j hj => Notify.futures_notified_of_ne hj) (fun _ => ⟨_, Notify.futures_notified_self⟩)
      (fun heq => by rcases heq with heq | heq <;> cases heq) (fun heq => by cases heq) (by rw [results, hi]; rfl)
  | enable i hi =>
    obtain ⟨calls, hcalls⟩ := h.created i hi
    exact h.move (fun j hj => Notify.futures_enable_of_ne hj) (fun heq => by cases heq)
      (fun _ => Notify.futures_enable_self hcalls) (fun heq => by cases heq) (by rw [results, hi]; rfl)
  | check i hi => exact h.check hi
  | wake i hi hfuture =>
    exact h.move (fun j hj => Notify.futures_drop_of_ne hj) (fun heq => by cases heq)
      (fun heq => by rcases heq with heq | heq <;> cases heq) (fun heq => by cases heq) (by rw [results, hi]; rfl)
  | leave i result hi =>
    exact h.move (fun _ _ => rfl) (fun heq => by cases heq) (fun heq => by rcases heq with heq | heq <;> cases heq)
      (fun heq => by cases heq) (by rw [results, hi]; rfl)
  | cancel i hi =>
    refine h.move (fun j hj => Notify.futures_drop_of_ne hj) (fun heq => by cases heq)
      (fun heq => by rcases heq with heq | heq <;> cases heq) (fun heq => by cases heq) ?_
    rcases hi with hi | hi <;> rw [results, hi] <;> rfl
  | store result hbefore =>
    refine ⟨h.created, h.enabled, fun _ hdone => absurd hdone (by simp), ?_⟩
    have hdelivered := h.delivered
    rw [hbefore] at hdelivered
    exact hdelivered.store result
  | notifyWaiters result hstored =>
    refine ⟨fun i hi => ?_, fun i hi => .inr (Notify.enabled_notifyWaiters (h.enabled i hi)),
      fun _ _ i hi => Notify.enabled_notifyWaiters (h.enabled i (.inr hi)), ?_⟩
    · obtain ⟨calls, hcalls⟩ := h.created i hi
      exact ⟨calls, Notify.created_notifyWaiters hcalls⟩
    · have hdelivered := h.delivered
      rw [hstored] at hdelivered
      exact hdelivered

theorem Inv.reachable (h : Reachable (CompletionRun.new : CompletionRun ι ρ) c) : Inv c :=
  Reaches.invariant (fun _ _ _ hinv hstep => hinv.step (takes_of_step hstep)) Inv.new h

/-- **No wake-up is lost, and a failure is delivered once**: at most one wait has the report and all others the
already-observed error. -/
theorem completion_wakes_and_delivers (c : CompletionRun ι ρ) (hc : Reachable new c) :
    (∀ result, c.completer = .done result → ∀ i, c.waiters i = .awaiting → c.notify.futures i = some .notified) ∧
      (∀ i, c.waiters i = .awaiting → c.notify.futures i ≠ some .notified →
        c.state = .pending ∨ ∃ result, c.completer = .stored result) ∧
      (c.completer = .before → ∀ i result, c.waiters i ≠ .returned result) ∧
      (c.completer.result = some (.ok ()) → ∀ i result, c.waiters i = .returned result → result = .ok ()) ∧
      ∀ report, c.completer.result = some (.error report) →
        (∀ i j, c.waiters i = .returned (.error (.report report)) → c.waiters j = .returned (.error (.report report)) →
          i = j) ∧ (∀ i result, c.waiters i = .returned result →
          result = .error (.report report) ∨ result = .error .alreadyObserved) ∧
        ((∃ i result, c.waiters i = .returned result) →
          ∃ i, c.waiters i = .leaving (.error (.report report)) ∨ c.waiters i = .returned (.error (.report report))) := by
  have h := Inv.reachable hc
  have hdelivered := h.delivered
  refine ⟨h.woken, fun i hi hasleep => ?_, fun hbefore i result hi => ?_, fun hok i result hi => ?_,
    fun report hreport => ?_⟩
  · cases hcompleter : c.completer with
    | before =>
      rw [hcompleter] at hdelivered
      exact .inl hdelivered.1
    | stored result => exact .inr ⟨result, rfl⟩
    | done result => exact absurd (h.woken result hcompleter i hi) hasleep
  · rw [hbefore] at hdelivered
    have := hdelivered.2 i
    rw [results_of_returned hi] at this
    cases this
  · rw [hok] at hdelivered
    exact hdelivered.2 i result (results_of_returned hi)
  · rw [hreport] at hdelivered
    rcases hdelivered with ⟨-, hnone⟩ | ⟨-, holder, hholder, hothers⟩
    · have hreturned (i : ι) (result : WaitResult ρ) : c.waiters i ≠ .returned result := by
        intro hi
        have := hnone i
        rw [results_of_returned hi] at this
        cases this
      exact ⟨fun i _ hi => absurd hi (hreturned i _), fun i result hi => absurd hi (hreturned i result),
        fun ⟨i, result, hi⟩ => absurd hi (hreturned i result)⟩
    · have hreported (i : ι) (hi : c.waiters i = .returned (.error (.report report))) : i = holder := by
        by_contra hne
        cases hothers i _ hne (results_of_returned hi)
      refine ⟨fun i j hi hj => (hreported i hi).trans (hreported j hj).symm, fun i result hi => ?_,
        fun _ => ⟨holder, leaving_or_returned hholder⟩⟩
      by_cases hne : i = holder
      · rw [hne] at hi
        have heq := results_of_returned hi
        rw [hholder] at heq
        exact .inl (Option.some.inj heq).symm
      · exact .inr (hothers i result hne (results_of_returned hi))

def sampleEvents : List (CompletionEvent Bool ℕ) :=
  [.start true, .notified true, .enable true, .check true, .start false, .notified false, .enable false, .check false,
    .store (.error 7), .notifyWaiters, .wake false, .notified false, .enable false, .check false, .wake true,
    .notified true, .enable true, .check true, .leave true, .leave false]

theorem completion_wakes_and_delivers_sample :
    ∃ c : CompletionRun Bool ℕ, Reachable new c ∧ c.waiters true = .returned (.error .alreadyObserved) ∧
      ∃ i, c.waiters i = .leaving (.error (.report 7)) ∨ c.waiters i = .returned (.error (.report 7)) := by
  obtain ⟨c, hc, hview⟩ := Option.map_eq_some_iff.mp
    (show (steps step new sampleEvents).map (fun c => (c.waiters true, c.completer.result)) =
      some (.returned (.error .alreadyObserved), some (.error 7)) by rfl)
  obtain ⟨htrue, hresult⟩ := Prod.mk.inj hview
  exact ⟨c, .of_steps _ hc, htrue,
    ((completion_wakes_and_delivers c (.of_steps _ hc)).2.2.2.2 7 hresult).2.2 ⟨true, _, htrue⟩⟩

/-- The completer has stored a success and has not notified yet: the waiter sleeps. -/
theorem asleep_before_notify :
    ∃ c : CompletionRun Unit ℕ, Reachable new c ∧ c.state = .succeeded ∧ c.waiters () = .awaiting ∧
      c.notify.futures () = some .enabled := by
  obtain ⟨c, hc, hview⟩ := Option.map_eq_some_iff.mp
    (show (steps step new ([.start (), .notified (), .enable (), .check (), .store (.ok ())] :
        List (CompletionEvent Unit ℕ))).map (fun c => (c.state, c.waiters (), c.notify.futures ())) =
      some (.succeeded, .awaiting, some .enabled) by rfl)
  obtain ⟨hstate, hrest⟩ := Prod.mk.inj hview
  obtain ⟨hwaiter, hfuture⟩ := Prod.mk.inj hrest
  exact ⟨c, .of_steps _ hc, hstate, hwaiter, hfuture⟩

end CompletionRun

end ArbReth.Node
