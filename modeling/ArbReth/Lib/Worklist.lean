import ArbReth.Lib.Loop

/-! # Worklists

A list of root tasks is worked off in order.  Executing a task may fail, changes a state and
schedules further tasks; a scheduled task waits in a first-in-first-out queue, and the queue is
emptied before the next root is taken.

* `step`, `Work`: the machine, which records what it visits.
* `Ordered`: the order of visits described without a queue.  Each root is followed by its cascade,
  level by level (`Cascade`): first what it scheduled, then what those tasks scheduled, and so on;
  within a level in the order of scheduling (`Sweep`).
* The machine ends exactly with the visits of `Ordered` (`Ordered.iterate_done`,
  `ordered_of_iterate_done`), it ends as soon as only finitely many tasks get scheduled
  (`ends_of_bounded`), and it visits every root and every scheduled task once (`Ordered.perm`). -/

namespace ArbReth.Worklist

open ArbReth.Loop

variable {ε σ α : Type}

/-- One execution: the state it started from, the task and what the task scheduled. -/
structure Visit (σ α : Type) where
  before : σ
  task : α
  children : List α

/-- The machine: the state, the queue, the roots still to come and the visits so far. -/
structure Work (σ α : Type) where
  state : σ
  queue : List α
  roots : List α
  visited : List (Visit σ α)

def Work.start (s : σ) (roots : List α) : Work σ α := ⟨s, [], roots, []⟩

/-- The next task: the head of the queue, and the next root once the queue is empty. -/
def Work.pop (w : Work σ α) : Option (α × Work σ α) :=
  match w.queue with
  | a :: queue => some (a, { w with queue })
  | [] =>
    match w.roots with
    | r :: roots => some (r, { w with roots })
    | [] => none

/-- Everything scheduled so far. -/
def Work.scheduled (w : Work σ α) : List α := w.visited.flatMap (·.children)

variable (exec : σ → α → Except ε (σ × List α))

def step (w : Work σ α) : Except ε (Option (Work σ α)) :=
  match w.pop with
  | none => .ok none
  | some (a, w') => do
    let (state, children) ← exec w'.state a
    .ok (some ⟨state, w'.queue ++ children, w'.roots, w'.visited ++ [⟨w'.state, a, children⟩]⟩)

variable {exec} {s s₁ s₂ : σ} {a r : α} {children queue roots level : List α}
  {vs ws visited : List (Visit σ α)}

theorem step_queue (h : exec s a = .ok (s₁, children)) : step exec ⟨s, a :: queue, roots, visited⟩ =
      .ok (some ⟨s₁, queue ++ children, roots, visited ++ [⟨s, a, children⟩]⟩) := by
  simp [step, Work.pop, h, bind, Except.bind]

theorem step_queue_error {e : ε} (h : exec s a = .error e) : step exec ⟨s, a :: queue, roots, visited⟩ = .error e := by
  simp [step, Work.pop, h, bind, Except.bind]

/-- With an empty queue the next root is treated as if it had been queued. -/
theorem step_root : step exec ⟨s, [], r :: roots, visited⟩ = step exec ⟨s, [r], roots, visited⟩ := rfl

/-! ### The order of visits -/

/-- One level: its tasks in order, and everything they schedule. -/
inductive Sweep (exec : σ → α → Except ε (σ × List α)) :
    σ → List α → List (Visit σ α) → σ → List α → Prop where
  | nil (s : σ) : Sweep exec s [] [] s []
  | cons {s s₁ s₂ : σ} {a : α} {level children next : List α} {vs : List (Visit σ α)} :
      exec s a = .ok (s₁, children) → Sweep exec s₁ level vs s₂ next →
      Sweep exec s (a :: level) (⟨s, a, children⟩ :: vs) s₂ (children ++ next)

/-- Level after level, until a level schedules nothing. -/
inductive Cascade (exec : σ → α → Except ε (σ × List α)) :
    σ → List α → List (Visit σ α) → σ → Prop where
  | nil (s : σ) : Cascade exec s [] [] s
  | level {s s₁ s₂ : σ} {a : α} {level next : List α} {vs ws : List (Visit σ α)} :
      Sweep exec s (a :: level) vs s₁ next → Cascade exec s₁ next ws s₂ →
      Cascade exec s (a :: level) (vs ++ ws) s₂

/-- Root after root, each followed by its cascade. -/
inductive Ordered (exec : σ → α → Except ε (σ × List α)) :
    σ → List α → List (Visit σ α) → σ → Prop where
  | nil (s : σ) : Ordered exec s [] [] s
  | cons {s s₁ s₂ : σ} {r : α} {roots : List α} {vs ws : List (Visit σ α)} :
      Cascade exec s [r] vs s₁ → Ordered exec s₁ roots ws s₂ →
      Ordered exec s (r :: roots) (vs ++ ws) s₂

/-- The same visits as a queue makes them: what a task schedules goes to the back. -/
inductive Fifo (exec : σ → α → Except ε (σ × List α)) :
    σ → List α → List (Visit σ α) → σ → Prop where
  | nil (s : σ) : Fifo exec s [] [] s
  | cons {s s₁ s₂ : σ} {a : α} {queue children : List α} {vs : List (Visit σ α)} :
      exec s a = .ok (s₁, children) → Fifo exec s₁ (queue ++ children) vs s₂ →
      Fifo exec s (a :: queue) (⟨s, a, children⟩ :: vs) s₂

/-- The front of the queue is swept as one level; what it schedules stands behind the rest. -/
theorem Sweep.fifo {next rest : List α} (h : Sweep exec s level vs s₁ next)
    (hrest : Fifo exec s₁ (rest ++ next) ws s₂) : Fifo exec s (level ++ rest) (vs ++ ws) s₂ := by
  induction h generalizing rest with
  | nil s =>
    rw [List.append_nil] at hrest
    exact hrest
  | cons hexec _ ih =>
    rw [List.cons_append, List.cons_append]
    refine Fifo.cons hexec ?_
    rw [List.append_assoc]
    refine ih ?_
    rw [List.append_assoc]
    exact hrest

theorem Fifo.sweep {rest : List α} (h : Fifo exec s (level ++ rest) vs s₂) :
    ∃ vs₁ s₁ next vs₂, Sweep exec s level vs₁ s₁ next ∧ Fifo exec s₁ (rest ++ next) vs₂ s₂ ∧ vs = vs₁ ++ vs₂ := by
  induction level generalizing s rest vs with
  | nil => exact ⟨[], s, [], vs, .nil s, by rwa [List.append_nil], rfl⟩
  | cons a level ih =>
    rw [List.cons_append] at h
    cases h with
    | cons hexec htail =>
      rw [List.append_assoc] at htail
      obtain ⟨vs₁, s₁, next, vs₂, hsweep, hfifo, rfl⟩ := ih htail
      refine ⟨_, s₁, _, vs₂, .cons hexec hsweep, ?_, rfl⟩
      rwa [List.append_assoc] at hfifo

/-- A queue visits level by level. -/
theorem cascade_iff_fifo : Cascade exec s level vs s₂ ↔ Fifo exec s level vs s₂ := by
  constructor
  · intro h
    induction h with
    | nil s => exact .nil s
    | @level s s₁ s₂ a level next vs ws hsweep _ ih =>
      have hqueue : Fifo exec s (a :: level ++ []) (vs ++ ws) s₂ := hsweep.fifo ih
      rwa [List.append_nil] at hqueue
  · -- each level visits at least one task, so the number of visits goes down
    intro h
    induction hn : vs.length using Nat.strong_induction_on generalizing s level vs with
    | _ n ih =>
      cases level with
      | nil =>
        cases h
        exact .nil _
      | cons a level =>
        rw [← List.append_nil (a :: level)] at h
        obtain ⟨vs₁, s₁, next, vs₂, hsweep, hfifo, rfl⟩ := h.sweep
        refine .level hsweep (ih vs₂.length ?_ hfifo rfl)
        cases hsweep with
        | cons _ _ =>
          simp only [List.length_append, List.length_cons] at hn
          omega

/-! ### The machine makes these visits -/

theorem Fifo.iterate_running (h : Fifo exec s queue vs s₁) : iterate (step exec) vs.length ⟨s, queue, roots, visited⟩ =
      .running ⟨s₁, [], roots, visited ++ vs⟩ := by
  induction h generalizing visited with
  | nil s => simp
  | cons hexec _ ih =>
    rw [List.length_cons, iterate_some (step_queue hexec), ih]
    simp

theorem Ordered.iterate_running (rest : List α) (visited : List (Visit σ α)) (h : Ordered exec s roots vs s₁) :
    iterate (step exec) vs.length ⟨s, [], roots ++ rest, visited⟩ = .running ⟨s₁, [], rest, visited ++ vs⟩ := by
  induction h generalizing visited with
  | nil s => simp
  | @cons s s₁ s₂ r roots vs ws hcascade _ ih =>
    have hfifo := cascade_iff_fifo.mp hcascade
    have hroot : iterate (step exec) vs.length ⟨s, [], r :: (roots ++ rest), visited⟩ =
        .running ⟨s₁, [], roots ++ rest, visited ++ vs⟩ := by
      rw [← hfifo.iterate_running]
      cases hfifo with
      | cons hexec _ => exact iterate_congr step_root ⟨_, step_queue hexec⟩
    rw [List.length_append, List.cons_append, iterate_add hroot, ih, List.append_assoc]

variable {n : ℕ}

/-- The machine ends with the ordered visits, from some number of rounds on. -/
theorem Ordered.iterate_done (h : Ordered exec s roots vs s₁) (hn : vs.length < n) :
    iterate (step exec) n (Work.start s roots) = .done ⟨s₁, [], [], vs⟩ := by
  have hrun := h.iterate_running [] []
  rw [List.append_nil, List.nil_append] at hrun
  obtain ⟨k, rfl⟩ : ∃ k, n = vs.length + (k + 1) := ⟨n - vs.length - 1, by omega⟩
  unfold Work.start
  rw [iterate_add hrun]
  exact iterate_none rfl

/-- The machine fails if a root fails after the ordered visits of the roots before it. -/
theorem Ordered.iterate_failed {e : ε} (h : Ordered exec s roots vs s₁) (hr : exec s₁ r = .error e)
    (rest : List α) (hn : vs.length < n) : iterate (step exec) n (Work.start s (roots ++ r :: rest)) = .failed e := by
  have hrun := h.iterate_running (r :: rest) []
  obtain ⟨k, rfl⟩ : ∃ k, n = vs.length + (k + 1) := ⟨n - vs.length - 1, by omega⟩
  unfold Work.start
  rw [iterate_add hrun]
  exact iterate_error (step_queue_error hr)

theorem ordered_of_iterate {w : Work σ α} (h : iterate (step exec) n ⟨s, queue, roots, visited⟩ = .done w) :
    ∃ vs s₁ ws, Fifo exec s queue vs s₁ ∧ Ordered exec s₁ roots ws w.state ∧ w.visited = visited ++ (vs ++ ws) := by
  induction n generalizing s queue roots visited with
  | zero => cases h
  | succ n ih =>
    cases queue with
    | cons a queue =>
      cases hexec : exec s a with
      | error e =>
        rw [iterate_error (step_queue_error hexec)] at h
        cases h
      | ok out =>
        rw [iterate_some (step_queue hexec)] at h
        obtain ⟨vs, s₁, ws, hfifo, hord, hvis⟩ := ih h
        exact ⟨_, s₁, ws, .cons hexec hfifo, hord, by simp [hvis]⟩
    | nil =>
      cases roots with
      | nil =>
        rw [iterate_none rfl] at h
        cases h
        exact ⟨[], s, [], .nil s, .nil s, by simp⟩
      | cons r roots =>
        cases hexec : exec s r with
        | error e =>
          rw [iterate_error (step_root.trans (step_queue_error hexec))] at h
          cases h
        | ok out =>
          rw [iterate_some (step_root.trans (step_queue hexec))] at h
          obtain ⟨vs, s₁, ws, hfifo, hord, hvis⟩ := ih h
          refine ⟨[], s, _, .nil s, .cons (cascade_iff_fifo.mpr (.cons hexec hfifo)) hord, ?_⟩
          simp [hvis]

/-- When the machine ends, its visits are the ordered ones. -/
theorem ordered_of_iterate_done {w : Work σ α} (h : iterate (step exec) n (Work.start s roots) = .done w) :
    Ordered exec s roots w.visited w.state := by
  obtain ⟨vs, s₁, ws, hfifo, hord, hvis⟩ := ordered_of_iterate h
  cases hfifo
  rw [hvis]
  exact hord

/-! ### Termination -/

/-- Each round visits one task, and what has been visited or still waits is what there was at the
start and what has been scheduled since. -/
theorem iterate_count {w w' : Work σ α} (h : iterate (step exec) n w = .running w') :
    w'.visited.length = w.visited.length + n ∧ n + w'.queue.length + w'.roots.length + w.scheduled.length =
        w.queue.length + w.roots.length + w'.scheduled.length := by
  induction n generalizing w with
  | zero =>
    cases h
    omega
  | succ n ih =>
    cases hstep : step exec w with
    | error e =>
      rw [iterate_error hstep] at h
      cases h
    | ok o =>
      cases o with
      | none =>
        rw [iterate_none hstep] at h
        cases h
      | some w₁ =>
        rw [iterate_some hstep] at h
        obtain ⟨hlen, hcount⟩ := ih h
        -- one round moves a task from the front to the visits
        have hone : w₁.visited.length = w.visited.length + 1 ∧
            1 + w₁.queue.length + w₁.roots.length + w.scheduled.length =
              w.queue.length + w.roots.length + w₁.scheduled.length := by
          obtain ⟨s, queue, roots, visited⟩ := w
          cases queue with
          | cons a queue =>
            cases hexec : exec s a with
            | error e =>
              rw [step_queue_error hexec] at hstep
              cases hstep
            | ok out =>
              rw [step_queue hexec] at hstep
              cases hstep
              simp [Work.scheduled]
              omega
          | nil =>
            cases roots with
            | nil => cases hstep
            | cons r roots =>
              cases hexec : exec s r with
              | error e =>
                rw [step_root, step_queue_error hexec] at hstep
                cases hstep
              | ok out =>
                rw [step_root, step_queue hexec] at hstep
                cases hstep
                simp [Work.scheduled]
                omega
        omega

/-- If at most `N` tasks ever get scheduled, the machine ends within that many extra rounds. -/
theorem ends_of_bounded {N : ℕ} (hN : ∀ n w, iterate (step exec) n (Work.start s roots) = .running w →
      w.scheduled.length ≤ N) : (∃ w, iterate (step exec) (roots.length + N + 1) (Work.start s roots) = .done w) ∨
      ∃ e, iterate (step exec) (roots.length + N + 1) (Work.start s roots) = .failed e := by
  cases h : iterate (step exec) (roots.length + N + 1) (Work.start s roots) with
  | done w => exact Or.inl ⟨w, rfl⟩
  | failed e => exact Or.inr ⟨e, rfl⟩
  | running w =>
    have hle := hN _ w h
    obtain ⟨-, hcount⟩ := iterate_count h
    simp only [Work.start, Work.scheduled, List.length_nil, List.flatMap_nil] at hcount hle
    omega

/-! ### What the visits are -/

/-- Consecutive visits: each starts from the state the one before left. -/
inductive Chain (exec : σ → α → Except ε (σ × List α)) : σ → List (Visit σ α) → σ → Prop where
  | nil (s : σ) : Chain exec s [] s
  | cons {s s₁ s₂ : σ} {a : α} {children : List α} {vs : List (Visit σ α)} :
      exec s a = .ok (s₁, children) → Chain exec s₁ vs s₂ →
      Chain exec s (⟨s, a, children⟩ :: vs) s₂

theorem Chain.append (h₁ : Chain exec s vs s₁) (h₂ : Chain exec s₁ ws s₂) : Chain exec s (vs ++ ws) s₂ := by
  induction h₁ with
  | nil s => exact h₂
  | cons hexec _ ih => exact .cons hexec (ih h₂)

theorem Fifo.chain (h : Fifo exec s queue vs s₁) : Chain exec s vs s₁ := by
  induction h with
  | nil s => exact .nil s
  | cons hexec _ ih => exact .cons hexec ih

theorem Ordered.chain (h : Ordered exec s roots vs s₁) : Chain exec s vs s₁ := by
  induction h with
  | nil s => exact .nil s
  | cons hcascade _ ih => exact (cascade_iff_fifo.mp hcascade).chain.append ih

/-- The invariant rule along the visits; `P` speaks of the visits made and the state reached. -/
theorem Chain.induction (P : List (Visit σ α) → σ → Prop) (h : Chain exec s vs s₁) (h0 : P [] s)
    (hstep : ∀ ws m m' a children, P ws m → exec m a = .ok (m', children) →
      P (ws ++ [⟨m, a, children⟩]) m') : P vs s₁ := by
  have key : ∀ ws, P ws s → P (ws ++ vs) s₁ := by
    clear h0
    induction h with
    | nil s =>
      intro ws hws
      rwa [List.append_nil]
    | cons hexec _ ih =>
      intro ws hws
      rw [← List.singleton_append, ← List.append_assoc]
      exact ih _ (hstep _ _ _ _ _ hws hexec)
  exact key [] h0

theorem Chain.exec_of_mem {v : Visit σ α} (h : Chain exec s vs s₁) (hv : v ∈ vs) :
    ∃ s', exec v.before v.task = .ok (s', v.children) := by
  induction h with
  | nil s => cases hv
  | cons hexec _ ih =>
    rcases List.mem_cons.mp hv with rfl | hv
    · exact ⟨_, hexec⟩
    · exact ih hv

theorem Fifo.perm (h : Fifo exec s queue vs s₁) : (vs.map (·.task)).Perm (queue ++ vs.flatMap (·.children)) := by
  induction h with
  | nil s => simp
  | cons _ _ ih =>
    rw [List.map_cons, List.flatMap_cons, List.cons_append]
    rw [List.append_assoc] at ih
    exact ih.cons _

/-- Every root and every scheduled task is visited exactly once. -/
theorem Ordered.perm (h : Ordered exec s roots vs s₁) : (vs.map (·.task)).Perm (roots ++ vs.flatMap (·.children)) := by
  induction h with
  | nil s => simp
  | @cons s s₁ s₂ r roots vs ws hcascade _ ih =>
    have hroot := (cascade_iff_fifo.mp hcascade).perm
    rw [List.map_append, List.flatMap_append]
    refine (hroot.append ih).trans ?_
    rw [List.singleton_append, List.cons_append, List.cons_append]
    refine List.Perm.cons r ?_
    rw [← List.append_assoc, ← List.append_assoc]
    exact List.perm_append_comm.append_right _

theorem ordered_append {roots₁ roots₂ : List α} (h : Ordered exec s (roots₁ ++ roots₂) vs s₂) :
    ∃ vs₁ s₁ vs₂, Ordered exec s roots₁ vs₁ s₁ ∧ Ordered exec s₁ roots₂ vs₂ s₂ ∧ vs = vs₁ ++ vs₂ := by
  induction roots₁ generalizing s vs with
  | nil => exact ⟨[], s, vs, .nil s, h, rfl⟩
  | cons r roots₁ ih =>
    cases h with
    | cons hcascade htail =>
      obtain ⟨vs₁, s₁, vs₂, h1, h2, rfl⟩ := ih htail
      exact ⟨_, s₁, vs₂, .cons hcascade h1, h2, (List.append_assoc _ _ _).symm⟩

/-! ### Simulation -/

section Simulation

variable {ε' τ : Type} {exec' : τ → α → Except ε' (τ × List α)} {R : σ → τ → Prop} {P : α → Prop}
  (hsim : ∀ s t a s' children, R s t → P a → exec s a = .ok (s', children) →
    ∃ t', exec' t a = .ok (t', children) ∧ R s' t' ∧ ∀ c ∈ children, P c)
include hsim

theorem Fifo.simulate {t : τ} (h : Fifo exec s queue vs s₁) (hR : R s t) (hP : ∀ a ∈ queue, P a) :
    ∃ ws t₁, Fifo exec' t queue ws t₁ ∧ R s₁ t₁ := by
  induction h generalizing t with
  | nil s => exact ⟨[], t, .nil t, hR⟩
  | cons hexec _ ih =>
    obtain ⟨t', hexec', hR', hP'⟩ := hsim _ _ _ _ _ hR (hP _ List.mem_cons_self) hexec
    have hqueue : ∀ a ∈ _ ++ _, P a := fun a ha => (List.mem_append.mp ha).elim
      (fun ha => hP a (List.mem_cons_of_mem _ ha)) (hP' a)
    obtain ⟨ws, t₁, hfifo, hR₁⟩ := ih hR' hqueue
    exact ⟨_, t₁, .cons hexec' hfifo, hR₁⟩

/-- If every execution of a task with `P` can be matched, and schedules only tasks with `P`, the
ordered visits of roots with `P` can be matched. -/
theorem Ordered.simulate {t : τ} (h : Ordered exec s roots vs s₁) (hR : R s t)
    (hP : ∀ a ∈ roots, P a) : ∃ ws t₁, Ordered exec' t roots ws t₁ ∧ R s₁ t₁ := by
  induction h generalizing t with
  | nil s => exact ⟨[], t, .nil t, hR⟩
  | @cons s s₁ s₂ r roots vs ws hcascade _ ih =>
    have hr : ∀ a ∈ [r], P a := fun a ha => hP a (List.mem_singleton.mp ha ▸ List.mem_cons_self)
    obtain ⟨vs', t', hfifo, hR'⟩ := Fifo.simulate hsim (cascade_iff_fifo.mp hcascade) hR hr
    obtain ⟨ws', t₁, hord, hR₁⟩ := ih hR' (fun a ha => hP a (List.mem_cons_of_mem _ ha))
    exact ⟨_, t₁, .cons (cascade_iff_fifo.mpr hfifo) hord, hR₁⟩

end Simulation

end ArbReth.Worklist
