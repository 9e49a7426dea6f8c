import Mathlib

/-! # Buffered futures

A stream of futures is polled with at most `cap` of them in flight: the next waiting future is started
when there is room, and any running one may complete next.  `Completes cap waiting running done` says
that `done` is a possible order of completion.

Every future completes once (`Completes.perm`).  Futures of one kind do not constrain the others: the
orders in which the futures with `p` complete are the same whether the rest is in the stream or not
(`Completes.filter`, `Completes.of_filter`). -/

namespace ArbReth.Buffered

variable {α β : Type}

inductive Completes (cap : ℕ) : List α → List α → List α → Prop
  | nil : Completes cap [] [] []
  | start {a : α} {waiting running done : List α} (hcap : running.length < cap)
      (h : Completes cap waiting (running ++ [a]) done) : Completes cap (a :: waiting) running done
  | finish {a : α} {waiting before after done : List α} (h : Completes cap waiting (before ++ after) done) :
      Completes cap waiting (before ++ a :: after) (a :: done)

namespace Completes

variable {cap : ℕ} {waiting running done : List α}

theorem perm (h : Completes cap waiting running done) : done.Perm (running ++ waiting) := by
  induction h with
  | nil => exact List.Perm.nil
  | start _ _ ih => simpa using ih
  | finish _ ih =>
    refine (ih.cons _).trans ?_
    rw [List.append_assoc, List.append_assoc, List.cons_append]
    exact List.perm_middle.symm

theorem mem_iff (h : Completes cap waiting [] done) {a : α} : a ∈ done ↔ a ∈ waiting := h.perm.mem_iff

/-- With room for one more, some waiting futures may each complete at once. -/
theorem skip (hcap : running.length < cap) (h : Completes cap waiting running done) (first : List α) :
    Completes cap (first ++ waiting) running (first ++ done) := by
  induction first with
  | nil => exact h
  | cons a first ih =>
    refine .start hcap (.finish ?_)
    rw [List.append_nil]
    exact ih

/-- The futures may complete in the order of the stream. -/
theorem inOrder (hcap : 0 < cap) (waiting : List α) : Completes cap waiting [] waiting := by
  simpa using skip hcap .nil waiting

theorem filter (p : α → Bool) (h : Completes cap waiting running done) :
    Completes cap (waiting.filter p) (running.filter p) (done.filter p) := by
  induction h with
  | nil => exact .nil
  | @start a waiting running done hcap _ ih =>
    rw [List.filter_append] at ih
    by_cases ha : p a
    · rw [List.filter_cons_of_pos ha] at ih ⊢
      exact .start ((List.length_filter_le _ _).trans_lt hcap) ih
    · rw [List.filter_cons_of_neg ha] at ih ⊢
      rwa [List.filter_nil, List.append_nil] at ih
  | @finish a waiting before after done _ ih =>
    rw [List.filter_append] at ih ⊢
    by_cases ha : p a
    · rw [List.filter_cons_of_pos ha, List.filter_cons_of_pos ha]
      exact .finish ih
    · rw [List.filter_cons_of_neg ha, List.filter_cons_of_neg ha]
      exact ih

/-- An order for the futures with `p` extends to the whole stream: the others complete as they come. -/
theorem of_filter (p : α → Bool) (hcap : 0 < cap) (hrunning : ∀ a ∈ running, p a = true)
    (h : Completes cap (waiting.filter p) running done) :
    ∃ done', Completes cap waiting running done' ∧ done'.filter p = done := by
  generalize hw : waiting.filter p = kept at h
  induction h generalizing waiting with
  | nil => exact ⟨waiting, inOrder hcap waiting, hw⟩
  | @start a kept running done hroom _ ih =>
    obtain ⟨first, rest, rfl, hfirst, ha, hrest⟩ := List.filter_eq_cons_iff.mp hw
    have hrunning' : ∀ b ∈ running ++ [a], p b = true := by
      intro b hb
      rcases List.mem_append.mp hb with hb | hb
      · exact hrunning b hb
      · rw [List.mem_singleton.mp hb, ha]
    obtain ⟨done', hdone', hfilter⟩ := ih hrunning' hrest
    refine ⟨first ++ done', skip hroom (.start hroom hdone') first, ?_⟩
    rw [List.filter_append, List.filter_eq_nil_iff.mpr hfirst, List.nil_append, hfilter]
  | @finish a kept before after done _ ih =>
    have hrunning' : ∀ b ∈ before ++ after, p b = true := by
      intro b hb
      refine hrunning b ?_
      rcases List.mem_append.mp hb with hb | hb
      · exact List.mem_append_left _ hb
      · exact List.mem_append_right _ (List.mem_cons_of_mem _ hb)
    obtain ⟨done', hdone', hfilter⟩ := ih hrunning' hw
    refine ⟨a :: done', .finish hdone', ?_⟩
    rw [List.filter_cons_of_pos (hrunning a (by simp)), hfilter]

theorem map (f : α → β) (h : Completes cap waiting running done) :
    Completes cap (waiting.map f) (running.map f) (done.map f) := by
  induction h with
  | nil => exact .nil
  | start hcap _ ih =>
    rw [List.map_append] at ih
    exact .start (by rwa [List.length_map]) ih
  | finish _ ih =>
    rw [List.map_append] at ih ⊢
    exact .finish ih

theorem of_map (f : α → β) {done : List β} (h : Completes cap (waiting.map f) (running.map f) done) :
    ∃ done', Completes cap waiting running done' ∧ done'.map f = done := by
  generalize hw : waiting.map f = ws at h
  generalize hr : running.map f = rs at h
  induction h generalizing waiting running with
  | nil =>
    rw [List.map_eq_nil_iff.mp hw, List.map_eq_nil_iff.mp hr]
    exact ⟨[], .nil, rfl⟩
  | @start _ _ rs _ hcap _ ih =>
    obtain ⟨a, waiting', rfl, rfl, hw'⟩ := List.map_eq_cons_iff.mp hw
    have hr' : (running ++ [a]).map f = rs ++ [f a] := by
      rw [List.map_append, hr, List.map_singleton]
    obtain ⟨done', hdone', hmap⟩ := ih hw' hr'
    refine ⟨done', .start ?_ hdone', hmap⟩
    rwa [← hr, List.length_map] at hcap
  | finish _ ih =>
    obtain ⟨before, tail, rfl, rfl, htail⟩ := List.map_eq_append_iff.mp hr
    obtain ⟨a, after, rfl, rfl, rfl⟩ := List.map_eq_cons_iff.mp htail
    have hr' : (before ++ after).map f = before.map f ++ after.map f := List.map_append
    obtain ⟨done', hdone', hmap⟩ := ih hw hr'
    exact ⟨a :: done', .finish hdone', by rw [List.map_cons, hmap]⟩

/-- An order of a stream of images is one of the stream. -/
theorem lift {f : α → β} {done : List β} (h : Completes cap (waiting.map f) [] done) :
    ∃ done', Completes cap waiting [] done' ∧ done'.map f = done :=
  of_map f h

/-- An order of the images of the futures with `p` extends to the whole stream. -/
theorem lift_filter {f : α → β} {p : α → Bool} {done : List β} (hcap : 0 < cap)
    (h : Completes cap ((waiting.filter p).map f) [] done) :
    ∃ done', Completes cap waiting [] done' ∧ (done'.filter p).map f = done := by
  obtain ⟨kept, hkept, rfl⟩ := lift h
  obtain ⟨done', hdone', rfl⟩ := of_filter p hcap (fun _ ha => absurd ha List.not_mem_nil) hkept
  exact ⟨done', hdone', rfl⟩

end Completes

end ArbReth.Buffered
