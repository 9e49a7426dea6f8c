import Mathlib

/-! # Runs of a fallible step function

`run step s as` feeds the inputs `as` one by one to a step function that may fail; the first
failure ends the run.  A property of a run is an assertion about the inputs consumed so far and
the state they lead to (`run_induction`); a successful run is successful on every prefix of its
inputs (`run_prefix`), so a statement proved for the end of every run holds after each of its
steps.  `FailsOnly P` bounds the ways in which a computation can fail, and
`Ensures Q I` is a postcondition for a computation that fails with the state it stopped in;
`Leaves x t` says that it ended in `t`, either way. -/

namespace ArbReth.Runs

variable {ε σ α β γ : Type}

variable {x : Except ε β}

/-- A sequenced computation succeeds iff both parts do. -/
theorem bind_ok {f : β → Except ε γ} {c : γ} : (x >>= f) = .ok c ↔ ∃ b, x = .ok b ∧ f b = .ok c := by
  cases x with
  | error e => constructor <;> intro h <;> simp [bind, Except.bind] at h
  | ok b => simp [bind, Except.bind]

theorem ok_bind (b : β) (f : β → Except ε γ) : (Except.ok b >>= f) = f b := rfl

theorem mapError_ok {ε' : Type} {f : ε → ε'} {b : β} : x.mapError f = .ok b ↔ x = .ok b := by
  cases x <;> simp [Except.mapError]

/-- A sequenced computation fails iff the first part does, or the second after it. -/
theorem bind_error {f : β → Except ε γ} {e : ε} :
    (x >>= f) = .error e ↔ x = .error e ∨ ∃ b, x = .ok b ∧ f b = .error e := by
  cases x with
  | error e' => simp [bind, Except.bind]
  | ok b => simp [bind, Except.bind]

theorem mapError_error {ε' : Type} {f : ε → ε'} {e' : ε'} :
    x.mapError f = .error e' ↔ ∃ e, x = .error e ∧ f e = e' := by
  cases x <;> simp [Except.mapError]

theorem toOption_eq_some {b : β} : x.toOption = some b ↔ x = .ok b := by
  cases x <;> simp [Except.toOption]

theorem isOk_iff : x.isOk = true ↔ ∃ b, x = .ok b := by
  cases x <;> simp [Except.isOk, Except.toBool]

variable {as : List α} {f : α → Except ε β} {bs : List β}

/-- A traversal succeeds iff every element does. -/
theorem mapM_ok : as.mapM f = .ok bs ↔ List.Forall₂ (fun a b => f a = .ok b) as bs := by
  induction as generalizing bs with
  | nil =>
    rw [List.mapM_nil, List.forall₂_nil_left_iff]
    exact ⟨fun h => (Except.ok.inj h).symm, fun h => h ▸ rfl⟩
  | cons a as ih =>
    rw [List.mapM_cons, bind_ok, List.forall₂_cons_left_iff]
    constructor
    · rintro ⟨b, hb, h⟩
      obtain ⟨bs', hbs', h⟩ := bind_ok.mp h
      exact ⟨b, bs', hb, ih.mp hbs', (Except.ok.inj h).symm⟩
    · rintro ⟨b, bs', hb, hbs', rfl⟩
      exact ⟨b, hb, bind_ok.mpr ⟨bs', ih.mpr hbs', rfl⟩⟩

theorem mapM_congr {g : α → Except ε β} (h : ∀ a ∈ as, f a = g a) : as.mapM f = as.mapM g := by
  induction as with
  | nil => rfl
  | cons a as ih =>
    rw [List.mapM_cons, List.mapM_cons, h a List.mem_cons_self,
      ih fun b hb => h b (List.mem_cons_of_mem _ hb)]

theorem mapM_zipIdx (f : α → Except ε β) (as : List α) : (as.zipIdx.mapM fun p => f p.1) = as.mapM f := by
  conv => rhs; rw [← List.zipIdx_map_fst 0 as, List.mapM_map]
  rfl

theorem forall₂_comp {R : α → β → Prop} {S : β → γ → Prop} {cs : List γ} (h : List.Forall₂ R as bs)
    (h' : List.Forall₂ S bs cs) : List.Forall₂ (Relation.Comp R S) as cs := by
  induction h' generalizing as with
  | nil =>
    rw [List.forall₂_nil_right_iff.mp h]
    exact List.Forall₂.nil
  | cons hS _ ih =>
    obtain ⟨a, as', hR, has, rfl⟩ := List.forall₂_cons_right_iff.mp h
    exact List.Forall₂.cons ⟨_, hR, hS⟩ (ih has)

/-- A traversal of the positions of a list. -/
theorem mapM_range_ok {f : ℕ → Except ε β} {g : α → β} (h : ∀ i (hi : i < as.length), f i = .ok (g as[i])) :
    (List.range as.length).mapM f = .ok (as.map g) := by
  rw [mapM_ok, List.forall₂_iff_get]
  refine ⟨by simp, fun i hi hi' => ?_⟩
  simpa using h i (by simpa using hi)

/-- Every result of a traversal is the result of one of its elements. -/
theorem mapM_ok_mem (h : as.mapM f = .ok bs) {b : β} (hb : b ∈ bs) : ∃ a ∈ as, f a = .ok b := by
  have hforall := mapM_ok.mp h
  clear h
  induction hforall with
  | nil => cases hb
  | cons hab _ ih =>
    rcases List.mem_cons.mp hb with rfl | hb
    · exact ⟨_, List.mem_cons_self, hab⟩
    · obtain ⟨a, ha, hf⟩ := ih hb
      exact ⟨a, List.mem_cons_of_mem _ ha, hf⟩

theorem mem_of_mapM_ok (h : as.mapM f = .ok bs) {a : α} (ha : a ∈ as) : ∃ b ∈ bs, f a = .ok b := by
  have hforall := mapM_ok.mp h
  clear h
  induction hforall with
  | nil => cases ha
  | cons hab _ ih =>
    rcases List.mem_cons.mp ha with rfl | ha
    · exact ⟨_, List.mem_cons_self, hab⟩
    · obtain ⟨b, hb, hf⟩ := ih ha
      exact ⟨b, List.mem_cons_of_mem _ hb, hf⟩

/-- What every element's result shares with the element, the whole traversal does. -/
theorem map_eq_of_mapM_ok (h : as.mapM f = .ok bs) {g : β → γ}
    {g' : α → γ} (hfg : ∀ a b, f a = .ok b → g b = g' a) : bs.map g = as.map g' := by
  have hforall := mapM_ok.mp h
  clear h
  induction hforall with
  | nil => rfl
  | cons hab _ ih => rw [List.map_cons, List.map_cons, hfg _ _ hab, ih]

theorem exists_mapM_ok : (∃ bs, as.mapM f = .ok bs) ↔ ∀ a ∈ as, ∃ b, f a = .ok b := by
  induction as with
  | nil => exact ⟨fun _ _ ha => absurd ha List.not_mem_nil, fun _ => ⟨[], rfl⟩⟩
  | cons a as ih =>
    rw [List.forall_mem_cons, ← ih]
    constructor
    · rintro ⟨bs, h⟩
      obtain ⟨b, bs', hb, hbs', -⟩ := List.forall₂_cons_left_iff.mp (mapM_ok.mp h)
      exact ⟨⟨b, hb⟩, bs', mapM_ok.mpr hbs'⟩
    · rintro ⟨⟨b, hb⟩, bs, hbs⟩
      exact ⟨b :: bs, mapM_ok.mpr (.cons hb (mapM_ok.mp hbs))⟩

/-- The run of `step` over a list of inputs. -/
def run (step : σ → α → Except ε σ) : σ → List α → Except ε σ
  | s, [] => .ok s
  | s, a :: as => step s a >>= fun s' => run step s' as

variable {step : σ → α → Except ε σ}

@[simp] theorem run_nil (s : σ) : run step s [] = .ok s := rfl

variable {s t : σ}

theorem run_cons_ok {a : α} : run step s (a :: as) = .ok t ↔ ∃ s', step s a = .ok s' ∧ run step s' as = .ok t := bind_ok

theorem run_append (s : σ) (as bs : List α) : run step s (as ++ bs) = run step s as >>= fun m => run step m bs := by
  induction as generalizing s with
  | nil => rfl
  | cons a as ih =>
    rw [List.cons_append, run, run, bind_assoc]
    exact congrArg _ (funext ih)

theorem run_append_ok {as bs : List α} :
    run step s (as ++ bs) = .ok t ↔ ∃ m, run step s as = .ok m ∧ run step m bs = .ok t := by
  rw [run_append, bind_ok]

theorem run_singleton (s : σ) (a : α) : run step s [a] = step s a := bind_pure _

theorem run_snoc_ok {a : α} : run step s (as ++ [a]) = .ok t ↔ ∃ m, run step s as = .ok m ∧ step m a = .ok t := by
  rw [run_append_ok]
  simp only [run_singleton]

/-- A successful run succeeds on every prefix of its inputs. -/
theorem run_prefix {as bs : List α} (h : run step s bs = .ok t) (hp : as <+: bs) : ∃ m, run step s as = .ok m := by
  obtain ⟨cs, rfl⟩ := hp
  obtain ⟨m, h1, _⟩ := run_append_ok.mp h
  exact ⟨m, h1⟩

/-- A run succeeds if no input can fail while the invariant holds. -/
theorem exists_run_ok (I : σ → Prop) {s : σ} (h0 : I s)
    (h : ∀ a ∈ as, ∀ m, I m → ∃ m', step m a = .ok m' ∧ I m') : ∃ t, run step s as = .ok t ∧ I t := by
  induction as generalizing s with
  | nil => exact ⟨s, rfl, h0⟩
  | cons a as ih =>
    obtain ⟨s', hs', h0'⟩ := h a List.mem_cons_self s h0
    obtain ⟨t, ht, hI⟩ := ih h0' fun b hb => h b (List.mem_cons_of_mem _ hb)
    exact ⟨t, run_cons_ok.mpr ⟨s', hs', ht⟩, hI⟩

/-- The invariant rule, with the consumed inputs in the invariant. -/
theorem run_induction (P : List α → σ → Prop) (h0 : P [] s)
    (hstep : ∀ done a m m', done ++ [a] <+: as → run step s done = .ok m → P done m →
      step m a = .ok m' → P (done ++ [a]) m') (h : run step s as = .ok t) : P as t := by
  have key : ∀ done m, done <+: as → run step s done = .ok m → P done m := by
    intro done
    induction done using List.reverseRecOn with
    | nil =>
      intro m _ hm
      rw [run_nil, Except.ok.injEq] at hm
      exact hm ▸ h0
    | append_singleton done a ih =>
      intro m' hp hm'
      obtain ⟨m, h1, h2⟩ := run_snoc_ok.mp hm'
      have hp' : done <+: as := (List.prefix_append done [a]).trans hp
      exact hstep done a m m' hp h1 (ih m hp' h1) h2
  exact key as t (List.prefix_refl as) h

/-- The invariant rule for a property of states alone. -/
theorem run_invariant (I : σ → Prop) (h0 : I s)
    (hstep : ∀ a m m', I m → step m a = .ok m' → I m') (h : run step s as = .ok t) : I t :=
  run_induction (fun _ m => I m) h0 (fun _ a m m' _ _ hm hs => hstep a m m' hm hs) h

/-- A run fails at one of its inputs, after the ones before it. -/
theorem run_error_split {s : σ} {e : ε} (h : run step s as = .error e) :
    ∃ pre a post m, as = pre ++ a :: post ∧ run step s pre = .ok m ∧ step m a = .error e := by
  induction as generalizing s with
  | nil => cases h
  | cons a as ih =>
    rcases bind_error.mp h with h | ⟨s', hs', h⟩
    · exact ⟨[], a, as, s, rfl, rfl, h⟩
    · obtain ⟨pre, b, post, m, rfl, hpre, hb⟩ := ih h
      exact ⟨a :: pre, b, post, m, rfl, run_cons_ok.mpr ⟨s', hs', hpre⟩, hb⟩

/-- Every failure of the computation satisfies `P`. -/
def FailsOnly (P : ε → Prop) (x : Except ε β) : Prop := ∀ e, x = .error e → P e

variable {P : ε → Prop}

theorem FailsOnly.ok (b : β) : FailsOnly P (.ok b : Except ε β) := fun _ h => nomatch h

theorem FailsOnly.bind {f : β → Except ε γ} (hx : FailsOnly P x)
    (hf : ∀ b, FailsOnly P (f b)) : FailsOnly P (x >>= f) := by
  cases x with
  | error e =>
    intro e' h
    exact hx e' (congrArg Except.error (Except.error.inj h))
  | ok b => exact hf b

/-- For a computation that fails with the state it stopped in: on success `Q` holds of the value, on
failure `I` of the state. -/
def Ensures (Q : β → Prop) (I : σ → Prop) : Except (ε × σ) β → Prop
  | .ok b => Q b
  | .error e => I e.2

theorem Ensures.bind {Q : β → Prop} {R : γ → Prop} {I : σ → Prop} {x : Except (ε × σ) β}
    {f : β → Except (ε × σ) γ} (hx : Ensures Q I x) (hf : ∀ b, Q b → Ensures R I (f b)) : Ensures R I (x >>= f) := by
  cases x with
  | error e => exact hx
  | ok b => exact hf b hx

theorem Ensures.mono {Q R : β → Prop} {I J : σ → Prop} {x : Except (ε × σ) β} (hx : Ensures Q I x)
    (hQ : ∀ b, Q b → R b) (hI : ∀ s, I s → J s) : Ensures R J x := by
  cases x with
  | error e => exact hI _ hx
  | ok b => exact hQ b hx

/-- The state in which such a computation ends, normally or with a failure. -/
def Leaves (x : Except (ε × σ) σ) (t : σ) : Prop := x = .ok t ∨ ∃ e, x = .error (e, t)

theorem Ensures.leaves {Q : σ → Prop} {x : Except (ε × σ) σ} {t : σ} (hx : Ensures Q Q x) (h : Leaves x t) : Q t := by
  rcases h with rfl | ⟨e, rfl⟩
  · exact hx
  · exact hx

theorem Leaves.bind {x : Except (ε × σ) β} {f : β → Except (ε × σ) σ} {t : σ} (h : Leaves (x >>= f) t) :
    (∃ e, x = .error (e, t)) ∨ ∃ b, x = .ok b ∧ Leaves (f b) t := by
  cases x with
  | error e =>
    rcases h with h | ⟨e', h⟩
    · cases h
    · exact Or.inl ⟨e', congrArg Except.error (Except.error.inj h)⟩
  | ok b => exact Or.inr ⟨b, rfl, h⟩

/-- The state in which a computation has ended, for one that fails with its state. -/
def endState : Except (ε × σ) σ → σ
  | .ok s => s
  | .error e => e.2

/-- The invariant rule for the state in which a run has ended, normally or with a failure. -/
theorem run_endState {step : σ → α → Except (ε × σ) σ} (I : σ → Prop) {s : σ} (h0 : I s)
    (hstep : ∀ a ∈ as, ∀ m, I m → Ensures I I (step m a)) : I (endState (run step s as)) := by
  induction as generalizing s with
  | nil => exact h0
  | cons a as ih =>
    have hs := hstep a List.mem_cons_self s h0
    unfold run
    cases hb : step s a with
    | error e =>
      rw [hb] at hs
      exact hs
    | ok s' =>
      rw [hb] at hs
      exact ih hs (fun b hb => hstep b (List.mem_cons_of_mem _ hb))

end ArbReth.Runs
