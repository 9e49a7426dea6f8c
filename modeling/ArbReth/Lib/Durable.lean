import Mathlib

/-! # Programs over a durable state

A program reads a state, replaces it by others one after the other, and ends with a value or a failure.  It can be
cut at any time, and then leaves the last state that it wrote; so what matters is the whole sequence of its
states.  `Triple G P p Q E` says of a program started in a state with `P` that every one of its writes is a step of
`G`, and that it ends in a state with `Q` of its value or with `E` of its failure.  A cut leaves a state that is
reached by steps of `G` (`Triple.cut`). -/

namespace ArbReth.Durable

variable {σ τ ε ε' α β : Type}

/-- The states that a program writes, in order, and how it ends. -/
structure Outcome (σ ε α : Type) where
  writes : List σ
  result : Except ε α

def Prog (σ ε α : Type) : Type := σ → Outcome σ ε α

/-- The state after a sequence of writes. -/
def after (s : σ) (writes : List σ) : σ := writes.getLastD s

@[simp] theorem after_cons (s t : σ) (writes : List σ) : after s (t :: writes) = after t writes :=
  List.getLastD_cons ..

theorem after_append (s : σ) (ws vs : List σ) : after s (ws ++ vs) = after (after s ws) vs := by
  induction ws generalizing s with
  | nil => rfl
  | cons w ws ih => rw [List.cons_append, after_cons, after_cons, ih]

/-- The state in which a program has ended. -/
def Outcome.final (o : Outcome σ ε α) (s : σ) : σ := after s o.writes

/-- A part of a state, which can be replaced. -/
structure Part (σ τ : Type) where
  view : σ → τ
  put : σ → τ → σ
  view_put : ∀ s x, view (put s x) = x
  put_put : ∀ s x y, put (put s x) y = put s y

namespace Prog

def pure (a : α) : Prog σ ε α := fun _ => ⟨[], .ok a⟩

def bind (p : Prog σ ε α) (f : α → Prog σ ε β) : Prog σ ε β := fun s =>
  match (p s).result with
  | .error e => ⟨(p s).writes, .error e⟩
  | .ok a =>
    let next := f a (after s (p s).writes)
    ⟨(p s).writes ++ next.writes, next.result⟩

instance : Monad (Prog σ ε) where
  pure := pure
  bind := bind

def get : Prog σ ε σ := fun s => ⟨[], .ok s⟩

/-- One write. -/
def write (f : σ → σ) : Prog σ ε Unit := fun s => ⟨[f s], .ok ()⟩

/-- A sequence of writes. -/
def writeAll (f : σ → List σ) : Prog σ ε Unit := fun s => ⟨f s, .ok ()⟩

def ofExcept (x : Except ε α) : Prog σ ε α := fun _ => ⟨[], x⟩

def fail (e : ε) : Prog σ ε α := ofExcept (.error e)

/-- Fail unless a condition holds. -/
def require (c : Prop) [Decidable c] (e : ε) : Prog σ ε Unit := if c then pure () else fail e

/-- A program over a part of the state. -/
def zoom (part : Part σ τ) (f : ε → ε') (p : Prog τ ε α) : Prog σ ε' α := fun s =>
  ⟨(p (part.view s)).writes.map (part.put s), (p (part.view s)).result.mapError f⟩

/-- The result of a program as a value. -/
def attempt (p : Prog σ ε α) : Prog σ ε (Except ε α) := fun s => ⟨(p s).writes, .ok (p s).result⟩

end Prog

/-! ### Triples -/

/-- What holds of the way in which a program has ended. -/
def Ends (Q : α → σ → Prop) (E : ε → σ → Prop) (s : σ) : Except ε α → Prop
  | .ok a => Q a s
  | .error e => E e s

def Triple (G : σ → σ → Prop) (P : σ → Prop) (p : Prog σ ε α) (Q : α → σ → Prop) (E : ε → σ → Prop) : Prop :=
  ∀ s, P s → List.IsChain G (s :: (p s).writes) ∧ Ends Q E (after s (p s).writes) (p s).result

section Rules

variable {G : σ → σ → Prop} {P P' : σ → Prop} {Q : α → σ → Prop} {R : β → σ → Prop} {E E' : ε → σ → Prop}

theorem isChain_append {s : σ} {ws vs : List σ} (hws : List.IsChain G (s :: ws))
    (hvs : List.IsChain G (after s ws :: vs)) : List.IsChain G (s :: (ws ++ vs)) := by
  induction ws generalizing s with
  | nil => exact hvs
  | cons w ws ih =>
    rw [List.isChain_cons_cons] at hws
    rw [after_cons] at hvs
    exact List.isChain_cons_cons.mpr ⟨hws.1, ih hws.2 hvs⟩

variable {a : α}

theorem Triple.pure (h : ∀ s, P s → Q a s) : Triple G P (Pure.pure a : Prog σ ε α) Q E := fun s hs =>
  ⟨List.isChain_singleton s, h s hs⟩

variable {p : Prog σ ε α}

theorem Triple.bind {f : α → Prog σ ε β} (hp : Triple G P p Q E)
    (hf : ∀ a, Triple G (Q a) (f a) R E) : Triple G P (p >>= f) R E := by
  intro s hs
  obtain ⟨hchain, hends⟩ := hp s hs
  change List.IsChain G (s :: (Prog.bind p f s).writes) ∧
    Ends R E (after s (Prog.bind p f s).writes) (Prog.bind p f s).result
  unfold Prog.bind
  cases hresult : (p s).result with
  | error e =>
    rw [hresult] at hends
    exact ⟨hchain, hends⟩
  | ok a =>
    rw [hresult] at hends
    obtain ⟨hchain', hends'⟩ := hf a _ hends
    refine ⟨isChain_append hchain hchain', ?_⟩
    rw [after_append]
    exact hends'

theorem Triple.conseq {Q' : α → σ → Prop} (h : Triple G P p Q E) (hP : ∀ s, P' s → P s)
    (hQ : ∀ a s, Q a s → Q' a s) (hE : ∀ e s, E e s → E' e s) : Triple G P' p Q' E' := by
  intro s hs
  obtain ⟨hchain, hends⟩ := h s (hP s hs)
  refine ⟨hchain, ?_⟩
  cases hresult : (p s).result with
  | error e =>
    rw [hresult] at hends
    exact hE e _ hends
  | ok a =>
    rw [hresult] at hends
    exact hQ a _ hends

theorem Triple.pre (h : Triple G P p Q E) (hP : ∀ s, P' s → P s) : Triple G P' p Q E :=
  h.conseq hP (fun _ _ hq => hq) fun _ _ he => he

theorem Triple.post {Q' : α → σ → Prop} (h : Triple G P p Q E) (hQ : ∀ a s, Q a s → Q' a s) :
    Triple G P p Q' E := h.conseq (fun _ hp => hp) hQ fun _ _ he => he

theorem Triple.mono {G' : σ → σ → Prop} (h : Triple G P p Q E) (hG : ∀ s t, G s t → G' s t) :
    Triple G' P p Q E := fun s hs => ⟨(h s hs).1.imp hG, (h s hs).2⟩

/-- A fact about the state can be named before the program is looked at. -/
theorem Triple.of_forall (h : ∀ s, P s → Triple G (· = s) p Q E) : Triple G P p Q E :=
  fun s hs => h s hs s rfl

theorem Triple.get {Q : σ → σ → Prop} (h : ∀ s, P s → Q s s) : Triple G P (Prog.get : Prog σ ε σ) Q E := fun s hs =>
  ⟨List.isChain_singleton s, h s hs⟩

theorem Triple.write {f : σ → σ} {Q : Unit → σ → Prop} (h : ∀ s, P s → G s (f s) ∧ Q () (f s)) :
    Triple G P (Prog.write f : Prog σ ε Unit) Q E := fun s hs =>
  ⟨List.isChain_pair.mpr (h s hs).1, (h s hs).2⟩

theorem Triple.writeAll {f : σ → List σ} {Q : Unit → σ → Prop}
    (h : ∀ s, P s → List.IsChain G (s :: f s) ∧ Q () (after s (f s))) :
    Triple G P (Prog.writeAll f : Prog σ ε Unit) Q E := h

variable {H : σ → Prop}

theorem isChain_of_forall (s : σ) {ws : List σ} (h : ∀ t ∈ ws, H t) : List.IsChain (fun _ t => H t) (s :: ws) := by
  induction ws generalizing s with
  | nil => exact List.isChain_singleton s
  | cons w ws ih => exact List.isChain_cons_cons.mpr ⟨h w (by simp), ih w fun t ht => h t (by simp [ht])⟩

theorem Triple.writeAll_of_forall {f : σ → List σ} {Q : Unit → σ → Prop}
    (h : ∀ s, P s → (∀ t ∈ f s, H t) ∧ Q () (after s (f s))) :
    Triple (fun _ t => H t) P (Prog.writeAll f : Prog σ ε Unit) Q E :=
  Triple.writeAll fun s hs => ⟨isChain_of_forall s (h s hs).1, (h s hs).2⟩

/-- Every program satisfies the triple that says nothing. -/
theorem Triple.vacuous (p : Prog σ ε α) :
    Triple (fun _ _ => True) (fun _ => True) p (fun _ _ => True) fun _ _ => True := by
  intro s _
  refine ⟨isChain_of_forall s fun _ _ => trivial, ?_⟩
  cases (p s).result with
  | ok a => trivial
  | error e => trivial

theorem Triple.ofExcept {x : Except ε α} (hok : ∀ a, x = .ok a → ∀ s, P s → Q a s)
    (herror : ∀ e, x = .error e → ∀ s, P s → E e s) : Triple G P (Prog.ofExcept x) Q E := by
  intro s hs
  refine ⟨List.isChain_singleton s, ?_⟩
  cases x with
  | error e => exact herror e rfl s hs
  | ok a => exact hok a rfl s hs

variable {e : ε}

theorem Triple.fail (h : ∀ s, P s → E e s) : Triple G P (Prog.fail e : Prog σ ε α) Q E :=
  Triple.ofExcept (fun _ ha => by cases ha) fun e' he' s hs => Except.error.inj he' ▸ h s hs

theorem Triple.require {c : Prop} [Decidable c] (h : ∀ s, P s → ¬c → E e s) :
    Triple G P (Prog.require c e : Prog σ ε Unit) (fun _ s => P s ∧ c) E := by
  unfold Prog.require
  by_cases hc : c
  · rw [if_pos hc]
    exact Triple.pure fun s hs => ⟨hs, hc⟩
  · rw [if_neg hc]
    exact Triple.fail fun s hs => h s hs hc

/-- What holds without regard to the state can be assumed. -/
theorem Triple.assume {c : Prop} (h : c → Triple G P p Q E) :
    Triple G (fun s => P s ∧ c) p Q E := fun s hs => h hs.2 s hs.1

theorem Triple.require_bind {c : Prop} [Decidable c] (hc : ∀ s, P s → ¬c → E e s)
    (h : c → Triple G P p Q E) : Triple G P (Prog.require c e >>= fun _ => p) Q E :=
  Triple.bind (Triple.require hc) fun _ => Triple.assume h

theorem Triple.ofExcept_bind {x : Except ε α} {f : α → Prog σ ε β} (herror : ∀ e, x = .error e → ∀ s, P s → E e s)
    (h : ∀ a, x = .ok a → Triple G P (f a) R E) : Triple G P (Prog.ofExcept x >>= f) R E :=
  Triple.bind (Q := fun a s => P s ∧ x = .ok a) (Triple.ofExcept (fun _ ha _ hs => ⟨hs, ha⟩) herror) fun a =>
    Triple.assume (h a)

theorem Triple.attempt (h : Triple G P p Q E) : Triple G P p.attempt (fun x s => Ends Q E s x) E' := fun s hs => h s hs

section Parts

variable {part : Part σ τ}

theorem view_after_map_put (part : Part σ τ) (s : σ) (ws : List τ) :
    part.view (after s (ws.map (part.put s))) = after (part.view s) ws := by
  rcases List.eq_nil_or_concat ws with rfl | ⟨ws, w, rfl⟩
  · rfl
  · simp [after, part.view_put]

theorem after_map_put (part : Part σ τ) {s : σ} (h : part.put s (part.view s) = s) (ws : List τ) :
    after s (ws.map (part.put s)) = part.put s (after (part.view s) ws) := by
  rcases List.eq_nil_or_concat ws with rfl | ⟨ws, w, rfl⟩
  · exact h.symm
  · simp [after]

/-- What holds whatever is put into a part. -/
def Part.Keeps (part : Part σ τ) (F : σ → Prop) : Prop := ∀ s x, F s → F (part.put s x)

variable {F : σ → Prop}

theorem Part.Keeps.after (hF : part.Keeps F) {s : σ} (hs : F s) (ws : List τ) : F (after s (ws.map (part.put s))) := by
  rcases List.eq_nil_or_concat ws with rfl | ⟨ws, w, rfl⟩
  · exact hs
  · simpa [Durable.after] using hF s w hs

theorem isChain_map_put (hF : part.Keeps F) (hG : ∀ s x, F s → G s (part.put s x)) {s : σ} (hs : F s)
    (ws : List τ) : List.IsChain G (s :: ws.map (part.put s)) := by
  induction ws generalizing s with
  | nil => exact List.isChain_singleton s
  | cons w ws ih =>
    have hput : ws.map (part.put s) = ws.map (part.put (part.put s w)) :=
      List.map_congr_left fun x _ => (part.put_put s w x).symm
    rw [List.map_cons, List.isChain_cons_cons, hput]
    exact ⟨hG s w hs, ih (hF s w hs)⟩

/-- A triple for a part holds in the whole state, where `F` says what is known of the rest. -/
theorem Triple.zoom {G' : τ → τ → Prop} {P' : τ → Prop} {Q' : α → τ → Prop} {E₀ : ε → τ → Prop}
    {E' : ε' → σ → Prop} {f : ε → ε'} {p : Prog τ ε α} (h : Triple G' P' p Q' E₀) (part : Part σ τ) (hF : part.Keeps F)
    (hG : ∀ s x, F s → G s (part.put s x)) (hE : ∀ e s, F s → E' e s) :
    Triple G (fun s => P' (part.view s) ∧ F s) (p.zoom part f) (fun a s => Q' a (part.view s) ∧ F s) E' := by
  rintro s ⟨hP, hs⟩
  have hends := (h (part.view s) hP).2
  refine ⟨isChain_map_put hF hG hs _, ?_⟩
  simp only [Prog.zoom]
  cases hresult : (p (part.view s)).result with
  | error e => exact hE _ _ (hF.after hs _)
  | ok a =>
    rw [hresult, ← view_after_map_put part] at hends
    exact ⟨hends, hF.after hs _⟩

end Parts

/-- How a program has ended. -/
theorem Triple.finally (h : Triple G P p Q E) {s : σ} (hs : P s) (ha : (p s).result = .ok a) : Q a ((p s).final s) := by
  have hends := (h s hs).2
  rw [ha] at hends
  exact hends

/-- A program that cannot fail ends with a value. -/
theorem Triple.succeeds (h : Triple G P p Q E) {s : σ} (hs : P s) (hE : ∀ e t, ¬E e t) :
    ∃ a, (p s).result = .ok a ∧ Q a ((p s).final s) := by
  have hends := (h s hs).2
  cases hresult : (p s).result with
  | error e =>
    rw [hresult] at hends
    exact absurd hends (hE e _)
  | ok a =>
    rw [hresult] at hends
    exact ⟨a, rfl, hends⟩

/-! ### Cuts -/

theorem after_eq_or_mem (s : σ) (ws : List σ) : after s ws = s ∨ after s ws ∈ ws := by
  cases ws with
  | nil => exact Or.inl rfl
  | cons w ws =>
    right
    rw [after, List.getLastD_eq_getLast?, List.getLast?_eq_some_getLast (List.cons_ne_nil w ws), Option.getD_some]
    exact List.getLast_mem _

/-- The states that a program started in a state can leave. -/
def Cut (p : Prog σ ε α) (s t : σ) : Prop := t = s ∨ t ∈ (p s).writes

theorem reflTransGen_of_mem {s t : σ} {ws : List σ} (h : List.IsChain G (s :: ws)) (ht : t ∈ ws) :
    Relation.ReflTransGen G s t := by
  induction ws generalizing s with
  | nil => cases ht
  | cons w ws ih =>
    rw [List.isChain_cons_cons] at h
    rcases List.mem_cons.mp ht with rfl | ht
    · exact .single h.1
    · exact .head h.1 (ih h.2 ht)

theorem Triple.cut (h : Triple G P p Q E) {s t : σ} (hs : P s) (ht : Cut p s t) : Relation.ReflTransGen G s t := by
  rcases ht with rfl | ht
  · exact .refl
  · exact reflTransGen_of_mem (h s hs).1 ht

/-- A cut of two programs after one another is a cut of the first, or of the second after the first has ended. -/
theorem Cut.of_bind {f : α → Prog σ ε β} {s t : σ} (h : Cut (p >>= f) s t) :
    Cut p s t ∨ ∃ a, (p s).result = .ok a ∧ Cut (f a) ((p s).final s) t := by
  rcases h with rfl | h
  · exact .inl (.inl rfl)
  · change t ∈ (Prog.bind p f s).writes at h
    unfold Prog.bind at h
    cases hresult : (p s).result with
    | error e =>
      rw [hresult] at h
      exact .inl (.inr h)
    | ok a =>
      rw [hresult] at h
      rcases List.mem_append.mp h with h | h
      · exact .inl (.inr h)
      · exact .inr ⟨a, rfl, .inr h⟩

theorem Cut.bind_left {s t : σ} (h : Cut p s t) (f : α → Prog σ ε β) : Cut (p >>= f) s t := by
  refine h.imp id fun hmem => ?_
  change t ∈ (Prog.bind p f s).writes
  unfold Prog.bind
  split
  · exact hmem
  · exact List.mem_append_left _ hmem

theorem Cut.final (p : Prog σ ε α) (s : σ) : Cut p s ((p s).final s) := after_eq_or_mem s _

/-- A program after one that has ended with a value. -/
theorem bind_apply {f : α → Prog σ ε β} {s : σ} (h : (p s).result = .ok a) :
    (p >>= f) s = ⟨(p s).writes ++ (f a ((p s).final s)).writes, (f a ((p s).final s)).result⟩ := by
  change Prog.bind p f s = _
  simp only [Prog.bind, h]
  rfl

theorem Cut.bind_right {f : α → Prog σ ε β} {s t : σ} (ha : (p s).result = .ok a)
    (h : Cut (f a) ((p s).final s) t) : Cut (p >>= f) s t := by
  rcases h with rfl | h
  · exact (Cut.final p s).bind_left f
  · exact .inr (by rw [bind_apply ha]; exact List.mem_append_right _ h)

/-- A program after one that only reads. -/
theorem bind_apply_read {f : α → Prog σ ε β} {s : σ} (h : p s = ⟨[], .ok a⟩) : (p >>= f) s = f a s := by
  change Prog.bind p f s = _
  simp only [Prog.bind, h]
  rfl

theorem final_bind {f : α → Prog σ ε β} {s : σ} (h : (p s).result = .ok a) :
    ((p >>= f) s).final s = (f a ((p s).final s)).final ((p s).final s) := by
  rw [bind_apply h]
  exact after_append s _ _

theorem bind_apply_error {f : α → Prog σ ε β} {s : σ} (h : (p s).result = .error e) :
    (p >>= f) s = ⟨(p s).writes, .error e⟩ := by
  change Prog.bind p f s = _
  simp only [Prog.bind, h]

/-- Two programs after one another, both of which have ended with a value. -/
theorem ended_bind {f : α → Prog σ ε β} {s : σ} {b : β} (h : ((p >>= f) s).result = .ok b) :
    ∃ a, (p s).result = .ok a ∧ (f a ((p s).final s)).result = .ok b ∧
      ((p >>= f) s).final s = (f a ((p s).final s)).final ((p s).final s) := by
  cases hresult : (p s).result with
  | error e =>
    rw [bind_apply_error hresult] at h
    cases h
  | ok a =>
    have hfinal := final_bind (f := f) hresult
    rw [bind_apply hresult] at h
    exact ⟨a, rfl, h, hfinal⟩

theorem Triple.cut_of_forall (h : Triple (fun _ t => H t) P p Q E) {s t : σ} (hs : P s)
    (ht : Cut p s t) : t = s ∨ H t := by
  rcases Relation.ReflTransGen.cases_tail (h.cut hs ht) with rfl | ⟨_, -, hH⟩
  · exact .inl rfl
  · exact .inr hH

end Rules

/-! ### What a program leaves as it was -/

/-- No state that a program can leave differs in `f` from the one it started in. -/
def FrameAt {γ : Type} (f : σ → γ) (p : Prog σ ε α) (s : σ) : Prop := ∀ t, Cut p s t → f t = f s

namespace FrameAt

variable {γ : Type} {f : σ → γ} {s : σ}

theorem of_writes_nil {p : Prog σ ε α} (h : (p s).writes = []) : FrameAt f p s := by
  intro t ht
  rw [Cut, h] at ht
  rw [ht.resolve_right List.not_mem_nil]

theorem final {p : Prog σ ε α} (h : FrameAt f p s) : f ((p s).final s) = f s := h _ (Cut.final p s)

variable {g : α → Prog σ ε β}

theorem bind {p : Prog σ ε α} (hp : FrameAt f p s)
    (hg : ∀ a, (p s).result = .ok a → FrameAt f (g a) ((p s).final s)) : FrameAt f (p >>= g) s := by
  intro t ht
  rcases ht.of_bind with ht | ⟨a, ha, ht⟩
  · exact hp t ht
  · exact (hg a ha t ht).trans hp.final

theorem bind_iff {p : Prog σ ε α} : FrameAt f (p >>= g) s ↔
    FrameAt f p s ∧ ∀ a, (p s).result = .ok a → FrameAt f (g a) ((p s).final s) := by
  refine ⟨fun h => ?_, fun h => h.1.bind h.2⟩
  have hp : FrameAt f p s := fun t ht => h t (ht.bind_left g)
  exact ⟨hp, fun a ha t ht => (h t (ht.bind_right ha)).trans hp.final.symm⟩

/-- After a step that only looks at the state. -/
theorem ofExcept_bind_iff {x : Except ε α} :
    FrameAt f (Prog.ofExcept x >>= g) s ↔ ∀ a, x = .ok a → FrameAt f (g a) s :=
  bind_iff.trans (and_iff_right (of_writes_nil rfl))

theorem ofExcept_bind {x : Except ε α} (hg : ∀ a, x = .ok a → FrameAt f (g a) s) :
    FrameAt f (Prog.ofExcept x >>= g) s := ofExcept_bind_iff.mpr hg

theorem require_bind {c : Prop} [Decidable c] {e : ε} {p : Prog σ ε β} (hp : c → FrameAt f p s) :
    FrameAt f (Prog.require c e >>= fun _ => p) s := by
  by_cases hc : c
  · rw [Prog.require, if_pos hc]
    exact hp hc
  · rw [Prog.require, if_neg hc]
    exact of_writes_nil rfl

/-- A program over a part of the state. -/
theorem zoom_iff {part : Part σ τ} {h : ε → ε'} {p : Prog τ ε α} (hput : part.put s (part.view s) = s) :
    FrameAt f (p.zoom part h) s ↔ ∀ x, Cut p (part.view s) x → f (part.put s x) = f s := by
  constructor
  · rintro hp x (rfl | hx)
    · rw [hput]
    · exact hp _ (.inr (List.mem_map.mpr ⟨x, hx, rfl⟩))
  · rintro hp t (rfl | ht)
    · rfl
    · obtain ⟨x, hx, rfl⟩ := List.mem_map.mp ht
      exact hp x (.inr hx)

end FrameAt

end ArbReth.Durable
