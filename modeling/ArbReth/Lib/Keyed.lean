import Mathlib

/-! # Maps filled by key

Entries are put into a map one after the other under a key of their own; a later entry replaces an
earlier one with the same key.  `insertAll` does so with an ordered map, `setAll` with a map that is only
looked up.  Read back under a key, the map has one of the entries with that key, or what it had before. -/

namespace ArbReth.Keyed

variable {α κ ν : Type}

/-! ### Ordered maps -/

def insertAll (key : α → ℕ) (m : Std.TreeMap ℕ α) (as : List α) : Std.TreeMap ℕ α :=
  as.foldl (fun m a => m.insert (key a) a) m

variable {key : α → ℕ} {m : Std.TreeMap ℕ α} {as bs : List α} {a : α} {k : ℕ}

theorem insertAll_append : insertAll key m (as ++ bs) = insertAll key (insertAll key m as) bs :=
  List.foldl_append

theorem getElem?_insertAll_concat :
    (insertAll key m (as ++ [a]))[k]? = if key a = k then some a else (insertAll key m as)[k]? := by
  rw [insertAll_append]
  unfold insertAll
  rw [List.foldl_cons, List.foldl_nil, Std.TreeMap.getElem?_insert]
  simp only [Nat.compare_eq_eq]

/-- What the map has under a key is an entry with that key, or what it had. -/
theorem of_getElem?_insertAll (h : (insertAll key m as)[k]? = some a) : (a ∈ as ∧ key a = k) ∨ m[k]? = some a := by
  induction as using List.reverseRecOn with
  | nil => exact Or.inr h
  | append_singleton as b ih =>
    rw [getElem?_insertAll_concat] at h
    by_cases hb : key b = k
    · rw [if_pos hb] at h
      rw [← Option.some.inj h]
      exact Or.inl ⟨by simp, hb⟩
    · rw [if_neg hb] at h
      exact (ih h).imp_left fun ⟨ha, hk⟩ => ⟨List.mem_append_left _ ha, hk⟩

theorem getElem?_insertAll_of_ne (h : ∀ a ∈ as, key a ≠ k) : (insertAll key m as)[k]? = m[k]? := by
  induction as using List.reverseRecOn with
  | nil => rfl
  | append_singleton as b ih =>
    rw [getElem?_insertAll_concat, if_neg (h b (by simp))]
    exact ih fun a ha => h a (List.mem_append_left _ ha)

/-- Something is found under the key of an entry. -/
theorem exists_getElem?_insertAll (key : α → ℕ) (m : Std.TreeMap ℕ α) (ha : a ∈ as) :
    ∃ b, (insertAll key m as)[key a]? = some b := by
  induction as using List.reverseRecOn with
  | nil => cases ha
  | append_singleton as b ih =>
    rw [getElem?_insertAll_concat]
    by_cases hb : key b = key a
    · exact ⟨b, if_pos hb⟩
    · rw [if_neg hb]
      rcases List.mem_append.mp ha with ha | ha
      · exact ih ha
      · exact absurd (congrArg key (List.mem_singleton.mp ha).symm) hb

/-- An entry is found under its key if no other entry has that key. -/
theorem getElem?_insertAll_of_mem (ha : a ∈ as) (huniq : ∀ b ∈ as, key b = key a → b = a) :
    (insertAll key m as)[key a]? = some a := by
  induction as using List.reverseRecOn with
  | nil => cases ha
  | append_singleton as b ih =>
    rw [getElem?_insertAll_concat]
    by_cases hb : key b = key a
    · rw [if_pos hb, huniq b (by simp) hb]
    · rw [if_neg hb]
      refine ih ?_ fun c hc => huniq c (List.mem_append_left _ hc)
      rcases List.mem_append.mp ha with ha | ha
      · exact ha
      · exact absurd (congrArg key (List.mem_singleton.mp ha).symm) hb

/-- Every entry of the map made from some values is one of them, under its key. -/
theorem mem_toList_insertAll (h : (k, a) ∈ (insertAll key ∅ as).toList) : a ∈ as ∧ key a = k := by
  rw [Std.TreeMap.mem_toList_iff_getElem?_eq_some] at h
  rcases of_getElem?_insertAll h with h | h
  · exact h
  · rw [Std.TreeMap.getElem?_emptyc] at h
    cases h

/-- Listed, the entries of the map stand in the order of their keys. -/
theorem pairwise_toList_insertAll (key : α → ℕ) (as : List α) :
    ((insertAll key ∅ as).toList.map Prod.snd).Pairwise (fun a b => key a < key b) := by
  rw [List.pairwise_map]
  refine Std.TreeMap.ordered_keys_toList.imp_of_mem fun {p q} hp hq hlt => ?_
  rw [(mem_toList_insertAll hp).2, (mem_toList_insertAll hq).2]
  exact Nat.compare_eq_lt.mp hlt

/-- With distinct keys every entry is listed, once. -/
theorem perm_toList_insertAll (h : (as.map key).Nodup) : ((insertAll key ∅ as).toList.map Prod.snd).Perm as := by
  have hnodup : ((insertAll key ∅ as).toList.map Prod.snd).Nodup :=
    (pairwise_toList_insertAll key as).imp fun hlt heq => absurd hlt (by rw [heq]; exact lt_irrefl _)
  refine (List.perm_ext_iff_of_nodup hnodup (List.Nodup.of_map key h)).mpr fun a => ?_
  constructor
  · intro ha
    obtain ⟨⟨k, b⟩, hmem, rfl⟩ := List.mem_map.mp ha
    exact (mem_toList_insertAll hmem).1
  · intro ha
    have huniq : ∀ b ∈ as, key b = key a → b = a := fun b hb hkey => List.inj_on_of_nodup_map h hb ha hkey
    have hget := getElem?_insertAll_of_mem (m := ∅) ha huniq
    exact List.mem_map.mpr ⟨(key a, a), Std.TreeMap.mem_toList_iff_getElem?_eq_some.mpr hget, rfl⟩

/-! ### Maps that are only looked up -/

variable [DecidableEq κ]

def setAll (m : κ → Option ν) (es : List (κ × ν)) : κ → Option ν :=
  es.foldl (fun m e => Function.update m e.1 (some e.2)) m

theorem setAll_cons (m : κ → Option ν) (e : κ × ν) (es : List (κ × ν)) :
    setAll m (e :: es) = setAll (Function.update m e.1 (some e.2)) es := rfl

theorem setAll_append (m : κ → Option ν) (es es' : List (κ × ν)) :
    setAll m (es ++ es') = setAll (setAll m es) es' := List.foldl_append

variable {es : List (κ × ν)}

/-- If all entries with a key agree and there is one, it is what is found. -/
theorem setAll_of_mem {m : κ → Option ν} {k : κ} {v : ν} (hmem : (k, v) ∈ es)
    (huniq : ∀ e ∈ es, e.1 = k → e.2 = v) : setAll m es k = some v := by
  have key : ∀ m : κ → Option ν, ((k, v) ∈ es ∨ m k = some v) → setAll m es k = some v := by
    clear hmem
    induction es with
    | nil =>
      intro m h
      rcases h with h | h
      · cases h
      · exact h
    | cons e es ih =>
      intro m h
      rw [setAll_cons]
      refine ih (fun e' he' => huniq e' (List.mem_cons_of_mem _ he')) _ ?_
      by_cases hk : e.1 = k
      · right
        rw [← hk, Function.update_self, huniq e List.mem_cons_self hk]
      · rcases h with h | h
        · rcases List.mem_cons.mp h with h | h
          · exact absurd (congrArg Prod.fst h).symm hk
          · exact Or.inl h
        · right
          rw [Function.update_of_ne (Ne.symm hk), h]
  exact key m (Or.inl hmem)

theorem setAll_of_notMem {m : κ → Option ν} {k : κ} (h : ∀ e ∈ es, e.1 ≠ k) : setAll m es k = m k := by
  induction es generalizing m with
  | nil => rfl
  | cons e es ih =>
    rw [setAll_cons, ih fun e' he' => h e' (List.mem_cons_of_mem _ he'),
      Function.update_of_ne (h e List.mem_cons_self).symm]

/-- Something is found under the key of an entry. -/
theorem exists_setAll {m : κ → Option ν} {e : κ × ν} (he : e ∈ es) : ∃ v, setAll m es e.1 = some v := by
  have key : ∀ m : κ → Option ν, (e ∈ es ∨ ∃ v, m e.1 = some v) → ∃ v, setAll m es e.1 = some v := by
    clear he
    induction es with
    | nil => exact fun m h => h.resolve_left List.not_mem_nil
    | cons d es ih =>
      intro m h
      rw [setAll_cons]
      refine ih _ ?_
      by_cases hd : d.1 = e.1
      · exact Or.inr ⟨d.2, by rw [← hd, Function.update_self]⟩
      · rcases h with h | ⟨v, hv⟩
        · exact Or.inl ((List.mem_cons.mp h).resolve_left fun h => hd (congrArg Prod.fst h.symm))
        · exact Or.inr ⟨v, by rw [Function.update_of_ne (Ne.symm hd), hv]⟩
  exact key m (Or.inl he)

/-- What is found under a key is one of the entries, or what was there. -/
theorem of_setAll {m : κ → Option ν} {k : κ} {v : ν} (h : setAll m es k = some v) : (k, v) ∈ es ∨ m k = some v := by
  induction es generalizing m with
  | nil => exact Or.inr h
  | cons e es ih =>
    rw [setAll_cons] at h
    rcases ih h with h | h
    · exact Or.inl (List.mem_cons_of_mem _ h)
    · by_cases hk : e.1 = k
      · rw [← hk, Function.update_self] at h
        exact Or.inl (List.mem_cons.mpr (Or.inl (Prod.ext hk.symm (Option.some.inj h).symm)))
      · rw [Function.update_of_ne (Ne.symm hk)] at h
        exact Or.inr h

end ArbReth.Keyed
