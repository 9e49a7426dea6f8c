import ArbReth.Storage.Batch

/-! # Recording slot preimages

What `recordPreimages` does to the sidecar: it keeps every entry, it adds only slots that a legacy block of
the batch names, and it has all of those afterwards. -/

namespace ArbReth.Storage

open ArbReth.Runs

variable {K : Keccak} {blocks : List (ExecutedBlock × Bool)} {preimages preimages' : SlotPreimages}

theorem mem_collectSlotPreimages {e : B256 × B256} : e ∈ collectSlotPreimages K blocks ↔
      ∃ b ∈ blocks, b.2 = true ∧ e.2 ∈ b.1.state.plainSlots ∧ K.slot e.2 = e.1 := by
  unfold collectSlotPreimages
  rw [List.mem_flatMap]
  refine exists_congr fun b => and_congr_right fun _ => ?_
  by_cases hb : b.2 = true
  · rw [if_pos hb, List.mem_map]
    constructor
    · rintro ⟨slot, hslot, rfl⟩
      exact ⟨hb, hslot, rfl⟩
    · rintro ⟨-, hslot, hK⟩
      exact ⟨e.2, hslot, Prod.ext hK rfl⟩
  · rw [if_neg hb]
    exact ⟨fun h => absurd h List.not_mem_nil, fun h => absurd h.1 hb⟩

/-! ### Dropping duplicates -/

variable {entries missing : List (B256 × B256)} {e : B256 × B256}

theorem mem_of_mem_dedupFrom {key : B256} (h : e ∈ dedupFrom key entries) : e ∈ entries := by
  induction entries generalizing key with
  | nil => cases h
  | cons d entries ih =>
    unfold dedupFrom at h
    by_cases hd : d.1 = key
    · rw [if_pos hd] at h
      exact List.mem_cons_of_mem _ (ih h)
    · rw [if_neg hd] at h
      rcases List.mem_cons.mp h with rfl | h
      · exact List.mem_cons_self
      · exact List.mem_cons_of_mem _ (ih h)

theorem mem_of_mem_dedupByKey (h : e ∈ dedupByKey entries) : e ∈ entries := by
  cases entries with
  | nil => cases h
  | cons d entries =>
    rcases List.mem_cons.mp h with rfl | h
    · exact List.mem_cons_self
    · exact List.mem_cons_of_mem _ (mem_of_mem_dedupFrom h)

/-- Every hash keeps an entry, unless it is the hash of the entry before the list. -/
theorem dedupFrom_covers (key : B256) (h : e ∈ entries) : e.1 = key ∨ ∃ d ∈ dedupFrom key entries, d.1 = e.1 := by
  induction entries generalizing key with
  | nil => cases h
  | cons d entries ih =>
    unfold dedupFrom
    by_cases hd : d.1 = key
    · rw [if_pos hd]
      rcases List.mem_cons.mp h with rfl | h
      · exact Or.inl hd
      · exact ih key h
    · rw [if_neg hd]
      right
      rcases List.mem_cons.mp h with rfl | h
      · exact ⟨e, List.mem_cons_self, rfl⟩
      · rcases ih d.1 h with h | ⟨c, hc, hce⟩
        · exact ⟨d, List.mem_cons_self, h.symm⟩
        · exact ⟨c, List.mem_cons_of_mem _ hc, hce⟩

theorem dedupByKey_covers (h : e ∈ entries) : ∃ d ∈ dedupByKey entries, d.1 = e.1 := by
  cases entries with
  | nil => cases h
  | cons d entries =>
    rcases List.mem_cons.mp h with rfl | h
    · exact ⟨e, List.mem_cons_self, rfl⟩
    · rcases dedupFrom_covers d.1 h with h | ⟨c, hc, hce⟩
      · exact ⟨d, List.mem_cons_self, h.symm⟩
      · exact ⟨c, List.mem_cons_of_mem _ hc, hce⟩

/-! ### Missing entries -/

/-- The entries that are kept are those without a slot in the sidecar; the others agree with it. -/
theorem missingPreimages_ok (h : missingPreimages preimages entries = .ok missing) :
    (∀ e, e ∈ missing ↔ e ∈ entries ∧ preimages e.1 = none) ∧
      ∀ e ∈ entries, preimages e.1 = none ∨ preimages e.1 = some e.2 := by
  induction entries generalizing missing with
  | nil =>
    cases h
    simp
  | cons d entries ih =>
    obtain ⟨hashedSlot, plainSlot⟩ := d
    unfold missingPreimages at h
    cases hd : preimages hashedSlot with
    | none =>
      rw [hd] at h
      obtain ⟨rest, hrest, h⟩ := bind_ok.mp h
      cases h
      obtain ⟨hmem, hagree⟩ := ih hrest
      refine ⟨fun e => ?_, fun e he => ?_⟩
      · rw [List.mem_cons, List.mem_cons, hmem]
        constructor
        · rintro (rfl | ⟨he, hn⟩)
          · exact ⟨Or.inl rfl, hd⟩
          · exact ⟨Or.inr he, hn⟩
        · rintro ⟨rfl | he, hn⟩
          · exact Or.inl rfl
          · exact Or.inr ⟨he, hn⟩
      · rcases List.mem_cons.mp he with rfl | he
        · exact Or.inl hd
        · exact hagree e he
    | some existing =>
      simp only [hd] at h
      by_cases heq : existing = plainSlot
      · rw [if_pos heq] at h
        obtain ⟨hmem, hagree⟩ := ih h
        refine ⟨fun e => ?_, fun e he => ?_⟩
        · rw [List.mem_cons, hmem]
          constructor
          · exact fun h => ⟨Or.inr h.1, h.2⟩
          · rintro ⟨rfl | he, hn⟩
            · rw [hd] at hn
              cases hn
            · exact ⟨he, hn⟩
        · rcases List.mem_cons.mp he with rfl | he
          · exact Or.inr (hd.trans (congrArg some heq))
          · exact hagree e he
      · rw [if_neg heq] at h
        cases h

/-! ### The sidecar afterwards -/

theorem recordPreimages_ok (h : recordPreimages K blocks preimages = .ok preimages') :
    ∃ entries missing, (∀ e, e ∈ entries ↔ e ∈ collectSlotPreimages K blocks) ∧
      missingPreimages preimages (dedupByKey entries) = .ok missing ∧ preimages' = Keyed.setAll preimages missing := by
  refine ⟨(collectSlotPreimages K blocks).insertionSort (fun a b => a.1 ≤ b.1), ?_⟩
  unfold recordPreimages at h
  dsimp only at h
  split at h
  · cases h
  · obtain ⟨missing, hmissing, h⟩ := bind_ok.mp h
    cases h
    exact ⟨missing, fun e => List.mem_insertionSort _, hmissing, rfl⟩

theorem recordPreimages_keeps (h : recordPreimages K blocks preimages = .ok preimages') {hashedSlot slot : B256}
    (hs : preimages hashedSlot = some slot) : preimages' hashedSlot = some slot := by
  obtain ⟨entries, missing, -, hmissing, rfl⟩ := recordPreimages_ok h
  rw [Keyed.setAll_of_notMem, hs]
  intro e he heq
  have hnone := (((missingPreimages_ok hmissing).1 e).mp he).2
  rw [heq, hs] at hnone
  cases hnone

/-- What is new in the sidecar is the preimage of its hash, and a legacy block names it. -/
theorem recordPreimages_only (h : recordPreimages K blocks preimages = .ok preimages') {hashedSlot slot : B256}
    (hs : preimages' hashedSlot = some slot) : preimages hashedSlot = some slot ∨
      K.slot slot = hashedSlot ∧ ∃ b ∈ blocks, b.2 = true ∧ slot ∈ b.1.state.plainSlots := by
  obtain ⟨entries, missing, hentries, hmissing, rfl⟩ := recordPreimages_ok h
  rcases Keyed.of_setAll hs with hs | hs
  · right
    have hmem := mem_of_mem_dedupByKey (((missingPreimages_ok hmissing).1 _).mp hs).1
    obtain ⟨b, hb, hlegacy, hslot, hK⟩ := mem_collectSlotPreimages.mp ((hentries _).mp hmem)
    exact ⟨hK, b, hb, hlegacy, hslot⟩
  · exact Or.inl hs

/-- Every slot that a legacy block names is in the sidecar afterwards. -/
theorem recordPreimages_adds (hK : Function.Injective K.slot)
    (h : recordPreimages K blocks preimages = .ok preimages') {b : ExecutedBlock × Bool} (hb : b ∈ blocks)
    (hlegacy : b.2 = true) {slot : B256} (hslot : slot ∈ b.1.state.plainSlots) :
    preimages' (K.slot slot) = some slot := by
  obtain ⟨entries, missing, hentries, hmissing, rfl⟩ := recordPreimages_ok h
  obtain ⟨hmem, hagree⟩ := missingPreimages_ok hmissing
  -- all collected entries with one hash are the same entry
  have huniq : ∀ e ∈ dedupByKey entries, e.1 = K.slot slot → e = (K.slot slot, slot) := by
    intro e he hkey
    obtain ⟨-, -, -, -, hKe⟩ := mem_collectSlotPreimages.mp ((hentries e).mp (mem_of_mem_dedupByKey he))
    exact Prod.ext hkey (hK (hKe.trans hkey))
  have hentry : (K.slot slot, slot) ∈ dedupByKey entries := by
    have hcollected : (K.slot slot, slot) ∈ entries :=
      (hentries _).mpr (mem_collectSlotPreimages.mpr ⟨b, hb, hlegacy, hslot, rfl⟩)
    obtain ⟨d, hd, hkey⟩ := dedupByKey_covers hcollected
    exact huniq d hd hkey ▸ hd
  rcases hagree _ hentry with hnone | hsome
  · refine Keyed.setAll_of_mem ((hmem _).mpr ⟨hentry, hnone⟩) fun e he hkey => ?_
    rw [huniq e ((hmem e).mp he).1 hkey]
  · exact recordPreimages_keeps h hsome

end ArbReth.Storage
