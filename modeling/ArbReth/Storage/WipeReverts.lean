import ArbReth.Lib.UndoLog
import ArbReth.Storage.Preimages

/-! # Completed reverts of storage wipes

The storage that a batch of blocks goes through is described by itself, as a function of the base storage
and of the changes and wipes of the blocks.  The wipe loop tracks exactly that storage for the accounts it
completes, so the reverts it emits form an exact undo log of every block. -/

namespace ArbReth.Storage

open ArbReth.Runs

variable {K : Keccak}

theorem getElem?_insert_slot {ν : Type} (m : Std.TreeMap B256 ν) (k a : B256) (v : ν) :
    (m.insert k v)[a]? = if k = a then some v else m[a]? := by
  rw [Std.TreeMap.getElem?_insert]
  simp only [Std.compare_eq_iff_eq]

/-! ### The storage that a batch goes through -/

/-- Values by hashed address and hashed slot; a slot that is absent is zero. -/
abbrev SlotValues := B256 → B256 → U256

def Database.slotValues (db : Database) : SlotValues := fun hashedAddress hashedSlot =>
  (db.hashedStorages hashedAddress).getD hashedSlot 0

/-- The value of a slot after a block.  The block may wipe the account before it writes. -/
def HashedPostStateSorted.valueAfter (updates : HashedPostStateSorted) (wiped : Bool)
    (hashedAddress hashedSlot : B256) (old : U256) : U256 :=
  if (hashedAddress, false) ∈ updates.accounts then 0
  else
    match updates.storages[hashedAddress]? with
    | none => if wiped then 0 else old
    | some storage =>
      storage.storageSlots.foldl (fun v e => if e.1 = hashedSlot then e.2 else v)
        (if wiped || storage.wiped then 0 else old)

/-- The storage after a block: the hashed changes and, for a legacy block, the wipes of its reverts. -/
def storageAfter (K : Keccak) (values : SlotValues) (b : ExecutedBlock × Bool) : SlotValues :=
  fun hashedAddress hashedSlot =>
    b.1.hashedState.valueAfter
      (b.2 && decide (hashedAddress ∈ (wipedStorageAddresses b.1.state).map K.address))
      hashedAddress hashedSlot (values hashedAddress hashedSlot)

def storageBefore (K : Keccak) (base : SlotValues) (blocks : List (ExecutedBlock × Bool)) (k : ℕ) : SlotValues :=
  (blocks.take k).foldl (storageAfter K) base

/-! ### Applying hashed changes -/

theorem getD_foldl_write (writes : List (B256 × U256)) (slots : Std.TreeMap B256 U256) (hashedSlot : B256) :
    (writes.foldl (fun slots e => if e.2 = 0 then slots.erase e.1 else slots.insert e.1 e.2) slots).getD
        hashedSlot 0 =
      writes.foldl (fun v e => if e.1 = hashedSlot then e.2 else v) (slots.getD hashedSlot 0) := by
  induction writes generalizing slots with
  | nil => rfl
  | cons e writes ih =>
    rw [List.foldl_cons, List.foldl_cons, ih]
    congr 1
    by_cases hzero : e.2 = 0
    · rw [if_pos hzero, Std.TreeMap.getD_erase, hzero]
      simp only [Std.compare_eq_iff_eq]
    · rw [if_neg hzero, Std.TreeMap.getD_insert]
      simp only [Std.compare_eq_iff_eq]

theorem HashedStorageSorted.getD_apply (storage : HashedStorageSorted) (slots : Std.TreeMap B256 U256)
    (hashedSlot : B256) :
    (storage.apply slots).getD hashedSlot 0 =
      storage.storageSlots.foldl (fun v e => if e.1 = hashedSlot then e.2 else v)
        (if storage.wiped then 0 else slots.getD hashedSlot 0) := by
  unfold HashedStorageSorted.apply
  rw [getD_foldl_write]
  congr 1
  by_cases hwiped : storage.wiped = true
  · rw [if_pos hwiped, if_pos hwiped, Std.TreeMap.getD_emptyc]
  · rw [if_neg hwiped, if_neg hwiped]

theorem HashedPostStateSorted.getD_apply (updates : HashedPostStateSorted) (hashedAddress hashedSlot : B256)
    (slots : Std.TreeMap B256 U256) : (updates.apply hashedAddress slots).getD hashedSlot 0 =
      updates.valueAfter false hashedAddress hashedSlot (slots.getD hashedSlot 0) := by
  have hdeleted : updates.accounts.any (fun a => decide (a.1 = hashedAddress) && !a.2) = true ↔
      (hashedAddress, false) ∈ updates.accounts := by
    rw [List.any_eq_true]
    constructor
    · rintro ⟨⟨address, alive⟩, ha, hcond⟩
      simp only [Bool.and_eq_true, decide_eq_true_eq, Bool.not_eq_true'] at hcond
      exact hcond.1 ▸ hcond.2 ▸ ha
    · exact fun h => ⟨_, h, by simp⟩
  unfold HashedPostStateSorted.apply HashedPostStateSorted.valueAfter
  by_cases h : (hashedAddress, false) ∈ updates.accounts
  · rw [if_pos (hdeleted.mpr h), if_pos h, Std.TreeMap.getD_emptyc]
  · rw [if_neg fun h' => h (hdeleted.mp h'), if_neg h]
    cases updates.storages[hashedAddress]? with
    | none => rfl
    | some storage => exact storage.getD_apply slots hashedSlot

/-! ### Marked wipes -/

theorem getElem?_foldl_markWiped (addresses : List B256) (storages : Std.TreeMap B256 HashedStorageSorted)
    (hashedAddress : B256) :
    (addresses.foldl markWiped storages)[hashedAddress]? =
      if hashedAddress ∈ addresses then
        some { (storages[hashedAddress]?.getD ⟨false, []⟩) with wiped := true }
      else storages[hashedAddress]? := by
  induction addresses generalizing storages with
  | nil => rw [if_neg List.not_mem_nil, List.foldl_nil]
  | cons a addresses ih =>
    have hstep : (markWiped storages a)[hashedAddress]? =
        if a = hashedAddress then some { (storages[hashedAddress]?.getD ⟨false, []⟩) with wiped := true }
        else storages[hashedAddress]? := by
      unfold markWiped
      rw [getElem?_insert_slot]
      by_cases ha : a = hashedAddress
      · subst ha
        rw [if_pos rfl, if_pos rfl]
        cases storages[a]? <;> rfl
      · rw [if_neg ha, if_neg ha]
    rw [List.foldl_cons, ih, hstep]
    by_cases ha : a = hashedAddress
    · have hmem : hashedAddress ∈ a :: addresses := ha ▸ List.mem_cons_self
      simp only [if_pos ha, if_pos hmem]
      split <;> rfl
    · simp only [if_neg ha, List.mem_cons, Ne.symm ha, false_or]

/-- The marked changes of a legacy block say by themselves what the block wipes. -/
theorem valueAfter_markHashedStorageWipes (block : ExecutedBlock) (hashedAddress hashedSlot : B256) (old : U256) :
    (markHashedStorageWipes K block).valueAfter false hashedAddress hashedSlot old = block.hashedState.valueAfter
        (decide (hashedAddress ∈ (wipedStorageAddresses block.state).map K.address)) hashedAddress hashedSlot old := by
  unfold HashedPostStateSorted.valueAfter markHashedStorageWipes
  dsimp only
  rw [getElem?_foldl_markWiped]
  by_cases hmem : hashedAddress ∈ (wipedStorageAddresses block.state).map K.address
  · rw [if_pos hmem, decide_eq_true hmem]
    cases block.hashedState.storages[hashedAddress]? <;> rfl
  · rw [if_neg hmem, decide_eq_false hmem]

/-! ### Completing one account -/

/-- A revert's storage with the slots of a list filled in. -/
structure Injected (K : Keccak) (preimages : SlotPreimages) (slots : List (B256 × U256))
    (storage storage' : Std.TreeMap B256 RevertToSlot) : Prop where
  kept : ∀ (p : B256) x, storage[p]? = some x → ∃ y, storage'[p]? = some y
  filled : ∀ e ∈ slots, ∃ p v, preimages e.1 = some p ∧ K.slot p = e.1 ∧ storage'[p]? = some (.some v)
  origin : ∀ (p : B256) x, storage'[p]? = some x →
    storage[p]? = some x ∨ ∃ v, x = .some v ∧ (K.slot p, v) ∈ slots

theorem injectSlot_ok {preimages : SlotPreimages} {address : Address}
    {storage storage' : Std.TreeMap B256 RevertToSlot} {slot : B256 × U256}
    (h : injectSlot K preimages address storage slot = .ok storage') :
    ∃ p v, preimages slot.1 = some p ∧ K.slot p = slot.1 ∧ storage' = storage.insert p (.some v) ∧
      (storage[p]? = some (.some v) ∨ v = slot.2) := by
  unfold injectSlot at h
  cases hp : preimages slot.1 with
  | none =>
    rw [hp] at h
    cases h
  | some p =>
    simp only [hp] at h
    by_cases hK : K.slot p = slot.1
    · rw [if_neg (not_not.mpr hK)] at h
      split at h
      · rename_i v hv
        cases h
        exact ⟨p, v, rfl, hK, rfl, Or.inl hv⟩
      · cases h
        exact ⟨p, slot.2, rfl, hK, rfl, Or.inr rfl⟩
    · rw [if_pos hK] at h
      cases h

theorem injected_of_run {preimages : SlotPreimages} {address : Address} {slots : List (B256 × U256)}
    {storage storage' : Std.TreeMap B256 RevertToSlot}
    (h : run (injectSlot K preimages address) storage slots = .ok storage') :
    Injected K preimages slots storage storage' := by
  refine run_induction (Injected K preimages · storage ·)
    ⟨fun p x hx => ⟨x, hx⟩, fun e he => absurd he List.not_mem_nil, fun p x hx => Or.inl hx⟩ ?_ h
  intro done slot m m' _ _ hm hstep
  obtain ⟨p, v, hp, hK, rfl, hv⟩ := injectSlot_ok hstep
  refine ⟨fun q x hx => ?_, fun e he => ?_, fun q x hx => ?_⟩
  · rw [getElem?_insert_slot]
    by_cases hq : p = q
    · exact ⟨_, if_pos hq⟩
    · rw [if_neg hq]
      exact hm.kept q x hx
  · rcases List.mem_append.mp he with he | he
    · obtain ⟨q, w, hq, hKq, hw⟩ := hm.filled e he
      rw [← hKq]
      by_cases hpq : p = q
      · exact ⟨q, v, hKq ▸ hq, rfl, by rw [getElem?_insert_slot, if_pos hpq]⟩
      · exact ⟨q, w, hKq ▸ hq, rfl, by rw [getElem?_insert_slot, if_neg hpq, hw]⟩
    · rw [List.mem_singleton.mp he]
      exact ⟨p, v, hp, hK, by rw [getElem?_insert_slot, if_pos rfl]⟩
  · rw [getElem?_insert_slot] at hx
    by_cases hq : p = q
    · rw [if_pos hq, Option.some.injEq] at hx
      subst hq hx
      rcases hv with hv | rfl
      · refine (hm.origin p _ hv).imp_right ?_
        rintro ⟨w, hw, hmem⟩
        exact ⟨w, hw, List.mem_append_left _ hmem⟩
      · exact Or.inr ⟨slot.2, rfl, by rw [hK]; simp⟩
    · rw [if_neg hq] at hx
      refine (hm.origin q x hx).imp_right ?_
      rintro ⟨w, hw, hmem⟩
      exact ⟨w, hw, List.mem_append_left _ hmem⟩

theorem injectAccount_ok {tracked : Tracked} {preimages : SlotPreimages} {r r' : Address × AccountRevert}
    (h : injectAccount K tracked preimages r = .ok r') : (r.2.wipeStorage = false ∧ r' = r) ∨
      (r.2.wipeStorage = true ∧ r'.1 = r.1 ∧ r'.2.wipeStorage = true ∧ ∃ current,
        tracked (K.address r.1) = some current ∧
          Injected K preimages current.slots.toList r.2.storage r'.2.storage) := by
  unfold injectAccount at h
  by_cases hwipe : r.2.wipeStorage = true
  · rw [if_pos hwipe] at h
    cases ht : tracked (K.address r.1) with
    | none =>
      rw [ht] at h
      cases h
    | some current =>
      simp only [ht] at h
      obtain ⟨storage, hrun, h⟩ := bind_ok.mp h
      cases h
      exact Or.inr ⟨hwipe, rfl, hwipe, current, rfl, injected_of_run hrun⟩
  · rw [if_neg hwipe] at h
    cases h
    exact Or.inl ⟨Bool.eq_false_iff.mpr hwipe, rfl⟩

/-- What a slot is set to when a block is unwound. -/
def RevertToSlot.toPreviousValue : RevertToSlot → U256
  | .some value => value
  | .destroyed => 0

section Account

variable {preimages : SlotPreimages} {slots : Std.TreeMap B256 U256} {values : B256 → U256}
  {storage storage' : Std.TreeMap B256 RevertToSlot}

theorem Injected.value_eq (h : Injected K preimages slots.toList storage storage')
    (hagree : ∀ s, slots.getD s 0 = values s)
    (hold : ∀ (p : B256) w, storage[p]? = some (.some w) → w = values (K.slot p)) {p : B256} {w : U256}
    (hw : storage'[p]? = some (.some w)) : w = values (K.slot p) := by
  rcases h.origin p _ hw with hw | ⟨v, hv, hmem⟩
  · exact hold p w hw
  · cases hv
    rw [Std.TreeMap.mem_toList_iff_getElem?_eq_some] at hmem
    rw [← hagree, Std.TreeMap.getD_eq_getD_getElem?, hmem, Option.getD_some]

/-- Every slot that holds a value is in the completed revert, under its plain key and with that value. -/
theorem Injected.exists_slot (h : Injected K preimages slots.toList storage storage')
    (hagree : ∀ s, slots.getD s 0 = values s)
    (hold : ∀ (p : B256) w, storage[p]? = some (.some w) → w = values (K.slot p)) {hashedSlot : B256}
    (hne : values hashedSlot ≠ 0) : ∃ p, preimages hashedSlot = some p ∧ K.slot p = hashedSlot ∧
      storage'[p]? = some (.some (values hashedSlot)) := by
  have hpresent : ∃ v, slots[hashedSlot]? = some v := by
    rw [← Option.ne_none_iff_exists']
    intro hnone
    rw [← hagree, Std.TreeMap.getD_eq_getD_getElem?, hnone] at hne
    exact hne rfl
  obtain ⟨v, hv⟩ := hpresent
  obtain ⟨p, w, hp, hKp, hw⟩ := h.filled (hashedSlot, v) (Std.TreeMap.mem_toList_iff_getElem?_eq_some.mpr hv)
  have hval := h.value_eq hagree hold hw
  rw [hKp] at hval
  exact ⟨p, hp, hKp, hval ▸ hw⟩

/-- A slot that the completed revert still calls destroyed held nothing. -/
theorem Injected.destroyed_eq_zero (hK : Function.Injective K.slot)
    (h : Injected K preimages slots.toList storage storage') (hagree : ∀ s, slots.getD s 0 = values s)
    (hold : ∀ (p : B256) w, storage[p]? = some (.some w) → w = values (K.slot p)) {p : B256}
    (hp : storage'[p]? = some .destroyed) : values (K.slot p) = 0 := by
  by_contra hne
  obtain ⟨q, -, hKq, hq⟩ := h.exists_slot hagree hold hne
  rw [hK hKq, hp] at hq
  cases hq

theorem Injected.previous_eq (hK : Function.Injective K.slot)
    (h : Injected K preimages slots.toList storage storage') (hagree : ∀ s, slots.getD s 0 = values s)
    (hold : ∀ (p : B256) w, storage[p]? = some (.some w) → w = values (K.slot p)) {p : B256} {x : RevertToSlot}
    (hx : storage'[p]? = some x) : x.toPreviousValue = values (K.slot p) := by
  cases x with
  | some w => exact h.value_eq hagree hold hx
  | destroyed => exact (h.destroyed_eq_zero hK hagree hold hx).symm

end Account

/-! ### One block -/

section Block

variable {tracked : Tracked} {preimages : SlotPreimages} {values : SlotValues} {b : ExecutedBlock × Bool}
  {block : ExecutedBlock}

theorem mem_wipedStorageAddresses {s : BundleState} {address : Address} :
    address ∈ wipedStorageAddresses s ↔ ∃ r ∈ s.reverts.flatten, r.2.wipeStorage = true ∧ r.1 = address := by
  unfold wipedStorageAddresses
  rw [List.mem_filterMap]
  refine exists_congr fun r => and_congr_right fun _ => ?_
  by_cases hwipe : r.2.wipeStorage = true
  · rw [if_pos hwipe, Option.some.injEq]
    exact ⟨fun h => ⟨hwipe, h⟩, fun h => h.2⟩
  · rw [if_neg hwipe]
    exact ⟨fun h => absurd h (Option.some_ne_none _).symm, fun h => absurd h.1 hwipe⟩

theorem mem_injectPlainWipeReverts {reverts reverts' : List (List (Address × AccountRevert))}
    (h : injectPlainWipeReverts K tracked preimages reverts = .ok reverts') :
    (∀ r' ∈ reverts'.flatten, ∃ r ∈ reverts.flatten, injectAccount K tracked preimages r = .ok r') ∧
      ∀ r ∈ reverts.flatten, ∃ r' ∈ reverts'.flatten, injectAccount K tracked preimages r = .ok r' := by
  refine ⟨fun r' hr' => ?_, fun r hr => ?_⟩
  · obtain ⟨transition', ht', hr'⟩ := List.mem_flatten.mp hr'
    obtain ⟨transition, ht, hok⟩ := mapM_ok_mem h ht'
    obtain ⟨r, hr, hok⟩ := mapM_ok_mem hok hr'
    exact ⟨r, List.mem_flatten.mpr ⟨transition, ht, hr⟩, hok⟩
  · obtain ⟨transition, ht, hr⟩ := List.mem_flatten.mp hr
    obtain ⟨transition', ht', hok⟩ := mem_of_mapM_ok h ht
    obtain ⟨r', hr', hok⟩ := mem_of_mapM_ok hok hr
    exact ⟨r', List.mem_flatten.mpr ⟨transition', ht', hr'⟩, hok⟩

theorem injectPlainWipeReverts_of_no_wipe {reverts : List (List (Address × AccountRevert))}
    (h : ∀ r ∈ reverts.flatten, r.2.wipeStorage = false) :
    injectPlainWipeReverts K tracked preimages reverts = .ok reverts := by
  refine mapM_ok.mpr (List.forall₂_same.mpr fun transition ht => ?_)
  refine mapM_ok.mpr (List.forall₂_same.mpr fun r hr => ?_)
  unfold injectAccount
  rw [if_neg]
  exact Bool.eq_false_iff.mp (h r (List.mem_flatten.mpr ⟨transition, ht, hr⟩))

/-- A legacy block comes out with its reverts completed and its wipes marked, any other as it was. -/
theorem enrichBlock_ok (h : enrichBlock K preimages tracked b = .ok block) : (b.2 = false ∧ block = b.1) ∨
      (b.2 = true ∧ injectPlainWipeReverts K tracked preimages b.1.state.reverts = .ok block.state.reverts ∧
        block.hashedState = markHashedStorageWipes K b.1) := by
  unfold enrichBlock at h
  by_cases hlegacy : b.2 = true
  · right
    by_cases hwipe : blockHasStorageWipe b.1 = true
    · rw [hlegacy, hwipe, Bool.true_and, if_pos rfl] at h
      obtain ⟨reverts, hreverts, h⟩ := bind_ok.mp h
      cases h
      exact ⟨hlegacy, hreverts, rfl⟩
    · rw [hlegacy, Bool.eq_false_iff.mpr hwipe, Bool.true_and, if_neg Bool.false_ne_true] at h
      cases h
      have hnone : wipedStorageAddresses b.1.state = [] := by
        simpa [blockHasStorageWipe] using hwipe
      refine ⟨hlegacy, injectPlainWipeReverts_of_no_wipe fun r hr => ?_, ?_⟩
      · by_contra hr'
        have hmem := mem_wipedStorageAddresses.mpr ⟨r, hr, Bool.eq_true_of_not_eq_false hr', rfl⟩
        rw [hnone] at hmem
        cases hmem
      · unfold markHashedStorageWipes
        rw [hnone]
        rfl
  · rw [Bool.eq_false_iff.mpr hlegacy, Bool.false_and, if_neg Bool.false_ne_true] at h
    cases h
    exact Or.inl ⟨Bool.eq_false_iff.mpr hlegacy, rfl⟩

/-- The hashed changes of the emitted block alone lead to the storage after the block. -/
theorem storageAfter_enrichBlock (h : enrichBlock K preimages tracked b = .ok block) (values : SlotValues) :
    storageAfter K values (block, false) = storageAfter K values b := by
  funext hashedAddress hashedSlot
  unfold storageAfter
  rcases enrichBlock_ok h with ⟨hlegacy, rfl⟩ | ⟨hlegacy, -, hmark⟩
  · rw [hlegacy]
  · dsimp only
    rw [hmark, hlegacy, Bool.false_and, Bool.true_and, valueAfter_markHashedStorageWipes]

end Block

/-! ### The wipe loop -/

/-- The tracked slots are those of the storage. -/
def Agrees (tracked : Tracked) (values : SlotValues) : Prop :=
  ∀ hashedAddress current, tracked hashedAddress = some current →
    ∀ hashedSlot, current.slots.getD hashedSlot 0 = values hashedAddress hashedSlot

theorem agrees_load (db : Database) (addresses : List Address) :
    Agrees (loadWipedAccountStorage K db addresses) db.slotValues := by
  intro hashedAddress current h hashedSlot
  rcases Keyed.of_setAll h with h | h
  · obtain ⟨address, -, heq⟩ := List.mem_map.mp h
    cases heq
    rfl
  · cases h

theorem Agrees.step {tracked : Tracked} {preimages : SlotPreimages} {values : SlotValues}
    {b : ExecutedBlock × Bool} {block : ExecutedBlock} (hagree : Agrees tracked values)
    (h : enrichBlock K preimages tracked b = .ok block) :
    Agrees (applyHashedUpdates tracked block.hashedState) (storageAfter K values b) := by
  intro hashedAddress current hcurrent hashedSlot
  obtain ⟨old, hold, rfl⟩ := Option.map_eq_some_iff.mp hcurrent
  rw [← storageAfter_enrichBlock h]
  dsimp only
  rw [HashedPostStateSorted.getD_apply, hagree hashedAddress old hold]
  rfl

/-- The emitted blocks: each is enriched with the storage before it tracked. -/
inductive Enriched (K : Keccak) (preimages : SlotPreimages) :
    SlotValues → List (ExecutedBlock × Bool) → List ExecutedBlock → Prop
  | nil (values : SlotValues) : Enriched K preimages values [] []
  | cons {values : SlotValues} {b : ExecutedBlock × Bool} {blocks : List (ExecutedBlock × Bool)}
      {block : ExecutedBlock} {out : List ExecutedBlock} {tracked : Tracked} (hagree : Agrees tracked values)
      (h : enrichBlock K preimages tracked b = .ok block)
      (hrest : Enriched K preimages (storageAfter K values b) blocks out) :
      Enriched K preimages values (b :: blocks) (block :: out)

section Loop

variable {preimages : SlotPreimages} {values : SlotValues} {blocks : List (ExecutedBlock × Bool)}
  {out : List ExecutedBlock}

theorem enriched_of_enrichBlocks {tracked : Tracked} (hagree : Agrees tracked values)
    (h : enrichBlocks K preimages tracked blocks = .ok out) : Enriched K preimages values blocks out := by
  induction blocks generalizing tracked values out with
  | nil =>
    cases h
    exact .nil values
  | cons b blocks ih =>
    obtain ⟨block, hblock, h⟩ := bind_ok.mp h
    obtain ⟨rest, hrest, h⟩ := bind_ok.mp h
    cases h
    exact .cons hagree hblock (ih (hagree.step hblock) hrest)

theorem enriched_of_no_wipe (preimages : SlotPreimages) (values : SlotValues) (h : ∀ b ∈ blocks, b.2 = true → blockHasStorageWipe b.1 = false) :
    Enriched K preimages values blocks (blocks.map Prod.fst) := by
  induction blocks generalizing values with
  | nil => exact .nil values
  | cons b blocks ih =>
    have hstep : enrichBlock K preimages (fun _ => none) b = .ok b.1 := by
      unfold enrichBlock
      rw [if_neg]
      rw [Bool.and_eq_true]
      rintro ⟨hlegacy, hwipe⟩
      rw [h b List.mem_cons_self hlegacy] at hwipe
      cases hwipe
    have hnone : Agrees (fun _ => none) values := fun _ _ hc => by cases hc
    exact .cons hnone hstep (ih _ fun c hc => h c (List.mem_cons_of_mem _ hc))

theorem Enriched.at (h : Enriched K preimages values blocks out) {k : ℕ} {b : ExecutedBlock × Bool}
    (hk : blocks[k]? = some b) :
    ∃ tracked block, Agrees tracked (storageBefore K values blocks k) ∧ out[k]? = some block ∧
      enrichBlock K preimages tracked b = .ok block := by
  induction h generalizing k with
  | nil => cases hk
  | @cons values c blocks block out tracked hagree hc _ ih =>
    cases k with
    | zero =>
      cases hk
      exact ⟨tracked, block, hagree, rfl, hc⟩
    | succ k => exact ih hk

/-- The emitted hashed changes lead to the storage after the batch. -/
theorem Enriched.committed (h : Enriched K preimages values blocks out) :
    (out.map (·, false)).foldl (storageAfter K) values = blocks.foldl (storageAfter K) values := by
  induction h with
  | nil => rfl
  | cons _ hb _ ih => rw [List.map_cons, List.foldl_cons, List.foldl_cons, storageAfter_enrichBlock hb, ih]

end Loop

/-! ### The batch -/

section Batch

variable {factory : ProviderFactory} {frontiers : PersistenceFrontiers} {input output : SaveBlocksInput}
  {preimages preimages' : SlotPreimages} {legacy : List Bool}

theorem legacyFlagsFrom_length {parent : Header} {blocks : List ExecutedBlock}
    (h : legacyFlagsFrom parent blocks = .ok legacy) : legacy.length = blocks.length := by
  induction blocks generalizing parent legacy with
  | nil =>
    cases h
    rfl
  | cons block blocks ih =>
    obtain ⟨_, -, h⟩ := bind_ok.mp h
    obtain ⟨flags, hflags, h⟩ := bind_ok.mp h
    cases h
    rw [List.length_cons, List.length_cons, ih hflags]

theorem legacyBlockFlags_length {db : Database} {blocks : List ExecutedBlock}
    (h : legacyBlockFlags db blocks = .ok legacy) : legacy.length = blocks.length := by
  cases blocks with
  | nil => cases h
  | cons block blocks =>
    simp only [legacyBlockFlags] at h
    by_cases hzero : block.header.number = 0
    · rw [if_pos hzero] at h
      cases h
    · rw [if_neg hzero] at h
      cases hparent : db.headerByNumber (block.header.number - 1) with
      | none =>
        rw [hparent] at h
        cases h
      | some parent =>
        rw [hparent] at h
        exact legacyFlagsFrom_length h

theorem recordPreimages_of_no_legacy {blocks : List (ExecutedBlock × Bool)} (h : ∀ b ∈ blocks, b.2 = false) :
    recordPreimages K blocks preimages = .ok preimages := by
  have hnone : collectSlotPreimages K blocks = [] := by
    refine List.eq_nil_iff_forall_not_mem.mpr fun e he => ?_
    obtain ⟨b, hb, hlegacy, -⟩ := mem_collectSlotPreimages.mp he
    rw [h b hb] at hlegacy
    cases hlegacy
  unfold recordPreimages
  rw [hnone, List.insertionSort_nil]
  rfl

theorem collectWipeAddresses_eq_nil {blocks : List (ExecutedBlock × Bool)}
    (h : (collectWipeAddresses blocks).isEmpty = true) :
    ∀ b ∈ blocks, b.2 = true → blockHasStorageWipe b.1 = false := by
  intro b hb hlegacy
  unfold blockHasStorageWipe
  rw [Bool.not_eq_false', List.isEmpty_iff, List.eq_nil_iff_forall_not_mem]
  intro address haddress
  have hmem : address ∈ collectWipeAddresses blocks := by
    unfold collectWipeAddresses
    rw [List.mem_eraseDups, List.mem_flatMap]
    exact ⟨b, hb, by rw [if_pos hlegacy]; exact haddress⟩
  rw [List.isEmpty_iff.mp h] at hmem
  cases hmem

/-- An accepted batch has recorded its preimages, and its blocks come out enriched; where the source
returns early there is nothing to enrich. -/
theorem prepareStorageV2Batch_ok (hv2 : factory.provider.useHashedState = true)
    (hlegacy : legacyBlockFlags factory.provider input.blocks = .ok legacy)
    (h : prepareStorageV2Batch K factory frontiers input preimages = .ok (output, preimages')) :
    recordPreimages K (input.blocks.zip legacy) preimages = .ok preimages' ∧
      Enriched K preimages' factory.provider.slotValues (input.blocks.zip legacy) output.blocks := by
  have hunchanged (s : SlotPreimages)
      (hno : ∀ b ∈ input.blocks.zip legacy, b.2 = true → blockHasStorageWipe b.1 = false) :
      Enriched K s factory.provider.slotValues (input.blocks.zip legacy) input.blocks := by
    have henriched := enriched_of_no_wipe (K := K) s factory.provider.slotValues hno
    rwa [List.map_fst_zip (legacyBlockFlags_length hlegacy).ge] at henriched
  unfold prepareStorageV2Batch at h
  rw [hv2, if_neg Bool.false_ne_true.symm, hlegacy] at h
  obtain ⟨-, -, h⟩ := bind_ok.mp h
  obtain ⟨flags, hflags, h⟩ := bind_ok.mp h
  cases mapError_ok.mp hflags
  by_cases hany : legacy.any id = true
  · rw [hany, Bool.not_true, if_neg Bool.false_ne_true] at h
    obtain ⟨recorded, hrecorded, h⟩ := bind_ok.mp h
    have hrecorded := mapError_ok.mp hrecorded
    by_cases haddresses : (collectWipeAddresses (input.blocks.zip legacy)).isEmpty = true
    · rw [if_pos haddresses] at h
      cases h
      exact ⟨hrecorded, hunchanged _ (collectWipeAddresses_eq_nil haddresses)⟩
    · rw [if_neg haddresses] at h
      obtain ⟨blocks, hblocks, h⟩ := bind_ok.mp h
      cases h
      exact ⟨hrecorded, enriched_of_enrichBlocks (agrees_load _ _) (mapError_ok.mp hblocks)⟩
  · rw [Bool.eq_false_iff.mpr hany, Bool.not_false, if_pos rfl] at h
    cases h
    have hno : ∀ b ∈ input.blocks.zip legacy, b.2 = false := by
      intro b hb
      by_contra hb'
      exact hany (List.any_eq_true.mpr ⟨b.2, (List.of_mem_zip hb).2, Bool.eq_true_of_not_eq_false hb'⟩)
    exact ⟨recordPreimages_of_no_legacy hno,
      hunchanged _ fun b hb hb' => absurd ((hno b hb).symm.trans hb') Bool.false_ne_true⟩

end Batch

end ArbReth.Storage
