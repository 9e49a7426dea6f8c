import ArbReth.Storage.WipeReverts

/-! # Unwinding a batch

The reverts of an accepted batch are an exact undo log of its blocks, for every account whose changes revm
records: applied from the last block to the first, they restore the storage before the batch. -/

namespace ArbReth.Storage

open ArbReth.Runs ArbReth.UndoLog

variable {K : Keccak}

/-- The log of a block for one account: its hashed slots, with the values that the reverts restore. -/
def revertLog (K : Keccak) (hashedAddress : B256) (block : ExecutedBlock) : List (B256 × U256) :=
  block.state.reverts.flatten.flatMap fun r =>
    if K.address r.1 = hashedAddress then
      r.2.storage.toList.map (fun e => (K.slot e.1, e.2.toPreviousValue))
    else []

theorem mem_revertLog {hashedAddress : B256} {block : ExecutedBlock} {e : B256 × U256} :
    e ∈ revertLog K hashedAddress block ↔ ∃ r ∈ block.state.reverts.flatten, K.address r.1 = hashedAddress ∧
        ∃ p x, r.2.storage[p]? = some x ∧ (K.slot p, x.toPreviousValue) = e := by
  unfold revertLog
  rw [List.mem_flatMap]
  refine exists_congr fun r => and_congr_right fun _ => ?_
  by_cases haddress : K.address r.1 = hashedAddress
  · rw [if_pos haddress, List.mem_map]
    constructor
    · rintro ⟨⟨p, x⟩, hmem, heq⟩
      exact ⟨haddress, p, x, Std.TreeMap.mem_toList_iff_getElem?_eq_some.mp hmem, heq⟩
    · rintro ⟨-, p, x, hx, heq⟩
      exact ⟨(p, x), Std.TreeMap.mem_toList_iff_getElem?_eq_some.mpr hx, heq⟩
  · rw [if_neg haddress]
    exact ⟨fun h => absurd h List.not_mem_nil, fun h => absurd h.1 haddress⟩

/-! ### What revm records -/

/-- The values that a block's reverts already have are those before the block. -/
def HoldsOld (K : Keccak) (values : SlotValues) (b : ExecutedBlock × Bool) : Prop :=
  ∀ r ∈ b.1.state.reverts.flatten, ∀ (p : B256) w,
    r.2.storage[p]? = some (.some w) → w = values (K.address r.1) (K.slot p)

/-- A block's reverts list the slots of an account that the block changes; where a legacy block wipes they may miss
some. -/
structure ListsChanges (K : Keccak) (values : SlotValues) (b : ExecutedBlock × Bool) (hashedAddress : B256) :
    Prop where
  destroyed : ∀ r ∈ b.1.state.reverts.flatten, K.address r.1 = hashedAddress →
    (b.2 = true ∧ r.2.wipeStorage = true) ∨
      ∀ p : B256, r.2.storage[p]? = some .destroyed → values hashedAddress (K.slot p) = 0
  listed : ∀ hashedSlot, values hashedAddress hashedSlot ≠ storageAfter K values b hashedAddress hashedSlot →
    (∃ r ∈ b.1.state.reverts.flatten, K.address r.1 = hashedAddress ∧
      ∃ (p : B256) (x : RevertToSlot), r.2.storage[p]? = some x ∧ K.slot p = hashedSlot) ∨
    (b.2 = true ∧ hashedAddress ∈ (wipedStorageAddresses b.1.state).map K.address ∧
      values hashedAddress hashedSlot ≠ 0)

/-! ### One block -/

section Block

variable {tracked : Tracked} {preimages : SlotPreimages} {values : SlotValues} {b : ExecutedBlock × Bool}
  {block : ExecutedBlock}

variable {r : Address × AccountRevert}

/-- An emitted revert of a wiped account has every slot that held a value, and the sidecar its plain key. -/
theorem exists_slot_of_enrichBlock (hagree : Agrees tracked values) (hold : HoldsOld K values b)
    (h : enrichBlock K preimages tracked b = .ok block) (hlegacy : b.2 = true) (hr : r ∈ block.state.reverts.flatten) (hwipe : r.2.wipeStorage = true) {hashedSlot : B256}
    (hne : values (K.address r.1) hashedSlot ≠ 0) : ∃ p, preimages hashedSlot = some p ∧ K.slot p = hashedSlot ∧
      r.2.storage[p]? = some (.some (values (K.address r.1) hashedSlot)) := by
  rcases enrichBlock_ok h with ⟨hb, -⟩ | ⟨-, hinject, -⟩
  · rw [hb] at hlegacy
    cases hlegacy
  · obtain ⟨r₀, hr₀, hok⟩ := (mem_injectPlainWipeReverts hinject).1 r hr
    rcases injectAccount_ok hok with ⟨hno, rfl⟩ | ⟨-, haddress, -, current, hcurrent, hinjected⟩
    · rw [hno] at hwipe
      cases hwipe
    · rw [haddress] at hne ⊢
      exact hinjected.exists_slot (hagree _ current hcurrent) (hold r₀ hr₀) hne

/-- Every entry of an emitted revert restores the value before the block. -/
theorem previous_eq_of_enrichBlock (hK : Function.Injective K.slot) (hagree : Agrees tracked values)
    (hold : HoldsOld K values b) (h : enrichBlock K preimages tracked b = .ok block)
    (hr : r ∈ block.state.reverts.flatten)
    (hlists : ListsChanges K values b (K.address r.1)) {p : B256} {x : RevertToSlot}
    (hx : r.2.storage[p]? = some x) : x.toPreviousValue = values (K.address r.1) (K.slot p) := by
  -- a revert that comes out as it went in
  have hunchanged (hr₀ : r ∈ b.1.state.reverts.flatten) (hnot : ¬(b.2 = true ∧ r.2.wipeStorage = true)) :
      x.toPreviousValue = values (K.address r.1) (K.slot p) := by
    cases x with
    | some w => exact hold r hr₀ p w hx
    | destroyed => exact (((hlists.destroyed r hr₀ rfl).resolve_left hnot) p hx).symm
  rcases enrichBlock_ok h with ⟨hb, rfl⟩ | ⟨-, hinject, -⟩
  · exact hunchanged hr fun hboth => Bool.false_ne_true (hb.symm.trans hboth.1)
  · obtain ⟨r₀, hr₀, hok⟩ := (mem_injectPlainWipeReverts hinject).1 r hr
    rcases injectAccount_ok hok with ⟨hno, rfl⟩ | ⟨-, haddress, -, current, hcurrent, hinjected⟩
    · exact hunchanged hr₀ fun hboth => Bool.false_ne_true (hno.symm.trans hboth.2)
    · rw [haddress]
      exact hinjected.previous_eq hK (hagree _ current hcurrent) (hold r₀ hr₀) hx

/-- A slot that a revert lists is listed by the emitted revert of the account. -/
theorem listed_of_enrichBlock (h : enrichBlock K preimages tracked b = .ok block) (hr : r ∈ b.1.state.reverts.flatten) {p : B256} {x : RevertToSlot} (hx : r.2.storage[p]? = some x) :
    ∃ r' ∈ block.state.reverts.flatten, r'.1 = r.1 ∧ ∃ y, r'.2.storage[p]? = some y := by
  rcases enrichBlock_ok h with ⟨-, rfl⟩ | ⟨-, hinject, -⟩
  · exact ⟨r, hr, rfl, x, hx⟩
  · obtain ⟨r', hr', hok⟩ := (mem_injectPlainWipeReverts hinject).2 r hr
    rcases injectAccount_ok hok with ⟨-, rfl⟩ | ⟨-, haddress, -, current, -, hinjected⟩
    · exact ⟨r', hr', rfl, x, hx⟩
    · exact ⟨r', hr', haddress, hinjected.kept p x hx⟩

theorem wiping_of_enrichBlock (h : enrichBlock K preimages tracked b = .ok block) (hr : r ∈ b.1.state.reverts.flatten) (hwipe : r.2.wipeStorage = true) :
    ∃ r' ∈ block.state.reverts.flatten, r'.1 = r.1 ∧ r'.2.wipeStorage = true := by
  rcases enrichBlock_ok h with ⟨-, rfl⟩ | ⟨-, hinject, -⟩
  · exact ⟨r, hr, rfl, hwipe⟩
  · obtain ⟨r', hr', hok⟩ := (mem_injectPlainWipeReverts hinject).2 r hr
    rcases injectAccount_ok hok with ⟨-, rfl⟩ | ⟨-, haddress, hwipe', -⟩
    · exact ⟨r', hr', rfl, hwipe⟩
    · exact ⟨r', hr', haddress, hwipe'⟩

/-- The emitted reverts are those of the block, account by account. -/
theorem accounts_of_enrichBlock (h : enrichBlock K preimages tracked b = .ok block) :
    block.state.reverts.map (List.map fun r => (r.1, r.2.wipeStorage)) =
      b.1.state.reverts.map (List.map fun r => (r.1, r.2.wipeStorage)) := by
  rcases enrichBlock_ok h with ⟨-, rfl⟩ | ⟨-, hinject, -⟩
  · rfl
  · refine map_eq_of_mapM_ok hinject fun transition transition' htransition => ?_
    refine map_eq_of_mapM_ok htransition fun r r' hok => ?_
    rcases injectAccount_ok hok with ⟨-, rfl⟩ | ⟨hwipe, haddress, hwipe', -⟩
    · rfl
    · rw [haddress, hwipe, hwipe']

theorem exact_of_enrichBlock (hK : Function.Injective K.slot) (hagree : Agrees tracked values)
    (hold : HoldsOld K values b) {hashedAddress : B256} (hlists : ListsChanges K values b hashedAddress)
    (h : enrichBlock K preimages tracked b = .ok block) :
    Exact (values hashedAddress) (storageAfter K values b hashedAddress) (revertLog K hashedAddress block) where
  old e he := by
    obtain ⟨r, hr, rfl, p, x, hx, rfl⟩ := mem_revertLog.mp he
    exact previous_eq_of_enrichBlock hK hagree hold h hr hlists hx
  listed hashedSlot hne := by
    rcases hlists.listed hashedSlot hne with ⟨r, hr, haddress, p, x, hx, hp⟩ | ⟨hlegacy, hwiped, hvalue⟩
    · obtain ⟨r', hr', haddress', y, hy⟩ := listed_of_enrichBlock h hr hx
      exact ⟨_, mem_revertLog.mpr ⟨r', hr', haddress' ▸ haddress, p, y, hy, rfl⟩, hp⟩
    · obtain ⟨address, hmem, rfl⟩ := List.mem_map.mp hwiped
      obtain ⟨r, hr, hwipe, rfl⟩ := mem_wipedStorageAddresses.mp hmem
      obtain ⟨r', hr', haddress, hwipe'⟩ := wiping_of_enrichBlock h hr hwipe
      rw [← haddress] at hvalue ⊢
      obtain ⟨p, -, hp, hslot⟩ := exists_slot_of_enrichBlock hagree hold h hlegacy hr' hwipe' hvalue
      exact ⟨_, mem_revertLog.mpr ⟨r', hr', rfl, p, _, hslot, rfl⟩, hp⟩

end Block

/-! ### The batch -/

variable {blocks : List (ExecutedBlock × Bool)}

theorem Enriched.recorded {preimages : SlotPreimages} {values : SlotValues}
    {out : List ExecutedBlock} (hK : Function.Injective K.slot) (h : Enriched K preimages values blocks out)
    (hold : ∀ k b, blocks[k]? = some b → HoldsOld K (storageBefore K values blocks k) b) {hashedAddress : B256}
    (hlists : ∀ k b, blocks[k]? = some b → ListsChanges K (storageBefore K values blocks k) b hashedAddress) :
    Recorded (values hashedAddress) (out.map (revertLog K hashedAddress))
      (blocks.foldl (storageAfter K) values hashedAddress) := by
  induction h with
  | nil values => exact .nil _
  | cons hagree hb _ ih =>
    exact .cons (exact_of_enrichBlock hK hagree (hold 0 _ rfl) (hlists 0 _ rfl) hb)
      (ih (fun k b hk => hold (k + 1) b hk) fun k b hk => hlists (k + 1) b hk)

/-- A hashed slot whose plain slot can not be found: the sidecar has a wrong one, or it has none and no legacy
block of the batch names it. -/
def Unknown (K : Keccak) (preimages : SlotPreimages) (blocks : List (ExecutedBlock × Bool)) (hashedSlot : B256) :
    Prop :=
  (∃ p, preimages hashedSlot = some p ∧ K.slot p ≠ hashedSlot) ∨
    (preimages hashedSlot = none ∧
      ∀ b ∈ blocks, b.2 = true → ∀ p ∈ b.1.state.plainSlots, K.slot p ≠ hashedSlot)

theorem not_unknown {preimages preimages' : SlotPreimages} (h : recordPreimages K blocks preimages = .ok preimages') {hashedSlot p : B256}
    (hp : preimages' hashedSlot = some p) (hK : K.slot p = hashedSlot) : ¬Unknown K preimages blocks hashedSlot := by
  rintro (⟨q, hq, hne⟩ | ⟨hnone, hunnamed⟩)
  · have hkept := recordPreimages_keeps h hq
    rw [hp, Option.some.injEq] at hkept
    exact hne (hkept ▸ hK)
  · rcases recordPreimages_only h hp with hold | ⟨-, b, hb, hlegacy, hslot⟩
    · rw [hnone] at hold
      cases hold
    · exact hunnamed b hb hlegacy p hslot hK

/-- An accepted batch has the same reverts, the revert of a wipe has every slot that held a value, and applied
backwards they restore the storage.  A batch that needs a plain slot which can not be found is refused. -/
theorem wipe_reverts_exact (K : Keccak) (hK : Function.Injective K.slot) (factory : ProviderFactory)
    (frontiers : PersistenceFrontiers) (input : SaveBlocksInput) (preimages : SlotPreimages) (legacy : List Bool)
    (hv2 : factory.provider.useHashedState = true)
    (hlegacy : legacyBlockFlags factory.provider input.blocks = .ok legacy)
    (hold : ∀ k b, (input.blocks.zip legacy)[k]? = some b →
      HoldsOld K (storageBefore K factory.provider.slotValues (input.blocks.zip legacy) k) b) : (∀ output preimages',
      prepareStorageV2Batch K factory frontiers input preimages = .ok (output, preimages') →
        (∀ k b, (input.blocks.zip legacy)[k]? = some (b, true) → ∃ block, output.blocks[k]? = some block ∧
          block.state.reverts.map (List.map fun r => (r.1, r.2.wipeStorage)) =
            b.state.reverts.map (List.map fun r => (r.1, r.2.wipeStorage)) ∧
          ∀ r ∈ block.state.reverts.flatten, r.2.wipeStorage = true → ∀ hashedSlot,
            storageBefore K factory.provider.slotValues (input.blocks.zip legacy) k (K.address r.1) hashedSlot ≠ 0 →
              ∃ p, K.slot p = hashedSlot ∧ r.2.storage[p]? = some (.some
                (storageBefore K factory.provider.slotValues (input.blocks.zip legacy) k (K.address r.1) hashedSlot))) ∧
        ∀ hashedAddress, (∀ k b, (input.blocks.zip legacy)[k]? = some b → ListsChanges K
            (storageBefore K factory.provider.slotValues (input.blocks.zip legacy) k) b hashedAddress) →
          undoAll (output.blocks.map (revertLog K hashedAddress))
              ((output.blocks.map (·, false)).foldl (storageAfter K) factory.provider.slotValues hashedAddress) =
            factory.provider.slotValues hashedAddress) ∧
      ∀ k b, (input.blocks.zip legacy)[k]? = some (b, true) → ∀ r ∈ b.state.reverts.flatten,
        r.2.wipeStorage = true → ∀ hashedSlot,
          storageBefore K factory.provider.slotValues (input.blocks.zip legacy) k (K.address r.1) hashedSlot ≠ 0 →
            Unknown K preimages (input.blocks.zip legacy) hashedSlot →
              ∃ e, prepareStorageV2Batch K factory frontiers input preimages = .error e := by
  refine ⟨fun output preimages' h => ⟨fun k b hk => ?_, fun hashedAddress hlists => ?_⟩, ?_⟩
  · obtain ⟨tracked, block, hagree, hblock, hb⟩ := (prepareStorageV2Batch_ok hv2 hlegacy h).2.at hk
    refine ⟨block, hblock, accounts_of_enrichBlock hb, fun r hr hwipe hashedSlot hne => ?_⟩
    obtain ⟨p, -, hp, hslot⟩ := exists_slot_of_enrichBlock hagree (hold k _ hk) hb rfl hr hwipe hne
    exact ⟨p, hp, hslot⟩
  · have henriched := (prepareStorageV2Batch_ok hv2 hlegacy h).2
    rw [henriched.committed]
    exact (henriched.recorded hK hold hlists).undoAll
  · intro k b hk r hr hwipe hashedSlot hne hunknown
    cases h : prepareStorageV2Batch K factory frontiers input preimages with
    | error e => exact ⟨e, rfl⟩
    | ok result =>
      obtain ⟨hrecorded, henriched⟩ := prepareStorageV2Batch_ok hv2 hlegacy h
      obtain ⟨tracked, block, hagree, -, hb⟩ := henriched.at hk
      obtain ⟨r', hr', haddress, hwipe'⟩ := wiping_of_enrichBlock hb hr hwipe
      rw [← haddress] at hne
      obtain ⟨p, hpre, hp, -⟩ := exists_slot_of_enrichBlock hagree (hold k _ hk) hb rfl hr' hwipe' hne
      exact absurd hunknown (not_unknown hrecorded hpre hp)

/-! A legacy block writes a slot of an account, and the next one wipes the account.  Slots are their own hashes. -/

section Sample

def sampleKeccak : Keccak := ⟨id, fun address => address.setWidth 256⟩

def sampleHeader (number : ℕ) : Header := ⟨number, BitVec.ofNat 256 number, BitVec.ofNat 256 (number - 1), .arbitrum 10⟩

def sampleDatabase : Database where
  useHashedState := true
  lastBlockNumber := 1
  finishCheckpoint := some (1, none)
  headerByNumber n := if n = 1 then some (sampleHeader 1) else none
  hashedStorages hashedAddress := if hashedAddress = 7 then (∅ : Std.TreeMap B256 U256).insert 5 8 else ∅

def writingBlock : ExecutedBlock where
  header := sampleHeader 2
  state := ⟨[[6]], [[(7, ⟨false, (∅ : Std.TreeMap B256 RevertToSlot).insert 6 (.some 0)⟩)]]⟩
  hashedState := ⟨[], (∅ : Std.TreeMap B256 HashedStorageSorted).insert 7 ⟨false, [(6, 9)]⟩⟩

def wipingBlock : ExecutedBlock where
  header := sampleHeader 3
  state := ⟨[[]], [[(7, ⟨true, (∅ : Std.TreeMap B256 RevertToSlot).insert 6 .destroyed⟩)]]⟩
  hashedState := ⟨[(7, false)], ∅⟩

def sampleInput : SaveBlocksInput := ⟨[writingBlock, wipingBlock], 1, 1, 3, 3⟩

def sampleFactory : ProviderFactory := ⟨sampleDatabase, sampleDatabase, sampleDatabase⟩

def samplePreimages : SlotPreimages := fun hashedSlot => if hashedSlot = 5 then some 5 else none

def sampleBlocks : List (ExecutedBlock × Bool) := sampleInput.blocks.zip [true, true]

theorem sample_index {k : ℕ} {b : ExecutedBlock × Bool} (h : sampleBlocks[k]? = some b) :
    (k = 0 ∧ b = (writingBlock, true)) ∨ (k = 1 ∧ b = (wipingBlock, true)) := by
  rcases k with _ | _ | k
  · exact Or.inl ⟨rfl, (Option.some.inj h).symm⟩
  · exact Or.inr ⟨rfl, (Option.some.inj h).symm⟩
  · cases h

theorem sample_holdsOld (k : ℕ) (b : ExecutedBlock × Bool) (h : sampleBlocks[k]? = some b) :
    HoldsOld sampleKeccak (storageBefore sampleKeccak sampleDatabase.slotValues sampleBlocks k) b := by
  intro r hr p w hw
  rcases sample_index h with ⟨rfl, rfl⟩ | ⟨rfl, rfl⟩
  · cases List.mem_singleton.mp hr
    rw [getElem?_insert_slot] at hw
    by_cases hp : 6 = p
    · rw [if_pos hp, Option.some.injEq, RevertToSlot.some.injEq] at hw
      subst hp hw
      decide +kernel
    · rw [if_neg hp, Std.TreeMap.getElem?_emptyc] at hw
      cases hw
  · cases List.mem_singleton.mp hr
    rw [getElem?_insert_slot] at hw
    by_cases hp : 6 = p
    · rw [if_pos hp] at hw
      cases hw
    · rw [if_neg hp, Std.TreeMap.getElem?_emptyc] at hw
      cases hw

theorem sample_listsChanges (k : ℕ) (b : ExecutedBlock × Bool) (h : sampleBlocks[k]? = some b) :
    ListsChanges sampleKeccak (storageBefore sampleKeccak sampleDatabase.slotValues sampleBlocks k) b 7 := by
  rcases sample_index h with ⟨rfl, rfl⟩ | ⟨rfl, rfl⟩
  · refine ⟨fun r hr _ => Or.inr fun p hp => ?_, fun hashedSlot hne => Or.inl ?_⟩
    · cases List.mem_singleton.mp hr
      rw [getElem?_insert_slot] at hp
      by_cases h6 : 6 = p
      · rw [if_pos h6] at hp
        cases hp
      · rw [if_neg h6, Std.TreeMap.getElem?_emptyc] at hp
        cases hp
    · refine ⟨_, List.mem_singleton_self _, by decide, 6, .some 0, by decide +kernel, ?_⟩
      by_contra h6
      refine hne ?_
      unfold storageAfter HashedPostStateSorted.valueAfter writingBlock
      dsimp only
      rw [if_neg List.not_mem_nil, getElem?_insert_slot, if_pos rfl]
      have hno : ¬(6 : B256) = hashedSlot := h6
      dsimp only
      rw [List.foldl_cons, List.foldl_nil, if_neg hno]
      rfl
  · refine ⟨fun r hr _ => Or.inl ?_, fun hashedSlot hne => Or.inr ⟨rfl, by decide, ?_⟩⟩
    · cases List.mem_singleton.mp hr
      exact ⟨rfl, rfl⟩
    · intro hzero
      refine hne (hzero.trans ?_)
      unfold storageAfter HashedPostStateSorted.valueAfter wipingBlock
      exact (if_pos (List.mem_singleton_self _)).symm

end Sample

theorem wipe_reverts_exact_write_then_wipe : ∃ output preimages',
      prepareStorageV2Batch sampleKeccak sampleFactory ⟨none, none⟩ sampleInput samplePreimages =
          .ok (output, preimages') ∧ undoAll (output.blocks.map (revertLog sampleKeccak 7))
            ((output.blocks.map (·, false)).foldl (storageAfter sampleKeccak) sampleDatabase.slotValues 7) =
          sampleDatabase.slotValues 7 ∧ sampleDatabase.slotValues 7 5 = 8 := by
  have hok : (prepareStorageV2Batch sampleKeccak sampleFactory ⟨none, none⟩ sampleInput samplePreimages).isOk = true :=
    by decide +kernel
  obtain ⟨⟨output, preimages'⟩, h⟩ := isOk_iff.mp hok
  have hexact := wipe_reverts_exact sampleKeccak Function.injective_id sampleFactory ⟨none, none⟩ sampleInput
    samplePreimages [true, true] rfl (by decide +kernel) sample_holdsOld
  exact ⟨output, preimages', h, (hexact.1 output preimages' h).2 7 sample_listsChanges, by decide +kernel⟩

end ArbReth.Storage
