import ArbReth.Storage.Unwind

/-! # The sidecar is complete

The sidecar is committed before the state.  Over any run of legacy batches, some of which crash between the two
commits, it keeps a preimage for every slot of the state; so a legacy batch always finds the slots that a
wipe erases. -/

namespace ArbReth.Storage

open ArbReth.Runs

variable {K : Keccak}

/-- A write in the hashed changes of a block. -/
def HashedPostStateSorted.Writes (updates : HashedPostStateSorted) (hashedAddress : B256) (e : B256 × U256) : Prop :=
  ∃ storage, updates.storages[hashedAddress]? = some storage ∧ e ∈ storage.storageSlots

/-! ### Slots that are present -/

variable {slots : Std.TreeMap B256 U256}

theorem present_foldl_write {writes : List (B256 × U256)} {hashedSlot : B256}
    {v : U256}
    (h : (writes.foldl (fun slots e => if e.2 = 0 then slots.erase e.1 else slots.insert e.1 e.2) slots)[hashedSlot]?
      = some v) :
    (∃ e ∈ writes, e.1 = hashedSlot ∧ e.2 ≠ 0) ∨ ∃ w, slots[hashedSlot]? = some w := by
  induction writes generalizing slots with
  | nil => exact Or.inr ⟨v, h⟩
  | cons e writes ih =>
    rw [List.foldl_cons] at h
    rcases ih h with ⟨d, hd, hkey⟩ | ⟨w, hw⟩
    · exact Or.inl ⟨d, List.mem_cons_of_mem _ hd, hkey⟩
    · by_cases hzero : e.2 = 0
      · rw [if_pos hzero, Std.TreeMap.getElem?_erase] at hw
        split at hw
        · cases hw
        · exact Or.inr ⟨w, hw⟩
      · rw [if_neg hzero, getElem?_insert_slot] at hw
        by_cases hkey : e.1 = hashedSlot
        · exact Or.inl ⟨e, List.mem_cons_self, hkey, hzero⟩
        · rw [if_neg hkey] at hw
          exact Or.inr ⟨w, hw⟩

/-- A slot that is present after a block was there before, or the block writes it. -/
theorem present_apply {updates : HashedPostStateSorted} {hashedAddress hashedSlot : B256}
    {v : U256} (h : (updates.apply hashedAddress slots)[hashedSlot]? = some v) :
    (∃ e, updates.Writes hashedAddress e ∧ e.1 = hashedSlot ∧ e.2 ≠ 0) ∨ ∃ w, slots[hashedSlot]? = some w := by
  unfold HashedPostStateSorted.apply at h
  split at h
  · rw [Std.TreeMap.getElem?_emptyc] at h
    cases h
  · split at h
    · exact Or.inr ⟨v, h⟩
    · rename_i storage hstorage
      rcases present_foldl_write h with ⟨e, he, hkey⟩ | ⟨w, hw⟩
      · exact Or.inl ⟨e, ⟨storage, hstorage, he⟩, hkey⟩
      · split at hw
        · rw [Std.TreeMap.getElem?_emptyc] at hw
          cases hw
        · exact Or.inr ⟨w, hw⟩

theorem writes_of_enrichBlock {tracked : Tracked} {preimages : SlotPreimages} {b : ExecutedBlock × Bool}
    {block : ExecutedBlock} (h : enrichBlock K preimages tracked b = .ok block) {hashedAddress : B256}
    {e : B256 × U256} (he : block.hashedState.Writes hashedAddress e) : b.1.hashedState.Writes hashedAddress e := by
  rcases enrichBlock_ok h with ⟨-, rfl⟩ | ⟨-, -, hmark⟩
  · exact he
  · obtain ⟨storage, hstorage, hmem⟩ := he
    rw [hmark] at hstorage
    unfold markHashedStorageWipes at hstorage
    rw [getElem?_foldl_markWiped] at hstorage
    split at hstorage
    · cases hstorage
      cases hold : b.1.hashedState.storages[hashedAddress]? with
      | none =>
        rw [hold] at hmem
        cases hmem
      | some old =>
        rw [hold] at hmem
        exact ⟨old, hold, hmem⟩
    · exact ⟨storage, hstorage, hmem⟩

/-! ### Slots whose preimage is known -/

/-- The sidecar has the plain slot. -/
def SlotPreimages.Knows (K : Keccak) (preimages : SlotPreimages) (hashedSlot : B256) : Prop :=
  ∃ p, preimages hashedSlot = some p ∧ K.slot p = hashedSlot

/-- Every write of a block is to a slot that the block names in its bundle state or its reverts. -/
def NamesWrites (K : Keccak) (block : ExecutedBlock) : Prop :=
  ∀ hashedAddress e, block.hashedState.Writes hashedAddress e → e.2 ≠ 0 → ∃ p ∈ block.state.plainSlots, K.slot p = e.1

section Enrich

variable {tracked : Tracked} {preimages : SlotPreimages}

/-- The sidecar knows the slots that are tracked. -/
def Tracked.Known (K : Keccak) (preimages : SlotPreimages) (tracked : Tracked) : Prop :=
  ∀ hashedAddress current, tracked hashedAddress = some current →
    ∀ (hashedSlot : B256) v, current.slots[hashedSlot]? = some v → preimages.Knows K hashedSlot

theorem exists_injectAccount (hknown : tracked.Known K preimages) {r : Address × AccountRevert}
    (hloaded : r.2.wipeStorage = true → ∃ current, tracked (K.address r.1) = some current) :
    ∃ r', injectAccount K tracked preimages r = .ok r' := by
  unfold injectAccount
  by_cases hwipe : r.2.wipeStorage = true
  · obtain ⟨current, hcurrent⟩ := hloaded hwipe
    rw [if_pos hwipe, hcurrent]
    have hrun : ∃ storage, run (injectSlot K preimages r.1) r.2.storage current.slots.toList = .ok storage ∧ True := by
      refine exists_run_ok (fun _ => True) trivial fun e he m _ => ?_
      obtain ⟨p, hp, hKp⟩ :=
        hknown _ current hcurrent e.1 e.2 (Std.TreeMap.mem_toList_iff_getElem?_eq_some.mp he)
      unfold injectSlot
      rw [hp]
      dsimp only
      rw [if_neg (not_not.mpr hKp)]
      split
      · exact ⟨_, rfl, trivial⟩
      · exact ⟨_, rfl, trivial⟩
    obtain ⟨storage, hstorage, -⟩ := hrun
    dsimp only
    rw [hstorage]
    exact ⟨_, rfl⟩
  · rw [if_neg hwipe]
    exact ⟨r, rfl⟩

theorem exists_enrichBlock (hknown : tracked.Known K preimages) {b : ExecutedBlock × Bool}
    (hloaded : b.2 = true → ∀ address ∈ wipedStorageAddresses b.1.state,
      ∃ current, tracked (K.address address) = some current) :
    ∃ block, enrichBlock K preimages tracked b = .ok block := by
  unfold enrichBlock
  by_cases hcond : (b.2 && blockHasStorageWipe b.1) = true
  · rw [if_pos hcond]
    have hreverts : ∃ reverts, injectPlainWipeReverts K tracked preimages b.1.state.reverts = .ok reverts := by
      refine exists_mapM_ok.mpr fun transition ht => exists_mapM_ok.mpr fun r hr => ?_
      refine exists_injectAccount hknown fun hwipe => ?_
      exact hloaded (Bool.and_eq_true_iff.mp hcond).1 r.1
        (mem_wipedStorageAddresses.mpr ⟨r, List.mem_flatten.mpr ⟨transition, ht, hr⟩, hwipe, rfl⟩)
    obtain ⟨reverts, hreverts⟩ := hreverts
    rw [hreverts]
    exact ⟨_, rfl⟩
  · rw [if_neg hcond]
    exact ⟨b.1, rfl⟩

/-- The wipe loop succeeds when the sidecar knows the slots that the accounts have and those that are written. -/
theorem exists_enrichBlocks {blocks : List (ExecutedBlock × Bool)} (hknown : tracked.Known K preimages)
    (hwrites : ∀ b ∈ blocks, ∀ hashedAddress e, b.1.hashedState.Writes hashedAddress e → e.2 ≠ 0 →
      preimages.Knows K e.1) (hloaded : ∀ b ∈ blocks, b.2 = true → ∀ address ∈ wipedStorageAddresses b.1.state,
      ∃ current, tracked (K.address address) = some current) :
    ∃ out, enrichBlocks K preimages tracked blocks = .ok out := by
  induction blocks generalizing tracked with
  | nil => exact ⟨[], rfl⟩
  | cons b blocks ih =>
    obtain ⟨block, hblock⟩ := exists_enrichBlock hknown (hloaded b List.mem_cons_self)
    have hknown' : Tracked.Known K preimages (applyHashedUpdates tracked block.hashedState) := by
      intro hashedAddress current hcurrent hashedSlot v hv
      obtain ⟨old, hold, rfl⟩ := Option.map_eq_some_iff.mp hcurrent
      rcases present_apply hv with ⟨e, he, rfl, hne⟩ | ⟨w, hw⟩
      · exact hwrites b List.mem_cons_self hashedAddress e (writes_of_enrichBlock hblock he) hne
      · exact hknown hashedAddress old hold hashedSlot w hw
    obtain ⟨out, hout⟩ := ih hknown' (fun c hc => hwrites c (List.mem_cons_of_mem _ hc))
      fun c hc hlegacy address haddress => by
        obtain ⟨current, hcurrent⟩ := hloaded c (List.mem_cons_of_mem _ hc) hlegacy address haddress
        exact ⟨_, Option.map_eq_some_iff.mpr ⟨current, hcurrent, rfl⟩⟩
    exact ⟨block :: out, bind_ok.mpr ⟨block, hblock, bind_ok.mpr ⟨out, hout, rfl⟩⟩⟩

theorem exists_load {db : Database} {addresses : List Address} {address : Address} (h : address ∈ addresses) :
    ∃ current, loadWipedAccountStorage K db addresses (K.address address) = some current :=
  Keyed.exists_setAll
    (List.mem_map_of_mem (f := fun a => (K.address a, TrackedStorage.mk a (db.hashedStorages (K.address a)))) h)

end Enrich

/-! ### How a batch is refused -/

/-- A wipe was refused because a plain slot is missing or wrong. -/
def StorageError.LacksPreimage : StorageError → Prop
  | .missingPreimage _ _ => True
  | .corruptPreimage _ _ => True
  | _ => False

theorem stateTrieParent_failsOnly (frontiers : PersistenceFrontiers) (prevDbTip prevPartialStateTrie : ℕ) :
    FailsOnly (fun e => ¬e.LacksPreimage) (frontiers.stateTrieParent prevDbTip prevPartialStateTrie) := by
  intro e h
  unfold PersistenceFrontiers.stateTrieParent at h
  split at h
  · cases h
    exact id
  · cases h
    exact id
  · split at h
    · cases h
      exact id
    · cases h

theorem readDurablePersistenceFrontier_failsOnly (db : Database) (prevDbTip prevPartialStateTrie : ℕ) :
    FailsOnly (fun e => ¬e.LacksPreimage) (readDurablePersistenceFrontier db prevDbTip prevPartialStateTrie) := by
  intro e h
  unfold readDurablePersistenceFrontier at h
  dsimp only at h
  split at h
  · cases h
    exact id
  · split at h
    · cases h
      exact id
    · cases hheader : db.headerByNumber prevPartialStateTrie with
      | none =>
        rw [hheader] at h
        cases h
        exact id
      | some header =>
        rw [hheader] at h
        cases h

theorem readBootstrapPersistenceFrontier_failsOnly (first second : Database) (prevDbTip prevPartialStateTrie : ℕ) :
    FailsOnly (fun e => ¬e.LacksPreimage)
      (readBootstrapPersistenceFrontier first second prevDbTip prevPartialStateTrie) := by
  intro e h
  unfold readBootstrapPersistenceFrontier at h
  split at h
  · cases h
  · exact readDurablePersistenceFrontier_failsOnly _ _ _ e h

theorem validateBlocksFrom_failsOnly (tip : ℕ) (blocks : List ExecutedBlock) (number : ℕ) (parent : B256) :
    FailsOnly (fun e => ¬e.LacksPreimage) (validateBlocksFrom tip number parent blocks) := by
  induction blocks generalizing number parent with
  | nil => exact FailsOnly.ok ()
  | cons block blocks ih =>
    intro e h
    unfold validateBlocksFrom at h
    split at h
    · cases h
      exact id
    · split at h
      · cases h
        exact id
      · split at h
        · cases h
          exact id
        · exact ih _ _ e h

theorem validatePersistenceBatch_failsOnly (factory : ProviderFactory) (frontiers : PersistenceFrontiers)
    (blocks : List ExecutedBlock) (prevDbTip prevPartialStateTrie : ℕ) : FailsOnly (fun e => ¬e.LacksPreimage)
      (validatePersistenceBatch factory frontiers blocks prevDbTip prevPartialStateTrie) := by
  unfold validatePersistenceBatch
  refine FailsOnly.bind ?_ fun parent => ?_
  · split
    · exact stateTrieParent_failsOnly _ _ _
    · exact readBootstrapPersistenceFrontier_failsOnly _ _ _ _
  · intro e h
    unfold validatePersistenceBlocks at h
    split at h
    · cases h
      exact id
    · exact validateBlocksFrom_failsOnly _ _ _ _ e h

theorem missingPreimages_failsOnly (preimages : SlotPreimages) (entries : List (B256 × B256)) :
    FailsOnly (fun e => ¬e.LacksPreimage) (missingPreimages preimages entries) := by
  induction entries with
  | nil => exact FailsOnly.ok []
  | cons d entries ih =>
    unfold missingPreimages
    split
    · exact ih.bind fun missing => FailsOnly.ok _
    · split
      · exact ih
      · intro e h
        cases h
        exact id

theorem recordPreimages_failsOnly (blocks : List (ExecutedBlock × Bool)) (preimages : SlotPreimages) :
    FailsOnly (fun e => ¬e.LacksPreimage) (recordPreimages K blocks preimages) := by
  unfold recordPreimages
  dsimp only
  split
  · intro e h
    cases h
    exact id
  · exact (missingPreimages_failsOnly _ _).bind fun missing => FailsOnly.ok _

/-- A batch is refused before its preimages are committed, or by the wipe loop. -/
theorem prepareStorageV2Batch_error {factory : ProviderFactory} {frontiers : PersistenceFrontiers}
    {input : SaveBlocksInput} {preimages preimages' : SlotPreimages} {legacy : List Bool} {e : StorageError}
    (hv2 : factory.provider.useHashedState = true)
    (hlegacy : legacyBlockFlags factory.provider input.blocks = .ok legacy)
    (h : prepareStorageV2Batch K factory frontiers input preimages = .error (e, preimages')) :
    (preimages' = preimages ∧ ¬e.LacksPreimage) ∨
      (recordPreimages K (input.blocks.zip legacy) preimages = .ok preimages' ∧ enrichBlocks K preimages'
          (loadWipedAccountStorage K factory.provider (collectWipeAddresses (input.blocks.zip legacy)))
          (input.blocks.zip legacy) = .error e) := by
  unfold prepareStorageV2Batch at h
  rw [hv2, if_neg Bool.false_ne_true.symm, hlegacy] at h
  rcases bind_error.mp h with h | ⟨-, -, h⟩
  · obtain ⟨e', he', heq⟩ := mapError_error.mp h
    cases heq
    exact Or.inl ⟨rfl, validatePersistenceBatch_failsOnly _ _ _ _ _ e he'⟩
  · rw [show Except.mapError (·, preimages) (Except.ok legacy : Except StorageError (List Bool)) = .ok legacy
      from rfl, ok_bind] at h
    split at h
    · cases h
    · rcases bind_error.mp h with h | ⟨recorded, hrecorded, h⟩
      · obtain ⟨e', he', heq⟩ := mapError_error.mp h
        cases heq
        exact Or.inl ⟨rfl, recordPreimages_failsOnly _ _ e he'⟩
      · dsimp only at h
        split at h
        · cases h
        · rcases bind_error.mp h with h | ⟨blocks, -, h⟩
          · obtain ⟨e', he', heq⟩ := mapError_error.mp h
            cases heq
            exact Or.inr ⟨mapError_ok.mp hrecorded, he'⟩
          · cases h

/-! ### Runs of legacy batches -/

/-- What is on disk: the sidecar and the hashed state. -/
structure Disk where
  preimages : SlotPreimages
  hashedStorages : B256 → Std.TreeMap B256 U256

/-- A batch over a disk, all of whose blocks are legacy blocks and name the slots they write. -/
structure LegacyBatch (K : Keccak) (d : Disk) where
  factory : ProviderFactory
  frontiers : PersistenceFrontiers
  input : SaveBlocksInput
  legacy : List Bool
  useHashedState : factory.provider.useHashedState = true
  reads : factory.provider.hashedStorages = d.hashedStorages
  flags : legacyBlockFlags factory.provider input.blocks = .ok legacy
  allLegacy : ∀ isLegacy ∈ legacy, isLegacy = true
  names : ∀ block ∈ input.blocks, NamesWrites K block

def LegacyBatch.prepare {d : Disk} (b : LegacyBatch K d) :
    Except (StorageError × SlotPreimages) (SaveBlocksInput × SlotPreimages) :=
  prepareStorageV2Batch K b.factory b.frontiers b.input d.preimages

/-- The state with the hashed changes of some blocks. -/
def commitState (blocks : List ExecutedBlock) (hashedStorages : B256 → Std.TreeMap B256 U256) :
    B256 → Std.TreeMap B256 U256 := fun hashedAddress =>
  blocks.foldl (fun slots block => block.hashedState.apply hashedAddress slots) (hashedStorages hashedAddress)

/-- What a legacy batch does to the disk: the state of its blocks is committed, up to any of them; or the sidecar
is and the state is not. -/
inductive BatchStep (K : Keccak) : Disk → Disk → Prop
  | commit {d : Disk} (b : LegacyBatch K d) {output : SaveBlocksInput} {preimages' : SlotPreimages}
      (h : b.prepare = .ok (output, preimages')) (k : ℕ) :
      BatchStep K d ⟨preimages', commitState (output.blocks.take k) d.hashedStorages⟩
  | crash {d : Disk} (b : LegacyBatch K d) {preimages' : SlotPreimages}
      (h : (∃ output, b.prepare = .ok (output, preimages')) ∨ ∃ e, b.prepare = .error (e, preimages')) :
      BatchStep K d ⟨preimages', d.hashedStorages⟩

/-- The sidecar knows every slot of the state. -/
def Disk.Complete (K : Keccak) (d : Disk) : Prop :=
  ∀ hashedAddress (hashedSlot : B256) v, (d.hashedStorages hashedAddress)[hashedSlot]? = some v →
    d.preimages.Knows K hashedSlot

section Step

variable {d d' : Disk} {preimages' : SlotPreimages}

variable {c : ExecutedBlock × Bool}

theorem LegacyBatch.legacy_of_mem (b : LegacyBatch K d) (hc : c ∈ b.input.blocks.zip b.legacy) : c.1 ∈ b.input.blocks ∧ c.2 = true :=
  ⟨(List.of_mem_zip hc).1, b.allLegacy c.2 (List.of_mem_zip hc).2⟩

theorem Knows.mono {preimages : SlotPreimages} (hkeeps : ∀ s p, preimages s = some p → preimages' s = some p)
    {hashedSlot : B256} (h : preimages.Knows K hashedSlot) : preimages'.Knows K hashedSlot := by
  obtain ⟨p, hp, hKp⟩ := h
  exact ⟨p, hkeeps _ _ hp, hKp⟩

theorem LegacyBatch.knows_writes (hK : Function.Injective K.slot) (b : LegacyBatch K d)
    (h : recordPreimages K (b.input.blocks.zip b.legacy) d.preimages = .ok preimages') (hc : c ∈ b.input.blocks.zip b.legacy) {hashedAddress : B256} {e : B256 × U256}
    (he : c.1.hashedState.Writes hashedAddress e) (hne : e.2 ≠ 0) : preimages'.Knows K e.1 := by
  obtain ⟨hmem, hlegacy⟩ := b.legacy_of_mem hc
  obtain ⟨p, hp, hKp⟩ := b.names c.1 hmem hashedAddress e he hne
  exact ⟨p, hKp ▸ recordPreimages_adds hK h hc hlegacy hp, hKp⟩

/-- After either commit the sidecar is as it was, or the preimages of the batch are recorded. -/
theorem LegacyBatch.sidecar (b : LegacyBatch K d)
    (h : (∃ output, b.prepare = .ok (output, preimages')) ∨ ∃ e, b.prepare = .error (e, preimages')) :
    preimages' = d.preimages ∨ recordPreimages K (b.input.blocks.zip b.legacy) d.preimages = .ok preimages' := by
  rcases h with ⟨output, h⟩ | ⟨e, h⟩
  · exact Or.inr (prepareStorageV2Batch_ok b.useHashedState b.flags h).1
  · rcases prepareStorageV2Batch_error b.useHashedState b.flags h with ⟨h, -⟩ | ⟨h, -⟩
    · exact Or.inl h
    · exact Or.inr h

theorem BatchStep.keeps (h : BatchStep K d d') {hashedSlot p : B256} (hp : d.preimages hashedSlot = some p) :
    d'.preimages hashedSlot = some p := by
  cases h with
  | commit b h k => exact recordPreimages_keeps (prepareStorageV2Batch_ok b.useHashedState b.flags h).1 hp
  | crash b h =>
    rcases b.sidecar h with rfl | h
    · exact hp
    · exact recordPreimages_keeps h hp

theorem Enriched.exists_of_mem {preimages : SlotPreimages} {values : SlotValues}
    {blocks : List (ExecutedBlock × Bool)} {out : List ExecutedBlock} (h : Enriched K preimages values blocks out)
    {block : ExecutedBlock} (hblock : block ∈ out) :
    ∃ b ∈ blocks, ∃ tracked, enrichBlock K preimages tracked b = .ok block := by
  induction h with
  | nil => cases hblock
  | cons _ hb _ ih =>
    rcases List.mem_cons.mp hblock with rfl | hblock
    · exact ⟨_, List.mem_cons_self, _, hb⟩
    · obtain ⟨b, hmem, hok⟩ := ih hblock
      exact ⟨b, List.mem_cons_of_mem _ hmem, hok⟩

theorem present_commitState {blocks : List ExecutedBlock} {hashedStorages : B256 → Std.TreeMap B256 U256}
    {hashedAddress hashedSlot : B256} {v : U256}
    (h : (commitState blocks hashedStorages hashedAddress)[hashedSlot]? = some v) :
    (∃ block ∈ blocks, ∃ e, block.hashedState.Writes hashedAddress e ∧ e.1 = hashedSlot ∧ e.2 ≠ 0) ∨
      ∃ w, (hashedStorages hashedAddress)[hashedSlot]? = some w := by
  unfold commitState at h
  generalize hashedStorages hashedAddress = slots at h ⊢
  induction blocks generalizing slots with
  | nil => exact Or.inr ⟨v, h⟩
  | cons block blocks ih =>
    rw [List.foldl_cons] at h
    rcases ih _ h with ⟨c, hc, hwrite⟩ | ⟨w, hw⟩
    · exact Or.inl ⟨c, List.mem_cons_of_mem _ hc, hwrite⟩
    · exact (present_apply hw).imp_left fun hwrite => ⟨block, List.mem_cons_self, hwrite⟩

theorem BatchStep.complete (hK : Function.Injective K.slot) (h : BatchStep K d d') (hd : d.Complete K) :
    d'.Complete K := by
  have hkeeps : ∀ s p, d.preimages s = some p → d'.preimages s = some p := fun _ _ => h.keeps
  intro hashedAddress hashedSlot v hv
  cases h with
  | crash b h => exact Knows.mono hkeeps (hd hashedAddress hashedSlot v hv)
  | commit b h k =>
    obtain ⟨hrecorded, henriched⟩ := prepareStorageV2Batch_ok b.useHashedState b.flags h
    rcases present_commitState hv with ⟨block, hblock, e, he, rfl, hne⟩ | ⟨w, hw⟩
    · obtain ⟨c, hc, tracked, hok⟩ := henriched.exists_of_mem (List.mem_of_mem_take hblock)
      exact b.knows_writes hK hrecorded hc (writes_of_enrichBlock hok he) hne
    · exact Knows.mono hkeeps (hd hashedAddress hashedSlot w hw)

/-- With a complete sidecar no wipe is refused for a plain slot. -/
theorem LegacyBatch.not_lacksPreimage (hK : Function.Injective K.slot) (hd : d.Complete K) (b : LegacyBatch K d)
    {e : StorageError} (h : b.prepare = .error (e, preimages')) : ¬e.LacksPreimage := by
  rcases prepareStorageV2Batch_error b.useHashedState b.flags h with ⟨-, h⟩ | ⟨hrecorded, herror⟩
  · exact h
  · -- the wipe loop does not fail at all
    have hloop : ∃ out, enrichBlocks K preimages'
        (loadWipedAccountStorage K b.factory.provider (collectWipeAddresses (b.input.blocks.zip b.legacy)))
        (b.input.blocks.zip b.legacy) = .ok out := by
      refine exists_enrichBlocks ?_ (fun c hc ha e he hne => b.knows_writes hK hrecorded hc he hne) ?_
      · intro hashedAddress current hcurrent hashedSlot v hv
        rcases Keyed.of_setAll hcurrent with hmem | hnone
        · obtain ⟨address, -, heq⟩ := List.mem_map.mp hmem
          cases heq
          have hbase : (b.factory.provider.hashedStorages (K.address address))[hashedSlot]? = some v := hv
          rw [b.reads] at hbase
          exact Knows.mono (fun s p => recordPreimages_keeps hrecorded) (hd _ _ v hbase)
        · cases hnone
      · intro c hc hlegacy address haddress
        refine exists_load ?_
        unfold collectWipeAddresses
        rw [List.mem_eraseDups, List.mem_flatMap]
        exact ⟨c, hc, by rw [if_pos hlegacy]; exact haddress⟩
    obtain ⟨out, hout⟩ := hloop
    rw [hout] at herror
    cases herror

end Step

/-- Over every run of legacy batches and crashes the sidecar has one plain slot for every slot of the state, no entry
is overwritten, and a later legacy batch is not refused for a plain slot. -/
theorem sidecar_stays_complete (K : Keccak) (hK : Function.Injective K.slot) (d d' : Disk) (hd : d.Complete K)
    (hrun : Relation.ReflTransGen (BatchStep K) d d') :
    (∀ hashedAddress (hashedSlot : B256) v, (d'.hashedStorages hashedAddress)[hashedSlot]? = some v →
      ∃ p, d'.preimages hashedSlot = some p ∧ ∀ q, K.slot q = hashedSlot ↔ q = p) ∧
    (∀ hashedSlot p, d.preimages hashedSlot = some p → d'.preimages hashedSlot = some p) ∧
    ∀ (b : LegacyBatch K d') e preimages', b.prepare = .error (e, preimages') → ¬e.LacksPreimage := by
  have hinvariant : d'.Complete K ∧ ∀ hashedSlot p, d.preimages hashedSlot = some p → d'.preimages hashedSlot = some p := by
    induction hrun with
    | refl => exact ⟨hd, fun _ _ hp => hp⟩
    | tail _ hstep ih => exact ⟨hstep.complete hK ih.1, fun s p hp => hstep.keeps (ih.2 s p hp)⟩
  refine ⟨fun hashedAddress hashedSlot v hv => ?_, hinvariant.2, fun b e preimages' h => ?_⟩
  · obtain ⟨p, hp, rfl⟩ := hinvariant.1 hashedAddress hashedSlot v hv
    exact ⟨p, hp, fun q => hK.eq_iff⟩
  · exact b.not_lacksPreimage hK hinvariant.1 h

/-! The batch of a written and then wiped account crashes after the sidecar commit, is prepared again, and its first
block is committed. -/

section Sample

theorem writingBlock_names : NamesWrites sampleKeccak writingBlock := by
  rintro hashedAddress e ⟨storage, hstorage, he⟩ -
  unfold writingBlock at hstorage
  rw [getElem?_insert_slot] at hstorage
  split at hstorage
  · cases hstorage
    cases List.mem_singleton.mp he
    exact ⟨6, by decide +kernel, rfl⟩
  · rw [Std.TreeMap.getElem?_emptyc] at hstorage
    cases hstorage

theorem wipingBlock_names : NamesWrites sampleKeccak wipingBlock := by
  rintro hashedAddress e ⟨storage, hstorage, -⟩ -
  unfold wipingBlock at hstorage
  rw [Std.TreeMap.getElem?_emptyc] at hstorage
  cases hstorage

def sampleBatch (preimages : SlotPreimages) :
    LegacyBatch sampleKeccak ⟨preimages, sampleDatabase.hashedStorages⟩ where
  factory := sampleFactory
  frontiers := ⟨none, none⟩
  input := sampleInput
  legacy := [true, true]
  useHashedState := rfl
  reads := rfl
  flags := by decide +kernel
  allLegacy := by decide
  names block hblock := by
    rcases List.mem_cons.mp hblock with rfl | hblock
    · exact writingBlock_names
    · cases List.mem_singleton.mp hblock
      exact wipingBlock_names

def sampleSidecar : SlotPreimages :=
  match (sampleBatch samplePreimages).prepare with
  | .ok r => r.2
  | .error e => e.2

theorem sampleDisk_complete : Disk.Complete sampleKeccak ⟨samplePreimages, sampleDatabase.hashedStorages⟩ := by
  intro hashedAddress hashedSlot v hv
  unfold sampleDatabase at hv
  dsimp only at hv
  split at hv
  · rw [getElem?_insert_slot] at hv
    split at hv
    · rename_i h5
      exact ⟨5, h5 ▸ rfl, h5⟩
    · rw [Std.TreeMap.getElem?_emptyc] at hv
      cases hv
  · rw [Std.TreeMap.getElem?_emptyc] at hv
    cases hv

end Sample

theorem sidecar_stays_complete_crash_and_retry :
    ∃ d', Relation.ReflTransGen (BatchStep sampleKeccak) ⟨samplePreimages, sampleDatabase.hashedStorages⟩ d' ∧
      d'.preimages 5 = some 5 ∧ ∀ (b : LegacyBatch sampleKeccak d') e preimages',
        b.prepare = .error (e, preimages') → ¬e.LacksPreimage := by
  have hfirst : ((sampleBatch samplePreimages).prepare).isOk = true := by decide +kernel
  have hsecond : ((sampleBatch sampleSidecar).prepare).isOk = true := by decide +kernel
  obtain ⟨⟨output, preimages'⟩, hretry⟩ := isOk_iff.mp hsecond
  have hcrash : ∃ output, (sampleBatch samplePreimages).prepare = .ok (output, sampleSidecar) := by
    obtain ⟨⟨output, preimages'⟩, h⟩ := isOk_iff.mp hfirst
    refine ⟨output, ?_⟩
    unfold sampleSidecar
    rw [h]
  have hrun := (Relation.ReflTransGen.single (BatchStep.crash (sampleBatch samplePreimages) (Or.inl hcrash))).tail
    (BatchStep.commit (sampleBatch sampleSidecar) hretry 1)
  have hcomplete := sidecar_stays_complete sampleKeccak Function.injective_id _ _ sampleDisk_complete hrun
  exact ⟨_, hrun, hcomplete.2.1 5 5 rfl, hcomplete.2.2⟩

end ArbReth.Storage
