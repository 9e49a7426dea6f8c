import ArbReth.Snapshot.Stream

/-! # How records are spelled

Every field of a stream is a token: bytes as they stand, a varint, an integer, a flag.  For each reader of `Stream.lean`
there is the list of tokens of the value that it returns (`Record.tokens`, `manifestTokens`), and it returns this value
exactly if the input begins with a spelling of these tokens (`takes_record`, `takes_manifest`).  The format has one
spelling for a flag (`Token.Documents`), the reader accepts more (`Token.Accepts`): every byte other than 1 says that
there is no resume point, and every byte other than 0 that an account existed before the block.

`Way` puts the records together, tag by tag, and a `Path` goes up to the end of the stream. -/

namespace ArbReth.Snapshot

open ArbReth.Codec
open ArbReth.Storage (U256)

/-! ### How fields are written -/

def putUvarint (v : ℕ) : Bytes :=
  if 0x80 ≤ v then (UInt8.ofNat v ||| 0x80) :: putUvarint (v >>> 7) else [UInt8.ofNat v]
termination_by v
decreasing_by
  rw [Nat.shiftRight_eq_div_pow]
  omega

def putShort (bytes : Bytes) : Bytes := UInt8.ofNat bytes.length :: bytes

/-- A word as it stands. -/
def wordBytes (word : B256) : Bytes := toBe 32 word.toNat

def addressBytes (address : Address) : Bytes := toBe 20 address.toNat

/-- A number without its leading zeros. -/
def numberBytes (value : U256) : Bytes := trim (toBe 32 value.toNat)

/-- No code has no bytes. -/
def codeHashBytes (codeHash : Option B256) : Bytes := (codeHash.map wordBytes).getD []

/-! ### Tokens -/

inductive Token where
  | byte (b : UInt8)
  | raw (bytes : Bytes)
  | varint (n : ℕ)
  | integer (value : U256)
  /-- The account existed before the block. -/
  | present (flag : Bool)
  /-- A resume point follows. -/
  | resumed (flag : Bool)
  /-- Before a record. -/
  | gap
  /-- The end of a section. -/
  | close
deriving DecidableEq, Repr

/-- At most 32 digits, with their number in front. -/
def IsInteger (bytes : Bytes) (value : U256) : Prop :=
  ∃ digits, bytes = putShort digits ∧ digits.length ≤ 32 ∧ ofBe digits = value.toNat

/-- What the reader accepts for a token. -/
def Token.Accepts : Token → Bytes → Prop
  | byte b, bytes => bytes = [b]
  | raw bs, bytes => bytes = bs
  | varint n, bytes => IsVarint bytes n
  | integer value, bytes => IsInteger bytes value
  | present flag, bytes => ∃ b : UInt8, bytes = [b] ∧ (flag = true ↔ b ≠ 0)
  | resumed flag, bytes => ∃ b : UInt8, bytes = [b] ∧ (flag = true ↔ b = 1)
  | gap, bytes => ∃ k, bytes = List.replicate k recEnd
  | close, bytes => ∃ k, bytes = List.replicate k recEnd

/-- What the format has for a token. -/
def Token.Documents : Token → Bytes → Prop
  | present flag, bytes => bytes = [if flag then 1 else 0]
  | resumed flag, bytes => bytes = [if flag then 1 else 0]
  | gap, bytes => bytes = []
  | close, bytes => bytes = [recEnd]
  | t, bytes => t.Accepts bytes

theorem Token.Documents.accepts {t : Token} {bytes : Bytes} (h : t.Documents bytes) : t.Accepts bytes := by
  cases t with
  | present flag => exact ⟨_, h, by cases flag <;> simp⟩
  | resumed flag => exact ⟨_, h, by cases flag <;> simp⟩
  | gap => exact ⟨0, h⟩
  | close => exact ⟨1, h⟩
  | _ => exact h

def codeHashToken (codeHash : Option B256) : Token := .raw (putShort (codeHashBytes codeHash))

def previousTokens : Option PreviousAccount → List Token
  | none => [.present false]
  | some a => [.present true, .varint a.nonce, .integer a.balance, codeHashToken a.codeHash]

def slotTokens (slot : B256 × U256) : List Token := [.raw (wordBytes slot.1), .integer slot.2]

def historyAccountTokens (a : HistoryAccount) : List Token :=
  .raw (addressBytes a.address) :: (previousTokens a.previous ++ .varint a.storage.length :: a.storage.flatMap slotTokens)

def historyTokens (o : HistoryObject) : List Token :=
  .varint o.stateId :: .varint o.block :: .byte historyVersionRawSlots :: .raw (wordBytes o.parentRoot) ::
    .raw (wordBytes o.postRoot) :: .varint o.accounts.length :: o.accounts.flatMap historyAccountTokens

def blobTokens (blob : Bytes) : List Token := [.varint blob.length, .raw blob]

/-- A record after its tag. -/
def Record.tokens : Record → List Token
  | header block hash rlp => .varint block :: .raw (wordBytes hash) :: blobTokens rlp
  | body block rlp => .varint block :: blobTokens rlp
  | receipts block rlp => .varint block :: blobTokens rlp
  | history object => historyTokens object
  | account hashedAddress nonce balance codeHash =>
    [.raw (wordBytes hashedAddress), .varint nonce, .integer balance, codeHashToken codeHash]
  | storage hashedSlot value => [.raw (wordBytes hashedSlot), .integer value]
  | code hash bytes => .raw (wordBytes hash) :: blobTokens bytes

/-! ### Fields -/

theorem takes_varint : Takes Token.Accepts readUvarint fun n => [.varint n] := by
  intro n input rest
  simp only [spells_singleton]
  exact uvarint_eq_ok_iff

/-! ### Varints -/

theorem putUvarint_eq (v : ℕ) : putUvarint v = Codec.uvarint v := by
  have hmark (b : UInt8) : b ||| 0x80 = UInt8.ofNat (b.toNat % 128 + 128) := by
    revert b
    decide +kernel
  induction v using Nat.strongRecOn with
  | ind v ih =>
    rw [putUvarint, Codec.uvarint]
    split
    · rename_i hge
      have hmod : v % 2 ^ 8 % 128 = v % 128 := by omega
      rw [if_neg (by omega), hmark, Nat.shiftRight_eq_div_pow, ih _ (by omega), UInt8.toNat_ofNat', hmod]
    · rw [if_pos (by omega)]

/-- No digit of the encoding is lost: it has not the tenth byte whose bits above the lowest fall out of the 64. -/
def Kept (bytes : Bytes) : Prop := bytes.length = 10 → groupValue bytes < 2 ^ 64

theorem Kept.value_lt {bytes : Bytes} (h : Kept bytes) (hlength : bytes.length ≤ 10) :
    groupValue bytes < 2 ^ 64 := by
  rcases hlength.lt_or_eq with hlt | heq
  · have hpow : 128 ^ bytes.length ≤ 128 ^ 9 := Nat.pow_le_pow_right (by omega) (by omega)
    exact (groupValue_lt bytes).trans_le (hpow.trans (by norm_num))
  · exact h heq

/-- The value that is read is that of the digits, and a value above 64 bits is refused. -/
def ReadExactly (bytes rest : Bytes) : Prop :=
  (∀ v, (readUvarint (bytes ++ rest)).val = .ok (v, rest) → groupValue bytes = v) ∧
    (2 ^ 64 ≤ groupValue bytes → (readUvarint (bytes ++ rest)).val = .error .varintOverflow)

/-- **Varints are read exactly**, unless a tenth byte is above 1. -/
theorem uvarint_exact (rest : Bytes) :
    (∀ input v, (readUvarint input).val = .ok (v, rest) →
      ∃ bytes, Terminated bytes ∧ input = bytes ++ rest) ∧
    (∀ bytes, Terminated bytes → (ReadExactly bytes rest ↔ Kept bytes)) ∧
    ∀ v < 2 ^ 64, (readUvarint (putUvarint v ++ rest)).val = .ok (v, rest) := by
  refine ⟨fun input v h => ?_, fun bytes hterm => ⟨fun ⟨_, hlarge⟩ hlength => ?_,
    fun hkept => ⟨fun v h => ?_, fun hvalue => ?_⟩⟩, fun v hv => ?_⟩
  · obtain ⟨bytes, heq, hbytes⟩ := uvarint_eq_ok_iff.mp h
    exact ⟨bytes, hbytes.terminated, heq⟩
  · -- ten bytes are read, whatever the last of them is
    by_contra hvalue
    have hread : (readUvarint (bytes ++ rest)).val = .ok (groupValue bytes % 2 ^ 64, rest) :=
      uvarint_eq_ok_iff.mpr ⟨bytes, rfl, hterm, hlength.le, rfl⟩
    cases (hlarge (Nat.not_lt.mp hvalue)).symm.trans hread
  · obtain ⟨bytes', heq, -, hlength, hvalue⟩ := uvarint_eq_ok_iff.mp h
    obtain rfl := List.append_cancel_right heq
    rw [hvalue, Nat.mod_eq_of_lt (hkept.value_lt hlength)]
  · have hread : (∃ n, (readUvarint (bytes ++ rest)).val = .ok (n, rest)) ∨
        (readUvarint (bytes ++ rest)).val = .error .varintOverflow := hterm.uvarintLoop rest 0 0
    rcases hread with ⟨n, h⟩ | h
    · obtain ⟨bytes', heq, -, hlength, -⟩ := uvarint_eq_ok_iff.mp h
      obtain rfl := List.append_cancel_right heq
      exact absurd (hkept.value_lt hlength) (Nat.not_lt.mpr hvalue)
    · exact h
  · rw [putUvarint_eq]
    exact uvarint_eq_ok_iff.mpr ⟨_, rfl, isVarint_uvarint hv⟩

theorem uvarint_exact_largest : (putUvarint (2 ^ 64 - 1)).length = 10 ∧
      ReadExactly (putUvarint (2 ^ 64 - 1)) [7] ∧
      (readUvarint (putUvarint (2 ^ 64 - 1) ++ [7])).val = .ok (2 ^ 64 - 1, [7]) := by
  have hexact := uvarint_exact [7]
  obtain ⟨hterm, -, -⟩ := isVarint_uvarint (show 2 ^ 64 - 1 < 2 ^ 64 by norm_num)
  rw [← putUvarint_eq] at hterm
  have hkept : Kept (putUvarint (2 ^ 64 - 1)) := fun _ => by
    rw [putUvarint_eq]
    exact lt_of_eq_of_lt (by simp [uvarint, groupValue]) (by norm_num : 2 ^ 64 - 1 < 2 ^ 64)
  exact ⟨by rw [putUvarint_eq]; simp [uvarint], (hexact.2.1 _ hterm).mpr hkept,
    hexact.2.2 _ (by norm_num)⟩

/-- The tenth byte stands for 2⁶⁴, and the value that is read is 0. -/
theorem tenth_byte_is_lost :
    (readUvarint (List.replicate 9 0x80 ++ [2])).val = .ok (0, []) ∧ Terminated (List.replicate 9 0x80 ++ [2]) ∧
      groupValue (List.replicate 9 0x80 ++ [2]) = 2 ^ 64 := by
  refine ⟨by rfl, ?_, by rfl⟩
  simp [Terminated, List.replicate]

/-! ### Other fields -/

theorem takes_byte : Takes Token.Accepts readU8 fun b => [.byte b] := by
  intro b input rest
  simp only [spells_singleton]
  refine byte_eq_ok_iff.trans ⟨fun h => ⟨[b], h, rfl⟩, ?_⟩
  rintro ⟨bytes, rfl, rfl⟩
  rfl

theorem gives_take (n : ℕ) : Gives Token.Accepts (Audited.plain (Reader.take .unexpectedEof n) : StreamReader Bytes)
    fun bytes ts => bytes.length = n ∧ ts = [.raw bytes] := by
  intro bytes input rest
  refine take_eq_ok_iff.trans ⟨fun ⟨hn, h⟩ => ⟨_, ⟨hn, rfl⟩, bytes, h, spells_singleton.mpr rfl⟩, ?_⟩
  rintro ⟨-, ⟨hn, rfl⟩, bytes', rfl, h⟩
  obtain rfl : bytes' = bytes := (spells_singleton (A := Token.Accepts)).mp h
  exact ⟨hn, rfl⟩

theorem toNat_ofBe {w : ℕ} {bytes : Bytes} (h : bytes.length ≤ w) : (BitVec.ofNat (8 * w) (ofBe bytes)).toNat = ofBe bytes := by
  have hle : (256 : ℕ) ^ bytes.length ≤ 256 ^ w := Nat.pow_le_pow_right (by omega) h
  rw [BitVec.toNat_ofNat, Nat.pow_mul]
  exact Nat.mod_eq_of_lt ((ofBe_lt bytes).trans_le hle)

theorem takes_bitVec (w : ℕ) : Takes Token.Accepts
    (do return BitVec.ofNat (8 * w) (ofBe (← Audited.plain (Reader.take .unexpectedEof w))) : StreamReader _)
      fun x => [.raw (toBe w x.toNat)] := by
  refine ((gives_take w).bind fun _ => .pure _).takes fun x ts => ⟨?_, ?_⟩
  · rintro ⟨bytes, -, -, ⟨rfl, rfl⟩, ⟨rfl, rfl⟩, rfl⟩
    rw [toNat_ofBe le_rfl, toBe_ofBe, List.append_nil]
  · rintro rfl
    exact ⟨_, _, _, ⟨length_toBe w x.toNat, rfl⟩, ⟨(ofBe_toBe_bitVec x).symm, rfl⟩, rfl⟩

theorem takes_word : Takes Token.Accepts readB256 fun word => [.raw (wordBytes word)] := takes_bitVec 32

theorem takes_address : Takes Token.Accepts readAddress fun address => [.raw (addressBytes address)] := takes_bitVec 20

theorem takes_blob : Takes Token.Accepts readBlob blobTokens :=
  (takes_varint.next fun _ => .demand _ (gives_take _)).takes fun blob ts => by simp [blobTokens]

theorem readShortBytes_val_iff {input bytes rest : Bytes} :
    (readShortBytes input).val = .ok (bytes, rest) ↔ input = putShort bytes ++ rest ∧ bytes.length < 256 := by
  refine bind_val_iff.trans ⟨?_, ?_⟩
  · rintro ⟨length, mid, hbyte, htake⟩
    obtain rfl := byte_eq_ok_iff.mp hbyte
    obtain ⟨hlength, rfl⟩ := take_eq_ok_iff.mp htake
    refine ⟨?_, by rw [hlength]; exact length.toNat_lt⟩
    rw [putShort, hlength, UInt8.ofNat_toNat]
    rfl
  · rintro ⟨rfl, hlength⟩
    have hcount : (UInt8.ofNat bytes.length).toNat = bytes.length := by
      rw [UInt8.toNat_ofNat']
      omega
    exact ⟨_, _, rfl, take_eq_ok_iff.mpr ⟨hcount.symm, rfl⟩⟩

/-- What is made of at most 255 bytes. -/
theorem takes_short {α : Type} {g : Bytes → Tracing.Traced Demand StreamError α} {tok : α → Token}
    (htok : ∀ a bytes, (tok a).Accepts bytes ↔
      ∃ digits, bytes = putShort digits ∧ digits.length < 256 ∧ (g digits).val = .ok a) :
    Takes Token.Accepts (do Audited.check (g (← readShortBytes))) fun a => [tok a] := by
  intro a input rest
  simp only [spells_singleton, bind_val_iff, check_val_iff, readShortBytes_val_iff, htok]
  constructor
  · rintro ⟨digits, mid, ⟨rfl, hlength⟩, hvalue, rfl⟩
    exact ⟨_, rfl, digits, rfl, hlength, hvalue⟩
  · rintro ⟨-, rfl, digits, rfl, hlength, hvalue⟩
    exact ⟨digits, rest, ⟨rfl, hlength⟩, hvalue, rfl⟩

theorem takes_integer : Takes Token.Accepts readShortU256 fun value => [.integer value] := by
  refine takes_short fun value bytes => exists_congr fun digits => and_congr_right fun _ => ?_
  change _ ↔ _ ∧ shortU256 digits = .ok value
  unfold shortU256
  split
  · exact ⟨fun h => absurd h.1 (by omega), fun h => by cases h.2⟩
  · have hle : digits.length ≤ 32 := by omega
    have hnumber : (BitVec.ofNat 256 (ofBe digits)).toNat = ofBe digits := toNat_ofBe (w := 32) hle
    rw [Except.ok.injEq, ← BitVec.toNat_inj, hnumber]
    exact ⟨fun h => ⟨by omega, h.2⟩, fun h => ⟨hle, h.2⟩⟩

theorem shortHash_val_iff {bytes : Bytes} {codeHash : Option B256} :
    (shortHash bytes).val = .ok codeHash ↔ bytes = codeHashBytes codeHash := by
  constructor
  · intro h
    unfold shortHash at h
    split at h
    · rename_i hnil
      cases h
      exact hnil
    · simp only [Tracing.request] at h
      split at h
      · rename_i hlength
        cases h
        change bytes = toBe 32 (BitVec.ofNat 256 (ofBe bytes)).toNat
        rw [show (BitVec.ofNat 256 (ofBe bytes)).toNat = ofBe bytes from toNat_ofBe (w := 32) hlength.le, ← hlength,
          toBe_ofBe]
      · cases h
  · rintro rfl
    cases codeHash with
    | none => rfl
    | some hash =>
      have hlength : (wordBytes hash).length = 32 := length_toBe 32 _
      have hne : wordBytes hash ≠ [] := List.ne_nil_of_length_pos (by omega)
      change (shortHash (wordBytes hash)).val = _
      rw [shortHash, if_neg hne, Tracing.request, if_pos hlength]
      exact congrArg (fun x => Except.ok (some x)) (ofBe_toBe_bitVec (w := 32) hash)

theorem takes_codeHash : Takes Token.Accepts readCodeHash fun codeHash => [codeHashToken codeHash] := by
  refine takes_short fun codeHash bytes => ?_
  have hlength : (codeHashBytes codeHash).length < 256 := by
    cases codeHash with
    | none => exact Nat.zero_lt_succ _
    | some hash => exact (length_toBe 32 _).trans_lt (by omega)
  simp only [shortHash_val_iff]
  refine ⟨fun h => ⟨_, h, hlength, rfl⟩, ?_⟩
  rintro ⟨digits, rfl, -, rfl⟩
  rfl

/-! ### Records -/

theorem takes_slot : Takes Token.Accepts readSlot slotTokens :=
  (takes_word.next fun _ => takes_integer.next fun _ => .pure _).takes fun slot ts => by
    simp [slotTokens, Prod.ext_iff]

theorem takes_previous : Takes Token.Accepts (readU8 >>= readPrevious) previousTokens := by
  have hflag := Takes.flag (A := Token.Accepts) (C := (· ≠ 0)) (f := readPrevious) (k := .present) StreamError.unexpectedEof
    (g := fun a => [.varint a.nonce, .integer a.balance, codeHashToken a.codeHash]) (fun _ _ => Iff.rfl)
    (fun b hb => if_pos (not_not.mp hb)) fun b hb => ?_
  · intro previous
    cases previous <;> exact hflag _
  · rw [readPrevious, if_neg hb]
    refine (takes_varint.next fun _ => takes_integer.next fun _ => takes_codeHash.next fun _ => .pure _).iff fun o ts => ?_
    cases o with
    | none => simp
    | some a =>
      cases a
      simp

theorem takes_historyAccount : Takes Token.Accepts readHistoryAccount historyAccountTokens :=
  (takes_address.next fun _ => takes_previous.next fun _ => takes_varint.next fun _ => .demand _
    ((takes_slot.replicate _).bind fun _ => .pure _)).takes fun a ts => by
      cases a
      simp [historyAccountTokens]

section records
variable (keccak256 : Bytes → B256) (manifest : Manifest)

theorem gives_history (p : Progress) : Gives Token.Accepts (readHistory manifest p) fun x ts =>
    checkHistory manifest p x.1.stateId x.1.block historyVersionRawSlots x.1.parentRoot x.1.postRoot = .ok x.2 ∧
      ts = historyTokens x.1 := by
  refine (takes_varint.next fun _ => takes_varint.next fun _ => takes_byte.next fun _ => takes_word.next fun _ =>
    takes_word.next fun _ => .after _ fun _ => takes_varint.next fun _ => .demand _
      ((takes_historyAccount.replicate _).bind fun _ => .pure _)).iff fun x ts => ?_
  obtain ⟨⟨stateId, block, parentRoot, postRoot, accounts⟩, p'⟩ := x
  simp [historyTokens]
  constructor
  · rintro ⟨version, hcheck, rfl⟩
    obtain ⟨rfl, -⟩ := checkHistory_ok manifest hcheck
    exact ⟨hcheck, rfl⟩
  · exact fun h => ⟨_, h⟩

/-- What is read is a record of the section, with the tag, that passes the checks. -/
theorem gives_record (p : Progress) (tag : UInt8) : Gives Token.Accepts (readRecord keccak256 manifest p tag) fun x ts =>
    x.1.sec = p.sec ∧ tag = x.1.tag ∧ Admits keccak256 manifest p x.1 x.2 ∧ ts = x.1.tokens := by
  obtain ⟨sec, lastBlock, lastHistory⟩ := p
  cases sec with
  | manifest => exact (Gives.fail _).iff fun x ts => by cases x.1 <;> simp [Record.sec]
  | blocks =>
    refine .ite (fun htag => .iff (takes_varint.next fun _ => takes_word.next fun _ => takes_blob.next fun _ => .after _
      fun _ => .pure _) ?_) fun hheader => .ite (fun htag => .iff (.map _ (takes_varint.next fun _ => takes_blob.next
        fun _ => .pure _)) ?_) fun hbody => .ite (fun htag => .iff (.map _ (takes_varint.next fun _ => takes_blob.next
          fun _ => .pure _)) ?_) fun hreceipts => (Gives.fail _).iff ?_
    all_goals
      rintro ⟨record, p'⟩ ts
      cases record <;> simp [Record.sec, Record.tag, Record.tokens, Admits, *]
    all_goals exact fun h => absurd h (by decide)
  | history =>
    refine .ite (fun htag => ((gives_history manifest _).map _).iff ?_) fun hheader => (Gives.fail _).iff ?_
    all_goals
      rintro ⟨record, p'⟩ ts
      cases record <;> simp [Record.sec, Record.tag, Record.tokens, Admits, *]
  | state =>
    have hcode (hash : B256) (code : Bytes) (record : Record) : checkCode keccak256 hash code = .ok record ↔
        keccak256 code = hash ∧ .code hash code = record := by
      rw [checkCode, ite_not]
      split <;> simp [*]
    refine .ite (fun htag => .iff (.map _ (takes_word.next fun _ => takes_varint.next fun _ => takes_integer.next fun _ =>
      takes_codeHash.next fun _ => .pure _)) ?_) fun haccount => .ite (fun htag => .iff (.map _ (takes_word.next fun _ =>
        takes_integer.next fun _ => .pure _)) ?_) fun hstorage => .ite (fun htag => .iff (.map _ (takes_word.next fun _ =>
          takes_blob.next fun _ => .check _)) ?_) fun hcodeTag => (Gives.fail _).iff ?_
    all_goals
      rintro ⟨record, p'⟩ ts
      cases record <;> simp [Record.sec, Record.tag, Record.tokens, Admits, *]
    any_goals exact fun h => absurd h (by decide)
    constructor
    · rintro ⟨rfl, rfl, rfl⟩
      exact ⟨⟨rfl, rfl⟩, rfl⟩
    · rintro ⟨⟨rfl, rfl⟩, rfl⟩
      exact ⟨rfl, rfl, rfl⟩

end records

/-! ### The manifest -/

def resumeTokens : Option ResumePoint → List Token
  | none => [.resumed false]
  | some r => [.resumed true, .varint r.l1Block, .varint r.delayedCount, .varint r.l2Block]

def manifestTokens (m : Manifest) : List Token :=
  .raw magic :: .byte (Section.tag .manifest) :: .varint m.block :: .raw (wordBytes m.root) :: .varint m.stateId ::
    .raw (wordBytes m.hash) :: resumeTokens m.resume

/-- Every byte other than 1 says that there is no resume point. -/
theorem takes_resume : Takes Token.Accepts (readU8 >>= readResume) resumeTokens := by
  have hflag := Takes.flag (A := Token.Accepts) (C := (· = 1)) (f := readResume) (k := .resumed) StreamError.unexpectedEof
    (g := fun r => [.varint r.l1Block, .varint r.delayedCount, .varint r.l2Block]) (fun _ _ => Iff.rfl)
    (fun b hb => if_neg hb) fun b hb => ?_
  · intro resume
    cases resume <;> exact hflag _
  · rw [readResume, if_pos hb]
    refine (takes_varint.next fun _ => takes_varint.next fun _ => takes_varint.next fun _ => .pure _).iff fun o ts => ?_
    cases o with
    | none => simp
    | some r =>
      cases r
      simp

theorem takes_manifest : Takes Token.Accepts readManifest manifestTokens := by
  have hmagic (found : Bytes) : checkMagic found = .ok () ↔ found = magic := by simp [checkMagic]
  have htag (tag : UInt8) : checkManifestTag tag = .ok () ↔ tag = Section.tag .manifest := by simp [checkManifestTag]
  refine ((gives_take 8).bind fun _ => .after _ fun _ => takes_byte.next fun _ => .after _ fun _ => takes_varint.next fun _ =>
    takes_word.next fun _ => takes_varint.next fun _ => takes_word.next fun _ => takes_resume.next fun _ => .pure _).takes
      fun m ts => ?_
  cases m
  simp [hmagic, htag, manifestTokens]
  exact fun _ => rfl

/-! ### The way of the reader -/

section path
variable (keccak256 : Bytes → B256) (manifest : Manifest)

/-- The bytes of tags and records, one after the other, and what the reader then remembers. -/
inductive Way : Progress → Bytes → List Record → Progress → Prop
  | nil (p : Progress) : Way p [] [] p
  | opens {p q : Progress} {s : Section} {tag : UInt8} {bytes : Bytes} {records : List Record} :
      p.sec.opens tag = some s → Way { p with sec := s } bytes records q → Way p (tag :: bytes) records q
  | ends {p q : Progress} {bytes : Bytes} {records : List Record} :
      p.sec ≠ .manifest → Way p bytes records q → Way p (recEnd :: bytes) records q
  | record {p p' q : Progress} {record : Record} {fields bytes : Bytes} {records : List Record} :
      record.sec = p.sec → Admits keccak256 manifest p record p' → Spells Token.Accepts record.tokens fields →
        Way p' bytes records q → Way p (record.tag :: (fields ++ bytes)) (record :: records) q

/-- The bytes up to the end, and their records. -/
def Path (p : Progress) (bytes : Bytes) (records : List Record) : Prop :=
  ∃ front q, bytes = front ++ [sectionEnd] ∧ q.sec = .state ∧ Way keccak256 manifest p front records q

variable {keccak256 manifest} {p p' q : Progress} {bytes input rest : Bytes} {records : List Record}
  {x : Option (Record × Progress)}

theorem nextTag_opens {s : Section} {tag : UInt8} (h : p.sec.opens tag = some s) (rest : Bytes) :
    nextTag keccak256 manifest p (tag :: rest) = nextTag keccak256 manifest { p with sec := s } rest := by
  rw [nextTag, h]

theorem nextTag_recEnd (h : p.sec ≠ .manifest) (rest : Bytes) :
    nextTag keccak256 manifest p (recEnd :: rest) = nextTag keccak256 manifest p rest := by
  have hopens : p.sec.opens recEnd = none := by
    cases p.sec <;> rfl
  rw [nextTag, hopens]
  simp only
  rw [if_neg (fun hlast => absurd hlast.2 (by decide)), if_neg h, if_pos trivial]

theorem nextTag_sectionEnd (h : p.sec = .state) (rest : Bytes) :
    (nextTag keccak256 manifest p (sectionEnd :: rest)).val = .ok (none, rest) := by
  rw [nextTag, h]
  rfl

theorem Way.append {used : Bytes} {later : List Record} (h : Way keccak256 manifest p used records q)
    (h' : Way keccak256 manifest q bytes later p') : Way keccak256 manifest p (used ++ bytes) (records ++ later) p' := by
  induction h with
  | nil p => exact h'
  | opens hopens _ ih => exact .opens hopens (ih h')
  | ends hsec _ ih => exact .ends hsec (ih h')
  | record hsec hadmits hfields _ ih =>
    rw [List.cons_append, List.append_assoc]
    exact .record hsec hadmits hfields (ih h')

theorem Path.done (h : p.sec = .state) : Path keccak256 manifest p [Snapshot.sectionEnd] [] := ⟨[], p, rfl, h, .nil p⟩

theorem Way.path {used : Bytes} {later : List Record} (h : Way keccak256 manifest p used records q)
    (h' : Path keccak256 manifest q bytes later) : Path keccak256 manifest p (used ++ bytes) (records ++ later) := by
  obtain ⟨front, q', rfl, hsec, hway⟩ := h'
  exact ⟨used ++ front, q', (List.append_assoc ..).symm, hsec, h.append hway⟩

/-- The input begins with the end of the stream, or with a record. -/
def Found (keccak256 : Bytes → B256) (manifest : Manifest) (p : Progress) (input rest : Bytes) :
    Option (Record × Progress) → Prop
  | none => p.sec = .state ∧ input = sectionEnd :: rest
  | some (record, p') => record.sec = p.sec ∧ Admits keccak256 manifest p record p' ∧
      ∃ fields, Spells Token.Accepts record.tokens fields ∧ input = record.tag :: (fields ++ rest)

theorem nextTag_ok (h : (nextTag keccak256 manifest p input).val = .ok (x, rest)) :
    ∃ tags input' q, input = tags ++ input' ∧ Way keccak256 manifest p tags [] q ∧
      Found keccak256 manifest q input' rest x := by
  induction input generalizing p with
  | nil => cases h
  | cons tag input ih =>
    rw [nextTag] at h
    split at h
    · obtain ⟨tags, input', q, rfl, htags, hfound⟩ := ih h
      exact ⟨tag :: tags, input', q, rfl, .opens ‹_› htags, hfound⟩
    · split at h
      · rename_i hend
        obtain ⟨hsec, rfl⟩ := hend
        cases h
        exact ⟨[], _, p, rfl, .nil p, hsec, rfl⟩
      · split at h
        · cases h
        · rename_i hsec
          split at h
          · rename_i htag
            subst htag
            obtain ⟨tags, input', q, rfl, htags, hfound⟩ := ih h
            exact ⟨recEnd :: tags, input', q, rfl, .ends hsec htags, hfound⟩
          · obtain ⟨-, ⟨y, rfl, hrecord, rfl, hadmits, rfl⟩, fields, rfl, hfields⟩ :=
              (((gives_record keccak256 manifest p tag).map some) x input rest).mp h
            exact ⟨[], _, p, rfl, .nil p, hrecord, hadmits, fields, hfields, rfl⟩

theorem nextTag_way (h : (nextTag keccak256 manifest p input).val = .ok (x, rest)) :
    ∃ used, input = used ++ rest ∧ (x = none → Path keccak256 manifest p used []) ∧
      ∀ record p', x = some (record, p') → Way keccak256 manifest p used [record] p' := by
  obtain ⟨tags, input', q, rfl, htags, hfound⟩ := nextTag_ok h
  cases x with
  | none =>
    obtain ⟨hsec, rfl⟩ := hfound
    exact ⟨tags ++ [sectionEnd], by simp, fun _ => htags.path (.done hsec), nofun⟩
  | some y =>
    obtain ⟨hsec, hadmits, fields, hfields, rfl⟩ := hfound
    refine ⟨tags ++ y.1.tag :: fields, by simp, nofun, fun record p' hy => ?_⟩
    cases hy
    simpa using htags.append (.record hsec hadmits hfields (.nil p'))

theorem nextTag_advances (h : (nextTag keccak256 manifest p input).val = .ok (x, rest)) : rest.length < input.length := by
  obtain ⟨tags, input', q, rfl, -, hfound⟩ := nextTag_ok h
  cases x with
  | none =>
    obtain ⟨-, rfl⟩ := hfound
    simp only [List.length_append, List.length_cons]
    omega
  | some y =>
    obtain ⟨-, -, fields, -, rfl⟩ := hfound
    simp only [List.length_append, List.length_cons]
    omega

theorem Way.tags {tags : Bytes} (h : Way keccak256 manifest p tags [] q) : q = { p with sec := q.sec } := by
  generalize hnone : ([] : List Record) = records at h
  induction h with
  | nil p => rfl
  | opens _ _ ih => exact ih hnone
  | ends _ _ ih => exact ih hnone
  | record => cases hnone

theorem nextTag_checks {y : Record × Progress} (h : (nextTag keccak256 manifest p input).val = .ok (some y, rest)) :
    Checks keccak256 manifest p y := by
  obtain ⟨tags, input', q, -, htags, -, hadmits, -⟩ := nextTag_ok h
  rw [htags.tags] at hadmits
  obtain ⟨hhistory, hheaded, hbuilds, hcode⟩ := hadmits.checks
  exact ⟨hhistory, hheaded, hbuilds, hcode⟩

theorem nextTag_record {record : Record} {fields : Bytes} (hsec : record.sec = p.sec)
    (h : Admits keccak256 manifest p record p') (hfields : Spells Token.Accepts record.tokens fields) (rest : Bytes) :
    (nextTag keccak256 manifest p (record.tag :: (fields ++ rest))).val = .ok (some (record, p'), rest) := by
  have hread := (((gives_record keccak256 manifest p record.tag).map some) _ _ rest).mpr
    ⟨_, ⟨(record, p'), rfl, hsec, rfl, h, rfl⟩, fields, rfl, hfields⟩
  have hopens : p.sec.opens record.tag = none := by
    rw [← hsec]
    cases record <;> rfl
  have hnot : record.tag ≠ sectionEnd ∧ p.sec ≠ .manifest ∧ record.tag ≠ recEnd := by
    rw [← hsec]
    cases record <;> simp only [Record.tag, Record.sec] <;> decide
  rw [nextTag, hopens]
  simp only
  rw [if_neg (fun hend => hnot.1 hend.2), if_neg hnot.2.1, if_neg hnot.2.2]
  exact hread

theorem openStream_append {head : Bytes} (h : Spells Token.Accepts (manifestTokens manifest) head) (rest : Bytes) :
    SnapshotStream.openStream (head ++ rest) = .ok ⟨rest, manifest, ⟨.manifest, none, none⟩, none, false⟩ := by
  rw [SnapshotStream.openStream, (takes_manifest manifest (head ++ rest) rest).mpr ⟨head, rfl, h⟩]
  rfl

end path

end ArbReth.Snapshot
