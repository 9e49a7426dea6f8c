import ArbReth.Lib.Codec

/-! # Canonical RLP headers

The recursive-length-prefix encoding puts a header before each item that says whether the item is a
list and how long its payload is.  `decodeHeader` accepts canonical headers only, and only if the
payload is there; a single byte below `0x80` is its own payload.  `decodeUint` reads a big-endian
number without leading zeros.

Every header makes its reader advance (`decodeHeader_advances`), so a loop over the items of a buffer
ends.  `encodeString` writes a string with its canonical header, which is read back whatever follows
(`decodeHeader_encodeString`). -/

namespace ArbReth.Rlp

structure Header where
  list : Bool
  payloadLength : ℕ
deriving DecidableEq, Repr

/-- A big-endian number of at most `width` bytes without leading zeros. -/
def beNat (width : ℕ) (bytes : List UInt8) : Option ℕ :=
  if width < bytes.length then none
  else if bytes.head? = some 0 then none
  else some (bytes.foldl (fun n byte => n * 256 + byte.toNat) 0)

/-- The header, if the rest of the buffer holds its payload. -/
def checked (list : Bool) (payloadLength : ℕ) (rest : List UInt8) : Option (Header × List UInt8) :=
  if rest.length < payloadLength then none else some (⟨list, payloadLength⟩, rest)

/-- A payload of at least 56 bytes, with its length in `lenOfLen` bytes. -/
def decodeLong (list : Bool) (lenOfLen : ℕ) (rest : List UInt8) : Option (Header × List UInt8) :=
  if rest.length < lenOfLen then none
  else
    match beNat 8 (rest.take lenOfLen) with
    | none => none
    | some n => if n < 56 then none else checked list n (rest.drop lenOfLen)

/-- The header at the front of a buffer, and the buffer from its payload on. -/
def decodeHeader : List UInt8 → Option (Header × List UInt8)
  | [] => none
  | b :: rest =>
    if b < 0x80 then some (⟨false, 1⟩, b :: rest)
    else if b < 0xb8 then
      -- a one-byte payload below `0x80` would have been its own header
      if b = 0x81 ∧ rest.head?.all (· < 0x80) then none else checked false (b.toNat - 0x80) rest
    else if b < 0xc0 then decodeLong false (b.toNat - 0xb7) rest
    else if b < 0xf8 then checked true (b.toNat - 0xc0) rest
    else decodeLong true (b.toNat - 0xf7) rest

/-- A number of at most `width` bytes at the front of a buffer. -/
def decodeUint (width : ℕ) (buf : List UInt8) : Option ℕ :=
  match decodeHeader buf with
  | none => none
  | some (header, rest) => if header.list then none else beNat width (rest.take header.payloadLength)

variable {buf rest : List UInt8} {header : Header}

theorem checked_some {list : Bool} {n : ℕ} (h : checked list n buf = some (header, rest)) :
    rest = buf ∧ header.payloadLength ≤ rest.length := by
  unfold checked at h
  split at h
  · cases h
  · cases h
    exact ⟨rfl, Nat.le_of_not_lt ‹_›⟩

theorem decodeLong_some {list : Bool} {k : ℕ} (h : decodeLong list k buf = some (header, rest)) :
    rest <:+ buf ∧ header.payloadLength ≤ rest.length := by
  unfold decodeLong at h
  split at h
  · cases h
  · split at h
    · cases h
    · split at h
      · cases h
      · obtain ⟨rfl, hle⟩ := checked_some h
        exact ⟨List.drop_suffix _ _, hle⟩

/-- The payload lies in the buffer, and skipping it leaves less than before. -/
theorem decodeHeader_advances (h : decodeHeader buf = some (header, rest)) :
    header.payloadLength ≤ rest.length ∧ rest <:+ buf ∧ rest.length - header.payloadLength < buf.length := by
  cases buf with
  | nil => cases h
  | cons b tail =>
    -- past its first byte, a header leaves a suffix of what follows
    have hpast : rest <:+ tail ∧ header.payloadLength ≤ rest.length →
        header.payloadLength ≤ rest.length ∧ rest <:+ b :: tail ∧
          rest.length - header.payloadLength < (b :: tail).length := by
      rintro ⟨hsuffix, hle⟩
      refine ⟨hle, hsuffix.trans (List.suffix_cons b tail), ?_⟩
      have := hsuffix.length_le
      rw [List.length_cons]
      omega
    have hchecked {list : Bool} {n : ℕ} (h : checked list n tail = some (header, rest)) :
        rest <:+ tail ∧ header.payloadLength ≤ rest.length := by
      obtain ⟨rfl, hle⟩ := checked_some h
      exact ⟨List.suffix_refl _, hle⟩
    simp only [decodeHeader] at h
    split at h
    · cases h
      simp
    · split at h
      · split at h
        · cases h
        · exact hpast (hchecked h)
      · split at h
        · exact hpast (decodeLong_some h)
        · split at h
          · exact hpast (hchecked h)
          · exact hpast (decodeLong_some h)

/-! ### Strings -/

open ArbReth.Codec

/-- The header of a string that is not its own header. -/
def encodeHeader (length : ℕ) : List UInt8 :=
  if length < 56 then [UInt8.ofNat (0x80 + length)]
  else UInt8.ofNat (0xb7 + byteLength length) :: toBe (byteLength length) length

def encodeString (s : List UInt8) : List UInt8 :=
  if s.length = 1 ∧ s.head?.all (· < 0x80) then s else encodeHeader s.length ++ s

theorem head?_toBe_byteLength (v : ℕ) : (toBe (byteLength v) v).head? ≠ some 0 := by
  intro h
  obtain ⟨tail, htail⟩ : ∃ tail, toBe (byteLength v) v = 0 :: tail := by
    cases hbytes : toBe (byteLength v) v with
    | nil =>
      rw [hbytes] at h
      cases h
    | cons b tail =>
      rw [hbytes, List.head?_cons] at h
      exact ⟨tail, by rw [Option.some.inj h]⟩
  -- the leading zero would be trimmed
  have hlength : (trim (0 :: tail)).length ≤ tail.length := length_trim_le tail
  rw [← htail, trim_toBe_byteLength, htail, List.length_cons] at hlength
  omega

theorem beNat_toBe {v : ℕ} (h : v < 2 ^ 64) : beNat 8 (toBe (byteLength v) v) = some v := by
  have hle : byteLength v ≤ 8 := byteLength_le (by rw [show 256 ^ 8 = 2 ^ 64 by decide]; exact h)
  have hvalue := ofBe_toBe (byteLength v) v (lt_pow_byteLength v)
  unfold beNat
  rw [length_toBe, if_neg (Nat.not_lt.mpr hle), if_neg (head?_toBe_byteLength v)]
  exact congrArg some hvalue

theorem checked_append (list : Bool) (s rest : List UInt8) :
    checked list s.length (s ++ rest) = some (⟨list, s.length⟩, s ++ rest) := by
  unfold checked
  rw [if_neg]
  rw [List.length_append]
  omega

theorem decodeLong_encodeHeader {s rest : List UInt8} (h : s.length < 2 ^ 64) (hlong : 56 ≤ s.length) :
    decodeLong false (byteLength s.length) (toBe (byteLength s.length) s.length ++ (s ++ rest)) =
      some (⟨false, s.length⟩, s ++ rest) := by
  unfold decodeLong
  rw [List.take_left' (length_toBe _ _), List.drop_left' (length_toBe _ _), beNat_toBe h, if_neg]
  · dsimp only
    rw [if_neg (Nat.not_lt.mpr hlong)]
    exact checked_append false s rest
  · rw [List.length_append, length_toBe]
    omega

/-- A string is read back from its encoding. -/
theorem decodeHeader_encodeString {s : List UInt8} (h : s.length < 2 ^ 64) (rest : List UInt8) :
    decodeHeader (encodeString s ++ rest) = some (⟨false, s.length⟩, s ++ rest) := by
  unfold encodeString
  by_cases hself : s.length = 1 ∧ s.head?.all (· < 0x80)
  · -- a low byte is its own header
    rw [if_pos hself]
    obtain ⟨b, rfl⟩ := List.length_eq_one_iff.mp hself.1
    have hlow : b < 0x80 := by simpa using hself.2
    rw [List.singleton_append, decodeHeader, if_pos hlow]
    rfl
  · rw [if_neg hself, List.append_assoc]
    unfold encodeHeader
    split
    · have hbyte : (UInt8.ofNat (0x80 + s.length)).toNat = 0x80 + s.length := by
        rw [UInt8.toNat_ofNat', Nat.mod_eq_of_lt (by omega)]
      rw [List.singleton_append, decodeHeader, if_neg, if_pos, if_neg]
      · rw [hbyte, Nat.add_sub_cancel_left]
        exact checked_append false s rest
      · rintro ⟨hone, hhead⟩
        have hlength : s.length = 1 := by
          have hnat := congrArg UInt8.toNat hone
          rw [hbyte] at hnat
          change _ = 0x81 at hnat
          omega
        obtain ⟨b, rfl⟩ := List.length_eq_one_iff.mp hlength
        exact hself ⟨hlength, hhead⟩
      · rw [UInt8.lt_iff_toNat_lt, hbyte]
        change _ < 0xb8
        omega
      · rw [UInt8.lt_iff_toNat_lt, hbyte]
        change ¬ _ < 0x80
        omega
    · have hpos : 1 ≤ byteLength s.length := by
        by_contra hzero
        have hlt := lt_pow_byteLength s.length
        rw [Nat.lt_one_iff.mp (Nat.lt_of_not_le hzero)] at hlt
        omega
      have hle : byteLength s.length ≤ 8 := byteLength_le (by rw [show 256 ^ 8 = 2 ^ 64 by decide]; exact h)
      have hbyte : (UInt8.ofNat (0xb7 + byteLength s.length)).toNat = 0xb7 + byteLength s.length := by
        rw [UInt8.toNat_ofNat', Nat.mod_eq_of_lt (by omega)]
      rw [List.cons_append, decodeHeader, if_neg, if_neg, if_pos]
      · rw [hbyte, Nat.add_sub_cancel_left]
        exact decodeLong_encodeHeader h (by omega)
      · rw [UInt8.lt_iff_toNat_lt, hbyte]
        change _ < 0xc0
        omega
      · rw [UInt8.lt_iff_toNat_lt, hbyte]
        change ¬ _ < 0xb8
        omega
      · rw [UInt8.lt_iff_toNat_lt, hbyte]
        change ¬ _ < 0x80
        omega

end ArbReth.Rlp
