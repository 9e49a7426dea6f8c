import Mathlib

/-! # Readers of bytes

A `Reader` takes a value from the front of its input and leaves the rest.  The formats here are numbers in groups of seven
bits, with the lowest group first (`uvarint`), numbers of a fixed number of bytes with the highest byte first (`toBe`), and
the same without their leading zeros. -/

namespace ArbReth.Codec

abbrev Bytes := List UInt8

abbrev Reader (ε α : Type) := StateT Bytes (Except ε) α

variable {ε α β : Type}

namespace Reader

def byte (eof : ε) : Reader ε UInt8
  | [] => .error eof
  | b :: rest => .ok (b, rest)

/-- Exactly `n` bytes. -/
def take (eof : ε) (n : ℕ) : Reader ε Bytes := fun input =>
  if input.length < n then .error eof else .ok (input.take n, input.drop n)

/-- The same reader `n` times. -/
def replicate (r : Reader ε α) : ℕ → Reader ε (List α)
  | 0 => pure []
  | n + 1 => do
    let a ← r
    let as ← replicate r n
    return a :: as

def fail (e : ε) : Reader ε α := fun _ => .error e

/-- A check on what has been read, which takes no bytes. -/
def ofExcept (x : Except ε α) : Reader ε α := fun input => x.map (·, input)

end Reader

open Reader

section sequences
variable {r : Reader ε α} {f : α → Reader ε β} {input mid rest : Bytes} {a : α} {b : β}

theorem bind_ok (hr : r input = .ok (a, mid)) (hf : f a mid = .ok (b, rest)) : (r >>= f) input = .ok (b, rest) := by
  change (r input >>= fun x => f x.1 x.2) = _
  rw [hr]
  exact hf

theorem map_ok (g : α → β) (hr : r input = .ok (a, rest)) : (g <$> r) input = .ok (g a, rest) := by
  rw [map_eq_pure_bind]
  exact bind_ok hr rfl

/-- What a sequence of readers has read. -/
theorem bind_eq_ok (h : (r >>= f) input = .ok (b, rest)) : ∃ a mid, r input = .ok (a, mid) ∧ f a mid = .ok (b, rest) := by
  change (r input >>= fun x => f x.1 x.2) = _ at h
  cases hread : r input with
  | error e =>
    rw [hread] at h
    cases h
  | ok x =>
    rw [hread] at h
    exact ⟨x.1, x.2, rfl, h⟩

theorem replicate_ok {enc : α → Bytes} {as : List α} (h : ∀ a ∈ as, ∀ rest, r (enc a ++ rest) = .ok (a, rest))
    (rest : Bytes) : Reader.replicate r as.length (as.flatMap enc ++ rest) = .ok (as, rest) := by
  induction as with
  | nil => rfl
  | cons a as ih =>
    rw [List.flatMap_cons, List.append_assoc]
    exact bind_ok (h a (by simp) _) (bind_ok (ih fun b hb => h b (by simp [hb])) rfl)

theorem ofExcept_eq_ok {x : Except ε α} (h : ofExcept x input = .ok (a, rest)) : x = .ok a ∧ rest = input := by
  cases x with
  | error e => cases h
  | ok x =>
    cases h
    exact ⟨rfl, rfl⟩

end sequences

/-! ### Numbers in groups of seven bits -/

/-- The encoding of a number in groups of seven bits, all but the last marked. -/
def uvarint (v : ℕ) : Bytes :=
  if v < 128 then [UInt8.ofNat v] else UInt8.ofNat (v % 128 + 128) :: uvarint (v / 128)
termination_by v

theorem and_0x80 (b : UInt8) : b &&& 0x80 = 0 ↔ b.toNat < 128 := by
  revert b
  decide +kernel

theorem and_0x7f (b : UInt8) : (b &&& 0x7f).toNat = b.toNat % 128 := by
  rw [UInt8.toNat_and]
  exact Nat.and_two_pow_sub_one_eq_mod b.toNat 7

/-! ### Numbers with the highest byte first -/

/-- The `w` lowest bytes of a number. -/
def toBe : ℕ → ℕ → Bytes
  | 0, _ => []
  | w + 1, v => toBe w (v / 256) ++ [UInt8.ofNat v]

def ofBe (bytes : Bytes) : ℕ := bytes.foldl (fun n b => n * 256 + b.toNat) 0

/-- A number without its leading zeros. -/
def trim (bytes : Bytes) : Bytes := bytes.dropWhile (· = 0)

@[simp] theorem length_toBe (w v : ℕ) : (toBe w v).length = w := by
  induction w generalizing v with
  | zero => rfl
  | succ w ih => rw [toBe, List.length_append, ih, List.length_singleton]

theorem ofBe_concat (bytes : Bytes) (b : UInt8) : ofBe (bytes ++ [b]) = ofBe bytes * 256 + b.toNat := by
  rw [ofBe, List.foldl_append]
  rfl

theorem ofBe_toBe (w v : ℕ) (h : v < 256 ^ w) : ofBe (toBe w v) = v := by
  induction w generalizing v with
  | zero =>
    rw [Nat.pow_zero] at h
    change 0 = v
    omega
  | succ w ih =>
    have hdiv : v / 256 < 256 ^ w := Nat.div_lt_of_lt_mul (by rwa [← Nat.pow_succ'])
    rw [toBe, ofBe_concat, ih _ hdiv, UInt8.toNat_ofNat']
    omega

theorem ofBe_toBe_bitVec {w : ℕ} (x : BitVec (8 * w)) : BitVec.ofNat (8 * w) (ofBe (toBe w x.toNat)) = x := by
  rw [ofBe_toBe w x.toNat (by rw [show 256 = 2 ^ 8 by rfl, ← Nat.pow_mul]; exact x.isLt), BitVec.ofNat_toNat,
    BitVec.setWidth_eq]

theorem ofBe_trim (bytes : Bytes) : ofBe (trim bytes) = ofBe bytes := by
  induction bytes with
  | nil => rfl
  | cons b bytes ih =>
    rw [trim, List.dropWhile_cons]
    split
    · rename_i hb
      obtain rfl : b = 0 := by simpa using hb
      exact ih
    · rfl

theorem length_trim_le (bytes : Bytes) : (trim bytes).length ≤ bytes.length :=
  (List.dropWhile_sublist _).length_le

theorem toBe_succ' (w v : ℕ) : toBe (w + 1) v = UInt8.ofNat (v / 256 ^ w) :: toBe w v := by
  induction w generalizing v with
  | zero => simp [toBe]
  | succ w ih =>
    rw [toBe, ih, Nat.div_div_eq_div_mul, ← Nat.pow_succ', List.cons_append]
    rfl

theorem toBe_add (n w v : ℕ) (h : v < 256 ^ w) : toBe (n + w) v = List.replicate n 0 ++ toBe w v := by
  induction n with
  | zero => simp
  | succ n ih =>
    have hzero : v / 256 ^ (n + w) = 0 := by
      refine Nat.div_eq_of_lt (h.trans_le (Nat.pow_le_pow_right (by omega) ?_))
      omega
    rw [show n + 1 + w = n + w + 1 by omega, toBe_succ', hzero, ih]
    rfl

/-- The number of bytes that a number needs. -/
def byteLength (v : ℕ) : ℕ := (Nat.size v + 7) / 8

theorem lt_pow_byteLength (v : ℕ) : v < 256 ^ byteLength v := by
  have hsize : v < 2 ^ (8 * byteLength v) := Nat.size_le.mp (by unfold byteLength; omega)
  rwa [Nat.pow_mul] at hsize

theorem byteLength_le {v w : ℕ} (h : v < 256 ^ w) : byteLength v ≤ w := by
  have hsize : Nat.size v ≤ 8 * w := Nat.size_le.mpr (by rwa [Nat.pow_mul])
  unfold byteLength
  omega

theorem pow_le_of_byteLength {v k : ℕ} (h : byteLength v = k + 1) : 256 ^ k ≤ v := by
  have hsize : 8 * k < Nat.size v := by
    unfold byteLength at h
    omega
  have hle := Nat.lt_size.mp hsize
  rwa [Nat.pow_mul] at hle

theorem trim_toBe_byteLength (v : ℕ) : trim (toBe (byteLength v) v) = toBe (byteLength v) v := by
  cases hk : byteLength v with
  | zero => rfl
  | succ k =>
    have hle := pow_le_of_byteLength hk
    have hlt : v / 256 ^ k < 256 := by
      have hv := lt_pow_byteLength v
      rw [hk, Nat.pow_succ'] at hv
      exact Nat.div_lt_of_lt_mul (by rwa [Nat.mul_comm])
    have hpos : 0 < v / 256 ^ k := Nat.div_pos hle (by positivity)
    have hne : UInt8.ofNat (v / 256 ^ k) ≠ 0 := by
      intro hzero
      have hnat := congrArg UInt8.toNat hzero
      simp at hnat
      omega
    rw [toBe_succ', trim, List.dropWhile_cons_of_neg (by simpa using hne)]

/-- Without leading zeros a number has as many bytes as it needs. -/
theorem trim_toBe {w v : ℕ} (h : v < 256 ^ w) : trim (toBe w v) = (toBe w v).drop (w - byteLength v) := by
  have hsplit := toBe_add (w - byteLength v) (byteLength v) v (lt_pow_byteLength v)
  have hw : w - byteLength v + byteLength v = w := Nat.sub_add_cancel (byteLength_le h)
  rw [hw] at hsplit
  have hzeros (n : ℕ) (bytes : Bytes) : trim (List.replicate n 0 ++ bytes) = trim bytes := by
    induction n with
    | zero => rfl
    | succ n ih =>
      rw [List.replicate_succ, List.cons_append, trim, List.dropWhile_cons_of_pos (by simp)]
      exact ih
  rw [hsplit, hzeros, trim_toBe_byteLength, List.drop_left' (by simp)]

/-! ### Slices -/

/-- The bytes from the `i`-th on, up to the `j`-th. -/
def slice (bytes : Bytes) (i j : ℕ) : Bytes := (bytes.drop i).take (j - i)

theorem slice_append_left {a b : Bytes} {i j : ℕ} (h : j ≤ a.length) : slice (a ++ b) i j = slice a i j := by
  unfold slice
  rcases le_or_gt i a.length with hi | hi
  · rw [List.drop_append_of_le_length hi, List.take_append_of_le_length (by simp; omega)]
  · rw [show j - i = 0 by omega, List.take_zero, List.take_zero]

theorem slice_append_right {a b : Bytes} {i j : ℕ} (h : a.length ≤ i) :
    slice (a ++ b) i j = slice b (i - a.length) (j - a.length) := by
  unfold slice
  rw [List.drop_append, List.drop_eq_nil_of_le h, List.nil_append]
  congr 1
  omega

theorem slice_self {a : Bytes} {j : ℕ} (h : a.length = j) : slice a 0 j = a := by
  subst h
  simp [slice]

/-- An entry of a table whose entries all have the same number of bytes. -/
theorem slice_flatMap {enc : α → Bytes} {w : ℕ} {as : List α} (hw : ∀ a ∈ as, (enc a).length = w) {i : ℕ}
    (hi : i < as.length) : slice (as.flatMap enc) (i * w) ((i + 1) * w) = enc as[i] := by
  induction as generalizing i with
  | nil => cases hi
  | cons a as ih =>
    have ha : (enc a).length = w := hw a (by simp)
    rw [List.flatMap_cons]
    cases i with
    | zero =>
      rw [slice_append_left (by simp [ha]), Nat.zero_mul]
      exact slice_self (by simp [ha])
    | succ i =>
      have hstart : (i + 1) * w - w = i * w := by rw [Nat.add_mul, Nat.one_mul, Nat.add_sub_cancel]
      have hstop : (i + 1 + 1) * w - w = (i + 1) * w := by rw [Nat.add_mul, Nat.one_mul, Nat.add_sub_cancel]
      rw [slice_append_right (by rw [ha, Nat.add_mul, Nat.one_mul]; omega), ha, hstart, hstop]
      exact ih (fun b hb => hw b (by simp [hb])) (by simpa using hi)

theorem length_flatMap_of_forall {enc : α → Bytes} {w : ℕ} {as : List α} (hw : ∀ a ∈ as, (enc a).length = w) :
    (as.flatMap enc).length = as.length * w := by
  induction as with
  | nil => simp
  | cons a as ih =>
    rw [List.flatMap_cons, List.length_append, hw a (by simp), ih fun b hb => hw b (by simp [hb]), List.length_cons,
      Nat.add_mul, Nat.one_mul, Nat.add_comm]

end ArbReth.Codec
