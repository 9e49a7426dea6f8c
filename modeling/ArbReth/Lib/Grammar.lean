import ArbReth.Lib.Codec
import ArbReth.Lib.Traced

/-! # The bytes from which a reader makes a value

An `Audited` reader is a reader that records its demands: operations that the program relies on and that the machine may
refuse, such as an allocation, an addition of machine words or an access to a slice.

A format is a list of tokens for each value, and a relation that says which bytes stand for a token; there can be several.
`Spells A ts bytes` says that the bytes are those of the tokens, one after the other.  `Gives A x P` says that a reader
makes the value `a` of its input exactly if the input begins with a spelling of tokens `ts` with `P a ts`; the rules give
this relation for a sequence of readers.  If there is one list of tokens for each value, the reader `Takes` this format.

The bytes that stand for a number in groups of seven bits are described by `IsVarint`: zero groups at the end are
allowed, and so are bits above the 64th, which are lost. -/

namespace ArbReth.Codec

open Reader
open ArbReth.Tracing

variable {δ ε α β τ : Type}

/-! ### Readers with demands -/

abbrev Audited (δ ε α : Type) := StateT Bytes (Traced δ ε) α

namespace Audited

/-- A reader that demands nothing. -/
def plain (r : Reader ε α) : Audited δ ε α := fun input => r input

/-- A demand, which can depend on what is left to be read. -/
def demand (d : Bytes → δ) : Audited δ ε Unit := fun input => request (d input) (.ok ((), input))

/-- A check on what has been read. -/
def check (t : Traced δ ε α) : Audited δ ε α := fun input => t >>= fun a => pure (a, input)

def fail (e : ε) : Audited δ ε α := fun _ => Tracing.fail e

/-- The same reader `n` times. -/
def replicate (x : Audited δ ε α) : ℕ → Audited δ ε (List α)
  | 0 => pure []
  | n + 1 => do
    let a ← x
    let as ← replicate x n
    return a :: as

/-- The groups of a number from the `shift`-th bit on; `value` has the bits below.  For every further group the shift
grows. -/
def uvarintLoop (eof overflow : ε) (grow : ℕ → δ) (value shift : ℕ) : Audited δ ε ℕ
  | [] => Tracing.fail eof
  | b :: rest =>
    if b &&& 0x80 = 0 then pure (value ||| (b &&& 0x7f).toNat <<< shift % 2 ^ 64, rest)
    else do
      request (grow shift) (.ok ())
      if 64 ≤ shift + 7 then Tracing.fail overflow
      else uvarintLoop eof overflow grow (value ||| (b &&& 0x7f).toNat <<< shift % 2 ^ 64) (shift + 7) rest

def uvarint (eof overflow : ε) (grow : ℕ → δ) : Audited δ ε ℕ := uvarintLoop eof overflow grow 0 0

end Audited

open Audited (uvarintLoop)

theorem bind_val_iff {x : Audited δ ε α} {f : α → Audited δ ε β} {input rest : Bytes} {b : β} :
    ((x >>= f) input).val = .ok (b, rest) ↔
      ∃ a mid, (x input).val = .ok (a, mid) ∧ (f a mid).val = .ok (b, rest) := by
  change ((x input).val >>= fun p => (f p.1 p.2).val) = _ ↔ _
  cases (x input).val with
  | error e => simp [bind, Except.bind]
  | ok p =>
    obtain ⟨a, mid⟩ := p
    simp [bind, Except.bind]

theorem check_val_iff {t : Traced δ ε α} {input rest : Bytes} {a : α} :
    (Audited.check t input).val = .ok (a, rest) ↔ t.val = .ok a ∧ rest = input := by
  change (t.val >>= fun a => .ok (a, input)) = _ ↔ _
  cases t.val with
  | error e => simp [bind, Except.bind]
  | ok b => simp [bind, Except.bind, eq_comm]

section fields
variable {eof : ε} {input bytes rest : Bytes}

theorem take_eq_ok_iff {n : ℕ} : take eof n input = .ok (bytes, rest) ↔ bytes.length = n ∧ input = bytes ++ rest := by
  constructor
  · intro h
    rw [Reader.take] at h
    split at h
    · cases h
    · cases h
      exact ⟨by rw [List.length_take]; omega, (List.take_append_drop n input).symm⟩
  · rintro ⟨hn, rfl⟩
    rw [Reader.take, if_neg (by simp [hn]), List.take_left' hn, List.drop_left' hn]

theorem byte_eq_ok_iff {b : UInt8} : byte eof input = .ok (b, rest) ↔ input = b :: rest := by
  cases input with
  | nil => simp [Reader.byte]
  | cons c input => simp [Reader.byte]

end fields

/-! ### Tokens -/

/-- The bytes are those of the tokens. -/
def Spells (A : τ → Bytes → Prop) : List τ → Bytes → Prop
  | [], bytes => bytes = []
  | t :: ts, bytes => ∃ u v, bytes = u ++ v ∧ A t u ∧ Spells A ts v

section spells
variable {A : τ → Bytes → Prop} {ts ts' : List τ} {t : τ} {bytes bytes' : Bytes}

theorem Spells.cons (ht : A t bytes) (hts : Spells A ts bytes') : Spells A (t :: ts) (bytes ++ bytes') :=
  ⟨bytes, bytes', rfl, ht, hts⟩

theorem Spells.append (h : Spells A ts bytes) (h' : Spells A ts' bytes') : Spells A (ts ++ ts') (bytes ++ bytes') := by
  induction ts generalizing bytes with
  | nil =>
    obtain rfl : bytes = [] := h
    exact h'
  | cons t ts ih =>
    obtain ⟨u, v, rfl, hu, hv⟩ := h
    rw [List.append_assoc]
    exact .cons hu (ih hv)

theorem spells_append : Spells A (ts ++ ts') bytes ↔ ∃ u v, bytes = u ++ v ∧ Spells A ts u ∧ Spells A ts' v := by
  refine ⟨fun h => ?_, ?_⟩
  · induction ts generalizing bytes with
    | nil => exact ⟨[], bytes, rfl, rfl, h⟩
    | cons t ts ih =>
      obtain ⟨u, v, rfl, hu, hv⟩ := h
      obtain ⟨u', v', rfl, hu', hv'⟩ := ih hv
      exact ⟨u ++ u', v', (List.append_assoc u u' v').symm, .cons hu hu', hv'⟩
  · rintro ⟨u, v, rfl, hu, hv⟩
    exact hu.append hv

@[simp] theorem spells_singleton : Spells A [t] bytes ↔ A t bytes := by
  refine ⟨?_, fun h => ⟨bytes, [], (List.append_nil bytes).symm, h, rfl⟩⟩
  rintro ⟨u, v, rfl, hu, rfl⟩
  rwa [List.append_nil]

theorem Spells.flatMap {toks : α → List τ} {enc : α → Bytes} {as : List α} (h : ∀ a ∈ as, Spells A (toks a) (enc a)) :
    Spells A (as.flatMap toks) (as.flatMap enc) := by
  induction as with
  | nil => rfl
  | cons a as ih =>
    rw [List.flatMap_cons, List.flatMap_cons]
    exact (h a (by simp)).append (ih fun b hb => h b (by simp [hb]))

theorem Spells.mono {B : τ → Bytes → Prop} (hAB : ∀ t bytes, A t bytes → B t bytes) (h : Spells A ts bytes) :
    Spells B ts bytes := by
  induction ts generalizing bytes with
  | nil => exact h
  | cons t ts ih =>
    obtain ⟨u, v, rfl, hu, hv⟩ := h
    exact .cons (hAB t u hu) (ih hv)

end spells

/-! ### What a reader makes of its input -/

/-- The reader makes the values that have such tokens, of the inputs that begin with a spelling of them. -/
def Gives (A : τ → Bytes → Prop) (x : Audited δ ε α) (P : α → List τ → Prop) : Prop :=
  ∀ a input rest, (x input).val = .ok (a, rest) ↔ ∃ ts, P a ts ∧ ∃ bytes, input = bytes ++ rest ∧ Spells A ts bytes

/-- The reader makes every value, of the inputs that begin with a spelling of its tokens. -/
def Takes (A : τ → Bytes → Prop) (x : Audited δ ε α) (toks : α → List τ) : Prop :=
  ∀ a input rest, (x input).val = .ok (a, rest) ↔ ∃ bytes, input = bytes ++ rest ∧ Spells A (toks a) bytes

section gives
variable {A : τ → Bytes → Prop} {x y : Audited δ ε α} {f : α → Audited δ ε β} {toks : α → List τ}
  {P P' : α → List τ → Prop} {Q : α → β → List τ → Prop}

theorem Takes.gives (h : Takes A x toks) : Gives A x fun a ts => ts = toks a := by
  simpa only [Gives, Takes, exists_eq_left] using h

theorem Gives.takes (h : Gives A x P) (hP : ∀ a ts, P a ts ↔ ts = toks a) : Takes A x toks := by
  simpa only [Gives, Takes, hP, exists_eq_left] using h

theorem Gives.iff (h : Gives A x P) (hP : ∀ a ts, P a ts ↔ P' a ts) : Gives A x P' := by
  simpa only [Gives, hP] using h

theorem Gives.pure (a : α) : Gives A (pure a : Audited δ ε α) fun a' ts => a' = a ∧ ts = [] := by
  intro a' input rest
  constructor
  · intro h
    cases h
    exact ⟨[], ⟨rfl, rfl⟩, [], rfl, rfl⟩
  · rintro ⟨-, ⟨rfl, rfl⟩, bytes, rfl, rfl⟩
    rfl

theorem Gives.fail (e : ε) : Gives A (Audited.fail e : Audited δ ε α) fun _ _ => False := by
  intro a input rest
  simp [Audited.fail, Tracing.fail]

theorem Gives.bind (hx : Gives A x P) (hf : ∀ a, Gives A (f a) (Q a)) :
    Gives A (x >>= f) fun b ts => ∃ a us vs, P a us ∧ Q a b vs ∧ ts = us ++ vs := by
  intro b input rest
  refine bind_val_iff.trans ⟨?_, ?_⟩
  · rintro ⟨a, mid, hfirst, hnext⟩
    obtain ⟨us, hP, u, rfl, hu⟩ := (hx a input mid).mp hfirst
    obtain ⟨vs, hQ, v, rfl, hv⟩ := (hf a b mid rest).mp hnext
    exact ⟨us ++ vs, ⟨a, us, vs, hP, hQ, rfl⟩, u ++ v, (List.append_assoc u v rest).symm, hu.append hv⟩
  · rintro ⟨-, ⟨a, us, vs, hP, hQ, rfl⟩, bytes, rfl, h⟩
    obtain ⟨u, v, rfl, hu, hv⟩ := spells_append.mp h
    exact ⟨a, v ++ rest, (hx a _ _).mpr ⟨us, hP, u, List.append_assoc u v rest, hu⟩,
      (hf a b _ _).mpr ⟨vs, hQ, v, rfl, hv⟩⟩

theorem Takes.next (hx : Takes A x toks) (hf : ∀ a, Gives A (f a) (Q a)) :
    Gives A (x >>= f) fun b ts => ∃ a vs, Q a b vs ∧ ts = toks a ++ vs :=
  (hx.gives.bind hf).iff (by simp)

/-- A check, which takes no bytes. -/
theorem Gives.check (t : Traced δ ε α) : Gives A (Audited.check t) fun a ts => t.val = .ok a ∧ ts = [] := by
  intro a input rest
  refine check_val_iff.trans ⟨fun ⟨hvalue, h⟩ => ⟨[], ⟨hvalue, rfl⟩, [], h.symm, rfl⟩, ?_⟩
  rintro ⟨-, ⟨hvalue, rfl⟩, -, rfl, rfl⟩
  exact ⟨hvalue, rfl⟩

theorem Gives.after (t : Traced δ ε α) (hf : ∀ a, Gives A (f a) (Q a)) :
    Gives A (Audited.check t >>= f) fun b ts => ∃ a, t.val = .ok a ∧ Q a b ts :=
  ((Gives.check t).bind hf).iff (by simp)

/-- A demand has no effect on what is read. -/
theorem Gives.demand (d : Bytes → δ) {f : Unit → Audited δ ε α} (hf : Gives A (f ()) P) : Gives A (Audited.demand d >>= f) P := hf

theorem Gives.map (g : α → β) (hx : Gives A x P) : Gives A (g <$> x) fun b ts => ∃ a, b = g a ∧ P a ts :=
  (hx.bind fun _ => .pure _).iff fun b ts => by simp [and_comm]

theorem Gives.ite {c : Prop} [Decidable c] (h : c → Gives A x P) (h' : ¬ c → Gives A y P) :
    Gives A (if c then x else y) P := by
  split
  · exact h ‹_›
  · exact h' ‹_›

theorem Takes.replicate (hx : Takes A x toks) (n : ℕ) :
    Gives A (Audited.replicate x n) fun as ts => as.length = n ∧ ts = as.flatMap toks := by
  induction n with
  | zero => exact (Gives.pure []).iff fun as ts => by cases as <;> simp
  | succ n ih =>
    refine (hx.next fun _ => ih.bind fun _ => .pure _).iff fun as ts => ?_
    cases as with
    | nil => simp
    | cons a as => simp [and_assoc, and_comm]

/-- A byte that says whether a value follows. -/
theorem Takes.flag (eof : ε) {C : UInt8 → Prop} {f : UInt8 → Audited δ ε (Option α)} {k : Bool → τ} {g : α → List τ}
    (hk : ∀ flag bytes, A (k flag) bytes ↔ ∃ b, bytes = [b] ∧ (flag = true ↔ C b))
    (hnone : ∀ b, ¬ C b → f b = Pure.pure none) (hsome : ∀ b, C b → Gives A (f b) fun o ts => ∃ a, o = some a ∧ ts = g a) :
    Takes A (Audited.plain (byte eof) >>= f) fun o => o.elim [k false] fun a => k true :: g a := by
  intro o input rest
  refine bind_val_iff.trans ⟨?_, ?_⟩
  · rintro ⟨b, mid, hbyte, hnext⟩
    obtain rfl := byte_eq_ok_iff.mp hbyte
    by_cases hb : C b
    · obtain ⟨-, ⟨a, rfl, rfl⟩, bytes, rfl, hbytes⟩ := (hsome b hb o mid rest).mp hnext
      exact ⟨[b] ++ bytes, rfl, .cons ((hk true [b]).mpr ⟨b, rfl, by simp [hb]⟩) hbytes⟩
    · rw [hnone b hb] at hnext
      cases hnext
      exact ⟨[b], rfl, spells_singleton.mpr ((hk false [b]).mpr ⟨b, rfl, by simp [hb]⟩)⟩
  · rintro ⟨bytes, rfl, hbytes⟩
    cases o with
    | none =>
      obtain ⟨b, rfl, hb⟩ := (hk false bytes).mp (spells_singleton.mp hbytes)
      exact ⟨b, rest, rfl, by rw [hnone b (by simpa using hb)]; rfl⟩
    | some a =>
      obtain ⟨u, v, rfl, hu, hv⟩ := hbytes
      obtain ⟨b, rfl, hb⟩ := (hk true u).mp hu
      exact ⟨b, v ++ rest, rfl, (hsome b (hb.mp rfl) _ _ _).mpr ⟨_, ⟨a, rfl, rfl⟩, v, rfl, hv⟩⟩

end gives

/-! ### Numbers in groups of seven bits -/

/-- The number whose groups the bytes are, the lowest first. -/
def groupValue : Bytes → ℕ
  | [] => 0
  | b :: bytes => b.toNat % 128 + 128 * groupValue bytes

/-- All bytes but the last are marked. -/
def Terminated : Bytes → Prop
  | [] => False
  | b :: bytes => b.toNat < 128 ∧ bytes = [] ∨ 128 ≤ b.toNat ∧ Terminated bytes

/-- At most ten groups, of which 64 bits count. -/
structure IsVarint (bytes : Bytes) (n : ℕ) : Prop where
  terminated : Terminated bytes
  length : bytes.length ≤ 10
  value : n = groupValue bytes % 2 ^ 64

/-- A group goes above the bits that are there, and what does not fit is lost. -/
theorem or_group_mod {value shift : ℕ} (x : ℕ) (hvalue : value < 2 ^ shift) (hshift : shift < 64) :
    value ||| x <<< shift % 2 ^ 64 = (value + x * 2 ^ shift) % 2 ^ 64 := by
  have hpow : 2 ^ 64 = 2 ^ (64 - shift) * 2 ^ shift := by
    rw [← Nat.pow_add]
    congr 1
    omega
  have hlow : x * 2 ^ shift % 2 ^ 64 = x % 2 ^ (64 - shift) * 2 ^ shift := by
    rw [hpow, Nat.mul_mod_mul_right]
  have hlt : x % 2 ^ (64 - shift) + 1 ≤ 2 ^ (64 - shift) := Nat.mod_lt _ (by positivity)
  have hfits : value + x % 2 ^ (64 - shift) * 2 ^ shift < 2 ^ 64 := by
    have := Nat.mul_le_mul_right (2 ^ shift) hlt
    rw [← hpow, Nat.add_mul, Nat.one_mul] at this
    omega
  have hsum : (value + x * 2 ^ shift) % 2 ^ 64 = value + x * 2 ^ shift % 2 ^ 64 := by
    rw [← hlow] at hfits
    generalize x * 2 ^ shift = y at hfits ⊢
    omega
  rw [hsum, Nat.shiftLeft_eq, hlow, Nat.mul_comm _ (2 ^ shift), Nat.or_comm, ← Nat.two_pow_add_eq_or_of_lt hvalue]
  omega

section varints
variable {eof overflow : ε} {grow : ℕ → δ} {bytes input rest : Bytes}

theorem uvarintLoop_cons_val (value shift : ℕ) (b : UInt8) :
    (uvarintLoop eof overflow grow value shift (b :: rest)).val =
      if b.toNat < 128 then .ok (value ||| (b.toNat % 128) <<< shift % 2 ^ 64, rest)
      else if 64 ≤ shift + 7 then .error overflow
      else (uvarintLoop eof overflow grow (value ||| (b.toNat % 128) <<< shift % 2 ^ 64) (shift + 7) rest).val := by
  rw [uvarintLoop]
  simp only [and_0x80, and_0x7f]
  split
  · rfl
  · split <;> rfl

theorem uvarintLoop_eq_ok_iff {value shift n : ℕ} (hvalue : value < 2 ^ shift) (hshift : shift < 64) :
    (uvarintLoop eof overflow grow value shift input).val = .ok (n, rest) ↔
      ∃ bytes, input = bytes ++ rest ∧ Terminated bytes ∧ shift + 7 * bytes.length < 71 ∧
        n = (value + groupValue bytes * 2 ^ shift) % 2 ^ 64 := by
  induction input generalizing value shift with
  | nil =>
    simp only [uvarintLoop, Tracing.fail, reduceCtorEq, false_iff]
    rintro ⟨bytes, heq, hterm, -⟩
    obtain ⟨rfl, -⟩ := List.append_eq_nil_iff.mp heq.symm
    exact hterm
  | cons b input ih =>
    rw [uvarintLoop_cons_val]
    split
    · rename_i hlast
      rw [or_group_mod _ hvalue hshift]
      constructor
      · intro h
        cases h
        exact ⟨[b], rfl, .inl ⟨hlast, rfl⟩, by simp only [List.length_singleton]; omega, by simp [groupValue]⟩
      · rintro ⟨bytes, heq, hterm, -, rfl⟩
        cases bytes with
        | nil => exact hterm.elim
        | cons c bytes =>
          cases heq
          obtain ⟨-, rfl⟩ | ⟨hmore, -⟩ := hterm
          · simp [groupValue]
          · omega
    · rename_i hmore
      split
      · rename_i hbig
        simp only [reduceCtorEq, false_iff]
        rintro ⟨bytes, heq, hterm, hlength, -⟩
        cases bytes with
        | nil => exact hterm
        | cons c bytes =>
          cases heq
          obtain ⟨hlt, -⟩ | ⟨-, hterm⟩ := hterm
          · exact hmore hlt
          · cases bytes with
            | nil => exact hterm
            | cons d bytes =>
              simp only [List.length_cons] at hlength
              omega
      · rename_i hsmall
        have hx : b.toNat % 128 < 128 := Nat.mod_lt _ (by omega)
        have hpow : 2 ^ (shift + 7) = 128 * 2 ^ shift := by ring
        have hle : b.toNat % 128 * 2 ^ shift ≤ 127 * 2 ^ shift := Nat.mul_le_mul_right _ (by omega)
        have hnext : value + b.toNat % 128 * 2 ^ shift < 2 ^ (shift + 7) := by omega
        have hroom : 2 ^ (shift + 7) ≤ 2 ^ 64 := Nat.pow_le_pow_right (by omega) (by omega)
        have hgroups (bytes : Bytes) : value + b.toNat % 128 * 2 ^ shift + groupValue bytes * 2 ^ (shift + 7) =
            value + groupValue (b :: bytes) * 2 ^ shift := by
          rw [groupValue, hpow]
          ring
        rw [or_group_mod _ hvalue hshift, Nat.mod_eq_of_lt (by omega), ih hnext (by omega)]
        constructor
        · rintro ⟨bytes, rfl, hterm, hlength, rfl⟩
          refine ⟨b :: bytes, rfl, .inr ⟨by omega, hterm⟩, ?_, by rw [hgroups]⟩
          rw [List.length_cons]
          omega
        · rintro ⟨bytes, heq, hterm, hlength, rfl⟩
          cases bytes with
          | nil => exact hterm.elim
          | cons c bytes =>
            cases heq
            obtain ⟨hlt, -⟩ | ⟨-, hterm⟩ := hterm
            · exact absurd hlt hmore
            · rw [List.length_cons] at hlength
              exact ⟨bytes, rfl, hterm, by omega, by rw [hgroups]⟩

theorem uvarint_eq_ok_iff {n : ℕ} : (Audited.uvarint eof overflow grow input).val = .ok (n, rest) ↔
    ∃ bytes, input = bytes ++ rest ∧ IsVarint bytes n := by
  rw [Audited.uvarint, uvarintLoop_eq_ok_iff (by omega) (by omega)]
  constructor
  · rintro ⟨bytes, rfl, hterm, hlength, rfl⟩
    exact ⟨bytes, rfl, hterm, by omega, by rw [Nat.zero_add, Nat.pow_zero, Nat.mul_one]⟩
  · rintro ⟨bytes, rfl, hterm, hlength, rfl⟩
    exact ⟨bytes, rfl, hterm, by omega, by rw [Nat.zero_add, Nat.pow_zero, Nat.mul_one]⟩

theorem groupValue_lt (bytes : Bytes) : groupValue bytes < 128 ^ bytes.length := by
  induction bytes with
  | nil => exact Nat.one_pos
  | cons b bytes ih =>
    rw [groupValue, List.length_cons, Nat.pow_succ]
    omega

/-- An encoding that comes to its end is read, or refused as too long. -/
theorem Terminated.uvarintLoop (h : Terminated bytes) (rest : Bytes) (value shift : ℕ) :
    (∃ n, (uvarintLoop eof overflow grow value shift (bytes ++ rest)).val = .ok (n, rest)) ∨
      (uvarintLoop eof overflow grow value shift (bytes ++ rest)).val = .error overflow := by
  induction bytes generalizing value shift with
  | nil => exact h.elim
  | cons b bytes ih =>
    rw [List.cons_append, uvarintLoop_cons_val]
    obtain ⟨hlast, rfl⟩ | ⟨hmore, hterm⟩ := h
    · exact Or.inl ⟨_, if_pos hlast⟩
    · rw [if_neg (by omega)]
      split
      · exact Or.inr rfl
      · exact ih hterm _ _

end varints

/-- What is written for a number stands for it. -/
theorem isVarint_uvarint {v : ℕ} (h : v < 2 ^ 64) : IsVarint (uvarint v) v := by
  have hspec (k v : ℕ) (hv : v < 128 ^ (k + 1)) :
      Terminated (uvarint v) ∧ groupValue (uvarint v) = v ∧ (uvarint v).length ≤ k + 1 := by
    induction k generalizing v with
    | zero =>
      rw [uvarint, if_pos (by omega)]
      have hbyte : (UInt8.ofNat v).toNat = v := by simp; omega
      exact ⟨.inl ⟨by omega, rfl⟩, by simp only [groupValue, hbyte]; omega, le_rfl⟩
    | succ k ih =>
      rw [uvarint]
      split
      · have hbyte : (UInt8.ofNat v).toNat = v := by simp; omega
        exact ⟨.inl ⟨by omega, rfl⟩, by simp only [groupValue, hbyte]; omega, Nat.succ_le_succ (Nat.zero_le _)⟩
      · have hbyte : (UInt8.ofNat (v % 128 + 128)).toNat = v % 128 + 128 := by simp; omega
        obtain ⟨hterm, hvalue, hlength⟩ := ih (v / 128) (Nat.div_lt_of_lt_mul (by rwa [← Nat.pow_succ']))
        exact ⟨.inr ⟨by omega, hterm⟩, by simp only [groupValue, hbyte, hvalue]; omega, Nat.succ_le_succ hlength⟩
  obtain ⟨hterm, hvalue, hlength⟩ := hspec 9 v (h.trans (by norm_num))
  exact ⟨hterm, hlength, by rw [hvalue, Nat.mod_eq_of_lt h]⟩

/-! ### Numbers with the highest byte first -/

theorem toBe_ofBe (bytes : Bytes) : toBe bytes.length (ofBe bytes) = bytes := by
  induction bytes using List.reverseRecOn with
  | nil => rfl
  | append_singleton bytes b ih =>
    have hdiv : (ofBe bytes * 256 + b.toNat) / 256 = ofBe bytes := by
      have := b.toNat_lt
      omega
    rw [List.length_append, List.length_singleton, toBe, ofBe_concat, hdiv, ih]
    congr 2
    apply UInt8.toNat_inj.mp
    have := b.toNat_lt
    rw [UInt8.toNat_ofNat']
    omega

theorem ofBe_lt (bytes : Bytes) : ofBe bytes < 256 ^ bytes.length := by
  induction bytes using List.reverseRecOn with
  | nil => exact Nat.one_pos
  | append_singleton bytes b ih =>
    have := b.toNat_lt
    rw [ofBe_concat, List.length_append, List.length_singleton, Nat.pow_succ]
    omega

end ArbReth.Codec
