import Mathlib

/-! # Regrouping bits

A number is written in groups of bits, the lowest first.  `scatter` cuts groups of `v` bits into narrower ones
of `w` bits, with an accumulator that takes in another group when it has too few bits for the next one;
`gather` puts them together again, with an accumulator that gives out a group as soon as it has its bits.

Both keep the number (`Nat.ofDigits`), so gathering what was scattered gives the groups back
(`gather_scatter`).  How many groups `gather` has given out does not depend on their content
(`gather_count`).

The last section is about lists that consist of parts of one length. -/

namespace ArbReth.Regroup

variable {w v : ℕ}

theorem or_shiftLeft {acc bits d : ℕ} (h : acc < 2 ^ bits) : acc ||| d <<< bits = acc + d * 2 ^ bits := by
  rw [Nat.shiftLeft_eq, Nat.or_comm, Nat.mul_comm, ← Nat.two_pow_add_eq_or_of_lt h, Nat.add_comm]

theorem add_mul_pow_lt {acc bits d : ℕ} (hacc : acc < 2 ^ bits) (hd : d < 2 ^ w) :
    acc + d * 2 ^ bits < 2 ^ (bits + w) := by
  calc acc + d * 2 ^ bits < 2 ^ bits + d * 2 ^ bits := Nat.add_lt_add_right hacc _
    _ = (d + 1) * 2 ^ bits := by ring
    _ ≤ 2 ^ w * 2 ^ bits := Nat.mul_le_mul_right _ hd
    _ = 2 ^ (bits + w) := by ring

/-! ### Into wider groups -/

structure Gather where
  acc : ℕ
  bits : ℕ
  out : List ℕ

def Gather.start : Gather := ⟨0, 0, []⟩

/-- Take in a group of `w` bits; give out a group of `v` bits if there are as many. -/
def gather (w v : ℕ) (s : Gather) (d : ℕ) : Gather :=
  let acc := s.acc ||| d <<< s.bits
  if v ≤ s.bits + w then ⟨acc >>> v, s.bits + w - v, s.out ++ [acc % 2 ^ v]⟩ else ⟨acc, s.bits + w, s.out⟩

/-- The number of groups given out, whatever they are. -/
theorem gather_count (hw : w ≤ v) (hv : 0 < v) (ds : List ℕ) : (ds.foldl (gather w v) .start).bits < v ∧
      v * (ds.foldl (gather w v) .start).out.length + (ds.foldl (gather w v) .start).bits = w * ds.length := by
  induction ds using List.reverseRecOn with
  | nil => exact ⟨hv, rfl⟩
  | append_singleton ds d ih =>
    rw [List.foldl_append, List.length_append, Nat.mul_add, List.length_singleton, Nat.mul_one]
    generalize ds.foldl (gather w v) .start = s at ih
    obtain ⟨hbits, hcount⟩ := ih
    change (gather w v s d).bits < v ∧ v * (gather w v s d).out.length + (gather w v s d).bits = _
    unfold gather
    dsimp only
    split
    · rw [List.length_append, List.length_singleton, Nat.mul_add, Nat.mul_one]
      exact ⟨by dsimp only; omega, by dsimp only; omega⟩
    · exact ⟨by dsimp only; omega, by dsimp only; omega⟩

/-- What was given out and what is left make up the number taken in. -/
structure Gathered (w v : ℕ) (ds : List ℕ) (s : Gather) : Prop where
  acc_lt : s.acc < 2 ^ s.bits
  out_lt : ∀ o ∈ s.out, o < 2 ^ v
  value : Nat.ofDigits (2 ^ v) s.out + 2 ^ (v * s.out.length) * s.acc = Nat.ofDigits (2 ^ w) ds

theorem Gathered.step {ds : List ℕ} {s : Gather} {d : ℕ} (h : Gathered w v ds s) (hd : d < 2 ^ w)
    (hcount : v * s.out.length + s.bits = w * ds.length) : Gathered w v (ds ++ [d]) (gather w v s d) := by
  have hlt := add_mul_pow_lt h.acc_lt hd
  have hvalue : Nat.ofDigits (2 ^ v) s.out + 2 ^ (v * s.out.length) * (s.acc + d * 2 ^ s.bits) =
      Nat.ofDigits (2 ^ w) (ds ++ [d]) := by
    rw [Nat.ofDigits_append, Nat.ofDigits_singleton, ← h.value, ← Nat.pow_mul, ← hcount, Nat.pow_add]
    ring
  unfold gather
  rw [or_shiftLeft h.acc_lt]
  dsimp only
  split
  · constructor
    · rw [Nat.shiftRight_eq_div_pow]
      refine Nat.div_lt_of_lt_mul ?_
      rwa [← Nat.pow_add, Nat.add_sub_cancel' ‹_›]
    · intro o ho
      rcases List.mem_append.mp ho with ho | ho
      · exact h.out_lt o ho
      · rw [List.mem_singleton.mp ho]
        exact Nat.mod_lt _ (by positivity)
    · rw [← hvalue, Nat.ofDigits_append, Nat.ofDigits_singleton, List.length_append, List.length_singleton,
        Nat.shiftRight_eq_div_pow, ← Nat.pow_mul, Nat.mul_add, Nat.mul_one, Nat.pow_add, Nat.add_assoc, Nat.mul_assoc,
        ← Nat.mul_add, Nat.mod_add_div]
  · exact ⟨hlt, h.out_lt, hvalue⟩

theorem gathered (hw : w ≤ v) (hv : 0 < v) {ds : List ℕ} (hds : ∀ d ∈ ds, d < 2 ^ w) :
    Gathered w v ds (ds.foldl (gather w v) .start) := by
  induction ds using List.reverseRecOn with
  | nil => exact ⟨Nat.one_pos, fun o ho => absurd ho List.not_mem_nil, rfl⟩
  | append_singleton ds d ih =>
    rw [List.foldl_append]
    have hstep := ih fun d' hd' => hds d' (List.mem_append_left _ hd')
    exact hstep.step (hds d (by simp)) (gather_count hw hv ds).2

/-! ### Into narrower groups -/

structure Scatter where
  acc : ℕ
  bits : ℕ
  rest : List ℕ
  out : List ℕ

def Scatter.start (data : List ℕ) : Scatter := ⟨0, 0, data, []⟩

/-- Take in a group of `v` bits, if fewer than `w` bits are there and a group is left. -/
def Scatter.pull (w v : ℕ) (s : Scatter) : Scatter :=
  if s.bits < w then
    match s.rest with
    | [] => s
    | b :: rest => ⟨s.acc ||| b <<< s.bits, s.bits + v, rest, s.out⟩
  else s

/-- Give out a group of `w` bits. -/
def scatter (w v : ℕ) (s : Scatter) : Scatter :=
  ⟨(s.pull w v).acc >>> w, (s.pull w v).bits - w, (s.pull w v).rest, (s.pull w v).out ++ [(s.pull w v).acc % 2 ^ w]⟩

/-- After `k` groups: what was given out and what is left make up the number of the groups taken in. -/
structure Scattered (w v : ℕ) (data : List ℕ) (k : ℕ) (used : List ℕ) (s : Scatter) : Prop where
  split : data = used ++ s.rest
  count : v * used.length = w * k + s.bits
  acc_lt : s.acc < 2 ^ s.bits
  length_out : s.out.length = k
  out_lt : ∀ o ∈ s.out, o < 2 ^ w
  value : Nat.ofDigits (2 ^ w) s.out + 2 ^ (w * k) * s.acc = Nat.ofDigits (2 ^ v) used

namespace Scattered

variable {data used : List ℕ} {k : ℕ} {s : Scatter}

/-- While there is data for another group, `pull` makes its bits available. -/
theorem pull (hw : w ≤ v) (hdata : ∀ d ∈ data, d < 2 ^ v) (h : Scattered w v data k used s)
    (hk : w * (k + 1) ≤ v * data.length) : ∃ used', Scattered w v data k used' (s.pull w v) ∧ w ≤ (s.pull w v).bits := by
  unfold Scatter.pull
  split
  · -- too few bits, so not everything was taken in
    have hlength : data.length = used.length + s.rest.length := by rw [h.split, List.length_append]
    cases hrest : s.rest with
    | nil =>
      have hcount := h.count
      rw [hrest, List.length_nil, Nat.add_zero] at hlength
      rw [hlength, Nat.mul_add, Nat.mul_one] at hk
      omega
    | cons b rest =>
      have hb : b < 2 ^ v := hdata b (by rw [h.split, hrest]; simp)
      refine ⟨used ++ [b], ⟨?_, ?_, ?_, h.length_out, h.out_lt, ?_⟩, by dsimp only; omega⟩
      · rw [h.split, hrest, List.append_assoc]
        rfl
      · have hcount := h.count
        rw [List.length_append, List.length_singleton, Nat.mul_add, Nat.mul_one]
        dsimp only
        omega
      · dsimp only
        rw [or_shiftLeft h.acc_lt]
        exact add_mul_pow_lt h.acc_lt hb
      · dsimp only
        rw [or_shiftLeft h.acc_lt, Nat.ofDigits_append, Nat.ofDigits_singleton, ← h.value, ← Nat.pow_mul, h.count,
          Nat.pow_add]
        ring
  · exact ⟨used, h, Nat.le_of_not_lt ‹_›⟩

theorem step (hw : w ≤ v) (hdata : ∀ d ∈ data, d < 2 ^ v) (h : Scattered w v data k used s)
    (hk : w * (k + 1) ≤ v * data.length) : ∃ used', Scattered w v data (k + 1) used' (scatter w v s) := by
  obtain ⟨used', hpull, hbits⟩ := h.pull hw hdata hk
  unfold scatter
  generalize s.pull w v = s' at hpull hbits
  refine ⟨used', hpull.split, ?_, ?_, ?_, ?_, ?_⟩
  · have hcount := hpull.count
    rw [Nat.mul_add, Nat.mul_one]
    dsimp only
    omega
  · rw [Nat.shiftRight_eq_div_pow]
    refine Nat.div_lt_of_lt_mul ?_
    rw [← Nat.pow_add, Nat.add_sub_cancel' hbits]
    exact hpull.acc_lt
  · rw [List.length_append, hpull.length_out, List.length_singleton]
  · intro o ho
    rcases List.mem_append.mp ho with ho | ho
    · exact hpull.out_lt o ho
    · rw [List.mem_singleton.mp ho]
      exact Nat.mod_lt _ (by positivity)
  · rw [← hpull.value, Nat.ofDigits_append, Nat.ofDigits_singleton, hpull.length_out, Nat.shiftRight_eq_div_pow,
      ← Nat.pow_mul, Nat.mul_add, Nat.mul_one, Nat.pow_add, Nat.add_assoc, Nat.mul_assoc, ← Nat.mul_add, Nat.mod_add_div]

end Scattered

theorem scattered (hw : w ≤ v) {data : List ℕ} (hdata : ∀ d ∈ data, d < 2 ^ v) :
    ∀ k, w * k ≤ v * data.length → ∃ used, Scattered w v data k used ((scatter w v)^[k] (.start data)) := by
  intro k
  induction k with
  | zero => exact fun _ => ⟨[], rfl, rfl, Nat.one_pos, rfl, fun o ho => absurd ho List.not_mem_nil, rfl⟩
  | succ k ih =>
    intro hk
    obtain ⟨used, h⟩ := ih ((Nat.mul_le_mul_left w (Nat.le_succ k)).trans hk)
    rw [Function.iterate_succ_apply']
    exact h.step hw hdata hk

/-- When the groups given out have as many bits as the data, they are the same number. -/
theorem Scattered.value_eq (hv : 0 < v) {data used : List ℕ} {k : ℕ} {s : Scatter} (h : Scattered w v data k used s)
    (hk : w * k = v * data.length) : Nat.ofDigits (2 ^ w) s.out = Nat.ofDigits (2 ^ v) data := by
  have hlength : data.length = used.length + s.rest.length := by rw [h.split, List.length_append]
  have hcount := h.count
  rw [hk, hlength, Nat.mul_add] at hcount
  have hbits : s.bits = 0 := by omega
  have hrest : s.rest = [] := by
    have hzero : v * s.rest.length = 0 := by omega
    exact List.length_eq_zero_iff.mp ((Nat.mul_eq_zero.mp hzero).resolve_left hv.ne')
  have hacc : s.acc = 0 := by
    have hlt := h.acc_lt
    rw [hbits] at hlt
    omega
  have hvalue := h.value
  rw [hacc, Nat.mul_zero, Nat.add_zero] at hvalue
  rw [hvalue, h.split, hrest, List.append_nil]

/-- Gathering what was scattered gives the groups back. -/
theorem gather_scatter (hw : w ≤ v) (hv : 0 < v) {data : List ℕ} (hdata : ∀ d ∈ data, d < 2 ^ v) {k : ℕ}
    (hk : w * k = v * data.length) : (((scatter w v)^[k] (.start data)).out.foldl (gather w v) .start).out = data := by
  obtain ⟨used, hscattered⟩ := scattered hw hdata k hk.le
  generalize (scatter w v)^[k] (.start data) = s at hscattered
  have hgathered := gathered hw hv hscattered.out_lt
  obtain ⟨hbits, hcount⟩ := gather_count hw hv s.out
  generalize s.out.foldl (gather w v) .start = t at hgathered hbits hcount
  rw [hscattered.length_out, hk] at hcount
  have hlength : t.out.length = data.length := by
    have hdiv : (v * t.out.length + t.bits) / v = v * data.length / v := by rw [hcount]
    rwa [Nat.mul_add_div hv, Nat.div_eq_of_lt hbits, Nat.add_zero, Nat.mul_div_cancel_left _ hv] at hdiv
  have hacc : t.acc = 0 := by
    have hlt := hgathered.acc_lt
    rw [hlength] at hcount
    have hzero : t.bits = 0 := by omega
    rw [hzero] at hlt
    omega
  have hvalue := hgathered.value
  rw [hacc, Nat.mul_zero, Nat.add_zero, hscattered.value_eq hv hk] at hvalue
  exact Nat.ofDigits_inj_of_len_eq (Nat.one_lt_two_pow hv.ne') hlength hgathered.out_lt hdata hvalue

/-! ### Parts of one length -/

variable {α : Type}

/-- The parts of a list, one after the other. -/
theorem flatMap_parts (k : ℕ) (l : List α) (n : ℕ) :
    (List.range n).flatMap (fun i => (l.drop (i * k)).take k) = l.take (n * k) := by
  induction n with
  | zero => simp
  | succ n ih =>
    rw [List.range_succ, List.flatMap_append, ih, List.flatMap_cons, List.flatMap_nil, List.append_nil,
      Nat.add_mul, Nat.one_mul, List.take_add]

theorem length_flatMap_parts {k : ℕ} {f : ℕ → List α} {n : ℕ} (hf : ∀ i < n, (f i).length = k) :
    ((List.range n).flatMap f).length = n * k := by
  induction n with
  | zero => simp
  | succ n ih =>
    rw [List.range_succ, List.flatMap_append, List.length_append, ih fun i hi => hf i (by omega), List.flatMap_cons,
      List.flatMap_nil, List.append_nil, hf n (Nat.lt_succ_self n), Nat.add_mul, Nat.one_mul]

/-- A list made from parts has them where they are expected. -/
theorem part_flatMap {k : ℕ} {f : ℕ → List α} {n : ℕ} (hf : ∀ i < n, (f i).length = k) {i : ℕ} (hi : i < n) :
    (((List.range n).flatMap f).drop (i * k)).take k = f i := by
  obtain ⟨j, rfl⟩ : ∃ j, n = i + 1 + j := ⟨n - (i + 1), by omega⟩
  have hlength : ((List.range i).flatMap f).length = i * k := length_flatMap_parts fun m hm => hf m (by omega)
  rw [List.range_add, List.range_succ, List.append_assoc, List.flatMap_append, List.flatMap_append,
    List.drop_left' hlength, List.flatMap_cons, List.flatMap_nil, List.append_nil, List.take_left' (hf i hi)]

end ArbReth.Regroup
