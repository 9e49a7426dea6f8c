import Mathlib

/-! # In-order delivery from an out-of-order stream

Numbers arrive in any order and any multiplicity and are to be passed on in ascending order
without a gap.  A `Cursor` is the next number to pass on together with the finite set of numbers
held back above it.  `deliver cap c q` drops a number below the cursor, holds one above it while
fewer than `cap` are held, and on the awaited number moves the cursor to the first number that is
not held (`firstGap`), releasing everything it passes.

* `Settled`: everything held is strictly above the cursor (`deliver_settled`).
* The cursor never moves back, and is past every number that arrived at or below it
  (`next_le_deliver`, `lt_deliver_next`).
* `Exact n₀ ds c`: as long as nothing is refused, the cursor is a function of the *set* of
  arrivals `ds`: it is the least number from `n₀` on that has not arrived (`Exact.isLeast`). -/

namespace ArbReth.Reorder

/-- The next number to pass on and the numbers held back. -/
structure Cursor where
  next : ℕ
  held : Finset ℕ

theorem exists_gap (held : Finset ℕ) (n : ℕ) : ∃ m, n ≤ m ∧ m ∉ held := by
  refine ⟨max n (held.sup id + 1), le_max_left _ _, fun h => ?_⟩
  have h1 : max n (held.sup id + 1) ≤ held.sup id := Finset.le_sup (f := id) h
  have h2 := le_max_right n (held.sup id + 1)
  omega

/-! ### The first gap -/

/-- The least number from `n` on that is not held. -/
def firstGap (held : Finset ℕ) (n : ℕ) : ℕ := Nat.find (exists_gap held n)

theorem le_firstGap (held : Finset ℕ) (n : ℕ) : n ≤ firstGap held n :=
  (Nat.find_spec (exists_gap held n)).1

theorem firstGap_notMem (held : Finset ℕ) (n : ℕ) : firstGap held n ∉ held :=
  (Nat.find_spec (exists_gap held n)).2

variable {held : Finset ℕ}

theorem mem_of_lt_firstGap {n m : ℕ} (h1 : n ≤ m) (h2 : m < firstGap held n) : m ∈ held := by
  by_contra hm
  exact Nat.find_min (exists_gap held n) h2 ⟨h1, hm⟩

theorem firstGap_eq {n m : ℕ} (h1 : n ≤ m) (h2 : m ∉ held)
    (h3 : ∀ k, n ≤ k → k < m → k ∈ held) : firstGap held n = m := by
  have hle : firstGap held n ≤ m := Nat.find_min' _ ⟨h1, h2⟩
  rcases Nat.lt_or_ge (firstGap held n) m with hlt | hge
  · exact absurd (h3 _ (le_firstGap held n) hlt) (firstGap_notMem held n)
  · exact le_antisymm hle hge

theorem firstGap_of_notMem {n : ℕ} (h : n ∉ held) : firstGap held n = n :=
  firstGap_eq le_rfl h (fun _ h1 h2 => by omega)

theorem firstGap_of_mem {n : ℕ} (h : n ∈ held) : firstGap held n = firstGap held (n + 1) := by
  apply firstGap_eq
  · have := le_firstGap held (n + 1)
    omega
  · exact firstGap_notMem held (n + 1)
  · intro k h1 h2
    rcases Nat.lt_or_ge n k with hlt | hge
    · exact mem_of_lt_firstGap hlt h2
    · obtain rfl : k = n := by omega
      exact h

/-- What lies below the start of the search does not matter. -/
theorem firstGap_erase {k n : ℕ} (h : k < n) : firstGap (held.erase k) n = firstGap held n := by
  apply firstGap_eq (le_firstGap held n)
  · exact fun hm => firstGap_notMem held n (Finset.mem_of_mem_erase hm)
  · intro m h1 h2
    exact Finset.mem_erase.mpr ⟨by omega, mem_of_lt_firstGap h1 h2⟩

/-! ### Delivery -/

/-- The cursor after the arrival of `q`, with room for `cap` held numbers. -/
def deliver (cap : ℕ) (c : Cursor) (q : ℕ) : Cursor :=
  if q < c.next then c
  else if c.next < q then
    if c.held.card < cap then ⟨c.next, insert q c.held⟩ else c
  else ⟨firstGap c.held (q + 1), c.held.filter (firstGap c.held (q + 1) ≤ ·)⟩

variable {cap q : ℕ} {c : Cursor}

theorem deliver_below (h : q < c.next) : deliver cap c q = c := by simp [deliver, h]

theorem deliver_above (h : c.next < q) (hcap : c.held.card < cap) : deliver cap c q = ⟨c.next, insert q c.held⟩ := by
  simp [deliver, h, hcap, Nat.lt_asymm h]

theorem deliver_refused (h : c.next < q) (hcap : ¬ c.held.card < cap) : deliver cap c q = c := by
  simp [deliver, h, hcap]

theorem deliver_next : deliver cap c c.next =
    ⟨firstGap c.held (c.next + 1), c.held.filter (firstGap c.held (c.next + 1) ≤ ·)⟩ := by
  simp [deliver]

/-- Everything held is strictly above the cursor. -/
def Settled (c : Cursor) : Prop := ∀ q ∈ c.held, c.next < q

theorem deliver_settled (hc : Settled c) (cap q : ℕ) : Settled (deliver cap c q) := by
  rcases Nat.lt_trichotomy q c.next with h | rfl | h
  · rwa [deliver_below h]
  · rw [deliver_next]
    intro m hm
    obtain ⟨hm1, hm2⟩ := Finset.mem_filter.mp hm
    refine lt_of_le_of_ne hm2 (fun he : firstGap c.held (c.next + 1) = m => ?_)
    exact firstGap_notMem c.held (c.next + 1) (he ▸ hm1)
  · by_cases hcap : c.held.card < cap
    · rw [deliver_above h hcap]
      intro m hm
      rcases Finset.mem_insert.mp hm with rfl | hm
      · exact h
      · exact hc m hm
    · rwa [deliver_refused h hcap]

theorem next_le_deliver (cap q : ℕ) (c : Cursor) : c.next ≤ (deliver cap c q).next := by
  rcases Nat.lt_trichotomy q c.next with h | rfl | h
  · rw [deliver_below h]
  · rw [deliver_next]
    have := le_firstGap c.held (c.next + 1)
    show c.next ≤ firstGap c.held (c.next + 1)
    omega
  · by_cases hcap : c.held.card < cap
    · rw [deliver_above h hcap]
    · rw [deliver_refused h hcap]

/-- A number that arrives at or below the cursor has been passed afterwards. -/
theorem lt_deliver_next (cap : ℕ) (h : q ≤ c.next) : q < (deliver cap c q).next := by
  rcases Nat.lt_or_ge q c.next with hlt | hge
  · rwa [deliver_below hlt]
  · obtain rfl : q = c.next := by omega
    rw [deliver_next]
    exact le_firstGap c.held (c.next + 1)

theorem held_deliver_subset (cap q : ℕ) (c : Cursor) : (deliver cap c q).held ⊆ insert q c.held := by
  rcases Nat.lt_trichotomy q c.next with h | rfl | h
  · rw [deliver_below h]
    exact Finset.subset_insert q c.held
  · rw [deliver_next]
    exact (Finset.filter_subset _ _).trans (Finset.subset_insert _ _)
  · by_cases hcap : c.held.card < cap
    · rw [deliver_above h hcap]
    · rw [deliver_refused h hcap]
      exact Finset.subset_insert q c.held

/-- An arrival adds at most one number to what is held. -/
theorem card_deliver_le (cap q : ℕ) (c : Cursor) : (deliver cap c q).held.card ≤ c.held.card + 1 :=
  (Finset.card_le_card (held_deliver_subset cap q c)).trans (Finset.card_insert_le q c.held)

/-! ### The cursor as a function of the arrivals -/

/-- The cursor `c` accounts for the arrivals `ds` since it stood at `n₀`: what it passed has arrived, and what arrived
above it is held. -/
structure Exact (n₀ : ℕ) (ds : List ℕ) (c : Cursor) : Prop where
  start : n₀ ≤ c.next
  passed : ∀ m, n₀ ≤ m → m < c.next → m ∈ ds
  held : ∀ m, m ∈ c.held ↔ m ∈ ds ∧ c.next < m
  missing : c.next ∉ ds

theorem Exact.initial (n₀ : ℕ) : Exact n₀ [] ⟨n₀, ∅⟩ :=
  ⟨le_rfl, fun m h1 h2 => absurd h2 (by simpa using h1), by simp, by simp⟩

theorem Exact.deliver {n₀ : ℕ} {ds : List ℕ} (hc : Exact n₀ ds c) (hcap : c.held.card < cap)
    (q : ℕ) : Exact n₀ (ds ++ [q]) (deliver cap c q) := by
  rcases Nat.lt_trichotomy q c.next with h | rfl | h
  · rw [deliver_below h]
    refine ⟨hc.start, fun m h1 h2 => by simp [hc.passed m h1 h2], fun m => ?_, ?_⟩
    · rw [hc.held, List.mem_append, List.mem_singleton]
      constructor
      · exact fun hm => ⟨Or.inl hm.1, hm.2⟩
      · rintro ⟨hm | rfl, hlt⟩
        · exact ⟨hm, hlt⟩
        · omega
    · simp only [List.mem_append, List.mem_singleton, not_or]
      exact ⟨hc.missing, by omega⟩
  · -- the awaited number: the cursor runs through what is held up to the first gap
    rw [deliver_next]
    have hle := le_firstGap c.held (c.next + 1)
    refine ⟨?_, fun m h1 h2 => ?_, fun m => ?_, ?_⟩
    · have := hc.start
      show n₀ ≤ firstGap c.held (c.next + 1)
      omega
    · rw [List.mem_append, List.mem_singleton]
      rcases Nat.lt_trichotomy m c.next with hlt | rfl | hgt
      · exact Or.inl (hc.passed m h1 hlt)
      · exact Or.inr rfl
      · exact Or.inl ((hc.held m).mp (mem_of_lt_firstGap hgt h2)).1
    · rw [Finset.mem_filter, hc.held, List.mem_append, List.mem_singleton]
      constructor
      · rintro ⟨⟨hm, hlt⟩, hge⟩
        refine ⟨Or.inl hm, lt_of_le_of_ne hge (fun he : firstGap c.held (c.next + 1) = m => ?_)⟩
        exact firstGap_notMem c.held (c.next + 1) (he ▸ (hc.held m).mpr ⟨hm, hlt⟩)
      · rintro ⟨hm | rfl, hlt⟩
        · exact ⟨⟨hm, by simp only at hlt; omega⟩, hlt.le⟩
        · simp only at hlt
          omega
    · simp only [List.mem_append, List.mem_singleton, not_or]
      refine ⟨fun hm => ?_, by omega⟩
      exact firstGap_notMem c.held (c.next + 1) ((hc.held _).mpr ⟨hm, by omega⟩)
  · rw [deliver_above h hcap]
    refine ⟨hc.start, fun m h1 h2 => by simp [hc.passed m h1 h2], fun m => ?_, ?_⟩
    · rw [Finset.mem_insert, hc.held, List.mem_append, List.mem_singleton]
      constructor
      · rintro (rfl | ⟨hm, hlt⟩)
        · exact ⟨Or.inr rfl, h⟩
        · exact ⟨Or.inl hm, hlt⟩
      · rintro ⟨hm | rfl, hlt⟩
        · exact Or.inr ⟨hm, hlt⟩
        · exact Or.inl rfl
    · simp only [List.mem_append, List.mem_singleton, not_or]
      exact ⟨hc.missing, by omega⟩

/-- The cursor stands at the least number from `n₀` on that has not arrived. -/
theorem Exact.isLeast {n₀ : ℕ} {ds : List ℕ} (hc : Exact n₀ ds c) : IsLeast {m | n₀ ≤ m ∧ m ∉ ds} c.next := by
  refine ⟨⟨hc.start, hc.missing⟩, fun m hm => ?_⟩
  by_contra hlt
  exact hm.2 (hc.passed m hm.1 (by omega))

end ArbReth.Reorder
