import Mathlib.Data.List.Chain
import Mathlib.Data.Set.Function
import Mathlib.Data.Nat.Notation
import Mathlib.Tactic.Common

/-! # Chains of headers that are linked by their hashes

A header names its predecessor by its hash.  Two linked chains that have the same header somewhere are the same from
there down, if no two of their headers share a hash (`Linked.agree_below`).

A chain can be checked while it is read if a key of the last element is remembered (`Tracks`). -/

namespace ArbReth.HashChain

variable {H K : Type}

/-- What a header commits to. -/
structure Fields (H K : Type) where
  number : H → ℕ
  parent : H → K
  hash : H → K

/-- A chain that begins at `base`: the header of every height up to its tip, each with the hash of the one below. -/
structure Linked (F : Fields H K) (base : ℕ) (chain : ℕ → Option H) : Prop where
  number : ∀ {n h}, chain n = some h → F.number h = n
  parent : ∀ {n a b}, chain n = some a → chain (n + 1) = some b → F.parent b = F.hash a
  down : ∀ {n}, base ≤ n → (chain (n + 1)).isSome = true → (chain n).isSome = true

/-- The headers of a chain. -/
def headers (chain : ℕ → Option H) : Set H := {h | ∃ n, chain n = some h}

variable {F : Fields H K} {base : ℕ} {c d : ℕ → Option H} {S : Set H}

/-- One step down: equal headers have the same predecessor. -/
theorem Linked.agree_step (hc : Linked F base c) (hd : Linked F base d) (hS : Set.InjOn F.hash S)
    (hcS : headers c ⊆ S) (hdS : headers d ⊆ S) {n : ℕ} (hn : base ≤ n) {h : H} (hcn : c (n + 1) = some h)
    (hdn : d (n + 1) = some h) : ∃ a, c n = some a ∧ d n = some a := by
  obtain ⟨a, ha⟩ := Option.isSome_iff_exists.mp (hc.down hn (by rw [hcn]; rfl))
  obtain ⟨b, hb⟩ := Option.isSome_iff_exists.mp (hd.down hn (by rw [hdn]; rfl))
  have hhash : F.hash a = F.hash b := (hc.parent ha hcn).symm.trans (hd.parent hb hdn)
  obtain rfl := hS (hcS ⟨n, ha⟩) (hdS ⟨n, hb⟩) hhash
  exact ⟨a, ha, hb⟩

/-- **A common header is a common chain.** -/
theorem Linked.agree_below (hc : Linked F base c) (hd : Linked F base d) (hS : Set.InjOn F.hash S)
    (hcS : headers c ⊆ S) (hdS : headers d ⊆ S) {n : ℕ} {h : H} (hcn : c n = some h) (hdn : d n = some h) {m : ℕ}
    (hm : base ≤ m) (hmn : m ≤ n) : ∃ a, c m = some a ∧ d m = some a := by
  induction n, hmn using Nat.le_induction generalizing h with
  | base => exact ⟨h, hcn, hdn⟩
  | succ n hmn ih =>
    obtain ⟨a, ha, hb⟩ := hc.agree_step hd hS hcS hdS (hm.trans hmn) hcn hdn
    exact ih ha hb

/-! ### Chains that are checked as they are read -/

/-- The elements so far, each linked to the key of the one before; of these only the last key is remembered. -/
structure Tracks (key : H → K) (R : K → H → Prop) (seen : List H) (last : Option K) : Prop where
  chain : seen.IsChain fun a b => R (key a) b
  last : seen.getLast?.map key = last

namespace Tracks

variable {key : H → K} {R : K → H → Prop} {seen : List H} {last : Option K}

theorem nil : Tracks key R [] none := ⟨.nil, rfl⟩

theorem snoc (h : Tracks key R seen last) {x : H} (hx : ∀ k, last = some k → R k x) :
    Tracks key R (seen ++ [x]) (some (key x)) := by
  refine ⟨h.chain.append (.singleton x) fun a ha b hb => ?_, by rw [List.getLast?_concat]; rfl⟩
  obtain rfl : x = b := Option.some.inj hb
  apply hx
  rw [← h.last, Option.mem_def.mp ha]
  rfl

/-- The remembered key is that of an element. -/
theorem mem_of_last {k : K} (h : Tracks key R seen (some k)) : ∃ a, seen.getLast? = some a ∧ a ∈ seen ∧ key a = k := by
  obtain ⟨a, ha, rfl⟩ := Option.map_eq_some_iff.mp h.last
  exact ⟨a, ha, List.mem_of_getLast? ha, rfl⟩

end Tracks

end ArbReth.HashChain
