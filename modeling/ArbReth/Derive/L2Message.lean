import ArbReth.Derive.Batch
import ArbReth.Lib.Grammar
import ArbReth.Lib.Runs

/-! # Nested L2 messages

`parse_l2_message` (`arb-reth-derive/src/l2message.rs`) takes the transactions out of an L2 message.  A message is a
transaction or a batch of length-prefixed messages, and a batch ends where no whole item follows.

Every input is the encoding of a `Tree` of messages (`Tree.exists_encode`), and parsing it is a walk over the leaves of the
tree that ends at a batch that is too deep (`parseInto_encode`). -/

namespace ArbReth.Derive.L2Message

open ArbReth.Codec (toBe ofBe length_toBe ofBe_toBe toBe_ofBe ofBe_lt)
open ArbReth.Runs

namespace L2Kind

def unsignedUserTx : UInt8 := 0
def contractTx : UInt8 := 1
def batch : UInt8 := 3
def signedTx : UInt8 := 4
def signedCompressedTx : UInt8 := 7

end L2Kind

def maxL2MessageSize : ℕ := 262144
def maxBatchDepth : ℕ := 16

inductive L2ParseError where
  | batchTooDeep
  | brotli
deriving DecidableEq, Repr

structure ParsedL2 where
  signedTxs : List Bytes
  unsignedCount : ℕ
deriving DecidableEq, Repr

/-- The next item of a batch, and what follows it. -/
def nextSub (rd : Bytes) : Option (Bytes × Bytes) :=
  if rd.length < 8 then none
  else
    let len := ofBe (rd.take 8)
    let rd := rd.drop 8
    if maxL2MessageSize < len ∨ rd.length < len then none else some (rd.take len, rd.drop len)

theorem nextSub_some {rd sub rest : Bytes} (h : nextSub rd = some (sub, rest)) :
    ∃ head, head.length = 8 ∧ rd = head ++ (sub ++ rest) ∧ ofBe head = sub.length ∧ sub.length ≤ maxL2MessageSize := by
  simp only [nextSub] at h
  split at h
  · cases h
  · split at h
    · cases h
    · cases h
      have hlength : ((rd.drop 8).take (ofBe (rd.take 8))).length = ofBe (rd.take 8) :=
        List.length_take_of_le (by omega)
      refine ⟨rd.take 8, List.length_take_of_le (by omega), ?_, hlength.symm, by omega⟩
      rw [List.take_append_drop, List.take_append_drop]

theorem nextSub_length {rd sub rest : Bytes} (h : nextSub rd = some (sub, rest)) :
    sub.length < rd.length ∧ rest.length < rd.length := by
  obtain ⟨head, hhead, rfl, -⟩ := nextSub_some h
  simp only [List.length_append]
  omega

mutual

def parseInto (X : Codec) (data : Bytes) (depth : ℕ) (out : ParsedL2) : Except L2ParseError ParsedL2 :=
  match data with
  | [] => .ok out
  | kind :: body =>
    if kind = L2Kind.signedTx then .ok { out with signedTxs := out.signedTxs ++ [body] }
    else if kind = L2Kind.signedCompressedTx then
      match X.brotli body with
      | none => .error .brotli
      | some tx => .ok { out with signedTxs := out.signedTxs ++ [tx] }
    else if kind = L2Kind.batch then
      if maxBatchDepth ≤ depth then .error .batchTooDeep else parseItems X body depth out
    else if kind = L2Kind.unsignedUserTx ∨ kind = L2Kind.contractTx then
      .ok { out with unsignedCount := out.unsignedCount + 1 }
    else .ok out
termination_by data.length

/-- The loop over the items of a batch. -/
def parseItems (X : Codec) (rd : Bytes) (depth : ℕ) (out : ParsedL2) : Except L2ParseError ParsedL2 :=
  match _h : nextSub rd with
  | none => .ok out
  | some (sub, rest) => do
    let out ← parseInto X sub (depth + 1) out
    parseItems X rest depth out
termination_by rd.length
decreasing_by
  · exact (nextSub_length ‹_›).1
  · exact (nextSub_length ‹_›).2

end

variable {X : Codec} {depth : ℕ}

theorem parseItems_none {rd : Bytes} {out : ParsedL2} (h : nextSub rd = none) :
    parseItems X rd depth out = .ok out := by
  rw [parseItems]
  split
  · rfl
  · simp_all

theorem parseItems_some {rd sub rest : Bytes} {out : ParsedL2} (h : nextSub rd = some (sub, rest)) :
    parseItems X rd depth out = parseInto X sub (depth + 1) out >>= parseItems X rest depth := by
  rw [parseItems]
  split
  · simp_all
  · simp_all

def parseL2Message (X : Codec) (data : Bytes) : Except L2ParseError ParsedL2 := parseInto X data 0 ⟨[], 0⟩

/-! ### Trees of messages -/

/-- A message that is not a batch, or a batch with its items and the bytes after the last whole one. -/
inductive Tree where
  | leaf (data : Bytes)
  | batch (items : List Tree) (tail : Bytes)

/-- No item: a length that is cut off, a length above the limit, or one that exceeds what is there. -/
def Broken (bytes : Bytes) : Prop :=
  bytes.length < 8 ∨ ∃ len rest, len < 256 ^ 8 ∧ bytes = toBe 8 len ++ rest ∧ (maxL2MessageSize < len ∨ rest.length < len)

namespace Tree

def encode : Tree → Bytes
  | leaf data => data
  | batch items tail => L2Kind.batch :: (items.flatMap (fun t => toBe 8 t.encode.length ++ t.encode) ++ tail)

inductive Fits : Tree → Prop
  | leaf {data : Bytes} : data.head? ≠ some L2Kind.batch → Fits (leaf data)
  | batch {items : List Tree} {tail : Bytes} : (∀ t ∈ items, Fits t) →
      (∀ t ∈ items, t.encode.length ≤ maxL2MessageSize) → Broken tail → Fits (batch items tail)

def leaves : Tree → List Bytes
  | leaf data => [data]
  | batch items _ => items.flatMap leaves

/-- At most `n` batches inside each other. -/
inductive Nested : ℕ → Tree → Prop
  | leaf {n : ℕ} {data : Bytes} : Nested n (leaf data)
  | batch {n : ℕ} {items : List Tree} {tail : Bytes} : (∀ t ∈ items, Nested n t) → Nested (n + 1) (batch items tail)

/-- What is met below some enclosing batches, in depth-first order: leaves, and `none` for a batch that is too deep. -/
def visits (depth : ℕ) : Tree → List (Option Bytes)
  | leaf data => [some data]
  | batch items _ => if maxBatchDepth ≤ depth then [none] else items.flatMap (visits (depth + 1))

end Tree

/-- The transaction of a leaf. -/
def signedTx (X : Codec) : Bytes → Option Bytes
  | [] => none
  | kind :: body =>
    if kind = L2Kind.signedTx then some body
    else if kind = L2Kind.signedCompressedTx then X.brotli body
    else none

def isUnsigned (leaf : Bytes) : Bool :=
  leaf.head? = some L2Kind.unsignedUserTx ∨ leaf.head? = some L2Kind.contractTx

def decompresses (X : Codec) (leaf : Bytes) : Bool :=
  leaf.head? = some L2Kind.signedCompressedTx → (X.brotli leaf.tail).isSome

/-- What a visit adds. -/
def visit (X : Codec) (out : ParsedL2) : Option Bytes → Except L2ParseError ParsedL2
  | none => .error .batchTooDeep
  | some leaf =>
    if decompresses X leaf then
      .ok ⟨out.signedTxs ++ (signedTx X leaf).toList, out.unsignedCount + (isUnsigned leaf).toNat⟩
    else .error .brotli

/-! ### Parsing walks over the tree -/

theorem broken_iff (bytes : Bytes) : Broken bytes ↔ nextSub bytes = none := by
  simp only [Broken, nextSub]
  constructor
  · rintro (hshort | ⟨len, rest, hlen, rfl, hbad⟩)
    · rw [if_pos hshort]
    · rw [List.take_left' (length_toBe 8 len), List.drop_left' (length_toBe 8 len), ofBe_toBe 8 len hlen, if_pos hbad, ite_self]
  · intro h
    by_cases hshort : bytes.length < 8
    · exact Or.inl hshort
    · rw [if_neg hshort] at h
      have htake : (bytes.take 8).length = 8 := List.length_take_of_le (by omega)
      have hhead := toBe_ofBe (bytes.take 8)
      have hlt := ofBe_lt (bytes.take 8)
      rw [htake] at hhead hlt
      refine Or.inr ⟨ofBe (bytes.take 8), bytes.drop 8, hlt, ?_, ?_⟩
      · rw [hhead, List.take_append_drop]
      · by_contra hfits
        rw [if_neg hfits] at h
        cases h

theorem nextSub_item {item rest : Bytes} (h : item.length ≤ maxL2MessageSize) :
    nextSub (toBe 8 item.length ++ (item ++ rest)) = some (item, rest) := by
  have hlt : item.length < 256 ^ 8 := h.trans_lt (by decide)
  simp only [nextSub]
  rw [List.take_left' (length_toBe 8 _), List.drop_left' (length_toBe 8 _), ofBe_toBe 8 _ hlt, if_neg, if_neg,
    List.take_left, List.drop_left]
  · rw [List.length_append]
    omega
  · rw [List.length_append, length_toBe]
    omega

theorem parseInto_leaf {leaf : Bytes} (h : leaf.head? ≠ some L2Kind.batch) (depth : ℕ) (out : ParsedL2) :
    parseInto X leaf depth out = visit X out (some leaf) := by
  cases leaf with
  | nil => simp [parseInto, visit, decompresses, signedTx, isUnsigned]
  | cons kind body =>
    have hbatch : kind ≠ L2Kind.batch := fun heq => h (congrArg some heq)
    by_cases hsigned : kind = L2Kind.signedTx
    · subst hsigned
      simp [parseInto, visit, decompresses, signedTx, isUnsigned, L2Kind.signedTx, L2Kind.signedCompressedTx,
        L2Kind.unsignedUserTx, L2Kind.contractTx]
    · by_cases hcompressed : kind = L2Kind.signedCompressedTx
      · subst hcompressed
        rw [parseInto, if_neg hsigned, if_pos rfl]
        cases hb : X.brotli body with
        | none => simp [visit, decompresses, hb]
        | some tx =>
          simp [visit, decompresses, signedTx, isUnsigned, hb, hsigned]
          decide
      · rw [parseInto, if_neg hsigned, if_neg hcompressed, if_neg hbatch]
        by_cases hunsigned : kind = L2Kind.unsignedUserTx ∨ kind = L2Kind.contractTx
        · simp [visit, decompresses, signedTx, isUnsigned, hsigned, hcompressed, hunsigned]
        · simp [visit, decompresses, signedTx, isUnsigned, hsigned, hcompressed, hunsigned]

theorem parseInto_encode {t : Tree} (h : t.Fits) (depth : ℕ) (out : ParsedL2) :
    parseInto X t.encode depth out = run (visit X) out (t.visits depth) := by
  induction h generalizing depth out with
  | leaf hleaf => rw [Tree.encode, Tree.visits, parseInto_leaf hleaf, run_singleton]
  | @batch items tail hfits hsize htail ih =>
    clear hfits
    rw [Tree.encode, Tree.visits, parseInto, if_neg (by decide), if_neg (by decide), if_pos rfl]
    split
    · rfl
    · induction items generalizing out with
      | nil => exact parseItems_none ((broken_iff tail).mp htail)
      | cons item items ihItems =>
        rw [List.forall_mem_cons] at hsize
        rw [List.flatMap_cons, List.flatMap_cons, List.append_assoc, List.append_assoc,
          parseItems_some (nextSub_item hsize.1), run_append, ih item List.mem_cons_self]
        exact congrArg _ (funext fun out' => ihItems hsize.2 (fun t ht => ih t (List.mem_cons_of_mem _ ht)) out')

theorem Tree.Nested.visits_eq {n : ℕ} {t : Tree} (h : t.Nested n) (hdepth : depth + n ≤ maxBatchDepth) :
    t.visits depth = t.leaves.map some := by
  induction h generalizing depth with
  | leaf => rw [visits, leaves, List.map_singleton]
  | batch _ ih =>
    rw [visits, leaves, if_neg (by omega), List.map_flatMap]
    exact List.flatMap_congr fun t ht => ih t ht (by omega)

theorem run_visit {leaves : List Bytes} (h : ∀ leaf ∈ leaves, decompresses X leaf = true) (out : ParsedL2) :
    run (visit X) out (leaves.map some) =
      .ok ⟨out.signedTxs ++ leaves.filterMap (signedTx X), out.unsignedCount + leaves.countP isUnsigned⟩ := by
  induction leaves generalizing out with
  | nil => simp
  | cons leaf leaves ih =>
    rw [List.forall_mem_cons] at h
    rw [List.map_cons, run, visit, if_pos h.1, ok_bind, ih h.2, List.countP_cons]
    cases htx : signedTx X leaf <;> cases hunsigned : isUnsigned leaf <;>
      simp [htx, Nat.add_assoc, Nat.add_comm 1]

/-- A walk meets a batch that is too deep before any leaf fails. -/
theorem run_visit_tooDeep (visits : List (Option Bytes)) (out : ParsedL2) :
    run (visit X) out visits = .error .batchTooDeep ↔
      ∃ (before : List Bytes) (after : List (Option Bytes)), visits = before.map some ++ none :: after ∧ ∀ leaf ∈ before, decompresses X leaf = true := by
  induction visits generalizing out with
  | nil => simp
  | cons v visits ih =>
    cases v with
    | none => exact ⟨fun _ => ⟨[], visits, rfl, by simp⟩, fun _ => rfl⟩
    | some leaf =>
      rw [run, visit]
      constructor
      · intro h
        split at h
        · obtain ⟨before, after, rfl, hbefore⟩ := (ih _).mp h
          exact ⟨leaf :: before, after, rfl, List.forall_mem_cons.mpr ⟨‹_›, hbefore⟩⟩
        · cases h
      · rintro ⟨before, after, hvisits, hbefore⟩
        cases before with
        | nil => cases hvisits
        | cons b before =>
          cases hvisits
          rw [List.forall_mem_cons] at hbefore
          rw [if_pos hbefore.1]
          exact (ih _).mpr ⟨before, after, rfl, hbefore.2⟩

/-! ### Every input is a tree -/

theorem exists_items (rd : Bytes) (h : ∀ sub : Bytes, sub.length < rd.length → ∃ t : Tree, t.Fits ∧ t.encode = sub) :
    ∃ items tail, (Tree.batch items tail).Fits ∧
      rd = items.flatMap (fun t => toBe 8 t.encode.length ++ t.encode) ++ tail := by
  cases hnext : nextSub rd with
  | none => exact ⟨[], rd, .batch (by simp) (by simp) ((broken_iff rd).mpr hnext), rfl⟩
  | some next =>
    obtain ⟨hsub, hrest⟩ := nextSub_length hnext
    obtain ⟨items, tail, hbatch, hrd⟩ := exists_items next.2 fun sub hlt => h sub (hlt.trans hrest)
    obtain ⟨item, hitem, hencode⟩ := h next.1 hsub
    obtain ⟨head, hhead, rfl, hlength, hsize⟩ := nextSub_some hnext
    rw [← hencode] at hlength hsize
    have hprefix : toBe 8 item.encode.length = head := by rw [← hlength, ← hhead, toBe_ofBe]
    refine ⟨item :: items, tail, ?_, ?_⟩
    · cases hbatch with
      | batch hfits hsizes htail =>
        exact .batch (List.forall_mem_cons.mpr ⟨hitem, hfits⟩) (List.forall_mem_cons.mpr ⟨hsize, hsizes⟩) htail
    · rw [List.flatMap_cons, hprefix, hencode, hrd, List.append_assoc, List.append_assoc]
termination_by rd.length

theorem Tree.exists_encode (data : Bytes) : ∃ t : Tree, t.Fits ∧ t.encode = data := by
  by_cases hbatch : data.head? = some L2Kind.batch
  · obtain ⟨body, hdata⟩ := List.head?_eq_some_iff.mp hbatch
    have hlt : body.length < data.length := by simp [hdata]
    obtain ⟨items, tail, hfits, hbody⟩ := exists_items body fun sub hsub => exists_encode sub
    exact ⟨.batch items tail, hfits, by rw [encode, hdata, hbody]⟩
  · exact ⟨.leaf data, .leaf hbatch, by rw [encode]⟩
termination_by data.length
decreasing_by
  exact hsub.trans hlt

/-- **Nested messages.**  A tree gives its signed leaves in depth-first order and the number of unsigned ones; it is
too deep iff a batch below sixteen others is met before a leaf fails.  Every input is such a tree. -/
theorem nested_messages_parsed (X : Codec) :
    (∀ t : Tree, t.Fits → t.Nested maxBatchDepth → (∀ leaf ∈ t.leaves, decompresses X leaf = true) →
      parseL2Message X t.encode = .ok ⟨t.leaves.filterMap (signedTx X), t.leaves.countP isUnsigned⟩) ∧
    (∀ t : Tree, t.Fits → (parseL2Message X t.encode = .error .batchTooDeep ↔
      ∃ (before : List Bytes) (after : List (Option Bytes)), t.visits 0 = before.map some ++ none :: after ∧
        ∀ leaf ∈ before, decompresses X leaf = true)) ∧ (∀ data : Bytes, ∃ t : Tree, t.Fits ∧ t.encode = data) ∧
    ∀ rd sub rest, nextSub rd = some (sub, rest) → ∃ head, head.length = 8 ∧ rd = head ++ (sub ++ rest) ∧
      ofBe head = sub.length ∧ sub.length ≤ maxL2MessageSize := by
  refine ⟨fun t hfits hnested hleaves => ?_, fun t hfits => ?_, Tree.exists_encode, fun _ _ _ h => nextSub_some h⟩
  · rw [parseL2Message, parseInto_encode hfits, hnested.visits_eq (Nat.zero_add _).le, run_visit hleaves, List.nil_append,
      Nat.zero_add]
  · rw [parseL2Message, parseInto_encode hfits, run_visit_tooDeep]

/-- A signed transaction, and in a batch inside an unsigned and a compressed one; both batches have a broken end. -/
def sampleTree : Tree := .batch [.leaf [4, 10], .batch [.leaf [0, 20], .leaf [7, 30]] [9]] [1, 2]

theorem nested_messages_parsed_sample :
    parseL2Message ⟨some, fun _ => 0⟩ sampleTree.encode = .ok ⟨[[10], [30]], 1⟩ := by
  have hfits : sampleTree.Fits := by
    refine .batch (List.forall_mem_cons.mpr ⟨.leaf (by decide), List.forall_mem_singleton.mpr (.batch ?_ ?_ ?_)⟩) ?_ ?_
    · simp only [List.forall_mem_cons]
      exact ⟨.leaf (by decide), .leaf (by decide), fun _ h => nomatch h⟩
    all_goals simp [Tree.encode, Broken, maxL2MessageSize]
  have hnested : sampleTree.Nested maxBatchDepth := by
    refine .batch (List.forall_mem_cons.mpr ⟨.leaf, List.forall_mem_singleton.mpr (.batch ?_)⟩)
    simp [Tree.Nested.leaf]
  have hleaves : sampleTree.leaves = [[4, 10], [0, 20], [7, 30]] := by simp [sampleTree, Tree.leaves]
  have hparsed := (nested_messages_parsed ⟨some, fun _ => 0⟩).1 sampleTree hfits hnested
  rw [hleaves] at hparsed
  exact hparsed (by decide)

end ArbReth.Derive.L2Message
