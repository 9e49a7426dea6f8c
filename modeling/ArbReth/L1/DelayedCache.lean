import ArbReth.L1.Batch
import ArbReth.Lib.Requests

/-! # The cache of delayed messages

`DelayedCache` (`arb-reth-l1/src/sync.rs`) keeps the delayed messages read so far and the contiguous
interval of L1 blocks they were read from.  `cover` extends the interval, forward to the end of the
current window and then backward, until it has the messages that the window consumes, and drops those
below.  What the methods ask the delayed inbox reader for is a request (`Fetching`), and they can be run
with any reader (`DelayedReader.run`).

The cache is described against the inbox itself: what it has is what was delivered, and it has every
message that was delivered in the blocks scanned so far and is not consumed yet (`DelayedCache.Valid`).
`cover` then succeeds iff every message it needs was delivered up to the end of the window, and returns
exactly these (`cover_ok`, `cover_of_delivered`). -/

namespace ArbReth.L1

open ArbReth.Derive ArbReth.Runs ArbReth.Requests

/-- Reads the delayed messages of an inclusive block range. -/
abbrev DelayedReader := ℕ → ℕ → Except DeriveError (List DelayedMessage)

/-- A program that asks for the delayed messages of inclusive block ranges. -/
abbrev Fetching := Asks (ℕ × ℕ) (fun _ => List DelayedMessage) DeriveError

namespace DelayedReader

variable {α β : Type} (R : DelayedReader)

def run (x : Fetching α) : Except DeriveError α := x.eval fun r => R r.1 r.2

/-- The ranges that are asked for, in order. -/
def requests (x : Fetching α) : List (ℕ × ℕ) := x.requests fun r => R r.1 r.2

@[simp] theorem run_pure (a : α) : R.run (pure a) = .ok a := rfl

@[simp] theorem run_request (r : ℕ × ℕ) : R.run (.request r) = R r.1 r.2 := Asks.eval_request r

@[simp] theorem run_bind (x : Fetching α) (f : α → Fetching β) : R.run (x >>= f) = R.run x >>= fun a => R.run (f a) :=
  Asks.eval_bind x f

theorem bind_ok {R : DelayedReader} {x : Fetching α} {f : α → Fetching β} {b : β} :
    R.run (x >>= f) = .ok b ↔ ∃ a, R.run x = .ok a ∧ R.run (f a) = .ok b := by
  rw [run_bind, Runs.bind_ok]

section
variable {R R' : DelayedReader} {x : Fetching α}

end

end DelayedReader

structure DelayedCache where
  msgs : DelayedMap
  scannedLo : Option ℕ
  scannedHi : Option ℕ

namespace DelayedCache

def new : DelayedCache := ⟨∅, none, none⟩

/-- The indices `needFrom, …, needTo - 1`. -/
def needed (needFrom needTo : ℕ) : List ℕ := List.range' needFrom (needTo - needFrom)

def covers (c : DelayedCache) (needFrom needTo : ℕ) : Bool :=
  (needed needFrom needTo).all (fun i => c.msgs.contains i)

/-- Read the blocks from `lo` to `chunkHi`, the highest chunk first.  The first argument bounds the number of further
chunks. -/
def scanChunks (lo window : ℕ) : ℕ → ℕ → DelayedMap → Fetching DelayedMap
  | fuel, chunkHi, msgs => do
    let chunkLo := max (chunkHi - (window - 1)) lo
    let ms ← .request (chunkLo, chunkHi)
    let msgs := Keyed.insertAll DelayedMessage.inboxSeqNum msgs ms
    match fuel with
    | 0 => return msgs
    | fuel + 1 => if chunkLo = lo then return msgs else scanChunks lo window fuel (chunkLo - 1) msgs

def scanRange (c : DelayedCache) (lo hi window : ℕ) : Fetching DelayedCache := do
  let msgs ← scanChunks lo (max window 1) (hi - lo) hi c.msgs
  pure
    { msgs
      scannedLo := some (c.scannedLo.elim lo (fun x => min x lo))
      scannedHi := some (c.scannedHi.elim hi (fun x => max x hi)) }

/-- The backward walk, from the lowest block scanned so far.  The first argument bounds the number of rounds. -/
def coverBack (needFrom needTo window : ℕ) : ℕ → ℕ → DelayedCache → Fetching DelayedCache
  | fuel, lo, c =>
    if c.covers needFrom needTo then return c
    else
      match fuel, lo with
      | fuel + 1, nextHi + 1 => do
        let c ← c.scanRange (nextHi - (window - 1)) nextHi window
        coverBack needFrom needTo window fuel (nextHi - (window - 1)) c
      | _, _ => .done (.error (.missing "delayed messages: scan reached block 0 without coverage"))

/-- Scan the blocks since the last scan, or the first window. -/
def extendForward (c : DelayedCache) (toBlock window : ℕ) : Fetching DelayedCache :=
  match c.scannedHi with
  | some hi => if hi < toBlock then c.scanRange (hi + 1) toBlock window else return c
  | none => c.scanRange (toBlock - (window - 1)) toBlock window

/-- Read on until the needed messages are there. -/
def fill (c : DelayedCache) (toBlock needFrom needTo window : ℕ) : Fetching DelayedCache :=
  if c.covers needFrom needTo then return c
  else do
    let c ← c.extendForward toBlock window
    let lo := c.scannedLo.getD 0
    coverBack needFrom needTo window lo lo c

def cover (c : DelayedCache) (toBlock needFrom needTo window : ℕ) : Fetching (DelayedMap × DelayedCache) :=
  if needTo ≤ needFrom then return (∅, c)
  else do
    let c ← c.fill toBlock needFrom needTo (max window 1)
    pure
      (DelayedMap.fromMessages ((needed needFrom needTo).filterMap (fun i => c.msgs[i]?)),
        { c with msgs := c.msgs.filter (fun i _ => decide (needFrom ≤ i)) })

end DelayedCache

/-! ### The inbox -/

/-- The delayed inbox of an L1 history: by index, the block of delivery and the message. -/
structure Inbox where
  delivery : ℕ → Option (ℕ × DelayedMessage)
  index : ∀ i n m, delivery i = some (n, m) → m.inboxSeqNum = i

/-- Up to the block `top`, the reader returns what was delivered. -/
def DelayedReader.Reads (R : DelayedReader) (inbox : Inbox) (top : ℕ) : Prop :=
  ∀ a b, a ≤ b → b ≤ top → ∃ ms, R a b = .ok ms ∧
    ∀ m, m ∈ ms ↔ ∃ n, inbox.delivery m.inboxSeqNum = some (n, m) ∧ a ≤ n ∧ n ≤ b

/-- The messages `needFrom, …, needTo - 1`, all delivered up to the block `top`. -/
def Inbox.Delivered (inbox : Inbox) (needFrom needTo top : ℕ) (ms : List DelayedMessage) : Prop :=
  List.Forall₂ (fun i m => ∃ n ≤ top, inbox.delivery i = some (n, m)) (DelayedCache.needed needFrom needTo) ms

/-- What is in the map was delivered up to `top`, and it has what was delivered in the blocks `seen` from
the index `cursor` on. -/
structure Inbox.Holds (inbox : Inbox) (cursor top : ℕ) (seen : Set ℕ) (msgs : DelayedMap) : Prop where
  sound : ∀ i m, msgs[i]? = some m → ∃ n ≤ top, inbox.delivery i = some (n, m)
  full : ∀ i n m, cursor ≤ i → inbox.delivery i = some (n, m) → n ∈ seen → msgs[i]? = some m

namespace Inbox.Holds

variable {inbox : Inbox} {cursor cursor' top top' a b : ℕ} {seen seen' : Set ℕ} {msgs : DelayedMap}
  {ms : List DelayedMessage}

theorem mono (h : inbox.Holds cursor top seen msgs) (hcursor : cursor ≤ cursor') (htop : top ≤ top')
    (hseen : seen' ⊆ seen) : inbox.Holds cursor' top' seen' msgs where
  sound i m hm := by
    obtain ⟨n, hn, hdelivery⟩ := h.sound i m hm
    exact ⟨n, hn.trans htop, hdelivery⟩
  full i n m hi hdelivery hn := h.full i n m (hcursor.trans hi) hdelivery (hseen hn)

theorem read (h : inbox.Holds cursor top seen msgs) (hb : b ≤ top)
    (hms : ∀ m, m ∈ ms ↔ ∃ n, inbox.delivery m.inboxSeqNum = some (n, m) ∧ a ≤ n ∧ n ≤ b) :
    inbox.Holds cursor top (seen ∪ Set.Icc a b) (Keyed.insertAll DelayedMessage.inboxSeqNum msgs ms) where
  sound i m hm := by
    rcases Keyed.of_getElem?_insertAll hm with ⟨hmem, rfl⟩ | hm
    · obtain ⟨n, hdelivery, -, hn⟩ := (hms m).mp hmem
      exact ⟨n, hn.trans hb, hdelivery⟩
    · exact h.sound i m hm
  full i n m hi hdelivery hn := by
    obtain rfl := inbox.index i n m hdelivery
    -- an entry under the index of `m` is `m`
    have huniq : ∀ m' ∈ ms, m'.inboxSeqNum = m.inboxSeqNum → m' = m := by
      intro m' hm' hindex
      obtain ⟨n', hdelivery', -, -⟩ := (hms m').mp hm'
      rw [hindex, hdelivery] at hdelivery'
      exact (Prod.mk.inj (Option.some.inj hdelivery')).2.symm
    by_cases hmem : m ∈ ms
    · exact Keyed.getElem?_insertAll_of_mem hmem huniq
    · rw [Keyed.getElem?_insertAll_of_ne fun m' hm' hindex => hmem (huniq m' hm' hindex ▸ hm')]
      refine h.full _ n m hi hdelivery (hn.resolve_right fun hrange => hmem ?_)
      exact (hms m).mpr ⟨n, hdelivery, hrange.1, hrange.2⟩

theorem prune (h : inbox.Holds cursor top seen msgs) (hcursor : cursor ≤ cursor') :
    inbox.Holds cursor' top seen (msgs.filter (fun i _ => decide (cursor' ≤ i))) where
  sound i m hm := by
    rw [Std.TreeMap.getElem?_filter'] at hm
    exact h.sound i m (Option.eq_some_of_filter_eq_some hm)
  full i n m hi hdelivery hn := by
    rw [Std.TreeMap.getElem?_filter', h.full i n m (hcursor.trans hi) hdelivery hn]
    simp [hi]

end Inbox.Holds

/-! ### Scans -/

namespace DelayedCache

variable {R : DelayedReader} {inbox : Inbox} {cursor top lo hi window toBlock needFrom needTo : ℕ}
  {seen : Set ℕ} {c c' : DelayedCache}

theorem mem_needed {i : ℕ} : i ∈ needed needFrom needTo ↔ needFrom ≤ i ∧ i < needTo := by
  unfold needed
  rw [List.mem_range'_1]
  omega

theorem scanChunks_last {fuel chunkHi : ℕ} {msgs : DelayedMap} {ms : List DelayedMessage}
    (hchunk : max (chunkHi - (window - 1)) lo = lo) (hread : R lo chunkHi = .ok ms) :
    R.run (scanChunks lo window fuel chunkHi msgs) = .ok (Keyed.insertAll DelayedMessage.inboxSeqNum msgs ms) := by
  unfold scanChunks
  simp only [hchunk, DelayedReader.run_bind, DelayedReader.run_request, hread, ok_bind]
  cases fuel with
  | zero => rfl
  | succ fuel => simp only [if_true, DelayedReader.run_pure]

theorem scanChunks_next {fuel chunkHi : ℕ} {msgs : DelayedMap} {ms : List DelayedMessage}
    (hchunk : max (chunkHi - (window - 1)) lo ≠ lo) (hread : R (max (chunkHi - (window - 1)) lo) chunkHi = .ok ms) :
    R.run (scanChunks lo window (fuel + 1) chunkHi msgs) =
      R.run (scanChunks lo window fuel (max (chunkHi - (window - 1)) lo - 1)
        (Keyed.insertAll DelayedMessage.inboxSeqNum msgs ms)) := by
  conv_lhs => unfold scanChunks
  simp only [DelayedReader.run_bind, DelayedReader.run_request, hread, ok_bind, if_neg hchunk]

theorem scanChunks_holds (window : ℕ) (hR : R.Reads inbox top) (fuel : ℕ) : ∀ {chunkHi : ℕ} {seen : Set ℕ}
    {msgs : DelayedMap}, lo ≤ chunkHi → chunkHi - lo ≤ fuel → chunkHi ≤ top → inbox.Holds cursor top seen msgs →
    ∃ msgs', R.run (scanChunks lo window fuel chunkHi msgs) = .ok msgs' ∧
      inbox.Holds cursor top (seen ∪ Set.Icc lo chunkHi) msgs' := by
  induction fuel with
  | zero =>
    intro chunkHi seen msgs hlo hfuel htop h
    obtain ⟨ms, hread, hms⟩ := hR lo chunkHi hlo htop
    exact ⟨_, scanChunks_last (by omega) hread, h.read htop hms⟩
  | succ fuel ih =>
    intro chunkHi seen msgs hlo hfuel htop h
    by_cases hchunk : max (chunkHi - (window - 1)) lo = lo
    · obtain ⟨ms, hread, hms⟩ := hR lo chunkHi hlo htop
      exact ⟨_, scanChunks_last hchunk hread, h.read htop hms⟩
    · obtain ⟨chunkLo, hchunkLo⟩ : ∃ chunkLo, chunkLo = max (chunkHi - (window - 1)) lo := ⟨_, rfl⟩
      obtain ⟨ms, hread, hms⟩ := hR chunkLo chunkHi (by omega) htop
      obtain ⟨msgs', hscan, hholds⟩ :=
        @ih (chunkLo - 1) _ _ (by omega) (by omega) (by omega) (h.read htop hms)
      rw [hchunkLo] at hread hscan
      refine ⟨msgs', (scanChunks_next hchunk hread).trans hscan, hholds.mono le_rfl le_rfl ?_⟩
      rintro n (hn | ⟨hn, hn'⟩)
      · exact Or.inl (Or.inl hn)
      · by_cases hn'' : chunkLo ≤ n
        · exact Or.inl (Or.inr ⟨hn'', hn'⟩)
        · exact Or.inr ⟨hn, by omega⟩

/-- The cache has read the blocks from `lo` to `hi`. -/
structure Scanned (inbox : Inbox) (cursor lo hi : ℕ) (c : DelayedCache) : Prop where
  lo_eq : c.scannedLo = some lo
  hi_eq : c.scannedHi = some hi
  le : lo ≤ hi
  holds : inbox.Holds cursor hi (Set.Icc lo hi) c.msgs

/-- The cache has read nothing, or the blocks of an interval up to `top` at most. -/
def Valid (inbox : Inbox) (cursor top : ℕ) (c : DelayedCache) : Prop :=
  c = new ∨ ∃ lo hi, hi ≤ top ∧ c.Scanned inbox cursor lo hi

theorem Valid.new : new.Valid inbox cursor top := Or.inl rfl

theorem Valid.mono {cursor' top' : ℕ} (h : c.Valid inbox cursor top) (hcursor : cursor ≤ cursor')
    (htop : top ≤ top') : c.Valid inbox cursor' top' := by
  rcases h with h | ⟨lo, hi, hhi, hscanned⟩
  · exact Or.inl h
  · exact Or.inr ⟨lo, hi, hhi.trans htop, hscanned.lo_eq, hscanned.hi_eq, hscanned.le,
      hscanned.holds.mono hcursor le_rfl subset_rfl⟩

theorem scanRange_new (cursor window : ℕ) (hR : R.Reads inbox hi) (hle : lo ≤ hi) :
    ∃ c', R.run (new.scanRange lo hi window) = .ok c' ∧ c'.Scanned inbox cursor lo hi := by
  have hnew : inbox.Holds cursor hi ∅ new.msgs :=
    ⟨fun i m hm => by simp [new] at hm, fun i n m _ _ hn => absurd hn (Set.notMem_empty n)⟩
  obtain ⟨msgs', hscan, hholds⟩ := scanChunks_holds (max window 1) hR (hi - lo) hle le_rfl le_rfl hnew
  refine ⟨⟨msgs', some lo, some hi⟩, ?_, rfl, rfl, hle, ?_⟩
  · rw [scanRange, DelayedReader.run_bind, hscan]
    rfl
  · rwa [Set.empty_union] at hholds

theorem Scanned.scanRange_above {hi' : ℕ} (window : ℕ) (h : c.Scanned inbox cursor lo hi) (hR : R.Reads inbox hi')
    (hlt : hi < hi') : ∃ c', R.run (c.scanRange (hi + 1) hi' window) = .ok c' ∧ c'.Scanned inbox cursor lo hi' := by
  have hbase := h.holds.mono le_rfl hlt.le subset_rfl
  obtain ⟨msgs', hscan, hholds⟩ :=
    scanChunks_holds (max window 1) hR (hi' - (hi + 1)) hlt le_rfl le_rfl hbase
  have hle := h.le
  refine ⟨⟨msgs', some lo, some hi'⟩, ?_, rfl, rfl, by omega, hholds.mono le_rfl le_rfl ?_⟩
  · rw [scanRange, DelayedReader.run_bind, hscan, h.lo_eq, h.hi_eq]
    simp only [Option.elim_some, min_eq_left (by omega : lo ≤ hi + 1), max_eq_right hlt.le]
    rfl
  · rintro n ⟨hn, hn'⟩
    by_cases hn'' : n ≤ hi
    · exact Or.inl ⟨hn, hn''⟩
    · exact Or.inr ⟨by omega, hn'⟩

theorem Scanned.scanRange_below {lo' : ℕ} (window : ℕ) (h : c.Scanned inbox cursor (lo + 1) hi) (hR : R.Reads inbox hi)
    (hle : lo' ≤ lo) : ∃ c', R.run (c.scanRange lo' lo window) = .ok c' ∧ c'.Scanned inbox cursor lo' hi := by
  have hlohi := h.le
  obtain ⟨msgs', hscan, hholds⟩ :=
    scanChunks_holds (max window 1) hR (lo - lo') hle le_rfl (by omega) h.holds
  refine ⟨⟨msgs', some lo', some hi⟩, ?_, rfl, rfl, by omega, hholds.mono le_rfl le_rfl ?_⟩
  · rw [scanRange, DelayedReader.run_bind, hscan, h.lo_eq, h.hi_eq]
    simp only [Option.elim_some, min_eq_right (by omega : lo' ≤ lo + 1), max_eq_left (by omega : lo ≤ hi)]
    rfl
  · rintro n ⟨hn, hn'⟩
    by_cases hn'' : n ≤ lo
    · exact Or.inr ⟨hn, hn''⟩
    · exact Or.inl ⟨by omega, hn'⟩

/-! ### Coverage -/

theorem covers_iff : c.covers needFrom needTo = true ↔ ∀ i, needFrom ≤ i → i < needTo → ∃ m, c.msgs[i]? = some m := by
  unfold covers
  rw [List.all_eq_true]
  simp only [mem_needed, Std.TreeMap.contains_iff_mem, Std.TreeMap.mem_iff_isSome_getElem?,
    Option.isSome_iff_exists, and_imp]

/-- From block 0 on everything delivered so far has been read. -/
theorem Scanned.covers (h : c.Scanned inbox cursor 0 hi) (hcursor : cursor ≤ needFrom)
    {ms : List DelayedMessage} (hms : inbox.Delivered needFrom needTo hi ms) : c.covers needFrom needTo = true := by
  rw [covers_iff]
  intro i hi' hi''
  obtain ⟨k, hk, rfl⟩ := List.getElem_of_mem (mem_needed.mpr ⟨hi', hi''⟩)
  obtain ⟨n, hn, hdelivery⟩ := hms.get hk (hms.length_eq ▸ hk)
  exact ⟨_, h.holds.full _ n _ (hcursor.trans hi') hdelivery ⟨Nat.zero_le n, hn⟩⟩

/-- The backward walk ends with the needed messages, if they were all delivered. -/
theorem coverBack_scanned (window : ℕ) (hR : R.Reads inbox hi) (hcursor : cursor ≤ needFrom) (fuel : ℕ) :
    ∀ {lo : ℕ} {c : DelayedCache}, lo ≤ fuel → c.Scanned inbox cursor lo hi →
    (∃ c' lo', R.run (coverBack needFrom needTo window fuel lo c) = .ok c' ∧ c'.covers needFrom needTo = true ∧
      c'.Scanned inbox cursor lo' hi) ∨ ((∃ e, R.run (coverBack needFrom needTo window fuel lo c) = .error e) ∧
      ∀ ms, ¬ inbox.Delivered needFrom needTo hi ms) := by
  induction fuel with
  | zero =>
    intro lo c hlo h
    obtain rfl : lo = 0 := by omega
    unfold coverBack
    by_cases hcovers : c.covers needFrom needTo = true
    · rw [if_pos hcovers]
      exact Or.inl ⟨c, 0, rfl, hcovers, h⟩
    · rw [if_neg hcovers]
      exact Or.inr ⟨⟨_, rfl⟩, fun ms hms => hcovers (h.covers hcursor hms)⟩
  | succ fuel ih =>
    intro lo c hlo h
    unfold coverBack
    by_cases hcovers : c.covers needFrom needTo = true
    · rw [if_pos hcovers]
      exact Or.inl ⟨c, lo, rfl, hcovers, h⟩
    · rw [if_neg hcovers]
      cases lo with
      | zero => exact Or.inr ⟨⟨_, rfl⟩, fun ms hms => hcovers (h.covers hcursor hms)⟩
      | succ nextHi =>
        obtain ⟨c', hscan, h'⟩ := h.scanRange_below window hR (Nat.sub_le nextHi (window - 1))
        simp only [DelayedReader.run_bind, hscan, ok_bind]
        exact ih (by omega) h'

/-- Filling a valid cache gives the needed messages, if they were all delivered up to the end of the window. -/
theorem Valid.fill (needTo window : ℕ) (h : c.Valid inbox cursor top) (htop : top ≤ toBlock) (hR : R.Reads inbox toBlock)
    (hcursor : cursor ≤ needFrom) :
    (∃ c', R.run (c.fill toBlock needFrom needTo window) = .ok c' ∧ c'.covers needFrom needTo = true ∧
      c'.Valid inbox cursor toBlock) ∨ ((∃ e, R.run (c.fill toBlock needFrom needTo window) = .error e) ∧
      ∀ ms, ¬ inbox.Delivered needFrom needTo toBlock ms) := by
  unfold DelayedCache.fill
  by_cases hcovers : c.covers needFrom needTo = true
  · rw [if_pos hcovers]
    exact Or.inl ⟨c, rfl, hcovers, h.mono le_rfl htop⟩
  · rw [if_neg hcovers]
    -- after the forward scan the interval reaches the end of the window
    have hforward : ∃ c₁ lo₁, R.run (c.extendForward toBlock window) = .ok c₁ ∧
        c₁.Scanned inbox cursor lo₁ toBlock := by
      unfold extendForward
      rcases h with rfl | ⟨lo, hi, hhi, hscanned⟩
      · obtain ⟨c₁, hscan, h₁⟩ := scanRange_new cursor window hR (Nat.sub_le toBlock (window - 1))
        exact ⟨c₁, _, hscan, h₁⟩
      · simp only [hscanned.hi_eq]
        by_cases hlt : hi < toBlock
        · obtain ⟨c₁, hscan, h₁⟩ := hscanned.scanRange_above window hR hlt
          rw [if_pos hlt]
          exact ⟨c₁, lo, hscan, h₁⟩
        · obtain rfl : hi = toBlock := by omega
          rw [if_neg hlt]
          exact ⟨c, lo, rfl, hscanned⟩
    obtain ⟨c₁, lo₁, hextend, h₁⟩ := hforward
    simp only [DelayedReader.run_bind, hextend, ok_bind, h₁.lo_eq, Option.getD_some]
    rcases coverBack_scanned window hR hcursor lo₁ le_rfl h₁ with ⟨c', lo', hback, hcov, h'⟩ | hfail
    · exact Or.inl ⟨c', hback, hcov, Or.inr ⟨lo', toBlock, le_rfl, h'⟩⟩
    · exact Or.inr hfail

theorem Valid.delivered (h : c.Valid inbox cursor top) (hcovers : c.covers needFrom needTo = true) :
    inbox.Delivered needFrom needTo top ((needed needFrom needTo).filterMap (fun i => c.msgs[i]?)) := by
  have hsound : ∀ i m, c.msgs[i]? = some m → ∃ n ≤ top, inbox.delivery i = some (n, m) := by
    rcases h with rfl | ⟨lo, hi, hhi, hscanned⟩
    · intro i m hm
      simp [DelayedCache.new] at hm
    · exact (hscanned.holds.mono le_rfl hhi subset_rfl).sound
  unfold Inbox.Delivered
  have hsome : ∀ i ∈ needed needFrom needTo, ∃ m, c.msgs[i]? = some m := by
    intro i hi
    rw [mem_needed] at hi
    exact covers_iff.mp hcovers i hi.1 hi.2
  generalize needed needFrom needTo = is at hsome
  induction is with
  | nil => exact .nil
  | cons i is ih =>
    obtain ⟨m, hm⟩ := hsome i List.mem_cons_self
    rw [List.filterMap_cons_some hm]
    exact .cons (hsound i m hm) (ih fun j hj => hsome j (List.mem_cons_of_mem _ hj))

theorem Valid.prune (h : c.Valid inbox cursor top) (hcursor : cursor ≤ needFrom) :
    Valid inbox needFrom top { c with msgs := c.msgs.filter (fun i _ => decide (needFrom ≤ i)) } := by
  rcases h with rfl | ⟨lo, hi, hhi, hscanned⟩
  · exact Or.inl rfl
  · exact Or.inr ⟨lo, hi, hhi, hscanned.lo_eq, hscanned.hi_eq, hscanned.le, hscanned.holds.prune hcursor⟩

theorem delivered_unique {top' : ℕ} {ms ms' : List DelayedMessage} (h : inbox.Delivered needFrom needTo top ms)
    (h' : inbox.Delivered needFrom needTo top' ms') : ms = ms' := by
  have hforget : ∀ {top ms}, inbox.Delivered needFrom needTo top ms →
      List.Forall₂ (fun i m => ∃ n, inbox.delivery i = some (n, m)) (needed needFrom needTo) ms := by
    intro top ms h
    refine h.imp fun i m hm => ?_
    obtain ⟨n, -, hm⟩ := hm
    exact ⟨n, hm⟩
  refine List.right_unique_forall₂' ?_ (hforget h) (hforget h')
  rintro i m m' ⟨n, hm⟩ ⟨n', hm'⟩
  rw [hm] at hm'
  exact (Prod.mk.inj (Option.some.inj hm')).2

/-- Coverage succeeds only when all needed messages were delivered, and returns them. -/
theorem Valid.cover_ok (h : c.Valid inbox cursor top) (htop : top ≤ toBlock) (hR : R.Reads inbox toBlock)
    (hcursor : cursor ≤ needFrom) (hlt : needFrom < needTo) {map : DelayedMap}
    (hcover : R.run (c.cover toBlock needFrom needTo window) = .ok (map, c')) :
    (∃ ms, inbox.Delivered needFrom needTo toBlock ms ∧ map = DelayedMap.fromMessages ms) ∧
      c'.Valid inbox needFrom toBlock := by
  unfold DelayedCache.cover at hcover
  rw [if_neg (Nat.not_le.mpr hlt), DelayedReader.run_bind] at hcover
  obtain ⟨c₁, hfill, hcover⟩ := bind_ok.mp hcover
  cases hcover
  rcases h.fill needTo (max window 1) htop hR hcursor with ⟨c₂, hfill', hcovers, h₂⟩ | ⟨⟨e, hfail⟩, -⟩
  · cases hfill.symm.trans hfill'
    exact ⟨⟨_, h₂.delivered hcovers, rfl⟩, h₂.prune hcursor⟩
  · rw [hfail] at hfill
    cases hfill

/-- When all needed messages were delivered, coverage succeeds. -/
theorem Valid.cover_of_delivered (window : ℕ) (h : c.Valid inbox cursor top) (htop : top ≤ toBlock)
    (hR : R.Reads inbox toBlock) (hcursor : cursor ≤ needFrom) (hlt : needFrom < needTo)
    {ms : List DelayedMessage} (hms : inbox.Delivered needFrom needTo toBlock ms) :
    ∃ c', R.run (c.cover toBlock needFrom needTo window) = .ok (DelayedMap.fromMessages ms, c') := by
  unfold DelayedCache.cover
  rw [if_neg (Nat.not_le.mpr hlt), DelayedReader.run_bind]
  rcases h.fill needTo (max window 1) htop hR hcursor with ⟨c₁, hfill, hcovers, h₁⟩ | ⟨-, hfail⟩
  · rw [hfill, ok_bind, delivered_unique (h₁.delivered hcovers) hms]
    exact ⟨_, rfl⟩
  · exact absurd hms (hfail ms)

end DelayedCache

end ArbReth.L1
