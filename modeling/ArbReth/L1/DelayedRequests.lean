import ArbReth.L1.DelayedCache
import ArbReth.Lib.Traced

/-! # The requests of the delayed cache

`cover` asks the delayed inbox reader for ranges of L1 blocks (`fetch_delayed`).  A cache is never asked to read a block twice: the ranges requested since it was new are disjoint and make
up exactly the interval that it has scanned (`Requested`), through any calls.  For a sequence of calls that
consume the inbox in order this is stated together with what the calls return in `cover_scans_once`. -/

namespace ArbReth.L1

open ArbReth.Derive ArbReth.Runs ArbReth.Requests ArbReth.Tracing

namespace DelayedCache

variable {R : DelayedReader} {needFrom needTo toBlock window : ℕ}

/-! ### The ranges requested -/

/-- The requests are for at most `window` blocks each. -/
def Short (window : ℕ) (log : List (ℕ × ℕ)) : Prop := ∀ r ∈ log, r.1 ≤ r.2 ∧ r.2 - r.1 + 1 ≤ window

theorem Short.append {log log' : List (ℕ × ℕ)} (h : Short window log) (h' : Short window log') :
    Short window (log ++ log') := by
  intro r hr
  rcases List.mem_append.mp hr with hr | hr
  · exact h r hr
  · exact h' r hr

theorem pure_requests {α : Type} (a : α) : R.requests (pure a) = [] := rfl

theorem request_requests {r : ℕ × ℕ} {ms : List DelayedMessage} (h : R.run (.request r) = .ok ms) :
    R.requests (.request r) = [r] := by
  rw [DelayedReader.run_request] at h
  simp [DelayedReader.requests, Asks.request, Asks.requests, h]

theorem requests_bind {α β : Type} {x : Fetching α} {a : α} (h : R.run x = .ok a) (f : α → Fetching β) :
    R.requests (x >>= f) = R.requests x ++ R.requests (f a) := Asks.requests_bind h f

theorem Short.nil (window : ℕ) : Short window [] := fun _ hr => absurd hr List.not_mem_nil

/-- A scan asks for every block of its interval once, in short ranges. -/
theorem scanChunks_requests {lo : ℕ} (hwindow : 1 ≤ window) : ∀ (fuel chunkHi : ℕ) (msgs msgs' : DelayedMap),
    lo ≤ chunkHi → chunkHi - lo ≤ fuel → R.run (scanChunks lo window fuel chunkHi msgs) = .ok msgs' →
    Tiles (R.requests (scanChunks lo window fuel chunkHi msgs)) lo (chunkHi + 1) ∧
      Short window (R.requests (scanChunks lo window fuel chunkHi msgs)) := by
  -- the last chunk is one request, for the rest of the interval
  have hlast : ∀ chunkHi, lo ≤ chunkHi → max (chunkHi - (window - 1)) lo = lo →
      Tiles [(lo, chunkHi)] lo (chunkHi + 1) ∧ Short window [(lo, chunkHi)] := by
    intro chunkHi hle hchunk
    refine ⟨Tiles.singleton lo chunkHi, ?_⟩
    intro r hr
    rw [List.mem_singleton.mp hr]
    exact ⟨hle, by dsimp only; omega⟩
  intro fuel
  induction fuel with
  | zero =>
    intro chunkHi msgs msgs' hle hfuel hok
    have hchunk : max (chunkHi - (window - 1)) lo = lo := by omega
    unfold scanChunks at hok ⊢
    rw [DelayedReader.run_bind] at hok
    obtain ⟨ms, hread, -⟩ := bind_ok.mp hok
    rw [requests_bind hread, request_requests hread]
    simpa [pure_requests, hchunk] using hlast chunkHi hle hchunk
  | succ fuel ih =>
    intro chunkHi msgs msgs' hle hfuel hok
    unfold scanChunks at hok ⊢
    rw [DelayedReader.run_bind] at hok
    obtain ⟨ms, hread, hok⟩ := bind_ok.mp hok
    rw [requests_bind hread, request_requests hread]
    dsimp only at hok ⊢
    by_cases hchunk : max (chunkHi - (window - 1)) lo = lo
    · rw [if_pos hchunk]
      simpa [pure_requests, hchunk] using hlast chunkHi hle hchunk
    · rw [if_neg hchunk] at hok ⊢
      generalize hchunkLo : max (chunkHi - (window - 1)) lo = chunkLo at *
      obtain ⟨htiles, hshort⟩ := ih (chunkLo - 1) _ msgs' (by omega) (by omega) hok
      rw [Nat.sub_add_cancel (by omega : 1 ≤ chunkLo)] at htiles
      refine ⟨(Tiles.singleton chunkLo chunkHi).append_below htiles (by omega) (by omega), ?_⟩
      refine Short.append ?_ hshort
      intro r hr
      rw [List.mem_singleton.mp hr]
      exact ⟨by dsimp only; omega, by dsimp only; omega⟩

/-- The requests made since the cache was new make up what it has scanned, each block once. -/
def Requested (log : List (ℕ × ℕ)) (c : DelayedCache) : Prop :=
  (c.scannedLo = none ∧ c.scannedHi = none ∧ log = []) ∨
    ∃ lo hi, c.scannedLo = some lo ∧ c.scannedHi = some hi ∧ lo ≤ hi ∧ Tiles log lo (hi + 1)

/-- The requests of a program that takes the cache `c` to `c'` add to those before. -/
def Adds (window : ℕ) (c : DelayedCache) (requests : List (ℕ × ℕ)) (c' : DelayedCache) : Prop :=
  (∀ log, Requested log c → Requested (log ++ requests) c') ∧ Short window requests

theorem Adds.refl (window : ℕ) (c : DelayedCache) : Adds window c [] c :=
  ⟨fun log h => by rwa [List.append_nil], Short.nil window⟩

theorem Adds.trans {c c₁ c₂ : DelayedCache} {requests requests' : List (ℕ × ℕ)} (h : Adds window c requests c₁)
    (h' : Adds window c₁ requests' c₂) : Adds window c (requests ++ requests') c₂ := by
  refine ⟨fun log hlog => ?_, h.2.append h'.2⟩
  rw [← List.append_assoc]
  exact h'.1 _ (h.1 log hlog)

variable {c c' : DelayedCache}

theorem scanRange_requests {lo hi : ℕ} (hle : lo ≤ hi)
    (hok : R.run (c.scanRange lo hi window) = .ok c') : Tiles (R.requests (c.scanRange lo hi window)) lo (hi + 1) ∧
      Short (max window 1) (R.requests (c.scanRange lo hi window)) ∧
      c'.scannedLo = some (c.scannedLo.elim lo (fun x => min x lo)) ∧
      c'.scannedHi = some (c.scannedHi.elim hi (fun x => max x hi)) := by
  rw [scanRange, DelayedReader.run_bind] at hok
  obtain ⟨msgs, hscan, hok⟩ := bind_ok.mp hok
  cases hok
  obtain ⟨htiles, hshort⟩ := scanChunks_requests (le_max_right window 1) (hi - lo) hi c.msgs msgs hle le_rfl hscan
  rw [scanRange, requests_bind hscan, pure_requests, List.append_nil]
  exact ⟨htiles, hshort, rfl, rfl⟩

theorem scanRange_adds_first {lo hi : ℕ} (hnew : c.scannedHi = none) (hle : lo ≤ hi)
    (hok : R.run (c.scanRange lo hi window) = .ok c') : Adds (max window 1) c (R.requests (c.scanRange lo hi window)) c' := by
  obtain ⟨htiles, hshort, hlo', hhi'⟩ := scanRange_requests hle hok
  refine ⟨fun log hlog => ?_, hshort⟩
  rcases hlog with ⟨hlo, -, rfl⟩ | ⟨lo₀, hi₀, -, hhi, -⟩
  · rw [hlo] at hlo'
    rw [hnew] at hhi'
    exact Or.inr ⟨lo, hi, hlo', hhi', hle, htiles⟩
  · rw [hnew] at hhi
    cases hhi

theorem scanRange_adds_above {hi hi' : ℕ} (hhi : c.scannedHi = some hi) (hlt : hi < hi')
    (hok : R.run (c.scanRange (hi + 1) hi' window) = .ok c') :
    Adds (max window 1) c (R.requests (c.scanRange (hi + 1) hi' window)) c' := by
  obtain ⟨htiles, hshort, hlo', hhi'⟩ := scanRange_requests hlt hok
  refine ⟨fun log hlog => ?_, hshort⟩
  rcases hlog with ⟨-, hnone, -⟩ | ⟨lo, hi₀, hlo, hhi₀, hle, hlog⟩
  · rw [hhi] at hnone
    cases hnone
  · cases hhi.symm.trans hhi₀
    rw [hlo, Option.elim_some, min_eq_left (by omega)] at hlo'
    rw [hhi, Option.elim_some, max_eq_right hlt.le] at hhi'
    exact Or.inr ⟨lo, hi', hlo', hhi', by omega, hlog.append htiles (by omega) (by omega)⟩

theorem scanRange_adds_below {lo nextHi : ℕ} (hlo : c.scannedLo = some (nextHi + 1))
    (hle : lo ≤ nextHi) (hok : R.run (c.scanRange lo nextHi window) = .ok c') :
    c'.scannedLo = some lo ∧ Adds (max window 1) c (R.requests (c.scanRange lo nextHi window)) c' := by
  obtain ⟨htiles, hshort, hlo', hhi'⟩ := scanRange_requests hle hok
  rw [hlo, Option.elim_some, min_eq_right (by omega)] at hlo'
  refine ⟨hlo', fun log hlog => ?_, hshort⟩
  rcases hlog with ⟨hnone, -, -⟩ | ⟨lo₀, hi, hlo₀, hhi, hle', hlog⟩
  · rw [hlo] at hnone
    cases hnone
  · cases hlo.symm.trans hlo₀
    rw [hhi, Option.elim_some, max_eq_left (by omega)] at hhi'
    exact Or.inr ⟨lo, hi, hlo', hhi', by omega, hlog.append_below htiles (by omega) (by omega)⟩

theorem coverBack_adds (hwindow : 1 ≤ window) : ∀ (fuel lo : ℕ) (c c' : DelayedCache), c.scannedLo = some lo →
    R.run (coverBack needFrom needTo window fuel lo c) = .ok c' →
    Adds window c (R.requests (coverBack needFrom needTo window fuel lo c)) c' := by
  intro fuel
  induction fuel with
  | zero =>
    intro lo c c' hlo hok
    unfold coverBack at hok ⊢
    split at hok
    · rw [if_pos ‹_›, ← Except.ok.inj hok]
      exact Adds.refl window c
    · cases hok
  | succ fuel ih =>
    intro lo c c' hlo hok
    unfold coverBack at hok ⊢
    split at hok
    · rw [if_pos ‹_›, ← Except.ok.inj hok]
      exact Adds.refl window c
    · rw [if_neg ‹_›]
      cases lo with
      | zero => cases hok
      | succ nextHi =>
        dsimp only at hok ⊢
        rw [DelayedReader.run_bind] at hok
        obtain ⟨c₁, hscan, hok⟩ := bind_ok.mp hok
        obtain ⟨hlo₁, hadds⟩ := scanRange_adds_below hlo (Nat.sub_le nextHi (window - 1)) hscan
        rw [max_eq_left hwindow] at hadds
        rw [requests_bind hscan]
        exact hadds.trans (ih _ c₁ c' hlo₁ hok)

theorem extendForward_adds (hwindow : 1 ≤ window) (hok : R.run (c.extendForward toBlock window) = .ok c') :
    Adds window c (R.requests (c.extendForward toBlock window)) c' := by
  unfold extendForward at hok ⊢
  cases hhi : c.scannedHi with
  | none =>
    rw [hhi] at hok
    have hadds := scanRange_adds_first hhi (Nat.sub_le toBlock (window - 1)) hok
    rwa [max_eq_left hwindow] at hadds
  | some hi =>
    rw [hhi] at hok
    dsimp only at hok ⊢
    split at hok
    · rw [if_pos ‹_›]
      have hadds := scanRange_adds_above hhi ‹_› hok
      rwa [max_eq_left hwindow] at hadds
    · rw [if_neg ‹_›, ← Except.ok.inj hok]
      exact Adds.refl window c

theorem extendForward_scannedLo {log : List (ℕ × ℕ)} (h : Requested log c)
    (hok : R.run (c.extendForward toBlock window) = .ok c') : ∃ lo, c'.scannedLo = some lo := by
  unfold extendForward at hok
  have hscan : ∀ lo hi, R.run (c.scanRange lo hi window) = .ok c' → ∃ lo, c'.scannedLo = some lo := by
    intro lo hi hok
    rw [scanRange, DelayedReader.run_bind] at hok
    obtain ⟨msgs, -, hok⟩ := bind_ok.mp hok
    rw [← Except.ok.inj hok]
    exact ⟨_, rfl⟩
  rcases h with ⟨-, hnone, -⟩ | ⟨lo, hi, hlo, hhi, -⟩
  · rw [hnone] at hok
    exact hscan _ _ hok
  · rw [hhi] at hok
    dsimp only at hok
    split at hok
    · exact hscan _ _ hok
    · rw [← Except.ok.inj hok]
      exact ⟨lo, hlo⟩

/-- A call that succeeds asks only for blocks outside the scanned interval, and the interval grows by
them. -/
theorem cover_requests {log : List (ℕ × ℕ)} {map : DelayedMap} (h : Requested log c)
    (hok : R.run (c.cover toBlock needFrom needTo window) = .ok (map, c')) :
    Requested (log ++ (R.requests (c.cover toBlock needFrom needTo window))) c' ∧
      Short (max window 1) (R.requests (c.cover toBlock needFrom needTo window)) := by
  have hwindow : 1 ≤ max window 1 := le_max_right window 1
  unfold cover at hok ⊢
  split at hok
  · cases hok
    rw [if_pos ‹_›, pure_requests, List.append_nil]
    exact ⟨h, Short.nil _⟩
  · rw [if_neg ‹_›]
    rw [DelayedReader.run_bind] at hok
    obtain ⟨c₁, hfill, hok⟩ := bind_ok.mp hok
    cases hok
    rw [requests_bind hfill, pure_requests, List.append_nil]
    -- dropping messages does not touch the interval
    suffices hadds : Requested (log ++ (R.requests (c.fill toBlock needFrom needTo (max window 1)))) c₁ ∧
        Short (max window 1) (R.requests (c.fill toBlock needFrom needTo (max window 1))) from
      ⟨hadds.1, hadds.2⟩
    unfold fill at hfill ⊢
    split at hfill
    · cases hfill
      rw [if_pos ‹_›, pure_requests, List.append_nil]
      exact ⟨h, Short.nil _⟩
    · rw [if_neg ‹_›]
      rw [DelayedReader.run_bind] at hfill
      obtain ⟨c₂, hextend, hback⟩ := bind_ok.mp hfill
      obtain ⟨lo, hlo⟩ := extendForward_scannedLo h hextend
      rw [requests_bind hextend]
      have hadds := extendForward_adds hwindow hextend
      have hadds' := coverBack_adds hwindow _ _ c₂ c₁ (by rw [hlo, Option.getD_some]) hback
      exact ⟨(hadds.trans hadds').1 log h, (hadds.trans hadds').2⟩

/-! ### A sequence of calls -/

/-- The arguments of one call. -/
structure CoverCall where
  toBlock : ℕ
  needFrom : ℕ
  needTo : ℕ
  window : ℕ

/-- Make the calls one after the other: for each what it returns and the ranges it requests. -/
def coverCalls (R : DelayedReader) :
    DelayedCache → List CoverCall → Except DeriveError (List (DelayedMap × List (ℕ × ℕ)) × DelayedCache)
  | c, [] => .ok ([], c)
  | c, call :: calls => do
    let call := c.cover call.toBlock call.needFrom call.needTo call.window
    let covered ← R.run call
    let rest ← coverCalls R covered.2 calls
    .ok ((covered.1, R.requests call) :: rest.1, rest.2)

/-- The calls consume the inbox in order, from the index `cursor` to the index `stop`, and their blocks do not go back.
-/
inductive Consumes (inbox : Inbox) : ℕ → ℕ → List CoverCall → ℕ → Prop
  | nil (cursor top : ℕ) : Consumes inbox cursor top [] cursor
  | cons {top stop : ℕ} {call : CoverCall} {calls : List CoverCall} (htop : top ≤ call.toBlock)
      (hle : call.needFrom ≤ call.needTo)
      (hdelivered : ∃ ms, inbox.Delivered call.needFrom call.needTo call.toBlock ms)
      (hrest : Consumes inbox call.needTo call.toBlock calls stop) :
      Consumes inbox call.needFrom top (call :: calls) stop

/-- A call returned its messages, all of them and no others, and requested at most a window of blocks at a
time. -/
def Answered (inbox : Inbox) (call : CoverCall) (result : DelayedMap × List (ℕ × ℕ)) : Prop :=
  (∃ ms, inbox.Delivered call.needFrom call.needTo call.toBlock ms ∧ result.1 = DelayedMap.fromMessages ms) ∧
    Short (max call.window 1) result.2

/-- The cache has every message of the scanned blocks from the index on. -/
def Keeps (inbox : Inbox) (index : ℕ) (c : DelayedCache) : Prop :=
  ∀ lo hi i n m, c.scannedLo = some lo → c.scannedHi = some hi → index ≤ i → inbox.delivery i = some (n, m) →
    lo ≤ n → n ≤ hi → c.msgs[i]? = some m

variable {inbox : Inbox}

theorem Valid.keeps {cursor top : ℕ} {c : DelayedCache} (h : c.Valid inbox cursor top) : c.Keeps inbox cursor := by
  intro lo hi i n m hlo hhi hi' hdelivery hn hn'
  rcases h with rfl | ⟨lo', hi'', -, hscanned⟩
  · cases hlo
  · cases hlo.symm.trans hscanned.lo_eq
    cases hhi.symm.trans hscanned.hi_eq
    exact hscanned.holds.full i n m hi' hdelivery ⟨hn, hn'⟩

theorem Valid.cover_call {top : ℕ} {c : DelayedCache} {call : CoverCall}
    (h : c.Valid inbox call.needFrom top) (hR : R.Reads inbox call.toBlock) (htop : top ≤ call.toBlock)
    (hle : call.needFrom ≤ call.needTo) {ms : List DelayedMessage}
    (hms : inbox.Delivered call.needFrom call.needTo call.toBlock ms) :
    ∃ c', R.run (c.cover call.toBlock call.needFrom call.needTo call.window) = .ok (DelayedMap.fromMessages ms, c') ∧
      c'.Valid inbox call.needTo call.toBlock := by
  rcases Nat.lt_or_ge call.needFrom call.needTo with hlt | hge
  · obtain ⟨c', hcover⟩ := h.cover_of_delivered call.window htop hR le_rfl hlt hms
    exact ⟨c', hcover, (h.cover_ok htop hR le_rfl hlt hcover).2.mono hle le_rfl⟩
  · -- nothing is needed, so nothing is returned
    have hnil : ms = [] := by
      have hlength := hms.length_eq
      rw [needed, List.length_range', Nat.sub_eq_zero_of_le hge] at hlength
      exact List.length_eq_zero_iff.mp hlength.symm
    refine ⟨c, ?_, h.mono hle htop⟩
    unfold cover
    rw [if_pos hge, hnil]
    rfl

theorem coverCalls_cons {c c' c'' : DelayedCache} {call : CoverCall} {calls : List CoverCall} {map : DelayedMap}
    {results : List (DelayedMap × List (ℕ × ℕ))}
    (hcover : R.run (c.cover call.toBlock call.needFrom call.needTo call.window) = .ok (map, c'))
    (hrest : coverCalls R c' calls = .ok (results, c'')) : coverCalls R c (call :: calls) =
      .ok ((map, (R.requests (c.cover call.toBlock call.needFrom call.needTo call.window))) :: results, c'') := by
  unfold coverCalls
  refine bind_ok.mpr ⟨(map, c'), hcover, ?_⟩
  exact bind_ok.mpr ⟨(results, c''), hrest, rfl⟩

theorem coverCalls_answered (hR : ∀ top, R.Reads inbox top) {cursor top stop : ℕ}
    {calls : List CoverCall} (hcalls : Consumes inbox cursor top calls stop) :
    ∀ (c : DelayedCache) (log : List (ℕ × ℕ)), c.Valid inbox cursor top → Requested log c →
    ∃ results c', coverCalls R c calls = .ok (results, c') ∧ List.Forall₂ (Answered inbox) calls results ∧
      Requested (log ++ results.flatMap Prod.snd) c' ∧ c'.Keeps inbox stop := by
  induction hcalls with
  | nil cursor top =>
    intro c log hvalid hlog
    refine ⟨[], c, rfl, .nil, ?_, hvalid.keeps⟩
    rwa [List.flatMap_nil, List.append_nil]
  | @cons top stop call calls htop hle hdelivered _ ih =>
    intro c log hvalid hlog
    obtain ⟨ms, hms⟩ := hdelivered
    obtain ⟨c₁, hcover, hvalid₁⟩ := hvalid.cover_call (hR call.toBlock) htop hle hms
    obtain ⟨hlog₁, hshort⟩ := cover_requests hlog hcover
    obtain ⟨results, c', hrest, hanswered, hlog', hkeeps⟩ := ih c₁ _ hvalid₁ hlog₁
    refine ⟨_, c', coverCalls_cons hcover hrest, .cons ⟨⟨ms, hms, rfl⟩, hshort⟩ hanswered, ?_, hkeeps⟩
    rwa [List.flatMap_cons, ← List.append_assoc]

/-- Over calls that consume the inbox in order, every call returns exactly its messages, and the blocks scanned are one
interval, each requested once, in ranges of at most a window. -/
theorem cover_scans_once (inbox : Inbox) (R : DelayedReader) (hR : ∀ top, R.Reads inbox top) (start stop : ℕ)
    (calls : List CoverCall) (hcalls : Consumes inbox start 0 calls stop) :
    ∃ results c, coverCalls R new calls = .ok (results, c) ∧ List.Forall₂ (Answered inbox) calls results ∧
      Requested (results.flatMap Prod.snd) c ∧ c.Keeps inbox stop := by
  obtain ⟨results, c, hok, hanswered, hlog, hkeeps⟩ :=
    coverCalls_answered hR hcalls new [] Valid.new (Or.inl ⟨rfl, rfl, rfl⟩)
  exact ⟨results, c, hok, hanswered, hlog, hkeeps⟩

/-! An inbox given by the blocks of its messages, and its reader. -/

def sampleMessage (index block : ℕ) : DelayedMessage where
  kind := 0
  sender := 0
  blockNumber := block
  timestamp := 0
  inboxSeqNum := index
  baseFeeL1 := 0
  data := []
  beforeInboxAcc := 0

def sampleInbox (blocks : List ℕ) : Inbox where
  delivery := fun i => blocks[i]?.map (fun n => (n, sampleMessage i n))
  index := by
    intro i n m h
    obtain ⟨n', -, h⟩ := Option.map_eq_some_iff.mp h
    cases h
    rfl

def sampleReader (blocks : List ℕ) : DelayedReader := fun a b =>
  .ok ((blocks.zipIdx.filter (fun p => decide (a ≤ p.1 ∧ p.1 ≤ b))).map (fun p => sampleMessage p.2 p.1))

theorem sampleReader_reads (blocks : List ℕ) (top : ℕ) : (sampleReader blocks).Reads (sampleInbox blocks) top := by
  intro a b _ _
  refine ⟨_, rfl, fun m => ?_⟩
  constructor
  · intro hm
    obtain ⟨⟨n, i⟩, hp, rfl⟩ := List.mem_map.mp hm
    obtain ⟨hmem, hrange⟩ := List.mem_filter.mp hp
    have hget : blocks[i]? = some n := List.mem_zipIdx_iff_getElem?.mp hmem
    refine ⟨n, ?_, of_decide_eq_true hrange⟩
    simp [sampleInbox, sampleMessage, hget]
  · rintro ⟨n, hdelivery, hrange⟩
    obtain ⟨n', hget, h⟩ := Option.map_eq_some_iff.mp hdelivery
    obtain ⟨rfl, hm⟩ := Prod.mk.inj h
    refine List.mem_map.mpr ⟨(n', m.inboxSeqNum), List.mem_filter.mpr ⟨?_, decide_eq_true hrange⟩, hm⟩
    exact List.mem_zipIdx_iff_getElem?.mpr hget

theorem cover_scans_once_sample :
    ∃ results c, coverCalls (sampleReader [3, 9, 12]) new [⟨10, 0, 1, 4⟩, ⟨14, 1, 3, 0⟩] = .ok (results, c) ∧
      List.Forall₂ (Answered (sampleInbox [3, 9, 12])) [⟨10, 0, 1, 4⟩, ⟨14, 1, 3, 0⟩] results ∧
      Requested (results.flatMap Prod.snd) c ∧ c.Keeps (sampleInbox [3, 9, 12]) 3 := by
  refine cover_scans_once (sampleInbox [3, 9, 12]) (sampleReader [3, 9, 12]) (sampleReader_reads [3, 9, 12]) 0 3
    [⟨10, 0, 1, 4⟩, ⟨14, 1, 3, 0⟩] ?_
  have hsecond : Consumes (sampleInbox [3, 9, 12]) 1 10 [⟨14, 1, 3, 0⟩] 3 := by
    refine @Consumes.cons _ 10 3 ⟨14, 1, 3, 0⟩ [] (by decide) (by decide) ?_ (.nil 3 14)
    refine ⟨[sampleMessage 1 9, sampleMessage 2 12], ?_⟩
    exact .cons ⟨9, by decide, rfl⟩ (.cons ⟨12, by decide, rfl⟩ .nil)
  refine @Consumes.cons _ 0 3 ⟨10, 0, 1, 4⟩ _ (by decide) (by decide) ?_ hsecond
  exact ⟨[sampleMessage 0 3], .cons ⟨3, by decide, rfl⟩ .nil⟩

/-- The ranges of these two calls: the highest first, then the walk backward, then block by block. -/
example :
    (coverCalls (sampleReader [3, 9, 12]) new [⟨10, 0, 1, 4⟩, ⟨14, 1, 3, 0⟩]).toOption.map
      (fun p => p.1.flatMap Prod.snd) = some [(7, 10), (3, 6), (14, 14), (13, 13), (12, 12), (11, 11)] := by
  decide +kernel

end DelayedCache

end ArbReth.L1
