import ArbReth.Lib.HashChain
import ArbReth.Recovery.Journal

/-! # The trusted-L2 monitor

The task of the node (`commands/node.rs`, `trusted_l2.rs`) that compares its durable headers with those of a trusted node.
At every poll it reads the durable tip and goes through the heights that it has not compared yet, from below; it stops
with a fatal error at the first difference, and where the trusted node gives no answer it goes on at the next poll.

The header that was checked last is always a canonical one (`Sound`).  As the headers are linked, it stands for the
whole chain below it. -/

namespace ArbReth.Recovery

inductive MonitorError where
  /-- The provider of the durable headers fails. -/
  | provider
  | numberOverflow
  | disappeared (number : ℕ)
  | differentHeights
  | divergence
  /-- The clock or the file system fails while the incident is recorded. -/
  | recording
deriving DecidableEq, Repr

/-- What the monitor meets during one poll. -/
structure Poll where
  /-- `durable_header`. -/
  durableHeader : Except MonitorError (Option HeaderObservation)
  durableHeaderAt : ℕ → Except MonitorError (Option HeaderObservation)
  /-- The answer of the trusted node; a failed request is as good as none. -/
  canonicalHeader : ℕ → Option HeaderObservation
  now : Except MonitorError ℕ
  /-- Whether `persist_incident` publishes the marker, and what it returns: the directory may fail to sync after it. -/
  persistIncident : Bool × Except MonitorError Unit

inductive Comparison where
  | match
  | mismatch
deriving DecidableEq, Repr

structure TrustedL2Monitor where
  chainId : ℕ

def firstUncheckedHeight (lastChecked : Option HeaderObservation) (tip : HeaderObservation) :
    Except MonitorError (Option ℕ) :=
  match lastChecked with
  | none => .ok (some tip.number)
  | some last =>
    if tip.number < last.number ∨ tip.number = last.number ∧ tip ≠ last then .ok (some tip.number)
    else if tip.number = last.number then .ok none
    else if last.number + 1 < u64Size then .ok (some (last.number + 1))
    else .error .numberOverflow

/-- Where the comparison begins.  A checked header that is not on the chain any more is compared again. -/
def startHeight (poll : Poll) (lastChecked : Option HeaderObservation) (tip : HeaderObservation) :
    Except MonitorError (Option ℕ) :=
  match lastChecked with
  | none => firstUncheckedHeight none tip
  | some last =>
    if last.number < tip.number then
      match poll.durableHeaderAt last.number with
      | .ok (some current) => if current = last then .ok (some (last.number + 1)) else .ok (some last.number)
      | .ok none => .ok (some last.number)
      | .error e => .error e
    else firstUncheckedHeight (some last) tip

structure MonitorState where
  lastChecked : Option HeaderObservation
  /-- The error with which the monitor has stopped. -/
  fatal : Option MonitorError
  /-- The incident that was recorded. -/
  incident : Option Incident
  /-- The heights for which the trusted node was asked in the last poll. -/
  requested : List ℕ

namespace TrustedL2Monitor

variable (M : TrustedL2Monitor)

def incident (observed canonical : HeaderObservation) (detectedAt : ℕ) : Incident where
  schemaVersion := 1
  effectiveChainId := M.chainId
  l2BlockNumber := observed.number
  localHash := observed.hash
  canonicalHash := canonical.hash
  localStateRoot := observed.stateRoot
  canonicalStateRoot := canonical.stateRoot
  detectedAtUnixSecs := detectedAt

/-- The comparison, and the incident that is recorded. -/
def compareAndRecord (poll : Poll) (observed canonical : HeaderObservation) :
    Except MonitorError Comparison × Option Incident :=
  if observed.number ≠ canonical.number then (.error .differentHeights, none)
  else if observed.hash = canonical.hash ∧ observed.stateRoot = canonical.stateRoot then (.ok .match, none)
  else
    match poll.now with
    | .error e => (.error e, none)
    | .ok detectedAt =>
      (poll.persistIncident.2.map fun _ => .mismatch,
        if poll.persistIncident.1 then some (M.incident observed canonical detectedAt) else none)

/-- The heights of one poll, until one cannot be compared or differs. -/
def checkHeights (poll : Poll) (tip : HeaderObservation) : List ℕ → MonitorState → MonitorState
  | [], s => s
  | number :: rest, s =>
    match if number = tip.number then .ok (some tip) else poll.durableHeaderAt number with
    | .error e => { s with fatal := some e }
    | .ok none => { s with fatal := some (.disappeared number) }
    | .ok (some observed) =>
      match poll.canonicalHeader number with
      | none => { s with requested := s.requested ++ [number] }
      | some canonical =>
        match M.compareAndRecord poll observed canonical with
        | (.ok .match, _) =>
          checkHeights poll tip rest
            { s with lastChecked := some observed, requested := s.requested ++ [number] }
        | (.ok .mismatch, recorded) =>
          { s with
            fatal := some .divergence, requested := s.requested ++ [number]
            incident := recorded.or s.incident }
        | (.error e, recorded) =>
          { s with
            fatal := some e, requested := s.requested ++ [number], incident := recorded.or s.incident }

/-- One round of the loop. -/
def poll (s : MonitorState) (p : Poll) : MonitorState :=
  if s.fatal.isSome then s
  else
    match p.durableHeader with
    | .error e => { s with fatal := some e, requested := [] }
    | .ok none => { s with requested := [] }
    | .ok (some tip) =>
      match startHeight p s.lastChecked tip with
      | .error e => { s with fatal := some e, requested := [] }
      | .ok none => { s with requested := [] }
      | .ok (some start) =>
        M.checkHeights p tip (List.range' start (tip.number + 1 - start)) { s with requested := [] }

def start : MonitorState := ⟨none, none, none, []⟩

def run (polls : List Poll) : MonitorState := polls.foldl M.poll start

end TrustedL2Monitor

/-! ### What the polls see -/

open HashChain

variable {H : Type}

/-- The chain of the trusted node, and the headers among which no two share a hash. -/
structure World (H : Type) extends Fields H B256 where
  stateRoot : H → B256
  base : ℕ
  canonical : ℕ → Option H
  linked : Linked toFields base canonical
  known : Set H
  canonical_known : headers canonical ⊆ known
  collisionFree : Set.InjOn hash known

def World.observe (W : World H) (h : H) : HeaderObservation := ⟨W.number h, W.hash h, W.stateRoot h⟩

/-- A poll reads one local chain, and the trusted node answers from the canonical one or not at all. -/
structure Poll.Sees (W : World H) (chain : ℕ → Option H) (p : Poll) : Prop where
  linked : Linked W.toFields W.base chain
  known : headers chain ⊆ W.known
  above : ∀ {n h}, chain n = some h → W.base ≤ n
  durableHeader : ∀ {tip}, p.durableHeader = .ok (some tip) →
    (∃ h, chain tip.number = some h ∧ W.observe h = tip) ∧ ∀ n, tip.number < n → chain n = none
  durableHeaderAt : ∀ {n x}, p.durableHeaderAt n = .ok x → x = (chain n).map W.observe
  canonicalHeader : ∀ {n x}, p.canonicalHeader n = some x → ∃ h, W.canonical n = some h ∧ W.observe h = x

/-- A header of the local chain that is the canonical one of its height. -/
def Shared (W : World H) (chain : ℕ → Option H) (n : ℕ) : Prop := ∃ h, chain n = some h ∧ W.canonical n = some h

/-- The local header at this height is not the canonical one. -/
def Differs (W : World H) (chain : ℕ → Option H) (n : ℕ) : Prop := ∃ h, chain n = some h ∧ W.canonical n ≠ some h

variable {W : World H} {chain : ℕ → Option H} {p : Poll} {n m : ℕ}

theorem Shared.not_differs (h : Shared W chain n) : ¬ Differs W chain n := by
  obtain ⟨a, ha, hcan⟩ := h
  rintro ⟨b, hb, hne⟩
  rw [ha] at hb
  exact hne (hcan.trans hb)

theorem Poll.Sees.shared_below (hp : p.Sees W chain) (h : Shared W chain n) (hm : W.base ≤ m) (hmn : m ≤ n) :
    Shared W chain m := by
  obtain ⟨a, ha, hcan⟩ := h
  exact hp.linked.agree_below W.linked W.collisionFree hp.known W.canonical_known ha hcan hm hmn

theorem Poll.Sees.shared_of_some (hp : p.Sees W chain) (h : Shared W chain n) (hmn : m ≤ n) {a : H}
    (ha : chain m = some a) : Shared W chain m :=
  hp.shared_below h (hp.above ha) hmn

/-- The lowest difference is the height above a shared header. -/
theorem Poll.Sees.isLeast_differs (hp : p.Sees W chain) (h : Differs W chain n)
    (hbelow : ∀ m, m < n → W.base ≤ m → Shared W chain m) : IsLeast {n | Differs W chain n} n := by
  refine ⟨h, fun m hm => ?_⟩
  by_contra hlt
  obtain ⟨a, ha, -⟩ := id hm
  exact (hbelow m (by omega) (hp.above ha)).not_differs hm

/-! ### One poll -/

namespace TrustedL2Monitor

variable {M : TrustedL2Monitor} {tip : HeaderObservation} {s t s' : MonitorState}

/-- What the comparison of two headers of one height says about the chains. -/
theorem compareAndRecord_cases (hp : p.Sees W chain) {h : H} (hlocal : chain n = some h) {x : HeaderObservation}
    (hx : p.canonicalHeader n = some x) :
    (M.compareAndRecord p (W.observe h) x = (.ok .match, none) ∧ Shared W chain n) ∨
      (Differs W chain n ∧ ∃ result recorded, M.compareAndRecord p (W.observe h) x = (result, recorded) ∧
        result ≠ .ok .match ∧ ∀ i, recorded = some i → i.l2BlockNumber = n) := by
  obtain ⟨c, hc, rfl⟩ := hp.canonicalHeader hx
  have hnum : (W.observe h).number = (W.observe c).number :=
    (hp.linked.number hlocal).trans (W.linked.number hc).symm
  by_cases hsame : (W.observe h).hash = (W.observe c).hash ∧ (W.observe h).stateRoot = (W.observe c).stateRoot
  · left
    refine ⟨by rw [compareAndRecord, if_neg (by simpa using hnum), if_pos hsame], h, hlocal, ?_⟩
    obtain rfl := W.collisionFree (hp.known ⟨n, hlocal⟩) (W.canonical_known ⟨n, hc⟩) hsame.1
    exact hc
  · right
    refine ⟨⟨h, hlocal, fun hcan => ?_⟩, ?_⟩
    · cases hc.symm.trans hcan
      exact hsame ⟨rfl, rfl⟩
    · cases hnow : p.now with
      | error e =>
        refine ⟨.error e, none, ?_, by simp, by simp⟩
        rw [compareAndRecord, if_neg (by simpa using hnum), if_neg hsame, hnow]
      | ok detectedAt =>
        refine ⟨p.persistIncident.2.map fun _ => .mismatch,
          if p.persistIncident.1 then some (M.incident (W.observe h) (W.observe c) detectedAt) else none, ?_, ?_, ?_⟩
        · rw [compareAndRecord, if_neg (by simpa using hnum), if_neg hsame, hnow]
        · cases p.persistIncident.2 <;> simp [Except.map]
        · intro i hi
          rw [Option.ite_none_right_eq_some] at hi
          obtain ⟨-, hi⟩ := hi
          cases hi
          exact hp.linked.number hlocal

/-- The heights `start, …, start + j - 1` were asked for, answered and found shared. -/
structure Passed (W : World H) (chain : ℕ → Option H) (p : Poll) (start j : ℕ) (s t : MonitorState) : Prop where
  shared : ∀ n, start ≤ n → n < start + j → Shared W chain n ∧ (p.canonicalHeader n).isSome = true
  last : (j = 0 ∧ t.lastChecked = s.lastChecked) ∨
    ∃ h, 0 < j ∧ chain (start + j - 1) = some h ∧ t.lastChecked = some (W.observe h)
  requested : t.requested = s.requested ++ List.range' start j
  fatal : t.fatal = s.fatal
  incident : t.incident = s.incident

/-- How the comparison leaves its loop at height `n`. -/
inductive Stopped (W : World H) (chain : ℕ → Option H) (p : Poll) (n : ℕ) (t : MonitorState) : MonitorState → Prop
  | outage : p.canonicalHeader n = none → Stopped W chain p n t { t with requested := t.requested ++ [n] }
  | unread (e : MonitorError) : Stopped W chain p n t { t with fatal := some e }
  | differs (e : MonitorError) (recorded : Option Incident) : Differs W chain n →
      (∀ i, recorded = some i → i.l2BlockNumber = n) →
      Stopped W chain p n t
        { t with fatal := some e, requested := t.requested ++ [n], incident := recorded.or t.incident }

theorem Passed.nil {start : ℕ} : Passed W chain p start 0 s s :=
  ⟨fun n h h' => by omega, .inl ⟨rfl, rfl⟩, by simp, rfl, rfl⟩

theorem Passed.cons {start j : ℕ} {h : H} (hh : chain start = some h) (hshared : Shared W chain start)
    (hanswer : (p.canonicalHeader start).isSome = true) (ht : Passed W chain p (start + 1) j
      { s with lastChecked := some (W.observe h), requested := s.requested ++ [start] } t) :
    Passed W chain p start (j + 1) s t where
  shared n hle hlt := by
    rcases Nat.eq_or_lt_of_le hle with rfl | hlt'
    · exact ⟨hshared, hanswer⟩
    · exact ht.shared n hlt' (by omega)
  last := by
    right
    obtain ⟨rfl, hlast⟩ | ⟨a, hj, ha, hlast⟩ := ht.last
    · exact ⟨h, by omega, by simpa using hh, hlast⟩
    · refine ⟨a, by omega, ?_, hlast⟩
      rw [show start + (j + 1) - 1 = start + 1 + j - 1 by omega]
      exact ha
  requested := by
    rw [ht.requested, List.range'_succ]
    simp
  fatal := ht.fatal
  incident := ht.incident

theorem local_header (hp : p.Sees W chain) (htip : p.durableHeader = .ok (some tip)) {x : HeaderObservation}
    (h : (if n = tip.number then .ok (some tip) else p.durableHeaderAt n) = .ok (some x)) :
    ∃ a, chain n = some a ∧ W.observe a = x := by
  split at h
  · rename_i hn
    cases h
    subst hn
    exact (hp.durableHeader htip).1
  · exact Option.map_eq_some_iff.mp (hp.durableHeaderAt h).symm

theorem checkHeights_cons (hp : p.Sees W chain) (htip : p.durableHeader = .ok (some tip)) (rest : List ℕ)
    (s : MonitorState) : (∃ h, chain n = some h ∧ Shared W chain n ∧ (p.canonicalHeader n).isSome = true ∧
      M.checkHeights p tip (n :: rest) s =
        M.checkHeights p tip rest { s with lastChecked := some (W.observe h), requested := s.requested ++ [n] }) ∨
      Stopped W chain p n s (M.checkHeights p tip (n :: rest) s) := by
  rw [checkHeights]
  cases hread : (if n = tip.number then .ok (some tip) else p.durableHeaderAt n : Except MonitorError _) with
  | error e => exact .inr (.unread e)
  | ok x =>
    cases x with
    | none => exact .inr (.unread _)
    | some x =>
      obtain ⟨h, hh, rfl⟩ := local_header hp htip hread
      cases hx : p.canonicalHeader n with
      | none => exact .inr (.outage hx)
      | some x =>
        obtain ⟨heq, hshared⟩ | ⟨hdiffers, result, recorded, heq, hne, hrec⟩ :=
          compareAndRecord_cases (M := M) hp hh hx
        · left
          simp only [heq]
          exact ⟨h, hh, hshared, rfl, rfl⟩
        · right
          simp only [heq]
          cases result with
          | error e => exact .differs _ _ hdiffers hrec
          | ok comparison =>
            cases comparison with
            | «match» => exact absurd rfl hne
            | mismatch => exact .differs _ _ hdiffers hrec

/-- The loop passes over shared heights until it is done or stops. -/
theorem checkHeights_spec (hp : p.Sees W chain) (htip : p.durableHeader = .ok (some tip)) (k start : ℕ)
    (s : MonitorState) : ∃ j t, Passed W chain p start j s t ∧
      (j = k ∧ M.checkHeights p tip (List.range' start k) s = t ∨
        j < k ∧ Stopped W chain p (start + j) t (M.checkHeights p tip (List.range' start k) s)) := by
  induction k generalizing start s with
  | zero => exact ⟨0, s, .nil, .inl ⟨rfl, rfl⟩⟩
  | succ k ih =>
    rw [List.range'_succ]
    obtain ⟨h, hh, hshared, hanswer, heq⟩ | hstop := checkHeights_cons (M := M) (n := start) hp htip _ s
    · obtain ⟨j, t, hpassed, hend⟩ := ih (start + 1)
        { s with lastChecked := some (W.observe h), requested := s.requested ++ [start] }
      refine ⟨j + 1, t, .cons hh hshared hanswer hpassed, ?_⟩
      rw [heq]
      obtain ⟨rfl, ht⟩ | ⟨hlt, ht⟩ := hend
      · exact .inl ⟨rfl, ht⟩
      · refine .inr ⟨by omega, ?_⟩
        rw [show start + (j + 1) = start + 1 + j by omega]
        exact ht
    · exact ⟨0, s, .nil, .inr ⟨by omega, hstop⟩⟩

/-! ### Where a poll begins -/

/-- An observed header is on this chain. -/
def OnChain (W : World H) (chain : ℕ → Option H) (x : HeaderObservation) : Prop :=
  ∃ h, chain x.number = some h ∧ W.observe h = x

variable {last : Option HeaderObservation}

/-- A poll begins at the tip, if the tip is not above what was checked; otherwise above the header checked last, or at
its height if this header is gone. -/
theorem startHeight_some (hp : p.Sees W chain) (htip : p.durableHeader = .ok (some tip))
    {start : ℕ} (h : startHeight p last tip = .ok (some start)) :
    (start = tip.number ∧ ∀ x, last = some x → tip.number ≤ x.number ∧ ¬ OnChain W chain x) ∨
      ∃ x, last = some x ∧ x.number < tip.number ∧ (start = x.number + 1 ∨ start = x.number ∧ ¬ OnChain W chain x) := by
  cases last with
  | none =>
    cases h
    exact .inl ⟨rfl, fun x hx => by cases hx⟩
  | some last =>
    simp only [startHeight] at h
    split at h
    · rename_i hlt
      refine .inr ⟨last, rfl, hlt, ?_⟩
      cases hread : p.durableHeaderAt last.number with
      | error e => simp [hread] at h
      | ok current =>
        have hcurrent := hp.durableHeaderAt hread
        have hnot (hne : current ≠ some last) : ¬ OnChain W chain last := by
          rintro ⟨a, ha, hobs⟩
          rw [ha, Option.map_some, hobs] at hcurrent
          exact hne hcurrent
        simp only [hread] at h
        cases current with
        | none => exact .inr ⟨by simpa using h.symm, hnot (by simp)⟩
        | some current =>
          simp only at h
          split at h
          · exact .inl (by simpa using h.symm)
          · exact .inr ⟨by simpa using h.symm, hnot (by simpa)⟩
    · rename_i hge
      simp only [firstUncheckedHeight] at h
      split at h
      · rename_i hbelow
        cases h
        refine .inl ⟨rfl, fun x hx => ?_⟩
        cases hx
        refine ⟨by omega, fun ⟨a, ha, hobs⟩ => ?_⟩
        obtain ⟨⟨b, hb, hobs'⟩, habove⟩ := hp.durableHeader htip
        obtain hlt | ⟨heq, hne⟩ := hbelow
        · rw [habove _ hlt] at ha
          cases ha
        · rw [heq, ha] at hb
          cases hb
          exact hne (hobs'.symm.trans hobs)
      · split at h
        · cases h
        · omega

theorem startHeight_none (h : startHeight p last tip = .ok none) : last = some tip := by
  cases last with
  | none => cases h
  | some last =>
    simp only [startHeight] at h
    split at h
    · split at h <;> try cases h
      split at h <;> cases h
    · simp only [firstUncheckedHeight] at h
      split at h
      · cases h
      · rename_i hnot
        split at h
        · rename_i heq
          by_contra hne
          exact hnot (.inr ⟨heq, fun h' => hne (by rw [h'])⟩)
        · split at h <;> cases h

/-! ### What holds between the polls -/

/-- The header checked last is a canonical one, seen on a local chain; and no incident without a fatal error. -/
structure Sound (W : World H) (views : List (Poll × (ℕ → Option H))) (s : MonitorState) : Prop where
  last : ∀ x, s.lastChecked = some x →
    ∃ h, W.observe h = x ∧ W.canonical x.number = some h ∧ ∃ v ∈ views, v.2 x.number = some h
  incident : s.fatal = none → s.incident = none

variable {views : List (Poll × (ℕ → Option H))}

theorem Sound.start : Sound W [] start := ⟨fun x hx => (by cases hx), fun _ => rfl⟩

theorem Sound.shared (hs : Sound W views s) (hp : p.Sees W chain) {x : HeaderObservation}
    (hx : s.lastChecked = some x) (hon : OnChain W chain x) : Shared W chain x.number := by
  obtain ⟨h, hobs, hcan, -⟩ := hs.last x hx
  obtain ⟨a, ha, hobs'⟩ := hon
  have hhash : W.hash a = W.hash h := congrArg HeaderObservation.hash (hobs'.trans hobs.symm)
  obtain rfl := W.collisionFree (hp.known ⟨_, ha⟩) (W.canonical_known ⟨_, hcan⟩) hhash
  exact ⟨a, ha, hcan⟩

theorem Stopped.lastChecked {s' : MonitorState} (h : Stopped W chain p n t s') : s'.lastChecked = t.lastChecked := by
  cases h <;> rfl

theorem Stopped.outage_of_fatal {s' : MonitorState} (h : Stopped W chain p n t s') (hfatal : s'.fatal = none) :
    p.canonicalHeader n = none ∧ s' = { t with requested := t.requested ++ [n] } := by
  cases h with
  | outage hnone => exact ⟨hnone, rfl⟩
  | unread e => cases hfatal
  | differs e recorded hdiffers hrec => cases hfatal

/-- The part of a poll that reads the local chain: it finds nothing to compare, or runs through the heights. -/
inductive Polled (W : World H) (chain : ℕ → Option H) (p : Poll) (s : MonitorState) : MonitorState → Prop
  | unread (e : MonitorError) : Polled W chain p s { s with fatal := some e, requested := [] }
  | idle : (∀ tip, p.durableHeader = .ok (some tip) → s.lastChecked = some tip) →
      Polled W chain p s { s with requested := [] }
  | done (tip : HeaderObservation) (start j : ℕ) (t : MonitorState) : p.durableHeader = .ok (some tip) →
      startHeight p s.lastChecked tip = .ok (some start) → Passed W chain p start j { s with requested := [] } t →
      j = tip.number + 1 - start → Polled W chain p s t
  | stopped (tip : HeaderObservation) (start j : ℕ) (t s' : MonitorState) : p.durableHeader = .ok (some tip) →
      startHeight p s.lastChecked tip = .ok (some start) → Passed W chain p start j { s with requested := [] } t →
      j < tip.number + 1 - start → Stopped W chain p (start + j) t s' → Polled W chain p s s'

theorem poll_polled (M : TrustedL2Monitor) (hp : p.Sees W chain) (hs : s.fatal = none) :
    Polled W chain p s (M.poll s p) := by
  rw [poll, if_neg (by simp [hs])]
  cases htip : p.durableHeader with
  | error e => exact .unread e
  | ok tip =>
    cases tip with
    | none => exact .idle fun tip h => by rw [htip] at h; cases h
    | some tip =>
      simp only
      cases hstart : startHeight p s.lastChecked tip with
      | error e => exact .unread e
      | ok start =>
        cases start with
        | none =>
          refine .idle fun tip' h => ?_
          rw [htip] at h
          cases h
          exact startHeight_none hstart
        | some start =>
          obtain ⟨j, t, hpassed, ⟨hj, heq⟩ | ⟨hj, hstop⟩⟩ :=
            checkHeights_spec (M := M) hp htip (tip.number + 1 - start) start { s with requested := [] }
          · simp only [heq]
            exact .done tip start j t htip hstart hpassed hj
          · exact .stopped tip start j t _ htip hstart hpassed hj hstop

/-- The header checked last, after some heights: the old one, or the highest of them. -/
theorem Passed.last_cases (hp : p.Sees W chain) {start j : ℕ} (h : Passed W chain p start j s t)
    {x : HeaderObservation} (hx : t.lastChecked = some x) :
    (j = 0 ∧ s.lastChecked = some x) ∨ (0 < j ∧ x.number = start + j - 1 ∧ OnChain W chain x) := by
  obtain ⟨hj, hlast⟩ | ⟨a, hj, ha, hlast⟩ := h.last
  · exact .inl ⟨hj, hlast.symm.trans hx⟩
  · cases hlast.symm.trans hx
    have hnum : (W.observe a).number = start + j - 1 := hp.linked.number ha
    exact .inr ⟨hj, hnum, a, by rw [hnum]; exact ha, rfl⟩

theorem Passed.shared_last {start j : ℕ} (h : Passed W chain p start j s t) (hj : 0 < j) :
    Shared W chain (start + j - 1) :=
  (h.shared _ (by omega) (by omega)).1

/-- The heights of a poll, and the state after those it has passed. -/
theorem Polled.last_cases (hp : p.Sees W chain) (h : Polled W chain p s s') {x : HeaderObservation}
    (hx : s'.lastChecked = some x) : s.lastChecked = some x ∨ (OnChain W chain x ∧ Shared W chain x.number) := by
  have passed {start j : ℕ} {t : MonitorState} (ht : Passed W chain p start j { s with requested := [] } t)
      (hx : t.lastChecked = some x) : s.lastChecked = some x ∨ (OnChain W chain x ∧ Shared W chain x.number) := by
    obtain ⟨-, hlast⟩ | ⟨hj, hnum, hon⟩ := ht.last_cases hp hx
    · exact .inl hlast
    · exact .inr ⟨hon, hnum ▸ ht.shared_last hj⟩
  cases h with
  | unread e => exact .inl hx
  | idle hidle => exact .inl hx
  | done tip start j t htip hstart ht hj => exact passed ht hx
  | stopped tip start j t s' htip hstart ht hj hstop => exact passed ht (hstop.lastChecked ▸ hx)

theorem Polled.incident (h : Polled W chain p s s') (hs : s.incident = none) (hfatal : s'.fatal = none) :
    s'.incident = none := by
  cases h with
  | unread e => cases hfatal
  | idle hidle => exact hs
  | done tip start j t htip hstart ht hj => exact ht.incident.trans hs
  | stopped tip start j t s' htip hstart ht hj hstop =>
    obtain ⟨-, rfl⟩ := hstop.outage_of_fatal hfatal
    exact ht.incident.trans hs

theorem Sound.poll (hs : Sound W views s) (hp : p.Sees W chain) : Sound W (views ++ [(p, chain)]) (M.poll s p) := by
  have old {x : HeaderObservation} (hx : s.lastChecked = some x) : ∃ h, W.observe h = x ∧
      W.canonical x.number = some h ∧ ∃ v ∈ views ++ [(p, chain)], v.2 x.number = some h := by
    obtain ⟨h, hobs, hcan, v, hv, hon⟩ := hs.last x hx
    exact ⟨h, hobs, hcan, v, List.mem_append_left _ hv, hon⟩
  cases hfatal : s.fatal with
  | some e =>
    have heq : M.poll s p = s := by rw [TrustedL2Monitor.poll, if_pos (by simp [hfatal])]
    rw [heq]
    exact ⟨fun x hx => old hx, fun h => by rw [hfatal] at h; cases h⟩
  | none =>
    have hpoll := poll_polled M hp hfatal
    refine ⟨fun x hx => ?_, hpoll.incident (hs.incident hfatal)⟩
    obtain hx | ⟨⟨a, ha, hobs⟩, b, hb, hcan⟩ := hpoll.last_cases hp hx
    · exact old hx
    · cases ha.symm.trans hb
      exact ⟨a, hobs, hcan, (p, chain), by simp, ha⟩

theorem run_sound (M : TrustedL2Monitor) (hviews : ∀ v ∈ views, v.1.Sees W v.2) :
    Sound W views (M.run (views.map Prod.fst)) := by
  induction views using List.reverseRecOn with
  | nil => exact .start
  | append_singleton views v ih =>
    have hstep : M.run ((views ++ [v]).map Prod.fst) = M.poll (M.run (views.map Prod.fst)) v.1 := by
      simp [run]
    rw [hstep]
    exact (ih fun w hw => hviews w (by simp [hw])).poll (hviews v (by simp))

/-! ### The monitor passes over no divergence -/

/-- With every request answered, the local chain is canonical or the monitor has stopped. -/
theorem Polled.complete (hs : Sound W views s) (hp : p.Sees W chain) (h : Polled W chain p s s')
    (htip : p.durableHeader = .ok (some tip)) (hanswered : ∀ n ∈ s'.requested, (p.canonicalHeader n).isSome = true)
    (hfatal : s'.fatal = none) {a : H} (ha : chain n = some a) : Shared W chain n := by
  have hle : n ≤ tip.number := by
    by_contra hlt
    rw [(hp.durableHeader htip).2 n (by omega)] at ha
    cases ha
  refine hp.shared_of_some (n := tip.number) ?_ hle ha
  cases h with
  | unread e => cases hfatal
  | idle hidle => exact hs.shared hp (hidle tip htip) (hp.durableHeader htip).1
  | done tip' start j t htip' hstart ht hj =>
    obtain rfl := Option.some.inj (Except.ok.inj (htip'.symm.trans htip))
    have hstart_le : start ≤ tip'.number := by
      obtain ⟨rfl, -⟩ | ⟨x, -, hlt, hstart⟩ := startHeight_some hp htip hstart <;> omega
    have hlast := ht.shared_last (by omega)
    rwa [show start + j - 1 = tip'.number by omega] at hlast
  | stopped tip' start j t s' htip' hstart ht hj hstop =>
    obtain ⟨hnone, rfl⟩ := hstop.outage_of_fatal hfatal
    have hsome := hanswered (start + j) (by simp)
    rw [hnone] at hsome
    cases hsome

theorem Passed.requested_append {start j : ℕ} (h : Passed W chain p start j { s with requested := [] } t) :
    t.requested ++ [start + j] = List.range' start (j + 1) := by
  rw [h.requested, List.range'_concat]
  simp

/-- The heights that a poll asks for begin at most one above the header checked last, without a hole. -/
theorem Polled.requested (hp : p.Sees W chain) (h : Polled W chain p s s') (htip : p.durableHeader = .ok (some tip))
    {x : HeaderObservation} (hx : s.lastChecked = some x) (hlt : x.number < tip.number) :
    ∃ start k, start ≤ x.number + 1 ∧ s'.requested = List.range' start k ∧ (s'.fatal = none → 0 < k) ∧
      ∀ y, s'.lastChecked = some y → ∀ n, x.number < n → n ≤ y.number → n ∈ s'.requested ∧ Shared W chain n := by
  -- what the heights that were passed say, whatever else was asked for
  have key {start j : ℕ} {t : MonitorState} (ht : Passed W chain p start j { s with requested := [] } t)
      (hstart : start ≤ x.number + 1) {y : HeaderObservation} (hy : t.lastChecked = some y) (n : ℕ)
      (hn : x.number < n) (hny : n ≤ y.number) : n ∈ List.range' start j ∧ Shared W chain n := by
    obtain ⟨-, hlast⟩ | ⟨hj, hnum, -⟩ := ht.last_cases hp hy
    · cases hx.symm.trans hlast
      omega
    · exact ⟨List.mem_range'_1.mpr (by omega), (ht.shared n (by omega) (by omega)).1⟩
  have begins {start : ℕ} {tip' : HeaderObservation} (htip' : p.durableHeader = .ok (some tip'))
      (hstart : startHeight p s.lastChecked tip' = .ok (some start)) :
      start ≤ x.number + 1 ∧ start ≤ tip'.number := by
    cases htip'.symm.trans htip
    obtain ⟨rfl, hle⟩ | ⟨x', hx', hlt', hstart⟩ := startHeight_some hp htip hstart
    · have := (hle x hx).1
      omega
    · cases hx.symm.trans hx'
      omega
  cases h with
  | unread e =>
    refine ⟨x.number + 1, 0, le_rfl, rfl, fun hf => (by cases hf), fun y hy n hn hny => ?_⟩
    cases hx.symm.trans hy
    omega
  | idle hidle =>
    cases hx.symm.trans (hidle tip htip)
    omega
  | done tip' start j t htip' hstart ht hj =>
    obtain ⟨hle, hle'⟩ := begins htip' hstart
    have hreq : s'.requested = List.range' start j := by rw [ht.requested]; rfl
    refine ⟨start, j, hle, hreq, fun _ => (by omega), fun y hy n hn hny => ?_⟩
    rw [hreq]
    exact key ht hle hy n hn hny
  | stopped tip' start j t s' htip' hstart ht hj hstop =>
    obtain ⟨hle, hle'⟩ := begins htip' hstart
    have hreq : ∃ k, j ≤ k ∧ s'.requested = List.range' start k ∧ (s'.fatal = none → 0 < k) := by
      cases hstop with
      | outage hnone => exact ⟨j + 1, by omega, ht.requested_append, fun _ => by omega⟩
      | unread e => exact ⟨j, le_rfl, by rw [ht.requested]; rfl, fun hf => by cases hf⟩
      | differs e recorded hdiffers hrec => exact ⟨j + 1, by omega, ht.requested_append, fun _ => by omega⟩
    obtain ⟨k, hjk, hreq, hpos⟩ := hreq
    refine ⟨start, k, hle, hreq, hpos, fun y hy n hn hny => ?_⟩
    obtain ⟨hmem, hshared⟩ := key ht hle (hstop.lastChecked ▸ hy) n hn hny
    rw [hreq, List.mem_range'_1] at *
    exact ⟨by omega, hshared⟩

/-- The incident names the lowest difference, if the header checked last is still there. -/
theorem Polled.lowest (hs : Sound W views s) (hp : p.Sees W chain) (hfatal : s.fatal = none)
    (h : Polled W chain p s s') {i : Incident} (hi : s'.incident = some i) {x : HeaderObservation}
    (hx : s.lastChecked = some x ∨ s'.lastChecked = some x) (hon : OnChain W chain x) :
    IsLeast {n | Differs W chain n} i.l2BlockNumber := by
  have hnone := hs.incident hfatal
  cases h with
  | unread e => rw [hnone] at hi; cases hi
  | idle hidle => rw [hnone] at hi; cases hi
  | done tip start j t htip hstart ht hj => rw [ht.incident, hnone] at hi; cases hi
  | stopped tip start j t s' htip hstart ht hj hstop =>
    have ht_none : t.incident = none := ht.incident.trans hnone
    cases hstop with
    | outage _ => rw [ht_none] at hi; cases hi
    | unread e => rw [ht_none] at hi; cases hi
    | differs e recorded hdiffers hrec =>
      rw [ht_none, Option.or_none] at hi
      rw [hrec i hi]
      refine hp.isLeast_differs hdiffers fun m hm hbase => ?_
      rcases Nat.eq_zero_or_pos j with rfl | hj
      · have hlast : s.lastChecked = some x := by
          obtain hx | hx := hx
          · exact hx
          · obtain ⟨-, hlast⟩ | ⟨hpos, -⟩ := ht.last_cases hp hx
            · exact hlast
            · omega
        obtain ⟨rfl, hnot⟩ | ⟨x', hx', hlt, hbegin⟩ := startHeight_some hp htip hstart
        · exact absurd hon (hnot x hlast).2
        · cases hlast.symm.trans hx'
          obtain rfl | ⟨-, hnot⟩ := hbegin
          · exact hp.shared_below (hs.shared hp hlast hon) hbase (by omega)
          · exact absurd hon hnot
      · exact hp.shared_below (ht.shared_last hj) hbase (by omega)

/-- What the monitor guarantees about a poll after any others. -/
structure Vigilant (W : World H) (views : List (Poll × (ℕ → Option H))) (p : Poll) (chain : ℕ → Option H)
    (s s' : MonitorState) : Prop where
  /-- A header that was checked is on the canonical chain, and every polled chain that ends in it is the canonical one.
  -/
  canonical : ∀ x, s'.lastChecked = some x → ∃ h, W.observe h = x ∧ W.canonical x.number = some h ∧
    (∃ v ∈ views ++ [(p, chain)], v.2 x.number = some h) ∧
    ∀ v ∈ views ++ [(p, chain)], v.2 x.number = some h → ∀ n, W.base ≤ n → n ≤ x.number → Shared W v.2 n
  /-- With every request answered, the whole chain up to the tip is canonical or the monitor stops. -/
  complete : s.fatal = none → ∀ tip, p.durableHeader = .ok (some tip) →
    (∀ n ∈ s'.requested, (p.canonicalHeader n).isSome = true) →
    (∀ n h, chain n = some h → W.canonical n = some h) ∨ s'.fatal ≠ none
  /-- The heights that are asked for begin at most one above the header checked last and have no hole. -/
  noSkip : s.fatal = none → ∀ tip x, p.durableHeader = .ok (some tip) → s.lastChecked = some x →
    x.number < tip.number → ∃ start k, start ≤ x.number + 1 ∧ s'.requested = List.range' start k ∧
      (s'.fatal = none → 0 < k) ∧
      ∀ y, s'.lastChecked = some y → ∀ n, x.number < n → n ≤ y.number → n ∈ s'.requested ∧ Shared W chain n
  /-- The incident has the lowest height that differs, if the header checked last is on the chain. -/
  lowest : s.fatal = none → ∀ i, s'.incident = some i → ∀ x, s.lastChecked = some x ∨ s'.lastChecked = some x →
    OnChain W chain x → IsLeast {n | Differs W chain n} i.l2BlockNumber

/-- **The monitor never passes over a divergence**, whatever tips it polls and whenever the trusted node is away. -/
theorem never_passes_over_divergence (M : TrustedL2Monitor) (W : World H) (views : List (Poll × (ℕ → Option H)))
    (hviews : ∀ v ∈ views, v.1.Sees W v.2) (p : Poll) (chain : ℕ → Option H) (hp : p.Sees W chain) :
    Vigilant W views p chain (M.run (views.map Prod.fst)) (M.poll (M.run (views.map Prod.fst)) p) where
  canonical x hx := by
    obtain ⟨h, hobs, hcan, hseen⟩ := ((run_sound M hviews).poll hp).last x hx
    refine ⟨h, hobs, hcan, hseen, fun v hv hon n hbase hn => ?_⟩
    have hv_sees : v.1.Sees W v.2 := by
      rcases List.mem_append.mp hv with hv | hv
      · exact hviews v hv
      · obtain rfl := List.mem_singleton.mp hv
        exact hp
    exact hv_sees.shared_below ⟨h, hon, hcan⟩ hbase hn
  complete hs tip htip hanswered := by
    rw [or_iff_not_imp_right, not_not]
    intro hfatal n h hn
    obtain ⟨a, ha, hcan⟩ := (poll_polled M hp hs).complete (run_sound M hviews) hp htip hanswered hfatal hn
    cases ha.symm.trans hn
    exact hcan
  noSkip hs tip x htip hx hlt := (poll_polled M hp hs).requested hp htip hx hlt
  lowest hs i hi x hx hon := (poll_polled M hp hs).lowest (run_sound M hviews) hp hs hi hx hon

/-- Headers `(n, false)` of a canonical chain up to height 20, and `(n, true)` of a fork that leaves it at 12. -/
def forkedWorld : World (ℕ × Bool) where
  number h := h.1
  parent h := BitVec.ofNat 256 (2 * (h.1 - 1) + if h.2 ∧ h.1 ≠ 12 then 1 else 0)
  hash h := BitVec.ofNat 256 (2 * h.1 + if h.2 then 1 else 0)
  stateRoot _ := 7
  base := 5
  canonical n := if 5 ≤ n ∧ n ≤ 20 then some (n, false) else none
  linked := by
    refine ⟨fun {n h} hn => ?_, fun {n a b} ha hb => ?_, fun {n} hle hsome => ?_⟩
    · rw [Option.ite_none_right_eq_some] at hn
      cases hn.2
      rfl
    · rw [Option.ite_none_right_eq_some] at ha hb
      cases ha.2
      cases hb.2
      simp
    · rw [Option.isSome_ite] at hsome ⊢
      omega
  known := {h | h.1 ≤ 20}
  canonical_known := by
    rintro h ⟨n, hn⟩
    rw [Option.ite_none_right_eq_some] at hn
    cases hn.2
    exact hn.1.2
  collisionFree := by
    rintro ⟨n, b⟩ hn ⟨m, c⟩ hm heq
    have hn : n ≤ 20 := hn
    have hm : m ≤ 20 := hm
    have heq := congrArg BitVec.toNat heq
    cases b <;> cases c <;> simp at heq ⊢ <;> omega

def forkedChain (tip n : ℕ) : Option (ℕ × Bool) :=
  if 5 ≤ n ∧ n ≤ tip then some (n, decide (12 ≤ n)) else none

def forkedPoll (tip : ℕ) : Poll where
  durableHeader := .ok ((forkedChain tip tip).map forkedWorld.observe)
  durableHeaderAt n := .ok ((forkedChain tip n).map forkedWorld.observe)
  canonicalHeader n := (forkedWorld.canonical n).map forkedWorld.observe
  now := .ok 1000
  persistIncident := (true, .ok ())

theorem forkedPoll_sees {tip : ℕ} (htip : tip ≤ 20) : (forkedPoll tip).Sees forkedWorld (forkedChain tip) := by
  have hchain {n : ℕ} {h : ℕ × Bool} (hn : forkedChain tip n = some h) :
      (5 ≤ n ∧ n ≤ tip) ∧ h = (n, decide (12 ≤ n)) := by
    rw [forkedChain, Option.ite_none_right_eq_some] at hn
    exact ⟨hn.1, (Option.some.inj hn.2).symm⟩
  refine ⟨⟨fun {n h} hn => ?_, fun {n a b} ha hb => ?_, fun {n} hle hsome => ?_⟩, ?_, ?_, ?_, ?_, ?_⟩
  · rw [(hchain hn).2]
    rfl
  · rw [(hchain ha).2, (hchain hb).2]
    simp only [forkedWorld]
    rcases (by omega : n ≤ 10 ∨ n = 11 ∨ 12 ≤ n) with hn | rfl | hn
    · simp [show ¬ 11 ≤ n by omega, show ¬ 12 ≤ n by omega]
    · rfl
    · simp [hn, show 11 ≤ n by omega, show n ≠ 11 by omega]
  · simp only [forkedChain, Option.isSome_ite] at hsome ⊢
    have : (5 : ℕ) ≤ n := hle
    omega
  · rintro h ⟨n, hn⟩
    rw [(hchain hn).2]
    exact (hchain hn).1.2.trans htip
  · intro n h hn
    exact (hchain hn).1.1
  · intro x hx
    obtain ⟨h, hh, rfl⟩ := Option.map_eq_some_iff.mp (Except.ok.inj hx)
    have hnum : (forkedWorld.observe h).number = tip := by rw [(hchain hh).2]; rfl
    rw [hnum]
    exact ⟨⟨h, hh, rfl⟩, fun n hn => by rw [forkedChain, if_neg (by omega)]⟩
  · intro n x hx
    exact (Except.ok.inj hx).symm
  · intro n x hx
    obtain ⟨h, hh, rfl⟩ := Option.map_eq_some_iff.mp hx
    exact ⟨h, hh, rfl⟩

/-- Height 10 is checked, then the tip is at 15 on the fork: the incident is at 12, where the fork begins. -/
theorem never_passes_over_divergence_forked : IsLeast {n | Differs forkedWorld (forkedChain 15) n} 12 := by
  have h := never_passes_over_divergence ⟨1⟩ forkedWorld [(forkedPoll 10, forkedChain 10)]
    (fun v hv => by rw [List.mem_singleton.mp hv]; exact forkedPoll_sees (by omega)) (forkedPoll 15) (forkedChain 15)
    (forkedPoll_sees (by omega))
  exact h.lowest (by decide) ⟨1, 1, 12, 25, 24, 7, 7, 1000⟩ (by decide) ⟨10, 20, 7⟩ (.inl (by decide))
    ⟨(10, false), by decide, by decide⟩

end TrustedL2Monitor

end ArbReth.Recovery
