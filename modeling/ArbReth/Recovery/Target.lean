import ArbReth.Recovery.Monitor
import ArbReth.Recovery.Recover

/-! # The target of a recovery

`choose_checkpoint` goes through the logged boundaries below the incident, from the newest down, and takes the first whose
local header is the canonical one.  It compares single headers; but the headers of both chains are linked, so the
chosen one stands for everything below it, and each one that was refused for everything above it. -/

namespace ArbReth.Recovery

open ArbReth.Sync ArbReth.Durable ArbReth.Runs
open ArbReth.HashChain
open TrustedL2Monitor (forkedWorld forkedChain forkedPoll_sees)

variable {H : Type}

def World.localHeader (W : World H) (h : H) : LocalHeader := ⟨W.hash h, W.stateRoot h⟩

/-- What the scan sees of the two chains: a local one from the static files, and a canonical node.  Both may fail to
answer. -/
structure Scanned (W : World H) (chain : ℕ → Option H) (env : Env) (readHeader : HeaderReader) : Prop where
  linked : Linked W.toFields W.base chain
  known : headers chain ⊆ W.known
  above : ∀ {n h}, chain n = some h → W.base ≤ n
  readHeader : ∀ {n x}, readHeader n = .ok x → x = (chain n).map W.localHeader
  canonical : ∀ {asked n x}, env.canonical asked n = .ok x → ∃ h, W.canonical n = some h ∧ W.observe h = x

/-- A logged boundary below the incident. -/
def Candidate (log : L1ResumeLog) (incident : Incident) (cp : L1ResumeCheckpoint) : Prop :=
  cp ∈ log.checkpoints ∧ cp.l2Block < incident.l2BlockNumber

/-- The newest candidate whose local block is the canonical one. -/
structure NewestShared (W : World H) (chain : ℕ → Option H) (log : L1ResumeLog) (incident : Incident)
    (cp : L1ResumeCheckpoint) : Prop where
  candidate : Candidate log incident cp
  shared : Shared W chain cp.l2Block
  newest : ∀ d, Candidate log incident d → Shared W chain d.l2Block → d.l2Block ≤ cp.l2Block

/-- What is known of a boundary that was chosen. -/
structure IsTarget (W : World H) (chain : ℕ → Option H) (log : L1ResumeLog) (incident : Incident) (maxSpan : ℕ)
    (cp : L1ResumeCheckpoint) : Prop extends NewestShared W chain log incident cp where
  /-- Every local block up to the boundary is canonical. -/
  kept : ∀ n h, n ≤ cp.l2Block → chain n = some h → W.canonical n = some h
  /-- From every other boundary up to the incident on, no local block is. -/
  diverged : ∀ d, Candidate log incident d → cp.l2Block < d.l2Block → (chain d.l2Block).isSome = true →
    ∀ n h, d.l2Block ≤ n → chain n = some h → W.canonical n ≠ some h
  first : ∃ n, IsLeast {n | Differs W chain n} n ∧ cp.l2Block < n ∧ n ≤ incident.l2BlockNumber
  span : incident.l2BlockNumber - cp.l2Block ≤ maxSpan

section chains
variable {W : World H} {chain : ℕ → Option H} {env : Env} {readHeader : HeaderReader} {n m : ℕ}

theorem Scanned.shared_below (h : Scanned W chain env readHeader) (hn : Shared W chain n) (hm : W.base ≤ m) (hmn : m ≤ n) :
    Shared W chain m := by
  obtain ⟨a, ha, hcan⟩ := hn
  exact h.linked.agree_below W.linked W.collisionFree h.known W.canonical_known ha hcan hm hmn

/-- The comparison of observations is the comparison of headers. -/
theorem Scanned.shared_iff (h : Scanned W chain env readHeader) {header : LocalHeader}
    (hread : readHeader n = .ok (some header)) {asked : List Exchange} {x : HeaderObservation}
    (hx : env.canonical asked n = .ok x) : observation n header = x ↔ Shared W chain n := by
  obtain ⟨a, ha, hheader⟩ := Option.map_eq_some_iff.mp (h.readHeader hread).symm
  obtain ⟨c, hc, rfl⟩ := h.canonical hx
  have hobserve : observation n header = W.observe a := by
    rw [← hheader, World.observe, h.linked.number ha]
    rfl
  rw [hobserve]
  constructor
  · intro heq
    have hhash : W.hash a = W.hash c := congrArg HeaderObservation.hash heq
    obtain rfl := W.collisionFree (h.known ⟨n, ha⟩) (W.canonical_known ⟨n, hc⟩) hhash
    exact ⟨a, ha, hc⟩
  · rintro ⟨b, hb, hcan⟩
    cases ha.symm.trans hb
    cases hc.symm.trans hcan
    rfl

theorem Scanned.not_shared_of_missing (h : Scanned W chain env readHeader) (hread : readHeader n = .ok none) :
    ¬Shared W chain n := by
  rintro ⟨a, ha, -⟩
  have hnone := h.readHeader hread
  rw [ha] at hnone
  cases hnone

/-! ### The scan -/

/-- The scan comes as far as `cp`: what is before it could be read and is not shared. -/
def Reaches (W : World H) (chain : ℕ → Option H) (readHeader : HeaderReader) (cps : List L1ResumeCheckpoint)
    (cp : L1ResumeCheckpoint) : Prop :=
  ∃ newer older, cps = newer ++ cp :: older ∧
    ∀ d ∈ newer, ¬Shared W chain d.l2Block ∧ ∃ x, readHeader d.l2Block = .ok x

theorem Reaches.head (cp : L1ResumeCheckpoint) (cps : List L1ResumeCheckpoint) :
    Reaches W chain readHeader (cp :: cps) cp :=
  ⟨[], cps, rfl, by simp⟩

variable {cps : List L1ResumeCheckpoint}

theorem Reaches.cons {cp d : L1ResumeCheckpoint} (h : Reaches W chain readHeader cps d) (hnot : ¬Shared W chain cp.l2Block) {x : Option LocalHeader}
    (hread : readHeader cp.l2Block = .ok x) : Reaches W chain readHeader (cp :: cps) d := by
  obtain ⟨newer, older, rfl, hnewer⟩ := h
  refine ⟨cp :: newer, older, rfl, ?_⟩
  intro e he
  rcases List.mem_cons.mp he with rfl | he
  · exact ⟨hnot, x, hread⟩
  · exact hnewer e he

/-- The requests since the scan began, all of them answered. -/
def Asked (before : List Exchange) (s : Run) : Prop :=
  ∃ asked, s.exchanges = before ++ asked ∧ ∀ x ∈ asked, x.succeeded = true

/-- How the scan ends without a boundary. -/
inductive ScanFails (W : World H) (chain : ℕ → Option H) (readHeader : HeaderReader) (before : List Exchange)
    (distance : L1ResumeCheckpoint → ℕ) (maxSpan : ℕ) (cps : List L1ResumeCheckpoint) (s : Run) : Prop
  | none : (∀ cp ∈ cps, ¬Shared W chain cp.l2Block) → ScanFails W chain readHeader before distance maxSpan cps s
  | tooFar (cp : L1ResumeCheckpoint) : Reaches W chain readHeader cps cp → Shared W chain cp.l2Block →
      maxSpan < distance cp → ScanFails W chain readHeader before distance maxSpan cps s
  | unread (cp : L1ResumeCheckpoint) (e : RecoverError) : Reaches W chain readHeader cps cp →
      readHeader cp.l2Block = .error e → ScanFails W chain readHeader before distance maxSpan cps s
  | unanswered (cp : L1ResumeCheckpoint) (e : RecoveryAuthorityError) (asked : List Exchange) :
      Reaches W chain readHeader cps cp → s.exchanges = before ++ asked → .header cp.l2Block (.error e) ∈ asked →
      ScanFails W chain readHeader before distance maxSpan cps s

variable {cp : L1ResumeCheckpoint} {maxSpan : ℕ} {distance : L1ResumeCheckpoint → ℕ}

theorem ScanFails.cons {before : List Exchange} {s : Run}
    (h : ScanFails W chain readHeader before distance maxSpan cps s) (hnot : ¬Shared W chain cp.l2Block)
    {x : Option LocalHeader} (hread : readHeader cp.l2Block = .ok x) :
    ScanFails W chain readHeader before distance maxSpan (cp :: cps) s := by
  cases h with
  | none hall => exact .none (List.forall_mem_cons.mpr ⟨hnot, hall⟩)
  | tooFar d hreach hshared hfar => exact .tooFar d (hreach.cons hnot hread) hshared hfar
  | unread d e hreach herror => exact .unread d e (hreach.cons hnot hread) herror
  | unanswered d e asked hreach hasked hmem => exact .unanswered d e asked (hreach.cons hnot hread) hasked hmem

theorem canonicalHeader_asked (env : Env) (before : List Exchange) (number : ℕ) :
    Triple (fun s t => t.disk = s.disk) (Asked before) (canonicalHeader env number)
      (fun x s => Asked before s ∧ ∃ asked, env.canonical asked number = .ok x)
      (fun _ s => ∃ e asked, s.exchanges = before ++ asked ∧ .header number (.error e) ∈ asked) := by
  intro s hs
  obtain ⟨asked, hasked, hall⟩ := hs
  have hchain : List.IsChain (fun s t : Run => t.disk = s.disk) (s :: (canonicalHeader env number s).writes) :=
    List.isChain_cons_cons.mpr ⟨rfl, .singleton _⟩
  refine ⟨hchain, ?_⟩
  change Ends _ _ (Run.mk s.disk (s.exchanges ++ [.header number (env.canonical s.exchanges number)]))
    ((env.canonical s.exchanges number).mapError RecoverError.authority)
  have hexchanges : s.exchanges ++ [.header number (env.canonical s.exchanges number)] =
      before ++ (asked ++ [.header number (env.canonical s.exchanges number)]) := by
    rw [hasked, List.append_assoc]
  cases hanswer : env.canonical s.exchanges number with
  | error e =>
    rw [hanswer] at hexchanges
    exact ⟨e, _, hexchanges, by simp⟩
  | ok x =>
    rw [hanswer] at hexchanges
    refine ⟨⟨_, hexchanges, fun y hy => ?_⟩, s.exchanges, hanswer⟩
    rcases List.mem_append.mp hy with hy | hy
    · exact hall y hy
    · rw [List.mem_singleton.mp hy]
      rfl

theorem chooseFrom_scan (h : Scanned W chain env readHeader) (incident : Incident) (maxSpan : ℕ)
    (before : List Exchange) (cps : List L1ResumeCheckpoint) :
    Triple (fun s t => t.disk = s.disk) (Asked before) (chooseFrom env readHeader incident maxSpan cps)
      (fun cp s => Asked before s ∧ Reaches W chain readHeader cps cp ∧ (∃ x, readHeader cp.l2Block = .ok x) ∧
        Shared W chain cp.l2Block ∧ incident.l2BlockNumber - cp.l2Block ≤ maxSpan)
      (fun _ s => ScanFails W chain readHeader before (fun cp => incident.l2BlockNumber - cp.l2Block) maxSpan cps s) := by
  induction cps with
  | nil => exact Triple.fail fun s _ => .none (by simp)
  | cons cp cps ih =>
    -- what the rest of the scan says, if this candidate is passed over
    have hrest (hnot : ¬Shared W chain cp.l2Block) {x : Option LocalHeader} (hread : readHeader cp.l2Block = .ok x) :=
      ih.conseq (fun _ hs => hs)
        (fun d s hd => And.intro hd.1 (And.intro (hd.2.1.cons hnot hread) hd.2.2))
        (fun _ s he => ScanFails.cons he hnot hread)
    unfold chooseFrom
    refine Triple.ofExcept_bind (fun e he s _ => .unread cp e (.head cp cps) he) fun found hread => ?_
    cases found with
    | none => exact hrest (h.not_shared_of_missing hread) hread
    | some header =>
      refine Triple.bind ((canonicalHeader_asked env before cp.l2Block).conseq (fun _ hs => hs) (fun _ _ hs => hs) ?_)
        fun canonical => Triple.of_forall fun s hs => ?_
      · rintro _ s ⟨e, asked, hasked, hmem⟩
        exact .unanswered cp e asked (.head cp cps) hasked hmem
      obtain ⟨hasked, asked, hanswer⟩ := hs
      have hiff := h.shared_iff hread hanswer
      split
      · rename_i hsame
        have hshared := hiff.mp hsame
        refine Triple.require_bind (fun t ht hfar => .tooFar cp (.head cp cps) hshared (Nat.not_le.mp hfar)) ?_
        intro hspan
        refine Triple.pure fun t ht => ?_
        rw [ht]
        exact ⟨hasked, .head cp cps, ⟨_, hread⟩, hshared, hspan⟩
      · rename_i hdiffers
        refine (hrest (fun hshared => hdiffers (hiff.mpr hshared)) hread).pre fun t ht => ?_
        rw [ht]
        exact hasked

/-! ### The order of the candidates -/

/-- The candidates in the order in which they are looked at. -/
def candidates (log : L1ResumeLog) (incident : Incident) : List L1ResumeCheckpoint :=
  log.checkpoints.reverse.filter (fun cp => cp.l2Block < incident.l2BlockNumber)

variable {log : L1ResumeLog} {incident : Incident}

theorem mem_candidates : cp ∈ candidates log incident ↔ Candidate log incident cp := by
  simp [candidates, Candidate]

theorem candidates_descending (h : log.Ascending) (incident : Incident) :
    (candidates log incident).Pairwise (fun a b => b.l2Block < a.l2Block) := by
  have htrans : IsTrans L1ResumeCheckpoint (·.l2Block < ·.l2Block) := ⟨fun _ _ _ => Nat.lt_trans⟩
  exact (List.pairwise_reverse.mpr (List.isChain_iff_pairwise.mp h)).filter _

theorem Reaches.newer (hlog : log.Ascending) {cp d : L1ResumeCheckpoint}
    (h : Reaches W chain readHeader (candidates log incident) cp) (hd : Candidate log incident d)
    (hlt : cp.l2Block < d.l2Block) : ¬Shared W chain d.l2Block ∧ ∃ x, readHeader d.l2Block = .ok x := by
  obtain ⟨newer, older, hsplit, hnewer⟩ := h
  have hpairs := candidates_descending hlog incident
  rw [hsplit] at hpairs
  have hmem := mem_candidates.mpr hd
  rw [hsplit] at hmem
  rcases List.mem_append.mp hmem with hmem | hmem
  · exact hnewer d hmem
  · obtain ⟨-, hafter, -⟩ := List.pairwise_append.mp hpairs
    rcases List.mem_cons.mp hmem with rfl | hmem
    · omega
    · have := List.rel_of_pairwise_cons hafter hmem
      omega

theorem Reaches.candidate (h : Reaches W chain readHeader (candidates log incident) cp) : Candidate log incident cp := by
  obtain ⟨newer, older, hsplit, -⟩ := h
  exact mem_candidates.mp (by rw [hsplit]; simp)

theorem Reaches.newestShared (hlog : log.Ascending) (h : Reaches W chain readHeader (candidates log incident) cp) (hshared : Shared W chain cp.l2Block) :
    NewestShared W chain log incident cp where
  candidate := h.candidate
  shared := hshared
  newest d hd hsharedD := by
    by_contra hlt
    exact (h.newer hlog hd (by omega)).1 hsharedD

theorem Reaches.read_of_le (hlog : log.Ascending) {cp d : L1ResumeCheckpoint}
    (h : Reaches W chain readHeader (candidates log incident) cp) (hread : ∃ x, readHeader cp.l2Block = .ok x)
    (hd : Candidate log incident d) (hle : cp.l2Block ≤ d.l2Block) : ∃ x, readHeader d.l2Block = .ok x := by
  rcases Nat.eq_or_lt_of_le hle with heq | hlt
  · rwa [← heq]
  · exact (h.newer hlog hd hlt).2

/-- The reasons for which there is no target, in terms of the log and the chains. -/
theorem ScanFails.explained (hlog : log.Ascending) {before : List Exchange} {s : Run}
    (h : ScanFails W chain readHeader before distance maxSpan (candidates log incident) s) :
    (¬∃ cp, NewestShared W chain log incident cp) ∨
      (∃ cp, NewestShared W chain log incident cp ∧ maxSpan < distance cp) ∨
      ∃ d, Candidate log incident d ∧ (∀ cp, NewestShared W chain log incident cp → cp.l2Block ≤ d.l2Block) ∧
        ((∃ e, readHeader d.l2Block = .error e) ∨
          ∃ e, .header d.l2Block (.error e) ∈ s.exchanges.drop before.length) := by
  have hbelow {d : L1ResumeCheckpoint} (hd : Reaches W chain readHeader (candidates log incident) d) :
      ∀ cp, NewestShared W chain log incident cp → cp.l2Block ≤ d.l2Block := by
    intro cp hcp
    by_contra hlt
    exact (hd.newer hlog hcp.candidate (by omega)).1 hcp.shared
  cases h with
  | none hall => exact .inl fun ⟨cp, hcp⟩ => hall cp (mem_candidates.mpr hcp.candidate) hcp.shared
  | tooFar cp hreach hshared hfar => exact .inr (.inl ⟨cp, hreach.newestShared hlog hshared, hfar⟩)
  | unread d e hreach herror => exact .inr (.inr ⟨d, hreach.candidate, hbelow hreach, .inl ⟨e, herror⟩⟩)
  | unanswered d e asked hreach hasked hmem =>
    refine .inr (.inr ⟨d, hreach.candidate, hbelow hreach, .inr ⟨e, ?_⟩⟩)
    rw [hasked, List.drop_left]
    exact hmem

theorem Scanned.isTarget (h : Scanned W chain env readHeader) (hdiffers : Differs W chain incident.l2BlockNumber)
    (hcp : NewestShared W chain log incident cp) (hspan : incident.l2BlockNumber - cp.l2Block ≤ maxSpan) :
    IsTarget W chain log incident maxSpan cp := by
  have hkept : ∀ n, n ≤ cp.l2Block → ¬Differs W chain n := by
    rintro n hn ⟨a, ha, hne⟩
    exact (h.shared_below hcp.shared (h.above ha) hn).not_differs ⟨a, ha, hne⟩
  refine { hcp with kept := ?_, diverged := ?_, first := ?_, span := hspan }
  · intro n a hn ha
    by_contra hne
    exact hkept n hn ⟨a, ha, hne⟩
  · intro d hd hlt hsome n a hn ha hcan
    obtain ⟨b, hb⟩ := Option.isSome_iff_exists.mp hsome
    have hshared := h.shared_below ⟨a, ha, hcan⟩ (h.above hb) hn
    exact absurd (hcp.newest d hd hshared) (by omega)
  · obtain ⟨n, hleast⟩ : ∃ n, IsLeast {n | Differs W chain n} n := by
      classical
      exact ⟨_, Nat.isLeast_find ⟨_, hdiffers⟩⟩
    refine ⟨n, hleast, ?_, hleast.2 hdiffers⟩
    by_contra hle
    exact hkept n (by omega) hleast.1

end chains

theorem disk_of_reflTransGen {s t : Run} (h : Relation.ReflTransGen (fun s t : Run => t.disk = s.disk) s t) :
    t.disk = s.disk := by
  induction h with
  | refl => rfl
  | tail _ hstep ih => exact hstep.trans ih

theorem Asked.not_mem_drop {before : List Exchange} {s : Run} (h : Asked before s) {number : ℕ}
    {e : RecoveryAuthorityError} : .header number (.error e) ∉ s.exchanges.drop before.length := by
  obtain ⟨asked, hasked, hall⟩ := h
  rw [hasked, List.drop_left]
  intro hmem
  cases hall _ hmem

/-- **The target of a recovery** is the newest canonical boundary below the incident.  There is none exactly if there is
no such boundary, if it is too far below, or if a header at or above it is not answered for. -/
theorem choose_checkpoint_newest {W : World H} {chain : ℕ → Option H} {env : Env} {readHeader : HeaderReader}
    (h : Scanned W chain env readHeader) {log : L1ResumeLog} (hlog : log.Ascending) {incident : Incident}
    (hdiffers : Differs W chain incident.l2BlockNumber) (maxSpan : ℕ) (s : Run) :
    let o := chooseCheckpoint env log incident readHeader maxSpan s
    (∀ t ∈ o.writes, t.disk = s.disk) ∧
      (∀ cp, o.result = .ok cp → IsTarget W chain log incident maxSpan cp) ∧
      ((∃ e, o.result = .error e) ↔
        (¬∃ cp, NewestShared W chain log incident cp) ∨
        (∃ cp, NewestShared W chain log incident cp ∧ maxSpan < incident.l2BlockNumber - cp.l2Block) ∨
        ∃ d, Candidate log incident d ∧ (∀ cp, NewestShared W chain log incident cp → cp.l2Block ≤ d.l2Block) ∧
          ((∃ e, readHeader d.l2Block = .error e) ∨
            ∃ e, .header d.l2Block (.error e) ∈ (o.final s).exchanges.drop s.exchanges.length)) := by
  intro o
  have hstart : Asked s.exchanges s := ⟨[], (List.append_nil _).symm, by simp⟩
  have hscan := chooseFrom_scan h incident maxSpan s.exchanges (candidates log incident)
  have hends : Ends _ _ (o.final s) o.result := (hscan s hstart).2
  refine ⟨fun t ht => disk_of_reflTransGen (hscan.cut hstart (Or.inr ht)), ?_, ?_⟩
  · intro cp hcp
    rw [hcp] at hends
    obtain ⟨-, hreach, -, hshared, hspan⟩ := hends
    exact h.isTarget hdiffers (hreach.newestShared hlog hshared) hspan
  · constructor
    · rintro ⟨e, he⟩
      rw [he] at hends
      exact hends.explained hlog
    · intro hcause
      cases hresult : o.result with
      | error e => exact ⟨e, rfl⟩
      | ok cp =>
        rw [hresult] at hends
        obtain ⟨hasked, hreach, hread, hshared, hspan⟩ := hends
        have hnewest := hreach.newestShared hlog hshared
        exfalso
        obtain hnone | ⟨d, hd, hfar⟩ | ⟨d, hd, hbelow, hfails⟩ := hcause
        · exact hnone ⟨cp, hnewest⟩
        · have hsame : d.l2Block = cp.l2Block :=
            Nat.le_antisymm (hnewest.newest d hd.candidate hd.shared) (hd.newest cp hnewest.candidate hshared)
          omega
        · obtain ⟨e, he⟩ | ⟨e, he⟩ := hfails
          · obtain ⟨x, hx⟩ := hreach.read_of_le hlog hread hd (hbelow cp hnewest)
            rw [hx] at he
            cases he
          · exact hasked.not_mem_drop he

def forkedEnv : Env where
  connect := .ok ()
  canonical _ n := (forkedWorld.canonical n).elim (.error (.unavailable "header")) fun h => .ok (forkedWorld.observe h)
  lockFree := true
  opens _ := true
  consistent _ := true
  unwindCommits := true
  journalSave _ := .saved
  resumeSave := .saved
  finiteRunner _ _ := ([], .error "none")

def forkedReader (tip : ℕ) : HeaderReader := fun n => .ok ((forkedChain tip n).map forkedWorld.localHeader)

theorem forked_scanned {tip : ℕ} (htip : tip ≤ 20) :
    Scanned forkedWorld (forkedChain tip) forkedEnv (forkedReader tip) where
  linked := (forkedPoll_sees htip).linked
  known := (forkedPoll_sees htip).known
  above := (forkedPoll_sees htip).above
  readHeader hx := (Except.ok.inj hx).symm
  canonical {asked n x} hx := by
    change (forkedWorld.canonical n).elim _ _ = _ at hx
    cases hcan : forkedWorld.canonical n with
    | none =>
      rw [hcan] at hx
      cases hx
    | some h =>
      rw [hcan] at hx
      exact ⟨h, rfl, Except.ok.inj hx⟩

def forkedIncident : Incident := ⟨1, 1, 15, 31, 30, 7, 7, 1000⟩

def forkedLog : L1ResumeLog := ⟨[⟨1, 0, 6⟩, ⟨2, 0, 11⟩, ⟨3, 0, 13⟩, ⟨4, 0, 17⟩]⟩

theorem choose_checkpoint_newest_forked :
    IsTarget forkedWorld (forkedChain 16) forkedLog forkedIncident 10 ⟨2, 0, 11⟩ := by
  have hscanned : Scanned forkedWorld (forkedChain 16) forkedEnv (forkedReader 16) := forked_scanned (by omega)
  have hdiffers : Differs forkedWorld (forkedChain 16) forkedIncident.l2BlockNumber :=
    ⟨(15, true), by decide, by decide⟩
  have hlog : forkedLog.Ascending := by decide
  have h := choose_checkpoint_newest hscanned hlog hdiffers 10 ⟨⟨none, .absent, .absent, ⟨16, fun _ => none⟩⟩, []⟩
  exact h.2.1 ⟨2, 0, 11⟩ (toOption_eq_some.mp (by decide +kernel))

end ArbReth.Recovery
