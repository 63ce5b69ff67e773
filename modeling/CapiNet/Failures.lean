import CapiNet.Library.Raising
import CapiNet.ExactlyOnce
import CapiNet.Outcomes
import CapiNet.SpecFaithful
import CapiNet.TestLifecycle
import CapiNet.TestRows

namespace CapiNet

open Txn Relational

variable {F : Type}

/-- An SPRT has its bounds, and they are among `B`. -/
def TestRow.Bounded (B : Double → Double → Prop) (t : TestRow) : Prop :=
  t.kind = .sprt → ∃ elo0 elo1, t.sprtElo0 = some elo0 ∧ t.sprtElo1 = some elo1 ∧ B elo0 elo1

theorem survives_bounded (B : Double → Double → Prop) : Survives (TestRow.Bounded B) where
  run _ _ h := h
  finish _ _ _ h := h
  stop _ _ h := h
  judge _ _ _ h := h

/-- The ratio at some bounds among `B` is this failure. -/
def RatioFails (N : Numerics F) (B : Double → Double → Prop) (e : Failure) : Prop :=
  ∃ elo0 elo1 results, B elo0 elo1 ∧ N.llrNormalized elo0 elo1 results = .error e

variable {skip : Lock → Bool} {now : ℚ} {db : Db F}

theorem raises_promoteNextTest {Q : Failure → Prop} :
    Script.Raises skip (promoteNextTest now) db Q := by
  simp only [promoteNextTest, Script.raises_bind, Script.raises_acquire, Script.ensures_acquire,
    Script.raises_select, Script.ensures_select, true_and]
  cases h : promotionTarget db with
  | none => exact Script.raises_pure
  | some id =>
    -- a test is promoted only when no test runs
    have hnone : (db.tests.rows.any fun t => t.id != id && t.status == .running) = false := by
      simpa using fun t ht _ => (promotionTarget_eq_some h).1 t ht
    simp only [Script.raises_bind, Script.raises_acquire, Script.ensures_acquire,
      Script.raises_select, Script.ensures_select, Script.raises_update, Script.ensures_update,
      Script.raises_pure, hnone, Bool.false_eq_true, if_false, true_and]

theorem raises_finishTest {testId : Int} {result : TestResult} {Q : Failure → Prop} :
    Script.Raises skip (finishTest now testId result) db Q := by
  simp only [finishTest, Script.raises_bind, Script.raises_update, Script.ensures_update,
    Script.raises_pure, true_and]
  exact ⟨raises_promoteNextTest, fun _ _ _ => trivial⟩

variable [LinearOrder F]

/-- A recomputation fails in the ratio of an SPRT. -/
theorem recompute_error {N : Numerics F} {B : Double → Double → Prop} {t : TestRow}
    (ht : t.Bounded B) {penta : Pentanomial} {wins draws losses : Nat} {e : Failure}
    (h : recompute N t penta wins draws losses = .error e) : RatioFails N B e := by
  unfold recompute at h
  cases hk : t.kind with
  | gauntlet =>
    rw [hk] at h
    cases h
  | sprt =>
    obtain ⟨elo0, elo1, h0, h1, hb⟩ := ht hk
    refine ⟨elo0, elo1, penta, hb, ?_⟩
    cases hllr : N.llrNormalized elo0 elo1 penta with
    | error e' =>
      simp only [hk, h0, h1, notNull, hllr, bind, Except.bind] at h
      rw [Except.error.inj h]
    | ok llr =>
      simp only [hk, h0, h1, notNull, hllr, bind, Except.bind] at h
      cases h

theorem raises_refreshTest {N : Numerics F} {B : Double → Double → Prop} {testId : Int}
    (hB : db.TestsAll (TestRow.Bounded B)) :
    Script.Raises skip (refreshTest N now testId) db (RatioFails N B) := by
  simp only [refreshTest, Script.raises_bind, Script.raises_acquire, Script.ensures_acquire,
    Script.raises_select, Script.ensures_select, true_and]
  cases ht : db.tests.find testId with
  | none => exact Script.raises_pure
  | some t =>
    simp only [Script.raises_bind, Script.raises_select, Script.ensures_select,
      Script.raises_ofExcept, Script.ensures_ofExcept, Script.raises_update, Script.ensures_update,
      true_and, Db.tally_countScores]
    refine ⟨fun e he => (by cases he), fun penta _ => ⟨fun e he => ?_, fun r _ => ?_⟩⟩
    · exact recompute_error (hB t (Table.find_some ht).1) he
    · split
      · exact Script.raises_pure
      · split
        · exact raises_finishTest
        · exact raises_finishTest
        · simp only [Script.raises_bind, Script.raises_select, Script.ensures_select, true_and]
          split
          · exact raises_finishTest
          · exact Script.raises_pure

omit [LinearOrder F] in
theorem Db.upsertClient_find (db : Db F) (reg : ClientRegistration) :
    ((db.upsertClient reg).clients.rows.find? (·.name == reg.name)).isSome = true := by
  rw [List.find?_isSome]
  unfold Db.upsertClient
  split
  next hany =>
    obtain ⟨c, hc, hname⟩ := List.any_eq_true.mp hany
    refine ⟨c.reregister reg, List.mem_map.mpr ⟨c, hc, by simp only [hname, if_true]⟩, hname⟩
  next => exact ⟨.ofRegistration reg db.clients.next, by simp [Table.insert], by simp [ClientRow.ofRegistration]⟩

omit [LinearOrder F] in
theorem raises_registerClient {reg : ClientRegistration} {Q : Failure → Prop} :
    Script.Raises skip (registerClient reg) db Q := by
  simp only [registerClient, Script.raises_bind, Script.raises_update, Script.ensures_update,
    Script.raises_select, Script.ensures_select, true_and]
  obtain ⟨c, hc⟩ := Option.isSome_iff_exists.mp (db.upsertClient_find reg)
  rw [hc]
  exact Script.raises_pure

omit [LinearOrder F] in
theorem raises_diagnoseClaim {clientId : Int} {Q : Failure → Prop} :
    Script.Raises skip (diagnoseClaim clientId) db Q := by
  simp only [diagnoseClaim, Script.raises_bind, Script.raises_select, Script.ensures_select,
    true_and]
  split
  · exact Script.raises_pure
  · split
    · exact Script.raises_pure
    · split <;> exact Script.raises_pure

omit [LinearOrder F] in
theorem raises_claimPairs {cfg : ServerConfig} {clientId slotsFree : Int} {Q : Failure → Prop} :
    Script.Raises skip (claimPairs cfg now clientId slotsFree) db Q := by
  simp only [claimPairs, Script.raises_bind, Script.raises_select, Script.ensures_select, true_and]
  split
  · simp only [Script.raises_bind, Script.raises_pick, Script.ensures_pick, Script.raises_update,
      Script.ensures_update, Script.raises_select, Script.ensures_select, true_and]
    split
    · exact raises_diagnoseClaim
    · exact Script.raises_pure
  · exact raises_diagnoseClaim

omit [LinearOrder F] in
theorem raises_updatePair {pairId : Int} {p : PairRow → Bool} {f : PairRow → PairRow}
    {h : ∀ r, (f r).id = r.id} {Q : Failure → Prop} :
    Script.Raises skip (updatePair pairId p f h) db Q := by
  simp only [updatePair, Script.raises_bind, Script.raises_select, Script.ensures_select, true_and]
  split
  next hp =>
    simp only [Script.raises_bind, Script.raises_acquire, Script.ensures_acquire,
      Script.raises_select, Script.ensures_select, Script.raises_update, Script.ensures_update,
      Script.raises_pure, hp, if_true, true_and]
  next => exact Script.raises_pure

omit [LinearOrder F] in
/-- The row is updated if it is there as wanted. -/
theorem ensures_updatePair_hit {pairId : Int} {p : PairRow → Bool} {f : PairRow → PairRow}
    {h : ∀ r, (f r).id = r.id} (hp : (db.jobPairs.find pairId).any p = true) :
    Script.Ensures skip (updatePair pairId p f h) db fun n db' =>
      n = 1 ∧ db' = db.updatePairs (·.id == pairId) f h := by
  simp only [updatePair, Script.ensures_bind, Script.ensures_select, Script.ensures_acquire,
    Script.ensures_update, Script.ensures_pure, hp, if_true, true_and]

omit [LinearOrder F] in
/-- A game is inserted if its place is one of two and free. -/
theorem raises_insertGame {row : GameRow} {Q : Failure → Prop}
    (hplace : row.gameInPair = 0 ∨ row.gameInPair = 1)
    (hfree : db.hasGame row.pairId row.gameInPair = false) :
    Script.Raises skip (insertGame row) db Q := by
  unfold insertGame
  simp only [hplace, not_true_eq_false, if_false, Script.raises_bind, Script.raises_select,
    Script.ensures_select, hfree, Bool.false_eq_true, Script.raises_update, true_and]

omit [LinearOrder F] in
/-- The two games of a pair that has none. -/
theorem raises_insertGames {row : Fin 2 → GameRow} {pairId : Int} {Q : Failure → Prop}
    (hpair : ∀ i, (row i).pairId = pairId) (hplace : ∀ i, (row i).gameInPair = i.val)
    (hnone : db.gamesOf pairId = []) :
    Script.Raises skip (Script.forEach (fun i => insertGame (row i)) (List.finRange 2)) db Q := by
  have hfree : ∀ i, db.hasGame (row i).pairId (row i).gameInPair = false := by
    intro i
    refine List.any_eq_false.mpr fun g hg hboth => ?_
    simp only [hpair, Bool.and_eq_true, beq_iff_eq] at hboth
    have hin : g ∈ db.gamesOf pairId := List.mem_filter.mpr ⟨hg, by simp [hboth.1]⟩
    rw [hnone] at hin
    cases hin
  refine Script.raises_bind.mpr ⟨raises_insertGame (.inl (hplace 0)) (hfree 0),
    ensures_insertGame.mono ?_⟩
  rintro _ _ ⟨-, rfl⟩
  refine Script.raises_bind.mpr ⟨raises_insertGame (.inr (hplace 1)) ?_, fun _ _ _ =>
    Script.raises_pure⟩
  rw [Db.hasGame_insertGame, hfree, hplace, hplace]
  simp

/-- A result that passes the guard is recorded, if its pair has no games yet. -/
theorem raises_submitResult {E : Env F} {B : Double → Double → Prop} {pairId : Int}
    {report : RoutedReport} (hB : db.TestsAll (TestRow.Bounded B))
    (hgames : ∀ p, db.jobPairs.find pairId = some p → p.status = .leased →
      db.gamesOf pairId = []) :
    Script.Raises skip (submitResult E now pairId report.toPairReport) db
      (RatioFails E.numerics B) := by
  simp only [submitResult, Script.raises_bind, Script.raises_select, Script.ensures_select,
    true_and]
  cases hg : db.guard pairId report.clientId with
  | none => exact Script.raises_pure
  | some g =>
    simp only [Script.raises_bind, Script.raises_acquire, Script.ensures_acquire,
      Script.raises_select, Script.ensures_select, true_and]
    cases hp : db.jobPairs.find pairId with
    | none => exact Script.raises_pure
    | some p =>
      dsimp only
      cases hr : refusal p g report.clientId with
      | some s => exact Script.raises_pure
      | none =>
        have hl := (refusal_eq_none hr).1
        have hnone := hgames p hp (PairRow.leasedBy_iff.mp hl).1
        simp only [Script.raises_bind, raises_updatePair, true_and]
        refine (ensures_updatePair_hit (by rw [hp]; exact hl)).mono ?_
        rintro _ _ ⟨rfl, rfl⟩
        simp only [ne_eq, not_true_eq_false, if_false, Script.raises_bind]
        refine ⟨raises_insertGames (fun _ => rfl) report.routed hnone, ensures_insertGames.mono ?_⟩
        rintro _ _ ⟨-, rfl⟩
        exact ⟨raises_refreshTest hB, fun _ _ _ => Script.raises_pure⟩

theorem raises_recoverExpiredLeases {E : Env F} {B : Double → Double → Prop} {maxAttempts : Int}
    (hB : db.TestsAll (TestRow.Bounded B)) :
    Script.Raises skip (recoverExpiredLeases E now maxAttempts) db (RatioFails E.numerics B) := by
  simp only [recoverExpiredLeases, Script.raises_bind, Script.raises_pick, Script.ensures_pick,
    Script.raises_update, Script.ensures_update, Script.raises_select, Script.ensures_select,
    true_and]
  refine ⟨Script.raises_forEach (I := fun db => db.TestsAll (TestRow.Bounded B))
    (fun i _ db hB => ⟨raises_refreshTest hB, ensures_refreshTest.mono fun _ db' hr =>
      hr.testsAll (survives_bounded B) hB⟩) hB, fun _ _ _ => Script.raises_pure⟩

omit [LinearOrder F] in
theorem raises_stopTest {testId : Int} {Q : Failure → Prop} :
    Script.Raises skip (stopTest now testId) db Q := by
  simp only [stopTest, Script.raises_bind, Script.raises_acquire, Script.ensures_acquire,
    Script.raises_select, Script.ensures_select, true_and]
  split
  · exact Script.raises_pure
  · split
    · exact Script.raises_pure
    · simp only [Script.raises_bind, Script.raises_update, Script.ensures_update, true_and]
      split
      · exact Script.raises_bind.mpr ⟨raises_promoteNextTest, fun _ _ _ => Script.raises_pure⟩
      · exact Script.raises_pure

omit [LinearOrder F] in
theorem raises_setPriority {testId priority : Int} {Q : Failure → Prop} :
    Script.Raises skip (CapiNet.setPriority testId priority) db Q := by
  simp only [CapiNet.setPriority, Script.raises_bind, Script.raises_acquire,
    Script.ensures_acquire, Script.raises_select, Script.ensures_select, true_and]
  split
  · exact Script.raises_pure
  · split
    · exact Script.raises_pure
    · simp only [Script.raises_bind, Script.raises_update, Script.ensures_update,
        Script.raises_pure, true_and]

omit [LinearOrder F] in
/-- The schema accepts a test of two commits. -/
theorem raises_insertTest {s : TestSpec} {candidateCommit baselineCommit : String}
    (hs : s.orderedBounds = true) {Q : Failure → Prop}
    (hsame : candidateCommit = baselineCommit → Q .checkViolation) :
    Script.Raises skip (insertTest now s candidateCommit baselineCommit) db Q := by
  unfold insertTest
  by_cases heq : candidateCommit = baselineCommit
  · rw [if_pos (.inl heq)]
    exact Script.raises_raise.mpr (hsame heq)
  · rw [if_neg (by simp [heq, hs])]
    simp only [Script.raises_bind, Script.raises_select, Script.ensures_select,
      Script.raises_update, Script.ensures_update, Script.raises_pure, true_and]

/-- A test that is validating gets its positions and pairs, since it has none. -/
theorem raises_smokeFinish {E : Env F} {B : Double → Double → Prop} {job : SmokeJob}
    {x : Examination} {random : Nat → ℚ} (hl : db.Lifecycle []) (hB : db.TestsAll (TestRow.Bounded B))
    (hjob : ∃ t, db.tests.find job.testId = some t) :
    Script.Raises skip (smokeFinish E now job x random) db (RatioFails E.numerics B) := by
  obtain ⟨t, ht⟩ := hjob
  simp only [smokeFinish, Script.raises_bind, Script.raises_acquire, Script.ensures_acquire,
    Script.raises_select, Script.ensures_select, ht, true_and]
  split
  · exact Script.raises_pure
  next hs =>
    have hv : t.status = .validating := not_not.mp hs
    have hnopos : db.positionsOf job.testId = [] := by
      refine List.filter_eq_nil_iff.mpr fun op hop htest => ?_
      obtain ⟨u, hu, hne⟩ := hl.opened op hop
      rw [beq_iff_eq.mp htest, ht] at hu
      exact hne (Option.some.inj hu ▸ hv)
    have hnopair : ∀ p ∈ db.jobPairs.rows, p.testId ≠ job.testId := by
      intro p hp htest
      obtain ⟨u, hu, hne⟩ := hl.placed p hp
      rw [htest, ht] at hu
      exact hne (Option.some.inj hu ▸ hv)
    cases hx : (job.examine x).2 with
    | none => 
      simp only [Script.raises_bind, Script.raises_update, Script.ensures_update,
        Script.raises_pure, true_and]
    | some fens =>
      simp only [Script.raises_bind, Script.raises_select, Script.ensures_select, hnopos,
        List.any_nil, Bool.false_eq_true, if_false, Script.raises_update, Script.ensures_update,
        true_and]
      change Script.Raises skip (if (((db.addPositions job.testId fens).positionsOf job.testId).any
        (db.addPositions job.testId fens).hasLivePair) = true then _ else _)
          (db.addPositions job.testId fens) _
      have hpairs : (db.addPositions job.testId fens).jobPairs = db.jobPairs := by
        obtain ⟨_, _, _, _, h, -⟩ := addPositions_spec db job.testId fens
        rw [h]
      have hlive : ((db.addPositions job.testId fens).positionsOf job.testId).any
          (db.addPositions job.testId fens).hasLivePair = false := by
        refine List.any_eq_false.mpr fun op hop hlive => ?_
        unfold Db.hasLivePair at hlive
        rw [hpairs] at hlive
        obtain ⟨p, hp, hboth⟩ := List.any_eq_true.mp hlive
        simp only [Bool.and_eq_true, beq_iff_eq] at hboth
        have htest : op.testId = job.testId := by simpa using (List.mem_filter.mp hop).2
        exact hnopair p hp (hboth.1.1.trans htest)
      have hqueue : ∀ vlog, (db.enqueue job.testId fens random vlog).TestsAll (TestRow.Bounded B) := by
        intro vlog u hu
        rw [(enqueue_spec db job.testId fens random vlog).tests] at hu
        have hjudged : (db.updateTest job.testId (.judge .queued vlog)
            (TestRow.judge_id .queued vlog)).TestsAll (TestRow.Bounded B) :=
          hB.updateTest fun _ h => h
        exact hjudged u hu
      rw [hlive]
      simp only [Bool.false_eq_true, if_false, Script.raises_bind, Script.raises_update,
        Script.ensures_update, true_and]
      refine ⟨raises_refreshTest (hqueue _), fun _ db₁ _ => ⟨raises_promoteNextTest,
        fun _ _ _ => Script.raises_pure⟩⟩

/-- The bounds of the tests of a database. -/
def Db.HasBounds (db : Db F) (elo0 elo1 : Double) : Prop :=
  ∃ t ∈ db.tests.rows, t.kind = .sprt ∧ t.sprtElo0 = some elo0 ∧ t.sprtElo1 = some elo1

/-- Every SPRT of a run has its bounds. -/
theorem run_bounded (E : Env F) (ops : List Op) :
    (Server.run E ops).db.TestsAll (TestRow.Bounded (Server.run E ops).db.HasBounds) := by
  have hall : (Server.run E ops).db.TestsAll (TestRow.Bounded fun _ _ => True) := by
    refine run_testsAll (survives_bounded _) (fun body s now cc bc id hs hk => ?_) ops
      fun _ _ _ _ _ t h => h
    obtain ⟨sprt, -, his⟩ := (parseTestSpec_ok hs).2 hk
    exact ⟨sprt.elo0, sprt.elo1, his.2.1, his.2.2.1, trivial⟩
  intro t ht hk
  obtain ⟨elo0, elo1, h0, h1, -⟩ := hall t ht hk
  exact ⟨elo0, elo1, h0, h1, t, ht, hk, h0, h1⟩

/-- The ways a call can fail: a test of a commit against itself, or the ratio of an SPRT. -/
def Call.Fails (E : Env F) (db : Db F) (c : Call) (e : Failure) : Prop :=
  (∃ body commit, c = .create body commit commit ∧ e = .checkViolation) ∨
    RatioFails E.numerics db.HasBounds e

theorem raises_program {E : Env F} {c : Call} (hl : db.Lifecycle [])
    (hB : db.TestsAll (TestRow.Bounded db.HasBounds))
    (hgames : ∀ i p, db.jobPairs.find i = some p → p.status = .leased → db.gamesOf i = [])
    (hjob : ∀ job x random, c = .smoke job x random → ∃ t, db.tests.find job.testId = some t) :
    Script.Raises skip (c.program E now) db (c.Fails E db) := by
  cases c with
  | create body cc bc =>
    simp only [Call.program]
    cases hs : parseTestSpec body E.cfg.sprtPresets with
    | error message => exact Script.raises_pure
    | ok s =>
      refine Script.Raises.map (raises_insertTest (accepted_sprtColumns hs).2 ?_)
      rintro rfl
      exact .inl ⟨body, cc, rfl, rfl⟩
  | smoke job x random =>
    exact Script.Raises.map ((raises_smokeFinish hl hB (hjob job x random rfl)).mono fun _ => .inr)
  | promote => exact Script.Raises.map raises_promoteNextTest
  | stop testId => exact Script.Raises.map raises_stopTest
  | setPriority testId priority => exact Script.Raises.map raises_setPriority
  | register reg => exact Script.Raises.map raises_registerClient
  | heartbeat clientId cpuFactor =>
    refine Script.Raises.map ?_
    simp only [heartbeat, Script.raises_bind, Script.raises_update, Script.ensures_update,
      Script.raises_select, Script.ensures_select, Script.raises_pure, true_and]
  | ban clientId =>
    refine Script.Raises.map ?_
    simp only [ban, Script.raises_bind, Script.raises_update, Script.ensures_update,
      Script.raises_pure, true_and]
  | claim clientId slotsFree => exact Script.Raises.map raises_claimPairs
  | submit pairId report =>
    exact Script.Raises.map ((raises_submitResult hB (hgames pairId)).mono fun _ => .inr)
  | abandon pairId clientId =>
    refine Script.Raises.map ?_
    simp only [abandonPair, Script.raises_bind, raises_updatePair, Script.raises_pure, true_and]
    exact fun _ _ _ => trivial
  | recover => exact Script.Raises.map ((raises_recoverExpiredLeases hB).mono fun _ => .inr)

/-- A constraint of the schema, a row or a column the code relies on, or a score no pair has. -/
def Failure.integrity : Failure → Bool
  | .domainError _ | .numericValueOutOfRange => false
  | _ => true

/-- In every run, a call that breaks a constraint of the schema or misses what it relies on creates a
test of a commit against itself; `hN` says that the numerics raise errors of their own only. -/
theorem integrity_of_run (E : Env F)
    (hN : ∀ elo0 elo1 results e, E.numerics.llrNormalized elo0 elo1 results = .error e →
      e.integrity = false)
    (ops : List Op) (op : Op) (e : Failure)
    (h : (Server.run E ops).reply E op = some (.error e)) (he : e.integrity = true) :
    e = .checkViolation ∧ ∃ body commit, op.act = .call (.create body commit commit) := by
  obtain ⟨c, hc, herr⟩ := Option.map_eq_some_iff.mp h
  have hord := run_orderly E ops
  have hraises : Script.Raises op.skip (c.program E op.now) (Server.run E ops).db
      (c.Fails E (Server.run E ops).db) := raises_program hord.lifecycle (run_bounded E ops) ?_ ?_
  · rcases hraises.atomically herr with ⟨body, commit, rfl, rfl⟩ | ⟨elo0, elo1, results, -, hratio⟩
    · refine ⟨rfl, body, commit, ?_⟩
      rcases callOf_eq_some hc with hact | ⟨_, _, _, -, -, heq⟩
      · exact hact
      · cases heq
    · rw [hN elo0 elo1 results e hratio] at he
      cases he
  · -- a pair with games is completed
    intro i p hp hleased
    rcases run_recorded E ops i with ⟨hnil, -⟩ | ⟨q, _, _, _, hq, hrec⟩
    · exact hnil
    · rw [hp] at hq
      have hdone := hrec.completed
      rw [← Option.some.inj hq, hleased] at hdone
      cases hdone
  · rintro job x random rfl
    rcases callOf_eq_some hc with hact | ⟨job', _, _, -, hj, heq⟩
    · rw [hact] at hc
      cases hc
    · cases heq
      obtain ⟨t, ht, -⟩ := hord.job _ hj
      exact ⟨t, ht⟩

theorem mleIterate_integrity {hat : PentaPdf ℝ} {ref s : ℝ} {n : ℕ} {pdf : Fin 5 → ℝ} {e : Failure}
    (h : mleIterate hat ref s n pdf = .error e) : e.integrity = false := by
  induction n generalizing pdf with
  | zero => cases h
  | succ n ih =>
    rcases bind_eq_error.mp h with hround | ⟨next, -, hnext⟩
    · rcases bind_eq_error.mp hround with hsolve | ⟨_, -, hok⟩
      · unfold secular at hsolve
        dsimp only at hsolve
        split at hsolve
        · cases hsolve
          rfl
        · cases hsolve
      · cases hok
    · split at hnext
      · cases hnext
      · exact ih hnext

/-- The solver raises the error of its domain. -/
theorem llrNormalized_integrity {nelo0 nelo1 : ℝ} {results : Pentanomial} {e : Failure}
    (h : llrNormalized nelo0 nelo1 results = .error e) : e.integrity = false := by
  unfold llrNormalized at h
  split at h
  · cases h
  · rcases bind_eq_error.mp h with h0 | ⟨p0, -, hrest⟩
    · exact mleIterate_integrity h0
    · rcases bind_eq_error.mp hrest with h1 | ⟨p1, -, hok⟩
      · exact mleIterate_integrity h1
      · cases hok

/-- A gauntlet of a commit against itself. -/
def mirrorMatch : Op := { now := 0, act := .call (.create (gauntletBody 1) "a" "a") }

theorem mirrorMatch_rejected :
    (Server.run realEnv []).reply realEnv mirrorMatch = some (.error .checkViolation) := by
  have hparsed : (parseTestSpec (gauntletBody 1) realEnv.cfg.sprtPresets).isOk = true := by
    decide +kernel
  cases hs : parseTestSpec (gauntletBody 1) realEnv.cfg.sprtPresets with
  | error message =>
    rw [hs] at hparsed
    cases hparsed
  | ok s =>
    have hprogram : Call.program realEnv 0 (.create (gauntletBody 1) "a" "a") =
        .raise .checkViolation := by
      simp only [Call.program, hs, insertTest, true_or, if_true]
      rfl
    simp only [Server.reply, mirrorMatch, Server.callOf, Option.map_some, Call.atomically, hprogram]
    rfl

theorem integrity_of_run_mirrorMatch :
    Failure.checkViolation = .checkViolation ∧
      ∃ body commit, mirrorMatch.act = .call (.create body commit commit) :=
  integrity_of_run realEnv (fun _ _ _ _ h => llrNormalized_integrity h) [] mirrorMatch .checkViolation
    mirrorMatch_rejected rfl

end CapiNet
