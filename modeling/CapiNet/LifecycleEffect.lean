import CapiNet.Lifecycle

namespace CapiNet

open Txn

variable {F : Type}

/-- The head of the queue starts to run, unless a test is running. -/
inductive Promoted (now : ℚ) (db : Db F) : Option Int → Db F → Prop
  | nothing : promotionTarget db = none → Promoted now db none db
  | next (id : Int) : promotionTarget db = some id →
      Promoted now db (some id) (db.updateTest id (.run now) (TestRow.run_id now))

theorem ensures_promoteNextTest {skip : Lock → Bool} {now : ℚ} {db : Db F} :
    Script.Ensures skip (promoteNextTest now) db (Promoted now db) := by
  simp only [promoteNextTest, Script.ensures_bind, Script.ensures_acquire, Script.ensures_select]
  cases h : promotionTarget db with
  | none => exact Script.ensures_pure.mpr (.nothing h)
  | some id =>
    simp only [Script.ensures_bind, Script.ensures_acquire, Script.ensures_select]
    split
    next => simp
    next =>
      simp only [Script.ensures_bind, Script.ensures_update, Script.ensures_pure]
      exact .next id h

theorem ensures_finishTest {skip : Lock → Bool} {now : ℚ} {testId : Int} {result : TestResult}
    {db : Db F} :
    Script.Ensures skip (finishTest now testId result) db fun _ db' => ∃ promoted,
      Promoted now (db.updateTest testId (.finish now result) (TestRow.finish_id now result)) promoted db' := by
  simp only [finishTest, Script.ensures_bind, Script.ensures_update, Script.ensures_pure]
  exact ensures_promoteNextTest.mono fun promoted db' h => ⟨promoted, h⟩

section Recompute

variable [LinearOrder F] {N : Numerics F} {t : TestRow} {penta : Pentanomial}
  {wins draws losses : Nat} {r : Recomputed F}

theorem recompute_gauntlet (hk : t.kind = .gauntlet)
    (h : recompute N t penta wins draws losses = .ok r) : r.decision = .continue := by
  unfold recompute at h
  rw [hk] at h
  cases h
  rfl

/-- The ratio of an SPRT is stored with the bounds it is compared with. -/
theorem recompute_sprt (hk : t.kind = .sprt)
    (h : recompute N t penta wins draws losses = .ok r) :
    ∃ elo0 elo1 llr bounds, N.llrNormalized elo0 elo1 penta = .ok llr ∧
      bounds = N.sprtBounds (t.sprtAlpha.getD .fivePercent) (t.sprtBeta.getD .fivePercent) ∧
      r.stats.llr = some llr ∧ r.stats.llrLower = some bounds.lower ∧
      r.stats.llrUpper = some bounds.upper ∧
      r.decision = if 0 < penta.pairs then sprtDecide llr bounds else .continue := by
  unfold recompute at h
  rw [hk] at h
  obtain ⟨elo0, -, h⟩ := bind_eq_ok.mp h
  obtain ⟨elo1, -, h⟩ := bind_eq_ok.mp h
  obtain ⟨llr, hllr, h⟩ := bind_eq_ok.mp h
  cases h
  exact ⟨elo0, elo1, llr, _, hllr, rfl, rfl, rfl, rfl, rfl⟩

/-- Whatever the test, the counts are stored as they are given. -/
theorem recompute_counts (h : recompute N t penta wins draws losses = .ok r) :
    r.stats.penta = penta ∧ r.stats.pairsValid = penta.pairs ∧ r.stats.gamesWins = wins ∧
      r.stats.gamesDraws = draws ∧ r.stats.gamesLosses = losses := by
  unfold recompute at h
  cases hk : t.kind with
  | gauntlet =>
    rw [hk] at h
    cases h
    exact ⟨rfl, rfl, rfl, rfl, rfl⟩
  | sprt =>
    rw [hk] at h
    obtain ⟨_, -, h⟩ := bind_eq_ok.mp h
    obtain ⟨_, -, h⟩ := bind_eq_ok.mp h
    obtain ⟨_, -, h⟩ := bind_eq_ok.mp h
    cases h
    exact ⟨rfl, rfl, rfl, rfl, rfl⟩

end Recompute

/-- The recomputation of a test from its pairs and games. -/
def Db.recomputed [LinearOrder F] (N : Numerics F) (db : Db F) (t : TestRow) : Except Failure (Recomputed F) := do
  let penta ← tally (db.countScores t.id)
  recompute N t penta (db.countGames t.id .candidateWin) (db.countGames t.id .draw)
    (db.countGames t.id .candidateLoss)

def Db.record (db : Db F) (testId : Int) (s : TestStats F) : Db F :=
  (db.upsertStats testId s).appendHistory testId s

/-- The result a running test finishes with, if it does. -/
def verdict (t : TestRow) (decision : SprtDecision) (remaining : Nat) : Option TestResult :=
  match decision with
  | .acceptH1 => some .accepted
  | .acceptH0 => some .rejected
  | .continue => if remaining = 0 then some t.kind.exhausted else none

/-- What a recomputation does: nothing to an unknown test; otherwise it records the statistics and
finishes a running test that has its verdict. -/
inductive Refreshed [LinearOrder F] (N : Numerics F) (now : ℚ) (testId : Int) (db : Db F) : Db F → Prop
  | missing : db.tests.find testId = none → Refreshed N now testId db db
  | kept (t : TestRow) (r : Recomputed F) : db.tests.find testId = some t →
      db.recomputed N t = .ok r →
      t.status ≠ .running ∨ verdict t r.decision (db.remaining testId) = none →
      Refreshed N now testId db (db.record testId r.stats)
  | finished (t : TestRow) (r : Recomputed F) (result : TestResult) (promoted : Option Int)
      (db' : Db F) : db.tests.find testId = some t →
      db.recomputed N t = .ok r → t.status = .running →
      verdict t r.decision (db.remaining testId) = some result →
      Promoted now ((db.record testId r.stats).updateTest testId (.finish now result)
        (TestRow.finish_id now result))
        promoted db' →
      Refreshed N now testId db db'

theorem Db.remaining_record (db : Db F) (testId i : Int) (s : TestStats F) :
    (db.record i s).remaining testId = db.remaining testId := by
  unfold Db.record Db.appendHistory Db.upsertStats Db.remaining
  split <;> rfl

theorem ensures_refreshTest [LinearOrder F] {skip : Lock → Bool} {N : Numerics F} {now : ℚ} {testId : Int}
    {db : Db F} :
    Script.Ensures skip (refreshTest N now testId) db fun _ db' =>
      Refreshed N now testId db db' := by
  simp only [refreshTest, Script.ensures_bind, Script.ensures_acquire, Script.ensures_select]
  cases ht : db.tests.find testId with
  | none => exact Script.ensures_pure.mpr (.missing ht)
  | some t =>
    have hid : t.id = testId := (Relational.Table.find_some ht).2
    subst hid
    simp only [Script.ensures_bind, Script.ensures_select, Script.ensures_ofExcept,
      Script.ensures_update]
    intro penta hpenta r hr
    have hrec : db.recomputed N t = .ok r := by
      rw [Db.recomputed, hpenta]
      exact hr
    change Script.Ensures skip _ (db.record t.id r.stats) _
    split
    next hs => exact Script.ensures_pure.mpr (.kept t r ht hrec (.inl hs))
    next hs =>
      have finished : ∀ result, verdict t r.decision (db.remaining t.id) = some result →
          Script.Ensures skip (finishTest now t.id result) (db.record t.id r.stats)
            fun _ db' => Refreshed N now t.id db db' := by
        intro result hv
        refine ensures_finishTest.mono ?_
        rintro - db' ⟨promoted, h⟩
        exact .finished t r result promoted db' ht hrec (not_not.mp hs) hv h
      split
      next hd => exact finished _ (by rw [hd]; rfl)
      next hd => exact finished _ (by rw [hd]; rfl)
      next hd =>
        simp only [Script.ensures_bind, Script.ensures_select, Db.remaining_record]
        split
        next hz => exact finished _ (by simp only [verdict, hd, hz, if_true])
        next hz =>
          exact Script.ensures_pure.mpr
            (.kept t r ht hrec (.inr (by simp only [verdict, hd, hz, if_false])))

end CapiNet
