import CapiNet.Admin
import CapiNet.QueueEffect
import CapiNet.Smoke

namespace CapiNet

open Txn

variable {F : Type}

def Db.addTest (db : Db F) (now : ℚ) (s : TestSpec) (candidateCommit baselineCommit : String) :
    Db F :=
  { db with
    tests := db.tests.insert (testRow now s candidateCommit baselineCommit)
      (testRow_id now s candidateCommit baselineCommit) }

/-- The identity of a test that is inserted and not committed. -/
def Db.drawTestId (db : Db F) : Db F := { db with tests := db.tests.draw }

/-- The commit of a test that was inserted. -/
def Db.commitTest (db : Db F) (t : TestRow) : Db F := { db with tests := db.tests.place t }

theorem Db.commitTest_drawTestId (db : Db F) (now : ℚ) (s : TestSpec)
    (candidateCommit baselineCommit : String) :
    db.drawTestId.commitTest (testRow now s candidateCommit baselineCommit db.tests.next) =
      db.addTest now s candidateCommit baselineCommit := by
  simp only [commitTest, drawTestId, addTest, Relational.Table.place_draw db.tests
    (testRow now s candidateCommit baselineCommit) (testRow_id now s candidateCommit baselineCommit)]

inductive Inserted (now : ℚ) (s : TestSpec) (candidateCommit baselineCommit : String) (db : Db F) :
    Finish Int → Db F → Prop
  | inserted : Inserted now s candidateCommit baselineCommit db (.commit db.tests.next)
      (db.addTest now s candidateCommit baselineCommit)

theorem ensures_insertTest {skip : Lock → Bool} {now : ℚ} {s : TestSpec}
    {candidateCommit baselineCommit : String} {db : Db F} :
    Script.Ensures skip (insertTest now s candidateCommit baselineCommit) db
      (Inserted now s candidateCommit baselineCommit db) := by
  unfold insertTest
  split
  next => simp
  next =>
    simp only [Script.ensures_bind, Script.ensures_select, Script.ensures_update,
      Script.ensures_pure]
    exact .inserted

/-- A test that can still be stopped. -/
def TestStatus.live (s : TestStatus) : Prop := s = .validating ∨ s = .queued ∨ s = .running

/-- A live test is stopped, and the next one promoted if it was running. -/
inductive Stopped (now : ℚ) (testId : Int) (db : Db F) : Finish StopOutcome → Db F → Prop
  | refused (r : StopOutcome) (db' : Db F) : r.status ≠ .stopped →
      Stopped now testId db (.rollback r) db'
  | waiting (t : TestRow) : db.tests.find testId = some t → t.status.live → t.status ≠ .running →
      Stopped now testId db (.commit ⟨.stopped, some t.status, none⟩)
        (db.updateTest testId (.stop now) (TestRow.stop_id now))
  | running (t : TestRow) (promoted : Option Int) (db' : Db F) : db.tests.find testId = some t →
      t.status = .running →
      Promoted now (db.updateTest testId (.stop now) (TestRow.stop_id now)) promoted db' →
      Stopped now testId db (.commit ⟨.stopped, some t.status, promoted⟩) db'

theorem ensures_stopTest {skip : Lock → Bool} {now : ℚ} {testId : Int} {db : Db F} :
    Script.Ensures skip (stopTest now testId) db (Stopped now testId db) := by
  simp only [stopTest, Script.ensures_bind, Script.ensures_acquire, Script.ensures_select]
  cases ht : db.tests.find testId with
  | none => exact Script.ensures_pure.mpr (.refused _ _ (by simp))
  | some t =>
    dsimp only
    split
    next => exact Script.ensures_pure.mpr (.refused _ _ (by simp))
    next hl =>
      have hlive : t.status.live := by
        unfold TestStatus.live
        by_contra h
        simp only [not_or] at h
        exact hl h
      simp only [Script.ensures_bind, Script.ensures_update]
      split
      next hr =>
        simp only [Script.ensures_bind]
        refine ensures_promoteNextTest.mono fun promoted db' hp => Script.ensures_pure.mpr ?_
        exact .running t promoted db' ht hr hp
      next hr => exact Script.ensures_pure.mpr (.waiting t ht hlive hr)

inductive Prioritised (testId priority : Int) (db : Db F) : Finish PriorityOutcome → Db F → Prop
  | refused (r : PriorityOutcome) (db' : Db F) : r.status ≠ .updated →
      Prioritised testId priority db (.rollback r) db'
  | updated (t : TestRow) : db.tests.find testId = some t →
      Prioritised testId priority db (.commit ⟨.updated, some t.status⟩)
        (db.updateTest testId (.prioritise priority) (TestRow.prioritise_id priority))

theorem ensures_setPriority {skip : Lock → Bool} {testId priority : Int} {db : Db F} :
    Script.Ensures skip (setPriority testId priority) db (Prioritised testId priority db) := by
  simp only [setPriority, Script.ensures_bind, Script.ensures_acquire, Script.ensures_select]
  cases ht : db.tests.find testId with
  | none => exact Script.ensures_pure.mpr (.refused _ _ (by simp))
  | some t =>
    dsimp only
    split
    next => exact Script.ensures_pure.mpr (.refused _ _ (by simp))
    next =>
      simp only [Script.ensures_bind, Script.ensures_update, Script.ensures_pure]
      exact .updated t ht

def Db.addPositions (db : Db F) (testId : Int) (fens : List String) : Db F :=
  fens.zipIdx.foldl (Db.insertPosition testId) db

def Db.addPairs (db : Db F) (testId : Int) (random : Nat → ℚ) : Db F :=
  (db.positionsOf testId).zipIdx.foldl (Db.insertPair random) db

/-- The database when the worker has made the pairs and queued the test. -/
def Db.enqueue (db : Db F) (testId : Int) (fens : List String) (random : Nat → ℚ)
    (vlog : String) : Db F :=
  ((db.addPositions testId fens).addPairs testId random).updateTest testId
    (.judge .queued vlog) (TestRow.judge_id .queued vlog)

/-- A test that is still validating is judged: invalid, or queued with its pairs, after which its
statistics are made and the head of the queue promoted. -/
inductive Judged [LinearOrder F] (E : Env F) (now : ℚ) (job : SmokeJob) (x : Examination)
    (random : Nat → ℚ) (db : Db F) : Finish SmokeReply → Db F → Prop
  | late (db' : Db F) : Judged E now job x random db (.rollback .resultDiscarded) db'
  | invalid (t : TestRow) (vlog : String) : db.tests.find job.testId = some t →
      t.status = .validating →
      Judged E now job x random db (.commit .invalid)
        (db.updateTest job.testId (.judge .invalid vlog) (TestRow.judge_id .invalid vlog))
  | queued (t : TestRow) (fens : List String) (vlog : String) (promoted : Option Int)
      (db₁ db₂ : Db F) : db.tests.find job.testId = some t → t.status = .validating →
      (job.examine x).2 = some fens →
      Refreshed E.numerics now job.testId (db.enqueue job.testId fens random vlog) db₁ →
      Promoted now db₁ promoted db₂ →
      Judged E now job x random db (.commit (.queued promoted)) db₂

theorem ensures_smokeFinish [LinearOrder F] {skip : Lock → Bool} {E : Env F} {now : ℚ}
    {job : SmokeJob} {x : Examination} {random : Nat → ℚ} {db : Db F} :
    Script.Ensures skip (smokeFinish E now job x random) db (Judged E now job x random db) := by
  simp only [smokeFinish, Script.ensures_bind, Script.ensures_acquire, Script.ensures_select]
  cases ht : db.tests.find job.testId with
  | none => simp
  | some t =>
    dsimp only
    split
    next => exact Script.ensures_pure.mpr (.late db)
    next hs =>
      have hv : t.status = .validating := not_not.mp hs
      cases hx : (job.examine x).2 with
      | none =>
        simp only [Script.ensures_bind, Script.ensures_update, Script.ensures_pure]
        exact .invalid t _ ht hv
      | some fens =>
        simp only [Script.ensures_bind, Script.ensures_select]
        split
        next => simp
        next =>
          simp only [Script.ensures_bind, Script.ensures_update, Script.ensures_select]
          split
          next => simp
          next =>
            simp only [Script.ensures_bind, Script.ensures_update]
            refine ensures_refreshTest.mono fun _ db₁ hr => ?_
            refine ensures_promoteNextTest.mono fun promoted db₂ hp => Script.ensures_pure.mpr ?_
            exact .queued t fens _ promoted db₁ db₂ ht hv hx hr hp

end CapiNet
