import CapiNet.Lifecycle

namespace CapiNet

open Txn

variable {F : Type}

/-- The constraint `tests` puts on the bounds of an SPRT. -/
def TestSpec.orderedBounds (s : TestSpec) : Bool :=
  match s.kind, s.sprtElo0, s.sprtElo1 with
  | .gauntlet, _, _ => true
  | .sprt, some elo0, some elo1 => decide (elo0.val < elo1.val)
  | .sprt, _, _ => false

def testRow (now : ℚ) (s : TestSpec) (candidateCommit baselineCommit : String) (id : Int) :
    TestRow :=
  { id, name := s.name, kind := s.kind, status := .validating, result := .pending
    candidateRef := s.candidateRef, candidateCommit
    baselineRef := s.baselineRef, baselineCommit
    tcBaseMs := s.tcBaseMs, tcIncrementMs := s.tcIncrementMs
    hashMb := s.hashMb, bookName := s.bookName, totalPairs := s.totalPairs
    sprtPreset := s.sprtPreset
    sprtElo0 := s.sprtElo0, sprtElo1 := s.sprtElo1
    sprtAlpha := s.sprtAlpha, sprtBeta := s.sprtBeta
    priority := s.priority, validationLog := none, submittedBy := s.submittedBy
    createdAt := now, startedAt := none, finishedAt := none }

@[simp] theorem testRow_id (now : ℚ) (s : TestSpec) (candidateCommit baselineCommit : String)
    (id : Int) : (testRow now s candidateCommit baselineCommit id).id = id := rfl

def insertTest (now : ℚ) (s : TestSpec) (candidateCommit baselineCommit : String) :
    Tx F (Finish Int) := do
  if candidateCommit = baselineCommit ∨ !s.orderedBounds then .raise .checkViolation
  else
    let id ← Script.select (·.tests.next)
    Script.update fun db => { db with
      tests := db.tests.insert (testRow now s candidateCommit baselineCommit)
        (testRow_id now s candidateCommit baselineCommit) }
    return .commit id

def TestRow.stop (now : ℚ) (t : TestRow) : TestRow :=
  { t with status := .stopped, finishedAt := some now }

@[simp] theorem TestRow.stop_id (now : ℚ) (t : TestRow) : (t.stop now).id = t.id := rfl

inductive StopStatus
  | stopped | notFound | alreadyTerminal
  deriving DecidableEq

structure StopOutcome where
  status : StopStatus
  previous : Option TestStatus
  promoted : Option Int
  deriving DecidableEq

def stopTest (now : ℚ) (testId : Int) : Tx F (Finish StopOutcome) := do
  Script.acquire (.test testId)
  match ← Script.select fun db => db.tests.find testId with
  | none => return .rollback ⟨.notFound, none, none⟩
  | some t =>
    if t.status ≠ .validating ∧ t.status ≠ .queued ∧ t.status ≠ .running then
      return .rollback ⟨.alreadyTerminal, some t.status, none⟩
    else
      Script.update fun db => db.updateTest testId (.stop now) (TestRow.stop_id now)
      if t.status = .running then
        let promoted ← promoteNextTest now
        return .commit ⟨.stopped, some t.status, promoted⟩
      else return .commit ⟨.stopped, some t.status, none⟩

def TestRow.prioritise (priority : Int) (t : TestRow) : TestRow := { t with priority := priority }

@[simp] theorem TestRow.prioritise_id (priority : Int) (t : TestRow) :
    (t.prioritise priority).id = t.id := rfl

inductive PriorityStatus
  | updated | notFound | notQueued
  deriving DecidableEq

structure PriorityOutcome where
  status : PriorityStatus
  testStatus : Option TestStatus
  deriving DecidableEq

def setPriority (testId priority : Int) : Tx F (Finish PriorityOutcome) := do
  Script.acquire (.test testId)
  match ← Script.select fun db => db.tests.find testId with
  | none => return .rollback ⟨.notFound, none⟩
  | some t =>
    if t.status ≠ .validating ∧ t.status ≠ .queued then
      return .rollback ⟨.notQueued, some t.status⟩
    else
      Script.update fun db => db.updateTest testId (.prioritise priority)
        (TestRow.prioritise_id priority)
      return .commit ⟨.updated, some t.status⟩

end CapiNet
