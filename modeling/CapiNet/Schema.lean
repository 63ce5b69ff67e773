import CapiNet.Spec
import CapiNet.Library.Table
import CapiNet.Library.Interleaving

namespace CapiNet

open Relational Txn

inductive TestStatus
  | validating | invalid | queued | running | finished | stopped
  deriving DecidableEq

inductive TestResult
  | pending | accepted | rejected | inconclusive | completed
  deriving DecidableEq

inductive JobStatus
  | pending | leased | completed | discarded
  deriving DecidableEq

inductive ClientStatus
  | active | idle | banned
  deriving DecidableEq

inductive GameOutcome
  | candidateWin | draw | candidateLoss
  deriving DecidableEq

inductive GameTermination
  | normal | timeout | illegalMove | crash | adjudication | other
  deriving DecidableEq

structure TestRow where
  id : Int
  name : String
  kind : TestKind
  status : TestStatus
  result : TestResult
  candidateRef : String
  candidateCommit : String
  baselineRef : String
  baselineCommit : String
  tcBaseMs : Int
  tcIncrementMs : Int
  hashMb : Int
  bookName : String
  totalPairs : Int
  sprtPreset : Option SprtPreset
  sprtElo0 : Option Double
  sprtElo1 : Option Double
  sprtAlpha : Option Double
  sprtBeta : Option Double
  priority : Int
  validationLog : Option String
  submittedBy : Option String
  createdAt : ℚ
  startedAt : Option ℚ
  finishedAt : Option ℚ

structure ClientRow where
  id : Int
  name : String
  slots : Nat
  cpuFactor : Option Double
  status : ClientStatus

structure PositionRow where
  id : Int
  testId : Int
  seq : Nat
  fen : String

structure PairRow where
  id : Int
  testId : Int
  positionId : Int
  status : JobStatus
  dispatchOrder : ℚ
  leasedTo : Option Int
  leasedAt : Option ℚ
  leaseExpiresAt : Option ℚ
  attempts : Nat
  completedAt : Option ℚ
  discardedReason : Option String

/-- A game with its compressed PGN. -/
structure GameRow where
  pairId : Int
  testId : Int
  clientId : Int
  slotIndex : Int
  coreId : Option Int
  gameInPair : Int
  candidateIsWhite : Bool
  outcome : GameOutcome
  termination : GameTermination
  plyCount : Option Int
  durationMs : Option Int
  cpuFactorAtPlay : Double
  tcBaseEffectiveMs : Int
  tcIncrementEffectiveMs : Int
  valid : Bool
  invalidReason : Option String
  candidateNodes : Option Int
  candidateTimeMs : Option Int
  baselineNodes : Option Int
  baselineTimeMs : Option Int
  pgnGz : List UInt8

structure TestStats (F : Type) where
  pairsValid : Nat
  penta : Pentanomial
  llr : Option F
  llrLower : Option F
  llrUpper : Option F
  elo : Option F
  eloCiLow : Option F
  eloCiHigh : Option F
  gamesWins : Nat
  gamesDraws : Nat
  gamesLosses : Nat

structure HistoryRow (F : Type) where
  testId : Int
  pairsValid : Nat
  llr : Option F
  elo : Option F

structure Db (F : Type) where
  tests : Table TestRow (·.id)
  clients : Table ClientRow (·.id)
  positions : Table PositionRow (·.id)
  jobPairs : Table PairRow (·.id)
  games : List GameRow
  testStats : Int → Option (TestStats F)
  history : List (HistoryRow F)

/-- What transactions lock: a row of `tests` or `job_pairs`, or the promotion. The promotion asks
for the row it updates in a way of its own. -/
inductive Lock
  | test (id : Int)
  | promoted (id : Int)
  | pair (id : Int)
  | promotion
  deriving DecidableEq

instance : Lockable Lock where
  target
    | .promoted id => .test id
    | key => key

@[simp] theorem Lock.target_test (id : Int) : Lockable.target (Lock.test id) = .test id := rfl

@[simp] theorem Lock.target_promoted (id : Int) : Lockable.target (Lock.promoted id) = .test id :=
  rfl

@[simp] theorem Lock.target_pair (id : Int) : Lockable.target (Lock.pair id) = .pair id := rfl

@[simp] theorem Lock.target_promotion : Lockable.target Lock.promotion = .promotion := rfl

abbrev Tx (F : Type) := Script (Db F) Lock Failure

namespace Db

variable {F : Type}

/-- The schema as the migrations leave it. -/
def empty : Db F where
  tests := .empty
  clients := .empty
  positions := .empty
  jobPairs := .empty
  games := []
  testStats := fun _ => none
  history := []

def updateTest (db : Db F) (id : Int) (f : TestRow → TestRow) (h : ∀ r, (f r).id = r.id) : Db F :=
  { db with tests := db.tests.modify (·.id == id) f h }

def updatePairs (db : Db F) (p : PairRow → Bool) (f : PairRow → PairRow)
    (h : ∀ r, (f r).id = r.id) : Db F :=
  { db with jobPairs := db.jobPairs.modify p f h }

def insertGame (db : Db F) (g : GameRow) : Db F := { db with games := db.games ++ [g] }

/-- The unique key of `games`. -/
def hasGame (db : Db F) (pairId : Int) (gameInPair : Int) : Bool :=
  db.games.any fun g => g.pairId == pairId && g.gameInPair == gameInPair

def gamesOf (db : Db F) (pairId : Int) : List GameRow := db.games.filter (·.pairId == pairId)

def pairsOf (db : Db F) (testId : Int) : List PairRow :=
  db.jobPairs.rows.filter (·.testId == testId)

def runningTest (db : Db F) : Option TestRow := db.tests.rows.find? (·.status == .running)

end Db

/-- `UPDATE job_pairs SET f WHERE id = pairId AND p`: the row is found in the statement's
snapshot, locked, and tested again on its newest version. Gives the number of rows updated. -/
def updatePair {F : Type} (pairId : Int) (p : PairRow → Bool) (f : PairRow → PairRow)
    (h : ∀ r, (f r).id = r.id) : Tx F Nat := do
  if ← Script.select fun db => (db.jobPairs.find pairId).any p then
    Script.acquire (.pair pairId)
    if ← Script.select fun db => (db.jobPairs.find pairId).any p then
      Script.update fun db => db.updatePairs (·.id == pairId) f h
      return 1
    else return 0
  else return 0

end CapiNet
