import CapiNet.Schema

namespace CapiNet

open Txn

def GameOutcome.score : GameOutcome → ℚ
  | .candidateWin => 1
  | .draw => 1 / 2
  | .candidateLoss => 0

/-- A row of the view `pair_outcomes`. -/
structure PairOutcome where
  pairId : Int
  testId : Int
  clientId : Int
  pairScore : ℚ

/-- The rows one completed pair contributes: a group for each client among its valid games, kept
if it has two of them. -/
def outcomesOf (p : PairRow) (valid : List GameRow) : List PairOutcome :=
  (valid.map (·.clientId)).dedup.filterMap fun c =>
    let mine := valid.filter (·.clientId == c)
    if mine.length = 2 then some ⟨p.id, p.testId, c, (mine.map (·.outcome.score)).sum⟩ else none

namespace Db

variable {F : Type}

def pairOutcomes (db : Db F) : List PairOutcome :=
  (db.jobPairs.rows.filter (·.status == .completed)).flatMap fun p =>
    outcomesOf p ((db.gamesOf p.id).filter (·.valid))

/-- `SELECT pair_score, count(*) .. GROUP BY pair_score` of one test. -/
def countScores (db : Db F) (testId : Int) : List (ℚ × Nat) :=
  let scores := (db.pairOutcomes.filter (·.testId == testId)).map (·.pairScore)
  scores.dedup.map fun s => (s, scores.count s)

/-- The valid games of a test with a given outcome, joined with the view. -/
def countGames (db : Db F) (testId : Int) (outcome : GameOutcome) : Nat :=
  ((db.games.filter fun g => g.testId == testId && g.valid && g.outcome == outcome).map
    fun g => db.pairOutcomes.countP (·.pairId == g.pairId)).sum

/-- Pairs of a test that can still bring a result. -/
def remaining (db : Db F) (testId : Int) : Nat :=
  db.jobPairs.rows.countP fun p =>
    p.testId == testId && (p.status == .pending || p.status == .leased)

end Db

/-- The distribution of the counted scores. -/
def tally (rows : List (ℚ × Nat)) : Except Failure Pentanomial :=
  rows.foldlM (fun penta row => do
    let c ← categoryFromPairScore row.1
    return penta.add c row.2) .empty

section Stats

variable {F : Type} [LinearOrder F]

/-- What one recomputation writes, and the stopping decision it takes. -/
structure Recomputed (F : Type) where
  stats : TestStats F
  decision : SprtDecision

/-- A column read as a number. -/
def notNull {α : Type} : Option α → Except Failure α
  | none => .error .nullValue
  | some a => .ok a

def recompute (N : Numerics F) (t : TestRow) (penta : Pentanomial) (wins draws losses : Nat) :
    Except Failure (Recomputed F) := do
  let e := if 0 < penta.pairs then some (N.eloEstimate penta) else none
  let stats : TestStats F := {
    pairsValid := penta.pairs, penta
    llr := none, llrLower := none, llrUpper := none
    elo := e.map (·.elo), eloCiLow := e.map (·.ciLow), eloCiHigh := e.map (·.ciHigh)
    gamesWins := wins, gamesDraws := draws, gamesLosses := losses }
  match t.kind with
  | .gauntlet => return ⟨stats, .continue⟩
  | .sprt =>
    let elo0 ← notNull t.sprtElo0
    let elo1 ← notNull t.sprtElo1
    let bounds := N.sprtBounds (t.sprtAlpha.getD .fivePercent) (t.sprtBeta.getD .fivePercent)
    let llr ← N.llrNormalized elo0 elo1 penta
    return {
      stats := { stats with
        llr := some llr, llrLower := some bounds.lower, llrUpper := some bounds.upper }
      decision := if 0 < penta.pairs then sprtDecide llr bounds else .continue }

namespace Db

def upsertStats (db : Db F) (testId : Int) (s : TestStats F) : Db F :=
  { db with testStats := Function.update db.testStats testId (some s) }

def lastHistory (db : Db F) (testId : Int) : Option (HistoryRow F) :=
  (db.history.filter (·.testId == testId)).getLast?

/-- A point of the history, only when the number of pairs changed. -/
def appendHistory (db : Db F) (testId : Int) (s : TestStats F) : Db F :=
  if some s.pairsValid = (db.lastHistory testId).map (·.pairsValid) then db
  else { db with history := db.history ++ [⟨testId, s.pairsValid, s.llr, s.elo⟩] }

end Db

end Stats

def TestRow.run (now : ℚ) (t : TestRow) : TestRow :=
  { t with status := .running, startedAt := some now }

def TestRow.finish (now : ℚ) (result : TestResult) (t : TestRow) : TestRow :=
  { t with status := .finished, result := result, finishedAt := some now }

@[simp] theorem TestRow.run_id (now : ℚ) (t : TestRow) : (t.run now).id = t.id := rfl

@[simp] theorem TestRow.finish_id (now : ℚ) (result : TestResult) (t : TestRow) :
    (t.finish now result).id = t.id := rfl

/-- `ORDER BY priority DESC, created_at, id`. -/
def servedBefore (a b : TestRow) : Prop :=
  b.priority < a.priority ∨
    (a.priority = b.priority ∧
      (a.createdAt < b.createdAt ∨ (a.createdAt = b.createdAt ∧ a.id ≤ b.id)))

instance : DecidableRel servedBefore := fun a b => by unfold servedBefore; infer_instance

/-- The queued test to run next, if no test is running. -/
def promotionTarget {F : Type} (db : Db F) : Option Int :=
  if db.tests.rows.any (·.status == .running) then none
  else (((db.tests.rows.filter (·.status == .queued)).insertionSort servedBefore).head?).map (·.id)

variable {F : Type}

/-- The row to update comes from the statement's snapshot. When it has to wait for the row, it
tests its newest version only for the identity: the status stands in the sub-select. -/
def promoteNextTest (now : ℚ) : Tx F (Option Int) := do
  Script.acquire .promotion
  match ← Script.select promotionTarget with
  | none => return none
  | some id =>
    Script.acquire (.promoted id)
    if ← Script.select fun db => db.tests.rows.any fun t => t.id != id && t.status == .running then
      .raise .uniqueViolation
    else
      Script.update fun db => db.updateTest id (.run now) (TestRow.run_id now)
      return some id

/-- The result of a test whose pairs are all consumed; a gauntlet has no SPRT verdict. -/
def TestKind.exhausted : TestKind → TestResult
  | .sprt => .inconclusive
  | .gauntlet => .completed

def finishTest (now : ℚ) (testId : Int) (result : TestResult) : Tx F Unit := do
  Script.update fun db => db.updateTest testId (.finish now result) (TestRow.finish_id now result)
  let _ ← promoteNextTest now
  return ()

def refreshTest [LinearOrder F] (N : Numerics F) (now : ℚ) (testId : Int) : Tx F Unit := do
  Script.acquire (.test testId)
  match ← Script.select fun db => db.tests.find testId with
  | none => return ()
  | some t =>
    let scores ← Script.select fun db => db.countScores testId
    let penta ← Script.ofExcept (tally scores)
    let (wins, draws, losses) ← Script.select fun db =>
      (db.countGames testId .candidateWin, db.countGames testId .draw,
        db.countGames testId .candidateLoss)
    let r ← Script.ofExcept (recompute N t penta wins draws losses)
    Script.update fun db => db.upsertStats testId r.stats
    Script.update fun db => db.appendHistory testId r.stats
    if t.status ≠ .running then return ()
    else match r.decision with
      | .acceptH1 => finishTest now testId .accepted
      | .acceptH0 => finishTest now testId .rejected
      | .continue =>
        let remaining ← Script.select fun db => db.remaining testId
        if remaining = 0 then finishTest now testId t.kind.exhausted else return ()

end CapiNet
