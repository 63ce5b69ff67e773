import CapiNet.ScoreViews

namespace CapiNet

open Relational

variable {F : Type}

/-- The statistics of a test without its score. -/
structure StatsV4 (F : Type) where
  pairsValid : Nat
  penta : Pentanomial
  llr : Option F
  llrLower : Option F
  llrUpper : Option F
  elo : Option F
  eloCiLow : Option F
  eloCiHigh : Option F

/-- A database whose results do not know `completed`. -/
structure DbV4 (F : Type) where
  tests : Table TestRow (·.id)
  noneCompleted : ∀ t ∈ tests.rows, t.result ≠ .completed
  clients : Table ClientRow (·.id)
  positions : Table PositionRow (·.id)
  jobPairs : Table PairRow (·.id)
  games : List GameRow
  testStats : Int → Option (StatsV4 F)
  history : List (HistoryRow F)

/-- The columns of version 4. -/
def TestStats.columnsV4 (s : TestStats F) : StatsV4 F where
  pairsValid := s.pairsValid
  penta := s.penta
  llr := s.llr
  llrLower := s.llrLower
  llrUpper := s.llrUpper
  elo := s.elo
  eloCiLow := s.eloCiLow
  eloCiHigh := s.eloCiHigh

/-- `ADD COLUMN .. NOT NULL DEFAULT 0`. -/
def StatsV4.addColumns (s : StatsV4 F) : TestStats F where
  pairsValid := s.pairsValid
  penta := s.penta
  llr := s.llr
  llrLower := s.llrLower
  llrUpper := s.llrUpper
  elo := s.elo
  eloCiLow := s.eloCiLow
  eloCiHigh := s.eloCiHigh
  gamesWins := 0
  gamesDraws := 0
  gamesLosses := 0

/-- The types and the columns of version 5 over the data of version 4. -/
def DbV4.alter (old : DbV4 F) : Db F where
  tests := old.tests
  clients := old.clients
  positions := old.positions
  jobPairs := old.jobPairs
  games := old.games
  testStats i := (old.testStats i).map StatsV4.addColumns
  history := old.history

def TestRow.complete (t : TestRow) : TestRow := { t with result := .completed }

/-- `WHERE kind = 'gauntlet' AND status = 'finished' AND result = 'pending'`. -/
def TestRow.isPlayedOut (t : TestRow) : Bool :=
  t.kind == .gauntlet && t.status == .finished && t.result == .pending

namespace Db

def completeGauntlets (db : Db F) : Db F :=
  { db with tests := db.tests.modify TestRow.isPlayedOut TestRow.complete fun _ => rfl }

/-- The valid games, once for each row of the view with their pair. -/
def joinedGames (db : Db F) : List GameRow :=
  (db.games.flatMap fun g => (db.pairOutcomes.filter (·.pairId == g.pairId)).map fun _ => g).filter
    (·.valid)

/-- The score of a test. -/
structure ScoreRow where
  testId : Int
  wins : Nat
  draws : Nat
  losses : Nat

/-- `GROUP BY test_id`. -/
def scoreRows (db : Db F) : List ScoreRow :=
  (db.joinedGames.map (·.testId)).dedup.map fun i =>
    let mine := db.joinedGames.filter (·.testId == i)
    { testId := i
      wins := mine.countP (·.outcome == .candidateWin)
      draws := mine.countP (·.outcome == .draw)
      losses := mine.countP (·.outcome == .candidateLoss) }

/-- `UPDATE .. FROM`: a test without a row of the join keeps what it has. -/
def backfillScores (db : Db F) : Db F :=
  { db with testStats := fun i => (db.testStats i).map fun s =>
      match db.scoreRows.find? (·.testId == i) with
      | some sc => { s with gamesWins := sc.wins, gamesDraws := sc.draws, gamesLosses := sc.losses }
      | none => s }

end Db

def DbV4.migrate (old : DbV4 F) : Db F := old.alter.completeGauntlets.backfillScores

namespace Db

theorem countP_const (b : Bool) (l : List PairOutcome) :
    l.countP (fun _ => b) = if b then l.length else 0 := by
  cases b with
  | false => simp
  | true => simp

/-- A group of the join counts what the query of a single test does. -/
theorem countP_joined (db : Db F) (i : Int) (o : GameOutcome) :
    (db.joinedGames.filter (·.testId == i)).countP (·.outcome == o) = db.countGames i o := by
  rw [joinedGames, List.countP_filter, List.countP_filter, List.countP_flatMap, countGames,
    ← sum_filter]
  congr 1
  refine List.map_congr_left fun g _ => ?_
  have hsame : (g.outcome == o && g.testId == i && g.valid) =
      (g.testId == i && g.valid && g.outcome == o) := by
    rw [Bool.and_assoc, Bool.and_comm]
  rw [Function.comp_apply, List.countP_map]
  show (db.pairOutcomes.filter (·.pairId == g.pairId)).countP
    (fun _ => g.outcome == o && g.testId == i && g.valid) = _
  rw [countP_const, hsame, List.countP_eq_length_filter]

theorem find_scoreRows (db : Db F) (i : Int) :
    (∃ sc, db.scoreRows.find? (·.testId == i) = some sc ∧ sc.wins = db.countGames i .candidateWin ∧
      sc.draws = db.countGames i .draw ∧ sc.losses = db.countGames i .candidateLoss) ∨
    (db.scoreRows.find? (·.testId == i) = none ∧ ∀ o, db.countGames i o = 0) := by
  cases hfind : db.scoreRows.find? (·.testId == i) with
  | some sc =>
    left
    have htest : sc.testId = i := by simpa using List.find?_some hfind
    obtain ⟨j, -, rfl⟩ := List.mem_map.mp (List.mem_of_find?_eq_some hfind)
    change j = i at htest
    subst j
    exact ⟨_, rfl, db.countP_joined i _, db.countP_joined i _, db.countP_joined i _⟩
  | none =>
    right
    refine ⟨rfl, fun o => ?_⟩
    have hnone : ∀ g ∈ db.joinedGames, g.testId ≠ i := by
      intro g hg heq
      have hrow := List.find?_eq_none.mp hfind _ (List.mem_map.mpr
        ⟨g.testId, List.mem_dedup.mpr (List.mem_map.mpr ⟨g, hg, rfl⟩), rfl⟩)
      exact hrow (by simp [heq])
    have hempty : db.joinedGames.filter (·.testId == i) = [] :=
      List.filter_eq_nil_iff.mpr fun g hg => by simp [hnone g hg]
    rw [← db.countP_joined i o, hempty]
    rfl

end Db

/-- The backfill of a row whose score columns are zero. -/
theorem backfillScores_row {db : Db F} {i : Int} {old : StatsV4 F} {s : TestStats F}
    (hzero : db.testStats i = some old.addColumns) (h : db.backfillScores.testStats i = some s) :
    s.gamesWins = db.countGames i .candidateWin ∧ s.gamesDraws = db.countGames i .draw ∧
      s.gamesLosses = db.countGames i .candidateLoss ∧ s.columnsV4 = old := by
  have hs : s = match db.scoreRows.find? (·.testId == i) with
      | some sc => { old.addColumns with
          gamesWins := sc.wins, gamesDraws := sc.draws, gamesLosses := sc.losses }
      | none => old.addColumns := by
    have hrow : db.backfillScores.testStats i = some _ := congrArg (Option.map _) hzero
    rw [h] at hrow
    exact Option.some.inj hrow
  rcases db.find_scoreRows i with ⟨sc, hsc, hwins, hdraws, hlosses⟩ | ⟨hnone, hcount⟩
  · rw [hsc] at hs
    subst hs
    exact ⟨hwins, hdraws, hlosses, rfl⟩
  · rw [hnone] at hs
    subst hs
    exact ⟨(hcount _).symm, (hcount _).symm, (hcount _).symm, rfl⟩

/-- A played out gauntlet is what would be completed if its last pair were consumed now. -/
theorem isPlayedOut_iff (t : TestRow) :
    t.isPlayedOut = true ↔
      t.kind.exhausted = .completed ∧ t.status = .finished ∧ t.result = .pending := by
  have hkind : t.kind.exhausted = .completed ↔ t.kind = .gauntlet := by
    cases t.kind with
    | sprt => simp [TestKind.exhausted]
    | gauntlet => simp [TestKind.exhausted]
  rw [hkind]
  simp only [TestRow.isPlayedOut, Bool.and_eq_true, beq_iff_eq, and_assoc]

/-- The migrated scores are those the server computes on the migrated data, every other column is
kept, and the tests that become completed are the finished gauntlets without a result. -/
theorem migration_agrees (old : DbV4 F) :
    (∀ i s, old.migrate.testStats i = some s →
      s.gamesWins = old.migrate.countGames i .candidateWin ∧
      s.gamesDraws = old.migrate.countGames i .draw ∧
      s.gamesLosses = old.migrate.countGames i .candidateLoss) ∧
    (∀ i, (old.migrate.testStats i).map TestStats.columnsV4 = old.testStats i) ∧
    old.migrate.tests.rows =
      old.tests.rows.map (fun t => if t.isPlayedOut then t.complete else t) ∧
    (∀ t ∈ old.tests.rows,
      (if t.isPlayedOut then t.complete else t).result = .completed ↔
        t.kind.exhausted = .completed ∧ t.status = .finished ∧ t.result = .pending) ∧
    old.migrate.games = old.games ∧ old.migrate.jobPairs = old.jobPairs ∧
    old.migrate.clients = old.clients ∧ old.migrate.positions = old.positions ∧
    old.migrate.history = old.history := by
  have hrow : ∀ i, old.alter.completeGauntlets.testStats i =
      (old.testStats i).map StatsV4.addColumns := fun _ => rfl
  refine ⟨?_, ?_, rfl, ?_, rfl, rfl, rfl, rfl, rfl⟩
  · intro i s hs
    cases hold : old.testStats i with
    | none =>
      have hnone : old.migrate.testStats i = none := by
        show Option.map _ (old.alter.completeGauntlets.testStats i) = none
        rw [hrow, hold]
        rfl
      rw [hnone] at hs
      exact absurd hs (by simp)
    | some o =>
      obtain ⟨hwins, hdraws, hlosses, -⟩ :=
        backfillScores_row ((hrow i).trans (congrArg _ hold)) hs
      exact ⟨hwins, hdraws, hlosses⟩
  · intro i
    cases hold : old.testStats i with
    | none =>
      show Option.map _ (Option.map _ (old.alter.completeGauntlets.testStats i)) = none
      rw [hrow, hold]
      rfl
    | some o =>
      have hzero := (hrow i).trans (congrArg _ hold)
      cases hnew : old.migrate.testStats i with
      | none =>
        have hsome : old.migrate.testStats i = some _ := congrArg (Option.map _) hzero
        rw [hnew] at hsome
        exact absurd hsome (by simp)
      | some s =>
        obtain ⟨-, -, -, hcolumns⟩ := backfillScores_row hzero hnew
        rw [Option.map_some, hcolumns]
  · intro t ht
    rw [← isPlayedOut_iff]
    cases hout : t.isPlayedOut with
    | true => simp [TestRow.complete]
    | false => simpa using old.noneCompleted t ht

end CapiNet
