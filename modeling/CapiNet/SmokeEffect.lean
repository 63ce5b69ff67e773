import CapiNet.AdminEffect

namespace CapiNet

open Relational

variable {F : Type}

/-- A pair nobody has claimed yet. -/
def PairRow.Fresh (p : PairRow) : Prop :=
  p.status = .pending ∧ p.attempts = 0 ∧ p.leasedTo = none ∧ p.leasedAt = none ∧
    p.leaseExpiresAt = none ∧ p.completedAt = none ∧ p.discardedReason = none

theorem foldl_insertPosition (testId : Int) (es : List (String × Nat)) (db : Db F) :
    ∃ new next hb hn, es.foldl (Db.insertPosition testId) db =
        { db with positions := ⟨db.positions.rows ++ new, next, hb, hn⟩ } ∧
      new.length = es.length ∧ ∀ op ∈ new, op.testId = testId := by
  induction es generalizing db with
  | nil =>
    refine ⟨[], db.positions.next, by simpa using db.positions.below,
      by simpa using db.positions.nodup, ?_, rfl, by simp⟩
    simp
  | cons e es ih =>
    obtain ⟨new, next, hb, hn, heq, hlen, hall⟩ := ih (Db.insertPosition testId db e)
    let op : PositionRow := ⟨db.positions.next, testId, e.2 + 1, e.1⟩
    have hrows : (Db.insertPosition testId db e).positions.rows ++ new =
        db.positions.rows ++ op :: new := by
      simp [Db.insertPosition, op]
    refine ⟨op :: new, next, by simpa only [hrows] using hb, by simpa only [hrows] using hn,
      ?_, by simp [hlen], ?_⟩
    · rw [List.foldl_cons, heq]
      simp only [hrows]
      rfl
    · intro o ho
      rcases List.mem_cons.mp ho with rfl | ho
      · rfl
      · exact hall o ho

/-- The positions of a book are appended to those of the other tests. -/
theorem addPositions_spec (db : Db F) (testId : Int) (fens : List String) :
    ∃ new next hb hn, db.addPositions testId fens =
        { db with positions := ⟨db.positions.rows ++ new, next, hb, hn⟩ } ∧
      new.length = fens.length ∧ ∀ op ∈ new, op.testId = testId := by
  obtain ⟨new, next, hb, hn, heq, hlen, hall⟩ := foldl_insertPosition testId fens.zipIdx db
  exact ⟨new, next, hb, hn, heq, by rw [hlen, List.length_zipIdx], hall⟩

theorem foldl_insertPair (random : Nat → ℚ) (es : List (PositionRow × Nat)) (db : Db F) :
    ∃ new next hb hn, es.foldl (Db.insertPair random) db =
        { db with jobPairs := ⟨db.jobPairs.rows ++ new, next, hb, hn⟩ } ∧
      new.length = es.length ∧
      ∀ p ∈ new, p.Fresh ∧ ∃ e ∈ es, p.testId = e.1.testId ∧ p.positionId = e.1.id := by
  induction es generalizing db with
  | nil =>
    refine ⟨[], db.jobPairs.next, by simpa using db.jobPairs.below,
      by simpa using db.jobPairs.nodup, ?_, rfl, by simp⟩
    simp
  | cons e es ih =>
    obtain ⟨new, next, hb, hn, heq, hlen, hall⟩ := ih (Db.insertPair random db e)
    let p : PairRow :=
      ⟨db.jobPairs.next, e.1.testId, e.1.id, .pending, random e.2, none, none, none, 0, none, none⟩
    have hrows : (Db.insertPair random db e).jobPairs.rows ++ new =
        db.jobPairs.rows ++ p :: new := by
      simp [Db.insertPair, p]
    refine ⟨p :: new, next, by simpa only [hrows] using hb, by simpa only [hrows] using hn,
      ?_, by simp [hlen], ?_⟩
    · rw [List.foldl_cons, heq]
      simp only [hrows]
      rfl
    · intro q hq
      rcases List.mem_cons.mp hq with rfl | hq
      · exact ⟨⟨rfl, rfl, rfl, rfl, rfl, rfl, rfl⟩, e, by simp, rfl, rfl⟩
      · obtain ⟨hf, e', he', ht, hp⟩ := hall q hq
        exact ⟨hf, e', by simp [he'], ht, hp⟩

/-- One fresh pair for each position of the test is appended. -/
theorem addPairs_spec (db : Db F) (testId : Int) (random : Nat → ℚ) :
    ∃ new next hb hn, db.addPairs testId random =
        { db with jobPairs := ⟨db.jobPairs.rows ++ new, next, hb, hn⟩ } ∧
      new.length = (db.positionsOf testId).length ∧
      ∀ p ∈ new, p.Fresh ∧ p.testId = testId ∧ ∃ op ∈ db.positions.rows, p.positionId = op.id := by
  obtain ⟨new, next, hb, hn, heq, hlen, hall⟩ :=
    foldl_insertPair random (db.positionsOf testId).zipIdx db
  refine ⟨new, next, hb, hn, heq, by rw [hlen, List.length_zipIdx], ?_⟩
  intro p hp
  obtain ⟨hf, e, he, ht, hi⟩ := hall p hp
  have hmem : e.1 ∈ db.positionsOf testId := (List.mem_zipIdx_iff_getElem?.mp he) |> List.mem_of_getElem?
  obtain ⟨hrow, htest⟩ := List.mem_filter.mp hmem
  exact ⟨hf, by rw [ht]; simpa using htest, e.1, hrow, hi⟩

theorem tests_addPositions (db : Db F) (testId : Int) (fens : List String) :
    (db.addPositions testId fens).tests = db.tests := by
  obtain ⟨_, _, _, _, h, -⟩ := addPositions_spec db testId fens
  rw [h]

theorem tests_addPairs (db : Db F) (testId : Int) (random : Nat → ℚ) :
    (db.addPairs testId random).tests = db.tests := by
  obtain ⟨_, _, _, _, h, -⟩ := addPairs_spec db testId random
  rw [h]

/-- All that queueing a test does to the database. -/
structure Enqueued (db : Db F) (testId : Int) (fens : List String) (vlog : String)
    (db' : Db F) : Prop where
  tests : db'.tests =
    db.tests.modify (·.id == testId) (.judge .queued vlog) (TestRow.judge_id .queued vlog)
  clients : db'.clients = db.clients
  games : db'.games = db.games
  testStats : db'.testStats = db.testStats
  history : db'.history = db.history
  positions : ∃ new, db'.positions.rows = db.positions.rows ++ new ∧ new.length = fens.length ∧
    ∀ op ∈ new, op.testId = testId
  pairs : ∃ new, db'.jobPairs.rows = db.jobPairs.rows ++ new ∧
    new.length = (db'.positionsOf testId).length ∧
    ∀ p ∈ new, p.Fresh ∧ p.testId = testId ∧ ∃ op ∈ db'.positions.rows, p.positionId = op.id

theorem enqueue_spec (db : Db F) (testId : Int) (fens : List String) (random : Nat → ℚ)
    (vlog : String) : Enqueued db testId fens vlog (db.enqueue testId fens random vlog) := by
  obtain ⟨ops, onext, hob, hon, hpos, holen, hotest⟩ := addPositions_spec db testId fens
  unfold Db.enqueue
  generalize db.addPositions testId fens = db₁ at hpos ⊢
  subst hpos
  obtain ⟨new, next, hb, hn, hpairs, hlen, hall⟩ := addPairs_spec _ testId random
  rw [hpairs]
  exact ⟨rfl, rfl, rfl, rfl, rfl, ⟨ops, rfl, holen, hotest⟩, ⟨new, rfl, hlen, hall⟩⟩

end CapiNet
