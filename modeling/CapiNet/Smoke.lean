import CapiNet.Queue

namespace CapiNet

open Txn

def isBlank (c : Char) : Bool := [' ', '\t', '\n', '\x0b', '\x0c', '\r'].contains c

/-- Words between blanks, as `>>` reads them. -/
def words (line : List Char) : List String :=
  ((line.splitOnP isBlank).filter (!·.isEmpty)).map String.ofList

def isCounter (s : String) : Bool := !s.isEmpty && s.toList.all Char.isDigit

def boardChars : List Char := "pnbrqkPNBRQK12345678".toList

/-- A position of a book line, with counters supplied where the line has none. -/
def epdToFen (line : String) : Option String :=
  match words line.toList with
  | board :: side :: castling :: ep :: rest =>
    if board.toList.head? = some '#' then none
    else if side ≠ "w" ∧ side ≠ "b" then none
    else if !board.toList.all (fun c => c == '/' || boardChars.contains c) then none
    else if board.toList.count '/' ≠ 7 then none
    else
      let fen := board ++ " " ++ side ++ " " ++ castling ++ " " ++ ep
      match rest with
      | halfmove :: fullmove :: _ =>
        if isCounter halfmove && isCounter fullmove then
          some (fen ++ " " ++ halfmove ++ " " ++ fullmove)
        else some (fen ++ " 0 1")
      | _ => some (fen ++ " 0 1")
  | _ => none

structure SplitMix64 where
  state : UInt64

def SplitMix64.next (g : SplitMix64) : UInt64 × SplitMix64 :=
  let state := g.state + 0x9e3779b97f4a7c15
  let z := (state ^^^ (state >>> 30)) * 0xbf58476d1ce4e5b9
  let z := (z ^^^ (z >>> 27)) * 0x94d049bb133111eb
  (z ^^^ (z >>> 31), ⟨state⟩)

structure Reservoir where
  sample : List String
  rng : SplitMix64
  seen : UInt64

/-- Reservoir sampling: the first `k`, then each later one in a random place or nowhere. -/
def Reservoir.add (k : Nat) (r : Reservoir) (fen : String) : Reservoir :=
  if r.sample.length < k then { r with sample := r.sample ++ [fen], seen := r.seen + 1 }
  else
    let (draw, rng) := r.rng.next
    let j := (draw % (r.seen + 1)).toNat
    { sample := if j < k then r.sample.set j fen else r.sample, rng, seen := r.seen + 1 }

def sampleBook (lines : List String) (k : Nat) (seed : UInt64) : List String :=
  ((lines.filterMap epdToFen).foldl (Reservoir.add k) ⟨[], ⟨seed⟩, 0⟩).sample

theorem length_sample_foldl (fens : List String) (k : Nat) (r : Reservoir)
    (h : r.sample.length ≤ k) :
    (fens.foldl (Reservoir.add k) r).sample.length = min k (r.sample.length + fens.length) := by
  induction fens generalizing r with
  | nil => simp [h]
  | cons fen fens ih =>
    rw [List.foldl_cons]
    by_cases hk : r.sample.length < k
    · have hl : (Reservoir.add k r fen).sample.length = r.sample.length + 1 := by
        simp [Reservoir.add, hk]
      rw [ih _ (by omega), hl, List.length_cons]
      congr 1
      omega
    · have hl : (Reservoir.add k r fen).sample.length = r.sample.length := by
        simp only [Reservoir.add, hk, ↓reduceIte]
        split <;> simp
      rw [ih _ (by omega), hl, List.length_cons]
      omega

theorem length_sampleBook (lines : List String) (k : Nat) (seed : UInt64) :
    (sampleBook lines k seed).length = min k (lines.filterMap epdToFen).length := by
  simpa [sampleBook] using length_sample_foldl (lines.filterMap epdToFen) k ⟨[], ⟨seed⟩, 0⟩ (by simp)

/-- What the worker remembers of the test it examines. -/
structure SmokeJob where
  testId : Int
  candidate : String
  baseline : String
  bookName : String
  totalPairs : Int

/-- The test to examine: the first one that is validating. -/
def Db.smokeJob {F : Type} (db : Db F) : Option SmokeJob :=
  ((db.tests.rows.filter (·.status == .validating)).insertionSort (·.id ≤ ·.id)).head?.map fun t =>
    ⟨t.id, t.candidateCommit, t.baselineCommit, t.bookName, t.totalPairs⟩

/-- What building both engines and reading the book came to. An exception stops the examination. -/
structure Examination where
  buildLog : String
  built : Except String Bool
  book : Except String (List String)

/-- The validation log, and the sampled positions if the test passed. -/
def SmokeJob.examine (job : SmokeJob) (x : Examination) : String × Option (List String) :=
  match x.built with
  | .error what => (x.buildLog ++ "internal error: " ++ what ++ "\n", none)
  | .ok false => (x.buildLog, none)
  | .ok true =>
    match x.book with
    | .error what => (x.buildLog ++ "internal error: " ++ what ++ "\n", none)
    | .ok lines =>
      let positions := sampleBook lines job.totalPairs.toNat (UInt64.ofInt job.testId)
      if positions.length < job.totalPairs.toNat then
        (x.buildLog ++ "book " ++ job.bookName ++ " has only " ++ toString positions.length ++
          " positions, " ++ toString job.totalPairs ++ " required\n", none)
      else
        (x.buildLog ++ "sampled " ++ toString positions.length ++ " positions from " ++
          job.bookName ++ " (seed " ++ toString job.testId ++ ")\n", some positions)

namespace Db

variable {F : Type}

def insertPosition (testId : Int) (db : Db F) (e : String × Nat) : Db F :=
  let mk (id : Int) : PositionRow := ⟨id, testId, e.2 + 1, e.1⟩
  have mk_id : ∀ id, (mk id).id = id := fun _ => rfl
  { db with positions := db.positions.insert mk mk_id }

def positionsOf (db : Db F) (testId : Int) : List PositionRow :=
  db.positions.rows.filter (·.testId == testId)

/-- A pair as it is created; `random` gives its place in the dispatch order. -/
def insertPair (random : Nat → ℚ) (db : Db F) (e : PositionRow × Nat) : Db F :=
  let mk (id : Int) : PairRow :=
    ⟨id, e.1.testId, e.1.id, .pending, random e.2, none, none, none, 0, none, none⟩
  have mk_id : ∀ id, (mk id).id = id := fun _ => rfl
  { db with jobPairs := db.jobPairs.insert mk mk_id }

/-- The unique index on the live pairs of a position. -/
def hasLivePair (db : Db F) (op : PositionRow) : Bool :=
  db.jobPairs.rows.any fun p =>
    p.testId == op.testId && p.positionId == op.id && p.status != .discarded

end Db

def TestRow.judge (status : TestStatus) (vlog : String) (t : TestRow) : TestRow :=
  { t with status := status, validationLog := some vlog }

@[simp] theorem TestRow.judge_id (status : TestStatus) (vlog : String) (t : TestRow) :
    (t.judge status vlog).id = t.id := rfl

inductive SmokeReply
  | resultDiscarded | invalid | queued (promoted : Option Int)
  deriving DecidableEq

variable {F : Type}

/-- The last transaction of an examination: the pairs, the queue, and the promotion. -/
def smokeFinish [LinearOrder F] (E : Env F) (now : ℚ) (job : SmokeJob) (x : Examination)
    (random : Nat → ℚ) : Tx F (Finish SmokeReply) := do
  let (vlog, positions) := job.examine x
  Script.acquire (.test job.testId)
  match ← Script.select fun db => db.tests.find job.testId with
  | none => .raise .unexpectedRows
  | some t =>
    if t.status ≠ .validating then return .rollback .resultDiscarded
    else match positions with
      | none =>
        Script.update fun db => db.updateTest job.testId
          (.judge .invalid (vlog ++ "SMOKE TEST FAILED\n")) (TestRow.judge_id _ _)
        return .commit .invalid
      | some fens =>
        if ← Script.select fun db => (db.positionsOf job.testId).any fun op =>
            decide (1 ≤ op.seq ∧ op.seq ≤ fens.length) then
          .raise .uniqueViolation
        else
          Script.update fun db => fens.zipIdx.foldl (Db.insertPosition job.testId) db
          if ← Script.select fun db => (db.positionsOf job.testId).any db.hasLivePair then
            .raise .uniqueViolation
          else
            Script.update fun db =>
              (db.positionsOf job.testId).zipIdx.foldl (Db.insertPair random) db
            Script.update fun db => db.updateTest job.testId
              (.judge .queued (vlog ++ "SMOKE TEST PASSED\n")) (TestRow.judge_id _ _)
            refreshTest E.numerics now job.testId
            let promoted ← promoteNextTest now
            return .commit (.queued promoted)

end CapiNet
