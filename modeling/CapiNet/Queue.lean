import CapiNet.Lifecycle
import CapiNet.Sanity

namespace CapiNet

open Txn

variable {F : Type}

structure ServerConfig where
  leaseTtlMin : ℚ := 600
  maxAttempts : Int := 5
  sprtPresets : SprtPresets := {}

/-- What a server runs with: its configuration, its numerics and the compression it calls. -/
structure Env (F : Type) where
  cfg : ServerConfig
  numerics : Numerics F
  gzipCompress : String → List UInt8

structure ClientRegistration where
  name : String
  slots : Nat

structure RegisteredClient where
  clientId : Int
  banned : Bool
  deriving DecidableEq

/-- A ban survives every statement that refreshes the status. -/
def ClientStatus.refreshed (s : ClientStatus) : ClientStatus :=
  if s = .banned then s else .active

def ClientRow.ofRegistration (reg : ClientRegistration) (id : Int) : ClientRow :=
  ⟨id, reg.name, reg.slots, none, .active⟩

def ClientRow.reregister (reg : ClientRegistration) (c : ClientRow) : ClientRow :=
  { c with slots := reg.slots, status := c.status.refreshed }

@[simp] theorem ClientRow.ofRegistration_id (reg : ClientRegistration) (id : Int) :
    (ofRegistration reg id).id = id := rfl

@[simp] theorem ClientRow.reregister_id (reg : ClientRegistration) (c : ClientRow) :
    (c.reregister reg).id = c.id := rfl

def Db.upsertClient (db : Db F) (reg : ClientRegistration) : Db F :=
  if db.clients.rows.any (·.name == reg.name) then
    { db with
      clients := db.clients.modify (·.name == reg.name) (.reregister reg)
        (ClientRow.reregister_id reg) }
  else { db with clients := db.clients.insert (.ofRegistration reg) (ClientRow.ofRegistration_id reg) }

def registerClient (reg : ClientRegistration) : Tx F (Finish RegisteredClient) := do
  Script.update (·.upsertClient reg)
  match ← Script.select fun db => db.clients.rows.find? (·.name == reg.name) with
  | none => .raise .unexpectedRows
  | some c => return .commit ⟨c.id, c.status == .banned⟩

def ClientRow.beat (cpuFactor : Option Double) (c : ClientRow) : ClientRow :=
  { c with cpuFactor := cpuFactor.or c.cpuFactor, status := c.status.refreshed }

@[simp] theorem ClientRow.beat_id (cpuFactor : Option Double) (c : ClientRow) :
    (c.beat cpuFactor).id = c.id := rfl

/-- `none` for an unknown client, otherwise whether it is banned. -/
def heartbeat (clientId : Int) (cpuFactor : Option Double) : Tx F (Finish (Option Bool)) := do
  Script.update fun db =>
    { db with
      clients := db.clients.modify (·.id == clientId) (.beat cpuFactor)
        (ClientRow.beat_id cpuFactor) }
  let r ← Script.select fun db => db.clients.find clientId
  return .commit (r.map (·.status == .banned))

inductive ClaimStatus
  | ok | unknownClient | banned | noActiveTest
  deriving DecidableEq

structure ClaimedPair where
  pairId : Int
  positionId : Int
  positionSeq : Nat
  fen : String
  leaseExpiresAt : Option ℚ

structure ClaimResult where
  status : ClaimStatus := .ok
  testId : Int := 0
  pairs : List ClaimedPair := []

/-- A lease outlasts six times the estimated duration of the pair. -/
def leaseSeconds (cfg : ServerConfig) (t : TestRow) (c : ClientRow) : ℚ :=
  let estPairMs : ℚ := 4 * (t.tcBaseMs + 60 * t.tcIncrementMs)
  max cfg.leaseTtlMin (6 * estPairMs * (c.cpuFactor.elim 1 Double.val) / 1000)

namespace Db

/-- The client of a call, unless it is banned. -/
def caller (db : Db F) (clientId : Int) : Option ClientRow :=
  (db.clients.find clientId).filter (·.status != .banned)

/-- Pending pairs of a test, in dispatch order. -/
def pendingIds (db : Db F) (testId : Int) : List Int :=
  (((db.pairsOf testId).filter (·.status == .pending)).insertionSort
    fun p q => p.dispatchOrder ≤ q.dispatchOrder).map (·.id)

/-- The pairs just leased, by identity, with their positions. -/
def claimed (db : Db F) (picked : List Int) : List ClaimedPair :=
  (db.jobPairs.rows.filter fun p => decide (p.id ∈ picked)).filterMap fun p =>
    (db.positions.find p.positionId).map fun op => ⟨p.id, p.positionId, op.seq, op.fen, p.leaseExpiresAt⟩

end Db

def PairRow.lease (clientId : Int) (now until_ : ℚ) (p : PairRow) : PairRow :=
  { p with
    status := .leased, leasedTo := some clientId, leasedAt := some now
    leaseExpiresAt := some until_, attempts := p.attempts + 1 }

@[simp] theorem PairRow.lease_id (clientId : Int) (now until_ : ℚ) (p : PairRow) :
    (p.lease clientId now until_).id = p.id := rfl

/-- Nothing was delivered: reads only for the answer. -/
def diagnoseClaim (clientId : Int) : Tx F (Finish ClaimResult) := do
  match ← Script.select fun db => (db.clients.find clientId, db.runningTest) with
  | (none, _) => return .commit { status := .unknownClient }
  | (some c, test) =>
    if c.status = .banned then return .commit { status := .banned }
    else match test with
      | none => return .commit { status := .noActiveTest }
      | some t => return .commit { testId := t.id }

def claimPairs (cfg : ServerConfig) (now : ℚ) (clientId slotsFree : Int) :
    Tx F (Finish ClaimResult) := do
  match ← Script.select fun db => (db.runningTest, db.caller clientId) with
  | (some a, some c) =>
    let picked ← Script.pick (·.pendingIds a.id) .pair (some (min slotsFree.toNat c.slots))
    Script.update fun db => db.updatePairs (fun p => decide (p.id ∈ picked))
      (PairRow.lease clientId now (now + leaseSeconds cfg a c)) (PairRow.lease_id _ _ _)
    let pairs ← Script.select (·.claimed picked)
    if pairs.isEmpty then diagnoseClaim clientId
    else return .commit { testId := a.id, pairs }
  | _ => diagnoseClaim clientId

inductive SubmitStatus
  | accepted | pairNotFound | unknownClient | leaseLost | alreadyCompleted | testFinished
  | clientBanned
  deriving DecidableEq

structure SubmitResult where
  status : SubmitStatus
  validGames : Nat := 0
  deriving DecidableEq

/-- What the guard reads beside the pair: the test and the client as the snapshot has them. -/
structure Guard where
  testStatus : TestStatus
  clientStatus : Option ClientStatus

def Db.guard (db : Db F) (pairId clientId : Int) : Option Guard := do
  let p ← db.jobPairs.find pairId
  let t ← db.tests.find p.testId
  return ⟨t.status, (db.clients.find clientId).map (·.status)⟩

/-- The reasons to refuse a result, in the order they are tried. -/
def refusal (p : PairRow) (g : Guard) (clientId : Int) : Option SubmitStatus :=
  let mine := p.leasedTo = some clientId
  if g.clientStatus = none then some .unknownClient
  else if g.clientStatus = some .banned then some .clientBanned
  else if p.status = .completed ∧ mine then some .alreadyCompleted
  else if g.testStatus ≠ .running then some .testFinished
  else if p.status ≠ .leased ∨ ¬mine then some .leaseLost
  else none

def PairRow.leasedBy (clientId : Int) (p : PairRow) : Bool :=
  p.status == .leased && p.leasedTo == some clientId

def PairRow.complete (now : ℚ) (p : PairRow) : PairRow :=
  { p with status := .completed, completedAt := some now }

@[simp] theorem PairRow.complete_id (now : ℚ) (p : PairRow) : (p.complete now).id = p.id := rfl

def gameRow (E : Env F) (pairId testId : Int) (report : PairReport) (i : Fin 2) : GameRow :=
  let game := report.games i
  let v := checkPair report i
  { pairId, testId, clientId := report.clientId
    slotIndex := game.slotIndex, coreId := game.coreId, gameInPair := game.gameInPair
    candidateIsWhite := game.candidateIsWhite
    outcome := game.outcome, termination := game.termination
    plyCount := game.plyCount, durationMs := game.durationMs
    cpuFactorAtPlay := game.cpuFactorAtPlay
    tcBaseEffectiveMs := game.tcBaseEffectiveMs
    tcIncrementEffectiveMs := game.tcIncrementEffectiveMs
    valid := v.valid, invalidReason := if v.valid then none else some v.reason
    candidateNodes := game.candidateNodes, candidateTimeMs := game.candidateTimeMs
    baselineNodes := game.baselineNodes, baselineTimeMs := game.baselineTimeMs
    pgnGz := E.gzipCompress game.pgn }

/-- The constraints of `games`, then the row. -/
def insertGame (row : GameRow) : Tx F Unit := do
  if ¬(row.gameInPair = 0 ∨ row.gameInPair = 1) then .raise .checkViolation
  else if ← Script.select fun db => db.hasGame row.pairId row.gameInPair then
    .raise .uniqueViolation
  else Script.update (·.insertGame row)

def validGames (report : PairReport) : Nat :=
  (List.finRange 2).countP fun i => (checkPair report i).valid

/-- The pair is locked before its ownership is decided; the test and the client are read from
the snapshot of that statement and not locked. -/
def submitResult [LinearOrder F] (E : Env F) (now : ℚ) (pairId : Int) (report : PairReport) :
    Tx F (Finish SubmitResult) := do
  match ← Script.select (·.guard pairId report.clientId) with
  | none => return .rollback ⟨.pairNotFound, 0⟩
  | some g =>
    Script.acquire (.pair pairId)
    match ← Script.select fun db => db.jobPairs.find pairId with
    | none => return .rollback ⟨.pairNotFound, 0⟩
    | some p =>
      match refusal p g report.clientId with
      | some s => return .rollback ⟨s, 0⟩
      | none =>
        let updated ← updatePair pairId (PairRow.leasedBy report.clientId) (PairRow.complete now)
          (PairRow.complete_id now)
        if updated ≠ 1 then .raise .unexpectedRows
        else
          Script.forEach (fun i => insertGame (gameRow E pairId p.testId report i)) (List.finRange 2)
          refreshTest E.numerics now p.testId
          return .commit ⟨.accepted, validGames report⟩

def PairRow.release (p : PairRow) : PairRow :=
  { p with status := .pending, leasedTo := none, leasedAt := none, leaseExpiresAt := none }

@[simp] theorem PairRow.release_id (p : PairRow) : p.release.id = p.id := rfl

def abandonPair (pairId clientId : Int) : Tx F (Finish Bool) := do
  let updated ← updatePair pairId (PairRow.leasedBy clientId) PairRow.release PairRow.release_id
  return .commit (updated = 1)

structure LeaseRecovery where
  requeued : Nat
  discarded : Nat
  deriving DecidableEq

def Db.expired (db : Db F) (now : ℚ) : List Int :=
  (db.jobPairs.rows.filter fun p =>
    p.status == .leased && p.leaseExpiresAt.any fun e => decide (e < now)).map (·.id)

/-- A pair that used up its attempts keeps the columns of its last lease. -/
def PairRow.expire (maxAttempts : Int) (p : PairRow) : PairRow :=
  { p with
    status := if maxAttempts ≤ p.attempts then .discarded else .pending
    discardedReason := if maxAttempts ≤ p.attempts then some "too_many_attempts" else none
    leasedTo := if maxAttempts ≤ p.attempts then p.leasedTo else none
    leasedAt := if maxAttempts ≤ p.attempts then p.leasedAt else none
    leaseExpiresAt := if maxAttempts ≤ p.attempts then p.leaseExpiresAt else none }

@[simp] theorem PairRow.expire_id (maxAttempts : Int) (p : PairRow) :
    (p.expire maxAttempts).id = p.id := rfl

def recoverExpiredLeases [LinearOrder F] (E : Env F) (now : ℚ) (maxAttempts : Int) :
    Tx F (Finish LeaseRecovery) := do
  let expired ← Script.pick (·.expired now) .pair none
  Script.update fun db => db.updatePairs (fun p => decide (p.id ∈ expired))
    (PairRow.expire maxAttempts) (PairRow.expire_id maxAttempts)
  let rows ← Script.select fun db => db.jobPairs.rows.filter fun p => decide (p.id ∈ expired)
  let discarded := rows.filter (·.status == .discarded)
  -- a discard may have consumed the last pair of its test
  Script.forEach (refreshTest E.numerics now)
    ((discarded.map (·.testId)).dedup.insertionSort (· ≤ ·))
  return .commit ⟨(rows.filter (·.status != .discarded)).length, discarded.length⟩

end CapiNet
