import CapiNet.System
import CapiNet.ResultRoute
import CapiNet.SpecFaithful
import CapiNet.Runner

namespace CapiNet

/-- An answer: its status, and its body if that can be parsed. -/
structure Response where
  status : Int
  body : Json

namespace Request

def optDouble (j : Json) (key : String) : Except String (Option Double) :=
  match j.get key with
  | none => .ok none
  | some _ => some <$> reqDouble j key

end Request

structure DrawAdjudication where
  movenumber : Int
  movecount : Int
  scoreCp : Int
  deriving DecidableEq

structure ResignAdjudication where
  movecount : Int
  scoreCp : Int
  twosided : Bool
  deriving DecidableEq

structure Adjudication where
  draw : Option DrawAdjudication
  resign : Option ResignAdjudication
  deriving DecidableEq

/-- No statement writes the columns of the adjudication: every test has their defaults. -/
def defaultAdjudication : Adjudication := ⟨some ⟨34, 8, 20⟩, some ⟨5, 1000, true⟩⟩

/-- Nor the number of threads. -/
def defaultThreads : Int := 1

def TestKind.text : TestKind → String
  | .sprt => "sprt"
  | .gauntlet => "gauntlet"

namespace Routes

/-- What the routes read of the configuration, and how the database writes a time. -/
structure Config where
  githubCodeload : String := "https://codeload.github.com"
  githubRepo : String := "fatorius/capizero"
  benchReferenceCommit : String := ""
  timestamp : ℚ → String

def tarballUrl (cfg : Config) (sha : String) : String :=
  cfg.githubCodeload ++ "/" ++ cfg.githubRepo ++ "/tar.gz/" ++ sha

def sendError (status : Int) (error reason : String) : Response :=
  ⟨status, .obj (("error", .str error) :: if reason = "" then [] else [("reason", .str reason)])⟩

def parseBody (body : Json) : Except String Json :=
  if body.isObject then .ok body else .error "body must be a JSON object"

/-- The call of `POST /api/clients/{id}/heartbeat`. -/
def heartbeatCall (clientId : Int) (body : Json) : Except String Call := do
  let j ← parseBody body
  let cpuFactor ← Request.optDouble j "cpu_factor"
  if cpuFactor.any fun d => decide ¬0 < d.val then .error "cpu_factor must be positive"
  else return .heartbeat clientId cpuFactor

/-- The call of `POST /api/jobs/claim`. -/
def claimCall (body : Json) : Except String Call := do
  let j ← parseBody body
  let clientId ← Request.reqInt64 j "client_id"
  let slotsFree ← Request.reqInt j "slots_free" 0
  return .claim clientId slotsFree

/-- The call of `POST /api/jobs/{id}/result`. -/
def resultCall (pairId : Int) (body : Json) : Except String Call :=
  Call.submit pairId <$> resultReport body

/-- The call of `POST /api/jobs/{id}/abandon`. -/
def abandonCall (pairId : Int) (body : Json) : Except String Call := do
  let j ← parseBody body
  let clientId ← Request.reqInt64 j "client_id"
  return .abandon pairId clientId

def registerResponse (c : RegisteredClient) : Response :=
  if c.banned then ⟨403, .obj [("error", .str "client_banned"), ("client_id", .int c.clientId)]⟩
  else ⟨200, .obj [("client_id", .int c.clientId)]⟩

def heartbeatResponse : Option Bool → Response
  | none => sendError 404 "unknown_client" ""
  | some banned => ⟨200, .obj [("banned", .bool banned)]⟩

def adjudicationJson (a : Adjudication) : Json :=
  .obj [
    ("draw", nullable (fun d => .obj [("movenumber", .int d.movenumber),
      ("movecount", .int d.movecount), ("score_cp", .int d.scoreCp)]) a.draw),
    ("resign", nullable (fun r => .obj [("movecount", .int r.movecount),
      ("score_cp", .int r.scoreCp), ("twosided", .bool r.twosided)]) a.resign)]

/-- The answer of `GET /api/active_test` for the running test. -/
def activeTestResponse (cfg : Config) : Option TestRow → Response
  | none => ⟨204, .null⟩
  | some t => ⟨200, .obj [
      ("test_id", .int t.id), ("kind", .str t.kind.text),
      ("candidate_commit", .str t.candidateCommit), ("baseline_commit", .str t.baselineCommit),
      ("tc_base_ms", .int t.tcBaseMs), ("tc_increment_ms", .int t.tcIncrementMs),
      ("hash_mb", .int t.hashMb), ("threads", .int defaultThreads), ("book_name", .str t.bookName),
      ("candidate_tarball_url", .str (tarballUrl cfg t.candidateCommit)),
      ("baseline_tarball_url", .str (tarballUrl cfg t.baselineCommit)),
      ("adjudication", adjudicationJson defaultAdjudication),
      ("bench_reference_commit",
        if cfg.benchReferenceCommit = "" then .null else .str cfg.benchReferenceCommit)]⟩

def claimedPairJson (cfg : Config) (p : ClaimedPair) : Json :=
  .obj [("pair_id", .int p.pairId), ("position_id", .int p.positionId),
    ("position_seq", .int p.positionSeq), ("fen", .str p.fen),
    ("lease_expires_at", nullable (fun e => .str (cfg.timestamp e)) p.leaseExpiresAt)]

def claimResponse (cfg : Config) (r : ClaimResult) : Response :=
  match r.status with
  | .unknownClient => sendError 404 "unknown_client" ""
  | .banned => sendError 403 "client_banned" ""
  | .noActiveTest => ⟨204, .null⟩
  | .ok => ⟨200, .obj [("test_id", .int r.testId), ("pairs", .arr (r.pairs.map (claimedPairJson cfg)))]⟩

def submitResponse (r : SubmitResult) : Response :=
  match r.status with
  | .accepted => ⟨200, .obj [("status", .str "accepted"), ("valid_games", .int r.validGames)]⟩
  | .pairNotFound => sendError 404 "pair_not_found" ""
  | .unknownClient => sendError 404 "unknown_client" ""
  | .leaseLost => sendError 409 "conflict" "lease_lost"
  | .alreadyCompleted => sendError 409 "conflict" "already_completed"
  | .testFinished => sendError 409 "conflict" "test_finished"
  | .clientBanned => sendError 409 "conflict" "client_banned"

def abandonResponse (released : Bool) : Response :=
  if released then ⟨200, .obj [("status", .str "released")]⟩
  else sendError 409 "conflict" "lease_lost"

end Routes

namespace Json

/-- What a loop over a value goes through. -/
def items : Json → List Json
  | .arr xs => xs
  | .obj fields => fields.map (·.2)
  | .null => []
  | v => [v]

end Json

/-- A double without its fraction. -/
def Double.trunc (d : Double) : Int := d.val.num.tdiv d.val.den

namespace Api

/-- A failure of the transport or of the server is worth another try; anything else is not. -/
inductive Error
  | transient | protocol
  deriving DecidableEq

/-- `none` is an answer that did not arrive. -/
def request : Option Response → Except Error Response
  | none => .error .transient
  | some r => if 500 ≤ r.status then .error .transient else .ok r

def member (j : Json) (key : String) : Except Error Json :=
  match j.find key with
  | none => .error .protocol
  | some v => .ok v

def getInt64 : Json → Except Error Int
  | .int n => .ok (Json.toInt64 n)
  | .float d => .ok (Json.toInt64 d.trunc)
  | _ => .error .protocol

def getInt : Json → Except Error Int
  | .int n => .ok (Json.toInt32 n)
  | .float d => .ok (Json.toInt32 d.trunc)
  | .bool b => .ok (if b then 1 else 0)
  | _ => .error .protocol

def getBool : Json → Except Error Bool
  | .bool b => .ok b
  | _ => .error .protocol

def getString : Json → Except Error String
  | .str s => .ok s
  | _ => .error .protocol

def int64At (j : Json) (key : String) : Except Error Int := member j key >>= getInt64

def intAt (j : Json) (key : String) : Except Error Int := member j key >>= getInt

def boolAt (j : Json) (key : String) : Except Error Bool := member j key >>= getBool

def stringAt (j : Json) (key : String) : Except Error String := member j key >>= getString

def heartbeatBody (cpuFactor : Double) : Json := .obj [("cpu_factor", .float cpuFactor)]

def claimBody (clientId slotsFree : Int) : Json :=
  .obj [("client_id", .int clientId), ("slots_free", .int slotsFree)]

def abandonBody (clientId : Int) : Json := .obj [("client_id", .int clientId)]

def registerClient (answer : Option Response) : Except Error Int := do
  let r ← request answer
  if r.status ≠ 200 then .error .protocol else int64At r.body "client_id"

/-- Whether the client is banned. -/
def heartbeat (answer : Option Response) : Except Error Bool := do
  let r ← request answer
  if r.status ≠ 200 then .error .protocol else boolAt r.body "banned"

structure ActiveTest where
  testId : Int
  kind : String
  candidateCommit : String
  baselineCommit : String
  candidateTarballUrl : String
  baselineTarballUrl : String
  tcBaseMs : Int
  tcIncrementMs : Int
  hashMb : Int
  threads : Int
  adjudication : Adjudication
  deriving DecidableEq

def drawOf (d : Json) : Except Error DrawAdjudication := do
  let movenumber ← intAt d "movenumber"
  let movecount ← intAt d "movecount"
  let scoreCp ← intAt d "score_cp"
  return ⟨movenumber, movecount, scoreCp⟩

def resignOf (r : Json) : Except Error ResignAdjudication := do
  let movecount ← intAt r "movecount"
  let scoreCp ← intAt r "score_cp"
  let twosided ← boolAt r "twosided"
  return ⟨movecount, scoreCp, twosided⟩

/-- A rule that is present as an object. -/
def rule {α : Type} (adj : Json) (key : String) (f : Json → Except Error α) :
    Except Error (Option α) :=
  match adj.find key with
  | some v => if v.isObject then some <$> f v else .ok none
  | none => .ok none

def activeTest (answer : Option Response) : Except Error (Option ActiveTest) := do
  let r ← request answer
  if r.status = 204 then return none
  else if r.status ≠ 200 then .error .protocol
  else
    let b := r.body
    let testId ← int64At b "test_id"
    let kind ← stringAt b "kind"
    let candidateCommit ← stringAt b "candidate_commit"
    let baselineCommit ← stringAt b "baseline_commit"
    let candidateTarballUrl ← stringAt b "candidate_tarball_url"
    let baselineTarballUrl ← stringAt b "baseline_tarball_url"
    let tcBaseMs ← intAt b "tc_base_ms"
    let tcIncrementMs ← intAt b "tc_increment_ms"
    let hashMb ← intAt b "hash_mb"
    let threads ← intAt b "threads"
    let adj := (b.find "adjudication").getD .null
    let draw ← rule adj "draw" drawOf
    let resign ← rule adj "resign" resignOf
    return some {
      testId, kind, candidateCommit, baselineCommit, candidateTarballUrl, baselineTarballUrl
      tcBaseMs, tcIncrementMs, hashMb, threads, adjudication := ⟨draw, resign⟩ }

structure ClaimedPair where
  pairId : Int
  positionSeq : Int
  fen : String
  deriving DecidableEq

inductive ClaimStatus
  | ok | noActiveTest | banned
  deriving DecidableEq

structure ClaimResult where
  status : ClaimStatus := .ok
  testId : Int := 0
  pairs : List ClaimedPair := []

def claimedPair (p : Json) : Except Error ClaimedPair := do
  let pairId ← int64At p "pair_id"
  let positionSeq ← intAt p "position_seq"
  let fen ← stringAt p "fen"
  return ⟨pairId, positionSeq, fen⟩

def claim (answer : Option Response) : Except Error ClaimResult := do
  let r ← request answer
  if r.status = 204 then return { status := .noActiveTest }
  else if r.status = 403 then return { status := .banned }
  else if r.status ≠ 200 then .error .protocol
  else
    let testId ← int64At r.body "test_id"
    let pairs ← member r.body "pairs"
    let pairs ← pairs.items.mapM claimedPair
    return { testId, pairs }

inductive SubmitStatus
  | accepted | alreadyCompleted | leaseLost | testFinished | clientBanned
  deriving DecidableEq

/-- `value("reason", "")`. -/
def reasonOf (body : Json) : Except Error String :=
  match body.find "reason" with
  | none => .ok ""
  | some v => getString v

def submit (answer : Option Response) : Except Error SubmitStatus := do
  let r ← request answer
  if r.status = 200 then return .accepted
  else if r.status = 409 ∧ r.body.isObject then
    match ← reasonOf r.body with
    | "already_completed" => return .alreadyCompleted
    | "lease_lost" => return .leaseLost
    | "test_finished" => return .testFinished
    | "client_banned" => return .clientBanned
    | _ => .error .protocol
  else .error .protocol

/-- An answer of any kind will do. -/
def abandon (answer : Option Response) : Except Error Unit := do
  let _ ← request answer

end Api

end CapiNet
