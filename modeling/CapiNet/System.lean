import CapiNet.Admin
import CapiNet.Smoke
import CapiNet.Library.Interleaving

namespace CapiNet

open Txn

variable {F : Type}

/-- The transactions of the server, and the ban an operator sets by hand. -/
inductive Call
  | create (body : Json) (candidateCommit baselineCommit : String)
  | smoke (job : SmokeJob) (x : Examination) (random : Nat → ℚ)
  | promote
  | stop (testId : Int)
  | setPriority (testId priority : Int)
  | register (reg : ClientRegistration)
  | heartbeat (clientId : Int) (cpuFactor : Option Double)
  | ban (clientId : Int)
  | claim (clientId slotsFree : Int)
  | submit (pairId : Int) (report : RoutedReport)
  | abandon (pairId clientId : Int)
  | recover

inductive Reply
  | invalidSpec (message : String)
  | created (testId : Int)
  | smoke (r : SmokeReply)
  | promoted (testId : Option Int)
  | stop (r : StopOutcome)
  | priority (r : PriorityOutcome)
  | registered (r : RegisteredClient)
  | heartbeat (banned : Option Bool)
  | banned
  | claim (r : ClaimResult)
  | submit (r : SubmitResult)
  | abandon (released : Bool)
  | recovery (r : LeaseRecovery)

def ClientRow.ban (c : ClientRow) : ClientRow := { c with status := .banned }

@[simp] theorem ClientRow.ban_id (c : ClientRow) : c.ban.id = c.id := rfl

def ban (clientId : Int) : Tx F (Finish Unit) := do
  Script.update fun db =>
    { db with clients := db.clients.modify (·.id == clientId) .ban ClientRow.ban_id }
  return .commit ()

def Call.program [LinearOrder F] (E : Env F) (now : ℚ) : Call → Tx F (Finish Reply)
  | .create body candidateCommit baselineCommit =>
    match parseTestSpec body E.cfg.sprtPresets with
    | .error message => return .rollback (.invalidSpec message)
    | .ok s => Finish.map Reply.created <$> insertTest now s candidateCommit baselineCommit
  | .smoke job x random => Finish.map Reply.smoke <$> smokeFinish E now job x random
  | .promote => (Finish.commit ∘ Reply.promoted) <$> promoteNextTest now
  | .stop testId => Finish.map Reply.stop <$> stopTest now testId
  | .setPriority testId priority => Finish.map Reply.priority <$> CapiNet.setPriority testId priority
  | .register reg => Finish.map Reply.registered <$> registerClient reg
  | .heartbeat clientId cpuFactor =>
    Finish.map Reply.heartbeat <$> CapiNet.heartbeat clientId cpuFactor
  | .ban clientId => Finish.map (fun _ => Reply.banned) <$> CapiNet.ban clientId
  | .claim clientId slotsFree => Finish.map Reply.claim <$> claimPairs E.cfg now clientId slotsFree
  | .submit pairId report =>
    Finish.map Reply.submit <$> submitResult E now pairId report.toPairReport
  | .abandon pairId clientId => Finish.map Reply.abandon <$> abandonPair pairId clientId
  | .recover => Finish.map Reply.recovery <$> recoverExpiredLeases E now E.cfg.maxAttempts

/-- The database, and what the smoke worker remembers. -/
structure Server (F : Type) where
  db : Db F
  job : Option SmokeJob

inductive Act
  | call (c : Call)
  | smokeStart
  | smokeFinish (x : Examination) (random : Nat → ℚ)

/-- One step of a run: when it happens, and which pairs are locked elsewhere meanwhile. -/
structure Op where
  now : ℚ
  act : Act
  skip : Lock → Bool := fun _ => false

variable [LinearOrder F]

def Server.init : Server F := ⟨.empty, none⟩

def Call.atomically (E : Env F) (now : ℚ) (skip : Lock → Bool) (c : Call) (db : Db F) :
    Except Failure Reply × Db F :=
  Script.atomically skip (c.program E now) db

/-- The call a step makes. The worker calls with the job it picked before. -/
def Server.callOf (s : Server F) : Act → Option Call
  | .call (.smoke _ _ _) => none
  | .call c => some c
  | .smokeStart => none
  | .smokeFinish x random => s.job.map fun job => .smoke job x random

def Server.step (E : Env F) (s : Server F) (op : Op) : Server F where
  db := match s.callOf op.act with
    | some c => (c.atomically E op.now op.skip s.db).2
    | none => s.db
  job := match op.act with
    | .call _ => s.job
    | .smokeStart => s.db.smokeJob
    | .smokeFinish _ _ => none

def Server.reply (E : Env F) (s : Server F) (op : Op) : Option (Except Failure Reply) :=
  (s.callOf op.act).map fun c => (c.atomically E op.now op.skip s.db).1

def Server.runFrom (E : Env F) (s : Server F) (ops : List Op) : Server F :=
  ops.foldl (Server.step E) s

def Server.run (E : Env F) (ops : List Op) : Server F := Server.runFrom E .init ops

@[simp] theorem Server.runFrom_nil (E : Env F) (s : Server F) : Server.runFrom E s [] = s := rfl

@[simp] theorem Server.runFrom_cons (E : Env F) (s : Server F) (op : Op) (ops : List Op) :
    Server.runFrom E s (op :: ops) = Server.runFrom E (s.step E op) ops := rfl

theorem Server.run_append (E : Env F) (ops more : List Op) :
    Server.run E (ops ++ more) = Server.runFrom E (Server.run E ops) more := by
  simp [Server.run, Server.runFrom]

theorem Server.run_snoc (E : Env F) (ops : List Op) (op : Op) :
    Server.run E (ops ++ [op]) = (Server.run E ops).step E op := Server.run_append E ops [op]

/-- What holds of an empty server and is kept by every step holds after every run. -/
theorem Server.run_induction {E : Env F} {I : Server F → Prop} (init : I .init)
    (step : ∀ s op, I s → I (s.step E op)) (ops : List Op) : I (Server.run E ops) := by
  induction ops using List.reverseRecOn with
  | nil => exact init
  | append_singleton ops op ih =>
    rw [Server.run_snoc]
    exact step _ op ih

/-- The body of a gauntlet. -/
def gauntletBody (pairs : Int) : Json :=
  .obj [("kind", .str "gauntlet"), ("candidate_ref", .str "dev"), ("baseline_ref", .str "main"),
    ("tc", .str "10+1"), ("book_name", .str "book.epd"), ("total_pairs", .int pairs)]

/-- The gzip file of an empty input. -/
def emptyGzip : List UInt8 := [0x1f, 0x8b, 8, 0, 0, 0, 0, 0, 0, 3, 3, 0, 0, 0, 0, 0, 0, 0, 0, 0]

/-- The default configuration, over the reals; games come without their moves. -/
noncomputable def realEnv : Env ℝ := ⟨{}, realNumerics, fun _ => emptyGzip⟩

/-- A gauntlet is created, examined and promoted, and a client with two slots registers. -/
def opening (pairs : Int) : List Op :=
  [{ now := 0, act := .call (.create (gauntletBody pairs) "a" "b") },
   { now := 0, act := .smokeStart },
   { now := 0
     act := .smokeFinish
       ⟨"", .ok true, .ok (List.replicate pairs.toNat "8/8/8/8/8/8/8/K1k5 w - -")⟩ fun i => i },
   { now := 0, act := .call (.register ⟨"client", 2⟩) }]

example : (Server.run realEnv (opening 1)).db.runningTest.map (·.id) = some 1 := by decide +kernel

def drawnGame (k : Fin 2) : GameReport :=
  { gameInPair := k.val, candidateIsWhite := k.val == 0, outcome := .draw, termination := .normal
    plyCount := some 80, durationMs := some 9000, cpuFactorAtPlay := .ofInt 1
    tcBaseEffectiveMs := 10000, tcIncrementEffectiveMs := 100, slotIndex := 0, coreId := none
    pgn := "", candidateNodes := none, candidateTimeMs := none, baselineNodes := none
    baselineTimeMs := none }

/-- Two plausible games, both drawn. -/
def drawnReport (clientId : Int) : RoutedReport := ⟨⟨clientId, drawnGame⟩, fun _ => rfl⟩

end CapiNet
