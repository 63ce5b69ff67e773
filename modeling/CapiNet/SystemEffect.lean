import CapiNet.AdminEffect
import CapiNet.System

namespace CapiNet

open Txn Relational

variable {F : Type} [LinearOrder F]

/-- What a call can do to the database, and how it answers. -/
inductive Effect (E : Env F) (now : ℚ) (skip : Lock → Bool) (db : Db F) :
    Call → Finish Reply → Db F → Prop
  | invalidSpec (body : Json) (cc bc message : String) (db' : Db F) :
      Effect E now skip db (.create body cc bc) (.rollback (.invalidSpec message)) db'
  | create (body : Json) (cc bc : String) (s : TestSpec) (fin : Finish Int) (out : Finish Reply)
      (db' : Db F) : parseTestSpec body E.cfg.sprtPresets = .ok s → Inserted now s cc bc db fin db' →
      out = fin.map .created → Effect E now skip db (.create body cc bc) out db'
  | smoke (job : SmokeJob) (x : Examination) (random : Nat → ℚ) (fin : Finish SmokeReply)
      (out : Finish Reply) (db' : Db F) : Judged E now job x random db fin db' →
      out = fin.map .smoke → Effect E now skip db (.smoke job x random) out db'
  | promote (promoted : Option Int) (db' : Db F) : Promoted now db promoted db' →
      Effect E now skip db .promote (.commit (.promoted promoted)) db'
  | stop (testId : Int) (fin : Finish StopOutcome) (out : Finish Reply) (db' : Db F) :
      Stopped now testId db fin db' → out = fin.map .stop →
      Effect E now skip db (.stop testId) out db'
  | setPriority (testId priority : Int) (fin : Finish PriorityOutcome) (out : Finish Reply)
      (db' : Db F) : Prioritised testId priority db fin db' → out = fin.map .priority →
      Effect E now skip db (.setPriority testId priority) out db'
  | register (reg : ClientRegistration) (r : RegisteredClient) :
      Effect E now skip db (.register reg) (.commit (.registered r)) (db.upsertClient reg)
  | heartbeat (clientId : Int) (cpuFactor : Option Double) (r : Option Bool) :
      Effect E now skip db (.heartbeat clientId cpuFactor) (.commit (.heartbeat r))
        { db with
          clients := db.clients.modify (·.id == clientId) (.beat cpuFactor)
            (ClientRow.beat_id cpuFactor) }
  | ban (clientId : Int) :
      Effect E now skip db (.ban clientId) (.commit .banned)
        { db with clients := db.clients.modify (·.id == clientId) .ban ClientRow.ban_id }
  | claim (clientId slotsFree : Int) (fin : Finish ClaimResult) (out : Finish Reply) (db' : Db F) :
      Claimed skip E.cfg now clientId slotsFree db fin db' → out = fin.map .claim →
      Effect E now skip db (.claim clientId slotsFree) out db'
  | submit (pairId : Int) (report : RoutedReport) (fin : Finish SubmitResult) (out : Finish Reply)
      (db' : Db F) : Submitted E now pairId report.toPairReport db fin db' →
      out = fin.map .submit → Effect E now skip db (.submit pairId report) out db'
  | abandon (pairId clientId : Int) (fin : Finish Bool) (out : Finish Reply) (db' : Db F) :
      Abandoned pairId clientId db fin db' → out = fin.map .abandon →
      Effect E now skip db (.abandon pairId clientId) out db'
  | recover (fin : Finish LeaseRecovery) (out : Finish Reply) (db' : Db F) :
      Recovered skip E now E.cfg.maxAttempts db fin db' → out = fin.map .recovery →
      Effect E now skip db .recover out db'

@[simp] theorem finish_map_commit {α β : Type} (f : α → β) (a : α) :
    (Finish.commit a).map f = .commit (f a) := rfl

@[simp] theorem finish_map_rollback {α β : Type} (f : α → β) (a : α) :
    (Finish.rollback a).map f = .rollback (f a) := rfl

theorem ensures_program {E : Env F} {now : ℚ} {skip : Lock → Bool} {db : Db F} (c : Call) :
    Script.Ensures skip (c.program E now) db (Effect E now skip db c) := by
  cases c with
  | create body cc bc =>
    simp only [Call.program]
    cases hs : parseTestSpec body E.cfg.sprtPresets with
    | error message => exact Script.ensures_pure.mpr (.invalidSpec body cc bc message db)
    | ok s =>
      exact Script.Ensures.map
        (ensures_insertTest.mono fun fin db' h => .create body cc bc s fin _ db' hs h rfl)
  | smoke job x random =>
    exact Script.Ensures.map 
      (ensures_smokeFinish.mono fun fin db' h => .smoke job x random fin _ db' h rfl)
  | promote =>
    exact Script.Ensures.map (ensures_promoteNextTest.mono fun promoted db' => .promote promoted db')
  | stop testId =>
    exact Script.Ensures.map (ensures_stopTest.mono fun fin db' h => .stop testId fin _ db' h rfl)
  | setPriority testId priority =>
    exact Script.Ensures.map
      (ensures_setPriority.mono fun fin db' h => .setPriority testId priority fin _ db' h rfl)
  | register reg =>
    refine Script.Ensures.map ?_
    simp only [registerClient, Script.ensures_bind, Script.ensures_update, Script.ensures_select]
    split
    next => simp
    next => exact Script.ensures_pure.mpr (.register reg _)
  | heartbeat clientId cpuFactor =>
    refine Script.Ensures.map ?_
    simp only [heartbeat, Script.ensures_bind, Script.ensures_update, Script.ensures_select,
      Script.ensures_pure]
    exact .heartbeat clientId cpuFactor _
  | ban clientId =>
    refine Script.Ensures.map ?_
    simp only [ban, Script.ensures_bind, Script.ensures_update, Script.ensures_pure]
    exact .ban clientId
  | claim clientId slotsFree =>
    exact Script.Ensures.map
      (ensures_claimPairs.mono fun fin db' h => .claim clientId slotsFree fin _ db' h rfl)
  | submit pairId report =>
    exact Script.Ensures.map
      (ensures_submitResult.mono fun fin db' h => .submit pairId report fin _ db' h rfl)
  | abandon pairId clientId =>
    exact Script.Ensures.map
      (ensures_abandonPair.mono fun fin db' h => .abandon pairId clientId fin _ db' h rfl)
  | recover =>
    exact Script.Ensures.map
      (ensures_recoverExpiredLeases.mono fun fin db' h => .recover fin _ db' h rfl)

theorem Call.ended (E : Env F) (now : ℚ) (skip : Lock → Bool) (c : Call) (db : Db F) :
    Script.Ended (Effect E now skip db c) db (c.atomically E now skip db).1
      (c.atomically E now skip db).2 :=
  (ensures_program c).ended

end CapiNet
