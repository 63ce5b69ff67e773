import CapiNet.LifecycleEffect
import CapiNet.Queue

namespace CapiNet

open Txn

variable {F : Type}

/-- The lifecycle leaves pairs, games, clients and positions alone. -/
structure SameQueue (db db' : Db F) : Prop where
  jobPairs : db'.jobPairs = db.jobPairs
  games : db'.games = db.games
  clients : db'.clients = db.clients
  positions : db'.positions = db.positions

theorem SameQueue.refl (db : Db F) : SameQueue db db := ⟨rfl, rfl, rfl, rfl⟩

theorem SameQueue.trans {db db' db'' : Db F} (h : SameQueue db db') (h' : SameQueue db' db'') :
    SameQueue db db'' :=
  ⟨h'.jobPairs.trans h.jobPairs, h'.games.trans h.games, h'.clients.trans h.clients,
    h'.positions.trans h.positions⟩

theorem SameQueue.updateTest (db : Db F) (id : Int) (f : TestRow → TestRow)
    (h : ∀ r, (f r).id = r.id) : SameQueue db (db.updateTest id f h) := ⟨rfl, rfl, rfl, rfl⟩

theorem SameQueue.record (db : Db F) (id : Int) (s : TestStats F) :
    SameQueue db (db.record id s) := by
  unfold Db.record Db.appendHistory Db.upsertStats
  split <;> exact ⟨rfl, rfl, rfl, rfl⟩

theorem Promoted.sameQueue {now : ℚ} {db db' : Db F} {r : Option Int}
    (h : Promoted now db r db') : SameQueue db db' := by
  cases h with
  | nothing _ => exact .refl db
  | next id _ => exact .updateTest db id _ _

theorem Refreshed.sameQueue [LinearOrder F] {N : Numerics F} {now : ℚ} {testId : Int}
    {db db' : Db F} (h : Refreshed N now testId db db') : SameQueue db db' := by
  cases h with
  | missing _ => exact .refl db
  | kept t r _ _ _ => exact .record db testId r.stats
  | finished t r result promoted _ _ _ _ _ hp =>
    exact ((SameQueue.record db testId r.stats).trans (.updateTest _ _ _ _)).trans hp.sameQueue

theorem ensures_updatePair {skip : Lock → Bool} {pairId : Int} {p : PairRow → Bool}
    {f : PairRow → PairRow} {h : ∀ r, (f r).id = r.id} {db : Db F} :
    Script.Ensures skip (updatePair pairId p f h) db fun n db' =>
      (n = 0 ∧ db' = db) ∨
      (n = 1 ∧ ∃ r, db.jobPairs.find pairId = some r ∧ p r = true ∧
        db' = db.updatePairs (·.id == pairId) f h) := by
  simp only [updatePair, Script.ensures_bind, Script.ensures_select]
  split
  next hp =>
    obtain ⟨r, hr, hpr⟩ : ∃ r, db.jobPairs.find pairId = some r ∧ p r = true := by
      cases hf : db.jobPairs.find pairId with
      | none => simp [hf] at hp
      | some r => exact ⟨r, rfl, by simpa [hf] using hp⟩
    simp only [Script.ensures_bind, Script.ensures_acquire, Script.ensures_select, hp, if_true,
      Script.ensures_update, Script.ensures_pure]
    exact .inr ⟨trivial, r, hr, hpr, trivial⟩
  next => exact Script.ensures_pure.mpr (.inl ⟨rfl, rfl⟩)

/-- Leasing some pairs to a client. -/
def Db.leaseTo (db : Db F) (picked : List Int) (clientId : Int) (now until_ : ℚ) : Db F :=
  db.updatePairs (fun p => decide (p.id ∈ picked)) (.lease clientId now until_)
    (PairRow.lease_id clientId now until_)

/-- A claim leases the first free pairs of the running test to its caller; without a running test
or a caller it only answers. -/
inductive Claimed (skip : Lock → Bool) (cfg : ServerConfig) (now : ℚ) (clientId slotsFree : Int)
    (db : Db F) : Finish ClaimResult → Db F → Prop
  | leased (t : TestRow) (c : ClientRow) (picked : List Int) (db' : Db F) (r : ClaimResult) :
      db.runningTest = some t → db.caller clientId = some c →
      picked = Script.unlocked (fun i => skip (.pair i)) (some (min slotsFree.toNat c.slots))
        (db.pendingIds t.id) →
      db' = db.leaseTo picked clientId now (now + leaseSeconds cfg t c) →
      r.pairs = db'.claimed picked → Claimed skip cfg now clientId slotsFree db (.commit r) db'
  | answered (r : ClaimResult) : db.runningTest = none ∨ db.caller clientId = none →
      r.pairs = [] → Claimed skip cfg now clientId slotsFree db (.commit r) db

theorem ensures_diagnoseClaim {skip : Lock → Bool} {clientId : Int} {db : Db F} :
    Script.Ensures skip (diagnoseClaim clientId) db fun fin db' =>
      db' = db ∧ ∃ r : ClaimResult, fin = .commit r ∧ r.pairs = [] := by
  simp only [diagnoseClaim, Script.ensures_bind, Script.ensures_select]
  split
  next => exact Script.ensures_pure.mpr ⟨rfl, _, rfl, rfl⟩
  next =>
    split
    next => exact Script.ensures_pure.mpr ⟨rfl, _, rfl, rfl⟩
    next =>
      split
      next => exact Script.ensures_pure.mpr ⟨rfl, _, rfl, rfl⟩
      next => exact Script.ensures_pure.mpr ⟨rfl, _, rfl, rfl⟩

theorem ensures_claimPairs {skip : Lock → Bool} {cfg : ServerConfig} {now : ℚ}
    {clientId slotsFree : Int} {db : Db F} :
    Script.Ensures skip (claimPairs cfg now clientId slotsFree) db
      (Claimed skip cfg now clientId slotsFree db) := by
  simp only [claimPairs, Script.ensures_bind, Script.ensures_select]
  split
  next a c hg =>
    obtain ⟨ha, hc⟩ := Prod.mk.inj hg
    simp only [Script.ensures_bind, Script.ensures_pick, Script.ensures_update,
      Script.ensures_select]
    split
    next hempty =>
      refine ensures_diagnoseClaim.mono ?_
      rintro fin db' ⟨rfl, r, rfl, hr⟩
      refine .leased a c _ _ r ha hc rfl rfl ?_
      rw [hr]
      exact (List.isEmpty_iff.mp hempty).symm
    next => exact Script.ensures_pure.mpr (.leased a c _ _ _ ha hc rfl rfl rfl)
  next hg =>
    refine ensures_diagnoseClaim.mono ?_
    rintro fin db' ⟨rfl, r, rfl, hr⟩
    refine .answered r ?_ hr
    cases ha : db'.runningTest with
    | none => exact .inl rfl
    | some a =>
      cases hc : db'.caller clientId with
      | none => exact .inr rfl
      | some c => exact absurd (by rw [ha, hc]) (hg a c)

/-- The pair and the games an accepted result writes. -/
def Db.deliver (E : Env F) (db : Db F) (now : ℚ) (p : PairRow) (report : PairReport) : Db F :=
  (List.finRange 2).foldl (fun db i => db.insertGame (gameRow E p.id p.testId report i))
    (db.updatePairs (·.id == p.id) (.complete now) (PairRow.complete_id now))

theorem Db.games_deliver (E : Env F) (db : Db F) (now : ℚ) (p : PairRow) (report : PairReport) :
    (db.deliver E now p report).games =
      db.games ++ [gameRow E p.id p.testId report 0, gameRow E p.id p.testId report 1] :=
  List.append_assoc db.games _ _

theorem Db.hasGame_insertGame (db : Db F) (row : GameRow) (i n : Int) :
    (db.insertGame row).hasGame i n =
      (db.hasGame i n || (row.pairId == i && row.gameInPair == n)) := by
  simp [Db.hasGame, Db.insertGame]

theorem ensures_insertGame {skip : Lock → Bool} {row : GameRow} {db : Db F} :
    Script.Ensures skip (insertGame row) db fun _ db' =>
      db.hasGame row.pairId row.gameInPair = false ∧ db' = db.insertGame row := by
  unfold insertGame
  split
  next => simp
  next =>
    simp only [Script.ensures_bind, Script.ensures_select]
    split
    next => simp
    next h => exact Script.ensures_update.mpr ⟨by simpa using h, rfl⟩

/-- Both games of a pair are inserted when neither is there. -/
theorem ensures_insertGames {skip : Lock → Bool} {row : Fin 2 → GameRow} {db : Db F} :
    Script.Ensures skip (Script.forEach (fun i => insertGame (row i)) (List.finRange 2)) db
      fun _ db' => (∀ i, db.hasGame (row i).pairId (row i).gameInPair = false) ∧
        db' = (List.finRange 2).foldl (fun db i => db.insertGame (row i)) db := by
  refine Script.ensures_bind.mpr (ensures_insertGame.mono ?_)
  rintro - _ ⟨h0, rfl⟩
  refine Script.ensures_bind.mpr (ensures_insertGame.mono ?_)
  rintro - _ ⟨h1, rfl⟩
  refine Script.ensures_pure.mpr ⟨fun i => ?_, rfl⟩
  rw [Db.hasGame_insertGame, Bool.or_eq_false_iff] at h1
  match i with
  | 0 => exact h0
  | 1 => exact h1.1

/-- A result is refused for one of the reasons of the guard and undone, or delivered. -/
inductive Submitted [LinearOrder F] (E : Env F) (now : ℚ) (pairId : Int) (report : PairReport)
    (db : Db F) : Finish SubmitResult → Db F → Prop
  | unknown (db' : Db F) : db.guard pairId report.clientId = none →
      Submitted E now pairId report db (.rollback ⟨.pairNotFound, 0⟩) db'
  | refused (p : PairRow) (g : Guard) (s : SubmitStatus) (db' : Db F) :
      db.jobPairs.find pairId = some p → db.guard pairId report.clientId = some g →
      refusal p g report.clientId = some s →
      Submitted E now pairId report db (.rollback ⟨s, 0⟩) db'
  | accepted (p : PairRow) (g : Guard) (db' : Db F) :
      db.jobPairs.find pairId = some p → db.guard pairId report.clientId = some g →
      refusal p g report.clientId = none →
      (∀ i, db.hasGame pairId (report.games i).gameInPair = false) →
      Refreshed E.numerics now p.testId (db.deliver E now p report) db' →
      Submitted E now pairId report db (.commit ⟨.accepted, validGames report⟩) db'

theorem ensures_submitResult [LinearOrder F] {skip : Lock → Bool} {E : Env F} {now : ℚ}
    {pairId : Int} {report : PairReport} {db : Db F} :
    Script.Ensures skip (submitResult E now pairId report) db
      (Submitted E now pairId report db) := by
  simp only [submitResult, Script.ensures_bind, Script.ensures_select]
  cases hg : db.guard pairId report.clientId with
  | none => exact Script.ensures_pure.mpr (.unknown db hg)
  | some g =>
    simp only [Script.ensures_bind, Script.ensures_acquire, Script.ensures_select]
    cases hp : db.jobPairs.find pairId with
    | none =>
      simp [Db.guard, hp] at hg
    | some p =>
      dsimp only
      cases hr : refusal p g report.clientId with
      | some s => exact Script.ensures_pure.mpr (.refused p g s db hp hg hr)
      | none =>
        obtain rfl : p.id = pairId := (Relational.Table.find_some hp).2
        simp only [Script.ensures_bind]
        refine ensures_updatePair.mono ?_
        rintro n db' (⟨rfl, rfl⟩ | ⟨rfl, r, -, -, rfl⟩)
        · simp
        · simp only [ne_eq, not_true_eq_false, if_false, Script.ensures_bind]
          refine ensures_insertGames.mono ?_
          rintro - _ ⟨hgames, rfl⟩
          refine ensures_refreshTest.mono fun _ db' href => Script.ensures_pure.mpr ?_
          exact .accepted p g db' hp hg hr hgames href

inductive Abandoned (pairId clientId : Int) (db : Db F) : Finish Bool → Db F → Prop
  | refused : Abandoned pairId clientId db (.commit false) db
  | released (p : PairRow) : db.jobPairs.find pairId = some p → p.leasedBy clientId = true →
      Abandoned pairId clientId db (.commit true)
        (db.updatePairs (·.id == pairId) .release PairRow.release_id)

theorem ensures_abandonPair {skip : Lock → Bool} {pairId clientId : Int} {db : Db F} :
    Script.Ensures skip (abandonPair pairId clientId) db (Abandoned pairId clientId db) := by
  simp only [abandonPair, Script.ensures_bind]
  refine ensures_updatePair.mono ?_
  rintro n db' (⟨rfl, rfl⟩ | ⟨rfl, p, hp, hl, rfl⟩)
  · exact Script.ensures_pure.mpr .refused
  · exact Script.ensures_pure.mpr (.released p hp hl)

/-- Refreshing some tests, one after the other. -/
inductive RefreshedAll [LinearOrder F] (N : Numerics F) (now : ℚ) : List Int → Db F → Db F → Prop
  | nil (db : Db F) : RefreshedAll N now [] db db
  | cons (t : Int) (ts : List Int) (db db' db'' : Db F) : Refreshed N now t db db' →
      RefreshedAll N now ts db' db'' → RefreshedAll N now (t :: ts) db db''

theorem ensures_refreshAll [LinearOrder F] {skip : Lock → Bool} {N : Numerics F} {now : ℚ}
    {ts : List Int} {db : Db F} :
    Script.Ensures skip (Script.forEach (refreshTest N now) ts) db fun _ db' =>
      RefreshedAll N now ts db db' := by
  induction ts generalizing db with
  | nil => exact Script.ensures_pure.mpr (.nil db)
  | cons t ts ih =>
    refine Script.ensures_bind.mpr (ensures_refreshTest.mono fun _ db' h => ?_)
    exact ih.mono fun _ db'' h' => .cons t ts db db' db'' h h'

theorem RefreshedAll.sameQueue [LinearOrder F] {N : Numerics F} {now : ℚ} {ts : List Int}
    {db db' : Db F} (h : RefreshedAll N now ts db db') : SameQueue db db' := by
  induction h with
  | nil db => exact .refl db
  | cons t ts db db' db'' h _ ih => exact h.sameQueue.trans ih

/-- Ending the leases of some pairs. -/
def Db.expire (db : Db F) (maxAttempts : Int) (expired : List Int) : Db F :=
  db.updatePairs (fun p => decide (p.id ∈ expired)) (.expire maxAttempts)
    (PairRow.expire_id maxAttempts)

/-- The tests that lost a pair. -/
def Db.bereft (db : Db F) (expired : List Int) : List Int :=
  (((db.jobPairs.rows.filter fun p => decide (p.id ∈ expired)).filter
    (·.status == .discarded)).map (·.testId)).dedup.insertionSort (· ≤ ·)

inductive Recovered [LinearOrder F] (skip : Lock → Bool) (E : Env F) (now : ℚ) (maxAttempts : Int)
    (db : Db F) : Finish LeaseRecovery → Db F → Prop
  | recovered (expired : List Int) (r : LeaseRecovery) (db' : Db F) :
      expired = Script.unlocked (fun i => skip (.pair i)) none (db.expired now) →
      RefreshedAll E.numerics now ((db.expire maxAttempts expired).bereft expired)
        (db.expire maxAttempts expired) db' →
      Recovered skip E now maxAttempts db (.commit r) db'

theorem ensures_recoverExpiredLeases [LinearOrder F] {skip : Lock → Bool} {E : Env F} {now : ℚ}
    {maxAttempts : Int} {db : Db F} :
    Script.Ensures skip (recoverExpiredLeases E now maxAttempts) db
      (Recovered skip E now maxAttempts db) := by
  simp only [recoverExpiredLeases, Script.ensures_bind, Script.ensures_pick,
    Script.ensures_update, Script.ensures_select]
  refine ensures_refreshAll.mono fun _ db' h => Script.ensures_pure.mpr ?_
  exact .recovered _ _ db' rfl h

end CapiNet
