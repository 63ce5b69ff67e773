import CapiNet.Concurrent
import CapiNet.SmokeEffect

namespace CapiNet

open Txn Relational

variable {F : Type} {P : Protocol (Db F) Lock} {may : List Lock → Lock → Db F → Prop}
  {held : List Lock} {w : Db F → Db F} {s : Db F}

/-- An update of one pair that finds it locks it. -/
theorem wp_updatePair {i : Int} {p : PairRow → Bool} {f : PairRow → PairRow}
    {hf : ∀ r, (f r).id = r.id} {Q : Nat → List Lock → (Db F → Db F) → Db F → Prop}
    (missed : ∀ keys t, P.Rely held s t → Q 0 (keys ++ held) w t)
    (updated : ∀ r t, P.Rely held s t → (w t).jobPairs.find i = some r → p r = true →
      Q 1 (.pair i :: held) (fun db => (w db).updatePairs (·.id == i) f hf) t) :
    (updatePair i p f hf).wp P may Q held w s := by
  simp only [updatePair, Script.select_bind, Script.wp_query]
  intro t ht
  split
  next =>
    simp only [Script.acquire_bind, Script.wp_lock, Script.wp_query]
    intro u hu _ v hv
    have hsv : P.Rely held s v := (ht.trans hu).trans hv.tail
    split
    next hany =>
      obtain ⟨r, hr, hpr⟩ := (Option.any_eq_true _ _).mp hany
      exact updated r v hsv hr hpr
    next => exact missed [Lock.pair i] v hsv
  next => exact missed [] t ht

theorem wp_insertGame {row : GameRow} {Q : Unit → List Lock → (Db F → Db F) → Db F → Prop}
    (inserted : ∀ t, P.Rely held s t → Q () held (fun db => (w db).insertGame row) t) :
    (insertGame row).wp P may Q held w s := by
  unfold insertGame
  split
  next => trivial
  next =>
    simp only [Script.select_bind, Script.wp_query]
    intro t ht
    split
    next => trivial
    next => exact inserted t ht

theorem wp_diagnoseClaim {clientId : Int}
    {Q : Finish ClaimResult → List Lock → (Db F → Db F) → Db F → Prop}
    (answered : ∀ r t, P.Rely held s t → Q r held w t) :
    (diagnoseClaim clientId).wp P may Q held w s := by
  simp only [diagnoseClaim, Script.select_bind, Script.wp_query]
  intro t ht
  split
  next => exact answered _ t ht
  next =>
    split
    next => exact answered _ t ht
    next =>
      split
      next => exact answered _ t ht
      next => exact answered _ t ht

/-- A claim leases pending pairs of the running test, once it has locked them. -/
theorem wp_claimPairs_running {cfg : ServerConfig} {now : ℚ} {clientId slotsFree : Int}
    {Q : Finish ClaimResult → List Lock → (Db F → Db F) → Db F → Prop}
    (nothing : ∀ r t, P.Rely held s t → Q r held w t)
    (leased : ∀ a c (got : List Int) r t u v, P.Rely held s t → (w t).runningTest = some a →
      P.Rely held t u → got.Sublist ((w u).pendingIds a.id) →
      P.Rely (got.map Lock.pair ++ held) u v →
      Q r (got.map Lock.pair ++ held) (fun db => (w db).updatePairs (fun p => decide (p.id ∈ got))
        (PairRow.lease clientId now (now + leaseSeconds cfg a c)) (PairRow.lease_id _ _ _)) v) :
    (claimPairs cfg now clientId slotsFree).wp P may Q held w s := by
  simp only [claimPairs, Script.select_bind, Script.wp_query]
  intro t ht
  split
  next a c heq =>
    have hrun : (w t).runningTest = some a := congrArg Prod.fst heq
    simp only [Script.pick_bind, Script.wp_skipLocked, Script.update_bind, Script.wp_write,
      Script.wp_query]
    intro u got hu hgot _ v hv
    split
    next =>
      exact wp_diagnoseClaim fun r x hx => leased a c got r t u x ht hrun hu hgot (hv.trans hx)
    next => exact leased a c got _ t u v ht hrun hu hgot hv
  next => exact wp_diagnoseClaim fun r u hu => nothing r u (ht.trans hu)

/-- A claim leases pending pairs it has locked, if there is a running test and the client may. -/
theorem wp_claimPairs {cfg : ServerConfig} {now : ℚ} {clientId slotsFree : Int}
    {Q : Finish ClaimResult → List Lock → (Db F → Db F) → Db F → Prop}
    (nothing : ∀ r t, P.Rely held s t → Q r held w t)
    (leased : ∀ a c (got : List Int) r t u, P.Rely held s t → got.Sublist ((w t).pendingIds a.id) →
      P.Rely (got.map Lock.pair ++ held) t u →
      Q r (got.map Lock.pair ++ held) (fun db => (w db).updatePairs (fun p => decide (p.id ∈ got))
        (PairRow.lease clientId now (now + leaseSeconds cfg a c)) (PairRow.lease_id _ _ _)) u) :
    (claimPairs cfg now clientId slotsFree).wp P may Q held w s :=
  wp_claimPairs_running nothing fun a c got r _ u v ht _ hu => leased a c got r u v (ht.trans hu)

/-- A promotion locks the row of the test it has picked from an earlier state. -/
theorem wp_promoteNextTest {now : ℚ} {Q : Option Int → List Lock → (Db F → Db F) → Db F → Prop}
    (idle : ∀ t u, P.Rely held s t → P.Rely (.promotion :: held) t u →
      Q none (.promotion :: held) w u)
    (promoted : ∀ id t u v x, P.Rely held s t → P.Rely (.promotion :: held) t u →
      promotionTarget (w u) = some id → P.Rely (.promotion :: held) u v →
      may (.promotion :: held) (.promoted id) v → P.Rely (.test id :: .promotion :: held) v x →
      Q (some id) (.test id :: .promotion :: held)
        (fun db => (w db).updateTest id (.run now) (TestRow.run_id now)) x) :
    (promoteNextTest now).wp P may Q held w s := by
  simp only [promoteNextTest, Script.acquire_bind, Script.wp_lock, Script.select_bind,
    Script.wp_query]
  intro t ht _ u hu
  cases htarget : promotionTarget (w u) with
  | none => exact idle t u ht hu
  | some id =>
    simp only [Script.wp_lock, Script.wp_query]
    intro v hv hmay x hx
    split
    next => trivial
    next => exact promoted id t u v x ht hu htarget hv hmay hx

theorem wp_finishTest {now : ℚ} {testId : Int} {result : TestResult}
    {Q : Unit → List Lock → (Db F → Db F) → Db F → Prop} :
    (finishTest now testId result).wp P may Q held w s ↔
      (promoteNextTest now).wp P may (fun _ => Q ()) held
        (fun db => (w db).updateTest testId (.finish now result) (TestRow.finish_id now result)) s := by
  simp only [finishTest, Script.update_bind, Script.wp_write, Script.wp_bind]
  rfl

/-- What a recomputation has read before it records: the row at `u`, the pairs at `v`, the games
at `x`. It has asked for the row at `t`. -/
structure Recounted [LinearOrder F] (P : Protocol (Db F) Lock)
    (may : List Lock → Lock → Db F → Prop) (N : Numerics F) (testId : Int) (held : List Lock)
    (w : Db F → Db F) (s : Db F) (row : TestRow) (r : Recomputed F) (t u v x : Db F) : Prop where
  asked : P.Rely held s t
  allowed : may held (.test testId) t
  locked : P.Rely (.test testId :: held) t u
  found : (w u).tests.find testId = some row
  pairs : P.Rely (.test testId :: held) u v
  games : P.Rely (.test testId :: held) v x
  result : ∃ penta, tally ((w v).countScores testId) = .ok penta ∧
    recompute N row penta ((w x).countGames testId .candidateWin)
      ((w x).countGames testId .draw) ((w x).countGames testId .candidateLoss) = .ok r

theorem Recounted.later [LinearOrder F] {N : Numerics F} {testId : Int} {row : TestRow}
    {r : Recomputed F} {t u v x : Db F} (h : Recounted P may N testId held w s row r t u v x) :
    P.Rely (.test testId :: held) u x :=
  h.pairs.trans h.games

/-- A recomputation records, and finishes a running test that has its verdict. -/
theorem wp_refreshTest [LinearOrder F] {N : Numerics F} {now : ℚ} {testId : Int}
    {Q : Unit → List Lock → (Db F → Db F) → Db F → Prop}
    (missing : ∀ t u, P.Rely held s t → P.Rely (.test testId :: held) t u →
      (w u).tests.find testId = none → Q () (.test testId :: held) w u)
    (kept : ∀ row r t u v x y, Recounted P may N testId held w s row r t u v x →
      P.Rely (.test testId :: held) x y →
      Q () (.test testId :: held) (fun db => (w db).record testId r.stats) y)
    (finished : ∀ row r t u v x y n result, Recounted P may N testId held w s row r t u v x →
      P.Rely (.test testId :: held) x y → row.status = .running →
      verdict row r.decision n = some result →
      (finishTest now testId result).wp P may Q (.test testId :: held)
        (fun db => (w db).record testId r.stats) y) :
    (refreshTest N now testId).wp P may Q held w s := by
  simp only [refreshTest, Script.acquire_bind, Script.wp_lock, Script.select_bind, Script.wp_query]
  intro t ht hmay u hu
  cases hrow : (w u).tests.find testId with
  | none => exact missing t u ht hu hrow
  | some row =>
    simp only [Script.wp_query, Script.wp_bind, Script.wp_ofExcept, Script.update_bind,
      Script.wp_write]
    intro v hv penta hpenta x hx r hr
    have hread : Recounted P may N testId held w s row r t u v x :=
      ⟨ht, hmay, hu, hrow, hv, hx, penta, hpenta, hr⟩
    have hself : P.Rely (.test testId :: held) x x := .refl hx.1
    split
    next => exact kept row r t u v x x hread hself
    next hs =>
      have hrun : row.status = .running := not_not.mp hs
      split
      next hd => exact finished row r t u v x x 0 _ hread hself hrun (by rw [hd]; rfl)
      next hd => exact finished row r t u v x x 0 _ hread hself hrun (by rw [hd]; rfl)
      next hd =>
        simp only [Script.wp_query]
        intro y hy
        split
        next => exact finished row r t u v x y 0 _ hread hy hrun (by rw [hd]; rfl)
        next => exact kept row r t u v x y hread hy

/-- A result that is not refused is recorded under the lock of its pair, and its test recomputed. -/
theorem wp_submitResult [LinearOrder F] {E : Env F} {now : ℚ} {i : Int} {report : PairReport}
    {Q : Finish SubmitResult → List Lock → (Db F → Db F) → Db F → Prop}
    (refused : ∀ r keys t, P.Rely held s t → Q (.rollback r) (keys ++ held) w t)
    (recorded : ∀ p g u t, P.Rely held s u → (w u).jobPairs.find i = some p →
      refusal p g report.clientId = none → P.Rely (.pair i :: held) u t →
      (refreshTest E.numerics now p.testId).wp P may
        (fun _ held w s => Q (.commit ⟨.accepted, validGames report⟩) held w s)
        ([.pair i, .pair i] ++ held) (fun db => (w db).deliver E now p report) t) :
    (submitResult E now i report).wp P may Q held w s := by
  simp only [submitResult, Script.select_bind, Script.wp_query]
  intro t ht
  cases (w t).guard i report.clientId with
  | none => exact refused _ [] t ht
  | some g =>
    simp only [Script.acquire_bind, Script.wp_lock, Script.wp_query]
    intro u hu _ v hv
    have hsv : P.Rely held s v := (ht.trans hu).trans hv.tail
    cases hp : (w v).jobPairs.find i with
    | none => exact refused _ [Lock.pair i] v hsv
    | some p =>
      obtain rfl : p.id = i := (Table.find_some hp).2
      dsimp only
      cases hr : refusal p g report.clientId with
      | some status => exact refused _ [Lock.pair p.id] v hsv
      | none =>
        refine Script.wp_bind.mpr (wp_updatePair (fun keys x _ => ?_) fun _ x hx _ _ => ?_)
        · simp
        · simp only [ne_eq, not_true_eq_false, if_false]
          have hgames : List.finRange 2 = [0, 1] := rfl
          rw [hgames]
          refine Script.wp_bind.mpr (Script.wp_bind.mpr (wp_insertGame fun y hy => ?_))
          refine Script.wp_bind.mpr (wp_insertGame fun z hz => ?_)
          have hxz : P.Rely (.pair p.id :: held) x z := (hy.trans hz).tail
          exact Script.wp_bind.mpr (recorded p g v z hsv hp hr (hx.trans hxz))

/-- The recovery takes expired leases it has locked, and recomputes tests. -/
theorem wp_recoverExpiredLeases [LinearOrder F] {E : Env F} {now : ℚ} {maxAttempts : Int}
    {K : List Lock → (Db F → Db F) → Db F → Prop}
    (expired : ∀ (got : List Int) t u, P.Rely held s t → got.Sublist ((w t).expired now) →
      P.Rely (got.map Lock.pair ++ held) t u →
      K (got.map Lock.pair ++ held) (fun db => (w db).updatePairs (fun p => decide (p.id ∈ got))
        (PairRow.expire maxAttempts) (PairRow.expire_id maxAttempts)) u)
    (refreshed : ∀ testId held w s, K held w s →
      (refreshTest E.numerics now testId).wp P may (fun _ held w s => K held w s) held w s) :
    (recoverExpiredLeases E now maxAttempts).wp P may (fun _ held w s => K held w s) held w s := by
  simp only [recoverExpiredLeases, Script.pick_bind, Script.wp_skipLocked, Script.update_bind,
    Script.wp_write, Script.select_bind, Script.wp_query]
  intro t got ht hgot _ u hu
  refine Script.wp_bind.mpr (Script.wp_mono (fun _ _ _ _ hk => hk)
    (Script.wp_forEach ?_ (expired got t u ht hgot hu)))
  exact fun testId _ held w s hk => refreshed testId held w s hk

theorem wp_setPriority {testId priority : Int}
    {Q : Finish PriorityOutcome → List Lock → (Db F → Db F) → Db F → Prop}
    (refused : ∀ r t u, P.Rely held s t → P.Rely (.test testId :: held) t u →
      Q (.rollback r) (.test testId :: held) w u)
    (updated : ∀ row r t u, P.Rely held s t → P.Rely (.test testId :: held) t u →
      (w u).tests.find testId = some row → row.status = .validating ∨ row.status = .queued →
      Q (.commit r) (.test testId :: held)
        (fun db => (w db).updateTest testId (.prioritise priority)
          (TestRow.prioritise_id priority)) u) :
    (setPriority testId priority).wp P may Q held w s := by
  simp only [setPriority, Script.acquire_bind, Script.wp_lock, Script.select_bind, Script.wp_query]
  intro t ht _ u hu
  cases hrow : (w u).tests.find testId with
  | none => exact refused _ t u ht hu
  | some row =>
    dsimp only
    split
    next => exact refused _ t u ht hu
    next hs =>
      refine updated row _ t u ht hu hrow ?_
      by_contra hno
      exact hs ⟨fun h => hno (.inl h), fun h => hno (.inr h)⟩

/-- A stop is refused, or writes the row it has locked; then the next test is promoted if this one
was running. -/
theorem wp_stopTest {now : ℚ} {testId : Int}
    {Q : Finish StopOutcome → List Lock → (Db F → Db F) → Db F → Prop}
    (refused : ∀ r t u, P.Rely held s t → P.Rely (.test testId :: held) t u →
      Q (.rollback r) (.test testId :: held) w u)
    (waiting : ∀ row t u, P.Rely held s t → P.Rely (.test testId :: held) t u →
      (w u).tests.find testId = some row → row.status = .validating ∨ row.status = .queued →
      Q (.commit ⟨.stopped, some row.status, none⟩) (.test testId :: held)
        (fun db => (w db).updateTest testId (.stop now) (TestRow.stop_id now)) u)
    (running : ∀ row t u, P.Rely held s t → P.Rely (.test testId :: held) t u →
      (w u).tests.find testId = some row → row.status = .running →
      (promoteNextTest now).wp P may
        (fun promoted => Q (.commit ⟨.stopped, some row.status, promoted⟩)) (.test testId :: held)
        (fun db => (w db).updateTest testId (.stop now) (TestRow.stop_id now)) u) :
    (stopTest now testId).wp P may Q held w s := by
  simp only [stopTest, Script.acquire_bind, Script.wp_lock, Script.select_bind, Script.wp_query]
  intro t ht _ u hu
  cases hrow : (w u).tests.find testId with
  | none => exact refused _ t u ht hu
  | some row =>
    dsimp only
    split
    next => exact refused _ t u ht hu
    next hs =>
      simp only [Script.update_bind, Script.wp_write]
      split
      next hrun => exact Script.wp_bind.mpr (running row t u ht hu hrow hrun)
      next hrun =>
        refine waiting row t u ht hu hrow ?_
        by_contra hno
        exact hs ⟨fun h => hno (.inl h), fun h => hno (.inr h), hrun⟩

/-- The last transaction of an examination judges a test it sees validating under its lock. -/
theorem wp_smokeFinish [LinearOrder F] {E : Env F} {now : ℚ} {job : SmokeJob} {x : Examination}
    {random : Nat → ℚ} {Q : Finish SmokeReply → List Lock → (Db F → Db F) → Db F → Prop}
    (late : ∀ t u, P.Rely held s t → P.Rely (.test job.testId :: held) t u →
      Q (.rollback .resultDiscarded) (.test job.testId :: held) w u)
    (invalid : ∀ row vlog t u, P.Rely held s t → P.Rely (.test job.testId :: held) t u →
      (w u).tests.find job.testId = some row → row.status = .validating →
      Q (.commit .invalid) (.test job.testId :: held)
        (fun db => (w db).updateTest job.testId (.judge .invalid vlog) (TestRow.judge_id _ _)) u)
    (queued : ∀ row fens vlog t u v, P.Rely held s t → P.Rely (.test job.testId :: held) t u →
      (w u).tests.find job.testId = some row → row.status = .validating →
      (job.examine x).2 = some fens → P.Rely (.test job.testId :: held) u v →
      (refreshTest E.numerics now job.testId).wp P may
        (fun _ held w s => (promoteNextTest now).wp P may
          (fun promoted => Q (.commit (.queued promoted))) held w s)
        (.test job.testId :: held) (fun db => (w db).enqueue job.testId fens random vlog) v) :
    (smokeFinish E now job x random).wp P may Q held w s := by
  simp only [smokeFinish, Script.acquire_bind, Script.wp_lock, Script.select_bind, Script.wp_query]
  intro t ht _ u hu
  cases hrow : (w u).tests.find job.testId with
  | none => trivial
  | some row =>
    dsimp only
    split
    next => exact late t u ht hu
    next hs =>
      have hval : row.status = .validating := not_not.mp hs
      cases hx : (job.examine x).2 with
      | none => exact invalid row _ t u ht hu hrow hval
      | some fens =>
        simp only [Script.wp_query]
        intro y hy
        split
        next => trivial
        next =>
          simp only [Script.update_bind, Script.wp_write, Script.wp_query]
          intro z hz
          split
          next => trivial
          next =>
            refine Script.wp_bind.mpr (Script.wp_mono (fun _ held w s hk => ?_)
              (queued row fens _ t u z ht hu hrow hval hx (hy.trans hz)))
            exact Script.wp_bind.mpr hk

theorem wp_registerClient {reg : ClientRegistration}
    {Q : Finish RegisteredClient → List Lock → (Db F → Db F) → Db F → Prop}
    (registered : ∀ r t, P.Rely held s t → Q r held (fun db => (w db).upsertClient reg) t) :
    (registerClient reg).wp P may Q held w s := by
  simp only [registerClient, Script.update_bind, Script.wp_write, Script.select_bind,
    Script.wp_query]
  intro t ht
  split
  next => trivial
  next => exact registered _ t ht

theorem wp_insertTest {now : ℚ} {spec : TestSpec} {cc bc : String}
    {Q : Finish Int → List Lock → (Db F → Db F) → Db F → Prop}
    (inserted : ∀ r t, P.Rely held s t → Q r held (fun db => (w db).addTest now spec cc bc) t) :
    (insertTest now spec cc bc).wp P may Q held w s := by
  unfold insertTest
  split
  next => trivial
  next =>
    simp only [Script.select_bind, Script.wp_query]
    exact fun t ht => inserted _ t ht

end CapiNet
