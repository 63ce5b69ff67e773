import CapiNet.TransactionRules
import CapiNet.Library.LockOrder

namespace CapiNet

open Txn Relational

variable {F : Type} {P : Protocol (Db F) Lock} {may ask : List Lock → Lock → Db F → Prop}
  {held : List Lock} {w : Db F → Db F} {s : Db F}

theorem asks_updatePair {i : Int} {p : PairRow → Bool} {f : PairRow → PairRow}
    {hf : ∀ r, (f r).id = r.id} (asked : ∀ t, P.Rely held s t → ask held (.pair i) t) :
    (updatePair i p f hf).asks P may ask held w s := by
  simp only [updatePair, Script.select_bind, Script.asks_query]
  intro t ht
  split
  next =>
    simp only [Script.acquire_bind, Script.asks_lock, Script.asks_query]
    refine fun u hu => ⟨asked u (ht.trans hu), fun _ v _ => ?_⟩
    split <;> trivial
  next => trivial

theorem asks_insertGame {row : GameRow} : (insertGame row).asks P may ask held w s := by
  unfold insertGame
  split
  next => trivial
  next =>
    simp only [Script.select_bind, Script.asks_query]
    intro t _
    split <;> trivial

theorem asks_diagnoseClaim {clientId : Int} :
    (diagnoseClaim clientId).asks P may ask held w s := by
  simp only [diagnoseClaim, Script.select_bind, Script.asks_query]
  intro t _
  split
  next => trivial
  next =>
    split
    next => trivial
    next => split <;> trivial

/-- A claim takes only pairs that are free. -/
theorem asks_claimPairs {cfg : ServerConfig} {now : ℚ} {clientId slotsFree : Int} :
    (claimPairs cfg now clientId slotsFree).asks P may ask held w s := by
  simp only [claimPairs, Script.select_bind, Script.asks_query]
  intro t _
  split
  next =>
    simp only [Script.pick_bind, Script.asks_skipLocked, Script.update_bind, Script.asks_write,
      Script.asks_query]
    intro u got _ _ _ v _
    split
    next => exact asks_diagnoseClaim
    next => trivial
  next => exact asks_diagnoseClaim

theorem asks_promoteNextTest {now : ℚ} (asked : ∀ t, P.Rely held s t → ask held .promotion t)
    (picked : ∀ id t u v, P.Rely held s t → P.Rely (.promotion :: held) t u →
      promotionTarget (w u) = some id → P.Rely (.promotion :: held) u v →
      ask (.promotion :: held) (.promoted id) v) :
    (promoteNextTest now).asks P may ask held w s := by
  simp only [promoteNextTest, Script.acquire_bind, Script.asks_lock, Script.select_bind,
    Script.asks_query]
  refine fun t ht => ⟨asked t ht, fun _ u hu => ?_⟩
  cases htarget : promotionTarget (w u) with
  | none => trivial
  | some id =>
    simp only [Script.asks_lock, Script.asks_query]
    refine fun v hv => ⟨picked id t u v ht hu htarget hv, fun _ x _ => ?_⟩
    split <;> trivial

theorem asks_finishTest {now : ℚ} {testId : Int} {result : TestResult} :
    (finishTest now testId result).asks P may ask held w s ↔
      (promoteNextTest now).asks P may ask held
        (fun db => (w db).updateTest testId (.finish now result) (TestRow.finish_id now result)) s := by
  simp only [finishTest, Script.update_bind, Script.asks_write, Script.asks_bind]
  exact and_iff_left (Script.wp_of_all fun _ _ _ _ => trivial)

theorem asks_refreshTest [LinearOrder F] {N : Numerics F} {now : ℚ} {testId : Int}
    (asked : ∀ t, P.Rely held s t → ask held (.test testId) t)
    (finished : ∀ row r t u v x y n result, Recounted P may N testId held w s row r t u v x →
      P.Rely (.test testId :: held) x y → row.status = .running →
      verdict row r.decision n = some result →
      (finishTest now testId result).asks P may ask (.test testId :: held)
        (fun db => (w db).record testId r.stats) y) :
    (refreshTest N now testId).asks P may ask held w s := by
  simp only [refreshTest, Script.acquire_bind, Script.asks_lock, Script.select_bind,
    Script.asks_query]
  refine fun t ht => ⟨asked t ht, fun hmay u hu => ?_⟩
  cases hrow : (w u).tests.find testId with
  | none => trivial
  | some row =>
    simp only [Script.asks_query, Script.asks_bind, Script.wp_ofExcept, Script.update_bind,
      Script.asks_write]
    refine fun v hv => ⟨Script.asks_ofExcept, fun penta hpenta x hx => ⟨Script.asks_ofExcept, ?_⟩⟩
    intro r hr
    have hread : Recounted P may N testId held w s row r t u v x :=
      ⟨ht, hmay, hu, hrow, hv, hx, penta, hpenta, hr⟩
    have hself : P.Rely (.test testId :: held) x x := .refl hx.1
    split
    next => trivial
    next hs =>
      have hrun : row.status = .running := not_not.mp hs
      split
      next hd => exact finished row r t u v x x 0 _ hread hself hrun (by rw [hd]; rfl)
      next hd => exact finished row r t u v x x 0 _ hread hself hrun (by rw [hd]; rfl)
      next hd =>
        simp only [Script.asks_query]
        intro y hy
        split
        next => exact finished row r t u v x y 0 _ hread hy hrun (by rw [hd]; rfl)
        next => trivial

/-- A result asks for its pair, which then is its own, and recomputes the test of the pair. -/
theorem asks_submitResult [LinearOrder F] {E : Env F} {now : ℚ} {i : Int} {report : PairReport}
    (asked : ∀ t, P.Rely held s t → ask held (.pair i) t)
    (again : ∀ t u, P.Rely held s t → P.Rely (.pair i :: held) t u →
      ask (.pair i :: held) (.pair i) u)
    (recorded : ∀ p g u t, P.Rely held s u → (w u).jobPairs.find i = some p →
      refusal p g report.clientId = none → P.Rely (.pair i :: held) u t →
      (refreshTest E.numerics now p.testId).asks P may ask ([.pair i, .pair i] ++ held)
        (fun db => (w db).deliver E now p report) t) :
    (submitResult E now i report).asks P may ask held w s := by
  simp only [submitResult, Script.select_bind, Script.asks_query]
  intro t ht
  cases (w t).guard i report.clientId with
  | none => trivial
  | some g =>
    simp only [Script.acquire_bind, Script.asks_lock, Script.asks_query]
    refine fun u hu => ⟨asked u (ht.trans hu), fun _ v hv => ?_⟩
    have hsu : P.Rely held s u := ht.trans hu
    have hsv : P.Rely held s v := hsu.trans hv.tail
    cases hp : (w v).jobPairs.find i with
    | none => trivial
    | some p =>
      obtain rfl : p.id = i := (Table.find_some hp).2
      dsimp only
      cases hr : refusal p g report.clientId with
      | some status => trivial
      | none =>
        refine Script.asks_bind.mpr ⟨asks_updatePair fun x hx => again u x hsu (hv.trans hx), ?_⟩
        refine wp_updatePair (fun keys x _ => ?_) fun _ x hx _ _ => ?_
        · simp
        · simp only [ne_eq, not_true_eq_false, if_false]
          have hgames : List.finRange 2 = [0, 1] := rfl
          rw [hgames]
          refine Script.asks_bind.mpr ⟨Script.asks_bind.mpr ⟨asks_insertGame,
            wp_insertGame fun y hy => Script.asks_bind.mpr ⟨asks_insertGame,
              wp_insertGame fun _ _ => trivial⟩⟩, ?_⟩
          refine Script.wp_bind.mpr (wp_insertGame fun y hy => ?_)
          refine Script.wp_bind.mpr (wp_insertGame fun z hz => ?_)
          have hxz : P.Rely (.pair p.id :: held) x z := (hy.trans hz).tail
          exact Script.asks_bind.mpr ⟨recorded p g v z hsv hp hr (hx.trans hxz),
            Script.wp_of_all fun _ _ _ _ => trivial⟩

theorem asks_abandonPair {i clientId : Int}
    (asked : ∀ t, P.Rely held s t → ask held (.pair i) t) :
    (abandonPair i clientId).asks P may ask held w s := by
  unfold abandonPair
  exact Script.asks_bind.mpr ⟨asks_updatePair asked,
    Script.wp_of_all fun _ _ _ _ => trivial⟩

/-- The recovery asks for the tests of the pairs it has discarded, by ascending identity. -/
theorem asks_recoverExpiredLeases [LinearOrder F] {E : Env F} {now : ℚ} {maxAttempts : Int}
    {I : List Int → List Lock → (Db F → Db F) → Db F → Prop}
    (expired : ∀ (got : List Int) t u, P.Rely held s t → got.Sublist ((w t).expired now) →
      P.Rely (got.map Lock.pair ++ held) t u →
      I (((w u).expire maxAttempts got).bereft got) (got.map Lock.pair ++ held)
        (fun db => (w db).expire maxAttempts got) u)
    (refreshed : ∀ testId rest held w s, I (testId :: rest) held w s →
      (refreshTest E.numerics now testId).asks P may ask held w s ∧
        (refreshTest E.numerics now testId).wp P may (fun _ held w s => I rest held w s) held w s) :
    (recoverExpiredLeases E now maxAttempts).asks P may ask held w s ∧
      (recoverExpiredLeases E now maxAttempts).wp P may (fun _ held w s => I [] held w s) held w s := by
  simp only [recoverExpiredLeases, Script.pick_bind, Script.asks_skipLocked, Script.wp_skipLocked,
    Script.update_bind, Script.asks_write, Script.wp_write, Script.select_bind, Script.asks_query,
    Script.wp_query]
  constructor
  · intro t got ht hgot _ u hu
    exact Script.asks_bind.mpr ⟨(Script.asks_forEach refreshed (expired got t u ht hgot hu)).1,
      Script.wp_of_all fun _ _ _ _ => trivial⟩
  · intro t got ht hgot _ u hu
    exact Script.wp_bind.mpr (Script.asks_forEach refreshed (expired got t u ht hgot hu)).2

theorem asks_setPriority {testId priority : Int}
    (asked : ∀ t, P.Rely held s t → ask held (.test testId) t) :
    (setPriority testId priority).asks P may ask held w s := by
  simp only [setPriority, Script.acquire_bind, Script.asks_lock, Script.select_bind,
    Script.asks_query]
  refine fun t ht => ⟨asked t ht, fun _ u _ => ?_⟩
  cases (w u).tests.find testId with
  | none => trivial
  | some row => dsimp only; split <;> trivial

theorem asks_stopTest {now : ℚ} {testId : Int}
    (asked : ∀ t, P.Rely held s t → ask held (.test testId) t)
    (running : ∀ row t u, P.Rely held s t → P.Rely (.test testId :: held) t u →
      (w u).tests.find testId = some row → row.status = .running →
      (promoteNextTest now).asks P may ask (.test testId :: held)
        (fun db => (w db).updateTest testId (.stop now) (TestRow.stop_id now)) u) :
    (stopTest now testId).asks P may ask held w s := by
  simp only [stopTest, Script.acquire_bind, Script.asks_lock, Script.select_bind, Script.asks_query]
  refine fun t ht => ⟨asked t ht, fun _ u hu => ?_⟩
  cases hrow : (w u).tests.find testId with
  | none => trivial
  | some row =>
    dsimp only
    split
    next => trivial
    next =>
      simp only [Script.update_bind, Script.asks_write]
      split
      next hrun =>
        exact Script.asks_bind.mpr ⟨running row t u ht hu hrow hrun,
          Script.wp_of_all fun _ _ _ _ => trivial⟩
      next => trivial

theorem asks_smokeFinish [LinearOrder F] {E : Env F} {now : ℚ} {job : SmokeJob} {x : Examination}
    {random : Nat → ℚ} (asked : ∀ t, P.Rely held s t → ask held (.test job.testId) t)
    (queued : ∀ row fens vlog t u v, P.Rely held s t → P.Rely (.test job.testId :: held) t u →
      (w u).tests.find job.testId = some row → row.status = .validating →
      (job.examine x).2 = some fens → P.Rely (.test job.testId :: held) u v →
      (refreshTest E.numerics now job.testId).asks P may ask (.test job.testId :: held)
          (fun db => (w db).enqueue job.testId fens random vlog) v ∧
        (refreshTest E.numerics now job.testId).wp P may
          (fun _ held w s => (promoteNextTest now).asks P may ask held w s)
          (.test job.testId :: held) (fun db => (w db).enqueue job.testId fens random vlog) v) :
    (smokeFinish E now job x random).asks P may ask held w s := by
  simp only [smokeFinish, Script.acquire_bind, Script.asks_lock, Script.select_bind,
    Script.asks_query]
  refine fun t ht => ⟨asked t ht, fun _ u hu => ?_⟩
  cases hrow : (w u).tests.find job.testId with
  | none => trivial
  | some row =>
    dsimp only
    split
    next => trivial
    next hs =>
      have hval : row.status = .validating := not_not.mp hs
      cases hx : (job.examine x).2 with
      | none => trivial
      | some fens =>
        simp only [Script.asks_query]
        intro y hy
        split
        next => trivial
        next =>
          simp only [Script.update_bind, Script.asks_write, Script.asks_query]
          intro z hz
          split
          next => trivial
          next =>
            obtain ⟨hask, hwp⟩ := queued row fens _ t u z ht hu hrow hval hx (hy.trans hz)
            refine Script.asks_bind.mpr ⟨hask, Script.wp_mono (fun _ held w s hk => ?_) hwp⟩
            exact Script.asks_bind.mpr ⟨hk, Script.wp_of_all fun _ _ _ _ => trivial⟩

end CapiNet
