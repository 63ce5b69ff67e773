import CapiNet.TestMove
import CapiNet.TransactionRules

namespace CapiNet

open Txn Relational

variable {F : Type}

/-- No test disappears, and a stopped one stays stopped. -/
def Db.StopsKept (s t : Db F) : Prop :=
  ∀ i u, s.tests.find i = some u →
    ∃ v, t.tests.find i = some v ∧ (u.status = .stopped → v.status = .stopped)

theorem Db.StopsKept.trans {s t u : Db F} (h : s.StopsKept t) (h' : t.StopsKept u) :
    s.StopsKept u := by
  intro i x hx
  obtain ⟨y, hy, hxy⟩ := h i x hx
  obtain ⟨z, hz, hyz⟩ := h' i y hy
  exact ⟨z, hz, fun hs => hyz (hxy hs)⟩

def sameTestRow (key : Lock) (s t : Db F) : Prop :=
  ∀ i, key = .test i → t.tests.find i = s.tests.find i

/-- The lock of a row of `tests` protects the row. -/
def testRows : Protocol (Db F) Lock where
  inv := fun _ => True
  steady := Db.StopsKept
  region := sameTestRow
  steady_refl := fun _ i u hu => ⟨u, hu, id⟩
  steady_trans := Db.StopsKept.trans
  region_refl := fun _ _ _ => by simp
  region_trans := fun h h' i hi => (h' i hi).trans (h i hi)

/-- The calls that change rows of `tests`; a creation only adds one. -/
def Call.writesTests : Call → Prop
  | .smoke _ _ _ | .promote | .stop _ | .setPriority _ _ | .submit _ _ | .recover => True
  | _ => False

/-- A promotion gets the row of a test that is still queued. -/
def stillQueued : Discipline Request (Db F) Lock where
  calls r := r.call.writesTests
  locks _ _ key s := ∀ i, key = .promoted i → ∀ t, s.tests.find i = some t → t.status = .queued

/-- The writes of a transaction keep to the protocol and leave test `stopped`, if any, stopped. -/
structure Mild (stopped : Option Int) (held : List Lock) (w : Db F → Db F) (s : Db F) : Prop where
  guar : ∀ t, testRows.Rely held s t → testRows.Guar held t (w t)
  own : ∀ i, stopped = some i → .test i ∈ held ∧ ∀ t, testRows.Rely held s t →
    ∃ v, (w t).tests.find i = some v ∧ v.status = .stopped

namespace Mild

variable {stopped : Option Int} {held : List Lock} {w : Db F → Db F} {s t : Db F}

theorem init : Mild none [] id s :=
  ⟨fun t _ => ⟨trivial, testRows.steady_refl t, fun key _ => testRows.region_refl key t⟩, by simp⟩

theorem rely (h : Mild stopped held w s) (ht : testRows.Rely held s t) : Mild stopped held w t :=
  ⟨fun u hu => h.guar u (ht.trans hu), fun i hi => ⟨(h.own i hi).1,
    fun u hu => (h.own i hi).2 u (ht.trans hu)⟩⟩

theorem lock (h : Mild stopped held w s) (keys : List Lock) :
    Mild stopped (keys ++ held) w s := by
  have hsub : ∀ key ∈ held, key ∈ keys ++ held := fun key hk => List.mem_append_right _ hk
  refine ⟨fun u hu => ?_, fun i hi => ⟨hsub _ (h.own i hi).1, fun u hu => ?_⟩⟩
  · obtain ⟨hinv, hsteady, hregion⟩ := h.guar u (hu.mono hsub)
    exact ⟨hinv, hsteady, fun key hk => hregion key fun hk' => hk (hsub key hk')⟩
  · exact (h.own i hi).2 u (hu.mono hsub)

theorem acquire (h : Mild stopped held w s) {key : Lock} {u : Db F} (hs : testRows.Rely held s t)
    (ht : testRows.Rely (key :: held) t u) : Mild stopped (key :: held) w u :=
  ((h.rely hs).lock [key]).rely ht

/-- A write that leaves the tests alone. -/
theorem write (h : Mild stopped held w s) {f : Db F → Db F} (hf : ∀ db, (f db).tests = db.tests) :
    Mild stopped held (f ∘ w) s := by
  refine ⟨fun u hu => ?_, fun i hi => ⟨(h.own i hi).1, fun u hu => ?_⟩⟩
  · obtain ⟨hinv, hsteady, hregion⟩ := h.guar u hu
    refine ⟨hinv, fun i x hx => ?_, fun key hk i hi => ?_⟩
    · rw [Function.comp_apply, hf]
      exact hsteady i x hx
    · rw [Function.comp_apply, hf]
      exact hregion key hk i hi
  · rw [Function.comp_apply, hf]
    exact (h.own i hi).2 u hu

/-- A row that is not stopped in the view of the holder of its lock is not stopped at all. -/
theorem not_stopped (h : Mild stopped held w s) (hs : testRows.Rely held s s) {i : Int}
    {v : TestRow} (hv : (w s).tests.find i = some v) (hn : v.status ≠ .stopped) :
    ∀ u, s.tests.find i = some u → u.status ≠ .stopped := by
  intro u hu hstop
  obtain ⟨v', hv', hkeep⟩ := (h.guar s hs).2.1 i u hu
  cases Option.some.inj (hv.symm.trans hv')
  exact hn (hkeep hstop)

/-- A write to a locked row that is not stopped, or that stops it. -/
theorem updateTest (h : Mild stopped held w s) (f : TestRow → TestRow) (hf : ∀ r, (f r).id = r.id)
    {id : Int} (hid : .test id ∈ held)
    (hs : (∀ u, s.tests.find id = some u → u.status ≠ .stopped) ∨ ∀ r, (f r).status = .stopped)
    (ho : ∀ i, stopped = some i → i ≠ id ∨ ∀ r, (f r).status = .stopped) :
    Mild stopped held (fun db => (w db).updateTest id f hf) s := by
  refine ⟨fun u hu => ?_, fun i hi => ⟨(h.own i hi).1, fun u hu => ?_⟩⟩
  · obtain ⟨-, hsteady, hregion⟩ := h.guar u hu
    refine ⟨trivial, fun i x hx => ?_, ?_⟩
    · obtain ⟨v, hv, hkeep⟩ := hsteady i x hx
      rcases (w u).find_updateTest_cases id f hf hv with ⟨rfl, hv'⟩ | ⟨-, hv'⟩
      · refine ⟨_, hv', fun hstop => ?_⟩
        rcases hs with hs | hs
        · have hrow : u.tests.find i = s.tests.find i := hu.2.2 _ hid i rfl
          exact absurd hstop (hs x (hrow ▸ hx))
        · exact hs v
      · exact ⟨v, hv', hkeep⟩
    · rintro key hk i rfl
      have hne : i ≠ id := by
        rintro rfl
        exact hk hid
      rw [Db.find_updateTest, hregion _ hk i rfl]
      cases hx : u.tests.find i with
      | none => rfl
      | some x =>
        have hxid : x.id = i := (Table.find_some hx).2
        simp [hxid, hne]
  · obtain ⟨v, hv, hstop⟩ := (h.own i hi).2 u hu
    rcases (w u).find_updateTest_cases id f hf hv with ⟨heq, hv'⟩ | ⟨-, hv'⟩
    · refine ⟨_, hv', ?_⟩
      rcases ho i hi with hne | hf
      · exact absurd heq hne
      · exact hf v
    · exact ⟨v, hv', hstop⟩

end Mild

variable [LinearOrder F] {E : Env F}

section Programs

variable {stopped : Option Int} {held : List Lock} {w : Db F → Db F} {s : Db F}

omit [LinearOrder F] in
theorem Mild.promote (h : Mild stopped held w s) (r : Request) (now : ℚ) :
    (promoteNextTest now).wp testRows (stillQueued.locks r)
      (fun _ held w s => Mild stopped held w s) held w s := by
  refine wp_promoteNextTest (fun _ _ => h.acquire) fun id t u v x ht hu htarget hv hqueued hx => ?_
  obtain ⟨-, q, hq, hqs⟩ := promotionTarget_eq_some htarget
  have hmild := h.acquire ht hu
  have hlocked : Mild stopped (Lock.test id :: Lock.promotion :: held) w x :=
    hmild.acquire hv hx
  refine hlocked.updateTest _ _ (by simp) (.inl fun y hy hstop => ?_) fun i hi => .inl ?_
  · have hrow : x.tests.find id = v.tests.find id := hx.2.2 (.test id) (by simp) id rfl
    have hsame := hqueued id rfl y (hrow ▸ hy)
    rw [hstop] at hsame
    cases hsame
  · -- the target is queued where the stopped test is seen stopped
    rintro rfl
    obtain ⟨y, hy, hys⟩ := (hmild.own i hi).2 u (.refl trivial)
    cases Option.some.inj (hq.symm.trans hy)
    rw [hqs] at hys
    cases hys

omit [LinearOrder F] in
theorem Mild.finish (h : Mild none held w s) (r : Request) (now : ℚ) {testId : Int}
    (hid : .test testId ∈ held) (hn : ∀ u, s.tests.find testId = some u → u.status ≠ .stopped)
    (result : TestResult) :
    (finishTest now testId result).wp testRows (stillQueued.locks r)
      (fun _ held w s => Mild none held w s) held w s := by
  have hfin := h.updateTest (.finish now result) (TestRow.finish_id now result) hid
    (.inl hn) (by simp)
  exact wp_finishTest.mpr (hfin.promote r now)

theorem Mild.refresh (h : Mild none held w s) (r : Request) (N : Numerics F) (now : ℚ)
    (testId : Int) :
    (refreshTest N now testId).wp testRows (stillQueued.locks r)
      (fun _ held w s => Mild none held w s) held w s := by
  have recorded : ∀ row result t u v x y,
      Recounted testRows (stillQueued.locks r) N testId held w s row result t u v x →
      testRows.Rely (.test testId :: held) x y →
      Mild none (.test testId :: held) (fun db => (w db).record testId result.stats) y := by
    intro row result t u v x y hread hy
    have hmild := (h.acquire hread.asked hread.locked).rely (hread.later.trans hy)
    exact hmild.write fun db => Db.tests_record db testId result.stats
  refine wp_refreshTest (fun t u ht hu _ => h.acquire ht hu) recorded ?_
  intro row result t u v x y _ verdict hread hy hrun _
  refine (recorded row result t u v x y hread hy).finish r now (by simp) (fun z hz => ?_) verdict
  have hsame : y.tests.find testId = u.tests.find testId :=
    (hread.later.trans hy).2.2 _ (by simp) testId rfl
  refine (h.acquire hread.asked hread.locked).not_stopped (.refl trivial) hread.found ?_ z (hsame ▸ hz)
  rw [hrun]
  simp

theorem Mild.submit (h : Mild none held w s) (r : Request) (now : ℚ) (i : Int)
    (report : PairReport) :
    (submitResult E now i report).wp testRows (stillQueued.locks r)
      (fun _ held w s => Mild none held w s) held w s := by
  refine wp_submitResult (fun _ keys t ht => (h.rely ht).lock keys) fun p g u t hu _ _ ht => ?_
  have hst : testRows.Rely held s t := hu.trans ht.tail
  have hmild := ((h.rely hst).lock [Lock.pair i, Lock.pair i]).write
    (f := fun db => db.deliver E now p report) fun _ => rfl
  exact hmild.refresh r E.numerics now p.testId

theorem Mild.recover (h : Mild none held w s) (r : Request) (now : ℚ) (maxAttempts : Int) :
    (recoverExpiredLeases E now maxAttempts).wp testRows (stillQueued.locks r)
      (fun _ held w s => Mild none held w s) held w s := by
  refine wp_recoverExpiredLeases (fun got t u ht _ hu => ?_) fun testId held w s hm => ?_
  · exact (((h.rely ht).lock (got.map Lock.pair)).rely hu).write
      (f := fun db => db.updatePairs (fun p => decide (p.id ∈ got)) (PairRow.expire maxAttempts)
        (PairRow.expire_id maxAttempts)) fun _ => rfl
  · exact hm.refresh r E.numerics now testId

theorem Mild.smoke (h : Mild none held w s) (r : Request) (now : ℚ) (job : SmokeJob)
    (x : Examination) (random : Nat → ℚ) :
    (smokeFinish E now job x random).wp testRows (stillQueued.locks r)
      (fun _ held w s => Mild none held w s) held w s := by
  have hin : .test job.testId ∈ Lock.test job.testId :: held := by simp
  have live : ∀ row t u, testRows.Rely held s t → testRows.Rely (.test job.testId :: held) t u →
      (w u).tests.find job.testId = some row → row.status = .validating →
      ∀ y, u.tests.find job.testId = some y → y.status ≠ .stopped := by
    intro row t u ht hu hrow hv
    refine (h.acquire ht hu).not_stopped (.refl trivial) hrow ?_
    rw [hv]
    simp
  refine wp_smokeFinish (fun _ _ => h.acquire) (fun row vlog t u ht hu hrow hv => ?_) ?_
  · exact (h.acquire ht hu).updateTest _ _ hin (.inl (live row t u ht hu hrow hv)) (by simp)
  · intro row fens vlog t u v ht hu hrow hval _ huv
    have hpairs := ((h.acquire ht hu).rely huv).write
      (f := fun db => (db.addPositions job.testId fens).addPairs job.testId random)
      fun db => (tests_addPairs _ _ _).trans (tests_addPositions db _ _)
    have hstill : ∀ y, v.tests.find job.testId = some y → y.status ≠ .stopped := by
      intro y hy
      have hsame : v.tests.find job.testId = u.tests.find job.testId := huv.2.2 _ hin job.testId rfl
      exact live row t u ht hu hrow hval y (hsame ▸ hy)
    have hqueued := hpairs.updateTest (.judge .queued vlog) (TestRow.judge_id _ _) hin
      (.inl hstill) (by simp)
    exact Script.wp_mono (fun _ held w s hm => hm.promote r now)
      (hqueued.refresh r E.numerics now job.testId)

omit [LinearOrder F] in
theorem Mild.priority (h : Mild none held w s) {may : List Lock → Lock → Db F → Prop}
    (testId priority : Int) :
    (setPriority testId priority).wp testRows may (fun _ held w s => Mild none held w s) held w s := by
  refine wp_setPriority (fun _ _ _ => h.acquire) fun row _ t u ht hu hrow hs => ?_
  refine (h.acquire ht hu).updateTest _ _ (by simp) (.inl ?_) (by simp)
  refine (h.acquire ht hu).not_stopped (.refl trivial) hrow fun hstop => ?_
  simp [hstop] at hs

end Programs

/-- A call that returned Stopped left its test stopped. -/
def stopPost (r : Request) (reply : Reply) (t : Db F) : Prop :=
  ∀ i o, r.call = .stop i → reply = .stop o → o.status = .stopped →
    ∃ v, t.tests.find i = some v ∧ v.status = .stopped

omit [LinearOrder F] in
theorem Mild.commits {held : List Lock} {w : Db F → Db F} {s : Db F} (h : Mild none held w s)
    {r : Request} {fin : Finish Reply} (hr : ∀ i, r.call ≠ .stop i) :
    CommitsTo testRows (stopPost r) fin held w s :=
  fun _ _ t ht => ⟨h.guar t ht, fun i _ hc => absurd hc (hr i)⟩

theorem keeps_stop (now : ℚ) (testId : Int) (s : Db F) :
    ((⟨.stop testId, now⟩ : Request).program E).wp testRows (stillQueued.locks ⟨.stop testId, now⟩)
      (CommitsTo testRows (stopPost ⟨.stop testId, now⟩)) [] id s := by
  have hin : .test testId ∈ [Lock.test testId] := by simp
  have stopped : ∀ (u : Db F) row, u.tests.find testId = some row → Mild (some testId) [Lock.test testId]
      (fun db => db.updateTest testId (.stop now) (TestRow.stop_id now)) u := by
    intro u row hrow
    have hmild : Mild none [Lock.test testId] id u := Mild.init.lock [Lock.test testId]
    have h := hmild.updateTest (.stop now) (TestRow.stop_id now) hin (.inr fun _ => rfl) (by simp)
    refine ⟨h.guar, ?_⟩
    rintro i ⟨⟩
    refine ⟨hin, fun v hv => ?_⟩
    have hsame : v.tests.find testId = u.tests.find testId := hv.2.2 _ hin testId rfl
    rcases v.find_updateTest_cases testId (.stop now) (TestRow.stop_id now) (hsame.trans hrow) with
      ⟨-, h⟩ | ⟨h, -⟩
    · exact ⟨_, h, rfl⟩
    · exact absurd rfl h
  have done : ∀ (fin : Finish StopOutcome) (held : List Lock) (w : Db F → Db F) (s : Db F),
      Mild (some testId) held w s →
      CommitsTo testRows (stopPost ⟨.stop testId, now⟩) (fin.map .stop) held w s := by
    intro fin held w s h r hr v hv
    refine ⟨h.guar v hv, ?_⟩
    rintro i o ⟨⟩ - -
    exact (h.own testId rfl).2 v hv
  refine Script.wp_map.mpr (wp_stopTest ?_ (fun row t u _ _ hrow _ => ?_)
    fun row t u _ _ hrow _ => ?_)
  · intro o t u _ _ r hr
    cases hr
  · exact done _ _ _ _ (stopped u row hrow)
  · exact Script.wp_mono (fun _ held w s hm => done _ held w s hm) ((stopped u row hrow).promote _ now)

/-- Alone, every call that writes to the tests keeps to the protocol. -/
theorem keeps_testRows (E : Env F) :
    Keeps testRows stillQueued (Request.program E) stopPost := by
  rintro ⟨c, now⟩ hc s -
  have done : ∀ {α : Type} {f : α → Reply} {p : Tx F (Finish α)}, (∀ i, c ≠ .stop i) →
      p.wp testRows (stillQueued.locks ⟨c, now⟩) (fun _ held w s => Mild none held w s) [] id s →
      (Finish.map f <$> p).wp testRows (stillQueued.locks ⟨c, now⟩)
        (CommitsTo testRows (stopPost ⟨c, now⟩)) [] id s := by
    intro α f p hn hp
    exact Script.wp_map.mpr (Script.wp_mono (fun _ _ _ _ hm => hm.commits hn) hp)
  cases c with
  | stop testId => exact keeps_stop now testId s
  | smoke job x random => exact done (by simp) (Mild.init.smoke _ now job x random)
  | promote =>
    refine Script.wp_map.mpr (Script.wp_mono (fun _ _ _ _ hm => ?_) (Mild.init.promote _ now))
    exact hm.commits (by simp)
  | setPriority testId priority => exact done (by simp) (Mild.init.priority testId priority)
  | submit i report => exact done (by simp) (Mild.init.submit _ now i report.toPairReport)
  | recover => exact done (by simp) (Mild.init.recover _ now E.cfg.maxAttempts)
  | _ => exact absurd hc (by simp [stillQueued, Call.writesTests])

omit [LinearOrder F] in
theorem stopPost_steady (c : Request) (r : Reply) (s t : Db F) (h : stopPost c r s)
    (ht : testRows.steady s t) : stopPost c r t := by
  intro i o hc hr ho
  obtain ⟨v, hv, hs⟩ := h i o hc hr ho
  obtain ⟨v', hv', hkeep⟩ := ht i v hv
  exact ⟨v', hv', hkeep hs⟩

/-- In a run where every promotion finds its test still queued, a test whose stop was answered
with Stopped is stopped in every later state. -/
theorem stopped_stays_stopped (E : Env F) (ops : List Op) (W V : ServerWorld F) (testId : Int)
    (o : StopOutcome) (hW : Run (Request.program E) stillQueued (quiet E ops) W)
    (hA : Answered W (.stop testId) (.stop o)) (ho : o.status = .stopped)
    (hV : Run (Request.program E) stillQueued W V) :
    ∃ t, V.db.tests.find testId = some t ∧ t.status = .stopped := by
  obtain ⟨now, hmem⟩ := hA
  have hsound := Run.sound (keeps_testRows E) stopPost_steady (Sound.start trivial) hW
  have hpost : stopPost ⟨.stop testId, now⟩ (.stop o) W.db := hsound.1.sessions _ hmem
  have hsteady := (Run.sound (keeps_testRows E) stopPost_steady hsound.1 hV).2
  exact stopPost_steady _ _ _ _ hpost hsteady testId o rfl rfl ho

/-- Some stop of the test was answered with Stopped. -/
def stopSeen (testId : Int) (W : ServerWorld F) : Bool :=
  W.sessions.any fun S => match S.call.call, S.phase with
    | .stop i, .ended (some (.commit (.stop o))) => i == testId && o.status == .stopped
    | _, _ => false

omit [LinearOrder F] in
theorem stopSeen_answered {testId : Int} {W : ServerWorld F} (h : stopSeen testId W = true) :
    ∃ o, Answered W (.stop testId) (.stop o) ∧ o.status = .stopped := by
  obtain ⟨⟨⟨c, now⟩, phase⟩, hmem, hS⟩ := List.any_eq_true.mp h
  dsimp only at hS
  split at hS
  next i o =>
    simp only [Bool.and_eq_true, beq_iff_eq] at hS
    obtain ⟨rfl, ho⟩ := hS
    exact ⟨o, ⟨now, hmem⟩, ho⟩
  next => cases hS

def allowQueued (_ : Request) (_ : List Lock) (key : Lock) (s : Db F) : Bool :=
  match key with
  | .promoted i => (s.tests.find i).all (·.status == .queued)
  | _ => true

omit [LinearOrder F] in
theorem allowQueued_locks (r : Request) (held : List Lock) (key : Lock) (s : Db F)
    (h : allowQueued r held key s = true) : stillQueued.locks r held key s := by
  rintro i rfl t ht
  simpa [allowQueued, ht] using h

/-- One test runs and another is queued. -/
def queueOfTwo : List Op :=
  opening 1 ++ (opening 1).take 1 ++
    [{ now := 0, act := .smokeStart },
     { now := 0
       act := .smokeFinish ⟨"", .ok true, .ok ["8/8/8/8/8/8/8/K1k5 w - -"]⟩ fun i => i }]

/-- The running test is stopped, and the promotion that follows locks the other, which is still
queued. -/
theorem lone_stop_stays : ∃ W V : ServerWorld ℝ,
    stopSeen 1 W = true ∧ (W.db.tests.find 2).any (·.status == .running) = true ∧
      ∃ t, V.db.tests.find 1 = some t ∧ t.status = .stopped := by
  have hrun : ((quiet realEnv queueOfTwo).runs (Request.program realEnv) allowQueued
      (.start ⟨.stop 1, 1⟩ :: List.replicate 9 (.advance 0))).any (fun W => stopSeen 1 W &&
        ((W.db.tests.find 2).any (·.status == .running) &&
          (W.runs (Request.program realEnv) allowQueued
            (.start ⟨.promote, 2⟩ :: List.replicate 3 (.advance 1))).isSome)) = true := by
    decide +kernel
  obtain ⟨W, hW, hw⟩ := (Option.any_eq_true _ _).mp hrun
  simp only [Bool.and_eq_true] at hw
  obtain ⟨hs, hrunning, hsome⟩ := hw
  obtain ⟨V, hV⟩ := Option.isSome_iff_exists.mp hsome
  obtain ⟨o, hA, ho⟩ := stopSeen_answered hs
  refine ⟨W, V, hs, hrunning, stopped_stays_stopped realEnv queueOfTwo W V 1 o ?_ hA ho ?_⟩
  · exact Run.of_runs (by simp [stillQueued, Call.writesTests]) allowQueued_locks hW
  · exact Run.of_runs (by simp [stillQueued, Call.writesTests]) allowQueued_locks hV

/-- The promotion after the first stop has picked the second test, which is stopped before its row
is locked, and runs in the end. -/
theorem promotion_revives_stopped :
    ¬∀ (ops : List Op) (W V : ServerWorld ℝ) (testId : Int) (o : StopOutcome),
      Run (Request.program realEnv) (.only fun r => r.call.writesTests) (quiet realEnv ops) W →
      Answered W (.stop testId) (.stop o) → o.status = .stopped →
      Run (Request.program realEnv) (.only fun r => r.call.writesTests) W V →
      ∃ t, V.db.tests.find testId = some t ∧ t.status = .stopped := by
  intro hall
  have hrun : ((quiet realEnv queueOfTwo).runs (Request.program realEnv) (fun _ _ _ _ => true)
      (.start ⟨.stop 1, 1⟩ :: .start ⟨.stop 2, 1⟩ :: List.replicate 5 (.advance 0) ++
        List.replicate 4 (.advance 1))).any (fun W => stopSeen 2 W &&
          (W.runs (Request.program realEnv) (fun _ _ _ _ => true)
            (List.replicate 4 (.advance 0))).any fun V =>
              (V.db.tests.find 2).any (·.status == .running)) = true := by
    decide +kernel
  obtain ⟨W, hW, hw⟩ := (Option.any_eq_true _ _).mp hrun
  obtain ⟨hs, hany⟩ := (Bool.and_eq_true _ _).mp hw
  obtain ⟨V, hV, hv⟩ := (Option.any_eq_true _ _).mp hany
  obtain ⟨u, hu, hrunning⟩ := (Option.any_eq_true _ _).mp hv
  obtain ⟨o, hA, ho⟩ := stopSeen_answered hs
  obtain ⟨t, ht, hstop⟩ := hall queueOfTwo W V 2 o
    (Run.of_runs (by simp [Discipline.only, Call.writesTests]) (fun _ _ _ _ _ => trivial) hW) hA ho
    (Run.of_runs (by simp [Discipline.only]) (fun _ _ _ _ _ => trivial) hV)
  cases Option.some.inj (hu.symm.trans ht)
  rw [hstop] at hrunning
  cases hrunning

end CapiNet
