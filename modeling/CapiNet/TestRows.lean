import CapiNet.TestInvariant

namespace CapiNet

open Txn Relational

variable {F : Type}

/-- A property of a test that its changes of status keep. -/
structure Survives (P : TestRow → Prop) : Prop where
  run : ∀ t now, P t → P (t.run now)
  finish : ∀ t now result, P t → P (t.finish now result)
  stop : ∀ t now, P t → P (t.stop now)
  judge : ∀ t status vlog, P t → P (t.judge status vlog)

def Db.TestsAll (db : Db F) (P : TestRow → Prop) : Prop := ∀ t ∈ db.tests.rows, P t

theorem Db.TestsAll.updateTest {db : Db F} {P : TestRow → Prop} (h : db.TestsAll P) {id : Int}
    {f : TestRow → TestRow} {hid : ∀ r, (f r).id = r.id} (hf : ∀ t, P t → P (f t)) :
    (db.updateTest id f hid).TestsAll P := by
  intro t ht
  obtain ⟨r, hr, -, ⟨-, rfl⟩ | ⟨-, rfl⟩⟩ := mem_updateTest ht
  · exact hf r (h r hr)
  · exact h _ hr

theorem Promoted.testsAll {now : ℚ} {db db' : Db F} {o : Option Int} {P : TestRow → Prop}
    (hp : Promoted now db o db') (hP : Survives P) (h : db.TestsAll P) : db'.TestsAll P := by
  cases hp with
  | nothing => exact h
  | next => exact h.updateTest fun t => hP.run t now

variable [LinearOrder F] {E : Env F}

theorem Refreshed.testsAll {N : Numerics F} {now : ℚ} {testId : Int} {db db' : Db F}
    {P : TestRow → Prop} (hr : Refreshed N now testId db db') (hP : Survives P)
    (h : db.TestsAll P) : db'.TestsAll P := by
  have hrecord : ∀ s, (db.record testId s).TestsAll P := by
    intro s t ht
    rw [Db.tests_record] at ht
    exact h t ht
  cases hr with
  | missing => exact h
  | kept t r => exact hrecord r.stats
  | finished t r result promoted _ _ _ _ _ hp =>
    exact hp.testsAll hP ((hrecord r.stats).updateTest fun t => hP.finish t now result)

theorem RefreshedAll.testsAll {N : Numerics F} {now : ℚ} {ids : List Int} {db db' : Db F}
    {P : TestRow → Prop} (hr : RefreshedAll N now ids db db') (hP : Survives P)
    (h : db.TestsAll P) : db'.TestsAll P := by
  induction hr with
  | nil => exact h
  | cons a ids db db₁ db' hstep _ ih => exact ih (hstep.testsAll hP h)

theorem Effect.testsAll {now : ℚ} {skip : Lock → Bool} {db db' : Db F} {c : Call} {r : Reply}
    {P : TestRow → Prop} (heff : Effect E now skip db c (.commit r) db') (hP : Survives P)
    (hcreate : ∀ body s cc bc id, parseTestSpec body E.cfg.sprtPresets = .ok s →
      P (testRow now s cc bc id))
    (hprio : ∀ id n, c = .setPriority id n → ∀ t, P t → P (t.prioritise n))
    (h : db.TestsAll P) : db'.TestsAll P := by
  generalize hout : Finish.commit r = out at heff
  cases heff with
  | invalidSpec => cases hout
  | create body cc bc s _ _ _ hs hi =>
    cases hi
    intro t ht
    rcases mem_addTest.mp ht with hold | rfl
    · exact h t hold
    · exact hcreate body s cc bc _ hs
  | smoke job x random _ _ _ hj hfin =>
    subst hfin
    cases hj with
    | late => cases hout
    | invalid => exact h.updateTest fun t => hP.judge t _ _
    | queued t fens vlog promoted db₁ _ _ _ _ href hp =>
      have hq : (db.enqueue job.testId fens random vlog).TestsAll P := by
        intro u hu
        rw [(enqueue_spec db job.testId fens random vlog).tests] at hu
        have hjudged : (db.updateTest job.testId (.judge .queued vlog)
            (TestRow.judge_id .queued vlog)).TestsAll P := h.updateTest fun t => hP.judge t _ _
        exact hjudged u hu
      exact hp.testsAll hP (href.testsAll hP hq)
  | promote _ _ hp => exact hp.testsAll hP h
  | stop _ _ _ _ hs hfin =>
    subst hfin
    cases hs with
    | refused => cases hout
    | waiting => exact h.updateTest fun t => hP.stop t now
    | running _ _ _ _ _ hp => exact hp.testsAll hP (h.updateTest fun t => hP.stop t now)
  | setPriority id n _ _ _ hs hfin =>
    subst hfin
    cases hs with
    | refused => cases hout
    | updated => exact h.updateTest (hprio id n rfl)
  | register reg =>
    unfold Db.upsertClient
    split <;> exact h
  | heartbeat => exact h
  | ban => exact h
  | claim _ _ _ _ _ hs =>
    cases hs with
    | leased _ _ _ _ _ _ _ _ hdb _ => subst hdb; exact h
    | answered => exact h
  | submit _ _ _ _ _ hs hfin =>
    subst hfin
    cases hs with
    | unknown => cases hout
    | refused => cases hout
    | accepted p g _ _ _ _ _ href => exact href.testsAll hP h
  | abandon _ _ _ _ _ hs =>
    cases hs with
    | refused => exact h
    | released => exact h
  | recover _ _ _ hs =>
    cases hs with
    | recovered _ _ _ _ hall => exact hall.testsAll hP h

/-- Every test of a run has a property that specifications satisfy and changes of status keep, if
the priorities of the run keep it too. -/
theorem run_testsAll {P : TestRow → Prop} (hP : Survives P)
    (hcreate : ∀ body s now cc bc id, parseTestSpec body E.cfg.sprtPresets = .ok s →
      P (testRow now s cc bc id)) (ops : List Op)
    (hprio : ∀ op ∈ ops, ∀ id n, op.act = .call (.setPriority id n) →
      ∀ t, P t → P (t.prioritise n)) : (Server.run E ops).db.TestsAll P := by
  induction ops using List.reverseRecOn with
  | nil => simp [Db.TestsAll, Server.run, Server.runFrom, Server.init, Db.empty]
  | append_singleton ops op ih =>
    have hall := ih fun o ho => hprio o (by simp [ho])
    rw [Server.run_snoc]
    rcases (Server.run E ops).step_db E op with hdb | ⟨c, r, hc, -, heff⟩
    · rw [hdb]; exact hall
    · refine heff.testsAll hP (fun body s cc bc id => hcreate body s op.now cc bc id) ?_ hall
      rintro id n rfl
      rcases callOf_eq_some hc with hact | ⟨_, _, _, -, -, hne⟩
      · exact hprio op (by simp) id n hact
      · cases hne

end CapiNet
