import CapiNet.TestEffect

namespace CapiNet

open Txn Relational

variable {F : Type} [LinearOrder F] {E : Env F}

/-- The edges of the lifecycle. -/
inductive TestStatus.Edge : TestStatus → TestStatus → Prop
  | queue : Edge .validating .queued
  | reject : Edge .validating .invalid
  | withdraw : Edge .validating .stopped
  | promote : Edge .queued .running
  | drop : Edge .queued .stopped
  | finish : Edge .running .finished
  | stop : Edge .running .stopped

/-- A test stays, moves along an edge with its result unchanged, or finishes with a result. -/
inductive TestMove (t t' : TestRow) : Prop
  | stays : t'.status = t.status → t'.result = t.result → TestMove t t'
  | moves : t.status.Edge t'.status → t'.status ≠ .finished → t'.result = t.result → TestMove t t'
  | finishes : t.status = .running → t'.status = .finished → t.kind.Gives t'.result → TestMove t t'

/-- The smoke worker queues a test and starts it in one transaction, nothing else running. -/
structure Passed (db : Db F) (t t' : TestRow) : Prop where
  validating : t.status = .validating
  running : t'.status = .running
  result : t'.result = t.result
  idle : ∀ u ∈ db.tests.rows, u.status ≠ .running

theorem RefreshMove.testMove {now : ℚ} {ids : List Int} {i : Int} {t t' : TestRow}
    (h : RefreshMove now ids i t t') :
    t'.kind = t.kind ∧ t'.totalPairs = t.totalPairs ∧ TestMove t t' := by
  cases h with
  | stays => exact ⟨rfl, rfl, .stays rfl rfl⟩
  | finished result _ hrun hg => exact ⟨rfl, rfl, .finishes hrun rfl hg⟩
  | promoted hq =>
    refine ⟨rfl, rfl, .moves ?_ (by simp [TestRow.run]) rfl⟩
    rw [hq]
    exact .promote

omit [LinearOrder F] in
theorem Promoted.move {now : ℚ} {db db' : Db F} {r : Option Int} (h : Promoted now db r db')
    {i : Int} {t : TestRow} (ht : db.tests.find i = some t) :
    ∃ t', db'.tests.find i = some t' ∧ RefreshMove now [] i t t' := by
  rcases h.find ht with hf | ⟨hq, -, hf⟩
  · exact ⟨t, hf, .stays⟩
  · exact ⟨_, hf, .promoted hq⟩

/-- Recomputing a test that is not running moves no test. -/
theorem Refreshed.tests_eq {N : Numerics F} {now : ℚ} {testId : Int} {db db' : Db F}
    (h : Refreshed N now testId db db')
    (hn : ∀ t, db.tests.find testId = some t → t.status ≠ .running) : db'.tests = db.tests := by
  cases h with
  | missing => rfl
  | kept => exact Db.tests_record db _ _
  | finished t _ _ _ _ ht _ hrun => exact absurd hrun (hn t ht)

/-- What the smoke worker's transaction does to a test. -/
theorem Judged.move {now : ℚ} {job : SmokeJob} {x : Examination} {random : Nat → ℚ}
    {db db' : Db F} {r : SmokeReply} (h : Judged E now job x random db (.commit r) db')
    {i : Int} {t : TestRow} (ht : db.tests.find i = some t) :
    ∃ t', db'.tests.find i = some t' ∧ t'.kind = t.kind ∧ t'.totalPairs = t.totalPairs ∧
      (TestMove t t' ∨ (i = job.testId ∧ Passed db t t')) := by
  cases h with
  | invalid u vlog hu hv =>
    rcases db.find_updateTest_cases job.testId (.judge .invalid vlog) (TestRow.judge_id _ _) ht with
      ⟨rfl, hf⟩ | ⟨-, hf⟩
    · cases Option.some.inj (ht.symm.trans hu)
      refine ⟨_, hf, rfl, rfl, .inl (.moves ?_ (by simp [TestRow.judge]) rfl)⟩
      rw [hv]
      exact .reject
    · exact ⟨t, hf, rfl, rfl, .inl (.stays rfl rfl)⟩
  | queued u fens vlog promoted db₁ _ hu hv hx href hp =>
    have hjudge : (db.enqueue job.testId fens random vlog).tests =
        (db.updateTest job.testId (.judge .queued vlog) (TestRow.judge_id .queued vlog)).tests :=
      (enqueue_spec db job.testId fens random vlog).tests
    have htests : db₁.tests =
        (db.updateTest job.testId (.judge .queued vlog) (TestRow.judge_id .queued vlog)).tests := by
      refine (href.tests_eq fun v hvf hrun => ?_).trans hjudge
      rw [hjudge, Db.find_updateTest, hu] at hvf
      rw [← Option.some.inj hvf] at hrun
      simp [(Table.find_some hu).2, TestRow.judge] at hrun
    rcases db.find_updateTest_cases job.testId (.judge .queued vlog)
      (TestRow.judge_id .queued vlog) ht with ⟨rfl, hf⟩ | ⟨hne, hf⟩
    · cases Option.some.inj (ht.symm.trans hu)
      rw [← htests] at hf
      rcases hp.find hf with hf' | ⟨-, hidle, hf'⟩
      · refine ⟨_, hf', rfl, rfl, .inl (.moves ?_ (by simp [TestRow.judge]) rfl)⟩
        rw [hv]
        exact .queue
      · refine ⟨_, hf', rfl, rfl, .inr ⟨rfl, hv, rfl, rfl, fun v hvm hrun => ?_⟩⟩
        have hmem := updated_mem job.testId (.judge .queued vlog) (TestRow.judge_id .queued vlog) hvm
        rw [← htests] at hmem
        have hne : v.id ≠ job.testId := by
          intro he
          have hvf := Table.find_of_mem hvm
          rw [he, ht] at hvf
          rw [← Option.some.inj hvf, hv] at hrun
          cases hrun
        simp only [beq_eq_false_iff_ne.mpr hne, Bool.false_eq_true, if_false] at hmem
        exact hidle v hmem hrun
    · rw [← htests] at hf
      obtain ⟨t', ht', hm⟩ := hp.move hf
      obtain ⟨hk, htot, hmove⟩ := hm.testMove
      exact ⟨t', ht', hk, htot, .inl hmove⟩

omit [LinearOrder F] in
theorem Stopped.move {now : ℚ} {testId : Int} {db db' : Db F} {r : StopOutcome}
    (h : Stopped now testId db (.commit r) db') {i : Int} {t : TestRow}
    (ht : db.tests.find i = some t) :
    ∃ t', db'.tests.find i = some t' ∧ t'.kind = t.kind ∧ t'.totalPairs = t.totalPairs ∧
      TestMove t t' := by
  cases h with
  | waiting u hu hlive hrun =>
    rcases db.find_updateTest_cases testId (.stop now) (TestRow.stop_id now) ht with
      ⟨rfl, hf⟩ | ⟨-, hf⟩
    · cases Option.some.inj (ht.symm.trans hu)
      refine ⟨_, hf, rfl, rfl, .moves ?_ (by simp [TestRow.stop]) rfl⟩
      rcases hlive with hv | hq | hr
      · rw [hv]; exact .withdraw
      · rw [hq]; exact .drop
      · exact absurd hr hrun
    · exact ⟨t, hf, rfl, rfl, .stays rfl rfl⟩
  | running u promoted _ hu hrun hp =>
    rcases db.find_updateTest_cases testId (.stop now) (TestRow.stop_id now) ht with
      ⟨rfl, hf⟩ | ⟨-, hf⟩
    · cases Option.some.inj (ht.symm.trans hu)
      rcases hp.find hf with hf' | ⟨hq, -, -⟩
      · refine ⟨_, hf', rfl, rfl, .moves ?_ (by simp [TestRow.stop]) rfl⟩
        rw [hrun]
        exact .stop
      · cases hq
    · obtain ⟨t', ht', hm⟩ := hp.move hf
      exact ⟨t', ht', hm.testMove⟩

theorem Recovered.move {skip : Lock → Bool} {now : ℚ} {maxAttempts : Int} {db db' : Db F}
    {r : LeaseRecovery} (h : Recovered skip E now maxAttempts db (.commit r) db')
    (hl : db.Lifecycle []) {i : Int} {t : TestRow} (ht : db.tests.find i = some t) :
    ∃ t', db'.tests.find i = some t' ∧ t'.kind = t.kind ∧ t'.totalPairs = t.totalPairs ∧
      TestMove t t' := by
  cases h with
  | recovered expired _ _ hexp hall =>
    have hexpired := hl.expire maxAttempts hexp
    -- a test that lost a pair has a discarded one, and a queued test has none
    have hids : ∀ j ∈ (db.expire maxAttempts expired).bereft expired, ∀ u,
        (db.expire maxAttempts expired).tests.find j = some u → u.status ≠ .queued := by
      intro j hj u hu
      obtain ⟨p, hp, -, hdis, rfl⟩ := Db.mem_bereft.mp hj
      exact hexpired.not_queued hp (by simp [hdis]) hu
    obtain ⟨t', ht', hm⟩ := hall.find hids (t := t) ht
    exact ⟨t', ht', hm.testMove⟩

/-- What a transaction does to a test. -/
theorem Effect.move {now : ℚ} {skip : Lock → Bool} {db db' : Db F} {c : Call} {r : Reply}
    (h : Effect E now skip db c (.commit r) db') (hl : db.Lifecycle [])
    {i : Int} {t : TestRow} (ht : db.tests.find i = some t) :
    ∃ t', db'.tests.find i = some t' ∧ t'.kind = t.kind ∧ t'.totalPairs = t.totalPairs ∧
      (TestMove t t' ∨ ((∃ job x random, c = .smoke job x random ∧ i = job.testId) ∧
        Passed db t t')) := by
  have stays : ∀ db'' : Db F, db''.tests = db.tests → ∃ t', db''.tests.find i = some t' ∧
      t'.kind = t.kind ∧ t'.totalPairs = t.totalPairs ∧ (TestMove t t' ∨
        ((∃ job x random, c = .smoke job x random ∧ i = job.testId) ∧ Passed db t t')) :=
    fun db'' he => ⟨t, by rw [he]; exact ht, rfl, rfl, .inl (.stays rfl rfl)⟩
  generalize hout : Finish.commit r = out at h
  cases h with
  | invalidSpec => cases hout
  | create _ _ _ s _ _ _ hspec hi hfin =>
    cases hi
    exact ⟨t, find_addTest ht, rfl, rfl, .inl (.stays rfl rfl)⟩
  | smoke job x random fin _ _ hj hfin =>
    subst hfin
    cases fin with
    | rollback => cases hout
    | commit =>
      obtain ⟨t', ht', hk, htot, hm | ⟨hi, hpass⟩⟩ := hj.move ht
      · exact ⟨t', ht', hk, htot, .inl hm⟩
      · exact ⟨t', ht', hk, htot, .inr ⟨⟨job, x, random, rfl, hi⟩, hpass⟩⟩
  | promote _ _ hp =>
    obtain ⟨t', ht', hm⟩ := hp.move ht
    obtain ⟨hk, htot, hmove⟩ := hm.testMove
    exact ⟨t', ht', hk, htot, .inl hmove⟩
  | stop testId fin _ _ hst hfin =>
    subst hfin
    cases fin with
    | rollback => cases hout
    | commit =>
      obtain ⟨t', ht', hk, htot, hmove⟩ := hst.move ht
      exact ⟨t', ht', hk, htot, .inl hmove⟩
  | setPriority testId priority _ _ _ hst hfin =>
    subst hfin
    cases hst with
    | refused => cases hout
    | updated u hu =>
      rcases db.find_updateTest_cases testId (.prioritise priority) (TestRow.prioritise_id priority)
        ht with ⟨-, hf⟩ | ⟨-, hf⟩
      · exact ⟨_, hf, rfl, rfl, .inl (.stays rfl rfl)⟩
      · exact ⟨_, hf, rfl, rfl, .inl (.stays rfl rfl)⟩
  | register reg =>
    refine stays _ ?_
    unfold Db.upsertClient
    split <;> rfl
  | heartbeat => exact stays _ rfl
  | ban => exact stays _ rfl
  | claim _ _ _ _ _ hc hfin =>
    refine stays _ ?_
    cases hc with
    | answered => rfl
    | leased _ _ _ _ _ _ _ _ hdb => subst hdb; rfl
  | submit _ _ fin _ _ hsub hfin =>
    subst hfin
    cases hsub with
    | unknown => cases hout
    | refused => cases hout
    | accepted p g _ _ _ _ _ href =>
      obtain ⟨t', ht', hm⟩ := href.find (t := t) ht
      obtain ⟨hk, htot, hmove⟩ := hm.testMove
      exact ⟨t', ht', hk, htot, .inl hmove⟩
  | abandon _ _ _ _ _ ha hfin =>
    refine stays _ ?_
    cases ha with
    | refused => rfl
    | released => rfl
  | recover fin _ _ hrec hfin =>
    subst hfin
    cases fin with
    | rollback => cases hout
    | commit =>
      obtain ⟨t', ht', hk, htot, hmove⟩ := hrec.move hl ht
      exact ⟨t', ht', hk, htot, .inl hmove⟩

/-- The lifecycle holds, and the worker remembers what its test asks for. -/
structure Server.Orderly (s : Server F) : Prop where
  lifecycle : s.db.Lifecycle []
  served : s.db.Served
  job : ∀ job, s.job = some job →
    ∃ t, s.db.tests.find job.testId = some t ∧ t.totalPairs = job.totalPairs

theorem Server.Orderly.smoke {s : Server F} (h : s.Orderly) {op : Op} {c : Call}
    (hc : s.callOf op.act = some c) : ∀ job x random, c = .smoke job x random →
      ∀ t, s.db.tests.find job.testId = some t → t.totalPairs = job.totalPairs := by
  rintro job x random rfl t ht
  rcases callOf_eq_some hc with ha | ⟨job', _, _, -, hj, heq⟩
  · rw [ha] at hc
    cases hc
  · cases heq
    obtain ⟨u, hu, htot⟩ := h.job _ hj
    cases Option.some.inj (ht.symm.trans hu)
    exact htot

/-- A step keeps every test, and its kind and size. -/
theorem Server.Orderly.move {s : Server F} (h : s.Orderly) (op : Op) {i : Int} {t : TestRow}
    (ht : s.db.tests.find i = some t) :
    ∃ t', (s.step E op).db.tests.find i = some t' ∧ t'.kind = t.kind ∧
      t'.totalPairs = t.totalPairs ∧
      (TestMove t t' ∨ ((∃ x random, op.act = .smokeFinish x random) ∧ Passed s.db t t')) := by
  have same : (s.step E op).db = s.db → ∃ t', (s.step E op).db.tests.find i = some t' ∧
      t'.kind = t.kind ∧ t'.totalPairs = t.totalPairs ∧
      (TestMove t t' ∨ ((∃ x random, op.act = .smokeFinish x random) ∧ Passed s.db t t')) := by
    intro hdb
    rw [hdb]
    exact ⟨t, ht, rfl, rfl, .inl (.stays rfl rfl)⟩
  rcases s.step_db E op with hdb | ⟨c, r, hc, -, heff⟩
  · exact same hdb
  · obtain ⟨t', ht', hk, htot, hm | ⟨⟨job, x, random, rfl, -⟩, hp⟩⟩ := heff.move h.lifecycle ht
    · exact ⟨t', ht', hk, htot, .inl hm⟩
    · refine ⟨t', ht', hk, htot, .inr ⟨?_, hp⟩⟩
      rcases callOf_eq_some hc with ha | ⟨_, x', random', ha, -, -⟩
      · rw [ha] at hc
        cases hc
      · exact ⟨x', random', ha⟩

theorem Server.Orderly.step {s : Server F} (h : s.Orderly) (op : Op) : (s.step E op).Orderly := by
  have hdb : (s.step E op).db.Lifecycle [] ∧ (s.step E op).db.Served := by
    rcases s.step_db E op with hdb | ⟨c, r, hc, -, heff⟩
    · rw [hdb]; exact ⟨h.lifecycle, h.served⟩
    · exact heff.lifecycle h.lifecycle h.served (h.smoke hc)
  refine ⟨hdb.1, hdb.2, fun job hj => ?_⟩
  -- a remembered test is one the worker just picked, or it was remembered before
  have hold : ∃ t, s.db.tests.find job.testId = some t ∧ t.totalPairs = job.totalPairs := by
    cases ha : op.act with
    | call c =>
      simp only [Server.step, ha] at hj
      exact h.job job hj
    | smokeFinish => simp [Server.step, ha] at hj
    | smokeStart =>
      simp only [Server.step, ha] at hj
      obtain ⟨t, ht, rfl⟩ := Option.map_eq_some_iff.mp hj
      have hmem := (List.mem_insertionSort _).mp (List.mem_of_mem_head? ht)
      exact ⟨t, Table.find_of_mem (List.mem_filter.mp hmem).1, rfl⟩
  obtain ⟨t, ht, htot⟩ := hold
  obtain ⟨t', ht', -, htot', -⟩ := h.move (E := E) op ht
  exact ⟨t', ht', htot'.trans htot⟩

theorem run_orderly (E : Env F) (ops : List Op) : (Server.run E ops).Orderly := by
  refine Server.run_induction ⟨Lifecycle.empty, ?_, ?_⟩ (fun s op h => h.step op) ops
  · simp [Db.Served, Server.init, Db.empty]
  · simp [Server.init]

/-- At most one test runs; one does if any is queued; it has pairs to give and no verdict; queued
tests have all their pairs untouched. A step moves a test along the lifecycle, where the smoke
worker may queue and start a test at once. -/
theorem lifecycle_invariant (E : Env F) (ops : List Op) :
    (∀ t ∈ (Server.run E ops).db.tests.rows, ∀ u ∈ (Server.run E ops).db.tests.rows,
      t.status = .running → u.status = .running → t = u) ∧
    ((∃ t ∈ (Server.run E ops).db.tests.rows, t.status = .queued) →
      ∃ u ∈ (Server.run E ops).db.tests.rows, u.status = .running) ∧
    (∀ t ∈ (Server.run E ops).db.tests.rows, t.status = .running →
      (∃ p ∈ (Server.run E ops).db.pairsOf t.id, p.status = .pending ∨ p.status = .leased) ∧
      (Server.run E ops).db.Undecided t) ∧
    (∀ t ∈ (Server.run E ops).db.tests.rows, t.status = .queued → 1 ≤ t.totalPairs ∧
      (((Server.run E ops).db.pairsOf t.id).length : Int) = t.totalPairs ∧
      ∀ p ∈ (Server.run E ops).db.pairsOf t.id, p.status = .pending ∧ p.attempts = 0) ∧
    (∀ op i t, (Server.run E ops).db.tests.find i = some t →
      ∃ t', (Server.run E (ops ++ [op])).db.tests.find i = some t' ∧
        (TestMove t t' ∨ ((∃ x random, op.act = .smokeFinish x random) ∧
          Passed (Server.run E ops).db t t'))) := by
  have h := run_orderly E ops
  refine ⟨h.lifecycle.single, ?_, ?_, ?_, ?_⟩
  · rintro ⟨t, ht, hq⟩
    exact h.served t ht hq
  · intro t ht hrun
    obtain ⟨hrem, hund⟩ := h.lifecycle.running t ht hrun (by simp)
    rw [Db.remaining_eq, List.countP_pos_iff] at hrem
    obtain ⟨p, hp, hopen⟩ := hrem
    refine ⟨⟨p, hp, ?_⟩, hund⟩
    simpa [PairRow.open] using hopen
  · intro t ht hq
    exact ⟨h.lifecycle.demands t ht, h.lifecycle.queued t ht hq⟩
  · intro op i t ht
    obtain ⟨t', ht', -, -, hm⟩ := h.move (E := E) op ht
    rw [Server.run_snoc]
    exact ⟨t', ht', hm⟩

/-- The smoke worker's transaction takes a test from validating to running when nothing runs. -/
theorem smoke_starts_test :
    ¬∀ (ops : List Op) (op : Op) (i : Int) (t t' : TestRow),
      (Server.run realEnv ops).db.tests.find i = some t →
      (Server.run realEnv (ops ++ [op])).db.tests.find i = some t' → TestMove t t' := by
  intro hall
  have hb : ((Server.run realEnv ((opening 1).take 2)).db.tests.find 1).any
      (·.status == .validating) = true := by decide +kernel
  have ha : ((Server.run realEnv ((opening 1).take 3)).db.tests.find 1).any
      (·.status == .running) = true := by decide +kernel
  obtain ⟨t, ht, hs⟩ := (Option.any_eq_true _ _).mp hb
  obtain ⟨t', ht', hs'⟩ := (Option.any_eq_true _ _).mp ha
  have hv : t.status = .validating := by simpa using hs
  have hr : t'.status = .running := by simpa using hs'
  cases hall ((opening 1).take 2) _ 1 t t' ht ht' with
  | stays h => rw [hv, hr] at h; cases h
  | moves h => rw [hv, hr] at h; cases h
  | finishes h => rw [hv] at h; cases h

end CapiNet
