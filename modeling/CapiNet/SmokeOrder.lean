import CapiNet.TestCreation

namespace CapiNet

open Txn Relational

variable {F : Type} [LinearOrder F] {E : Env F}

namespace Site

variable {g : Github} {W : Site F}

/-- While the worker sleeps undisturbed, a test that waits for it has a handler about to wake it. -/
def Attended (W : Site F) : Prop :=
  W.worker = .waiting → W.pending = false → W.errors = 0 →
    ∀ t ∈ W.server.db.tests.rows, t.status = .validating →
      ∃ (k : Nat) (r : Response), W.handlers[k]? = some (.notifying t.id r)

omit [LinearOrder F] in
/-- A handler that is not about to wake the worker changes, and the tests stay. -/
theorem Attended.set (h : W.Attended) {k : Nat} {old new : Handler}
    (hk : W.handlers[k]? = some old) (hold : ∀ i r, old ≠ .notifying i r) :
    (W.setHandler k new).Attended := by
  intro hw hp he t ht hval
  obtain ⟨j, r, hj⟩ := h hw hp he t ht hval
  have hne : k ≠ j := by
    rintro rfl
    exact hold _ _ (Option.some.inj (hk.symm.trans hj))
  exact ⟨j, r, by rw [setHandler, List.getElem?_set_ne hne]; exact hj⟩

end Site

omit [LinearOrder F] in
theorem Db.smokeJob_none {db : Db F} (h : db.smokeJob = none) {t : TestRow}
    (ht : t ∈ db.tests.rows) : t.status ≠ .validating := by
  intro hval
  have hsort := List.head?_eq_none_iff.mp (Option.map_eq_none_iff.mp h)
  have hmem : t ∈ (db.tests.rows.filter (·.status == .validating)).insertionSort (·.id ≤ ·.id) :=
    (List.mem_insertionSort _).mpr (List.mem_filter.mpr ⟨ht, by simp [hval]⟩)
  rw [hsort] at hmem
  cases hmem

omit [LinearOrder F] in
/-- The worker picks the first test that waits for it. -/
theorem Db.smokeJob_first {db : Db F} {job : SmokeJob} (h : db.smokeJob = some job) :
    (∃ t ∈ db.tests.rows, t.id = job.testId ∧ t.status = .validating) ∧
      ∀ t ∈ db.tests.rows, t.status = .validating → job.testId ≤ t.id := by
  obtain ⟨first, hfirst, rfl⟩ := Option.map_eq_some_iff.mp h
  have hsorted := List.pairwise_insertionSort (fun a b : TestRow => a.id ≤ b.id)
    (db.tests.rows.filter (·.status == .validating))
  have hmem : ∀ t, t ∈ (db.tests.rows.filter (·.status == .validating)).insertionSort
      (·.id ≤ ·.id) ↔ t ∈ db.tests.rows ∧ t.status = .validating := by
    intro t
    rw [List.mem_insertionSort, List.mem_filter, beq_iff_eq]
  cases hl : (db.tests.rows.filter (·.status == .validating)).insertionSort (·.id ≤ ·.id) with
  | nil =>
    rw [hl] at hfirst
    cases hfirst
  | cons head rest =>
    rw [hl] at hfirst hsorted hmem
    cases hfirst
    obtain ⟨hrow, hval⟩ := (hmem first).mp List.mem_cons_self
    refine ⟨⟨first, hrow, rfl, hval⟩, fun t ht hwaits => ?_⟩
    rcases List.mem_cons.mp ((hmem t).mpr ⟨ht, hwaits⟩) with rfl | hrest
    · exact le_rfl
    · exact List.rel_of_pairwise_cons hsorted hrest

namespace Site

variable {g : Github} {W : Site F}

/-- What a handler's turn leaves alone. -/
theorem step_resolved (E : Env F) (g : Github) (W : Site F) (k : Nat)
    (curl curl' : String → CurlOutput) (now : ℚ) :
    (W.step E g (.resolved k curl curl' now)).worker = W.worker ∧
    (W.step E g (.resolved k curl curl' now)).pending = W.pending ∧
    (W.step E g (.resolved k curl curl' now)).errors = W.errors ∧
    (W.step E g (.resolved k curl curl' now)).server.job = W.server.job ∧
    (W.step E g (.resolved k curl curl' now)).server.db.tests.rows = W.server.db.tests.rows ∧
    ∀ (j : Nat) i r, W.handlers[j]? = some (.notifying i r) →
      (W.step E g (.resolved k curl curl' now)).handlers[j]? = some (.notifying i r) := by
  dsimp only [Site.step]
  split
  next body spec hk =>
    have hkept : ∀ (new : Handler) (j : Nat) i r, W.handlers[j]? = some (.notifying i r) →
        (W.handlers.set k new)[j]? = some (.notifying i r) := by
      intro new j i r hj
      have hne : k ≠ j := by
        rintro rfl
        rw [hk] at hj
        cases hj
      rw [List.getElem?_set_ne hne]
      exact hj
    split
    · exact ⟨rfl, rfl, rfl, rfl, rfl, hkept _⟩
    · split
      · exact ⟨rfl, rfl, rfl, rfl, rfl, hkept _⟩
      · exact ⟨rfl, rfl, rfl, rfl, rfl, hkept _⟩
  next => exact ⟨rfl, rfl, rfl, rfl, rfl, fun _ _ _ hj => hj⟩

theorem Attended.step (h : W.Attended) (hord : W.server.Orderly) (g : Github) (e : SiteEvent) :
    (W.step E g e).Attended := by
  cases e with
  | request body shelf =>
    intro hw hp he t ht hval
    obtain ⟨j, r, hj⟩ := h hw hp he t ht hval
    refine ⟨j, r, ?_⟩
    dsimp only [Site.step]
    rw [List.getElem?_append_left (List.getElem?_eq_some_iff.mp hj).1]
    exact hj
  | resolved k curl curl' now =>
    intro hw hp he t ht hval
    obtain ⟨hworker, hpending, herrors, -, hrows, hkept⟩ := step_resolved E g W k curl curl' now
    rw [hrows] at ht
    obtain ⟨j, r, hj⟩ := h (hworker ▸ hw) (hpending ▸ hp) (herrors ▸ he) t ht hval
    exact ⟨j, r, hkept j _ r hj⟩
  | commit k =>
    dsimp only [Site.step]
    split
    next row answer hk =>
      intro hw hp he t ht hval
      rcases Table.mem_of_mem_place ht with hold | rfl
      · exact Attended.set h hk (by simp) hw hp he t hold hval
      · exact ⟨k, answer, by
          simp only [setHandler, setDb]
          exact List.getElem?_set_self (List.getElem?_eq_some_iff.mp hk).1⟩
    next => exact h
  | lost k =>
    dsimp only [Site.step]
    split
    next hk => exact h.set hk (by simp)
    next hk => exact h.set hk (by simp)
    next => exact h
  | notify k =>
    dsimp only [Site.step]
    split
    · intro _ hp
      cases hp
    · exact h
  | wake timedOut =>
    dsimp only [Site.step]
    split
    · intro hw
      cases hw
    · exact h
  | look =>
    dsimp only [Site.step]
    split
    · intro hw _ _ t ht
      cases hjob : W.server.db.smokeJob with
      | none => exact fun hval => absurd hval (Db.smokeJob_none hjob ht)
      | some job =>
        simp [Server.step, hjob] at hw
    · exact h
  | examined x random now skip =>
    dsimp only [Site.step]
    split
    · split
      · intro hw
        cases hw
      · intro _ _ he
        cases he
    · exact h
  | workerFails =>
    dsimp only [Site.step]
    split
    · exact h
    · intro _ _ he
      cases he
  | other op =>
    dsimp only [Site.step]
    split
    next haside =>
      intro hw hp he t ht hval
      obtain ⟨u, hu, hid, -, hmove⟩ := hord.test_kept op (fun body cc bc hact => by
        rw [hact] at haside
        cases haside) ht
      rw [← hid]
      exact h hw hp he u hu (hmove hval)
    next => exact h
  | restart =>
    intro _ hp
    cases hp

end Site

/-- While the worker sleeps with nothing pending, and has logged no error since the server started,
every test that waits for it has a handler about to wake it: no wake-up is lost, however the threads
interleave and however often the server is started again. -/
theorem no_test_forgotten (E : Env F) (g : Github) (events : List SiteEvent) :
    (Site.run E g events).Attended := by
  induction events using List.reverseRecOn with
  | nil =>
    intro _ hp
    cases hp
  | append_singleton events e ih =>
    rw [Site.run_snoc]
    exact ih.step (Site.run_sound E g events).1 g e

/-- The worker finds nothing and sleeps, and a test is committed. -/
def committedAsleep : List SiteEvent :=
  [.wake false, .look, .request (gauntletBody 1) (shelfOf 1),
    .resolved 0 (fun _ => commitOf 'a') (fun _ => commitOf 'b') 0, .commit 0]

theorem no_test_forgotten_asleep :
    ∃ (k : Nat) (r : Response),
      (Site.run realEnv echoGithub committedAsleep).handlers[k]? = some (.notifying 1 r) := by
  have hany : (Site.run realEnv echoGithub committedAsleep).server.db.tests.rows.any
      (fun t => t.id == 1 && t.status == .validating) = true := by decide +kernel
  obtain ⟨t, ht, hboth⟩ := List.any_eq_true.mp hany
  obtain ⟨hid, hval⟩ := (Bool.and_eq_true_iff).mp hboth
  rw [← beq_iff_eq.mp hid]
  exact no_test_forgotten realEnv echoGithub committedAsleep (by decide +kernel)
    (by decide +kernel) (by decide +kernel) t ht (beq_iff_eq.mp hval)

/-- The examination of a test ended, and the test does not wait any more. -/
def Settles {α : Type} (db : Db F) (testId : Int) : Finish α → Db F → Prop
  | .rollback _, _ => ∀ t, db.tests.find testId = some t → t.status ≠ .validating
  | .commit _, db' => ∀ t, db'.tests.find testId = some t → t.status ≠ .validating

theorem ensures_settles {skip : Lock → Bool} {now : ℚ} {job : SmokeJob} {x : Examination}
    {random : Nat → ℚ} {db : Db F} :
    Script.Ensures skip (smokeFinish E now job x random) db (Settles db job.testId) := by
  simp only [smokeFinish, Script.ensures_bind, Script.ensures_acquire, Script.ensures_select]
  cases ht : db.tests.find job.testId with
  | none => simp
  | some t =>
    dsimp only
    split
    next hs =>
      refine Script.ensures_pure.mpr fun u hu => ?_
      cases Option.some.inj (ht.symm.trans hu)
      exact hs
    next hs =>
      cases hx : (job.examine x).2 with
      | none =>
        simp only [Script.ensures_bind, Script.ensures_update, Script.ensures_pure]
        intro u hu
        obtain ⟨v, -, ⟨-, rfl⟩ | ⟨hne, -⟩⟩ := Db.of_find_updateTest hu
        · simp [TestRow.judge]
        · exact absurd rfl hne
      | some fens =>
        simp only [Script.ensures_bind, Script.ensures_select]
        split
        next => simp
        next =>
          simp only [Script.ensures_bind, Script.ensures_update, Script.ensures_select]
          split
          next => simp
          next =>
            simp only [Script.ensures_bind, Script.ensures_update]
            refine ensures_refreshTest.mono fun _ db₁ hr => ?_
            refine ensures_promoteNextTest.mono fun promoted db₂ hp =>
              Script.ensures_pure.mpr fun u hu => ?_
            -- queued, and then recomputed and promoted at most
            have hqueued : ∃ v, (db.enqueue job.testId fens random
                ((job.examine x).1 ++ "SMOKE TEST PASSED\n")).tests.find job.testId = some v ∧
                v.status = .queued := by
              rw [(enqueue_spec db job.testId fens random _).tests, Table.find_modify, ht]
              exact ⟨_, rfl, by simp [(Table.find_some ht).2, TestRow.judge]⟩
            obtain ⟨v, hv, hq⟩ := hqueued
            obtain ⟨w, hw, hmove⟩ := Refreshed.find hr hv
            obtain ⟨w', hw', hmove'⟩ := hp.move hw
            cases Option.some.inj (hw'.symm.trans hu)
            have hstatus : ∀ {ids : List Int} {a b : TestRow}, RefreshMove now ids job.testId a b →
                a.status ≠ .validating → b.status ≠ .validating := by
              intro ids a b h ha
              cases h with
              | stays => exact ha
              | finished => simp [TestRow.finish]
              | promoted => simp [TestRow.run]
            exact hstatus hmove' (hstatus hmove (by simp [hq]))

namespace Site

variable {g : Github} {W V : Site F} {e : SiteEvent} {i : Int}

/-- The test a step picks for examination. -/
def picked (W : Site F) : SiteEvent → Option Int
  | .look => if W.worker = .looking then W.server.db.smokeJob.map (·.testId) else none
  | _ => none

/-- The test whose examination a step ends. One that failed is made again. -/
def ended (E : Env F) (W : Site F) : SiteEvent → Option Int
  | .examined x random now skip =>
    if W.worker = .examining then
      match W.server.reply E { now, act := .smokeFinish x random, skip } with
      | some (.ok _) => W.server.job.map (·.testId)
      | _ => none
    else none
  | _ => none

/-- What the steps of a run note, in order. -/
def noted (E : Env F) (g : Github) (note : Site F → SiteEvent → Option Int) (W : Site F) :
    List SiteEvent → List Int
  | [] => []
  | e :: events => (note W e).toList ++ noted E g note (W.step E g e) events

theorem noted_snoc (E : Env F) (g : Github) (note : Site F → SiteEvent → Option Int) (W : Site F)
    (events : List SiteEvent) (e : SiteEvent) :
    noted E g note W (events ++ [e]) =
      noted E g note W events ++ (note (events.foldl (step E g) W) e).toList := by
  induction events generalizing W with
  | nil => simp [noted]
  | cons first events ih =>
    rw [List.cons_append, noted, noted, ih, List.append_assoc]
    rfl

/-- There is such a test, and it has left validation. -/
def Settled (W : Site F) (i : Int) : Prop :=
  (∃ u ∈ W.server.db.tests.rows, u.id = i) ∧
    ∀ t ∈ W.server.db.tests.rows, t.id = i → t.status ≠ .validating

theorem Moves.known (hm : W.Moves E g e V) {i : Int} (h : ∃ u ∈ W.server.db.tests.rows, u.id = i) :
    ∃ u ∈ V.server.db.tests.rows, u.id = i := by
  obtain ⟨u, hu, rfl⟩ := h
  obtain ⟨v, hv, -⟩ := hm.extends (Table.find_of_mem hu)
  exact ⟨v, Table.find_some hv⟩

/-- No test comes back to validation, and none is committed in its place. -/
theorem Settled.step (h : W.Settled i) (hs : W.Sound E) (hord : W.server.Orderly)
    (hm : W.Moves E g e V) : V.Settled i := by
  obtain ⟨⟨u, hu, rfl⟩, hleft⟩ := h
  refine ⟨hm.known ⟨u, hu, rfl⟩, fun t ht hid hval => ?_⟩
  rcases hm.test_origin hord ht with ⟨v, hv, hvid, -, hmove⟩ | ⟨k, answer, -, hk, -⟩
  · exact hleft v hv (hvid.trans hid) (hmove hval)
  · have hfind := Table.find_of_mem hu
    rw [← hid, (hs.drawn k t answer hk).2] at hfind
    cases hfind

theorem Settled.run {before : List SiteEvent} (h : (run E g before).Settled i)
    (after : List SiteEvent) : (run E g (before ++ after)).Settled i := by
  induction after using List.reverseRecOn with
  | nil => rwa [List.append_nil]
  | append_singleton after e ih =>
    rw [← List.append_assoc]
    obtain ⟨hord, hs⟩ := run_sound E g (before ++ after)
    exact ih.step hs hord (run_moves E g (before ++ after) e)

/-- The tests examined to the end are different and have left validation; the one under examination
is there and is none of them. -/
structure Examined (W : Site F) (ends : List Int) : Prop where
  once : ends.Nodup
  settled : ∀ i ∈ ends, W.Settled i
  examining : W.worker = .examining → ∃ job, W.server.job = some job ∧
    (∃ u ∈ W.server.db.tests.rows, u.id = job.testId) ∧ job.testId ∉ ends

/-- An examination that ends leaves its test waiting no more. -/
theorem examined_settled {job : SmokeJob} (hjob : W.server.job = some job) {x : Examination}
    {random : Nat → ℚ} {now : ℚ} {skip : Lock → Bool} {r : Reply}
    (hr : W.server.reply E { now, act := .smokeFinish x random, skip } = some (.ok r))
    {t : TestRow} (ht : t ∈ (W.server.step E
      { now, act := .smokeFinish x random, skip }).db.tests.rows) (hid : t.id = job.testId) :
    t.status ≠ .validating := by
  have hends : Script.Ensures skip ((Call.smoke job x random).program E now) W.server.db
      (Settles W.server.db job.testId) :=
    Script.Ensures.map (ensures_settles.mono fun fin db' h => by cases fin <;> exact h)
  have hend := hends.ended
  simp only [Server.reply, Server.callOf, hjob, Option.map_some, Call.atomically,
    Option.some.injEq] at hr
  simp only [Server.step, Server.callOf, hjob, Option.map_some, Call.atomically] at ht
  rw [hr] at hend
  have hfind := Table.find_of_mem ht
  rw [hid] at hfind
  generalize (Script.atomically skip ((Call.smoke job x random).program E now) W.server.db).2 = db'
    at hend hfind
  cases hend with
  | undone _ _ h => exact h t hfind
  | committed _ _ h => exact h t hfind

/-- Steps that neither pick a test nor end an examination. -/
theorem Examined.quiet {ends : List Int} (h : W.Examined ends) (hs : W.Sound E)
    (hord : W.server.Orderly) (hm : W.Moves E g e V)
    (hworker : V.worker = .examining → W.worker = .examining ∧ V.server.job = W.server.job) :
    V.Examined ends where
  once := h.once
  settled i hi := (h.settled i hi).step hs hord hm
  examining hw := by
    obtain ⟨hbefore, hjob⟩ := hworker hw
    obtain ⟨job, hj, hknown, hnew⟩ := h.examining hbefore
    exact ⟨job, hjob.trans hj, hm.known hknown, hnew⟩

theorem Examined.step {ends : List Int} (h : W.Examined ends) (hs : W.Sound E)
    (hord : W.server.Orderly) (g : Github) (e : SiteEvent) :
    (W.step E g e).Examined (ends ++ (W.ended E e).toList) := by
  have hm := step_moves hs g e
  have quiet : W.ended E e = none → ((W.step E g e).worker = .examining →
      W.worker = .examining ∧ (W.step E g e).server.job = W.server.job) →
      (W.step E g e).Examined (ends ++ (W.ended E e).toList) := by
    intro hended hworker
    rw [hended, Option.toList_none, List.append_nil]
    exact h.quiet hs hord hm hworker
  cases e with
  | request => exact quiet rfl fun hw => ⟨hw, rfl⟩
  | resolved k curl curl' now =>
    obtain ⟨hworker, -, -, hjob, -⟩ := step_resolved E g W k curl curl' now
    exact quiet rfl fun hw => ⟨hworker ▸ hw, hjob⟩
  | commit k | lost k | notify k =>
    refine quiet rfl ?_
    dsimp only [Site.step]
    split <;> exact fun hw => ⟨hw, rfl⟩
  | wake timedOut =>
    refine quiet rfl ?_
    dsimp only [Site.step]
    split
    · exact fun hw => by cases hw
    · exact fun hw => ⟨hw, rfl⟩
  | workerFails =>
    refine quiet rfl ?_
    dsimp only [Site.step]
    split
    · exact fun hw => ⟨hw, rfl⟩
    · exact fun hw => by cases hw
  | other op =>
    refine quiet rfl ?_
    dsimp only [Site.step]
    split
    next haside =>
      refine fun hw => ⟨hw, ?_⟩
      cases hact : op.act with
      | call c => simp only [Server.step, hact]
      | smokeStart =>
        rw [hact] at haside
        cases haside
      | smokeFinish =>
        rw [hact] at haside
        cases haside
    next => exact fun hw => ⟨hw, rfl⟩
  | restart => exact quiet rfl fun hw => by cases hw
  | look =>
    by_cases hw : W.worker = .looking
    · cases hjob : W.server.db.smokeJob with
      | none =>
        refine quiet rfl fun hexamining => ?_
        simp [Site.step, hw, Server.step, hjob] at hexamining
      | some job =>
        obtain ⟨⟨u, hu, hid, hval⟩, -⟩ := Db.smokeJob_first hjob
        have hstep : W.step E g .look =
            { W with server := { W.server with job := some job }, worker := .examining } := by
          simp [Site.step, hw, Server.step, Server.callOf, hjob]
        rw [hstep]
        refine ⟨(List.append_nil ends).symm ▸ h.once, fun i hi => ?_, fun _ => ⟨job, rfl,
          ⟨u, hu, hid⟩, fun hmem => ?_⟩⟩
        · exact h.settled i (by simpa [ended] using hi)
        · exact (h.settled job.testId (by simpa [ended] using hmem)).2 u hu hid hval
    · refine quiet rfl fun hexamining => ?_
      have hstep : W.step E g .look = W := by simp [Site.step, hw]
      rw [hstep] at hexamining ⊢
      exact ⟨hexamining, rfl⟩
  | examined x random now skip =>
    by_cases hw : W.worker = .examining
    · obtain ⟨job, hjob, hknown, hnew⟩ := h.examining hw
      rcases hr : W.server.reply E { now, act := .smokeFinish x random, skip } with _ | (err | r)
      · refine quiet (by simp [ended, hr]) fun hexamining => ?_
        simp [Site.step, hw, hr] at hexamining
      · refine quiet (by simp [ended, hr]) fun hexamining => ?_
        simp [Site.step, hw, hr] at hexamining
      · have hended : W.ended E (.examined x random now skip) = some job.testId := by
          simp [ended, hw, hr, hjob]
        have hstep : W.step E g (.examined x random now skip) =
            { W with
              server := W.server.step E { now, act := .smokeFinish x random, skip }
              worker := .looking } := by
          simp [Site.step, hw, hr]
        rw [hended]
        refine ⟨?_, fun i hi => ?_, fun hexamining => ?_⟩
        · refine List.nodup_append.mpr ⟨h.once, by simp, ?_⟩
          rintro i hi j hj rfl
          cases Option.mem_toList.mp hj
          exact hnew hi
        · rcases List.mem_append.mp hi with hi | hi
          · exact (h.settled i hi).step hs hord hm
          · cases Option.mem_toList.mp hi
            refine ⟨hm.known hknown, fun t ht hid => ?_⟩
            rw [hstep] at ht
            exact examined_settled hjob hr ht hid
        · rw [hstep] at hexamining
          cases hexamining
    · refine quiet (by simp [ended, hw]) fun hexamining => ?_
      have hstep : W.step E g (.examined x random now skip) = W := by simp [Site.step, hw]
      rw [hstep] at hexamining ⊢
      exact ⟨hexamining, rfl⟩

theorem run_examined (E : Env F) (g : Github) (events : List SiteEvent) :
    (run E g events).Examined (noted E g (ended E) start events) := by
  induction events using List.reverseRecOn with
  | nil => exact ⟨.nil, nofun, nofun⟩
  | append_singleton events e ih =>
    obtain ⟨hord, hs⟩ := run_sound E g events
    rw [run_snoc, noted_snoc]
    exact ih.step hs hord g e

/-- The handlers from `m` on have tests with identities from `n` on. -/
structure Later (n : Int) (m : Nat) (W : Site F) : Prop where
  next : n ≤ W.server.db.tests.next
  inserted : ∀ (k : Nat) row answer, m ≤ k → W.handlers[k]? = some (.inserted row answer) → n ≤ row.id
  answered : ∀ (k : Nat) hd (u : TestRow), m ≤ k → W.handlers[k]? = some hd →
    hd.answer = some u.announcement → n ≤ u.id

theorem Later.step {n : Int} {m : Nat} (h : W.Later n m) (hs : W.Sound E) (hm : W.Moves E g e V) :
    V.Later n m where
  next := h.next.trans hm.next_le
  inserted k row answer hmk hk := by
    rcases hm.working hk rfl with hold | ⟨_, _, _, hhd, -⟩ | ⟨_, _, _, _, _, -, -, -, -, hhd, -⟩
    · exact h.inserted k row answer hmk hold
    · cases hhd
    · cases hhd
      exact h.next
  answered k hd u hmk hk hans := by
    rcases hm.answer hk hans rfl with ⟨old, hold, hans'⟩ | ⟨row, -, hins, -⟩
    · exact h.answered k old u hmk hold hans'
    · rw [← TestRow.announcement_id (hs.inserted k row _ hins).2.2.symm]
      exact h.inserted k row _ hmk hins

/-- A test has a larger identity than all tests that were there when its request arrived. -/
theorem run_later (E : Env F) (g : Github) (before after : List SiteEvent) :
    (run E g (before ++ after)).Later (run E g before).server.db.tests.next
      (run E g before).handlers.length := by
  induction after using List.reverseRecOn with
  | nil =>
    have hend : ∀ (k : Nat) hd, (run E g before).handlers.length ≤ k →
        (run E g before).handlers[k]? ≠ some hd := by
      intro k hd hk
      rw [List.getElem?_eq_none hk]
      exact nofun
    rw [List.append_nil]
    exact ⟨le_rfl, fun k _ _ hmk hk => absurd hk (hend k _ hmk),
      fun k _ _ hmk hk => absurd hk (hend k _ hmk)⟩
  | append_singleton after e ih =>
    rw [← List.append_assoc]
    exact ih.step (run_sound E g (before ++ after)).2 (run_moves E g (before ++ after) e)

end Site

/-- In every run the worker picks a test that waits, and all tests there with smaller identities
have left validation for good; it ends the examination of each test at most once, which then has
left validation for good; and a test whose request arrives when another test is there gets the
larger identity, so that it is not picked while that one waits. -/
theorem examined_in_order (E : Env F) (g : Github) (events : List SiteEvent) :
    (∀ before e after i, events = before ++ e :: after → (Site.run E g before).picked e = some i →
      (∃ t ∈ (Site.run E g before).server.db.tests.rows, t.id = i ∧ t.status = .validating) ∧
      ∀ u ∈ (Site.run E g before).server.db.tests.rows, u.id < i →
        (Site.run E g before).Settled u.id ∧ (Site.run E g events).Settled u.id) ∧
    (Site.noted E g (Site.ended E) Site.start events).Nodup ∧
    (∀ i ∈ Site.noted E g (Site.ended E) Site.start events, (Site.run E g events).Settled i) ∧
    (∀ before after (k : Nat) hd (u : TestRow), events = before ++ after →
      (Site.run E g before).handlers.length ≤ k → (Site.run E g events).handlers[k]? = some hd →
      hd.answer = some u.announcement →
      ∀ t ∈ (Site.run E g before).server.db.tests.rows, t.id < u.id) := by
  have h := Site.run_examined E g events
  refine ⟨?_, h.once, h.settled, ?_⟩
  · rintro before e after i rfl hpicked
    cases e with
    | look =>
      dsimp only [Site.picked] at hpicked
      split at hpicked
      next =>
        obtain ⟨job, hjob, rfl⟩ := Option.map_eq_some_iff.mp hpicked
        obtain ⟨hwaits, hfirst⟩ := Db.smokeJob_first hjob
        refine ⟨hwaits, fun u hu hlt => ?_⟩
        have hsettled : (Site.run E g before).Settled u.id :=
          ⟨⟨u, hu, rfl⟩, fun t ht hid hval => by
            have hle := hfirst t ht hval
            omega⟩
        exact ⟨hsettled, hsettled.run _⟩
      next => cases hpicked
    | _ => cases hpicked
  · rintro before after k hd u rfl hk hhd hans t ht
    have hle := (Site.run_later E g before after).answered k hd u hk hhd hans
    have hlt := (Site.run E g before).server.db.tests.below t ht
    omega

/-- Two requests, of which the later one commits first; the worker wakes up in between. -/
def overtaken : List SiteEvent :=
  [.request (gauntletBody 1) (shelfOf 1), .request (gauntletBody 1) (shelfOf 1),
    .resolved 0 (fun _ => commitOf 'a') (fun _ => commitOf 'b') 0,
    .resolved 1 (fun _ => commitOf 'a') (fun _ => commitOf 'b') 0, .commit 1, .wake false]

theorem examined_in_order_overtaken :
    (∃ t ∈ (Site.run realEnv echoGithub overtaken).server.db.tests.rows,
      t.id = 2 ∧ t.status = .validating) ∧
    ∀ u ∈ (Site.run realEnv echoGithub overtaken).server.db.tests.rows, u.id < 2 →
      (Site.run realEnv echoGithub overtaken).Settled u.id ∧
        (Site.run realEnv echoGithub (overtaken ++ [.look, .commit 0])).Settled u.id :=
  (examined_in_order realEnv echoGithub (overtaken ++ [.look, .commit 0])).1 overtaken .look
    [.commit 0] 2 rfl (by decide +kernel)

end CapiNet
