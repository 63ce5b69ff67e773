import CapiNet.GeneratedJobs
import CapiNet.RequestRules

namespace CapiNet

open Txn Relational

variable {F : Type}

namespace Db

def Started (db : Db F) (i : Int) : Prop := ∃ u, db.tests.find i = some u ∧ u.startedAt.isSome

def RunningAt (db : Db F) (i : Int) : Prop := ∃ u, db.tests.find i = some u ∧ u.status = .running

def ValidatingAt (db : Db F) (i : Int) : Prop :=
  ∃ u, db.tests.find i = some u ∧ u.status = .validating

/-- A test starts when it runs first; until then none of its pairs is leased. One test runs. -/
structure Timed (db : Db F) : Prop where
  waiting : ∀ i u, db.tests.find i = some u → u.status = .validating ∨ u.status = .queued →
    u.startedAt = none
  running : ∀ i u, db.tests.find i = some u → u.status = .running → u.startedAt.isSome
  single : ∀ i j, db.RunningAt i → db.RunningAt j → i = j
  leased : ∀ i p, db.jobPairs.find i = some p → p.status = .leased → db.Started p.testId

/-- No test disappears, a start is never taken back, and no examination is repeated. -/
def StartsKept (s t : Db F) : Prop :=
  ∀ i u, s.tests.find i = some u → ∃ v, t.tests.find i = some v ∧
    (u.startedAt.isSome → v.startedAt.isSome) ∧ (u.status ≠ .validating → v.status ≠ .validating)

theorem StartsKept.refl (s : Db F) : s.StartsKept s := fun _ u hu => ⟨u, hu, id, id⟩

theorem StartsKept.trans {s t u : Db F} (h : s.StartsKept t) (h' : t.StartsKept u) :
    s.StartsKept u := by
  intro i x hx
  obtain ⟨y, hy, hxy, hxy'⟩ := h i x hx
  obtain ⟨z, hz, hyz, hyz'⟩ := h' i y hy
  exact ⟨z, hz, fun hs => hyz (hxy hs), fun hs => hyz' (hxy' hs)⟩

theorem StartsKept.started {s t : Db F} (h : s.StartsKept t) {i : Int} (hi : s.Started i) :
    t.Started i := by
  obtain ⟨u, hu, hs⟩ := hi
  obtain ⟨v, hv, hkeep, -⟩ := h i u hu
  exact ⟨v, hv, hkeep hs⟩

/-- A queued test has never run. -/
theorem Timed.queued {s : Db F} (h : s.Timed) {i : Int} {u : TestRow} (hu : s.tests.find i = some u)
    (hq : u.status = .queued) : ¬s.Started i ∧ u.status ≠ .validating := by
  refine ⟨?_, by simp [hq]⟩
  rintro ⟨v, hv, hst⟩
  cases Option.some.inj (hu.symm.trans hv)
  rw [h.waiting i u hu (.inr hq)] at hst
  cases hst

theorem RunningAt.started {s : Db F} {i : Int} (h : s.RunningAt i) (hs : s.Timed) : s.Started i := by
  obtain ⟨u, hu, hrun⟩ := h
  exact ⟨u, hu, hs.running i u hu hrun⟩

end Db

/-- A row of `tests` or `job_pairs` is protected by its lock. Only under the lock of the promotion
a test starts, or runs again. -/
def sameStart (key : Lock) (s t : Db F) : Prop :=
  (∀ i, key = .test i → ∀ u, s.tests.find i = some u → t.tests.find i = some u) ∧
  (∀ i, key = .pair i → ∀ p, s.jobPairs.find i = some p → t.jobPairs.find i = some p) ∧
  (key = .promotion → ∀ i, (t.RunningAt i → s.RunningAt i) ∧ (t.Started i → s.Started i))

def testStarts : Protocol (Db F) Lock where
  inv := Db.Timed
  steady := Db.StartsKept
  region := sameStart
  steady_refl := Db.StartsKept.refl
  steady_trans := Db.StartsKept.trans
  region_refl := fun _ _ => ⟨fun _ _ _ hu => hu, fun _ _ _ hp => hp, fun _ _ => ⟨id, id⟩⟩
  region_trans := by
    intro key s t u h h'
    refine ⟨fun i hi x hx => h'.1 i hi x (h.1 i hi x hx),
      fun i hi p hp => h'.2.1 i hi p (h.2.1 i hi p hp), fun hk i => ?_⟩
    exact ⟨fun hr => (h.2.2 hk i).1 ((h'.2.2 hk i).1 hr), fun hs => (h.2.2 hk i).2 ((h'.2.2 hk i).2 hs)⟩

section Rely

variable {held : List Lock} {s t : Db F} {i : Int}

theorem rely_test (h : testStarts.Rely held s t) (hi : .test i ∈ held) {u : TestRow}
    (hu : s.tests.find i = some u) : t.tests.find i = some u :=
  (h.2.2 _ hi).1 i rfl u hu

theorem rely_runningAt (h : testStarts.Rely held s t) (hi : .test i ∈ held) (hr : s.RunningAt i) :
    t.RunningAt i := by
  obtain ⟨u, hu, hrun⟩ := hr
  exact ⟨u, rely_test h hi hu, hrun⟩

theorem rely_started (h : testStarts.Rely held s t) (hs : s.Started i) : t.Started i :=
  h.2.1.started hs

theorem rely_unstarted (h : testStarts.Rely held s t) (hp : .promotion ∈ held) (hs : ¬s.Started i) :
    ¬t.Started i :=
  fun ht => hs (((h.2.2 _ hp).2.2 rfl i).2 ht)

theorem rely_unexamined (h : testStarts.Rely held s t) {u : TestRow} (hu : s.tests.find i = some u)
    (hv : u.status ≠ .validating) : ¬t.ValidatingAt i := by
  obtain ⟨v, hv', -, hkeep⟩ := h.2.1 i u hu
  rintro ⟨x, hx, hval⟩
  cases Option.some.inj (hv'.symm.trans hx)
  exact hkeep hv hval

end Rely

/-- What a transaction holds when it asks for a lock. It may have the lock, or it asks for locks
in their order. -/
def Justified (held : List Lock) (key : Lock) (s : Db F) : Prop :=
  match key with
  | .pair i => held = [] ∨ .pair i ∈ held
  | .test j => .test j ∈ held ∨ ((∀ k, .test k ∉ held) ∧ .promotion ∉ held) ∨
      (s.Started j ∧
        (∀ k, .test k ∈ held → (s.Started k ∧ k < j) ∨ (.promotion ∈ held ∧ ¬s.Started k)) ∧
        (.promotion ∈ held → ∃ r, .test r ∈ held ∧ s.RunningAt r))
  | .promotion => .promotion ∈ held ∨ ∀ k, .test k ∈ held →
      s.ValidatingAt k ∨ (s.Started k ∧ ∃ r, .test r ∈ held ∧ s.RunningAt r)
  | .promoted x => .promotion ∈ held ∧ (.test x ∈ held ∨ (¬s.Started x ∧ ¬s.ValidatingAt x))

/-- The writes of a transaction keep to the protocol, and touch rows of `tests` it has locked. -/
structure Tidy (held : List Lock) (w : Db F → Db F) (s : Db F) : Prop where
  guar : ∀ t, testStarts.Rely held s t → testStarts.Guar held t (w t)
  rows : ∃ g : Int → TestRow → TestRow,
    (∀ t i, (w t).tests.find i = (t.tests.find i).map (g i)) ∧
      ∀ i, g i = id ∨ (.test i ∈ held ∧ ∃ u, s.tests.find i = some u)

namespace Tidy

variable {held : List Lock} {w : Db F → Db F} {s t : Db F}

theorem init : Tidy [] id s :=
  ⟨fun t ht => ⟨ht.1, testStarts.steady_refl t, fun key _ => testStarts.region_refl key t⟩,
    fun _ => id, by simp, by simp⟩

theorem rely (h : Tidy held w s) (ht : testStarts.Rely held s t) : Tidy held w t := by
  obtain ⟨g, hg, hother⟩ := h.rows
  refine ⟨fun u hu => h.guar u (ht.trans hu), g, hg, fun i => ?_⟩
  rcases hother i with hi | ⟨hi, u, hu⟩
  · exact .inl hi
  · exact .inr ⟨hi, u, rely_test ht hi hu⟩

theorem lock (h : Tidy held w s) (keys : List Lock) : Tidy (keys ++ held) w s := by
  have hsub : ∀ key ∈ held, key ∈ keys ++ held := fun key hk => List.mem_append_right _ hk
  obtain ⟨g, hg, hother⟩ := h.rows
  refine ⟨fun u hu => ?_, g, hg, fun i => (hother i).imp id fun hi => ⟨hsub _ hi.1, hi.2⟩⟩
  obtain ⟨hinv, hsteady, hregion⟩ := h.guar u (hu.mono hsub)
  exact ⟨hinv, hsteady, fun key hk => hregion key fun hk' => hk (hsub key hk')⟩

theorem acquire (h : Tidy held w s) {key : Lock} {u : Db F} (hs : testStarts.Rely held s t)
    (ht : testStarts.Rely (key :: held) t u) : Tidy (key :: held) w u :=
  ((h.rely hs).lock [key]).rely ht

/-- A row the transaction sees is committed, unless it has locked it. -/
theorem committed (h : Tidy held w s) {i : Int} (hi : .test i ∉ held) {u : TestRow}
    (hu : (w t).tests.find i = some u) : t.tests.find i = some u := by
  obtain ⟨g, hg, hother⟩ := h.rows
  rcases hother i with hgi | hin
  · rw [hg, hgi, Option.map_id] at hu
    exact hu
  · exact absurd hin.1 hi

/-- The transaction sees no row that is not committed. -/
theorem present (h : Tidy held w s) {i : Int} {u : TestRow} (hu : (w s).tests.find i = some u) :
    ∃ v, s.tests.find i = some v := by
  obtain ⟨g, hg, -⟩ := h.rows
  rw [hg] at hu
  obtain ⟨v, hv, -⟩ := Option.map_eq_some_iff.mp hu
  exact ⟨v, hv⟩

/-- A row the transaction has locked stays as it sees it. -/
theorem stays (h : Tidy held w s) {i : Int} (hi : .test i ∈ held) {u : TestRow}
    (hu : (w s).tests.find i = some u) (ht : testStarts.Rely held s t) :
    (w t).tests.find i = some u := by
  obtain ⟨g, hg, -⟩ := h.rows
  rw [hg] at hu ⊢
  obtain ⟨x, hx, hxu⟩ := Option.map_eq_some_iff.mp hu
  rw [rely_test ht hi hx]
  exact congrArg some hxu

/-- A write that leaves the tests alone. Pairs that are not locked stay, and a lease it makes is
one of a test that has started. -/
theorem write (h : Tidy held w s) {f : Db F → Db F} (ht : ∀ db, (f db).tests = db.tests)
    (hlease : ∀ t, testStarts.Rely held s t → ∀ i p', (f (w t)).jobPairs.find i = some p' →
      p'.status = .leased → (∃ p, (w t).jobPairs.find i = some p ∧ p.status = .leased ∧
        p.testId = p'.testId) ∨ (w t).Started p'.testId)
    (hpairs : ∀ db i p, .pair i ∉ held → db.jobPairs.find i = some p →
      (f db).jobPairs.find i = some p) : Tidy held (f ∘ w) s := by
  have same : ∀ (db : Db F) (i : Int), (f db).tests.find i = db.tests.find i := by
    intro db i
    rw [ht]
  have started : ∀ (db : Db F) (i : Int), (f db).Started i ↔ db.Started i := by
    intro db i
    unfold Db.Started
    rw [same]
  have running : ∀ (db : Db F) (i : Int), (f db).RunningAt i ↔ db.RunningAt i := by
    intro db i
    unfold Db.RunningAt
    rw [same]
  obtain ⟨g, hg, hother⟩ := h.rows
  refine ⟨fun u hu => ?_, g, fun t i => (same (w t) i).trans (hg t i), hother⟩
  obtain ⟨hinv, hsteady, hregion⟩ := h.guar u hu
  refine ⟨⟨?_, ?_, ?_, ?_⟩, fun i x hx => ?_, fun key hk => ⟨?_, ?_, ?_⟩⟩
  · intro i x hx
    exact hinv.waiting i x ((same (w u) i).symm.trans hx)
  · intro i x hx
    exact hinv.running i x ((same (w u) i).symm.trans hx)
  · intro i j hi hj
    exact hinv.single i j ((running (w u) i).mp hi) ((running (w u) j).mp hj)
  · intro i p' hp' hs
    refine (started (w u) _).mpr ?_
    rcases hlease u hu i p' hp' hs with ⟨p, hp, hps, hid⟩ | hst
    · exact hid ▸ hinv.leased i p hp hps
    · exact hst
  · obtain ⟨v, hv, hkeep⟩ := hsteady i x hx
    exact ⟨v, (same (w u) i).trans hv, hkeep⟩
  · intro i hi x hx
    exact (same (w u) i).trans ((hregion key hk).1 i hi x hx)
  · rintro i rfl p hp
    exact hpairs (w u) i p hk ((hregion _ hk).2.1 i rfl p hp)
  · intro hkey i
    obtain ⟨hr, hs⟩ := (hregion key hk).2.2 hkey i
    exact ⟨fun hi => hr ((running (w u) i).mp hi), fun hi => hs ((started (w u) i).mp hi)⟩

end Tidy

/-- How a row may be rewritten under its lock, and under that of the promotion. -/
structure Fits (held : List Lock) (db : Db F) (id : Int) (v v' : TestRow) : Prop where
  waiting : v'.status = .validating ∨ v'.status = .queued → v'.startedAt = none
  running : v'.status = .running → v'.startedAt.isSome
  alone : v'.status = .running → v.status = .running ∨
    (.promotion ∈ held ∧ ∀ j, db.RunningAt j → j = id)
  fresh : v'.startedAt.isSome → v.startedAt.isSome ∨ .promotion ∈ held

namespace Tidy

variable {held : List Lock} {w : Db F → Db F} {s t : Db F}

theorem updateTest (h : Tidy held w s) (f : TestRow → TestRow) (hf : ∀ r, (f r).id = r.id)
    (hkeep : ∀ r, (r.startedAt.isSome → (f r).startedAt.isSome) ∧
      (r.status ≠ .validating → (f r).status ≠ .validating)) {id : Int} (hid : .test id ∈ held)
    {v : TestRow} (hv : s.tests.find id = some v)
    (hfit : ∀ t, testStarts.Rely held s t → ∀ v, (w t).tests.find id = some v →
      Fits held (w t) id v (f v)) :
    Tidy held (fun db => (w db).updateTest id f hf) s := by
  obtain ⟨g, hg, hother⟩ := h.rows
  refine ⟨fun u hu => ?_, fun i => if i = id then f ∘ g i else g i, fun t i => ?_, fun i => ?_⟩
  · obtain ⟨hinv, hsteady, hregion⟩ := h.guar u hu
    have hfit := hfit u hu
    have ran : ∀ i, ((w u).updateTest id f hf).RunningAt i →
        (w u).RunningAt i ∨ (.promotion ∈ held ∧ i = id ∧ ∀ j, (w u).RunningAt j → j = id) := by
      rintro i ⟨x, hx, hrun⟩
      obtain ⟨y, hy, ⟨rfl, rfl⟩ | ⟨-, rfl⟩⟩ := Db.of_find_updateTest hx
      · rcases (hfit y hy).alone hrun with hold | ⟨hp, hone⟩
        · exact .inl ⟨y, hy, hold⟩
        · exact .inr ⟨hp, rfl, hone⟩
      · exact .inl ⟨_, hy, hrun⟩
    refine ⟨⟨?_, ?_, ?_, ?_⟩, fun i x hx => ?_, fun key hk => ⟨?_, ?_, ?_⟩⟩
    · intro i x hx hs
      obtain ⟨y, hy, ⟨rfl, rfl⟩ | ⟨-, rfl⟩⟩ := Db.of_find_updateTest hx
      · exact (hfit y hy).waiting hs
      · exact hinv.waiting i _ hy hs
    · intro i x hx hs
      obtain ⟨y, hy, ⟨rfl, rfl⟩ | ⟨-, rfl⟩⟩ := Db.of_find_updateTest hx
      · exact (hfit y hy).running hs
      · exact hinv.running i _ hy hs
    · intro i j hi hj
      rcases ran i hi with hold | ⟨-, rfl, hone⟩
      · rcases ran j hj with hold' | ⟨-, rfl, hone⟩
        · exact hinv.single i j hold hold'
        · exact hone i hold
      · rcases ran j hj with hold' | ⟨-, rfl, -⟩
        · exact (hone j hold').symm
        · rfl
    · intro i p hp hs
      obtain ⟨y, hy, hyst⟩ := hinv.leased i p hp hs
      rcases (w u).find_updateTest_cases id f hf hy with ⟨-, hy'⟩ | ⟨-, hy'⟩
      · exact ⟨_, hy', (hkeep y).1 hyst⟩
      · exact ⟨_, hy', hyst⟩
    · obtain ⟨v, hv, hst, hval⟩ := hsteady i x hx
      rcases (w u).find_updateTest_cases id f hf hv with ⟨-, hv'⟩ | ⟨-, hv'⟩
      · exact ⟨_, hv', fun hx' => (hkeep v).1 (hst hx'), fun hx' => (hkeep v).2 (hval hx')⟩
      · exact ⟨v, hv', hst, hval⟩
    · rintro i rfl x hx
      have hne : i ≠ id := by
        rintro rfl
        exact hk hid
      rcases (w u).find_updateTest_cases id f hf ((hregion _ hk).1 i rfl x hx) with ⟨hi, -⟩ | ⟨-, hx'⟩
      · exact absurd hi hne
      · exact hx'
    · exact fun i hi p hp => (hregion key hk).2.1 i hi p hp
    · rintro rfl i
      obtain ⟨hr, hs⟩ := (hregion _ hk).2.2 rfl i
      refine ⟨fun hi => ?_, ?_⟩
      · rcases ran i hi with hi | ⟨hp, -⟩
        · exact hr hi
        · exact absurd hp hk
      · rintro ⟨x, hx, hst⟩
        obtain ⟨y, hy, ⟨rfl, rfl⟩ | ⟨-, rfl⟩⟩ := Db.of_find_updateTest hx
        · rcases (hfit y hy).fresh hst with hold | hp
          · exact hs ⟨y, hy, hold⟩
          · exact absurd hp hk
        · exact hs ⟨_, hy, hst⟩
  · rw [Db.find_updateTest, hg]
    cases hx : t.tests.find i with
    | none => rfl
    | some x =>
      have hgid : (g i x).id = i := by
        have hfind := hg t i
        rw [hx] at hfind
        exact (Table.find_some hfind).2
      by_cases hi : i = id
      · subst hi
        simp [hgid]
      · simp [hi, hgid]
  · by_cases hi : i = id
    · exact .inr (hi ▸ ⟨hid, v, hv⟩)
    · simpa only [if_neg hi] using hother i

theorem finished (h : Tidy held w s) (now : ℚ) (result : TestResult) {id : Int}
    (hid : .test id ∈ held) {v : TestRow} (hv : s.tests.find id = some v) :
    Tidy held (fun db => (w db).updateTest id (.finish now result) (TestRow.finish_id now result)) s := by
  refine h.updateTest (.finish now result) _ (fun r => ⟨fun hr => hr, by simp [TestRow.finish]⟩) hid hv
    fun t _ v _ => ?_
  exact ⟨by simp [TestRow.finish], by simp [TestRow.finish], by simp [TestRow.finish], .inl⟩

/-- Under the lock of the promotion no test starts to run in the eyes of the transaction. -/
theorem running_before (h : Tidy held w s) (hp : .promotion ∈ held) (ht : testStarts.Rely held s t)
    {j : Int} (hr : (w t).RunningAt j) : (w s).RunningAt j := by
  obtain ⟨u, hu, hrun⟩ := hr
  obtain ⟨g, hg, hother⟩ := h.rows
  rcases hother j with hgj | ⟨hj, x, hx⟩
  · rw [hg, hgj, Option.map_id] at hu
    obtain ⟨x, hx, hxrun⟩ := ((ht.2.2 _ hp).2.2 rfl j).1 ⟨u, hu, hrun⟩
    refine ⟨x, ?_, hxrun⟩
    rw [hg, hx, hgj]
    rfl
  · refine ⟨u, ?_, hrun⟩
    rw [hg, rely_test ht hj hx] at hu
    rw [hg, hx]
    exact hu

/-- The test a promotion has picked is its own, or is in the queue. -/
theorem target (h : Tidy held w s) {id : Int} (htarget : promotionTarget (w s) = some id) :
    .test id ∈ held ∨ ∃ q, s.tests.find id = some q ∧ q.status = .queued := by
  obtain ⟨-, q, hq, hqs⟩ := promotionTarget_eq_some htarget
  by_cases hid : .test id ∈ held
  · exact .inl hid
  · exact .inr ⟨q, h.committed hid hq, hqs⟩

variable {may : List Lock → Lock → Db F → Prop}

/-- What a promotion adds to the locks is the promotion itself and a test that has never run. -/
structure Promoting (held held' : List Lock) (w' : Db F → Db F) (s s' : Db F) : Prop where
  tidy : Tidy held' w' s'
  rely : testStarts.Rely held s s'
  kept : ∀ key ∈ held, key ∈ held'
  promotion : .promotion ∈ held'
  tests : ∀ k, .test k ∈ held' → .test k ∈ held ∨ ¬s'.Started k

theorem promote (h : Tidy held w s) (now : ℚ) :
    (promoteNextTest now).wp testStarts may (fun _ held' w' s' => Promoting held held' w' s s')
      held w s := by
  refine wp_promoteNextTest (fun t u ht hu => ?_) fun id t u v x ht hu htarget hv _ hx => ?_
  · refine ⟨h.acquire ht hu, ht.trans hu.tail, fun key hk => by simp [hk], by simp, ?_⟩
    exact fun k hk => .inl (by simpa using hk)
  · have hlocked : Tidy (Lock.test id :: Lock.promotion :: held) w x :=
      (h.acquire ht hu).acquire hv hx
    have hux : testStarts.Rely (.promotion :: held) u x := hv.trans hx.tail
    obtain ⟨hidle, q, hq, -⟩ := promotionTarget_eq_some htarget
    refine ⟨?_, (ht.trans hu.tail).trans hux.tail, fun key hk => by simp [hk], by simp, ?_⟩
    · obtain ⟨r, hr⟩ := (h.acquire ht hu).present hq
      obtain ⟨r', hr', -⟩ := hux.2.1 id r hr
      refine hlocked.updateTest _ _ (fun r => ⟨fun _ => rfl, by simp [TestRow.run]⟩) (by simp) hr'
        fun y hy v hv => ⟨by simp [TestRow.run], fun _ => rfl, fun _ => .inr ⟨by simp, ?_⟩,
          fun _ => .inr (by simp)⟩
      -- no test was running when the target was picked, and none has started to run since
      intro j hj
      obtain ⟨z, hz, hzrun⟩ := (h.acquire ht hu).running_before (by simp) (hux.trans hy.tail) hj
      exact absurd hzrun (hidle z (Table.find_some hz).1)
    · intro k hk
      rcases List.mem_cons.mp hk with heq | hk
      · obtain rfl : k = id := by simpa using heq
        rcases (h.acquire ht hu).target htarget with hin | ⟨q, hq, hqs⟩
        · exact .inl (by simpa using hin)
        · exact .inr (rely_unstarted hux (by simp) (hu.1.queued hq hqs).1)
      · exact .inl (by simpa using hk)

theorem updatePairs (h : Tidy held w s) (q : PairRow → Bool) (f : PairRow → PairRow)
    (hf : ∀ r, (f r).id = r.id) (hlocked : ∀ p, q p = true → .pair p.id ∈ held)
    (hlease : ∀ p, (f p).status ≠ .leased) : Tidy held (fun db => (w db).updatePairs q f hf) s := by
  refine h.write (f := fun db => db.updatePairs q f hf) (fun _ => rfl) ?_ ?_
  · intro t _ i p' hp' hs
    rw [Db.find_updatePairs] at hp'
    obtain ⟨p, hp, rfl⟩ := Option.map_eq_some_iff.mp hp'
    split at hs
    next => exact absurd hs (hlease p)
    next hq => exact .inl ⟨p, hp, hs, by rw [if_neg hq]⟩
  · intro db i p hi hp
    rw [Db.find_updatePairs, hp, Option.map_some, if_neg]
    intro hq
    exact hi ((Table.find_some hp).2 ▸ hlocked p hq)

/-- A write that touches neither tests nor pairs. -/
theorem aside (h : Tidy held w s) {f : Db F → Db F} (ht : ∀ db, (f db).tests = db.tests)
    (hp : ∀ db, (f db).jobPairs = db.jobPairs) : Tidy held (f ∘ w) s := by
  refine h.write ht (fun t _ i p' hp' hs => .inl ⟨p', ?_, hs, rfl⟩) fun db i p _ hfind => ?_
  · rw [hp] at hp'
    exact hp'
  · rw [hp]
    exact hfind

theorem record (h : Tidy held w s) (testId : Int) (stats : TestStats F) :
    Tidy held (fun db => (w db).record testId stats) s :=
  h.aside (f := fun db => db.record testId stats) (fun db => Db.tests_record db testId stats)
    fun db => (SameQueue.record db testId stats).jobPairs

/-- A result completes the pair that is locked. -/
theorem deliver {E : Env F} (h : Tidy held w s) (now : ℚ) {p : PairRow} (report : PairReport)
    (hp : .pair p.id ∈ held) : Tidy held (fun db => (w db).deliver E now p report) s := by
  have hdone := h.updatePairs (·.id == p.id) (.complete now) (PairRow.complete_id now)
    (fun r hr => by rw [beq_iff_eq.mp hr]; exact hp) (by simp [PairRow.complete])
  exact hdone.aside (f := fun db => (List.finRange 2).foldl
    (fun db i => db.insertGame (gameRow E p.id p.testId report i)) db) (fun _ => rfl) fun _ => rfl

theorem enqueue (h : Tidy held w s) (fens : List String) (random : Nat → ℚ) (vlog : String)
    {row : TestRow} (hin : .test row.id ∈ held) (hrow : s.tests.find row.id = some row)
    (hseen : ∀ t, testStarts.Rely held s t → (w t).tests.find row.id = some row)
    (hval : row.status = .validating) :
    Tidy held (fun db => (w db).enqueue row.id fens random vlog) s := by
  have hmade : Tidy held (fun db => ((w db).addPositions row.id fens).addPairs row.id random) s := by
    refine h.write (f := fun db => (db.addPositions row.id fens).addPairs row.id random)
      (fun db => ?_) (fun t _ i p' hp' hs => ?_) fun db i p _ hp => ?_
    · rw [tests_addPairs, tests_addPositions]
    · obtain ⟨new, next, hb, hn, heq, -, hall⟩ :=
        addPairs_spec ((w t).addPositions row.id fens) row.id random
      obtain ⟨hmem, rfl⟩ := Table.find_some hp'
      rw [heq] at hmem
      rcases List.mem_append.mp hmem with hold | hnew
      · rw [pairsOf_addPositions] at hold
        exact .inl ⟨p', Table.find_of_mem hold, hs, rfl⟩
      · rw [(hall p' hnew).1.1] at hs
        cases hs
    · obtain ⟨new, next, hb, hn, heq, -, -⟩ :=
        addPairs_spec (db.addPositions row.id fens) row.id random
      obtain ⟨hmem, rfl⟩ := Table.find_some hp
      refine Table.find_of_mem ?_
      rw [heq]
      refine List.mem_append_left _ ?_
      rw [pairsOf_addPositions]
      exact hmem
  refine hmade.updateTest (.judge .queued vlog) (TestRow.judge_id _ _)
    (fun r => ⟨id, by simp [TestRow.judge]⟩) hin hrow fun t ht v hv => ?_
  rw [tests_addPairs, tests_addPositions] at hv
  cases Option.some.inj ((hseen t ht).symm.trans hv)
  have hwait := (h.guar t ht).1.waiting row.id row hv (.inl hval)
  exact ⟨fun _ => hwait, by simp [TestRow.judge], by simp [TestRow.judge], .inl⟩

theorem asks_promote (h : Tidy held w s) (now : ℚ)
    (hasked : ∀ t, testStarts.Rely held s t → Justified held .promotion t) :
    (promoteNextTest now).asks testStarts may Justified held w s := by
  refine asks_promoteNextTest hasked fun id t u v ht hu htarget hv => ⟨by simp, ?_⟩
  rcases (h.acquire ht hu).target htarget with hin | ⟨q, hq, hqs⟩
  · exact .inl hin
  · obtain ⟨hst, hval⟩ := hu.1.queued hq hqs
    exact .inr ⟨rely_unstarted hv (by simp) hst, rely_unexamined hv hq hval⟩

end Tidy

/-- What a transaction holds that still has these tests to recompute. -/
structure Between (rest : List Int) (held : List Lock) (w : Db F → Db F) (s : Db F) : Prop where
  tidy : Tidy held w s
  ascending : rest.Pairwise (· < ·)
  started : ∀ j ∈ rest, s.Started j
  below : ∀ k, .test k ∈ held →
    (s.Started k ∧ ∀ j ∈ rest, k < j) ∨ (.promotion ∈ held ∧ ¬s.Started k)
  leader : .promotion ∈ held → ∃ r, .test r ∈ held ∧ s.RunningAt r

namespace Between

variable {rest : List Int} {held : List Lock} {w : Db F → Db F} {s t : Db F} {j : Int}
  {may : List Lock → Lock → Db F → Prop}

theorem rely (h : Between rest held w s) (ht : testStarts.Rely held s t) :
    Between rest held w t := by
  refine ⟨h.tidy.rely ht, h.ascending, fun j hj => rely_started ht (h.started j hj), fun k hk => ?_,
    fun hp => ?_⟩
  · rcases h.below k hk with ⟨hst, hlt⟩ | ⟨hp, hst⟩
    · exact .inl ⟨rely_started ht hst, hlt⟩
    · exact .inr ⟨hp, rely_unstarted ht hp hst⟩
  · obtain ⟨r, hr, hrun⟩ := h.leader hp
    exact ⟨r, hr, rely_runningAt ht hr hrun⟩

theorem asked (h : Between (j :: rest) held w s) : Justified held (.test j) s := by
  refine .inr (.inr ⟨h.started j (by simp), fun k hk => ?_, h.leader⟩)
  rcases h.below k hk with ⟨hst, hlt⟩ | hnew
  · exact .inl ⟨hst, hlt j (by simp)⟩
  · exact .inr hnew

theorem free (h : Between (j :: rest) held w s) : .test j ∉ held := by
  intro hj
  rcases h.below j hj with ⟨-, hlt⟩ | ⟨-, hst⟩
  · exact absurd (hlt j (by simp)) (lt_irrefl j)
  · exact hst (h.started j (by simp))

theorem acquire (h : Between (j :: rest) held w s) {u : Db F} (ht : testStarts.Rely held s t)
    (hu : testStarts.Rely (.test j :: held) t u) : Between rest (.test j :: held) w u := by
  have hsu := h.rely (ht.trans hu.tail)
  obtain ⟨hlt, hrest⟩ := List.pairwise_cons.mp h.ascending
  refine ⟨h.tidy.acquire ht hu, hrest, fun i hi => hsu.started i (by simp [hi]), fun k hk => ?_,
    fun hp => ?_⟩
  · rcases List.mem_cons.mp hk with hkj | hk
    · obtain rfl : k = j := by simpa using hkj
      exact .inl ⟨hsu.started k (by simp), hlt⟩
    · rcases hsu.below k hk with ⟨hst, hbelow⟩ | ⟨hp, hst⟩
      · exact .inl ⟨hst, fun i hi => hbelow i (by simp [hi])⟩
      · exact .inr ⟨by simp [hp], hst⟩
  · obtain ⟨r, hr, hrun⟩ := hsu.leader (by simpa using hp)
    exact ⟨r, by simp [hr], hrun⟩

/-- With the running test in its hands a transaction may promote. -/
theorem promotes (h : Between rest held w s) (hin : .test j ∈ held) (hrun : s.RunningAt j)
    (htidy : Tidy held w' s) (now : ℚ) :
    (promoteNextTest now).asks testStarts may Justified held w' s ∧
      (promoteNextTest now).wp testStarts may (fun _ held w s => Between rest held w s) held w' s := by
  refine ⟨htidy.asks_promote now fun t ht => ?_, Script.wp_mono (fun _ held' w' s' hpro => ?_)
    (htidy.promote now)⟩
  · by_cases hp : .promotion ∈ held
    · exact .inl hp
    · refine .inr fun k hk => .inr ?_
      rcases (h.rely ht).below k hk with ⟨hst, -⟩ | ⟨hp', -⟩
      · exact ⟨hst, j, hin, rely_runningAt ht hin hrun⟩
      · exact absurd hp' hp
  · have hs' := h.rely hpro.rely
    refine ⟨hpro.tidy, h.ascending, hs'.started, fun k hk => ?_,
      fun _ => ⟨j, hpro.kept _ hin, rely_runningAt hpro.rely hin hrun⟩⟩
    rcases hpro.tests k hk with hk | hst
    · exact (hs'.below k hk).imp id fun hnew => ⟨hpro.promotion, hnew.2⟩
    · exact .inr ⟨hpro.promotion, hst⟩

/-- One test of the list is recomputed, and finished if it is the one that runs. -/
theorem refresh [LinearOrder F] (h : Between (j :: rest) held w s) (N : Numerics F) (now : ℚ) :
    (refreshTest N now j).asks testStarts may Justified held w s ∧
      (refreshTest N now j).wp testStarts may (fun _ held w s => Between rest held w s) held w s := by
  have recorded : ∀ row r t u v x y, Recounted testStarts may N j held w s row r t u v x →
      testStarts.Rely (.test j :: held) x y → Between rest (.test j :: held) w y ∧
        Tidy (.test j :: held) (fun db => (w db).record j r.stats) y := by
    intro row r t u v x y hread hy
    have hlocked := (h.acquire hread.asked hread.locked).rely (hread.later.trans hy)
    exact ⟨hlocked, hlocked.tidy.record j r.stats⟩
  have finished : ∀ row r t u v x y n result,
      Recounted testStarts may N j held w s row r t u v x →
      testStarts.Rely (.test j :: held) x y → row.status = .running →
      verdict row r.decision n = some result →
      (finishTest now j result).asks testStarts may Justified (.test j :: held)
          (fun db => (w db).record j r.stats) y ∧
        (finishTest now j result).wp testStarts may (fun _ held w s => Between rest held w s)
          (.test j :: held) (fun db => (w db).record j r.stats) y := by
    intro row r t u v x y _ result hread hy hrun _
    obtain ⟨hlocked, htidy⟩ := recorded row r t u v x y hread hy
    have huy := hread.later.trans hy
    -- nobody else has written the row: it is committed as it is seen
    have hrow : u.tests.find j = some row := h.tidy.committed h.free hread.found
    have hrow' : y.tests.find j = some row := rely_test huy (by simp) hrow
    have hfin := htidy.finished now result (by simp) hrow'
    rw [asks_finishTest, wp_finishTest]
    exact hlocked.promotes (by simp) ⟨row, hrow', hrun⟩ hfin now
  refine ⟨asks_refreshTest (fun t ht => (h.rely ht).asked) fun row r t u v x y n result hread hy hrun hv =>
    (finished row r t u v x y n result hread hy hrun hv).1, ?_⟩
  refine wp_refreshTest (fun t u ht hu _ => h.acquire ht hu) (fun row r t u v x y hread hy => ?_)
    fun row r t u v x y n result hread hy hrun hv =>
      (finished row r t u v x y n result hread hy hrun hv).2
  obtain ⟨hlocked, htidy⟩ := recorded row r t u v x y hread hy
  exact { hlocked with tidy := htidy }

end Between

section Programs

variable [LinearOrder F] {E : Env F} {s : Db F} {may : List Lock → Lock → Db F → Prop}

/-- A transaction keeps to the protocol, and asks for locks in their order. -/
def Orderly {α : Type} (may : List Lock → Lock → Db F → Prop) (p : Tx F α) (s : Db F) : Prop :=
  p.asks testStarts may Justified [] id s ∧
    p.wp testStarts may (fun _ held w s =>
      ∀ t, testStarts.Rely held s t → testStarts.Guar held t (w t)) [] id s

omit [LinearOrder F] in
theorem Orderly.of_tidy {α : Type} {p : Tx F α} (ha : p.asks testStarts may Justified [] id s)
    (hw : p.wp testStarts may (fun _ held w s => Tidy held w s) [] id s) : Orderly may p s :=
  ⟨ha, Script.wp_mono (fun _ _ _ _ h => h.guar) hw⟩

omit [LinearOrder F] in
theorem Orderly.map {α β : Type} {p : Tx F α} (h : Orderly may p s) (f : α → β) :
    Orderly may (f <$> p) s :=
  ⟨Script.asks_map.mpr h.1, Script.wp_map.mpr h.2⟩

omit [LinearOrder F] in
/-- The recomputations that follow a write to pairs. -/
theorem Between.of_pairs {rest : List Int} {keys : List Int} {w : Db F → Db F}
    (h : Tidy (keys.map Lock.pair) w s) (hasc : rest.Pairwise (· < ·))
    (hst : ∀ j ∈ rest, s.Started j) : Between rest (keys.map Lock.pair) w s :=
  ⟨h, hasc, hst, by simp, by simp⟩

/-- A result is for a pair whose test has started. -/
theorem orderly_submit (now : ℚ) (i : Int) (report : PairReport) :
    Orderly may (submitResult E now i report) s := by
  have ready : ∀ p g u t, testStarts.Rely [] s u → u.jobPairs.find i = some p →
      refusal p g report.clientId = none → testStarts.Rely [.pair i] u t →
      Between [p.testId] [.pair i, .pair i] (fun db => db.deliver E now p report) t := by
    intro p g u t hu hp hr ht
    obtain rfl : p.id = i := (Table.find_some hp).2
    have hleased : p.status = .leased := by
      have hmine := (refusal_eq_none hr).1
      simp only [PairRow.leasedBy, Bool.and_eq_true, beq_iff_eq] at hmine
      exact hmine.1
    have hlocked := ((Tidy.init.rely hu).rely (ht.mono (by simp))).lock [.pair p.id, .pair p.id]
    have htidy : Tidy ([p.id, p.id].map Lock.pair) (fun db => db.deliver E now p report) t :=
      hlocked.deliver now report (by simp)
    have hstarted : ∀ j ∈ [p.testId], t.Started j := by
      intro j hj
      obtain rfl : j = p.testId := by simpa using hj
      exact rely_started ht (hu.1.leased p.id p hp hleased)
    exact .of_pairs htidy (List.pairwise_singleton _ _) hstarted
  refine .of_tidy ?_ ?_
  · refine asks_submitResult (fun t _ => .inl rfl) (fun t u _ _ => .inr (by simp)) ?_
    intro p g u t hu hp hr ht
    exact ((ready p g u t hu hp hr ht).refresh E.numerics now).1
  · refine wp_submitResult (fun r keys t ht => (Tidy.init.rely ht).lock keys) ?_
    intro p g u t hu hp hr ht
    exact Script.wp_mono (fun _ _ _ _ h => h.tidy)
      ((ready p g u t hu hp hr ht).refresh E.numerics now).2

omit [LinearOrder F] in
theorem pairwise_bereft (db : Db F) (expired : List Int) :
    (db.bereft expired).Pairwise (· < ·) := by
  unfold Db.bereft
  have hsorted := List.pairwise_insertionSort (· ≤ · : Int → Int → Prop)
    ((((db.jobPairs.rows.filter fun p => decide (p.id ∈ expired)).filter
      (·.status == .discarded)).map (·.testId)).dedup)
  have hnodup := (List.perm_insertionSort (· ≤ · : Int → Int → Prop) _).nodup_iff.mpr
    (List.nodup_dedup (((db.jobPairs.rows.filter fun p => decide (p.id ∈ expired)).filter
      (·.status == .discarded)).map (·.testId)))
  exact (hsorted.and hnodup).imp fun h => lt_of_le_of_ne h.1 h.2

/-- The tests a recovery recomputes have started: they had a pair under lease. -/
theorem orderly_recover (now : ℚ) (maxAttempts : Int) :
    Orderly may (recoverExpiredLeases E now maxAttempts) s := by
  have ready : ∀ (got : List Int) t u, testStarts.Rely [] s t → got.Sublist (t.expired now) →
      testStarts.Rely (got.map Lock.pair ++ []) t u →
      Between ((u.expire maxAttempts got).bereft got) (got.map Lock.pair)
        (fun db => db.expire maxAttempts got) u := by
    intro got t u ht hgot hu
    have htidy := ((Tidy.init.rely ht).lock (got.map Lock.pair)).rely hu
    rw [List.append_nil] at htidy hu
    refine Between.of_pairs (htidy.updatePairs _ (.expire maxAttempts) _
      (fun p hp => List.mem_map.mpr ⟨p.id, of_decide_eq_true hp, rfl⟩) fun p => ?_)
      (pairwise_bereft _ _) fun j hj => ?_
    · unfold PairRow.expire
      dsimp only
      split <;> simp
    · obtain ⟨p', hp', hin, -, rfl⟩ := Db.mem_bereft.mp hj
      obtain ⟨p, hp, heq⟩ := Db.mem_updatePairs.mp hp'
      have hsame : p'.id = p.id ∧ p'.testId = p.testId := by
        subst heq
        split <;> exact ⟨rfl, rfl⟩
      rw [hsame.1] at hin
      rw [hsame.2]
      obtain ⟨q, hq, hqid⟩ := List.mem_map.mp (hgot.subset hin)
      obtain ⟨hqmem, hqs⟩ := List.mem_filter.mp hq
      have hfind : t.jobPairs.find p.id = some q := hqid ▸ Table.find_of_mem hqmem
      have hfind' := (hu.2.2 (.pair p.id) (List.mem_map.mpr ⟨p.id, hin, rfl⟩)).2.1 p.id rfl q hfind
      cases Option.some.inj ((Table.find_of_mem hp).symm.trans hfind')
      have hleased : p.status = .leased := by
        simp only [Bool.and_eq_true, beq_iff_eq] at hqs
        exact hqs.1
      exact hu.1.leased p.id p hfind' hleased
  have hrec : (recoverExpiredLeases E now maxAttempts).asks testStarts may Justified [] id s ∧
      (recoverExpiredLeases E now maxAttempts).wp testStarts may
        (fun _ held w s => Between [] held w s) [] id s :=
    asks_recoverExpiredLeases
      (fun got t u ht hgot hu => by
        rw [List.append_nil]
        exact ready got t u ht hgot hu)
      fun j rest held w s h => h.refresh E.numerics now
  exact .of_tidy hrec.1 (Script.wp_mono (fun _ _ _ _ h => h.tidy) hrec.2)

omit [LinearOrder F] in
theorem orderly_abandon (i clientId : Int) :
    Orderly may (abandonPair i clientId : Tx F (Finish Bool)) s := by
  refine .of_tidy (asks_abandonPair fun t _ => .inl rfl) ?_
  unfold abandonPair
  refine Script.wp_bind.mpr (wp_updatePair (fun keys t ht => (Tidy.init.rely ht).lock keys) ?_)
  intro _ t ht _ _
  refine ((Tidy.init.rely ht).lock [.pair i]).updatePairs _ _ _ (fun p hp => ?_) ?_
  · simp [beq_iff_eq.mp hp]
  · simp [PairRow.release]

omit [LinearOrder F] in
/-- A claim leases pairs of the running test. -/
theorem orderly_claim (cfg : ServerConfig) (now : ℚ) (clientId slotsFree : Int) :
    Orderly may (claimPairs cfg now clientId slotsFree : Tx F (Finish ClaimResult)) s := by
  refine .of_tidy asks_claimPairs (wp_claimPairs_running (fun _ t ht => Tidy.init.rely ht) ?_)
  intro a c got _ t u v ht hrun hu hgot hv
  have hstarted : t.Started a.id := by
    have hstat := List.find?_some hrun
    have hrow := Table.find_of_mem (List.mem_of_find?_eq_some hrun)
    exact ⟨a, hrow, ht.1.running a.id a hrow (by simpa using hstat)⟩
  have htidy := ((Tidy.init.rely (ht.trans hu)).lock (got.map Lock.pair)).rely hv
  refine htidy.write (f := fun db => db.updatePairs (fun p => decide (p.id ∈ got))
    (PairRow.lease clientId now (now + leaseSeconds cfg a c)) (PairRow.lease_id _ _ _))
    (fun _ => rfl) (fun x hx i p' hp' hs => ?_) fun db i p hi hp => ?_
  · rw [Db.find_updatePairs] at hp'
    obtain ⟨p, hp, rfl⟩ := Option.map_eq_some_iff.mp hp'
    split at hs
    next hin =>
      -- the pair is still the one that was picked
      have hin : p.id ∈ got := of_decide_eq_true hin
      have hvx := hv.trans hx
      obtain ⟨q, hq, hqid⟩ := List.mem_map.mp (hgot.subset hin)
      rw [List.mem_insertionSort, List.mem_filter, Db.pairsOf, List.mem_filter] at hq
      have hfind : u.jobPairs.find i = some q := by
        rw [← (Table.find_some hp).2, ← hqid]
        exact Table.find_of_mem hq.1.1
      have hkey : Lock.pair i ∈ got.map Lock.pair ++ [] := by
        simpa [(Table.find_some hp).2] using hin
      have hfind' := (hvx.2.2 _ hkey).2.1 i rfl q hfind
      cases Option.some.inj (hp.symm.trans hfind')
      have htest : p.testId = a.id := by simpa using hq.1.2
      refine .inr ?_
      rw [if_pos (by simpa using hin)]
      exact htest ▸ rely_started ((hu.trans (hvx.mono (by simp)))) hstarted
    next hno => exact .inl ⟨p, hp, hs, by rw [if_neg hno]⟩
  · rw [Db.find_updatePairs, hp, Option.map_some, if_neg]
    intro hin
    refine hi (List.mem_append_left _ (List.mem_map.mpr ⟨i, ?_, rfl⟩))
    simpa [(Table.find_some hp).2] using hin

omit [LinearOrder F] in
theorem orderly_promote (now : ℚ) : Orderly may (promoteNextTest now : Tx F (Option Int)) s :=
  .of_tidy (Tidy.init.asks_promote now fun t _ => .inr (by simp))
    (Script.wp_mono (fun _ _ _ _ h => h.tidy) (Tidy.init.promote now))

omit [LinearOrder F] in
theorem orderly_setPriority (testId priority : Int) :
    Orderly may (setPriority testId priority : Tx F (Finish PriorityOutcome)) s := by
  refine .of_tidy (asks_setPriority fun t _ => .inr (.inl (by simp)))
    (wp_setPriority (fun _ t u ht hu => Tidy.init.acquire ht hu) fun row _ t u ht hu hrow _ => ?_)
  refine (Tidy.init.acquire ht hu).updateTest (.prioritise priority) _ (fun r => ⟨id, id⟩)
    (by simp) hrow fun x hx v hv => ?_
  exact ⟨hx.1.waiting testId v hv, hx.1.running testId v hv, .inl, .inl⟩

omit [LinearOrder F] in
/-- A stop of the running test may promote the next one. -/
theorem orderly_stop (now : ℚ) (testId : Int) :
    Orderly may (stopTest now testId : Tx F (Finish StopOutcome)) s := by
  have stopped : ∀ row t u, testStarts.Rely [] s t → testStarts.Rely [.test testId] t u →
      u.tests.find testId = some row → Tidy [Lock.test testId]
        (fun db => db.updateTest testId (.stop now) (TestRow.stop_id now)) u := by
    intro row t u ht hu hrow
    refine (Tidy.init.acquire ht hu).updateTest (.stop now) (TestRow.stop_id now)
      (fun r => ⟨id, by simp [TestRow.stop]⟩) (by simp) hrow fun x hx v hv => ?_
    exact ⟨by simp [TestRow.stop], by simp [TestRow.stop], by simp [TestRow.stop], .inl⟩
  refine .of_tidy ?_ ?_
  · refine asks_stopTest (fun t _ => .inr (.inl (by simp))) fun row t u ht hu hrow hrun => ?_
    refine (stopped row t u ht hu hrow).asks_promote now fun x hx => .inr fun k hk => .inr ?_
    obtain rfl : k = testId := by simpa using hk
    have hrun' : x.RunningAt k := rely_runningAt hx (by simp) ⟨row, hrow, hrun⟩
    exact ⟨hrun'.started hx.1, k, by simp, hrun'⟩
  · refine wp_stopTest (fun _ t u ht hu => Tidy.init.acquire ht hu)
      (fun row t u ht hu hrow _ => stopped row t u ht hu hrow) fun row t u ht hu hrow _ => ?_
    exact Script.wp_mono (fun _ _ _ _ h => h.tidy) ((stopped row t u ht hu hrow).promote now)

/-- An examination promotes with the test it examined in its hands. -/
theorem orderly_smoke (now : ℚ) (job : SmokeJob) (x : Examination) (random : Nat → ℚ) :
    Orderly may (smokeFinish E now job x random) s := by
  have hin : .test job.testId ∈ [Lock.test job.testId] := by simp
  -- the row is committed as validating, and seen as queued
  have queued : ∀ row fens vlog t u v, testStarts.Rely [] s t →
      testStarts.Rely [.test job.testId] t u → u.tests.find job.testId = some row →
      row.status = .validating → testStarts.Rely [.test job.testId] u v →
      Tidy [Lock.test job.testId] (fun db => db.enqueue job.testId fens random vlog) v ∧
        v.tests.find job.testId = some row := by
    intro row fens vlog t u v ht hu hrow hval huv
    have hrow' := rely_test huv hin hrow
    have hid : row.id = job.testId := (Table.find_some hrow).2
    refine ⟨?_, hrow'⟩
    have htidy := (Tidy.init.acquire ht hu).rely huv
    rw [← hid] at hrow' hin htidy ⊢
    exact htidy.enqueue fens random vlog hin hrow' (fun y hy => rely_test hy hin hrow') hval
  have seen : ∀ row fens vlog (u : Db F), u.tests.find job.testId = some row → ∃ v,
      (u.enqueue job.testId fens random vlog).tests.find job.testId = some v ∧ v.status = .queued := by
    intro row fens vlog u hu
    refine ⟨row.judge .queued vlog, ?_, rfl⟩
    rw [(enqueue_spec u job.testId fens random vlog).tests, Table.find_modify, hu]
    simp [(Table.find_some hu).2]
  -- so its recomputation finishes nothing
  have waits : ∀ row fens vlog v row' r t' u' v' x', v.tests.find job.testId = some row →
      Recounted testStarts may E.numerics job.testId [.test job.testId]
        (fun db => db.enqueue job.testId fens random vlog) v row' r t' u' v' x' →
      row'.status ≠ .running := by
    intro row fens vlog v row' r t' u' v' x' hrow hread hrun
    have hsame := rely_test (hread.asked.trans hread.locked.tail) hin hrow
    obtain ⟨y, hy, hys⟩ := seen row fens vlog u' hsame
    cases Option.some.inj (hread.found.symm.trans hy)
    rw [hys] at hrun
    cases hrun
  have refreshed : ∀ row fens vlog t u v, testStarts.Rely [] s t →
      testStarts.Rely [.test job.testId] t u → u.tests.find job.testId = some row →
      row.status = .validating → testStarts.Rely [.test job.testId] u v →
      (refreshTest E.numerics now job.testId).wp testStarts may (fun _ held w s => Tidy held w s ∧
        ∀ k, .test k ∈ held → s.tests.find k = some row) [.test job.testId]
        (fun db => db.enqueue job.testId fens random vlog) v := by
    intro row fens vlog t u v ht hu hrow hval huv
    obtain ⟨htidy, hrow'⟩ := queued row fens vlog t u v ht hu hrow hval huv
    have own : ∀ y, testStarts.Rely [.test job.testId] v y → ∀ k,
        .test k ∈ [Lock.test job.testId, .test job.testId] → y.tests.find k = some row := by
      intro y hy k hk
      obtain rfl : k = job.testId := by simpa using hk
      exact rely_test hy hin hrow'
    refine wp_refreshTest (fun t' u' ht' hu' _ => ⟨htidy.acquire ht' hu', own u' (ht'.trans hu'.tail)⟩) ?_ ?_
    · intro row' r t' u' v' x' y hread hy
      have hvy := hread.asked.trans ((hread.locked.trans (hread.later.trans hy)).tail)
      exact ⟨((htidy.rely hvy).lock [.test job.testId]).record job.testId r.stats, own y hvy⟩
    · intro row' r t' u' v' x' y n result hread _ hrun
      exact absurd hrun (waits row fens vlog v row' r t' u' v' x' hrow' hread)
  refine .of_tidy ?_ ?_
  · refine asks_smokeFinish (fun t _ => .inr (.inl (by simp))) ?_
    intro row fens vlog t u v ht hu hrow hval _ huv
    have hrow' := rely_test huv hin hrow
    refine ⟨asks_refreshTest (fun y _ => .inl (by simp)) ?_,
      Script.wp_mono (fun _ held w z h => h.1.asks_promote now fun y hy => ?_)
        (refreshed row fens vlog t u v ht hu hrow hval huv)⟩
    · intro row' r t' u' v' x' y n result hread _ hrun
      exact absurd hrun (waits row fens vlog v row' r t' u' v' x' hrow' hread)
    · exact .inr fun k hk => .inl ⟨row, rely_test hy hk (h.2 k hk), hval⟩
  · refine wp_smokeFinish (fun t u ht hu => Tidy.init.acquire ht hu) ?_ ?_
    · intro row vlog t u ht hu hrow hval
      refine (Tidy.init.acquire ht hu).updateTest (.judge .invalid vlog) (TestRow.judge_id _ _)
        (fun r => ⟨id, by simp [TestRow.judge]⟩) hin hrow fun x hx v hv => ?_
      exact ⟨by simp [TestRow.judge], by simp [TestRow.judge], by simp [TestRow.judge], .inl⟩
    · intro row fens vlog t u v ht hu hrow hval _ huv
      refine Script.wp_mono (fun _ held w z h => ?_) (refreshed row fens vlog t u v ht hu hrow hval huv)
      exact Script.wp_mono (fun _ _ _ _ h => h.tidy) (h.1.promote now)

omit [LinearOrder F] in
/-- A new test is not examined, and has no pairs. -/
theorem orderly_create (now : ℚ) (spec : TestSpec) (cc bc : String) :
    Orderly may (insertTest now spec cc bc : Tx F (Finish Int)) s := by
  have old : ∀ (u : Db F) i, (u.addTest now spec cc bc).RunningAt i → u.RunningAt i := by
    rintro u i ⟨x, hx, hrun⟩
    rcases find_addTest_cases hx with ⟨-, rfl⟩ | hx
    · cases hrun
    · exact ⟨x, hx, hrun⟩
  refine ⟨?_, wp_insertTest fun r t ht u hu => ⟨⟨?_, ?_, ?_, ?_⟩, ?_, ?_⟩⟩
  · unfold insertTest
    split
    next => trivial
    next => exact fun _ _ => trivial
  · intro i x hx hs
    rcases find_addTest_cases hx with ⟨-, rfl⟩ | hx
    · rfl
    · exact hu.1.waiting i x hx hs
  · intro i x hx hs
    rcases find_addTest_cases hx with ⟨-, rfl⟩ | hx
    · cases hs
    · exact hu.1.running i x hx hs
  · intro i j hi hj
    exact hu.1.single i j (old u i hi) (old u j hj)
  · intro i p hp hs
    obtain ⟨x, hx, hst⟩ := hu.1.leased i p hp hs
    exact ⟨x, find_addTest hx, hst⟩
  · exact fun i x hx => ⟨x, find_addTest hx, id, id⟩
  · refine fun key _ => ⟨fun i _ x hx => find_addTest hx, fun i _ p hp => hp, fun _ i => ⟨old u i, ?_⟩⟩
    rintro ⟨x, hx, hst⟩
    rcases find_addTest_cases hx with ⟨-, rfl⟩ | hx
    · cases hst
    · exact ⟨x, hx, hst⟩

theorem orderly_call {c : Call} {now : ℚ} (hc : (Activity.request ⟨c, now⟩).regular) :
    Orderly may (c.program E now) s := by
  cases c with
  | create body cc bc =>
    simp only [Call.program]
    cases parseTestSpec body E.cfg.sprtPresets with
    | error message => exact .of_tidy trivial Tidy.init
    | ok spec => exact (orderly_create now spec cc bc).map _
  | smoke => exact hc.elim
  | promote => exact (orderly_promote now).map _
  | stop testId => exact (orderly_stop now testId).map _
  | setPriority testId priority => exact (orderly_setPriority testId priority).map _
  | register reg =>
    refine Orderly.map (.of_tidy ?_ (wp_registerClient fun _ t ht => ?_)) _
    · simp only [registerClient, Script.update_bind, Script.asks_write, Script.select_bind,
        Script.asks_query]
      intro t _
      split <;> trivial
    · exact (Tidy.init.rely ht).aside (f := fun db => db.upsertClient reg)
        (fun db => by unfold Db.upsertClient; split <;> rfl)
        fun db => by unfold Db.upsertClient; split <;> rfl
  | heartbeat clientId cpuFactor =>
    have hask : (CapiNet.heartbeat clientId cpuFactor : Tx F _).asks testStarts may Justified [] id s :=
      fun _ _ => trivial
    refine (Orderly.of_tidy hask ?_).map _
    simp only [heartbeat, Script.update_bind, Script.wp_write, Script.select_bind, Script.wp_query]
    intro t ht
    exact (Tidy.init.rely ht).aside (fun _ => rfl) fun _ => rfl
  | ban clientId =>
    have hask : (CapiNet.ban clientId : Tx F _).asks testStarts may Justified [] id s := trivial
    exact (Orderly.of_tidy hask (Tidy.init.aside (fun _ => rfl) fun _ => rfl)).map _
  | claim clientId slotsFree => exact (orderly_claim E.cfg now clientId slotsFree).map _
  | submit pairId report => exact (orderly_submit now pairId report.toPairReport).map _
  | abandon pairId clientId => exact (orderly_abandon pairId clientId).map _
  | recover => exact (orderly_recover now E.cfg.maxAttempts).map _

theorem orderly_activity {a : Activity} (ha : a.regular) : Orderly may (a.program E) s := by
  cases a with
  | request r => exact (orderly_call ha).map _
  | processNext now x random =>
    simp only [Activity.program, CapiNet.processNext, Orderly, Script.select_bind,
      Script.asks_query, Script.wp_query, ← forall_and]
    intro t ht
    cases (id t).smokeJob with
    | none => exact ⟨trivial, (Tidy.init.rely ht).guar⟩
    | some job =>
      have hsmoke : Orderly may (smokeFinish E now job (x job) random) t :=
        orderly_smoke now job (x job) random
      exact hsmoke.map (Finish.map (Answer.examined job.testId))

theorem keeps_testStarts (E : Env F) :
    Keeps testStarts (.only Activity.regular) (Activity.program E) fun _ _ _ => True := by
  intro a ha s _
  refine Script.wp_mono (fun fin held w s h => ?_) (orderly_activity ha).2
  exact fun r _ t ht => ⟨h t ht, trivial⟩

end Programs

theorem timed_empty : (Db.empty : Db F).Timed :=
  ⟨by simp [Db.empty], by simp [Db.empty], fun i j hi => by simp [Db.RunningAt, Db.empty] at hi,
    by simp [Db.empty]⟩

end CapiNet
