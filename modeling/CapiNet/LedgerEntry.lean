import CapiNet.Concurrent
import CapiNet.TestEffect
import CapiNet.Ledger

namespace CapiNet

open Txn Relational

variable {F : Type}

/-- It ran, and does not run any more. -/
def TestRow.Retired (t : TestRow) : Prop := t.startedAt ≠ none ∧ t.status ≠ .running

/-- A test starts when it is promoted. -/
structure TestRow.Timed (t : TestRow) : Prop where
  early : t.status = .validating ∨ t.status = .invalid ∨ t.status = .queued → t.startedAt = none
  late : t.status = .running ∨ t.status = .finished → t.startedAt ≠ none

theorem TestRow.Timed.not_retired {t : TestRow} (h : t.Timed)
    (hs : t.status = .validating ∨ t.status = .queued ∨ t.status = .running) : ¬t.Retired := by
  rintro ⟨hstart, hrun⟩
  rcases hs with hs | hs | hs
  · exact hstart (h.early (.inl hs))
  · exact hstart (h.early (.inr (.inr hs)))
  · exact hrun hs

/-- The error rates of an SPRT, as specifications have them. -/
def TestRow.Rates (t : TestRow) : Prop :=
  t.kind = .sprt → ∃ alpha beta, t.sprtAlpha = some alpha ∧ t.sprtBeta = some beta ∧
    (0 < alpha.val ∧ alpha.val < 1) ∧ 0 < beta.val ∧ beta.val < 1

theorem TestRow.Rates.congr {t t' : TestRow} (h : t.Rates) (he : t'.terms = t.terms) :
    t'.Rates := by
  simp only [TestRow.terms, Prod.mk.injEq] at he
  obtain ⟨hk, -, -, ha, hb⟩ := he
  unfold TestRow.Rates
  rw [hk, ha, hb]
  exact h

/-- The statistics bear a verdict out; an inconclusive one without pairs has nothing to show. -/
def TestStats.Supports [LinearOrder F] (s : TestStats F) : TestResult → Prop
  | .accepted => ∃ llr upper, s.llr = some llr ∧ s.llrUpper = some upper ∧ upper ≤ llr
  | .rejected => ∃ llr lower, s.llr = some llr ∧ s.llrLower = some lower ∧ llr ≤ lower
  | .inconclusive => 0 < s.pairsValid → ∃ lower llr upper, s.llrLower = some lower ∧
      s.llr = some llr ∧ s.llrUpper = some upper ∧ lower < llr ∧ llr < upper
  | _ => True

namespace Db

/-- A promotion may have picked the test. -/
def Waiting (db : Db F) (i : Int) : Prop :=
  ∃ t, db.tests.find i = some t ∧ (t.status = .queued ∨ t.status = .stopped) ∧
    t.startedAt = none ∧ db.testStats i ≠ none

/-- The test has been through a recomputation. -/
def Live (db : Db F) (i : Int) : Prop :=
  (∃ p ∈ db.jobPairs.rows, p.testId = i) ∨
    ∃ t, db.tests.find i = some t ∧ (t.status = .queued ∨ t.startedAt ≠ none)

theorem Live.of {u v : Db F} {i : Int} (h : v.Live i)
    (hp : ∀ q ∈ v.jobPairs.rows, ∃ p ∈ u.jobPairs.rows, p.testId = q.testId)
    (ht : v.tests = u.tests) : u.Live i := by
  rcases h with ⟨q, hq, rfl⟩ | h
  · obtain ⟨p, hmem, hpq⟩ := hp q hq
    exact .inl ⟨p, hmem, hpq⟩
  · exact .inr (ht ▸ h)

variable [LinearOrder F]

def Rated (db : Db F) : Prop :=
  ∀ i t, db.tests.find i = some t → t.kind = .sprt → t.status = .finished →
    ∃ s, db.testStats i = some s ∧ s.Supports t.result

/-- Started tests stay started. -/
def Risen (i : Int) (s t : Db F) : Prop :=
  ∀ x, s.tests.find i = some x →
    ∃ y, t.tests.find i = some y ∧ (x.startedAt ≠ none → y.startedAt ≠ none)

/-- The books of a retired test are closed. -/
def Frozen (i : Int) (s t : Db F) : Prop :=
  ∀ x, s.tests.find i = some x → x.Retired → ∃ y, t.tests.find i = some y ∧ y.Retired ∧
    t.settled i = s.settled i ∧ t.testStats i = s.testStats i

omit [LinearOrder F] in
theorem Risen.refl (i : Int) (s : Db F) : Risen i s s := fun x hx => ⟨x, hx, id⟩

omit [LinearOrder F] in
theorem Risen.trans {i : Int} {s t u : Db F} (h : Risen i s t) (h' : Risen i t u) :
    Risen i s u := by
  intro x hx
  obtain ⟨y, hy, hxy⟩ := h x hx
  obtain ⟨z, hz, hyz⟩ := h' y hy
  exact ⟨z, hz, fun hs => hyz (hxy hs)⟩

omit [LinearOrder F] in
theorem Frozen.refl (i : Int) (s : Db F) : Frozen i s s := fun x hx hr => ⟨x, hx, hr, rfl, rfl⟩

omit [LinearOrder F] in
theorem Frozen.trans {i : Int} {s t u : Db F} (h : Frozen i s t) (h' : Frozen i t u) :
    Frozen i s u := by
  intro x hx hr
  obtain ⟨y, hy, hry, hset, hstats⟩ := h x hx hr
  obtain ⟨z, hz, hrz, hset', hstats'⟩ := h' y hy hry
  exact ⟨z, hz, hrz, hset'.trans hset, hstats'.trans hstats⟩

/-- What holds of the committed database; `strict` says whether verdicts are looked after too. -/
structure Ledger (N : Numerics F) (strict : Prop) (db : Db F) : Prop where
  hosted : db.Hosted
  timed : ∀ i t, db.tests.find i = some t → t.Timed
  rates : ∀ i t, db.tests.find i = some t → t.Rates
  books : ∀ i, Books N db i (db.settled i)
  opened : ∀ i, db.Live i → db.testStats i ≠ none
  rated : strict → db.Rated

end Db

/-- What a lock protects. -/
def ledgerRegion (key : Lock) (s t : Db F) : Prop :=
  match key with
  | .test i => (∀ x, s.tests.find i = some x → t.tests.find i = some x) ∧
      t.settled i = s.settled i ∧ t.testStats i = s.testStats i ∧ t.historyOf i = s.historyOf i
  | .pair i => ∀ p, s.jobPairs.find i = some p → t.jobPairs.find i = some p
  | .promotion => ∀ i, s.Waiting i → t.Waiting i
  | .promoted _ => True

theorem ledgerRegion_refl (key : Lock) (s : Db F) : ledgerRegion key s s := by
  cases key with
  | test i => exact ⟨fun _ h => h, rfl, rfl, rfl⟩
  | promoted i => trivial
  | pair i => exact fun _ h => h
  | promotion => exact fun _ h => h

theorem ledgerRegion_trans {key : Lock} {s t u : Db F} (h : ledgerRegion key s t)
    (h' : ledgerRegion key t u) : ledgerRegion key s u := by
  cases key with
  | test i =>
    obtain ⟨hrow, hset, hstats, hhist⟩ := h
    obtain ⟨hrow', hset', hstats', hhist'⟩ := h'
    exact ⟨fun x hx => hrow' x (hrow x hx), hset'.trans hset, hstats'.trans hstats,
      hhist'.trans hhist⟩
  | promoted i => trivial
  | pair i => exact fun p hp => h' p (h p hp)
  | promotion => exact fun i hi => h' i (h i hi)

def ledger [LinearOrder F] (N : Numerics F) (strict : Prop) : Protocol (Db F) Lock where
  inv := Db.Ledger N strict
  steady s t := ∀ i, Db.Risen i s t ∧ (strict → Db.Frozen i s t)
  region := ledgerRegion
  steady_refl := fun s i => ⟨.refl i s, fun _ => .refl i s⟩
  steady_trans := fun h h' i => ⟨(h i).1.trans (h' i).1, fun hs => ((h i).2 hs).trans ((h' i).2 hs)⟩
  region_refl := ledgerRegion_refl
  region_trans := ledgerRegion_trans

variable [LinearOrder F]

/-- What a transaction sees, `u`, over what is committed, `t`: its books are kept but for those of
the test it owes a recomputation, and it changed what its locks protect. -/
structure Entry (N : Numerics F) (strict : Prop) (owed : Option Int) (held : List Lock)
    (gain : Int → Multiset Settlement) (act : TestRow → TestRow) (t u : Db F) : Prop where
  hosted : u.Hosted
  timed : ∀ i y, u.tests.find i = some y → y.Timed
  rates : ∀ i y, u.tests.find i = some y → y.Rates
  books : ∀ i, owed ≠ some i → Books N u i (u.settled i)
  due : ∀ i, owed = some i → (∃ y, u.tests.find i = some y) ∧ ∃ S T, Books N u i S ∧
    u.settled i = S + T ∧ Multiset.card (scoresOf T) ≤ 1
  opened : ∀ i, owed ≠ some i → u.Live i → u.testStats i ≠ none
  rated : strict → u.Rated
  settled : ∀ i, u.settled i = t.settled i + gain i
  tests : ∀ i, u.tests.find i = (t.tests.find i).map act
  risen : ∀ i, Db.Risen i t u
  frozen : strict → ∀ i, owed ≠ some i → Db.Frozen i t u
  region : ∀ key, key ∉ held → (∀ i, owed = some i → key ≠ .test i) → ledgerRegion key t u

namespace Entry

variable {N : Numerics F} {strict : Prop} {owed : Option Int} {held : List Lock}
  {gain : Int → Multiset Settlement} {act : TestRow → TestRow} {t u v : Db F}

theorem init (h : u.Ledger N strict) : Entry N strict none held (fun _ => 0) id u u where
  hosted := h.hosted
  timed := h.timed
  rates := h.rates
  books i _ := h.books i
  due i hi := by cases hi
  opened i _ := h.opened i
  rated := h.rated
  settled i := (add_zero _).symm
  tests i := by simp
  risen i := .refl i u
  frozen _ i _ := .refl i u
  region key _ _ := ledgerRegion_refl key u

theorem mono (h : Entry N strict owed held gain act t u) {held' : List Lock}
    (hs : ∀ key ∈ held, key ∈ held') : Entry N strict owed held' gain act t u :=
  { h with region := fun key hk => h.region key fun hk' => hk (hs key hk') }

theorem ledger (h : Entry N strict none held gain act t u) : u.Ledger N strict :=
  ⟨h.hosted, h.timed, h.rates, fun i => h.books i (by simp), fun i => h.opened i (by simp), h.rated⟩

/-- A write that leaves the books and the tests alone. -/
theorem quiet (h : Entry N strict owed held gain act t u) (hosted : v.Hosted)
    (hset : ∀ i, v.settled i = u.settled i) (htests : v.tests = u.tests)
    (hstats : v.testStats = u.testStats) (hhist : v.history = u.history)
    (hfrom : ∀ q ∈ v.jobPairs.rows, ∃ p ∈ u.jobPairs.rows, p.testId = q.testId)
    (hpairs : ∀ i, .pair i ∉ held → ∀ p, u.jobPairs.find i = some p →
      v.jobPairs.find i = some p) : Entry N strict owed held gain act t v := by
  have hbooks : ∀ i S, Books N u i S → Books N v i S := by
    intro i S hb
    refine hb.congr (by rw [hstats]) ?_ fun x hx => ⟨x, htests ▸ hx, rfl⟩
    unfold Db.historyOf
    rw [hhist]
  refine ⟨hosted, fun i y hy => h.timed i y (htests ▸ hy), fun i y hy => h.rates i y (htests ▸ hy),
    fun i hi => ?_, fun i hi => ?_, fun i hi hl => ?_, fun hs i y hy => ?_, fun i => ?_,
    fun i => ?_, fun i x hx => ?_, fun hs i hi x hx hr => ?_, fun key hk hne => ?_⟩
  · rw [hset]
    exact hbooks i _ (h.books i hi)
  · obtain ⟨hrow, S, T, hb, hST, hT⟩ := h.due i hi
    exact ⟨htests ▸ hrow, S, T, hbooks i S hb, (hset i).trans hST, hT⟩
  · rw [hstats]
    exact h.opened i hi (hl.of hfrom htests)
  · rw [hstats]
    exact h.rated hs i y (htests ▸ hy)
  · rw [hset]
    exact h.settled i
  · rw [htests]
    exact h.tests i
  · rw [htests]
    exact h.risen i x hx
  · obtain ⟨y, hy, hry, hset', hstats'⟩ := h.frozen hs i hi x hx hr
    exact ⟨y, htests ▸ hy, hry, (hset i).trans hset', by rw [hstats]; exact hstats'⟩
  · refine ledgerRegion_trans (h.region key hk hne) ?_
    cases key with
    | test i =>
      refine ⟨fun x hx => htests ▸ hx, hset i, by rw [hstats], ?_⟩
      unfold Db.historyOf
      rw [hhist]
    | promoted i => trivial
    | pair i => exact hpairs i hk
    | promotion =>
      rintro i ⟨x, hx, hrest⟩
      refine ⟨x, htests ▸ hx, ?_⟩
      rw [hstats]
      exact hrest

/-- What the new row of a test has to satisfy. -/
structure Lawful (strict : Prop) (owed : Option Int) (held : List Lock) (u : Db F) (id : Int)
    (y y' : TestRow) : Prop where
  terms : y'.terms = y.terms
  timed : y'.Timed
  start : y.startedAt ≠ none → y'.startedAt ≠ none
  current : ¬y.Retired
  waiting : .promotion ∈ held ∨ ((y.status = .queued ∨ y.status = .stopped) →
    (y'.status = .queued ∨ y'.status = .stopped) ∧ y'.startedAt = y.startedAt)
  live : owed ≠ some id → y'.status = .queued ∨ y'.startedAt ≠ none → u.testStats id ≠ none
  rated : strict → y'.kind = .sprt → y'.status = .finished →
    ∃ s, u.testStats id = some s ∧ s.Supports y'.result

/-- An update of a locked row. -/
theorem updateTest (h : Entry N strict owed held gain act t u) {id : Int} {f : TestRow → TestRow}
    {hf : ∀ r, (f r).id = r.id} (hid : .test id ∈ held)
    (hrow : ∀ y, u.tests.find id = some y → Lawful strict owed held u id y (f y)) :
    Entry N strict owed held gain (fun r => if (act r).id == id then f (act r) else act r) t
      (u.updateTest id f hf) := by
  have keep : ∀ i y, u.tests.find i = some y →
      ∃ y', (u.updateTest id f hf).tests.find i = some y' ∧ y'.terms = y.terms := by
    intro i y hy
    rcases u.find_updateTest_cases id f hf hy with ⟨rfl, h'⟩ | ⟨-, h'⟩
    · exact ⟨_, h', (hrow y hy).terms⟩
    · exact ⟨_, h', rfl⟩
  have hbooks : ∀ i S, Books N u i S → Books N (u.updateTest id f hf) i S :=
    fun i S hb => hb.congr rfl rfl (keep i)
  refine ⟨?_, fun i x hx => ?_, fun i x hx => ?_, fun i hi => hbooks i _ (h.books i hi),
    fun i hi => ?_, fun i hi hl => ?_, fun hs i x hx hk hfin => ?_, h.settled, fun i => ?_, fun i x hx => ?_,
    fun hs i hi x hx hr => ?_, fun key hk hne => ?_⟩
  · refine h.hosted.tests rfl rfl fun i y hy => ?_
    obtain ⟨y', hy', -⟩ := keep i y hy
    exact ⟨y', hy'⟩
  · obtain ⟨y, hy, ⟨rfl, rfl⟩ | ⟨-, rfl⟩⟩ := Db.of_find_updateTest hx
    · exact (hrow y hy).timed
    · exact h.timed i _ hy
  · obtain ⟨y, hy, ⟨rfl, rfl⟩ | ⟨-, rfl⟩⟩ := Db.of_find_updateTest hx
    · exact (h.rates i y hy).congr (hrow y hy).terms
    · exact h.rates i _ hy
  · obtain ⟨⟨y, hy⟩, S, T, hb, hST, hT⟩ := h.due i hi
    obtain ⟨y', hy', -⟩ := keep i y hy
    exact ⟨⟨y', hy'⟩, S, T, hbooks i S hb, hST, hT⟩
  · rcases hl with hpair | ⟨x, hx, hlive⟩
    · exact h.opened i hi (.inl hpair)
    · obtain ⟨y, hy, ⟨rfl, rfl⟩ | ⟨-, rfl⟩⟩ := Db.of_find_updateTest hx
      · exact (hrow y hy).live hi hlive
      · exact h.opened i hi (.inr ⟨_, hy, hlive⟩)
  · obtain ⟨y, hy, ⟨rfl, rfl⟩ | ⟨-, rfl⟩⟩ := Db.of_find_updateTest hx
    · exact (hrow y hy).rated hs hk hfin
    · exact h.rated hs i _ hy hk hfin
  · rw [Db.find_updateTest, h.tests, Option.map_map]
    rfl
  · obtain ⟨y, hy, hxy⟩ := h.risen i x hx
    rcases u.find_updateTest_cases id f hf hy with ⟨rfl, hy'⟩ | ⟨-, hy'⟩
    · exact ⟨_, hy', fun hst => (hrow y hy).start (hxy hst)⟩
    · exact ⟨y, hy', hxy⟩
  · obtain ⟨y, hy, hry, hset, hstats⟩ := h.frozen hs i hi x hx hr
    rcases u.find_updateTest_cases id f hf hy with ⟨rfl, -⟩ | ⟨-, hy'⟩
    · exact absurd hry (hrow y hy).current
    · exact ⟨y, hy', hry, hset, hstats⟩
  · refine ledgerRegion_trans (h.region key hk hne) ?_
    cases key with
    | test i =>
      have hi : i ≠ id := by
        rintro rfl
        exact hk hid
      refine ⟨fun y hy => ?_, rfl, rfl, rfl⟩
      rcases u.find_updateTest_cases id f hf hy with ⟨he, -⟩ | ⟨-, hy'⟩
      · exact absurd he hi
      · exact hy'
    | promoted i => trivial
    | pair i => exact fun _ hp => hp
    | promotion =>
      rintro i ⟨y, hy, hs, hst, hstats⟩
      rcases u.find_updateTest_cases id f hf hy with ⟨rfl, hy'⟩ | ⟨-, hy'⟩
      · obtain ⟨hs', hst'⟩ := ((hrow y hy).waiting.resolve_left hk) hs
        exact ⟨_, hy', hs', hst'.trans hst, hstats⟩
      · exact ⟨y, hy', hs, hst, hstats⟩

omit [LinearOrder F] in
theorem settled_record (u : Db F) (id : Int) (st : TestStats F) (i : Int) :
    (u.record id st).settled i = u.settled i := by
  have hsame := SameQueue.record u id st
  refine settled_congr ?_ hsame.games i
  rw [Db.completedPairs, hsame.jobPairs]
  rfl

omit [LinearOrder F] in
/-- What is recorded for a test stays in the region of its lock. -/
theorem ledgerRegion_record (u : Db F) {id : Int} (st : TestStats F) {key : Lock}
    (hne : key ≠ .test id) : ledgerRegion key u (u.record id st) := by
  have hfind : ∀ i, (u.record id st).tests.find i = u.tests.find i :=
    fun i => by rw [Db.tests_record]
  cases key with
  | test i =>
    have hi : i ≠ id := fun he => hne (he ▸ rfl)
    exact ⟨fun x hx => (hfind i).trans hx, settled_record u id st i, testStats_record_ne u _ hi,
      historyOf_record_ne u _ hi⟩
  | promoted i => trivial
  | pair i => exact fun p hp => by rw [(SameQueue.record u id st).jobPairs]; exact hp
  | promotion =>
    rintro i ⟨x, hx, hs, hst, hsome⟩
    refine ⟨x, (hfind i).trans hx, hs, hst, ?_⟩
    by_cases hi : i = id
    · rw [hi, Db.testStats_record]
      simp
    · rw [testStats_record_ne u _ hi]
      exact hsome

/-- A recomputation brings the books of a locked test up to date. -/
theorem record (h : Entry N strict owed held gain act t u) {id : Int} {y : TestRow}
    {r : Recomputed F} (hid : .test id ∈ held) (howed : ∀ i, owed = some i → i = id)
    (hy : u.tests.find id = some y) (hr : recount N y (u.settled id) = .ok r)
    (hcur : owed = some id → strict → ¬y.Retired ∧
      ∀ x, t.tests.find id = some x → ¬x.Retired) :
    Entry N strict none held gain act t (u.record id r.stats) := by
  have htests : (u.record id r.stats).tests = u.tests := u.tests_record id r.stats
  have hjobs : (u.record id r.stats).jobPairs = u.jobPairs := (SameQueue.record u id _).jobPairs
  have hgames : (u.record id r.stats).games = u.games := (SameQueue.record u id _).games
  have hset : ∀ i, (u.record id r.stats).settled i = u.settled i := settled_record u id r.stats
  have hstats := Db.testStats_record u id r.stats
  -- the statistics of a test with books that are kept do not change
  have hsame : owed ≠ some id → u.testStats id ≠ none → u.testStats id = some r.stats := by
    intro hne hsome
    obtain ⟨s, hs⟩ := Option.ne_none_iff_exists'.mp hsome
    rw [hs, (h.books id hne).stats_eq hy hr hs]
  have live : ∀ {i}, (u.record id r.stats).Live i → u.Live i := fun hl =>
    hl.of (fun q hq => ⟨q, hjobs ▸ hq, rfl⟩) htests
  have hfind : ∀ i, (u.record id r.stats).tests.find i = u.tests.find i := fun i => by rw [htests]
  refine ⟨?_, fun i x hx => h.timed i x (htests ▸ hx), fun i x hx => h.rates i x (htests ▸ hx),
    fun i _ => ?_, ?_, fun i _ hl => ?_,
    fun hs i x hx hk hfin => ?_, fun i => (hset i).trans (h.settled i),
    fun i => (hfind i).trans (h.tests i), fun i x hx => ?_, fun hs i _ x hx hrx => ?_,
    fun key hk _ => ?_⟩
  · exact h.hosted.tests hgames hjobs fun i x hx => ⟨x, (hfind i).trans hx⟩
  · rw [hset]
    by_cases hi : i = id
    · subst hi
      by_cases ho : owed = some i
      · obtain ⟨-, S, T, hb, hST, hT⟩ := h.due i ho
        rw [hST] at hr ⊢
        exact hb.record hT hy hr
      · have hb := h.books i ho
        have hzero : recount N y (u.settled i + 0) = .ok r := by
          rw [add_zero]
          exact hr
        simpa using hb.record (T := 0) (by simp [scoresOf]) hy hzero
    · have ho : owed ≠ some i := fun he => hi (howed i he)
      refine (h.books i ho).congr (testStats_record_ne u _ hi) (historyOf_record_ne u _ hi) ?_
      exact fun x hx => ⟨x, (hfind i).trans hx, rfl⟩
  · intro i hi
    cases hi
  · by_cases hi : i = id
    · rw [hi, hstats]
      simp
    · rw [testStats_record_ne u _ hi]
      exact h.opened i (fun he => hi (howed i he)) (live hl)
  · rw [htests] at hx
    by_cases hi : i = id
    · subst hi
      obtain ⟨s, hst, hsup⟩ := h.rated hs i x hx hk hfin
      have ho : owed ≠ some i := by
        intro ho
        cases Option.some.inj (hx.symm.trans hy)
        refine (hcur ho hs).1 ⟨(h.timed i _ hx).late (.inr hfin), ?_⟩
        simp [hfin]
      have hst' := hsame ho (by simp [hst])
      cases Option.some.inj (hst.symm.trans hst')
      exact ⟨_, hstats, hsup⟩
    · obtain ⟨s, hst, hsup⟩ := h.rated hs i x hx hk hfin
      exact ⟨s, (testStats_record_ne u _ hi).trans hst, hsup⟩
  · obtain ⟨z, hz, hxz⟩ := h.risen i x hx
    exact ⟨z, (hfind i).trans hz, hxz⟩
  · by_cases hi : i = id
    · subst hi
      have ho : owed ≠ some i := fun ho => (hcur ho hs).2 x hx hrx
      obtain ⟨y', hy', hry, hset', hst⟩ := h.frozen hs i ho x hx hrx
      refine ⟨y', (hfind i).trans hy', hry, (hset i).trans hset', ?_⟩
      have hsome := h.opened i ho (.inr ⟨y', hy', .inr hry.1⟩)
      rw [hstats, ← hsame ho hsome, hst]
    · obtain ⟨y', hy', hry, hset', hst⟩ := h.frozen hs i (fun he => hi (howed i he)) x hx hrx
      refine ⟨y', (hfind i).trans hy', hry, (hset i).trans hset', ?_⟩
      rw [testStats_record_ne u _ hi, hst]
  · have hne : ∀ i, owed = some i → key ≠ .test i := by
      rintro i ho rfl
      exact hk (howed i ho ▸ hid)
    exact ledgerRegion_trans (h.region key hk hne) (ledgerRegion_record u _ fun he => hk (he ▸ hid))

/-- Open pairs, locked, stay open. -/
theorem updatePairs (h : u.Ledger N strict) {p : PairRow → Bool} {f : PairRow → PairRow}
    {hf : ∀ r, (f r).id = r.id} (htest : ∀ r, (f r).testId = r.testId)
    (hopen : ∀ r, r.status ≠ .completed → (f r).status ≠ .completed)
    (hp : ∀ r ∈ u.jobPairs.rows, p r = true → .pair r.id ∈ held ∧ r.status ≠ .completed) :
    Entry N strict none held (fun _ => 0) id u (u.updatePairs p f hf) := by
  refine (Entry.init h).quiet ?_ ?_ rfl rfl rfl (fun q hq => ?_) fun i hi r hr => ?_
  · exact h.hosted.updatePairs htest fun r hr hpr => (hp r hr hpr).2
  · refine settled_congr (completedPairs_updatePairs fun r hr hpr => ?_) rfl
    exact ⟨(hp r hr hpr).2, hopen r (hp r hr hpr).2⟩
  · obtain ⟨r, hr, rfl⟩ := Db.mem_updatePairs.mp hq
    refine ⟨r, hr, ?_⟩
    split
    · exact (htest r).symm
    · rfl
  · obtain ⟨hmem, hid⟩ := Table.find_some hr
    have hnot : ¬p r = true := fun hpr => hi (hid ▸ (hp r hmem hpr).1)
    rw [Db.find_updatePairs, hr, Option.map_some, if_neg hnot]

/-- The delivery of an open pair, locked, is not in the books yet. -/
theorem deliver (h : u.Ledger N strict) (E : Env F) (now : ℚ) {p : PairRow} (report : RoutedReport)
    (hp : p ∈ u.jobPairs.rows) (hopen : p.status ≠ .completed) (hheld : .pair p.id ∈ held) :
    Entry N strict (some p.testId) held
      (fun i => if p.testId = i then {E.settlement now p report.toPairReport} else 0) id u
      (u.deliver E now p report.toPairReport) := by
  have hhosted := h.hosted.deliver E now report hp hopen
  have hgames := h.hosted.gamesOf_eq_nil hp hopen
  have hset := settled_deliver E now report.toPairReport hp hopen hgames
  have hsame : ∀ i, some p.testId ≠ some i →
      (u.deliver E now p report.toPairReport).settled i = u.settled i := by
    intro i hi
    rw [hset, if_neg fun he => hi (congrArg some he), add_zero]
  have hcard : Multiset.card (scoresOf {E.settlement now p report.toPairReport}) ≤ 1 := by
    have hrows := hhosted.keyed.rows (p.complete now)
    have hvalid : (u.deliver E now p report.toPairReport).validGames (p.complete now) =
        (E.settlement now p report.toPairReport).2 := by
      unfold Db.validGames
      rw [PairRow.complete_id, gamesOf_deliver, if_pos rfl, hgames, List.nil_append]
      rfl
    rw [hvalid] at hrows
    rw [scoresOf, Multiset.singleton_bind, Settlement.card_scores, Settlement.rows]
    change (outcomesOf (p.complete now) _).length ≤ 1
    generalize outcomesOf (p.complete now) _ = os at hrows
    cases hrows with
    | counted => simp
    | none => simp
  have live : ∀ {i}, (u.deliver E now p report.toPairReport).Live i → u.Live i := by
    intro i hl
    refine hl.of (fun q hq => ?_) rfl
    obtain ⟨r, hr, rfl⟩ := (Db.mem_updatePairs (h := PairRow.complete_id now)).mp hq
    refine ⟨r, hr, ?_⟩
    split
    · rfl
    · rfl
  refine ⟨hhosted, h.timed, h.rates, fun i hi => ?_, fun i hi => ?_, fun i _ hl => h.opened i (live hl),
    h.rated, fun i => hset i, fun i => ?_, fun i => .refl i u, fun _ i hi x hx hrx => ?_,
    fun key hk hne => ?_⟩
  · rw [hsame i hi]
    exact (h.books i).congr rfl rfl fun x hx => ⟨x, hx, rfl⟩
  · cases Option.some.inj hi
    refine ⟨h.hosted.owned p hp, u.settled p.testId, {E.settlement now p report.toPairReport},
      (h.books p.testId).congr rfl rfl fun x hx => ⟨x, hx, rfl⟩, ?_, hcard⟩
    rw [hset, if_pos rfl]
  · exact (Option.map_id' ..).symm
  · exact ⟨x, hx, hrx, hsame i hi, rfl⟩
  · cases key with
    | test i => exact ⟨fun _ hx => hx, hsame i fun he => hne i he rfl, rfl, rfl⟩
    | promoted i => trivial
    | pair i =>
      intro q hq
      have hqid : q.id = i := (Table.find_some hq).2
      have hne' : q.id ≠ p.id := by
        rintro he
        exact hk (hqid ▸ he ▸ hheld)
      have hfind := Db.find_updatePairs u (·.id == p.id) (.complete now) (PairRow.complete_id now) i
      refine hfind.trans ?_
      simp [hq, hne']
    | promotion => exact fun _ hw => hw

/-- Pairs for a test that is known, which owes its first recomputation then. -/
theorem addPairs (h : Entry N strict none held gain act t u) {id : Int} (random : Nat → ℚ)
    {y : TestRow} (hy : u.tests.find id = some y) :
    Entry N strict (some id) held gain act t (u.addPairs id random) := by
  have hhosted : (u.addPairs id random).Hosted := h.hosted.addPairs hy
  obtain ⟨new, next, hb, hn, heq, -, hnew⟩ := addPairs_spec u id random
  have hset : ∀ i, (u.addPairs id random).settled i = u.settled i :=
    settled_congr (completedPairs_addPairs u id random) (by rw [heq])
  have hfind : ∀ i p, u.jobPairs.find i = some p →
      (u.addPairs id random).jobPairs.find i = some p := by
    intro i p hp
    obtain ⟨hmem, hid⟩ := Table.find_some hp
    rw [heq]
    exact Table.find_eq_some.mpr ⟨List.mem_append_left _ hmem, hid⟩
  have htests : (u.addPairs id random).tests = u.tests := by rw [heq]
  have hstats : (u.addPairs id random).testStats = u.testStats := by rw [heq]
  have hhist : ∀ i, (u.addPairs id random).historyOf i = u.historyOf i := by
    intro i
    rw [heq]
    rfl
  have hbooks : ∀ i S, Books N u i S → Books N (u.addPairs id random) i S := fun i S hb =>
    hb.congr (by rw [hstats]) (hhist i) fun x hx => ⟨x, htests ▸ hx, rfl⟩
  refine ⟨hhosted, fun i x hx => h.timed i x (htests ▸ hx),
    fun i x hx => h.rates i x (htests ▸ hx), fun i _ => ?_, fun i hi => ?_, fun i hi hl => ?_, fun hs i x hx => ?_, fun i => (hset i).trans (h.settled i), fun i => ?_,
    fun i => ?_, fun hs i _ x hx hrx => ?_, fun key hk _ => ?_⟩
  · rw [hset]
    exact hbooks i _ (h.books i (by simp))
  · cases Option.some.inj hi
    refine ⟨⟨y, htests ▸ hy⟩, u.settled id, 0, hbooks id _ (h.books id (by simp)), ?_, ?_⟩
    · rw [hset, add_zero]
    · simp [scoresOf]
  · rw [hstats]
    refine h.opened i (by simp) ?_
    rcases hl with ⟨q, hq, hqi⟩ | hl
    · rw [heq] at hq
      rcases List.mem_append.mp hq with hold | hadded
      · exact .inl ⟨q, hold, hqi⟩
      · exact absurd (congrArg some ((hnew q hadded).2.1.symm.trans hqi)) hi
    · exact .inr (htests ▸ hl)
  · rw [hstats]
    exact h.rated hs i x (htests ▸ hx)
  · rw [htests]
    exact h.tests i
  · intro x hx
    rw [htests]
    exact h.risen i x hx
  · obtain ⟨z, hz, hrz, hset', hst⟩ := h.frozen hs i (by simp) x hx hrx
    exact ⟨z, htests ▸ hz, hrz, (hset i).trans hset', by rw [hstats]; exact hst⟩
  · refine ledgerRegion_trans (h.region key hk (by simp)) ?_
    cases key with
    | test i => exact ⟨fun x hx => htests ▸ hx, hset i, by rw [hstats], hhist i⟩
    | promoted i => trivial
    | pair i => exact hfind i
    | promotion =>
      rintro i ⟨x, hx, hrest⟩
      refine ⟨x, htests ▸ hx, ?_⟩
      rw [hstats]
      exact hrest

end Entry

end CapiNet
