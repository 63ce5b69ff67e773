import CapiNet.PairInvariant
import CapiNet.TestMove

namespace CapiNet

open Txn Relational

variable {F : Type}

/-- A test that will not change any more. -/
def TestStatus.closed (s : TestStatus) : Prop := s = .invalid ∨ s = .finished ∨ s = .stopped

/-- A pair that can still bring a result. -/
def PairRow.open (p : PairRow) : Bool := p.status == .pending || p.status == .leased

namespace Db

theorem mem_pairsOf {db : Db F} {testId : Int} {p : PairRow} :
    p ∈ db.pairsOf testId ↔ p ∈ db.jobPairs.rows ∧ p.testId = testId := by
  simp [pairsOf]

theorem remaining_eq (db : Db F) (testId : Int) :
    db.remaining testId = (db.pairsOf testId).countP (·.open) := by
  unfold remaining pairsOf
  rw [List.countP_filter]
  exact List.countP_congr fun p _ => by simp [PairRow.open, and_comm]

/-- The stored numbers of an SPRT, if there are any, call for more pairs. -/
def Undecided [LinearOrder F] (db : Db F) (t : TestRow) : Prop :=
  t.kind = .sprt → ∀ s, db.testStats t.id = some s → 0 < s.pairsValid →
    ∃ llr lower upper, s.llr = some llr ∧ s.llrLower = some lower ∧ s.llrUpper = some upper ∧
      lower < llr ∧ llr < upper

/-- If a test is queued, a test is running. -/
def Served (db : Db F) : Prop :=
  ∀ t ∈ db.tests.rows, t.status = .queued → ∃ u ∈ db.tests.rows, u.status = .running

structure Lifecycle [LinearOrder F] (db : Db F) (due : List Int) : Prop where
  placed : ∀ p ∈ db.jobPairs.rows, ∃ t, db.tests.find p.testId = some t ∧ t.status ≠ .validating
  opened : ∀ o ∈ db.positions.rows, ∃ t, db.tests.find o.testId = some t ∧ t.status ≠ .validating
  demands : ∀ t ∈ db.tests.rows, 1 ≤ t.totalPairs
  single : ∀ t ∈ db.tests.rows, ∀ u ∈ db.tests.rows, t.status = .running → u.status = .running →
    t = u
  queued : ∀ t ∈ db.tests.rows, t.status = .queued →
    ((db.pairsOf t.id).length : Int) = t.totalPairs ∧
      ∀ p ∈ db.pairsOf t.id, p.status = .pending ∧ p.attempts = 0
  unplayed : ∀ t ∈ db.tests.rows, t.status = .queued → t.id ∉ due →
    ∀ s, db.testStats t.id = some s → s.pairsValid = 0
  running : ∀ t ∈ db.tests.rows, t.status = .running → t.id ∉ due →
    0 < db.remaining t.id ∧ db.Undecided t

end Db

variable [LinearOrder F]

theorem Lifecycle.empty : (Db.empty : Db F).Lifecycle [] := by
  constructor <;> simp [Db.empty]

/-- Clients, games and history play no part. -/
theorem Db.Lifecycle.congr {db db' : Db F} {due : List Int} (h : db.Lifecycle due)
    (ht : db'.tests = db.tests) (hp : db'.jobPairs = db.jobPairs)
    (ho : db'.positions = db.positions) (hs : db'.testStats = db.testStats) :
    db'.Lifecycle due := by
  obtain ⟨tests, clients, positions, jobPairs, games, testStats, history⟩ := db
  obtain ⟨tests', clients', positions', jobPairs', games', testStats', history'⟩ := db'
  cases ht
  cases hp
  cases ho
  cases hs
  exact ⟨h.placed, h.opened, h.demands, h.single, h.queued, h.unplayed, h.running⟩

/-- A test is no longer due when its row and statistics are in order. -/
theorem Db.Lifecycle.settle {db : Db F} {id : Int} {due : List Int} (h : db.Lifecycle (id :: due))
    (hq : ∀ t, db.tests.find id = some t → t.status = .queued →
      ∀ s, db.testStats id = some s → s.pairsValid = 0)
    (hr : ∀ t, db.tests.find id = some t → t.status = .running →
      0 < db.remaining id ∧ db.Undecided t) : db.Lifecycle due := by
  refine ⟨h.placed, h.opened, h.demands, h.single, h.queued, ?_, ?_⟩
  · intro t ht hs hd
    by_cases hid : t.id = id
    · subst hid
      exact hq t (Table.find_of_mem ht) hs
    · exact h.unplayed t ht hs (by simp [hid, hd])
  · intro t ht hs hd
    by_cases hid : t.id = id
    · subst hid
      exact hr t (Table.find_of_mem ht) hs
    · exact h.running t ht hs (by simp [hid, hd])

omit [LinearOrder F] in
theorem updated_mem (id : Int) (f : TestRow → TestRow) (hid : ∀ r, (f r).id = r.id) {db : Db F}
    {r : TestRow} (hr : r ∈ db.tests.rows) :
    (if r.id == id then f r else r) ∈ (db.updateTest id f hid).tests.rows :=
  (Table.mem_modify db.tests _ f hid).mpr ⟨r, hr, rfl⟩

omit [LinearOrder F] in
/-- The rows after an update of one test. -/
theorem mem_updateTest {db : Db F} {id : Int} {f : TestRow → TestRow} {hid : ∀ r, (f r).id = r.id}
    {t : TestRow} (ht : t ∈ (db.updateTest id f hid).tests.rows) :
    ∃ r ∈ db.tests.rows, t.id = r.id ∧ ((r.id = id ∧ t = f r) ∨ (r.id ≠ id ∧ t = r)) := by
  obtain ⟨r, hr, rfl⟩ := (Table.mem_modify db.tests _ f hid).mp ht
  by_cases h : r.id = id
  · refine ⟨r, hr, ?_, .inl ⟨h, by simp [h]⟩⟩
    simp [h, hid]
  · exact ⟨r, hr, by simp [h], .inr ⟨h, by simp [h]⟩⟩

omit [LinearOrder F] in
/-- What a row of a test refers to stays known when one test is updated. -/
theorem known_updateTest {db : Db F} {id : Int} {f : TestRow → TestRow} {hid : ∀ r, (f r).id = r.id}
    (hf : ∀ r, db.tests.find id = some r → r.status ≠ .validating → (f r).status ≠ .validating)
    {i : Int} (h : ∃ t, db.tests.find i = some t ∧ t.status ≠ .validating) :
    ∃ t, (db.updateTest id f hid).tests.find i = some t ∧ t.status ≠ .validating := by
  obtain ⟨t, ht, hs⟩ := h
  rcases db.find_updateTest_cases id f hid ht with ⟨rfl, hf'⟩ | ⟨-, hf'⟩
  · exact ⟨_, hf', hf t ht hs⟩
  · exact ⟨t, hf', hs⟩

/-- A test that keeps its status or is closed. -/
theorem Db.Lifecycle.updateTest {db : Db F} {due : List Int} (h : db.Lifecycle due) {id : Int}
    {f : TestRow → TestRow} {hid : ∀ r, (f r).id = r.id}
    (htotal : ∀ r, (f r).totalPairs = r.totalPairs) (hkind : ∀ r, (f r).kind = r.kind)
    (hstatus : ∀ r, (f r).status = r.status ∨ (f r).status.closed) :
    (db.updateTest id f hid).Lifecycle due := by
  have known : ∀ i, (∃ t, db.tests.find i = some t ∧ t.status ≠ .validating) →
      ∃ t, (db.updateTest id f hid).tests.find i = some t ∧ t.status ≠ .validating := by
    intro i hi
    refine known_updateTest (fun r _ hr => ?_) hi
    rcases hstatus r with hs | hs | hs | hs
    · rw [hs]; exact hr
    · simp [hs]
    · simp [hs]
    · simp [hs]
  -- a queued or running row keeps its status and, but for the update, itself
  have same : ∀ t ∈ (db.updateTest id f hid).tests.rows, t.status = .queued ∨ t.status = .running →
      ∃ r ∈ db.tests.rows, t.id = r.id ∧ t.status = r.status ∧ t.totalPairs = r.totalPairs ∧
        t.kind = r.kind ∧ ((r.id = id ∧ t = f r) ∨ (r.id ≠ id ∧ t = r)) := by
    intro t ht hs
    obtain ⟨r, hr, hi, hcase⟩ := mem_updateTest ht
    refine ⟨r, hr, hi, ?_⟩
    rcases hcase with ⟨hri, rfl⟩ | ⟨hri, rfl⟩
    · refine ⟨?_, htotal r, hkind r, .inl ⟨hri, rfl⟩⟩
      rcases hstatus r with hk | hk | hk | hk
      · exact hk
      · simp [hk] at hs
      · simp [hk] at hs
      · simp [hk] at hs
    · exact ⟨rfl, rfl, rfl, .inr ⟨hri, rfl⟩⟩
  refine ⟨fun p hp => known _ (h.placed p hp), fun o ho => known _ (h.opened o ho), ?_, ?_, ?_, ?_, ?_⟩
  · intro t ht
    obtain ⟨r, hr, -, ⟨-, rfl⟩ | ⟨-, rfl⟩⟩ := mem_updateTest ht
    · rw [htotal]; exact h.demands r hr
    · exact h.demands _ hr
  · intro t ht u hu hts hus
    obtain ⟨r, hr, -, hrs, -, -, hrt⟩ := same t ht (.inr hts)
    obtain ⟨q, hq, -, hqs, -, -, hqu⟩ := same u hu (.inr hus)
    have heq : r = q := h.single r hr q hq (hrs ▸ hts) (hqs ▸ hus)
    subst heq
    rcases hrt with ⟨hi, rfl⟩ | ⟨hi, rfl⟩
    · rcases hqu with ⟨-, rfl⟩ | ⟨hi', -⟩
      · rfl
      · exact absurd hi hi'
    · rcases hqu with ⟨hi', -⟩ | ⟨-, rfl⟩
      · exact absurd hi' hi
      · rfl
  · intro t ht hs
    obtain ⟨r, hr, hi, hrs, hrt, -, -⟩ := same t ht (.inl hs)
    have hq := h.queued r hr (hrs ▸ hs)
    rw [hi, hrt]
    exact hq
  · intro t ht hs hd
    obtain ⟨r, hr, hi, hrs, -, -, -⟩ := same t ht (.inl hs)
    rw [hi] at hd ⊢
    exact h.unplayed r hr (hrs ▸ hs) hd
  · intro t ht hs hd
    obtain ⟨r, hr, hi, hrs, -, hk, -⟩ := same t ht (.inr hs)
    rw [hi] at hd ⊢
    obtain ⟨hrem, hund⟩ := h.running r hr (hrs ▸ hs) hd
    refine ⟨hrem, ?_⟩
    unfold Db.Undecided
    rw [hi, hk]
    exact hund

omit [LinearOrder F] in
/-- An update that neither queues a test nor ends a running one. -/
theorem Db.Served.updateTest {db : Db F} (h : db.Served) {id : Int} {f : TestRow → TestRow}
    {hid : ∀ r, (f r).id = r.id}
    (hq : ∀ r, db.tests.find id = some r → (f r).status = .queued → r.status = .queued)
    (hr : ∀ r, db.tests.find id = some r → r.status = .running → (f r).status = .running) :
    (db.updateTest id f hid).Served := by
  intro t ht hs
  obtain ⟨r, hrm, hrq⟩ : ∃ r ∈ db.tests.rows, r.status = .queued := by
    obtain ⟨r, hrm, -, ⟨rfl, rfl⟩ | ⟨-, rfl⟩⟩ := mem_updateTest ht
    · exact ⟨r, hrm, hq r (Table.find_of_mem hrm) hs⟩
    · exact ⟨_, hrm, hs⟩
  obtain ⟨u, hu, hrun⟩ := h r hrm hrq
  refine ⟨_, updated_mem id f hid hu, ?_⟩
  split
  next hi =>
    have heq : u.id = id := by simpa using hi
    exact hr u (heq ▸ Table.find_of_mem hu) hrun
  next => exact hrun

/-- A promotion keeps the invariant and serves the queue. -/
theorem Promoted.lifecycle {now : ℚ} {db db' : Db F} {r : Option Int} {due : List Int}
    (h : db.Lifecycle due) (hp : Promoted now db r db') : db'.Lifecycle due ∧ db'.Served := by
  cases hp with
  | nothing hnone =>
    refine ⟨h, ?_⟩
    intro t ht hs
    rcases promotionTarget_eq_none hnone with hrun | hq
    · exact hrun
    · exact absurd hs (hq t ht)
  | next id hid =>
    obtain ⟨hnone, q, hq, hqs⟩ := promotionTarget_eq_some hid
    obtain ⟨hqm, rfl⟩ := Table.find_some hq
    have known : ∀ i, (∃ t, db.tests.find i = some t ∧ t.status ≠ .validating) → ∃ t,
        (db.updateTest q.id (.run now) (TestRow.run_id now)).tests.find i = some t ∧
          t.status ≠ .validating :=
      fun i => known_updateTest fun _ _ _ => by simp [TestRow.run]
    have started : ∀ t ∈ (db.updateTest q.id (.run now) (TestRow.run_id now)).tests.rows,
        t.status = .running → t = q.run now := by
      intro t ht hs
      obtain ⟨r, hr, -, ⟨hi, rfl⟩ | ⟨-, rfl⟩⟩ := mem_updateTest ht
      · rw [Table.eq_of_mem_of_key hr hqm hi]
      · exact absurd hs (hnone _ hr)
    have waits : ∀ t ∈ (db.updateTest q.id (.run now) (TestRow.run_id now)).tests.rows,
        t.status = .queued → t ∈ db.tests.rows := by
      intro t ht hs
      obtain ⟨r, hr, -, ⟨-, rfl⟩ | ⟨-, rfl⟩⟩ := mem_updateTest ht
      · cases hs
      · exact hr
    refine ⟨⟨fun p hp => known _ (h.placed p hp), fun o ho => known _ (h.opened o ho), ?_, ?_,
      fun t ht hs => h.queued t (waits t ht hs) hs,
      fun t ht hs => h.unplayed t (waits t ht hs) hs, ?_⟩, ?_⟩
    · intro t ht
      obtain ⟨r, hr, -, ⟨-, rfl⟩ | ⟨-, rfl⟩⟩ := mem_updateTest ht
      · exact h.demands r hr
      · exact h.demands _ hr
    · intro t ht u hu hts hus
      rw [started t ht hts, started u hu hus]
    · intro t ht hs hd
      rw [started t ht hs] at hd ⊢
      obtain ⟨hlen, hpend⟩ := h.queued q hqm hqs
      have hone := h.demands q hqm
      have hall : db.remaining q.id = (db.pairsOf q.id).length := by
        rw [Db.remaining_eq, List.countP_eq_length]
        intro p hp
        simp [PairRow.open, (hpend p hp).1]
      refine ⟨?_, ?_⟩
      · change 0 < db.remaining q.id
        omega
      · intro _ s hstats hpos
        have hzero : s.pairsValid = 0 := h.unplayed q hqm hqs hd s hstats
        omega
    · intro t ht hs
      refine ⟨q.run now, ?_, rfl⟩
      simpa using updated_mem q.id (.run now) (TestRow.run_id now) hqm

omit [LinearOrder F] in
theorem mem_addTest {db : Db F} {now : ℚ} {s : TestSpec} {cc bc : String} {t : TestRow} :
    t ∈ (db.addTest now s cc bc).tests.rows ↔
      t ∈ db.tests.rows ∨ t = testRow now s cc bc db.tests.next := by
  simp [Db.addTest]

omit [LinearOrder F] in
theorem find_addTest {db : Db F} {now : ℚ} {s : TestSpec} {cc bc : String} {i : Int} {t : TestRow}
    (ht : db.tests.find i = some t) : (db.addTest now s cc bc).tests.find i = some t :=
  Table.find_insert_of_some (h := testRow_id now s cc bc) ht

omit [LinearOrder F] in
theorem find_addTest_cases {db : Db F} {now : ℚ} {s : TestSpec} {cc bc : String} {i : Int}
    {t : TestRow} (ht : (db.addTest now s cc bc).tests.find i = some t) :
    (i = db.tests.next ∧ t = testRow now s cc bc i) ∨ db.tests.find i = some t := by
  have hcases := ht
  rw [Db.addTest, Table.find_insert] at hcases
  split at hcases
  next hi => exact .inl ⟨hi, (Option.some.inj hcases).symm⟩
  next => exact .inr hcases

theorem Db.Lifecycle.drawTestId {db : Db F} {due : List Int} (h : db.Lifecycle due) :
    db.drawTestId.Lifecycle due where
  placed := h.placed
  opened := h.opened
  demands := h.demands
  single := h.single
  queued := h.queued
  unplayed := h.unplayed
  running := h.running

/-- A new test is not examined yet. -/
theorem Db.Lifecycle.commitTest {db : Db F} {due : List Int} (h : db.Lifecycle due) {new : TestRow}
    (hnew : new.status = .validating) (hdemands : 1 ≤ new.totalPairs) :
    (db.commitTest new).Lifecycle due := by
  have old : ∀ t ∈ (db.commitTest new).tests.rows, t.status ≠ .validating → t ∈ db.tests.rows := by
    intro t ht hv
    rcases Table.mem_of_mem_place ht with hr | rfl
    · exact hr
    · exact absurd hnew hv
  have known : ∀ i, (∃ t, db.tests.find i = some t ∧ t.status ≠ .validating) →
      ∃ t, (db.commitTest new).tests.find i = some t ∧ t.status ≠ .validating := by
    rintro i ⟨t, ht, hv⟩
    exact ⟨t, Table.find_place_of_some ht, hv⟩
  refine ⟨fun p hp => known _ (h.placed p hp), fun o ho => known _ (h.opened o ho), ?_, ?_, ?_, ?_, ?_⟩
  · intro t ht
    rcases Table.mem_of_mem_place ht with hr | rfl
    · exact h.demands t hr
    · exact hdemands
  · intro t ht u hu hts hus
    exact h.single t (old t ht (by simp [hts])) u (old u hu (by simp [hus])) hts hus
  · intro t ht hq
    exact h.queued t (old t ht (by simp [hq])) hq
  · intro t ht hq
    exact h.unplayed t (old t ht (by simp [hq])) hq
  · intro t ht hr
    exact h.running t (old t ht (by simp [hr])) hr

theorem Db.Lifecycle.addTest {db : Db F} {due : List Int} (h : db.Lifecycle due) {now : ℚ}
    {s : TestSpec} {cc bc : String} (hs : 1 ≤ s.totalPairs) :
    (db.addTest now s cc bc).Lifecycle due := by
  rw [← Db.commitTest_drawTestId]
  exact h.drawTestId.commitTest rfl hs

omit [LinearOrder F] in
theorem Db.Served.commitTest {db : Db F} (h : db.Served) {new : TestRow}
    (hnew : new.status = .validating) : (db.commitTest new).Served := by
  intro t ht hs
  rcases Table.mem_of_mem_place ht with hr | rfl
  · obtain ⟨u, hu, hrun⟩ := h t hr hs
    exact ⟨u, Table.mem_place_of_mem hu, hrun⟩
  · rw [hnew] at hs
    cases hs

omit [LinearOrder F] in
theorem Db.Served.addTest {db : Db F} (h : db.Served) {now : ℚ} {s : TestSpec} {cc bc : String} :
    (db.addTest now s cc bc).Served := by
  have hdrawn : db.drawTestId.Served := h
  rw [← Db.commitTest_drawTestId]
  exact hdrawn.commitTest rfl

theorem Db.recomputed_pairs {N : Numerics F} {db : Db F} {t : TestRow} {r : Recomputed F}
    (h : db.recomputed N t = .ok r) :
    ∃ penta, tally (db.countScores t.id) = .ok penta ∧ r.stats.pairsValid = penta.pairs := by
  obtain ⟨penta, hp, hr⟩ := bind_eq_ok.mp h
  exact ⟨penta, hp, (recompute_counts hr).2.1⟩

theorem Db.recomputed_sprt {N : Numerics F} {db : Db F} {t : TestRow} {r : Recomputed F}
    (hk : t.kind = .sprt) (h : db.recomputed N t = .ok r) :
    ∃ llr bounds, r.stats.llr = some llr ∧ r.stats.llrLower = some bounds.lower ∧
      r.stats.llrUpper = some bounds.upper ∧
      (0 < r.stats.pairsValid → r.decision = sprtDecide llr bounds) := by
  obtain ⟨penta, -, hr⟩ := bind_eq_ok.mp h
  obtain ⟨_, _, llr, bounds, -, -, hllr, hlower, hupper, hd⟩ := recompute_sprt hk hr
  refine ⟨llr, bounds, hllr, hlower, hupper, fun hpos => ?_⟩
  rw [(recompute_counts hr).2.1] at hpos
  rw [hd, if_pos hpos]

omit [LinearOrder F] in
/-- Without a completed pair there is nothing to count. -/
theorem Db.countScores_eq_nil {db : Db F} {testId : Int}
    (h : ∀ p ∈ db.pairsOf testId, p.status ≠ .completed) : db.countScores testId = [] := by
  have hnone : db.pairOutcomes.filter (·.testId == testId) = [] := by
    refine List.eq_nil_iff_forall_not_mem.mpr fun o ho => ?_
    obtain ⟨hmem, ht⟩ := List.mem_filter.mp ho
    obtain ⟨p, hp, hout⟩ := List.mem_flatMap.mp hmem
    obtain ⟨hrow, hs⟩ := List.mem_filter.mp hp
    have htest : o.testId = p.testId := by
      obtain ⟨c, -, hc⟩ := List.mem_filterMap.mp hout
      dsimp only at hc
      split at hc
      next => rw [← Option.some.inj hc]
      next => cases hc
    refine h p (mem_pairsOf.mpr ⟨hrow, ?_⟩) (by simpa using hs)
    rw [← htest]
    simpa using ht
  simp [countScores, hnone]

omit [LinearOrder F] in
theorem Db.testStats_record (db : Db F) (id : Int) (s : TestStats F) :
    (db.record id s).testStats id = some s := by
  unfold Db.record Db.appendHistory Db.upsertStats
  split <;> simp

omit [LinearOrder F] in
theorem testStats_record_ne (db : Db F) {i j : Int} (s : TestStats F) (h : j ≠ i) :
    (db.record i s).testStats j = db.testStats j := by
  unfold Db.record Db.appendHistory Db.upsertStats
  split <;> exact Function.update_of_ne h _ _

theorem Db.Lifecycle.record {db : Db F} {due : List Int} {id : Int} (h : db.Lifecycle due)
    (hid : id ∈ due) (s : TestStats F) : (db.record id s).Lifecycle due := by
  have hsame := SameQueue.record db id s
  have hstats : ∀ i, i ≠ id → (db.record id s).testStats i = db.testStats i :=
    fun i hi => testStats_record_ne db s hi
  have htests := Db.tests_record db id s
  have hpairs : ∀ i, (db.record id s).pairsOf i = db.pairsOf i := by
    intro i
    rw [Db.pairsOf, Db.pairsOf, hsame.jobPairs]
  refine ⟨?_, ?_, ?_, ?_, ?_, ?_, ?_⟩
  · rw [htests, hsame.jobPairs]; exact h.placed
  · rw [htests, hsame.positions]; exact h.opened
  · rw [htests]; exact h.demands
  · rw [htests]; exact h.single
  · rw [htests]
    intro t ht hs
    rw [hpairs]
    exact h.queued t ht hs
  · rw [htests]
    intro t ht hs hd
    have hne : t.id ≠ id := fun he => hd (he ▸ hid)
    rw [hstats t.id hne]
    exact h.unplayed t ht hs hd
  · rw [htests]
    intro t ht hs hd
    have hne : t.id ≠ id := fun he => hd (he ▸ hid)
    obtain ⟨hrem, hund⟩ := h.running t ht hs hd
    refine ⟨by rw [Db.remaining_record]; exact hrem, ?_⟩
    unfold Db.Undecided
    rw [hstats t.id hne]
    exact hund

/-- A recomputation puts its test in order. -/
theorem Refreshed.lifecycle {N : Numerics F} {now : ℚ} {testId : Int} {db db' : Db F}
    {due : List Int} (h : db.Lifecycle (testId :: due)) (hr : Refreshed N now testId db db') :
    db'.Lifecycle due := by
  cases hr with
  | missing hnone =>
    refine h.settle ?_ ?_
    · intro t ht; rw [hnone] at ht; cases ht
    · intro t ht; rw [hnone] at ht; cases ht
  | kept t r ht hrec hcont =>
    have hid : t.id = testId := (Table.find_some ht).2
    have hmem : t ∈ db.tests.rows := (Table.find_some ht).1
    refine (h.record (by simp) r.stats).settle ?_ ?_
    · intro u hu hq s hs
      rw [Db.tests_record] at hu
      cases Option.some.inj (ht.symm.trans hu)
      rw [Db.testStats_record] at hs
      cases Option.some.inj hs
      obtain ⟨penta, hp, hpairs⟩ := Db.recomputed_pairs hrec
      rw [Db.countScores_eq_nil fun p hp => by simp [((h.queued t hmem hq).2 p hp).1]] at hp
      cases hp
      rw [hpairs, Pentanomial.pairs_empty]
    · intro u hu hrun
      rw [Db.tests_record] at hu
      cases Option.some.inj (ht.symm.trans hu)
      have hv : verdict t r.decision (db.remaining testId) = none :=
        hcont.resolve_left (by simp [hrun])
      have hdec : r.decision = .continue ∧ db.remaining testId ≠ 0 := by
        unfold verdict at hv
        split at hv
        next => cases hv
        next => cases hv
        next hd =>
          split at hv
          next => cases hv
          next hz => exact ⟨hd, hz⟩
      refine ⟨by rw [Db.remaining_record]; omega, ?_⟩
      intro hk s hs hpos
      rw [hid, Db.testStats_record] at hs
      cases Option.some.inj hs
      obtain ⟨llr, bounds, hl, hlo, hup, hd⟩ := Db.recomputed_sprt hk hrec
      have hin := sprtDecide_continue.mp ((hd hpos).symm.trans hdec.1)
      exact ⟨llr, bounds.lower, bounds.upper, hl, hlo, hup, hin⟩
  | finished t r result promoted _ ht hrec hrun hv hp =>
    have hid : t.id = testId := (Table.find_some ht).2
    have hfin : ((db.record testId r.stats).updateTest testId (.finish now result)
        (TestRow.finish_id now result)).Lifecycle (testId :: due) :=
      (h.record (by simp) r.stats).updateTest (fun _ => rfl) (fun _ => rfl)
        fun _ => .inr (.inr (.inl rfl))
    have hrow : ∀ u, ((db.record testId r.stats).updateTest testId (.finish now result)
        (TestRow.finish_id now result)).tests.find testId = some u → u.status = .finished := by
      intro u hu
      rw [Db.find_updateTest, Db.tests_record, ht] at hu
      have he := Option.some.inj hu
      rw [← he]
      simp [hid, TestRow.finish]
    refine (hp.lifecycle (hfin.settle ?_ ?_)).1
    · intro u hu hq
      rw [hrow u hu] at hq
      cases hq
    · intro u hu hq
      rw [hrow u hu] at hq
      cases hq

theorem Refreshed.served {N : Numerics F} {now : ℚ} {testId : Int} {db db' : Db F}
    {due : List Int} (h : db.Lifecycle (testId :: due)) (hs : db.Served)
    (hr : Refreshed N now testId db db') : db'.Served := by
  cases hr with
  | missing => exact hs
  | kept =>
    unfold Db.Served
    rw [Db.tests_record]
    exact hs
  | finished t r result promoted _ ht hrec hrun hv hp =>
    have hfin : ((db.record testId r.stats).updateTest testId (.finish now result)
        (TestRow.finish_id now result)).Lifecycle (testId :: due) :=
      (h.record (by simp) r.stats).updateTest (fun _ => rfl) (fun _ => rfl)
        fun _ => .inr (.inr (.inl rfl))
    exact (hp.lifecycle hfin).2

theorem RefreshedAll.lifecycle {N : Numerics F} {now : ℚ} {ids : List Int} {db db' : Db F}
    (h : db.Lifecycle ids) (hs : db.Served) (hr : RefreshedAll N now ids db db') :
    db'.Lifecycle [] ∧ db'.Served := by
  induction hr with
  | nil => exact ⟨h, hs⟩
  | cons a ids db db₁ db' hstep _ ih => exact ih (hstep.lifecycle h) (hstep.served h hs)

end CapiNet
