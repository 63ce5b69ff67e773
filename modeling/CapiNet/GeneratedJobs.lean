import CapiNet.TestEffect
import CapiNet.TransactionRules

namespace CapiNet

open Txn Relational

variable {F : Type}

/-- What the server has under way: a request, or the worker at its next test. What the worker
finds out depends on the test it picked. -/
inductive Activity
  | request (r : Request)
  | processNext (now : ℚ) (x : SmokeJob → Examination) (random : Nat → ℚ)

inductive Answer
  | reply (r : Reply)
  | idle
  | examined (testId : Int) (r : SmokeReply)

/-- The first statement picks the test; the others are those of the last transaction. -/
def processNext [LinearOrder F] (E : Env F) (now : ℚ) (x : SmokeJob → Examination)
    (random : Nat → ℚ) : Tx F (Finish Answer) := do
  match ← Script.select Db.smokeJob with
  | none => return .rollback .idle
  | some job =>
    Finish.map (Answer.examined job.testId) <$> smokeFinish E now job (x job) random

def Activity.program [LinearOrder F] (E : Env F) : Activity → Tx F (Finish Answer)
  | .request r => Finish.map Answer.reply <$> r.program E
  | .processNext now x random => CapiNet.processNext E now x random

/-- The jobs are made by the worker only. -/
def Activity.regular : Activity → Prop
  | .request ⟨.smoke _ _ _, _⟩ => False
  | _ => True

abbrev WorkerWorld (F : Type) : Type := World Activity (Db F) Lock Failure Answer

def newServer : WorkerWorld F := ⟨.empty, []⟩

/-- Some examination ended with the test in the queue. -/
def BecameQueued (W : WorkerWorld F) (testId : Int) : Prop :=
  ∃ a promoted, ⟨a, .ended (some (.commit (.examined testId (.queued promoted))))⟩ ∈ W.sessions

/-- Some stop of the test found it validating and was answered with Stopped. -/
def StoppedEarly (W : WorkerWorld F) (testId : Int) : Prop :=
  ∃ now promoted, ⟨.request ⟨.stop testId, now⟩,
    .ended (some (.commit (.reply (.stop ⟨.stopped, some .validating, promoted⟩))))⟩ ∈ W.sessions

namespace Db

def Untouched (db : Db F) (testId : Int) : Prop :=
  db.positionsOf testId = [] ∧ db.pairsOf testId = []

/-- Positions 1 to the number of pairs, and for each of them one pair. -/
def Generated (db : Db F) (t : TestRow) : Prop :=
  (db.positionsOf t.id).map (·.seq) = List.range' 1 t.totalPairs.toNat ∧
    (db.pairsOf t.id).map (·.positionId) = (db.positionsOf t.id).map (·.id)

/-- What is made for a test once: its positions, and the positions of its pairs. -/
def stock (db : Db F) (testId : Int) : List PositionRow × List Int :=
  (db.positionsOf testId, (db.pairsOf testId).map (·.positionId))

theorem untouched_iff {db : Db F} {i : Int} : db.Untouched i ↔ db.stock i = ([], []) := by
  simp [Untouched, stock]

theorem generated_iff {db : Db F} {t : TestRow} :
    db.Generated t ↔ (db.stock t.id).1.map (·.seq) = List.range' 1 t.totalPairs.toNat ∧
      (db.stock t.id).2 = (db.stock t.id).1.map (·.id) := Iff.rfl

theorem Generated.congr {db db' : Db F} {t t' : TestRow} (h : db.Generated t) (hid : t'.id = t.id)
    (htotal : t'.totalPairs = t.totalPairs) (hs : db'.stock t.id = db.stock t.id) :
    db'.Generated t' := by
  rw [generated_iff, hid, htotal, hs]
  exact h

theorem Generated.not_untouched {db : Db F} {t : TestRow} (h : db.Generated t)
    (hone : 1 ≤ t.totalPairs) : ¬db.Untouched t.id := by
  rintro ⟨hpos, -⟩
  have hlen := congrArg List.length h.1
  rw [hpos] at hlen
  simp only [List.map_nil, List.length_nil, List.length_range'] at hlen
  omega

/-- What the status of a test says of its jobs. -/
structure Stocked (db : Db F) (t : TestRow) : Prop where
  early : t.status = .validating ∨ t.status = .invalid → db.Untouched t.id
  late : t.status = .queued ∨ t.status = .running ∨ t.status = .finished → db.Generated t
  whole : db.Untouched t.id ∨ db.Generated t

theorem Generated.stocked {db : Db F} {t : TestRow} (h : db.Generated t)
    (hv : t.status ≠ .validating) (hi : t.status ≠ .invalid) : db.Stocked t :=
  ⟨fun hs => absurd hs (not_or.mpr ⟨hv, hi⟩), fun _ => h, .inr h⟩

theorem Stocked.congr {db db' : Db F} {t t' : TestRow} (h : db.Stocked t) (hid : t'.id = t.id)
    (htotal : t'.totalPairs = t.totalPairs) (hstatus : t'.status = t.status)
    (hs : db'.stock t.id = db.stock t.id) : db'.Stocked t' := by
  have untouched : db.Untouched t.id → db'.Untouched t'.id := by
    intro hu
    rw [untouched_iff, hid, hs, ← untouched_iff]
    exact hu
  refine ⟨fun he => untouched (h.early (hstatus ▸ he)), fun hl => ?_, ?_⟩
  · exact (h.late (hstatus ▸ hl)).congr hid htotal hs
  · rcases h.whole with hu | hg
    · exact .inl (untouched hu)
    · exact .inr (hg.congr hid htotal hs)

structure Tended (db : Db F) : Prop where
  unborn : ∀ i, db.tests.find i = none → db.Untouched i
  demands : ∀ i t, db.tests.find i = some t → 1 ≤ t.totalPairs
  stocked : ∀ i t, db.tests.find i = some t → db.Stocked t

/-- A test that left the validation keeps its jobs; one stopped without jobs stays stopped. -/
def StockKept (s t : Db F) : Prop :=
  ∀ i u, s.tests.find i = some u → ∃ v, t.tests.find i = some v ∧ v.totalPairs = u.totalPairs ∧
    (u.status ≠ .validating → v.status ≠ .validating ∧ t.stock i = s.stock i) ∧
    (u.status = .stopped → s.Untouched i → v.status = .stopped)

theorem StockKept.refl (s : Db F) : s.StockKept s :=
  fun _ u hu => ⟨u, hu, rfl, fun h => ⟨h, rfl⟩, fun h _ => h⟩

theorem StockKept.trans {s t u : Db F} (h : s.StockKept t) (h' : t.StockKept u) :
    s.StockKept u := by
  intro i x hx
  obtain ⟨y, hy, htot, hkeep, hstop⟩ := h i x hx
  obtain ⟨z, hz, htot', hkeep', hstop'⟩ := h' i y hy
  refine ⟨z, hz, htot'.trans htot, fun hv => ?_, fun hs hu => ?_⟩
  · obtain ⟨hyv, hst⟩ := hkeep hv
    obtain ⟨hzv, hst'⟩ := hkeep' hyv
    exact ⟨hzv, hst'.trans hst⟩
  · have hst : t.stock i = s.stock i := (hkeep (by simp [hs])).2
    refine hstop' (hstop hs hu) ?_
    rw [untouched_iff, hst, ← untouched_iff]
    exact hu

end Db

/-- The row is as it was, and so are its jobs. -/
def sameStock (key : Lock) (s t : Db F) : Prop :=
  ∀ i, key = .test i → ∀ u, s.tests.find i = some u →
    t.tests.find i = some u ∧ t.stock i = s.stock i

/-- The lock of a row of `tests` protects the row and the jobs of the test. -/
def testJobs : Protocol (Db F) Lock where
  inv := Db.Tended
  steady := Db.StockKept
  region := sameStock
  steady_refl := Db.StockKept.refl
  steady_trans := Db.StockKept.trans
  region_refl := fun _ _ _ _ _ hu => ⟨hu, rfl⟩
  region_trans := by
    intro key s t u h h' i hi x hx
    obtain ⟨hy, hst⟩ := h i hi x hx
    obtain ⟨hz, hst'⟩ := h' i hi x hy
    exact ⟨hz, hst'.trans hst⟩

/-- The writes of a transaction keep to the protocol, and make the jobs of one test at most. -/
structure Tame (made : Option Int) (held : List Lock) (w : Db F → Db F) (s : Db F) : Prop where
  guar : ∀ t, testJobs.Rely held s t → testJobs.Guar held t (w t)
  quiet : ∀ i, made ≠ some i → ∀ t, (w t).stock i = t.stock i
  own : ∀ i, made = some i → ∀ t, testJobs.Rely held s t →
    ∃ v, (w t).tests.find i = some v ∧ (w t).Generated v

namespace Tame

variable {made : Option Int} {held : List Lock} {w : Db F → Db F} {s t : Db F}

theorem init : Tame none [] id s :=
  ⟨fun t ht => ⟨ht.1, testJobs.steady_refl t, fun key _ => testJobs.region_refl key t⟩,
    fun _ _ _ => rfl, by simp⟩

theorem rely (h : Tame made held w s) (ht : testJobs.Rely held s t) : Tame made held w t :=
  ⟨fun u hu => h.guar u (ht.trans hu), h.quiet, fun i hi u hu => h.own i hi u (ht.trans hu)⟩

theorem lock (h : Tame made held w s) (keys : List Lock) : Tame made (keys ++ held) w s := by
  have hsub : ∀ key ∈ held, key ∈ keys ++ held := fun key hk => List.mem_append_right _ hk
  refine ⟨fun u hu => ?_, h.quiet, fun i hi u hu => h.own i hi u (hu.mono hsub)⟩
  obtain ⟨hinv, hsteady, hregion⟩ := h.guar u (hu.mono hsub)
  exact ⟨hinv, hsteady, fun key hk => hregion key fun hk' => hk (hsub key hk')⟩

theorem acquire (h : Tame made held w s) {key : Lock} {u : Db F} (hs : testJobs.Rely held s t)
    (ht : testJobs.Rely (key :: held) t u) : Tame made (key :: held) w u :=
  ((h.rely hs).lock [key]).rely ht

/-- A write that leaves the tests and their jobs alone. -/
theorem write (h : Tame made held w s) {f : Db F → Db F} (ht : ∀ db, (f db).tests = db.tests)
    (hs : ∀ db i, (f db).stock i = db.stock i) : Tame made held (f ∘ w) s := by
  refine ⟨fun u hu => ?_, fun i hi u => (hs (w u) i).trans (h.quiet i hi u), fun i hi u hu => ?_⟩
  · obtain ⟨hinv, hsteady, hregion⟩ := h.guar u hu
    refine ⟨⟨?_, ?_, ?_⟩, fun i x hx => ?_, fun key hk i hi x hx => ?_⟩
    · intro i hi
      rw [Function.comp_apply, ht] at hi
      rw [Function.comp_apply, Db.untouched_iff, hs, ← Db.untouched_iff]
      exact hinv.unborn i hi
    · intro i x hx
      rw [Function.comp_apply, ht] at hx
      exact hinv.demands i x hx
    · intro i x hx
      rw [Function.comp_apply, ht] at hx
      exact (hinv.stocked i x hx).congr rfl rfl rfl (hs _ _)
    · obtain ⟨v, hv, htot, hkeep, hstop⟩ := hsteady i x hx
      refine ⟨v, by rw [Function.comp_apply, ht]; exact hv, htot, fun hx' => ?_, hstop⟩
      exact ⟨(hkeep hx').1, (hs _ _).trans (hkeep hx').2⟩
    · obtain ⟨hx', hst⟩ := hregion key hk i hi x hx
      exact ⟨by rw [Function.comp_apply, ht]; exact hx', (hs _ _).trans hst⟩
  · obtain ⟨v, hv, hg⟩ := h.own i hi u hu
    exact ⟨v, by rw [Function.comp_apply, ht]; exact hv, hg.congr rfl rfl (hs _ _)⟩

/-- Jobs that a transaction sees stay: they are its own, or committed. -/
theorem generated (h : Tame made held w s) (hs : testJobs.inv s) {i : Int} {v : TestRow}
    (hv : (w s).tests.find i = some v) (hg : (w s).Generated v) :
    ∀ t, testJobs.Rely held s t → ∃ v', (w t).tests.find i = some v' ∧ (w t).Generated v' := by
  intro t ht
  by_cases hm : made = some i
  · exact h.own i hm t ht
  obtain ⟨hinv, hsteady, -⟩ := h.guar s (.refl hs)
  have hvid : v.id = i := (Table.find_some hv).2
  have htouched : ¬s.Untouched i := by
    rw [Db.untouched_iff, ← h.quiet i hm s, ← hvid, ← Db.untouched_iff]
    exact hg.not_untouched (hinv.demands i v hv)
  cases hu : s.tests.find i with
  | none => exact absurd (hs.unborn i hu) htouched
  | some u =>
    have huid : u.id = i := (Table.find_some hu).2
    have hleft : u.status ≠ .validating := by
      intro hval
      exact htouched (huid ▸ (hs.stocked i u hu).early (.inl hval))
    obtain ⟨v₀, hv₀, htot₀, -⟩ := hsteady i u hu
    cases Option.some.inj (hv.symm.trans hv₀)
    obtain ⟨u', hu', htot, hkeep, -⟩ := ht.2.1 i u hu
    obtain ⟨v', hv', htot', -⟩ := (h.guar t ht).2.1 i u' hu'
    refine ⟨v', hv', hg.congr ?_ ?_ ?_⟩
    · rw [hvid, (Table.find_some hv').2]
    · rw [htot', htot, htot₀]
    · rw [hvid, h.quiet i hm t, (hkeep hleft).2, h.quiet i hm s]

/-- An update of a locked row whose new status fits the jobs. -/
theorem updateTest (h : Tame made held w s) (f : TestRow → TestRow) (hf : ∀ r, (f r).id = r.id)
    (htotal : ∀ r, (f r).totalPairs = r.totalPairs) {id : Int} (hid : .test id ∈ held)
    (hfit : ∀ t, testJobs.Rely held s t → ∀ v, (w t).tests.find id = some v →
      (w t).Stocked (f v) ∧ (v.status ≠ .validating → (f v).status ≠ .validating) ∧
        (v.status = .stopped → (w t).Untouched id → (f v).status = .stopped)) :
    Tame made held (fun db => (w db).updateTest id f hf) s := by
  refine ⟨fun u hu => ?_, h.quiet, fun i hi u hu => ?_⟩
  · obtain ⟨hinv, hsteady, hregion⟩ := h.guar u hu
    refine ⟨⟨?_, ?_, ?_⟩, fun i x hx => ?_, ?_⟩
    · intro i hi
      rw [Db.find_updateTest, Option.map_eq_none_iff] at hi
      exact hinv.unborn i hi
    · intro i x hx
      obtain ⟨v, hv, ⟨-, rfl⟩ | ⟨-, rfl⟩⟩ := Db.of_find_updateTest hx
      · rw [htotal]; exact hinv.demands i v hv
      · exact hinv.demands i _ hv
    · intro i x hx
      obtain ⟨v, hv, ⟨rfl, rfl⟩ | ⟨-, rfl⟩⟩ := Db.of_find_updateTest hx
      · exact (hfit u hu v hv).1.congr rfl rfl rfl rfl
      · exact (hinv.stocked i _ hv).congr rfl rfl rfl rfl
    · obtain ⟨v, hv, htot, hkeep, hstop⟩ := hsteady i x hx
      rcases (w u).find_updateTest_cases id f hf hv with ⟨rfl, hv'⟩ | ⟨-, hv'⟩
      · obtain ⟨-, hval, hstopped⟩ := hfit u hu v hv
        refine ⟨_, hv', (htotal v).trans htot, fun hx' => ?_, fun hs hun => ?_⟩
        · exact ⟨hval (hkeep hx').1, (hkeep hx').2⟩
        · refine hstopped (hstop hs hun) ?_
          rw [Db.untouched_iff, (hkeep (by simp [hs])).2, ← Db.untouched_iff]
          exact hun
      · exact ⟨v, hv', htot, hkeep, hstop⟩
    · rintro key hk i rfl x hx
      have hne : i ≠ id := by
        rintro rfl
        exact hk hid
      obtain ⟨hx', hst⟩ := hregion _ hk i rfl x hx
      have hxid : x.id = i := (Table.find_some hx').2
      refine ⟨?_, hst⟩
      rw [Db.find_updateTest, hx']
      simp [hxid, hne]
  · obtain ⟨v, hv, hg⟩ := h.own i hi u hu
    rcases (w u).find_updateTest_cases id f hf hv with ⟨-, hv'⟩ | ⟨-, hv'⟩
    · exact ⟨_, hv', hg.congr (hf v) (htotal v) rfl⟩
    · exact ⟨v, hv', hg.congr rfl rfl rfl⟩

/-- A test with its jobs starts to run, or finishes. -/
theorem advance (h : Tame made held w s) (f : TestRow → TestRow) (hf : ∀ r, (f r).id = r.id)
    (htotal : ∀ r, (f r).totalPairs = r.totalPairs) {id : Int} (hid : .test id ∈ held)
    (hstatus : ∀ r, (f r).status = .running ∨ (f r).status = .finished)
    (hg : ∀ t, testJobs.Rely held s t →
      ∃ v, (w t).tests.find id = some v ∧ (w t).Generated v) :
    Tame made held (fun db => (w db).updateTest id f hf) s := by
  refine h.updateTest f hf htotal hid fun t ht v hv => ?_
  obtain ⟨v', hv', hgen⟩ := hg t ht
  cases Option.some.inj (hv.symm.trans hv')
  have hnew : (f v).status ≠ .validating ∧ (f v).status ≠ .invalid := by
    rcases hstatus v with h | h <;> simp [h]
  have hvid : v.id = id := (Table.find_some hv).2
  refine ⟨(hgen.congr (hf v) (htotal v) rfl).stocked hnew.1 hnew.2, fun _ => hnew.1, ?_⟩
  intro _ hun
  exact absurd (hvid ▸ hun) (hgen.not_untouched ((h.guar t ht).1.demands id v hv))

end Tame

theorem stock_updatePairs (db : Db F) (p : PairRow → Bool) (f : PairRow → PairRow)
    (hf : ∀ r, (f r).id = r.id)
    (hkeep : ∀ r, (f r).testId = r.testId ∧ (f r).positionId = r.positionId) (i : Int) :
    (db.updatePairs p f hf).stock i = db.stock i := by
  have hrow : ∀ r, (if p r then f r else r).testId = r.testId ∧
      (if p r then f r else r).positionId = r.positionId := by
    intro r
    split
    · exact hkeep r
    · exact ⟨rfl, rfl⟩
  have hpairs : ((db.updatePairs p f hf).pairsOf i).map (·.positionId) =
      (db.pairsOf i).map (·.positionId) := by
    simp only [Db.pairsOf, Db.updatePairs, Table.rows_modify, List.filter_map, List.map_map]
    have hfilter : ((fun r : PairRow => r.testId == i) ∘ fun r => if p r then f r else r) =
        fun r => r.testId == i := by
      funext r
      simp only [Function.comp_apply, (hrow r).1]
    rw [hfilter]
    exact List.map_congr_left fun r _ => (hrow r).2
  exact Prod.ext rfl hpairs

theorem stock_record (db : Db F) (testId : Int) (st : TestStats F) (i : Int) :
    (db.record testId st).stock i = db.stock i := by
  have hsame := SameQueue.record db testId st
  rw [Db.stock, Db.stock, Db.positionsOf, Db.pairsOf, hsame.positions, hsame.jobPairs]
  rfl

theorem positionsOf_insertPosition (testId : Int) (db : Db F) (e : String × Nat) (i : Int) :
    (Db.insertPosition testId db e).positionsOf i =
      db.positionsOf i ++ if i = testId then [⟨db.positions.next, testId, e.2 + 1, e.1⟩] else [] := by
  by_cases hi : i = testId
  · simp [Db.positionsOf, Db.insertPosition, hi]
  · simp [Db.positionsOf, Db.insertPosition, hi, Ne.symm hi]

theorem pairsOf_insertPair (random : Nat → ℚ) (db : Db F) (e : PositionRow × Nat) (i : Int) :
    ((Db.insertPair random db e).pairsOf i).map (·.positionId) =
      (db.pairsOf i).map (·.positionId) ++ if i = e.1.testId then [e.1.id] else [] := by
  by_cases hi : i = e.1.testId
  · simp [Db.pairsOf, Db.insertPair, hi]
  · simp [Db.pairsOf, Db.insertPair, hi, Ne.symm hi]

/-- Positions go to one test, numbered from one. -/
theorem positionsOf_foldl (testId : Int) (es : List (String × Nat)) (db : Db F) (i : Int) :
    ∃ new, (es.foldl (Db.insertPosition testId) db).positionsOf i = db.positionsOf i ++ new ∧
      new.map (·.seq) = if i = testId then es.map (·.2 + 1) else [] := by
  induction es generalizing db with
  | nil => exact ⟨[], by simp, by simp⟩
  | cons e es ih =>
    obtain ⟨new, hnew, hseq⟩ := ih (Db.insertPosition testId db e)
    rw [positionsOf_insertPosition, List.append_assoc] at hnew
    refine ⟨_, hnew, ?_⟩
    rw [List.map_append, hseq]
    by_cases hi : i = testId
    · simp [hi]
    · simp [hi]

theorem positionsOf_addPositions (db : Db F) (testId : Int) (fens : List String) (i : Int) :
    ∃ new, (db.addPositions testId fens).positionsOf i = db.positionsOf i ++ new ∧
      new.map (·.seq) = if i = testId then List.range' 1 fens.length else [] := by
  obtain ⟨new, hnew, hseq⟩ := positionsOf_foldl testId fens.zipIdx db i
  refine ⟨new, hnew, ?_⟩
  have hnum : fens.zipIdx.map (·.2 + 1) = List.range' 1 fens.length := by
    refine List.ext_getElem (by simp) fun k _ _ => ?_
    simp only [List.getElem_map, List.getElem_zipIdx, List.getElem_range']
    omega
  rw [hseq, hnum]

theorem pairsOf_addPositions (db : Db F) (testId : Int) (fens : List String) :
    (db.addPositions testId fens).jobPairs = db.jobPairs := by
  obtain ⟨_, _, _, _, h, -⟩ := addPositions_spec db testId fens
  rw [h]

/-- Pairs go to the tests of their positions. -/
theorem pairsOf_foldl (random : Nat → ℚ) (es : List (PositionRow × Nat)) (db : Db F) (i : Int) :
    ((es.foldl (Db.insertPair random) db).pairsOf i).map (·.positionId) =
      (db.pairsOf i).map (·.positionId) ++
        ((es.map Prod.fst).filter (·.testId == i)).map (·.id) := by
  induction es generalizing db with
  | nil => simp
  | cons e es ih =>
    rw [List.foldl_cons, ih, pairsOf_insertPair, List.append_assoc, List.map_cons,
      List.filter_cons]
    by_cases hi : i = e.1.testId
    · simp [hi]
    · simp [hi, Ne.symm hi]

theorem pairsOf_addPairs (db : Db F) (testId : Int) (random : Nat → ℚ) (i : Int) :
    ((db.addPairs testId random).pairsOf i).map (·.positionId) =
      (db.pairsOf i).map (·.positionId) ++
        if i = testId then (db.positionsOf testId).map (·.id) else [] := by
  have hfst : (db.positionsOf testId).zipIdx.map Prod.fst = db.positionsOf testId :=
    List.zipIdx_map_fst 0 _
  rw [Db.addPairs, pairsOf_foldl, hfst]
  by_cases hi : i = testId
  · have hall : (db.positionsOf testId).filter (·.testId == i) = db.positionsOf testId := by
      rw [hi, Db.positionsOf, List.filter_filter]
      simp
    rw [if_pos hi, hall]
  · have hnone : (db.positionsOf testId).filter (·.testId == i) = [] := by
      refine List.filter_eq_nil_iff.mpr fun op hop => ?_
      have htest : op.testId = testId := by simpa using (List.mem_filter.mp hop).2
      simp [htest, Ne.symm hi]
    rw [if_neg hi, hnone, List.map_nil]

theorem positionsOf_addPairs (db : Db F) (testId : Int) (random : Nat → ℚ) (i : Int) :
    (db.addPairs testId random).positionsOf i = db.positionsOf i := by
  obtain ⟨_, _, _, _, h, -⟩ := addPairs_spec db testId random
  rw [h]
  rfl

/-- Making the jobs of one test leaves those of the others alone. -/
theorem stock_enqueue_ne (db : Db F) (testId : Int) (fens : List String) (random : Nat → ℚ)
    (vlog : String) {i : Int} (hi : i ≠ testId) :
    (db.enqueue testId fens random vlog).stock i = db.stock i := by
  obtain ⟨new, hnew, hseq⟩ := positionsOf_addPositions db testId fens i
  rw [if_neg hi, List.map_eq_nil_iff] at hseq
  rw [hseq, List.append_nil] at hnew
  have hpairs : ((db.addPositions testId fens).pairsOf i) = db.pairsOf i := by
    simp only [Db.pairsOf, pairsOf_addPositions]
  refine Prod.ext ?_ ?_
  · exact (positionsOf_addPairs _ testId random i).trans hnew
  · refine (pairsOf_addPairs _ testId random i).trans ?_
    rw [if_neg hi, hpairs, List.append_nil]
    rfl

/-- An untouched test gets all its jobs at once. -/
theorem generated_enqueue {db : Db F} {t t' : TestRow} {fens : List String} {random : Nat → ℚ}
    {vlog : String} (hu : db.Untouched t.id) (hlen : fens.length = t.totalPairs.toNat)
    (hid : t'.id = t.id) (htotal : t'.totalPairs = t.totalPairs) :
    (db.enqueue t.id fens random vlog).Generated t' := by
  obtain ⟨new, hnew, hseq⟩ := positionsOf_addPositions db t.id fens t.id
  rw [if_pos rfl] at hseq
  rw [hu.1, List.nil_append] at hnew
  have hpos : (db.enqueue t.id fens random vlog).positionsOf t.id = new :=
    (positionsOf_addPairs _ t.id random t.id).trans hnew
  have hpairs : ((db.addPositions t.id fens).pairsOf t.id) = [] := by
    simp only [Db.pairsOf, pairsOf_addPositions]
    exact hu.2
  refine ⟨?_, ?_⟩
  · rw [hid, hpos, hseq, hlen, htotal]
  · rw [hid, hpos]
    refine (pairsOf_addPairs _ t.id random t.id).trans ?_
    rw [if_pos rfl, hpairs, hnew, List.map_nil, List.nil_append]

variable [LinearOrder F] {E : Env F}

section Programs

variable {made : Option Int} {held : List Lock} {w : Db F → Db F} {s : Db F}
  {may : List Lock → Lock → Db F → Prop}

omit [LinearOrder F] in
theorem Tame.promote (h : Tame made held w s) (now : ℚ) :
    (promoteNextTest now).wp testJobs may (fun _ held w s => Tame made held w s) held w s := by
  refine wp_promoteNextTest (fun _ _ => h.acquire) fun id t u v x ht hu htarget hv _ hx => ?_
  obtain ⟨-, q, hq, hqs⟩ := promotionTarget_eq_some htarget
  have htame := h.acquire ht hu
  have hgen : (w u).Generated q := by
    have hsu : testJobs.Rely held s u := ht.trans hu.tail
    exact ((h.rely hsu).guar u (.refl hu.1)).1.stocked id q hq |>.late (.inl hqs)
  have hlocked : Tame made (Lock.test id :: Lock.promotion :: held) w x :=
    htame.acquire hv hx
  refine hlocked.advance (.run now) (TestRow.run_id now) (fun _ => rfl) (by simp)
    (fun _ => .inl rfl) fun y hy => ?_
  have hvy : testJobs.Rely (Lock.promotion :: held) v y :=
    (hx.trans hy).tail
  exact htame.generated hu.1 hq hgen y (hv.trans hvy)

omit [LinearOrder F] in
theorem Tame.finish (h : Tame made held w s) (now : ℚ) {testId : Int}
    (hid : .test testId ∈ held)
    (hg : ∀ t, testJobs.Rely held s t →
      ∃ v, (w t).tests.find testId = some v ∧ (w t).Generated v) (result : TestResult) :
    (finishTest now testId result).wp testJobs may (fun _ held w s => Tame made held w s)
      held w s := by
  have hfin := h.advance (.finish now result) (TestRow.finish_id now result) (fun _ => rfl) hid
    (fun _ => .inr rfl) hg
  exact wp_finishTest.mpr (hfin.promote now)

theorem Tame.refresh (h : Tame made held w s) (N : Numerics F) (now : ℚ) (testId : Int) :
    (refreshTest N now testId).wp testJobs may (fun _ held w s => Tame made held w s)
      held w s := by
  have recorded : ∀ row result t u v x y,
      Recounted testJobs may N testId held w s row result t u v x →
      testJobs.Rely (.test testId :: held) x y →
      Tame made (.test testId :: held) (fun db => (w db).record testId result.stats) y := by
    intro row result t u v x y hread hy
    have htame := (h.acquire hread.asked hread.locked).rely (hread.later.trans hy)
    exact htame.write (fun db => Db.tests_record db testId result.stats)
      fun db => stock_record db testId result.stats
  refine wp_refreshTest (fun t u ht hu _ => h.acquire ht hu) recorded ?_
  intro row result t u v x y _ verdict hread hy hrun _
  have htame := h.acquire hread.asked hread.locked
  have hu := hread.locked.1
  have hgen : (w u).Generated row :=
    ((htame.guar u (.refl hu)).1.stocked testId row hread.found).late (.inr (.inl hrun))
  refine (recorded row result t u v x y hread hy).finish now (by simp) (fun z hz => ?_) verdict
  obtain ⟨row', hrow', hgen'⟩ :=
    htame.generated hu hread.found hgen z ((hread.later.trans hy).trans hz)
  -- what is recorded touches neither the tests nor the jobs
  refine ⟨row', ?_, hgen'.congr rfl rfl (stock_record _ _ _ _)⟩
  rw [Db.tests_record]
  exact hrow'

omit [LinearOrder F] in
theorem Tame.updatePair (h : Tame made held w s) {i : Int} {p : PairRow → Bool}
    {f : PairRow → PairRow} {hf : ∀ r, (f r).id = r.id}
    (hkeep : ∀ r, (f r).testId = r.testId ∧ (f r).positionId = r.positionId) :
    (updatePair i p f hf).wp testJobs may (fun _ held w s => Tame made held w s) held w s := by
  refine wp_updatePair (fun keys t ht => (h.rely ht).lock keys) fun _ t ht _ _ => ?_
  exact ((h.rely ht).lock [Lock.pair i]).write (f := fun db => db.updatePairs (·.id == i) f hf)
    (fun _ => rfl) fun db => stock_updatePairs db _ f hf hkeep

theorem Tame.submit (h : Tame made held w s) (now : ℚ) (i : Int) (report : PairReport) :
    (submitResult E now i report).wp testJobs may (fun _ held w s => Tame made held w s)
      held w s := by
  refine wp_submitResult (fun _ keys t ht => (h.rely ht).lock keys) fun p g u t hu _ _ ht => ?_
  have hst : testJobs.Rely held s t := hu.trans ht.tail
  have htame := ((h.rely hst).lock [Lock.pair i, Lock.pair i]).write
    (f := fun db => db.deliver E now p report) (fun _ => rfl) fun db =>
      stock_updatePairs db (·.id == p.id) (.complete now) (PairRow.complete_id now)
        fun _ => ⟨rfl, rfl⟩
  exact htame.refresh E.numerics now p.testId

theorem Tame.recover (h : Tame made held w s) (now : ℚ) (maxAttempts : Int) :
    (recoverExpiredLeases E now maxAttempts).wp testJobs may
      (fun _ held w s => Tame made held w s) held w s := by
  refine wp_recoverExpiredLeases (fun got t u ht _ hu => ?_) fun testId held w s hm => ?_
  · exact (((h.rely ht).lock (got.map Lock.pair)).rely hu).write
      (f := fun db => db.updatePairs (fun p => decide (p.id ∈ got)) (PairRow.expire maxAttempts)
        (PairRow.expire_id maxAttempts)) (fun _ => rfl)
      fun db => stock_updatePairs db _ _ _ fun _ => ⟨rfl, rfl⟩
  · exact hm.refresh E.numerics now testId

omit [LinearOrder F] in
theorem Tame.priority (h : Tame made held w s) (testId priority : Int) :
    (setPriority testId priority).wp testJobs may (fun _ held w s => Tame made held w s)
      held w s := by
  refine wp_setPriority (fun _ _ _ => h.acquire) fun row _ t u ht hu _ _ => ?_
  have htame := h.acquire ht hu
  refine htame.updateTest (.prioritise priority) (TestRow.prioritise_id priority)
    (fun _ => rfl) (by simp) fun x hx v hv => ?_
  exact ⟨((htame.guar x hx).1.stocked testId v hv).congr rfl rfl rfl rfl, id, fun h _ => h⟩

omit [LinearOrder F] in
theorem Tame.claim (h : Tame made held w s) (cfg : ServerConfig) (now : ℚ)
    (clientId slotsFree : Int) :
    (claimPairs cfg now clientId slotsFree).wp testJobs may
      (fun _ held w s => Tame made held w s) held w s := by
  refine wp_claimPairs (fun _ t ht => h.rely ht) fun a c got _ t u ht _ hu => ?_
  exact (((h.rely ht).lock (got.map Lock.pair)).rely hu).write
    (f := fun db => db.updatePairs (fun p => decide (p.id ∈ got))
      (PairRow.lease clientId now (now + leaseSeconds cfg a c)) (PairRow.lease_id _ _ _))
    (fun _ => rfl) fun db => stock_updatePairs db _ _ _ fun _ => ⟨rfl, rfl⟩

omit [LinearOrder F] in
theorem Tame.abandon (h : Tame made held w s) (i clientId : Int) :
    (abandonPair i clientId).wp testJobs may (fun _ held w s => Tame made held w s)
      held w s := by
  unfold abandonPair
  exact Script.wp_bind.mpr
    (Script.wp_mono (fun _ _ _ _ hm => hm) (h.updatePair fun _ => ⟨rfl, rfl⟩))

omit [LinearOrder F] in
/-- The worker makes the jobs of a test it sees validating under the lock of its row. -/
theorem Tame.enqueue {t : TestRow} {fens : List String} {random : Nat → ℚ} {vlog : String}
    (hin : .test t.id ∈ held) (hs : testJobs.inv s) (ht : s.tests.find t.id = some t)
    (hv : t.status = .validating) (hlen : fens.length = t.totalPairs.toNat) :
    Tame (some t.id) held (fun db => db.enqueue t.id fens random vlog) s := by
  have row : ∀ u, testJobs.Rely held s u → u.tests.find t.id = some t ∧ u.Untouched t.id := by
    intro u hu
    obtain ⟨hrow, hst⟩ := hu.2.2 (.test t.id) hin t.id rfl t ht
    refine ⟨hrow, ?_⟩
    rw [Db.untouched_iff, hst, ← Db.untouched_iff]
    exact (hs.stocked t.id t ht).early (.inl hv)
  have find : ∀ (u : Db F) (i : Int), (u.enqueue t.id fens random vlog).tests.find i =
      (u.tests.find i).map fun r => if r.id == t.id then r.judge .queued vlog else r := by
    intro u i
    rw [(enqueue_spec u t.id fens random vlog).tests]
    exact Db.find_updateTest u t.id (.judge .queued vlog) (TestRow.judge_id .queued vlog) i
  have own : ∀ u, testJobs.Rely held s u →
      (u.enqueue t.id fens random vlog).tests.find t.id = some (t.judge .queued vlog) ∧
        (u.enqueue t.id fens random vlog).Generated (t.judge .queued vlog) := by
    intro u hu
    obtain ⟨hrow, hun⟩ := row u hu
    refine ⟨?_, generated_enqueue hun hlen rfl rfl⟩
    rw [find, hrow]
    simp
  have other : ∀ (u : Db F) (i : Int) (x : TestRow), i ≠ t.id → u.tests.find i = some x →
      (u.enqueue t.id fens random vlog).tests.find i = some x := by
    intro u i x hi hx
    have hxid : x.id = i := (Table.find_some hx).2
    rw [find, hx]
    simp [hxid, hi]
  refine ⟨fun u hu => ⟨⟨?_, ?_, ?_⟩, ?_, ?_⟩, fun i hi u => ?_, ?_⟩
  · intro i hi
    rw [find, Option.map_eq_none_iff] at hi
    have hne : i ≠ t.id := by
      rintro rfl
      cases hi.symm.trans (row u hu).1
    rw [Db.untouched_iff, stock_enqueue_ne u t.id fens random vlog hne, ← Db.untouched_iff]
    exact hu.1.unborn i hi
  · intro i x hx
    rw [find] at hx
    obtain ⟨y, hy, rfl⟩ := Option.map_eq_some_iff.mp hx
    split
    · exact hu.1.demands i y hy
    · exact hu.1.demands i y hy
  · intro i x hx
    by_cases hi : i = t.id
    · subst hi
      obtain ⟨hrow, hgen⟩ := own u hu
      cases Option.some.inj (hx.symm.trans hrow)
      exact hgen.stocked (by simp [TestRow.judge]) (by simp [TestRow.judge])
    · have hold : ∃ y, u.tests.find i = some y := by
        rw [find] at hx
        obtain ⟨y, hy, -⟩ := Option.map_eq_some_iff.mp hx
        exact ⟨y, hy⟩
      obtain ⟨y, hy⟩ := hold
      cases Option.some.inj (hx.symm.trans (other u i y hi hy))
      have hxid : x.id = i := (Table.find_some hy).2
      exact (hu.1.stocked i x hy).congr rfl rfl rfl
        (stock_enqueue_ne u t.id fens random vlog (hxid ▸ hi))
  · intro i x hx
    by_cases hi : i = t.id
    · subst hi
      obtain ⟨hrow, -⟩ := row u hu
      cases Option.some.inj (hx.symm.trans hrow)
      refine ⟨_, (own u hu).1, rfl, fun h => absurd hv h, fun h => ?_⟩
      rw [hv] at h
      cases h
    · exact ⟨x, other u i x hi hx, rfl, fun h => ⟨h, stock_enqueue_ne u t.id fens random vlog hi⟩,
        fun h _ => h⟩
  · rintro key hk i rfl x hx
    have hi : i ≠ t.id := by
      rintro rfl
      exact hk hin
    exact ⟨other u i x hi hx, stock_enqueue_ne u t.id fens random vlog hi⟩
  · exact stock_enqueue_ne u t.id fens random vlog fun h => hi (h ▸ rfl)
  · rintro i ⟨⟩ u hu
    exact ⟨_, own u hu⟩

/-- The test an examination has made the jobs of. -/
def SmokeReply.makes (testId : Int) : Finish SmokeReply → Option Int
  | .commit (.queued _) => some testId
  | _ => none

/-- The last transaction of an examination, on a test that still has the number of pairs the
worker read. -/
theorem Tame.smoke {now : ℚ} {job : SmokeJob} {x : Examination} {random : Nat → ℚ}
    (hjob : ∀ t, testJobs.Rely [] s t → ∀ u, t.tests.find job.testId = some u →
      u.totalPairs = job.totalPairs) :
    (smokeFinish E now job x random).wp testJobs may
      (fun fin held w s => Tame (SmokeReply.makes job.testId fin) held w s) [] id s := by
  have hin : .test job.testId ∈ [Lock.test job.testId] := by simp
  refine wp_smokeFinish (fun _ _ => init.acquire) (fun row vlog t u ht hu hrow hval => ?_) ?_
  · refine (init.acquire ht hu).updateTest (.judge .invalid _) (TestRow.judge_id _ _) (fun _ => rfl) hin ?_
    intro y hy v hvy
    obtain ⟨hrow', -⟩ := hy.2.2 _ hin job.testId rfl row hrow
    cases Option.some.inj (hrow'.symm.trans hvy)
    have hun : y.Untouched row.id := (hy.1.stocked _ row hrow').early (.inl hval)
    refine ⟨⟨fun _ => hun, by simp [TestRow.judge], .inl hun⟩, absurd hval, fun hs => ?_⟩
    rw [hval] at hs
    cases hs
  · intro row fens vlog t u v ht hu hrow hval hx huv
    have hid : row.id = job.testId := (Table.find_some hrow).2
    have hrow' : v.tests.find job.testId = some row := (huv.2.2 _ hin job.testId rfl row hrow).1
    have htotal : row.totalPairs = job.totalPairs := hjob u (ht.trans (hu.mono (by simp))) row hrow
    have hqueued : Tame (some job.testId) [Lock.test job.testId]
        (fun db => db.enqueue job.testId fens random vlog) v := by
      rw [← hid] at hin hrow' ⊢
      exact Tame.enqueue hin huv.1 hrow' hval (by rw [SmokeJob.length_examine hx, htotal])
    exact Script.wp_mono (fun _ held w s hm => hm.promote now)
      (hqueued.refresh E.numerics now job.testId)

omit [LinearOrder F] in
theorem Db.smokeJob_some {db : Db F} {job : SmokeJob} (h : db.smokeJob = some job) :
    ∃ t ∈ db.tests.rows, t.id = job.testId ∧ t.totalPairs = job.totalPairs := by
  obtain ⟨t, ht, rfl⟩ := Option.map_eq_some_iff.mp h
  have hmem := List.mem_of_mem_head? (Option.mem_def.mpr ht)
  rw [List.mem_insertionSort] at hmem
  exact ⟨t, (List.mem_filter.mp hmem).1, rfl, rfl⟩

omit [LinearOrder F] in
/-- A test that is stopped while it is validating has no jobs. -/
theorem Tame.stop (now : ℚ) (testId : Int) :
    (stopTest now testId).wp testJobs may (fun fin held w s => Tame none held w s ∧
      ∀ promoted, fin = .commit ⟨.stopped, some .validating, promoted⟩ →
        ∀ t, testJobs.Rely held s t → ∃ v, (w t).tests.find testId = some v ∧
          v.status = .stopped ∧ (w t).Untouched testId) [] id s := by
  have hin : .test testId ∈ [Lock.test testId] := by simp
  have stopped : ∀ t u, testJobs.Rely [] s t → testJobs.Rely [.test testId] t u →
      Tame none [Lock.test testId]
        (fun db => db.updateTest testId (.stop now) (TestRow.stop_id now)) u := by
    intro t u ht hu
    refine (init.acquire ht hu).updateTest (.stop now) (TestRow.stop_id now) (fun _ => rfl) hin ?_
    intro x hx v hv
    refine ⟨⟨by simp [TestRow.stop], by simp [TestRow.stop], ?_⟩, by simp [TestRow.stop],
      fun _ _ => rfl⟩
    rcases (hx.1.stocked testId v hv).whole with hun | hgen
    · exact .inl hun
    · exact .inr (hgen.congr rfl rfl rfl)
  refine wp_stopTest (fun _ t u ht hu => ⟨init.acquire ht hu, by simp⟩) ?_ ?_
  · intro row t u ht hu hrow _
    refine ⟨stopped t u ht hu, fun promoted h x hx => ?_⟩
    have hval : row.status = .validating := by
      injection h with h
      injection h with _ h
      exact Option.some.inj h
    obtain ⟨hrow', -⟩ := hx.2.2 _ hin testId rfl row hrow
    have hid : row.id = testId := (Table.find_some hrow).2
    refine ⟨row.stop now, ?_, rfl, hid ▸ (hx.1.stocked testId row hrow').early (.inl hval)⟩
    rcases x.find_updateTest_cases testId (.stop now) (TestRow.stop_id now) hrow' with
      ⟨-, h⟩ | ⟨h, -⟩
    · exact h
    · exact absurd rfl h
  · intro row t u ht hu _ hrun
    refine Script.wp_mono (fun _ held w s hm => ⟨hm, fun promoted h => ?_⟩)
      ((stopped t u ht hu).promote now)
    injection h with h
    injection h with _ hprev
    simp [hrun] at hprev

omit [LinearOrder F] in
/-- A new test has no jobs. -/
theorem Tame.addTest {now : ℚ} {spec : TestSpec} {cc bc : String} (hone : 1 ≤ spec.totalPairs) :
    Tame none held (fun db => db.addTest now spec cc bc) s := by
  refine ⟨fun u hu => ⟨⟨?_, ?_, ?_⟩, ?_, ?_⟩, fun _ _ _ => rfl, by simp⟩
  · intro i hi
    refine hu.1.unborn i ?_
    cases hx : u.tests.find i with
    | none => rfl
    | some x => cases hi.symm.trans (find_addTest hx)
  · intro i x hx
    rcases find_addTest_cases hx with ⟨-, rfl⟩ | hx
    · exact hone
    · exact hu.1.demands i x hx
  · intro i x hx
    rcases find_addTest_cases hx with ⟨rfl, rfl⟩ | hx
    · have hun : u.Untouched u.tests.next := hu.1.unborn _ (Table.find_next u.tests)
      exact ⟨fun _ => hun, by simp [testRow], .inl hun⟩
    · exact (hu.1.stocked i x hx).congr rfl rfl rfl rfl
  · exact fun i x hx => ⟨x, find_addTest hx, rfl, fun h => ⟨h, rfl⟩, fun h _ => h⟩
  · exact fun key _ i _ x hx => ⟨find_addTest hx, rfl⟩

/-- Only the worker makes jobs. -/
theorem Tame.call {c : Call} {now : ℚ} (hc : (Activity.request ⟨c, now⟩).regular) :
    (c.program E now).wp testJobs may (fun _ held w s => Tame none held w s) [] id s := by
  cases c with
  | create body cc bc =>
    simp only [Call.program]
    cases hs : parseTestSpec body E.cfg.sprtPresets with
    | error message => exact init
    | ok spec =>
      exact Script.wp_map.mpr (wp_insertTest fun _ t _ => Tame.addTest (parseTestSpec_totalPairs hs))
  | smoke => exact hc.elim
  | promote => exact Script.wp_map.mpr (init.promote now)
  | stop testId =>
    exact Script.wp_map.mpr (Script.wp_mono (fun _ _ _ _ h => h.1) (Tame.stop now testId))
  | setPriority testId priority => exact Script.wp_map.mpr (init.priority testId priority)
  | register reg =>
    refine Script.wp_map.mpr (wp_registerClient fun _ t ht => ?_)
    exact (init.rely ht).write (f := fun db => db.upsertClient reg)
      (fun db => by unfold Db.upsertClient; split <;> rfl)
      fun db i => by unfold Db.upsertClient; split <;> rfl
  | heartbeat clientId cpuFactor =>
    refine Script.wp_map.mpr ?_
    simp only [heartbeat, Script.update_bind, Script.wp_write, Script.select_bind, Script.wp_query]
    intro t ht
    exact (init.rely ht).write (fun _ => rfl) fun _ _ => rfl
  | ban clientId =>
    refine Script.wp_map.mpr ?_
    exact init.write (fun _ => rfl) fun _ _ => rfl
  | claim clientId slotsFree =>
    exact Script.wp_map.mpr (init.claim E.cfg now clientId slotsFree)
  | submit pairId report => exact Script.wp_map.mpr (init.submit now pairId report.toPairReport)
  | abandon pairId clientId => exact Script.wp_map.mpr (init.abandon pairId clientId)
  | recover => exact Script.wp_map.mpr (init.recover now E.cfg.maxAttempts)

/-- The worker's activity makes the jobs of the test it reports as queued. -/
theorem Tame.processNext {now : ℚ} {x : SmokeJob → Examination} {random : Nat → ℚ} :
    (processNext E now x random).wp testJobs may (fun fin held w s => ∃ made,
      Tame made held w s ∧
        ∀ i, made = some i ↔ ∃ p, fin = .commit (.examined i (.queued p))) [] id s := by
  simp only [CapiNet.processNext, Script.select_bind, Script.wp_query]
  intro t ht
  cases hjob : (id t).smokeJob with
  | none => exact ⟨none, init.rely ht, by simp⟩
  | some job =>
    obtain ⟨row, hmem, hid, htotal⟩ := Db.smokeJob_some hjob
    have hrow : t.tests.find job.testId = some row := hid ▸ Table.find_of_mem hmem
    refine Script.wp_map.mpr (Script.wp_mono (fun fin held w s hm => ⟨_, hm, fun i => ?_⟩)
      (Tame.smoke ?_))
    · rcases fin with reply | reply
      · cases reply <;> simp [SmokeReply.makes]
      · simp [SmokeReply.makes]
    · intro u hu v hv
      obtain ⟨v', hv', htot, -⟩ := hu.2.1 _ row hrow
      cases Option.some.inj (hv.symm.trans hv')
      exact htot.trans htotal

end Programs

/-- A test reported as queued has its jobs; one whose early stop was answered is stopped and has
none. -/
def jobPost (a : Activity) (r : Answer) (t : Db F) : Prop :=
  (∀ i p, r = .examined i (.queued p) →
    ∃ v, t.tests.find i = some v ∧ v.status ≠ .validating ∧ t.Generated v) ∧
  ∀ i now p, a = .request ⟨.stop i, now⟩ → r = .reply (.stop ⟨.stopped, some .validating, p⟩) →
    ∃ v, t.tests.find i = some v ∧ v.status = .stopped ∧ t.Untouched i

omit [LinearOrder F] in
theorem jobPost_steady (a : Activity) (r : Answer) (s t : Db F) (h : jobPost a r s)
    (ht : testJobs.steady s t) : jobPost a r t := by
  refine ⟨fun i p hr => ?_, fun i now p ha hr => ?_⟩
  · obtain ⟨v, hv, hval, hgen⟩ := h.1 i p hr
    obtain ⟨v', hv', htot, hkeep, -⟩ := ht i v hv
    obtain ⟨hval', hst⟩ := hkeep hval
    have hid : v.id = i := (Table.find_some hv).2
    have hid' : v'.id = i := (Table.find_some hv').2
    exact ⟨v', hv', hval', hgen.congr (hid'.trans hid.symm) htot (hid ▸ hst)⟩
  · obtain ⟨v, hv, hstop, hun⟩ := h.2 i now p ha hr
    obtain ⟨v', hv', -, hkeep, hstop'⟩ := ht i v hv
    refine ⟨v', hv', hstop' hstop hun, ?_⟩
    rw [Db.untouched_iff, (hkeep (by simp [hstop])).2, ← Db.untouched_iff]
    exact hun

theorem keeps_testJobs (E : Env F) :
    Keeps testJobs (.only Activity.regular) (Activity.program E) jobPost := by
  intro a ha s hs
  cases a with
  | request r =>
    obtain ⟨c, now⟩ := r
    by_cases hstop : ∃ i, c = .stop i
    · obtain ⟨testId, rfl⟩ := hstop
      refine Script.wp_map.mpr (Script.wp_map.mpr
        (Script.wp_mono (fun fin held w s hm => ?_) (Tame.stop now testId)))
      intro r hr t ht
      refine ⟨hm.1.guar t ht, fun i p hq => ?_, ?_⟩
      · subst hq
        cases fin <;> cases hr
      · rintro i n p ⟨⟩ rfl
        cases fin with
        | rollback => cases hr
        | commit o =>
          cases hr
          exact hm.2 p rfl t ht
    · refine Script.wp_map.mpr (Script.wp_mono (fun fin held w s hm => ?_) (Tame.call ha))
      intro r hr t ht
      refine ⟨hm.guar t ht, fun i p hq => ?_, fun i n p hc => ?_⟩
      · subst hq
        cases fin <;> cases hr
      · cases hc
        exact absurd ⟨i, rfl⟩ hstop
  | processNext now x random =>
    refine Script.wp_mono (fun fin held w s hm => ?_) Tame.processNext
    obtain ⟨made, htame, hmade⟩ := hm
    intro r hr t ht
    refine ⟨htame.guar t ht, fun i p hq => ?_, fun i n p hc => by cases hc⟩
    subst hq
    obtain ⟨v, hv, hgen⟩ := htame.own i ((hmade i).mpr ⟨p, hr⟩) t ht
    refine ⟨v, hv, fun hval => ?_, hgen⟩
    have hinv := (htame.guar t ht).1
    exact hgen.not_untouched (hinv.demands i v hv) ((hinv.stocked i v hv).early (.inl hval))

/-- A commit that gives a test jobs reports it as queued. -/
theorem does_testJobs (E : Env F) (i : Int) (a : Activity) (ha : a.regular) (s : Db F) :
    (a.program E).wp testJobs ((Discipline.only Activity.regular).locks a)
      (Does testJobs fun r s t => ¬t.Untouched i → ¬s.Untouched i ∨
        ∃ p, r = .examined i (.queued p)) [] id s := by
  have quiet : ∀ {made : Option Int} {held : List Lock} {w : Db F → Db F} {s : Db F},
      Tame made held w s → made ≠ some i → ∀ t, ¬(w t).Untouched i → ¬t.Untouched i := by
    intro made held w s h hm t ht hun
    rw [Db.untouched_iff, h.quiet i hm, ← Db.untouched_iff] at ht
    exact ht hun
  cases a with
  | request r =>
    refine Script.wp_map.mpr (Script.wp_mono (fun fin held w s hm => ?_) (Tame.call ha))
    exact fun r _ t _ ht => .inl (quiet hm (by simp) t ht)
  | processNext now x random =>
    refine Script.wp_mono (fun fin held w s hm => ?_) Tame.processNext
    obtain ⟨made, htame, hmade⟩ := hm
    intro r hr t _ ht
    by_cases hm : made = some i
    · obtain ⟨p, hp⟩ := (hmade i).mp hm
      rw [hr] at hp
      cases hp
      exact .inr ⟨p, rfl⟩
    · exact .inl (quiet htame hm t ht)

omit [LinearOrder F] in
theorem tended_empty : (Db.empty : Db F).Tended :=
  ⟨fun _ _ => ⟨rfl, rfl⟩, by simp [Db.empty], by simp [Db.empty]⟩

omit [LinearOrder F] in
theorem BecameQueued.generated {W : WorkerWorld F} {i : Int}
    (hW : Sound testJobs (.only Activity.regular) jobPost W) (h : BecameQueued W i) :
    ∃ v, W.db.tests.find i = some v ∧ W.db.Generated v ∧ 1 ≤ v.totalPairs := by
  obtain ⟨a, p, hmem⟩ := h
  have hpost : jobPost a (.examined i (.queued p)) W.db := hW.sessions _ hmem
  obtain ⟨v, hv, -, hgen⟩ := hpost.1 i p rfl
  exact ⟨v, hv, hgen, hW.inv.demands i v hv⟩

/-- In every interleaving, a test that was queued has exactly its positions and one pair for each,
any other has neither, and a test that was stopped while validating stays so. Any number of workers
may be at it, and be killed, at any time. -/
theorem jobs_generated_once (E : Env F) (W : WorkerWorld F)
    (hW : Run (Activity.program E) (.only Activity.regular) newServer W) :
    (∀ t ∈ W.db.tests.rows, 1 ≤ t.totalPairs ∧
      ((BecameQueued W t.id ∧ W.db.Generated t) ∨ (¬BecameQueued W t.id ∧ W.db.Untouched t.id)) ∧
      (t.status = .queued ∨ t.status = .running ∨ t.status = .finished → BecameQueued W t.id)) ∧
    ∀ i, StoppedEarly W i → ∀ V, Run (Activity.program E) (.only Activity.regular) W V →
      ¬BecameQueued V i ∧
        ∃ t, V.db.tests.find i = some t ∧ t.status = .stopped ∧ V.db.Untouched i := by
  have hkeep := keeps_testJobs E
  have hsound := (Run.sound hkeep jobPost_steady (Sound.start tended_empty) hW).1
  have hmarked : ∀ i, ¬W.db.Untouched i → BecameQueued W i := by
    intro i hi
    have hdoes := fun c hc s (_ : testJobs.inv s) => does_testJobs E i c hc s
    obtain ⟨a, r, hmem, p, rfl⟩ := Run.marked hkeep jobPost_steady hdoes tended_empty
      (fun h => h ⟨rfl, rfl⟩) hW hi
    exact ⟨a, p, hmem⟩
  refine ⟨fun t ht => ?_, fun i hi V hV => ?_⟩
  · have hfind : W.db.tests.find t.id = some t := Table.find_of_mem ht
    have hone := hsound.inv.demands t.id t hfind
    have hstock := hsound.inv.stocked t.id t hfind
    refine ⟨hone, ?_, fun hs => hmarked t.id ((hstock.late hs).not_untouched hone)⟩
    by_cases hq : BecameQueued W t.id
    · obtain ⟨v, hv, hgen, -⟩ := hq.generated hsound
      cases Option.some.inj (hfind.symm.trans hv)
      exact .inl ⟨hq, hgen⟩
    · exact .inr ⟨hq, not_not.mp fun hun => hq (hmarked t.id hun)⟩
  · obtain ⟨now, p, hmem⟩ := hi
    have hpost : jobPost _ (.reply (.stop ⟨.stopped, some .validating, p⟩)) W.db :=
      hsound.sessions _ hmem
    obtain ⟨hV', hsteady⟩ := Run.sound hkeep jobPost_steady hsound hV
    obtain ⟨v, hv, hstop, hun⟩ := (jobPost_steady _ _ _ _ hpost hsteady).2 i now p rfl rfl
    refine ⟨fun hq => ?_, v, hv, hstop, hun⟩
    obtain ⟨v', hv', hgen, hone⟩ := hq.generated hV'
    exact hgen.not_untouched hone ((Table.find_some hv').2.symm ▸ hun)

/-- Both engines build, and the book has one position. -/
def passing : SmokeJob → Examination := fun _ => ⟨"", .ok true, .ok ["8/8/8/8/8/8/8/K1k5 w - -"]⟩

/-- Two tests are created. The worker is killed at the first, resumes and queues it; while it is at
the second, that one is stopped. -/
def secondWithdrawn : List (Event Activity) :=
  List.flatten [
    .start (.request ⟨.create (gauntletBody 1) "a" "b", 0⟩) :: List.replicate 3 (.advance 0),
    .start (.request ⟨.create (gauntletBody 1) "a" "b", 0⟩) :: List.replicate 3 (.advance 1),
    [.start (.processNext 0 passing fun i => i), .advance 2, .kill 2],
    .start (.processNext 0 passing fun i => i) :: List.replicate 20 (.advance 3),
    [.start (.processNext 0 passing fun i => i), .advance 4],
    .start (.request ⟨.stop 2, 0⟩) :: List.replicate 4 (.advance 5), List.replicate 3 (.advance 4)]

def queuedSeen (testId : Int) (W : WorkerWorld F) : Bool :=
  W.sessions.any fun S => match S.phase with
    | .ended (some (.commit (.examined i (.queued _)))) => i == testId
    | _ => false

/-- The test a request stops. -/
def Activity.stopped : Activity → Option Int
  | .request ⟨.stop i, _⟩ => some i
  | _ => none

def earlyStopSeen (testId : Int) (W : WorkerWorld F) : Bool :=
  W.sessions.any fun S => S.call.stopped == some testId && match S.phase with
    | .ended (some (.commit (.reply (.stop o)))) =>
      o.status == .stopped && o.previous == some .validating
    | _ => false

omit [LinearOrder F] in
theorem becameQueued_of_seen {testId : Int} {W : WorkerWorld F} (h : queuedSeen testId W = true) :
    BecameQueued W testId := by
  obtain ⟨⟨a, phase⟩, hmem, hS⟩ := List.any_eq_true.mp h
  dsimp only at hS
  split at hS
  next i p =>
    cases (beq_iff_eq.mp hS : i = testId)
    exact ⟨a, p, hmem⟩
  next => cases hS

omit [LinearOrder F] in
theorem stoppedEarly_of_seen {testId : Int} {W : WorkerWorld F} (h : earlyStopSeen testId W = true) :
    StoppedEarly W testId := by
  obtain ⟨⟨a, phase⟩, hmem, hS⟩ := List.any_eq_true.mp h
  obtain ⟨hcall, hphase⟩ := (Bool.and_eq_true _ _).mp hS
  have hreq : ∃ now, a = .request ⟨.stop testId, now⟩ := by
    have hcall' : a.stopped = some testId := by simpa using hcall
    unfold Activity.stopped at hcall'
    split at hcall'
    next i now => cases hcall'; exact ⟨now, rfl⟩
    next => cases hcall'
  obtain ⟨now, rfl⟩ := hreq
  dsimp only at hphase
  split at hphase
  next o =>
    obtain ⟨status, previous, promoted⟩ := o
    simp only [Bool.and_eq_true, beq_iff_eq] at hphase
    obtain ⟨rfl, rfl⟩ := hphase
    exact ⟨now, promoted, hmem⟩
  next => cases hphase

/-- The first test has its position and its pair, the second is stopped without any. -/
theorem withdrawn_without_jobs : ∃ W : WorkerWorld ℝ, BecameQueued W 1 ∧ StoppedEarly W 2 ∧
    (∃ t, W.db.tests.find 1 = some t ∧ W.db.Generated t) ∧
    ∃ t, W.db.tests.find 2 = some t ∧ t.status = .stopped ∧ W.db.Untouched 2 := by
  have hrun : ((newServer : WorkerWorld ℝ).runs (Activity.program realEnv) (fun _ _ _ _ => true)
      secondWithdrawn).any (fun W => queuedSeen 1 W && earlyStopSeen 2 W &&
        (W.db.tests.find 1).isSome) = true := by
    decide +kernel
  obtain ⟨W, hW, hw⟩ := (Option.any_eq_true _ _).mp hrun
  simp only [Bool.and_eq_true] at hw
  obtain ⟨⟨hq, hs⟩, hsome⟩ := hw
  obtain ⟨t, ht⟩ := Option.isSome_iff_exists.mp hsome
  obtain ⟨hmem, hid⟩ := Table.find_some ht
  have hreg : ∀ a, .start a ∈ secondWithdrawn → a.regular := by
    simp [secondWithdrawn, Activity.regular]
  have hall := jobs_generated_once realEnv W (Run.of_runs hreg (fun _ _ _ _ _ => trivial) hW)
  refine ⟨W, becameQueued_of_seen hq, stoppedEarly_of_seen hs, ⟨t, ht, ?_⟩,
    (hall.2 2 (stoppedEarly_of_seen hs) W .refl).2⟩
  obtain ⟨-, ⟨-, hgen⟩ | ⟨hno, -⟩, -⟩ := hall.1 t hmem
  · exact hgen
  · exact absurd (hid ▸ becameQueued_of_seen hq) hno

end CapiNet
