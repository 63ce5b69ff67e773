import CapiNet.QueueStep

namespace CapiNet

open Txn Relational

variable {F : Type}

theorem Db.find_updateTest (db : Db F) (id : Int) (f : TestRow → TestRow)
    (h : ∀ r, (f r).id = r.id) (i : Int) :
    (db.updateTest id f h).tests.find i =
      (db.tests.find i).map fun t => if t.id == id then f t else t :=
  Table.find_modify db.tests _ f h i

/-- The row an update is about, and the rows it is not about. -/
theorem Db.find_updateTest_cases (db : Db F) (id : Int) (f : TestRow → TestRow)
    (h : ∀ r, (f r).id = r.id) {i : Int} {t : TestRow} (ht : db.tests.find i = some t) :
    (i = id ∧ (db.updateTest id f h).tests.find i = some (f t)) ∨
      (i ≠ id ∧ (db.updateTest id f h).tests.find i = some t) := by
  have hid : t.id = i := (Table.find_some ht).2
  rw [Db.find_updateTest, ht]
  by_cases hi : i = id
  · exact .inl ⟨hi, by simp [hid, hi]⟩
  · exact .inr ⟨hi, by simp [hid, hi]⟩

theorem Db.of_find_updateTest {db : Db F} {id : Int} {f : TestRow → TestRow}
    {h : ∀ r, (f r).id = r.id} {i : Int} {x : TestRow}
    (hx : (db.updateTest id f h).tests.find i = some x) :
    ∃ y, db.tests.find i = some y ∧ ((i = id ∧ x = f y) ∨ (i ≠ id ∧ x = y)) := by
  rw [Db.find_updateTest] at hx
  obtain ⟨y, hy, -⟩ := Option.map_eq_some_iff.mp hx
  rw [← Db.find_updateTest db id f h] at hx
  refine ⟨y, hy, ?_⟩
  rcases db.find_updateTest_cases id f h hy with ⟨hi, hfind⟩ | ⟨hi, hfind⟩
  · exact .inl ⟨hi, Option.some.inj (hx.symm.trans hfind)⟩
  · exact .inr ⟨hi, Option.some.inj (hx.symm.trans hfind)⟩

@[simp] theorem Db.tests_record (db : Db F) (testId : Int) (s : TestStats F) :
    (db.record testId s).tests = db.tests := by
  unfold Db.record Db.appendHistory Db.upsertStats
  split <;> rfl

theorem promotionTarget_eq_some {db : Db F} {id : Int} (h : promotionTarget db = some id) :
    (∀ t ∈ db.tests.rows, t.status ≠ .running) ∧
      ∃ t, db.tests.find id = some t ∧ t.status = .queued := by
  unfold promotionTarget at h
  split at h
  next => cases h
  next hany =>
    obtain ⟨t, ht, rfl⟩ := Option.map_eq_some_iff.mp h
    have hmem := (List.mem_insertionSort _).mp (List.mem_of_mem_head? ht)
    obtain ⟨hrow, hs⟩ := List.mem_filter.mp hmem
    refine ⟨?_, t, Table.find_of_mem hrow, by simpa using hs⟩
    intro u hu hrun
    exact hany (List.any_eq_true.mpr ⟨u, hu, by simp [hrun]⟩)

/-- A promotion finds nothing to do only if a test is running or none is queued. -/
theorem promotionTarget_eq_none {db : Db F} (h : promotionTarget db = none) :
    (∃ t ∈ db.tests.rows, t.status = .running) ∨ ∀ t ∈ db.tests.rows, t.status ≠ .queued := by
  unfold promotionTarget at h
  split at h
  next hany =>
    obtain ⟨t, ht, hs⟩ := List.any_eq_true.mp hany
    exact .inl ⟨t, ht, by simpa using hs⟩
  next =>
    refine .inr fun t ht hs => ?_
    have hsort := List.head?_eq_none_iff.mp (Option.map_eq_none_iff.mp h)
    have hmem : t ∈ (db.tests.rows.filter (·.status == .queued)).insertionSort servedBefore :=
      (List.mem_insertionSort _).mpr (List.mem_filter.mpr ⟨ht, by simp [hs]⟩)
    rw [hsort] at hmem
    cases hmem

/-- A promotion leaves a test alone, or starts it: then it was queued and no test was running. -/
theorem Promoted.find {now : ℚ} {db db' : Db F} {r : Option Int} (h : Promoted now db r db')
    {i : Int} {t : TestRow} (ht : db.tests.find i = some t) :
    db'.tests.find i = some t ∨
      (t.status = .queued ∧ (∀ u ∈ db.tests.rows, u.status ≠ .running) ∧
        db'.tests.find i = some (t.run now)) := by
  cases h with
  | nothing => exact .inl ht
  | next id hid =>
    obtain ⟨hnone, q, hq, hs⟩ := promotionTarget_eq_some hid
    rcases db.find_updateTest_cases id (.run now) (TestRow.run_id now) ht with ⟨rfl, hf⟩ | ⟨-, hf⟩
    · cases Option.some.inj (ht.symm.trans hq)
      exact .inr ⟨hs, hnone, hf⟩
    · exact .inl hf

/-- The results a test of each kind can finish with. -/
def TestKind.Gives : TestKind → TestResult → Prop
  | .sprt, r => r = .accepted ∨ r = .rejected ∨ r = .inconclusive
  | .gauntlet, r => r = .completed

variable [LinearOrder F]

theorem Db.recomputed_gauntlet {N : Numerics F} {db : Db F} {t : TestRow} {r : Recomputed F}
    (hk : t.kind = .gauntlet) (h : db.recomputed N t = .ok r) : r.decision = .continue := by
  obtain ⟨penta, -, hr⟩ := bind_eq_ok.mp h
  exact recompute_gauntlet hk hr

/-- A verdict suits the kind of the test. -/
theorem verdict_gives {N : Numerics F} {db : Db F} {t : TestRow} {r : Recomputed F} {n : Nat}
    {result : TestResult} (h : db.recomputed N t = .ok r)
    (hv : verdict t r.decision n = some result) : t.kind.Gives result := by
  cases hk : t.kind with
  | gauntlet =>
    rw [Db.recomputed_gauntlet hk h] at hv
    simp only [verdict, hk, TestKind.exhausted] at hv
    split at hv
    next => exact (Option.some.inj hv).symm
    next => cases hv
  | sprt =>
    unfold verdict at hv
    rw [hk] at hv
    split at hv
    next => exact .inl (Option.some.inj hv).symm
    next => exact .inr (.inl (Option.some.inj hv).symm)
    next =>
      split at hv
      next => exact .inr (.inr (Option.some.inj hv).symm)
      next => cases hv

/-- The moves of a test while those with the given identities are refreshed. -/
inductive RefreshMove (now : ℚ) (ids : List Int) (i : Int) (t : TestRow) : TestRow → Prop
  | stays : RefreshMove now ids i t t
  | finished (result : TestResult) : i ∈ ids → t.status = .running → t.kind.Gives result →
      RefreshMove now ids i t (t.finish now result)
  | promoted : t.status = .queued → RefreshMove now ids i t (t.run now)

theorem Refreshed.find {N : Numerics F} {now : ℚ} {testId : Int} {db db' : Db F}
    (h : Refreshed N now testId db db') {i : Int} {t : TestRow} (ht : db.tests.find i = some t) :
    ∃ t', db'.tests.find i = some t' ∧ RefreshMove now [testId] i t t' := by
  cases h with
  | missing => exact ⟨t, ht, .stays⟩
  | kept u r _ _ _ => exact ⟨t, by rw [Db.tests_record]; exact ht, .stays⟩
  | finished u r result promoted _ hu hrec hrun hv hp =>
    have ht₁ : (db.record testId r.stats).tests.find i = some t := by
      rw [Db.tests_record]; exact ht
    rcases Db.find_updateTest_cases (db.record testId r.stats) testId (.finish now result)
      (TestRow.finish_id now result) ht₁ with ⟨rfl, hf⟩ | ⟨-, hf⟩
    · cases Option.some.inj (ht.symm.trans hu)
      refine ⟨_, ?_, .finished result (by simp) hrun (verdict_gives hrec hv)⟩
      rcases hp.find hf with hf' | ⟨hq, -, -⟩
      · exact hf'
      · cases hq
    · rcases hp.find hf with hf' | ⟨hq, -, hf'⟩
      · exact ⟨t, hf', .stays⟩
      · exact ⟨_, hf', .promoted hq⟩

/-- No refreshed test is queued, so a test that is promoted on the way is not refreshed later. -/
theorem RefreshedAll.find {N : Numerics F} {now : ℚ} {ids : List Int} {db db' : Db F}
    (h : RefreshedAll N now ids db db')
    (hids : ∀ i ∈ ids, ∀ t, db.tests.find i = some t → t.status ≠ .queued)
    {i : Int} {t : TestRow} (ht : db.tests.find i = some t) :
    ∃ t', db'.tests.find i = some t' ∧ RefreshMove now ids i t t' := by
  induction h generalizing t with
  | nil => exact ⟨t, ht, .stays⟩
  | cons a ids db db₁ db' hstep _ ih =>
    obtain ⟨t₁, ht₁, hmove⟩ := hstep.find ht
    have hids₁ : ∀ j ∈ ids, ∀ u, db₁.tests.find j = some u → u.status ≠ .queued := by
      intro j hj u hu hq
      cases hb : db.tests.find j with
      | none =>
        cases hstep with
        | missing => rw [hb] at hu; cases hu
        | kept => rw [Db.tests_record, hb] at hu; cases hu
        | finished v r result promoted _ _ _ _ _ hp =>
          have hnone : ((db.record a r.stats).updateTest a (.finish now result)
              (TestRow.finish_id now result)).tests.find j = none := by
            rw [Db.find_updateTest, Db.tests_record, hb]; rfl
          cases hp with
          | nothing => rw [hnone] at hu; cases hu
          | next => rw [Db.find_updateTest, hnone] at hu; cases hu
      | some v =>
        obtain ⟨v', hv', hm⟩ := hstep.find hb
        cases Option.some.inj (hv'.symm.trans hu)
        cases hm with
        | stays => exact hids j (by simp [hj]) _ hb hq
        | finished => cases hq
        | promoted => cases hq
    obtain ⟨t', ht', hmove'⟩ := ih hids₁ ht₁
    refine ⟨t', ht', ?_⟩
    cases hmove with
    | stays =>
      cases hmove' with
      | stays => exact .stays
      | finished result hi hrun hg => exact .finished result (by simp [hi]) hrun hg
      | promoted hq => exact .promoted hq
    | finished result hi hrun hg =>
      cases hmove' with
      | stays => exact .finished result (by simpa using .inl (List.mem_singleton.mp hi)) hrun hg
      | finished _ _ hrun' => cases hrun'
      | promoted hq => cases hq
    | promoted hq =>
      cases hmove' with
      | stays => exact .promoted hq
      | finished _ hi => exact absurd hq (hids i (by simp [hi]) t ht)
      | promoted hq' => cases hq'

end CapiNet
