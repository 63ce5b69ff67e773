import CapiNet.GeneratedJobs
import CapiNet.LedgerEntry
import CapiNet.SprtRegion

namespace CapiNet

open Txn Relational

variable {F : Type} [LinearOrder F]

/-- The writes of a transaction keep the books, but for those of the test it owes. -/
def Booked (N : Numerics F) (strict : Prop) (owed : Option Int) (held : List Lock) (w : Db F → Db F)
    (s : Db F) : Prop :=
  ∃ gain act, ∀ t, (ledger N strict).Rely held s t → Entry N strict owed held gain act t (w t)

namespace Booked

variable {N : Numerics F} {strict : Prop} {owed : Option Int} {held : List Lock}
  {w : Db F → Db F} {s t u : Db F}

theorem init : Booked N strict none held id s := ⟨_, _, fun _ ht => .init ht.1⟩

theorem rely (h : Booked N strict owed held w s) (ht : (ledger N strict).Rely held s t) :
    Booked N strict owed held w t := by
  obtain ⟨gain, act, he⟩ := h
  exact ⟨gain, act, fun u hu => he u (ht.trans hu)⟩

theorem lock (h : Booked N strict owed held w s) (keys : List Lock) :
    Booked N strict owed (keys ++ held) w s := by
  obtain ⟨gain, act, he⟩ := h
  have hsub : ∀ key ∈ held, key ∈ keys ++ held := fun key hk => List.mem_append_right _ hk
  exact ⟨gain, act, fun u hu => (he u (hu.mono hsub)).mono hsub⟩

theorem acquire (h : Booked N strict owed held w s) {key : Lock}
    (hs : (ledger N strict).Rely held s t) (ht : (ledger N strict).Rely (key :: held) t u) :
    Booked N strict owed (key :: held) w u :=
  ((h.rely hs).lock [key]).rely ht

theorem guar (h : Booked N strict none held w s) (t : Db F)
    (ht : (ledger N strict).Rely held s t) : (ledger N strict).Guar held t (w t) := by
  obtain ⟨gain, act, he⟩ := h
  have hentry := he t ht
  refine ⟨hentry.ledger, fun i => ⟨hentry.risen i, fun hs => ?_⟩, fun key hk => ?_⟩
  · exact hentry.frozen hs i (by simp)
  · exact hentry.region key hk (by simp)

theorem write (h : Booked N strict owed held w s) {f : Db F → Db F}
    (hf : ∀ u, (f u).tests = u.tests ∧ (f u).jobPairs = u.jobPairs ∧ (f u).games = u.games ∧
      (f u).testStats = u.testStats ∧ (f u).history = u.history) :
    Booked N strict owed held (f ∘ w) s := by
  obtain ⟨gain, act, he⟩ := h
  refine ⟨gain, act, fun t ht => ?_⟩
  obtain ⟨htests, hjobs, hgames, hstats, hhist⟩ := hf (w t)
  have hentry := he t ht
  refine hentry.quiet ?_ (settled_congr ?_ hgames) htests hstats hhist
    (fun q hq => ⟨q, hjobs ▸ hq, rfl⟩) fun i _ p hp => ?_
  · exact hentry.hosted.tests hgames hjobs fun i x hx => ⟨x, by rw [Function.comp_apply, htests]; exact hx⟩
  · unfold Db.completedPairs
    rw [Function.comp_apply, hjobs]
  · rw [Function.comp_apply, hjobs]
    exact hp

theorem updateTest (h : Booked N strict owed held w s) {id : Int} (f : TestRow → TestRow)
    (hf : ∀ r, (f r).id = r.id) (hid : .test id ∈ held)
    (hrow : ∀ t, (ledger N strict).Rely held s t → ∀ y, (w t).tests.find id = some y →
      Entry.Lawful strict owed held (w t) id y (f y)) :
    Booked N strict owed held (fun db => (w db).updateTest id f hf) s := by
  obtain ⟨gain, act, he⟩ := h
  exact ⟨gain, _, fun t ht => (he t ht).updateTest hid (hrow t ht)⟩

/-- Pairs that are locked, and are open, stay open. -/
theorem updatePairs {p : PairRow → Bool} (f : PairRow → PairRow) (hf : ∀ r, (f r).id = r.id)
    (htest : ∀ r, (f r).testId = r.testId)
    (hopen : ∀ r, r.status ≠ .completed → (f r).status ≠ .completed)
    (hp : ∀ r, p r = true → .pair r.id ∈ held ∧
      ∃ q, s.jobPairs.find r.id = some q ∧ q.status ≠ .completed) :
    Booked N strict none held (fun db => db.updatePairs p f hf) s := by
  refine ⟨_, _, fun t ht => .updatePairs ht.1 htest hopen fun r hr hpr => ?_⟩
  obtain ⟨hheld, q, hq, hs⟩ := hp r hpr
  have hq' : t.jobPairs.find r.id = some q := ht.2.2 (.pair r.id) hheld q hq
  rw [Table.find_of_mem hr] at hq'
  cases Option.some.inj hq'
  exact ⟨hheld, hs⟩

theorem deliver (E : Env F) (now : ℚ) {p : PairRow} (report : RoutedReport)
    (hp : s.jobPairs.find p.id = some p) (hopen : p.status ≠ .completed)
    (hheld : .pair p.id ∈ held) : Booked N strict (some p.testId) held
      (fun db => db.deliver E now p report.toPairReport) s := by
  refine ⟨_, _, fun t ht => .deliver ht.1 E now report ?_ hopen hheld⟩
  have hp' : t.jobPairs.find p.id = some p := ht.2.2 (.pair p.id) hheld p hp
  exact (Table.find_some hp').1

theorem addPairs (h : Booked N strict none held w s) {id : Int} (random : Nat → ℚ)
    (hrow : ∀ t, (ledger N strict).Rely held s t → ∃ y, (w t).tests.find id = some y) :
    Booked N strict (some id) held (fun db => (w db).addPairs id random) s := by
  obtain ⟨gain, act, he⟩ := h
  refine ⟨gain, act, fun t ht => ?_⟩
  obtain ⟨y, hy⟩ := hrow t ht
  exact (he t ht).addPairs random hy

/-- The row of a test whose lock is held does not change meanwhile. -/
theorem row (h : Booked N strict owed held w s) {i : Int} (hi : .test i ∈ held)
    (hs : (ledger N strict).inv s) {y : TestRow} (hy : (w s).tests.find i = some y)
    (ht : (ledger N strict).Rely held s t) : (w t).tests.find i = some y := by
  obtain ⟨gain, act, he⟩ := h
  rw [(he s (.refl hs)).tests] at hy
  obtain ⟨x, hx, rfl⟩ := Option.map_eq_some_iff.mp hy
  rw [(he t ht).tests, (ht.2.2 _ hi).1 x hx]
  rfl

/-- Neither do its completed pairs. -/
theorem settled (h : Booked N strict owed held w s) {i : Int} (hi : .test i ∈ held)
    (hs : (ledger N strict).inv s) (ht : (ledger N strict).Rely held s t) :
    (w t).settled i = (w s).settled i := by
  obtain ⟨gain, act, he⟩ := h
  rw [(he s (.refl hs)).settled, (he t ht).settled, (ht.2.2 _ hi).2.1]

end Booked

section Programs

variable {N : Numerics F} {strict : Prop} {owed : Option Int} {held : List Lock}
  {w : Db F → Db F} {s : Db F} {may : List Lock → Lock → Db F → Prop} {E : Env F}

/-- The test a promotion has picked waits until the promotion has its row. -/
theorem Booked.picked (h : Booked N strict none held w s) (hpromo : .promotion ∈ held)
    (hs : (ledger N strict).inv s) {i : Int} {q : TestRow} (hq : (w s).tests.find i = some q)
    (hqs : q.status = .queued) {t : Db F} (ht : (ledger N strict).Rely held s t) :
    (w t).Waiting i := by
  have hkept := h
  obtain ⟨gain, act, he⟩ := h
  have before := he s (.refl hs)
  have after := he t ht
  have hlive : ∀ {v : Db F}, v.tests.find i = some q → v.Live i :=
    fun hv => .inr ⟨q, hv, .inl hqs⟩
  have hstart : q.startedAt = none := (before.timed i q hq).early (.inr (.inr hqs))
  by_cases hi : .test i ∈ held
  · have hq' := hkept.row hi hs hq ht
    exact ⟨q, hq', .inl hqs, hstart, after.opened i (by simp) (hlive hq')⟩
  · -- the transaction has not touched the test
    obtain ⟨hkeep, -, hstats, -⟩ := before.region (.test i) hi (by simp)
    have hraw : s.tests.find i = some q := by
      have hmap := hq
      rw [before.tests] at hmap
      obtain ⟨x, hx, -⟩ := Option.map_eq_some_iff.mp hmap
      rw [hx, ← hkeep x hx, hq]
    have hsome := before.opened i (by simp) (hlive hq)
    rw [hstats] at hsome
    obtain ⟨x, hx, hxs, hxstart, hxstats⟩ := ht.2.2 _ hpromo i ⟨q, hraw, .inl hqs, hstart, hsome⟩
    obtain ⟨hkeep', -, hstats', -⟩ := after.region (.test i) hi (by simp)
    exact ⟨x, hkeep' x hx, hxs, hxstart, by rw [hstats']; exact hxstats⟩

theorem Booked.promote (h : Booked N strict none held w s) (now : ℚ) :
    (promoteNextTest now).wp (ledger N strict) may (fun _ held w s => Booked N strict none held w s)
      held w s := by
  refine wp_promoteNextTest (fun _ _ => h.acquire) fun id t u v x ht hu htarget hv _ hx => ?_
  obtain ⟨-, q, hq, hqs⟩ := promotionTarget_eq_some htarget
  have hkept := h.acquire ht hu
  have hlocked : Booked N strict none (Lock.test id :: Lock.promotion :: held) w x :=
    hkept.acquire hv hx
  refine hlocked.updateTest (.run now) (TestRow.run_id now) (by simp) fun z hz y hy => ?_
  have huz : (ledger N strict).Rely (Lock.promotion :: held) u z :=
    hv.trans (hx.trans hz).tail
  obtain ⟨y', hy', hys, hstart, hstats⟩ := hkept.picked (by simp) hu.1 hq hqs huz
  cases Option.some.inj (hy.symm.trans hy')
  refine ⟨rfl, ⟨by simp [TestRow.run], by simp [TestRow.run]⟩, by simp [TestRow.run],
    fun hr => hr.1 hstart, .inl (by simp), fun _ _ => hstats, by simp [TestRow.run]⟩

/-- A running test finishes with a verdict that its statistics support. -/
theorem Booked.finish (h : Booked N strict none held w s) (now : ℚ) {testId : Int}
    (hid : .test testId ∈ held) (result : TestResult)
    (hrow : ∀ t, (ledger N strict).Rely held s t → ∃ y, (w t).tests.find testId = some y ∧
      y.status = .running ∧ (y.kind = .sprt →
        ∃ st, (w t).testStats testId = some st ∧ st.Supports result)) :
    (finishTest now testId result).wp (ledger N strict) may
      (fun _ held w s => Booked N strict none held w s) held w s := by
  have hfin : Booked N strict none held
      (fun db => (w db).updateTest testId (.finish now result) (TestRow.finish_id now result)) s := by
    refine h.updateTest (.finish now result) (TestRow.finish_id now result) hid fun t ht y hy => ?_
    obtain ⟨y', hy', hrun, hsup⟩ := hrow t ht
    cases Option.some.inj (hy.symm.trans hy')
    obtain ⟨gain, act, he⟩ := h
    have hentry := he t ht
    have hstart : y.startedAt ≠ none := (hentry.timed testId y hy).late (.inl hrun)
    refine ⟨rfl, ⟨by simp [TestRow.finish], fun _ => hstart⟩, id, fun hr => hr.2 hrun, .inr ?_,
      fun _ _ => hentry.opened testId (by simp) (.inr ⟨y, hy, .inr hstart⟩),
      fun _ hk _ => hsup hk⟩
    simp [hrun]
  exact wp_finishTest.mpr (hfin.promote now)

/-- The result of an SPRT is borne out by the statistics it is taken from. -/
theorem verdict_supports {t : TestRow} {penta : Pentanomial} {wins draws losses n : Nat}
    {r : Recomputed F} {result : TestResult} (hk : t.kind = .sprt)
    (h : recompute N t penta wins draws losses = .ok r)
    (hv : verdict t r.decision n = some result) : r.stats.Supports result := by
  obtain ⟨_, _, llr, bounds, -, -, hllr, hlower, hupper, hd⟩ := recompute_sprt hk h
  unfold verdict at hv
  split at hv
  next ha =>
    cases hv
    rw [hd] at ha
    split at ha
    next => exact ⟨llr, _, hllr, hupper, sprtDecide_acceptH1.mp ha⟩
    next => cases ha
  next ha =>
    cases hv
    rw [hd] at ha
    split at ha
    next => exact ⟨llr, _, hllr, hlower, (sprtDecide_acceptH0.mp ha).2⟩
    next => cases ha
  next hc =>
    rw [hk] at hv
    split at hv
    next =>
      cases hv
      intro hpos
      rw [(recompute_counts h).2.1] at hpos
      rw [hd, if_pos hpos] at hc
      exact ⟨_, llr, _, hlower, hllr, hupper, sprtDecide_continue.mp hc⟩
    next => cases hv

/-- Every statement of a recomputation reads the same completed pairs. -/
theorem Booked.recount {testId : Int} {row : TestRow} {r : Recomputed F} {t u v x : Db F}
    (h : Booked N strict owed (.test testId :: held) w u)
    (hread : Recounted (ledger N strict) may N testId held w s row r t u v x) :
    recount N row ((w u).settled testId) = .ok r := by
  obtain ⟨penta, hpenta, hr⟩ := hread.result
  have hdist : distribution ((w v).settled testId) = penta :=
    Except.ok.inj ((distribution_settled (w v) testId).symm.trans hpenta)
  have hsettled : ∀ z, (ledger N strict).Rely (Lock.test testId :: held) u z →
      (w z).settled testId = (w u).settled testId :=
    fun z hz => h.settled (by simp) hread.locked.1 hz
  obtain ⟨gain, act, he⟩ := h
  have hkeyed := (he x hread.later).hosted.keyed
  rw [← hkeyed.scoredOf_settled, ← hkeyed.scoredOf_settled, ← hkeyed.scoredOf_settled,
    hsettled x hread.later, ← hdist, hsettled v hread.pairs] at hr
  exact hr

/-- A recomputation settles what the transaction owes, if the test still has its verdict to come. -/
theorem Booked.refresh (h : Booked N strict owed held w s) (now : ℚ) {testId : Int}
    (howed : ∀ i, owed = some i → i = testId)
    (hcur : owed = some testId → strict → ∀ t, (ledger N strict).Rely held s t →
      may held (.test testId) t → ∀ u, (ledger N strict).Rely (.test testId :: held) t u →
        (∀ y, (w u).tests.find testId = some y → ¬y.Retired) ∧
          ∀ x, u.tests.find testId = some x → ¬x.Retired) :
    (refreshTest N now testId).wp (ledger N strict) may
      (fun _ held w s => Booked N strict none held w s) held w s := by
  have hin : .test testId ∈ Lock.test testId :: held := by simp
  have rows : ∀ row r t u v x z, Recounted (ledger N strict) may N testId held w s row r t u v x →
      (ledger N strict).Rely (.test testId :: held) x z → (w z).tests.find testId = some row := by
    intro row r t u v x z hread hz
    exact (h.acquire hread.asked hread.locked).row hin hread.locked.1 hread.found
      (hread.later.trans hz)
  have recorded : ∀ row r t u v x y,
      Recounted (ledger N strict) may N testId held w s row r t u v x →
      (ledger N strict).Rely (.test testId :: held) x y →
      Booked N strict none (.test testId :: held) (fun db => (w db).record testId r.stats) y := by
    intro row r t u v x y hread hy
    have hkept := h.acquire hread.asked hread.locked
    have hrecount := hkept.recount hread
    have hsettled : ∀ z, (ledger N strict).Rely (Lock.test testId :: held) u z →
        (w z).settled testId = (w u).settled testId :=
      fun z hz => hkept.settled hin hread.locked.1 hz
    obtain ⟨gain, act, he⟩ := hkept
    refine ⟨gain, act, fun z hz => ?_⟩
    have hxz := hy.trans hz
    have huz := hread.later.trans hxz
    have hrow := rows row r t u v x z hread hxz
    refine (he z huz).record hin howed hrow ?_ fun ho hs => ?_
    · rw [hsettled z huz]
      exact hrecount
    · obtain ⟨hret, hret'⟩ :=
        hcur ho hs t hread.asked hread.allowed z (hread.locked.trans huz)
      exact ⟨hret row hrow, hret'⟩
  refine wp_refreshTest (fun t u ht hu hrow => ?_) recorded ?_
  · have hnone : owed = none := by
      cases ho : owed with
      | none => rfl
      | some i =>
        obtain ⟨gain, act, he⟩ := h.acquire ht hu
        obtain ⟨⟨y, hy⟩, -⟩ := (he u (.refl hu.1)).due i ho
        rw [howed i ho, hrow] at hy
        cases hy
    exact hnone ▸ h.acquire ht hu
  · intro row r t u v x y n result hread hy hrun hv
    have hrecount := (h.acquire hread.asked hread.locked).recount hread
    refine (recorded row r t u v x y hread hy).finish now hin result fun z hz => ?_
    refine ⟨row, ?_, hrun, fun hk => ⟨r.stats, Db.testStats_record _ _ _, ?_⟩⟩
    · rw [Db.tests_record]
      exact rows row r t u v x z hread (hy.trans hz)
    · exact verdict_supports hk hrecount hv

theorem leasedBy_open {p : PairRow} {clientId : Int} (h : p.leasedBy clientId = true) :
    p.status ≠ .completed := by
  obtain ⟨hs, -⟩ := PairRow.leasedBy_iff.mp h
  simp [hs]

theorem Booked.abandon (i clientId : Int) :
    (abandonPair i clientId).wp (ledger N strict) may
      (fun _ held w s => Booked N strict none held w s) [] id s := by
  unfold abandonPair
  refine Script.wp_bind.mpr (wp_updatePair (fun keys t _ => init.lock keys) fun r t _ hr hleased => ?_)
  refine updatePairs PairRow.release PairRow.release_id (fun _ => rfl) ?_ fun q hq => ?_
  · simp [PairRow.release]
  · obtain rfl : q.id = i := by simpa using hq
    exact ⟨by simp, r, hr, leasedBy_open hleased⟩

/-- A result that is recorded: its pair is completed, and its test recomputed. A verdict that was
given before stands if the row of the test is locked while the test is running. -/
theorem Booked.submit (now : ℚ) (i : Int) (report : RoutedReport)
    (hmay : strict → ∀ held j (t : Db F), may held (.test j) t →
      ∀ x, t.tests.find j = some x → x.status = .running) :
    (submitResult E now i report.toPairReport).wp (ledger E.numerics strict) may
      (fun _ held w s => Booked E.numerics strict none held w s) [] id s := by
  refine wp_submitResult (fun _ keys t _ => init.lock keys) fun p g u t _ hp hr ht => ?_
  obtain rfl : p.id = i := (Table.find_some hp).2
  have hrow : t.jobPairs.find p.id = some p := ht.2.2 (.pair p.id) (by simp) p hp
  have hkept : Booked E.numerics strict (some p.testId) ([.pair p.id, .pair p.id] ++ [])
      (fun db => db.deliver E now p report.toPairReport) t :=
    deliver E now report hrow (leasedBy_open (refusal_eq_none hr).1) (by simp)
  refine hkept.refresh now (fun j hj => (Option.some.inj hj).symm) fun _ hs z hz hm y hy => ?_
  have hrowz : z.jobPairs.find p.id = some p := hz.2.2 (.pair p.id) (by simp) p hrow
  obtain ⟨x, hx⟩ := hz.1.hosted.owned p (Table.find_some hrowz).1
  have hrunning := hmay hs _ _ z hm x hx
  have hcur : ¬x.Retired := fun hret => hret.2 hrunning
  have hx' : y.tests.find p.testId = some x := (hy.2.2 (.test p.testId) (by simp)).1 x hx
  exact ⟨fun r hr => Option.some.inj (hx'.symm.trans hr) ▸ hcur,
    fun r hr => Option.some.inj (hx'.symm.trans hr) ▸ hcur⟩

theorem Booked.recover (now : ℚ) (maxAttempts : Int) :
    (recoverExpiredLeases E now maxAttempts).wp (ledger E.numerics strict) may
      (fun _ held w s => Booked E.numerics strict none held w s) [] id s := by
  refine wp_recoverExpiredLeases (fun got t u _ hgot hu => ?_) fun testId held w s hk => ?_
  · have hkept : Booked E.numerics strict none (got.map Lock.pair ++ []) (fun db => db.updatePairs
        (fun p => decide (p.id ∈ got)) (PairRow.expire maxAttempts) (PairRow.expire_id maxAttempts)) t := by
      refine updatePairs _ _ (fun _ => rfl) (fun r _ => ?_) fun r hr => ?_
      · unfold PairRow.expire
        dsimp only
        split
        · simp
        · simp
      · have hmem : r.id ∈ got := by simpa using hr
        obtain ⟨q, hq, hs⟩ := Db.mem_expired (hgot.subset hmem)
        exact ⟨by simpa using hmem, q, hq, by simp [hs]⟩
    exact hkept.rely hu
  · refine hk.refresh now (fun i hi => ?_) fun hi => ?_
    · cases hi
    · cases hi

theorem Booked.claim (cfg : ServerConfig) (now : ℚ) (clientId slotsFree : Int) :
    (claimPairs cfg now clientId slotsFree).wp (ledger N strict) may
      (fun _ held w s => Booked N strict none held w s) [] id s := by
  refine wp_claimPairs (fun _ _ _ => init) fun a c got _ t u _ hgot hu => ?_
  have hkept : Booked N strict none (got.map Lock.pair ++ []) (fun db => db.updatePairs
      (fun p => decide (p.id ∈ got)) (PairRow.lease clientId now (now + leaseSeconds cfg a c))
      (PairRow.lease_id _ _ _)) t := by
    refine updatePairs _ _ (fun _ => rfl) (fun r _ => by simp [PairRow.lease]) fun r hr => ?_
    have hmem : r.id ∈ got := by simpa using hr
    obtain ⟨q, hq, hs, -⟩ := Db.mem_pendingIds (hgot.subset hmem)
    exact ⟨by simpa using hmem, q, hq, by simp [hs]⟩
  exact hkept.rely hu

theorem Entry.Lawful.judge {u : Db F} {i : Int} {y : TestRow} (hy : y.Timed)
    (hs : y.status = .validating) {status : TestStatus} (vlog : String)
    (hstatus : status = .invalid ∨ (status = .queued ∧ owed = some i)) :
    Lawful strict owed held u i y (y.judge status vlog) := by
  have hstart : y.startedAt = none := hy.early (.inl hs)
  refine ⟨rfl, ⟨fun _ => hstart, ?_⟩, id, hy.not_retired (.inl hs), .inr (by simp [hs]), ?_, ?_⟩
  · rcases hstatus with rfl | ⟨rfl, -⟩
    · simp [TestRow.judge]
    · simp [TestRow.judge]
  · rintro ho (hq | hne)
    · rcases hstatus with rfl | ⟨-, he⟩
      · cases hq
      · exact absurd he ho
    · exact absurd hstart hne
  · rintro - - hfin
    rcases hstatus with rfl | ⟨rfl, -⟩
    · cases hfin
    · cases hfin

/-- The jobs of a test come with its first row of statistics. -/
theorem Booked.smoke (now : ℚ) (job : SmokeJob) (x : Examination) (random : Nat → ℚ) :
    (smokeFinish E now job x random).wp (ledger E.numerics strict) may
      (fun _ held w s => Booked E.numerics strict none held w s) [] id s := by
  have hin : .test job.testId ∈ [Lock.test job.testId] := by simp
  have rows : ∀ {row u z}, u.tests.find job.testId = some row →
      (ledger E.numerics strict).Rely [Lock.test job.testId] u z →
      z.tests.find job.testId = some row := fun hrow hz => (hz.2.2 _ hin).1 _ hrow
  refine wp_smokeFinish (fun _ _ _ _ => init.lock [Lock.test job.testId])
    (fun row vlog t u _ hu hrow hval => ?_) ?_
  · have hkept : Booked E.numerics strict none [Lock.test job.testId] id u := init.lock [_]
    refine hkept.updateTest (.judge .invalid _) (TestRow.judge_id _ _) hin fun z hz y hy => ?_
    cases Option.some.inj (hy.symm.trans (rows hrow hz))
    exact .judge (hu.1.timed job.testId row hrow) hval _ (.inl rfl)
  · intro row fens vlog t u z _ hu hrow hval _ huz
    have htimed : row.Timed := hu.1.timed job.testId row hrow
    have hpositions : Booked E.numerics strict none [Lock.test job.testId]
        (fun db => db.addPositions job.testId fens) z := by
      have hnone : Booked E.numerics strict none [Lock.test job.testId] id z := init.lock [_]
      refine hnone.write (f := fun db => db.addPositions job.testId fens) fun db => ?_
      obtain ⟨_, _, _, _, h, -⟩ := addPositions_spec db job.testId fens
      rw [h]
      exact ⟨rfl, rfl, rfl, rfl, rfl⟩
    have htests : ∀ v, (ledger E.numerics strict).Rely [Lock.test job.testId] z v →
        ((v.addPositions job.testId fens).addPairs job.testId random).tests.find job.testId =
          some row := by
      intro v hv
      rw [tests_addPairs, tests_addPositions]
      exact rows hrow (huz.trans hv)
    have hpairs : Booked E.numerics strict (some job.testId) [Lock.test job.testId]
        (fun db => (db.addPositions job.testId fens).addPairs job.testId random) z := by
      refine hpositions.addPairs random fun v hv => ⟨row, ?_⟩
      rw [tests_addPositions]
      exact rows hrow (huz.trans hv)
    have hqueued : Booked E.numerics strict (some job.testId) [Lock.test job.testId]
        (fun db => db.enqueue job.testId fens random vlog) z := by
      refine hpairs.updateTest (.judge .queued vlog) (TestRow.judge_id _ _) hin fun v hv y hy => ?_
      cases Option.some.inj (hy.symm.trans (htests v hv))
      exact .judge htimed hval _ (.inr ⟨rfl, rfl⟩)
    refine Script.wp_mono (fun _ held w s hk => hk.promote now)
      (hqueued.refresh now (fun j hj => (Option.some.inj hj).symm) fun _ _ v hv _ c hc => ?_)
    have hzc := hv.trans (hc.mono (by simp))
    refine ⟨fun r hr => ?_, fun r hr => ?_⟩
    · obtain ⟨r', hr', ⟨-, rfl⟩ | ⟨hne, -⟩⟩ := Db.of_find_updateTest hr
      · cases Option.some.inj (hr'.symm.trans (htests c hzc))
        exact fun hret => hret.1 (htimed.early (.inl hval))
      · exact absurd rfl hne
    · cases Option.some.inj (hr.symm.trans (rows hrow (huz.trans hzc)))
      exact htimed.not_retired (.inl hval)

theorem Booked.stop (now : ℚ) (testId : Int) :
    (stopTest now testId).wp (ledger N strict) may
      (fun _ held w s => Booked N strict none held w s) [] id s := by
  have hin : .test testId ∈ [Lock.test testId] := by simp
  have stopped : ∀ (u : Db F) row, u.tests.find testId = some row →
      row.status = .validating ∨ row.status = .queued ∨ row.status = .running →
      Booked N strict none [Lock.test testId]
        (fun db => db.updateTest testId (.stop now) (TestRow.stop_id now)) u := by
    intro u row hrow hcur
    have hkept : Booked N strict none [Lock.test testId] id u := init.lock [_]
    refine hkept.updateTest (.stop now) (TestRow.stop_id now) hin fun z hz y hy => ?_
    cases Option.some.inj (hy.symm.trans ((hz.2.2 _ hin).1 row hrow))
    refine ⟨rfl, ⟨by simp [TestRow.stop], by simp [TestRow.stop]⟩, id,
      (hz.1.timed testId _ hy).not_retired hcur, .inr fun _ => ⟨.inr rfl, rfl⟩, ?_,
      by simp [TestRow.stop]⟩
    rintro - (hq | hne)
    · cases hq
    · exact hz.1.opened testId (.inr ⟨_, hy, .inr hne⟩)
  refine wp_stopTest (fun _ _ _ _ _ => init.lock [_]) (fun row t u _ _ hrow hs => ?_)
    fun row t u _ _ hrow hs => ?_
  · refine stopped u row hrow ?_
    rcases hs with hs | hs
    · exact .inl hs
    · exact .inr (.inl hs)
  · exact (stopped u row hrow (.inr (.inr hs))).promote now

theorem Booked.priority (testId priority : Int) :
    (setPriority testId priority).wp (ledger N strict) may
      (fun _ held w s => Booked N strict none held w s) [] id s := by
  have hin : .test testId ∈ [Lock.test testId] := by simp
  refine wp_setPriority (fun _ _ _ _ _ => init.lock [_]) fun row _ t u _ _ hrow hcur => ?_
  have hkept : Booked N strict none [Lock.test testId] id u := init.lock [_]
  refine hkept.updateTest (.prioritise priority) (TestRow.prioritise_id priority) hin
    fun z hz y hy => ?_
  have htimed := hz.1.timed testId y hy
  cases Option.some.inj (hy.symm.trans ((hz.2.2 _ hin).1 row hrow))
  refine ⟨rfl, ⟨htimed.early, htimed.late⟩, id, htimed.not_retired ?_,
    .inr fun h => ⟨h, rfl⟩, fun _ hl => hz.1.opened testId (.inr ⟨_, hy, hl⟩), ?_⟩
  · rcases hcur with h | h
    · exact .inl h
    · exact .inr (.inl h)
  · rintro - - hfin
    rcases hcur with h | h
    · cases h.symm.trans hfin
    · cases h.symm.trans hfin

/-- A new test has empty books. -/
theorem ledger_addTest {db : Db F} (h : db.Ledger N strict) (now : ℚ) {spec : TestSpec}
    (cc bc : String) (hrates : spec.kind = .sprt → ∃ alpha beta, spec.sprtAlpha = some alpha ∧
      spec.sprtBeta = some beta ∧ (0 < alpha.val ∧ alpha.val < 1) ∧ 0 < beta.val ∧ beta.val < 1) :
    (ledger N strict).Guar held db (db.addTest now spec cc bc) := by
  refine ⟨⟨?_, fun i x hx => ?_, fun i x hx => ?_, fun i => ?_, fun i hl => ?_,
      fun hs i x hx hk hfin => ?_⟩,
    fun i => ⟨fun x hx => ⟨x, find_addTest hx, id⟩, fun _ x hx hr => ?_⟩, fun key _ => ?_⟩
  · exact h.hosted.tests rfl rfl fun i x hx => ⟨x, find_addTest hx⟩
  · rcases find_addTest_cases hx with ⟨rfl, rfl⟩ | hx
    · exact ⟨fun _ => rfl, by simp [testRow]⟩
    · exact h.timed i x hx
  · rcases find_addTest_cases hx with ⟨rfl, rfl⟩ | hx
    · exact hrates
    · exact h.rates i x hx
  · exact (h.books i).congr rfl rfl fun x hx => ⟨x, find_addTest hx, rfl⟩
  · refine h.opened i ?_
    rcases hl with hpair | ⟨x, hx, hlive⟩
    · exact .inl hpair
    · rcases find_addTest_cases hx with ⟨rfl, rfl⟩ | hx
      · simp [testRow] at hlive
      · exact .inr ⟨x, hx, hlive⟩
  · rcases find_addTest_cases hx with ⟨rfl, rfl⟩ | hx
    · cases hfin
    · exact h.rated hs i x hx hk hfin
  · exact ⟨x, find_addTest hx, hr, rfl, rfl⟩
  · cases key with
    | test i => exact ⟨fun x hx => find_addTest hx, rfl, rfl, rfl⟩
    | promoted i => trivial
    | pair i => exact fun _ hp => hp
    | promotion =>
      rintro i ⟨x, hx, hrest⟩
      exact ⟨x, find_addTest hx, hrest⟩

/-- Every request keeps the books. -/
theorem guar_request {c : Call} {now : ℚ} (hc : (Activity.request ⟨c, now⟩).regular)
    (hmay : ∀ i report, c = .submit i report → strict → ∀ held j (t : Db F),
      may held (.test j) t → ∀ x, t.tests.find j = some x → x.status = .running) :
    (c.program E now).wp (ledger E.numerics strict) may (fun _ held w s =>
      ∀ t, (ledger E.numerics strict).Rely held s t →
        (ledger E.numerics strict).Guar held t (w t)) [] id s := by
  have hnone : ∀ {s : Db F}, Booked E.numerics strict none [] id s := Booked.init
  have done : ∀ {α : Type} {p : Tx F α} {f : α → Finish Reply},
      p.wp (ledger E.numerics strict) may
        (fun _ held w s => Booked E.numerics strict none held w s) [] id s →
      (f <$> p).wp (ledger E.numerics strict) may (fun _ held w s =>
        ∀ t, (ledger E.numerics strict).Rely held s t →
          (ledger E.numerics strict).Guar held t (w t)) [] id s := by
    intro α p f hp
    exact Script.wp_map.mpr (Script.wp_mono (fun _ _ _ _ hk => hk.guar) hp)
  cases c with
  | create body cc bc =>
    simp only [Call.program]
    cases hspec : parseTestSpec body E.cfg.sprtPresets with
    | error message => exact hnone.guar
    | ok spec =>
      exact Script.wp_map.mpr (wp_insertTest fun _ _ _ u hu =>
        ledger_addTest hu.1 now cc bc (accepted_sprt_rates hspec))
  | smoke => exact hc.elim
  | promote => exact done (hnone.promote now)
  | stop testId => exact done (Booked.stop now testId)
  | setPriority testId priority => exact done (Booked.priority testId priority)
  | register reg =>
    refine done (wp_registerClient fun _ t _ => hnone.write (f := fun db => db.upsertClient reg) ?_)
    intro db
    unfold Db.upsertClient
    split
    · exact ⟨rfl, rfl, rfl, rfl, rfl⟩
    · exact ⟨rfl, rfl, rfl, rfl, rfl⟩
  | heartbeat clientId cpuFactor =>
    refine done ?_
    simp only [heartbeat, Script.update_bind, Script.wp_write, Script.select_bind, Script.wp_query]
    exact fun t _ => hnone.write fun _ => ⟨rfl, rfl, rfl, rfl, rfl⟩
  | ban clientId => exact done (hnone.write fun _ => ⟨rfl, rfl, rfl, rfl, rfl⟩)
  | claim clientId slotsFree => exact done (Booked.claim E.cfg now clientId slotsFree)
  | submit pairId report => exact done (Booked.submit now pairId report (hmay pairId report rfl))
  | abandon pairId clientId => exact done (Booked.abandon pairId clientId)
  | recover => exact done (Booked.recover now E.cfg.maxAttempts)

end Programs

/-- The calls of a run keep the books, if results get the row of their test while it is running
or nobody looks after verdicts. -/
theorem keeps_ledger (E : Env F) {strict : Prop} {D : Discipline Activity (Db F) Lock}
    (hregular : ∀ a, D.calls a → a.regular)
    (hlocks : strict → ∀ i report now held j (t : Db F),
      D.locks (.request ⟨.submit i report, now⟩) held (.test j) t →
        ∀ x, t.tests.find j = some x → x.status = .running) :
    Keeps (ledger E.numerics strict) D (Activity.program E) fun _ _ _ => True := by
  intro a ha s _
  have done : ∀ {p : Tx F (Finish Answer)},
      p.wp (ledger E.numerics strict) (D.locks a) (fun _ held w s =>
        ∀ t, (ledger E.numerics strict).Rely held s t →
          (ledger E.numerics strict).Guar held t (w t)) [] id s →
      p.wp (ledger E.numerics strict) (D.locks a)
        (CommitsTo (ledger E.numerics strict) fun _ _ => True) [] id s :=
    fun hp => Script.wp_mono (fun _ _ _ _ hk _ _ t ht => ⟨hk t ht, trivial⟩) hp
  cases a with
  | request r =>
    obtain ⟨c, now⟩ := r
    refine done (Script.wp_map.mpr (guar_request (hregular _ ha) ?_))
    rintro i report rfl hs held j t hm
    exact hlocks hs i report now held j t hm
  | processNext now x random =>
    refine done ?_
    simp only [Activity.program, processNext, Script.select_bind, Script.wp_query]
    intro t _
    cases (id t).smokeJob with
    | none => exact Booked.init.guar
    | some job =>
      exact Script.wp_map.mpr (Script.wp_mono (fun _ _ _ _ hk => hk.guar)
        (Booked.smoke now job (x job) random))

theorem ledger_empty (N : Numerics F) (strict : Prop) : (Db.empty : Db F).Ledger N strict := by
  refine ⟨.empty, by simp [Db.empty], by simp [Db.empty], fun i => .unopened rfl rfl, fun i hl => ?_, fun _ => ?_⟩
  · rcases hl with ⟨p, hp, -⟩ | ⟨x, hx, -⟩
    · cases hp
    · cases hx
  · simp [Db.Rated, Db.empty]

end CapiNet
