import CapiNet.DiscardedPair
import CapiNet.Failures
import CapiNet.FrozenRows
import CapiNet.Ledger

namespace CapiNet

open Txn Relational

variable {F : Type}

theorem TestRow.terms_of_setup {t u : TestRow} (h : u.setup = t.setup) : u.terms = t.terms := by
  unfold TestRow.setup at h
  simp only [TestSetup.mk.injEq] at h
  simp only [TestRow.terms, h]

variable [LinearOrder F] {E : Env F} {N : Numerics F}

/-- The statistics of every test that has pairs are defined. -/
structure Db.Rateable (N : Numerics F) (db : Db F) : Prop where
  hosted : db.Hosted
  counts : ∀ p ∈ db.jobPairs.rows, ∀ t, db.tests.find p.testId = some t →
    ∃ r, recount N t (db.settled t.id) = .ok r

namespace Db.Rateable

theorem empty : (Db.empty : Db F).Rateable N := ⟨.empty, by simp [Db.empty]⟩

/-- Only the completed pairs of a test count. -/
theorem of_settled {u v : Db F} (h : u.Rateable N) (hosted : v.Hosted)
    (hrows : ∀ p ∈ v.jobPairs.rows, ∃ q ∈ u.jobPairs.rows, q.testId = p.testId)
    (hsettled : ∀ i, v.settled i = u.settled i) (hext : u.Extends v) : v.Rateable N := by
  refine ⟨hosted, fun p hp t ht => ?_⟩
  obtain ⟨q, hq, htest⟩ := hrows p hp
  obtain ⟨x, hx⟩ := h.hosted.owned q hq
  obtain ⟨y, hy, hset⟩ := hext.tests _ x hx
  rw [htest] at hy
  cases Option.some.inj (ht.symm.trans hy)
  obtain ⟨r, hr⟩ := h.counts q hq x hx
  have hid : t.id = x.id := by rw [(Table.find_some ht).2, (Table.find_some hx).2, htest]
  refine ⟨r, ?_⟩
  rw [recount_congr (TestRow.terms_of_setup hset), hsettled, hid]
  exact hr

theorem of_same {u v : Db F} (h : u.Rateable N) (hp : v.jobPairs = u.jobPairs)
    (hg : v.games = u.games) (hext : u.Extends v) : v.Rateable N := by
  have hfind : ∀ i t, u.tests.find i = some t → ∃ t', v.tests.find i = some t' := by
    intro i t ht
    obtain ⟨t', ht', -⟩ := hext.tests i t ht
    exact ⟨t', ht'⟩
  have hcompleted : v.completedPairs = u.completedPairs := by rw [completedPairs, hp]; rfl
  exact h.of_settled (h.hosted.tests hg hp hfind) (fun p hmem => ⟨p, hp ▸ hmem, rfl⟩)
    (settled_congr hcompleted hg) hext

/-- Open pairs that stay open. -/
theorem updatePairs {db : Db F} (h : db.Rateable N) {p : PairRow → Bool} {f : PairRow → PairRow}
    {hf : ∀ r, (f r).id = r.id}
    (htest : ∀ r, (f r).testId = r.testId ∧ (f r).positionId = r.positionId)
    (hopen : ∀ r ∈ db.jobPairs.rows, p r = true → r.status ≠ .completed ∧
      (f r).status ≠ .completed) : (db.updatePairs p f hf).Rateable N := by
  refine h.of_settled (h.hosted.updatePairs (fun r => (htest r).1) fun r hr hpr =>
    (hopen r hr hpr).1) (fun r hr => ?_) (settled_congr (completedPairs_updatePairs hopen) rfl)
    (.updatePairs db p f hf htest)
  obtain ⟨q, hq, rfl⟩ := Db.mem_updatePairs.mp hr
  refine ⟨q, hq, ?_⟩
  split
  · exact (htest q).1.symm
  · rfl

theorem expire {db : Db F} (h : db.Rateable N) (maxAttempts : Int) {expired : List Int}
    (hexp : ∀ i ∈ expired, ∃ p, db.jobPairs.find i = some p ∧ p.status = .leased) :
    (db.expire maxAttempts expired).Rateable N := by
  refine h.updatePairs (fun _ => ⟨rfl, rfl⟩) fun p hp hin => ⟨?_, ?_⟩
  · obtain ⟨q, hq, hs⟩ := hexp p.id (of_decide_eq_true hin)
    rw [Table.find_of_mem hp] at hq
    cases Option.some.inj hq
    simp [hs]
  · unfold PairRow.expire
    dsimp only
    split <;> simp

/-- New pairs count for nothing yet. -/
theorem enqueue {db : Db F} (h : db.Rateable N) {testId : Int} {t : TestRow}
    (ht : db.tests.find testId = some t) (fens : List String) (random : Nat → ℚ) (vlog : String) :
    (db.enqueue testId fens random vlog).Hosted ∧
      ∀ p ∈ (db.enqueue testId fens random vlog).jobPairs.rows, p.testId ≠ testId →
        ∀ u, (db.enqueue testId fens random vlog).tests.find p.testId = some u →
          ∃ r, recount N u ((db.enqueue testId fens random vlog).settled u.id) = .ok r := by
  have hspec := enqueue_spec db testId fens random vlog
  have hext := hspec.extends
  have hpos : (db.addPositions testId fens).Hosted ∧
      (db.addPositions testId fens).completedPairs = db.completedPairs ∧
      (db.addPositions testId fens).jobPairs = db.jobPairs ∧
      (db.addPositions testId fens).tests = db.tests ∧
      (db.addPositions testId fens).games = db.games := by
    obtain ⟨_, _, _, _, heq, -⟩ := addPositions_spec db testId fens
    rw [heq]
    exact ⟨h.hosted.tests rfl rfl fun i x hx => ⟨x, hx⟩, rfl, rfl, rfl, rfl⟩
  obtain ⟨hhosted, hcompleted, hjobs, htests, hgames⟩ := hpos
  have hpairs : ((db.addPositions testId fens).addPairs testId random).Hosted :=
    hhosted.addPairs (by rw [htests]; exact ht)
  have hsettled : ∀ i, (db.enqueue testId fens random vlog).settled i = db.settled i := by
    refine settled_congr ?_ hspec.games
    exact (completedPairs_addPairs _ testId random).trans hcompleted
  refine ⟨hpairs.tests rfl rfl fun i x hx => ?_, fun p hp hne u hu => ?_⟩
  · rcases Db.find_updateTest_cases _ testId (.judge .queued vlog) (TestRow.judge_id _ _) hx with
      ⟨-, hy⟩ | ⟨-, hy⟩
    · exact ⟨_, hy⟩
    · exact ⟨_, hy⟩
  · obtain ⟨new, hrows, -, hnew⟩ := hspec.pairs
    rw [hrows] at hp
    rcases List.mem_append.mp hp with hold | hadded
    · obtain ⟨x, hx⟩ := h.hosted.owned p hold
      obtain ⟨y, hy, hset⟩ := hext.tests _ x hx
      cases Option.some.inj (hu.symm.trans hy)
      obtain ⟨r, hr⟩ := h.counts p hold x hx
      have hid : u.id = x.id := (Table.find_some hu).2.trans (Table.find_some hx).2.symm
      refine ⟨r, ?_⟩
      rw [recount_congr (TestRow.terms_of_setup hset), hsettled, hid]
      exact hr
    · exact absurd (hnew p hadded).2.1 hne

/-- A result counts for its own test. -/
theorem deliver {db : Db F} (h : db.Rateable E.numerics) (now : ℚ) {p : PairRow}
    (report : RoutedReport) (hp : p ∈ db.jobPairs.rows) (hopen : p.status ≠ .completed) :
    ∀ q ∈ (db.deliver E now p report.toPairReport).jobPairs.rows, q.testId ≠ p.testId →
      ∀ t, (db.deliver E now p report.toPairReport).tests.find q.testId = some t →
        ∃ r, recount E.numerics t ((db.deliver E now p report.toPairReport).settled t.id) = .ok r := by
  intro q hq hne t ht
  obtain ⟨x, hx, rfl⟩ := (Db.mem_updatePairs (h := PairRow.complete_id now)).mp hq
  have htest : (if x.id == p.id then x.complete now else x).testId = x.testId := by
    split <;> rfl
  rw [htest] at hne ht
  obtain ⟨r, hr⟩ := h.counts x hx t ht
  have hid : t.id = x.testId := (Table.find_some ht).2
  have hgames := h.hosted.gamesOf_eq_nil hp hopen
  refine ⟨r, ?_⟩
  rw [settled_deliver E now report.toPairReport hp hopen hgames, if_neg (by rw [hid]; exact Ne.symm hne),
    add_zero]
  exact hr

end Db.Rateable

/-- A test that was recomputed can be recomputed. -/
theorem Refreshed.rateable {now : ℚ} {testId : Int} {db db' : Db F}
    (h : Refreshed N now testId db db') (hosted : db.Hosted)
    (hother : ∀ p ∈ db.jobPairs.rows, p.testId ≠ testId → ∀ t, db.tests.find p.testId = some t →
      ∃ r, recount N t (db.settled t.id) = .ok r) : db'.Rateable N := by
  have hall : db.Rateable N := by
    refine ⟨hosted, fun p hp t ht => ?_⟩
    by_cases htest : p.testId = testId
    · rw [htest] at ht
      have hfound : ∀ u r, db.tests.find testId = some u → db.recomputed N u = .ok r →
          ∃ r, recount N t (db.settled t.id) = .ok r := by
        intro u r hu hr
        cases Option.some.inj (ht.symm.trans hu)
        exact ⟨r, by rw [← hosted.keyed.recomputed_eq]; exact hr⟩
      cases h with
      | missing hnone => rw [ht] at hnone; cases hnone
      | kept u r hu hr => exact hfound u r hu hr
      | finished u r _ _ _ hu hr => exact hfound u r hu hr
    · exact hother p hp htest t ht
  exact hall.of_same h.sameQueue.jobPairs h.sameQueue.games h.extends

theorem RefreshedAll.rateable {now : ℚ} {ids : List Int} {db db' : Db F}
    (h : RefreshedAll N now ids db db') (hdb : db.Rateable N) : db'.Rateable N := by
  induction h with
  | nil => exact hdb
  | cons i ids db db₁ db' hstep _ ih =>
    exact ih (hstep.rateable hdb.hosted fun p hp _ => hdb.counts p hp)

theorem Promoted.rateable {now : ℚ} {r : Option Int} {db db' : Db F} (h : Promoted now db r db')
    (hdb : db.Rateable N) : db'.Rateable N :=
  hdb.of_same h.sameQueue.jobPairs h.sameQueue.games h.extends

theorem Effect.rateable {now : ℚ} {skip : Lock → Bool} {db db' : Db F} {c : Call} {r : Reply}
    (h : Effect E now skip db c (.commit r) db') (hdb : db.Rateable E.numerics) :
    db'.Rateable E.numerics := by
  have hext := h.extends
  generalize hout : Finish.commit r = out at h
  cases h with
  | invalidSpec => cases hout
  | create _ _ _ s _ _ _ _ hi hfin =>
    cases hi
    exact hdb.of_same rfl rfl hext
  | smoke job x random _ _ _ hj hfin =>
    subst hfin
    cases hj with
    | late => cases hout
    | invalid => exact hdb.of_same rfl rfl hext
    | queued t fens vlog promoted db₁ _ ht _ _ href hp =>
      have hqueued := hdb.enqueue ht fens random vlog
      exact hp.rateable (href.rateable hqueued.1 hqueued.2)
  | promote _ _ hp => exact hp.rateable hdb
  | stop testId _ _ _ hs hfin =>
    subst hfin
    cases hs with
    | refused => cases hout
    | waiting => exact hdb.of_same rfl rfl hext
    | running _ _ _ _ _ hp =>
      exact hp.rateable (hdb.of_same rfl rfl (.updateTest db testId (.stop now) _ fun _ => rfl))
  | setPriority _ _ _ _ _ hs hfin =>
    subst hfin
    cases hs with
    | refused => cases hout
    | updated => exact hdb.of_same rfl rfl hext
  | register reg =>
    refine hdb.of_same ?_ ?_ hext
    · unfold Db.upsertClient; split <;> rfl
    · unfold Db.upsertClient; split <;> rfl
  | heartbeat => exact hdb.of_same rfl rfl hext
  | ban => exact hdb.of_same rfl rfl hext
  | claim _ _ _ _ _ hs =>
    cases hs with
    | answered => exact hdb
    | leased t _ picked _ _ _ _ hpick hdb' =>
      subst hdb'
      refine hdb.updatePairs (fun _ => ⟨rfl, rfl⟩) fun p hp hin => ⟨?_, by simp [PairRow.lease]⟩
      have hmem : p.id ∈ db.pendingIds t.id := by
        have := of_decide_eq_true hin
        rw [hpick] at this
        exact (Script.mem_unlocked this).1
      obtain ⟨q, hq, hs, -⟩ := Db.mem_pendingIds hmem
      rw [Table.find_of_mem hp] at hq
      cases Option.some.inj hq
      simp [hs]
  | submit _ report _ _ _ hs hfin =>
    subst hfin
    cases hs with
    | unknown => cases hout
    | refused => cases hout
    | accepted p g _ hp _ hpass _ href =>
      obtain ⟨hmem, -⟩ := Table.find_some hp
      have hopen : p.status ≠ .completed := by
        simp [(PairRow.leasedBy_iff.mp (refusal_eq_none hpass).1).1]
      exact href.rateable (hdb.hosted.deliver E now report hmem hopen) (hdb.deliver now report hmem hopen)
  | abandon pairId clientId _ _ _ hs =>
    cases hs with
    | refused => exact hdb
    | released p hp hl =>
      refine hdb.updatePairs (fun _ => ⟨rfl, rfl⟩) fun q hq hid => ⟨?_, by simp [PairRow.release]⟩
      have hqp : q = p := by
        rw [← beq_iff_eq.mp hid, Table.find_of_mem hq] at hp
        exact Option.some.inj hp
      simp [hqp, (PairRow.leasedBy_iff.mp hl).1]
  | recover _ _ _ hs =>
    cases hs with
    | recovered expired _ _ hexp hall =>
      refine hall.rateable (hdb.expire E.cfg.maxAttempts fun i hi => ?_)
      rw [hexp] at hi
      exact Db.mem_expired (Script.mem_unlocked hi).1

theorem run_rateable (E : Env F) (ops : List Op) : (Server.run E ops).db.Rateable E.numerics :=
  Server.db_induction .empty (fun _ _ _ _ _ _ hdb h => h.rateable hdb) ops

/-- A test that has pairs is recomputed without failing. -/
theorem raises_refreshTest_of {skip : Lock → Bool} {now : ℚ} {db : Db F} (h : db.Rateable N)
    {p : PairRow} (hp : p ∈ db.jobPairs.rows) :
    Script.Raises skip (refreshTest N now p.testId) db fun _ => False := by
  simp only [refreshTest, Script.raises_bind, Script.raises_acquire, Script.ensures_acquire,
    Script.raises_select, Script.ensures_select, true_and]
  cases ht : db.tests.find p.testId with
  | none => exact Script.raises_pure
  | some t =>
    obtain ⟨r, hr⟩ := h.counts p hp t ht
    rw [← h.hosted.keyed.recomputed_eq, Db.recomputed, Db.tally_countScores] at hr
    have hid : t.id = p.testId := (Table.find_some ht).2
    rw [hid] at hr
    simp only [Script.raises_bind, Script.raises_select, Script.ensures_select,
      Script.raises_ofExcept, Script.ensures_ofExcept, Script.raises_update, Script.ensures_update,
      true_and, Db.tally_countScores]
    refine ⟨fun e he => (by cases he), fun penta hpenta => ⟨fun e he => ?_, fun r _ => ?_⟩⟩
    · cases hpenta
      cases hr.symm.trans he
    · split
      · exact Script.raises_pure
      · split
        · exact raises_finishTest
        · exact raises_finishTest
        · simp only [Script.raises_bind, Script.raises_select, Script.ensures_select, true_and]
          split
          · exact raises_finishTest
          · exact Script.raises_pure

theorem raises_recover_of {skip : Lock → Bool} {now : ℚ} {maxAttempts : Int} {db : Db F}
    (h : db.Rateable E.numerics) :
    Script.Raises skip (recoverExpiredLeases E now maxAttempts) db fun _ => False := by
  simp only [recoverExpiredLeases, Script.raises_bind, Script.raises_pick, Script.ensures_pick,
    Script.raises_update, Script.ensures_update, Script.raises_select, Script.ensures_select,
    true_and]
  have hleased : ∀ i ∈ Script.unlocked (fun i => skip (.pair i)) none (db.expired now),
      ∃ p, db.jobPairs.find i = some p ∧ p.status = .leased :=
    fun i hi => Db.mem_expired (Script.mem_unlocked hi).1
  have hexpired := h.expire maxAttempts hleased
  refine ⟨Script.raises_forEach (I := fun db' => db'.Rateable E.numerics ∧ db'.jobPairs =
      (db.expire maxAttempts (Script.unlocked (fun i => skip (.pair i)) none
        (db.expired now))).jobPairs) (fun i hi db' hdb' => ?_) ⟨hexpired, rfl⟩,
    fun _ _ _ => Script.raises_pure⟩
  obtain ⟨p, hp, -, -, rfl⟩ := Db.mem_bereft.mp hi
  have hp' : p ∈ db'.jobPairs.rows := by
    rw [hdb'.2]
    exact hp
  refine ⟨raises_refreshTest_of hdb'.1 hp', ensures_refreshTest.mono fun _ db'' hr => ?_⟩
  refine ⟨hr.rateable hdb'.1.hosted fun q hq _ => hdb'.1.counts q hq, ?_⟩
  rw [hr.sameQueue.jobPairs]
  exact hdb'.2

/-- In a run, a recovery always succeeds. -/
theorem run_recovers (E : Env F) (ops : List Op) {op : Op} (hact : op.act = .call .recover) :
    ∃ r, Recovered op.skip E op.now E.cfg.maxAttempts (Server.run E ops).db (.commit r)
      (Server.run E (ops ++ [op])).db := by
  rw [Server.run_snoc]
  have hcall : (Server.run E ops).callOf op.act = some .recover := by rw [hact]; rfl
  rcases (Server.run E ops).step_cases E op with ⟨-, hnone, -⟩ | ⟨c, hc, ⟨-, e, he⟩ |
    ⟨-, r, db', -, heff⟩ | ⟨r, -, heff⟩⟩
  · rw [hcall] at hnone
    cases hnone
  · cases Option.some.inj (hcall.symm.trans hc)
    simp only [Server.reply, hcall, Option.map_some, Option.some.injEq] at he
    exact (Script.Raises.map (raises_recover_of (run_rateable E ops))).atomically he |>.elim
  · cases Option.some.inj (hcall.symm.trans hc)
    generalize hout : Finish.rollback r = out at heff
    cases heff with
    | recover _ _ _ hrec hfin => cases hrec; subst hfin; cases hout
  · cases Option.some.inj (hcall.symm.trans hc)
    generalize hout : Finish.commit r = out at heff
    cases heff with
    | recover fin _ _ hrec hfin =>
      subst hfin
      cases fin with
      | rollback => cases hout
      | commit told => exact ⟨told, hrec⟩

/-- No pair is out. -/
def Db.Home (db : Db F) : Prop := ∀ p ∈ db.jobPairs.rows, p.status ≠ .leased

/-- A recovery when every lease is over ends all of them, and at most finishes a test. -/
theorem recover_late (E : Env F) (ops : List Op) (op : Op) (hact : op.act = .call .recover)
    (hskip : ∀ key, op.skip key = false)
    (hlate : ∀ p ∈ (Server.run E ops).db.jobPairs.rows, ∀ e, p.leaseExpiresAt = some e → e < op.now) :
    ((Server.run E (ops ++ [op])).db.jobPairs.rows =
      (Server.run E ops).db.jobPairs.rows.map fun p =>
        if p.status = .leased then p.expire E.cfg.maxAttempts else p) ∧
    (Server.run E (ops ++ [op])).db.clients = (Server.run E ops).db.clients ∧
    ∀ i t, (Server.run E ops).db.tests.find i = some t → t.status = .running →
      ∃ t', (Server.run E (ops ++ [op])).db.tests.find i = some t' ∧
        (t' = t ∨ t'.status = .finished) := by
  obtain ⟨r, hrec⟩ := run_recovers E ops hact
  have hl := (run_orderly E ops).lifecycle
  have hcoherent := fun p hp => run_coherent E ops (Table.find_of_mem (t := (Server.run E ops).db.jobPairs)
    (r := p) hp)
  generalize (Server.run E (ops ++ [op])).db = db' at hrec ⊢
  cases hrec with
  | recovered expired _ _ hexp hall =>
    have hexpired := hl.expire E.cfg.maxAttempts hexp
    have hin : ∀ p ∈ (Server.run E ops).db.jobPairs.rows, p.id ∈ expired ↔ p.status = .leased := by
      intro p hp
      have hall : expired = (Server.run E ops).db.expired op.now := by
        rw [hexp]
        simp [Script.unlocked, hskip]
      rw [hall]
      constructor
      · intro hi
        obtain ⟨q, hq, hs⟩ := Db.mem_expired hi
        rw [Table.find_of_mem hp] at hq
        cases Option.some.inj hq
        exact hs
      · intro hs
        have hco := hcoherent p hp
        rw [PairRow.Coherent, hs] at hco
        obtain ⟨e, he⟩ := Option.isSome_iff_exists.mp hco.2.2
        exact List.mem_map_of_mem (List.mem_filter.mpr ⟨hp, by simp [hs, he, hlate p hp e he]⟩)
    refine ⟨?_, hall.sameQueue.clients, fun i t ht hrun => ?_⟩
    · rw [hall.sameQueue.jobPairs]
      refine List.map_congr_left fun p hp => ?_
      simp only [hin p hp, decide_eq_true_eq]
    · have hids : ∀ j ∈ ((Server.run E ops).db.expire E.cfg.maxAttempts expired).bereft expired,
          ∀ u, ((Server.run E ops).db.expire E.cfg.maxAttempts expired).tests.find j = some u →
            u.status ≠ .queued := by
        intro j hj u hu
        obtain ⟨p, hp, -, hdis, rfl⟩ := Db.mem_bereft.mp hj
        exact hexpired.not_queued hp (by simp [hdis]) hu
      obtain ⟨t', ht', hm⟩ := hall.find hids (t := t) ht
      refine ⟨t', ht', ?_⟩
      cases hm with
      | stays => exact .inl rfl
      | finished => exact .inr rfl
      | promoted hq => rw [hrun] at hq; cases hq

/-- A claim of one pair leases the first pending one. -/
theorem claim_one (E : Env F) (ops : List Op) (op : Op) {clientId : Int} {c : ClientRow} {t : TestRow}
    (hact : op.act = .call (.claim clientId 1)) (hskip : ∀ key, op.skip key = false)
    (hc : (Server.run E ops).db.caller clientId = some c) (hslots : 1 ≤ c.slots)
    (ht : (Server.run E ops).db.runningTest = some t)
    (hpending : ∃ p ∈ (Server.run E ops).db.pairsOf t.id, p.status = .pending) :
    ∃ q ∈ (Server.run E ops).db.pairsOf t.id, q.status = .pending ∧
      (∃ until_, (Server.run E (ops ++ [op])).db.jobPairs.rows =
        (Server.run E ops).db.jobPairs.rows.map fun p =>
          if p.id = q.id then p.lease clientId op.now until_ else p) ∧
      (Server.run E (ops ++ [op])).db.clients = (Server.run E ops).db.clients ∧
      (Server.run E (ops ++ [op])).db.tests = (Server.run E ops).db.tests := by
  obtain ⟨r, -, hcl⟩ := Server.step_claim E (Server.run E ops) op hact
  rw [← Server.run_snoc] at hcl
  generalize (Server.run E (ops ++ [op])).db = db' at hcl ⊢
  cases hcl with
  | answered _ hnone =>
    rw [ht, hc] at hnone
    rcases hnone with h | h <;> cases h
  | leased t' c' picked _ _ ht' hc' hpick hdb =>
    cases Option.some.inj (ht.symm.trans ht')
    cases Option.some.inj (hc.symm.trans hc')
    have htake : picked = ((Server.run E ops).db.pendingIds t.id).take 1 := by
      have hroom : min (Int.toNat 1) c.slots = 1 := by omega
      rw [hpick, hroom]
      simp [Script.unlocked, hskip]
    cases hids : (Server.run E ops).db.pendingIds t.id with
    | nil =>
      obtain ⟨p, hp, hs⟩ := hpending
      have hlen := congrArg List.length hids
      rw [Db.length_pendingIds] at hlen
      have hpos : 0 < (Server.run E ops).db.countStatus t.id .pending :=
        List.countP_pos_iff.mpr ⟨p, hp, by simp [hs]⟩
      rw [hlen] at hpos
      cases hpos
    | cons j js =>
      have hj : j ∈ (Server.run E ops).db.pendingIds t.id := by rw [hids]; exact List.mem_cons_self
      obtain ⟨q, hq, hs, htest⟩ := Db.mem_pendingIds hj
      obtain ⟨hmem, rfl⟩ := Table.find_some hq
      refine ⟨q, Db.mem_pairsOf.mpr ⟨hmem, htest⟩, hs, ⟨op.now + leaseSeconds E.cfg t c, ?_⟩, ?_, ?_⟩
      · rw [hdb]
        refine List.map_congr_left fun p _ => ?_
        rw [htake, hids]
        simp
      · rw [hdb]
        rfl
      · rw [hdb]
        rfl

/-- How often a pair may still expire. -/
def PairRow.effort (maxAttempts : Int) (p : PairRow) : Nat :=
  if p.open then 1 + (maxAttempts - p.attempts).toNat else 0

def Db.effort (maxAttempts : Int) (db : Db F) (testId : Int) : Nat :=
  ((db.pairsOf testId).map (·.effort maxAttempts)).sum

omit [LinearOrder F] in
theorem PairRow.effort_expire (maxAttempts : Int) (p : PairRow) :
    (p.expire maxAttempts).effort maxAttempts =
      if maxAttempts ≤ p.attempts then 0 else 1 + (maxAttempts - p.attempts).toNat := by
  by_cases h : maxAttempts ≤ p.attempts
  · simp [effort, PairRow.open, expire, h]
  · simp [effort, PairRow.open, expire, h]

omit [LinearOrder F] in
/-- A lease that expires takes an attempt off a pair. -/
theorem effort_lease_expire {p : PairRow} (hp : p.status = .pending) (maxAttempts clientId : Int)
    (now until_ : ℚ) : ((p.lease clientId now until_).expire maxAttempts).effort maxAttempts <
      p.effort maxAttempts := by
  have hbefore : p.effort maxAttempts = 1 + (maxAttempts - p.attempts).toNat := by
    simp [PairRow.effort, PairRow.open, hp]
  have hattempts : (p.lease clientId now until_).attempts = p.attempts + 1 := rfl
  rw [hbefore, PairRow.effort_expire, hattempts]
  split <;> omega

omit [LinearOrder F] in
theorem exists_late (rows : List PairRow) (T : ℚ) :
    ∃ u, T ≤ u ∧ ∀ p ∈ rows, ∀ e, p.leaseExpiresAt = some e → e < u := by
  induction rows with
  | nil => exact ⟨T, le_refl T, by simp⟩
  | cons p rows ih =>
    obtain ⟨u, hT, hu⟩ := ih
    cases he : p.leaseExpiresAt with
    | none =>
      refine ⟨u, hT, fun q hq e hqe => ?_⟩
      rcases List.mem_cons.mp hq with rfl | hq
      · rw [he] at hqe
        cases hqe
      · exact hu q hq e hqe
    | some e =>
      refine ⟨max u (e + 1), le_max_of_le_left hT, fun q hq e' hqe => ?_⟩
      rcases List.mem_cons.mp hq with rfl | hq
      · cases Option.some.inj (he.symm.trans hqe)
        exact lt_max_of_lt_right (lt_add_one e)
      · exact lt_max_of_lt_left (hu q hq e' hqe)

/-- The steps are claims of one pair by a client, and recoveries, one after the other from a time
on. -/
structure Attempts (clientId : Int) (T : ℚ) (ops : List Op) : Prop where
  acts : ∀ op ∈ ops, op.act = .call (.claim clientId 1) ∨ op.act = .call .recover
  times : ∀ op ∈ ops, T ≤ op.now
  ordered : ops.Pairwise fun a b => a.now ≤ b.now

omit [LinearOrder F] in
theorem Attempts.cons {clientId : Int} {T u : ℚ} {op : Op} {ops : List Op}
    (h : Attempts clientId u ops) (hT : T ≤ op.now) (hu : op.now ≤ u)
    (hact : op.act = .call (.claim clientId 1) ∨ op.act = .call .recover) :
    Attempts clientId T (op :: ops) := by
  refine ⟨?_, ?_, List.pairwise_cons.mpr ⟨fun o ho => hu.trans (h.times o ho), h.ordered⟩⟩
  · intro o ho
    rcases List.mem_cons.mp ho with rfl | ho
    · exact hact
    · exact h.acts o ho
  · intro o ho
    rcases List.mem_cons.mp ho with rfl | ho
    · exact hT
    · exact (hT.trans hu).trans (h.times o ho)

/-- The test has come to its end. -/
def Db.Over (db : Db F) (i : Int) : Prop := ∃ t, db.tests.find i = some t ∧ t.status = .finished

/-- A client claims a pair, and its lease expires. -/
def losePair (clientId : Int) (T u : ℚ) : List Op :=
  [{ now := T, act := .call (.claim clientId 1) }, { now := u, act := .call .recover }]

/-- A running test has a pair to give when none is out. -/
theorem run_pending (E : Env F) (ops : List Op) {i : Int} {t : TestRow}
    (ht : (Server.run E ops).db.tests.find i = some t) (hrun : t.status = .running)
    (hhome : (Server.run E ops).db.Home) : (Server.run E ops).db.runningTest = some t ∧
      ∃ p ∈ (Server.run E ops).db.pairsOf t.id, p.status = .pending := by
  have hl := (run_orderly E ops).lifecycle
  generalize (Server.run E ops).db = db at ht hhome hl ⊢
  obtain ⟨hmem, -⟩ := Table.find_some ht
  refine ⟨?_, ?_⟩
  · cases hnow : db.runningTest with
    | none => exact absurd hrun (by simpa using List.find?_eq_none.mp hnow t hmem)
    | some u =>
      obtain ⟨humem, hurun⟩ := Db.runningTest_eq_some hnow
      rw [hl.single t hmem u humem hrun hurun]
  · obtain ⟨hrem, -⟩ := hl.running t hmem hrun (by simp)
    rw [Db.remaining_eq] at hrem
    obtain ⟨p, hp, hopen⟩ := List.countP_pos_iff.mp hrem
    have hnot := hhome p (Db.mem_pairsOf.mp hp).1
    refine ⟨p, hp, ?_⟩
    simpa [PairRow.open, hnot] using hopen

omit [LinearOrder F] in
/-- The effort of a test when one of its pending pairs has expired, and nothing else changed. -/
theorem effort_lt {u v : Db F} {i clientId maxAttempts : Int} {now until_ : ℚ} {q : PairRow}
    (hq : q ∈ u.pairsOf i) (hs : q.status = .pending)
    (hv : v.jobPairs.rows = u.jobPairs.rows.map fun p =>
      if p.id = q.id then (p.lease clientId now until_).expire maxAttempts else p) :
    v.effort maxAttempts i < u.effort maxAttempts i := by
  have hpairs : v.pairsOf i = (u.pairsOf i).map fun p =>
      if p.id = q.id then (p.lease clientId now until_).expire maxAttempts else p := by
    unfold Db.pairsOf
    rw [hv, List.filter_map]
    refine congrArg _ (List.filter_congr fun p _ => ?_)
    rw [Function.comp_apply]
    split <;> rfl
  have hkey : ∀ p ∈ u.pairsOf i, p.id = q.id → p = q := fun p hp hid =>
    Table.eq_of_mem_of_key (Db.mem_pairsOf.mp hp).1 (Db.mem_pairsOf.mp hq).1 hid
  unfold Db.effort
  rw [hpairs, List.map_map]
  refine List.sum_lt_sum _ _ (fun p hp => ?_) ⟨q, hq, ?_⟩
  · rw [Function.comp_apply]
    split
    next hid =>
      rw [hkey p hp hid]
      exact (effort_lease_expire hs maxAttempts clientId now until_).le
    next => exact le_refl _
  · rw [Function.comp_apply, if_pos rfl]
    exact effort_lease_expire hs maxAttempts clientId now until_

/-- A claim whose lease expires takes an attempt off the running test, or ends it. -/
theorem run_losePair (E : Env F) (ops : List Op) {i clientId : Int} {t : TestRow} {c : ClientRow}
    (ht : (Server.run E ops).db.tests.find i = some t) (hrun : t.status = .running)
    (hc : (Server.run E ops).db.caller clientId = some c) (hslots : 1 ≤ c.slots)
    (hhome : (Server.run E ops).db.Home) (T : ℚ) :
    ∃ u, T ≤ u ∧ (Server.run E (ops ++ losePair clientId T u)).db.Home ∧
      (Server.run E (ops ++ losePair clientId T u)).db.caller clientId = some c ∧
      ((Server.run E (ops ++ losePair clientId T u)).db.Over i ∨
        ((Server.run E (ops ++ losePair clientId T u)).db.tests.find i = some t ∧
          (Server.run E (ops ++ losePair clientId T u)).db.effort E.cfg.maxAttempts i <
            (Server.run E ops).db.effort E.cfg.maxAttempts i)) := by
  obtain ⟨hnow, hpending⟩ := run_pending E ops ht hrun hhome
  obtain rfl : t.id = i := (Table.find_some ht).2
  obtain ⟨q, hq, hs, ⟨until_, hrows⟩, hclients, htests⟩ :=
    claim_one E ops { now := T, act := .call (.claim clientId 1) } rfl (fun _ => rfl) hc
      hslots hnow hpending
  obtain ⟨u, hT, hlate⟩ := exists_late
    (Server.run E (ops ++ [{ now := T, act := .call (.claim clientId 1) }])).db.jobPairs.rows T
  obtain ⟨hrows', hclients', htests'⟩ := recover_late E
    (ops ++ [{ now := T, act := .call (.claim clientId 1) }])
    { now := u, act := .call .recover } rfl (fun _ => rfl) hlate
  have happ : (ops ++ [{ now := T, act := .call (.claim clientId 1) }]) ++
      [{ now := u, act := .call .recover }] = ops ++ losePair clientId T u := by
    simp [losePair]
  rw [happ] at hrows' hclients' htests'
  -- only the claimed pair was out
  have hall : (Server.run E (ops ++ losePair clientId T u)).db.jobPairs.rows =
      (Server.run E ops).db.jobPairs.rows.map fun p => if p.id = q.id then
        (p.lease clientId T until_).expire E.cfg.maxAttempts else p := by
    rw [hrows', hrows, List.map_map]
    refine List.map_congr_left fun p hp => ?_
    rw [Function.comp_apply]
    by_cases hid : p.id = q.id
    · simp only [if_pos hid, PairRow.lease, if_true]
    · rw [if_neg hid, if_neg (hhome p hp), if_neg hid]
  refine ⟨u, hT, fun p hp => ?_, ?_, ?_⟩
  · rw [hrows'] at hp
    obtain ⟨r, -, rfl⟩ := List.mem_map.mp hp
    split
    next => exact r.status_expire E.cfg.maxAttempts
    next h => exact h
  · unfold Db.caller at hc ⊢
    rw [hclients', hclients]
    exact hc
  · obtain ⟨t', ht', rfl | hover⟩ := htests' t.id t (by rw [htests]; exact ht) hrun
    · exact .inr ⟨ht', effort_lt hq hs hall⟩
    · exact .inl ⟨t', ht', hover⟩

/-- By induction on the effort that is left. -/
theorem run_attempts_end (E : Env F) {i clientId : Int} {t : TestRow} {c : ClientRow}
    (hrun : t.status = .running) (hslots : 1 ≤ c.slots) (n : Nat) : ∀ (ops : List Op) (T : ℚ),
    (Server.run E ops).db.tests.find i = some t →
    (Server.run E ops).db.caller clientId = some c → (Server.run E ops).db.Home →
    (Server.run E ops).db.effort E.cfg.maxAttempts i = n →
    ∃ more, Attempts clientId T more ∧ (Server.run E (ops ++ more)).db.Over i := by
  induction n using Nat.strong_induction_on with
  | _ n ih =>
    rintro ops T ht hc hhome rfl
    obtain ⟨u, hT, hhome', hc', hover | ⟨ht', hlt⟩⟩ := run_losePair E ops ht hrun hc hslots hhome T
    · refine ⟨losePair clientId T u, ?_, hover⟩
      have hnil : Attempts clientId u [] := ⟨by simp, by simp, .nil⟩
      exact (hnil.cons (le_refl u) (le_refl u) (.inr rfl)).cons (le_refl T) hT (.inl rfl)
    · obtain ⟨more, hmore, hover⟩ := ih _ hlt (ops ++ losePair clientId T u) u ht' hc' hhome' rfl
      refine ⟨losePair clientId T u ++ more, ?_, by rw [← List.append_assoc]; exact hover⟩
      exact (hmore.cons (le_refl u) (le_refl u) (.inr rfl)).cons (le_refl T) hT (.inl rfl)

/-- Whatever has happened to a running test, one client that claims its pairs brings it to its end,
even if each of its leases expires. -/
theorem test_can_end (E : Env F) (ops : List Op) (i clientId : Int) (t : TestRow) (c : ClientRow)
    (ht : (Server.run E ops).db.tests.find i = some t) (hrun : t.status = .running)
    (hc : (Server.run E ops).db.caller clientId = some c) (hslots : 1 ≤ c.slots) (T : ℚ) :
    ∃ more, Attempts clientId T more ∧ (Server.run E (ops ++ more)).db.Over i := by
  obtain ⟨u, hT, hlate⟩ := exists_late (Server.run E ops).db.jobPairs.rows T
  obtain ⟨hrows, hclients, htests⟩ := recover_late E ops { now := u, act := .call .recover }
    rfl (fun _ => rfl) hlate
  have hhome : (Server.run E (ops ++ [{ now := u, act := .call .recover }])).db.Home := by
    intro p hp
    rw [hrows] at hp
    obtain ⟨r, -, rfl⟩ := List.mem_map.mp hp
    split
    next => exact r.status_expire E.cfg.maxAttempts
    next h => exact h
  have hc' : (Server.run E (ops ++ [{ now := u, act := .call .recover }])).db.caller clientId =
      some c := by
    unfold Db.caller at hc ⊢
    rw [hclients]
    exact hc
  obtain ⟨t', ht', rfl | hover⟩ := htests i t ht hrun
  · obtain ⟨more, hmore, hover⟩ := run_attempts_end E hrun hslots _
      (ops ++ [{ now := u, act := .call .recover }]) u ht' hc' hhome rfl
    refine ⟨{ now := u, act := .call .recover } :: more, hmore.cons hT (le_refl u) (.inr rfl), ?_⟩
    rw [List.append_assoc] at hover
    exact hover
  · refine ⟨[{ now := u, act := .call .recover }], ?_, t', ht', hover⟩
    exact (⟨by simp, by simp, .nil⟩ : Attempts clientId u []).cons hT (le_refl u) (.inr rfl)

/-- Two pairs have just become available. -/
theorem test_can_end_opening :
    ∃ more, Attempts 1 5 more ∧ (Server.run realEnv (opening 2 ++ more)).db.Over 1 := by
  have hany : ((Server.run realEnv (opening 2)).db.tests.find 1).any (·.status == .running) = true := by
    decide +kernel
  have hcaller : ((Server.run realEnv (opening 2)).db.caller 1).any (1 ≤ ·.slots) = true := by
    decide +kernel
  obtain ⟨t, ht, hrun⟩ := (Option.any_eq_true _ _).mp hany
  obtain ⟨c, hc, hslots⟩ := (Option.any_eq_true _ _).mp hcaller
  exact test_can_end realEnv (opening 2) 1 1 t c ht (by simpa using hrun) hc (by simpa using hslots) 5

/-- The leases a pair may lose. -/
def ServerConfig.patience (cfg : ServerConfig) : Nat := max cfg.maxAttempts.toNat 1

/-- A pair that is not discarded may lose one more lease. -/
def PairRow.chance (p : PairRow) : Nat := if p.status = .discarded then 0 else 1

theorem PairMove.expiries {s : Server F} {op : Op} {i : Int} {o o' : Option PairRow} {n : Nat}
    (h : PairMove E s op i o o') (ho : s.db.jobPairs.find i = o)
    (ho' : (s.step E op).db.jobPairs.find i = o')
    (hn : n + o.elim 1 (·.chance) ≤ E.cfg.patience)
    (hended : n + o.elim 0 (·.held) ≤ o.elim 0 (·.attempts)) :
    n + (s.expires E op i).toNat + o'.elim 1 (·.chance) ≤ E.cfg.patience := by
  have elsewhere : ∀ c, op.act = .call c → c ≠ .recover → s.expires E op i = false := by
    intro c hact hne
    refine Server.expires_eq_false fun h => hne ?_
    rw [hact] at h
    injection h
  cases h with
  | same =>
    have hexp : s.expires E op i = false := by
      unfold Server.expires Db.isLeased
      split
      next => rw [ho, ho']; cases Option.any (fun p : PairRow => p.status == .leased) o <;> rfl
      next => rfl
    simpa [hexp] using hn
  | born p hf =>
    have hexp : s.expires E op i = false := by
      unfold Server.expires Db.isLeased
      split
      next => rw [ho]; rfl
      next => rfl
    simpa [hexp, PairRow.chance, hf.1] using hn
  | leased p t clientId slotsFree until_ hact _ hs =>
    simpa [elsewhere _ hact (by simp), PairRow.chance, PairRow.lease, hs] using hn
  | completed p report ha hl =>
    have hs := (PairRow.leasedBy_iff.mp hl).1
    simpa [elsewhere _ ha.1 (by simp), PairRow.chance, PairRow.complete, hs] using hn
  | released p clientId hr hl =>
    have hs := (PairRow.leasedBy_iff.mp hl).1
    simpa [elsewhere _ hr.1 (by simp), PairRow.chance, PairRow.release, hs] using hn
  | expired p hact hl =>
    have hone : (s.expires E op i).toNat ≤ 1 := Bool.toNat_le _
    have hchance : p.chance = 1 := by simp [PairRow.chance, hl]
    have hheld : p.held = 1 := by simp [PairRow.held, hl]
    simp only [Option.elim_some, hchance, hheld] at hn hended ⊢
    by_cases hmax : E.cfg.maxAttempts ≤ p.attempts
    · have hzero : (p.expire E.cfg.maxAttempts).chance = 0 := by
        simp [PairRow.chance, PairRow.expire, hmax]
      omega
    · -- the attempts are not used up, and an attempt is over with each expiry
      have hafter : (p.expire E.cfg.maxAttempts).chance = 1 := by
        simp [PairRow.chance, PairRow.expire, hmax]
      have hroom : p.attempts < E.cfg.patience := lt_max_of_lt_left (by omega)
      omega

theorem run_expiries (E : Env F) (ops : List Op) (i : Int) :
    Server.expiries E i ops + ((Server.run E ops).db.jobPairs.find i).elim 1 (·.chance) ≤
      E.cfg.patience := by
  induction ops using List.reverseRecOn with
  | nil => exact le_max_right _ _
  | append_singleton ops op ih =>
    have hended := run_attempts_ended E ops i
    rw [Server.expiries_snoc]
    exact (run_step_pair E ops op i).expiries rfl (by rw [Server.run_snoc]) ih (by omega)

/-- The pairs of a test are leased only so often: but for the leases that are given back, at most
`max_attempts` times each. -/
theorem leases_bounded (E : Env F) (ops : List Op) (testId : Int) :
    (((Server.run E ops).db.pairsOf testId).map fun p => Server.claimCount E p.id .init ops).sum ≤
      (((Server.run E ops).db.pairsOf testId).map fun p => Server.returns E p.id ops).sum +
        ((Server.run E ops).db.pairsOf testId).length * E.cfg.patience := by
  have hone : ∀ p ∈ (Server.run E ops).db.pairsOf testId,
      Server.claimCount E p.id .init ops ≤ Server.returns E p.id ops + E.cfg.patience := by
    intro p hp
    have hfind := Table.find_of_mem (Db.mem_pairsOf.mp hp).1
    have hattempts := run_attempts E ops p.id
    have hended := run_attempts_ended E ops p.id
    have hexpiries := run_expiries E ops p.id
    rw [hfind] at hattempts hended hexpiries
    simp only [Option.elim_some] at hattempts hended hexpiries
    have hheld : p.held ≤ p.chance := by
      unfold PairRow.held PairRow.chance
      cases p.status <;> simp
    omega
  refine (List.sum_le_sum hone).trans (le_of_eq ?_)
  rw [List.sum_map_add, List.map_const', List.sum_replicate, smul_eq_mul]

end CapiNet
