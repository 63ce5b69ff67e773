import CapiNet.TestInvariant

namespace CapiNet

open Txn Relational

variable {F : Type}

/-- The pairs of a test after an update of pairs that stay with their tests. -/
theorem Db.pairsOf_updatePairs (db : Db F) (p : PairRow → Bool) (f : PairRow → PairRow)
    (h : ∀ r, (f r).id = r.id) (ht : ∀ r, (f r).testId = r.testId) (i : Int) :
    (db.updatePairs p f h).pairsOf i = (db.pairsOf i).map fun r => if p r then f r else r := by
  have htest : ∀ r, (if p r then f r else r).testId = r.testId := by
    intro r
    split
    · exact ht r
    · rfl
  simp only [Db.pairsOf, Db.updatePairs, Table.rows_modify, List.filter_map]
  congr 1
  refine List.filter_congr fun r _ => ?_
  simp only [Function.comp, htest]

variable [LinearOrder F]

/-- An update of pairs whose tests are not queued; tests that lose an open pair become due. -/
theorem Db.Lifecycle.updatePairs {db : Db F} {due : List Int} (h : db.Lifecycle [])
    {p : PairRow → Bool} {f : PairRow → PairRow} {hid : ∀ r, (f r).id = r.id}
    (htest : ∀ r, (f r).testId = r.testId)
    (hbusy : ∀ r ∈ db.jobPairs.rows, p r = true → ∀ t, db.tests.find r.testId = some t →
      t.status ≠ .queued)
    (hopen : ∀ r ∈ db.jobPairs.rows, p r = true → r.testId ∉ due → (f r).open = r.open) :
    (db.updatePairs p f hid).Lifecycle due := by
  have hpairs := db.pairsOf_updatePairs p f hid htest
  refine ⟨?_, h.opened, h.demands, h.single, ?_, ?_, ?_⟩
  · intro q hq
    obtain ⟨r, hr, rfl⟩ := Db.mem_updatePairs.mp hq
    have heq : (if p r then f r else r).testId = r.testId := by
      split
      · exact htest r
      · rfl
    rw [heq]
    exact h.placed r hr
  · intro t ht hs
    have hsame : (db.updatePairs p f hid).pairsOf t.id = db.pairsOf t.id := by
      rw [hpairs]
      refine (List.map_congr_left fun r hr => ?_).trans (List.map_id _)
      obtain ⟨hrow, hrt⟩ := Db.mem_pairsOf.mp hr
      have hn : ¬p r = true := fun hp =>
        hbusy r hrow hp t (by rw [hrt]; exact Table.find_of_mem ht) hs
      simp [hn]
    rw [hsame]
    exact h.queued t ht hs
  · exact fun t ht hs _ => h.unplayed t ht hs (by simp)
  · intro t ht hs hd
    obtain ⟨hrem, hund⟩ := h.running t ht hs (by simp)
    refine ⟨?_, hund⟩
    have hsame : (db.updatePairs p f hid).remaining t.id = db.remaining t.id := by
      rw [Db.remaining_eq, Db.remaining_eq, hpairs, List.countP_map]
      refine List.countP_congr fun r hr => ?_
      obtain ⟨hrow, hrt⟩ := Db.mem_pairsOf.mp hr
      simp only [Function.comp]
      split
      next hp => rw [hopen r hrow hp (by rw [hrt]; exact hd)]
      next => rfl
    rw [hsame]
    exact hrem

/-- The test of a pair that was claimed once is not queued. -/
theorem Db.Lifecycle.not_queued {db : Db F} {due : List Int} (h : db.Lifecycle due) {p : PairRow}
    (hp : p ∈ db.jobPairs.rows) (hs : p.status ≠ .pending) {t : TestRow}
    (ht : db.tests.find p.testId = some t) : t.status ≠ .queued := by
  intro hq
  obtain ⟨hmem, hid⟩ := Table.find_some ht
  exact hs ((h.queued t hmem hq).2 p (Db.mem_pairsOf.mpr ⟨hp, hid.symm⟩)).1

theorem filter_append_of_new {α : Type} {p : α → Bool} {old new : List α}
    (hold : ∀ x ∈ old, p x = false) (hnew : ∀ x ∈ new, p x = true) :
    (old ++ new).filter p = new := by
  have hnil : old.filter p = [] := List.filter_eq_nil_iff.mpr fun x hx => by simp [hold x hx]
  rw [List.filter_append, hnil, List.filter_eq_self.mpr hnew, List.nil_append]

/-- Queueing an examined test; its statistics are due. -/
theorem Enqueued.lifecycle {db db' : Db F} {testId : Int} {fens : List String} {vlog : String}
    (he : Enqueued db testId fens vlog db') (h : db.Lifecycle []) {t : TestRow}
    (ht : db.tests.find testId = some t) (hv : t.status = .validating)
    (hlen : (fens.length : Int) = t.totalPairs) : db'.Lifecycle [testId] := by
  obtain ⟨hmem, rfl⟩ := Table.find_some ht
  have htests : db'.tests = (db.updateTest t.id (.judge .queued vlog)
      (TestRow.judge_id .queued vlog)).tests := he.tests
  obtain ⟨ops, hops, holen, hotest⟩ := he.positions
  obtain ⟨new, hnew, hnlen, hnall⟩ := he.pairs
  have unplaced : ∀ p ∈ db.jobPairs.rows, p.testId ≠ t.id := by
    intro p hp heq
    obtain ⟨u, hu, hus⟩ := h.placed p hp
    rw [heq, ht] at hu
    exact hus (Option.some.inj hu ▸ hv)
  have unopened : ∀ o ∈ db.positions.rows, o.testId ≠ t.id := by
    intro o ho heq
    obtain ⟨u, hu, hus⟩ := h.opened o ho
    rw [heq, ht] at hu
    exact hus (Option.some.inj hu ▸ hv)
  have known : ∀ i, (∃ u, db.tests.find i = some u ∧ u.status ≠ .validating) →
      ∃ u, db'.tests.find i = some u ∧ u.status ≠ .validating := by
    intro i hi
    rw [htests]
    exact known_updateTest (fun _ _ _ => by simp [TestRow.judge]) hi
  have own : ∃ u, db'.tests.find t.id = some u ∧ u.status ≠ .validating := by
    rw [htests, Db.find_updateTest, ht]
    exact ⟨_, rfl, by simp [TestRow.judge]⟩
  have others : ∀ u ∈ db'.tests.rows, u = t.judge .queued vlog ∨ (u ∈ db.tests.rows ∧ u.id ≠ t.id) := by
    intro u hu
    rw [htests] at hu
    obtain ⟨r, hr, -, ⟨hi, rfl⟩ | ⟨hi, rfl⟩⟩ := mem_updateTest hu
    · exact .inl (by rw [Table.eq_of_mem_of_key hr hmem hi])
    · exact .inr ⟨hr, hi⟩
  have hpairs : ∀ i, i ≠ t.id → db'.pairsOf i = db.pairsOf i := by
    intro i hi
    have hnil : new.filter (·.testId == i) = [] := by
      refine List.filter_eq_nil_iff.mpr fun p hp => ?_
      simp [(hnall p hp).2.1, Ne.symm hi]
    rw [Db.pairsOf, hnew, List.filter_append, hnil, List.append_nil]
    rfl
  have hown : db'.pairsOf t.id = new := by
    rw [Db.pairsOf, hnew]
    refine filter_append_of_new (fun p hp => ?_) fun p hp => ?_
    · simpa using unplaced p hp
    · simp [(hnall p hp).2.1]
  have hownops : db'.positionsOf t.id = ops := by
    rw [Db.positionsOf, hops]
    refine filter_append_of_new (fun o ho => ?_) fun o ho => ?_
    · simpa using unopened o ho
    · simp [hotest o ho]
  refine ⟨?_, ?_, ?_, ?_, ?_, ?_, ?_⟩
  · intro p hp
    rw [hnew] at hp
    rcases List.mem_append.mp hp with hp | hp
    · exact known _ (h.placed p hp)
    · rw [(hnall p hp).2.1]
      exact own
  · intro o ho
    rw [hops] at ho
    rcases List.mem_append.mp ho with ho | ho
    · exact known _ (h.opened o ho)
    · rw [hotest o ho]
      exact own
  · intro u hu
    rcases others u hu with rfl | ⟨hu, -⟩
    · exact h.demands t hmem
    · exact h.demands u hu
  · intro u hu v hv hus hvs
    rcases others u hu with rfl | ⟨hu, -⟩
    · cases hus
    · rcases others v hv with rfl | ⟨hv, -⟩
      · cases hvs
      · exact h.single u hu v hv hus hvs
  · intro u hu hus
    rcases others u hu with rfl | ⟨hu, hne⟩
    · change ((db'.pairsOf t.id).length : Int) = t.totalPairs ∧ ∀ p ∈ db'.pairsOf t.id, _
      rw [hown]
      refine ⟨by rw [hnlen, hownops, holen, hlen], fun p hp => ?_⟩
      exact ⟨(hnall p hp).1.1, (hnall p hp).1.2.1⟩
    · rw [hpairs _ hne]
      exact h.queued u hu hus
  · intro u hu hus hd
    rcases others u hu with rfl | ⟨hu, -⟩
    · simp at hd
    · rw [he.testStats]
      exact h.unplayed u hu hus (by simp)
  · intro u hu hus hd
    rcases others u hu with rfl | ⟨hu, hne⟩
    · cases hus
    · obtain ⟨hrem, hund⟩ := h.running u hu hus (by simp)
      refine ⟨by rw [Db.remaining_eq, hpairs _ hne, ← Db.remaining_eq]; exact hrem, ?_⟩
      unfold Db.Undecided
      rw [he.testStats]
      exact hund

/-- An examination that passed gives as many positions as the test asks for. -/
theorem SmokeJob.length_examine {job : SmokeJob} {x : Examination} {fens : List String}
    (h : (job.examine x).2 = some fens) : fens.length = job.totalPairs.toNat := by
  unfold examine at h
  split at h
  next => cases h
  next => cases h
  next =>
    split at h
    next => cases h
    next =>
      dsimp only at h
      split at h
      next => cases h
      next lines _ hn =>
        cases Option.some.inj h
        rw [length_sampleBook] at hn ⊢
        omega

variable {E : Env F}

theorem parseTestSpec_totalPairs {body : Json} {presets : SprtPresets} {s : TestSpec}
    (h : parseTestSpec body presets = .ok s) : 1 ≤ s.totalPairs := by
  obtain ⟨⟨pairs, hp, heq⟩, -⟩ := parseTestSpec_ok h
  have hrange := parseTotalPairs_range hp
  omega

omit [LinearOrder F] in
theorem Db.Served.congr {db db' : Db F} (h : db.Served) (ht : db'.tests = db.tests) :
    db'.Served := by
  unfold Db.Served
  rw [ht]
  exact h

omit [LinearOrder F] in
theorem Db.runningTest_eq_some {db : Db F} {t : TestRow} (h : db.runningTest = some t) :
    t ∈ db.tests.rows ∧ t.status = .running :=
  ⟨List.mem_of_find?_eq_some h, by simpa using List.find?_some h⟩

theorem Claimed.lifecycle {skip : Lock → Bool} {now : ℚ} {clientId slotsFree : Int}
    {db db' : Db F} {r : Finish ClaimResult}
    (h : Claimed skip E.cfg now clientId slotsFree db r db') (hl : db.Lifecycle []) :
    db'.Lifecycle [] := by
  cases h with
  | answered => exact hl
  | leased t c picked _ _ ht _ hpick hdb =>
    subst hdb
    obtain ⟨-, hrun⟩ := Db.runningTest_eq_some ht
    have cand : ∀ p ∈ db.jobPairs.rows, decide (p.id ∈ picked) = true →
        p.status = .pending ∧ p.testId = t.id := by
      intro p hp hm
      have hmem : p.id ∈ picked := of_decide_eq_true hm
      rw [hpick] at hmem
      obtain ⟨q, hq, hs, hqt⟩ := Db.mem_pendingIds (Script.mem_unlocked hmem).1
      cases Option.some.inj ((Table.find_of_mem hp).symm.trans hq)
      exact ⟨hs, hqt⟩
    refine hl.updatePairs (fun _ => rfl) ?_ ?_
    · intro p hp hm u hu
      obtain ⟨humem, huid⟩ := Table.find_some hu
      have heq : u = t := Table.eq_of_mem_of_key humem (Db.runningTest_eq_some ht).1
        (huid.trans (cand p hp hm).2)
      rw [heq, hrun]
      simp
    · intro p hp hm _
      simp [PairRow.open, PairRow.lease, (cand p hp hm).1]

theorem Submitted.lifecycle {now : ℚ} {i : Int} {report : PairReport} {db db' : Db F}
    {r : SubmitResult} (h : Submitted E now i report db (.commit r) db')
    (hl : db.Lifecycle []) (hs : db.Served) : db'.Lifecycle [] ∧ db'.Served := by
  cases h with
  | accepted p g _ hp hg hnone _ href =>
    have hleased : p.status = .leased := (PairRow.leasedBy_iff.mp (refusal_eq_none hnone).1).1
    have hmem : p ∈ db.jobPairs.rows := (Table.find_some hp).1
    have only : ∀ q ∈ db.jobPairs.rows, (q.id == p.id) = true → q = p :=
      fun q hq hid => Table.eq_of_mem_of_key hq hmem (by simpa using hid)
    have hupd : (db.updatePairs (·.id == p.id) (.complete now)
        (PairRow.complete_id now)).Lifecycle [p.testId] := by
      refine hl.updatePairs (fun _ => rfl) ?_ ?_
      · intro q hq hid t ht
        rw [only q hq hid] at ht
        exact hl.not_queued hmem (by simp [hleased]) ht
      · intro q hq hid hd
        rw [only q hq hid] at hd
        simp at hd
    have hdel : (db.deliver E now p report).Lifecycle [p.testId] := hupd.congr rfl rfl rfl rfl
    exact ⟨href.lifecycle hdel, href.served hdel (hs.congr rfl)⟩

theorem Abandoned.lifecycle {i clientId : Int} {db db' : Db F} {r : Finish Bool}
    (h : Abandoned i clientId db r db') (hl : db.Lifecycle []) : db'.Lifecycle [] := by
  cases h with
  | refused => exact hl
  | released p hp hle =>
    have hleased : p.status = .leased := (PairRow.leasedBy_iff.mp hle).1
    obtain ⟨hmem, hpid⟩ := Table.find_some hp
    have only : ∀ q ∈ db.jobPairs.rows, (q.id == i) = true → q = p :=
      fun q hq hid => Table.eq_of_mem_of_key hq hmem (by rw [hpid]; simpa using hid)
    refine hl.updatePairs (fun _ => rfl) ?_ ?_
    · intro q hq hid t ht
      rw [only q hq hid] at ht
      exact hl.not_queued hmem (by simp [hleased]) ht
    · intro q hq hid _
      rw [only q hq hid]
      simp [PairRow.open, PairRow.release, hleased]

omit [LinearOrder F] in
/-- An expired pair was leased. -/
theorem leased_of_expired {skip : Lock → Bool} {now : ℚ} {db : Db F} {p : PairRow}
    (hp : p ∈ db.jobPairs.rows)
    (hm : p.id ∈ Script.unlocked (fun i => skip (.pair i)) none (db.expired now)) :
    p.status = .leased := by
  obtain ⟨q, hq, hs⟩ := Db.mem_expired (Script.mem_unlocked hm).1
  cases Option.some.inj ((Table.find_of_mem hp).symm.trans hq)
  exact hs

omit [LinearOrder F] in
/-- A test that lost a pair has one that is discarded. -/
theorem Db.mem_bereft {db : Db F} {expired : List Int} {i : Int} :
    i ∈ db.bereft expired ↔
      ∃ p ∈ db.jobPairs.rows, p.id ∈ expired ∧ p.status = .discarded ∧ p.testId = i := by
  simp only [bereft, List.mem_insertionSort, List.mem_dedup, List.mem_map, List.mem_filter,
    decide_eq_true_eq, beq_iff_eq, and_assoc]

/-- Ending leases leaves the tests that lost a pair due. -/
theorem Db.Lifecycle.expire {db : Db F} (hl : db.Lifecycle []) {skip : Lock → Bool} {now : ℚ}
    {expired : List Int} (maxAttempts : Int)
    (hexp : expired = Script.unlocked (fun i => skip (.pair i)) none (db.expired now)) :
    (db.expire maxAttempts expired).Lifecycle ((db.expire maxAttempts expired).bereft expired) := by
  have leased : ∀ p ∈ db.jobPairs.rows, decide (p.id ∈ expired) = true → p.status = .leased := by
    intro p hp hm
    have hmem : p.id ∈ expired := of_decide_eq_true hm
    rw [hexp] at hmem
    exact leased_of_expired hp hmem
  refine hl.updatePairs (fun _ => rfl) ?_ ?_
  · intro p hp hm t ht
    exact hl.not_queued hp (by simp [leased p hp hm]) ht
  · intro p hp hm hd
    by_cases hlost : maxAttempts ≤ p.attempts
    · refine absurd (Db.mem_bereft.mpr ⟨p.expire maxAttempts, ?_, ?_, ?_, rfl⟩) hd
      · refine Db.mem_updatePairs.mpr ⟨p, hp, ?_⟩
        simp [hm]
      · simpa using hm
      · simp [PairRow.expire, hlost]
    · simp [PairRow.open, PairRow.expire, hlost, leased p hp hm]

/-- Every transaction keeps the lifecycle; the smoke worker's asks for as many positions as the
test does. -/
theorem Effect.lifecycle {now : ℚ} {skip : Lock → Bool} {db db' : Db F} {c : Call} {r : Reply}
    (h : Effect E now skip db c (.commit r) db') (hl : db.Lifecycle []) (hs : db.Served)
    (hjob : ∀ job x random, c = .smoke job x random → ∀ t, db.tests.find job.testId = some t →
      t.totalPairs = job.totalPairs) : db'.Lifecycle [] ∧ db'.Served := by
  generalize hout : Finish.commit r = out at h
  cases h with
  | invalidSpec => cases hout
  | create _ _ _ s _ _ _ hspec hi hfin =>
    cases hi
    exact ⟨hl.addTest (parseTestSpec_totalPairs hspec), hs.addTest⟩
  | smoke job x random _ _ _ hj hfin =>
    subst hfin
    cases hj with
    | late => cases hout
    | invalid t vlog ht hv =>
      refine ⟨hl.updateTest (fun _ => rfl) (fun _ => rfl) fun _ => .inr (.inl rfl), ?_⟩
      refine hs.updateTest (fun _ _ hq => by cases hq) fun u hu hrun => ?_
      rw [← Option.some.inj (ht.symm.trans hu), hv] at hrun
      cases hrun
    | queued t fens vlog promoted db₁ _ ht hv hx href hp =>
      have hlen : (fens.length : Int) = t.totalPairs := by
        have hone := hl.demands t (Table.find_some ht).1
        have htotal := hjob job x random rfl t ht
        rw [SmokeJob.length_examine hx, ← htotal]
        omega
      have henq := (enqueue_spec db job.testId fens random vlog).lifecycle hl ht hv hlen
      exact hp.lifecycle (href.lifecycle henq)
  | promote _ _ hp => exact hp.lifecycle hl
  | stop testId _ _ _ hst hfin =>
    subst hfin
    have hstop : (db.updateTest testId (.stop now) (TestRow.stop_id now)).Lifecycle [] :=
      hl.updateTest (fun _ => rfl) (fun _ => rfl) fun _ => .inr (.inr (.inr rfl))
    cases hst with
    | refused => cases hout
    | waiting t ht hlive hrun =>
      refine ⟨hstop, hs.updateTest (fun _ _ hq => by cases hq) fun u hu hru => ?_⟩
      rw [← Option.some.inj (ht.symm.trans hu)] at hru
      exact absurd hru hrun
    | running t promoted _ ht hrun hp => exact hp.lifecycle hstop
  | setPriority testId priority _ _ _ hst hfin =>
    subst hfin
    cases hst with
    | refused => cases hout
    | updated t ht =>
      exact ⟨hl.updateTest (fun _ => rfl) (fun _ => rfl) fun _ => .inl rfl,
        hs.updateTest (fun _ _ hq => hq) fun _ _ hr => hr⟩
  | register reg =>
    unfold Db.upsertClient
    split <;> exact ⟨hl.congr rfl rfl rfl rfl, hs.congr rfl⟩
  | heartbeat => exact ⟨hl.congr rfl rfl rfl rfl, hs.congr rfl⟩
  | ban => exact ⟨hl.congr rfl rfl rfl rfl, hs.congr rfl⟩
  | claim _ _ _ _ _ hc hfin =>
    refine ⟨hc.lifecycle hl, hs.congr ?_⟩
    cases hc with
    | answered => rfl
    | leased _ _ _ _ _ _ _ _ hdb => subst hdb; rfl
  | submit i report fin _ _ hsub hfin =>
    subst hfin
    cases fin with
    | rollback => cases hout
    | commit => exact hsub.lifecycle hl hs
  | abandon _ _ _ _ _ ha hfin =>
    refine ⟨ha.lifecycle hl, hs.congr ?_⟩
    cases ha with
    | refused => rfl
    | released => rfl
  | recover _ _ _ hrec hfin =>
    subst hfin
    cases hrec with
    | recovered expired _ _ hexp hall =>
      exact hall.lifecycle (hl.expire E.cfg.maxAttempts hexp) (hs.congr rfl)

end CapiNet
