import CapiNet.NoLostUpdate

namespace CapiNet

open Txn Relational

variable {F : Type}

/-- A verdict and the stored statistics. -/
def TestStats.Upholds [LinearOrder F] (s : TestStats F) : TestResult → Prop
  | .accepted => ∃ llr upper, s.llr = some llr ∧ s.llrUpper = some upper ∧ upper ≤ llr
  | .rejected => ∃ llr lower, s.llr = some llr ∧ s.llrLower = some lower ∧ llr ≤ lower
  | .inconclusive => ∃ lower llr upper, s.llrLower = some lower ∧ s.llr = some llr ∧
      s.llrUpper = some upper ∧ lower < llr ∧ llr < upper
  | _ => True

/-- A test that ran in `s` and does not run in `t` keeps its completed pairs and its statistics. -/
def Db.Concluded (i : Int) (s t u : Db F) : Prop :=
  ∀ x y, s.tests.find i = some x → x.status = .running →
    t.tests.find i = some y → y.status ≠ .running →
      (∀ p, p.testId = i → (p ∈ u.completedPairs ↔ p ∈ t.completedPairs)) ∧
        u.testStats i = t.testStats i

/-- A result gets the row of its test while the test is running. -/
def rowInTime : Discipline Activity (Db F) Lock where
  calls := Activity.regular
  locks a _ key s := ∀ i report now j, a = .request ⟨.submit i report, now⟩ → key = .test j →
    ∀ x, s.tests.find j = some x → x.status = .running

theorem mem_settled {db : Db F} {i : Int} {p : PairRow} :
    p ∈ (db.settled i).map Prod.fst ↔ p ∈ db.completedPairs ∧ p.testId = i := by
  rw [Db.settled, Multiset.map_coe, List.map_map]
  have hfst : (Prod.fst ∘ db.settlement) = id := rfl
  rw [hfst, List.map_id, Multiset.mem_coe, List.mem_filter, beq_iff_eq]

theorem Db.Frozen.concluded {i : Int} {s t u : Db F} {N : Numerics F} [LinearOrder F]
    {strict : Prop} (hs : s.Ledger N strict) (hst : Db.Risen i s t) (htu : Db.Frozen i t u) :
    Db.Concluded i s t u := by
  intro x y hx hrun hy hleft
  obtain ⟨y', hy', hstart⟩ := hst x hx
  cases Option.some.inj (hy.symm.trans hy')
  have hretired : y.Retired := ⟨hstart ((hs.timed i x hx).late (.inl hrun)), hleft⟩
  obtain ⟨-, -, -, hset, hstats⟩ := htu y hy hretired
  refine ⟨fun p hp => ?_, hstats⟩
  have hmem : p ∈ (u.settled i).map Prod.fst ↔ p ∈ u.completedPairs ∧ p.testId = i := mem_settled
  rw [hset, mem_settled] at hmem
  constructor
  · intro h
    exact (hmem.mpr ⟨h, hp⟩).1
  · intro h
    exact (hmem.mp ⟨h, hp⟩).1

/-- Without a valid pair the ratio is zero, and between the bounds if these have their signs. -/
theorem upholds_without_pairs {t : TestRow} {S : Multiset Settlement} {r : Recomputed ℝ}
    (h : recount realNumerics t S = .ok r) (hk : t.kind = .sprt) (hzero : r.stats.pairsValid = 0)
    {alpha beta : Double} (ha : t.sprtAlpha = some alpha) (hb : t.sprtBeta = some beta)
    (hra : 0 < alpha.val ∧ alpha.val < 1) (hrb : 0 < beta.val ∧ beta.val < 1) :
    r.stats.Upholds .inconclusive ↔ alpha.val + beta.val < 1 := by
  obtain ⟨elo0, elo1, llr, bounds, hllr, rfl, hs, hlower, hupper, -⟩ := recompute_sprt hk h
  rw [recount_pairs h, ← pairs_distribution] at hzero
  have hllr0 : llr = 0 := by
    have he : realNumerics.llrNormalized elo0 elo1 (distribution S) = .ok 0 := if_pos hzero
    exact Except.ok.inj (hllr.symm.trans he)
  rw [ha, hb] at hlower hupper
  rw [← realNumerics_region hra hrb]
  constructor
  · rintro ⟨lower, llr', upper, hl, hm, hu, h1, h2⟩
    cases Option.some.inj (hs.symm.trans hm)
    cases Option.some.inj (hlower.symm.trans hl)
    cases Option.some.inj (hupper.symm.trans hu)
    rw [hllr0] at h1 h2
    exact .of_signs h1 h2
  · intro hregion
    refine ⟨_, llr, _, hlower, hs, hupper, ?_, ?_⟩
    · rw [hllr0]
      exact hregion.lower_neg
    · rw [hllr0]
      exact hregion.upper_pos

/-- In every run in which results get the row of their test in time, a test that has left running
keeps its completed pairs and its statistics, and the stored statistics of a finished SPRT bear its
verdict out; an inconclusive one does if it has a valid pair or its error rates add up to less than
one, and only then. -/
theorem verdict_stands (cfg : ServerConfig) (gzipCompress : String → List UInt8)
    (U W V : WorkerWorld ℝ)
    (hU : Run (Activity.program ⟨cfg, realNumerics, gzipCompress⟩) rowInTime newServer U)
    (hW : Run (Activity.program ⟨cfg, realNumerics, gzipCompress⟩) rowInTime U W)
    (hV : Run (Activity.program ⟨cfg, realNumerics, gzipCompress⟩) rowInTime W V) (i : Int) :
    Db.Concluded i U.db W.db V.db ∧
    ∀ t, V.db.tests.find i = some t → t.kind = .sprt → t.status = .finished →
      ∃ alpha beta s, t.sprtAlpha = some alpha ∧ t.sprtBeta = some beta ∧
        V.db.testStats i = some s ∧ (s.Upholds t.result ↔
          (t.result = .inconclusive → 0 < s.pairsValid ∨ alpha.val + beta.val < 1)) := by
  have hkeep : Keeps (ledger realNumerics True) rowInTime
      (Activity.program ⟨cfg, realNumerics, gzipCompress⟩) fun _ _ _ => True :=
    keeps_ledger ⟨cfg, realNumerics, gzipCompress⟩ (fun _ h => h)
      fun _ i report now held j t hm x hx => hm i report now j rfl rfl x hx
  have hpost : ∀ (c : Activity) (r : Answer) (s t : Db ℝ), True →
      (ledger realNumerics True).steady s t → True := fun _ _ _ _ h _ => h
  have hsoundU := Run.sound hkeep hpost (Sound.start (ledger_empty _ _)) hU
  have hsoundW := Run.sound hkeep hpost hsoundU.1 hW
  have hsoundV := Run.sound hkeep hpost hsoundW.1 hV
  have hledger := hsoundV.1.inv
  refine ⟨((hsoundV.2 i).2 trivial).concluded hsoundU.1.inv (hsoundW.2 i).1, fun t ht hk hfin => ?_⟩
  obtain ⟨s, hs, hsup⟩ := hledger.rated trivial i t ht hk hfin
  obtain ⟨alpha, beta, ha, hb, hra, hrb⟩ := hledger.rates i t ht hk
  refine ⟨alpha, beta, s, ha, hb, hs, ?_⟩
  have hbooks := hledger.books i
  generalize V.db.settled i = S at hbooks
  cases hbooks with
  | unopened hnone => cases hs.symm.trans hnone
  | kept t' _ r ht' hr hstats =>
    cases Option.some.inj (ht.symm.trans ht')
    cases Option.some.inj (hs.symm.trans hstats)
    cases hres : t.result with
    | inconclusive =>
      rw [hres] at hsup
      rcases Nat.eq_zero_or_pos r.stats.pairsValid with hzero | hpos
      · rw [upholds_without_pairs hr hk hzero ha hb hra hrb]
        simp [hzero]
      · exact iff_of_true (hsup hpos) fun _ => .inl hpos
    | accepted =>
      rw [hres] at hsup
      exact iff_of_true hsup nofun
    | rejected =>
      rw [hres] at hsup
      exact iff_of_true hsup nofun
    | pending => exact iff_of_true trivial nofun
    | completed => exact iff_of_true trivial nofun

def allowInTime (a : Activity) (_ : List Lock) (key : Lock) (s : Db F) : Bool :=
  match a, key with
  | .request ⟨.submit _ _, _⟩, .test j => (s.tests.find j).all (·.status == .running)
  | _, _ => true

theorem allowInTime_locks (a : Activity) (held : List Lock) (key : Lock) (s : Db F)
    (h : allowInTime a held key s = true) : rowInTime.locks a held key s := by
  rintro i report now j rfl rfl x hx
  simpa [allowInTime, hx] using h

/-- The second result finishes the test, and later leases are looked for. -/
theorem verdict_stands_two : ∃ U W V : WorkerWorld ℝ,
    (U.db.tests.find 1).any (·.status == .running) = true ∧
    (W.db.tests.find 1).any (·.status == .finished) = true ∧ Db.Concluded 1 U.db W.db V.db := by
  have hrun : ((newServer : WorkerWorld ℝ).runs (Activity.program realEnv) allowInTime
      bothClaimed).any (fun U => (U.db.tests.find 1).any (·.status == .running) &&
        (U.runs (Activity.program realEnv) allowInTime bothSubmitted).any fun W =>
          (W.db.tests.find 1).any (·.status == .finished) &&
            (W.runs (Activity.program realEnv) allowInTime
              (.start (.request ⟨.recover, 10000⟩) :: List.replicate 4 (.advance 6))).isSome) =
        true := by
    decide +kernel
  obtain ⟨U, hU, hu⟩ := (Option.any_eq_true _ _).mp hrun
  obtain ⟨hrunning, hany⟩ := (Bool.and_eq_true _ _).mp hu
  obtain ⟨W, hW, hw⟩ := (Option.any_eq_true _ _).mp hany
  obtain ⟨hfinished, hsome⟩ := (Bool.and_eq_true _ _).mp hw
  obtain ⟨V, hV⟩ := Option.isSome_iff_exists.mp hsome
  refine ⟨U, W, V, hrunning, hfinished, (verdict_stands {} (fun _ => emptyGzip) U W V ?_ ?_ ?_ 1).1⟩
  · exact Run.of_runs (by simp [rowInTime, bothClaimed, Activity.regular]) allowInTime_locks hU
  · exact Run.of_runs (by simp [rowInTime, bothSubmitted, Activity.regular]) allowInTime_locks hW
  · exact Run.of_runs (by simp [rowInTime, Activity.regular]) allowInTime_locks hV

/-- No transaction is open. -/
def Idle (W : WorkerWorld F) : Prop := ∀ S ∈ W.sessions, ∃ o, S.phase = .ended o

def allEnded (W : WorkerWorld F) : Bool :=
  W.sessions.all fun S => match S.phase with
    | .ended _ => true
    | _ => false

theorem idle_of_allEnded {W : WorkerWorld F} (h : allEnded W = true) : Idle W := by
  rintro ⟨a, phase⟩ hS
  have hend := List.all_eq_true.mp h _ hS
  dsimp only at hend
  split at hend
  next o => exact ⟨o, rfl⟩
  next => cases hend

/-- The first result has passed the guard and written its games when the test is stopped, and gets
the row of the test after that. -/
theorem late_result_counted :
    ¬∀ (U W V : WorkerWorld ℝ) (i : Int),
      Run (Activity.program realEnv) (.only Activity.regular) newServer U →
      Run (Activity.program realEnv) (.only Activity.regular) U W →
      Run (Activity.program realEnv) (.only Activity.regular) W V → Idle V →
      Db.Concluded i U.db W.db V.db ∧
        ∀ t, V.db.tests.find i = some t → t.kind = .sprt → t.status = .finished →
          ∃ s, V.db.testStats i = some s ∧ s.Upholds t.result := by
  intro hall
  have hrun : ((newServer : WorkerWorld ℝ).runs (Activity.program realEnv) (fun _ _ _ _ => true)
      bothClaimed).any (fun U => (U.db.tests.find 1).any (·.status == .running) &&
        (U.runs (Activity.program realEnv) (fun _ _ _ _ => true)
          (.start (.request ⟨.submit 1 (drawnReport 1), 1⟩) :: List.replicate 11 (.advance 4) ++
            .start (.request ⟨.stop 1, 1⟩) :: List.replicate 6 (.advance 5))).any fun W =>
          (W.db.tests.find 1).any (·.status == .stopped) && W.db.completedPairs.isEmpty &&
            (W.runs (Activity.program realEnv) (fun _ _ _ _ => true)
              (List.replicate 7 (.advance 4))).any fun V =>
                allEnded V && V.db.completedPairs.any (·.testId == 1)) = true := by
    decide +kernel
  obtain ⟨U, hU, hu⟩ := (Option.any_eq_true _ _).mp hrun
  obtain ⟨hrunning, hany⟩ := (Bool.and_eq_true _ _).mp hu
  obtain ⟨W, hW, hw⟩ := (Option.any_eq_true _ _).mp hany
  simp only [Bool.and_eq_true] at hw
  obtain ⟨⟨hstopped, hempty⟩, hany⟩ := hw
  obtain ⟨V, hV, hv⟩ := (Option.any_eq_true _ _).mp hany
  obtain ⟨hend, hcounted⟩ := (Bool.and_eq_true _ _).mp hv
  obtain ⟨x, hx, hxs⟩ := (Option.any_eq_true _ _).mp hrunning
  obtain ⟨y, hy, hys⟩ := (Option.any_eq_true _ _).mp hstopped
  obtain ⟨p, hp, hpt⟩ := List.any_eq_true.mp hcounted
  have hys : y.status = .stopped := by simpa using hys
  obtain ⟨hconcluded, -⟩ := hall U W V 1
    (Run.of_runs (by simp [Discipline.only, bothClaimed, Activity.regular])
      (fun _ _ _ _ _ => trivial) hU)
    (Run.of_runs (by simp [Discipline.only, Activity.regular]) (fun _ _ _ _ _ => trivial) hW)
    (Run.of_runs (by simp [Discipline.only]) (fun _ _ _ _ _ => trivial) hV)
    (idle_of_allEnded hend)
  obtain ⟨hpairs, -⟩ := hconcluded x y hx (by simpa using hxs) hy (by simp [hys])
  have hmem := (hpairs p (by simpa using hpt)).mp hp
  rw [List.isEmpty_iff.mp hempty] at hmem
  cases hmem

end CapiNet
