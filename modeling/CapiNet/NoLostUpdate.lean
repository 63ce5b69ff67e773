import CapiNet.LedgerKept

namespace CapiNet

open Txn Relational

variable {F : Type} [LinearOrder F]

/-- In every interleaving, the statistics of a test are what a recomputation from its committed
games gives, and its history leads up to them pair by pair. A recomputation is committed no later
than the pairs of the test. -/
theorem statistics_up_to_date (E : Env F) (W : WorkerWorld F)
    (hW : Run (Activity.program E) (.only Activity.regular) newServer W) (i : Int) :
    ((∃ p ∈ W.db.jobPairs.rows, p.testId = i) → ∃ s, W.db.testStats i = some s) ∧
    ∀ s, W.db.testStats i = some s →
      (∃ t r, W.db.tests.find i = some t ∧ W.db.recomputed E.numerics t = .ok r ∧ s = r.stats) ∧
        Steps (W.db.historyOf i) ∧ (W.db.historyOf i).getLast? = some (s.historyRow i) := by
  have hkeep := keeps_ledger E (D := .only Activity.regular) (fun _ h => h)
    (fun (h : False) => h.elim)
  have hledger := (Run.sound hkeep (fun _ _ _ _ h _ => h) (Sound.start (ledger_empty _ _)) hW).1.inv
  refine ⟨fun hp => Option.ne_none_iff_exists'.mp (hledger.opened i (.inl hp)), fun s hs => ?_⟩
  have hbooks := hledger.books i
  generalize hset : W.db.settled i = S at hbooks
  cases hbooks with
  | unopened hnone =>
    rw [hs] at hnone
    cases hnone
  | kept t _ r ht hr hstats hsteps hlast =>
    cases Option.some.inj (hs.symm.trans hstats)
    have hid : t.id = i := (Table.find_some ht).2
    refine ⟨⟨t, r, ht, ?_, rfl⟩, hsteps, hlast⟩
    rw [hledger.hosted.keyed.recomputed_eq, hid, hset]
    exact hr

/-- A gauntlet of two pairs runs, and a client has both. -/
def bothClaimed : List (Event Activity) :=
  List.flatten [
    .start (.request ⟨.create (gauntletBody 2) "a" "b", 0⟩) :: List.replicate 3 (.advance 0),
    .start (.processNext 0 (fun _ => ⟨"", .ok true,
      .ok (List.replicate 2 "8/8/8/8/8/8/8/K1k5 w - -")⟩) fun i => i) ::
      List.replicate 20 (.advance 1),
    .start (.request ⟨.register ⟨"client", 2⟩, 0⟩) :: List.replicate 3 (.advance 2),
    .start (.request ⟨.claim 1 2, 0⟩) :: List.replicate 5 (.advance 3)]

/-- Their results, statement by statement: the second has written its games before the first has
the row of the test. -/
def bothSubmitted : List (Event Activity) :=
  List.flatten [
    .start (.request ⟨.submit 1 (drawnReport 1), 1⟩) :: List.replicate 11 (.advance 4),
    .start (.request ⟨.submit 2 (drawnReport 1), 1⟩) :: List.replicate 11 (.advance 5),
    List.replicate 8 (.advance 4), List.replicate 11 (.advance 5)]

theorem statistics_up_to_date_two : ∃ W : WorkerWorld ℝ,
    (W.db.historyOf 1).map (·.pairsValid) = [0, 1, 2] ∧ Steps (W.db.historyOf 1) ∧
    ∃ s, W.db.testStats 1 = some s ∧ s.gamesDraws = 4 ∧
      (W.db.historyOf 1).getLast? = some (s.historyRow 1) ∧ ∃ t r,
        W.db.tests.find 1 = some t ∧ W.db.recomputed realNumerics t = .ok r ∧ s = r.stats := by
  have hrun : ((newServer : WorkerWorld ℝ).runs (Activity.program realEnv) (fun _ _ _ _ => true)
      (bothClaimed ++ bothSubmitted)).any (fun W => decide ((W.db.historyOf 1).map (·.pairsValid) = [0, 1, 2]) &&
        (W.db.testStats 1).any (·.gamesDraws == 4)) = true := by
    decide +kernel
  obtain ⟨W, hW, hw⟩ := (Option.any_eq_true _ _).mp hrun
  obtain ⟨hhist, hany⟩ := (Bool.and_eq_true _ _).mp hw
  obtain ⟨s, hs, hdraws⟩ := (Option.any_eq_true _ _).mp hany
  have hregular : ∀ a, .start a ∈ bothClaimed ++ bothSubmitted → a.regular := by
    simp [bothClaimed, bothSubmitted, Activity.regular]
  obtain ⟨hrow, hsteps, hlast⟩ := (statistics_up_to_date realEnv W
    (Run.of_runs hregular (fun _ _ _ _ _ => trivial) hW) 1).2 s hs
  exact ⟨W, of_decide_eq_true hhist, hsteps, s, hs, by simpa using hdraws, hlast, hrow⟩

end CapiNet
