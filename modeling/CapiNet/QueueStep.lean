import CapiNet.PairStep

namespace CapiNet

open Txn Relational

variable {F : Type}

/-- The columns of a pair that are never rewritten. -/
def PairRow.shape (p : PairRow) : Int × Int × Int := (p.id, p.testId, p.positionId)

def Db.shapes (db : Db F) : List (Int × Int × Int) := db.jobPairs.rows.map (·.shape)

theorem Db.shapes_updatePairs (db : Db F) (p : PairRow → Bool) (f : PairRow → PairRow)
    (h : ∀ r, (f r).id = r.id) (hs : ∀ r, (f r).shape = r.shape) :
    (db.updatePairs p f h).shapes = db.shapes := by
  simp only [shapes, updatePairs, Table.rows_modify, List.map_map]
  refine List.map_congr_left fun r _ => ?_
  simp only [Function.comp]
  split
  · exact hs r
  · rfl

theorem SameQueue.shapes {db db' : Db F} (h : SameQueue db db') : db'.shapes = db.shapes := by
  rw [Db.shapes, Db.shapes, h.jobPairs]

variable [LinearOrder F] {E : Env F}

/-- Apart from the smoke worker, no call makes or removes pairs or positions. -/
theorem Effect.shapes {now : ℚ} {skip : Lock → Bool} {db db' : Db F} {c : Call} {out : Finish Reply}
    (h : Effect E now skip db c out db') (hout : ∀ r, out ≠ .rollback r)
    (hc : ∀ job x random, c ≠ .smoke job x random) :
    db'.shapes = db.shapes ∧ db'.positions = db.positions := by
  cases h with
  | invalidSpec => exact absurd rfl (hout _)
  | create _ _ _ _ _ _ _ _ hi => cases hi; exact ⟨rfl, rfl⟩
  | smoke job x random => exact absurd rfl (hc job x random)
  | promote _ _ hp => exact ⟨hp.sameQueue.shapes, hp.sameQueue.positions⟩
  | stop _ _ _ _ hs hfin =>
    cases hs with
    | refused => exact absurd hfin (hout _)
    | waiting => exact ⟨rfl, rfl⟩
    | running _ _ _ _ _ hp => exact ⟨hp.sameQueue.shapes, hp.sameQueue.positions⟩
  | setPriority _ _ _ _ _ hs hfin =>
    cases hs with
    | refused => exact absurd hfin (hout _)
    | updated => exact ⟨rfl, rfl⟩
  | register reg =>
    unfold Db.upsertClient
    split <;> exact ⟨rfl, rfl⟩
  | heartbeat => exact ⟨rfl, rfl⟩
  | ban => exact ⟨rfl, rfl⟩
  | claim _ _ _ _ _ hs hfin =>
    cases hs with
    | leased _ _ _ _ _ _ _ _ hdb _ =>
      subst hdb
      exact ⟨Db.shapes_updatePairs _ _ _ _ fun _ => rfl, rfl⟩
    | answered => exact ⟨rfl, rfl⟩
  | submit _ _ _ _ _ hs hfin =>
    cases hs with
    | unknown => exact absurd hfin (hout _)
    | refused => exact absurd hfin (hout _)
    | accepted _ _ _ _ _ _ _ href =>
      refine ⟨href.sameQueue.shapes.trans ?_, href.sameQueue.positions⟩
      exact Db.shapes_updatePairs db _ _ (PairRow.complete_id now) fun _ => rfl
  | abandon _ _ _ _ _ hs hfin =>
    cases hs with
    | refused => exact ⟨rfl, rfl⟩
    | released => exact ⟨Db.shapes_updatePairs _ _ _ _ fun _ => rfl, rfl⟩
  | recover _ _ _ hs hfin =>
    cases hs with
    | recovered _ _ _ _ hall =>
      refine ⟨hall.sameQueue.shapes.trans ?_, hall.sameQueue.positions⟩
      exact Db.shapes_updatePairs _ _ _ _ fun _ => rfl

/-- The smoke worker leaves the pairs alone or enqueues a validating test. -/
theorem Effect.smoke_commit {now : ℚ} {skip : Lock → Bool} {db db' : Db F} {job : SmokeJob}
    {x : Examination} {random : Nat → ℚ} {r : Reply}
    (h : Effect E now skip db (.smoke job x random) (.commit r) db') :
    (∃ t vlog, db.tests.find job.testId = some t ∧ t.status = .validating ∧
      db' = db.updateTest job.testId (.judge .invalid vlog) (TestRow.judge_id .invalid vlog)) ∨
    ∃ t fens vlog promoted db₁, db.tests.find job.testId = some t ∧ t.status = .validating ∧
      (job.examine x).2 = some fens ∧
      Refreshed E.numerics now job.testId (db.enqueue job.testId fens random vlog) db₁ ∧
      Promoted now db₁ promoted db' := by
  generalize hout : Finish.commit r = out at h
  generalize hcall : Call.smoke job x random = c at h
  cases h with
  | smoke _ _ _ _ _ _ hj hfin =>
    cases hcall
    subst hfin
    cases hj with
    | late => cases hout
    | invalid t vlog ht hv => exact .inl ⟨t, vlog, ht, hv, rfl⟩
    | queued t fens vlog promoted db₁ _ ht hv hx href hp =>
      exact .inr ⟨t, fens, vlog, promoted, db₁, ht, hv, hx, href, hp⟩
  | _ => cases hcall

omit [LinearOrder F] in
theorem Db.guard_eq_some {db : Db F} {i clientId : Int} {g : Guard}
    (h : db.guard i clientId = some g) :
    ∃ p t, db.jobPairs.find i = some p ∧ db.tests.find p.testId = some t ∧
      g = ⟨t.status, (db.clients.find clientId).map (·.status)⟩ := by
  obtain ⟨p, hp, h⟩ := Option.bind_eq_some_iff.mp h
  obtain ⟨t, ht, h⟩ := Option.bind_eq_some_iff.mp h
  exact ⟨p, t, hp, ht, (Option.some.inj h).symm⟩

/-- A committed submission delivers the result of a pair its client holds, of a running test. -/
theorem Effect.submit_commit {now : ℚ} {skip : Lock → Bool} {db db' : Db F} {i : Int}
    {report : RoutedReport} {r : Reply}
    (h : Effect E now skip db (.submit i report) (.commit r) db') :
    ∃ p t, db.jobPairs.find i = some p ∧ p.leasedBy report.clientId = true ∧
      db.tests.find p.testId = some t ∧ t.status = .running ∧
      (∀ k : Fin 2, db.hasGame i k.val = false) ∧ (∃ v, r = .submit ⟨.accepted, v⟩) ∧
      Refreshed E.numerics now p.testId (db.deliver E now p report.toPairReport) db' := by
  generalize hout : Finish.commit r = out at h
  generalize hcall : Call.submit i report = c at h
  cases h with
  | submit _ _ _ _ _ hs hfin =>
    cases hcall
    subst hfin
    cases hs with
    | unknown => cases hout
    | refused => cases hout
    | accepted p g _ hp hg hnone hgames href =>
      cases hout
      obtain ⟨p', t, hp', ht, rfl⟩ := Db.guard_eq_some hg
      cases Option.some.inj (hp.symm.trans hp')
      obtain ⟨hl, hrun⟩ := refusal_eq_none hnone
      refine ⟨p, t, hp, hl, ht, hrun, fun k => ?_, ⟨_, rfl⟩, href⟩
      simpa [report.routed k] using hgames k
  | _ => cases hcall

/-- Apart from a submission, no committed call writes games. -/
theorem Effect.games {now : ℚ} {skip : Lock → Bool} {db db' : Db F} {c : Call} {out : Finish Reply}
    (h : Effect E now skip db c out db') (hout : ∀ r, out ≠ .rollback r)
    (hc : ∀ i report, c ≠ .submit i report) : db'.games = db.games := by
  cases h with
  | invalidSpec => exact absurd rfl (hout _)
  | create _ _ _ _ _ _ _ _ hi => cases hi; rfl
  | smoke job x random _ _ _ hj hfin =>
    cases hj with
    | late => exact absurd hfin (hout _)
    | invalid => rfl
    | queued t fens vlog promoted db₁ _ _ _ _ href hp =>
      rw [(href.sameQueue.trans hp.sameQueue).games]
      exact (enqueue_spec db job.testId fens random vlog).games
  | promote _ _ hp => exact hp.sameQueue.games
  | stop _ _ _ _ hs hfin =>
    cases hs with
    | refused => exact absurd hfin (hout _)
    | waiting => rfl
    | running _ _ _ _ _ hp => exact hp.sameQueue.games
  | setPriority _ _ _ _ _ hs hfin =>
    cases hs with
    | refused => exact absurd hfin (hout _)
    | updated => rfl
  | register reg =>
    unfold Db.upsertClient
    split <;> rfl
  | heartbeat => rfl
  | ban => rfl
  | claim _ _ _ _ _ hs =>
    cases hs with
    | leased _ _ _ _ _ _ _ _ hdb _ => subst hdb; rfl
    | answered => rfl
  | submit i report => exact absurd rfl (hc i report)
  | abandon _ _ _ _ _ hs =>
    cases hs with
    | refused => rfl
    | released => rfl
  | recover _ _ _ hs =>
    cases hs with
    | recovered _ _ _ _ hall => exact hall.sameQueue.games

/-- How a step moves the table of games. -/
inductive GamesMove (E : Env F) (s : Server F) (op : Op) : List GameRow → Prop
  | same : (∀ i report, ¬s.Accepts E op i report) → GamesMove E s op s.db.games
  | added (i : Int) (report : RoutedReport) (p : PairRow) : s.Accepts E op i report →
      s.db.jobPairs.find i = some p → p.leasedBy report.clientId = true →
      (∀ k : Fin 2, s.db.hasGame i k.val = false) →
      GamesMove E s op (s.db.games ++ [gameRow E i p.testId report.toPairReport 0,
        gameRow E i p.testId report.toPairReport 1])

theorem Server.step_games (E : Env F) (s : Server F) (op : Op) :
    GamesMove E s op (s.step E op).db.games := by
  rcases s.step_cases E op with ⟨hdb, -, hr⟩ | ⟨c, hc, ⟨hdb, e, hr⟩ | ⟨hdb, r, db', hr, h⟩ |
    ⟨r, hr, h⟩⟩
  · rw [hdb]
    refine .same ?_
    rintro i report ⟨-, v, h⟩
    simp [hr] at h
  · rw [hdb]
    refine .same ?_
    rintro i report ⟨-, v, h⟩
    simp [hr] at h
  · rw [hdb]
    refine .same ?_
    rintro i report ⟨-, v, h'⟩
    rw [hr] at h'
    exact h.rollback_answer.2.1 v (Except.ok.inj (Option.some.inj h'))
  · by_cases hsub : ∃ i report, c = .submit i report
    · obtain ⟨i, report, rfl⟩ := hsub
      obtain ⟨p, t, hp, hl, -, -, hgames, ⟨v, rfl⟩, href⟩ := h.submit_commit
      obtain ⟨-, rfl⟩ := Table.find_some hp
      have hact : op.act = .call (.submit p.id report) := by
        rcases callOf_eq_some hc with ha | ⟨_, _, _, -, -, hne⟩
        · exact ha
        · cases hne
      rw [href.sameQueue.games]
      rw [Db.games_deliver]
      exact .added p.id report p ⟨hact, v, hr⟩ hp hl hgames
    · rw [h.games (by simp) fun i report hne => hsub ⟨i, report, hne⟩]
      refine .same ?_
      rintro i report ⟨hact, -⟩
      refine hsub ⟨i, report, ?_⟩
      rw [hact] at hc
      exact (Option.some.inj hc).symm

end CapiNet
