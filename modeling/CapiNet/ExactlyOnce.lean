import CapiNet.PairInvariant

namespace CapiNet

open Txn Relational

variable {F : Type} [LinearOrder F] {E : Env F}

/-- The two games an accepted report leaves. -/
def resultRows (E : Env F) (i testId : Int) (report : RoutedReport) : List GameRow :=
  (List.finRange 2).map (gameRow E i testId report.toPairReport)

omit [LinearOrder F] in
theorem resultRows_eq (E : Env F) (i testId : Int) (report : RoutedReport) :
    resultRows E i testId report =
      [gameRow E i testId report.toPairReport 0, gameRow E i testId report.toPairReport 1] := rfl

/-- The report a completed pair has its games from, and the step that brought it. -/
structure RecordedBy (E : Env F) (ops : List Op) (i : Int) (p : PairRow) (pre : List Op) (op : Op)
    (report : RoutedReport) : Prop where
  cut : ∃ post, ops = pre ++ op :: post
  accepted : (Server.run E pre).Accepts E op i report
  held : ∃ q, (Server.run E pre).db.jobPairs.find i = some q ∧ q.leasedBy report.clientId = true
  before : (Server.run E pre).db.gamesOf i = []
  completed : p.status = .completed
  leasedTo : p.leasedTo = some report.clientId
  after : (Server.run E (pre ++ [op])).db.gamesOf i = resultRows E i p.testId report
  games : (Server.run E ops).db.gamesOf i = resultRows E i p.testId report

/-- A pair is either not completed and has no games, or its result is recorded. -/
def Recorded (E : Env F) (ops : List Op) (i : Int) : Prop :=
  ((Server.run E ops).db.gamesOf i = [] ∧
    ∀ p, (Server.run E ops).db.jobPairs.find i = some p → p.status ≠ .completed) ∨
  ∃ p pre op report, (Server.run E ops).db.jobPairs.find i = some p ∧
    RecordedBy E ops i p pre op report

/-- A step that accepts no report for the pair leaves its games alone. -/
theorem gamesOf_step {ops : List Op} {op : Op} {i : Int}
    (h : ∀ report, ¬(Server.run E ops).Accepts E op i report) :
    (Server.run E (ops ++ [op])).db.gamesOf i = (Server.run E ops).db.gamesOf i := by
  rw [Server.run_snoc]
  have hmove := Server.step_games E (Server.run E ops) op
  unfold Db.gamesOf
  generalize ((Server.run E ops).step E op).db.games = games at hmove
  cases hmove with
  | same => rfl
  | added j report p ha hp =>
    have hne : j ≠ i := by
      rintro rfl
      exact h report ha
    simp [List.filter_append, gameRow, hne]

/-- An accepted report completes a pair its client holds, and adds its two games. -/
theorem accepted_step {ops : List Op} {op : Op} {i : Int} {report : RoutedReport}
    (h : (Server.run E ops).Accepts E op i report) :
    ∃ q, (Server.run E ops).db.jobPairs.find i = some q ∧ q.leasedBy report.clientId = true ∧
      (Server.run E (ops ++ [op])).db.jobPairs.find i = some (q.complete op.now) ∧
      (Server.run E (ops ++ [op])).db.gamesOf i =
        (Server.run E ops).db.gamesOf i ++ resultRows E i q.testId report := by
  have hpair := run_step_pair E ops op i
  have hgames := Server.step_games E (Server.run E ops) op
  rw [← Server.run_snoc] at hgames
  have hact := h.1
  unfold Db.gamesOf
  generalize (Server.run E (ops ++ [op])).db.games = games at hgames
  cases hgames with
  | same hn => exact absurd h (hn i report)
  | added j report' q ha hq hl hg =>
    have heq := ha.1.symm.trans hact
    cases heq
    refine ⟨q, hq, hl, ?_, by simp [List.filter_append, gameRow, resultRows_eq]⟩
    rw [hq] at hpair
    generalize (Server.run E (ops ++ [op])).db.jobPairs.find i = o at hpair
    cases hpair with
    | same _ _ hn => exact absurd h (hn report)
    | leased _ _ _ _ _ hc => cases hact.symm.trans hc
    | completed => rfl
    | released _ _ hr => cases hact.symm.trans hr.1
    | expired _ hr => cases hact.symm.trans hr

/-- Only an accepted report completes a pair. -/
theorem PairMove.not_completed {s : Server F} {op : Op} {i : Int} {o : Option PairRow} {p : PairRow}
    (h : PairMove E s op i o (some p)) (hn : ∀ report, ¬s.Accepts E op i report)
    (ho : ∀ q, o = some q → q.status ≠ .completed) : p.status ≠ .completed := by
  cases h with
  | same => exact ho p rfl
  | born _ hf => simp [hf.1]
  | leased => simp [PairRow.lease]
  | completed _ report ha => exact absurd ha (hn report)
  | released => simp [PairRow.release]
  | expired p => unfold PairRow.expire; dsimp only; split <;> simp

theorem recorded_step (ops : List Op) (op : Op) (i : Int) (h : Recorded E ops i) :
    Recorded E (ops ++ [op]) i := by
  by_cases hacc : ∃ report, (Server.run E ops).Accepts E op i report
  · obtain ⟨report, hacc⟩ := hacc
    obtain ⟨q, hq, hl, hq', hgames⟩ := accepted_step hacc
    have hempty : (Server.run E ops).db.gamesOf i = [] := by
      rcases h with ⟨hnil, -⟩ | ⟨p, _, _, _, hp, hrec⟩
      · exact hnil
      · cases Option.some.inj (hp.symm.trans hq)
        exact absurd hrec.completed (by simp [(PairRow.leasedBy_iff.mp hl).1])
    rw [hempty, List.nil_append] at hgames
    exact .inr ⟨_, ops, op, report, hq', ⟨[], rfl⟩, hacc, ⟨q, hq, hl⟩, hempty, rfl,
      (PairRow.leasedBy_iff.mp hl).2, hgames, hgames⟩
  · have hn : ∀ report, ¬(Server.run E ops).Accepts E op i report :=
      fun report ha => hacc ⟨report, ha⟩
    have hgames := gamesOf_step hn
    have hmove := run_step_pair E ops op i
    rcases h with ⟨hnil, hstatus⟩ | ⟨p, pre, op', report, hp, hrec⟩
    · refine .inl ⟨hgames.trans hnil, fun p hp => ?_⟩
      rw [hp] at hmove
      exact hmove.not_completed hn hstatus
    · rw [hp] at hmove
      obtain ⟨post, hpost⟩ := hrec.cut
      refine .inr ⟨p, pre, op', report, hmove.terminal (.inl hrec.completed), ?_⟩
      exact { hrec with
        cut := ⟨post ++ [op], by simp [hpost]⟩
        games := hgames.trans hrec.games }

theorem run_recorded (E : Env F) (ops : List Op) (i : Int) : Recorded E ops i := by
  induction ops using List.reverseRecOn with
  | nil => exact .inl ⟨rfl, fun p hp => by cases hp⟩
  | append_singleton ops op ih => exact recorded_step ops op i ih

/-- The games of a completed pair, and its row, stay as they are. -/
theorem completed_stable {ops : List Op} {i : Int} {p : PairRow}
    (hp : (Server.run E ops).db.jobPairs.find i = some p) (hs : p.status = .completed)
    (more : List Op) :
    (Server.run E (ops ++ more)).db.jobPairs.find i = some p ∧
      (Server.run E (ops ++ more)).db.gamesOf i = (Server.run E ops).db.gamesOf i := by
  induction more using List.reverseRecOn with
  | nil => simpa using hp
  | append_singleton more op ih =>
    obtain ⟨hrow, hgames⟩ := ih
    rw [← List.append_assoc]
    have hmove := run_step_pair E (ops ++ more) op i
    rw [hrow] at hmove
    refine ⟨hmove.terminal (.inl hs), (gamesOf_step fun report ha => ?_).trans hgames⟩
    obtain ⟨q, hq, hl, -⟩ := accepted_step ha
    cases Option.some.inj (hrow.symm.trans hq)
    simp [(PairRow.leasedBy_iff.mp hl).1] at hs

/-- A submission that is not accepted leaves every table as it was. -/
theorem refused_submission {s : Server F} {op : Op} {i : Int} {report : RoutedReport}
    (hact : op.act = .call (.submit i report)) (h : ¬s.Accepts E op i report) :
    (s.step E op).db = s.db := by
  rcases s.step_db E op with hdb | ⟨c, r, hc, hr, heff⟩
  · exact hdb
  · rw [hact] at hc
    cases Option.some.inj hc
    obtain ⟨_, _, -, -, -, -, -, ⟨v, rfl⟩, -⟩ := heff.submit_commit
    exact absurd ⟨hact, v, hr⟩ h

omit [LinearOrder F] in
theorem refusal_alreadyCompleted {p : PairRow} {g : Guard} {clientId : Int}
    (h : refusal p g clientId = some .alreadyCompleted) :
    p.status = .completed ∧ p.leasedTo = some clientId := by
  unfold refusal at h
  dsimp only at h
  split at h
  next => cases h
  next =>
    split at h
    next => cases h
    next =>
      split at h
      next hdone => exact hdone
      next => split_ifs at h <;> cases h

/-- A submission that is rolled back answers why. -/
theorem Effect.submit_rollback {now : ℚ} {skip : Lock → Bool} {db db' : Db F} {i : Int}
    {report : RoutedReport} {r : Reply}
    (h : Effect E now skip db (.submit i report) (.rollback r) db') :
    r = .submit ⟨.pairNotFound, 0⟩ ∨ ∃ p g s, db.jobPairs.find i = some p ∧
      refusal p g report.clientId = some s ∧ r = .submit ⟨s, 0⟩ := by
  generalize hout : Finish.rollback r = out at h
  generalize hcall : Call.submit i report = c at h
  cases h with
  | submit _ _ _ _ _ hs hfin =>
    cases hcall
    subst hfin
    cases hs with
    | unknown => cases hout; exact .inl rfl
    | refused p g s _ hp _ hr => cases hout; exact .inr ⟨p, g, s, hp, hr, rfl⟩
    | accepted => cases hout
  | _ => cases hcall

/-- The answer that a result had been recorded before: the pair is completed and was leased to the
client that asks. -/
theorem already_completed {s : Server F} {op : Op} {i : Int} {report : RoutedReport} {v : Nat}
    (hact : op.act = .call (.submit i report))
    (hr : s.reply E op = some (.ok (.submit ⟨.alreadyCompleted, v⟩))) :
    (s.step E op).db = s.db ∧ ∃ p, s.db.jobPairs.find i = some p ∧ p.status = .completed ∧
      p.leasedTo = some report.clientId := by
  have hsame : (s.step E op).db = s.db := by
    refine refused_submission hact ?_
    rintro ⟨-, v', h'⟩
    cases hr.symm.trans h'
  refine ⟨hsame, ?_⟩
  have hcall : s.callOf op.act = some (.submit i report) := by rw [hact]; rfl
  rcases Server.reply_ok hcall hr with ⟨db', heff⟩ | heff
  · rcases heff.submit_rollback with h | ⟨p, g, st, hp, href, h⟩
    · cases h
    · cases h
      exact ⟨p, hp, refusal_alreadyCompleted href⟩
  · obtain ⟨_, _, -, -, -, -, -, ⟨v', h⟩, -⟩ := heff.submit_commit
    cases h

/-- The answers after which a client takes its result as delivered. -/
def SubmitStatus.settled (s : SubmitStatus) : Prop := s = .accepted ∨ s = .alreadyCompleted

/-- A settled answer means that the pair is completed and both its games are the client's. -/
theorem settled_submission {ops : List Op} {op : Op} {i : Int} {report : RoutedReport}
    {r : SubmitResult} (hact : op.act = .call (.submit i report))
    (hr : (Server.run E ops).reply E op = some (.ok (.submit r))) (hs : r.status.settled) :
    ∃ p, (Server.run E (ops ++ [op])).db.jobPairs.find i = some p ∧ p.status = .completed ∧
      p.leasedTo = some report.clientId ∧
      ((Server.run E (ops ++ [op])).db.gamesOf i).length = 2 ∧
      ∀ g ∈ (Server.run E (ops ++ [op])).db.gamesOf i, g.clientId = report.clientId := by
  obtain ⟨p, hp, hc, hl⟩ : ∃ p, (Server.run E (ops ++ [op])).db.jobPairs.find i = some p ∧
      p.status = .completed ∧ p.leasedTo = some report.clientId := by
    obtain ⟨st, v⟩ := r
    rcases hs with rfl | rfl
    · obtain ⟨q, -, hl, hq, -⟩ := accepted_step ⟨hact, v, hr⟩
      exact ⟨_, hq, rfl, (PairRow.leasedBy_iff.mp hl).2⟩
    · rw [Server.run_snoc]
      obtain ⟨hsame, h⟩ := already_completed hact hr
      rw [hsame]
      exact h
  refine ⟨p, hp, hc, hl, ?_⟩
  rcases run_recorded E (ops ++ [op]) i with ⟨-, hn⟩ | ⟨q, _, _, report', hq, hrec⟩
  · exact absurd hc (hn p hp)
  · cases Option.some.inj (hp.symm.trans hq)
    have hclient : report'.clientId = report.clientId :=
      Option.some.inj (hrec.leasedTo.symm.trans hl)
    rw [hrec.games]
    refine ⟨rfl, ?_⟩
    intro g hg
    simp only [resultRows_eq, List.mem_cons, List.not_mem_nil, or_false] at hg
    rcases hg with rfl | rfl
    · exact hclient
    · exact hclient

/-- The pair has exactly two games, numbered 0 and 1, and one accepted submission by the client
that held the pair wrote both. -/
def RecordedOnce (E : Env F) (ops : List Op) (i : Int) : Prop :=
  ∃ pre op post report q g₀ g₁, ops = pre ++ op :: post ∧
    (Server.run E pre).Accepts E op i report ∧
    (Server.run E pre).db.jobPairs.find i = some q ∧ q.leasedTo = some report.clientId ∧
    (Server.run E pre).db.gamesOf i = [] ∧
    (Server.run E (pre ++ [op])).db.gamesOf i = [g₀, g₁] ∧
    (Server.run E ops).db.gamesOf i = [g₀, g₁] ∧ g₀.gameInPair = 0 ∧ g₁.gameInPair = 1

/-- Exactly-once recording: completed pairs are those with two games of one accepted submission;
row and games stay; other submissions change nothing; a settled answer tells the truth. -/
theorem results_recorded_exactly_once (E : Env F) (ops : List Op) (i : Int) :
    ((∃ p, (Server.run E ops).db.jobPairs.find i = some p ∧ p.status = .completed) ↔
      RecordedOnce E ops i) ∧
    ((Server.run E ops).db.gamesOf i ≠ [] → RecordedOnce E ops i) ∧
    (∀ p, (Server.run E ops).db.jobPairs.find i = some p → p.status = .completed → ∀ more,
      (Server.run E (ops ++ more)).db.jobPairs.find i = some p ∧
      (Server.run E (ops ++ more)).db.gamesOf i = (Server.run E ops).db.gamesOf i) ∧
    (∀ op report, op.act = .call (.submit i report) →
      ¬(Server.run E ops).Accepts E op i report →
      (Server.run E (ops ++ [op])).db = (Server.run E ops).db) ∧
    (∀ op report r, op.act = .call (.submit i report) →
      (Server.run E ops).reply E op = some (.ok (.submit r)) → r.status.settled →
      ∃ p, (Server.run E (ops ++ [op])).db.jobPairs.find i = some p ∧ p.status = .completed ∧
        p.leasedTo = some report.clientId ∧
        ((Server.run E (ops ++ [op])).db.gamesOf i).length = 2 ∧
        ∀ g ∈ (Server.run E (ops ++ [op])).db.gamesOf i, g.clientId = report.clientId) := by
  have once : ∀ p pre op report, RecordedBy E ops i p pre op report → RecordedOnce E ops i := by
    intro p pre op report hrec
    obtain ⟨post, hpost⟩ := hrec.cut
    obtain ⟨q, hq, hl⟩ := hrec.held
    exact ⟨pre, op, post, report, q, _, _, hpost, hrec.accepted, hq,
      (PairRow.leasedBy_iff.mp hl).2, hrec.before, hrec.after, hrec.games, report.routed 0,
      report.routed 1⟩
  refine ⟨⟨?_, ?_⟩, ?_, fun p hp hs more => completed_stable hp hs more, ?_, ?_⟩
  · rintro ⟨p, hp, hs⟩
    rcases run_recorded E ops i with ⟨-, hn⟩ | ⟨p', pre, op, report, -, hrec⟩
    · exact absurd hs (hn p hp)
    · exact once p' pre op report hrec
  · rintro ⟨pre, op, post, report, q, g₀, g₁, -, -, -, -, -, -, hgames, -, -⟩
    rcases run_recorded E ops i with ⟨hnil, -⟩ | ⟨p', pre', op', report', hp', hrec⟩
    · rw [hgames] at hnil
      cases hnil
    · exact ⟨p', hp', hrec.completed⟩
  · intro hne
    rcases run_recorded E ops i with ⟨hnil, -⟩ | ⟨p', pre, op, report, -, hrec⟩
    · exact absurd hnil hne
    · exact once p' pre op report hrec
  · intro op report hact hn
    rw [Server.run_snoc]
    exact refused_submission hact hn
  · intro op report r hact hr hs
    exact settled_submission hact hr hs

end CapiNet
