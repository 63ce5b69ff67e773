import CapiNet.SmokeEffect
import CapiNet.SystemEffect

namespace CapiNet

open Txn Relational

variable {F : Type}

namespace Db

/-- Every pair has its opening position. -/
def Positioned (db : Db F) : Prop :=
  ∀ p ∈ db.jobPairs.rows, ∃ op, db.positions.find p.positionId = some op

theorem find_updatePairs (db : Db F) (p : PairRow → Bool) (f : PairRow → PairRow)
    (h : ∀ r, (f r).id = r.id) (i : Int) :
    (db.updatePairs p f h).jobPairs.find i =
      (db.jobPairs.find i).map fun r => if p r then f r else r :=
  Table.find_modify db.jobPairs p f h i

theorem find_updatePairs_hit (db : Db F) {p : PairRow → Bool} (f : PairRow → PairRow)
    (h : ∀ r, (f r).id = r.id) {i : Int} (hp : ∀ r, r.id = i → p r = true) :
    (db.updatePairs p f h).jobPairs.find i = (db.jobPairs.find i).map f := by
  rw [find_updatePairs]
  cases hr : db.jobPairs.find i with
  | none => rfl
  | some r =>
    have hpr := hp r (Table.find_some hr).2
    simp [hpr]

theorem find_updatePairs_miss (db : Db F) {p : PairRow → Bool} (f : PairRow → PairRow)
    (h : ∀ r, (f r).id = r.id) {i : Int} (hp : ∀ r, r.id = i → p r = false) :
    (db.updatePairs p f h).jobPairs.find i = db.jobPairs.find i := by
  rw [find_updatePairs]
  cases hr : db.jobPairs.find i with
  | none => rfl
  | some r =>
    have hpr := hp r (Table.find_some hr).2
    simp [hpr]

theorem mem_updatePairs {db : Db F} {p : PairRow → Bool} {f : PairRow → PairRow}
    {h : ∀ r, (f r).id = r.id} {r : PairRow} :
    r ∈ (db.updatePairs p f h).jobPairs.rows ↔
      ∃ q ∈ db.jobPairs.rows, r = if p q then f q else q := Table.mem_modify db.jobPairs p f h

theorem Positioned.updatePairs {db : Db F} (h : db.Positioned) (p : PairRow → Bool)
    (f : PairRow → PairRow) (hid : ∀ r, (f r).id = r.id)
    (hpos : ∀ r, (f r).positionId = r.positionId) : (db.updatePairs p f hid).Positioned := by
  intro r hr
  obtain ⟨q, hq, rfl⟩ := mem_updatePairs.mp hr
  obtain ⟨op, hop⟩ := h q hq
  refine ⟨op, ?_⟩
  split
  · rw [hpos]; exact hop
  · exact hop

theorem map_claimed {db : Db F} (picked : List Int) (hpos : db.Positioned) :
    (db.claimed picked).map (·.pairId) =
      (db.jobPairs.rows.filter fun p => decide (p.id ∈ picked)).map (·.id) := by
  have hsub : ∀ p ∈ db.jobPairs.rows.filter (fun p => decide (p.id ∈ picked)),
      ∃ op, db.positions.find p.positionId = some op :=
    fun p hp => hpos p (List.mem_filter.mp hp).1
  unfold claimed
  generalize db.jobPairs.rows.filter (fun p => decide (p.id ∈ picked)) = ps at hsub ⊢
  induction ps with
  | nil => rfl
  | cons p ps ih =>
    obtain ⟨op, hop⟩ := hsub p (by simp)
    simp [hop, ih fun q hq => hsub q (by simp [hq])]

/-- The pairs of a claim's answer are the picked ones. -/
theorem mem_claimed {db : Db F} {picked : List Int} {i : Int} (hpos : db.Positioned) :
    i ∈ (db.claimed picked).map (·.pairId) ↔ i ∈ picked ∧ ∃ p, db.jobPairs.find i = some p := by
  rw [map_claimed picked hpos]
  constructor
  · intro h
    obtain ⟨p, hp, rfl⟩ := List.mem_map.mp h
    obtain ⟨hrow, hpick⟩ := List.mem_filter.mp hp
    exact ⟨by simpa using hpick, p, Table.find_of_mem hrow⟩
  · rintro ⟨hpick, p, hp⟩
    obtain ⟨hrow, rfl⟩ := Table.find_some hp
    exact List.mem_map_of_mem (List.mem_filter.mpr ⟨hrow, by simpa using hpick⟩)

/-- A candidate of a claim is a pending pair of its test. -/
theorem mem_pendingIds {db : Db F} {t i : Int} (h : i ∈ db.pendingIds t) :
    ∃ p, db.jobPairs.find i = some p ∧ p.status = .pending ∧ p.testId = t := by
  obtain ⟨p, hp, rfl⟩ := List.mem_map.mp h
  obtain ⟨hof, hs⟩ := List.mem_filter.mp ((List.mem_insertionSort _).mp hp)
  obtain ⟨hrow, ht⟩ := List.mem_filter.mp hof
  exact ⟨p, Table.find_of_mem hrow, by simpa using hs, by simpa using ht⟩

theorem mem_expired {db : Db F} {now : ℚ} {i : Int} (h : i ∈ db.expired now) :
    ∃ p, db.jobPairs.find i = some p ∧ p.status = .leased := by
  obtain ⟨p, hp, rfl⟩ := List.mem_map.mp h
  obtain ⟨hrow, hs⟩ := List.mem_filter.mp hp
  simp only [Bool.and_eq_true, beq_iff_eq] at hs
  exact ⟨p, Table.find_of_mem hrow, hs.1⟩

end Db

/-- A guard that lets a result pass: the pair is leased to its client and the test is running. -/
theorem refusal_eq_none {p : PairRow} {g : Guard} {clientId : Int}
    (h : refusal p g clientId = none) : p.leasedBy clientId = true ∧ g.testStatus = .running := by
  unfold refusal at h
  dsimp only at h
  split_ifs at h with h1 h2 h3 h4 h5
  simp only [not_or, not_not, ne_eq] at h4 h5
  exact ⟨by simp [PairRow.leasedBy, h5.1, h5.2], h4⟩

/-- The new pairs of a queued test are fresh rows; the others stay. -/
theorem Enqueued.find_pair {db db' : Db F} {testId : Int} {fens : List String} {vlog : String}
    (h : Enqueued db testId fens vlog db') (i : Int) :
    db'.jobPairs.find i = db.jobPairs.find i ∨
      (db.jobPairs.find i = none ∧ ∃ p, db'.jobPairs.find i = some p ∧ p.Fresh) := by
  obtain ⟨new, hrows, -, hall⟩ := h.pairs
  have hf : db'.jobPairs.find i = (db.jobPairs.find i).or (new.find? fun r => r.id == i) := by
    simp only [Table.find, hrows, List.find?_append]
  cases hi : db.jobPairs.find i with
  | some p => exact .inl (by rw [hf, hi]; rfl)
  | none =>
    rw [hi, Option.none_or] at hf
    cases hn : new.find? fun r => r.id == i with
    | none => exact .inl (hf.trans hn)
    | some p => exact .inr ⟨rfl, p, hf.trans hn, (hall p (List.mem_of_find?_eq_some hn)).1⟩

/-- The call of a step, in terms of its action. -/
theorem callOf_eq_some {s : Server F} {a : Act} {c : Call} (h : s.callOf a = some c) :
    a = .call c ∨ ∃ job x random, a = .smokeFinish x random ∧ s.job = some job ∧
      c = .smoke job x random := by
  cases a with
  | call c' =>
    cases c' with
    | smoke => cases h
    | _ => cases h; exact .inl rfl
  | smokeStart => cases h
  | smokeFinish x random =>
    obtain ⟨job, hj, rfl⟩ := Option.map_eq_some_iff.mp h
    exact .inr ⟨job, x, random, rfl, hj, rfl⟩

variable [LinearOrder F] {E : Env F}

namespace Server

/-- The pairs a step delivers. -/
def delivered (E : Env F) (s : Server F) (op : Op) : List Int :=
  match s.reply E op with
  | some (.ok (.claim r)) => r.pairs.map (·.pairId)
  | _ => []

/-- The step is a submission of this report that is accepted. -/
def Accepts (E : Env F) (s : Server F) (op : Op) (i : Int) (report : RoutedReport) : Prop :=
  op.act = .call (.submit i report) ∧
    ∃ v, s.reply E op = some (.ok (.submit ⟨.accepted, v⟩))

/-- The step is an abandonment that returns true. -/
def Releases (E : Env F) (s : Server F) (op : Op) (i clientId : Int) : Prop :=
  op.act = .call (.abandon i clientId) ∧ s.reply E op = some (.ok (.abandon true))

end Server

theorem Server.Accepts.not_delivered {s : Server F} {op : Op} {i j : Int} {report : RoutedReport}
    (h : s.Accepts E op i report) : j ∉ s.delivered E op := by
  obtain ⟨-, v, hr⟩ := h
  simp [Server.delivered, hr]

theorem Server.Releases.not_delivered {s : Server F} {op : Op} {i j clientId : Int}
    (h : s.Releases E op i clientId) : j ∉ s.delivered E op := by
  simp [Server.delivered, h.2]

/-- The moves of pair `i` in a step. -/
inductive PairMove (E : Env F) (s : Server F) (op : Op) (i : Int) :
    Option PairRow → Option PairRow → Prop
  | same (o : Option PairRow) : i ∉ s.delivered E op → (∀ report, ¬s.Accepts E op i report) →
      (∀ clientId, ¬s.Releases E op i clientId) → PairMove E s op i o o
  | born (p : PairRow) : p.Fresh → i ∉ s.delivered E op → PairMove E s op i none (some p)
  | leased (p : PairRow) (t : TestRow) (clientId slotsFree : Int) (until_ : ℚ) :
      op.act = .call (.claim clientId slotsFree) → i ∈ s.delivered E op → p.status = .pending →
      s.db.runningTest = some t → p.testId = t.id →
      PairMove E s op i (some p) (some (p.lease clientId op.now until_))
  | completed (p : PairRow) (report : RoutedReport) : s.Accepts E op i report →
      p.leasedBy report.clientId = true → PairMove E s op i (some p) (some (p.complete op.now))
  | released (p : PairRow) (clientId : Int) : s.Releases E op i clientId →
      p.leasedBy clientId = true → PairMove E s op i (some p) (some p.release)
  | expired (p : PairRow) : op.act = .call .recover → p.status = .leased →
      i ∉ s.delivered E op → PairMove E s op i (some p) (some (p.expire E.cfg.maxAttempts))

/-- What a step does: nothing, or the committed effect of its call. -/
theorem Server.step_cases (E : Env F) (s : Server F) (op : Op) :
    ((s.step E op).db = s.db ∧ s.callOf op.act = none ∧ s.reply E op = none) ∨
    ∃ c, s.callOf op.act = some c ∧
      (((s.step E op).db = s.db ∧ ∃ e, s.reply E op = some (.error e)) ∨
       ((s.step E op).db = s.db ∧ ∃ r db', s.reply E op = some (.ok r) ∧
          Effect E op.now op.skip s.db c (.rollback r) db') ∨
       (∃ r, s.reply E op = some (.ok r) ∧
          Effect E op.now op.skip s.db c (.commit r) (s.step E op).db)) := by
  cases hc : s.callOf op.act with
  | none => exact .inl ⟨by simp [Server.step, hc], rfl, by simp [Server.reply, hc]⟩
  | some c =>
    refine .inr ⟨c, rfl, ?_⟩
    have hdb : (s.step E op).db = (c.atomically E op.now op.skip s.db).2 := by
      simp [Server.step, hc]
    have hr : s.reply E op = some (c.atomically E op.now op.skip s.db).1 := by
      simp [Server.reply, hc]
    have hended := Call.ended E op.now op.skip c s.db
    rw [hdb, hr]
    generalize (c.atomically E op.now op.skip s.db).1 = answer at hended ⊢
    generalize (c.atomically E op.now op.skip s.db).2 = db' at hended ⊢
    cases hended with
    | raised e => exact .inl ⟨rfl, e, rfl⟩
    | undone r db' h => exact .inr (.inl ⟨rfl, r, db', rfl, h⟩)
    | committed r db' h => exact .inr (.inr ⟨r, rfl, h⟩)

theorem Server.step_db (E : Env F) (s : Server F) (op : Op) :
    (s.step E op).db = s.db ∨ ∃ c r, s.callOf op.act = some c ∧ s.reply E op = some (.ok r) ∧
      Effect E op.now op.skip s.db c (.commit r) (s.step E op).db := by
  rcases s.step_cases E op with ⟨hdb, -⟩ | ⟨c, hc, ⟨hdb, -⟩ | ⟨hdb, -⟩ | ⟨r, hr, h⟩⟩
  · exact .inl hdb
  · exact .inl hdb
  · exact .inl hdb
  · exact .inr ⟨c, r, hc, hr, h⟩

/-- An answer is that of a transaction that has ended. -/
theorem Server.reply_ok {s : Server F} {op : Op} {c : Call} {r : Reply}
    (hc : s.callOf op.act = some c) (hr : s.reply E op = some (.ok r)) :
    (∃ db', Effect E op.now op.skip s.db c (.rollback r) db') ∨
      Effect E op.now op.skip s.db c (.commit r) (s.step E op).db := by
  rcases s.step_cases E op with ⟨-, -, hn⟩ | ⟨c', hc', ⟨-, e, hn⟩ | ⟨-, r', db', hn, h⟩ |
    ⟨r', hn, h⟩⟩
  · cases hr.symm.trans hn
  · cases hr.symm.trans hn
  · cases hr.symm.trans hn
    cases Option.some.inj (hc.symm.trans hc')
    exact .inl ⟨db', h⟩
  · cases hr.symm.trans hn
    cases Option.some.inj (hc.symm.trans hc')
    exact .inr h

/-- A step whose answer concerns pair `i` in no way, and that leaves it where it is. -/
theorem PairMove.quiet {s : Server F} {op : Op} {i : Int} {o o' : Option PairRow}
    {answer : Option (Except Failure Reply)} (hr : s.reply E op = answer) (ho : o' = o)
    (hc : ∀ r, answer = some (.ok (.claim r)) → i ∉ r.pairs.map (·.pairId))
    (hs : ∀ v, answer = some (.ok (.submit ⟨.accepted, v⟩)) →
      ∀ report, op.act ≠ .call (.submit i report))
    (ha : answer = some (.ok (.abandon true)) → ∀ clientId, op.act ≠ .call (.abandon i clientId)) :
    PairMove E s op i o o' := by
  subst ho hr
  refine .same _ ?_ ?_ ?_
  · unfold Server.delivered
    split
    next r h => exact hc r h
    next => simp
  · rintro report ⟨hact, v, h⟩
    exact hs v h report hact
  · rintro clientId ⟨hact, h⟩
    exact ha h clientId hact

/-- A refused result is not accepted. -/
theorem refusal_ne_accepted {p : PairRow} {g : Guard} {clientId : Int} :
    refusal p g clientId ≠ some .accepted := by
  unfold refusal
  dsimp only
  split_ifs <;> simp

/-- What a rolled back call answers: nothing is delivered, accepted or released. -/
theorem Effect.rollback_answer {now : ℚ} {skip : Lock → Bool} {db db' : Db F} {c : Call} {r : Reply}
    (h : Effect E now skip db c (.rollback r) db') :
    (∀ x, r ≠ .claim x) ∧ (∀ v, r ≠ .submit ⟨.accepted, v⟩) ∧ r ≠ .abandon true := by
  generalize hout : Finish.rollback r = out at h
  cases h with
  | invalidSpec => cases hout; simp
  | create _ _ _ _ _ _ _ _ hi hfin => cases hi; subst hfin; cases hout
  | smoke _ _ _ _ _ _ hj hfin =>
    subst hfin
    cases hj with
    | late => cases hout; simp
    | invalid => cases hout
    | queued => cases hout
  | promote => cases hout
  | stop _ _ _ _ hs hfin =>
    subst hfin
    cases hs with
    | refused => cases hout; simp
    | waiting => cases hout
    | running => cases hout
  | setPriority _ _ _ _ _ hs hfin =>
    subst hfin
    cases hs with
    | refused => cases hout; simp
    | updated => cases hout
  | register => cases hout
  | heartbeat => cases hout
  | ban => cases hout
  | claim _ _ _ _ _ hs hfin =>
    subst hfin
    cases hs with
    | leased => cases hout
    | answered => cases hout
  | submit _ _ _ _ _ hs hfin =>
    subst hfin
    cases hs with
    | unknown => cases hout; simp
    | refused p g st _ _ _ hr =>
      cases hout
      refine ⟨by simp, ?_, by simp⟩
      rintro v heq
      injection heq with heq
      injection heq with heq
      subst heq
      exact refusal_ne_accepted hr
    | accepted => cases hout
  | abandon _ _ _ _ _ hs hfin =>
    subst hfin
    cases hs with
    | refused => cases hout
    | released => cases hout
  | recover _ _ _ hs hfin =>
    subst hfin
    cases hs with
    | recovered => cases hout

section Commits

variable {s : Server F} {op : Op} {db' : Db F} {clientId : Int}

/-- A claim moves the pairs it has picked. -/
theorem Claimed.pair {slotsFree : Int} {r : ClaimResult}
    (h : Claimed op.skip E.cfg op.now clientId slotsFree s.db (.commit r) db')
    (hact : op.act = .call (.claim clientId slotsFree)) (hr : s.reply E op = some (.ok (.claim r)))
    (hpos : s.db.Positioned) (i : Int) :
    PairMove E s op i (s.db.jobPairs.find i) (db'.jobPairs.find i) := by
  cases h with
  | answered _ _ hnil => exact .quiet hr rfl (by simp [hnil]) (by simp) (by simp)
  | leased t c picked _ _ ht _ hpick hdb hpairs =>
    have hpos' : db'.Positioned := hdb ▸ hpos.updatePairs _ _ _ fun _ => rfl
    have hdel : i ∈ r.pairs.map (·.pairId) ↔ i ∈ picked ∧ ∃ p, db'.jobPairs.find i = some p := by
      rw [hpairs, Db.mem_claimed hpos']
    by_cases hmem : i ∈ picked
    · have hcand : i ∈ s.db.pendingIds t.id := by
        rw [hpick] at hmem
        exact (Script.mem_unlocked hmem).1
      obtain ⟨p, hp, hpend, htest⟩ := Db.mem_pendingIds hcand
      have hnew : db'.jobPairs.find i =
          some (p.lease clientId op.now (op.now + leaseSeconds E.cfg t c)) := by
        rw [hdb, Db.leaseTo, Db.find_updatePairs_hit, hp]
        · rfl
        · rintro r rfl
          simpa using hmem
      rw [hp, hnew]
      refine .leased p t clientId slotsFree _ hact ?_ hpend ht htest
      simpa [Server.delivered, hr] using hdel.mpr ⟨hmem, _, hnew⟩
    · have hsame : db'.jobPairs.find i = s.db.jobPairs.find i := by
        rw [hdb, Db.leaseTo, Db.find_updatePairs_miss]
        rintro r rfl
        simpa using hmem
      refine .quiet hr hsame ?_ (by simp) (by simp)
      rintro _ ⟨⟩ hmem'
      exact hmem (hdel.mp hmem').1

/-- An accepted result completes its pair. -/
theorem Submitted.pair {j : Int} {report : RoutedReport} {r : SubmitResult}
    (h : Submitted E op.now j report.toPairReport s.db (.commit r) db')
    (hact : op.act = .call (.submit j report)) (hr : s.reply E op = some (.ok (.submit r)))
    (i : Int) : PairMove E s op i (s.db.jobPairs.find i) (db'.jobPairs.find i) := by
  cases h with
  | accepted p g _ hp hg hnone _ href =>
    obtain ⟨-, hid⟩ := Table.find_some hp
    rw [href.sameQueue.jobPairs]
    change PairMove E s op i _ ((s.db.updatePairs (·.id == p.id) (.complete op.now)
      (PairRow.complete_id op.now)).jobPairs.find i)
    by_cases hi : i = j
    · subst hi
      rw [Db.find_updatePairs_hit, hp]
      · exact .completed p report ⟨hact, _, hr⟩ (refusal_eq_none hnone).1
      · intro r hri
        simp [hri, hid]
    · refine .quiet hr ?_ (by simp) ?_ (by simp)
      · apply Db.find_updatePairs_miss
        rintro r rfl
        simpa [hid] using hi
      · rintro v - report' heq
        cases hact.symm.trans heq
        exact hi rfl

theorem Abandoned.pair {j : Int} {released : Bool}
    (h : Abandoned j clientId s.db (.commit released) db')
    (hact : op.act = .call (.abandon j clientId))
    (hr : s.reply E op = some (.ok (.abandon released))) (i : Int) :
    PairMove E s op i (s.db.jobPairs.find i) (db'.jobPairs.find i) := by
  cases h with
  | refused => exact .quiet hr rfl (by simp) (by simp) (by simp)
  | released p hp hl =>
    by_cases hi : i = j
    · subst hi
      rw [Db.find_updatePairs_hit, hp]
      · exact .released p clientId ⟨hact, hr⟩ hl
      · intro r hri
        simp [hri]
    · refine .quiet hr ?_ (by simp) (by simp) ?_
      · apply Db.find_updatePairs_miss
        rintro r rfl
        simpa using hi
      · rintro - clientId' heq
        cases hact.symm.trans heq
        exact hi rfl

/-- The recovery ends the leases it has picked. -/
theorem Recovered.pair {r : LeaseRecovery}
    (h : Recovered op.skip E op.now E.cfg.maxAttempts s.db (.commit r) db')
    (hact : op.act = .call .recover) (hr : s.reply E op = some (.ok (.recovery r))) (i : Int) :
    PairMove E s op i (s.db.jobPairs.find i) (db'.jobPairs.find i) := by
  cases h with
  | recovered expired _ _ hexp hall =>
    rw [hall.sameQueue.jobPairs, Db.expire]
    by_cases hmem : i ∈ expired
    · have hcand : i ∈ s.db.expired op.now := by
        rw [hexp] at hmem
        exact (Script.mem_unlocked hmem).1
      obtain ⟨p, hp, hl⟩ := Db.mem_expired hcand
      rw [Db.find_updatePairs_hit, hp]
      · exact .expired p hact hl (by simp [Server.delivered, hr])
      · rintro r rfl
        simpa using hmem
    · refine .quiet hr ?_ (by simp) (by simp) (by simp)
      apply Db.find_updatePairs_miss
      rintro r rfl
      simpa using hmem

/-- How a committed call moves a pair. -/
theorem Effect.commit_pair {c : Call} {r : Reply} (hc : s.callOf op.act = some c)
    (hr : s.reply E op = some (.ok r)) (h : Effect E op.now op.skip s.db c (.commit r) db')
    (hpos : s.db.Positioned) (i : Int) :
    PairMove E s op i (s.db.jobPairs.find i) (db'.jobPairs.find i) := by
  generalize hout : Finish.commit r = out at h
  have act : ∀ c', c = c' → (∀ job x random, c' ≠ .smoke job x random) → op.act = .call c' := by
    rintro c' rfl hne
    rcases callOf_eq_some hc with ha | ⟨job, x, random, -, -, rfl⟩
    · exact ha
    · exact absurd rfl (hne job x random)
  cases h with
  | invalidSpec => cases hout
  | create _ _ _ _ _ _ _ _ hi hfin =>
    cases hi
    subst hfin
    cases hout
    exact .quiet hr rfl (by simp) (by simp) (by simp)
  | smoke job x random _ _ _ hj hfin =>
    subst hfin
    cases hj with
    | late => cases hout
    | invalid => cases hout; exact .quiet hr rfl (by simp) (by simp) (by simp)
    | queued t fens vlog promoted db₁ db₂ _ _ _ href hp =>
      cases hout
      have hsame := href.sameQueue.trans hp.sameQueue
      rw [hsame.jobPairs]
      rcases (enqueue_spec s.db job.testId fens random vlog).find_pair i with he | ⟨hn, p, hp, hf⟩
      · exact .quiet hr he (by simp) (by simp) (by simp)
      · rw [hn, hp]
        exact .born p hf (by simp [Server.delivered, hr])
  | promote promoted _ hp =>
    cases hout
    exact .quiet hr (by rw [hp.sameQueue.jobPairs]) (by simp) (by simp) (by simp)
  | stop _ _ _ _ hs hfin =>
    subst hfin
    cases hs with
    | refused => cases hout
    | waiting => cases hout; exact .quiet hr rfl (by simp) (by simp) (by simp)
    | running t promoted _ _ _ hp =>
      cases hout
      exact .quiet hr (by rw [hp.sameQueue.jobPairs]; rfl) (by simp) (by simp) (by simp)
  | setPriority _ _ _ _ _ hs hfin =>
    subst hfin
    cases hs with
    | refused => cases hout
    | updated => cases hout; exact .quiet hr rfl (by simp) (by simp) (by simp)
  | register reg _ =>
    cases hout
    refine .quiet hr ?_ (by simp) (by simp) (by simp)
    unfold Db.upsertClient
    split <;> rfl
  | heartbeat => cases hout; exact .quiet hr rfl (by simp) (by simp) (by simp)
  | ban => cases hout; exact .quiet hr rfl (by simp) (by simp) (by simp)
  | claim clientId slotsFree fin _ _ hs hfin =>
    subst hfin
    cases fin with
    | rollback => cases hout
    | commit => cases hout; exact hs.pair (act _ rfl (by simp)) hr hpos i
  | submit pairId report fin _ _ hs hfin =>
    subst hfin
    cases fin with
    | rollback => cases hout
    | commit => cases hout; exact hs.pair (act _ rfl (by simp)) hr i
  | abandon pairId clientId fin _ _ hs hfin =>
    subst hfin
    cases fin with
    | rollback => cases hout
    | commit => cases hout; exact hs.pair (act _ rfl (by simp)) hr i
  | recover fin _ _ hs hfin =>
    subst hfin
    cases fin with
    | rollback => cases hout
    | commit => cases hout; exact hs.pair (act _ rfl (by simp)) hr i

end Commits

/-- How a step moves a pair. -/
theorem Server.step_pair (E : Env F) (s : Server F) (op : Op) (hpos : s.db.Positioned) (i : Int) :
    PairMove E s op i (s.db.jobPairs.find i) ((s.step E op).db.jobPairs.find i) := by
  rcases s.step_cases E op with ⟨hdb, -, hr⟩ | ⟨c, hc, ⟨hdb, e, hr⟩ | ⟨hdb, r, db', hr, h⟩ |
    ⟨r, hr, h⟩⟩
  · exact .quiet hr (by rw [hdb]) (by simp) (by simp) (by simp)
  · exact .quiet hr (by rw [hdb]) (by simp) (by simp) (by simp)
  · obtain ⟨hclaim, hsubmit, habandon⟩ := h.rollback_answer
    refine .quiet hr (by rw [hdb]) ?_ ?_ ?_
    · rintro x heq
      exact absurd (Except.ok.inj (Option.some.inj heq)) (hclaim x)
    · rintro v heq
      exact absurd (Except.ok.inj (Option.some.inj heq)) (hsubmit v)
    · rintro heq
      exact absurd (Except.ok.inj (Option.some.inj heq)) habandon
  · exact h.commit_pair hc hr hpos i

end CapiNet
