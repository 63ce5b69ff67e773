import CapiNet.ScoreViews
import CapiNet.SmokeEffect
import Mathlib.Data.Multiset.Bind

namespace CapiNet

open Txn Relational

variable {F : Type}

/-- A completed pair with its valid games. -/
abbrev Settlement : Type := PairRow × List GameRow

namespace Settlement

def rows (e : Settlement) : List PairOutcome := outcomesOf e.1 e.2

def scores (e : Settlement) : Multiset ℚ := (e.rows.map (·.pairScore) : List ℚ)

/-- The games with a given outcome, once for each row of the pair. -/
def scored (o : GameOutcome) (e : Settlement) : Nat := e.rows.length * e.2.countP (·.outcome == o)

theorem card_scores (e : Settlement) : Multiset.card e.scores = e.rows.length := by
  rw [scores, Multiset.coe_card, List.length_map]

theorem scores_category {e : Settlement} {s : ℚ} (h : s ∈ e.scores) : ∃ c : Penta, s = c.score := by
  obtain ⟨o, ho, rfl⟩ := List.mem_map.mp (Multiset.mem_coe.mp h)
  exact outcomesOf_score ho

end Settlement

def Db.settlement (db : Db F) (p : PairRow) : Settlement := (p, db.validGames p)

/-- The completed pairs of a test. -/
def Db.settled (db : Db F) (testId : Int) : Multiset Settlement :=
  ((db.completedPairs.filter (·.testId == testId)).map db.settlement : List Settlement)

/-- The scores of some pairs. -/
def scoresOf (S : Multiset Settlement) : Multiset ℚ := S.bind Settlement.scores

def distribution (S : Multiset Settlement) : Pentanomial :=
  ⟨fun i => (scoresOf S).count (scoreAt i)⟩

/-- The games of some pairs with a given outcome. -/
def scoredOf (S : Multiset Settlement) (o : GameOutcome) : Nat := (S.map (Settlement.scored o)).sum

/-- The statistics of a test, from scratch. -/
def recount [LinearOrder F] (N : Numerics F) (t : TestRow) (S : Multiset Settlement) :
    Except Failure (Recomputed F) :=
  recompute N t (distribution S) (scoredOf S .candidateWin) (scoredOf S .draw)
    (scoredOf S .candidateLoss)

theorem scoresOf_settled (db : Db F) (testId : Int) :
    scoresOf (db.settled testId) = (db.scores testId : List ℚ) := by
  rw [Db.scores_eq, scoresOf, Db.settled, ← Multiset.map_coe, Multiset.bind_map,
    ← Multiset.coe_bind]
  rfl

theorem Db.Keyed.scoredOf_settled {db : Db F} (h : db.Keyed) (testId : Int) (o : GameOutcome) :
    scoredOf (db.settled testId) o = db.countGames testId o := by
  rw [h.countGames_eq, scoredOf, Db.settled, Multiset.map_coe, Multiset.sum_coe, List.map_map]
  rfl

theorem distribution_settled (db : Db F) (testId : Int) :
    tally (db.countScores testId) = .ok (distribution (db.settled testId)) := by
  rw [Db.tally_countScores, distribution, scoresOf_settled]
  simp only [Multiset.coe_count]

/-- What a recomputation reads is the completed pairs. -/
theorem Db.Keyed.recomputed_eq [LinearOrder F] {db : Db F} (h : db.Keyed) (N : Numerics F)
    (t : TestRow) : db.recomputed N t = recount N t (db.settled t.id) := by
  rw [Db.recomputed, distribution_settled, recount, h.scoredOf_settled, h.scoredOf_settled,
    h.scoredOf_settled]
  rfl

theorem pairs_distribution (S : Multiset Settlement) :
    (distribution S).pairs = Multiset.card (scoresOf S) := by
  have hcat : ∀ s ∈ (scoresOf S).toList, ∃ c : Penta, s = c.score := by
    intro s hs
    obtain ⟨e, -, he⟩ := Multiset.mem_bind.mp (Multiset.mem_toList.mp hs)
    exact Settlement.scores_category he
  obtain ⟨htotal, -⟩ := score_counts hcat
  have hcount : ∀ s, (scoresOf S).toList.count s = (scoresOf S).count s := by
    intro s
    rw [← Multiset.coe_count, Multiset.coe_toList]
  simp only [hcount, Multiset.length_toList] at htotal
  rw [← htotal]
  exact Fin.sum_univ_five _

@[simp] theorem scoresOf_add (S T : Multiset Settlement) :
    scoresOf (S + T) = scoresOf S + scoresOf T := Multiset.add_bind S T _

@[simp] theorem scoredOf_add (S T : Multiset Settlement) (o : GameOutcome) :
    scoredOf (S + T) o = scoredOf S o + scoredOf T o := by
  rw [scoredOf, Multiset.map_add, Multiset.sum_add]
  rfl

/-- Pairs that bring nothing to count. -/
theorem scoredOf_of_scoresOf {S : Multiset Settlement} (h : scoresOf S = 0) (o : GameOutcome) :
    scoredOf S o = 0 := by
  refine Multiset.sum_eq_zero fun n hn => ?_
  obtain ⟨e, he, rfl⟩ := Multiset.mem_map.mp hn
  have hscores : e.scores = 0 := by
    refine Multiset.eq_zero_of_forall_notMem fun s hs => ?_
    have hmem : s ∈ scoresOf S := Multiset.mem_bind.mpr ⟨e, he, hs⟩
    rw [h] at hmem
    exact Multiset.notMem_zero s hmem
  have hrows : e.rows.length = 0 := by rw [← Settlement.card_scores, hscores, Multiset.card_zero]
  rw [Settlement.scored, hrows, Nat.zero_mul]

/-- What the statistics depend on in the row of a test, and no statement changes. -/
def TestRow.terms (t : TestRow) : TestKind × Option Double × Option Double × Option Double × Option Double :=
  (t.kind, t.sprtElo0, t.sprtElo1, t.sprtAlpha, t.sprtBeta)

section Books

variable [LinearOrder F] {N : Numerics F}

theorem recount_congr {t t' : TestRow} (h : t'.terms = t.terms) (S : Multiset Settlement) :
    recount N t' S = recount N t S := by
  simp only [TestRow.terms, Prod.mk.injEq] at h
  obtain ⟨hk, h0, h1, ha, hb⟩ := h
  rw [recount, recompute, hk, h0, h1, ha, hb]
  rfl

theorem recount_add {t : TestRow} {S T : Multiset Settlement} (h : scoresOf T = 0) :
    recount N t (S + T) = recount N t S := by
  have hdist : distribution (S + T) = distribution S := by
    rw [distribution, scoresOf_add, h, add_zero]
    rfl
  rw [recount, hdist, scoredOf_add, scoredOf_add, scoredOf_add, scoredOf_of_scoresOf h,
    scoredOf_of_scoresOf h, scoredOf_of_scoresOf h]
  rfl

theorem recount_pairs {t : TestRow} {S : Multiset Settlement} {r : Recomputed F}
    (h : recount N t S = .ok r) : r.stats.pairsValid = Multiset.card (scoresOf S) := by
  rw [← pairs_distribution]
  exact (recompute_counts h).2.1

/-- Every row of a history has one pair more than the one before. -/
def Steps (l : List (HistoryRow F)) : Prop := l.IsChain fun a b => b.pairsValid = a.pairsValid + 1

def TestStats.historyRow (testId : Int) (s : TestStats F) : HistoryRow F :=
  ⟨testId, s.pairsValid, s.llr, s.elo⟩

def Db.historyOf (db : Db F) (testId : Int) : List (HistoryRow F) :=
  db.history.filter (·.testId == testId)

/-- The books of a test that has the given completed pairs. -/
inductive Books (N : Numerics F) (db : Db F) (i : Int) : Multiset Settlement → Prop
  | unopened : db.testStats i = none → db.historyOf i = [] → Books N db i 0
  | kept (t : TestRow) (S : Multiset Settlement) (r : Recomputed F) : db.tests.find i = some t →
      recount N t S = .ok r → db.testStats i = some r.stats → Steps (db.historyOf i) →
      (db.historyOf i).getLast? = some (r.stats.historyRow i) → Books N db i S

theorem Books.congr {u v : Db F} {i : Int} {S : Multiset Settlement} (h : Books N u i S)
    (hstats : v.testStats i = u.testStats i) (hhist : v.historyOf i = u.historyOf i)
    (hrow : ∀ t, u.tests.find i = some t → ∃ t', v.tests.find i = some t' ∧ t'.terms = t.terms) :
    Books N v i S := by
  cases h with
  | unopened hnone hnil => exact .unopened (hstats.trans hnone) (hhist.trans hnil)
  | kept t _ r ht hr hs hsteps hlast =>
    obtain ⟨t', ht', hterms⟩ := hrow t ht
    refine .kept t' S r ht' ?_ (hstats.trans hs) ?_ ?_
    · rw [recount_congr hterms]
      exact hr
    · rw [hhist]
      exact hsteps
    · rw [hhist]
      exact hlast

/-- Books that are kept say what a recomputation would say. -/
theorem Books.stats_eq {db : Db F} {i : Int} {S : Multiset Settlement} {t : TestRow}
    {r : Recomputed F} {s : TestStats F} (h : Books N db i S) (ht : db.tests.find i = some t)
    (hr : recount N t S = .ok r) (hs : db.testStats i = some s) : s = r.stats := by
  cases h with
  | unopened hnone =>
    rw [hs] at hnone
    cases hnone
  | kept t' _ r' ht' hr' hs' =>
    cases Option.some.inj (ht.symm.trans ht')
    cases Except.ok.inj (hr.symm.trans hr')
    exact Option.some.inj (hs.symm.trans hs')

omit [LinearOrder F] in
theorem historyOf_record_ne (db : Db F) {i j : Int} (s : TestStats F) (h : j ≠ i) :
    (db.record i s).historyOf j = db.historyOf j := by
  unfold Db.record Db.appendHistory Db.upsertStats
  split
  · rfl
  · simp [Db.historyOf, Ne.symm h]

omit [LinearOrder F] in
/-- A recorded count makes a point of the history if the last one is another. -/
theorem historyOf_record (db : Db F) (i : Int) (s : TestStats F) :
    (db.record i s).historyOf i =
      if some s.pairsValid = (db.historyOf i).getLast?.map (·.pairsValid) then db.historyOf i
        else db.historyOf i ++ [s.historyRow i] := by
  have hlast : (db.upsertStats i s).lastHistory i = (db.historyOf i).getLast? := rfl
  unfold Db.record Db.appendHistory
  rw [hlast]
  split
  · rfl
  · simp [Db.historyOf, Db.upsertStats, TestStats.historyRow]

/-- A recomputation that finds one pair more, or none, brings the books up to date. -/
theorem Books.record {db : Db F} {i : Int} {S T : Multiset Settlement} {t : TestRow}
    {r : Recomputed F} (h : Books N db i S) (hT : Multiset.card (scoresOf T) ≤ 1)
    (ht : db.tests.find i = some t) (hr : recount N t (S + T) = .ok r) :
    Books N (db.record i r.stats) i (S + T) := by
  have hrow : (db.record i r.stats).tests.find i = some t := by
    rw [Db.tests_record]
    exact ht
  have hstats := Db.testStats_record db i r.stats
  have hpairs := recount_pairs hr
  rw [scoresOf_add, Multiset.card_add] at hpairs
  cases h with
  | unopened hnone hnil =>
    have hhist : (db.record i r.stats).historyOf i = [r.stats.historyRow i] := by
      rw [historyOf_record, hnil]
      rfl
    refine .kept t _ r hrow hr hstats ?_ ?_
    · rw [hhist]
      exact List.isChain_singleton _
    · rw [hhist]
      rfl
  | kept t' _ r' ht' hr' hs' hsteps hlast =>
    cases Option.some.inj (ht.symm.trans ht')
    have hpairs' := recount_pairs hr'
    rcases Nat.eq_zero_or_pos (Multiset.card (scoresOf T)) with hzero | hpos
    · -- nothing new to count: the statistics are the same
      have hsame : r = r' := by
        rw [recount_add (Multiset.card_eq_zero.mp hzero)] at hr
        exact Except.ok.inj (hr.symm.trans hr')
      subst hsame
      have hhist : (db.record i r.stats).historyOf i = db.historyOf i := by
        rw [historyOf_record, hlast]
        exact if_pos rfl
      refine .kept t _ r hrow hr hstats ?_ ?_
      · rw [hhist]
        exact hsteps
      · rw [hhist]
        exact hlast
    · have hnext : r.stats.pairsValid = r'.stats.pairsValid + 1 := by omega
      have hhist : (db.record i r.stats).historyOf i = db.historyOf i ++ [r.stats.historyRow i] := by
        rw [historyOf_record, hlast]
        refine if_neg fun he => ?_
        have he' : r.stats.pairsValid = r'.stats.pairsValid := Option.some.inj he
        omega
      refine .kept t _ r hrow hr hstats ?_ ?_
      · rw [hhist]
        refine List.isChain_append.mpr ⟨hsteps, List.isChain_singleton _, ?_⟩
        intro x hx y hy
        rw [hlast] at hx
        cases Option.some.inj hx
        cases Option.some.inj hy
        exact hnext
      · rw [hhist]
        simp

end Books

theorem settled_congr {u v : Db F} (hp : v.completedPairs = u.completedPairs)
    (hg : v.games = u.games) (i : Int) : v.settled i = u.settled i := by
  have hsettle : v.settlement = u.settlement := by
    funext p
    unfold Db.settlement Db.validGames Db.gamesOf
    rw [hg]
  rw [Db.settled, Db.settled, hp, hsettle]

theorem filter_changed {α : Type} {p q : α → Bool} {f : α → α} {l : List α}
    (h : ∀ x ∈ l, p x = true → q x = false ∧ q (f x) = false) :
    (l.map fun x => if p x then f x else x).filter q = l.filter q := by
  induction l with
  | nil => rfl
  | cons x l ih =>
    have hl := ih fun y hy => h y (by simp [hy])
    rw [List.map_cons, List.filter_cons, List.filter_cons, hl]
    by_cases hx : p x = true
    · obtain ⟨hq, hqf⟩ := h x (by simp) hx
      simp [hx, hq, hqf]
    · simp [hx]

/-- Pairs that stay open are not among the completed ones. -/
theorem completedPairs_updatePairs {db : Db F} {p : PairRow → Bool} {f : PairRow → PairRow}
    {hf : ∀ r, (f r).id = r.id} (h : ∀ r ∈ db.jobPairs.rows, p r = true →
      r.status ≠ .completed ∧ (f r).status ≠ .completed) :
    (db.updatePairs p f hf).completedPairs = db.completedPairs := by
  refine filter_changed fun r hr hp => ?_
  obtain ⟨h1, h2⟩ := h r hr hp
  exact ⟨by simpa using h1, by simpa using h2⟩

theorem completedPairs_addPairs (db : Db F) (testId : Int) (random : Nat → ℚ) :
    (db.addPairs testId random).completedPairs = db.completedPairs := by
  obtain ⟨new, _, _, _, h, -, hnew⟩ := addPairs_spec db testId random
  have hnone : new.filter (·.status == .completed) = [] := by
    refine List.filter_eq_nil_iff.mpr fun p hp => ?_
    simp [(hnew p hp).1.1]
  rw [h, Db.completedPairs, List.filter_append, hnone, List.append_nil]
  rfl

theorem sum_changed {α M : Type} [AddCommMonoid M] {key : α → Int} {l : List α}
    (hl : (l.map key).Nodup) {p : α} (hp : p ∈ l) {φ ψ : α → M} {f : α → α} (hzero : φ p = 0)
    (hother : ∀ q ∈ l, key q ≠ key p → ψ q = φ q) :
    ((l.map fun q => if key q == key p then f q else q).map ψ).sum = (l.map φ).sum + ψ (f p) := by
  obtain ⟨a, b, rfl⟩ := List.append_of_mem hp
  rw [List.map_append, List.map_cons, List.nodup_append] at hl
  obtain ⟨-, hb, hab⟩ := hl
  have hside : ∀ m ⊆ a ++ p :: b, (∀ q ∈ m, key q ≠ key p) →
      (m.map fun q => if key q == key p then f q else q).map ψ = m.map φ := by
    intro m hm hne
    rw [List.map_map]
    refine List.map_congr_left fun q hq => ?_
    simp [hne q hq, hother q (hm hq) (hne q hq)]
  have ha : ∀ q ∈ a, key q ≠ key p := fun q hq =>
    hab _ (List.mem_map_of_mem hq) _ (by simp)
  have hb' : ∀ q ∈ b, key q ≠ key p := fun q hq he =>
    (List.nodup_cons.mp hb).1 (he ▸ List.mem_map_of_mem hq)
  rw [List.map_append, List.map_append, List.map_cons, List.map_cons,
    hside a (by simp) ha, hside b (fun q hq => by simp [hq]) hb', List.map_append, List.map_cons,
    List.sum_append, List.sum_append, List.sum_cons, List.sum_cons, hzero, zero_add]
  simp only [beq_self_eq_true, if_true]
  rw [add_comm (ψ (f p)), add_assoc]

theorem settled_eq_sum (db : Db F) (i : Int) :
    db.settled i = (db.jobPairs.rows.map fun p =>
      if p.status = .completed ∧ p.testId = i then ({db.settlement p} : Multiset Settlement)
        else 0).sum := by
  rw [Db.settled, Db.completedPairs, List.filter_filter]
  induction db.jobPairs.rows with
  | nil => rfl
  | cons p l ih =>
    rw [List.map_cons, List.sum_cons, ← ih]
    by_cases hp : p.status = .completed ∧ p.testId = i
    · rw [if_pos hp, List.filter_cons_of_pos (by simp [hp])]
      rfl
    · rw [if_neg hp, List.filter_cons_of_neg (by simpa [and_comm] using hp), zero_add]

/-- What an accepted result adds to the completed pairs of its test. -/
def Env.settlement (E : Env F) (now : ℚ) (p : PairRow) (report : PairReport) : Settlement :=
  (p.complete now, ((List.finRange 2).map (gameRow E p.id p.testId report)).filter (·.valid))

theorem gamesOf_deliver (E : Env F) (db : Db F) (now : ℚ) (p : PairRow) (report : PairReport)
    (i : Int) : (db.deliver E now p report).gamesOf i = db.gamesOf i ++
      if p.id = i then [gameRow E p.id p.testId report 0, gameRow E p.id p.testId report 1]
        else [] := by
  rw [Db.gamesOf, Db.games_deliver, List.filter_append]
  by_cases hi : p.id = i
  · simp [Db.gamesOf, gameRow, hi]
  · simp [Db.gamesOf, gameRow, hi]

/-- A delivery adds its own pair, and nothing else. -/
theorem settled_deliver (E : Env F) {db : Db F} (now : ℚ) {p : PairRow} (report : PairReport)
    (hp : p ∈ db.jobPairs.rows) (hopen : p.status ≠ .completed) (hgames : db.gamesOf p.id = [])
    (i : Int) : (db.deliver E now p report).settled i =
      db.settled i + if p.testId = i then {E.settlement now p report} else 0 := by
  have hother : ∀ q ∈ db.jobPairs.rows, q.id ≠ p.id →
      (db.deliver E now p report).settlement q = db.settlement q := by
    intro q _ hq
    unfold Db.settlement Db.validGames
    rw [gamesOf_deliver, if_neg (Ne.symm hq), List.append_nil]
  have hown : (db.deliver E now p report).settlement (p.complete now) =
      E.settlement now p report := by
    unfold Db.settlement Db.validGames
    rw [PairRow.complete_id, gamesOf_deliver, if_pos rfl, hgames, List.nil_append]
    rfl
  rw [settled_eq_sum, settled_eq_sum]
  refine (sum_changed (φ := fun q => if q.status = .completed ∧ q.testId = i then
    ({db.settlement q} : Multiset Settlement) else 0) db.jobPairs.nodup hp ?_ ?_).trans ?_
  · simp [hopen]
  · intro q hq hne
    rw [hother q hq hne]
  · rw [hown]
    simp [PairRow.complete]

/-- The games are those of completed pairs, and every pair belongs to a test. -/
structure Db.Hosted (db : Db F) : Prop where
  keyed : db.Keyed
  played : ∀ g ∈ db.games, ∃ p, db.jobPairs.find g.pairId = some p ∧ p.status = .completed
  owned : ∀ p ∈ db.jobPairs.rows, ∃ t, db.tests.find p.testId = some t

namespace Db.Hosted

variable {db : Db F}

theorem empty : (Db.empty : Db F).Hosted :=
  ⟨⟨List.nodup_nil, by simp [Db.empty], by simp [Db.empty]⟩, by simp [Db.empty], by simp [Db.empty]⟩

/-- An open pair has no games. -/
theorem gamesOf_eq_nil (h : db.Hosted) {p : PairRow} (hp : p ∈ db.jobPairs.rows)
    (hopen : p.status ≠ .completed) : db.gamesOf p.id = [] := by
  refine List.filter_eq_nil_iff.mpr fun g hg hid => ?_
  obtain ⟨q, hq, hs⟩ := h.played g hg
  have hid : g.pairId = p.id := by simpa using hid
  rw [hid, Table.find_of_mem hp] at hq
  exact hopen (Option.some.inj hq ▸ hs)

theorem tests (h : db.Hosted) {db' : Db F} (hg : db'.games = db.games)
    (hp : db'.jobPairs = db.jobPairs)
    (ht : ∀ i t, db.tests.find i = some t → ∃ t', db'.tests.find i = some t') : db'.Hosted := by
  refine ⟨⟨?_, ?_, ?_⟩, ?_, ?_⟩
  · rw [hg]; exact h.keyed.unique
  · rw [hg]; exact h.keyed.colors
  · rw [hg, hp]; exact h.keyed.sameTest
  · rw [hg, hp]; exact h.played
  · rw [hp]
    intro p hmem
    obtain ⟨t, hfind⟩ := h.owned p hmem
    exact ht _ t hfind

theorem updatePairs (h : db.Hosted) {p : PairRow → Bool} {f : PairRow → PairRow}
    {hf : ∀ r, (f r).id = r.id} (htest : ∀ r, (f r).testId = r.testId)
    (hopen : ∀ r ∈ db.jobPairs.rows, p r = true → r.status ≠ .completed) :
    (db.updatePairs p f hf).Hosted := by
  refine ⟨⟨h.keyed.unique, h.keyed.colors, fun g hg r hr hid => ?_⟩, fun g hg => ?_, fun r hr => ?_⟩
  · obtain ⟨q, hq, rfl⟩ := Db.mem_updatePairs.mp hr
    split at hid
    next hpq =>
      rw [if_pos hpq, htest]
      exact h.keyed.sameTest g hg q hq (hid.trans (hf q))
    next hpq =>
      rw [if_neg hpq]
      exact h.keyed.sameTest g hg q hq hid
  · obtain ⟨q, hq, hs⟩ := h.played g hg
    refine ⟨q, ?_, hs⟩
    have hnot : ¬p q = true := fun hpq => hopen q (Table.find_some hq).1 hpq hs
    rw [Db.find_updatePairs, hq, Option.map_some, if_neg hnot]
  · obtain ⟨q, hq, rfl⟩ := Db.mem_updatePairs.mp hr
    have hsame : (if p q then f q else q).testId = q.testId := by
      split
      · exact htest q
      · rfl
    rw [hsame]
    exact h.owned q hq

theorem addPairs (h : db.Hosted) {testId : Int} {random : Nat → ℚ} {t : TestRow}
    (ht : db.tests.find testId = some t) : (db.addPairs testId random).Hosted := by
  obtain ⟨new, next, hb, hn, heq, -, hnew⟩ := addPairs_spec db testId random
  rw [heq]
  have hfind : ∀ i p, db.jobPairs.find i = some p →
      (⟨db.jobPairs.rows ++ new, next, hb, hn⟩ : Table PairRow (·.id)).find i = some p := by
    intro i p hp
    obtain ⟨hmem, hid⟩ := Table.find_some hp
    exact Table.find_eq_some.mpr ⟨List.mem_append_left _ hmem, hid⟩
  refine ⟨⟨h.keyed.unique, h.keyed.colors, fun g hg p hp hid => ?_⟩, fun g hg => ?_, fun p hp => ?_⟩
  · rcases List.mem_append.mp hp with hold | hadded
    · exact h.keyed.sameTest g hg p hold hid
    · obtain ⟨q, hq, hs⟩ := h.played g hg
      have hpq : (⟨db.jobPairs.rows ++ new, next, hb, hn⟩ : Table PairRow (·.id)).find p.id = some p :=
        Table.find_of_mem (t := ⟨db.jobPairs.rows ++ new, next, hb, hn⟩) hp
      have hq' := hfind _ q hq
      rw [hid, hpq] at hq'
      rw [← Option.some.inj hq', (hnew p hadded).1.1] at hs
      cases hs
  · obtain ⟨q, hq, hs⟩ := h.played g hg
    exact ⟨q, hfind _ q hq, hs⟩
  · rcases List.mem_append.mp hp with hold | hadded
    · exact h.owned p hold
    · exact ⟨t, (hnew p hadded).2.1 ▸ ht⟩

theorem deliver (h : db.Hosted) (E : Env F) (now : ℚ) {p : PairRow} (report : RoutedReport)
    (hp : p ∈ db.jobPairs.rows) (hopen : p.status ≠ .completed) :
    (db.deliver E now p report.toPairReport).Hosted := by
  have hnone := h.gamesOf_eq_nil hp hopen
  have hgame : ∀ g ∈ (db.deliver E now p report.toPairReport).games, g ∈ db.games ∨
      (g.pairId = p.id ∧ g.testId = p.testId ∧ (g.gameInPair = 0 ∨ g.gameInPair = 1)) := by
    intro g hg
    rw [Db.games_deliver] at hg
    simp only [List.mem_append, List.mem_cons, List.not_mem_nil, or_false] at hg
    rcases hg with hg | rfl | rfl
    · exact .inl hg
    · exact .inr ⟨rfl, rfl, .inl (report.routed 0)⟩
    · exact .inr ⟨rfl, rfl, .inr (report.routed 1)⟩
  have hrow : ∀ q ∈ (db.deliver E now p report.toPairReport).jobPairs.rows, ∃ r ∈ db.jobPairs.rows,
      q.id = r.id ∧ q.testId = r.testId := by
    intro q hq
    obtain ⟨r, hr, rfl⟩ := (Db.mem_updatePairs (h := PairRow.complete_id now)).mp hq
    refine ⟨r, hr, ?_⟩
    split
    · exact ⟨rfl, rfl⟩
    · exact ⟨rfl, rfl⟩
  refine ⟨⟨?_, fun g hg => ?_, fun g hg q hq hid => ?_⟩, fun g hg => ?_, fun q hq => ?_⟩
  · have hfresh : ∀ g ∈ db.games, g.pairId ≠ p.id := by
      intro g hg hid
      have hmem : g ∈ db.gamesOf p.id := List.mem_filter.mpr ⟨hg, by simp [hid]⟩
      rw [hnone] at hmem
      cases hmem
    rw [Db.games_deliver, List.map_append]
    refine List.nodup_append.mpr ⟨h.keyed.unique, ?_, ?_⟩
    · have h0 := report.routed 0
      have h1 := report.routed 1
      simp [gameRow, h0, h1]
    · intro a ha b hb hab
      obtain ⟨g, hg, rfl⟩ := List.mem_map.mp ha
      have hbid : b.1 = p.id := by
        simp only [List.map_cons, List.map_nil, List.mem_cons, List.not_mem_nil, or_false] at hb
        rcases hb with rfl | rfl
        · rfl
        · rfl
      exact hfresh g hg ((congrArg Prod.fst hab).trans hbid)
  · rcases hgame g hg with hold | ⟨-, -, hslot⟩
    · exact h.keyed.colors g hold
    · exact hslot
  · obtain ⟨r, hr, hqid, hqtest⟩ := hrow q hq
    rcases hgame g hg with hold | ⟨hpair, htest, -⟩
    · rw [hqtest]
      exact h.keyed.sameTest g hold r hr (hid.trans hqid)
    · have hrp : r = p := Table.eq_of_mem_of_key hr hp (hqid.symm.trans (hid.symm.trans hpair))
      rw [htest, hqtest, hrp]
  · have hfind : ∀ i, (db.deliver E now p report.toPairReport).jobPairs.find i =
        (db.jobPairs.find i).map fun r => if r.id == p.id then r.complete now else r :=
      fun i => Db.find_updatePairs db _ _ (PairRow.complete_id now) i
    rcases hgame g hg with hold | ⟨hpair, -, -⟩
    · obtain ⟨q, hq, hs⟩ := h.played g hold
      refine ⟨if q.id == p.id then q.complete now else q, by rw [hfind, hq]; rfl, ?_⟩
      split
      · rfl
      · exact hs
    · refine ⟨p.complete now, ?_, rfl⟩
      rw [hfind, hpair, Table.find_of_mem hp]
      simp
  · obtain ⟨r, hr, -, htest⟩ := hrow q hq
    rw [htest]
    exact h.owned r hr

end Db.Hosted

end CapiNet
