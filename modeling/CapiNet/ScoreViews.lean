import CapiNet.Outcomes
import CapiNet.TestInvariant

namespace CapiNet

open Txn Relational

variable {F : Type}

/-- The key of `games` with its check, and games that carry the test of their pair. -/
structure Db.Keyed (db : Db F) : Prop where
  unique : (db.games.map fun g => (g.pairId, g.gameInPair)).Nodup
  colors : ∀ g ∈ db.games, g.gameInPair = 0 ∨ g.gameInPair = 1
  sameTest : ∀ g ∈ db.games, ∀ p ∈ db.jobPairs.rows, g.pairId = p.id → g.testId = p.testId

/-- A completed pair whose two games are valid and by one client. -/
def Db.Counted (db : Db F) (p : PairRow) : Prop :=
  p.status = .completed ∧ ∃ a ∈ db.gamesOf p.id, ∃ b ∈ db.gamesOf p.id,
    a.gameInPair = 0 ∧ b.gameInPair = 1 ∧ a.valid = true ∧ b.valid = true ∧
      a.clientId = b.clientId

def Db.validGames (db : Db F) (p : PairRow) : List GameRow :=
  (db.gamesOf p.id).filter (·.valid)

/-- How often the games of a pair are counted in the score of its test. -/
def Db.scoredGames (db : Db F) (p : PairRow) : Nat :=
  (((db.gamesOf p.id).filter fun g => g.testId == p.testId && g.valid).map
    fun g => db.pairOutcomes.countP (·.pairId == g.pairId)).sum

theorem Db.mem_validGames {db : Db F} {p : PairRow} {g : GameRow} :
    g ∈ db.validGames p ↔ g ∈ db.games ∧ g.pairId = p.id ∧ g.valid = true := by
  simp only [Db.validGames, Db.gamesOf, List.mem_filter, beq_iff_eq, and_assoc]

theorem Db.Keyed.nodup_slots {db : Db F} (h : db.Keyed) (p : PairRow) :
    ((db.validGames p).map (·.gameInPair)).Nodup := by
  have hsub : (db.validGames p).Sublist db.games :=
    List.filter_sublist.trans List.filter_sublist
  have hkeys := h.unique.sublist (hsub.map fun g => (g.pairId, g.gameInPair))
  have hpair : (db.validGames p).map (fun g => (g.pairId, g.gameInPair)) =
      ((db.validGames p).map (·.gameInPair)).map fun k => (p.id, k) := by
    rw [List.map_map]
    refine List.map_congr_left fun g hg => ?_
    obtain ⟨-, hid, -⟩ := mem_validGames.mp hg
    simp [hid]
  rw [hpair] at hkeys
  exact hkeys.of_map

theorem Db.Keyed.length_validGames {db : Db F} (h : db.Keyed) (p : PairRow) :
    (db.validGames p).length ≤ 2 := by
  have hsub : (db.validGames p).map (·.gameInPair) ⊆ [0, 1] := by
    intro k hk
    obtain ⟨g, hg, rfl⟩ := List.mem_map.mp hk
    rcases h.colors g (mem_validGames.mp hg).1 with h0 | h1
    · simp [h0]
    · simp [h1]
  have hlen := (List.subperm_of_subset (h.nodup_slots p) hsub).length_le
  simpa using hlen

/-- A pair is counted when its valid games are two of one client. -/
theorem Db.Keyed.counted_iff {db : Db F} (h : db.Keyed) (p : PairRow) :
    db.Counted p ↔ p.status = .completed ∧
      ∃ a b, db.validGames p = [a, b] ∧ a.clientId = b.clientId := by
  refine and_congr_right fun _ => ⟨?_, ?_⟩
  · rintro ⟨a, ha, b, hb, ha0, hb1, hav, hbv, hclient⟩
    have hma : a ∈ db.validGames p := List.mem_filter.mpr ⟨ha, hav⟩
    have hmb : b ∈ db.validGames p := List.mem_filter.mpr ⟨hb, hbv⟩
    have hne : a ≠ b := by
      intro he
      rw [he, hb1] at ha0
      omega
    have hlen := h.length_validGames p
    rcases hv : db.validGames p with _ | ⟨x, _ | ⟨y, _ | ⟨z, rest⟩⟩⟩
    · simp [hv] at hma
    · rw [hv, List.mem_singleton] at hma hmb
      exact absurd (hma.trans hmb.symm) hne
    · rw [hv] at hma hmb
      refine ⟨x, y, rfl, ?_⟩
      simp only [List.mem_cons, List.not_mem_nil, or_false] at hma hmb
      rcases hma with rfl | rfl <;> rcases hmb with rfl | rfl
      · exact absurd rfl hne
      · exact hclient
      · exact hclient.symm
      · exact absurd rfl hne
    · rw [hv] at hlen
      simp only [List.length_cons] at hlen
      omega
  · rintro ⟨a, b, hv, hclient⟩
    have hma : a ∈ db.validGames p := by simp [hv]
    have hmb : b ∈ db.validGames p := by simp [hv]
    have hgame : ∀ g ∈ db.validGames p, g ∈ db.gamesOf p.id ∧ g.valid = true :=
      fun g hg => List.mem_filter.mp hg
    have hslots := h.nodup_slots p
    rw [hv] at hslots
    have hne : a.gameInPair ≠ b.gameInPair := by simpa using hslots
    obtain ⟨hga, hva⟩ := hgame a hma
    obtain ⟨hgb, hvb⟩ := hgame b hmb
    rcases h.colors a (mem_validGames.mp hma).1 with ha | ha
    · have hb := (h.colors b (mem_validGames.mp hmb).1).resolve_left (fun hb => hne (ha.trans hb.symm))
      exact ⟨a, hga, b, hgb, ha, hb, hva, hvb, hclient⟩
    · have hb := (h.colors b (mem_validGames.mp hmb).1).resolve_right (fun hb => hne (ha.trans hb.symm))
      exact ⟨b, hgb, a, hga, hb, ha, hvb, hva, hclient.symm⟩

theorem outcomesOf_pair {p : PairRow} {a b : GameRow} (h : a.clientId = b.clientId) :
    outcomesOf p [a, b] = [⟨p.id, p.testId, a.clientId, a.outcome.score + b.outcome.score⟩] := by
  simp [outcomesOf, h]

theorem outcomesOf_other {p : PairRow} {v : List GameRow} (hlen : v.length ≤ 2)
    (h : ∀ a b, v = [a, b] → a.clientId ≠ b.clientId) : outcomesOf p v = [] := by
  rcases v with _ | ⟨a, _ | ⟨b, _ | ⟨c, rest⟩⟩⟩
  · rfl
  · simp [outcomesOf]
  · have hne := h a b rfl
    simp [outcomesOf, hne, Ne.symm hne]
  · simp only [List.length_cons] at hlen
    omega

/-- The rows of the view for a pair with the given valid games. -/
inductive Rows (p : PairRow) (v : List GameRow) : List PairOutcome → Prop
  | counted (a b : GameRow) : v = [a, b] → a.clientId = b.clientId →
      Rows p v [⟨p.id, p.testId, a.clientId, a.outcome.score + b.outcome.score⟩]
  | none : (∀ a b, v = [a, b] → a.clientId ≠ b.clientId) → Rows p v []

theorem Db.Keyed.rows {db : Db F} (h : db.Keyed) (p : PairRow) :
    Rows p (db.validGames p) (outcomesOf p (db.validGames p)) := by
  by_cases hc : ∃ a b, db.validGames p = [a, b] ∧ a.clientId = b.clientId
  · obtain ⟨a, b, hv, hclient⟩ := hc
    rw [hv, outcomesOf_pair hclient]
    exact .counted a b rfl hclient
  · have hne : ∀ a b, db.validGames p = [a, b] → a.clientId ≠ b.clientId :=
      fun a b hv hclient => hc ⟨a, b, hv, hclient⟩
    rw [outcomesOf_other (h.length_validGames p) hne]
    exact .none hne

def Db.completedPairs (db : Db F) : List PairRow := db.jobPairs.rows.filter (·.status == .completed)

/-- The rows of the view a pair has. -/
def Db.rowsOf (db : Db F) (p : PairRow) : List PairOutcome := outcomesOf p (db.validGames p)

theorem Db.pairOutcomes_eq (db : Db F) : db.pairOutcomes = db.completedPairs.flatMap db.rowsOf := rfl

theorem Db.mem_rowsOf {db : Db F} {p : PairRow} {o : PairOutcome} (h : o ∈ db.rowsOf p) :
    o.pairId = p.id ∧ o.testId = p.testId := by
  obtain ⟨c, -, hc⟩ := List.mem_filterMap.mp h
  dsimp only at hc
  split at hc
  next => cases hc; exact ⟨rfl, rfl⟩
  next => cases hc

theorem Db.countP_rowsOf (db : Db F) (p : PairRow) (i : Int) :
    (db.rowsOf p).countP (·.pairId == i) = if p.id = i then (db.rowsOf p).length else 0 := by
  split
  next hid =>
    refine List.countP_eq_length.mpr fun o ho => ?_
    simp [(mem_rowsOf ho).1, hid]
  next hid =>
    refine List.countP_eq_zero.mpr fun o ho => ?_
    simp [(mem_rowsOf ho).1, hid]

theorem Db.countP_pairOutcomes (db : Db F) (i : Int) :
    db.pairOutcomes.countP (·.pairId == i) =
      (db.completedPairs.map fun p => if p.id = i then (db.rowsOf p).length else 0).sum := by
  rw [pairOutcomes_eq, List.countP_flatMap]
  congr 1
  exact List.map_congr_left fun p _ => db.countP_rowsOf p i

theorem sum_at_key {α : Type} (key : α → Int) (f : α → Nat) {l : List α} (h : (l.map key).Nodup)
    (i : Int) :
    (l.map fun q => if key q = i then f q else 0).sum =
      ((l.find? fun q => key q == i).map f).getD 0 := by
  induction l with
  | nil => rfl
  | cons q l ih =>
    obtain ⟨hq, hl⟩ := List.nodup_cons.mp h
    by_cases hk : key q = i
    · have hrest : (l.map fun r => if key r = i then f r else 0).sum = 0 := by
        refine List.sum_eq_zero fun n hn => ?_
        obtain ⟨r, hr, rfl⟩ := List.mem_map.mp hn
        have hne : key r ≠ i := fun he => hq (List.mem_map.mpr ⟨r, hr, he.trans hk.symm⟩)
        simp [hne]
      simp [hk, hrest]
    · simp [hk, ih hl]

theorem sum_ite_const {α : Type} (q : α → Prop) [DecidablePred q] (n : Nat) (l : List α) :
    (l.map fun x => if q x then n else 0).sum = n * l.countP (fun x => decide (q x)) := by
  induction l with
  | nil => simp
  | cons x l ih =>
    rw [List.map_cons, List.sum_cons, ih, List.countP_cons, Nat.mul_add, Nat.add_comm]
    by_cases hx : q x <;> simp [hx]

theorem sum_filter {α : Type} (q : α → Bool) (f : α → Nat) (l : List α) :
    (l.map fun x => if q x then f x else 0).sum = ((l.filter q).map f).sum := by
  induction l with
  | nil => rfl
  | cons x l ih =>
    rw [List.map_cons, List.sum_cons, ih]
    cases hx : q x <;> simp [hx]

theorem Db.nodup_completedPairs (db : Db F) : (db.completedPairs.map (·.id)).Nodup :=
  db.jobPairs.nodup.sublist (List.filter_sublist.map _)

/-- The view's rows for a pair, found by its identity. -/
theorem Db.countP_pair {db : Db F} {p : PairRow} (hp : p ∈ db.jobPairs.rows) :
    db.pairOutcomes.countP (·.pairId == p.id) =
      if p.status = .completed then (db.rowsOf p).length else 0 := by
  rw [countP_pairOutcomes]
  refine (sum_at_key (·.id) (fun q => (db.rowsOf q).length) db.nodup_completedPairs p.id).trans ?_
  split
  next hs =>
    have hmem : p ∈ db.completedPairs := List.mem_filter.mpr ⟨hp, by simp [hs]⟩
    cases hfind : db.completedPairs.find? fun q => q.id == p.id with
    | none =>
      have hno := List.find?_eq_none.mp hfind p hmem
      simp at hno
    | some q =>
      have hq : q ∈ db.completedPairs := List.mem_of_find?_eq_some hfind
      have hid : q.id = p.id := by simpa using List.find?_some hfind
      rw [List.inj_on_of_nodup_map db.nodup_completedPairs hq hmem hid]
      rfl
  next hs =>
    have hnone : (db.completedPairs.find? fun q => q.id == p.id) = none := by
      refine List.find?_eq_none.mpr fun q hq hid => ?_
      obtain ⟨hmem, hstatus⟩ := List.mem_filter.mp hq
      have he := db.jobPairs.eq_of_mem_of_key hmem hp (by simpa using hid)
      exact hs (by simpa [he] using hstatus)
    rw [hnone]
    rfl

/-- The games of the score, pair by pair. -/
theorem Db.Keyed.countGames_eq {db : Db F} (h : db.Keyed) (testId : Int) (o : GameOutcome) :
    db.countGames testId o =
      ((db.completedPairs.filter (·.testId == testId)).map fun p =>
        (db.rowsOf p).length * (db.validGames p).countP (·.outcome == o)).sum := by
  have hswap : db.countGames testId o = (db.completedPairs.map fun p =>
      ((db.games.filter fun g => g.testId == testId && g.valid && g.outcome == o).map fun g =>
        if p.id = g.pairId then (db.rowsOf p).length else 0).sum).sum := by
    unfold Db.countGames
    simp only [countP_pairOutcomes]
    simpa using Multiset.sum_map_sum_map
      (db.games.filter fun g => g.testId == testId && g.valid && g.outcome == o : Multiset GameRow)
      (db.completedPairs : Multiset PairRow)
      (f := fun g p => if p.id = g.pairId then (db.rowsOf p).length else 0)
  have hpair : ∀ p ∈ db.completedPairs,
      ((db.games.filter fun g => g.testId == testId && g.valid && g.outcome == o).map fun g =>
        if p.id = g.pairId then (db.rowsOf p).length else 0).sum =
      if p.testId == testId then (db.rowsOf p).length * (db.validGames p).countP (·.outcome == o)
        else 0 := by
    intro p hp
    have hrow := (List.mem_filter.mp hp).1
    rw [sum_ite_const, List.countP_filter]
    by_cases ht : p.testId = testId
    · rw [if_pos (by simpa using ht)]
      congr 1
      rw [Db.validGames, Db.gamesOf, List.countP_filter, List.countP_filter]
      refine List.countP_congr fun g hg => ?_
      have htest := h.sameTest g hg p hrow
      simp only [Bool.and_eq_true, decide_eq_true_eq, beq_iff_eq]
      constructor
      · rintro ⟨hid, ⟨-, hvalid⟩, ho⟩
        exact ⟨⟨ho, hvalid⟩, hid.symm⟩
      · rintro ⟨⟨ho, hvalid⟩, hid⟩
        exact ⟨hid.symm, ⟨(htest hid).trans ht, hvalid⟩, ho⟩
    · rw [if_neg (by simpa using ht)]
      have hnone : db.games.countP (fun g => decide (p.id = g.pairId) &&
          (g.testId == testId && g.valid && g.outcome == o)) = 0 := by
        refine List.countP_eq_zero.mpr fun g hg hall => ?_
        simp only [Bool.and_eq_true, decide_eq_true_eq, beq_iff_eq] at hall
        obtain ⟨hid, ⟨hg', -⟩, -⟩ := hall
        exact ht ((h.sameTest g hg p hrow hid.symm).symm.trans hg')
      rw [hnone, Nat.mul_zero]
  rw [hswap, List.map_congr_left hpair, sum_filter]

theorem Db.filter_rows (db : Db F) (testId : Int) (l : List PairRow) :
    (l.flatMap db.rowsOf).filter (·.testId == testId) =
      (l.filter (·.testId == testId)).flatMap db.rowsOf := by
  induction l with
  | nil => rfl
  | cons p l ih =>
    rw [List.flatMap_cons, List.filter_append, ih]
    by_cases ht : p.testId = testId
    · have hall : (db.rowsOf p).filter (·.testId == testId) = db.rowsOf p :=
        List.filter_eq_self.mpr fun o ho => by simp [(mem_rowsOf ho).2, ht]
      simp [hall, ht]
    · have hnone : (db.rowsOf p).filter (·.testId == testId) = [] :=
        List.filter_eq_nil_iff.mpr fun o ho => by simp [(mem_rowsOf ho).2, ht]
      simp [hnone, ht]

theorem Db.scores_eq (db : Db F) (testId : Int) :
    db.scores testId = (db.completedPairs.filter (·.testId == testId)).flatMap
      fun p => (db.rowsOf p).map (·.pairScore) := by
  rw [Db.scores, pairOutcomes_eq, filter_rows, List.map_flatMap]

theorem countP_outcomes (v : List GameRow) :
    v.countP (·.outcome == .candidateWin) + v.countP (·.outcome == .draw) +
      v.countP (·.outcome == .candidateLoss) = v.length := by
  induction v with
  | nil => rfl
  | cons g v ih =>
    simp only [List.countP_cons, List.length_cons]
    cases g.outcome <;> simp <;> omega

theorem points_games (v : List GameRow) :
    2 * (v.countP (·.outcome == .candidateWin) : ℚ) + v.countP (·.outcome == .draw) =
      2 * (v.map (·.outcome.score)).sum := by
  induction v with
  | nil => simp
  | cons g v ih =>
    simp only [List.countP_cons, List.map_cons, List.sum_cons, Nat.cast_add]
    generalize (v.map (·.outcome.score)).sum = total at ih
    cases g.outcome <;> simp [GameOutcome.score] <;> linarith

theorem Db.Keyed.rows_games {db : Db F} (h : db.Keyed) (p : PairRow) :
    (db.rowsOf p).length * (db.validGames p).length = 2 * (db.rowsOf p).length := by
  have hrows := h.rows p
  unfold Db.rowsOf
  generalize outcomesOf p (db.validGames p) = os at hrows
  cases hrows with
  | counted a b hv _ => simp [hv]
  | none _ => simp

theorem Db.Keyed.rows_points {db : Db F} (h : db.Keyed) (p : PairRow) :
    2 * (((db.rowsOf p).length * (db.validGames p).countP (·.outcome == .candidateWin) : Nat) : ℚ) +
        ((db.rowsOf p).length * (db.validGames p).countP (·.outcome == .draw) : Nat) =
      2 * ((db.rowsOf p).map (·.pairScore)).sum := by
  have hrows := h.rows p
  unfold Db.rowsOf
  generalize outcomesOf p (db.validGames p) = os at hrows
  cases hrows with
  | counted a b hv _ =>
    have hgames := points_games (db.validGames p)
    simpa [hv] using hgames
  | none _ => simp

/-- Every valid game of a counted pair is in the score, and no other. -/
theorem Db.Keyed.countGames_total {db : Db F} (h : db.Keyed) (testId : Int) :
    db.countGames testId .candidateWin + db.countGames testId .draw +
      db.countGames testId .candidateLoss = 2 * (db.scores testId).length := by
  rw [h.countGames_eq, h.countGames_eq, h.countGames_eq, scores_eq, List.length_flatMap,
    ← List.sum_map_add, ← List.sum_map_add, ← List.sum_map_mul_left]
  congr 1
  refine List.map_congr_left fun p _ => ?_
  rw [← Nat.mul_add, ← Nat.mul_add, countP_outcomes, h.rows_games, List.length_map]

theorem Db.Keyed.countGames_points {db : Db F} (h : db.Keyed) (testId : Int) :
    2 * (db.countGames testId .candidateWin : ℚ) + db.countGames testId .draw =
      2 * (db.scores testId).sum := by
  rw [h.countGames_eq, h.countGames_eq, scores_eq, List.flatMap_def, List.sum_flatten, List.map_map]
  push_cast [List.map_map]
  rw [← List.sum_map_mul_left, ← List.sum_map_mul_left, ← List.sum_map_add]
  congr 1
  refine List.map_congr_left fun p _ => ?_
  exact h.rows_points p

/-- The five counts of a list of category scores. -/
theorem score_counts {L : List ℚ} (h : ∀ s ∈ L, ∃ c : Penta, s = c.score) :
    L.count Penta.ll.score + L.count Penta.ld.score + L.count Penta.ddWl.score +
        L.count Penta.wd.score + L.count Penta.ww.score = L.length ∧
      (L.count Penta.ld.score + 2 * L.count Penta.ddWl.score + 3 * L.count Penta.wd.score +
        4 * L.count Penta.ww.score : ℚ) = 2 * L.sum := by
  induction L with
  | nil => simp
  | cons s L ih =>
    obtain ⟨htotal, hpoints⟩ := ih fun t ht => h t (by simp [ht])
    obtain ⟨c, rfl⟩ := h s (by simp)
    simp only [List.count_cons, List.length_cons, List.sum_cons, beq_iff_eq,
      Penta.score_injective.eq_iff]
    constructor
    · cases c <;> simp <;> omega
    · cases c <;> simp [Penta.score, Penta.index] at hpoints ⊢ <;> linarith

/-- The score and the distribution of a row agree. -/
structure TestStats.Agree (s : TestStats F) : Prop where
  pairs : s.pairsValid = s.penta.get .ll + s.penta.get .ld + s.penta.get .ddWl + s.penta.get .wd +
    s.penta.get .ww
  games : s.gamesWins + s.gamesDraws + s.gamesLosses = 2 * s.pairsValid
  points : 2 * s.gamesWins + s.gamesDraws =
    1 * s.penta.get .ld + 2 * s.penta.get .ddWl + 3 * s.penta.get .wd + 4 * s.penta.get .ww

theorem Db.recomputed_stats [LinearOrder F] {N : Numerics F} {db : Db F} {t : TestRow}
    {r : Recomputed F} (h : db.recomputed N t = .ok r) :
    tally (db.countScores t.id) = .ok r.stats.penta ∧ r.stats.pairsValid = r.stats.penta.pairs ∧
      r.stats.gamesWins = db.countGames t.id .candidateWin ∧
      r.stats.gamesDraws = db.countGames t.id .draw ∧
      r.stats.gamesLosses = db.countGames t.id .candidateLoss := by
  obtain ⟨penta, hp, hr⟩ := bind_eq_ok.mp h
  obtain ⟨hpenta, hpairs, hgames⟩ := recompute_counts hr
  rw [hpenta]
  exact ⟨hp, hpairs, hgames⟩

theorem Db.Keyed.recomputed_agree [LinearOrder F] {N : Numerics F} {db : Db F} (hk : db.Keyed)
    {t : TestRow} {r : Recomputed F} (h : db.recomputed N t = .ok r) : r.stats.Agree := by
  obtain ⟨hpenta, hpairs, hw, hd, hl⟩ := Db.recomputed_stats h
  rw [Db.tally_countScores] at hpenta
  have hget : ∀ c, r.stats.penta.get c = (db.scores t.id).count c.score := by
    intro c
    rw [← Except.ok.inj hpenta]
    rfl
  obtain ⟨htotal, hpoints⟩ := score_counts (L := db.scores t.id) fun s hs => Db.scores_category hs
  simp only [← hget] at htotal hpoints
  have hvalid : r.stats.pairsValid = (db.scores t.id).length := by
    rw [hpairs, ← htotal]
    exact Fin.sum_univ_five _
  refine ⟨hvalid.trans htotal.symm, ?_, ?_⟩
  · rw [hw, hd, hl, hk.countGames_total, hvalid]
  · have hgames := hk.countGames_points t.id
    rw [← hpoints, ← hw, ← hd] at hgames
    rw [Nat.one_mul]
    exact_mod_cast hgames

theorem Promoted.testStats {now : ℚ} {db db' : Db F} {promoted : Option Int}
    (h : Promoted now db promoted db') : db'.testStats = db.testStats := by
  cases h <;> rfl

/-- What a recomputation writes agrees. -/
theorem Refreshed.agree [LinearOrder F] {N : Numerics F} {now : ℚ} {testId : Int} {db db' : Db F}
    (hk : db.Keyed) (h : Refreshed N now testId db db') {t : TestRow}
    (ht : db.tests.find testId = some t) : ∃ s, db'.testStats testId = some s ∧ s.Agree := by
  cases h with
  | missing hnone =>
    rw [hnone] at ht
    cases ht
  | kept _ r _ hr _ => exact ⟨r.stats, Db.testStats_record db testId r.stats, hk.recomputed_agree hr⟩
  | finished _ r _ _ _ _ hr _ _ hprom =>
    refine ⟨r.stats, ?_, hk.recomputed_agree hr⟩
    rw [hprom.testStats]
    exact Db.testStats_record db testId r.stats

theorem Db.Keyed.scoredGames_eq {db : Db F} (h : db.Keyed) {p : PairRow}
    (hp : p ∈ db.jobPairs.rows) :
    db.scoredGames p = 2 * db.pairOutcomes.countP (·.pairId == p.id) := by
  have hgames : ((db.gamesOf p.id).filter fun g => g.testId == p.testId && g.valid) =
      db.validGames p := by
    refine List.filter_congr fun g hg => ?_
    obtain ⟨hmem, hid⟩ := List.mem_filter.mp hg
    simp [h.sameTest g hmem p hp (by simpa using hid)]
  have hsame : ((db.validGames p).map fun g => db.pairOutcomes.countP (·.pairId == g.pairId)) =
      (db.validGames p).map fun _ => db.pairOutcomes.countP (·.pairId == p.id) := by
    refine List.map_congr_left fun g hg => ?_
    rw [(mem_validGames.mp hg).2.1]
  rw [Db.scoredGames, hgames, hsame, List.map_const', List.sum_replicate, smul_eq_mul, countP_pair hp]
  split
  next => rw [Nat.mul_comm, h.rows_games]
  next => simp

theorem Db.Keyed.counted_rows {db : Db F} (h : db.Keyed) {p : PairRow} (hp : p ∈ db.jobPairs.rows) :
    (db.Counted p ∧ db.pairOutcomes.countP (·.pairId == p.id) = 1) ∨
      (¬db.Counted p ∧ db.pairOutcomes.countP (·.pairId == p.id) = 0) := by
  rw [h.counted_iff p, Db.countP_pair hp]
  by_cases hs : p.status = .completed
  · rw [if_pos hs]
    have hrows := h.rows p
    unfold Db.rowsOf
    generalize outcomesOf p (db.validGames p) = os at hrows
    cases hrows with
    | counted a b hv hclient => exact .inl ⟨⟨hs, a, b, hv, hclient⟩, rfl⟩
    | none hne => exact .inr ⟨fun ⟨_, a, b, hv, hclient⟩ => hne a b hv hclient, rfl⟩
  · rw [if_neg hs]
    exact .inr ⟨fun hc => hs hc.1, rfl⟩

/-- Score and distribution are two views of the same games: no score of the view is refused, the
row a recomputation writes agrees, and a pair has one row and two scored games if it is counted and
none otherwise. -/
theorem score_and_pentanomial_agree [LinearOrder F] {db : Db F} (h : db.Keyed) :
    (∀ o ∈ db.pairOutcomes, ∃ c, categoryFromPairScore o.pairScore = .ok c) ∧
    (∀ testId, ∃ penta, tally (db.countScores testId) = .ok penta) ∧
    (∀ (skip : Lock → Bool) (N : Numerics F) (now : ℚ) (testId : Int) (t : TestRow),
      db.tests.find testId = some t →
      (∀ r, db.recomputed N t = .ok r → r.stats.Agree) ∧
      Script.Ensures skip (refreshTest N now testId) db fun _ db' =>
        ∃ s, db'.testStats testId = some s ∧ s.Agree) ∧
    ∀ p ∈ db.jobPairs.rows,
      ((∃ o ∈ db.pairOutcomes, o.pairId = p.id) ↔ db.Counted p) ∧
      ((∃ g ∈ db.games, g.testId = p.testId ∧ g.valid = true ∧ g.pairId = p.id ∧
        ∃ o ∈ db.pairOutcomes, o.pairId = g.pairId) ↔ db.Counted p) ∧
      (db.Counted p → db.pairOutcomes.countP (·.pairId == p.id) = 1 ∧ db.scoredGames p = 2) ∧
      (¬db.Counted p → db.pairOutcomes.countP (·.pairId == p.id) = 0 ∧ db.scoredGames p = 0) := by
  refine ⟨?_, ?_, ?_, ?_⟩
  · intro o ho
    obtain ⟨c, hc⟩ := Db.pairOutcomes_score ho
    exact ⟨c, by rw [hc, category_score]⟩
  · exact fun testId => ⟨_, db.tally_countScores testId⟩
  · intro skip N now testId t ht
    exact ⟨fun r hr => h.recomputed_agree hr,
      ensures_refreshTest.mono fun _ db' hdb => hdb.agree h ht⟩
  · intro p hp
    have hscored := h.scoredGames_eq hp
    have hrow : (∃ o ∈ db.pairOutcomes, o.pairId = p.id) ↔ db.Counted p := by
      rcases h.counted_rows hp with ⟨hc, hone⟩ | ⟨hc, hzero⟩
      · refine iff_of_true ?_ hc
        have hpos : 0 < db.pairOutcomes.countP (·.pairId == p.id) := by omega
        obtain ⟨o, ho, hid⟩ := List.countP_pos_iff.mp hpos
        exact ⟨o, ho, by simpa using hid⟩
      · refine iff_of_false (fun ⟨o, ho, hid⟩ => ?_) hc
        exact List.countP_eq_zero.mp hzero o ho (by simpa using hid)
    refine ⟨hrow, ?_, ?_, ?_⟩
    · constructor
      · rintro ⟨g, -, -, -, hid, o, ho, hog⟩
        exact hrow.mp ⟨o, ho, hog.trans hid⟩
      · intro hc
        obtain ⟨o, ho, hid⟩ := hrow.mpr hc
        obtain ⟨-, a, ha, -, -, -, -, hvalid, -⟩ := hc
        obtain ⟨hmem, hpair⟩ := List.mem_filter.mp ha
        have hpair : a.pairId = p.id := by simpa using hpair
        exact ⟨a, hmem, h.sameTest a hmem p hp hpair, hvalid, hpair, o, ho, hid.trans hpair.symm⟩
    · intro hc
      rcases h.counted_rows hp with ⟨-, hone⟩ | ⟨hno, -⟩
      · exact ⟨hone, by omega⟩
      · exact absurd hc hno
    · intro hc
      rcases h.counted_rows hp with ⟨hyes, -⟩ | ⟨-, hzero⟩
      · exact absurd hyes hc
      · exact ⟨hzero, by omega⟩

def donePair (id : Int) : PairRow where
  id := id
  testId := 1
  positionId := id
  status := .completed
  dispatchOrder := 0
  leasedTo := none
  leasedAt := none
  leaseExpiresAt := none
  attempts := 1
  completedAt := none
  discardedReason := none

def doneGame (pairId gameInPair : Int) (outcome : GameOutcome) (valid : Bool) : GameRow where
  pairId := pairId
  testId := 1
  clientId := 1
  slotIndex := 0
  coreId := none
  gameInPair := gameInPair
  candidateIsWhite := gameInPair == 0
  outcome := outcome
  termination := .normal
  plyCount := none
  durationMs := none
  cpuFactorAtPlay := .ofInt 1
  tcBaseEffectiveMs := 1000
  tcIncrementEffectiveMs := 10
  valid := valid
  invalidReason := none
  candidateNodes := none
  candidateTimeMs := none
  baselineNodes := none
  baselineTimeMs := none
  pgnGz := []

/-- A counted pair and one with an invalid game. -/
def mixedDb : Db ℚ :=
  { (Db.empty : Db ℚ) with
    jobPairs := (Table.empty.insert donePair fun _ => rfl).insert donePair fun _ => rfl
    games := [doneGame 1 0 .candidateWin true, doneGame 1 1 .draw true,
      doneGame 2 0 .candidateLoss true, doneGame 2 1 .candidateWin false] }

theorem score_and_pentanomial_agree_mixed :
    mixedDb.Counted (donePair 1) ∧ ¬mixedDb.Counted (donePair 2) ∧
      mixedDb.pairOutcomes.countP (·.pairId == 1) = 1 ∧ mixedDb.scoredGames (donePair 1) = 2 ∧
      mixedDb.pairOutcomes.countP (·.pairId == 2) = 0 ∧ mixedDb.scoredGames (donePair 2) = 0 := by
  have hkeyed : mixedDb.Keyed := by
    refine ⟨by decide, ?_, ?_⟩
    · intro g hg
      have hall : mixedDb.games.all (fun g => decide (g.gameInPair = 0 ∨ g.gameInPair = 1)) = true := by
        decide
      exact of_decide_eq_true (List.all_eq_true.mp hall g hg)
    · intro g hg p hp _
      have hgames : mixedDb.games.all (fun g => decide (g.testId = 1)) = true := by decide
      have hpairs : mixedDb.jobPairs.rows.all (fun p => decide (p.testId = 1)) = true := by decide
      have hg' := of_decide_eq_true (List.all_eq_true.mp hgames g hg)
      have hp' := of_decide_eq_true (List.all_eq_true.mp hpairs p hp)
      exact hg'.trans hp'.symm
  obtain ⟨-, -, -, hpairs⟩ := score_and_pentanomial_agree hkeyed
  obtain ⟨-, -, hone, -⟩ := hpairs (donePair 1) (List.mem_cons_self ..)
  obtain ⟨-, -, -, htwo⟩ := hpairs (donePair 2) (List.mem_cons_of_mem _ (List.mem_cons_self ..))
  have hcounted : mixedDb.Counted (donePair 1) :=
    ⟨rfl, doneGame 1 0 .candidateWin true, List.mem_cons_self ..,
      doneGame 1 1 .draw true, List.mem_cons_of_mem _ (List.mem_cons_self ..), rfl, rfl, rfl, rfl, rfl⟩
  have hother : ¬mixedDb.Counted (donePair 2) := by
    rintro ⟨-, a, -, b, hb, -, hb1, -, hvalid, -⟩
    have hfew : (mixedDb.gamesOf 2).all (fun g => decide (g.gameInPair = 0) || !g.valid) = true := by
      decide
    have hb' := List.all_eq_true.mp hfew b hb
    simp [hb1, hvalid] at hb'
  exact ⟨hcounted, hother, (hone hcounted).1, (hone hcounted).2, (htwo hother).1, (htwo hother).2⟩

end CapiNet
