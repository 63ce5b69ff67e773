import CapiNet.Lifecycle

namespace CapiNet

variable {F : Type}

theorem roundAway_natCast (n : Nat) : roundAway n = n := by
  unfold roundAway
  rw [if_pos (by positivity), Int.floor_eq_iff]
  push_cast
  constructor <;> linarith

/-- The score of a category. -/
def Penta.score (c : Penta) : ℚ := (c.index.val : ℚ) / 2

theorem category_score (c : Penta) : categoryFromPairScore c.score = .ok c := by
  have hidx : c.score * 2 = (c.index.val : Nat) := by
    unfold Penta.score
    ring
  have hround : roundAway (c.score * 2) = (c.index.val : Nat) := by rw [hidx, roundAway_natCast]
  have hexact : ¬(1 : ℚ) / 10 ^ 9 < |c.score * 2 - roundAway (c.score * 2)| := by
    rw [hround, hidx]
    norm_num
  dsimp only [categoryFromPairScore]
  rw [if_neg hexact, hround]
  cases c <;> rfl

theorem Penta.score_injective : Function.Injective Penta.score := by
  intro c d h
  have hcat := category_score c
  rw [h, category_score d] at hcat
  exact (Except.ok.inj hcat).symm

/-- Half points of a game. -/
def GameOutcome.points : GameOutcome → Nat
  | .candidateWin => 2
  | .draw => 1
  | .candidateLoss => 0

theorem GameOutcome.score_eq (o : GameOutcome) : o.score = (o.points : ℚ) / 2 := by
  cases o <;> norm_num [GameOutcome.score, GameOutcome.points]

/-- The category with a given number of half points. -/
def Penta.ofPoints : Nat → Penta
  | 0 => .ll
  | 1 => .ld
  | 2 => .ddWl
  | 3 => .wd
  | _ => .ww

theorem Penta.score_ofPoints {n : Nat} (h : n ≤ 4) : (Penta.ofPoints n).score = (n : ℚ) / 2 := by
  have hindex : (Penta.ofPoints n).index.val = n := by
    interval_cases n <;> rfl
  unfold Penta.score
  rw [hindex]

theorem GameOutcome.score_add (a b : GameOutcome) :
    a.score + b.score = (Penta.ofPoints (a.points + b.points)).score := by
  have ha : a.points ≤ 2 := by cases a <;> decide
  have hb : b.points ≤ 2 := by cases b <;> decide
  rw [Penta.score_ofPoints (by omega), a.score_eq, b.score_eq]
  push_cast
  ring

/-- A score the view shows is the score of a category. -/
theorem outcomesOf_score {p : PairRow} {valid : List GameRow} {o : PairOutcome}
    (h : o ∈ outcomesOf p valid) : ∃ c : Penta, o.pairScore = c.score := by
  obtain ⟨c, -, hc⟩ := List.mem_filterMap.mp h
  dsimp only at hc
  split at hc
  next htwo =>
    cases hc
    obtain ⟨a, b, hab⟩ := List.length_eq_two.mp htwo
    refine ⟨Penta.ofPoints (a.outcome.points + b.outcome.points), ?_⟩
    rw [hab, ← GameOutcome.score_add]
    simp
  next => cases hc

theorem Db.pairOutcomes_score {db : Db F} {o : PairOutcome} (h : o ∈ db.pairOutcomes) :
    ∃ c : Penta, o.pairScore = c.score := by
  obtain ⟨p, -, hp⟩ := List.mem_flatMap.mp h
  exact outcomesOf_score hp

/-- The scores of a test. -/
def Db.scores (db : Db F) (testId : Int) : List ℚ :=
  (db.pairOutcomes.filter (·.testId == testId)).map (·.pairScore)

theorem Db.scores_category {db : Db F} {testId : Int} {s : ℚ} (h : s ∈ db.scores testId) :
    ∃ c : Penta, s = c.score := by
  obtain ⟨o, ho, rfl⟩ := List.mem_map.mp h
  exact pairOutcomes_score (List.mem_of_mem_filter ho)

theorem Penta.exists_index (i : Fin 5) : ∃ c : Penta, c.index = i := by
  fin_cases i
  · exact ⟨.ll, rfl⟩
  · exact ⟨.ld, rfl⟩
  · exact ⟨.ddWl, rfl⟩
  · exact ⟨.wd, rfl⟩
  · exact ⟨.ww, rfl⟩

/-- The score of the category at an index. -/
def scoreAt (i : Fin 5) : ℚ := (i.val : ℚ) / 2

theorem tally_rows (f : ℚ → Nat) {D : List ℚ} (hD : D.Nodup)
    (hcat : ∀ s ∈ D, ∃ c : Penta, s = c.score) (p : Pentanomial) :
    (D.map fun s => (s, f s)).foldlM (fun penta row => do
      let c ← categoryFromPairScore row.1
      return Pentanomial.add penta c row.2) p =
    .ok ⟨fun i => p.counts i + if scoreAt i ∈ D then f (scoreAt i) else 0⟩ := by
  induction D generalizing p with
  | nil => simp [pure, Except.pure]
  | cons s D ih =>
    obtain ⟨hs, hnodup⟩ := List.nodup_cons.mp hD
    obtain ⟨c, rfl⟩ := hcat s (by simp)
    rw [List.map_cons, List.foldlM_cons, category_score]
    have hstep := ih hnodup (fun t ht => hcat t (by simp [ht])) (p.add c (f c.score))
    refine Eq.trans hstep ?_
    congr 2
    funext i
    obtain ⟨d, rfl⟩ := Penta.exists_index i
    have hscore : scoreAt d.index = d.score := rfl
    rw [hscore]
    by_cases hdc : d = c
    · subst hdc
      simp [Pentanomial.add, hs]
    · have hscores : d.score ≠ c.score := fun he => hdc (Penta.score_injective he)
      have hindex : d.index ≠ c.index := by
        intro he
        exact hscores (by unfold Penta.score; rw [he])
      simp [Pentanomial.add, hindex, hscores]

/-- The tally counts the pairs of each score. -/
theorem Db.tally_countScores (db : Db F) (testId : Int) :
    tally (db.countScores testId) = .ok ⟨fun i => (db.scores testId).count (scoreAt i)⟩ := by
  have hcat : ∀ s ∈ (db.scores testId).dedup, ∃ c : Penta, s = c.score :=
    fun s hs => scores_category (List.mem_dedup.mp hs)
  have hrows := tally_rows (fun s => (db.scores testId).count s) (List.nodup_dedup _) hcat .empty
  refine Eq.trans hrows ?_
  congr 2
  funext i
  simp only [Pentanomial.empty, Nat.zero_add, List.mem_dedup]
  split
  next => rfl
  next h => exact (List.count_eq_zero.mpr h).symm

end CapiNet
