import CapiNet.SecularError

namespace CapiNet

/-- The score per game of a category. -/
noncomputable def score : Fin 5 → ℝ := (toPdf .empty : PentaPdf ℝ).values

theorem score_eq (i : Fin 5) : score i = i.val / 4 := rfl

/-- The coefficient of a score in a round with the mean `c` and the deviation `σ`. -/
noncomputable def coefficient (s c σ v : ℝ) : ℝ :=
  v - (1 / 2 : ℚ) - s * (σ ^ 2 + (c - v) ^ 2) / (σ + σ)

theorem coefficient_eq (s c σ v : ℝ) :
    coefficient s c σ v = v - 1 / 2 - s * (σ ^ 2 + (c - v) ^ 2) / (2 * σ) := by
  rw [coefficient, two_mul]
  norm_num

/-- A distribution with its moments, but for the errors of the solver. -/
structure Distributed (q : Fin 5 → ℝ) (c σ : ℝ) : Prop where
  positive : ∀ i, 0 < q i
  total : |∑ i, q i - 1| ≤ 2 * solverError
  mean : |∑ i, q i * score i - c| ≤ 2 * solverError
  var : σ ^ 2 = ∑ i, q i * (score i - c) ^ 2
  nonneg : 0 ≤ σ

theorem score_nonneg (i : Fin 5) : 0 ≤ score i := by
  simp only [score_eq]
  positivity

theorem score_le_one (i : Fin 5) : score i ≤ 1 := by
  have hi : (i.val : ℝ) ≤ 4 := by exact_mod_cast Nat.le_of_lt_succ i.isLt
  simp only [score_eq]
  linarith

section Moments

variable {q : Fin 5 → ℝ} {c σ : ℝ}

/-- A central second moment from the first two moments. -/
theorem sum_central (q : Fin 5 → ℝ) (c : ℝ) : ∑ i, q i * (score i - c) ^ 2 =
    ∑ i, q i * score i ^ 2 - 2 * c * ∑ i, q i * score i + c ^ 2 * ∑ i, q i := by
  rw [Finset.mul_sum, Finset.mul_sum, ← Finset.sum_sub_distrib, ← Finset.sum_add_distrib]
  exact Finset.sum_congr rfl fun i _ => by ring

theorem Distributed.mean_between (h : Distributed q c σ) :
    -(2 * solverError) ≤ c ∧ c ≤ 1 + 4 * solverError := by
  have hlow : 0 ≤ ∑ i, q i * score i :=
    Finset.sum_nonneg fun i _ => mul_nonneg (h.positive i).le (score_nonneg i)
  have hhigh : ∑ i, q i * score i ≤ ∑ i, q i :=
    Finset.sum_le_sum fun i _ => mul_le_of_le_one_right (h.positive i).le (score_le_one i)
  have htotal := abs_le.mp h.total
  have hmean := abs_le.mp h.mean
  constructor
  · linarith
  · linarith

/-- The second moment is that of the mean and the deviation. -/
theorem Distributed.second_moment (h : Distributed q c σ) :
    |∑ i, q i * score i ^ 2 - (σ ^ 2 + c ^ 2)| ≤ 10 * solverError := by
  obtain ⟨hlow, hhigh⟩ := h.mean_between
  have herr := solverError_pos
  have hsmall : solverError ≤ 1 / 100 := by
    rw [solverError_eq]
    norm_num
  have hsplit : ∑ i, q i * score i ^ 2 - (σ ^ 2 + c ^ 2) =
      2 * c * (∑ i, q i * score i - c) - c ^ 2 * (∑ i, q i - 1) := by
    rw [h.var, sum_central]
    ring
  have hc : |c| ≤ 11 / 10 := abs_le.mpr ⟨by linarith, by linarith⟩
  have hc2 : c ^ 2 ≤ 121 / 100 := by
    rw [← sq_abs]
    nlinarith [abs_nonneg c]
  rw [hsplit]
  calc |2 * c * (∑ i, q i * score i - c) - c ^ 2 * (∑ i, q i - 1)|
      ≤ |2 * c * (∑ i, q i * score i - c)| + |c ^ 2 * (∑ i, q i - 1)| := abs_sub _ _
    _ = 2 * |c| * |∑ i, q i * score i - c| + c ^ 2 * |∑ i, q i - 1| := by
      rw [abs_mul, abs_mul, abs_mul, abs_two, abs_of_nonneg (sq_nonneg c)]
    _ ≤ 2 * (11 / 10) * (2 * solverError) + 121 / 100 * (2 * solverError) :=
      add_le_add
        (mul_le_mul (by linarith) h.mean (abs_nonneg _) (by norm_num))
        (mul_le_mul hc2 h.total (abs_nonneg _) (by norm_num))
    _ ≤ 10 * solverError := by linarith

theorem Distributed.deviation_le (h : Distributed q c σ) : σ ≤ 501 / 1000 := by
  have hle : ∑ i, q i * score i ^ 2 ≤ ∑ i, q i * score i := by
    refine Finset.sum_le_sum fun i _ => mul_le_mul_of_nonneg_left ?_ (h.positive i).le
    rw [sq]
    exact mul_le_of_le_one_right (score_nonneg i) (score_le_one i)
  have hsecond := abs_le.mp h.second_moment
  have hmean := abs_le.mp h.mean
  have hsmall : 12 * solverError ≤ 1 / 10 ^ 6 := by
    rw [solverError_eq]
    norm_num
  have hsq : σ ^ 2 ≤ 1 / 4 + 1 / 10 ^ 6 := by nlinarith [sq_nonneg (c - 1 / 2)]
  nlinarith [h.nonneg]

/-- Between two neighbours of the grid the mean has a deviation. -/
theorem Distributed.grid_variance (h : Distributed q c σ) {b : ℝ} (hb : 0 ≤ b) (hb' : b ≤ 3 / 4)
    (hgrid : ∀ i, 0 ≤ (score i - b) * (score i - (b + 1 / 4))) :
    (c - b) * (b + 1 / 4 - c) ≤ σ ^ 2 + 16 * solverError := by
  have hsum : 0 ≤ ∑ i, q i * ((score i - b) * (score i - (b + 1 / 4))) :=
    Finset.sum_nonneg fun i _ => mul_nonneg (h.positive i).le (hgrid i)
  have hexpand : ∑ i, q i * ((score i - b) * (score i - (b + 1 / 4))) =
      ∑ i, q i * score i ^ 2 - (2 * b + 1 / 4) * ∑ i, q i * score i +
        b * (b + 1 / 4) * ∑ i, q i := by
    rw [Finset.mul_sum, Finset.mul_sum, ← Finset.sum_sub_distrib, ← Finset.sum_add_distrib]
    exact Finset.sum_congr rfl fun i _ => by ring
  have hsecond := abs_le.mp h.second_moment
  have hmean := abs_le.mp h.mean
  have htotal := abs_le.mp h.total
  have hfirst : (2 * b + 1 / 4) * (c - 2 * solverError) ≤
      (2 * b + 1 / 4) * ∑ i, q i * score i :=
    mul_le_mul_of_nonneg_left (by linarith) (by linarith)
  have hzeroth : b * (b + 1 / 4) * ∑ i, q i ≤ b * (b + 1 / 4) * (1 + 2 * solverError) :=
    mul_le_mul_of_nonneg_left (by linarith) (mul_nonneg hb (by linarith))
  have hprod : b * (b + 1 / 4) ≤ 1 := by nlinarith
  have herr := solverError_pos
  nlinarith

end Moments

/-- The error of the drift. -/
noncomputable def driftError : ℝ := (1 / 10 ^ 36 : ℚ)

theorem driftError_eq : driftError = 1 / 10 ^ 36 := by norm_num [driftError]

/-- The deviation never falls below this. -/
noncomputable def leastDeviation : ℝ := (1 / 10 ^ 12 : ℚ)

theorem leastDeviation_eq : leastDeviation = 1 / 10 ^ 12 := by norm_num [leastDeviation]

/-- A distribution that a round leaves. -/
structure Drifted (s : ℝ) (q : Fin 5 → ℝ) (c σ : ℝ) : Prop extends Distributed q c σ where
  spread : leastDeviation ≤ σ
  drift : s * σ - driftError ≤ c - 1 / 2

theorem leastDeviation_pos : 0 < leastDeviation := by
  rw [leastDeviation_eq]
  norm_num

section Coefficients

variable {s : ℝ} {q : Fin 5 → ℝ} {c σ v : ℝ}

/-- A coefficient bound without the quotient. -/
theorem le_coefficient {b : ℝ} (hσ : 0 < σ) (h : s * (σ ^ 2 + (c - v) ^ 2) ≤ 2 * σ * (v - 1 / 2 - b)) :
    b ≤ coefficient s c σ v := by
  have hdiv : s * (σ ^ 2 + (c - v) ^ 2) / (2 * σ) ≤ v - 1 / 2 - b := by
    rw [div_le_iff₀ (by linarith)]
    linarith
  simp only [coefficient_eq]
  linarith

theorem coefficient_le (hs : 0 ≤ s) (hσ : 0 ≤ σ) : coefficient s c σ v ≤ v - 1 / 2 := by
  have hdiv : 0 ≤ s * (σ ^ 2 + (c - v) ^ 2) / (2 * σ) :=
    div_nonneg (mul_nonneg hs (by positivity)) (by linarith)
  simp only [coefficient_eq]
  linarith

/-- The mean lies below three quarters: the coefficient there is positive. -/
theorem Drifted.low_mean (h : Drifted s q c σ) (hc : c ≤ 3 / 4) (hs : 0 ≤ s) :
    1 / 40 ≤ coefficient s c σ (3 / 4) := by
  have hσ : 0 < σ := leastDeviation_pos.trans_le h.spread
  have hvar : 1 / 10 ^ 24 ≤ σ ^ 2 := by
    have hsq := mul_self_le_mul_self leastDeviation_pos.le h.spread
    rw [leastDeviation_eq] at hsq
    nlinarith
  have hgrid : (c - 1 / 2) * (3 / 4 - c) ≤ σ ^ 2 + 16 * solverError := by
    have hle := h.grid_variance (b := 1 / 2) (by norm_num) (by norm_num)
      (by intro i; fin_cases i <;> norm_num [score_eq])
    norm_num at hle
    exact hle
  refine le_coefficient hσ (le_of_mul_le_mul_left ?_ hσ)
  have hdrift := h.drift
  have hsσ : 0 ≤ s * σ := mul_nonneg hs hσ.le
  -- the drift bounds the t-value by the mean
  have hleft : s * σ * (σ ^ 2 + (c - 3 / 4) ^ 2) ≤
      (c - 1 / 2 + driftError) * (σ ^ 2 + (c - 3 / 4) ^ 2) :=
    mul_le_mul_of_nonneg_right (by linarith) (by positivity)
  have hgrid' : (3 / 4 - c) * ((c - 1 / 2) * (3 / 4 - c)) ≤
      (3 / 4 - c) * (σ ^ 2 + 16 * solverError) :=
    mul_le_mul_of_nonneg_left hgrid (by linarith)
  have hlow : 0 ≤ c - 1 / 2 + driftError := by linarith
  have hfar : 3 / 4 - c ≤ 3 / 10 := by
    rw [driftError_eq] at hlow
    linarith
  have hsquare : (c - 3 / 4) ^ 2 ≤ 1 := by nlinarith
  have herr : driftError * (c - 3 / 4) ^ 2 ≤ driftError * 1 :=
    mul_le_mul_of_nonneg_left hsquare (by rw [driftError_eq]; norm_num)
  have herr' : (3 / 4 - c) * (16 * solverError) ≤ 3 / 10 * (16 * solverError) :=
    mul_le_mul_of_nonneg_right hfar (by linarith [solverError_pos])
  have hdσ : driftError * σ ^ 2 ≤ 1 / 10 * σ ^ 2 :=
    mul_le_mul_of_nonneg_right (by rw [driftError_eq]; norm_num) (sq_nonneg σ)
  have hsmall : driftError + 3 / 10 * (16 * solverError) ≤ 1 / 10 * (1 / 10 ^ 24) := by
    rw [driftError_eq, solverError_eq]
    norm_num
  nlinarith

/-- The mean lies above three quarters: the coefficient there is positive, or that at one. -/
theorem Drifted.high_mean (h : Drifted s q c σ) (hc : 3 / 4 < c) (hs : 0 ≤ s)
    (hs' : s ≤ 943 / 1000) :
    1 / 40 ≤ coefficient s c σ (3 / 4) ∨ 1 / 40 ≤ coefficient s c σ 1 := by
  have hσ : 0 < σ := leastDeviation_pos.trans_le h.spread
  have hvar : 1 / 10 ^ 24 ≤ σ ^ 2 := by
    have hsq := mul_self_le_mul_self leastDeviation_pos.le h.spread
    rw [leastDeviation_eq] at hsq
    nlinarith
  have hone := h.mean_between.2
  rcases le_or_gt (1 - c) σ with hclose | hfar
  · right
    have hgap : -σ ≤ 1 - c := by
      have hspread := h.spread
      have hsmall : 4 * solverError ≤ leastDeviation := by
        rw [solverError_eq, leastDeviation_eq]
        norm_num
      linarith
    have hsquare : (c - 1) ^ 2 ≤ σ ^ 2 := sq_le_sq' (by linarith) (by linarith)
    have hsσ : s * σ ≤ 943 / 1000 * (501 / 1000) :=
      mul_le_mul hs' h.deviation_le hσ.le (by norm_num)
    have hdouble : s * (σ ^ 2 + (c - 1) ^ 2) ≤ s * (σ ^ 2 + σ ^ 2) :=
      mul_le_mul_of_nonneg_left (by linarith) hs
    refine le_coefficient hσ ?_
    calc s * (σ ^ 2 + (c - 1) ^ 2) ≤ s * (σ ^ 2 + σ ^ 2) := hdouble
      _ = 2 * (s * σ) * σ := by ring
      _ ≤ 2 * (943 / 1000 * (501 / 1000)) * σ :=
        mul_le_mul_of_nonneg_right (by linarith) hσ.le
      _ ≤ 2 * σ * (1 - 1 / 2 - 1 / 40) := by linarith
  · left
    have hgrid : (c - 3 / 4) * (1 - c) ≤ σ ^ 2 + 16 * solverError := by
      have hle := h.grid_variance (b := 3 / 4) (by norm_num) (by norm_num)
        (by intro i; fin_cases i <;> norm_num [score_eq])
      norm_num at hle
      exact hle
    have hgap : 0 < 1 - c := hσ.trans hfar
    have hgrid' : (c - 3 / 4) * ((c - 3 / 4) * (1 - c)) ≤
        (c - 3 / 4) * (σ ^ 2 + 16 * solverError) :=
      mul_le_mul_of_nonneg_left hgrid (by linarith)
    have herr : (c - 3 / 4) * (16 * solverError) ≤ 1 / 4 * (16 * solverError) :=
      mul_le_mul_of_nonneg_right (by linarith) (by linarith [solverError_pos])
    have hsmall : 1 / 4 * (16 * solverError) ≤ 1 / 10 * (1 / 10 ^ 24) := by
      rw [solverError_eq]
      norm_num
    have hsum : σ ^ 2 + (c - 3 / 4) ^ 2 ≤ 47 / 100 * σ := by
      refine le_of_mul_le_mul_right ?_ hgap
      have hσσ : σ * σ ≤ σ * (1 - c) := mul_le_mul_of_nonneg_left hfar.le hσ.le
      nlinarith
    refine le_coefficient hσ ?_
    calc s * (σ ^ 2 + (c - 3 / 4) ^ 2) ≤ 943 / 1000 * (47 / 100 * σ) :=
          mul_le_mul hs' hsum (by positivity) (by norm_num)
      _ ≤ 2 * σ * (3 / 4 - 1 / 2 - 1 / 40) := by linarith

/-- One of the two highest scores has a positive coefficient, bounded away from zero. -/
theorem Drifted.exists_coefficient (h : Drifted s q c σ) (hs : 0 ≤ s) (hs' : s ≤ 943 / 1000) :
    ∃ i, 1 / 40 ≤ coefficient s c σ (score i) := by
  have hthree : score 3 = 3 / 4 := by norm_num [score_eq]
  have hfour : score 4 = 1 := by norm_num [score_eq]
  rcases le_or_gt c (3 / 4) with hc | hc
  · exact ⟨3, by rw [hthree]; exact h.low_mean hc hs⟩
  · rcases h.high_mean hc hs hs' with hle | hle
    · exact ⟨3, by rw [hthree]; exact hle⟩
    · exact ⟨4, by rw [hfour]; exact hle⟩

end Coefficients

section Next

variable {s : ℝ} {p : Fin 5 → ℝ} {c σ x : ℝ}

/-- A round that solves its equation lets the mean drift, whatever distribution it began with. -/
theorem drift_of_near {q : Fin 5 → ℝ} {c₀ σ₀ : ℝ} (hs : 0 ≤ s) (hs' : s ≤ 1)
    (hσ₀ : leastDeviation ≤ σ₀) (hσ₀' : σ₀ ≤ 1) (hc₀ : |c₀| ≤ 2) (h : Distributed q c σ)
    (hnear : |∑ i, q i * coefficient s c₀ σ₀ (score i)| ≤ 5 * solverError) :
    s * σ - driftError ≤ c - 1 / 2 := by
  have hpos : 0 < σ₀ := leastDeviation_pos.trans_le hσ₀
  have herr := solverError_pos
  have htotal := abs_le.mp h.total
  have hmean := abs_le.mp h.mean
  have hsecond := abs_le.mp h.second_moment
  obtain ⟨hlow, hhigh⟩ := abs_le.mp hc₀
  have hexpand : ∑ i, q i * coefficient s c₀ σ₀ (score i) =
      ∑ i, q i * score i - 1 / 2 * ∑ i, q i -
        s / (2 * σ₀) * (σ₀ ^ 2 * ∑ i, q i + ∑ i, q i * (score i - c₀) ^ 2) := by
    rw [Finset.mul_sum, Finset.mul_sum, ← Finset.sum_add_distrib, Finset.mul_sum,
      ← Finset.sum_sub_distrib, ← Finset.sum_sub_distrib]
    refine Finset.sum_congr rfl fun i _ => ?_
    simp only [coefficient_eq]
    ring
  -- the moments of the new distribution, about the old mean
  have hmoment : 2 * σ₀ * σ - 40 * solverError ≤
      σ₀ ^ 2 * ∑ i, q i + ∑ i, q i * (score i - c₀) ^ 2 := by
    have hfirst : |c₀ * (∑ i, q i * score i - c)| ≤ 2 * (2 * solverError) := by
      rw [abs_mul]
      exact mul_le_mul hc₀ h.mean (abs_nonneg _) (by norm_num)
    have hzeroth : |(σ₀ ^ 2 + c₀ ^ 2) * (∑ i, q i - 1)| ≤ 5 * (2 * solverError) := by
      rw [abs_mul, abs_of_nonneg (by positivity)]
      exact mul_le_mul (by nlinarith) h.total (abs_nonneg _) (by norm_num)
    have hfirst' := abs_le.mp hfirst
    have hzeroth' := abs_le.mp hzeroth
    rw [sum_central]
    nlinarith [sq_nonneg (σ₀ - σ), sq_nonneg (c - c₀)]
  have hratio : 0 ≤ s / (2 * σ₀) := div_nonneg hs (by linarith)
  have hscaled := mul_le_mul_of_nonneg_left hmoment hratio
  have hleft : s / (2 * σ₀) * (2 * σ₀ * σ - 40 * solverError) =
      s * σ - s * (20 * solverError / σ₀) := by
    field_simp
    ring
  have hsmall : s * (20 * solverError / σ₀) ≤ 2 / 10 ^ 37 := by
    have hdiv : 20 * solverError / σ₀ ≤ 2 / 10 ^ 37 := by
      rw [div_le_iff₀ hpos]
      rw [leastDeviation_eq] at hσ₀
      rw [solverError_eq]
      nlinarith
    have hdiv0 : 0 ≤ 20 * solverError / σ₀ := div_nonneg (by linarith) hpos.le
    calc s * (20 * solverError / σ₀) ≤ 1 * (20 * solverError / σ₀) :=
          mul_le_mul_of_nonneg_right hs' hdiv0
      _ ≤ 2 / 10 ^ 37 := by rw [one_mul]; exact hdiv
  have hbalance := (abs_le.mp hnear).1
  have herrors : 2 / 10 ^ 37 + 10 * solverError ≤ driftError := by
    rw [solverError_eq, driftError_eq]
    norm_num
  rw [hexpand] at hbalance
  linarith

/-- A category whose coefficient has the other sign than the solution keeps its share. -/
theorem weight_ge {a : Fin 5 → ℝ} (hin : Secular.Inside a x) (hshare : ∀ i, leastShare ≤ p i)
    {i : Fin 5} (h : x * a i ≤ 0) : leastShare ≤ Secular.weight a p x i := by
  have hpos := hin i
  refine (hshare i).trans ?_
  rw [Secular.weight, le_div_iff₀ hpos]
  have hp : 0 ≤ p i := (by rw [leastShare_eq]; norm_num : (0 : ℝ) ≤ leastShare).trans (hshare i)
  nlinarith

theorem Distributed.deviation_ge {q : Fin 5 → ℝ} (h : Distributed q c σ)
    (hsum : leastDeviation ^ 2 ≤ ∑ i, q i * (score i - c) ^ 2) : leastDeviation ≤ σ := by
  rw [← h.var] at hsum
  exact le_of_sq_le_sq hsum h.nonneg

/-- The round after a drifted distribution leaves one. -/
theorem Drifted.next {q : Fin 5 → ℝ} {c' σ' : ℝ} (h : Drifted s q c σ) (hs : 0 ≤ s)
    (hs' : s ≤ 943 / 1000) (hshare : ∀ i, leastShare ≤ p i)
    (hnear : Secular.Near (fun i => coefficient s c σ (score i)) p x (2 * solverError)
      (5 * solverError))
    (hnext : Distributed (Secular.weight (fun i => coefficient s c σ (score i)) p x) c' σ') :
    Drifted s (Secular.weight (fun i => coefficient s c σ (score i)) p x) c' σ' := by
  have hσ : 0 < σ := leastDeviation_pos.trans_le h.spread
  have hσ1 : σ ≤ 501 / 1000 := h.deviation_le
  obtain ⟨hlow, hhigh⟩ := h.mean_between
  have hsmall : 4 * solverError ≤ 1 / 1000 := by
    rw [solverError_eq]
    norm_num
  have hdrift : s * σ' - driftError ≤ c' - 1 / 2 :=
    drift_of_near hs (by linarith) h.spread (by linarith)
      (abs_le.mpr ⟨by linarith, by linarith⟩) hnext hnear.moment
  refine ⟨hnext, hnext.deviation_ge ?_, hdrift⟩
  -- the lowest category keeps a share of the order of the old deviation
  obtain ⟨k, hk⟩ := h.exists_coefficient hs hs'
  have hx : -40 < x := by
    have hin := hnear.inside k
    by_contra hle
    nlinarith [not_lt.mp hle]
  have hzero : score 0 = 0 := by norm_num [score_eq]
  have hlowest : -1 ≤ σ * coefficient s c σ (score 0) := by
    have hexpand : σ * coefficient s c σ (score 0) = -(σ / 2) - s * (σ ^ 2 + c ^ 2) / 2 := by
      rw [hzero, coefficient_eq]
      field_simp
      ring
    have hc2 : c ^ 2 ≤ 11 / 10 := by nlinarith
    have hmul : s * (σ ^ 2 + c ^ 2) ≤ 943 / 1000 * (1 / 3 + 11 / 10) :=
      mul_le_mul hs' (by nlinarith) (by positivity) (by norm_num)
    rw [hexpand]
    linarith
  have hneg : coefficient s c σ (score 0) ≤ 0 := by
    have hle : coefficient s c σ (score 0) ≤ score 0 - 1 / 2 := coefficient_le hs hσ.le
    rw [hzero] at hle ⊢
    linarith
  have hpos := hnear.inside 0
  have hden : σ * (1 + x * coefficient s c σ (score 0)) ≤ 41 := by
    nlinarith
  have hshare0 : leastShare * σ / 41 ≤
      Secular.weight (fun i => coefficient s c σ (score i)) p x 0 := by
    have hp := hshare 0
    have hleast : 0 ≤ leastShare := by rw [leastShare_eq]; norm_num
    rw [Secular.weight, div_le_div_iff₀ (by norm_num) hpos]
    nlinarith
  have hcenter : 1 / 5 ≤ c' ^ 2 := by
    have hc' : 9 / 20 ≤ c' := by
      have hsσ : 0 ≤ s * σ' := mul_nonneg hs hnext.nonneg
      rw [driftError_eq] at hdrift
      linarith
    nlinarith
  calc leastDeviation ^ 2 ≤ leastShare * leastDeviation / 41 * (1 / 5) := by
        rw [leastDeviation_eq, leastShare_eq]
        norm_num
    _ ≤ leastShare * σ / 41 * (1 / 5) := by
      have hleast : 0 ≤ leastShare := by rw [leastShare_eq]; norm_num
      have hmul := mul_le_mul_of_nonneg_left h.spread hleast
      linarith
    _ ≤ Secular.weight (fun i => coefficient s c σ (score i)) p x 0 * (score 0 - c') ^ 2 := by
      rw [hzero, zero_sub, neg_sq]
      exact mul_le_mul hshare0 hcenter (by norm_num) (hnext.positive 0).le
    _ ≤ ∑ i, Secular.weight (fun i => coefficient s c σ (score i)) p x i * (score i - c') ^ 2 :=
      Finset.single_le_sum
        (fun i _ => mul_nonneg (hnext.positive i).le (sq_nonneg (score i - c')))
        (Finset.mem_univ 0)

/-- The deviation of the uniform distribution. -/
noncomputable def uniformDeviation : ℝ := Real.sqrt (1 / 8)

theorem uniformDeviation_sq : uniformDeviation ^ 2 = 1 / 8 := Real.sq_sqrt (by norm_num)

theorem uniformDeviation_pos : 0 < uniformDeviation := Real.sqrt_pos.mpr (by norm_num)

/-- The t-values the first round can reach from the uniform distribution. -/
noncomputable def tValueBound : ℝ := 8 / 3 * uniformDeviation

theorem tValueBound_le : tValueBound ≤ 943 / 1000 := by
  have hsq := uniformDeviation_sq
  have hpos := uniformDeviation_pos
  unfold tValueBound
  nlinarith

/-- In the first round the coefficient of a score is linear in the t-value. -/
theorem uniform_coefficient (s v : ℝ) : coefficient s (1 / 2) uniformDeviation v =
    v - 1 / 2 - s / tValueBound * (1 / 6 + 4 / 3 * (1 / 2 - v) ^ 2) := by
  have hpos := uniformDeviation_pos
  have hsq := uniformDeviation_sq
  simp only [coefficient_eq, tValueBound]
  rw [hsq]
  field_simp
  ring

theorem uniform_next {c' σ' : ℝ} (hs : 0 ≤ s) (hs' : s < tValueBound)
    (hshare : ∀ i, leastShare ≤ p i)
    (hnear : Secular.Near (fun i => coefficient s (1 / 2) uniformDeviation (score i)) p x
      (2 * solverError) (5 * solverError))
    (hnext : Distributed
      (Secular.weight (fun i => coefficient s (1 / 2) uniformDeviation (score i)) p x) c' σ') :
    Drifted s (Secular.weight (fun i => coefficient s (1 / 2) uniformDeviation (score i)) p x)
      c' σ' := by
  have hσ1 : uniformDeviation ≤ 1 := by nlinarith [uniformDeviation_sq, uniformDeviation_pos]
  have hσ0 : leastDeviation ≤ uniformDeviation := by
    refine le_of_sq_le_sq ?_ uniformDeviation_pos.le
    rw [uniformDeviation_sq]
    rw [leastDeviation_eq]
    norm_num
  have hs1 : s ≤ 1 := hs'.le.trans (tValueBound_le.trans (by norm_num))
  refine ⟨hnext, hnext.deviation_ge ?_,
    drift_of_near hs hs1 hσ0 hσ1 (by norm_num [abs_le]) hnext hnear.moment⟩
  have hratio : s / tValueBound < 1 := (div_lt_one (hs.trans_lt hs')).mpr hs'
  have hratio0 : 0 ≤ s / tValueBound := div_nonneg hs (hs.trans hs'.le)
  -- two neighbouring categories on one side of the reference keep their shares
  have htwo : ∀ i j : Fin 5, |score i - score j| = 1 / 4 →
      i ≠ j →
      x * coefficient s (1 / 2) uniformDeviation (score i) ≤ 0 →
      x * coefficient s (1 / 2) uniformDeviation (score j) ≤ 0 →
      leastDeviation ^ 2 ≤
        ∑ i, Secular.weight (fun i => coefficient s (1 / 2) uniformDeviation (score i)) p x i *
          (score i - c') ^ 2 := by
    intro i j hij hne hi hj
    have hgap : 1 / 32 ≤ (score i - c') ^ 2 + (score j - c') ^ 2 := by
      have hsq : (score i - score j) ^ 2 = 1 / 16 := by
        rw [← sq_abs, hij]
        norm_num
      nlinarith [sq_nonneg (score i + score j - 2 * c')]
    have hwi := weight_ge hnear.inside hshare hi
    have hwj := weight_ge hnear.inside hshare hj
    have hpair := Finset.add_le_sum
      (fun k _ => mul_nonneg (hnext.positive k).le (sq_nonneg (score k - c')))
      (Finset.mem_univ i) (Finset.mem_univ j) hne
    calc leastDeviation ^ 2 ≤ leastShare * (1 / 32) := by
          rw [leastDeviation_eq, leastShare_eq]
          norm_num
      _ ≤ leastShare * ((score i - c') ^ 2 + (score j - c') ^ 2) :=
        mul_le_mul_of_nonneg_left hgap (by rw [leastShare_eq]; norm_num)
      _ ≤ _ := by
        rw [mul_add]
        exact (add_le_add (mul_le_mul_of_nonneg_right hwi (sq_nonneg _))
          (mul_le_mul_of_nonneg_right hwj (sq_nonneg _))).trans hpair
  rcases le_total 0 x with hx | hx
  · refine htwo 0 1 (by norm_num [score_eq, abs_of_neg]) (by decide) ?_ ?_
    · refine mul_nonpos_of_nonneg_of_nonpos hx ?_
      rw [uniform_coefficient]
      norm_num [score_eq]
      linarith
    · refine mul_nonpos_of_nonneg_of_nonpos hx ?_
      rw [uniform_coefficient]
      norm_num [score_eq]
      linarith
  · refine htwo 3 4 (by norm_num [score_eq, abs_of_neg]) (by decide) ?_ ?_
    · refine mul_nonpos_of_nonpos_of_nonneg hx ?_
      rw [uniform_coefficient]
      norm_num [score_eq]
      linarith
    · refine mul_nonpos_of_nonpos_of_nonneg hx ?_
      rw [uniform_coefficient]
      norm_num [score_eq]
      linarith

end Next

end CapiNet
