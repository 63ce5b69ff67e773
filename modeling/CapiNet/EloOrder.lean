import CapiNet.ExactSolver
import CapiNet.Library.Tail

namespace CapiNet

section Logistic

variable {s t : ℝ}

theorem clampScore_ge (s : ℝ) : 1 / 1000 ≤ clampScore s := by
  have hle : (1 : ℝ) / 10 ^ 3 ≤ clampScore s := le_max_left _ _
  norm_num at hle ⊢
  exact hle

theorem clampScore_le (s : ℝ) : clampScore s ≤ 999 / 1000 := by
  have hmin : min s (1 - 1 / 10 ^ 3) ≤ 1 - 1 / 10 ^ 3 := min_le_right _ _
  unfold clampScore
  apply max_le
  · norm_num
  · norm_num at hmin ⊢

theorem clampScore_mono (h : s ≤ t) : clampScore s ≤ clampScore t :=
  max_le_max_left _ (min_le_min_right _ h)

theorem clampScore_half : clampScore (1 / 2) = 1 / 2 := by
  unfold clampScore
  rw [min_eq_left (by norm_num), max_eq_right (by norm_num)]

theorem clampScore_one_sub (s : ℝ) : clampScore (1 - s) = 1 - clampScore s := by
  unfold clampScore
  rcases le_total s (1 / 10 ^ 3) with hlow | hlow
  · rw [min_eq_right (by linarith), min_eq_left (by norm_num at hlow ⊢; linarith),
      max_eq_left hlow, max_eq_right (by norm_num)]
  · rcases le_total s (1 - 1 / 10 ^ 3) with hhigh | hhigh
    · rw [min_eq_left (by linarith), min_eq_left hhigh, max_eq_right hlow,
        max_eq_right (by linarith)]
    · rw [min_eq_left (by linarith), min_eq_right hhigh, max_eq_left (by linarith),
        max_eq_right (by norm_num)]
      ring

theorem half_lt_clampScore : 1 / 2 < clampScore s ↔ 1 / 2 < s := by
  constructor
  · intro h
    by_contra hle
    have hmono := clampScore_mono (not_lt.mp hle)
    rw [clampScore_half] at hmono
    exact absurd h (not_lt.mpr hmono)
  · intro h
    unfold clampScore
    exact lt_max_of_lt_right (lt_min h (by norm_num))

/-- The odds whose logarithm is taken. -/
theorem odds_pos (s : ℝ) : 0 < 1 / clampScore s - 1 := by
  have hge := clampScore_ge s
  have hle := clampScore_le s
  have hpos : 0 < clampScore s := by linarith
  rw [sub_pos, lt_div_iff₀ hpos]
  linarith

theorem logisticElo_mono (h : s ≤ t) : logisticElo s ≤ logisticElo t := by
  have hpos : 0 < clampScore s := by linarith [clampScore_ge s]
  have hodds : 1 / clampScore t - 1 ≤ 1 / clampScore s - 1 :=
    sub_le_sub_right (one_div_le_one_div_of_le hpos (clampScore_mono h)) 1
  have hlog := Real.logb_le_logb_of_le (b := 10) (by norm_num) (odds_pos t) hodds
  unfold logisticElo
  linarith

theorem logisticElo_one_sub (s : ℝ) : logisticElo (1 - s) = -logisticElo s := by
  have hge := clampScore_ge s
  have hle := clampScore_le s
  have hodds : 1 / clampScore (1 - s) - 1 = (1 / clampScore s - 1)⁻¹ := by
    have hne : clampScore s ≠ 0 := by linarith
    have hne' : 1 - clampScore s ≠ 0 := by linarith
    rw [clampScore_one_sub]
    field_simp
    ring
  unfold logisticElo
  rw [hodds, Real.logb_inv]
  ring

theorem logisticElo_pos : 0 < logisticElo s ↔ 1 / 2 < s := by
  have hge := clampScore_ge s
  have hpos : 0 < clampScore s := by linarith
  have hodds : 1 / clampScore s - 1 < 1 ↔ 1 / 2 < clampScore s := by
    rw [sub_lt_iff_lt_add, div_lt_iff₀ hpos]
    constructor
    · intro h
      linarith
    · intro h
      linarith
  have hlog : Real.logb 10 (1 / clampScore s - 1) < 0 ↔ 1 / clampScore s - 1 < 1 :=
    Real.logb_neg_iff (by norm_num) (odds_pos s)
  rw [← half_lt_clampScore, ← hodds, ← hlog]
  unfold logisticElo
  constructor
  · intro h
    linarith
  · intro h
    linarith

theorem logisticElo_neg : logisticElo s < 0 ↔ s < 1 / 2 := by
  have hpos := logisticElo_pos (s := 1 - s)
  rw [logisticElo_one_sub, neg_pos] at hpos
  rw [hpos]
  constructor
  · intro h
    linarith
  · intro h
    linarith

end Logistic

section Moments

variable {results : Pentanomial}

theorem toPdf_count_pos (results : Pentanomial) : 0 < (toPdf results : PentaPdf ℝ).count := by
  show 0 < ∑ i, (regularize (results.counts i) : ℝ)
  exact Finset.sum_pos (fun i _ => regularize_pos _) ⟨0, Finset.mem_univ 0⟩

/-- The moments of the distribution of pair scores per game. -/
noncomputable def pairMoments (results : Pentanomial) : Moments ℝ :=
  moments (toPdf results : PentaPdf ℝ).values (toPdf results : PentaPdf ℝ).probs

theorem gameMean_eq (results : Pentanomial) : gameMean results = (pairMoments results).mean := by
  have hcount := toPdf_count_pos results
  show (∑ i, (toPdf results : PentaPdf ℝ).probs i * (toPdf results : PentaPdf ℝ).count *
      ((i.val : ℝ) / 2)) / (2 * (toPdf results : PentaPdf ℝ).count) =
    ∑ i, (toPdf results : PentaPdf ℝ).probs i * ((i.val : ℝ) / 4)
  rw [Finset.sum_div]
  refine Finset.sum_congr rfl fun i _ => ?_
  field_simp
  ring

/-- Per game the variance is twice that of the mean of a pair. -/
theorem gameVariance_eq (results : Pentanomial) :
    gameVariance results = 2 * (pairMoments results).var := by
  have hcount := toPdf_count_pos results
  show (∑ i : Fin 5, (toPdf results : PentaPdf ℝ).probs i * (toPdf results : PentaPdf ℝ).count *
      ((i.val : ℝ) / 2 - 2 * gameMean results) * ((i.val : ℝ) / 2 - 2 * gameMean results)) /
        (2 * (toPdf results : PentaPdf ℝ).count) =
    2 * ∑ i, (toPdf results : PentaPdf ℝ).probs i *
      ((i.val : ℝ) / 4 - (pairMoments results).mean) * ((i.val : ℝ) / 4 - (pairMoments results).mean)
  rw [Finset.sum_div, Finset.mul_sum, gameMean_eq]
  refine Finset.sum_congr rfl fun i _ => ?_
  field_simp
  ring

/-- The scores zero and one are not both the mean. -/
theorem pairMoments_var_pos (results : Pentanomial) : 0 < (pairMoments results).var := by
  have hprobs : ∀ i, 0 < (toPdf results : PentaPdf ℝ).probs i := (toPdf_proper results).positive
  have hterm : ∀ i : Fin 5, 0 ≤ (toPdf results : PentaPdf ℝ).probs i *
      ((i.val : ℝ) / 4 - (pairMoments results).mean) *
        ((i.val : ℝ) / 4 - (pairMoments results).mean) := by
    intro i
    rw [mul_assoc]
    exact mul_nonneg (hprobs i).le (mul_self_nonneg _)
  have hoff : ∃ i : Fin 5, (i.val : ℝ) / 4 - (pairMoments results).mean ≠ 0 := by
    by_contra hall
    push Not at hall
    have hzero := hall 0
    have hone := hall 4
    norm_num at hzero hone
    rw [hzero] at hone
    norm_num at hone
  obtain ⟨i, hi⟩ := hoff
  refine Finset.sum_pos' (fun i _ => hterm i) ⟨i, Finset.mem_univ i, ?_⟩
  show 0 < (toPdf results : PentaPdf ℝ).probs i * ((i.val : ℝ) / 4 - (pairMoments results).mean) *
    ((i.val : ℝ) / 4 - (pairMoments results).mean)
  rw [mul_assoc]
  exact mul_pos (hprobs i) (mul_self_pos.mpr hi)

theorem gameVariance_pos (results : Pentanomial) : 0 < gameVariance results := by
  rw [gameVariance_eq]
  exact mul_pos (by norm_num) (pairMoments_var_pos results)

theorem meanError_pos (results : Pentanomial) : 0 < meanError results := by
  have hcount := toPdf_count_pos results
  exact div_pos (Real.sqrt_pos.mpr (gameVariance_pos results)) (Real.sqrt_pos.mpr (by linarith))

theorem pairMoments_mirror (results : Pentanomial) :
    pairMoments results.mirror = ⟨1 - (pairMoments results).mean, (pairMoments results).var⟩ := by
  have hproper := toPdf_proper results
  unfold pairMoments
  rw [toPdf_mirror]
  exact moments_mirror hproper hproper.total

theorem gameMean_mirror (results : Pentanomial) :
    gameMean results.mirror = 1 - gameMean results := by
  rw [gameMean_eq, gameMean_eq, pairMoments_mirror]

theorem meanError_mirror (results : Pentanomial) :
    meanError results.mirror = meanError results := by
  unfold meanError
  rw [gameVariance_eq, gameVariance_eq, pairMoments_mirror, toPdf_mirror]
  rfl

end Moments

/-- What the estimate needs of a distribution function and of its quantiles. -/
structure NormalLike (cdf quantile : ℝ → ℝ) : Prop where
  strictMono : StrictMono cdf
  pos : ∀ x, 0 < cdf x
  lt_one : ∀ x, cdf x < 1
  symmetric : ∀ x, cdf (-x) = 1 - cdf x
  inverse : ∀ p, 0 < p → p < 1 → cdf (quantile p) = p

section Quantiles

variable {cdf quantile : ℝ → ℝ} {p : ℝ}

theorem NormalLike.cdf_zero (h : NormalLike cdf quantile) : cdf 0 = 1 / 2 := by
  have hzero := h.symmetric 0
  rw [neg_zero] at hzero
  linarith

theorem NormalLike.quantile_one_sub (h : NormalLike cdf quantile) (hp : 0 < p) (hp' : p < 1) :
    quantile (1 - p) = -quantile p := by
  apply h.strictMono.injective
  rw [h.symmetric, h.inverse p hp hp', h.inverse (1 - p) (by linarith) (by linarith)]

theorem NormalLike.quantile_neg (h : NormalLike cdf quantile) (hp : 0 < p) (hp' : p < 1 / 2) :
    quantile p < 0 := by
  rw [← h.strictMono.lt_iff_lt, h.inverse p hp (by linarith), h.cdf_zero]
  exact hp'

end Quantiles

theorem exp_density : Tail.Density fun t : ℝ => Real.exp (-t ^ 2) := by
  refine ⟨?_, fun t => Real.exp_pos _⟩
  have hint := integrable_exp_neg_mul_sq (b := 1) one_pos
  simpa only [neg_mul, one_mul] using hint

theorem exp_total : ∫ t : ℝ, Real.exp (-t ^ 2) = Real.sqrt Real.pi := by
  have htotal := integral_gaussian 1
  simpa only [neg_mul, one_mul, div_one] using htotal

theorem phi_eq (x : ℝ) :
    phi x = Tail.tail (fun t => Real.exp (-t ^ 2)) (-x / Real.sqrt 2) / Real.sqrt Real.pi := by
  unfold phi erfc Tail.tail
  ring

/-- A quantile of the normal distribution. -/
noncomputable def phiQuantile (p : ℝ) : ℝ := Classical.epsilon fun x => phi x = p

/-- The distribution function of the program has all of this. -/
theorem phi_normalLike : NormalLike phi phiQuantile := by
  have hroot : 0 < Real.sqrt 2 := Real.sqrt_pos.mpr (by norm_num)
  have hpi : 0 < Real.sqrt Real.pi := Real.sqrt_pos.mpr Real.pi_pos
  refine ⟨?_, fun x => ?_, fun x => ?_, fun x => ?_, fun p hp hp' => ?_⟩
  · intro x y hxy
    rw [phi_eq, phi_eq]
    apply div_lt_div_of_pos_right _ hpi
    apply Tail.tail_strictAnti exp_density
    exact div_lt_div_of_pos_right (neg_lt_neg hxy) hroot
  · rw [phi_eq]
    exact div_pos (Tail.tail_pos exp_density _) hpi
  · rw [phi_eq, div_lt_one hpi, ← exp_total]
    exact Tail.tail_lt exp_density _
  · have heven := Tail.tail_neg exp_density (fun t => by rw [neg_sq]) (-x / Real.sqrt 2)
    rw [exp_total, ← neg_div] at heven
    rw [phi_eq, phi_eq, heven, sub_div, div_self hpi.ne']
  · have hexists : ∃ x, phi x = p := by
      obtain ⟨y, hy⟩ := Tail.exists_tail exp_density (c := p * Real.sqrt Real.pi)
        (mul_pos hp hpi) (by rw [exp_total]; exact mul_lt_of_lt_one_left hpi hp')
      refine ⟨-(y * Real.sqrt 2), ?_⟩
      rw [phi_eq, neg_neg, mul_div_cancel_right₀ _ hroot.ne', hy, mul_div_cancel_right₀ _ hpi.ne']
    exact Classical.epsilon_spec hexists

section Estimate

variable {cdf quantile : ℝ → ℝ}

/-- What the estimate divides by, takes the root of or takes the logarithm of. -/
structure EloDefined (results : Pentanomial) : Prop where
  count : 0 < (toPdf results : PentaPdf ℝ).count
  variance : 0 < gameVariance results
  error : 0 < meanError results
  pairVariance : 0 < (pairMoments results).var
  score : ∀ s, 0 < clampScore s
  odds : ∀ s, 0 < 1 / clampScore s - 1

theorem elo_defined (results : Pentanomial) : EloDefined results :=
  ⟨toPdf_count_pos results, gameVariance_pos results, meanError_pos results,
    pairMoments_var_pos results, fun s => by linarith [clampScore_ge s], odds_pos⟩

theorem elo_between (h : NormalLike cdf quantile) (results : Pentanomial) :
    (eloEstimateBy cdf quantile results).ciLow ≤ (eloEstimateBy cdf quantile results).elo ∧
    (eloEstimateBy cdf quantile results).elo ≤ (eloEstimateBy cdf quantile results).ciHigh := by
  have herror := meanError_pos results
  have hlow : quantile (25 / 1000) < 0 := h.quantile_neg (by norm_num) (by norm_num)
  have hhigh : quantile (975 / 1000) = -quantile (25 / 1000) := by
    rw [← h.quantile_one_sub (by norm_num) (by norm_num)]
    norm_num
  have hmove : quantile (25 / 1000) * meanError results < 0 := mul_neg_of_neg_of_pos hlow herror
  constructor
  · show logisticElo (gameMean results + quantile (25 / 1000) * meanError results) ≤
      logisticElo (gameMean results)
    exact logisticElo_mono (by linarith)
  · show logisticElo (gameMean results) ≤
      logisticElo (gameMean results + quantile (975 / 1000) * meanError results)
    rw [hhigh, neg_mul]
    exact logisticElo_mono (by linarith)

theorem nelo_eq (cdf quantile : ℝ → ℝ) (results : Pentanomial) :
    (eloEstimateBy cdf quantile results).nelo = (gameMean results - 1 / 2) *
      (neloDividedByNt / Real.sqrt (2 * (pairMoments results).var)) := by
  rw [gameMean_eq]
  show ((pairMoments results).mean - 1 / 2) / Real.sqrt (2 * (pairMoments results).var) *
    neloDividedByNt = _
  ring

theorem nelo_scale_pos (results : Pentanomial) :
    0 < neloDividedByNt / Real.sqrt (2 * (pairMoments results).var) := by
  have hvar := pairMoments_var_pos results
  refine div_pos ?_ (Real.sqrt_pos.mpr (by linarith))
  unfold neloDividedByNt
  norm_num

/-- Both estimates are on the side of zero on which the mean score is of a half. -/
theorem nelo_pos (cdf quantile : ℝ → ℝ) (results : Pentanomial) :
    0 < (eloEstimateBy cdf quantile results).nelo ↔ 1 / 2 < gameMean results := by
  rw [nelo_eq, mul_pos_iff_of_pos_right (nelo_scale_pos results), sub_pos]

theorem nelo_neg (cdf quantile : ℝ → ℝ) (results : Pentanomial) :
    (eloEstimateBy cdf quantile results).nelo < 0 ↔ gameMean results < 1 / 2 := by
  have hscale := nelo_scale_pos results
  rw [nelo_eq, ← sub_neg (a := gameMean results)]
  constructor
  · intro hneg
    by_contra hnonneg
    exact absurd hneg (not_lt.mpr (mul_nonneg (not_lt.mp hnonneg) hscale.le))
  · intro hneg
    exact mul_neg_of_neg_of_pos hneg hscale

/-- The estimate of the same games seen by the other engine. -/
structure EloMirrored (e e' : EloEstimate ℝ) : Prop where
  elo : e'.elo = -e.elo
  nelo : e'.nelo = -e.nelo
  ciLow : e'.ciLow = -e.ciHigh
  ciHigh : e'.ciHigh = -e.ciLow
  los : e'.los = 1 - e.los

theorem elo_mirror (h : NormalLike cdf quantile) (results : Pentanomial) :
    EloMirrored (eloEstimateBy cdf quantile results)
      (eloEstimateBy cdf quantile results.mirror) := by
  have hquantile : quantile (975 / 1000) = -quantile (25 / 1000) := by
    rw [← h.quantile_one_sub (by norm_num) (by norm_num)]
    norm_num
  refine ⟨?_, ?_, ?_, ?_, ?_⟩
  · show logisticElo (gameMean results.mirror) = -logisticElo (gameMean results)
    rw [gameMean_mirror, logisticElo_one_sub]
  · rw [nelo_eq, nelo_eq, gameMean_mirror, pairMoments_mirror]
    ring
  · show logisticElo (gameMean results.mirror + quantile (25 / 1000) * meanError results.mirror) =
      -logisticElo (gameMean results + quantile (975 / 1000) * meanError results)
    rw [gameMean_mirror, meanError_mirror, ← logisticElo_one_sub, hquantile]
    congr 1
    ring
  · show logisticElo (gameMean results.mirror + quantile (975 / 1000) * meanError results.mirror) =
      -logisticElo (gameMean results + quantile (25 / 1000) * meanError results)
    rw [gameMean_mirror, meanError_mirror, ← logisticElo_one_sub, hquantile]
    congr 1
    ring
  · show cdf ((gameMean results.mirror - 1 / 2) / meanError results.mirror) =
      1 - cdf ((gameMean results - 1 / 2) / meanError results)
    rw [gameMean_mirror, meanError_mirror, ← h.symmetric]
    congr 1
    ring

end Estimate

/-- The estimate is defined and lies in its interval, both Elo figures come from one mean and have
its side of a half, and exchanging the engines mirrors all of it. -/
theorem elo_ordered_antisymmetric (cdf quantile : ℝ → ℝ) (h : NormalLike cdf quantile)
    (results : Pentanomial) :
    EloDefined results ∧
    ((eloEstimateBy cdf quantile results).ciLow ≤ (eloEstimateBy cdf quantile results).elo ∧
      (eloEstimateBy cdf quantile results).elo ≤ (eloEstimateBy cdf quantile results).ciHigh) ∧
    gameMean results = (pairMoments results).mean ∧
    ((0 < (eloEstimateBy cdf quantile results).elo ↔
        0 < (eloEstimateBy cdf quantile results).nelo) ∧
      ((eloEstimateBy cdf quantile results).elo < 0 ↔
        (eloEstimateBy cdf quantile results).nelo < 0) ∧
      ((eloEstimateBy cdf quantile results).elo = 0 ↔
        (eloEstimateBy cdf quantile results).nelo = 0)) ∧
    EloMirrored (eloEstimateBy cdf quantile results)
      (eloEstimateBy cdf quantile results.mirror) := by
  have hpos : 0 < (eloEstimateBy cdf quantile results).elo ↔
      0 < (eloEstimateBy cdf quantile results).nelo := by
    rw [nelo_pos]
    exact logisticElo_pos
  have hneg : (eloEstimateBy cdf quantile results).elo < 0 ↔
      (eloEstimateBy cdf quantile results).nelo < 0 := by
    rw [nelo_neg]
    exact logisticElo_neg
  refine ⟨elo_defined results, elo_between h results, gameMean_eq results, ⟨hpos, hneg, ?_⟩,
    elo_mirror h results⟩
  rw [← not_iff_not, ← ne_eq, ← ne_eq, ne_iff_lt_or_gt, ne_iff_lt_or_gt, hneg]
  exact or_congr_right hpos

/-- The program's distribution function, one won pair. -/
theorem elo_ordered_antisymmetric_won :
    (eloEstimateBy phi phiQuantile (Pentanomial.empty.add .ww 1)).ciLow ≤
      (eloEstimateBy phi phiQuantile (Pentanomial.empty.add .ww 1)).elo :=
  (elo_ordered_antisymmetric phi phiQuantile phi_normalLike _).2.1.1

end CapiNet
