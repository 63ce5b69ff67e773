import CapiNet.MleDrift

namespace CapiNet

/-- A distribution of pair scores whose shares are above the least. -/
structure Shared (hat : PentaPdf ℝ) : Prop where
  values : hat.values = score
  share : ∀ i, leastShare ≤ hat.probs i
  total : ∑ i, hat.probs i = 1

theorem Shared.positive {hat : PentaPdf ℝ} (h : Shared hat) (i : Fin 5) : 0 < hat.probs i :=
  (by rw [leastShare_eq]; norm_num : (0 : ℝ) < leastShare).trans_le (h.share i)

noncomputable section

/-- A distribution, seen with its t-value turned positive. -/
def side (s : ℝ) (q : Fin 5 → ℝ) : Fin 5 → ℝ := if 0 ≤ s then q else mirror q

def sideMean (s c : ℝ) : ℝ := if 0 ≤ s then c else 1 - c

end

section Side

variable {s : ℝ} {q : Fin 5 → ℝ}

theorem side_of_nonneg (hs : 0 ≤ s) : side s q = q := if_pos hs

theorem side_of_neg (hs : s < 0) : side s q = mirror q := if_neg (not_le.mpr hs)

theorem score_rev (i : Fin 5) : score i.rev = 1 - score i := by
  have hrev : (i.rev.val : ℝ) = 4 - i.val := by
    rw [Fin.val_rev, Nat.cast_sub (by omega)]
    push_cast
    ring
  simp only [score_eq]
  rw [hrev]
  ring

theorem forall_side {P : ℝ → Prop} (h : ∀ i, P (q i)) (i : Fin 5) : P (side s q i) := by
  unfold side
  split
  next => exact h i
  next => exact h i.rev

theorem of_forall_side {P : ℝ → Prop} (h : ∀ i, P (side s q i)) (i : Fin 5) : P (q i) := by
  unfold side at h
  split at h
  next => exact h i
  next =>
    have hrev := h i.rev
    simpa only [mirror, Fin.rev_rev] using hrev

theorem sum_side : ∑ i, side s q i = ∑ i, q i := by
  unfold side
  split
  next => rfl
  next => exact sum_mirror q

theorem coefficient_mirror (s c σ : ℝ) (i : Fin 5) :
    coefficient (-s) (1 - c) σ (score i) = -coefficient s c σ (score i.rev) := by
  rw [score_rev]
  simp only [coefficient_eq]
  ring

theorem mleCoefficients_eq {m : Moments ℝ} (hσ : 0 < Real.sqrt m.var) (s : ℝ) (i : Fin 5) :
    mleCoefficients score (1 / 2) s m i = coefficient s m.mean (Real.sqrt m.var) (score i) := by
  simp only [mleCoefficients, coefficient_eq]
  field_simp

theorem moments_var (q : Fin 5 → ℝ) : (moments score q).var =
    ∑ i, q i * (score i - (moments score q).mean) ^ 2 := by
  simp only [moments, sq, mul_assoc]

/-- The moments of a distribution, seen from the side of the t-value. -/
theorem distributed_side (s : ℝ) (hpos : ∀ i, 0 < q i)
    (htotal : |∑ i, q i - 1| ≤ 2 * solverError) :
    Distributed (side s q) (sideMean s (moments score q).mean)
      (Real.sqrt (moments score q).var) := by
  have hvar : 0 ≤ (moments score q).var := by
    rw [moments_var]
    exact Finset.sum_nonneg fun i _ => mul_nonneg (hpos i).le (sq_nonneg _)
  have hmirror : ∑ i, mirror q i * score i = ∑ i, q i - ∑ i, q i * score i := by
    rw [← sum_mirror q, ← sum_mirror fun i => q i * score i, ← Finset.sum_sub_distrib]
    refine Finset.sum_congr rfl fun i _ => ?_
    simp only [mirror, score_rev]
    ring
  refine ⟨forall_side (P := fun x => 0 < x) hpos, by rw [sum_side]; exact htotal, ?_, ?_,
    Real.sqrt_nonneg _⟩
  · unfold side sideMean
    split
    next =>
      simp only [moments, sub_self, abs_zero]
      linarith [solverError_pos]
    next =>
      have heq : ∑ i, q i - ∑ i, q i * score i - (1 - (moments score q).mean) =
          ∑ i, q i - 1 := by
        simp only [moments]
        ring
      rw [hmirror, heq]
      exact htotal
  · rw [Real.sq_sqrt hvar, moments_var]
    unfold side sideMean
    split
    next => rfl
    next =>
      rw [← sum_mirror]
      refine Finset.sum_congr rfl fun i _ => ?_
      simp only [mirror, score_rev]
      ring

end Side

section Round

variable {hat : PentaPdf ℝ} {s : ℝ} {pdf : Fin 5 → ℝ}
  {solve : (Fin 5 → ℝ) → (Fin 5 → ℝ) → Except Failure ℝ}

/-- The coefficients of a round, seen from the side of the t-value. -/
noncomputable def sideCoefficient (s : ℝ) (m : Moments ℝ) (i : Fin 5) : ℝ :=
  coefficient |s| (sideMean s m.mean) (Real.sqrt m.var) (score i)

/-- A round whose coefficients reach above zero on the side of the t-value solves its equation. -/
theorem mleRound_near (hsolve : Solves solve) (h : Shared hat) (hσ : 0 < Real.sqrt (moments score pdf).var)
    (hk : ∃ k, 0 < sideCoefficient s (moments score pdf) k) :
    ∃ next x, mleRoundBy solve hat (1 / 2) s pdf = .ok next ∧
      side s next = Secular.weight (sideCoefficient s (moments score pdf)) (side s hat.probs) x ∧
      Secular.Near (sideCoefficient s (moments score pdf)) (side s hat.probs) x
        (2 * solverError) (5 * solverError) := by
  obtain ⟨k, hk⟩ := hk
  have hbelow : ∀ i, sideCoefficient s (moments score pdf) i ≤ score i - 1 / 2 := fun i =>
    coefficient_le (abs_nonneg s) hσ.le
  have hlowest : sideCoefficient s (moments score pdf) 0 < 0 := by
    have hle := hbelow 0
    have hzero : score 0 = 0 := by norm_num [score_eq]
    rw [hzero] at hle
    linarith
  have hhalf : ∀ i, sideCoefficient s (moments score pdf) i ≤ 1 / 2 := by
    intro i
    have hle := hbelow i
    have hone := score_le_one i
    linarith
  unfold mleRoundBy
  rw [h.values]
  rcases le_or_gt 0 s with hs | hs
  · have ha : mleCoefficients score (1 / 2) s (moments score pdf) =
        sideCoefficient s (moments score pdf) := by
      funext i
      rw [mleCoefficients_eq hσ, sideCoefficient, sideMean, if_pos hs, abs_of_nonneg hs]
    simp only [ha, side_of_nonneg hs]
    obtain ⟨x, hx, hnear⟩ := hsolve.near h.share h.total (straddles_of hlowest hk) (.inl hhalf)
    rw [hx]
    exact ⟨_, x, rfl, rfl, hnear⟩
  · have ha : mleCoefficients score (1 / 2) s (moments score pdf) =
        fun i => -sideCoefficient s (moments score pdf) i.rev := by
      funext i
      rw [mleCoefficients_eq hσ, sideCoefficient, sideMean, if_neg (not_le.mpr hs),
        abs_of_neg hs, coefficient_mirror, Fin.rev_rev, neg_neg]
    have hrev : ∀ i, -sideCoefficient s (moments score pdf) (Fin.rev i.rev) =
        -sideCoefficient s (moments score pdf) i := fun i => by rw [Fin.rev_rev]
    simp only [ha, side_of_neg hs]
    obtain ⟨x, hx, hnear⟩ := hsolve.near h.share h.total
      (a := fun i => -sideCoefficient s (moments score pdf) i.rev)
      (straddles_of (i := k.rev) (j := Fin.rev 0) (by rw [hrev]; linarith)
        (by rw [hrev]; linarith))
      (.inr fun i => by linarith [hhalf i.rev])
    have hmirror := hnear.mirror Fin.revPerm
    simp only [Fin.revPerm_apply, Fin.rev_rev, neg_neg] at hmirror
    rw [hx]
    refine ⟨_, -x, rfl, ?_, hmirror⟩
    funext i
    simp only [mirror, Secular.weight, Fin.rev_rev, mul_neg, neg_mul]

/-- What is known of the distribution a round leaves. -/
structure Left (s : ℝ) (next : Fin 5 → ℝ) : Prop where
  positive : ∀ i, 0 < next i
  drifted : Drifted |s| (side s next) (sideMean s (moments score next).mean)
    (Real.sqrt (moments score next).var)

theorem distributed_next {p a next : Fin 5 → ℝ} {x : ℝ} (hp : ∀ i, 0 < p i)
    (hnext : side s next = Secular.weight a p x)
    (hnear : Secular.Near a p x (2 * solverError) (5 * solverError)) :
    (∀ i, 0 < next i) ∧ Distributed (Secular.weight a p x) (sideMean s (moments score next).mean)
      (Real.sqrt (moments score next).var) := by
  have hpos : ∀ i, 0 < next i := of_forall_side (s := s) (P := fun y => 0 < y) fun i => by
    rw [hnext]
    exact hnear.inside.weight_pos hp i
  have htotal := hnear.sum_weight
  rw [← hnext, sum_side] at htotal
  refine ⟨hpos, ?_⟩
  rw [← hnext]
  exact distributed_side s hpos htotal

/-- A round does not raise, and leaves a distribution from which the next does not. -/
theorem mleRound_left (hsolve : Solves solve) (h : Shared hat) (hs : |s| ≤ 943 / 1000)
    (hpdf : Left s pdf) : ∃ next, mleRoundBy solve hat (1 / 2) s pdf = .ok next ∧ Left s next := by
  have hσ := leastDeviation_pos.trans_le hpdf.drifted.spread
  obtain ⟨k, hk⟩ := hpdf.drifted.exists_coefficient (abs_nonneg s) hs
  obtain ⟨next, x, hok, hnext, hnear⟩ :=
    mleRound_near hsolve h hσ ⟨k, by unfold sideCoefficient; linarith⟩
  obtain ⟨hpos, hdist⟩ := distributed_next (forall_side (P := fun y => 0 < y) h.positive) hnext hnear
  refine ⟨next, hok, hpos, ?_⟩
  rw [hnext]
  exact hpdf.drifted.next (abs_nonneg s) hs (forall_side (P := fun y => leastShare ≤ y) h.share)
    hnear hdist

theorem moments_uniform : moments score (fun _ => 1 / 5) = ⟨1 / 2, 1 / 8⟩ := by
  norm_num [moments, score_eq, Fin.sum_univ_five]

theorem sideCoefficient_uniform (s : ℝ) (i : Fin 5) :
    sideCoefficient s (moments score fun _ => 1 / 5) i =
      coefficient |s| (1 / 2) uniformDeviation (score i) := by
  have hmean : sideMean s (1 / 2) = 1 / 2 := by
    unfold sideMean
    split
    next => rfl
    next => norm_num
  rw [moments_uniform, sideCoefficient, hmean]
  rfl

/-- The first round does not raise with a t-value below the bound. -/
theorem mleRound_uniform (hsolve : Solves solve) (h : Shared hat) (hs : |s| < tValueBound) :
    ∃ next, mleRoundBy solve hat (1 / 2) s (fun _ => 1 / 5) = .ok next ∧ Left s next := by
  have hσ : 0 < Real.sqrt (moments score fun _ => 1 / 5).var := by
    rw [moments_uniform]
    exact uniformDeviation_pos
  have hcoefficient : sideCoefficient s (moments score fun _ => 1 / 5) =
      fun i => coefficient |s| (1 / 2) uniformDeviation (score i) :=
    funext (sideCoefficient_uniform s)
  have hratio : |s| / tValueBound < 1 := (div_lt_one ((abs_nonneg s).trans_lt hs)).mpr hs
  have hfour : 0 < sideCoefficient s (moments score fun _ => 1 / 5) 4 := by
    rw [sideCoefficient_uniform, uniform_coefficient]
    norm_num [score_eq]
    linarith
  obtain ⟨next, x, hok, hnext, hnear⟩ := mleRound_near hsolve h hσ ⟨4, hfour⟩
  obtain ⟨hpos, hdist⟩ := distributed_next (forall_side (P := fun y => 0 < y) h.positive) hnext hnear
  refine ⟨next, hok, hpos, ?_⟩
  rw [hnext]
  rw [hcoefficient] at hnear hdist ⊢
  exact uniform_next (abs_nonneg s) hs (forall_side (P := fun y => leastShare ≤ y) h.share)
    hnear hdist

theorem mleIterateBy_ok (hsolve : Solves solve) (h : Shared hat) (hs : |s| ≤ 943 / 1000) (n : ℕ)
    (hpdf : Left s pdf) :
    ∃ p, mleIterateBy solve hat (1 / 2) s n pdf = .ok p ∧ ∀ i, 0 < p i := by
  induction n generalizing pdf with
  | zero => exact ⟨pdf, rfl, hpdf.positive⟩
  | succ n ih =>
    obtain ⟨next, hok, hnext⟩ := mleRound_left hsolve h hs hpdf
    simp only [mleIterateBy, hok, bind, Except.bind]
    split
    next => exact ⟨next, rfl, hnext.positive⟩
    next => exact ih hnext

/-- Below the bound the iteration ends in a positive distribution. -/
theorem mleTValueBy_ok (hsolve : Solves solve) (h : Shared hat) (hs : |s| < tValueBound) :
    ∃ p, mleTValueBy solve hat (1 / 2) s = .ok p ∧ ∀ i, 0 < p i := by
  obtain ⟨next, hok, hnext⟩ := mleRound_uniform hsolve h hs
  simp only [mleTValueBy, mleIterateBy, hok, bind, Except.bind]
  split
  next => exact ⟨next, rfl, hnext.positive⟩
  next => exact mleIterateBy_ok hsolve h (hs.le.trans tValueBound_le) 9 hnext

end Round

/-- The hypotheses for which the estimate exists, in Elo. -/
def InReach (nelo : ℝ) : Prop := |nelo| < (2 / 3 : ℚ) * neloDividedByNt

theorem inReach_iff {nelo : ℝ} : InReach nelo ↔ |pairTValue nelo| < tValueBound := by
  have hK : 0 < neloDividedByNt := by
    unfold neloDividedByNt
    norm_num
  have hroot : 0 < Real.sqrt 2 := Real.sqrt_pos.mpr (by norm_num)
  have hbound : tValueBound = 2 / 3 * Real.sqrt 2 := by
    have hfour : Real.sqrt 2 = 4 * uniformDeviation := by
      rw [Real.sqrt_eq_iff_mul_self_eq (by norm_num) (by linarith [uniformDeviation_pos])]
      nlinarith [uniformDeviation_sq]
    unfold tValueBound
    rw [hfour]
    ring
  have habs : |pairTValue nelo| = |nelo| / neloDividedByNt * Real.sqrt 2 := by
    rw [pairTValue, abs_mul, abs_div, abs_of_pos hK, abs_of_pos hroot]
  rw [habs, hbound, mul_lt_mul_iff_left₀ hroot, div_lt_iff₀ hK]
  norm_num [InReach]

theorem toPdf_shared {results : Pentanomial}
    (h : ∀ i, leastShare ≤ (toPdf results : PentaPdf ℝ).probs i) :
    Shared (toPdf results) :=
  ⟨rfl, h, (toPdf_proper results).total⟩

/-- Few enough pairs leave every category its share. -/
theorem leastShare_le (results : Pentanomial) (h : results.pairs ≤ 1900000) (i : Fin 5) :
    leastShare ≤ (toPdf results : PentaPdf ℝ).probs i := by
  have hle : ∀ n : ℕ, (regularize n : ℝ) ≤ n + 1 / 10 ^ 3 := by
    intro n
    unfold regularize
    split
    next hn => rw [hn, Nat.cast_zero, zero_add]
    next => linarith [show (0 : ℝ) < 1 / 10 ^ 3 by norm_num]
  have hge : (1 / 10 ^ 3 : ℝ) ≤ regularize (results.counts i) := by
    unfold regularize
    split
    next => exact le_rfl
    next hn =>
      have hone : (1 : ℝ) ≤ results.counts i := by exact_mod_cast Nat.pos_of_ne_zero hn
      linarith [show (1 / 10 ^ 3 : ℝ) ≤ 1 by norm_num]
  have hcount : ∑ j, (regularize (results.counts j) : ℝ) ≤ 1900000 + 5 / 10 ^ 3 := by
    have hpairs : (∑ j, (results.counts j : ℝ)) ≤ 1900000 := by exact_mod_cast h
    calc ∑ j, (regularize (results.counts j) : ℝ) ≤ ∑ j, ((results.counts j : ℝ) + 1 / 10 ^ 3) :=
          Finset.sum_le_sum fun j _ => hle _
      _ = ∑ j, (results.counts j : ℝ) + 5 / 10 ^ 3 := by
        rw [Finset.sum_add_distrib, Finset.sum_const, Finset.card_univ, Fintype.card_fin]
        norm_num
      _ ≤ 1900000 + 5 / 10 ^ 3 := by linarith
  have hpos : (0 : ℝ) < ∑ j, regularize (results.counts j) :=
    Finset.sum_pos (fun j _ => regularize_pos _) ⟨0, Finset.mem_univ 0⟩
  simp only [toPdf]
  rw [le_div_iff₀ hpos]
  calc leastShare * ∑ j, (regularize (results.counts j) : ℝ)
      ≤ leastShare * (1900000 + 5 / 10 ^ 3) :=
        mul_le_mul_of_nonneg_left hcount (by rw [leastShare_eq]; norm_num)
    _ ≤ 1 / 10 ^ 3 := by
      rw [leastShare_eq]
      norm_num
    _ ≤ regularize (results.counts i) := hge

end CapiNet
