import CapiNet.MleRounds
import CapiNet.SprtRegion

namespace CapiNet

section Round

variable {hat : PentaPdf ℝ} {s : ℝ} {pdf : Fin 5 → ℝ}

/-- The coefficients of the mirrored round are those of the round, mirrored and negated. -/
theorem mleCoefficients_mirror (h : hat.Proper) (hpdf : ∑ i, pdf i = 1) :
    mleCoefficients hat.values (1 / 2) (-s) (moments hat.values (mirror pdf)) =
      fun i => -mleCoefficients hat.values (1 / 2) s (moments hat.values pdf) i.rev := by
  funext i
  rw [moments_mirror h hpdf]
  have hz : (1 - (moments hat.values pdf).mean - hat.values i) =
      -((moments hat.values pdf).mean - hat.values i.rev) := by
    rw [h.values]
    ring
  simp only [mleCoefficients, hz, neg_div, neg_sq]
  rw [h.values]
  ring

theorem minElement_mirror (a : Fin 5 → ℝ) :
    minElement (fun i => -a i.rev) = -maxElement a := by
  obtain ⟨i, hi⟩ := exists_minElement fun i => -a i.rev
  obtain ⟨j, hj⟩ := exists_maxElement a
  have hle := le_maxElement a i.rev
  have hge := minElement_le (fun i => -a i.rev) j.rev
  simp only [Fin.rev_rev] at hge
  refine le_antisymm ?_ ?_
  · rw [← hj]; exact hge
  · rw [← hi]; exact neg_le_neg hle

theorem maxElement_mirror (a : Fin 5 → ℝ) : maxElement (mirror a) = maxElement a := by
  obtain ⟨i, hi⟩ := exists_maxElement (mirror a)
  obtain ⟨j, hj⟩ := exists_maxElement a
  have hle := le_maxElement a i.rev
  have hge := le_maxElement (mirror a) j.rev
  have hrev : mirror a j.rev = a j := by simp [mirror]
  refine le_antisymm ?_ ?_
  · rw [← hi]; exact hle
  · rw [← hj, ← hrev]; exact hge

/-- The mirrored equation raises when the equation does, and has the negated root. -/
theorem exactSecular_mirror {a p : Fin 5 → ℝ} (hp : ∀ i, 0 < p i) :
    exactSecular (fun i => -a i.rev) (mirror p) = (exactSecular a p).map Neg.neg := by
  have hprod : minElement (fun i => -a i.rev) * maxElement (fun i => -a i.rev) =
      minElement a * maxElement a := by
    have hmax : maxElement (fun i => -a i.rev) = -minElement a := by
      have hmin := minElement_mirror fun i => -a i.rev
      simp only [Fin.rev_rev, neg_neg] at hmin
      rw [hmin, neg_neg]
    rw [minElement_mirror, hmax, neg_mul_neg, mul_comm]
  by_cases h : 0 ≤ minElement a * maxElement a
  · rw [exactSecular, hprod, if_pos h, exactSecular, if_pos h]
    rfl
  · obtain ⟨x, hx, hroot, -⟩ := exactSecular_root hp h
    obtain ⟨y, hy, -, hunique⟩ := exactSecular_root (a := fun i => -a i.rev) (p := mirror p)
      (fun i => hp i.rev) (by rw [hprod]; exact h)
    rw [hx, hy, ← hunique (-x) (hroot.mirror Fin.revPerm)]
    rfl

/-- The distribution of a round with an exact root is one. -/
theorem sum_mleRound (h : hat.Proper) {ref : ℝ} {next : Fin 5 → ℝ}
    (hnext : mleRoundBy exactSecular hat ref s pdf = .ok next) : ∑ i, next i = 1 := by
  obtain ⟨x, hx, hnext⟩ := bind_eq_ok.mp hnext
  cases hnext
  generalize mleCoefficients hat.values ref s (moments hat.values pdf) = a at hx ⊢
  have hstraddle : ¬0 ≤ minElement a * maxElement a := by
    intro hbad
    rw [exactSecular, if_pos hbad] at hx
    cases hx
  obtain ⟨y, hy, hroot, -⟩ := exactSecular_root h.positive hstraddle
  cases hx.symm.trans hy
  have hterm : ∀ i, hat.probs i / (1 + x * a i) =
      hat.probs i - x * (hat.probs i * a i / (1 + x * a i)) := by
    intro i
    have hne := (hroot.inside i).ne'
    field_simp
    ring
  have hzero : ∑ i, hat.probs i * a i / (1 + x * a i) = 0 := hroot.zero
  rw [Finset.sum_congr rfl fun i _ => hterm i, Finset.sum_sub_distrib, ← Finset.mul_sum, hzero,
    h.total, mul_zero, sub_zero]

theorem mleRound_mirror (h : hat.Proper) (hpdf : ∑ i, pdf i = 1) :
    mleRoundBy exactSecular hat.mirror (1 / 2) (-s) (mirror pdf) =
      (mleRoundBy exactSecular hat (1 / 2) s pdf).map mirror := by
  have hvalues : hat.mirror.values = hat.values := rfl
  have hprobs : hat.mirror.probs = mirror hat.probs := rfl
  simp only [mleRoundBy, hvalues, hprobs, mleCoefficients_mirror h hpdf]
  generalize mleCoefficients hat.values (1 / 2) s (moments hat.values pdf) = a
  rw [exactSecular_mirror h.positive]
  cases exactSecular a hat.probs with
  | error e => rfl
  | ok x =>
    refine congrArg Except.ok (funext fun i => ?_)
    simp only [mirror, neg_mul_neg]

theorem maxDelta_mirror (prev next : Fin 5 → ℝ) :
    maxDelta (mirror prev) (mirror next) = maxDelta prev next :=
  congrArg (max 0) (maxElement_mirror fun i => |prev i - next i|)

/-- Round by round, the two iterations are mirror images. -/
theorem mleIterate_mirror (h : hat.Proper) (n : ℕ) (hpdf : ∑ i, pdf i = 1) :
    mleIterateBy exactSecular hat.mirror (1 / 2) (-s) n (mirror pdf) =
      (mleIterateBy exactSecular hat (1 / 2) s n pdf).map mirror := by
  induction n generalizing pdf with
  | zero => rfl
  | succ n ih =>
    simp only [mleIterateBy, mleRound_mirror h hpdf]
    cases hnext : mleRoundBy exactSecular hat (1 / 2) s pdf with
    | error e => rfl
    | ok next =>
      simp only [Except.map, bind, Except.bind, maxDelta_mirror]
      split
      next => rfl
      next => exact ih (sum_mleRound h hnext)

end Round

theorem pairTValue_neg (nelo : ℝ) : pairTValue (-nelo) = -pairTValue nelo := by
  simp only [pairTValue, neg_div, neg_mul]

theorem mleTValue_mirror {hat : PentaPdf ℝ} (h : hat.Proper) (nelo : ℝ) :
    mleTValueBy exactSecular hat.mirror (1 / 2) (pairTValue (-nelo)) =
      (mleTValueBy exactSecular hat (1 / 2) (pairTValue nelo)).map mirror := by
  have huniform : ∑ _i : Fin 5, (1 / 5 : ℝ) = 1 := by
    rw [Finset.sum_const, Finset.card_univ, Fintype.card_fin]
    norm_num
  have hiter : mleIterateBy exactSecular hat.mirror (1 / 2) (-pairTValue nelo) 10
      (mirror fun _ => 1 / 5) =
      (mleIterateBy exactSecular hat (1 / 2) (pairTValue nelo) 10 fun _ => 1 / 5).map mirror :=
    mleIterate_mirror h 10 huniform
  rw [pairTValue_neg]
  unfold mleTValueBy
  exact hiter

/-- The solver raises nothing but its one error. -/
theorem exactSecular_error {a p : Fin 5 → ℝ} {e : Failure} (h : exactSecular a p = .error e) :
    e = .domainError "secular equation requires support straddling zero" := by
  unfold exactSecular at h
  split at h
  next => cases h; rfl
  next => cases h

theorem mleIterate_error {hat : PentaPdf ℝ} {ref s : ℝ} {n : ℕ} {pdf : Fin 5 → ℝ} {e : Failure}
    (h : mleIterateBy exactSecular hat ref s n pdf = .error e) :
    e = .domainError "secular equation requires support straddling zero" := by
  induction n generalizing pdf with
  | zero => cases h
  | succ n ih =>
    simp only [mleIterateBy] at h
    cases hnext : mleRoundBy exactSecular hat ref s pdf with
    | error e' =>
      rw [hnext] at h
      cases h
      simp only [mleRoundBy] at hnext
      cases hx : exactSecular (mleCoefficients hat.values ref s (moments hat.values pdf)) hat.probs with
      | error e'' => rw [hx] at hnext; cases hnext; exact exactSecular_error hx
      | ok x => rw [hx] at hnext; cases hnext
    | ok next =>
      rw [hnext] at h
      simp only [bind, Except.bind] at h
      split at h
      next => cases h
      next => exact ih h

/-- Mirrored distribution, exchanged and negated hypotheses: the negated ratio, or the same
error. -/
theorem llr_mirror (e0 e1 : ℝ) (p : Pentanomial) :
    llrNormalizedBy exactSecular (-e1) (-e0) p.mirror =
      (llrNormalizedBy exactSecular e0 e1 p).map Neg.neg := by
  unfold llrNormalizedBy
  rw [p.pairs_mirror]
  split
  next => simp [Except.map]
  next =>
    have h : (toPdf p : PentaPdf ℝ).Proper := toPdf_proper p
    simp only [toPdf_mirror, mleTValue_mirror h]
    have herr0 : ∀ e, mleTValueBy exactSecular (toPdf p) (1 / 2) (pairTValue e0) = .error e →
        e = _ := fun e => mleIterate_error
    have herr1 : ∀ e, mleTValueBy exactSecular (toPdf p) (1 / 2) (pairTValue e1) = .error e →
        e = _ := fun e => mleIterate_error
    cases h0 : mleTValueBy exactSecular (toPdf p) (1 / 2) (pairTValue e0) with
    | error f0 =>
      rw [herr0 f0 h0]
      cases h1 : mleTValueBy exactSecular (toPdf p) (1 / 2) (pairTValue e1) with
      | error f1 => rw [herr1 f1 h1]; rfl
      | ok p1 => rfl
    | ok p0 =>
      cases h1 : mleTValueBy exactSecular (toPdf p) (1 / 2) (pairTValue e1) with
      | error f1 => rfl
      | ok p1 =>
        refine congrArg Except.ok ?_
        have hsum : ∑ i, mirror (toPdf p).probs i * (Real.log (mirror p0 i) - Real.log (mirror p1 i)) =
            ∑ i, (toPdf p).probs i * (Real.log (p0 i) - Real.log (p1 i)) :=
          sum_mirror fun i => (toPdf p).probs i * (Real.log (p0 i) - Real.log (p1 i))
        have hneg : ∑ i, (toPdf p).probs i * (Real.log (p0 i) - Real.log (p1 i)) =
            -∑ i, (toPdf p).probs i * (Real.log (p1 i) - Real.log (p0 i)) := by
          rw [← Finset.sum_neg_distrib]
          exact Finset.sum_congr rfl fun i _ => by ring
        simp only [PentaPdf.mirror, hsum, hneg, mul_neg]

def SprtDecision.exchange : SprtDecision → SprtDecision
  | .continue => .continue
  | .acceptH1 => .acceptH0
  | .acceptH0 => .acceptH1

/-- Exchanging the error rates negates and exchanges the bounds. -/
theorem sprtBounds_exchange (alpha beta : ℝ) :
    sprtBounds beta alpha = ⟨-(sprtBounds alpha beta).upper, -(sprtBounds alpha beta).lower⟩ := by
  simp only [sprtBounds, ← Real.log_inv, inv_div]

theorem sprtDecide_exchange {llr : ℝ} {b : SprtBounds ℝ} (h : b.lower < b.upper) :
    sprtDecide (-llr) ⟨-b.upper, -b.lower⟩ = (sprtDecide llr b).exchange := by
  unfold sprtDecide
  simp only [neg_le_neg_iff]
  by_cases hu : b.upper ≤ llr
  · have hl : ¬llr ≤ b.lower := by
      rw [not_le]
      exact h.trans_le hu
    simp [hu, hl, SprtDecision.exchange]
  · by_cases hl : llr ≤ b.lower
    · simp [hu, hl, SprtDecision.exchange]
    · simp [hu, hl, SprtDecision.exchange]

/-- Exchanging the engines and the hypotheses negates the ratio wherever it is defined, and with
the error rates exchanged too, exchanges the decisions. -/
theorem llr_antisymmetric (e0 e1 : ℝ) (p : Pentanomial) (llr : ℝ)
    (h : llrNormalizedBy exactSecular e0 e1 p = .ok llr) :
    llrNormalizedBy exactSecular (-e1) (-e0) p.mirror = .ok (-llr) ∧
      ∀ alpha beta : ℝ, 0 < alpha → 0 < beta → alpha + beta < 1 →
        sprtDecide (-llr) (sprtBounds beta alpha) =
          (sprtDecide llr (sprtBounds alpha beta)).exchange := by
  refine ⟨by rw [llr_mirror, h]; rfl, fun alpha beta ha hb hab => ?_⟩
  have hlower := (sprtBounds_lower_neg (by linarith) hb).mpr hab
  have hupper := (sprtBounds_upper_pos ha (by linarith)).mpr hab
  rw [sprtBounds_exchange]
  exact sprtDecide_exchange (hlower.trans hupper)

/-- Three won pairs and one lost, between 0 and 5 Elo. -/
theorem llr_antisymmetric_four : ∃ llr,
    llrNormalizedBy exactSecular (-5) (-0) (Pentanomial.mirror ⟨![1, 0, 0, 0, 3]⟩) = .ok (-llr) ∧
      sprtDecide (-llr) (sprtBounds (1 / 10) (1 / 20)) =
        (sprtDecide llr (sprtBounds (1 / 20) (1 / 10))).exchange := by
  have hshared : Shared (toPdf ⟨![1, 0, 0, 0, 3]⟩) := toPdf_shared (leastShare_le _ (by decide))
  have hreach : ∀ nelo : ℝ, |nelo| ≤ 5 → InReach nelo := by
    intro nelo h
    unfold InReach neloDividedByNt
    exact h.trans_lt (by norm_num)
  obtain ⟨p0, h0, -⟩ := mleTValueBy_ok exactSecular_solves hshared
    (inReach_iff.mp (hreach 0 (by norm_num)))
  obtain ⟨p1, h1, -⟩ := mleTValueBy_ok exactSecular_solves hshared
    (inReach_iff.mp (hreach 5 (by norm_num)))
  obtain ⟨llr, hllr⟩ : ∃ llr, llrNormalizedBy exactSecular 0 5 ⟨![1, 0, 0, 0, 3]⟩ = .ok llr := by
    rw [llrNormalizedBy, if_neg (by decide)]
    simp only [h0, h1]
    exact ⟨_, rfl⟩
  obtain ⟨hmirror, hdecide⟩ := llr_antisymmetric 0 5 _ _ hllr
  exact ⟨llr, hmirror, hdecide (1 / 20) (1 / 10) (by norm_num) (by norm_num) (by norm_num)⟩

end CapiNet
