import CapiNet.Statistics
import CapiNet.Spec

namespace CapiNet

/-- The decisions in the order of the log-likelihood ratio. -/
def SprtDecision.rank : SprtDecision → Nat
  | .acceptH0 => 0
  | .continue => 1
  | .acceptH1 => 2

/-- The bounds leave room for a test to go on. -/
structure ContinuationRegion (b : SprtBounds ℝ) : Prop where
  lower_neg : b.lower < 0
  upper_pos : 0 < b.upper
  start : sprtDecide 0 b = .continue
  exclusive : ∀ llr, ¬(llr ≤ b.lower ∧ b.upper ≤ llr)
  monotone : ∀ x y, x ≤ y → (sprtDecide x b).rank ≤ (sprtDecide y b).rank

/-- A larger ratio never decides for a lower hypothesis, whatever the bounds. -/
theorem sprtDecide_rank_mono {b : SprtBounds ℝ} {x y : ℝ} (hxy : x ≤ y) :
    (sprtDecide x b).rank ≤ (sprtDecide y b).rank := by
  cases hx : sprtDecide x b with
  | acceptH0 => exact Nat.zero_le _
  | «continue» =>
    obtain ⟨hl, -⟩ := sprtDecide_continue.mp hx
    cases hy : sprtDecide y b with
    | acceptH0 =>
      obtain ⟨-, hy⟩ := sprtDecide_acceptH0.mp hy
      exact absurd (hl.trans_le (hxy.trans hy)) (lt_irrefl _)
    | «continue» => exact le_rfl
    | acceptH1 => decide
  | acceptH1 =>
    have hy : sprtDecide y b = .acceptH1 :=
      sprtDecide_acceptH1.mpr ((sprtDecide_acceptH1.mp hx).trans hxy)
    rw [hy]

theorem ContinuationRegion.of_signs {b : SprtBounds ℝ} (hl : b.lower < 0) (hu : 0 < b.upper) :
    ContinuationRegion b where
  lower_neg := hl
  upper_pos := hu
  start := sprtDecide_continue.mpr ⟨hl, hu⟩
  exclusive := by
    rintro llr ⟨h, h'⟩
    exact absurd ((hl.trans hu).trans_le (h'.trans h)) (lt_irrefl _)
  monotone := fun _ _ => sprtDecide_rank_mono

section Wald

variable {alpha beta : ℝ}

theorem sprtBounds_lower_neg (ha : alpha < 1) (hb : 0 < beta) :
    (sprtBounds alpha beta).lower < 0 ↔ alpha + beta < 1 := by
  have hpos : 0 < 1 - alpha := sub_pos.mpr ha
  change Real.log (beta / (1 - alpha)) < 0 ↔ _
  rw [Real.log_neg_iff (div_pos hb hpos), div_lt_one hpos, lt_sub_iff_add_lt, add_comm]

theorem sprtBounds_upper_pos (ha : 0 < alpha) (hb : beta < 1) :
    0 < (sprtBounds alpha beta).upper ↔ alpha + beta < 1 := by
  have hpos : 0 < 1 - beta := sub_pos.mpr hb
  change 0 < Real.log ((1 - beta) / alpha) ↔ _
  rw [Real.log_pos_iff (div_pos hpos ha).le, one_lt_div ha, lt_sub_iff_add_lt]

theorem sprtBounds_region (ha : 0 < alpha ∧ alpha < 1) (hb : 0 < beta ∧ beta < 1) :
    ContinuationRegion (sprtBounds alpha beta) ↔ alpha + beta < 1 := by
  constructor
  · intro h
    exact (sprtBounds_lower_neg ha.2 hb.1).mp h.lower_neg
  · intro h
    exact .of_signs ((sprtBounds_lower_neg ha.2 hb.1).mpr h)
      ((sprtBounds_upper_pos ha.1 hb.2).mpr h)

end Wald

theorem realNumerics_region {alpha beta : Double} (ha : 0 < alpha.val ∧ alpha.val < 1)
    (hb : 0 < beta.val ∧ beta.val < 1) :
    ContinuationRegion (realNumerics.sprtBounds alpha beta) ↔ alpha.val + beta.val < 1 := by
  have h : ContinuationRegion (realNumerics.sprtBounds alpha beta) ↔
      (alpha.val : ℝ) + beta.val < 1 :=
    sprtBounds_region (by exact_mod_cast ha) (by exact_mod_cast hb)
  rw [h]
  exact_mod_cast Iff.rfl

/-- The error rates of an accepted SPRT. -/
theorem accepted_sprt_rates {body : Json} {presets : SprtPresets} {spec : TestSpec}
    (h : parseTestSpec body presets = .ok spec) (hk : spec.kind = .sprt) :
    ∃ alpha beta, spec.sprtAlpha = some alpha ∧ spec.sprtBeta = some beta ∧
      (0 < alpha.val ∧ alpha.val < 1) ∧ (0 < beta.val ∧ beta.val < 1) := by
  obtain ⟨s, hs, -, -, -, hsa, hsb⟩ := (parseTestSpec_ok h).2 hk
  obtain ⟨-, ha, hb⟩ := parseSprt_checked hs
  exact ⟨s.alpha, s.beta, hsa, hsb, ha, hb⟩

/-- The body of an SPRT with custom bounds. -/
def customBody (elo0 elo1 : Int) (alpha beta : Double) : Json :=
  .obj [("kind", .str "sprt"), ("candidate_ref", .str "dev"), ("baseline_ref", .str "main"),
    ("tc", .str "10+1"), ("book_name", .str "book.epd"), ("total_pairs", .int 100),
    ("preset", .str "custom"), ("sprt_elo0", .int elo0), ("sprt_elo1", .int elo1),
    ("sprt_alpha", .float alpha), ("sprt_beta", .float beta)]

/-- Acceptance of a concrete body, by evaluation. -/
theorem accepted_of_check {body : Json} {presets : SprtPresets} {p : TestSpec → Bool}
    (h : (parseTestSpec body presets).toOption.any p = true) :
    ∃ spec, parseTestSpec body presets = .ok spec ∧ p spec = true := by
  cases hp : parseTestSpec body presets with
  | error e => simp [hp, Except.toOption] at h
  | ok spec => exact ⟨spec, rfl, by simpa [hp, Except.toOption] using h⟩

/-- The region of an accepted SPRT is genuine exactly when its error rates sum to less than one. -/
theorem accepted_sprt_region_iff (body : Json) (presets : SprtPresets) (spec : TestSpec)
    (h : parseTestSpec body presets = .ok spec) (hk : spec.kind = .sprt) :
    ∃ alpha beta, spec.sprtAlpha = some alpha ∧ spec.sprtBeta = some beta ∧
      (ContinuationRegion (realNumerics.sprtBounds alpha beta) ↔ alpha.val + beta.val < 1) := by
  obtain ⟨alpha, beta, hsa, hsb, ha, hb⟩ := accepted_sprt_rates h hk
  exact ⟨alpha, beta, hsa, hsb, realNumerics_region ha hb⟩

theorem default_rates_region :
    ∃ spec, parseTestSpec (customBody 0 5 .fivePercent .fivePercent) {} = .ok spec ∧
      ∃ alpha beta, spec.sprtAlpha = some alpha ∧ spec.sprtBeta = some beta ∧
        (ContinuationRegion (realNumerics.sprtBounds alpha beta) ↔ alpha.val + beta.val < 1) := by
  have hc : (parseTestSpec (customBody 0 5 .fivePercent .fivePercent) {}).toOption.any
      (·.kind == .sprt) = true := by decide +kernel
  obtain ⟨spec, h, hk⟩ := accepted_of_check hc
  exact ⟨spec, h, accepted_sprt_region_iff _ _ spec h (by simpa using hk)⟩

def Double.threeQuarters : Double := ⟨3, -2, by norm_num, by norm_num⟩

/-- Error rates of three quarters each are accepted, and turn the bounds around. -/
theorem accepted_sprt_without_region :
    ¬∀ (body : Json) (presets : SprtPresets) (spec : TestSpec),
      parseTestSpec body presets = .ok spec → spec.kind = .sprt →
      ∃ alpha beta, spec.sprtAlpha = some alpha ∧ spec.sprtBeta = some beta ∧
        ContinuationRegion (realNumerics.sprtBounds alpha beta) := by
  intro hall
  have hc : (parseTestSpec (customBody 0 5 .threeQuarters .threeQuarters) {}).toOption.any
      (fun s => s.kind == .sprt && s.sprtAlpha == some .threeQuarters &&
        s.sprtBeta == some .threeQuarters) = true := by decide +kernel
  obtain ⟨spec, h, hk⟩ := accepted_of_check hc
  simp only [Bool.and_eq_true, beq_iff_eq] at hk
  obtain ⟨alpha, beta, hsa, hsb, hr⟩ := hall _ _ spec h hk.1.1
  cases Option.some.inj (hk.1.2.symm.trans hsa)
  cases Option.some.inj (hk.2.symm.trans hsb)
  have hv : Double.threeQuarters.val = 3 / 4 := by norm_num [Double.val, Double.threeQuarters]
  have hsum := (realNumerics_region (by rw [hv]; norm_num) (by rw [hv]; norm_num)).mp hr
  rw [hv] at hsum
  norm_num at hsum

end CapiNet
