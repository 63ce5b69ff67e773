import Mathlib.MeasureTheory.Integral.IntegralEqImproper
import Mathlib.MeasureTheory.Measure.Lebesgue.Integral

open MeasureTheory Filter Topology

namespace Tail

/-- A positive integrable function. -/
structure Density (f : ℝ → ℝ) : Prop where
  integrable : Integrable f
  pos : ∀ x, 0 < f x

noncomputable def tail (f : ℝ → ℝ) (x : ℝ) : ℝ := ∫ t in Set.Ioi x, f t

variable {f : ℝ → ℝ}

theorem tail_sub (h : Density f) (a b : ℝ) : tail f a - tail f b = ∫ t in a..b, f t :=
  intervalIntegral.integral_Ioi_sub_Ioi' h.integrable.integrableOn h.integrable.integrableOn

theorem tail_strictAnti (h : Density f) : StrictAnti (tail f) := by
  intro a b hab
  have hpos : 0 < ∫ t in a..b, f t :=
    intervalIntegral.intervalIntegral_pos_of_pos h.integrable.intervalIntegrable h.pos hab
  rw [← tail_sub h] at hpos
  linarith

theorem tail_continuous (h : Density f) : Continuous (tail f) := by
  have heq : tail f = fun x => tail f 0 - ∫ t in (0 : ℝ)..x, f t := by
    funext x
    rw [← tail_sub h, sub_sub_cancel]
  rw [heq]
  exact continuous_const.sub (h.integrable.continuous_primitive 0)

theorem tail_atTop (f : ℝ → ℝ) : Tendsto (tail f) atTop (𝓝 0) :=
  tendsto_integral_Ioi_zero tendsto_id

/-- What lies to the left of a point and what lies to its right. -/
theorem left_add_tail (h : Density f) (x : ℝ) : (∫ t in Set.Iic x, f t) + tail f x = ∫ t, f t :=
  intervalIntegral.integral_Iic_add_Ioi h.integrable.integrableOn h.integrable.integrableOn

theorem tail_atBot (h : Density f) : Tendsto (tail f) atBot (𝓝 (∫ t, f t)) := by
  have heq : tail f = fun x => (∫ t, f t) - ∫ t in Set.Iic x, f t := by
    funext x
    rw [← left_add_tail h x, add_sub_cancel_left]
  have hleft : Tendsto (fun x : ℝ => ∫ t in Set.Iic x, f t) atBot (𝓝 0) :=
    tendsto_integral_Iic_zero tendsto_id
  rw [heq]
  simpa using tendsto_const_nhds.sub hleft

theorem tail_pos (h : Density f) (x : ℝ) : 0 < tail f x := by
  have hnonneg : 0 ≤ tail f (x + 1) :=
    (tail_strictAnti h).antitone.le_of_tendsto (tail_atTop f) (x + 1)
  exact hnonneg.trans_lt (tail_strictAnti h (lt_add_one x))

theorem tail_lt (h : Density f) (x : ℝ) : tail f x < ∫ t, f t := by
  have hle : tail f (x - 1) ≤ ∫ t, f t :=
    (tail_strictAnti h).antitone.ge_of_tendsto (tail_atBot h) (x - 1)
  exact (tail_strictAnti h (sub_one_lt x)).trans_le hle

/-- Every part of the mass is the tail of a point. -/
theorem exists_tail (h : Density f) {c : ℝ} (hpos : 0 < c) (hlt : c < ∫ t, f t) :
    ∃ x, tail f x = c := by
  have hbelow : ∃ a, tail f a ≤ c := ((tail_atTop f).eventually_le_const hpos).exists
  have habove : ∃ b, c ≤ tail f b := ((tail_atBot h).eventually_const_le hlt).exists
  exact mem_range_of_exists_le_of_exists_ge (tail_continuous h) hbelow habove

/-- The tails of an even density. -/
theorem tail_neg (h : Density f) (heven : ∀ x, f (-x) = f x) (x : ℝ) :
    tail f (-x) = (∫ t, f t) - tail f x := by
  have hleft : tail f (-x) = ∫ t in Set.Iic x, f t := by
    unfold tail
    rw [← integral_comp_neg_Iic]
    simp only [heven]
  rw [hleft, ← left_add_tail h x, add_sub_cancel_right]

end Tail
