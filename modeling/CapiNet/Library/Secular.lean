import Mathlib.Algebra.BigOperators.Field
import Mathlib.Algebra.Order.BigOperators.Group.Finset
import Mathlib.Topology.Order.IntermediateValue
import Mathlib.Topology.Algebra.Field
import Mathlib.Topology.Algebra.Monoid
import Mathlib.Topology.Instances.Real.Lemmas
import Mathlib.Data.Real.Basic
import Mathlib.Tactic.Linarith
import Mathlib.Tactic.FieldSimp
import Mathlib.Tactic.Positivity

namespace Secular

variable {ι : Type} [Fintype ι] {a p : ι → ℝ}

noncomputable def sum (a p : ι → ℝ) (x : ℝ) : ℝ := ∑ i, p i * a i / (1 + x * a i)

/-- Between the poles. -/
def Inside (a : ι → ℝ) (x : ℝ) : Prop := ∀ i, 0 < 1 + x * a i

structure Root (a p : ι → ℝ) (x : ℝ) : Prop where
  inside : Inside a x
  zero : sum a p x = 0

omit [Fintype ι] in
theorem inside_neg {x : ℝ} : Inside (fun i => -a i) (-x) ↔ Inside a x := by
  simp [Inside]

theorem sum_neg (a p : ι → ℝ) (x : ℝ) : sum (fun i => -a i) p (-x) = -sum a p x := by
  simp only [sum, neg_mul, mul_neg, neg_neg, neg_div, Finset.sum_neg_distrib]

omit [Fintype ι] in
/-- What lies between two points inside lies inside. -/
theorem Inside.between {x y z : ℝ} (hx : Inside a x) (hy : Inside a y) (hxz : x ≤ z) (hzy : z ≤ y) :
    Inside a z := by
  intro i
  rcases le_total 0 (a i) with h | h
  · have hmul : x * a i ≤ z * a i := mul_le_mul_of_nonneg_right hxz h
    have hpos := hx i
    linarith
  · have hmul : y * a i ≤ z * a i := mul_le_mul_of_nonpos_right hzy h
    have hpos := hy i
    linarith

/-- The sum decreases between the poles. -/
theorem sum_lt {x y : ℝ} (hp : ∀ i, 0 < p i) (ha : ∃ i, a i ≠ 0) (hx : Inside a x)
    (hy : Inside a y) (hxy : x < y) : sum a p y < sum a p x := by
  have hterm : ∀ i, p i * a i / (1 + x * a i) - p i * a i / (1 + y * a i) =
      p i * (a i * a i) * (y - x) / ((1 + x * a i) * (1 + y * a i)) := by
    intro i
    rw [div_sub_div _ _ (hx i).ne' (hy i).ne']
    congr 1
    ring
  obtain ⟨k, hk⟩ := ha
  refine Finset.sum_lt_sum (fun i _ => ?_) ⟨k, Finset.mem_univ k, ?_⟩
  · have hle : 0 ≤ p i * (a i * a i) * (y - x) / ((1 + x * a i) * (1 + y * a i)) := by
      have hd : 0 < (1 + x * a i) * (1 + y * a i) := mul_pos (hx i) (hy i)
      exact div_nonneg (mul_nonneg (mul_nonneg (hp i).le (mul_self_nonneg _)) (by linarith)) hd.le
    have heq := hterm i
    linarith
  · have hlt : 0 < p k * (a k * a k) * (y - x) / ((1 + x * a k) * (1 + y * a k)) := by
      have hd : 0 < (1 + x * a k) * (1 + y * a k) := mul_pos (hx k) (hy k)
      exact div_pos (mul_pos (mul_pos (hp k) (mul_self_pos.mpr hk)) (by linarith)) hd
    have heq := hterm k
    linarith

theorem Root.unique {x y : ℝ} (hp : ∀ i, 0 < p i) (ha : ∃ i, a i ≠ 0) (hx : Root a p x)
    (hy : Root a p y) : x = y := by
  rcases lt_trichotomy x y with h | h | h
  · have hlt := sum_lt hp ha hx.inside hy.inside h
    rw [hx.zero, hy.zero] at hlt
    exact absurd hlt (lt_irrefl 0)
  · exact h
  · have hlt := sum_lt hp ha hy.inside hx.inside h
    rw [hx.zero, hy.zero] at hlt
    exact absurd hlt (lt_irrefl 0)

/-- Close to the pole of the largest coefficient the sum is positive. -/
theorem exists_pos (hp : ∀ i, 0 < p i) (ha : ∃ i, 0 < a i) :
    ∃ x ≤ 0, Inside a x ∧ 0 < sum a p x := by
  classical
  obtain ⟨k, hk⟩ := ha
  have hne : (Finset.univ : Finset ι).Nonempty := ⟨k, Finset.mem_univ k⟩
  obtain ⟨m, -, hm⟩ := Finset.exists_max_image Finset.univ a hne
  have hw : 0 < a m := hk.trans_le (hm k (Finset.mem_univ k))
  have hc : 0 ≤ ∑ i, p i * |a i| :=
    Finset.sum_nonneg fun i _ => mul_nonneg (hp i).le (abs_nonneg _)
  -- the distance from the pole
  obtain ⟨d, hd, hdw, hdp⟩ : ∃ d, 0 < d ∧ d ≤ 1 / a m ∧ d ≤ p m / (∑ i, p i * |a i| + 1) :=
    ⟨min (1 / a m) (p m / (∑ i, p i * |a i| + 1)),
      lt_min (one_div_pos.mpr hw) (div_pos (hp m) (by linarith)), min_le_left _ _, min_le_right _ _⟩
  have hx : -(1 / a m) + d ≤ 0 := by linarith
  have hinside : Inside a (-(1 / a m) + d) := by
    intro i
    rcases le_or_gt (a i) 0 with h | h
    · have hmul : 0 ≤ (-(1 / a m) + d) * a i := mul_nonneg_of_nonpos_of_nonpos hx h
      linarith
    · have hle : a i / a m ≤ 1 := (div_le_one hw).mpr (hm i (Finset.mem_univ i))
      have hmul : 0 < d * a i := mul_pos hd h
      have heq : 1 + (-(1 / a m) + d) * a i = 1 - a i / a m + d * a i := by ring
      rw [heq]
      linarith
  refine ⟨-(1 / a m) + d, hx, hinside, ?_⟩
  have hmax : 1 + (-(1 / a m) + d) * a m = d * a m := by
    field_simp
    ring
  have hlarge : ∑ i, p i * |a i| < p m * a m / (1 + (-(1 / a m) + d) * a m) := by
    rw [hmax, mul_div_mul_right _ _ hw.ne', lt_div_iff₀ hd]
    rw [le_div_iff₀ (by linarith)] at hdp
    nlinarith
  have hrest : ∀ i, -(p i * |a i|) ≤ p i * a i / (1 + (-(1 / a m) + d) * a i) := by
    intro i
    have hpos := hinside i
    rcases le_or_gt (a i) 0 with h | h
    · have hone : 1 ≤ 1 + (-(1 / a m) + d) * a i := by
        have hmul : 0 ≤ (-(1 / a m) + d) * a i := mul_nonneg_of_nonpos_of_nonpos hx h
        linarith
      have hneg : p i * a i ≤ 0 := mul_nonpos_of_nonneg_of_nonpos (hp i).le h
      rw [abs_of_nonpos h, le_div_iff₀ hpos]
      nlinarith
    · have hle : 0 ≤ p i * a i / (1 + (-(1 / a m) + d) * a i) :=
        div_nonneg (mul_nonneg (hp i).le h.le) hpos.le
      have habs : 0 ≤ p i * |a i| := mul_nonneg (hp i).le (abs_nonneg _)
      linarith
  have hsplit : sum a p (-(1 / a m) + d) = p m * a m / (1 + (-(1 / a m) + d) * a m) +
      ∑ i ∈ Finset.univ.erase m, p i * a i / (1 + (-(1 / a m) + d) * a i) :=
    (Finset.add_sum_erase _ _ (Finset.mem_univ m)).symm
  have hbelow : -∑ i, p i * |a i| ≤
      ∑ i ∈ Finset.univ.erase m, p i * a i / (1 + (-(1 / a m) + d) * a i) := by
    rw [← Finset.sum_neg_distrib]
    have hdrop : ∑ i, -(p i * |a i|) ≤ ∑ i ∈ Finset.univ.erase m, -(p i * |a i|) := by
      rw [← Finset.add_sum_erase _ _ (Finset.mem_univ m)]
      have hm0 : 0 ≤ p m * |a m| := mul_nonneg (hp m).le (abs_nonneg _)
      linarith
    exact hdrop.trans (Finset.sum_le_sum fun i _ => hrest i)
  rw [hsplit]
  linarith

theorem exists_root (hp : ∀ i, 0 < p i) (hpos : ∃ i, 0 < a i) (hneg : ∃ i, a i < 0) :
    ∃ x, Root a p x := by
  obtain ⟨x, hx, hxin, hxs⟩ := exists_pos hp hpos
  have hneg' : ∃ i, 0 < -a i := hneg.imp fun i h => neg_pos.mpr h
  obtain ⟨y, hy, hyin, hys⟩ := exists_pos hp hneg'
  have hyin' : Inside a (-y) := by
    rw [← inside_neg, neg_neg]
    exact hyin
  have hys' : sum a p (-y) < 0 := by
    have h := sum_neg a p (-y)
    rw [neg_neg] at h
    linarith
  have hcont : ContinuousOn (sum a p) (Set.Icc x (-y)) := by
    refine continuousOn_finsetSum _ fun i _ => ContinuousOn.div continuousOn_const ?_ ?_
    · exact (continuous_const.add (continuous_id.mul continuous_const)).continuousOn
    · exact fun z hz => ((hxin.between hyin' hz.1 hz.2) i).ne'
  have hle : x ≤ -y := by linarith
  obtain ⟨z, hz, hzero⟩ := intermediate_value_Icc' hle hcont ⟨hys'.le, hxs.le⟩
  exact ⟨z, hxin.between hyin' hz.1 hz.2, hzero⟩

/-- The mirrored equation has the mirrored root. -/
theorem Root.mirror {x : ℝ} (σ : ι ≃ ι) (h : Root a p x) :
    Root (fun i => -a (σ i)) (fun i => p (σ i)) (-x) := by
  refine ⟨fun i => ?_, ?_⟩
  · have hi := h.inside (σ i)
    rwa [neg_mul_neg]
  · have hsum : sum (fun i => -a (σ i)) (fun i => p (σ i)) (-x) = -sum a p x := by
      rw [sum_neg (fun i => a (σ i))]
      exact congrArg Neg.neg (Equiv.sum_comp σ fun i => p i * a i / (1 + x * a i))
    rw [hsum, h.zero, neg_zero]

end Secular
