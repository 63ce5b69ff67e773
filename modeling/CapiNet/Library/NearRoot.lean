import CapiNet.Library.Secular

namespace Secular

variable {ι : Type} [Fintype ι] {a p : ι → ℝ} {r x : ℝ}

noncomputable def weight (a p : ι → ℝ) (x : ℝ) (i : ι) : ℝ := p i / (1 + x * a i)

theorem sum_eq_weight (a p : ι → ℝ) (x : ℝ) : sum a p x = ∑ i, weight a p x i * a i :=
  Finset.sum_congr rfl fun _ _ => (div_mul_eq_mul_div _ _ _).symm

omit [Fintype ι] in
theorem Inside.weight_pos (h : Inside a x) (hp : ∀ i, 0 < p i) (i : ι) : 0 < weight a p x i :=
  div_pos (hp i) (h i)

omit [Fintype ι] in
theorem Inside.weight_mul (h : Inside a x) (i : ι) : weight a p x i * (1 + x * a i) = p i :=
  div_mul_cancel₀ _ (h i).ne'

theorem Root.sum_weight (h : Root a p r) : ∑ i, weight a p r i = ∑ i, p i := by
  have hterm : ∀ i, weight a p r i = p i - r * (weight a p r i * a i) := by
    intro i
    have hmul := h.inside.weight_mul (p := p) i
    linarith
  have hzero : ∑ i, weight a p r i * a i = 0 := by
    rw [← sum_eq_weight]
    exact h.zero
  rw [Finset.sum_congr rfl fun i _ => hterm i, Finset.sum_sub_distrib, ← Finset.mul_sum, hzero,
    mul_zero, sub_zero]

theorem Root.sum_pos_iff {y : ℝ} (h : Root a p r) (hp : ∀ i, 0 < p i) (ha : ∃ i, a i ≠ 0)
    (hy : Inside a y) : 0 < sum a p y ↔ y < r := by
  constructor
  · intro hpos
    by_contra hge
    rcases (not_lt.mp hge).lt_or_eq with hlt | heq
    · have hdec := sum_lt hp ha h.inside hy hlt
      rw [h.zero] at hdec
      exact absurd (hpos.trans hdec) (lt_irrefl 0)
    · rw [← heq, h.zero] at hpos
      exact absurd hpos (lt_irrefl 0)
  · intro hlt
    have hdec := sum_lt hp ha hy h.inside hlt
    rwa [h.zero] at hdec

/-- The weights at `x` sum to one and balance, but for the given errors. -/
structure Near (a p : ι → ℝ) (x total balance : ℝ) : Prop where
  inside : Inside a x
  sum_weight : |∑ i, weight a p x i - 1| ≤ total
  moment : |∑ i, weight a p x i * a i| ≤ balance

section Perturbed

variable {e : ℝ}

omit [Fintype ι] in
/-- Moving away from a point by a small part of the distances to the poles. -/
theorem Inside.near (h : Inside a r) (hp : ∀ i, 0 < p i) (he : e ≤ 1 / 2)
    (hx : ∀ i, |x - r| * (weight a p r i * |a i|) ≤ e * p i) :
    Inside a x ∧ ∀ i, |weight a p x i - weight a p r i| ≤ 2 * e * weight a p r i := by
  have hmove : ∀ i, |(x - r) * a i| ≤ e * (1 + r * a i) := by
    intro i
    have hw := h.weight_pos hp i
    have hmul := h.weight_mul (p := p) i
    rw [abs_mul]
    refine le_of_mul_le_mul_left ?_ hw
    have hi := hx i
    rw [← hmul] at hi
    linarith
  have hsplit : ∀ i, 1 + x * a i = 1 + r * a i + (x - r) * a i := fun i => by ring
  have hinside : Inside a x := by
    intro i
    have hpos := h i
    have hle := (abs_le.mp (hmove i)).1
    rw [hsplit i]
    nlinarith
  refine ⟨hinside, fun i => ?_⟩
  have hpos := h i
  have hw := h.weight_pos hp i
  have hx' := hinside i
  have hhalf : 1 + r * a i ≤ 2 * (1 + x * a i) := by
    have hle := (abs_le.mp (hmove i)).1
    rw [hsplit i]
    nlinarith
  have hdiff : weight a p x i - weight a p r i =
      -(weight a p r i * ((x - r) * a i)) / (1 + x * a i) := by
    have hr := h.weight_mul (p := p) i
    have hx := hinside.weight_mul (p := p) i
    rw [eq_div_iff hx'.ne', sub_mul, hx, ← hr]
    ring
  rw [hdiff, abs_div, abs_neg, abs_mul, abs_of_pos hw, abs_of_pos hx', div_le_iff₀ hx']
  have he0 : 0 ≤ e := by
    by_contra hneg
    have habs := abs_nonneg ((x - r) * a i)
    have hle := hmove i
    nlinarith [not_le.mp hneg]
  calc weight a p r i * |(x - r) * a i| ≤ weight a p r i * (e * (1 + r * a i)) :=
        mul_le_mul_of_nonneg_left (hmove i) hw.le
    _ ≤ weight a p r i * (e * (2 * (1 + x * a i))) :=
        mul_le_mul_of_nonneg_left (mul_le_mul_of_nonneg_left hhalf he0) hw.le
    _ = 2 * e * weight a p r i * (1 + x * a i) := by ring

theorem Root.near {b : ℝ} (h : Root a p r) (hp : ∀ i, 0 < p i) (htotal : ∑ i, p i = 1)
    (he : e ≤ 1 / 2) (hb : ∀ i, weight a p r i * |a i| ≤ b)
    (hx : ∀ i, |x - r| * (weight a p r i * |a i|) ≤ e * p i) :
    Near a p x (2 * e) (2 * e * (Fintype.card ι * b)) := by
  obtain ⟨hinside, hclose⟩ := h.inside.near hp he hx
  have hpos : ∀ i, 0 < weight a p r i := fun i => h.inside.weight_pos hp i
  refine ⟨hinside, ?_, ?_⟩
  · have hsub : ∑ i, weight a p x i - 1 = ∑ i, (weight a p x i - weight a p r i) := by
      rw [Finset.sum_sub_distrib, h.sum_weight, htotal]
    rw [hsub]
    calc |∑ i, (weight a p x i - weight a p r i)|
        ≤ ∑ i, |weight a p x i - weight a p r i| := Finset.abs_sum_le_sum_abs _ _
      _ ≤ ∑ i, 2 * e * weight a p r i := Finset.sum_le_sum fun i _ => hclose i
      _ = 2 * e := by rw [← Finset.mul_sum, h.sum_weight, htotal, mul_one]
  · have hzero : ∑ i, weight a p r i * a i = 0 := by
      rw [← sum_eq_weight]
      exact h.zero
    have hsub : ∑ i, weight a p x i * a i =
        ∑ i, (weight a p x i - weight a p r i) * a i := by
      simp only [sub_mul, Finset.sum_sub_distrib, hzero, sub_zero]
    have hterm : ∀ i, |(weight a p x i - weight a p r i) * a i| ≤
        2 * e * (weight a p r i * |a i|) := by
      intro i
      rw [abs_mul, ← mul_assoc]
      exact mul_le_mul_of_nonneg_right (hclose i) (abs_nonneg _)
    have he0 : 0 ≤ e ∨ IsEmpty ι := by
      rcases isEmpty_or_nonempty ι with hempty | ⟨⟨i⟩⟩
      · exact .inr hempty
      · left
        have hle := (abs_nonneg _).trans (hclose i)
        have hw := hpos i
        by_contra hneg
        nlinarith [not_le.mp hneg]
    rw [hsub]
    calc |∑ i, (weight a p x i - weight a p r i) * a i|
        ≤ ∑ i, |(weight a p x i - weight a p r i) * a i| := Finset.abs_sum_le_sum_abs _ _
      _ ≤ ∑ i, 2 * e * (weight a p r i * |a i|) := Finset.sum_le_sum fun i _ => hterm i
      _ = 2 * e * ∑ i, weight a p r i * |a i| := (Finset.mul_sum _ _ _).symm
      _ ≤ 2 * e * (Fintype.card ι * b) := by
        rcases he0 with he0 | hempty
        · refine mul_le_mul_of_nonneg_left ?_ (by linarith)
          have hcard := Finset.sum_le_card_nsmul Finset.univ _ b fun i _ => hb i
          rwa [nsmul_eq_mul, Finset.card_univ] at hcard
        · simp

end Perturbed

omit [Fintype ι] in
/-- The mirrored equation has the mirrored weights. -/
theorem weight_mirror (σ : ι ≃ ι) (a p : ι → ℝ) (x : ℝ) (i : ι) :
    weight (fun i => -a (σ i)) (fun i => p (σ i)) (-x) i = weight a p x (σ i) := by
  simp only [weight, neg_mul_neg]

theorem Near.mirror {t b : ℝ} (σ : ι ≃ ι) (h : Near a p x t b) :
    Near (fun i => -a (σ i)) (fun i => p (σ i)) (-x) t b := by
  refine ⟨fun i => ?_, ?_, ?_⟩
  · have hi := h.inside (σ i)
    rwa [neg_mul_neg]
  · simp only [weight_mirror]
    rw [Equiv.sum_comp σ (weight a p x)]
    exact h.sum_weight
  · simp only [weight_mirror, mul_neg, Finset.sum_neg_distrib, abs_neg]
    rw [Equiv.sum_comp σ fun i => weight a p x i * a i]
    exact h.moment

end Secular
