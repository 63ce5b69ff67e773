import CapiNet.ExactSolver
import CapiNet.Bisection
import CapiNet.Library.NearRoot

namespace CapiNet

/-- The interval the solver starts from. -/
noncomputable def secularInterval (a : Fin 5 → ℝ) : Interval :=
  ⟨-1 / maxElement a + secularMargin, -1 / minElement a - secularMargin⟩

/-- The interval after `n` iterations of the solver's loop. -/
noncomputable def secularAfter (a p : Fin 5 → ℝ) (n : ℕ) : Interval :=
  (secularInterval a).after (Secular.sum a p) n

section Straddling

variable {a p : Fin 5 → ℝ}

/-- What is asked of the coefficients. -/
structure Spread (a : Fin 5 → ℝ) : Prop where
  below : minElement a < 0
  above : 0 < maxElement a
  apart : 2 / 10 ^ 9 < 1 / maxElement a - 1 / minElement a

theorem Spread.straddles (h : Spread a) : ¬0 ≤ minElement a * maxElement a :=
  not_le.mpr (mul_neg_of_neg_of_pos h.below h.above)

theorem Spread.exists_ne (h : Spread a) : ∃ i, a i ≠ 0 := by
  obtain ⟨i, hi⟩ := exists_minElement a
  exact ⟨i, by rw [hi]; exact h.below.ne⟩

theorem secularMargin_eq : (secularMargin : ℝ) = 1 / 10 ^ 9 := rfl

theorem Spread.ordered (h : Spread a) : (secularInterval a).lo ≤ (secularInterval a).hi := by
  have hapart := h.apart
  show -1 / maxElement a + secularMargin ≤ -1 / minElement a - secularMargin
  rw [secularMargin_eq, neg_div, neg_div]
  linarith

/-- The margins keep the interval away from the poles. -/
theorem Spread.inside (h : Spread a) {x : ℝ} (hlo : (secularInterval a).lo ≤ x)
    (hhi : x ≤ (secularInterval a).hi) : Secular.Inside a x := by
  have hmargin : (0 : ℝ) < secularMargin := by
    rw [secularMargin_eq]
    norm_num
  change -1 / maxElement a + secularMargin ≤ x at hlo
  change x ≤ -1 / minElement a - secularMargin at hhi
  exact (inside_iff h.straddles).mpr ⟨by linarith, by linarith⟩

theorem Spread.secular_eq (h : Spread a) (p : Fin 5 → ℝ) :
    secular a p = .ok (secularAfter a p 200).mid := by
  rw [secular, if_neg h.straddles, Interval.bisect_eq]
  rfl

theorem Spread.decreasing (h : Spread a) (hp : ∀ i, 0 < p i) :
    StrictAntiOn (Secular.sum a p) (Set.Ioo (-1 / maxElement a) (-1 / minElement a)) := by
  intro x hx y hy hxy
  exact Secular.sum_lt hp h.exists_ne ((inside_iff h.straddles).mpr hx)
    ((inside_iff h.straddles).mpr hy) hxy

theorem Spread.root_iff (h : Spread a) {r : ℝ} :
    Secular.Root a p r ↔
      r ∈ Set.Ioo (-1 / maxElement a) (-1 / minElement a) ∧ Secular.sum a p r = 0 :=
  ⟨fun hr => ⟨(inside_iff h.straddles).mp hr.inside, hr.zero⟩,
    fun hr => ⟨(inside_iff h.straddles).mpr hr.1, hr.2⟩⟩

theorem Spread.existsUnique_root (h : Spread a) (hp : ∀ i, 0 < p i) :
    ∃! r, r ∈ Set.Ioo (-1 / maxElement a) (-1 / minElement a) ∧ Secular.sum a p r = 0 := by
  obtain ⟨r, hr⟩ := exists_root hp h.straddles
  refine ⟨r, h.root_iff.mp hr, fun y hy => ?_⟩
  exact root_unique hp h.straddles (h.root_iff.mpr hy) hr

theorem Spread.brackets (h : Spread a) (hp : ∀ i, 0 < p i) {r : ℝ} (hr : Secular.Root a p r)
    (hlo : (secularInterval a).lo ≤ r) (hhi : r ≤ (secularInterval a).hi) :
    Brackets (Secular.sum a p) r (secularInterval a) :=
  ⟨hlo, hhi, fun _ hy hy' => hr.sum_pos_iff hp h.exists_ne (h.inside hy.le hy'.le)⟩

/-- Whatever the solver returns lies between the poles. -/
theorem Spread.returned_inside (h : Spread a) (p : Fin 5 → ℝ) :
    Secular.Inside a (secularAfter a p 200).mid := by
  obtain ⟨hlo, hhi⟩ := Interval.mid_after (Secular.sum a p) 200 h.ordered
  exact h.inside hlo hhi

theorem Spread.mleRound_eq {hat : PentaPdf ℝ} {ref s : ℝ} {pdf : Fin 5 → ℝ}
    (h : Spread (mleCoefficients hat.values ref s (moments hat.values pdf))) :
    mleRound hat ref s pdf = .ok fun i => hat.probs i / (1 +
      (secularAfter (mleCoefficients hat.values ref s (moments hat.values pdf)) hat.probs 200).mid *
        mleCoefficients hat.values ref s (moments hat.values pdf) i) := by
  show (do
    let x ← secular (mleCoefficients hat.values ref s (moments hat.values pdf)) hat.probs
    return fun i => hat.probs i /
      (1 + x * mleCoefficients hat.values ref s (moments hat.values pdf) i)) = _
  rw [h.secular_eq]
  rfl

end Straddling

/-- Between the poles the sum decreases and has one root. If the margins do not cut the root off,
every iteration keeps it, and the two hundred of them end next to it. In all cases the entries of
the estimate are positive; at the root they sum to what the given ones do. -/
theorem secular_finds_root (a p : Fin 5 → ℝ) (hp : ∀ i, 0 < p i) (h : Spread a) :
    StrictAntiOn (Secular.sum a p) (Set.Ioo (-1 / maxElement a) (-1 / minElement a)) ∧
    (∃! r, r ∈ Set.Ioo (-1 / maxElement a) (-1 / minElement a) ∧ Secular.sum a p r = 0) ∧
    (∀ r, r ∈ Set.Ioo (-1 / maxElement a) (-1 / minElement a) → Secular.sum a p r = 0 →
      (secularInterval a).lo ≤ r → r ≤ (secularInterval a).hi →
      (∀ n, (secularAfter a p n).lo ≤ r ∧ r ≤ (secularAfter a p n).hi) ∧
      ∃ x, secular a p = .ok x ∧
        |x - r| ≤ ((secularInterval a).hi - (secularInterval a).lo) / 2 ^ 201) ∧
    (∃ x, secular a p = .ok x ∧ ∀ i, 0 < 1 + x * a i ∧ 0 < p i / (1 + x * a i)) ∧
    (∀ hat : PentaPdf ℝ, ∀ ref s pdf, hat.probs = p →
      mleCoefficients hat.values ref s (moments hat.values pdf) = a →
      ∃ next, mleRound hat ref s pdf = .ok next ∧ ∀ i, 0 < next i) ∧
    ∀ r, r ∈ Set.Ioo (-1 / maxElement a) (-1 / minElement a) → Secular.sum a p r = 0 →
      ∑ i, p i / (1 + r * a i) = ∑ i, p i := by
  have hinside := h.returned_inside p
  refine ⟨h.decreasing hp, h.existsUnique_root hp, ?_, ?_, ?_, ?_⟩
  · intro r hr hzero hlo hhi
    have hbrackets := h.brackets hp (h.root_iff.mpr ⟨hr, hzero⟩) hlo hhi
    refine ⟨fun n => ⟨(hbrackets.after n).lo_le, (hbrackets.after n).le_hi⟩, ?_⟩
    exact ⟨_, h.secular_eq p, hbrackets.after_near 200⟩
  · exact ⟨_, h.secular_eq p, fun i => ⟨hinside i, hinside.weight_pos hp i⟩⟩
  · intro hat ref s pdf hprobs hcoefficients
    subst hprobs hcoefficients
    exact ⟨_, h.mleRound_eq, fun i => hinside.weight_pos hp i⟩
  · intro r hr hzero
    exact (h.root_iff.mpr ⟨hr, hzero⟩).sum_weight

/-- The scores less a half. -/
theorem scores_spread : Spread fun i : Fin 5 => (i.val : ℝ) / 4 - 1 / 2 := by
  have hbelow : minElement (fun i : Fin 5 => (i.val : ℝ) / 4 - 1 / 2) < 0 := by
    have hle := minElement_le (fun i : Fin 5 => (i.val : ℝ) / 4 - 1 / 2) 0
    norm_num at hle ⊢
    linarith
  have habove : 0 < maxElement (fun i : Fin 5 => (i.val : ℝ) / 4 - 1 / 2) := by
    have hle := le_maxElement (fun i : Fin 5 => (i.val : ℝ) / 4 - 1 / 2) 4
    norm_num at hle ⊢
    linarith
  refine ⟨hbelow, habove, ?_⟩
  obtain ⟨i, hi⟩ := exists_minElement fun i : Fin 5 => (i.val : ℝ) / 4 - 1 / 2
  have hnonneg : (0 : ℝ) ≤ (i.val : ℝ) / 4 := div_nonneg (Nat.cast_nonneg _) (by norm_num)
  have hpole : 2 ≤ 1 / -minElement (fun i : Fin 5 => (i.val : ℝ) / 4 - 1 / 2) := by
    rw [le_div_iff₀ (neg_pos.mpr hbelow)]
    linarith
  have hother : 0 < 1 / maxElement (fun i : Fin 5 => (i.val : ℝ) / 4 - 1 / 2) :=
    one_div_pos.mpr habove
  have hsmall : (2 : ℝ) / 10 ^ 9 < 2 := by norm_num
  rw [div_neg] at hpole
  linarith

theorem secular_finds_root_uniform :
    ∃ x, secular (fun i : Fin 5 => (i.val : ℝ) / 4 - 1 / 2) (fun _ => 1 / 5) = .ok x ∧
      ∀ i : Fin 5, 0 < 1 + x * ((i.val : ℝ) / 4 - 1 / 2) ∧
        0 < 1 / 5 / (1 + x * ((i.val : ℝ) / 4 - 1 / 2)) :=
  (secular_finds_root _ _ (fun _ => by norm_num) scores_spread).2.2.2.1

end CapiNet
