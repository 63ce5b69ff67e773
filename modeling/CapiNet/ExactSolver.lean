import CapiNet.Library.NearRoot
import CapiNet.Statistics

namespace CapiNet

/-- The root of the secular equation between the poles. -/
noncomputable def exactSecular (a p : Fin 5 → ℝ) : Except Failure ℝ :=
  if 0 ≤ minElement a * maxElement a then
    .error (.domainError "secular equation requires support straddling zero")
  else .ok (Classical.epsilon (Secular.Root a p))

theorem minElement_le (a : Fin 5 → ℝ) (i : Fin 5) : minElement a ≤ a i :=
  Finset.inf'_le a (Finset.mem_univ i)

theorem le_maxElement (a : Fin 5 → ℝ) (i : Fin 5) : a i ≤ maxElement a :=
  Finset.le_sup' a (Finset.mem_univ i)

theorem exists_minElement (a : Fin 5 → ℝ) : ∃ i, a i = minElement a := by
  obtain ⟨i, -, hi⟩ := Finset.exists_mem_eq_inf' ⟨0, Finset.mem_univ 0⟩ a
  exact ⟨i, hi.symm⟩

theorem exists_maxElement (a : Fin 5 → ℝ) : ∃ i, a i = maxElement a := by
  obtain ⟨i, -, hi⟩ := Finset.exists_mem_eq_sup' ⟨0, Finset.mem_univ 0⟩ a
  exact ⟨i, hi.symm⟩

/-- The coefficients straddle zero exactly if the smallest and the largest do. -/
theorem straddles {a : Fin 5 → ℝ} (h : ¬0 ≤ minElement a * maxElement a) :
    minElement a < 0 ∧ 0 < maxElement a := by
  have hle : minElement a ≤ maxElement a := (minElement_le a 0).trans (le_maxElement a 0)
  constructor
  · by_contra hv
    exact h (mul_nonneg (not_lt.mp hv) ((not_lt.mp hv).trans hle))
  · by_contra hw
    exact h (mul_nonneg_of_nonpos_of_nonpos (hle.trans (not_lt.mp hw)) (not_lt.mp hw))

/-- Between the poles means in the interval the program bisects, but for its margins. -/
theorem inside_iff {a : Fin 5 → ℝ} {x : ℝ} (h : ¬0 ≤ minElement a * maxElement a) :
    Secular.Inside a x ↔ -1 / maxElement a < x ∧ x < -1 / minElement a := by
  obtain ⟨hv, hw⟩ := straddles h
  constructor
  · intro hx
    obtain ⟨i, hi⟩ := exists_minElement a
    obtain ⟨j, hj⟩ := exists_maxElement a
    have hxi := hx i
    have hxj := hx j
    rw [hi] at hxi
    rw [hj] at hxj
    refine ⟨?_, ?_⟩
    · rw [div_lt_iff₀ hw]; linarith
    · rw [lt_div_iff_of_neg hv]; linarith
  · rintro ⟨hlo, hhi⟩ i
    rw [div_lt_iff₀ hw] at hlo
    rw [lt_div_iff_of_neg hv] at hhi
    rcases le_total 0 x with hx | hx
    · have hmul : x * minElement a ≤ x * a i := mul_le_mul_of_nonneg_left (minElement_le a i) hx
      linarith
    · have hmul : x * maxElement a ≤ x * a i := mul_le_mul_of_nonpos_left (le_maxElement a i) hx
      linarith

theorem exists_root {a p : Fin 5 → ℝ} (hp : ∀ i, 0 < p i)
    (h : ¬0 ≤ minElement a * maxElement a) : ∃ x, Secular.Root a p x := by
  obtain ⟨hv, hw⟩ := straddles h
  obtain ⟨i, hi⟩ := exists_minElement a
  obtain ⟨j, hj⟩ := exists_maxElement a
  exact Secular.exists_root hp ⟨j, hj ▸ hw⟩ ⟨i, hi ▸ hv⟩

theorem root_unique {a p : Fin 5 → ℝ} (hp : ∀ i, 0 < p i)
    (h : ¬0 ≤ minElement a * maxElement a) {x y : ℝ} (hx : Secular.Root a p x)
    (hy : Secular.Root a p y) : x = y := by
  obtain ⟨i, hi⟩ := exists_minElement a
  exact hx.unique hp ⟨i, by rw [hi]; exact (straddles h).1.ne⟩ hy

/-- The exact solver raises as the program's does, and otherwise gives the unique root. -/
theorem exactSecular_root {a p : Fin 5 → ℝ} (hp : ∀ i, 0 < p i)
    (h : ¬0 ≤ minElement a * maxElement a) :
    ∃ x, exactSecular a p = .ok x ∧ Secular.Root a p x ∧ ∀ y, Secular.Root a p y → y = x := by
  have hroot : Secular.Root a p (Classical.epsilon (Secular.Root a p)) :=
    Classical.epsilon_spec (exists_root hp h)
  exact ⟨_, if_neg h, hroot, fun y hy => root_unique hp h hy hroot⟩

def mirror {α : Type} (f : Fin 5 → α) : Fin 5 → α := fun i => f i.rev

@[simp] theorem mirror_mirror {α : Type} (f : Fin 5 → α) : mirror (mirror f) = f := by
  funext i
  simp [mirror]

theorem sum_mirror (f : Fin 5 → ℝ) : ∑ i, mirror f i = ∑ i, f i := Equiv.sum_comp Fin.revPerm f

/-- The same games seen by the other engine. -/
def Pentanomial.mirror (p : Pentanomial) : Pentanomial := ⟨CapiNet.mirror p.counts⟩

theorem Pentanomial.pairs_mirror (p : Pentanomial) : p.mirror.pairs = p.pairs :=
  Equiv.sum_comp Fin.revPerm p.counts

def PentaPdf.mirror (hat : PentaPdf ℝ) : PentaPdf ℝ := { hat with probs := CapiNet.mirror hat.probs }

/-- What holds of the distribution of a result. -/
structure PentaPdf.Proper (hat : PentaPdf ℝ) : Prop where
  positive : ∀ i, 0 < hat.probs i
  total : ∑ i, hat.probs i = 1
  values : ∀ i : Fin 5, hat.values i.rev = 1 - hat.values i

theorem regularize_pos (n : ℕ) : (0 : ℝ) < regularize n := by
  unfold regularize
  split
  next => positivity
  next h => exact_mod_cast Nat.pos_of_ne_zero h

theorem toPdf_proper (p : Pentanomial) : (toPdf p : PentaPdf ℝ).Proper := by
  have hcount : (0 : ℝ) < ∑ i, regularize (p.counts i) :=
    Finset.sum_pos (fun i _ => regularize_pos _) ⟨0, Finset.mem_univ 0⟩
  refine ⟨fun i => div_pos (regularize_pos _) hcount, ?_, fun i => ?_⟩
  · simp only [toPdf]
    rw [← Finset.sum_div, div_self hcount.ne']
  · have hrev : ((i.rev.val : ℕ) : ℝ) = 4 - (i.val : ℝ) := by
      rw [Fin.val_rev, Nat.cast_sub (by omega)]
      push_cast
      ring
    simp only [toPdf, hrev]
    ring

theorem toPdf_mirror (p : Pentanomial) : (toPdf p.mirror : PentaPdf ℝ) = (toPdf p).mirror := by
  have hcount : ∑ i, (regularize (p.mirror.counts i) : ℝ) = ∑ i, regularize (p.counts i) :=
    sum_mirror fun i => regularize (p.counts i)
  simp only [toPdf, PentaPdf.mirror, hcount]
  rfl

theorem moments_mirror {hat : PentaPdf ℝ} {pdf : Fin 5 → ℝ} (h : hat.Proper)
    (hpdf : ∑ i, pdf i = 1) :
    moments hat.values (mirror pdf) =
      ⟨1 - (moments hat.values pdf).mean, (moments hat.values pdf).var⟩ := by
  have hmean : ∑ i, mirror pdf i * hat.values i = 1 - ∑ i, pdf i * hat.values i := by
    have hrev : ∑ i, mirror pdf i * hat.values i = ∑ i, pdf i * hat.values i.rev := by
      rw [← sum_mirror fun i => pdf i * hat.values i.rev]
      exact Finset.sum_congr rfl fun i _ => by simp [mirror]
    have hterm : ∀ i, pdf i * hat.values i.rev = pdf i - pdf i * hat.values i := by
      intro i
      rw [h.values]
      ring
    rw [hrev, Finset.sum_congr rfl fun i _ => hterm i, Finset.sum_sub_distrib, hpdf]
  have hvar : ∑ i, mirror pdf i * (hat.values i - (1 - ∑ i, pdf i * hat.values i)) *
      (hat.values i - (1 - ∑ i, pdf i * hat.values i)) =
      ∑ i, pdf i * (hat.values i - ∑ i, pdf i * hat.values i) *
        (hat.values i - ∑ i, pdf i * hat.values i) := by
    rw [← sum_mirror fun i => pdf i * (hat.values i - ∑ i, pdf i * hat.values i) *
      (hat.values i - ∑ i, pdf i * hat.values i)]
    refine Finset.sum_congr rfl fun i _ => ?_
    simp only [mirror, h.values]
    ring
  simp only [moments, hmean, hvar]

end CapiNet
