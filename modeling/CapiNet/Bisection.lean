import CapiNet.Statistics

namespace CapiNet

structure Interval where
  lo : ℝ
  hi : ℝ

namespace Interval

noncomputable def mid (I : Interval) : ℝ := (1 / 2 : ℚ) * (I.lo + I.hi)

theorem mid_eq (I : Interval) : I.mid = (I.lo + I.hi) / 2 := by
  unfold mid
  push_cast
  ring

def width (I : Interval) : ℝ := I.hi - I.lo

noncomputable def halve (f : ℝ → ℝ) (I : Interval) : Interval :=
  if I.mid ≤ I.lo ∨ I.hi ≤ I.mid then I
  else if 0 < f I.mid then ⟨I.mid, I.hi⟩ else ⟨I.lo, I.mid⟩

/-- The interval after `n` iterations. -/
noncomputable def after (f : ℝ → ℝ) : ℕ → Interval → Interval
  | 0, I => I
  | n + 1, I => after f n (I.halve f)

theorem after_stopped {f : ℝ → ℝ} {I : Interval} (h : I.halve f = I) (n : ℕ) :
    I.after f n = I := by
  induction n with
  | zero => rfl
  | succ n ih => rw [after, h, ih]

/-- The program returns the middle of the last interval. -/
theorem bisect_eq (f : ℝ → ℝ) (n : ℕ) (lo hi : ℝ) :
    bisect f n lo hi = (after f n ⟨lo, hi⟩).mid := by
  induction n generalizing lo hi with
  | zero => rw [bisect, after, mid_eq]
  | succ n ih =>
    have hmid : mid ⟨lo, hi⟩ = (lo + hi) / 2 := mid_eq _
    rw [bisect, after, halve, hmid]
    by_cases hstop : (lo + hi) / 2 ≤ lo ∨ hi ≤ (lo + hi) / 2
    · have hsame : halve f ⟨lo, hi⟩ = ⟨lo, hi⟩ := by
        rw [halve, hmid]
        exact if_pos hstop
      rw [if_pos hstop, if_pos hstop, after_stopped hsame, hmid]
    · rw [if_neg hstop, if_neg hstop]
      by_cases hpos : 0 < f ((lo + hi) / 2)
      · rw [if_pos hpos, if_pos hpos, ih]
      · rw [if_neg hpos, if_neg hpos, ih]

/-- The three cases of an iteration over the reals: the loop only ends at a single point. -/
theorem halve_cases (f : ℝ → ℝ) {I : Interval} (h : I.lo ≤ I.hi) :
    (I.lo = I.hi ∧ I.halve f = I) ∨
    (I.lo < I.mid ∧ I.mid < I.hi ∧ 0 < f I.mid ∧ I.halve f = ⟨I.mid, I.hi⟩) ∨
    (I.lo < I.mid ∧ I.mid < I.hi ∧ ¬0 < f I.mid ∧ I.halve f = ⟨I.lo, I.mid⟩) := by
  unfold halve
  by_cases hstop : I.mid ≤ I.lo ∨ I.hi ≤ I.mid
  · refine .inl ⟨?_, if_pos hstop⟩
    rw [mid_eq] at hstop
    rcases hstop with hlo | hhi
    · linarith
    · linarith
  · rw [if_neg hstop]
    obtain ⟨hlo, hhi⟩ := not_or.mp hstop
    rw [not_le] at hlo hhi
    by_cases hpos : 0 < f I.mid
    · exact .inr (.inl ⟨hlo, hhi, hpos, if_pos hpos⟩)
    · exact .inr (.inr ⟨hlo, hhi, hpos, if_neg hpos⟩)

theorem width_halve (f : ℝ → ℝ) {I : Interval} (h : I.lo ≤ I.hi) :
    (I.halve f).width = I.width / 2 := by
  rcases halve_cases f h with ⟨heq, hsame⟩ | ⟨-, -, -, hmove⟩ | ⟨-, -, -, hmove⟩
  · rw [hsame, width, heq]
    ring
  · rw [hmove, width, width, mid_eq]
    ring
  · rw [hmove, width, width, mid_eq]
    ring

theorem halve_nested (f : ℝ → ℝ) {I : Interval} (h : I.lo ≤ I.hi) :
    I.lo ≤ (I.halve f).lo ∧ (I.halve f).lo ≤ (I.halve f).hi ∧ (I.halve f).hi ≤ I.hi := by
  rcases halve_cases f h with ⟨-, hsame⟩ | ⟨hlo, hhi, -, hmove⟩ | ⟨hlo, hhi, -, hmove⟩
  · rw [hsame]
    exact ⟨le_refl _, h, le_refl _⟩
  · rw [hmove]
    exact ⟨hlo.le, hhi.le, le_refl _⟩
  · rw [hmove]
    exact ⟨le_refl _, hlo.le, hhi.le⟩

theorem after_nested (f : ℝ → ℝ) (n : ℕ) {I : Interval} (h : I.lo ≤ I.hi) :
    I.lo ≤ (I.after f n).lo ∧ (I.after f n).lo ≤ (I.after f n).hi ∧ (I.after f n).hi ≤ I.hi := by
  induction n generalizing I with
  | zero => exact ⟨le_refl _, h, le_refl _⟩
  | succ n ih =>
    obtain ⟨hlo, hle, hhi⟩ := halve_nested f h
    obtain ⟨hlo', hle', hhi'⟩ := ih hle
    exact ⟨hlo.trans hlo', hle', hhi'.trans hhi⟩

theorem width_after (f : ℝ → ℝ) (n : ℕ) {I : Interval} (h : I.lo ≤ I.hi) :
    (I.after f n).width = I.width / 2 ^ n := by
  induction n generalizing I with
  | zero => rw [after, pow_zero, div_one]
  | succ n ih => rw [after, ih (halve_nested f h).2.1, width_halve f h, div_div, ← pow_succ']

/-- The middle of the last interval lies in the first. -/
theorem mid_after (f : ℝ → ℝ) (n : ℕ) {I : Interval} (h : I.lo ≤ I.hi) :
    I.lo ≤ (I.after f n).mid ∧ (I.after f n).mid ≤ I.hi := by
  obtain ⟨hlo, hle, hhi⟩ := after_nested f n h
  rw [mid_eq]
  constructor
  · linarith
  · linarith

end Interval

/-- The point where `f` ceases to be positive is in the interval. -/
structure Brackets (f : ℝ → ℝ) (r : ℝ) (I : Interval) : Prop where
  lo_le : I.lo ≤ r
  le_hi : r ≤ I.hi
  sign : ∀ y, I.lo < y → y < I.hi → (0 < f y ↔ y < r)

section Bracketed

variable {f : ℝ → ℝ} {r : ℝ} {I : Interval}

theorem Brackets.halve (h : Brackets f r I) : Brackets f r (I.halve f) := by
  rcases Interval.halve_cases f (h.lo_le.trans h.le_hi) with
    ⟨-, hsame⟩ | ⟨hlo, hhi, hpos, hmove⟩ | ⟨hlo, hhi, hpos, hmove⟩
  · rw [hsame]
    exact h
  · rw [hmove]
    have hmid := (h.sign _ hlo hhi).mp hpos
    exact ⟨hmid.le, h.le_hi, fun y hy => h.sign y (hlo.trans hy)⟩
  · rw [hmove]
    have hmid : ¬I.mid < r := fun hlt => hpos ((h.sign _ hlo hhi).mpr hlt)
    exact ⟨h.lo_le, not_lt.mp hmid, fun y hy hy' => h.sign y hy (hy'.trans hhi)⟩

theorem Brackets.after (h : Brackets f r I) (n : ℕ) : Brackets f r (I.after f n) := by
  induction n generalizing I with
  | zero => exact h
  | succ n ih => exact ih h.halve

theorem Brackets.mid_near (h : Brackets f r I) : |I.mid - r| ≤ I.width / 2 := by
  have hlo := h.lo_le
  have hhi := h.le_hi
  rw [Interval.mid_eq, Interval.width]
  rw [abs_le]
  constructor
  · linarith
  · linarith

theorem Brackets.after_near (h : Brackets f r I) (n : ℕ) :
    |(I.after f n).mid - r| ≤ I.width / 2 ^ (n + 1) := by
  have hnear := (h.after n).mid_near
  rwa [Interval.width_after f n (h.lo_le.trans h.le_hi), div_div, ← pow_succ] at hnear

end Bracketed

end CapiNet
