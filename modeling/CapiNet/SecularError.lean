import CapiNet.ExactSolver
import CapiNet.Bisection
import CapiNet.Library.NearRoot

namespace CapiNet

/-- Below this share of a category the margins may cut off the root. -/
noncomputable def leastShare : ℝ := (51 / 10 ^ 11 : ℚ)

theorem leastShare_eq : leastShare = 51 / 10 ^ 11 := by norm_num [leastShare]

/-- The error allowed to the solution of an equation. -/
noncomputable def solverError : ℝ := (1 / 10 ^ 50 : ℚ)

theorem solverError_eq : solverError = 1 / 10 ^ 50 := by norm_num [solverError]

theorem solverError_pos : 0 < solverError := by
  rw [solverError_eq]
  norm_num

section Solved

variable {a h : Fin 5 → ℝ}

theorem straddles_of {i j : Fin 5} (hi : a i < 0) (hj : 0 < a j) :
    ¬0 ≤ minElement a * maxElement a := by
  rw [not_le]
  exact mul_neg_of_neg_of_pos ((minElement_le a i).trans_lt hi) (hj.trans_le (le_maxElement a j))

end Solved

/-- A solver that comes as near to the root as the bisection does. -/
def Solves (solve : (Fin 5 → ℝ) → (Fin 5 → ℝ) → Except Failure ℝ) : Prop :=
  ∀ {a h : Fin 5 → ℝ}, (∀ i, leastShare ≤ h i) → ∑ i, h i = 1 →
    ¬0 ≤ minElement a * maxElement a → ((∀ i, a i ≤ (1 / 2 : ℚ)) ∨ ∀ i, -(1 / 2 : ℚ) ≤ a i) →
    ∃ x, solve a h = .ok x ∧ Secular.Near a h x ((2 : ℚ) * solverError) ((5 : ℚ) * solverError)

theorem Solves.near {solve : (Fin 5 → ℝ) → (Fin 5 → ℝ) → Except Failure ℝ} {a h : Fin 5 → ℝ}
    (hsolve : Solves solve) (hshare : ∀ i, leastShare ≤ h i) (htotal : ∑ i, h i = 1)
    (hstraddle : ¬0 ≤ minElement a * maxElement a)
    (hhalf : (∀ i, a i ≤ 1 / 2) ∨ ∀ i, -(1 / 2) ≤ a i) :
    ∃ x, solve a h = .ok x ∧ Secular.Near a h x (2 * solverError) (5 * solverError) := by
  have hnear := hsolve hshare htotal hstraddle
  push_cast at hnear
  exact hnear hhalf

theorem exactSecular_solves : Solves exactSecular := by
  intro a h hshare htotal hstraddle _
  push_cast
  have hleast : 0 < leastShare := by
    rw [leastShare_eq]
    norm_num
  obtain ⟨x, hx, hroot, -⟩ := exactSecular_root (fun i => hleast.trans_le (hshare i)) hstraddle
  have hsum : ∑ i, Secular.weight a h x i = 1 := by
    rw [hroot.sum_weight, htotal]
  refine ⟨x, hx, hroot.inside, ?_, ?_⟩
  · rw [hsum, sub_self, abs_zero]
    linarith [solverError_pos]
  · rw [← Secular.sum_eq_weight, hroot.zero, abs_zero]
    linarith [solverError_pos]

end CapiNet
