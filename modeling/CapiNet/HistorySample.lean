import CapiNet.Schema
import Mathlib.Data.Rat.Floor
import Mathlib.Algebra.Order.Floor.Semiring
import Mathlib.Tactic.Linarith
import Mathlib.Tactic.FieldSimp
import Mathlib.Tactic.Ring

namespace CapiNet

structure HistoryPoint (F : Type) where
  pairs : ℕ
  llr : Option F
  elo : Option F

section Sample

variable {α : Type}

def sampleStep (n maxPoints : ℕ) : ℚ := ((n - 1 : ℕ) : ℚ) / ((maxPoints - 1 : ℕ) : ℚ)

def sampleIndex (n maxPoints i : ℕ) : ℕ := ⌊(i : ℚ) * sampleStep n maxPoints + 1 / 2⌋₊

/-- The first `k` points; there is no value if one is read past the end. -/
def samplePoints (all : List α) (maxPoints : ℕ) : ℕ → Option (List α)
  | 0 => some []
  | k + 1 => do
    let out ← samplePoints all maxPoints k
    let point ← all[sampleIndex all.length maxPoints k]?
    return out ++ [point]

def downsample (all : List α) (maxPoints : ℕ) : Option (List α) :=
  if all.length ≤ maxPoints ∨ maxPoints < 2 then some all
  else do
    let out ← samplePoints all maxPoints maxPoints
    let last ← all.getLast?
    return out.set (out.length - 1) last

end Sample

variable {F : Type}

/-- The rows of a test in the order of their ids. -/
def Db.historyPoints (db : Db F) (testId : Int) : List (HistoryPoint F) :=
  (db.history.filter (·.testId == testId)).map fun row => ⟨row.pairsValid, row.llr, row.elo⟩

def statsHistory (db : Db F) (testId : Int) (maxPoints : ℕ) : Option (List (HistoryPoint F)) :=
  downsample (db.historyPoints testId) maxPoints

section Positions

variable {n m i j : ℕ}

theorem sampleStep_nonneg (n m : ℕ) : 0 ≤ sampleStep n m :=
  div_nonneg (Nat.cast_nonneg _) (Nat.cast_nonneg _)

theorem sampleIndex_le (n m i : ℕ) :
    (sampleIndex n m i : ℚ) ≤ (i : ℚ) * sampleStep n m + 1 / 2 := by
  apply Nat.floor_le
  have hmul : 0 ≤ (i : ℚ) * sampleStep n m := mul_nonneg (Nat.cast_nonneg i) (sampleStep_nonneg n m)
  linarith

theorem lt_sampleIndex (n m i : ℕ) :
    (i : ℚ) * sampleStep n m - 1 / 2 < (sampleIndex n m i : ℚ) := by
  have hlt := Nat.lt_floor_add_one ((i : ℚ) * sampleStep n m + 1 / 2)
  unfold sampleIndex
  linarith

theorem sampleIndex_near (n m i : ℕ) :
    |(sampleIndex n m i : ℚ) - (i : ℚ) * sampleStep n m| ≤ 1 / 2 := by
  have hle := sampleIndex_le n m i
  have hlt := lt_sampleIndex n m i
  rw [abs_le]
  constructor
  · linarith
  · linarith

@[simp] theorem sampleIndex_zero (n m : ℕ) : sampleIndex n m 0 = 0 := by
  have hle := sampleIndex_le n m 0
  rw [Nat.cast_zero, zero_mul, zero_add] at hle
  have hlt : ((sampleIndex n m 0 : ℕ) : ℚ) < ((1 : ℕ) : ℚ) := by
    rw [Nat.cast_one]
    linarith
  have hlt' := Nat.cast_lt.mp hlt
  omega

theorem sampleStep_mul (hm : 2 ≤ m) : ((m - 1 : ℕ) : ℚ) * sampleStep n m = ((n - 1 : ℕ) : ℚ) := by
  have hne : ((m - 1 : ℕ) : ℚ) ≠ 0 := Nat.cast_ne_zero.mpr (by omega)
  exact mul_div_cancel₀ _ hne

theorem one_lt_sampleStep (hm : 2 ≤ m) (hn : m < n) : 1 < sampleStep n m := by
  have hpos : (0 : ℚ) < ((m - 1 : ℕ) : ℚ) := Nat.cast_pos.mpr (by omega)
  rw [sampleStep, one_lt_div hpos]
  exact Nat.cast_lt.mpr (by omega)

/-- The last position is the last point. -/
theorem sampleIndex_last (hm : 2 ≤ m) : sampleIndex n m (m - 1) = n - 1 := by
  have hle := sampleIndex_le n m (m - 1)
  have hlt := lt_sampleIndex n m (m - 1)
  rw [sampleStep_mul hm] at hle hlt
  have hupper : ((sampleIndex n m (m - 1) : ℕ) : ℚ) < ((n - 1 + 1 : ℕ) : ℚ) := by
    push_cast
    linarith
  have hlower : ((n - 1 : ℕ) : ℚ) < ((sampleIndex n m (m - 1) + 1 : ℕ) : ℚ) := by
    push_cast
    linarith
  have hupper' := Nat.cast_lt.mp hupper
  have hlower' := Nat.cast_lt.mp hlower
  omega

/-- A step is longer than one place, so that rounding does not bring two positions together. -/
theorem sampleIndex_succ (hm : 2 ≤ m) (hn : m < n) (i : ℕ) :
    sampleIndex n m i < sampleIndex n m (i + 1) := by
  have hstep := one_lt_sampleStep hm hn
  have hle := sampleIndex_le n m i
  have hlt : (sampleIndex n m i : ℚ) + 1 ≤ ((i + 1 : ℕ) : ℚ) * sampleStep n m + 1 / 2 := by
    push_cast
    linarith
  have hfloor : sampleIndex n m i + 1 ≤ sampleIndex n m (i + 1) := by
    apply Nat.le_floor
    push_cast at hlt ⊢
    exact hlt
  omega

theorem sampleIndex_strictMono (hm : 2 ≤ m) (hn : m < n) : StrictMono (sampleIndex n m) :=
  strictMono_nat_of_lt_succ (sampleIndex_succ hm hn)

theorem sampleIndex_lt (hm : 2 ≤ m) (hn : m < n) (hi : i < m) : sampleIndex n m i < n := by
  have hle := (sampleIndex_strictMono hm hn).monotone (show i ≤ m - 1 by omega)
  rw [sampleIndex_last hm] at hle
  omega

end Positions

section Points

variable {α : Type} {all : List α} {m : ℕ}

/-- The loop reads within the history. -/
theorem samplePoints_some (hm : 2 ≤ m) (hn : m < all.length) {k : ℕ} (hk : k ≤ m) :
    ∃ out, samplePoints all m k = some out ∧ out.length = k ∧
      ∀ i < k, out[i]? = all[sampleIndex all.length m i]? := by
  induction k with
  | zero => exact ⟨[], rfl, rfl, fun i hi => absurd hi (Nat.not_lt_zero i)⟩
  | succ k ih =>
    obtain ⟨out, hout, hlength, hplaces⟩ := ih (by omega)
    have hindex := sampleIndex_lt hm hn (show k < m by omega)
    have hpoint := List.getElem?_eq_getElem hindex
    refine ⟨out ++ [all[sampleIndex all.length m k]], ?_, ?_, ?_⟩
    · rw [samplePoints, hout, hpoint]
      rfl
    · rw [List.length_append, hlength]
      rfl
    · intro i hi
      by_cases heq : i = k
      · subst i
        rw [List.getElem?_append_right (by omega), hlength, Nat.sub_self, hpoint]
        rfl
      · rw [List.getElem?_append_left (by omega)]
        exact hplaces i (by omega)

/-- The assignment of the last point changes nothing. -/
theorem downsample_eq (hm : 2 ≤ m) (hn : m < all.length) :
    downsample all m = samplePoints all m m := by
  obtain ⟨out, hout, hlength, hplaces⟩ := samplePoints_some hm hn (le_refl m)
  have hlast : out[m - 1]? = all.getLast? := by
    rw [hplaces (m - 1) (by omega), sampleIndex_last hm, List.getLast?_eq_getElem?]
  have hget : all.getLast? = some all[all.length - 1] := by
    rw [List.getLast?_eq_getElem?]
    exact List.getElem?_eq_getElem (by omega)
  have hnot : ¬(all.length ≤ m ∨ m < 2) := by omega
  rw [downsample, if_neg hnot, hout, hget]
  show some (out.set (out.length - 1) all[all.length - 1]) = some out
  rw [hget] at hlast
  obtain ⟨hlt, hvalue⟩ := List.getElem?_eq_some_iff.mp hlast
  congr 1
  rw [hlength, ← hvalue]
  exact List.set_getElem_self hlt

/-- What is asked of a sample of `m` points. -/
structure Sampled (all : List α) (m : ℕ) (out : List α) : Prop where
  length : out.length = m
  /-- The loop alone gives it, without the assignment that follows. -/
  loop : samplePoints all m m = some out
  places : ∀ i < m, out[i]? = all[sampleIndex all.length m i]?
  inside : ∀ i < m, sampleIndex all.length m i < all.length
  increasing : ∀ i j, i < j → j < m → sampleIndex all.length m i < sampleIndex all.length m j
  first : sampleIndex all.length m 0 = 0
  last : sampleIndex all.length m (m - 1) = all.length - 1
  near : ∀ i < m, |(sampleIndex all.length m i : ℚ) -
    (i : ℚ) * ((all.length : ℚ) - 1) / ((m : ℚ) - 1)| ≤ 1 / 2

theorem downsample_sampled (hm : 2 ≤ m) (hn : m < all.length) :
    ∃ out, downsample all m = some out ∧ Sampled all m out := by
  obtain ⟨out, hout, hlength, hplaces⟩ := samplePoints_some hm hn (le_refl m)
  refine ⟨out, (downsample_eq hm hn).trans hout, hlength, hout, hplaces,
    fun i hi => sampleIndex_lt hm hn hi, fun i j hij _ => sampleIndex_strictMono hm hn hij,
    sampleIndex_zero _ _, sampleIndex_last hm, ?_⟩
  intro i _
  have hnear := sampleIndex_near all.length m i
  have huniform : (i : ℚ) * sampleStep all.length m =
      (i : ℚ) * ((all.length : ℚ) - 1) / ((m : ℚ) - 1) := by
    rw [sampleStep, Nat.cast_sub (by omega), Nat.cast_sub (by omega), Nat.cast_one, mul_div_assoc]
  rwa [huniform] at hnear

end Points

/-- A short history is returned whole; of a longer one, as many points as asked for, in order and
without repetition, from the first to the last, each next to its uniform position. -/
theorem history_sampled (db : Db F) (testId : Int) (m : ℕ) :
    ((db.historyPoints testId).length ≤ m ∨ m < 2 →
      statsHistory db testId m = some (db.historyPoints testId)) ∧
    (m < (db.historyPoints testId).length ∧ 2 ≤ m →
      ∃ out, statsHistory db testId m = some out ∧ Sampled (db.historyPoints testId) m out) :=
  ⟨fun hwhole => if_pos hwhole, fun hlong => downsample_sampled hlong.2 hlong.1⟩

end CapiNet
