import CapiNet.Json
import Mathlib

namespace CapiNet

/-- What a statement or a computation of the server may raise. -/
inductive Failure
  | domainError (what : String)
  | invalidPairScore (score : ℚ)
  | uniqueViolation
  | checkViolation
  | nullValue
  | unexpectedRows
  | numericValueOutOfRange
  deriving DecidableEq

/-- Pentanomial categories, from the candidate's point of view. -/
inductive Penta
  | ll | ld | ddWl | wd | ww
  deriving DecidableEq

def Penta.index : Penta → Fin 5
  | .ll => 0
  | .ld => 1
  | .ddWl => 2
  | .wd => 3
  | .ww => 4

/-- Rounding to the nearest integer, halves away from zero. -/
def roundAway (q : ℚ) : ℤ := if 0 ≤ q then ⌊q + 1 / 2⌋ else -⌊-q + 1 / 2⌋

def categoryFromPairScore (pairScore : ℚ) : Except Failure Penta :=
  let idx := pairScore * 2
  let rounded := roundAway idx
  if 1 / 10 ^ 9 < |idx - rounded| then .error (.invalidPairScore pairScore)
  else if rounded = 0 then .ok .ll
  else if rounded = 1 then .ok .ld
  else if rounded = 2 then .ok .ddWl
  else if rounded = 3 then .ok .wd
  else if rounded = 4 then .ok .ww
  else .error (.invalidPairScore pairScore)

/-- How often each category occurred. -/
@[ext] structure Pentanomial where
  counts : Fin 5 → ℕ
  deriving DecidableEq

namespace Pentanomial

def empty : Pentanomial := ⟨fun _ => 0⟩

def add (p : Pentanomial) (c : Penta) (n : ℕ) : Pentanomial :=
  ⟨fun i => if i = c.index then p.counts i + n else p.counts i⟩

def get (p : Pentanomial) (c : Penta) : ℕ := p.counts c.index

def pairs (p : Pentanomial) : ℕ := ∑ i, p.counts i

@[simp] theorem pairs_empty : empty.pairs = 0 := by simp [pairs, empty]

@[simp] theorem pairs_add (p : Pentanomial) (c : Penta) (n : ℕ) :
    (p.add c n).pairs = p.pairs + n := by
  cases c <;> simp [pairs, add, Fin.sum_univ_five, Penta.index] <;> omega

end Pentanomial

section Pdf

variable {K : Type} [Field K]

/-- A distribution over the five scores per game `0, 1/4, .., 1`. -/
structure PentaPdf (K : Type) where
  count : K
  values : Fin 5 → K
  probs : Fin 5 → K

/-- A frequency, with the empty ones replaced as Fishtest does so that none is zero. -/
def regularize (n : ℕ) : K := if n = 0 then 1 / 10 ^ 3 else n

def toPdf (p : Pentanomial) : PentaPdf K :=
  let count := ∑ i, (regularize (p.counts i) : K)
  { count := count
    values := fun i => (i.val : K) / 4
    probs := fun i => regularize (p.counts i) / count }

structure Moments (K : Type) where
  mean : K
  var : K

def moments (values probs : Fin 5 → K) : Moments K :=
  let mean := ∑ i, probs i * values i
  { mean := mean
    var := ∑ i, probs i * (values i - mean) * (values i - mean) }

end Pdf

section Solver

variable {K : Type} [Field K] [LinearOrder K]

/-- Bisection while the midpoint is inside; `f` decreases. -/
def bisect (f : K → K) : ℕ → K → K → K
  | 0, lo, hi => (lo + hi) / 2
  | n + 1, lo, hi =>
    let mid := (lo + hi) / 2
    if mid ≤ lo ∨ hi ≤ mid then (lo + hi) / 2
    else if 0 < f mid then bisect f n mid hi else bisect f n lo mid

def minElement (a : Fin 5 → K) : K := Finset.univ.inf' ⟨0, Finset.mem_univ 0⟩ a

def maxElement (a : Fin 5 → K) : K := Finset.univ.sup' ⟨0, Finset.mem_univ 0⟩ a

/-- The margin the bisection keeps from the poles. -/
def secularMargin : K := 1 / 10 ^ 9

/-- Solves `∑ pᵢ aᵢ / (1 + x aᵢ) = 0`. -/
def secular (a p : Fin 5 → K) : Except Failure K :=
  let v := minElement a
  let w := maxElement a
  if 0 ≤ v * w then
    .error (.domainError "secular equation requires support straddling zero")
  else
    .ok (bisect (fun x => ∑ i, p i * a i / (1 + x * a i)) 200
      (-1 / w + secularMargin) (-1 / v - secularMargin))

end Solver

noncomputable section

/-- The coefficients of the secular equation at an iterate with the given moments. -/
def mleCoefficients (values : Fin 5 → ℝ) (ref s : ℝ) (m : Moments ℝ) (i : Fin 5) : ℝ :=
  let sigma := Real.sqrt m.var
  let z := (m.mean - values i) / sigma
  values i - ref - s * sigma * (1 + z ^ 2) / 2

/-- One round of the maximum-likelihood iteration. -/
def mleRound (hat : PentaPdf ℝ) (ref s : ℝ) (pdf : Fin 5 → ℝ) : Except Failure (Fin 5 → ℝ) := do
  let a1 := mleCoefficients hat.values ref s (moments hat.values pdf)
  let x ← secular a1 hat.probs
  return fun i => hat.probs i / (1 + x * a1 i)

def maxDelta (prev next : Fin 5 → ℝ) : ℝ := max 0 (maxElement fun i => |prev i - next i|)

def mleIterate (hat : PentaPdf ℝ) (ref s : ℝ) : ℕ → (Fin 5 → ℝ) → Except Failure (Fin 5 → ℝ)
  | 0, pdf => .ok pdf
  | n + 1, pdf => do
    let next ← mleRound hat ref s pdf
    if maxDelta pdf next < 1 / 10 ^ 9 then return next else mleIterate hat ref s n next

/-- Maximum-likelihood estimate of a distribution whose t-value `(mu - ref) / sigma` is `s`. -/
def mleTValue (hat : PentaPdf ℝ) (ref s : ℝ) : Except Failure (Fin 5 → ℝ) :=
  mleIterate hat ref s 10 fun _ => 1 / 5

def neloDividedByNt : ℝ := 34743558552260146 / 10 ^ 14

/-- For pentanomials the t-value of a pair is `√2` times the t-value of a game. -/
def pairTValue (nelo : ℝ) : ℝ := nelo / neloDividedByNt * Real.sqrt 2

def llrNormalized (nelo0 nelo1 : ℝ) (results : Pentanomial) : Except Failure ℝ :=
  if results.pairs = 0 then .ok 0
  else do
    let pdf : PentaPdf ℝ := toPdf results
    let p0 ← mleTValue pdf (1 / 2) (pairTValue nelo0)
    let p1 ← mleTValue pdf (1 / 2) (pairTValue nelo1)
    return pdf.count * ∑ i, pdf.probs i * (Real.log (p1 i) - Real.log (p0 i))

section OtherSolver

variable (solve : (Fin 5 → ℝ) → (Fin 5 → ℝ) → Except Failure ℝ)

def mleRoundBy (hat : PentaPdf ℝ) (ref s : ℝ) (pdf : Fin 5 → ℝ) : Except Failure (Fin 5 → ℝ) := do
  let a1 := mleCoefficients hat.values ref s (moments hat.values pdf)
  let x ← solve a1 hat.probs
  return fun i => hat.probs i / (1 + x * a1 i)

def mleIterateBy (hat : PentaPdf ℝ) (ref s : ℝ) : ℕ → (Fin 5 → ℝ) → Except Failure (Fin 5 → ℝ)
  | 0, pdf => .ok pdf
  | n + 1, pdf => do
    let next ← mleRoundBy solve hat ref s pdf
    if maxDelta pdf next < 1 / 10 ^ 9 then return next else mleIterateBy hat ref s n next

def mleTValueBy (hat : PentaPdf ℝ) (ref s : ℝ) : Except Failure (Fin 5 → ℝ) :=
  mleIterateBy solve hat ref s 10 fun _ => 1 / 5

def llrNormalizedBy (nelo0 nelo1 : ℝ) (results : Pentanomial) : Except Failure ℝ :=
  if results.pairs = 0 then .ok 0
  else do
    let pdf : PentaPdf ℝ := toPdf results
    let p0 ← mleTValueBy solve pdf (1 / 2) (pairTValue nelo0)
    let p1 ← mleTValueBy solve pdf (1 / 2) (pairTValue nelo1)
    return pdf.count * ∑ i, pdf.probs i * (Real.log (p1 i) - Real.log (p0 i))

end OtherSolver

theorem mleIterateBy_secular (hat : PentaPdf ℝ) (ref s : ℝ) (n : ℕ) (pdf : Fin 5 → ℝ) :
    mleIterateBy secular hat ref s n pdf = mleIterate hat ref s n pdf := by
  induction n generalizing pdf with
  | zero => rfl
  | succ n ih =>
    simp only [mleIterateBy, mleIterate, ih]
    rfl

/-- The program solves the equation by bisection. -/
theorem llrNormalizedBy_secular (nelo0 nelo1 : ℝ) (results : Pentanomial) :
    llrNormalizedBy secular nelo0 nelo1 results = llrNormalized nelo0 nelo1 results := by
  simp only [llrNormalizedBy, llrNormalized, mleTValueBy, mleTValue, mleIterateBy_secular]

end

/-- Wald's bounds: at or below `lower` accept H0, at or above `upper` accept H1. -/
structure SprtBounds (F : Type) where
  lower : F
  upper : F

noncomputable def sprtBounds (alpha beta : ℝ) : SprtBounds ℝ :=
  ⟨Real.log (beta / (1 - alpha)), Real.log ((1 - beta) / alpha)⟩

inductive SprtDecision
  | continue | acceptH1 | acceptH0
  deriving DecidableEq

def sprtDecide {F : Type} [LinearOrder F] (llr : F) (bounds : SprtBounds F) : SprtDecision :=
  if bounds.upper ≤ llr then .acceptH1
  else if llr ≤ bounds.lower then .acceptH0
  else .continue

theorem sprtDecide_continue {F : Type} [LinearOrder F] {llr : F} {bounds : SprtBounds F} :
    sprtDecide llr bounds = .continue ↔ bounds.lower < llr ∧ llr < bounds.upper := by
  unfold sprtDecide
  split
  next h => simp [not_lt.mpr h]
  next h =>
    split
    next h' => simp [not_lt.mpr h']
    next h' => simp [not_le.mp h, not_le.mp h']

theorem sprtDecide_acceptH1 {F : Type} [LinearOrder F] {llr : F} {bounds : SprtBounds F} :
    sprtDecide llr bounds = .acceptH1 ↔ bounds.upper ≤ llr := by
  unfold sprtDecide
  split
  next h => simp [h]
  next h => split <;> simp [h]

theorem sprtDecide_acceptH0 {F : Type} [LinearOrder F] {llr : F} {bounds : SprtBounds F} :
    sprtDecide llr bounds = .acceptH0 ↔ llr < bounds.upper ∧ llr ≤ bounds.lower := by
  unfold sprtDecide
  split
  next h => simp [not_lt.mpr h]
  next h =>
    split
    next h' => simp [not_le.mp h, h']
    next h' => simp [h']

structure EloEstimate (F : Type) where
  elo : F
  ciLow : F
  ciHigh : F
  ci95Half : F
  los : F
  nelo : F

noncomputable section

open MeasureTheory

def erfc (x : ℝ) : ℝ := 2 / Real.sqrt Real.pi * ∫ t in Set.Ioi x, Real.exp (-t ^ 2)

/-- `std::clamp` to the open interval a logarithm of odds is defined on. -/
def clampScore (score : ℝ) : ℝ := max (1 / 10 ^ 3) (min score (1 - 1 / 10 ^ 3))

def logisticElo (score : ℝ) : ℝ := -400 * Real.logb 10 (1 / clampScore score - 1)

def phi (x : ℝ) : ℝ := 1 / 2 * erfc (-x / Real.sqrt 2)

/-- The quantile function on `(0, 1)`, by bisection. -/
def phiInv (p : ℝ) : ℝ := bisect (fun x => p - phi x) 200 (-40) 40

/-- Mean and variance per game come from the distribution of the pairs. -/
def eloEstimate (results : Pentanomial) : EloEstimate ℝ :=
  let pdf : PentaPdf ℝ := toPdf results
  let games := 2 * pdf.count
  let mu := (∑ i, pdf.probs i * pdf.count * ((i.val : ℝ) / 2)) / games
  let muPair := 2 * mu
  let var := (∑ i : Fin 5, pdf.probs i * pdf.count * ((i.val : ℝ) / 2 - muPair) *
    ((i.val : ℝ) / 2 - muPair)) / games
  let stderrMu := Real.sqrt var / Real.sqrt games
  let ciLow := logisticElo (mu + phiInv (25 / 1000) * stderrMu)
  let ciHigh := logisticElo (mu + phiInv (975 / 1000) * stderrMu)
  let m := moments pdf.values pdf.probs
  { elo := logisticElo mu
    ciLow := ciLow
    ciHigh := ciHigh
    ci95Half := (ciHigh - ciLow) / 2
    los := phi ((mu - 1 / 2) / stderrMu)
    nelo := (m.mean - 1 / 2) / Real.sqrt (2 * m.var) * neloDividedByNt }

def gameMean (results : Pentanomial) : ℝ :=
  let pdf : PentaPdf ℝ := toPdf results
  (∑ i, pdf.probs i * pdf.count * ((i.val : ℝ) / 2)) / (2 * pdf.count)

def gameVariance (results : Pentanomial) : ℝ :=
  let pdf : PentaPdf ℝ := toPdf results
  (∑ i : Fin 5, pdf.probs i * pdf.count * ((i.val : ℝ) / 2 - 2 * gameMean results) *
    ((i.val : ℝ) / 2 - 2 * gameMean results)) / (2 * pdf.count)

/-- The standard error of the mean per game. -/
def meanError (results : Pentanomial) : ℝ :=
  Real.sqrt (gameVariance results) / Real.sqrt (2 * (toPdf results : PentaPdf ℝ).count)

def eloEstimateBy (cdf quantile : ℝ → ℝ) (results : Pentanomial) : EloEstimate ℝ :=
  let mu := gameMean results
  let ciLow := logisticElo (mu + quantile (25 / 1000) * meanError results)
  let ciHigh := logisticElo (mu + quantile (975 / 1000) * meanError results)
  let m := moments (toPdf results : PentaPdf ℝ).values (toPdf results : PentaPdf ℝ).probs
  { elo := logisticElo mu
    ciLow := ciLow
    ciHigh := ciHigh
    ci95Half := (ciHigh - ciLow) / 2
    los := cdf ((mu - 1 / 2) / meanError results)
    nelo := (m.mean - 1 / 2) / Real.sqrt (2 * m.var) * neloDividedByNt }

/-- The program takes the quantiles by bisection. -/
theorem eloEstimateBy_phi (results : Pentanomial) :
    eloEstimateBy phi phiInv results = eloEstimate results := rfl

end

/-- The numerical functions the server calls on a distribution; `F` is where the results live. -/
structure Numerics (F : Type) where
  eloEstimate : Pentanomial → EloEstimate F
  llrNormalized : Double → Double → Pentanomial → Except Failure F
  sprtBounds : Double → Double → SprtBounds F

/-- The numerics of the program, in exact real arithmetic. -/
noncomputable def realNumerics : Numerics ℝ where
  eloEstimate := eloEstimate
  llrNormalized nelo0 nelo1 results := llrNormalized nelo0.val nelo1.val results
  sprtBounds alpha beta := sprtBounds alpha.val beta.val

end CapiNet
