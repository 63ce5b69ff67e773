import CapiNet.ResultRoute
import Mathlib.Tactic.Ring

namespace CapiNet

structure Clocks where
  white : Int
  black : Int
  whiteToMove : Bool

namespace Clocks

def start (base : Int) (whiteToMove : Bool) : Clocks := ⟨base, base, whiteToMove⟩

def mover (c : Clocks) : Int := if c.whiteToMove then c.white else c.black

/-- The side to move thinks for so many milliseconds and moves. -/
def move (increment : Int) (c : Clocks) (think : ℕ) : Clocks :=
  if c.whiteToMove then ⟨c.white - think + increment, c.black, false⟩
  else ⟨c.white, c.black - think + increment, true⟩

/-- No move of the game takes longer than its clock allows. -/
def Respected (increment : Int) : Clocks → List ℕ → Prop
  | _, [] => True
  | c, think :: rest => 0 ≤ c.mover - think ∧ Respected increment (c.move increment think) rest

variable {increment : Int} {c : Clocks}

/-- A move takes its time off one clock and puts the increment on it. -/
theorem move_total (increment : Int) (c : Clocks) (think : ℕ) :
    (c.move increment think).white + (c.move increment think).black =
      c.white + c.black - think + increment := by
  unfold move
  split
  · show c.white - think + increment + c.black = c.white + c.black - think + increment
    omega
  · show c.white + (c.black - think + increment) = c.white + c.black - think + increment
    omega

theorem move_nonneg (hinc : 0 ≤ increment) (hwhite : 0 ≤ c.white) (hblack : 0 ≤ c.black)
    {think : ℕ} (h : 0 ≤ c.mover - think) :
    0 ≤ (c.move increment think).white ∧ 0 ≤ (c.move increment think).black := by
  unfold mover at h
  unfold move
  by_cases hturn : c.whiteToMove
  · rw [if_pos hturn] at h
    rw [if_pos hturn]
    exact ⟨show 0 ≤ c.white - think + increment by omega, hblack⟩
  · rw [if_neg hturn] at h
    rw [if_neg hturn]
    exact ⟨hwhite, show 0 ≤ c.black - think + increment by omega⟩

/-- The sides cannot think for longer than the clocks and their increments give them. -/
theorem Respected.sum_le (hinc : 0 ≤ increment) (hwhite : 0 ≤ c.white) (hblack : 0 ≤ c.black)
    {thinks : List ℕ} (h : Respected increment c thinks) :
    (thinks.sum : Int) ≤ c.white + c.black + increment * thinks.length := by
  induction thinks generalizing c with
  | nil =>
    simp only [List.sum_nil, List.length_nil, Nat.cast_zero, mul_zero]
    omega
  | cons think rest ih =>
    obtain ⟨hmove, hrest⟩ := h
    obtain ⟨hwhite', hblack'⟩ := move_nonneg hinc hwhite hblack hmove
    have hle := ih hwhite' hblack' hrest
    rw [move_total] at hle
    rw [List.sum_cons, List.length_cons, Nat.cast_add, Nat.cast_succ, mul_add, mul_one]
    omega

/-- The first move shows that the base is not negative. -/
theorem Respected.sum_le_of_start {base : Int} {first : Bool} (hinc : 0 ≤ increment)
    {thinks : List ℕ} (hne : thinks ≠ []) (h : Respected increment (start base first) thinks) :
    (thinks.sum : Int) ≤ 2 * base + increment * thinks.length := by
  have hbase : 0 ≤ base := by
    cases thinks with
    | nil => exact absurd rfl hne
    | cons think rest =>
      have hmove := h.1
      have hmover : (start base first).mover = base := by
        unfold mover start
        split
        · rfl
        · rfl
      omega
  have hle := h.sum_le hinc hbase hbase
  have hclocks : (start base first).white + (start base first).black = 2 * base := by
    show base + base = 2 * base
    omega
  rwa [hclocks] at hle

end Clocks

theorem checkGame_cases (g : GameReport) {plies d : Int} (hplies : g.plyCount = some plies)
    (hpos : 0 < plies) (hmax : plies ≤ maxPlyCount) (hd : g.durationMs = some d) (hnonneg : 0 ≤ d)
    (hle : d ≤ maxPlausibleDurationMs g.tcBaseEffectiveMs g.tcIncrementEffectiveMs plies) :
    checkGame g = if g.termination = .crash ∨ g.termination = .illegalMove then
      ⟨false, "termination_" ++ g.termination.text⟩ else {} := by
  unfold checkGame
  rw [hplies, hd]
  split
  · rfl
  · simp only [if_neg (show ¬(plies ≤ 0 ∨ maxPlyCount < plies) by omega),
      if_neg (show ¬d < 0 by omega), if_neg (not_lt.mpr hle)]

theorem termination_reason (t : GameTermination) :
    "termination_" ++ t.text ≠ "duration_implausible" := by
  cases t <;> decide

/-- A quarter more than what the clocks allow covers a quarter more than what was thought. -/
theorem le_maxPlausibleDurationMs {base increment plies total d : Int} (htotal : 0 ≤ total)
    (hle : total ≤ 2 * base + increment * plies) (hd : d ≤ total + total / 4 + 5000) :
    d ≤ maxPlausibleDurationMs base increment plies := by
  unfold maxPlausibleDurationMs
  generalize 2 * base + increment * plies = clocks at hle ⊢
  show d ≤ clocks + clocks.tdiv 4 + 5000
  rw [Int.tdiv_eq_ediv_of_nonneg (by omega)]
  omega

theorem bind_ok {ε α β : Type} {x : Except ε α} {f : α → Except ε β} {b : β}
    (h : (x >>= f) = .ok b) : ∃ a, x = .ok a ∧ f a = .ok b := by
  cases x with
  | error e => exact absurd h (by simp [bind, Except.bind])
  | ok a => exact ⟨a, rfl, h⟩

theorem reqInt_range {j : Json} {key : String} {lo n : Int}
    (h : Request.reqInt j key lo = .ok n) : lo ≤ n ∧ n ≤ Json.int32Max := by
  obtain ⟨v, -, hv⟩ := bind_ok h
  split at hv
  next => exact absurd hv (by simp)
  next hin =>
    obtain rfl := Except.ok.inj hv
    omega

theorem optInt_range {j : Json} {key : String} {lo n : Int}
    (h : Request.optInt j key lo = .ok (some n)) : lo ≤ n ∧ n ≤ Json.int32Max := by
  unfold Request.optInt at h
  split at h
  next => exact absurd h (by simp)
  next =>
    obtain ⟨m, hm, hn⟩ := bind_ok h
    obtain rfl := Option.some.inj (Except.ok.inj hn)
    exact reqInt_range hm

/-- The ranges of the members of a game the duration check reads. -/
structure GameReport.Admitted (g : GameReport) : Prop where
  base : 0 ≤ g.tcBaseEffectiveMs ∧ g.tcBaseEffectiveMs ≤ Json.int32Max
  increment : 0 ≤ g.tcIncrementEffectiveMs ∧ g.tcIncrementEffectiveMs ≤ Json.int32Max
  plies : ∀ n, g.plyCount = some n → 0 ≤ n ∧ n ≤ Json.int32Max

theorem parseGame_admitted {g : Json} {r : GameReport} (h : parseGame g = .ok r) : r.Admitted := by
  unfold parseGame at h
  split at h
  next => exact absurd h (by simp)
  next =>
    obtain ⟨gameInPair, -, h⟩ := bind_ok h
    split at h
    next => exact absurd h (by simp)
    next =>
      obtain ⟨candidateIsWhite, -, h⟩ := bind_ok h
      obtain ⟨outcome, -, h⟩ := bind_ok h
      obtain ⟨termination, -, h⟩ := bind_ok h
      obtain ⟨plyCount, hplies, h⟩ := bind_ok h
      obtain ⟨durationMs, -, h⟩ := bind_ok h
      obtain ⟨cpuFactor, -, h⟩ := bind_ok h
      split at h
      next => exact absurd h (by simp)
      next =>
        obtain ⟨base, hbase, h⟩ := bind_ok h
        obtain ⟨increment, hincrement, h⟩ := bind_ok h
        obtain ⟨slotIndex, -, h⟩ := bind_ok h
        obtain ⟨coreId, -, h⟩ := bind_ok h
        obtain ⟨pgn, -, h⟩ := bind_ok h
        obtain ⟨candidateNodes, -, h⟩ := bind_ok h
        obtain ⟨candidateTimeMs, -, h⟩ := bind_ok h
        obtain ⟨baselineNodes, -, h⟩ := bind_ok h
        obtain ⟨baselineTimeMs, -, h⟩ := bind_ok h
        obtain rfl := Except.ok.inj h
        refine ⟨reqInt_range hbase, reqInt_range hincrement, fun n hn => ?_⟩
        change plyCount = some n at hn
        subst hn
        exact optInt_range hplies

theorem placeGames_admitted {clientId : Int} {a b : GameReport} {report : RoutedReport}
    (ha : a.Admitted) (hb : b.Admitted) (h : placeGames clientId a b = .ok report) (i : Fin 2) :
    (report.games i).Admitted := by
  unfold placeGames at h
  split at h
  next =>
    obtain rfl := Except.ok.inj h
    show (if i.val = 0 then a else b).Admitted
    split
    · exact ha
    · exact hb
  next =>
    split at h
    next =>
      obtain rfl := Except.ok.inj h
      show (if i.val = 0 then b else a).Admitted
      split
      · exact hb
      · exact ha
    next => exact absurd h (by simp)

theorem resultReport_admitted {body : Json} {report : RoutedReport}
    (h : resultReport body = .ok report) (i : Fin 2) : (report.games i).Admitted := by
  unfold resultReport at h
  split at h
  next => exact absurd h (by simp)
  next =>
    obtain ⟨clientId, -, h⟩ := bind_ok h
    obtain ⟨games, -, h⟩ := bind_ok h
    split at h
    next g g' =>
      obtain ⟨a, ha, h⟩ := bind_ok h
      obtain ⟨b, hb, h⟩ := bind_ok h
      exact placeGames_admitted (parseGame_admitted ha) (parseGame_admitted hb) h i
    next => exact absurd h (by simp)

/-- The values of the computation of the limit, in the order it makes them. -/
def plausibleValues (base increment plies : Int) : List Int :=
  let clocks := 2 * base + increment * plies
  [2 * base, increment * plies, clocks, clocks.tdiv 4, clocks + clocks.tdiv 4,
    maxPlausibleDurationMs base increment plies]

theorem plausibleValues_fit {base increment plies : Int} (hbase : 0 ≤ base)
    (hbase' : base ≤ Json.int32Max) (hinc : 0 ≤ increment) (hinc' : increment ≤ Json.int32Max)
    (hplies : 0 ≤ plies) (hplies' : plies ≤ Json.int32Max) :
    ∀ v ∈ plausibleValues base increment plies, 0 ≤ v ∧ v < 2 ^ 63 := by
  have hmax : Json.int32Max = 2147483647 := rfl
  rw [hmax] at hbase' hinc' hplies'
  have hgained : 0 ≤ increment * plies := mul_nonneg hinc hplies
  have hgained' : increment * plies ≤ 2147483647 * 2147483647 :=
    mul_le_mul hinc' hplies' hplies (by omega)
  have hdiv : (2 * base + increment * plies).tdiv 4 = (2 * base + increment * plies) / 4 :=
    Int.tdiv_eq_ediv_of_nonneg (by omega)
  intro v hv
  simp only [plausibleValues, maxPlausibleDurationMs, hdiv, List.mem_cons, List.not_mem_nil,
    or_false] at hv
  generalize increment * plies = gained at hgained hgained' hv
  norm_num at hgained' ⊢
  omega

/-- A game no move of which exceeded its clock is not found too long, with a quarter of its time
and five seconds to spare; and the limit is computed without overflow for whatever the result
route admits. -/
theorem respected_clocks_plausible :
    (∀ (base increment : Int) (whiteFirst : Bool) (thinks : List ℕ) (g : GameReport) (d : Int),
      0 ≤ increment → 1 ≤ thinks.length → thinks.length ≤ 2000 →
      (Clocks.start base whiteFirst).Respected increment thinks →
      0 ≤ d → d ≤ (thinks.sum : Int) + (thinks.sum : Int) / 4 + 5000 →
      g.tcBaseEffectiveMs = base → g.tcIncrementEffectiveMs = increment →
      g.plyCount = some (thinks.length : Int) → g.durationMs = some d →
      (checkGame g).reason ≠ "duration_implausible") ∧
    ∀ body report, resultReport body = .ok report → ∀ i plies,
      (report.games i).plyCount = some plies →
      ∀ v ∈ plausibleValues (report.games i).tcBaseEffectiveMs
        (report.games i).tcIncrementEffectiveMs plies, -2 ^ 63 ≤ v ∧ v < 2 ^ 63 := by
  refine ⟨?_, ?_⟩
  · intro base increment whiteFirst thinks g d hinc hlen hlen' hrespected hd hd' hbase hincrement
      hplies hduration
    have htotal := hrespected.sum_le_of_start hinc (List.ne_nil_of_length_pos hlen)
    have hle := le_maxPlausibleDurationMs (Int.natCast_nonneg _) htotal hd'
    have hmax : (thinks.length : Int) ≤ maxPlyCount := by
      show (thinks.length : Int) ≤ 2000
      omega
    rw [← hbase, ← hincrement] at hle
    rw [checkGame_cases g hplies (by omega) hmax hduration hd hle]
    split
    · exact termination_reason g.termination
    · decide
  · intro body report hreport i plies hplies v hv
    have hadmitted := resultReport_admitted hreport i
    obtain ⟨hnonneg, hle⟩ := hadmitted.plies plies hplies
    have hfit := plausibleValues_fit hadmitted.base.1 hadmitted.base.2 hadmitted.increment.1
      hadmitted.increment.2 hnonneg hle v hv
    omega

/-- Two moves of a tenth and of two tenths of a second, on clocks of a second. -/
theorem respected_clocks_plausible_quick :
    (checkGame { gameInPair := 0, candidateIsWhite := true, outcome := .draw, termination := .normal
                 plyCount := some 2, durationMs := some 310, cpuFactorAtPlay := .ofInt 1
                 tcBaseEffectiveMs := 1000, tcIncrementEffectiveMs := 10, slotIndex := 0
                 coreId := none, pgn := "", candidateNodes := none, candidateTimeMs := none
                 baselineNodes := none, baselineTimeMs := none }).reason ≠ "duration_implausible" :=
  respected_clocks_plausible.1 1000 10 true [100, 200] _ 310 (by decide) (by decide) (by decide)
    (by simp [Clocks.Respected, Clocks.start, Clocks.mover, Clocks.move]) (by decide) (by decide)
    rfl rfl rfl rfl

end CapiNet
