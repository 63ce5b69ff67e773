import CapiNet.Schema

namespace CapiNet

/-- A game as a client reports it. -/
structure GameReport where
  gameInPair : Int
  candidateIsWhite : Bool
  outcome : GameOutcome
  termination : GameTermination
  plyCount : Option Int
  durationMs : Option Int
  cpuFactorAtPlay : Double
  tcBaseEffectiveMs : Int
  tcIncrementEffectiveMs : Int
  slotIndex : Int
  coreId : Option Int
  pgn : String
  candidateNodes : Option Int
  candidateTimeMs : Option Int
  baselineNodes : Option Int
  baselineTimeMs : Option Int

structure PairReport where
  clientId : Int
  games : Fin 2 → GameReport

/-- A report as the result route delivers it. -/
structure RoutedReport extends PairReport where
  routed : ∀ i, (games i).gameInPair = i.val

structure GameVerdict where
  valid : Bool := true
  reason : String := ""
  deriving DecidableEq

def GameTermination.text : GameTermination → String
  | .normal => "normal"
  | .timeout => "timeout"
  | .illegalMove => "illegal_move"
  | .crash => "crash"
  | .adjudication => "adjudication"
  | .other => "other"

def maxPlyCount : Int := 2000

/-- Both clocks together, with 25% and five seconds to spare; the division truncates. -/
def maxPlausibleDurationMs (tcBaseMs tcIncrementMs plyCount : Int) : Int :=
  let clocks := 2 * tcBaseMs + tcIncrementMs * plyCount
  clocks + clocks.tdiv 4 + 5000

def checkGame (g : GameReport) : GameVerdict :=
  if g.termination = .crash ∨ g.termination = .illegalMove then
    ⟨false, "termination_" ++ g.termination.text⟩
  else match g.plyCount with
    | none => ⟨false, "ply_count_out_of_range"⟩
    | some plies =>
      if plies ≤ 0 ∨ maxPlyCount < plies then ⟨false, "ply_count_out_of_range"⟩
      else match g.durationMs with
        | none => ⟨false, "duration_missing"⟩
        | some d =>
          if d < 0 then ⟨false, "duration_missing"⟩
          else if maxPlausibleDurationMs g.tcBaseEffectiveMs g.tcIncrementEffectiveMs plies < d then
            ⟨false, "duration_implausible"⟩
          else {}

/-- The verdicts of the two games; both fall if the colours were not exchanged. -/
def checkPair (report : PairReport) (i : Fin 2) : GameVerdict :=
  let v := checkGame (report.games i)
  if (report.games 0).candidateIsWhite = (report.games 1).candidateIsWhite ∧ v.valid then
    ⟨false, "pair_colors_not_inverted"⟩
  else v

end CapiNet
