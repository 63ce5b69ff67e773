import CapiNet.Request
import CapiNet.Sanity

namespace CapiNet

namespace Request

/-- A text out of a closed set. -/
def reqEnum {α : Type} (j : Json) (key : String) (allowed : String → Option α) :
    Except String α := do
  let v ← reqString j key
  match allowed v with
  | some a => return a
  | none => .error ("invalid " ++ key ++ ": " ++ v)

def optCount (g : Json) (key : String) : Except String (Option Int) :=
  match g.get key with
  | none => .ok none
  | some (.int n) =>
    if Json.toInt64 n < 0 then .error (key ++ " must be a non-negative integer")
    else .ok (some (Json.toInt64 n))
  | some _ => .error (key ++ " must be a non-negative integer")

end Request

def outcomes : String → Option GameOutcome
  | "candidate_win" => some .candidateWin
  | "draw" => some .draw
  | "candidate_loss" => some .candidateLoss
  | _ => none

def terminations : String → Option GameTermination
  | "normal" => some .normal
  | "timeout" => some .timeout
  | "illegal_move" => some .illegalMove
  | "crash" => some .crash
  | "adjudication" => some .adjudication
  | "other" => some .other
  | _ => none

open Request in
def parseGame (g : Json) : Except String GameReport :=
  if !g.isObject then .error "each game must be an object"
  else do
    let gameInPair ← reqInt g "game_in_pair" 0
    if 1 < gameInPair then .error "game_in_pair must be 0 or 1"
    else
      let candidateIsWhite ← reqBool g "candidate_is_white"
      let outcome ← reqEnum g "outcome" outcomes
      let termination ← reqEnum g "termination" terminations
      let plyCount ← optInt g "ply_count" 0
      let durationMs ← optInt g "duration_ms" 0
      let cpuFactorAtPlay ← reqDouble g "cpu_factor"
      if ¬0 < cpuFactorAtPlay.val then .error "cpu_factor must be positive"
      else
        let tcBaseEffectiveMs ← reqInt g "tc_base_effective_ms" 0
        let tcIncrementEffectiveMs ← reqInt g "tc_increment_effective_ms" 0
        let slotIndex ← reqInt g "slot_index" 0
        let coreId ← optInt g "core_id" 0
        let pgn ← reqString g "pgn"
        let candidateNodes ← optCount g "candidate_nodes"
        let candidateTimeMs ← optCount g "candidate_time_ms"
        let baselineNodes ← optCount g "baseline_nodes"
        let baselineTimeMs ← optCount g "baseline_time_ms"
        return {
          gameInPair, candidateIsWhite, outcome, termination, plyCount, durationMs
          cpuFactorAtPlay, tcBaseEffectiveMs, tcIncrementEffectiveMs, slotIndex, coreId, pgn
          candidateNodes, candidateTimeMs, baselineNodes, baselineTimeMs }

/-- The games in the places they name; both have to be taken. -/
def placeGames (clientId : Int) (a b : GameReport) : Except String RoutedReport :=
  if h : a.gameInPair = 0 ∧ b.gameInPair = 1 then
    .ok ⟨⟨clientId, fun i => if i.val = 0 then a else b⟩, fun i => by
      rcases i with ⟨_ | _ | n, hi⟩
      · exact h.1
      · exact h.2
      · omega⟩
  else if h : b.gameInPair = 0 ∧ a.gameInPair = 1 then
    .ok ⟨⟨clientId, fun i => if i.val = 0 then b else a⟩, fun i => by
      rcases i with ⟨_ | _ | n, hi⟩
      · exact h.1
      · exact h.2
      · omega⟩
  else .error "games must have game_in_pair 0 and 1"

def resultReport (body : Json) : Except String RoutedReport :=
  if !body.isObject then .error "body must be a JSON object"
  else do
    let clientId ← Request.reqInt64 body "client_id"
    match ← Request.field body "games" with
    | .arr [g, g'] => do
      let a ← parseGame g
      let b ← parseGame g'
      placeGames clientId a b
    | _ => .error "games must be an array with exactly 2 games"

end CapiNet
