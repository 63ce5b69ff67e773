import CapiNet.Pgn
import CapiNet.Sanity
import Mathlib.Data.List.DropRight

namespace CapiNet

/-- A time control scaled to the speed of the machine. -/
structure EffectiveTc where
  baseMs : Int
  incrementMs : Int
  deriving DecidableEq

/-- `std::lround` has the range of `std::llround` here; the narrowing to `int` is not checked. -/
def effectiveTc (tc : TimeControl) (cpuFactor : Double) : EffectiveTc where
  baseMs := Json.toInt32 (llround (tc.baseMs * cpuFactor.val))
  incrementMs := Json.toInt32 (llround (tc.incrementMs * cpuFactor.val))

/-- `printf("%.3f", ms / 1000.0)`. -/
def printSeconds (ms : Int) : List Char :=
  let rest := ms.natAbs % 1000
  (if ms < 0 then ['-'] else []) ++ Nat.toDigits 10 (ms.natAbs / 1000) ++
    ['.', (rest / 100).digitChar, (rest / 10 % 10).digitChar, (rest % 10).digitChar]

/-- The zeros at the end go, and then a dot. -/
def trimSeconds (s : List Char) : List Char :=
  let s := s.rdropWhile (· == '0')
  if s.getLast? = some '.' then s.dropLast else s

def fastchessTc (tc : EffectiveTc) : String :=
  String.ofList (trimSeconds (printSeconds tc.baseMs) ++
    '+' :: trimSeconds (printSeconds tc.incrementMs))

/-- When the process that plays a pair is killed: two games, two sides, 200 moves each, and two
minutes. -/
def fastchessTimeoutMs (tc : EffectiveTc) : Int :=
  4 * (tc.baseMs + 200 * tc.incrementMs) + 120000

structure SlotInfo where
  index : Int
  core : Option Int

def GameOutcome.text : GameOutcome → String
  | .candidateWin => "candidate_win"
  | .draw => "draw"
  | .candidateLoss => "candidate_loss"

def nullable {α : Type} (f : α → Json) (v : Option α) : Json := v.elim .null f

def usageFields (who : String) (u : Option Pgn.EngineUsage) : List (String × Json) :=
  [(who ++ "_nodes", nullable (fun u => .int u.nodes) u),
    (who ++ "_time_ms", nullable (fun u => .int u.timeMs) u)]

/-- A game that was played and read. -/
def playedFields (p : Pgn.ParsedGame) : List (String × Json) :=
  [("candidate_is_white", .bool p.candidateIsWhite),
    ("outcome", .str p.outcome.text),
    ("termination", .str p.termination.text),
    ("ply_count", nullable .int p.plyCount),
    ("duration_ms", nullable .int p.durationMs),
    ("pgn", .str (String.ofList p.text))] ++
  usageFields "candidate" p.candidateUsage ++ usageFields "baseline" p.baselineUsage

/-- The record of a missing game, with the note in place of the moves. -/
def crashFields (isWhite : Bool) (failureNote : String) : List (String × Json) :=
  [("candidate_is_white", .bool isWhite),
    ("outcome", .str GameOutcome.draw.text),
    ("termination", .str GameTermination.crash.text),
    ("ply_count", .null),
    ("duration_ms", .null),
    ("pgn", .str ("\x7bcapi_net: partida ausente no PGN do fastchess. " ++ failureNote ++ "\x7d\n"))]

/-- Which of the two games the candidate has white in when its record is made up. -/
def crashColor (i : Nat) (other : Option Pgn.ParsedGame) : Bool :=
  match other with
  | some p => !p.candidateIsWhite
  | none => i == 0

def gameBody (failureNote : String) (slot : SlotInfo) (tc : EffectiveTc) (cpuFactor : Double)
    (i : Nat) (game other : Option Pgn.ParsedGame) : Json :=
  .obj ([("game_in_pair", .int i), ("cpu_factor", .float cpuFactor),
    ("tc_base_effective_ms", .int tc.baseMs), ("tc_increment_effective_ms", .int tc.incrementMs),
    ("slot_index", .int slot.index), ("core_id", nullable .int slot.core)] ++
    match game with
    | some p => playedFields p
    | none => crashFields (crashColor i other) failureNote)

/-- The first two games of the file, as far as they can be read. -/
def parsedGames (pgn : String) : Except Escape (List (Option Pgn.ParsedGame)) :=
  ((Pgn.splitPgnGames pgn.toList).take 2).mapM fun game => Pgn.parseGame game "candidate"

/-- The body of `POST /api/jobs/{id}/result`. -/
def makeResultBody (clientId : Int) (pgn failureNote : String) (slot : SlotInfo) (tc : EffectiveTc)
    (cpuFactor : Double) : Except Escape Json := do
  let parsed ← parsedGames pgn
  let first := (parsed[0]?).join
  let second := (parsed[1]?).join
  return .obj [("client_id", .int clientId), ("games", .arr
    [gameBody failureNote slot tc cpuFactor 0 first second,
      gameBody failureNote slot tc cpuFactor 1 second first])]

/-- The body as a thread makes it, which is lost with its process when the stack is used up. -/
def makeResultBodyOn (stack : Pgn.StackUse) (clientId : Int) (pgn failureNote : String)
    (slot : SlotInfo) (tc : EffectiveTc) (cpuFactor : Double) : Except Escape Json :=
  if ((Pgn.splitPgnGames pgn.toList).take 2).any fun game =>
      (Pgn.regexCalls game "candidate").any fun c => stack c.1 c.2 then .error .stackOverflow
  else makeResultBody clientId pgn failureNote slot tc cpuFactor

end CapiNet
