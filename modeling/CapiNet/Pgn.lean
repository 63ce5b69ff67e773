import CapiNet.Decimal
import CapiNet.Schema

namespace CapiNet

namespace Pgn

abbrev Line := List Char

def unlines (ls : List Line) : List Char := ['\n'].intercalate ls

def eventTag : List Char := ['[', 'E', 'v', 'e', 'n', 't', ' ']

/-- A line a game starts with. -/
def opens (l : Line) : Bool := eventTag.isPrefixOf l

/-- The text from the first game on. -/
def fromFirstGame : List Char → Option (List Char)
  | [] => none
  | c :: cs => if opens (c :: cs) then some (c :: cs) else fromFirstGame cs

/-- The text without the line breaks at its end. -/
def chomp : List Char → List Char
  | [] => []
  | c :: cs =>
    match chomp cs with
    | [] => if c == '\n' || c == '\r' then [] else [c]
    | rest => c :: rest

/-- A game goes to the next line that opens one. -/
def splitPgnGames (pgn : List Char) : List (List Char) :=
  match fromFirstGame pgn with
  | none => []
  | some body =>
    ((body.splitOn '\n').splitBy fun _ l => !opens l).map fun game => chomp (unlines game) ++ ['\n']

/-- The value of a tag, to the quote that closes it, and what follows. A backslash takes the next
character with it, unless the line breaks there. -/
def quoted (escaped : Bool) : List Char → Option (List Char × List Char)
  | [] => none
  | c :: cs =>
    if escaped && (c == '\n' || c == '\r') then none
    else if !escaped && c == '"' then some ([], cs)
    else (quoted (!escaped && c == '\\') cs).map fun q => (c :: q.1, q.2)

/-- The name and the value of a line `[Name "value"]`. -/
def tagOf (line : Line) : Option (List Char × List Char) :=
  match line with
  | '[' :: rest =>
    let name := rest.takeWhile isWord
    let gap := rest.dropWhile isWord
    match gap.takeWhile isSpace, gap.dropWhile isSpace with
    | _ :: _, '"' :: body =>
      match quoted false body with
      | some (value, ']' :: tail) =>
        if !name.isEmpty && tail.all isSpace then some (name, value) else none
      | _ => none
    | _, _ => none
  | _ => none

abbrev Tags := List (List Char × List Char)

/-- The value of a tag; of several, the last one read. -/
def Tags.find (tags : Tags) (name : List Char) : Option (List Char) := tags.lookup name

/-- A line without the carriage return before its end. -/
def dropReturn (l : Line) : Line := if l.getLast? = some '\r' then l.dropLast else l

/-- The tags stand before the first line that is neither empty nor opens with a bracket. The last
one read comes first. -/
def readTags : List Line → Tags → Tags
  | [], tags => tags
  | l :: ls, tags =>
    let line := dropReturn l
    match tagOf line with
    | some tag => readTags ls (tag :: tags)
    | none => if line.isEmpty || line.head? == some '[' then readTags ls tags else tags

/-- `std::getline` leaves out an empty last line, which holds no tag and ends none. -/
def tagsOf (game : List Char) : Tags := readTags (game.splitOn '\n') []

def mapTermination (tag : String) : GameTermination :=
  if tag = "" ∨ tag = "normal" then .normal
  else if tag = "time forfeit" then .timeout
  else if tag = "illegal move" ∨ tag = "rules infraction" then .illegalMove
  else if tag = "adjudication" then .adjudication
  else if tag = "abandoned" ∨ tag = "stalled connection" ∨ tag = "crash" ∨ tag = "disconnect" then
    .crash
  else .other

/-- Hours, minutes and seconds of a text `H+:MM:SS`. -/
def clockOf (s : List Char) : Option (List Char × List Char × List Char) :=
  let hours := s.takeWhile Char.isDigit
  match s.dropWhile Char.isDigit with
  | [':', m, m', ':', t, t'] =>
    if !hours.isEmpty && [m, m', t, t'].all Char.isDigit then some (hours, [m, m'], [t, t'])
    else none
  | _ => none

def parseDuration (s : List Char) : Except Escape (Option Int) :=
  match clockOf s with
  | none => .ok none
  | some (hours, minutes, seconds) => do
    let h ← stoll hours
    let m ← stoll minutes
    let t ← stoll seconds
    let ms ← int64 ((h * 3600 + m * 60 + t) * 1000)
    return if Json.int32Max < ms then none else some ms

/-- The texts from the opening braces to before the closing ones, an unclosed one aside. -/
def comments : Option (List Char) → List Char → List (List Char)
  | _, [] => []
  | none, c :: cs => comments (if c = '\x7b' then some [c] else none) cs
  | some read, c :: cs =>
    if c = '\x7d' then read :: comments none cs else comments (some (read ++ [c])) cs

/-- The text from the first blank line on. -/
def fromBlankLine : List Char → Option (List Char)
  | [] => none
  | c :: cs => if c = '\n' ∧ cs.head? = some '\n' then some (c :: cs) else fromBlankLine cs

/-- The digits of the first `n=` that no word character precedes. -/
def searchNodes (afterWord : Bool) : List Char → Option (List Char)
  | [] => none
  | c :: cs =>
    let digits := (cs.drop 1).takeWhile Char.isDigit
    if c = 'n' ∧ !afterWord ∧ cs.head? = some '=' ∧ digits ≠ [] then some digits
    else searchNodes (isWord c) cs

/-- No word character follows. -/
def wordEnds (cs : List Char) : Bool := !cs.head?.any isWord

/-- The digits after a point, if there are any, and what follows. -/
def fraction (cs : List Char) : List Char × List Char :=
  let digits := (cs.drop 1).takeWhile Char.isDigit
  if cs.head? = some '.' ∧ digits ≠ [] then (digits, (cs.drop 1).dropWhile Char.isDigit)
  else ([], cs)

/-- Digits, with a fraction or without, before an `s` that ends a word. -/
def timeAt (cs : List Char) : Option (List Char × List Char) :=
  let whole := cs.takeWhile Char.isDigit
  let frac := fraction (cs.dropWhile Char.isDigit)
  if whole ≠ [] ∧ frac.2.head? = some 's' ∧ wordEnds (frac.2.drop 1) then some (whole, frac.1)
  else none

/-- The first number of seconds after white space. -/
def searchTime : List Char → Option (List Char × List Char)
  | [] => none
  | c :: cs =>
    match if isSpace c then timeAt cs else none with
    | some t => some t
    | none => searchTime cs

structure EngineUsage where
  nodes : Int
  timeMs : Int
  deriving DecidableEq

structure ColorUsage where
  white : Option EngineUsage := none
  black : Option EngineUsage := none
  deriving DecidableEq

/-- What a comment reports, if it reports both. -/
structure MoveReport where
  nodes : List Char
  whole : List Char
  frac : List Char

def moveReport (comment : List Char) : Option MoveReport := do
  let nodes ← searchNodes false comment
  let time ← searchTime comment
  return ⟨nodes, time.1, time.2⟩

def EngineUsage.count (u : Option EngineUsage) (r : MoveReport) : Except Escape EngineUsage := do
  let side := u.getD ⟨0, 0⟩
  let n ← stoll r.nodes
  let nodes ← int64 (side.nodes + n)
  let seconds ← stod (decimal r.whole r.frac)
  let ms ← secondsToMs seconds
  let timeMs ← int64 (side.timeMs + ms)
  return ⟨nodes, timeMs⟩

/-- One comment a move; the colours alternate whether it reports or not. -/
def countMoves : Bool → List (List Char) → ColorUsage → Except Escape ColorUsage
  | _, [], usage => .ok usage
  | whiteToMove, c :: cs, usage =>
    match moveReport c with
    | none => countMoves (!whiteToMove) cs usage
    | some r => do
      let usage ← if whiteToMove then do
          let side ← EngineUsage.count usage.white r
          pure { usage with white := some side }
        else do
          let side ← EngineUsage.count usage.black r
          pure { usage with black := some side }
      countMoves (!whiteToMove) cs usage

def usageByColor (game : List Char) (whiteFirst : Bool) : Except Escape ColorUsage :=
  match fromBlankLine game with
  | none => .ok {}
  | some body => countMoves whiteFirst (comments none body) {}

structure ParsedGame where
  text : List Char
  candidateIsWhite : Bool
  outcome : GameOutcome
  termination : GameTermination
  plyCount : Option Int
  durationMs : Option Int
  candidateUsage : Option EngineUsage
  baselineUsage : Option EngineUsage

/-- The second field of a FEN names the side to move. -/
def whiteFirst (fen : Option (List Char)) : Bool :=
  match fen.map (·.dropWhile (· != ' ')) with
  | some (_ :: 'b' :: _) => false
  | _ => true

/-- The colour of the candidate, if it played. A tag that is missing is read as empty. -/
def candidateColor (tags : Tags) (candidateName : String) : Option Bool :=
  if (tags.find "White".toList).getD [] = candidateName.toList then some true
  else if (tags.find "Black".toList).getD [] = candidateName.toList then some false
  else none

/-- The outcome a result has for the candidate. -/
def outcomeOf (result : Option (List Char)) (candidateIsWhite : Bool) : Option GameOutcome :=
  if result = some "1/2-1/2".toList then some .draw
  else if result = some "1-0".toList ∨ result = some "0-1".toList then
    let whiteWon := decide (result = some "1-0".toList)
    some (if whiteWon = candidateIsWhite then .candidateWin else .candidateLoss)
  else none

def gameDuration (tags : Tags) : Except Escape (Option Int) :=
  match tags.find "GameDuration".toList with
  | none => .ok none
  | some d => parseDuration d

def parseGame (game : List Char) (candidateName : String) : Except Escape (Option ParsedGame) :=
  let tags := tagsOf game
  match candidateColor tags candidateName with
  | none => .ok none
  | some isWhite =>
    match outcomeOf (tags.find "Result".toList) isWhite with
    | none => .ok none
    | some outcome => do
      let durationMs ← gameDuration tags
      let usage ← usageByColor game (whiteFirst (tags.find "FEN".toList))
      return some {
        text := game
        candidateIsWhite := isWhite
        outcome
        termination := mapTermination
          (String.ofList ((tags.find "Termination".toList).getD []))
        plyCount := (tags.find "PlyCount".toList).bind stoi
        durationMs
        candidateUsage := if isWhite then usage.white else usage.black
        baselineUsage := if isWhite then usage.black else usage.white }

/-- The regular expressions of the reader. -/
inductive Regex
  | tag | duration | nodes | time

/-- Whether `std::regex` uses up the stack on a text: it recurses with every character it goes on,
and how deep it may get is up to the library and the thread. -/
abbrev StackUse := Regex → List Char → Bool

/-- `std::getline`, to the end. -/
def getLines (game : List Char) : List Line :=
  let lines := game.splitOn '\n'
  if lines.getLast? = some [] then lines.dropLast else lines

/-- The lines that are tried for tags. -/
def tagLines : List Line → List Line
  | [] => []
  | l :: ls =>
    let line := dropReturn l
    line :: if (tagOf line).isSome || line.isEmpty || line.head? == some '[' then tagLines ls else []

/-- The texts `parse_game` runs its regular expressions on. -/
def regexCalls (game : List Char) (candidateName : String) : List (Regex × List Char) :=
  let tags := tagsOf game
  let usage := (comments none ((fromBlankLine game).getD [])).flatMap fun c =>
    (.nodes, c) :: if (searchNodes false c).isSome then [(.time, c)] else []
  (tagLines (getLines game)).map (Regex.tag, ·) ++
    match candidateColor tags candidateName with
    | none => []
    | some isWhite =>
      match outcomeOf (tags.find "Result".toList) isWhite with
      | none => []
      | some _ => (tags.find "GameDuration".toList).toList.map (Regex.duration, ·) ++ usage

end Pgn

end CapiNet
