import CapiNet.ResultBody

namespace CapiNet

open Pgn

/-- The number of plies of a game is not written as a negative one. -/
def PlyFits (game : List Char) : Prop :=
  ∀ n, ((tagsOf game).find "PlyCount".toList).bind stoi = some n → 0 ≤ n

/-- The numbers of the first two games, where the candidate played them to a result. -/
def NumbersFit (pgn : String) : Prop :=
  ∀ game ∈ (splitPgnGames pgn.toList).take 2, Recognised game "candidate" →
    GameFits game ∧ PlyFits game

/-- No text of the first two games that is tried with a regular expression uses up the stack. -/
def StackFits (stack : StackUse) (pgn : String) : Prop :=
  ∀ game ∈ (splitPgnGames pgn.toList).take 2, ∀ c ∈ regexCalls game "candidate",
    stack c.1 c.2 = false

/-- A file without a game in a place, or with one that cannot be read. -/
def Missing (pgn : String) (i : Nat) : Prop :=
  ∀ game, (splitPgnGames pgn.toList)[i]? = some game → Pgn.parseGame game "candidate" = .ok none

/-- A record of a crash, with the candidate on the other side of the board. -/
def CrashOpposite (g other : Json) : Prop :=
  g.find "termination" = some (.str "crash") ∧ ∃ isWhite : Bool,
    other.find "candidate_is_white" = some (.bool isWhite) ∧
      g.find "candidate_is_white" = some (.bool !isWhite)

/-- The runner gets to a body with two games, and the route makes a report of it with each game in
its place. -/
def Delivered (stack : StackUse) (clientId : Int) (pgn failureNote : String) (slot : SlotInfo)
    (tc : EffectiveTc) (cpuFactor : Double) : Prop :=
  ∃ body a b report,
    makeResultBodyOn stack clientId pgn failureNote slot tc cpuFactor = .ok body ∧
    body.find "games" = some (.arr [a, b]) ∧
    (Missing pgn 0 → CrashOpposite a b) ∧ (Missing pgn 1 → CrashOpposite b a) ∧
    resultReport body = .ok report ∧ ∀ i, (report.games i).gameInPair = i.val

/-- What a slot says of itself, in the range of its types. -/
structure SlotSettings (clientId : Int) (slot : SlotInfo) (tc : EffectiveTc) (cpuFactor : Double) :
    Prop where
  clientId_range : -2 ^ 63 ≤ clientId ∧ clientId < 2 ^ 63
  index_range : 0 ≤ slot.index ∧ slot.index ≤ Json.int32Max
  core_range : ∀ c, slot.core = some c → 0 ≤ c ∧ c ≤ Json.int32Max
  base_range : 0 ≤ tc.baseMs ∧ tc.baseMs ≤ Json.int32Max
  increment_range : 0 ≤ tc.incrementMs ∧ tc.incrementMs ≤ Json.int32Max
  cpuFactor_pos : 0 < cpuFactor.val

section Settings

variable {stack : StackUse} {clientId : Int} {pgn failureNote : String} {slot : SlotInfo}
  {tc : EffectiveTc} {cpuFactor : Double}

theorem makeResultBodyOn_ok_iff {body : Json} :
    makeResultBodyOn stack clientId pgn failureNote slot tc cpuFactor = .ok body ↔
      StackFits stack pgn ∧ makeResultBody clientId pgn failureNote slot tc cpuFactor = .ok body := by
  unfold makeResultBodyOn StackFits
  split
  next hused =>
    refine ⟨fun h => (by cases h), fun ⟨hfits, _⟩ => ?_⟩
    obtain ⟨game, hgame, hcalls⟩ := List.any_eq_true.mp hused
    obtain ⟨c, hc, hover⟩ := List.any_eq_true.mp hcalls
    rw [hfits game hgame c hc] at hover
    cases hover
  next hused =>
    refine ⟨fun h => ⟨fun game hgame c hc => ?_, h⟩, fun ⟨_, h⟩ => h⟩
    rw [← Bool.not_eq_true]
    exact fun hover => hused (List.any_eq_true.mpr ⟨game, hgame, List.any_eq_true.mpr ⟨c, hc, hover⟩⟩)

theorem readMachine_ok (h : SlotSettings clientId slot tc cpuFactor) :
    readMachine slot tc cpuFactor =
      .ok ⟨cpuFactor, tc.baseMs, tc.incrementMs, slot.index, slot.core⟩ := by
  unfold readMachine
  rw [if_neg (not_not.mpr h.cpuFactor_pos), inRange_ok h.base_range.1 h.base_range.2 le_rfl,
    inRange_ok h.increment_range.1 h.increment_range.2 le_rfl,
    inRange_ok h.index_range.1 h.index_range.2 le_rfl, optInRange_ok h.core_range]
  rfl

/-- Place by place, what the parser made of the file. -/
theorem gameAt_spec {parsed : List (Option ParsedGame)} (hparsed : parsedGames pgn = .ok parsed)
    {i : Nat} (hi : i < 2) :
    ((splitPgnGames pgn.toList)[i]? = none ∧ gameAt parsed i = none) ∨
      ∃ game, (splitPgnGames pgn.toList)[i]? = some game ∧
        Pgn.parseGame game "candidate" = .ok (gameAt parsed i) := by
  have htake : ((splitPgnGames pgn.toList).take 2)[i]? = (splitPgnGames pgn.toList)[i]? :=
    List.getElem?_take_of_lt hi
  unfold gameAt
  rcases forall₂_places (mapM_ok_iff.mp hparsed) i with ⟨hx, hy⟩ | ⟨game, p, hx, hy, hgame⟩
  · exact .inl ⟨htake ▸ hx, by rw [hy]; rfl⟩
  · exact .inr ⟨game, htake ▸ hx, by rw [hy]; exact hgame⟩

/-- The report the route makes of a record. -/
theorem parseGame_body (h : SlotSettings clientId slot tc cpuFactor) {i : Nat} (hi : i < 2)
    {game other : Option ParsedGame}
    (hsound : ∀ p, game = some p → p.Sound ∧ ∀ n, p.plyCount = some n → 0 ≤ n) :
    ∃ r, parseGame (gameBody failureNote slot tc cpuFactor i game other) = .ok r ∧
      r.gameInPair = i := by
  cases game with
  | none =>
    rw [parseGame_missing hi, readMachine_ok h]
    exact ⟨_, rfl, rfl⟩
  | some p =>
    obtain ⟨hp, hply⟩ := hsound p rfl
    have hrange : ∀ n, p.plyCount = some n → 0 ≤ n ∧ n ≤ Json.int32Max :=
      fun n hn => ⟨hply n hn, (hp.plyCount n hn).2⟩
    rw [parseGame_played hi hp, optInRange_ok hrange, readMachine_ok h]
    exact ⟨_, rfl, rfl⟩

theorem placeGames_ok {a b : GameReport} (ha : a.gameInPair = 0) (hb : b.gameInPair = 1) :
    ∃ report, placeGames clientId a b = .ok report := by
  unfold placeGames
  rw [dif_pos ⟨ha, hb⟩]
  exact ⟨_, rfl⟩

/-- A record made up for a missing game. -/
theorem crash_opposite (i : Nat) (hi : i < 2) {other : Option ParsedGame} :
    CrashOpposite (gameBody failureNote slot tc cpuFactor i none other)
      (gameBody failureNote slot tc cpuFactor (1 - i) other none) := by
  refine ⟨rfl, ?_⟩
  cases other with
  | some p => exact ⟨p.candidateIsWhite, rfl, rfl⟩
  | none =>
    refine ⟨crashColor (1 - i) none, rfl, ?_⟩
    have hswap : crashColor i none = !crashColor (1 - i) none := by
      have hcases : i = 0 ∨ i = 1 := by omega
      rcases hcases with rfl | rfl
      · rfl
      · rfl
    rw [← hswap]
    rfl

theorem gameAt_missing {parsed : List (Option ParsedGame)} (hparsed : parsedGames pgn = .ok parsed)
    {i : Nat} (hi : i < 2) (h : Missing pgn i) : gameAt parsed i = none := by
  rcases gameAt_spec hparsed hi with ⟨-, hnone⟩ | ⟨game, hgame, hread⟩
  · exact hnone
  · rw [h game hgame] at hread
    exact (Except.ok.inj hread).symm

theorem mem_firstTwo {i : Nat} (hi : i < 2) {game : List Char}
    (h : (splitPgnGames pgn.toList)[i]? = some game) :
    game ∈ (splitPgnGames pgn.toList).take 2 :=
  List.mem_of_getElem? ((List.getElem?_take_of_lt hi).trans h)

theorem gameAt_sound (hfit : NumbersFit pgn) {parsed : List (Option ParsedGame)}
    (hparsed : parsedGames pgn = .ok parsed) {i : Nat} (hi : i < 2) (p : ParsedGame)
    (hp : gameAt parsed i = some p) : p.Sound ∧ ∀ n, p.plyCount = some n → 0 ≤ n := by
  rcases gameAt_spec hparsed hi with ⟨-, hnone⟩ | ⟨game, hgame, hparse⟩
  · rw [hnone] at hp
    cases hp
  · rw [hp] at hparse
    obtain ⟨hrec, hs, hply⟩ := parseGame_some hparse
    exact ⟨hs, hply ▸ (hfit game (mem_firstTwo hi hgame) hrec).2⟩

theorem delivered_of_fit (h : SlotSettings clientId slot tc cpuFactor) (hfit : NumbersFit pgn)
    (hstack : StackFits stack pgn) : Delivered stack clientId pgn failureNote slot tc cpuFactor := by
  obtain ⟨parsed, hparsed⟩ : ∃ parsed, parsedGames pgn = .ok parsed :=
    mapM_exists fun game hgame => parseGame_ok_iff.mpr fun hrec => (hfit game hgame hrec).1
  obtain ⟨a, ha, haplace⟩ : ∃ a, parseGame (gameBody failureNote slot tc cpuFactor 0
      (gameAt parsed 0) (gameAt parsed 1)) = .ok a ∧ a.gameInPair = (0 : Nat) :=
    parseGame_body h (by omega) (gameAt_sound hfit hparsed (by omega))
  obtain ⟨b, hb, hbplace⟩ : ∃ b, parseGame (gameBody failureNote slot tc cpuFactor 1
      (gameAt parsed 1) (gameAt parsed 0)) = .ok b ∧ b.gameInPair = (1 : Nat) :=
    parseGame_body h (by omega) (gameAt_sound hfit hparsed (by omega))
  obtain ⟨report, hreport⟩ : ∃ report, placeGames (Json.toInt64 clientId) a b = .ok report :=
    placeGames_ok haplace hbplace
  refine ⟨bodyOf clientId failureNote slot tc cpuFactor parsed, _, _, report,
    makeResultBodyOn_ok_iff.mpr ⟨hstack, bind_eq_ok.mpr ⟨parsed, hparsed, rfl⟩⟩, rfl, ?_, ?_, ?_,
    report.routed⟩
  · intro hmissing
    rw [gameAt_missing hparsed (by omega) hmissing]
    exact crash_opposite 0 (by omega)
  · intro hmissing
    rw [gameAt_missing hparsed (by omega) hmissing]
    exact crash_opposite 1 (by omega)
  · rw [bodyOf, resultReport_body]
    exact bind_eq_ok.mpr ⟨a, ha, bind_eq_ok.mpr ⟨b, hb, hreport⟩⟩

theorem report_of_fit {body : Json} (h : SlotSettings clientId slot tc cpuFactor)
    (hfit : NumbersFit pgn)
    (hbody : makeResultBody clientId pgn failureNote slot tc cpuFactor = .ok body) :
    ∃ report, resultReport body = .ok report := by
  have hroomy : StackFits (fun _ _ => false) pgn := fun _ _ _ _ => rfl
  obtain ⟨body', -, -, report, hmade, -, -, -, hreport, -⟩ : Delivered (fun _ _ => false) clientId
    pgn failureNote slot tc cpuFactor := delivered_of_fit h hfit hroomy
  cases hbody.symm.trans (makeResultBodyOn_ok_iff.mp hmade).2
  exact ⟨report, hreport⟩

end Settings

end CapiNet
