import CapiNet.PgnExchange
import CapiNet.ResultBody
import CapiNet.Outcomes
import CapiNet.ExactSolver
import CapiNet.QueueEffect
import CapiNet.System
import CapiNet.Library.Paired

namespace CapiNet

open Pgn SideBySide

namespace Pgn

/-- A game between the two engines. -/
def Opponents (game : List Char) : Prop :=
  ∃ e : Engine, (tagsOf game).find "White".toList = some e.name ∧
    (tagsOf game).find "Black".toList = some e.other.name

theorem find_exchange (tags : Tags) (name : List Char) :
    Tags.find (tags.map exchangeEntry) name =
      (tags.find name).map fun v => if namesEngine name then exchangeName v else v := by
  induction tags with
  | nil => rfl
  | cons tag tags ih =>
    unfold Tags.find at ih ⊢
    rw [List.map_cons, List.lookup_cons, List.lookup_cons, ih]
    have hkey : (exchangeEntry tag).1 = tag.1 := rfl
    rw [hkey]
    cases hname : name == tag.1 with
    | false => rfl
    | true =>
      rw [beq_iff_eq] at hname
      subst hname
      rfl

theorem exchangeName_name (e : Engine) : exchangeName e.name = e.other.name := by
  cases e <;> rfl

end Pgn

def GameOutcome.mirror : GameOutcome → GameOutcome
  | .candidateWin => .candidateLoss
  | .draw => .draw
  | .candidateLoss => .candidateWin

/-- The game from the other engine's side. -/
def Pgn.ParsedGame.mirror (text : List Char) (p : ParsedGame) : ParsedGame where
  text := text
  candidateIsWhite := !p.candidateIsWhite
  outcome := p.outcome.mirror
  termination := p.termination
  plyCount := p.plyCount
  durationMs := p.durationMs
  candidateUsage := p.baselineUsage
  baselineUsage := p.candidateUsage

section Game

variable {game game' : List Char}

theorem find_kept (h : Exchanged game game') {name : List Char} (hname : namesEngine name = false) :
    (tagsOf game').find name = (tagsOf game).find name := by
  rw [h.tags, find_exchange]
  simp [hname]

theorem color_of_engine {tags : Tags} {e : Engine}
    (hwhite : tags.find "White".toList = some e.name)
    (hblack : tags.find "Black".toList = some e.other.name) :
    candidateColor tags "candidate" = some (decide (e = .candidate)) := by
  unfold candidateColor
  rw [hwhite, hblack, Option.getD_some, Option.getD_some]
  cases e <;> rfl

theorem opponents_exchange (h : Exchanged game game') {e : Engine}
    (hwhite : (tagsOf game).find "White".toList = some e.name)
    (hblack : (tagsOf game).find "Black".toList = some e.other.name) :
    (tagsOf game').find "White".toList = some e.other.name ∧
      (tagsOf game').find "Black".toList = some e.other.other.name := by
  have hw : namesEngine "White".toList = true := by decide
  have hb : namesEngine "Black".toList = true := by decide
  constructor
  · rw [h.tags, find_exchange, hwhite, hw]
    simp [exchangeName_name]
  · rw [h.tags, find_exchange, hblack, hb]
    simp [exchangeName_name]

theorem outcomeOf_mirror (result : Option (List Char)) (isWhite : Bool) :
    outcomeOf result (!isWhite) = (outcomeOf result isWhite).map GameOutcome.mirror := by
  dsimp only [outcomeOf]
  split
  · rfl
  · split
    next => cases isWhite <;> cases decide (result = some "1-0".toList) <;> rfl
    next => rfl

theorem ok_bind_escape {α β : Type} (a : α) (f : α → Except Escape β) : (Except.ok a >>= f) = f a :=
  rfl

/-- The exchanged game is read as the game, from the other side. -/
theorem parseGame_exchange (h : Exchanged game game') (hopp : Opponents game) :
    Pgn.parseGame game' "candidate" =
      Option.map (ParsedGame.mirror game') <$> Pgn.parseGame game "candidate" := by
  obtain ⟨e, hwhite, hblack⟩ := hopp
  obtain ⟨hwhite', hblack'⟩ := opponents_exchange h hwhite hblack
  have hcolor := color_of_engine hwhite hblack
  have hcolor' : candidateColor (tagsOf game') "candidate" = some (!decide (e = .candidate)) := by
    rw [color_of_engine hwhite' hblack']
    cases e <;> rfl
  generalize hw : decide (e = .candidate) = isWhite at hcolor hcolor'
  have hresult : (tagsOf game').find "Result".toList = (tagsOf game).find "Result".toList :=
    find_kept h (by decide)
  have hout' := outcomeOf_mirror ((tagsOf game).find "Result".toList) isWhite
  rw [← hresult] at hout'
  cases hout : outcomeOf ((tagsOf game).find "Result".toList) isWhite with
  | none =>
    rw [hresult, hout, Option.map_none, ← hresult] at hout'
    simp only [Pgn.parseGame, hcolor, hcolor', hout, hout']
    rfl
  | some outcome =>
    rw [hresult, hout, Option.map_some, ← hresult] at hout'
    have hduration : gameDuration (tagsOf game') = gameDuration (tagsOf game) := by
      unfold gameDuration
      rw [find_kept h (by decide)]
    have husage : usageByColor game' (whiteFirst ((tagsOf game').find "FEN".toList)) =
        usageByColor game (whiteFirst ((tagsOf game).find "FEN".toList)) := by
      rw [find_kept h (by decide), h.alike.usageByColor_eq]
    rw [parseGame_recognised hcolor hout, parseGame_recognised hcolor' hout', hduration, husage]
    cases gameDuration (tagsOf game) with
    | error err => rfl
    | ok d =>
      cases usageByColor game (whiteFirst ((tagsOf game).find "FEN".toList)) with
      | error err => rfl
      | ok u =>
        have hread : readGame game' (!isWhite) outcome.mirror d u =
            (readGame game isWhite outcome d u).mirror game' := by
          simp only [readGame, ParsedGame.mirror, Bool.not_not, find_kept h (by decide :
            namesEngine "Termination".toList = false), find_kept h (by decide :
            namesEngine "PlyCount".toList = false)]
        simp only [ok_bind_escape, hread]
        rfl

end Game

/-- A game read in one file and in the other. -/
def ReadMirrored (p p' : Option ParsedGame) : Prop := ∃ text, p' = p.map (ParsedGame.mirror text)

theorem ParsedGame.Sound.mirror {p : ParsedGame} (h : p.Sound) (text : List Char) :
    (p.mirror text).Sound :=
  ⟨h.plyCount, h.durationMs, h.baselineUsage, h.candidateUsage⟩

/-- The two reports of a game agree but for the sides. -/
structure GameMirrored (g g' : GameReport) : Prop where
  place : g'.gameInPair = g.gameInPair
  outcome : g'.outcome = g.outcome.mirror
  termination : g'.termination = g.termination
  plyCount : g'.plyCount = g.plyCount
  durationMs : g'.durationMs = g.durationMs
  tcBase : g'.tcBaseEffectiveMs = g.tcBaseEffectiveMs
  tcIncrement : g'.tcIncrementEffectiveMs = g.tcIncrementEffectiveMs
  candidateNodes : g'.candidateNodes = g.baselineNodes
  candidateTime : g'.candidateTimeMs = g.baselineTimeMs
  baselineNodes : g'.baselineNodes = g.candidateNodes
  baselineTime : g'.baselineTimeMs = g.candidateTimeMs

/-- The colour the runner gives the candidate in a game. -/
def colorOf (i : Nat) (game other : Option ParsedGame) : Bool :=
  match game with
  | some p => p.candidateIsWhite
  | none => crashColor i other

theorem colors_mirrored {p q p' q' : Option ParsedGame} (hp : ReadMirrored p p')
    (hq : ReadMirrored q q') :
    colorOf 0 p' q' = colorOf 1 q' p' ↔ colorOf 0 p q = colorOf 1 q p := by
  obtain ⟨text, rfl⟩ := hp
  obtain ⟨text', rfl⟩ := hq
  cases p with
  | none =>
    cases q with
    | none => rfl
    | some q => simp [colorOf, crashColor, ParsedGame.mirror]
  | some p =>
    cases q with
    | none => simp [colorOf, crashColor, ParsedGame.mirror]
    | some q => simp [colorOf, ParsedGame.mirror]

section Reports

variable {failureNote : String} {slot : SlotInfo} {tc : EffectiveTc} {cpuFactor : Double}

/-- What the route makes of a game and of the exchanged one. -/
theorem parseGame_mirrored {i : Nat} (hi : i < 2) {p q p' q' : Option ParsedGame}
    (hsound : ∀ g, p = some g → g.Sound) (hp : ReadMirrored p p') :
    Paired (fun r r' => GameMirrored r r' ∧ r.candidateIsWhite = colorOf i p q ∧
        r'.candidateIsWhite = colorOf i p' q')
      (parseGame (gameBody failureNote slot tc cpuFactor i p q))
      (parseGame (gameBody failureNote slot tc cpuFactor i p' q')) := by
  obtain ⟨text, rfl⟩ := hp
  cases p with
  | none =>
    rw [Option.map_none, parseGame_missing hi, parseGame_missing hi]
    refine (Paired.refl (fun _ => rfl) (readMachine slot tc cpuFactor)).bind ?_
    rintro m _ rfl
    exact .ok ⟨⟨rfl, rfl, rfl, rfl, rfl, rfl, rfl, rfl, rfl, rfl, rfl⟩, rfl, rfl⟩
  | some g =>
    have hg := hsound g rfl
    rw [Option.map_some, parseGame_played hi hg, parseGame_played hi (ParsedGame.Sound.mirror hg text)]
    refine (Paired.refl (fun _ => rfl) (optInRange "ply_count" 0 g.plyCount)).bind ?_
    rintro plies _ rfl
    refine (Paired.refl (fun _ => rfl) (readMachine slot tc cpuFactor)).bind ?_
    rintro m _ rfl
    exact .ok ⟨⟨rfl, rfl, rfl, rfl, rfl, rfl, rfl, rfl, rfl, rfl, rfl⟩, rfl, rfl⟩

/-- The games of a file and of the exchanged file, as they are read. -/
theorem parsedGames_mirrored {pgn : String}
    (hopp : ∀ game ∈ splitPgnGames pgn.toList, Opponents game) :
    Paired (List.Forall₂ ReadMirrored) (parsedGames pgn)
      (parsedGames (String.ofList (exchangeEngines pgn.toList))) := by
  unfold parsedGames
  rw [String.toList_ofList]
  have hgames := List.forall₂_take 2 (split_exchangeEngines pgn.toList)
  refine Paired.mapM hgames ?_
  intro game game' hgame hex
  rw [parseGame_exchange hex (hopp game (List.mem_of_mem_take hgame))]
  cases Pgn.parseGame game "candidate" with
  | error e => exact .error e
  | ok p => exact .ok ⟨game', rfl⟩

end Reports

/-- The report of one run and of the other: the same verdicts, every game from the other side. -/
structure ReportMirrored (r r' : PairReport) : Prop where
  client : r'.clientId = r.clientId
  verdict : ∀ i, checkPair r' i = checkPair r i
  outcome : ∀ i, (r'.games i).outcome = (r.games i).outcome.mirror
  candidateUsage : ∀ i, (r'.games i).candidateNodes = (r.games i).baselineNodes ∧
    (r'.games i).candidateTimeMs = (r.games i).baselineTimeMs
  baselineUsage : ∀ i, (r'.games i).baselineNodes = (r.games i).candidateNodes ∧
    (r'.games i).baselineTimeMs = (r.games i).candidateTimeMs

theorem checkGame_mirrored {g g' : GameReport} (h : GameMirrored g g') : checkGame g' = checkGame g := by
  unfold checkGame
  rw [h.termination, h.plyCount, h.durationMs, h.tcBase, h.tcIncrement]

theorem reportMirrored_of_games {r r' : PairReport} (hclient : r'.clientId = r.clientId)
    (hgames : ∀ i, GameMirrored (r.games i) (r'.games i))
    (hcolors : (r'.games 0).candidateIsWhite = (r'.games 1).candidateIsWhite ↔
      (r.games 0).candidateIsWhite = (r.games 1).candidateIsWhite) : ReportMirrored r r' where
  client := hclient
  verdict i := by
    unfold checkPair
    rw [checkGame_mirrored (hgames i)]
    simp only [hcolors]
  outcome i := (hgames i).outcome
  candidateUsage i := ⟨(hgames i).candidateNodes, (hgames i).candidateTime⟩
  baselineUsage i := ⟨(hgames i).baselineNodes, (hgames i).baselineTime⟩

theorem placeGames_mirrored {clientId : Int} {a a' b b' : GameReport} (ha : GameMirrored a a')
    (hb : GameMirrored b b') (hcolors : a'.candidateIsWhite = b'.candidateIsWhite ↔
      a.candidateIsWhite = b.candidateIsWhite) :
    Paired (fun r r' => ReportMirrored r.toPairReport r'.toPairReport)
      (placeGames clientId a b) (placeGames clientId a' b') := by
  have hplace : (a'.gameInPair = 0 ∧ b'.gameInPair = 1) ↔ (a.gameInPair = 0 ∧ b.gameInPair = 1) := by
    rw [ha.place, hb.place]
  have hplace' : (b'.gameInPair = 0 ∧ a'.gameInPair = 1) ↔ (b.gameInPair = 0 ∧ a.gameInPair = 1) := by
    rw [ha.place, hb.place]
  unfold placeGames
  by_cases hab : a.gameInPair = 0 ∧ b.gameInPair = 1
  · rw [dif_pos hab, dif_pos (hplace.mpr hab)]
    refine .ok (reportMirrored_of_games rfl (fun i => ?_) hcolors)
    by_cases hi : i.val = 0
    · simpa only [hi, if_true] using ha
    · simpa only [hi, if_false] using hb
  · rw [dif_neg hab, dif_neg (mt hplace.mp hab)]
    by_cases hba : b.gameInPair = 0 ∧ a.gameInPair = 1
    · rw [dif_pos hba, dif_pos (hplace'.mpr hba)]
      refine .ok (reportMirrored_of_games rfl (fun i => ?_) ?_)
      · by_cases hi : i.val = 0
        · simpa only [hi, if_true] using hb
        · simpa only [hi, if_false] using ha
      · exact ⟨fun h => (hcolors.mp h.symm).symm, fun h => (hcolors.mpr h.symm).symm⟩
    · rw [dif_neg hba, dif_neg (mt hplace'.mp hba)]
      exact .error _

/-- What a slot sends for a pair. -/
structure Send where
  pair : PairRow
  clientId : Int
  pgn : String
  failureNote : String
  slot : SlotInfo
  tc : EffectiveTc
  cpuFactor : Double

namespace Send

/-- The report of a file, or how it is lost: in the runner, or in the route. -/
def report (s : Send) : Except (Escape ⊕ String) RoutedReport := do
  let body ← (makeResultBody s.clientId s.pgn s.failureNote s.slot s.tc s.cpuFactor).mapError .inl
  (resultReport body).mapError .inr

/-- The same with the engines exchanged in the file. -/
def exchange (s : Send) : Send := { s with pgn := String.ofList (exchangeEngines s.pgn.toList) }

/-- The candidate plays the baseline in every game of the file. -/
def Opposed (s : Send) : Prop := ∀ game ∈ splitPgnGames s.pgn.toList, Opponents game

end Send

theorem gameAt_mirrored {ps qs : List (Option ParsedGame)} (h : List.Forall₂ ReadMirrored ps qs)
    (i : Nat) : ReadMirrored (gameAt ps i) (gameAt qs i) := by
  unfold gameAt
  rcases forall₂_places h i with ⟨hp, hq⟩ | ⟨p, q, hp, hq, hpq⟩
  · rw [hp, hq]
    exact ⟨[], rfl⟩
  · rw [hp, hq]
    exact hpq

theorem gameAt_sound' {pgn : String} {parsed : List (Option ParsedGame)}
    (hparsed : parsedGames pgn = .ok parsed) (i : Nat) (p : ParsedGame)
    (hp : gameAt parsed i = some p) : p.Sound := by
  unfold gameAt at hp
  rcases forall₂_places (mapM_ok_iff.mp hparsed) i with ⟨-, hy⟩ | ⟨game, q, -, hy, hgame⟩
  · rw [hy] at hp
    cases hp
  · rw [hy] at hp
    have hq : q = some p := hp
    subst hq
    exact (parseGame_some hgame).2.1

/-- A pair sent with the engines exchanged is reported from the other side, or lost the same
way. -/
theorem report_mirrored {s : Send} (h : s.Opposed) :
    Paired (fun r r' => ReportMirrored r.toPairReport r'.toPairReport) s.report s.exchange.report := by
  have hread := parsedGames_mirrored h
  unfold Send.report
  rw [makeResultBody_eq, makeResultBody_eq]
  generalize hx : parsedGames s.pgn = x at hread
  generalize hy : parsedGames (String.ofList (exchangeEngines s.pgn.toList)) = y at hread
  have hy' : parsedGames s.exchange.pgn = y := hy
  rw [hy']
  cases hread with
  | error e => exact .error (Sum.inl e)
  | @ok ps qs hpq =>
    refine Paired.mapError ?_ Sum.inr
    have hsound := gameAt_sound' hx
    have hcolors := colors_mirrored (gameAt_mirrored hpq 0) (gameAt_mirrored hpq 1)
    unfold bodyOf
    rw [resultReport_body, resultReport_body]
    refine (parseGame_mirrored (by omega) (hsound 0) (gameAt_mirrored hpq 0)).bind ?_
    rintro a a' ⟨ha, hca, hca'⟩
    refine (parseGame_mirrored (by omega) (hsound 1) (gameAt_mirrored hpq 1)).bind ?_
    rintro b b' ⟨hb, hcb, hcb'⟩
    refine placeGames_mirrored ha hb ?_
    rw [hca, hca', hcb, hcb']
    exact hcolors

variable {F : Type}

namespace Db

/-- A pair that arrived is completed, with its two games. -/
def receive (E : Env F) (now : ℚ) (db : Db F) (s : Send) : Db F :=
  match s.report with
  | .ok r => db.deliver E now s.pair r.toPairReport
  | .error _ => db

def receiveAll (E : Env F) (now : ℚ) (db : Db F) (sends : List Send) : Db F :=
  sends.foldl (receive E now) db

end Db

/-- A row of `games` and the one of the exchanged game. -/
structure RowMirrored (g g' : GameRow) : Prop where
  pairId : g'.pairId = g.pairId
  testId : g'.testId = g.testId
  clientId : g'.clientId = g.clientId
  valid : g'.valid = g.valid
  outcome : g'.outcome = g.outcome.mirror

/-- Two databases with the same pairs, and every game from the other side. -/
structure DbMirrored (db db' : Db F) : Prop where
  jobPairs : db'.jobPairs = db.jobPairs
  games : List.Forall₂ RowMirrored db.games db'.games

theorem gameRow_mirrored (E : Env F) (pairId testId : Int) {r r' : PairReport}
    (h : ReportMirrored r r') (i : Fin 2) :
    RowMirrored (gameRow E pairId testId r i) (gameRow E pairId testId r' i) where
  pairId := rfl
  testId := rfl
  clientId := h.client
  valid := congrArg GameVerdict.valid (h.verdict i)
  outcome := h.outcome i

theorem deliver_mirrored (E : Env F) (now : ℚ) {db db' : Db F} (h : DbMirrored db db')
    (p : PairRow) {r r' : PairReport} (hr : ReportMirrored r r') :
    DbMirrored (db.deliver E now p r) (db'.deliver E now p r') where
  jobPairs := by
    have hpairs : ∀ (d : Db F) (q : PairReport), (d.deliver E now p q).jobPairs =
        d.jobPairs.modify (·.id == p.id) (.complete now) (PairRow.complete_id now) := fun _ _ => rfl
    rw [hpairs, hpairs, h.jobPairs]
  games := by
    rw [Db.games_deliver, Db.games_deliver]
    exact List.rel_append h.games
      (.cons (gameRow_mirrored E _ _ hr 0) (.cons (gameRow_mirrored E _ _ hr 1) .nil))

theorem receiveAll_mirrored (E : Env F) (now : ℚ) {sends : List Send}
    (hopp : ∀ s ∈ sends, s.Opposed) {db db' : Db F} (h : DbMirrored db db') :
    DbMirrored (db.receiveAll E now sends) (db'.receiveAll E now (sends.map Send.exchange)) := by
  induction sends generalizing db db' with
  | nil => exact h
  | cons s sends ih =>
    refine ih (fun t ht => hopp t (by simp [ht])) ?_
    have hreport := report_mirrored (hopp s (by simp))
    unfold Db.receive
    generalize s.report = x at hreport
    generalize s.exchange.report = y at hreport
    cases hreport with
    | error e => exact h
    | ok hr => exact deliver_mirrored E now h s.pair hr

def PairOutcome.mirror (o : PairOutcome) : PairOutcome := { o with pairScore := 2 - o.pairScore }

theorem GameOutcome.score_mirror (o : GameOutcome) : o.mirror.score = 1 - o.score := by
  cases o <;> norm_num [GameOutcome.mirror, GameOutcome.score]

theorem map_clientId_mirrored {gs gs' : List GameRow} (h : List.Forall₂ RowMirrored gs gs') :
    gs'.map (·.clientId) = gs.map (·.clientId) := by
  induction h with
  | nil => rfl
  | cons hg _ ih => rw [List.map_cons, List.map_cons, ih, hg.clientId]

/-- A selection by columns the exchange leaves alone. -/
theorem filter_mirrored {gs gs' : List GameRow} (h : List.Forall₂ RowMirrored gs gs')
    {p p' : GameRow → Bool} (hp : ∀ g g', RowMirrored g g' → p' g' = p g) :
    List.Forall₂ RowMirrored (gs.filter p) (gs'.filter p') := by
  induction h with
  | nil => exact .nil
  | cons hg _ ih =>
    rw [List.filter_cons, List.filter_cons, hp _ _ hg]
    split
    · exact .cons hg ih
    · exact ih

theorem sum_scores_mirrored {gs gs' : List GameRow} (h : List.Forall₂ RowMirrored gs gs') :
    (gs'.map (·.outcome.score)).sum = gs.length - (gs.map (·.outcome.score)).sum := by
  induction h with
  | nil => simp
  | cons hg _ ih =>
    simp only [List.map_cons, List.sum_cons, List.length_cons]
    rw [ih, hg.outcome, GameOutcome.score_mirror]
    push_cast
    ring

theorem outcomesOf_mirrored (p : PairRow) {gs gs' : List GameRow}
    (h : List.Forall₂ RowMirrored gs gs') :
    outcomesOf p gs' = (outcomesOf p gs).map PairOutcome.mirror := by
  unfold outcomesOf
  rw [map_clientId_mirrored h, List.map_filterMap]
  refine List.filterMap_congr fun c _ => ?_
  have hmine : List.Forall₂ RowMirrored (gs.filter (·.clientId == c)) (gs'.filter (·.clientId == c)) :=
    filter_mirrored h fun g g' hg => by rw [hg.clientId]
  dsimp only
  rw [← hmine.length_eq]
  split
  next htwo =>
    rw [sum_scores_mirrored hmine, htwo]
    rfl
  next => rfl

theorem pairOutcomes_mirrored {db db' : Db F} (h : DbMirrored db db') :
    db'.pairOutcomes = db.pairOutcomes.map PairOutcome.mirror := by
  unfold Db.pairOutcomes
  rw [h.jobPairs, List.map_flatMap]
  refine List.flatMap_congr fun p _ => ?_
  refine outcomesOf_mirrored p (filter_mirrored (filter_mirrored h.games ?_) ?_)
  · intro g g' hg
    rw [hg.pairId]
  · intro g g' hg
    exact hg.valid

theorem scores_mirrored {db db' : Db F} (h : DbMirrored db db') (testId : Int) :
    db'.scores testId = (db.scores testId).map (2 - ·) := by
  unfold Db.scores
  rw [pairOutcomes_mirrored h, List.filter_map, List.map_map, List.map_map]
  rfl

/-- The distribution of the mirrored database is the mirrored distribution. -/
theorem tally_mirrored {db db' : Db F} (h : DbMirrored db db') (testId : Int) :
    ∃ penta, tally (db.countScores testId) = .ok penta ∧
      tally (db'.countScores testId) = .ok penta.mirror := by
  refine ⟨_, Db.tally_countScores db testId, ?_⟩
  rw [Db.tally_countScores, scores_mirrored h]
  unfold Pentanomial.mirror CapiNet.mirror
  congr 2
  funext i
  have hrev : scoreAt i = 2 - scoreAt i.rev := by
    fin_cases i <;> norm_num [scoreAt, Fin.rev]
  have hinj : Function.Injective fun s : ℚ => 2 - s := fun a b hab => sub_right_injective hab
  rw [hrev]
  exact List.count_map_of_injective _ _ hinj _

theorem sum_joined_mirrored {gs gs' : List GameRow} (h : List.Forall₂ RowMirrored gs gs')
    (os : List PairOutcome) :
    (gs'.map fun g => (os.map PairOutcome.mirror).countP (·.pairId == g.pairId)).sum =
      (gs.map fun g => os.countP (·.pairId == g.pairId)).sum := by
  induction h with
  | nil => rfl
  | cons hg _ ih =>
    rw [List.map_cons, List.map_cons, List.sum_cons, List.sum_cons, ih, hg.pairId, List.countP_map]
    rfl

/-- The games of an outcome are the other engine's games of the mirrored one. -/
theorem countGames_mirrored {db db' : Db F} (h : DbMirrored db db') (testId : Int)
    (outcome : GameOutcome) :
    db'.countGames testId outcome.mirror = db.countGames testId outcome := by
  have hrows : List.Forall₂ RowMirrored
      (db.games.filter fun g => g.testId == testId && g.valid && g.outcome == outcome)
      (db'.games.filter fun g => g.testId == testId && g.valid && g.outcome == outcome.mirror) := by
    refine filter_mirrored h.games fun g g' hg => ?_
    have hout : (g'.outcome == outcome.mirror) = (g.outcome == outcome) := by
      rw [hg.outcome]
      cases g.outcome <;> cases outcome <;> rfl
    rw [hg.testId, hg.valid, hout]
  unfold Db.countGames
  rw [pairOutcomes_mirrored h]
  exact sum_joined_mirrored hrows db.pairOutcomes

/-- Exchanging the engines in every file mirrors all results: what is sent is judged the same, with
nodes and times exchanged, the distribution of the pairs is read backwards, and wins and losses
change places. -/
theorem engines_exchanged (E : Env F) (now : ℚ) (db : Db F) (hgames : db.games = [])
    (sends : List Send) (hopp : ∀ s ∈ sends, s.Opposed) :
    (∀ s ∈ sends, Paired (fun r r' => ReportMirrored r.toPairReport r'.toPairReport)
      s.report s.exchange.report) ∧
    ∀ testId, ∃ penta,
      tally ((db.receiveAll E now sends).countScores testId) = .ok penta ∧
      tally ((db.receiveAll E now (sends.map Send.exchange)).countScores testId) = .ok penta.mirror ∧
      (db.receiveAll E now (sends.map Send.exchange)).countGames testId .candidateWin =
        (db.receiveAll E now sends).countGames testId .candidateLoss ∧
      (db.receiveAll E now (sends.map Send.exchange)).countGames testId .draw =
        (db.receiveAll E now sends).countGames testId .draw ∧
      (db.receiveAll E now (sends.map Send.exchange)).countGames testId .candidateLoss =
        (db.receiveAll E now sends).countGames testId .candidateWin := by
  have hstart : DbMirrored db db := ⟨rfl, by rw [hgames]; exact .nil⟩
  have hend := receiveAll_mirrored E now hopp hstart
  refine ⟨fun s hs => report_mirrored (hopp s hs), fun testId => ?_⟩
  obtain ⟨penta, hpenta, hpenta'⟩ := tally_mirrored hend testId
  exact ⟨penta, hpenta, hpenta', countGames_mirrored hend testId .candidateLoss,
    countGames_mirrored hend testId .draw, countGames_mirrored hend testId .candidateWin⟩

/-- A pair in play. -/
def wonPair : PairRow :=
  { id := 1, testId := 1, positionId := 1, status := .leased, dispatchOrder := 0, leasedTo := some 1
    leasedAt := some 0, leaseExpiresAt := some 60, attempts := 1, completedAt := none
    discardedReason := none }

/-- Its file: the candidate wins with either colour. -/
def wonSend : Send where
  pair := wonPair
  clientId := 1
  pgn :=
    "[Event \"e\"]\n[White \"candidate\"]\n[Black \"baseline\"]\n[Result \"1-0\"]\n" ++
    "[PlyCount \"2\"]\n[GameDuration \"00:00:02\"]\n\n1. e4 \x7b0.1 1.5s, n=12\x7d e5 1-0\n\n" ++
    "[Event \"e\"]\n[White \"baseline\"]\n[Black \"candidate\"]\n[Result \"0-1\"]\n" ++
    "[PlyCount \"2\"]\n[GameDuration \"00:00:02\"]\n\n1. e4 e5 0-1\n"
  failureNote := ""
  slot := ⟨0, none⟩
  tc := ⟨1000, 10⟩
  cpuFactor := .ofInt 1

def wonDb : Db ℝ :=
  { (Db.empty : Db ℝ) with
    jobPairs := Relational.Table.empty.insert (fun i => { wonPair with id := i }) fun _ => rfl }

theorem engines_exchanged_won :
    (wonDb.receiveAll realEnv 1 [wonSend]).scores 1 = [2] ∧
      ∃ penta, tally ((wonDb.receiveAll realEnv 1 [wonSend]).countScores 1) = .ok penta ∧
        tally ((wonDb.receiveAll realEnv 1 [wonSend.exchange]).countScores 1) = .ok penta.mirror ∧
        (wonDb.receiveAll realEnv 1 [wonSend.exchange]).countGames 1 .candidateLoss =
          (wonDb.receiveAll realEnv 1 [wonSend]).countGames 1 .candidateWin := by
  have hopp : ∀ s ∈ [wonSend], s.Opposed := by
    intro s hs game hgame
    rw [List.mem_singleton.mp hs] at hgame
    have hnamed : (splitPgnGames wonSend.pgn.toList).all (fun game =>
        ((tagsOf game).find "White".toList, (tagsOf game).find "Black".toList) ∈
          [(some Engine.candidate.name, some Engine.baseline.name),
            (some Engine.baseline.name, some Engine.candidate.name)]) = true := by decide +kernel
    have htags := List.all_eq_true.mp hnamed game hgame
    simp only [decide_eq_true_eq, List.mem_cons, Prod.mk.injEq, List.not_mem_nil, or_false] at htags
    rcases htags with htags | htags
    · exact ⟨.candidate, htags⟩
    · exact ⟨.baseline, htags⟩
  obtain ⟨-, hview⟩ := engines_exchanged realEnv 1 wonDb rfl [wonSend] hopp
  obtain ⟨penta, hpenta, hpenta', -, -, hloss⟩ := hview 1
  exact ⟨by decide +kernel, penta, hpenta, hpenta', hloss⟩

end CapiNet
