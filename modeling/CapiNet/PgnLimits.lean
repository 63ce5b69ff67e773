import CapiNet.Pgn
import CapiNet.LeaseLength

namespace CapiNet

namespace Pgn

/-- The milliseconds of a report, as the doubles have them. -/
def MoveReport.ms (r : MoveReport) : Int :=
  roundAway (Double.nearest ((Double.nearest (decimal r.whole r.frac)).val * 1000)).val

/-- The numbers of a report can be read: neither the nodes nor the time too large, and the time not
too close to zero. -/
structure MoveReport.Readable (r : MoveReport) : Prop where
  nodes : digitsValue r.nodes < 2 ^ 63
  large : decimal r.whole r.frac < doubleOverflow
  small : 0 < decimal r.whole r.frac → decimal r.whole r.frac < tinyBound →
    (Double.nearest (decimal r.whole r.frac)).val = decimal r.whole r.frac
  rounded : r.ms < 2 ^ 63

theorem MoveReport.ms_nonneg (r : MoveReport) : 0 ≤ r.ms := by
  have hseconds := Double.nearest_nonneg (decimal_nonneg r.whole r.frac)
  exact roundAway_nonneg (Double.nearest_nonneg (by positivity))

theorem int64_ok_iff {n m : Int} (h : 0 ≤ n) : int64 n = .ok m ↔ m = n ∧ n < 2 ^ 63 := by
  unfold int64
  split
  next hin =>
    constructor
    · intro he
      cases he
      exact ⟨rfl, hin.2⟩
    · rintro ⟨rfl, -⟩
      rfl
  next hout =>
    constructor
    · intro he
      cases he
    · rintro ⟨-, hlt⟩
      omega

theorem stoll_ok_iff {digits : List Char} {n : Int} :
    stoll digits = .ok n ↔ n = digitsValue digits ∧ digitsValue digits < 2 ^ 63 := by
  unfold stoll
  split
  next h =>
    constructor
    · intro he
      cases he
      exact ⟨rfl, h⟩
    · rintro ⟨rfl, -⟩
      rfl
  next h =>
    constructor
    · intro he
      cases he
    · rintro ⟨-, hlt⟩
      exact absurd hlt h

theorem stod_ok_iff {q : ℚ} {d : Double} :
    stod q = .ok d ↔ d = .nearest q ∧ q < doubleOverflow ∧
      (0 < q → q < tinyBound → (Double.nearest q).val = q) := by
  unfold stod
  split
  next hlarge =>
    constructor
    · intro he
      cases he
    · rintro ⟨-, hlt, -⟩
      exact absurd hlt (not_lt.mpr hlarge)
  next hlarge =>
    split
    next hsmall =>
      constructor
      · intro he
        cases he
      · rintro ⟨-, -, hexact⟩
        exact absurd (hexact hsmall.1 hsmall.2.1) hsmall.2.2
    next hsmall =>
      constructor
      · intro he
        cases he
        refine ⟨rfl, not_le.mp hlarge, fun hpos hlt => ?_⟩
        by_contra hne
        exact hsmall ⟨hpos, hlt, hne⟩
      · rintro ⟨rfl, -⟩
        rfl

theorem secondsToMs_ok_iff {d : Double} {ms : Int} :
    secondsToMs d = .ok ms ↔ ms = roundAway (Double.nearest (d.val * 1000)).val ∧
      roundAway (Double.nearest (d.val * 1000)).val < 2 ^ 63 := by
  dsimp only [secondsToMs]
  split
  next h =>
    constructor
    · intro he
      cases he
      exact ⟨rfl, h⟩
    · rintro ⟨rfl, -⟩
      rfl
  next h =>
    constructor
    · intro he
      cases he
    · rintro ⟨-, hlt⟩
      exact absurd hlt h

/-- Sums a 64-bit integer holds. -/
structure EngineUsage.Fits (u : EngineUsage) : Prop where
  nodes_nonneg : 0 ≤ u.nodes
  nodes_lt : u.nodes < 2 ^ 63
  time_nonneg : 0 ≤ u.timeMs
  time_lt : u.timeMs < 2 ^ 63

/-- What a side has so far. -/
def soFar (u : Option EngineUsage) : EngineUsage := u.getD ⟨0, 0⟩

theorem soFar_fits {u : Option EngineUsage} (h : ∀ v, u = some v → v.Fits) : (soFar u).Fits := by
  cases u with
  | none => exact ⟨by decide, by decide, by decide, by decide⟩
  | some v => exact h v rfl

theorem count_ok_iff {u : Option EngineUsage} {r : MoveReport} {v : EngineUsage}
    (h : (soFar u).Fits) :
    EngineUsage.count u r = .ok v ↔
      v = ⟨(soFar u).nodes + digitsValue r.nodes, (soFar u).timeMs + r.ms⟩ ∧ r.Readable ∧
        (soFar u).nodes + digitsValue r.nodes < 2 ^ 63 ∧ (soFar u).timeMs + r.ms < 2 ^ 63 := by
  have hms := r.ms_nonneg
  have hnodes := h.nodes_nonneg
  have htime := h.time_nonneg
  constructor
  · intro hc
    obtain ⟨n, hread, hc⟩ := bind_eq_ok.mp hc
    obtain ⟨nodes, hadd, hc⟩ := bind_eq_ok.mp hc
    obtain ⟨seconds, hsec, hc⟩ := bind_eq_ok.mp hc
    obtain ⟨ms, hms', hc⟩ := bind_eq_ok.mp hc
    obtain ⟨timeMs, hadd', hc⟩ := bind_eq_ok.mp hc
    obtain ⟨rfl, hn⟩ := stoll_ok_iff.mp hread
    obtain ⟨rfl, hlarge, hsmall⟩ := stod_ok_iff.mp hsec
    obtain ⟨rfl, hround⟩ := secondsToMs_ok_iff.mp hms'
    obtain ⟨rfl, hsum⟩ := (int64_ok_iff (add_nonneg hnodes (by omega))).mp hadd
    obtain ⟨rfl, htotal⟩ := (int64_ok_iff (add_nonneg htime hms)).mp hadd'
    cases hc
    exact ⟨rfl, ⟨hn, hlarge, hsmall, hround⟩, hsum, htotal⟩
  · rintro ⟨rfl, hr, hsum, htotal⟩
    have hn : stoll r.nodes = .ok (digitsValue r.nodes : Int) := stoll_ok_iff.mpr ⟨rfl, hr.nodes⟩
    have hsec := stod_ok_iff.mpr ⟨rfl, hr.large, hr.small⟩
    have hround := secondsToMs_ok_iff.mpr ⟨rfl, hr.rounded⟩
    have hs := (int64_ok_iff (add_nonneg hnodes (by omega : (0 : Int) ≤ digitsValue r.nodes))).mpr
      ⟨rfl, hsum⟩
    have ht := (int64_ok_iff (add_nonneg htime hms)).mpr ⟨rfl, htotal⟩
    refine bind_eq_ok.mpr ⟨_, hn, bind_eq_ok.mpr ⟨_, hs, bind_eq_ok.mpr ⟨_, hsec, ?_⟩⟩⟩
    exact bind_eq_ok.mpr ⟨_, hround, bind_eq_ok.mpr ⟨_, ht, rfl⟩⟩

/-- What the comments report for a side; `turn` is the side of the first one. -/
def sideReports (white : Bool) : Bool → List (List Char) → List MoveReport
  | _, [] => []
  | turn, c :: cs =>
    (if turn = white then (moveReport c).toList else []) ++ sideReports white (!turn) cs

/-- A side has room for the reports to come. -/
structure Room (u : Option EngineUsage) (rs : List MoveReport) : Prop where
  readable : ∀ r ∈ rs, r.Readable
  nodes : (soFar u).nodes + (rs.map fun r => (digitsValue r.nodes : Int)).sum < 2 ^ 63
  time : (soFar u).timeMs + (rs.map (·.ms)).sum < 2 ^ 63

/-- A side with one more report. -/
def more (u : Option EngineUsage) (r : MoveReport) : EngineUsage :=
  ⟨(soFar u).nodes + digitsValue r.nodes, (soFar u).timeMs + r.ms⟩

theorem nodes_sum_nonneg (rs : List MoveReport) :
    0 ≤ (rs.map fun r => (digitsValue r.nodes : Int)).sum := by
  refine List.sum_nonneg fun n hn => ?_
  obtain ⟨r, -, rfl⟩ := List.mem_map.mp hn
  omega

theorem ms_sum_nonneg (rs : List MoveReport) : 0 ≤ (rs.map (·.ms)).sum := by
  refine List.sum_nonneg fun n hn => ?_
  obtain ⟨r, -, rfl⟩ := List.mem_map.mp hn
  exact r.ms_nonneg

theorem more_fits {u : Option EngineUsage} {r : MoveReport} (h : (soFar u).Fits)
    (hnodes : (soFar u).nodes + digitsValue r.nodes < 2 ^ 63)
    (htime : (soFar u).timeMs + r.ms < 2 ^ 63) : (more u r).Fits where
  nodes_nonneg := add_nonneg h.nodes_nonneg (by omega)
  nodes_lt := hnodes
  time_nonneg := add_nonneg h.time_nonneg r.ms_nonneg
  time_lt := htime

theorem room_nil {u : Option EngineUsage} (h : (soFar u).Fits) : Room u [] where
  readable := by simp
  nodes := by simpa using h.nodes_lt
  time := by simpa using h.time_lt

theorem room_cons_iff {u : Option EngineUsage} {r : MoveReport} {rs : List MoveReport} :
    Room u (r :: rs) ↔ (r.Readable ∧ (soFar u).nodes + digitsValue r.nodes < 2 ^ 63 ∧
      (soFar u).timeMs + r.ms < 2 ^ 63) ∧ Room (some (more u r)) rs := by
  have hnodes := nodes_sum_nonneg rs
  have htime := ms_sum_nonneg rs
  constructor
  · intro h
    have hn := h.nodes
    have ht := h.time
    simp only [List.map_cons, List.sum_cons] at hn ht
    refine ⟨⟨h.readable r (by simp), by omega, by omega⟩, ?_⟩
    exact ⟨fun q hq => h.readable q (by simp [hq]), by simp only [soFar, more, Option.getD] at *; omega,
      by simp only [soFar, more, Option.getD] at *; omega⟩
  · rintro ⟨⟨hr, -, -⟩, h⟩
    have hn := h.nodes
    have ht := h.time
    refine ⟨?_, ?_, ?_⟩
    · intro q hq
      rcases List.mem_cons.mp hq with rfl | hq
      · exact hr
      · exact h.readable q hq
    · simp only [List.map_cons, List.sum_cons, soFar, more, Option.getD] at *
      omega
    · simp only [List.map_cons, List.sum_cons, soFar, more, Option.getD] at *
      omega

def ColorUsage.side (u : ColorUsage) (white : Bool) : Option EngineUsage :=
  if white then u.white else u.black

def ColorUsage.put (u : ColorUsage) (white : Bool) (v : EngineUsage) : ColorUsage :=
  if white then { u with white := some v } else { u with black := some v }

def ColorUsage.Fits (u : ColorUsage) : Prop := ∀ white v, u.side white = some v → v.Fits

theorem side_put (u : ColorUsage) (white other : Bool) (v : EngineUsage) :
    (u.put white v).side other = if white = other then some v else u.side other := by
  cases white
  · cases other <;> rfl
  · cases other <;> rfl

theorem fits_empty : ({} : ColorUsage).Fits := by
  intro white v h
  cases white <;> cases h

theorem ColorUsage.Fits.put {u : ColorUsage} (h : u.Fits) {v : EngineUsage} (hv : v.Fits)
    (white : Bool) : (u.put white v).Fits := by
  intro other w hw
  rw [side_put] at hw
  split at hw
  · cases hw; exact hv
  · exact h other w hw

theorem countMoves_none {turn : Bool} {c : List Char} {cs : List (List Char)} {u : ColorUsage}
    (h : moveReport c = none) : countMoves turn (c :: cs) u = countMoves (!turn) cs u := by
  rw [countMoves, h]

theorem countMoves_some {turn : Bool} {c : List Char} {cs : List (List Char)} {u : ColorUsage}
    {r : MoveReport} (h : moveReport c = some r) :
    countMoves turn (c :: cs) u =
      EngineUsage.count (u.side turn) r >>= fun v => countMoves (!turn) cs (u.put turn v) := by
  rw [countMoves, h]
  cases turn
  · cases hc : EngineUsage.count u.black r <;> simp [ColorUsage.side, ColorUsage.put, hc, bind, Except.bind, pure, Except.pure]
  · cases hc : EngineUsage.count u.white r <;> simp [ColorUsage.side, ColorUsage.put, hc, bind, Except.bind, pure, Except.pure]

/-- The moves are counted through if, and only if, both sides have room for all reports. -/
theorem countMoves_ok_iff {cs : List (List Char)} {turn : Bool} {u : ColorUsage} (hu : u.Fits) :
    (∃ v, countMoves turn cs u = .ok v) ↔
      ∀ white, Room (u.side white) (sideReports white turn cs) := by
  induction cs generalizing turn u with
  | nil =>
    constructor
    · intro _ white
      exact room_nil (soFar_fits (hu white))
    · intro _
      exact ⟨u, rfl⟩
  | cons c cs ih =>
    cases hr : moveReport c with
    | none =>
      rw [countMoves_none hr, ih hu]
      simp [sideReports, hr]
    | some r =>
      have hside := soFar_fits (hu turn)
      rw [countMoves_some hr]
      constructor
      · rintro ⟨v, hv⟩
        obtain ⟨w, hw, hrest⟩ := bind_eq_ok.mp hv
        obtain ⟨rfl, hread, hnodes, htime⟩ := (count_ok_iff hside).mp hw
        have hfits := hu.put (more_fits hside hnodes htime) turn
        have hroom := (ih hfits).mp ⟨v, hrest⟩
        intro white
        have hwhite := hroom white
        rw [side_put] at hwhite
        by_cases hturn : turn = white
        · rw [if_pos hturn] at hwhite
          subst hturn
          simp only [sideReports, hr, if_true]
          exact room_cons_iff.mpr ⟨⟨hread, hnodes, htime⟩, hwhite⟩
        · rw [if_neg hturn] at hwhite
          simpa [sideReports, hturn] using hwhite
      · intro hroom
        have hturn := hroom turn
        simp only [sideReports, hr, if_true] at hturn
        obtain ⟨⟨hread, hnodes, htime⟩, hrest⟩ := room_cons_iff.mp hturn
        have hfits := hu.put (more_fits hside hnodes htime) turn
        have hcount := (count_ok_iff hside).mpr ⟨rfl, hread, hnodes, htime⟩
        have hnext : ∀ white, Room ((u.put turn (more (u.side turn) r)).side white)
            (sideReports white (!turn) cs) := by
          intro white
          rw [side_put]
          by_cases hwhite : turn = white
          · subst hwhite
            rw [if_pos rfl]
            exact hrest
          · rw [if_neg hwhite]
            simpa [sideReports, hwhite] using hroom white
        obtain ⟨v, hv⟩ := (ih hfits).mpr hnext
        exact ⟨v, bind_eq_ok.mpr ⟨_, hcount, hv⟩⟩

theorem countMoves_fits {cs : List (List Char)} {turn : Bool} {u v : ColorUsage} (hu : u.Fits)
    (h : countMoves turn cs u = .ok v) : v.Fits := by
  induction cs generalizing turn u with
  | nil => cases h; exact hu
  | cons c cs ih =>
    cases hr : moveReport c with
    | none =>
      rw [countMoves_none hr] at h
      exact ih hu h
    | some r =>
      rw [countMoves_some hr] at h
      obtain ⟨w, hw, hrest⟩ := bind_eq_ok.mp h
      have hside := soFar_fits (hu turn)
      obtain ⟨rfl, -, hnodes, htime⟩ := (count_ok_iff hside).mp hw
      exact ih (hu.put (more_fits hside hnodes htime) turn) hrest

/-- Both sides of a game have room for what its comments report. -/
def UsageFits (game : List Char) (whiteFirst : Bool) : Prop :=
  ∀ body, fromBlankLine game = some body →
    ∀ white, Room none (sideReports white whiteFirst (comments none body))

theorem usageByColor_ok_iff {game : List Char} {whiteFirst : Bool} :
    (∃ v, usageByColor game whiteFirst = .ok v) ↔ UsageFits game whiteFirst := by
  unfold usageByColor UsageFits
  cases hbody : fromBlankLine game with
  | none => simp
  | some body =>
    have hiff : (∃ v, countMoves whiteFirst (comments none body) {} = .ok v) ↔
        ∀ white, Room (({} : ColorUsage).side white) (sideReports white whiteFirst (comments none body)) :=
      countMoves_ok_iff fits_empty
    have hside : ∀ white, ({} : ColorUsage).side white = none := by
      intro white
      cases white <;> rfl
    simp only [hside] at hiff
    simpa using hiff

theorem usageByColor_fits {game : List Char} {whiteFirst : Bool} {v : ColorUsage}
    (h : usageByColor game whiteFirst = .ok v) : v.Fits := by
  unfold usageByColor at h
  split at h
  · cases h; exact fits_empty
  · exact countMoves_fits fits_empty h

/-- A duration that is no clock at all, or one a 64-bit integer holds in milliseconds. -/
def DurationFits (d : List Char) : Prop :=
  ∀ hours minutes seconds, clockOf d = some (hours, minutes, seconds) →
    ((digitsValue hours * 3600 + digitsValue minutes * 60 + digitsValue seconds) * 1000 : Int) < 2 ^ 63

theorem parseDuration_ok_iff {d : List Char} :
    (∃ v, parseDuration d = .ok v) ↔ DurationFits d := by
  unfold parseDuration DurationFits
  cases hclock : clockOf d with
  | none => simp
  | some clock =>
    obtain ⟨hours, minutes, seconds⟩ := clock
    constructor
    · rintro ⟨v, hv⟩
      obtain ⟨h, hh, hv⟩ := bind_eq_ok.mp hv
      obtain ⟨m, hm, hv⟩ := bind_eq_ok.mp hv
      obtain ⟨t, ht, hv⟩ := bind_eq_ok.mp hv
      obtain ⟨ms, hms, hv⟩ := bind_eq_ok.mp hv
      obtain ⟨rfl, -⟩ := stoll_ok_iff.mp hh
      obtain ⟨rfl, -⟩ := stoll_ok_iff.mp hm
      obtain ⟨rfl, -⟩ := stoll_ok_iff.mp ht
      obtain ⟨-, hlt⟩ := (int64_ok_iff (by omega)).mp hms
      intro h m t he
      cases he
      exact hlt
    · intro hfits
      have hlt := hfits hours minutes seconds rfl
      have hh : stoll hours = .ok (digitsValue hours : Int) := stoll_ok_iff.mpr ⟨rfl, by omega⟩
      have hm : stoll minutes = .ok (digitsValue minutes : Int) := stoll_ok_iff.mpr ⟨rfl, by omega⟩
      have ht : stoll seconds = .ok (digitsValue seconds : Int) := stoll_ok_iff.mpr ⟨rfl, by omega⟩
      have hms := (int64_ok_iff (by omega)).mpr ⟨rfl, hlt⟩
      exact ⟨_, bind_eq_ok.mpr ⟨_, hh, bind_eq_ok.mpr ⟨_, hm, bind_eq_ok.mpr ⟨_, ht,
        bind_eq_ok.mpr ⟨_, hms, rfl⟩⟩⟩⟩⟩

theorem parseDuration_range {d : List Char} {n : Int} (h : parseDuration d = .ok (some n)) :
    0 ≤ n ∧ n ≤ Json.int32Max := by
  unfold parseDuration at h
  split at h
  · cases h
  · obtain ⟨hours, hh, h⟩ := bind_eq_ok.mp h
    obtain ⟨minutes, hm, h⟩ := bind_eq_ok.mp h
    obtain ⟨seconds, hs, h⟩ := bind_eq_ok.mp h
    obtain ⟨ms, hms, h⟩ := bind_eq_ok.mp h
    obtain ⟨rfl, -⟩ := stoll_ok_iff.mp hh
    obtain ⟨rfl, -⟩ := stoll_ok_iff.mp hm
    obtain ⟨rfl, -⟩ := stoll_ok_iff.mp hs
    obtain ⟨rfl, -⟩ := (int64_ok_iff (by omega)).mp hms
    split at h
    · cases h
    next hle =>
      cases h
      omega

theorem stoi_range {cs : List Char} {n : Int} (h : stoi cs = some n) :
    -2 ^ 31 ≤ n ∧ n ≤ Json.int32Max := by
  have hrange := (Option.filter_eq_some_iff.mp h).2
  simpa using hrange

/-- What the reader gives stays in the range of its types. -/
structure ParsedGame.Sound (p : ParsedGame) : Prop where
  plyCount : ∀ n, p.plyCount = some n → -2 ^ 31 ≤ n ∧ n ≤ Json.int32Max
  durationMs : ∀ n, p.durationMs = some n → 0 ≤ n ∧ n ≤ Json.int32Max
  candidateUsage : ∀ u, p.candidateUsage = some u → u.Fits
  baselineUsage : ∀ u, p.baselineUsage = some u → u.Fits

/-- A game in which the candidate played to a result. -/
def Recognised (game : List Char) (candidateName : String) : Prop :=
  ∃ isWhite outcome, candidateColor (tagsOf game) candidateName = some isWhite ∧
    outcomeOf ((tagsOf game).find "Result".toList) isWhite = some outcome

/-- The numbers of a game can be converted. -/
structure GameFits (game : List Char) : Prop where
  duration : ∀ d, (tagsOf game).find "GameDuration".toList = some d → DurationFits d
  usage : UsageFits game (whiteFirst ((tagsOf game).find "FEN".toList))

theorem parseGame_cases (game : List Char) (name : String) :
    (¬Recognised game name ∧ parseGame game name = .ok none) ∨
      ∃ isWhite outcome, candidateColor (tagsOf game) name = some isWhite ∧
        outcomeOf ((tagsOf game).find "Result".toList) isWhite = some outcome := by
  cases hcolor : candidateColor (tagsOf game) name with
  | none =>
    refine .inl ⟨?_, by simp only [parseGame, hcolor]⟩
    rintro ⟨isWhite, outcome, hsome, -⟩
    rw [hcolor] at hsome
    cases hsome
  | some isWhite =>
    cases hout : outcomeOf ((tagsOf game).find "Result".toList) isWhite with
    | none =>
      refine .inl ⟨?_, by simp only [parseGame, hcolor, hout]⟩
      rintro ⟨isWhite', outcome, hsome, hout'⟩
      rw [hcolor] at hsome
      cases hsome
      rw [hout] at hout'
      cases hout'
    | some outcome => exact .inr ⟨isWhite, outcome, rfl, hout⟩

theorem gameDuration_ok_iff {tags : Tags} :
    (∃ v, gameDuration tags = .ok v) ↔
      ∀ d, tags.find "GameDuration".toList = some d → DurationFits d := by
  unfold gameDuration
  cases tags.find "GameDuration".toList with
  | none => simp
  | some d => simpa using parseDuration_ok_iff

theorem gameDuration_range {tags : Tags} {n : Int} (h : gameDuration tags = .ok (some n)) :
    0 ≤ n ∧ n ≤ Json.int32Max := by
  unfold gameDuration at h
  split at h
  · cases h
  · exact parseDuration_range h

/-- What a recognised game is read as. -/
def readGame (game : List Char) (isWhite : Bool) (outcome : GameOutcome) (durationMs : Option Int)
    (usage : ColorUsage) : ParsedGame where
  text := game
  candidateIsWhite := isWhite
  outcome := outcome
  termination := mapTermination
    (String.ofList (((tagsOf game).find "Termination".toList).getD []))
  plyCount := ((tagsOf game).find "PlyCount".toList).bind stoi
  durationMs := durationMs
  candidateUsage := usage.side isWhite
  baselineUsage := usage.side (!isWhite)

theorem parseGame_recognised {game : List Char} {name : String} {isWhite : Bool}
    {outcome : GameOutcome} (hcolor : candidateColor (tagsOf game) name = some isWhite)
    (hout : outcomeOf ((tagsOf game).find "Result".toList) isWhite = some outcome) :
    parseGame game name = gameDuration (tagsOf game) >>= fun durationMs =>
      usageByColor game (whiteFirst ((tagsOf game).find "FEN".toList)) >>= fun usage =>
        .ok (some (readGame game isWhite outcome durationMs usage)) := by
  unfold parseGame
  simp only [hcolor, hout]
  cases isWhite
  · rfl
  · rfl

theorem parseGame_ok_iff {game : List Char} {name : String} :
    (∃ p, parseGame game name = .ok p) ↔ (Recognised game name → GameFits game) := by
  rcases parseGame_cases game name with ⟨hnot, he⟩ | ⟨isWhite, outcome, hcolor, hout⟩
  · exact ⟨fun _ h => absurd h hnot, fun _ => ⟨none, he⟩⟩
  · rw [parseGame_recognised hcolor hout]
    constructor
    · rintro ⟨p, hp⟩ -
      obtain ⟨d, hd, hp⟩ := bind_eq_ok.mp hp
      obtain ⟨u, hu, -⟩ := bind_eq_ok.mp hp
      exact ⟨gameDuration_ok_iff.mp ⟨d, hd⟩, usageByColor_ok_iff.mp ⟨u, hu⟩⟩
    · intro h
      have hfits := h ⟨isWhite, outcome, hcolor, hout⟩
      obtain ⟨d, hd⟩ := gameDuration_ok_iff.mpr hfits.duration
      obtain ⟨u, hu⟩ := usageByColor_ok_iff.mpr hfits.usage
      exact ⟨_, bind_eq_ok.mpr ⟨d, hd, bind_eq_ok.mpr ⟨u, hu, rfl⟩⟩⟩

theorem parseGame_some {game : List Char} {name : String} {p : ParsedGame}
    (h : parseGame game name = .ok (some p)) :
    Recognised game name ∧ p.Sound ∧
      p.plyCount = ((tagsOf game).find "PlyCount".toList).bind stoi := by
  rcases parseGame_cases game name with ⟨-, he⟩ | ⟨isWhite, outcome, hcolor, hout⟩
  · rw [he] at h
    cases h
  · rw [parseGame_recognised hcolor hout] at h
    obtain ⟨d, hd, h⟩ := bind_eq_ok.mp h
    obtain ⟨u, hu, h⟩ := bind_eq_ok.mp h
    cases h
    have hfits := usageByColor_fits hu
    refine ⟨⟨isWhite, outcome, hcolor, hout⟩, ⟨?_, ?_, ?_, ?_⟩, rfl⟩
    · intro n hn
      obtain ⟨text, -, hn⟩ := Option.bind_eq_some_iff.mp hn
      exact stoi_range hn
    · intro n hn
      cases hn
      exact gameDuration_range hd
    · exact hfits isWhite
    · exact hfits (!isWhite)

end Pgn

end CapiNet
