import CapiNet.Runner
import CapiNet.ResultRoute
import CapiNet.PgnLimits

namespace CapiNet

open Pgn

/-- An integer the route asks for, between a bound and the largest `int`. -/
def inRange (key : String) (minValue n : Int) : Except String Int :=
  if Json.toInt64 n < minValue ∨ Json.int32Max < Json.toInt64 n then
    .error (key ++ " out of range")
  else .ok (Json.toInt64 n)

def optInRange (key : String) (minValue : Int) : Option Int → Except String (Option Int)
  | none => .ok none
  | some n => some <$> inRange key minValue n

theorem inRange_ok {key : String} {lo n : Int} (h : lo ≤ n) (h' : n ≤ Json.int32Max)
    (hlo : 0 ≤ lo) : inRange key lo n = .ok n := by
  have hmax : Json.int32Max = 2 ^ 31 - 1 := rfl
  have hsame : Json.toInt64 n = n := Json.toInt64_of_range (by omega) (by omega)
  unfold inRange
  rw [hsame, if_neg (by omega)]

section Members

variable {j : Json} {key : String}

theorem get_of_find {v : Json} (h : j.find key = some v) (hv : v ≠ .null) : j.get key = some v := by
  unfold Json.get
  rw [h]
  cases v with
  | null => exact absurd rfl hv
  | _ => rfl

theorem get_null (h : j.find key = some .null) : j.get key = none := by
  unfold Json.get
  rw [h]

theorem reqInt_of_find {lo n : Int} (h : j.find key = some (.int n)) :
    Request.reqInt j key lo = inRange key lo n := by
  unfold Request.reqInt Request.reqInt64 Request.field
  rw [get_of_find h (by simp)]
  rfl

theorem optInt_of_find {lo : Int} {v : Option Int} (h : j.find key = some (nullable .int v)) :
    Request.optInt j key lo = optInRange key lo v := by
  unfold Request.optInt
  cases v with
  | none =>
    rw [get_null h]
    rfl
  | some n =>
    rw [get_of_find h (by simp [nullable])]
    simp only [reqInt_of_find h]
    rfl

theorem optCount_of_find {v : Option Int} (h : j.find key = some (nullable .int v))
    (hv : ∀ n, v = some n → 0 ≤ n ∧ n < 2 ^ 63) : Request.optCount j key = .ok v := by
  unfold Request.optCount
  cases v with
  | none =>
    rw [get_null h]
  | some n =>
    obtain ⟨hlow, hup⟩ := hv n rfl
    have hsame : Json.toInt64 n = n := Json.toInt64_of_range (by omega) hup
    rw [get_of_find h (by simp [nullable])]
    simp only [nullable, Option.elim_some, hsame, if_neg (not_lt.mpr hlow)]

theorem optCount_absent (h : j.find key = none) : Request.optCount j key = .ok none := by
  unfold Request.optCount Json.get
  rw [h]

theorem reqBool_of_find {b : Bool} (h : j.find key = some (.bool b)) :
    Request.reqBool j key = .ok b := by
  unfold Request.reqBool Request.field
  rw [get_of_find h (by simp)]
  rfl

theorem reqString_of_find {s : String} (h : j.find key = some (.str s)) :
    Request.reqString j key = .ok s := by
  unfold Request.reqString Request.field
  rw [get_of_find h (by simp)]
  rfl

theorem reqDouble_of_find {d : Double} (h : j.find key = some (.float d)) :
    Request.reqDouble j key = .ok d := by
  unfold Request.reqDouble Request.field
  rw [get_of_find h (by simp)]
  rfl

theorem reqEnum_of_find {α : Type} {allowed : String → Option α} {s : String} {a : α}
    (h : j.find key = some (.str s)) (ha : allowed s = some a) :
    Request.reqEnum j key allowed = .ok a := by
  unfold Request.reqEnum
  rw [reqString_of_find h]
  simp only [ha, bind, Except.bind, pure, Except.pure]

end Members

theorem outcomes_text (o : GameOutcome) : outcomes o.text = some o := by
  cases o <;> rfl

theorem terminations_text (t : GameTermination) : terminations t.text = some t := by
  cases t <;> rfl

/-- What a record says of the machine. -/
structure Machine where
  cpuFactor : Double
  tcBaseMs : Int
  tcIncrementMs : Int
  slotIndex : Int
  coreId : Option Int

/-- The checks of the route on what is the same for every game of a slot. -/
def readMachine (slot : SlotInfo) (tc : EffectiveTc) (cpuFactor : Double) :
    Except String Machine :=
  if ¬0 < cpuFactor.val then .error "cpu_factor must be positive"
  else do
    let tcBaseMs ← inRange "tc_base_effective_ms" 0 tc.baseMs
    let tcIncrementMs ← inRange "tc_increment_effective_ms" 0 tc.incrementMs
    let slotIndex ← inRange "slot_index" 0 slot.index
    let coreId ← optInRange "core_id" 0 slot.core
    return { cpuFactor, tcBaseMs, tcIncrementMs, slotIndex, coreId }

/-- The report of a game that was read. -/
def playedReport (i : Nat) (p : ParsedGame) (plyCount : Option Int) (m : Machine) : GameReport where
  gameInPair := i
  candidateIsWhite := p.candidateIsWhite
  outcome := p.outcome
  termination := p.termination
  plyCount := plyCount
  durationMs := p.durationMs
  cpuFactorAtPlay := m.cpuFactor
  tcBaseEffectiveMs := m.tcBaseMs
  tcIncrementEffectiveMs := m.tcIncrementMs
  slotIndex := m.slotIndex
  coreId := m.coreId
  pgn := String.ofList p.text
  candidateNodes := p.candidateUsage.map (·.nodes)
  candidateTimeMs := p.candidateUsage.map (·.timeMs)
  baselineNodes := p.baselineUsage.map (·.nodes)
  baselineTimeMs := p.baselineUsage.map (·.timeMs)

/-- The report of a game that is missing. -/
def crashReport (i : Nat) (isWhite : Bool) (failureNote : String) (m : Machine) : GameReport where
  gameInPair := i
  candidateIsWhite := isWhite
  outcome := .draw
  termination := .crash
  plyCount := none
  durationMs := none
  cpuFactorAtPlay := m.cpuFactor
  tcBaseEffectiveMs := m.tcBaseMs
  tcIncrementEffectiveMs := m.tcIncrementMs
  slotIndex := m.slotIndex
  coreId := m.coreId
  pgn := "\x7bcapi_net: partida ausente no PGN do fastchess. " ++ failureNote ++ "\x7d\n"
  candidateNodes := none
  candidateTimeMs := none
  baselineNodes := none
  baselineTimeMs := none

section Games

variable {failureNote : String} {slot : SlotInfo} {tc : EffectiveTc} {cpuFactor : Double}
  {i : Nat} {p : ParsedGame} {other : Option ParsedGame}

theorem ok_bind {α β : Type} (a : α) (f : α → Except String β) : (Except.ok a >>= f) = f a := rfl

theorem nullable_map {α : Type} (f : α → Int) (u : Option α) :
    nullable (fun a => .int (f a)) u = nullable .int (u.map f) := by
  cases u <;> rfl

/-- The range of a sum that the runner sends. -/
theorem fits_range {u : Option EngineUsage} (h : ∀ v, u = some v → v.Fits) :
    (∀ n, u.map (·.nodes) = some n → 0 ≤ n ∧ n < 2 ^ 63) ∧
      ∀ n, u.map (·.timeMs) = some n → 0 ≤ n ∧ n < 2 ^ 63 := by
  constructor
  · intro n hn
    obtain ⟨v, hv, rfl⟩ := Option.map_eq_some_iff.mp hn
    exact ⟨(h v hv).nodes_nonneg, (h v hv).nodes_lt⟩
  · intro n hn
    obtain ⟨v, hv, rfl⟩ := Option.map_eq_some_iff.mp hn
    exact ⟨(h v hv).time_nonneg, (h v hv).time_lt⟩

theorem optInRange_ok {key : String} {v : Option Int}
    (h : ∀ n, v = some n → 0 ≤ n ∧ n ≤ Json.int32Max) : optInRange key 0 v = .ok v := by
  cases v with
  | none => rfl
  | some n =>
    have hn := h n rfl
    simp only [optInRange, inRange_ok hn.1 hn.2 le_rfl]
    rfl

theorem parseGame_played (hi : i < 2) (hp : p.Sound) :
    parseGame (gameBody failureNote slot tc cpuFactor i (some p) other) =
      optInRange "ply_count" 0 p.plyCount >>= fun plyCount =>
        readMachine slot tc cpuFactor >>= fun m => .ok (playedReport i p plyCount m) := by
  generalize hg : gameBody failureNote slot tc cpuFactor i (some p) other = g
  have hobj : g.isObject = true := by rw [← hg]; rfl
  have hindex : g.find "game_in_pair" = some (.int i) := by rw [← hg]; rfl
  have hcolor : g.find "candidate_is_white" = some (.bool p.candidateIsWhite) := by rw [← hg]; rfl
  have hout : g.find "outcome" = some (.str p.outcome.text) := by rw [← hg]; rfl
  have hterm : g.find "termination" = some (.str p.termination.text) := by rw [← hg]; rfl
  have hply : g.find "ply_count" = some (nullable .int p.plyCount) := by rw [← hg]; rfl
  have hdur : g.find "duration_ms" = some (nullable .int p.durationMs) := by rw [← hg]; rfl
  have hcpu : g.find "cpu_factor" = some (.float cpuFactor) := by rw [← hg]; rfl
  have hbase : g.find "tc_base_effective_ms" = some (.int tc.baseMs) := by rw [← hg]; rfl
  have hinc : g.find "tc_increment_effective_ms" = some (.int tc.incrementMs) := by rw [← hg]; rfl
  have hslot : g.find "slot_index" = some (.int slot.index) := by rw [← hg]; rfl
  have hcore : g.find "core_id" = some (nullable .int slot.core) := by rw [← hg]; rfl
  have hpgn : g.find "pgn" = some (.str (String.ofList p.text)) := by rw [← hg]; rfl
  have hcn : g.find "candidate_nodes" = some (nullable .int (p.candidateUsage.map (·.nodes))) := by
    rw [← hg, ← nullable_map]; rfl
  have hct : g.find "candidate_time_ms" = some (nullable .int (p.candidateUsage.map (·.timeMs))) := by
    rw [← hg, ← nullable_map]; rfl
  have hbn : g.find "baseline_nodes" = some (nullable .int (p.baselineUsage.map (·.nodes))) := by
    rw [← hg, ← nullable_map]; rfl
  have hbt : g.find "baseline_time_ms" = some (nullable .int (p.baselineUsage.map (·.timeMs))) := by
    rw [← hg, ← nullable_map]; rfl
  have hmax : Json.int32Max = 2 ^ 31 - 1 := rfl
  have hplace : ¬(1 : Int) < i := by omega
  obtain ⟨hcn', hct'⟩ := fits_range hp.candidateUsage
  obtain ⟨hbn', hbt'⟩ := fits_range hp.baselineUsage
  simp only [parseGame, hobj, reqInt_of_find hindex, inRange_ok (by omega : (0 : Int) ≤ i) (by omega) le_rfl,
    reqBool_of_find hcolor, reqEnum_of_find hout (outcomes_text _),
    reqEnum_of_find hterm (terminations_text _), optInt_of_find hply, optInt_of_find hdur,
    optInRange_ok hp.durationMs, reqDouble_of_find hcpu, reqInt_of_find hbase, reqInt_of_find hinc,
    reqInt_of_find hslot, optInt_of_find hcore, reqString_of_find hpgn, optCount_of_find hcn hcn',
    optCount_of_find hct hct', optCount_of_find hbn hbn', optCount_of_find hbt hbt', readMachine,
    Bool.not_true, Bool.false_eq_true, if_false, ok_bind, if_neg hplace]
  by_cases hpos : 0 < cpuFactor.val
  · simp only [hpos, not_true_eq_false, if_false, bind_assoc, pure_bind]
    rfl
  · simp only [hpos, not_false_eq_true, if_true]
    rfl

theorem parseGame_missing (hi : i < 2) :
    parseGame (gameBody failureNote slot tc cpuFactor i none other) =
      readMachine slot tc cpuFactor >>= fun m => .ok (crashReport i (crashColor i other) failureNote m) := by
  generalize hg : gameBody failureNote slot tc cpuFactor i none other = g
  have hobj : g.isObject = true := by rw [← hg]; rfl
  have hindex : g.find "game_in_pair" = some (.int i) := by rw [← hg]; rfl
  have hcolor : g.find "candidate_is_white" = some (.bool (crashColor i other)) := by
    rw [← hg]; rfl
  have hout : g.find "outcome" = some (.str GameOutcome.draw.text) := by rw [← hg]; rfl
  have hterm : g.find "termination" = some (.str GameTermination.crash.text) := by rw [← hg]; rfl
  have hply : g.find "ply_count" = some (nullable .int none) := by rw [← hg]; rfl
  have hdur : g.find "duration_ms" = some (nullable .int none) := by rw [← hg]; rfl
  have hcpu : g.find "cpu_factor" = some (.float cpuFactor) := by rw [← hg]; rfl
  have hbase : g.find "tc_base_effective_ms" = some (.int tc.baseMs) := by rw [← hg]; rfl
  have hinc : g.find "tc_increment_effective_ms" = some (.int tc.incrementMs) := by rw [← hg]; rfl
  have hslot : g.find "slot_index" = some (.int slot.index) := by rw [← hg]; rfl
  have hcore : g.find "core_id" = some (nullable .int slot.core) := by rw [← hg]; rfl
  have hpgn : g.find "pgn" = some (.str ("\x7bcapi_net: partida ausente no PGN do fastchess. " ++
      failureNote ++ "\x7d\n")) := by rw [← hg]; rfl
  have hcn : g.find "candidate_nodes" = none := by rw [← hg]; rfl
  have hct : g.find "candidate_time_ms" = none := by rw [← hg]; rfl
  have hbn : g.find "baseline_nodes" = none := by rw [← hg]; rfl
  have hbt : g.find "baseline_time_ms" = none := by rw [← hg]; rfl
  have hmax : Json.int32Max = 2 ^ 31 - 1 := rfl
  have hplace : ¬(1 : Int) < i := by omega
  simp only [parseGame, hobj, reqInt_of_find hindex, inRange_ok (by omega : (0 : Int) ≤ i) (by omega) le_rfl,
    reqBool_of_find hcolor, reqEnum_of_find hout (outcomes_text _),
    reqEnum_of_find hterm (terminations_text _), optInt_of_find hply, optInt_of_find hdur,
    optInRange, reqDouble_of_find hcpu, reqInt_of_find hbase, reqInt_of_find hinc,
    reqInt_of_find hslot, optInt_of_find hcore, reqString_of_find hpgn, optCount_absent hcn,
    optCount_absent hct, optCount_absent hbn, optCount_absent hbt, readMachine,
    Bool.not_true, Bool.false_eq_true, if_false, ok_bind, if_neg hplace]
  by_cases hpos : 0 < cpuFactor.val
  · simp only [hpos, not_true_eq_false, if_false, bind_assoc, pure_bind]
    rfl
  · simp only [hpos, not_false_eq_true, if_true]
    rfl

end Games

/-- The games of a file, in their places; a place stays empty if no game was read there. -/
def gameAt (parsed : List (Option ParsedGame)) (i : Nat) : Option ParsedGame := (parsed[i]?).join

/-- The body of a file, from what was read in it. -/
def bodyOf (clientId : Int) (failureNote : String) (slot : SlotInfo) (tc : EffectiveTc)
    (cpuFactor : Double) (parsed : List (Option ParsedGame)) : Json :=
  .obj [("client_id", .int clientId), ("games", .arr
    [gameBody failureNote slot tc cpuFactor 0 (gameAt parsed 0) (gameAt parsed 1),
      gameBody failureNote slot tc cpuFactor 1 (gameAt parsed 1) (gameAt parsed 0)])]

theorem makeResultBody_eq (clientId : Int) (pgn failureNote : String) (slot : SlotInfo)
    (tc : EffectiveTc) (cpuFactor : Double) :
    makeResultBody clientId pgn failureNote slot tc cpuFactor =
      parsedGames pgn >>= fun parsed =>
        .ok (bodyOf clientId failureNote slot tc cpuFactor parsed) := rfl

theorem resultReport_body (clientId : Int) (g g' : Json) :
    resultReport (.obj [("client_id", .int clientId), ("games", .arr [g, g'])]) =
      parseGame g >>= fun a => parseGame g' >>= fun b => placeGames (Json.toInt64 clientId) a b := rfl

theorem mapM_ok_iff {ε α β : Type} {f : α → Except ε β} {xs : List α} {ys : List β} :
    xs.mapM f = .ok ys ↔ List.Forall₂ (fun x y => f x = .ok y) xs ys := by
  induction xs generalizing ys with
  | nil =>
    constructor
    · intro h
      cases h
      exact .nil
    · intro h
      cases h
      rfl
  | cons x xs ih =>
    rw [List.mapM_cons]
    constructor
    · intro h
      obtain ⟨y, hy, h⟩ := bind_eq_ok.mp h
      obtain ⟨zs, hzs, h⟩ := bind_eq_ok.mp h
      cases h
      exact .cons hy (ih.mp hzs)
    · intro h
      obtain _ | ⟨hy, hys⟩ := h
      exact bind_eq_ok.mpr ⟨_, hy, bind_eq_ok.mpr ⟨_, ih.mpr hys, rfl⟩⟩

theorem mapM_exists {ε α β : Type} {f : α → Except ε β} {xs : List α}
    (h : ∀ x ∈ xs, ∃ y, f x = .ok y) : ∃ ys, xs.mapM f = .ok ys := by
  induction xs with
  | nil => exact ⟨[], rfl⟩
  | cons x xs ih =>
    obtain ⟨y, hy⟩ := h x (by simp)
    obtain ⟨ys, hys⟩ := ih fun z hz => h z (by simp [hz])
    exact ⟨y :: ys, mapM_ok_iff.mpr (.cons hy (mapM_ok_iff.mp hys))⟩

theorem forall₂_places {α β : Type} {R : α → β → Prop} {xs : List α} {ys : List β}
    (h : List.Forall₂ R xs ys) (i : Nat) :
    (xs[i]? = none ∧ ys[i]? = none) ∨ ∃ x y, xs[i]? = some x ∧ ys[i]? = some y ∧ R x y := by
  induction h generalizing i with
  | nil => exact .inl ⟨rfl, rfl⟩
  | cons hxy _ ih =>
    cases i with
    | zero => exact .inr ⟨_, _, rfl, rfl, hxy⟩
    | succ i => simpa using ih i

end CapiNet
