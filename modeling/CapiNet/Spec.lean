import CapiNet.Statistics

namespace CapiNet

inductive TestKind
  | sprt | gauntlet
  deriving DecidableEq

inductive SprtPreset
  | gainer | nonreg | custom
  deriving DecidableEq

structure SprtPresetBounds where
  elo0 : Double
  elo1 : Double
  alpha : Double
  beta : Double

structure SprtPresets where
  gainer : SprtPresetBounds :=
    ⟨.ofInt 0, .ofInt 5, .fivePercent, .fivePercent⟩
  nonreg : SprtPresetBounds :=
    ⟨.ofInt (-5), .ofInt 0, .fivePercent, .fivePercent⟩

structure TimeControl where
  baseMs : Int
  incrementMs : Int
  deriving DecidableEq

/-- A validated specification, with refs and not yet commits. -/
structure TestSpec where
  name : String
  kind : TestKind
  candidateRef : String
  baselineRef : String
  tcBaseMs : Int
  tcIncrementMs : Int
  hashMb : Int
  bookName : String
  totalPairs : Int
  sprtPreset : Option SprtPreset
  sprtElo0 : Option Double
  sprtElo1 : Option Double
  sprtAlpha : Option Double
  sprtBeta : Option Double
  priority : Int
  submittedBy : Option String

/-- Inversion of a computation that goes through. -/
theorem bind_eq_ok {ε α β : Type} {x : Except ε α} {f : α → Except ε β} {b : β} :
    (x >>= f) = .ok b ↔ ∃ a, x = .ok a ∧ f a = .ok b := by
  cases x with
  | error e => simp [bind, Except.bind]
  | ok a => simp [bind, Except.bind]

theorem bind_eq_error {ε α β : Type} {x : Except ε α} {f : α → Except ε β} {e : ε} :
    (x >>= f) = .error e ↔ x = .error e ∨ ∃ a, x = .ok a ∧ f a = .error e := by
  cases x with
  | error e' => simp [bind, Except.bind]
  | ok a => simp [bind, Except.bind]

/-- The value of a run of decimal digits. -/
def digitsValue (cs : List Char) : Nat := cs.foldl (fun n c => 10 * n + (c.toNat - '0'.toNat)) 0

/-- `strtod` on digits and dots, when it consumes them all: at most one dot, at least one digit. -/
def strtod (cs : List Char) : Option ℚ :=
  let whole := cs.takeWhile Char.isDigit
  match cs.dropWhile Char.isDigit with
  | [] => if whole.isEmpty then none else some (digitsValue whole)
  | _ :: frac =>
    if frac.all Char.isDigit && !(whole.isEmpty && frac.isEmpty) then
      some (digitsValue (whole ++ frac) / 10 ^ frac.length)
    else none

/-- Where doubles overflow to infinity. -/
def doubleOverflow : ℚ := 2 ^ 1024 - 2 ^ 970

def parseSeconds (s : List Char) (tc : String) : Except String ℚ :=
  if s.isEmpty then .error ("invalid tc: " ++ tc)
  else if !s.all (fun c => c.isDigit || c == '.') then .error ("invalid tc: " ++ tc)
  else match strtod s with
    | none => .error ("invalid tc: " ++ tc)
    | some v => if doubleOverflow ≤ v then .error ("invalid tc: " ++ tc) else .ok v

/-- `std::llround`; a value out of range gives the smallest integer. -/
def llround (q : ℚ) : Int :=
  let n := roundAway q
  if -2 ^ 63 ≤ n ∧ n < 2 ^ 63 then n else -2 ^ 63

def parseTc (tc : String) : Except String TimeControl := do
  let cs := tc.toList
  let base ← parseSeconds (cs.takeWhile (· != '+')) tc
  let inc ← match cs.dropWhile (· != '+') with
    | [] => pure 0
    | _ :: rest => parseSeconds rest tc
  let baseMs := llround (base * 1000)
  let incMs := llround (inc * 1000)
  if baseMs ≤ 0 then .error ("tc base must be positive: " ++ tc)
  else if 24 * 3600 * 1000 < baseMs ∨ 3600 * 1000 < incMs then
    .error ("tc out of range: " ++ tc)
  else .ok ⟨Json.toInt32 baseMs, Json.toInt32 incMs⟩

def validRef (ref : String) : Bool :=
  let cs := ref.toList
  !cs.isEmpty && cs.length ≤ 255 && cs.head? != some '-' && cs.head? != some '/' &&
    cs.getLast? != some '/' && !decide (['.', '.'] <:+: cs) &&
    cs.all fun c => c.isAlphanum || c == '.' || c == '_' || c == '/' || c == '-'

def validBookName (name : String) : Bool :=
  let cs := name.toList
  !cs.isEmpty && cs.length ≤ 255 && cs.head? != some '.' &&
    cs.all fun c => c.isAlphanum || c == '.' || c == '_' || c == '-'

namespace SpecBody

def reqString (j : Json) (key : String) : Except String String :=
  match j.get key with
  | none => .error ("missing field: " ++ key)
  | some (.str s) => .ok s
  | some _ => .error (key ++ " must be a string")

def optString (j : Json) (key : String) : Except String (Option String) :=
  match j.get key with
  | none => .ok none
  | some _ => some <$> reqString j key

def optInteger (j : Json) (key : String) : Except String (Option Int) :=
  match j.get key with
  | none => .ok none
  | some (.int n) => .ok (some (Json.toInt64 n))
  | some _ => .error (key ++ " must be an integer")

def optNumber (j : Json) (key : String) : Except String (Option Double) :=
  match j.get key with
  | none => .ok none
  | some (.int n) => .ok (some (.ofInt n))
  | some (.float d) => .ok (some d)
  | some _ => .error (key ++ " must be a number")

end SpecBody

/-- The four SPRT numbers of a specification. -/
structure SprtSpec where
  preset : SprtPreset
  elo0 : Double
  elo1 : Double
  alpha : Double
  beta : Double

def parseCustom (body : Json) : Except String SprtSpec := do
  let elo0 ← SpecBody.optNumber body "sprt_elo0"
  let elo1 ← SpecBody.optNumber body "sprt_elo1"
  match elo0, elo1 with
  | some elo0, some elo1 =>
    let alpha ← SpecBody.optNumber body "sprt_alpha"
    let beta ← SpecBody.optNumber body "sprt_beta"
    return ⟨.custom, elo0, elo1, alpha.getD .fivePercent, beta.getD .fivePercent⟩
  | _, _ => .error "preset custom requires sprt_elo0 and sprt_elo1"

def hasBounds (body : Json) : Bool :=
  (body.get "sprt_elo0").isSome || (body.get "sprt_elo1").isSome ||
    (body.get "sprt_alpha").isSome || (body.get "sprt_beta").isSome

/-- A preset, or custom bounds. -/
def parsePreset (body : Json) (presets : SprtPresets) (preset : String) : Except String SprtSpec :=
  if preset = "custom" then parseCustom body
  else if preset = "gainer" ∨ preset = "nonreg" then
    if hasBounds body then .error "SPRT bounds are only accepted with preset custom"
    else if preset = "gainer" then
      let b := presets.gainer
      .ok ⟨.gainer, b.elo0, b.elo1, b.alpha, b.beta⟩
    else
      let b := presets.nonreg
      .ok ⟨.nonreg, b.elo0, b.elo1, b.alpha, b.beta⟩
  else .error "preset must be gainer, nonreg or custom"

/-- The SPRT part of a body; the checks are the same for presets and custom bounds. -/
def parseSprt (body : Json) (presets : SprtPresets) : Except String SprtSpec := do
  match ← SpecBody.optString body "preset" with
  | none => .error "missing field: preset (gainer, nonreg or custom)"
  | some preset =>
    let s ← parsePreset body presets preset
    if ¬s.elo0.val < s.elo1.val then .error "sprt_elo0 must be < sprt_elo1"
    else if ¬(0 < s.alpha.val ∧ s.alpha.val < 1) ∨ ¬(0 < s.beta.val ∧ s.beta.val < 1) then
      .error "sprt_alpha and sprt_beta must be in (0, 1)"
    else .ok s

/-- A gauntlet has no SPRT part. -/
def parseSprtFor (body : Json) (presets : SprtPresets) : TestKind → Except String (Option SprtSpec)
  | .gauntlet =>
    if (body.get "preset").isSome || hasBounds body then
      .error "gauntlet does not take preset or SPRT bounds"
    else .ok none
  | .sprt => some <$> parseSprt body presets

def parseKind (body : Json) : Except String TestKind := do
  let kind ← SpecBody.reqString body "kind"
  if kind = "sprt" then return .sprt
  else if kind = "gauntlet" then return .gauntlet
  else .error "kind must be sprt or gauntlet"

def checkRef (ref : String) : Except String Unit :=
  if validRef ref then .ok () else .error ("invalid git ref: " ++ ref)

def parseHashMb (body : Json) : Except String Int := do
  match ← SpecBody.optInteger body "hash_mb" with
  | none => return 16
  | some h => if h < 1 ∨ 4096 < h then .error "hash_mb must be in [1, 4096]" else return h

def parseBookName (body : Json) : Except String String := do
  let name ← SpecBody.reqString body "book_name"
  if validBookName name then return name else .error ("invalid book_name: " ++ name)

def parseTotalPairs (body : Json) : Except String Int := do
  match ← SpecBody.optInteger body "total_pairs" with
  | none => .error "missing field: total_pairs"
  | some p =>
    if p < 1 ∨ 10000000 < p then .error "total_pairs must be positive" else return p

/-- The narrowing is not checked. -/
def parsePriority (body : Json) : Except String Int := do
  match ← SpecBody.optInteger body "priority" with
  | none => return 0
  | some p => return Json.toInt32 p

def parseTestSpec (body : Json) (presets : SprtPresets) : Except String TestSpec := do
  if !body.isObject then .error "body must be a JSON object" else
  let kind ← parseKind body
  let candidateRef ← SpecBody.reqString body "candidate_ref"
  let baselineRef ← SpecBody.reqString body "baseline_ref"
  checkRef candidateRef
  checkRef baselineRef
  let tc ← parseTc (← SpecBody.reqString body "tc")
  let hashMb ← parseHashMb body
  let bookName ← parseBookName body
  let totalPairs ← parseTotalPairs body
  let priority ← parsePriority body
  let submittedBy ← SpecBody.optString body "submitted_by"
  let sprt ← parseSprtFor body presets kind
  let name := (← SpecBody.optString body "name").getD (candidateRef ++ " vs " ++ baselineRef)
  if name.isEmpty then .error "name must not be empty"
  else return {
    name, kind, candidateRef, baselineRef
    tcBaseMs := tc.baseMs
    tcIncrementMs := tc.incrementMs
    hashMb, bookName, totalPairs
    sprtPreset := sprt.map (·.preset)
    sprtElo0 := sprt.map (·.elo0)
    sprtElo1 := sprt.map (·.elo1)
    sprtAlpha := sprt.map (·.alpha)
    sprtBeta := sprt.map (·.beta)
    priority, submittedBy }

/-- The checks every accepted SPRT went through. -/
structure SprtSpec.Checked (s : SprtSpec) : Prop where
  ordered : s.elo0.val < s.elo1.val
  alpha : 0 < s.alpha.val ∧ s.alpha.val < 1
  beta : 0 < s.beta.val ∧ s.beta.val < 1

theorem parseSprt_checked {body : Json} {presets : SprtPresets} {s : SprtSpec}
    (h : parseSprt body presets = .ok s) : s.Checked := by
  obtain ⟨preset, -, h⟩ := bind_eq_ok.mp h
  cases preset with
  | none => cases h
  | some preset =>
    obtain ⟨r, -, h⟩ := bind_eq_ok.mp h
    split at h
    next => cases h
    next hlt =>
      split at h
      next => cases h
      next hp =>
        cases h
        simp only [not_or, not_not] at hp
        exact ⟨not_not.mp hlt, hp.1, hp.2⟩

/-- The SPRT columns of an accepted specification. -/
def TestSpec.sprtIs (spec : TestSpec) (s : SprtSpec) : Prop :=
  spec.sprtPreset = some s.preset ∧ spec.sprtElo0 = some s.elo0 ∧ spec.sprtElo1 = some s.elo1 ∧
    spec.sprtAlpha = some s.alpha ∧ spec.sprtBeta = some s.beta

/-- What an accepted specification says of its body, part by part. -/
structure TestSpec.From (body : Json) (presets : SprtPresets) (spec : TestSpec) : Prop where
  object : body.isObject = true
  kind : parseKind body = .ok spec.kind
  candidateRef : SpecBody.reqString body "candidate_ref" = .ok spec.candidateRef
  baselineRef : SpecBody.reqString body "baseline_ref" = .ok spec.baselineRef
  validCandidate : checkRef spec.candidateRef = .ok ()
  validBaseline : checkRef spec.baselineRef = .ok ()
  tc : ∃ tc, SpecBody.reqString body "tc" = .ok tc ∧
    parseTc tc = .ok ⟨spec.tcBaseMs, spec.tcIncrementMs⟩
  hashMb : parseHashMb body = .ok spec.hashMb
  bookName : parseBookName body = .ok spec.bookName
  totalPairs : parseTotalPairs body = .ok spec.totalPairs
  priority : parsePriority body = .ok spec.priority
  submittedBy : SpecBody.optString body "submitted_by" = .ok spec.submittedBy
  sprt : ∃ sprt, parseSprtFor body presets spec.kind = .ok sprt ∧
    spec.sprtPreset = sprt.map (·.preset) ∧ spec.sprtElo0 = sprt.map (·.elo0) ∧
    spec.sprtElo1 = sprt.map (·.elo1) ∧ spec.sprtAlpha = sprt.map (·.alpha) ∧
    spec.sprtBeta = sprt.map (·.beta)
  name : ∃ name, SpecBody.optString body "name" = .ok name ∧
    spec.name = name.getD (spec.candidateRef ++ " vs " ++ spec.baselineRef)
  named : spec.name.isEmpty = false

/-- A body is accepted when every part of it is. -/
theorem parseTestSpec_iff {body : Json} {presets : SprtPresets} {spec : TestSpec} :
    parseTestSpec body presets = .ok spec ↔ spec.From body presets := by
  constructor
  · intro h
    unfold parseTestSpec at h
    split at h
    next => cases h
    next hobj =>
      obtain ⟨kind, hkind, h⟩ := bind_eq_ok.mp h
      obtain ⟨candidateRef, hcandidate, h⟩ := bind_eq_ok.mp h
      obtain ⟨baselineRef, hbaseline, h⟩ := bind_eq_ok.mp h
      obtain ⟨_, hvc, h⟩ := bind_eq_ok.mp h
      obtain ⟨_, hvb, h⟩ := bind_eq_ok.mp h
      obtain ⟨s, hs, h⟩ := bind_eq_ok.mp h
      obtain ⟨tc, htc, h⟩ := bind_eq_ok.mp h
      obtain ⟨hashMb, hhash, h⟩ := bind_eq_ok.mp h
      obtain ⟨bookName, hbook, h⟩ := bind_eq_ok.mp h
      obtain ⟨totalPairs, hpairs, h⟩ := bind_eq_ok.mp h
      obtain ⟨priority, hpriority, h⟩ := bind_eq_ok.mp h
      obtain ⟨submittedBy, hby, h⟩ := bind_eq_ok.mp h
      obtain ⟨sprt, hsprt, h⟩ := bind_eq_ok.mp h
      obtain ⟨name, hname, h⟩ := bind_eq_ok.mp h
      dsimp only at h
      split at h
      next => cases h
      next hne =>
        cases h
        exact ⟨by simpa using hobj, hkind, hcandidate, hbaseline, hvc, hvb, ⟨s, hs, htc⟩, hhash,
          hbook, hpairs, hpriority, hby, ⟨sprt, hsprt, rfl, rfl, rfl, rfl, rfl⟩, ⟨name, hname, rfl⟩,
          by simpa using hne⟩
  · rintro ⟨hobj, hkind, hcandidate, hbaseline, hvc, hvb, ⟨s, hs, htc⟩, hhash, hbook, hpairs,
      hpriority, hby, ⟨sprt, hsprt, hp, h0, h1, ha, hb⟩, ⟨name, hname, hn⟩, hne⟩
    unfold parseTestSpec
    rw [if_neg (by simp [hobj])]
    refine bind_eq_ok.mpr ⟨_, hkind, bind_eq_ok.mpr ⟨_, hcandidate, bind_eq_ok.mpr ⟨_, hbaseline,
      bind_eq_ok.mpr ⟨_, hvc, bind_eq_ok.mpr ⟨_, hvb, bind_eq_ok.mpr ⟨_, hs,
      bind_eq_ok.mpr ⟨_, htc, bind_eq_ok.mpr ⟨_, hhash, bind_eq_ok.mpr ⟨_, hbook,
      bind_eq_ok.mpr ⟨_, hpairs, bind_eq_ok.mpr ⟨_, hpriority, bind_eq_ok.mpr ⟨_, hby,
      bind_eq_ok.mpr ⟨_, hsprt, bind_eq_ok.mpr ⟨_, hname, ?_⟩⟩⟩⟩⟩⟩⟩⟩⟩⟩⟩⟩⟩⟩
    dsimp only
    rw [← hn, if_neg (by simp [hne]), ← hp, ← h0, ← h1, ← ha, ← hb]
    rfl

/-- The number of pairs of an accepted specification is read, and an SPRT has its numbers. -/
theorem parseTestSpec_ok {body : Json} {presets : SprtPresets} {spec : TestSpec}
    (h : parseTestSpec body presets = .ok spec) :
    (∃ pairs, parseTotalPairs body = .ok pairs ∧ spec.totalPairs = pairs) ∧
    (spec.kind = .sprt → ∃ s, parseSprt body presets = .ok s ∧ spec.sprtIs s) := by
  have hfrom := parseTestSpec_iff.mp h
  refine ⟨⟨_, hfrom.totalPairs, rfl⟩, fun hk => ?_⟩
  obtain ⟨sprt, hsprt, hp, h0, h1, ha, hb⟩ := hfrom.sprt
  rw [hk] at hsprt
  cases hs : parseSprt body presets with
  | error e => simp [parseSprtFor, hs] at hsprt
  | ok s =>
    simp only [parseSprtFor, hs, Functor.map] at hsprt
    cases hsprt
    exact ⟨s, rfl, hp, h0, h1, ha, hb⟩

theorem parseTotalPairs_range {body : Json} {pairs : Int} (h : parseTotalPairs body = .ok pairs) :
    1 ≤ pairs ∧ pairs ≤ 10000000 := by
  obtain ⟨p, -, h⟩ := bind_eq_ok.mp h
  cases p with
  | none => cases h
  | some p =>
    dsimp only at h
    split at h
    next => cases h
    next hr =>
      cases h
      omega

end CapiNet
