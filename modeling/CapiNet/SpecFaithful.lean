import CapiNet.LeaseLength
import CapiNet.Request

namespace CapiNet

namespace Json

/-- The integers that are kept as integers: signed or unsigned, of 64 bits. -/
def Kept (n : Int) : Prop := -2 ^ 63 ≤ n ∧ n < 2 ^ 64

instance : DecidablePred Kept := fun n => by unfold Kept; infer_instance

/-- What an integer becomes when it is read. -/
def ofInteger (n : Int) : Json := if Kept n then .int n else .float (.ofInt n)

/-- A body as it is read: its integers are kept ones. -/
def Parsed (j : Json) : Prop := ∀ key n, j.get key = some (.int n) → Kept n

/-- The integers of a column. -/
def IsInt32 (n : Int) : Prop := -2 ^ 31 ≤ n ∧ n < 2 ^ 31

instance : DecidablePred IsInt32 := fun n => by unfold IsInt32; infer_instance

theorem toInt32_isInt32 (n : Int) : IsInt32 (toInt32 n) := by
  unfold IsInt32 toInt32
  rw [Int.bmod_def]
  split <;> omega

theorem toInt32_eq_self {n : Int} : toInt32 n = n ↔ IsInt32 n := by
  constructor
  · intro h
    rw [← h]
    exact toInt32_isInt32 n
  · intro h
    exact toInt32_of_range h.1 h.2

/-- A kept integer past the signed range wraps around to a negative one. -/
theorem toInt64_cases {n : Int} (h : Kept n) :
    toInt64 n = n ∨ (2 ^ 63 ≤ n ∧ toInt64 n = n - 2 ^ 64 ∧ toInt64 n < 0) := by
  obtain ⟨hlo, hhi⟩ := h
  by_cases hs : n < 2 ^ 63
  · exact .inl (toInt64_of_range hlo hs)
  · refine .inr ⟨by omega, ?_⟩
    unfold toInt64
    rw [Int.bmod_def]
    split <;> omega

end Json

theorem optInteger_ok {j : Json} {key : String} {o : Option Int}
    (h : SpecBody.optInteger j key = .ok o) :
    (j.get key = none ∧ o = none) ∨ ∃ n, j.get key = some (.int n) ∧ o = some (Json.toInt64 n) := by
  unfold SpecBody.optInteger at h
  split at h
  next hn => cases h; exact .inl ⟨hn, rfl⟩
  next n hn => cases h; exact .inr ⟨n, hn, rfl⟩
  next => cases h

/-- A member in range is a mathematical integer of the body. -/
theorem read_in_range {j : Json} {key : String} {n : Int} (hj : j.Parsed)
    (h : j.get key = some (.int n)) (hpos : 1 ≤ Json.toInt64 n) : Json.toInt64 n = n := by
  rcases Json.toInt64_cases (hj key n h) with heq | ⟨-, -, hneg⟩
  · exact heq
  · omega

theorem parseHashMb_ok {body : Json} {hashMb : Int} (hj : body.Parsed)
    (h : parseHashMb body = .ok hashMb) :
    (1 ≤ hashMb ∧ hashMb ≤ 4096) ∧
      ((body.get "hash_mb" = none ∧ hashMb = 16) ∨ body.get "hash_mb" = some (.int hashMb)) := by
  obtain ⟨o, ho, h⟩ := bind_eq_ok.mp h
  rcases optInteger_ok ho with ⟨hn, rfl⟩ | ⟨n, hn, rfl⟩
  · cases h
    exact ⟨by omega, .inl ⟨hn, rfl⟩⟩
  · dsimp only at h
    split at h
    · cases h
    next hr =>
      cases h
      have hread := read_in_range hj hn (by omega)
      exact ⟨by omega, .inr (by rw [hread]; exact hn)⟩

theorem parseTotalPairs_ok {body : Json} {pairs : Int} (hj : body.Parsed)
    (h : parseTotalPairs body = .ok pairs) :
    (1 ≤ pairs ∧ pairs ≤ 10000000) ∧ body.get "total_pairs" = some (.int pairs) := by
  obtain ⟨o, ho, h⟩ := bind_eq_ok.mp h
  rcases optInteger_ok ho with ⟨hn, rfl⟩ | ⟨n, hn, rfl⟩
  · cases h
  · dsimp only at h
    split at h
    · cases h
    next hr =>
      cases h
      have hread := read_in_range hj hn (by omega)
      exact ⟨by omega, by rw [hread]; exact hn⟩

/-- What is stored of a priority. -/
theorem parsePriority_ok {body : Json} {priority : Int} (h : parsePriority body = .ok priority) :
    (body.get "priority" = none ∧ priority = 0) ∨
      ∃ n, body.get "priority" = some (.int n) ∧ priority = Json.toInt32 (Json.toInt64 n) := by
  obtain ⟨o, ho, h⟩ := bind_eq_ok.mp h
  rcases optInteger_ok ho with ⟨hn, rfl⟩ | ⟨n, hn, rfl⟩
  · cases h; exact .inl ⟨hn, rfl⟩
  · cases h; exact .inr ⟨n, hn, rfl⟩

/-- The low 32 bits of a kept integer are that integer only when it fits. -/
theorem narrowed_eq_self {n : Int} :
    Json.toInt32 (Json.toInt64 n) = n ↔ Json.IsInt32 n := by
  constructor
  · intro h
    rw [← h]
    exact Json.toInt32_isInt32 _
  · intro h
    have h64 : Json.toInt64 n = n := by
      unfold Json.IsInt32 at h
      exact Json.toInt64_of_range (by omega) (by omega)
    rw [h64]
    exact Json.toInt32_eq_self.mpr h

/-- The constraints of `tests` on what a specification brings: the types of its integer columns,
and the bounds of an SPRT. -/
structure TestSpec.Storable (spec : TestSpec) : Prop where
  tcBaseMs : Json.IsInt32 spec.tcBaseMs
  tcIncrementMs : Json.IsInt32 spec.tcIncrementMs
  hashMb : Json.IsInt32 spec.hashMb
  totalPairs : Json.IsInt32 spec.totalPairs
  priority : Json.IsInt32 spec.priority
  bounds : spec.orderedBounds = true

/-- The SPRT columns of each kind. -/
def TestSpec.SprtColumns (spec : TestSpec) : Prop :=
  match spec.kind with
  | .gauntlet => spec.sprtPreset = none ∧ spec.sprtElo0 = none ∧ spec.sprtElo1 = none ∧
      spec.sprtAlpha = none ∧ spec.sprtBeta = none
  | .sprt => ∃ s : SprtSpec, spec.sprtIs s ∧ s.Checked

/-- The specification says what its body says. -/
structure TestSpec.Faithful (body : Json) (spec : TestSpec) : Prop where
  hashMb : (body.get "hash_mb" = none ∧ spec.hashMb = 16) ∨
    body.get "hash_mb" = some (.int spec.hashMb)
  totalPairs : body.get "total_pairs" = some (.int spec.totalPairs)
  priority : (body.get "priority" = none ∧ spec.priority = 0) ∨
    body.get "priority" = some (.int spec.priority)
  pairsRange : 1 ≤ spec.totalPairs ∧ spec.totalPairs ≤ 10000000
  hashRange : 1 ≤ spec.hashMb ∧ spec.hashMb ≤ 4096
  sprt : spec.SprtColumns
  storable : spec.Storable

/-- The priority of a body, if it has one, fits its column. -/
def PriorityFits (body : Json) : Prop :=
  ∀ n, body.get "priority" = some (.int n) → Json.IsInt32 n

theorem accepted_sprtColumns {body : Json} {presets : SprtPresets} {spec : TestSpec}
    (h : parseTestSpec body presets = .ok spec) :
    spec.SprtColumns ∧ spec.orderedBounds = true := by
  unfold TestSpec.SprtColumns TestSpec.orderedBounds
  cases hk : spec.kind with
  | gauntlet =>
    obtain ⟨sprt, hsprt, hp, h0, h1, ha, hb⟩ := (parseTestSpec_iff.mp h).sprt
    rw [hk] at hsprt
    unfold parseSprtFor at hsprt
    dsimp only at hsprt
    split at hsprt
    · cases hsprt
    · cases hsprt
      exact ⟨⟨hp, h0, h1, ha, hb⟩, rfl⟩
  | sprt =>
    obtain ⟨s, hs, his⟩ := (parseTestSpec_ok h).2 hk
    have hchecked := parseSprt_checked hs
    refine ⟨⟨s, his, hchecked⟩, ?_⟩
    rw [his.2.1, his.2.2.1]
    exact decide_eq_true hchecked.ordered

theorem accepted_storable {body : Json} {presets : SprtPresets} {spec : TestSpec}
    (hj : body.Parsed) (h : parseTestSpec body presets = .ok spec) : spec.Storable := by
  have hfrom := parseTestSpec_iff.mp h
  obtain ⟨tc, -, htc⟩ := hfrom.tc
  obtain ⟨⟨hb, hb'⟩, hi, hi'⟩ := parseTc_range htc
  have hhash := (parseHashMb_ok hj hfrom.hashMb).1
  have hpairs := (parseTotalPairs_ok hj hfrom.totalPairs).1
  have hprio : Json.IsInt32 spec.priority := by
    rcases parsePriority_ok hfrom.priority with ⟨-, h0⟩ | ⟨n, -, hn⟩
    · rw [h0]; exact ⟨by norm_num, by norm_num⟩
    · rw [hn]; exact Json.toInt32_isInt32 _
  dsimp only at hb hb' hi hi'
  unfold Json.IsInt32 at *
  exact ⟨⟨by omega, by omega⟩, ⟨by omega, by omega⟩, ⟨by omega, by omega⟩,
    ⟨by omega, by omega⟩, hprio, (accepted_sprtColumns h).2⟩

theorem accepted_faithful_iff {body : Json} {presets : SprtPresets} {spec : TestSpec}
    (hj : body.Parsed) (h : parseTestSpec body presets = .ok spec) :
    spec.Faithful body ↔ PriorityFits body := by
  have hfrom := parseTestSpec_iff.mp h
  obtain ⟨hhr, hhash⟩ := parseHashMb_ok hj hfrom.hashMb
  obtain ⟨hpr, hpairs⟩ := parseTotalPairs_ok hj hfrom.totalPairs
  have hprio := parsePriority_ok hfrom.priority
  constructor
  · intro hf n hn
    rcases hf.priority with ⟨hnone, -⟩ | hsome
    · rw [hnone] at hn; cases hn
    · rw [hsome] at hn
      cases hn
      exact hf.storable.priority
  · intro hfits
    refine ⟨hhash, hpairs, ?_, hpr, hhr, (accepted_sprtColumns h).1, accepted_storable hj h⟩
    rcases hprio with ⟨hnone, h0⟩ | ⟨n, hn, heq⟩
    · exact .inl ⟨hnone, h0⟩
    · have hself := narrowed_eq_self.mpr (hfits n hn)
      exact .inr (by rw [heq, hself]; exact hn)

/-- The body of a test with one more member. -/
def withPriority (n : Int) (fields : List (String × Json)) : Json :=
  .obj (("priority", .ofInteger n) :: fields)

theorem get_withPriority {n : Int} {fields : List (String × Json)} {key : String}
    (h : key ≠ "priority") : (withPriority n fields).get key = (Json.obj fields).get key := by
  have hne : (key == "priority") = false := by simpa using h
  have hfind : (withPriority n fields).find key = (Json.obj fields).find key := by
    simp only [withPriority, Json.find, List.lookup, hne]
  rw [Json.get, Json.get, hfind]

theorem get_priority (n : Int) (fields : List (String × Json)) :
    (withPriority n fields).get "priority" = some (.ofInteger n) := by
  have hfind : (withPriority n fields).find "priority" = some (.ofInteger n) := by
    simp only [withPriority, Json.find, List.lookup, beq_self_eq_true]
  rw [Json.get, hfind]
  by_cases hk : Json.Kept n
  · simp [Json.ofInteger, hk]
  · simp [Json.ofInteger, hk]

theorem parsePriority_with (n : Int) (fields : List (String × Json)) :
    parsePriority (withPriority n fields) =
      if Json.Kept n then .ok (Json.toInt32 (Json.toInt64 n))
      else .error "priority must be an integer" := by
  unfold parsePriority SpecBody.optInteger
  rw [get_priority]
  by_cases hk : Json.Kept n
  · simp [Json.ofInteger, hk]
    rfl
  · simp [Json.ofInteger, hk]
    rfl

theorem patchPriority_with (n : Int) (fields : List (String × Json)) :
    patchPriority (withPriority n fields) =
      if ¬Json.Kept n then .error "priority must be an integer"
      else if Json.IsInt32 (Json.toInt64 n) then .ok (Json.toInt64 n)
      else .error "priority out of range" := by
  have hobj : (withPriority n fields).isObject = true := rfl
  unfold patchPriority Request.reqInt Request.reqInt64 Request.field
  rw [get_priority, hobj]
  by_cases hk : Json.Kept n
  · have hof : Json.ofInteger n = .int n := if_pos hk
    have hrange : (Json.toInt64 n < int32Min ∨ Json.int32Max < Json.toInt64 n) ↔
        ¬Json.IsInt32 (Json.toInt64 n) := by
      unfold Json.IsInt32 int32Min Json.int32Max
      omega
    rw [hof, if_neg (not_not.mpr hk)]
    by_cases hi : Json.IsInt32 (Json.toInt64 n)
    · rw [if_pos hi]
      exact if_neg fun h => hrange.mp h hi
    · rw [if_neg hi]
      exact if_pos (hrange.mpr hi)
  · have hof : Json.ofInteger n = .float (.ofInt n) := if_neg hk
    rw [hof, if_pos hk]
    rfl

/-- A body that is accepted without a priority is accepted with one that can be read. -/
theorem accepted_withPriority {fields : List (String × Json)} {presets : SprtPresets}
    {spec : TestSpec} {n priority : Int} (h : parseTestSpec (.obj fields) presets = .ok spec)
    (hp : parsePriority (withPriority n fields) = .ok priority) :
    parseTestSpec (withPriority n fields) presets = .ok { spec with priority } := by
  have hget : ∀ key, key ≠ "priority" →
      (withPriority n fields).get key = (Json.obj fields).get key := fun _ => get_withPriority
  have hreq : ∀ key, key ≠ "priority" →
      SpecBody.reqString (withPriority n fields) key = SpecBody.reqString (.obj fields) key := by
    intro key hkey
    rw [SpecBody.reqString, SpecBody.reqString, hget key hkey]
  have hopt : ∀ key, key ≠ "priority" →
      SpecBody.optString (withPriority n fields) key = SpecBody.optString (.obj fields) key := by
    intro key hkey
    rw [SpecBody.optString, SpecBody.optString, hget key hkey, hreq key hkey]
  have hint : ∀ key, key ≠ "priority" →
      SpecBody.optInteger (withPriority n fields) key = SpecBody.optInteger (.obj fields) key := by
    intro key hkey
    rw [SpecBody.optInteger, SpecBody.optInteger, hget key hkey]
  have hnum : ∀ key, key ≠ "priority" →
      SpecBody.optNumber (withPriority n fields) key = SpecBody.optNumber (.obj fields) key := by
    intro key hkey
    rw [SpecBody.optNumber, SpecBody.optNumber, hget key hkey]
  have hbounds : hasBounds (withPriority n fields) = hasBounds (.obj fields) := by
    unfold hasBounds
    rw [hget _ (by decide), hget _ (by decide), hget _ (by decide), hget _ (by decide)]
  have hcustom : parseCustom (withPriority n fields) = parseCustom (.obj fields) := by
    unfold parseCustom
    rw [hnum _ (by decide), hnum _ (by decide), hnum _ (by decide), hnum _ (by decide)]
  have hsprt : ∀ kind, parseSprtFor (withPriority n fields) presets kind =
      parseSprtFor (.obj fields) presets kind := by
    intro kind
    cases kind with
    | gauntlet =>
      unfold parseSprtFor
      rw [hget _ (by decide), hbounds]
    | sprt =>
      unfold parseSprtFor parseSprt parsePreset
      rw [hopt _ (by decide), hbounds, hcustom]
  obtain ⟨-, kind, candidate, baseline, vc, vb, tc, hash, book, pairs, -, submitter, sprt, name,
    named⟩ :=
    parseTestSpec_iff.mp h
  refine parseTestSpec_iff.mpr ⟨rfl, ?_, ?_, ?_, vc, vb, ?_, ?_, ?_, ?_, hp, ?_, ?_, ?_, named⟩
  · rw [parseKind, hreq _ (by decide)]
    exact kind
  · rw [hreq _ (by decide)]
    exact candidate
  · rw [hreq _ (by decide)]
    exact baseline
  · rw [hreq _ (by decide)]
    exact tc
  · rw [parseHashMb, hint _ (by decide)]
    exact hash
  · rw [parseBookName, hreq _ (by decide)]
    exact book
  · rw [parseTotalPairs, hint _ (by decide)]
    exact pairs
  · rw [hopt _ (by decide)]
    exact submitter
  · rw [hsprt]
    exact sprt
  · rw [hopt _ (by decide)]
    exact name

/-- Creating a test with a priority and patching it agree: both store it, or both reject it. -/
def PriorityAgrees (fields rest : List (String × Json)) (presets : SprtPresets) (n : Int) : Prop :=
  let created := (parseTestSpec (withPriority n fields) presets).map (·.priority)
  let patched := patchPriority (withPriority n rest)
  (created = .ok n ∧ patched = .ok n) ∨ (created.isOk = false ∧ patched.isOk = false)

theorem priority_agrees_iff {fields : List (String × Json)} {presets : SprtPresets}
    {spec : TestSpec} (h : parseTestSpec (.obj fields) presets = .ok spec)
    (rest : List (String × Json)) (n : Int) :
    PriorityAgrees fields rest presets n ↔ ¬Json.Kept n ∨ Json.IsInt32 n := by
  have hparse := parsePriority_with n fields
  unfold PriorityAgrees
  rw [patchPriority_with]
  by_cases hk : Json.Kept n
  · rw [if_pos hk] at hparse
    have hcreated : (parseTestSpec (withPriority n fields) presets).map (·.priority) =
        .ok (Json.toInt32 (Json.toInt64 n)) := by
      rw [accepted_withPriority h hparse]
      rfl
    simp only [hcreated, hk, not_true_eq_false, if_false, false_or]
    constructor
    · rintro (⟨hc, -⟩ | ⟨hc, -⟩)
      · exact narrowed_eq_self.mp (Except.ok.inj hc)
      · cases hc
    · intro hi
      have h64 : Json.toInt64 n = n := by
        unfold Json.IsInt32 at hi
        exact Json.toInt64_of_range (by omega) (by omega)
      rw [narrowed_eq_self.mpr hi, h64, if_pos hi]
      exact .inl ⟨rfl, rfl⟩
  · rw [if_neg hk] at hparse
    simp only [hk, not_false_eq_true, if_true, true_or, iff_true]
    refine .inr ⟨?_, rfl⟩
    cases hacc : parseTestSpec (withPriority n fields) presets with
    | error e => rfl
    | ok s =>
      have hp := (parseTestSpec_iff.mp hacc).priority
      rw [hparse] at hp
      cases hp

/-- Every accepted body has a faithful specification that fits its table exactly when its priority
fits; and creating a test with a priority agrees with patching it exactly when the priority fits
or is not kept as an integer. -/
theorem accepted_spec_faithful_iff (presets : SprtPresets) :
    (∀ (body : Json) (spec : TestSpec), body.Parsed → parseTestSpec body presets = .ok spec →
      (spec.Faithful body ↔ PriorityFits body)) ∧
    (∀ (fields rest : List (String × Json)) (spec : TestSpec) (n : Int),
      parseTestSpec (.obj fields) presets = .ok spec →
      (PriorityAgrees fields rest presets n ↔ ¬Json.Kept n ∨ Json.IsInt32 n)) :=
  ⟨fun _ _ hj h => accepted_faithful_iff hj h, fun _ rest _ n h => priority_agrees_iff h rest n⟩

/-- The members of a gauntlet of one pair. -/
def gauntletFields : List (String × Json) :=
  [("kind", .str "gauntlet"), ("candidate_ref", .str "dev"), ("baseline_ref", .str "main"),
    ("tc", .str "10+1"), ("book_name", .str "book.epd"), ("total_pairs", .int 1)]

theorem parsed_of_members {fields : List (String × Json)}
    (h : ∀ e ∈ fields, ∀ n, e.2 = .int n → Json.Kept n) : (Json.obj fields).Parsed := by
  intro key n hget
  have hfind : (Json.obj fields).find key = some (.int n) := by
    unfold Json.get at hget
    split at hget
    next => cases hget
    next => cases hget
    next hfind => rw [hfind]; exact hget
  obtain ⟨l₁, l₂, heq, -⟩ := List.lookup_eq_some_iff.mp hfind
  exact h (key, .int n) (by simp [heq]) n rfl

theorem ofInteger_kept {n m : Int} (h : Json.ofInteger n = .int m) : Json.Kept m := by
  unfold Json.ofInteger at h
  split at h
  next hk => cases h; exact hk
  next => cases h

theorem parsed_withPriority (n : Int) {fields : List (String × Json)}
    (h : ∀ e ∈ fields, ∀ m, e.2 = .int m → Json.Kept m) : (withPriority n fields).Parsed := by
  refine parsed_of_members fun e he m hm => ?_
  rcases List.mem_cons.mp he with rfl | he
  · exact ofInteger_kept hm
  · exact h e he m hm

theorem gauntletFields_kept : ∀ e ∈ gauntletFields, ∀ m, e.2 = .int m → Json.Kept m := by
  intro e he m hm
  simp only [gauntletFields, List.mem_cons, List.not_mem_nil, or_false] at he
  rcases he with rfl | rfl | rfl | rfl | rfl | rfl <;> cases hm
  exact ⟨by norm_num, by norm_num⟩

theorem gauntletFields_accepted : ∃ spec, parseTestSpec (.obj gauntletFields) {} = .ok spec := by
  have hc : (parseTestSpec (.obj gauntletFields) {}).toOption.any (fun _ => true) = true := by
    decide +kernel
  obtain ⟨spec, h, -⟩ := accepted_of_check hc
  exact ⟨spec, h⟩

/-- The members of an SPRT between 0 and 5 Elo with rates of its own. -/
def sprtFields : List (String × Json) :=
  [("kind", .str "sprt"), ("candidate_ref", .str "dev"), ("baseline_ref", .str "main"),
    ("tc", .str "10+0.1"), ("book_name", .str "book.epd"), ("total_pairs", .int 1000),
    ("preset", .str "custom"), ("sprt_elo0", .int 0), ("sprt_elo1", .int 5),
    ("sprt_alpha", .float .fivePercent)]

theorem sprtFields_kept : ∀ e ∈ sprtFields, ∀ m, e.2 = .int m → Json.Kept m := by
  intro e he m hm
  simp only [sprtFields, List.mem_cons, List.not_mem_nil, or_false] at he
  rcases he with rfl | rfl | rfl | rfl | rfl | rfl | rfl | rfl | rfl | rfl <;> cases hm
  all_goals exact ⟨by norm_num, by norm_num⟩

/-- An SPRT with priority 7: faithful, and the same through both ways. -/
theorem accepted_spec_faithful_seven :
    (∃ spec, parseTestSpec (withPriority 7 sprtFields) {} = .ok spec ∧
      (spec.Faithful (withPriority 7 sprtFields) ↔ PriorityFits (withPriority 7 sprtFields))) ∧
    (PriorityAgrees sprtFields [] {} 7 ↔ ¬Json.Kept 7 ∨ Json.IsInt32 7) := by
  have hc : (parseTestSpec (.obj sprtFields) {}).toOption.any
      (fun spec => spec.sprtElo1 == some (.ofInt 5)) = true := by decide +kernel
  obtain ⟨spec, h, -⟩ := accepted_of_check hc
  have hprio : parsePriority (withPriority 7 sprtFields) = .ok 7 := by decide +kernel
  have hacc := accepted_withPriority h hprio
  exact ⟨⟨_, hacc, (accepted_spec_faithful_iff {}).1 _ _ (parsed_withPriority 7 sprtFields_kept)
    hacc⟩, (accepted_spec_faithful_iff {}).2 sprtFields [] spec 7 h⟩

/-- Priority 2 ^ 32 is accepted and stored as 0, and refused by the other way. -/
theorem priority_not_faithful :
    ¬((∀ (body : Json) (presets : SprtPresets) (spec : TestSpec), body.Parsed →
        parseTestSpec body presets = .ok spec → spec.Faithful body) ∧
      ∀ (fields rest : List (String × Json)) (presets : SprtPresets) (spec : TestSpec) (n : Int),
        parseTestSpec (.obj fields) presets = .ok spec → PriorityAgrees fields rest presets n) := by
  rintro ⟨hall, -⟩
  obtain ⟨spec, h⟩ := gauntletFields_accepted
  have hprio : parsePriority (withPriority (2 ^ 32) gauntletFields) = .ok 0 := by decide +kernel
  have hacc := accepted_withPriority h hprio
  have hfits := (accepted_faithful_iff (parsed_withPriority _ gauntletFields_kept) hacc).mp
    (hall _ _ _ (parsed_withPriority _ gauntletFields_kept) hacc)
  have hint := hfits (2 ^ 32) (get_priority _ _)
  exact absurd hint (by decide)

end CapiNet
