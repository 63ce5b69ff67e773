import CapiNet.LeaseLength

namespace CapiNet

/-- Digits with at most one dot, at least one digit, and the number they stand for. -/
inductive Numeral : List Char → ℚ → Prop
  | whole (ds : List Char) : ds ≠ [] → (∀ c ∈ ds, c.isDigit = true) → Numeral ds (digitsValue ds)
  | point (ds fs : List Char) : ds ≠ [] ∨ fs ≠ [] → (∀ c ∈ ds, c.isDigit = true) →
      (∀ c ∈ fs, c.isDigit = true) →
      Numeral (ds ++ '.' :: fs) (digitsValue ds + digitsValue fs / 10 ^ fs.length)

theorem digitsValue_eq (cs : List Char) : digitsValue cs = Nat.ofDigitChars 10 cs 0 := rfl

theorem digitsValue_append (cs ds : List Char) :
    digitsValue (cs ++ ds) = 10 ^ ds.length * digitsValue cs + digitsValue ds := by
  rw [digitsValue_eq, Nat.ofDigitChars_append, Nat.ofDigitChars_eq_ofDigitChars_zero]
  rfl

theorem point_value (ds fs : List Char) :
    ((digitsValue (ds ++ fs) : Nat) : ℚ) / 10 ^ fs.length =
      digitsValue ds + digitsValue fs / 10 ^ fs.length := by
  rw [digitsValue_append]
  push_cast
  field_simp

theorem digit_or_dot {cs : List Char} {v : ℚ} (h : Numeral cs v) :
    cs ≠ [] ∧ ∀ c ∈ cs, c.isDigit = true ∨ c = '.' := by
  cases h with
  | whole _ hne hd => exact ⟨hne, fun c hc => .inl (hd c hc)⟩
  | point ds fs hne hds hfs =>
    refine ⟨by simp, fun c hc => ?_⟩
    rcases List.mem_append.mp hc with hc | hc
    · exact .inl (hds c hc)
    · rcases List.mem_cons.mp hc with rfl | hc
      · exact .inr rfl
      · exact .inl (hfs c hc)

theorem notMem_plus {cs : List Char} {v : ℚ} (h : Numeral cs v) : '+' ∉ cs := by
  intro hmem
  rcases (digit_or_dot h).2 '+' hmem with hd | hd
  · exact absurd hd (by decide)
  · exact absurd hd (by decide)

theorem strtod_of_numeral {cs : List Char} {v : ℚ} (h : Numeral cs v) : strtod cs = some v := by
  cases h with
  | whole _ hne hd =>
    have htake : cs.takeWhile Char.isDigit = cs := List.takeWhile_eq_self_iff.mpr hd
    have hdrop : cs.dropWhile Char.isDigit = [] := List.dropWhile_eq_nil_iff.mpr hd
    simp [strtod, htake, hdrop, hne]
  | point ds fs hne hds hfs =>
    have htake : (ds ++ '.' :: fs).takeWhile Char.isDigit = ds := by
      rw [List.takeWhile_append_of_pos hds, List.takeWhile_cons_of_neg (by decide), List.append_nil]
    have hdrop : (ds ++ '.' :: fs).dropWhile Char.isDigit = '.' :: fs := by
      rw [List.dropWhile_append_of_pos hds, List.dropWhile_cons_of_neg (by decide)]
    have hall : fs.all Char.isDigit = true := List.all_eq_true.mpr hfs
    have hsome : (ds.isEmpty && fs.isEmpty) = false := by
      cases ds <;> cases fs <;> simp at hne ⊢
    dsimp only [strtod]
    rw [htake, hdrop]
    simp [hall, hsome, point_value]

theorem numeral_of_strtod {cs : List Char} {v : ℚ} (hcs : ∀ c ∈ cs, c.isDigit = true ∨ c = '.')
    (h : strtod cs = some v) : Numeral cs v := by
  have hwhole : ∀ c ∈ cs.takeWhile Char.isDigit, c.isDigit = true :=
    fun c hc => List.mem_takeWhile_imp hc
  have hsplit := List.takeWhile_append_dropWhile (p := Char.isDigit) (l := cs)
  dsimp only [strtod] at h
  cases hrest : cs.dropWhile Char.isDigit with
  | nil =>
    rw [hrest] at h hsplit
    rw [List.append_nil] at hsplit
    rw [hsplit] at h hwhole
    cases cs with
    | nil => cases h
    | cons c cs =>
      cases h
      exact .whole _ (by simp) hwhole
  | cons d frac =>
    have hd : d.isDigit ≠ true := by
      have hhead := List.head_dropWhile_not Char.isDigit (l := cs) (by simp [hrest])
      simpa [hrest] using hhead
    have hmem : d ∈ cs := by
      rw [← hsplit, hrest]
      simp
    have hdot : d = '.' := (hcs d hmem).resolve_left hd
    subst hdot
    rw [hrest] at h hsplit
    dsimp only at h
    split at h
    next hok =>
      simp only [Bool.and_eq_true, List.all_eq_true, Bool.not_eq_true', Bool.and_eq_false_iff,
        List.isEmpty_eq_false_iff] at hok
      have hpoint := Numeral.point _ frac hok.2 hwhole hok.1
      rw [hsplit] at hpoint
      rw [← Option.some.inj h, point_value]
      exact hpoint
    next => cases h

/-- A text of seconds is accepted when it is a numeral below the overflow of doubles. -/
theorem parseSeconds_ok_iff {cs : List Char} {tc : String} {v : ℚ} :
    parseSeconds cs tc = .ok v ↔ Numeral cs v ∧ v < doubleOverflow := by
  constructor
  · intro h
    unfold parseSeconds at h
    split at h
    · cases h
    next hne =>
      split at h
      · cases h
      next hall =>
        have hcs : ∀ c ∈ cs, c.isDigit = true ∨ c = '.' := by
          simpa [or_iff_not_imp_left] using hall
        split at h
        · cases h
        next w hw =>
          split at h
          · cases h
          next hover =>
            cases h
            exact ⟨numeral_of_strtod hcs hw, not_le.mp hover⟩
  · rintro ⟨hnum, hover⟩
    obtain ⟨hne, hcs⟩ := digit_or_dot hnum
    have hall : (cs.all fun c => c.isDigit || c == '.') = true := by
      rw [List.all_eq_true]
      intro c hc
      simpa using hcs c hc
    unfold parseSeconds
    rw [if_neg (by simpa using hne), hall, strtod_of_numeral hnum]
    exact if_neg (not_le.mpr hover)

/-- A duration is rounded, or so long that it comes back negative. -/
theorem llround_duration {q : ℚ} (h : 0 ≤ q) :
    (roundAway q < 2 ^ 63 ∧ llround q = roundAway q) ∨
      (2 ^ 63 ≤ roundAway q ∧ llround q = -2 ^ 63) := by
  have hpos := roundAway_nonneg h
  dsimp only [llround]
  split <;> omega

theorem roundAway_lt {q : ℚ} {n : Int} (hq : 0 ≤ q) (h : roundAway q ≤ n) : q < n + 1 := by
  have hfloor : ⌊q + 1 / 2⌋ ≤ n := by rwa [roundAway, if_pos hq] at h
  have hlt : q + 1 / 2 < n + 1 := by
    have := Int.lt_floor_add_one (q + 1 / 2)
    have hcast : ((⌊q + 1 / 2⌋ : Int) : ℚ) ≤ n := by exact_mod_cast hfloor
    linarith
  linarith

theorem numeral_nonneg {cs : List Char} {v : ℚ} (h : Numeral cs v) : 0 ≤ v := by
  cases h <;> positivity

/-- A duration in the range of a base or an increment does not overflow. -/
theorem below_overflow {v : ℚ} (hv : 0 ≤ v) (h : roundAway (v * 1000) ≤ 86400000) :
    v < doubleOverflow := by
  have hlt := roundAway_lt (by positivity) h
  have hbig : ∀ x : ℚ, 1 ≤ x → (86400001 : ℚ) < x * 2 ^ 54 - x := by
    intro x hx
    norm_num
    linarith
  have hover := hbig (2 ^ 970) (one_le_pow₀ (by norm_num))
  rw [← pow_add] at hover
  refine lt_trans ?_ hover
  push_cast at hlt
  linarith

/-- A numeral of seconds and its milliseconds, in the range of a base. -/
def BaseMs (d : List Char) (b : Int) : Prop :=
  ∃ x, Numeral d x ∧ b = roundAway (1000 * x) ∧ 1 ≤ b ∧ b ≤ 86400000

/-- A numeral of seconds and its milliseconds, in the range of an increment. -/
def IncrementMs (d : List Char) (i : Int) : Prop :=
  ∃ y, Numeral d y ∧ i = roundAway (1000 * y) ∧ 0 ≤ i ∧ i ≤ 3600000

/-- The time controls of the grammar and what they stand for. -/
inductive TcDenotes : List Char → TimeControl → Prop
  | base (d : List Char) (b : Int) : BaseMs d b → TcDenotes d ⟨b, 0⟩
  | increment (d d' : List Char) (b i : Int) : BaseMs d b → IncrementMs d' i →
      TcDenotes (d ++ '+' :: d') ⟨b, i⟩

/-- A base in range with an increment whose milliseconds do not fit 64 bits, while its seconds are
still a double. -/
def LongIncrement (cs d : List Char) (b : Int) : Prop :=
  BaseMs d b ∧ ∃ d' y, cs = d ++ '+' :: d' ∧ Numeral d' y ∧ 2 ^ 63 ≤ roundAway (1000 * y) ∧
    y < doubleOverflow

theorem split_plus {d : List Char} (h : '+' ∉ d) (d' : List Char) :
    (d ++ '+' :: d').takeWhile (· != '+') = d ∧
      (d ++ '+' :: d').dropWhile (· != '+') = '+' :: d' := by
  have hall : ∀ c ∈ d, (c != '+') = true := by
    intro c hc
    have hne : c ≠ '+' := fun he => h (he ▸ hc)
    simpa using hne
  constructor
  · rw [List.takeWhile_append_of_pos hall, List.takeWhile_cons_of_neg (by simp), List.append_nil]
  · rw [List.dropWhile_append_of_pos hall, List.dropWhile_cons_of_neg (by simp)]

theorem no_plus {d : List Char} (h : '+' ∉ d) :
    d.takeWhile (· != '+') = d ∧ d.dropWhile (· != '+') = [] := by
  have hall : ∀ c ∈ d, (c != '+') = true := by
    intro c hc
    have hne : c ≠ '+' := fun he => h (he ▸ hc)
    simpa using hne
  exact ⟨List.takeWhile_eq_self_iff.mpr hall, List.dropWhile_eq_nil_iff.mpr hall⟩

theorem BaseMs.notMem_plus {d : List Char} {b : Int} (h : BaseMs d b) : '+' ∉ d := by
  obtain ⟨x, hx, -⟩ := h
  exact CapiNet.notMem_plus hx

/-- The base as `parseTc` checks it. -/
theorem baseMs_iff {d : List Char} {b : Int} :
    BaseMs d b ↔ ∃ x, (Numeral d x ∧ x < doubleOverflow) ∧ ¬llround (x * 1000) ≤ 0 ∧
      ¬24 * 3600 * 1000 < llround (x * 1000) ∧ b = Json.toInt32 (llround (x * 1000)) := by
  constructor
  · rintro ⟨x, hx, hb, hlow, hhigh⟩
    rw [mul_comm] at hb
    subst hb
    have hnonneg := numeral_nonneg hx
    have hover := below_overflow hnonneg hhigh
    rcases llround_duration (by positivity : 0 ≤ x * 1000) with ⟨-, hround⟩ | ⟨hbig, -⟩
    · refine ⟨x, ⟨hx, hover⟩, by omega, by omega, ?_⟩
      rw [hround, Json.toInt32_of_range (by omega) (by omega)]
    · omega
  · rintro ⟨x, ⟨hx, -⟩, hlow, hhigh, rfl⟩
    have hnonneg := numeral_nonneg hx
    rcases llround_duration (by positivity : 0 ≤ x * 1000) with ⟨-, hround⟩ | ⟨-, hneg⟩
    · refine ⟨x, hx, ?_, ?_, ?_⟩
      · rw [Json.toInt32_of_range (by omega) (by omega), hround, mul_comm]
      · rw [Json.toInt32_of_range (by omega) (by omega)]
        omega
      · rw [Json.toInt32_of_range (by omega) (by omega)]
        omega
    · omega

/-- The increment as `parseTc` checks it: in range, or too long to be rounded. -/
theorem increment_iff {d : List Char} {i : Int} :
    (∃ y, (Numeral d y ∧ y < doubleOverflow) ∧ ¬3600 * 1000 < llround (y * 1000) ∧
        i = Json.toInt32 (llround (y * 1000))) ↔
      IncrementMs d i ∨
        i = 0 ∧ ∃ y, Numeral d y ∧ 2 ^ 63 ≤ roundAway (1000 * y) ∧ y < doubleOverflow := by
  constructor
  · rintro ⟨y, ⟨hy, hover⟩, hhigh, rfl⟩
    have hnonneg := numeral_nonneg hy
    have hpos := roundAway_nonneg (by positivity : 0 ≤ y * 1000)
    rcases llround_duration (by positivity : 0 ≤ y * 1000) with ⟨-, hround⟩ | ⟨hbig, hneg⟩
    · left
      rw [hround] at hhigh ⊢
      rw [Json.toInt32_of_range (by omega) (by omega)]
      exact ⟨y, hy, by rw [mul_comm], hpos, by omega⟩
    · right
      rw [hneg, toInt32_out_of_range]
      exact ⟨rfl, y, hy, by rwa [mul_comm], hover⟩
  · rintro (⟨y, hy, hi, hlow, hhigh⟩ | ⟨rfl, y, hy, hbig, hover⟩)
    · rw [mul_comm] at hi
      subst hi
      have hnonneg := numeral_nonneg hy
      refine ⟨y, ⟨hy, below_overflow hnonneg (by omega)⟩, ?_⟩
      rcases llround_duration (by positivity : 0 ≤ y * 1000) with ⟨-, hround⟩ | ⟨hbig, -⟩
      · rw [hround, Json.toInt32_of_range (by omega) (by omega)]
        exact ⟨by omega, rfl⟩
      · omega
    · rw [mul_comm] at hbig
      have hnonneg := numeral_nonneg hy
      refine ⟨y, ⟨hy, hover⟩, ?_⟩
      rcases llround_duration (by positivity : 0 ≤ y * 1000) with ⟨hsmall, -⟩ | ⟨-, hneg⟩
      · omega
      · rw [hneg, toInt32_out_of_range]
        omega

theorem parseTc_body {base inc : ℚ} {s : String} {r : TimeControl} :
    (if llround (base * 1000) ≤ 0 then .error ("tc base must be positive: " ++ s)
      else if 24 * 3600 * 1000 < llround (base * 1000) ∨ 3600 * 1000 < llround (inc * 1000) then
        .error ("tc out of range: " ++ s)
      else .ok ⟨Json.toInt32 (llround (base * 1000)), Json.toInt32 (llround (inc * 1000))⟩ :
      Except String TimeControl) = .ok r ↔
    (¬llround (base * 1000) ≤ 0 ∧ ¬24 * 3600 * 1000 < llround (base * 1000) ∧
      r.baseMs = Json.toInt32 (llround (base * 1000))) ∧
    ¬3600 * 1000 < llround (inc * 1000) ∧ r.incrementMs = Json.toInt32 (llround (inc * 1000)) := by
  obtain ⟨b, i⟩ := r
  split_ifs with hlow hrange
  · simp [hlow]
  · refine iff_of_false (by simp) ?_
    rintro ⟨⟨-, hhigh, -⟩, hlim, -⟩
    rcases hrange with h | h
    · exact hhigh h
    · exact hlim h
  · rw [not_or] at hrange
    simp only [Except.ok.injEq, TimeControl.mk.injEq]
    constructor
    · rintro ⟨rfl, rfl⟩
      exact ⟨⟨hlow, hrange.1, rfl⟩, hrange.2, rfl⟩
    · rintro ⟨⟨-, -, rfl⟩, -, rfl⟩
      exact ⟨rfl, rfl⟩

theorem absent_increment :
    ¬3600 * 1000 < llround (0 * 1000) ∧ (0 : Int) = Json.toInt32 (llround (0 * 1000)) := by
  decide +kernel

/-- Inversion of `parseTc`: the grammar, or an increment that wraps to nothing. -/
theorem parseTc_ok_iff {s : String} {r : TimeControl} :
    parseTc s = .ok r ↔ TcDenotes s.toList r ∨
      r.incrementMs = 0 ∧ ∃ d, LongIncrement s.toList d r.baseMs := by
  have hsplit := List.takeWhile_append_dropWhile (p := (· != '+')) (l := s.toList)
  constructor
  · intro h
    obtain ⟨base, hbase, h⟩ := bind_eq_ok.mp h
    have hnum := parseSeconds_ok_iff.mp hbase
    cases hrest : s.toList.dropWhile (· != '+') with
    | nil =>
      rw [hrest] at h hsplit
      obtain ⟨⟨hlow, hhigh, hb⟩, -, hi⟩ := parseTc_body.mp h
      have hms := baseMs_iff.mpr ⟨base, hnum, hlow, hhigh, hb⟩
      rw [List.append_nil] at hsplit
      rw [hsplit] at hms
      have hzero : r.incrementMs = 0 := hi.trans absent_increment.2.symm
      left
      obtain ⟨b, i⟩ := r
      cases hzero
      exact .base _ _ hms
    | cons c rest =>
      have hc : c = '+' := by
        have hhead := List.head_dropWhile_not (· != '+') (l := s.toList) (by simp [hrest])
        simpa [hrest] using hhead
      subst hc
      rw [hrest] at h hsplit
      obtain ⟨inc, hinc, h⟩ := bind_eq_ok.mp h
      obtain ⟨⟨hlow, hhigh, hb⟩, hlim, hi⟩ := parseTc_body.mp h
      have hms := baseMs_iff.mpr ⟨base, hnum, hlow, hhigh, hb⟩
      rcases increment_iff.mp ⟨inc, parseSeconds_ok_iff.mp hinc, hlim, hi⟩ with hok | ⟨hzero, y, hy⟩
      · left
        rw [← hsplit]
        exact .increment _ _ _ _ hms hok
      · right
        exact ⟨hzero, _, hms, rest, y, hsplit.symm, hy⟩
  · intro h
    have hboth : ∀ d d' : List Char, s.toList = d ++ '+' :: d' → BaseMs d r.baseMs →
        (∃ y, (Numeral d' y ∧ y < doubleOverflow) ∧ ¬3600 * 1000 < llround (y * 1000) ∧
          r.incrementMs = Json.toInt32 (llround (y * 1000))) → parseTc s = .ok r := by
      rintro d d' hs hms ⟨y, hy, hlim, hi⟩
      obtain ⟨htake, hdrop⟩ := split_plus hms.notMem_plus d'
      obtain ⟨x, hx, hlow, hhigh, hb⟩ := baseMs_iff.mp hms
      refine bind_eq_ok.mpr ⟨x, ?_, ?_⟩
      · rw [hs, htake]
        exact parseSeconds_ok_iff.mpr hx
      · rw [hs, hdrop]
        refine bind_eq_ok.mpr ⟨y, parseSeconds_ok_iff.mpr hy, ?_⟩
        exact parseTc_body.mpr ⟨⟨hlow, hhigh, hb⟩, hlim, hi⟩
    rcases h with h | ⟨hzero, d, hms, d', y, hs, hy⟩
    · generalize hs : s.toList = cs at h
      cases h with
      | base _ b hms =>
        obtain ⟨htake, hdrop⟩ := no_plus hms.notMem_plus
        obtain ⟨x, hx, hlow, hhigh, hb⟩ := baseMs_iff.mp hms
        refine bind_eq_ok.mpr ⟨x, ?_, ?_⟩
        · rw [hs, htake]
          exact parseSeconds_ok_iff.mpr hx
        · rw [hs, hdrop]
          exact parseTc_body.mpr ⟨⟨hlow, hhigh, hb⟩, absent_increment⟩
      | increment d d' b i hms hinc => exact hboth d d' hs hms (increment_iff.mpr (.inl hinc))
    · exact hboth d d' hs hms (increment_iff.mpr (.inr ⟨hzero, y, hy⟩))

theorem Numeral.unique {cs : List Char} {v w : ℚ} (hv : Numeral cs v) (hw : Numeral cs w) : v = w :=
  Option.some.inj ((strtod_of_numeral hv).symm.trans (strtod_of_numeral hw))

/-- Such an increment stands for nothing in range. -/
theorem LongIncrement.not_denotes {cs d : List Char} {b : Int} (h : LongIncrement cs d b)
    (r : TimeControl) : ¬TcDenotes cs r := by
  obtain ⟨hms, d', y, rfl, hy, hbig, -⟩ := h
  obtain ⟨-, hdrop⟩ := split_plus hms.notMem_plus d'
  intro hden
  generalize he : d ++ '+' :: d' = cs at hden
  cases hden with
  | base _ b' hms' =>
    obtain ⟨-, hnone⟩ := no_plus hms'.notMem_plus
    rw [← he, hdrop] at hnone
    cases hnone
  | increment e e' b' i hms' hinc =>
    obtain ⟨-, hdrop'⟩ := split_plus hms'.notMem_plus e'
    rw [← he, hdrop] at hdrop'
    cases hdrop'
    obtain ⟨z, hz, rfl, -, hle⟩ := hinc
    rw [hy.unique hz] at hbig
    omega

/-- `parseTc` accepts exactly its grammar and range, except for an increment that wraps around. -/
theorem parseTc_exact_iff (s : String) :
    (∀ r, parseTc s = .ok r ↔ TcDenotes s.toList r) ↔ ¬∃ d b, LongIncrement s.toList d b := by
  constructor
  · rintro h ⟨d, b, hlong⟩
    have hok : parseTc s = .ok ⟨b, 0⟩ := parseTc_ok_iff.mpr (.inr ⟨rfl, d, hlong⟩)
    exact hlong.not_denotes _ ((h _).mp hok)
  · intro h r
    rw [parseTc_ok_iff]
    constructor
    · rintro (hden | ⟨-, d, hlong⟩)
      · exact hden
      · exact absurd ⟨d, _, hlong⟩ h
    · exact .inl

/-- An increment of `10 ^ 16` seconds is no increment. -/
theorem long_increment_accepted :
    parseTc "10+10000000000000000" = .ok ⟨10000, 0⟩ ∧
      ¬TcDenotes "10+10000000000000000".toList ⟨10000, 0⟩ := by
  have hok : parseTc "10+10000000000000000" = .ok ⟨10000, 0⟩ := by decide +kernel
  refine ⟨hok, ?_⟩
  have hbase : "10".toList.all Char.isDigit = true := by decide +kernel
  have hinc : "10000000000000000".toList.all Char.isDigit = true := by decide +kernel
  have hms : BaseMs "10".toList 10000 :=
    ⟨_, .whole _ (by decide +kernel) (List.all_eq_true.mp hbase), by decide +kernel, by norm_num,
      by norm_num⟩
  have hlong : LongIncrement "10+10000000000000000".toList "10".toList 10000 :=
    ⟨hms, "10000000000000000".toList, _, by decide +kernel,
      .whole _ (by decide +kernel) (List.all_eq_true.mp hinc), by decide +kernel, by decide +kernel⟩
  exact hlong.not_denotes _

end CapiNet
