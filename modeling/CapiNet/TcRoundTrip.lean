import CapiNet.TcGrammar

namespace CapiNet

/-- Digits without a dangling dot, and without zeros at the end of a fraction. -/
inductive Trimmed : List Char → Prop
  | whole (ds : List Char) : ds ≠ [] → (∀ c ∈ ds, c.isDigit = true) → Trimmed ds
  | point (ds fs : List Char) (c : Char) : ds ≠ [] → (∀ c ∈ ds, c.isDigit = true) →
      (∀ c ∈ fs, c.isDigit = true) → c.isDigit = true → c ≠ '0' →
      Trimmed (ds ++ '.' :: (fs ++ [c]))

/-- Trimming a printed number takes zeros of the fraction only. -/
theorem trim_fraction {ds fs : List Char} (hne : ds ≠ []) (hds : ∀ c ∈ ds, c.isDigit = true)
    (hfs : ∀ c ∈ fs, c.isDigit = true) :
    Trimmed (trimSeconds (ds ++ '.' :: fs)) ∧
      Numeral (trimSeconds (ds ++ '.' :: fs)) (digitsValue ds + digitsValue fs / 10 ^ fs.length) := by
  induction fs using List.reverseRecOn with
  | nil =>
    have hkeep : (ds ++ ['.']).rdropWhile (· == '0') = ds ++ ['.'] :=
      List.rdropWhile_concat_neg _ _ _ (by decide)
    have htrim : trimSeconds (ds ++ ['.']) = ds := by
      simp [trimSeconds, hkeep]
    have hvalue : (digitsValue ds + digitsValue [] / 10 ^ ([] : List Char).length : ℚ) =
        digitsValue ds := by
      simp [digitsValue]
    rw [htrim, hvalue]
    exact ⟨.whole ds hne hds, .whole ds hne hds⟩
  | append_singleton fs c ih =>
    have hfs' : ∀ d ∈ fs, d.isDigit = true := fun d hd => hfs d (by simp [hd])
    have hassoc : ds ++ '.' :: (fs ++ [c]) = (ds ++ '.' :: fs) ++ [c] := by simp
    by_cases hc : c = '0'
    · subst hc
      have hdrop : trimSeconds (ds ++ '.' :: (fs ++ ['0'])) = trimSeconds (ds ++ '.' :: fs) := by
        unfold trimSeconds
        rw [hassoc, List.rdropWhile_concat_pos _ _ _ (by decide)]
      have hvalue : (digitsValue ds + digitsValue (fs ++ ['0']) / 10 ^ (fs ++ ['0']).length : ℚ) =
          digitsValue ds + digitsValue fs / 10 ^ fs.length := by
        have hzero : digitsValue ['0'] = 0 := by decide
        rw [digitsValue_append, hzero, List.length_append]
        push_cast
        rw [pow_add]
        field_simp
        ring
      rw [hdrop, hvalue]
      exact ih hfs'
    · have hkeep : (ds ++ '.' :: (fs ++ [c])).rdropWhile (· == '0') = ds ++ '.' :: (fs ++ [c]) := by
        rw [hassoc]
        exact List.rdropWhile_concat_neg _ _ _ (by simpa using hc)
      have hdigit := hfs c (by simp)
      have hdot : c ≠ '.' := by
        rintro rfl
        exact absurd hdigit (by decide)
      have htrim : trimSeconds (ds ++ '.' :: (fs ++ [c])) = ds ++ '.' :: (fs ++ [c]) := by
        dsimp only [trimSeconds]
        rw [hkeep, hassoc, List.getLast?_concat, if_neg (by simpa using hdot)]
      rw [htrim]
      exact ⟨.point ds fs c hne hds hfs' hdigit hc, .point ds _ (.inl hne) hds hfs⟩

theorem digitsValue_toDigits (n : Nat) : digitsValue (Nat.toDigits 10 n) = n :=
  Nat.ofDigitChars_ten_toDigits

theorem isDigit_digitChar {n : Nat} (h : n < 10) : n.digitChar.isDigit = true := by
  interval_cases n <;> decide

/-- Three digits for a number of thousandths. -/
def thousandths (n : Nat) : List Char :=
  [(n / 100).digitChar, (n / 10 % 10).digitChar, (n % 10).digitChar]

theorem digitsValue_thousandths {n : Nat} (h : n < 1000) : digitsValue (thousandths n) = n := by
  rw [thousandths, digitsValue_eq, Nat.ofDigitChars_cons_digitChar_of_lt_ten (by omega),
    Nat.ofDigitChars_cons_digitChar_of_lt_ten (by omega),
    Nat.ofDigitChars_cons_digitChar_of_lt_ten (by omega), Nat.ofDigitChars_nil]
  omega

theorem isDigit_thousandths {n : Nat} (h : n < 1000) :
    ∀ c ∈ thousandths n, c.isDigit = true := by
  intro c hc
  simp only [thousandths, List.mem_cons, List.not_mem_nil, or_false] at hc
  rcases hc with rfl | rfl | rfl
  · exact isDigit_digitChar (by omega)
  · exact isDigit_digitChar (by omega)
  · exact isDigit_digitChar (by omega)

theorem isDigit_toDigits (n : Nat) : ∀ c ∈ Nat.toDigits 10 n, c.isDigit = true :=
  fun _ hc => Nat.isDigit_of_mem_toDigits (by decide) (by decide) hc

theorem printSeconds_natCast (n : Nat) :
    printSeconds n = Nat.toDigits 10 (n / 1000) ++ '.' :: thousandths (n % 1000) := by
  have hsign : ¬((n : Int) < 0) := by omega
  simp [printSeconds, thousandths]

/-- Whole seconds and thousandths make up the duration. -/
theorem seconds_add_thousandths (n : Nat) :
    ((n / 1000 : Nat) : ℚ) + ((n % 1000 : Nat) : ℚ) / 10 ^ 3 = (n : ℚ) / 1000 := by
  have hsplit : ((1000 * (n / 1000) + n % 1000 : Nat) : ℚ) = n := by rw [Nat.div_add_mod]
  push_cast at hsplit
  linarith

/-- A printed duration reads as itself. -/
theorem printed_numeral {ms : Int} (h : 0 ≤ ms) :
    Trimmed (trimSeconds (printSeconds ms)) ∧
      Numeral (trimSeconds (printSeconds ms)) ((ms : ℚ) / 1000) := by
  obtain ⟨n, rfl⟩ := Int.eq_ofNat_of_zero_le h
  have htrim := trim_fraction Nat.toDigits_ne_nil (isDigit_toDigits (n / 1000))
    (isDigit_thousandths (Nat.mod_lt n (by omega)))
  have hvalue := seconds_add_thousandths n
  have hlen : (thousandths (n % 1000)).length = 3 := rfl
  rw [digitsValue_toDigits, digitsValue_thousandths (Nat.mod_lt _ (by omega)), hlen] at htrim
  rw [printSeconds_natCast]
  exact ⟨htrim.1, by simpa [hvalue] using htrim.2⟩

theorem roundAway_intCast {n : Int} (h : 0 ≤ n) : roundAway (n : ℚ) = n := by
  rw [roundAway, if_pos (by exact_mod_cast h), Int.floor_eq_iff]
  constructor <;> linarith

theorem roundAway_printed {ms : Int} (h : 0 ≤ ms) : roundAway (1000 * ((ms : ℚ) / 1000)) = ms := by
  rw [mul_div_cancel₀ _ (by norm_num : (1000 : ℚ) ≠ 0)]
  exact roundAway_intCast h

/-- A machine as fast as the reference one plays the time control itself. -/
theorem effectiveTc_one {tc : TimeControl} {f : Double} (hf : f.val = 1)
    (hb : 0 ≤ tc.baseMs ∧ tc.baseMs < 2 ^ 31) (hi : 0 ≤ tc.incrementMs ∧ tc.incrementMs < 2 ^ 31) :
    effectiveTc tc f = ⟨tc.baseMs, tc.incrementMs⟩ := by
  have hkept : ∀ n : Int, 0 ≤ n ∧ n < 2 ^ 31 → Json.toInt32 (llround (n * f.val)) = n := by
    intro n hn
    rw [hf, mul_one]
    dsimp only [llround]
    rw [roundAway_intCast hn.1, if_pos (by omega), Json.toInt32_of_range (by omega) hn.2]
  unfold effectiveTc
  rw [hkept _ hb, hkept _ hi]

/-- What fastchess is told is the time control the server accepted: two trimmed numbers that
`parseTc` reads back. -/
theorem tc_survives (b i : Int) (hb : 1 ≤ b ∧ b ≤ 86400000) (hi : 0 ≤ i ∧ i ≤ 3600000) :
    (∃ d d', (fastchessTc ⟨b, i⟩).toList = d ++ '+' :: d' ∧ Trimmed d ∧ Trimmed d') ∧
    TcDenotes (fastchessTc ⟨b, i⟩).toList ⟨b, i⟩ ∧
    parseTc (fastchessTc ⟨b, i⟩) = .ok ⟨b, i⟩ ∧
    ∀ f : Double, f.val = 1 → effectiveTc ⟨b, i⟩ f = ⟨b, i⟩ ∧
      parseTc (fastchessTc (effectiveTc ⟨b, i⟩ f)) = .ok ⟨b, i⟩ := by
  obtain ⟨hbase, hbase'⟩ := printed_numeral (by omega : 0 ≤ b)
  obtain ⟨hinc, hinc'⟩ := printed_numeral hi.1
  have htext : (fastchessTc ⟨b, i⟩).toList =
      trimSeconds (printSeconds b) ++ '+' :: trimSeconds (printSeconds i) := by
    rw [fastchessTc, String.toList_ofList]
  have hden : TcDenotes (fastchessTc ⟨b, i⟩).toList ⟨b, i⟩ := by
    rw [htext]
    exact .increment _ _ _ _ ⟨_, hbase', (roundAway_printed (by omega)).symm, hb⟩
      ⟨_, hinc', (roundAway_printed hi.1).symm, hi⟩
  have hparse : parseTc (fastchessTc ⟨b, i⟩) = .ok ⟨b, i⟩ := parseTc_ok_iff.mpr (.inl hden)
  refine ⟨⟨_, _, htext, hbase, hinc⟩, hden, hparse, fun f hf => ?_⟩
  have hsame : effectiveTc ⟨b, i⟩ f = ⟨b, i⟩ := effectiveTc_one hf (by dsimp only; omega)
    (by dsimp only; omega)
  exact ⟨hsame, by rw [hsame]; exact hparse⟩

theorem tc_survives_hundred :
    parseTc (fastchessTc ⟨100000, 0⟩) = .ok ⟨100000, 0⟩ :=
  (tc_survives 100000 0 (by omega) (by omega)).2.2.1

example : fastchessTc ⟨100000, 0⟩ = "100+0" := by decide +kernel

end CapiNet
