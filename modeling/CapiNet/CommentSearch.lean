import CapiNet.PgnExchange
import CapiNet.PgnLimits
import CapiNet.TcRoundTrip

namespace CapiNet

namespace Double

theorem abs_roundTiesEven_sub_le (q : ℚ) : |(roundTiesEven q : ℚ) - q| ≤ 1 / 2 := by
  have hle := Int.floor_le q
  have hlt := Int.lt_floor_add_one q
  dsimp only [roundTiesEven]
  split
  next h =>
    rcases h with h | ⟨h, -⟩
    · rw [abs_le]
      constructor <;> linarith
    · rw [abs_le]
      constructor <;> linarith
  next h =>
    rw [not_or] at h
    have hhalf := not_lt.mp h.1
    push_cast
    rw [abs_le]
    constructor <;> linarith

/-- Rounding errs by half a unit in the last place. -/
theorem abs_nearest_sub_le (q : ℚ) : |(nearest q).val - q| ≤ 2 ^ scale q / 2 := by
  have hpos : (0 : ℚ) < 2 ^ scale q := by positivity
  have hval : (nearest q).val = roundTiesEven (q / 2 ^ scale q) * 2 ^ scale q := rfl
  have hsub : (nearest q).val - q =
      (roundTiesEven (q / 2 ^ scale q) - q / 2 ^ scale q) * 2 ^ scale q := by
    rw [hval, sub_mul, div_mul_cancel₀ _ hpos.ne']
  have hround := abs_roundTiesEven_sub_le (q / 2 ^ scale q)
  rw [hsub, abs_mul, abs_of_pos hpos]
  calc _ ≤ 1 / 2 * (2 : ℚ) ^ scale q := mul_le_mul_of_nonneg_right hround hpos.le
    _ = 2 ^ scale q / 2 := by ring

theorem binade_le {q : ℚ} (hq : q ≠ 0) : 2 ^ binade q ≤ |q| := by
  have hnum : (2 : ℚ) ^ (Nat.log2 q.num.natAbs : Int) ≤ q.num.natAbs := by
    exact_mod_cast Nat.log2_self_le (by simpa using hq)
  have hden : (q.den : ℚ) < 2 ^ ((Nat.log2 q.den : Int) + 1) := by
    exact_mod_cast Nat.lt_log2_self
  have hdenpos : (0 : ℚ) < q.den := by exact_mod_cast q.den_pos
  have hlow : (2 : ℚ) ^ ((Nat.log2 q.num.natAbs : Int) - (Nat.log2 q.den : Int) - 1) ≤ |q| := by
    rw [abs_eq_natAbs_div, sub_sub, zpow_sub₀ (by norm_num)]
    exact div_le_div₀ (by positivity) hnum hdenpos hden.le
  dsimp only [binade]
  split
  next => exact hlow
  next h => exact not_lt.mp h

/-- Below a power of two the doubles are as dense as this. -/
theorem scale_le {q : ℚ} {e : Int} (hq : |q| < 2 ^ e) (he : 0 ≤ e) : scale q ≤ e - 53 := by
  by_cases hzero : q = 0
  · have hscale : scale 0 = -53 := by decide +kernel
    rw [hzero, hscale]
    omega
  · have hlt : (2 : ℚ) ^ binade q < 2 ^ e := (binade_le hzero).trans_lt hq
    have hexp := (zpow_lt_zpow_iff_right₀ (by norm_num : (1 : ℚ) < 2)).mp hlt
    unfold scale
    omega

/-- A number of at most so many binary digits before the point, and how far its double is off. -/
theorem abs_nearest_sub_le_of_lt {q : ℚ} {e : Int} (hq : |q| < 2 ^ e) (he : 0 ≤ e) :
    |(nearest q).val - q| ≤ 2 ^ (e - 54) := by
  have hscale : (2 : ℚ) ^ scale q ≤ 2 ^ (e - 53) :=
    zpow_le_zpow_right₀ (by norm_num) (scale_le hq he)
  have hhalf : (2 : ℚ) ^ (e - 53) / 2 = 2 ^ (e - 54) := by
    rw [show e - 54 = e - 53 - 1 by omega, zpow_sub_one₀ (by norm_num)]
    ring
  have hround := abs_nearest_sub_le q
  linarith

end Double

theorem roundAway_near {q : ℚ} {n : Nat} (h : |q - n| < 1 / 2) : roundAway q = n := by
  obtain ⟨hlow, hup⟩ := abs_lt.mp h
  have hn : (0 : ℚ) ≤ n := by positivity
  unfold roundAway
  split
  next =>
    rw [Int.floor_eq_iff]
    push_cast
    constructor <;> linarith
  next hneg =>
    -- a negative number this near has to be near zero
    have hzero : (n : ℚ) < 1 := by linarith
    have hzero' : n = 0 := by
      have hlt : n < 1 := by exact_mod_cast hzero
      omega
    subst hzero'
    have hfloor : ⌊-q + 1 / 2⌋ = 0 := by
      rw [Int.floor_eq_iff]
      push_cast at hlow ⊢
      constructor <;> linarith
    rw [hfloor]
    rfl

/-- The client reads the printed time back: seconds as a double, times 1000, rounded. -/
def Restored (ms : Nat) : Prop :=
  roundAway (Double.nearest ((Double.nearest ((ms : ℚ) / 1000)).val * 1000)).val = ms

/-- Below `2 ^ 42` seconds, no time is changed. -/
theorem restored_of_lt {ms : Nat} (h : ms < 1000 * 2 ^ 42) : Restored ms := by
  have hlt : ms < 4398046511104000 := by omega
  have hms : (ms : ℚ) < 4398046511104000 := by exact_mod_cast hlt
  have hnonneg : (0 : ℚ) ≤ ms := by positivity
  have hseconds : |(ms : ℚ) / 1000| < 2 ^ (42 : Int) := by
    rw [abs_of_nonneg (by positivity), div_lt_iff₀ (by norm_num)]
    norm_num
    linarith
  obtain ⟨hfirst, hfirst'⟩ := abs_le.mp (Double.abs_nearest_sub_le_of_lt hseconds (by norm_num))
  have hsecond : |(Double.nearest ((ms : ℚ) / 1000)).val * 1000| < 2 ^ (52 : Int) := by
    have hpos := Double.nearest_nonneg (by positivity : (0 : ℚ) ≤ ms / 1000)
    rw [abs_of_nonneg (by positivity)]
    norm_num at hfirst' ⊢
    linarith
  obtain ⟨hlast, hlast'⟩ := abs_le.mp (Double.abs_nearest_sub_le_of_lt hsecond (by norm_num))
  refine roundAway_near (abs_lt.mpr ?_)
  norm_num at hfirst hfirst' hlast hlast' ⊢
  constructor <;> linarith

namespace Pgn

def Digits (ds : List Char) : Prop := ds ≠ [] ∧ ∀ c ∈ ds, c.isDigit = true

/-- A text starts with seconds: digits, a fraction or none, and an `s` that ends a word. -/
def SecondsAt (whole frac text : List Char) : Prop :=
  Digits whole ∧ ∃ rest, wordEnds rest = true ∧
    (frac = [] ∧ text = whole ++ 's' :: rest ∨
      Digits frac ∧ text = whole ++ '.' :: (frac ++ 's' :: rest))

/-- Seconds stand after white space. -/
def HasTime (text : List Char) : Prop :=
  ∃ before space after whole frac, text = before ++ space :: after ∧ isSpace space = true ∧
    SecondsAt whole frac after

/-- Digits stand after an `n=` that starts a word. -/
def HasNodes (text : List Char) : Prop :=
  ∃ before digit rest, text = before ++ 'n' :: '=' :: digit :: rest ∧ digit.isDigit = true ∧
    ∀ c ∈ before.getLast?, isWord c = false

theorem takeWhile_digits_of {ds : List Char} (h : ∀ c ∈ ds, c.isDigit = true) {d : Char}
    (hd : d.isDigit = false) (rest : List Char) :
    (ds ++ d :: rest).takeWhile Char.isDigit = ds ∧
      (ds ++ d :: rest).dropWhile Char.isDigit = d :: rest :=
  TagLine.takeWhile_then h hd rest

theorem timeAt_of_seconds {whole frac text : List Char} (h : SecondsAt whole frac text) :
    timeAt text = some (whole, frac) := by
  obtain ⟨hwhole, rest, hrest, ⟨rfl, rfl⟩ | ⟨hfrac, rfl⟩⟩ := h
  · obtain ⟨htake, hdrop⟩ := takeWhile_digits_of hwhole.2
      (by decide : ('s' : Char).isDigit = false) rest
    have hnone : fraction ('s' :: rest) = ([], 's' :: rest) := by simp [fraction]
    dsimp only [timeAt]
    rw [htake, hdrop, hnone]
    exact if_pos ⟨hwhole.1, rfl, hrest⟩
  · obtain ⟨htake, hdrop⟩ := takeWhile_digits_of hwhole.2
      (by decide : ('.' : Char).isDigit = false) (frac ++ 's' :: rest)
    obtain ⟨htake', hdrop'⟩ := takeWhile_digits_of hfrac.2
      (by decide : ('s' : Char).isDigit = false) rest
    have hsome : fraction ('.' :: (frac ++ 's' :: rest)) = (frac, 's' :: rest) := by
      simp only [fraction, List.drop_succ_cons, List.drop_zero, htake', hdrop', List.head?_cons]
      exact if_pos ⟨trivial, hfrac.1⟩
    dsimp only [timeAt]
    rw [htake, hdrop, hsome]
    exact if_pos ⟨hwhole.1, rfl, hrest⟩

theorem seconds_of_timeAt {text whole frac : List Char} (h : timeAt text = some (whole, frac)) :
    SecondsAt whole frac text := by
  have hdigits : ∀ s : List Char, ∀ c ∈ s.takeWhile Char.isDigit, c.isDigit = true :=
    fun s c hc => List.mem_takeWhile_imp hc
  have hsplit : text.takeWhile Char.isDigit ++ text.dropWhile Char.isDigit = text :=
    List.takeWhile_append_dropWhile
  dsimp only [timeAt] at h
  split at h
  next hok =>
    obtain ⟨hne, hs, hend⟩ := hok
    cases h
    generalize text.dropWhile Char.isDigit = tail at hsplit hs hend
    refine ⟨⟨hne, hdigits text⟩, (fraction tail).2.drop 1, hend, ?_⟩
    obtain ⟨rest, hrest⟩ := List.head?_eq_some_iff.mp hs
    rw [hrest, List.drop_succ_cons, List.drop_zero]
    by_cases hdot : tail.head? = some '.' ∧ (tail.drop 1).takeWhile Char.isDigit ≠ []
    · have hfrac : fraction tail =
          ((tail.drop 1).takeWhile Char.isDigit, (tail.drop 1).dropWhile Char.isDigit) := if_pos hdot
      obtain ⟨more, hmore⟩ := List.head?_eq_some_iff.mp hdot.1
      rw [hfrac] at hrest ⊢
      refine .inr ⟨⟨hdot.2, hdigits _⟩, ?_⟩
      dsimp only at hrest ⊢
      rw [← hrest, List.takeWhile_append_dropWhile, hmore, List.drop_succ_cons, List.drop_zero,
        ← hmore, hsplit]
    · have hfrac : fraction tail = ([], tail) := if_neg hdot
      rw [hfrac] at hrest ⊢
      dsimp only at hrest ⊢
      exact .inl ⟨rfl, by rw [← hrest, hsplit]⟩
  next => cases h

theorem searchTime_eq_none_iff {text : List Char} : searchTime text = none ↔ ¬HasTime text := by
  induction text with
  | nil =>
    refine ⟨fun _ => ?_, fun _ => rfl⟩
    rintro ⟨before, space, after, whole, frac, htext, -⟩
    simp at htext
  | cons c text ih =>
    have hstep : searchTime (c :: text) =
        ((if isSpace c then timeAt text else none).or (searchTime text)) := by
      rw [searchTime]
      cases (if isSpace c then timeAt text else none) <;> rfl
    rw [hstep, Option.or_eq_none_iff, ih]
    constructor
    · rintro ⟨hhere, hlater⟩ ⟨before, space, after, whole, frac, htext, hspace, hsec⟩
      cases before with
      | nil =>
        obtain ⟨rfl, rfl⟩ := List.cons_eq_cons.mp htext
        rw [if_pos hspace, timeAt_of_seconds hsec] at hhere
        cases hhere
      | cons d before =>
        exact hlater ⟨before, space, after, whole, frac, (List.cons_eq_cons.mp htext).2, hspace, hsec⟩
    · intro hno
      constructor
      · by_contra hhere
        obtain ⟨⟨whole, frac⟩, ht⟩ := Option.ne_none_iff_exists'.mp hhere
        split at ht
        next hspace => exact hno ⟨[], c, text, whole, frac, rfl, hspace, seconds_of_timeAt ht⟩
        next => cases ht
      · rintro ⟨before, space, after, whole, frac, rfl, hspace, hsec⟩
        exact hno ⟨c :: before, space, after, whole, frac, rfl, hspace, hsec⟩

/-- What the search knows of the character before a text. -/
def lastWord (afterWord : Bool) (before : List Char) : Bool :=
  (before.getLast?.map isWord).getD afterWord

theorem lastWord_cons (afterWord : Bool) (c : Char) (before : List Char) :
    lastWord afterWord (c :: before) = lastWord (isWord c) before := by
  cases before with
  | nil => rfl
  | cons d before => simp [lastWord, List.getLast?_cons]

theorem searchNodes_eq_none {afterWord : Bool} {text : List Char} :
    searchNodes afterWord text = none ↔
      ¬∃ before digit rest, text = before ++ 'n' :: '=' :: digit :: rest ∧ digit.isDigit = true ∧
        lastWord afterWord before = false := by
  induction text generalizing afterWord with
  | nil =>
    refine ⟨fun _ => ?_, fun _ => rfl⟩
    rintro ⟨before, digit, rest, htext, -⟩
    simp at htext
  | cons c text ih =>
    rw [searchNodes]
    split
    next hhere =>
      obtain ⟨rfl, hword, heq, hdigits⟩ := hhere
      obtain ⟨more, rfl⟩ := List.head?_eq_some_iff.mp heq
      refine ⟨fun h => (by cases h), fun hno => absurd ?_ hno⟩
      cases more with
      | nil => exact absurd rfl hdigits
      | cons d more =>
        have hd : d.isDigit = true := by
          by_contra hd
          simp [hd] at hdigits
        exact ⟨[], d, more, rfl, hd, by simpa [lastWord] using hword⟩
    next hhere =>
      rw [ih]
      constructor
      · rintro hlater ⟨before, digit, rest, htext, hdigit, hword⟩
        cases before with
        | nil =>
          obtain ⟨rfl, rfl⟩ := List.cons_eq_cons.mp htext
          refine hhere ⟨rfl, by simpa [lastWord] using hword, rfl, ?_⟩
          simp [hdigit]
        | cons d before =>
          obtain ⟨rfl, htail⟩ := List.cons_eq_cons.mp htext
          exact hlater ⟨before, digit, rest, htail, hdigit, by rwa [lastWord_cons] at hword⟩
      · rintro hno ⟨before, digit, rest, rfl, hdigit, hword⟩
        exact hno ⟨c :: before, digit, rest, rfl, hdigit, by rwa [lastWord_cons]⟩

theorem searchNodes_eq_none_iff {text : List Char} :
    searchNodes false text = none ↔ ¬HasNodes text := by
  rw [searchNodes_eq_none]
  refine not_congr ?_
  constructor
  · rintro ⟨before, digit, rest, htext, hdigit, hword⟩
    refine ⟨before, digit, rest, htext, hdigit, fun c hc => ?_⟩
    rw [lastWord, Option.mem_def.mp hc] at hword
    exact hword
  · rintro ⟨before, digit, rest, htext, hdigit, hword⟩
    refine ⟨before, digit, rest, htext, hdigit, ?_⟩
    unfold lastWord
    cases hlast : before.getLast? with
    | none => rfl
    | some c => exact hword c hlast

/-- A comment reports nothing if it lacks the nodes or the time. -/
theorem moveReport_eq_none_iff {text : List Char} :
    moveReport text = none ↔ ¬(HasNodes text ∧ HasTime text) := by
  rw [not_and_or, ← searchNodes_eq_none_iff, ← searchTime_eq_none_iff]
  unfold moveReport
  cases hnodes : searchNodes false text with
  | none => simp
  | some nodes =>
    cases htime : searchTime text with
    | none => simp
    | some time => simp

/-- The brace a comment opens with is no part of what it reports. -/
theorem moveReport_brace (text : List Char) : moveReport ('\x7b' :: text) = moveReport text := by
  have hnodes : searchNodes false ('\x7b' :: text) = searchNodes false text := by
    simp [searchNodes, isWord]
  have htime : searchTime ('\x7b' :: text) = searchTime text := by
    simp [searchTime, isSpace]
  rw [moveReport, moveReport, hnodes, htime]

/-- What fastchess reports of a move. Its evaluation has neither white space nor an equals sign. -/
structure Report where
  eval : List Char
  depth : Nat
  timeMs : Nat
  nodes : Nat
  nps : Nat
  note : Option (List Char)
  eval_clean : ∀ c ∈ eval, isSpace c = false ∧ c ≠ '=' ∧ c ≠ '\x7b' ∧ c ≠ '\x7d'
  note_clean : ∀ text ∈ note, '\x7b' ∉ text ∧ '\x7d' ∉ text

namespace Report

/-- What comes before the time. -/
def front (r : Report) : List Char := r.eval ++ '/' :: Nat.toDigits 10 r.depth

/-- What comes after the nodes. -/
def back (r : Report) : List Char :=
  [',', ' ', 'n', 'p', 's', '='] ++ Nat.toDigits 10 r.nps ++
    match r.note with
    | none => []
    | some text => ',' :: ' ' :: text

/-- `<eval>/<depth> <t>s, n=<nodes>, nps=<k>`, and perhaps a text. -/
def text (r : Report) : List Char :=
  r.front ++ ' ' :: (printSeconds r.timeMs ++
    ['s', ',', ' ', 'n', '='] ++ Nat.toDigits 10 r.nodes ++ r.back)

/-- The numbers of a report, as printed. -/
def printed (r : Report) : MoveReport where
  nodes := Nat.toDigits 10 r.nodes
  whole := Nat.toDigits 10 (r.timeMs / 1000)
  frac := thousandths (r.timeMs % 1000)

end Report

theorem searchTime_skip {a b : List Char} (h : ∀ c ∈ a, isSpace c = false) :
    searchTime (a ++ b) = searchTime b := by
  induction a with
  | nil => rfl
  | cons c a ih =>
    have hc : isSpace c = false := h c (by simp)
    rw [List.cons_append, searchTime, hc]
    exact ih fun d hd => h d (by simp [hd])

theorem searchNodes_skip {a b : List Char} {afterWord : Bool} (h : '=' ∉ a)
    (hb : b.takeWhile Char.isDigit ≠ []) :
    searchNodes afterWord (a ++ ' ' :: 'n' :: '=' :: b) = some (b.takeWhile Char.isDigit) := by
  induction a generalizing afterWord with
  | nil => simp [searchNodes, isWord, hb]
  | cons c a ih =>
    have hnext : (a ++ ' ' :: 'n' :: '=' :: b).head? ≠ some '=' := by
      cases a with
      | nil => simp
      | cons d a =>
        simp only [List.mem_cons, not_or] at h
        simpa using Ne.symm h.2.1
    rw [List.cons_append, searchNodes, if_neg fun hall => hnext hall.2.2.1]
    exact ih fun hin => h (by simp [hin])

theorem digit_clean {c : Char} (h : c.isDigit = true) :
    isSpace c = false ∧ c ≠ '=' ∧ c ≠ '\x7b' ∧ c ≠ '\x7d' := by
  have hspace : isSpace c = false := by
    by_contra hsp
    have hword := TagLine.not_word_of_space (Bool.not_eq_false _ ▸ hsp)
    simp [isWord, Char.isAlphanum, h] at hword
  refine ⟨hspace, ?_, ?_, ?_⟩
  · rintro rfl
    exact absurd h (by decide)
  · rintro rfl
    exact absurd h (by decide)
  · rintro rfl
    exact absurd h (by decide)

namespace Report

theorem front_clean (r : Report) :
    ∀ c ∈ r.front, isSpace c = false ∧ c ≠ '=' ∧ c ≠ '\x7b' ∧ c ≠ '\x7d' := by
  intro c hc
  rcases List.mem_append.mp hc with hc | hc
  · exact r.eval_clean c hc
  · rcases List.mem_cons.mp hc with rfl | hc
    · decide
    · exact digit_clean (isDigit_toDigits r.depth c hc)

theorem seconds_clean (r : Report) :
    ∀ c ∈ printSeconds r.timeMs, isSpace c = false ∧ c ≠ '=' ∧ c ≠ '\x7b' ∧ c ≠ '\x7d' := by
  intro c hc
  rw [printSeconds_natCast] at hc
  rcases List.mem_append.mp hc with hc | hc
  · exact digit_clean (isDigit_toDigits _ c hc)
  · rcases List.mem_cons.mp hc with rfl | hc
    · decide
    · exact digit_clean (isDigit_thousandths (Nat.mod_lt _ (by omega)) c hc)

theorem searchNodes_text (r : Report) :
    searchNodes false r.text = some (Nat.toDigits 10 r.nodes) := by
  obtain ⟨htake, -⟩ := takeWhile_digits_of (isDigit_toDigits r.nodes)
    (by decide : (',' : Char).isDigit = false) (r.back.drop 1)
  have hback : r.back = ',' :: r.back.drop 1 := rfl
  have htext : r.text = (r.front ++ ' ' :: (printSeconds r.timeMs ++ ['s', ','])) ++
      ' ' :: 'n' :: '=' :: (Nat.toDigits 10 r.nodes ++ r.back) := by
    simp [text]
  have hclean : '=' ∉ r.front ++ ' ' :: (printSeconds r.timeMs ++ ['s', ',']) := by
    intro hin
    simp only [List.mem_append, List.mem_cons, List.not_mem_nil, or_false] at hin
    rcases hin with hin | hin | hin | hin | hin
    · exact (r.front_clean _ hin).2.1 rfl
    · cases hin
    · exact (r.seconds_clean _ hin).2.1 rfl
    · cases hin
    · cases hin
  rw [htext, hback, searchNodes_skip hclean (by rw [htake]; exact Nat.toDigits_ne_nil), htake]

theorem searchTime_text (r : Report) :
    searchTime r.text = some (r.printed.whole, r.printed.frac) := by
  have hseconds : SecondsAt r.printed.whole r.printed.frac (printSeconds r.timeMs ++
      ['s', ',', ' ', 'n', '='] ++ Nat.toDigits 10 r.nodes ++ r.back) := by
    refine ⟨⟨Nat.toDigits_ne_nil, isDigit_toDigits _⟩,
      [',', ' ', 'n', '='] ++ Nat.toDigits 10 r.nodes ++ r.back, rfl, .inr ⟨⟨?_, ?_⟩, ?_⟩⟩
    · simp [printed, thousandths]
    · exact isDigit_thousandths (Nat.mod_lt _ (by omega))
    · simp [printSeconds_natCast, printed]
  rw [text, searchTime_skip fun c hc => (r.front_clean c hc).1, searchTime,
    if_pos (by decide), timeAt_of_seconds hseconds]

/-- The reader finds the numbers that were printed. -/
theorem moveReport_text (r : Report) : moveReport r.text = some r.printed := by
  rw [moveReport, r.searchNodes_text, r.searchTime_text]
  rfl

theorem decimal_printed (r : Report) : decimal r.printed.whole r.printed.frac = r.timeMs / 1000 := by
  have hlen : r.printed.frac.length = 3 := rfl
  have hvalue := point_value r.printed.whole r.printed.frac
  rw [decimal, hvalue, hlen, ← seconds_add_thousandths, printed, digitsValue_toDigits,
    digitsValue_thousandths (Nat.mod_lt _ (by omega))]

theorem ms_printed (r : Report) (h : Restored r.timeMs) : r.printed.ms = r.timeMs := by
  rw [MoveReport.ms, r.decimal_printed]
  exact h

/-- Numbers that 64 bits hold can be read. -/
theorem readable (r : Report) (hnodes : r.nodes < 2 ^ 63) (htime : r.timeMs < 2 ^ 63)
    (h : Restored r.timeMs) : r.printed.Readable := by
  have hms : (r.timeMs : ℚ) < 2 ^ 63 := by exact_mod_cast htime
  refine ⟨by rw [printed, digitsValue_toDigits]; exact hnodes, ?_, fun hpos hsmall => ?_, ?_⟩
  · rw [decimal_printed]
    exact lt_of_le_of_lt (div_le_self (by positivity) (by norm_num))
      (hms.trans (by decide +kernel : (2 : ℚ) ^ 63 < doubleOverflow))
  · -- the smallest time there is, a millisecond, is well above the smallest numbers
    rw [decimal_printed] at hpos hsmall
    have hne : r.timeMs ≠ 0 := by
      intro hzero
      rw [hzero] at hpos
      norm_num at hpos
    have hone : (1 : ℚ) ≤ r.timeMs := by exact_mod_cast Nat.one_le_iff_ne_zero.mpr hne
    have htiny : tinyBound < 1 / 1000 := by decide +kernel
    linarith
  · rw [ms_printed r h]
    exact_mod_cast htime

end Report

end Pgn

end CapiNet
