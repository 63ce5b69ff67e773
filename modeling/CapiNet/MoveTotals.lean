import CapiNet.CommentSearch

namespace CapiNet

namespace Pgn

/-- A comment is a report, or lacks the nodes or the time. -/
inductive Comment
  | report (r : Report)
  | silent (text : List Char) (clean : '\x7d' ∉ text) (lacks : ¬(HasNodes text ∧ HasTime text))

namespace Comment

def text : Comment → List Char
  | report r => r.text
  | silent text _ _ => text

def report? : Comment → Option Report
  | report r => some r
  | silent _ _ _ => none

end Comment

/-- A move, with its number and the line breaks before it, and its comment. -/
structure Ply where
  move : List Char
  comment : Comment
  clean : '\x7b' ∉ move

def Ply.text (p : Ply) : List Char := p.move ++ '\x7b' :: (p.comment.text ++ ['\x7d'])

/-- A tag on a line of its own. -/
structure Tag where
  name : List Char
  value : List Char
  parts : TagLine name value
  one_line : '\n' ∉ parts.line

def bodyText (plies : List Ply) (result : List Char) : List Char :=
  plies.flatMap Ply.text ++ result

/-- A game: tag lines, an empty line, the moves with their comments, the result. -/
structure CommentedGame where
  tags : List Tag
  plies : List Ply
  result : List Char
  result_clean : '\x7b' ∉ result
  starts : ∀ c ∈ (bodyText plies result).head?, c ≠ '[' ∧ isSpace c = false

namespace CommentedGame

def text (g : CommentedGame) : List Char :=
  unlines (g.tags.map (·.parts.line)) ++ '\n' :: '\n' :: bodyText g.plies g.result

/-- The tags, the last one first. -/
def read (g : CommentedGame) : Tags := (g.tags.map fun t => (t.name, t.value)).reverse

end CommentedGame

/-- Every other element, from the first or from the second. -/
def everyOther {α : Type} (k : Nat) (l : List α) : List α :=
  (l.zipIdx.filter fun p => p.2 % 2 == k).map Prod.fst

def reportsOf (plies : List Ply) : List Report := plies.filterMap (·.comment.report?)

/-- The sums over the reports, if there are any. -/
def totals (plies : List Ply) : Option EngineUsage :=
  if (reportsOf plies).isEmpty then none
  else some ⟨(((reportsOf plies).map (·.nodes)).sum : Nat),
    (((reportsOf plies).map (·.timeMs)).sum : Nat)⟩

/-- 64 bits hold the sums. -/
def SumsFit (plies : List Ply) : Prop :=
  ((reportsOf plies).map (·.nodes)).sum < 2 ^ 63 ∧ ((reportsOf plies).map (·.timeMs)).sum < 2 ^ 63

theorem everyOther_cons {α : Type} (x : α) (l : List α) :
    everyOther 0 (x :: l) = x :: everyOther 1 l ∧ everyOther 1 (x :: l) = everyOther 0 l := by
  have hshift : ∀ k, (((l.zipIdx 1).filter fun p => p.2 % 2 == k).map Prod.fst) =
      (l.zipIdx.filter fun p => (p.2 + 1) % 2 == k).map Prod.fst := by
    intro k
    rw [List.zipIdx_succ, List.filter_map, List.map_map]
    rfl
  unfold everyOther
  rw [List.zipIdx_cons, List.filter_cons, List.filter_cons]
  have heven : ∀ n : Nat, ((n + 1) % 2 == 0) = (n % 2 == 1) := by
    intro n
    rw [Bool.eq_iff_iff, beq_iff_eq, beq_iff_eq]
    omega
  have hodd : ∀ n : Nat, ((n + 1) % 2 == 1) = (n % 2 == 0) := by
    intro n
    rw [Bool.eq_iff_iff, beq_iff_eq, beq_iff_eq]
    omega
  constructor
  · have hin : (((x, 0) : α × Nat).2 % 2 == 0) = true := rfl
    rw [if_pos hin, List.map_cons, Nat.zero_add, hshift]
    simp only [heven]
  · have hout : ¬(((x, 0) : α × Nat).2 % 2 == 1) = true := by simp
    rw [if_neg hout, Nat.zero_add, hshift]
    simp only [hodd]

theorem everyOther_sublist {α : Type} (k : Nat) (l : List α) : (everyOther k l).Sublist l := by
  have hsub := List.Sublist.map Prod.fst
    (List.filter_sublist : (l.zipIdx.filter fun p => p.2 % 2 == k).Sublist l.zipIdx)
  rwa [List.zipIdx_map_fst] at hsub

theorem comments_skip {a b : List Char} (h : '\x7b' ∉ a) : comments none (a ++ b) = comments none b := by
  induction a with
  | nil => rfl
  | cons c a ih =>
    have hc : c ≠ '\x7b' := fun he => h (by simp [he])
    rw [List.cons_append, comments, if_neg hc]
    exact ih fun hin => h (by simp [hin])

theorem comments_read {read t b : List Char} (h : '\x7d' ∉ t) :
    comments (some read) (t ++ '\x7d' :: b) = (read ++ t) :: comments none b := by
  induction t generalizing read with
  | nil => simp [comments]
  | cons c t ih =>
    have hc : c ≠ '\x7d' := fun he => h (by simp [he])
    rw [List.cons_append, comments, if_neg hc, ih fun hin => h (by simp [hin]), List.append_assoc]
    rfl

theorem Report.text_clean (r : Report) : '\x7d' ∉ r.text := by
  have hdigits : ∀ n, '\x7d' ∉ Nat.toDigits 10 n :=
    fun n hin => (digit_clean (isDigit_toDigits n _ hin)).2.2.2 rfl
  have hnote : '\x7d' ∉ r.back := by
    have hclean := r.note_clean
    unfold Report.back
    cases hn : r.note with
    | none => simpa using hdigits r.nps
    | some text => simpa using ⟨hdigits r.nps, (hclean text hn).2⟩
  intro hin
  simp only [Report.text, List.mem_append, List.mem_cons, List.not_mem_nil, or_false] at hin
  rcases hin with hin | hin | ((hin | hin) | hin) | hin
  · exact (r.front_clean _ hin).2.2.2 rfl
  · cases hin
  · exact (r.seconds_clean _ hin).2.2.2 rfl
  · revert hin
    decide
  · exact hdigits _ hin
  · exact hnote hin

theorem Comment.text_clean (c : Comment) : '\x7d' ∉ c.text := by
  cases c with
  | report r => exact r.text_clean
  | silent text clean lacks => exact clean

/-- Each move has its comment, and there are no others. -/
theorem comments_body {plies : List Ply} {result : List Char} (h : '\x7b' ∉ result) :
    comments none (bodyText plies result) = plies.map fun p => '\x7b' :: p.comment.text := by
  induction plies with
  | nil =>
    have hskip : comments none (result ++ []) = comments none [] := comments_skip h
    rwa [List.append_nil] at hskip
  | cons p plies ih =>
    have hbody : bodyText (p :: plies) result =
        p.move ++ '\x7b' :: (p.comment.text ++ '\x7d' :: bodyText plies result) := by
      simp [bodyText, Ply.text]
    rw [hbody, comments_skip p.clean, comments, if_pos rfl, comments_read p.comment.text_clean, ih]
    rfl

theorem moveReport_comment (c : Comment) :
    moveReport ('\x7b' :: c.text) = c.report?.map Report.printed := by
  rw [moveReport_brace]
  cases c with
  | report r => exact r.moveReport_text
  | silent text clean lacks => exact moveReport_eq_none_iff.mpr lacks

/-- The reports of a side are those of every other move. -/
theorem sideReports_eq (white turn : Bool) (plies : List Ply) :
    sideReports white turn (plies.map fun p => '\x7b' :: p.comment.text) =
      (reportsOf (everyOther (if turn = white then 0 else 1) plies)).map Report.printed := by
  induction plies generalizing turn with
  | nil => rfl
  | cons p plies ih =>
    obtain ⟨hfirst, hsecond⟩ := everyOther_cons p plies
    rw [List.map_cons, sideReports, ih, moveReport_comment]
    by_cases hturn : turn = white
    · have hother : (!turn) ≠ white := by
        rw [hturn]
        exact Bool.not_ne_self white
      rw [if_pos hturn, if_pos hturn, if_neg hother, hfirst, reportsOf, reportsOf,
        List.filterMap_cons]
      cases p.comment.report? <;> rfl
    · have hother : (!turn) = white := by
        cases turn <;> cases white <;> simp at hturn ⊢
      rw [if_neg hturn, if_neg hturn, if_pos hother, hsecond, List.nil_append]

/-- What a side has when reports are added, one after the other. -/
theorem countMoves_side {cs : List (List Char)} {turn : Bool} {u v : ColorUsage} (hu : u.Fits)
    (h : countMoves turn cs u = .ok v) (white : Bool) :
    v.side white = (sideReports white turn cs).foldl (fun u r => some (more u r)) (u.side white) := by
  induction cs generalizing turn u with
  | nil =>
    cases h
    rfl
  | cons c cs ih =>
    cases hr : moveReport c with
    | none =>
      rw [countMoves_none hr] at h
      rw [ih hu h, sideReports, hr]
      simp
    | some r =>
      rw [countMoves_some hr] at h
      obtain ⟨w, hw, hrest⟩ := bind_eq_ok.mp h
      have hside := soFar_fits (hu turn)
      obtain ⟨rfl, -, hnodes, htime⟩ := (count_ok_iff hside).mp hw
      have hfits := hu.put (more_fits hside hnodes htime) turn
      rw [ih hfits hrest, sideReports, hr, side_put]
      by_cases hturn : turn = white
      · subst hturn
        rw [if_pos rfl, if_pos rfl]
        rfl
      · rw [if_neg hturn, if_neg hturn]
        rfl

theorem foldl_more (rs : List MoveReport) (u : EngineUsage) :
    rs.foldl (fun u r => some (more u r)) (some u) =
      some ⟨u.nodes + (rs.map fun r => (digitsValue r.nodes : Int)).sum,
        u.timeMs + (rs.map (·.ms)).sum⟩ := by
  induction rs generalizing u with
  | nil => simp
  | cons r rs ih =>
    rw [List.foldl_cons, ih]
    simp [more, soFar, add_assoc]

theorem nodes_printed (rs : List Report) :
    ((rs.map Report.printed).map fun r => (digitsValue r.nodes : Int)).sum =
      ((rs.map (·.nodes)).sum : Nat) := by
  induction rs with
  | nil => rfl
  | cons r rs ih =>
    have hvalue : digitsValue r.printed.nodes = r.nodes := digitsValue_toDigits r.nodes
    rw [List.map_cons, List.map_cons, List.sum_cons, ih, hvalue, List.map_cons, List.sum_cons]
    push_cast
    rfl

theorem times_printed {rs : List Report} (h : ∀ r ∈ rs, Restored r.timeMs) :
    ((rs.map Report.printed).map (·.ms)).sum = ((rs.map (·.timeMs)).sum : Nat) := by
  induction rs with
  | nil => rfl
  | cons r rs ih =>
    have hr := r.ms_printed (h r (by simp))
    rw [List.map_cons, List.map_cons, List.sum_cons, ih fun r hr => h r (by simp [hr]), hr,
      List.map_cons, List.sum_cons]
    push_cast
    rfl

/-- If the sums over all moves fit, so do those of the sides. -/
theorem sumsFit_everyOther {plies : List Ply} (h : SumsFit plies) (k : Nat) :
    SumsFit (everyOther k plies) := by
  have hsub : (reportsOf (everyOther k plies)).Sublist (reportsOf plies) :=
    (everyOther_sublist k plies).filterMap _
  have hle : ∀ f : Report → Nat,
      ((reportsOf (everyOther k plies)).map f).sum ≤ ((reportsOf plies).map f).sum :=
    fun f => (hsub.map f).sum_le_sum fun n _ => Nat.zero_le n
  exact ⟨(hle _).trans_lt h.1, (hle _).trans_lt h.2⟩

/-- A side whose sums fit has room for its reports. -/
theorem room_of_fit {plies : List Ply} (hfit : SumsFit plies)
    (h : ∀ r ∈ reportsOf plies, Restored r.timeMs) :
    Room none ((reportsOf plies).map Report.printed) := by
  obtain ⟨hnodes, htime⟩ := hfit
  refine ⟨fun q hq => ?_, ?_, ?_⟩
  · obtain ⟨r, hr, rfl⟩ := List.mem_map.mp hq
    have hle : ∀ f : Report → Nat, f r ≤ ((reportsOf plies).map f).sum :=
      fun f => List.single_le_sum (by simp) _ (List.mem_map_of_mem hr)
    exact r.readable ((hle _).trans_lt hnodes) ((hle _).trans_lt htime) (h r hr)
  · rw [nodes_printed]
    simp only [soFar, Option.getD_none, zero_add]
    exact_mod_cast hnodes
  · rw [times_printed h]
    simp only [soFar, Option.getD_none, zero_add]
    exact_mod_cast htime

theorem foldl_totals {plies : List Ply} (h : ∀ r ∈ reportsOf plies, Restored r.timeMs) :
    ((reportsOf plies).map Report.printed).foldl (fun u r => some (more u r)) none = totals plies := by
  have hnodes := nodes_printed (reportsOf plies)
  have htimes := times_printed h
  unfold totals
  cases hreports : reportsOf plies with
  | nil => rfl
  | cons r rs =>
    rw [hreports] at hnodes htimes
    have hfirst : more none r.printed = ⟨digitsValue r.printed.nodes, r.printed.ms⟩ := by
      simp [more, soFar]
    rw [List.map_cons, List.foldl_cons, hfirst, foldl_more, ← hnodes, ← htimes]
    simp

theorem fromBlankLine_line {l rest : List Char} (h : '\n' ∉ l) :
    fromBlankLine (l ++ rest) = fromBlankLine rest := by
  induction l with
  | nil => rfl
  | cons c l ih =>
    have hc : ¬(c = '\n' ∧ (l ++ rest).head? = some '\n') := fun hand => h (by simp [hand.1])
    rw [List.cons_append, fromBlankLine, if_neg hc]
    exact ih fun hin => h (by simp [hin])

theorem Tag.line_eq (t : Tag) : ∃ cs, t.parts.line = '[' :: cs := ⟨_, rfl⟩

theorem unlines_cons (l : Line) (ls : List Line) : ∃ rest, unlines (l :: ls) = l ++ rest := by
  cases ls with
  | nil => exact ⟨[], by simp [unlines]⟩
  | cons m ls => exact ⟨'\n' :: unlines (m :: ls), by simp [unlines]⟩

/-- The first blank line is the one after the tags. -/
theorem fromBlankLine_text (tags : List Tag) (body : List Char) :
    fromBlankLine (unlines (tags.map (·.parts.line)) ++ '\n' :: '\n' :: body) =
      some ('\n' :: '\n' :: body) := by
  induction tags with
  | nil => rfl
  | cons t tags ih =>
    cases tags with
    | nil =>
      have hline : unlines ([t].map (·.parts.line)) = t.parts.line := by simp [unlines]
      rw [hline, fromBlankLine_line t.one_line]
      rfl
    | cons t' tags =>
      obtain ⟨cs, hcs⟩ := t'.line_eq
      have hlines : unlines ((t :: t' :: tags).map (·.parts.line)) =
          t.parts.line ++ '\n' :: unlines ((t' :: tags).map (·.parts.line)) := by
        simp [unlines]
      have hhead : (unlines ((t' :: tags).map (·.parts.line)) ++
          '\n' :: '\n' :: body).head? ≠ some '\n' := by
        obtain ⟨rest, hrest⟩ := unlines_cons t'.parts.line (tags.map (·.parts.line))
        rw [List.map_cons, hrest, hcs]
        simp
      rw [hlines, List.append_assoc, fromBlankLine_line t.one_line, List.cons_append, fromBlankLine,
        if_neg fun hand => hhead hand.2, ih]

/-- The sums of the two sides: the one to move first has the first, third, and so on. -/
theorem usageByColor_text (g : CommentedGame) (whiteFirst : Bool)
    (htime : ∀ r ∈ reportsOf g.plies, Restored r.timeMs)
    (hfit : ∀ k, SumsFit (everyOther k g.plies)) :
    ∃ usage, usageByColor g.text whiteFirst = .ok usage ∧
      ∀ white, usage.side white =
        totals (everyOther (if whiteFirst = white then 0 else 1) g.plies) := by
  have hbody := fromBlankLine_text g.tags (bodyText g.plies g.result)
  have hcomments : comments none ('\n' :: '\n' :: bodyText g.plies g.result) =
      g.plies.map fun p => '\x7b' :: p.comment.text := comments_body g.result_clean
  have hrestored : ∀ k, ∀ r ∈ reportsOf (everyOther k g.plies), Restored r.timeMs := by
    intro k r hr
    exact htime r (((everyOther_sublist k g.plies).filterMap _).subset hr)
  have hroom : UsageFits g.text whiteFirst := by
    intro body hb white
    rw [CommentedGame.text, hbody] at hb
    cases hb
    rw [hcomments, sideReports_eq]
    exact room_of_fit (hfit _) (hrestored _)
  obtain ⟨usage, husage⟩ := usageByColor_ok_iff.mpr hroom
  refine ⟨usage, husage, fun white => ?_⟩
  rw [usageByColor, CommentedGame.text, hbody] at husage
  have hside := countMoves_side fits_empty husage white
  have hempty : ({} : ColorUsage).side white = none := by
    cases white <;> rfl
  rw [hside, hcomments, sideReports_eq, hempty, foldl_totals (hrestored _)]

theorem readTags_lines (tags : List Tag) (rest : List Line) (read : Tags) :
    readTags (tags.map (·.parts.line) ++ rest) read =
      readTags rest ((tags.map fun t => (t.name, t.value)).reverse ++ read) := by
  induction tags generalizing read with
  | nil => rfl
  | cons t tags ih =>
    have htag : tagOf (dropReturn t.parts.line) = some (t.name, t.value) := by
      rw [tagOf_dropReturn, t.parts.tagOf_line]
    have hnext : ∀ ls, readTags (t.parts.line :: ls) read =
        readTags ls ((t.name, t.value) :: read) := by
      intro ls
      rw [readTags, htag]
    rw [List.map_cons, List.cons_append, hnext, ih, List.map_cons, List.reverse_cons,
      List.append_assoc]
    rfl

/-- The moves end the tags. -/
theorem readTags_body {body : List Char} (h : ∀ c ∈ body.head?, c ≠ '[' ∧ isSpace c = false)
    (read : Tags) : readTags ([] :: body.splitOn '\n') read = read := by
  have hempty : ∀ ls, readTags ([] :: ls) read = readTags ls read := fun ls => rfl
  rw [hempty]
  cases body with
  | nil => exact hempty []
  | cons c body =>
    obtain ⟨hbracket, hspace⟩ := h c rfl
    have hbreak : (c == '\n') = false := by
      rw [beq_eq_false_iff_ne]
      rintro rfl
      cases hspace
    obtain ⟨l, ls, hls⟩ := List.exists_cons_of_ne_nil (List.splitOn_ne_nil '\n' body)
    have hsplit : (c :: body).splitOn '\n' = (c :: l) :: ls := by
      rw [List.splitOn_cons_eq_if_modifyHead, hbreak, hls]
      rfl
    have hnone : tagOf (dropReturn (c :: l)) = none := by
      rw [tagOf_dropReturn, tagOf]
      intro rest he
      exact hbracket (List.cons_eq_cons.mp he).1
    obtain ⟨m, hm⟩ : ∃ m, dropReturn (c :: l) = c :: m := by
      unfold dropReturn
      split
      next hlast =>
        cases l with
        | nil =>
          cases hlast
          cases hspace
        | cons d l => exact ⟨_, rfl⟩
      next => exact ⟨l, rfl⟩
    rw [hsplit, readTags, hnone, hm]
    simp [hbracket]

theorem tagsOf_text (g : CommentedGame) : tagsOf g.text = g.read := by
  have hsplit : g.text.splitOn '\n' = (unlines (g.tags.map (·.parts.line))).splitOn '\n' ++
      [] :: (bodyText g.plies g.result).splitOn '\n' := by
    rw [CommentedGame.text, List.splitOn_append_cons_self, List.splitOn_cons_eq_if_modifyHead]
    rfl
  rw [tagsOf, hsplit]
  by_cases htags : g.tags = []
  · have hempty : ∀ ls, readTags ([] :: ls) [] = readTags ls [] := fun ls => rfl
    rw [CommentedGame.read, htags]
    exact (hempty _).trans (readTags_body g.starts [])
  · have hlines : (unlines (g.tags.map (·.parts.line))).splitOn '\n' =
        g.tags.map (·.parts.line) := by
      refine List.splitOn_intercalate '\n' (fun l hl => ?_) (by simpa using htags)
      obtain ⟨t, -, rfl⟩ := List.mem_map.mp hl
      exact t.one_line
    rw [hlines, readTags_lines, readTags_body g.starts, List.append_nil]
    rfl

/-- With times the client reads back, and that is each below `2 ^ 42` seconds, both sides get the
sums of their own moves, whatever else the comments say and whoever moves first. -/
theorem usage_by_side :
    (∀ ms, ms < 1000 * 2 ^ 42 → Restored ms) ∧
    ∀ g : CommentedGame, (∀ r ∈ reportsOf g.plies, Restored r.timeMs) →
      (∀ k, SumsFit (everyOther k g.plies)) →
      (∀ whiteFirst, ∃ usage, usageByColor g.text whiteFirst = .ok usage ∧
        usage.side whiteFirst = totals (everyOther 0 g.plies) ∧
        usage.side (!whiteFirst) = totals (everyOther 1 g.plies)) ∧
      ∀ name isWhite outcome duration, candidateColor g.read name = some isWhite →
        outcomeOf (g.read.find "Result".toList) isWhite = some outcome →
        gameDuration g.read = .ok duration →
        ∃ p, parseGame g.text name = .ok (some p) ∧ p.candidateIsWhite = isWhite ∧
          (whiteFirst (g.read.find "FEN".toList) = isWhite →
            p.candidateUsage = totals (everyOther 0 g.plies) ∧
            p.baselineUsage = totals (everyOther 1 g.plies)) ∧
          (whiteFirst (g.read.find "FEN".toList) ≠ isWhite →
            p.candidateUsage = totals (everyOther 1 g.plies) ∧
            p.baselineUsage = totals (everyOther 0 g.plies)) := by
  refine ⟨fun ms h => restored_of_lt h, fun g htime hfit => ⟨fun first => ?_, ?_⟩⟩
  · obtain ⟨usage, husage, hside⟩ := usageByColor_text g first htime hfit
    refine ⟨usage, husage, ?_, ?_⟩
    · rw [hside, if_pos rfl]
    · rw [hside, if_neg (Bool.not_ne_self first).symm]
  · intro name isWhite outcome duration hcolor houtcome hduration
    obtain ⟨usage, husage, hside⟩ :=
      usageByColor_text g (whiteFirst (g.read.find "FEN".toList)) htime hfit
    obtain ⟨p, hp, hwhite, hcandidate, hbaseline⟩ : ∃ p, parseGame g.text name = .ok (some p) ∧
        p.candidateIsWhite = isWhite ∧ p.candidateUsage = usage.side isWhite ∧
        p.baselineUsage = usage.side (!isWhite) := by
      unfold parseGame
      rw [tagsOf_text]
      simp only [hcolor, houtcome, hduration, husage]
      refine ⟨_, rfl, rfl, rfl, ?_⟩
      cases isWhite <;> rfl
    refine ⟨p, hp, hwhite, fun hfirst => ?_, fun hsecond => ?_⟩
    · rw [hcandidate, hbaseline, hside, hside, if_pos hfirst, hfirst,
        if_neg (Bool.not_ne_self isWhite).symm]
      exact ⟨rfl, rfl⟩
    · have hother : whiteFirst (g.read.find "FEN".toList) = !isWhite := Bool.eq_not_of_ne hsecond
      rw [hcandidate, hbaseline, hside, hside, if_neg hsecond, if_pos hother]
      exact ⟨rfl, rfl⟩

/-- A value without quotes and backslashes ends at its closing quote. -/
theorem closed_plain {value : List Char} (h : ∀ c ∈ value, c ≠ '"' ∧ c ≠ '\\') :
    Closed false value := by
  intro rest
  induction value with
  | nil => rfl
  | cons c value ih =>
    have hc : (c == '"') = false := beq_eq_false_iff_ne.mpr (h c (by simp)).1
    have hc' : (c == '\\') = false := beq_eq_false_iff_ne.mpr (h c (by simp)).2
    have hrest := ih fun d hd => h d (by simp [hd])
    rw [List.cons_append, quoted]
    simp only [hc, hc', Bool.false_and, Bool.not_false, Bool.and_false, Bool.false_eq_true, if_false,
      hrest, Option.map_some]

/-- The characters of a name, and of a value that needs no backslash. -/
def plainName (name : List Char) : Bool := !name.isEmpty && name.all fun c => isWord c && c != '\n'

def plainValue (value : List Char) : Bool := value.all fun c => c != '"' && c != '\\' && c != '\n'

/-- A tag line with one space. -/
def plainTag (name value : List Char) (hname : plainName name) (hvalue : plainValue value) : Tag where
  name := name
  value := value
  parts :=
    { gap := [' ']
      tail := []
      name_ne := by
        rintro rfl
        cases hname
      name_word := by
        simp only [plainName, Bool.and_eq_true, List.all_eq_true] at hname
        exact fun c hc => (hname.2 c hc).1
      gap_ne := by simp
      gap_space := by simp [isSpace]
      closed := by
        simp only [plainValue, List.all_eq_true, Bool.and_eq_true, bne_iff_ne] at hvalue
        exact closed_plain fun c hc => (hvalue c hc).1
      tail_space := by simp }
  one_line := by
    simp only [plainName, plainValue, List.all_eq_true, Bool.and_eq_true, bne_iff_ne] at hname hvalue
    have hname' : '\n' ∉ name := fun hin => (hname.2 _ hin).2 rfl
    have hvalue' : '\n' ∉ value := fun hin => (hvalue _ hin).2 rfl
    simp [TagLine.line, TagLine.front, hname', hvalue']

/-- A report without a text. -/
def plainReport (timeMs nodes : Nat) : Report :=
  ⟨['+', '0', '.', '0', '0'], 5, timeMs, nodes, 1000, none, by simp [isSpace], by simp⟩

/-- A move of a hundred thousand years. -/
def longGame : CommentedGame where
  tags := []
  plies := [⟨['e', '4', ' '], .report (plainReport 4398046511104021 1), by simp⟩]
  result := []
  result_clean := by simp
  starts := by simp [bodyText, Ply.text, isSpace]

/-- Its time comes back with a millisecond more. -/
theorem long_move_rounded :
    ¬∀ g : CommentedGame, (∀ k, SumsFit (everyOther k g.plies)) → ∀ whiteFirst, ∃ usage,
      usageByColor g.text whiteFirst = .ok usage ∧
        usage.side whiteFirst = totals (everyOther 0 g.plies) ∧
        usage.side (!whiteFirst) = totals (everyOther 1 g.plies) := by
  intro hall
  have hfit : ∀ k, SumsFit (everyOther k longGame.plies) :=
    sumsFit_everyOther ⟨by decide, by decide⟩
  obtain ⟨usage, husage, hside, -⟩ := hall longGame hfit true
  have hread : usageByColor longGame.text true = .ok ⟨some ⟨1, 4398046511104022⟩, none⟩ := by
    decide +kernel
  rw [hread] at husage
  cases husage
  revert hside
  decide +kernel

/-- Black opens. The last comment says nothing of nodes and time. -/
def blackOpens : CommentedGame where
  tags := [plainTag "White".toList "candidate".toList (by decide +kernel) (by decide +kernel),
    plainTag "Black".toList "baseline".toList (by decide +kernel) (by decide +kernel),
    plainTag "Result".toList "1/2-1/2".toList (by decide +kernel) (by decide +kernel),
    plainTag "FEN".toList "8/8/8/8/8/8/8/K6k b - - 0 1".toList (by decide +kernel)
      (by decide +kernel)]
  plies := [⟨"1... Kg1 ".toList, .report (plainReport 500 1000), by simp⟩,
    ⟨" 2. Kb1 ".toList, .report (plainReport 250 300), by simp⟩,
    ⟨"\nKh1 ".toList, .report (plainReport 100 100), by simp⟩,
    ⟨" 3. Ka1 ".toList,
      .silent "book".toList (by simp) (moveReport_eq_none_iff.mp (by decide +kernel)), by simp⟩]
  result := " 1/2-1/2\n".toList
  result_clean := by decide +kernel
  starts := by simp [bodyText, Ply.text, isSpace]

theorem usage_by_side_black :
    ∃ p, parseGame blackOpens.text "candidate" = .ok (some p) ∧
      p.candidateUsage = some ⟨300, 250⟩ ∧ p.baselineUsage = some ⟨1100, 600⟩ := by
  have htime : ∀ r ∈ reportsOf blackOpens.plies, r.timeMs < 1000 * 2 ^ 42 := by decide +kernel
  obtain ⟨-, hparse⟩ := usage_by_side.2 blackOpens (fun r hr => usage_by_side.1 _ (htime r hr))
    (sumsFit_everyOther ⟨by decide +kernel, by decide +kernel⟩)
  obtain ⟨p, hp, -, -, hsecond⟩ := hparse "candidate" true .draw none (by decide +kernel)
    (by decide +kernel) (by decide +kernel)
  obtain ⟨hcandidate, hbaseline⟩ := hsecond (by decide +kernel)
  refine ⟨p, hp, hcandidate.trans ?_, hbaseline.trans ?_⟩
  · decide +kernel
  · decide +kernel

end Pgn

end CapiNet
