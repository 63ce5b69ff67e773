import CapiNet.Pgn
import Mathlib.Data.List.SplitBy

namespace CapiNet

namespace Pgn

inductive Engine
  | candidate | baseline
  deriving DecidableEq

namespace Engine

def name : Engine → List Char
  | .candidate => ['c', 'a', 'n', 'd', 'i', 'd', 'a', 't', 'e']
  | .baseline => ['b', 'a', 's', 'e', 'l', 'i', 'n', 'e']

def other : Engine → Engine
  | .candidate => .baseline
  | .baseline => .candidate

/-- The name between quotes. -/
def quoted (e : Engine) : List Char := '"' :: (e.name ++ ['"'])

end Engine

/-- Texts that differ in the names of engines between quotes, if at all. -/
inductive Alike : List Char → List Char → Prop
  | nil : Alike [] []
  | same (c : Char) {s t : List Char} : Alike s t → Alike (c :: s) (c :: t)
  | named (e e' : Engine) {s t : List Char} : Alike s t → Alike (e.quoted ++ s) (e'.quoted ++ t)

namespace Alike

theorem refl (s : List Char) : Alike s s := by
  induction s with
  | nil => exact .nil
  | cons c s ih => exact .same c ih

theorem append {s t u v : List Char} (h : Alike s t) (h' : Alike u v) :
    Alike (s ++ u) (t ++ v) := by
  induction h with
  | nil => exact h'
  | same c _ ih => exact .same c ih
  | named e e' _ ih =>
    rw [List.append_assoc, List.append_assoc]
    exact .named e e' ih

/-- A text without quotes is found in both or in neither. -/
theorem isPrefixOf_eq {needle s t : List Char} (hquote : '"' ∉ needle) (h : Alike s t) :
    needle.isPrefixOf s = needle.isPrefixOf t := by
  induction needle generalizing s t with
  | nil => simp
  | cons n ns ih =>
    have hn : n ≠ '"' := fun he => hquote (by simp [he])
    cases h with
    | nil => rfl
    | same c hst =>
      simp only [List.isPrefixOf_cons_cons]
      rw [ih (fun hm => hquote (by simp [hm])) hst]
    | named e e' hst =>
      have hmiss : (n == '"') = false := by simpa using hn
      simp only [Engine.quoted, List.cons_append, List.isPrefixOf_cons_cons, hmiss, Bool.false_and]

theorem opens_eq {s t : List Char} (h : Alike s t) : opens s = opens t :=
  isPrefixOf_eq (by decide) h

theorem head?_eq {s t : List Char} (h : Alike s t) : s.head? = t.head? := by
  cases h with
  | nil => rfl
  | same c _ => rfl
  | named e e' _ => simp [Engine.quoted]

theorem takeWhile_digits {s t : List Char} (h : Alike s t) :
    s.takeWhile Char.isDigit = t.takeWhile Char.isDigit ∧
      Alike (s.dropWhile Char.isDigit) (t.dropWhile Char.isDigit) := by
  induction h with
  | nil => exact ⟨rfl, .nil⟩
  | same c hst ih =>
    simp only [List.takeWhile_cons, List.dropWhile_cons]
    split
    · exact ⟨by rw [ih.1], ih.2⟩
    · exact ⟨rfl, .same c hst⟩
  | named e e' hst _ =>
    have hquote : ('"' : Char).isDigit = false := by decide
    simp only [Engine.quoted, List.cons_append, List.takeWhile_cons, List.dropWhile_cons, hquote]
    exact ⟨rfl, .named e e' hst⟩

theorem drop_one {s t : List Char} (h : Alike s t) :
    (s.drop 1).takeWhile Char.isDigit = (t.drop 1).takeWhile Char.isDigit := by
  cases h with
  | nil => rfl
  | same c hst => exact hst.takeWhile_digits.1
  | named e e' hst =>
    cases e <;> cases e' <;> rfl

theorem searchNodes_quoted (e : Engine) (w : Bool) (s : List Char) :
    searchNodes w (e.quoted ++ s) = searchNodes false s := by
  cases e <;> cases w <;> simp [Engine.quoted, Engine.name, searchNodes, isWord]

theorem searchNodes_eq {s t : List Char} (h : Alike s t) (w : Bool) :
    searchNodes w s = searchNodes w t := by
  induction h generalizing w with
  | nil => rfl
  | same c hst ih => simp only [searchNodes, hst.head?_eq, hst.drop_one, ih]
  | named e e' _ ih => rw [searchNodes_quoted, searchNodes_quoted, ih]

theorem wordEnds_eq {s t : List Char} (h : Alike s t) : wordEnds s = wordEnds t := by
  unfold wordEnds
  rw [h.head?_eq]

theorem drop_one_alike {s t : List Char} (h : Alike s t) (hquote : s.head? ≠ some '"') :
    Alike (s.drop 1) (t.drop 1) := by
  cases h with
  | nil => exact .nil
  | same c hst => exact hst
  | named e e' _ => exact absurd rfl hquote

theorem fraction_eq {s t : List Char} (h : Alike s t) :
    (fraction s).1 = (fraction t).1 ∧ Alike (fraction s).2 (fraction t).2 := by
  have hdigits := h.drop_one
  have hhead := h.head?_eq
  by_cases hdot : s.head? = some '.' ∧ (s.drop 1).takeWhile Char.isDigit ≠ []
  · have hdot' : t.head? = some '.' ∧ (t.drop 1).takeWhile Char.isDigit ≠ [] :=
      ⟨hhead ▸ hdot.1, hdigits ▸ hdot.2⟩
    have hrest := h.drop_one_alike (by rw [hdot.1]; decide)
    simp only [fraction, if_pos hdot, if_pos hdot']
    exact hrest.takeWhile_digits
  · have hdot' : ¬(t.head? = some '.' ∧ (t.drop 1).takeWhile Char.isDigit ≠ []) := by
      rwa [← hhead, ← hdigits]
    simp only [fraction, if_neg hdot, if_neg hdot']
    exact ⟨trivial, h⟩

theorem timeAt_eq {s t : List Char} (h : Alike s t) : timeAt s = timeAt t := by
  obtain ⟨hwhole, hrest⟩ := h.takeWhile_digits
  obtain ⟨hfrac, htail⟩ := hrest.fraction_eq
  dsimp only [timeAt]
  rw [hwhole, hfrac, htail.head?_eq]
  by_cases hs : (fraction (t.dropWhile Char.isDigit)).2.head? = some 's'
  · have hdrop := htail.drop_one_alike (by rw [htail.head?_eq, hs]; decide)
    rw [hdrop.wordEnds_eq]
  · simp only [hs, false_and, and_false, if_false]

theorem searchTime_quoted (e : Engine) (s : List Char) :
    searchTime (e.quoted ++ s) = searchTime s := by
  cases e <;> simp [Engine.quoted, Engine.name, searchTime, isSpace]

theorem searchTime_eq {s t : List Char} (h : Alike s t) : searchTime s = searchTime t := by
  induction h with
  | nil => rfl
  | same c hst ih => simp only [searchTime, hst.timeAt_eq, ih]
  | named e e' _ ih => rw [searchTime_quoted, searchTime_quoted, ih]

theorem moveReport_eq {s t : List Char} (h : Alike s t) : moveReport s = moveReport t := by
  unfold moveReport
  rw [h.searchNodes_eq, h.searchTime_eq]

theorem comments_quoted (e : Engine) (read : Option (List Char)) (s : List Char) :
    comments read (e.quoted ++ s) = comments (read.map (· ++ e.quoted)) s := by
  cases read with
  | none => cases e <;> simp [Engine.quoted, Engine.name, comments]
  | some r => cases e <;> simp [Engine.quoted, Engine.name, comments]

/-- What two readings have of the comment they are in. -/
def ReadAlike : Option (List Char) → Option (List Char) → Prop
  | some r, some r' => Alike r r'
  | none, none => True
  | _, _ => False

theorem comments_alike {s t : List Char} (h : Alike s t) {read read' : Option (List Char)}
    (hread : ReadAlike read read') :
    List.Forall₂ Alike (comments read s) (comments read' t) := by
  induction h generalizing read read' with
  | nil =>
    cases read <;> cases read' <;> exact .nil
  | same c _ ih =>
    cases read with
    | none =>
      cases read' with
      | none =>
        simp only [comments]
        split
        · exact ih (.same c .nil)
        · exact ih hread
      | some r' => exact hread.elim
    | some r =>
      cases read' with
      | none => exact hread.elim
      | some r' =>
        simp only [comments]
        split
        · exact .cons hread (ih trivial)
        · exact ih (append hread (.same c .nil))
  | named e e' _ ih =>
    rw [comments_quoted, comments_quoted]
    refine ih ?_
    cases read with
    | none => cases read' with
      | none => trivial
      | some r' => exact hread.elim
    | some r => cases read' with
      | none => exact hread.elim
      | some r' => exact append hread (by simpa using named e e' .nil)

theorem countMoves_eq {cs cs' : List (List Char)} (h : List.Forall₂ Alike cs cs') (turn : Bool)
    (u : ColorUsage) : countMoves turn cs u = countMoves turn cs' u := by
  induction h generalizing turn u with
  | nil => rfl
  | cons hc _ ih => simp only [countMoves, moveReport_eq hc, ih]

theorem fromBlankLine_quoted (e : Engine) (s : List Char) :
    fromBlankLine (e.quoted ++ s) = fromBlankLine s := by
  cases e <;> simp [Engine.quoted, Engine.name, fromBlankLine]

theorem fromBlankLine_alike {s t : List Char} (h : Alike s t) :
    ReadAlike (fromBlankLine s) (fromBlankLine t) := by
  induction h with
  | nil => trivial
  | same c hst ih =>
    simp only [fromBlankLine, hst.head?_eq]
    split
    · exact .same c hst
    · exact ih
  | named e e' _ ih =>
    rw [fromBlankLine_quoted, fromBlankLine_quoted]
    exact ih

theorem usageByColor_eq {s t : List Char} (h : Alike s t) (whiteFirst : Bool) :
    usageByColor s whiteFirst = usageByColor t whiteFirst := by
  have hblank := h.fromBlankLine_alike
  unfold usageByColor
  cases hs : fromBlankLine s with
  | none =>
    rw [hs] at hblank
    cases ht : fromBlankLine t with
    | none => rfl
    | some v => rw [ht] at hblank; exact hblank.elim
  | some u =>
    rw [hs] at hblank
    cases ht : fromBlankLine t with
    | none => rw [ht] at hblank; exact hblank.elim
    | some v =>
      rw [ht] at hblank
      exact countMoves_eq (comments_alike hblank (show ReadAlike none none from trivial)) whiteFirst {}

end Alike

/-- A value that ends at its closing quote. -/
def Closed (escaped : Bool) (value : List Char) : Prop :=
  ∀ rest, quoted escaped (value ++ '"' :: rest) = some (value, rest)

theorem closed_of_quoted {escaped : Bool} {body value rest : List Char}
    (h : quoted escaped body = some (value, rest)) :
    body = value ++ '"' :: rest ∧ Closed escaped value := by
  induction body generalizing escaped value rest with
  | nil => cases h
  | cons c cs ih =>
    simp only [quoted] at h
    split at h
    · cases h
    next hbreak =>
      split at h
      next hquote =>
        cases h
        simp only [Bool.and_eq_true, Bool.not_eq_true', beq_iff_eq] at hquote
        obtain ⟨rfl, rfl⟩ := hquote
        exact ⟨rfl, fun _ => rfl⟩
      next hquote =>
        obtain ⟨⟨v, r⟩, hq, he⟩ := Option.map_eq_some_iff.mp h
        cases he
        obtain ⟨rfl, hclosed⟩ := ih hq
        refine ⟨rfl, fun rest => ?_⟩
        rw [List.cons_append, quoted, if_neg hbreak, if_neg hquote, hclosed rest]
        rfl

theorem closed_name (e : Engine) : Closed false e.name := by
  intro rest
  cases e <;> rfl

/-- A line `[Name "value"]` in its parts. -/
structure TagLine (name value : List Char) where
  gap : List Char
  tail : List Char
  name_ne : name ≠ []
  name_word : ∀ c ∈ name, isWord c
  gap_ne : gap ≠ []
  gap_space : ∀ c ∈ gap, isSpace c
  closed : Closed false value
  tail_space : ∀ c ∈ tail, isSpace c

namespace TagLine

variable {name value : List Char}

def front (t : TagLine name value) : List Char := '[' :: (name ++ t.gap)

def line (t : TagLine name value) : Line := t.front ++ '"' :: (value ++ '"' :: ']' :: t.tail)

theorem not_word_of_space {c : Char} (h : isSpace c) : isWord c = false := by
  have hcode : c = ' ' ∨ ('\t' ≤ c ∧ c ≤ '\r') := by simpa [isSpace] using h
  rcases hcode with rfl | ⟨-, hup⟩
  · decide
  · have hval : c.toNat ≤ 13 := UInt32.le_iff_toNat_le.mp hup
    have hne : c ≠ '_' := by
      rintro rfl
      revert hval
      decide
    simp only [isWord, Char.isAlphanum, Char.isAlpha, Char.isUpper, Char.isLower, Char.isDigit,
      ge_iff_le, UInt32.le_iff_toNat_le, beq_eq_false_iff_ne.mpr hne, Bool.or_false]
    have hsame : c.val.toNat = c.toNat := rfl
    simp [hsame]
    omega

theorem takeWhile_then {p : Char → Bool} {xs : List Char} (hxs : ∀ c ∈ xs, p c) {d : Char}
    (hd : p d = false) (rest : List Char) :
    (xs ++ d :: rest).takeWhile p = xs ∧ (xs ++ d :: rest).dropWhile p = d :: rest := by
  rw [List.takeWhile_append_of_pos hxs, List.dropWhile_append_of_pos hxs]
  simp [hd]

theorem tagOf_line (t : TagLine name value) : tagOf t.line = some (name, value) := by
  obtain ⟨g, gs, hgap⟩ := List.exists_cons_of_ne_nil t.gap_ne
  have hg : isSpace g := t.gap_space g (by simp [hgap])
  have hname := takeWhile_then t.name_word (not_word_of_space hg)
    (gs ++ '"' :: (value ++ '"' :: ']' :: t.tail))
  have hgap' := takeWhile_then t.gap_space (by decide : isSpace '"' = false)
    (value ++ '"' :: ']' :: t.tail)
  have hline : t.line = '[' :: (name ++ g :: (gs ++ '"' :: (value ++ '"' :: ']' :: t.tail))) := by
    simp [line, front, hgap]
  rw [hgap] at hgap'
  have hempty : name.isEmpty = false := by simpa using t.name_ne
  have htail : t.tail.all isSpace = true := List.all_eq_true.mpr t.tail_space
  simp only [hline, tagOf, hname.1, hname.2]
  rw [← List.cons_append, hgap'.1, hgap'.2]
  have hclosed := t.closed (']' :: t.tail)
  simp only [hclosed, hempty, htail]
  rfl

end TagLine

theorem exists_tagLine {l : Line} {name value : List Char} (h : tagOf l = some (name, value)) :
    ∃ t : TagLine name value, l = t.line := by
  unfold tagOf at h
  split at h
  next rest =>
    dsimp only at h
    split at h
    next hspace hquote =>
      split at h
      next v tail hbody =>
        split at h
        next hok =>
          cases h
          obtain ⟨hbody', hclosed⟩ := closed_of_quoted hbody
          rw [Bool.and_eq_true, Bool.not_eq_true', List.isEmpty_eq_false_iff] at hok
          have hname : rest.takeWhile isWord ++ rest.dropWhile isWord = rest :=
            List.takeWhile_append_dropWhile
          have hgap : (rest.dropWhile isWord).takeWhile isSpace ++
              (rest.dropWhile isWord).dropWhile isSpace = rest.dropWhile isWord :=
            List.takeWhile_append_dropWhile
          refine ⟨⟨(rest.dropWhile isWord).takeWhile isSpace, tail, hok.1,
            fun c hc => List.mem_takeWhile_imp hc, by rw [hspace]; simp,
            fun c hc => List.mem_takeWhile_imp hc, hclosed, List.all_eq_true.mp hok.2⟩, ?_⟩
          simp only [TagLine.line, TagLine.front, List.cons_append, List.append_assoc, ← hbody',
            ← hquote]
          rw [hgap, hname]
        next => cases h
      next => cases h
    next => cases h
  next => cases h

/-- A name, or the other one. -/
def exchangeName (value : List Char) : List Char :=
  if value = Engine.candidate.name then Engine.baseline.name
  else if value = Engine.baseline.name then Engine.candidate.name
  else value

/-- The first text between quotes, exchanged. -/
def exchangeFirst : List Char → List Char
  | [] => []
  | c :: cs =>
    if c ≠ '"' then c :: exchangeFirst cs
    else if Engine.candidate.quoted.isPrefixOf (c :: cs) then
      Engine.baseline.quoted ++ (c :: cs).drop Engine.candidate.quoted.length
    else if Engine.baseline.quoted.isPrefixOf (c :: cs) then
      Engine.candidate.quoted ++ (c :: cs).drop Engine.baseline.quoted.length
    else c :: cs

/-- The tags that name an engine. -/
def namesEngine (name : List Char) : Bool := name = "White".toList ∨ name = "Black".toList

def exchangeTag (l : Line) : Line :=
  match tagOf l with
  | some (name, _) => if namesEngine name then exchangeFirst l else l
  | none => l

/-- The exchange on a tag that was read. -/
def exchangeEntry (tag : List Char × List Char) : List Char × List Char :=
  (tag.1, if namesEngine tag.1 then exchangeName tag.2 else tag.2)

/-- The exchange in the lines of a game, to the end of its tags. -/
def exchangeTags : List Line → List Line
  | [] => []
  | l :: ls =>
    let line := dropReturn l
    match tagOf line with
    | some _ => exchangeTag l :: exchangeTags ls
    | none => if line.isEmpty || line.head? == some '[' then l :: exchangeTags ls else l :: ls

/-- The exchange in a text of games. -/
def exchangeGames (body : List Char) : List Char :=
  unlines (((body.splitOn '\n').splitBy fun _ l => !opens l).flatMap exchangeTags)

/-- A file with the names exchanged in the tags of every game. -/
def exchangeEngines : List Char → List Char
  | [] => []
  | c :: cs => if opens (c :: cs) then exchangeGames (c :: cs) else c :: exchangeEngines cs

theorem exchangeFirst_front {front rest : List Char} (h : '"' ∉ front) :
    exchangeFirst (front ++ '"' :: rest) = front ++ exchangeFirst ('"' :: rest) := by
  induction front with
  | nil => rfl
  | cons c cs ih =>
    have hc : c ≠ '"' := fun he => h (by simp [he])
    rw [List.cons_append, exchangeFirst, if_pos hc, ih fun hm => h (by simp [hm])]
    rfl

theorem exchangeFirst_value {value post : List Char} (h : Closed false value) :
    exchangeFirst ('"' :: (value ++ '"' :: post)) = '"' :: (exchangeName value ++ '"' :: post) := by
  have hfront : ∀ e : Engine, e.quoted.isPrefixOf ('"' :: (value ++ '"' :: post)) = true ↔
      value = e.name := by
    intro e
    rw [List.isPrefixOf_iff_prefix]
    constructor
    · rintro ⟨rest, he⟩
      have hsame : e.name ++ '"' :: rest = value ++ '"' :: post := by
        simpa [Engine.quoted] using he
      have hread := closed_name e rest
      rw [hsame, h post] at hread
      exact (Prod.mk.inj (Option.some.inj hread)).1
    · rintro rfl
      exact ⟨post, by simp [Engine.quoted]⟩
  have hquote : ¬( '"' ≠ '"') := by simp
  unfold exchangeName
  by_cases hcand : value = Engine.candidate.name
  · rw [exchangeFirst, if_neg hquote, if_pos ((hfront .candidate).mpr hcand), if_pos hcand, hcand]
    rfl
  · by_cases hbase : value = Engine.baseline.name
    · rw [exchangeFirst, if_neg hquote, if_neg (mt (hfront .candidate).mp hcand),
        if_pos ((hfront .baseline).mpr hbase), if_neg hcand, if_pos hbase, hbase]
      rfl
    · rw [exchangeFirst, if_neg hquote, if_neg (mt (hfront .candidate).mp hcand),
        if_neg (mt (hfront .baseline).mp hbase), if_neg hcand, if_neg hbase]

theorem closed_exchangeName {value : List Char} (h : Closed false value) :
    Closed false (exchangeName value) := by
  unfold exchangeName
  split
  · exact closed_name .baseline
  · split
    · exact closed_name .candidate
    · exact h

theorem TagLine.quote_notMem_front {name value : List Char} (t : TagLine name value) :
    '"' ∉ t.front := by
  intro hm
  rcases List.mem_cons.mp hm with he | hm
  · cases he
  rcases List.mem_append.mp hm with hname | hgap
  · exact absurd (t.name_word _ hname) (by decide)
  · exact absurd (t.gap_space _ hgap) (by decide)

/-- The line with another value. -/
def TagLine.exchanged {name value : List Char} (t : TagLine name value) :
    TagLine name (exchangeName value) :=
  { t with closed := closed_exchangeName t.closed }

theorem exchangeFirst_line {name value : List Char} (t : TagLine name value) :
    exchangeFirst t.line = t.exchanged.line := by
  unfold TagLine.line
  rw [exchangeFirst_front t.quote_notMem_front, exchangeFirst_value t.closed]
  rfl

theorem tagOf_exchangeTag (l : Line) : tagOf (exchangeTag l) = (tagOf l).map exchangeEntry := by
  cases htag : tagOf l with
  | none =>
    unfold exchangeTag
    rw [htag]
    exact htag
  | some tag =>
    obtain ⟨name, value⟩ := tag
    obtain ⟨t, rfl⟩ := exists_tagLine htag
    unfold exchangeTag
    rw [htag]
    by_cases hname : namesEngine name
    · simp only [hname, if_true, exchangeFirst_line, t.exchanged.tagOf_line, Option.map_some,
        exchangeEntry]
    · simp only [hname, Bool.false_eq_true, if_false, htag, Option.map_some, exchangeEntry]

theorem exchangeName_alike (value post : List Char) :
    Alike ('"' :: (value ++ '"' :: post)) ('"' :: (exchangeName value ++ '"' :: post)) := by
  have hnamed : ∀ e : Engine, '"' :: (e.name ++ '"' :: post) = e.quoted ++ post := by
    intro e
    simp [Engine.quoted]
  unfold exchangeName
  split
  next h =>
    rw [h, hnamed, hnamed]
    exact .named _ _ (.refl post)
  next =>
    split
    next h =>
      rw [h, hnamed, hnamed]
      exact .named _ _ (.refl post)
    next => exact .refl _

theorem exchangeTag_alike (l : Line) : Alike l (exchangeTag l) := by
  unfold exchangeTag
  split
  next name value htag =>
    split
    next =>
      obtain ⟨t, rfl⟩ := exists_tagLine htag
      rw [exchangeFirst_line]
      exact (Alike.refl t.front).append (exchangeName_alike value _)
    next => exact .refl l
  next => exact .refl l

/-- The line up to the closing bracket. -/
def TagLine.stem {name value : List Char} (t : TagLine name value) : List Char :=
  t.front ++ '"' :: (value ++ ['"', ']'])

theorem TagLine.line_eq {name value : List Char} (t : TagLine name value) :
    t.line = t.stem ++ t.tail := by
  simp [line, stem]

theorem tagOf_append_return (l : Line) : tagOf (l ++ ['\r']) = tagOf l := by
  cases htag : tagOf l with
  | some tag =>
    obtain ⟨name, value⟩ := tag
    obtain ⟨t, rfl⟩ := exists_tagLine htag
    let longer : TagLine name value :=
      { t with
        tail := t.tail ++ ['\r']
        tail_space := by
          intro c hc
          rcases List.mem_append.mp hc with hc | hc
          · exact t.tail_space c hc
          · rw [List.mem_singleton.mp hc]; decide }
    have hline : t.line ++ ['\r'] = longer.line := by
      rw [t.line_eq, longer.line_eq, List.append_assoc]
      rfl
    rw [hline]
    exact longer.tagOf_line
  | none =>
    cases htag' : tagOf (l ++ ['\r']) with
    | none => rfl
    | some tag =>
      obtain ⟨name, value⟩ := tag
      obtain ⟨t, ht⟩ := exists_tagLine htag'
      rw [t.line_eq] at ht
      rcases List.eq_nil_or_concat t.tail with hnil | ⟨tail, c, htail⟩
      · have hstem : t.stem = t.front ++ '"' :: (value ++ ['"']) ++ [']'] := by simp [TagLine.stem]
        rw [hnil, List.append_nil, hstem] at ht
        have hlast := (List.append_inj' ht rfl).2
        simp at hlast
      · rw [List.concat_eq_append] at htail
        rw [htail, ← List.append_assoc] at ht
        have hl := (List.append_inj' ht rfl).1
        let shorter : TagLine name value :=
          { t with
            tail := tail
            tail_space := fun d hd => t.tail_space d (by rw [htail]; simp [hd]) }
        have hline : l = shorter.line := by
          rw [hl, shorter.line_eq]
          rfl
        rw [hline, shorter.tagOf_line] at htag
        cases htag

theorem tagOf_dropReturn (l : Line) : tagOf (dropReturn l) = tagOf l := by
  unfold dropReturn
  split
  next hlast =>
    obtain ⟨m, rfl⟩ := List.getLast?_eq_some_iff.mp hlast
    rw [List.dropLast_concat, tagOf_append_return]
  next => rfl

theorem readTags_exchange (ls : List Line) (tags : Tags) :
    readTags (exchangeTags ls) (tags.map exchangeEntry) =
      (readTags ls tags).map exchangeEntry := by
  induction ls generalizing tags with
  | nil => rfl
  | cons l ls ih =>
    cases htag : tagOf l with
    | some tag =>
      have hline : tagOf (dropReturn l) = some tag := (tagOf_dropReturn l).trans htag
      have hnew : tagOf (dropReturn (exchangeTag l)) = some (exchangeEntry tag) := by
        rw [tagOf_dropReturn, tagOf_exchangeTag, htag, Option.map_some]
      simp only [exchangeTags, readTags, hline, hnew]
      exact ih (tag :: tags)
    | none =>
      have hline : tagOf (dropReturn l) = none := (tagOf_dropReturn l).trans htag
      simp only [exchangeTags, readTags, hline]
      split
      next hgo =>
        simp only [readTags, hline, hgo, if_true]
        exact ih tags
      next hstop =>
        simp only [readTags, hline, hstop]
        rfl

theorem exchangeTags_alike (ls : List Line) : List.Forall₂ Alike ls (exchangeTags ls) := by
  induction ls with
  | nil => exact .nil
  | cons l ls ih =>
    simp only [exchangeTags]
    split
    · exact .cons (exchangeTag_alike l) ih
    · split
      · exact .cons (.refl l) ih
      · exact .cons (.refl l) (List.forall₂_same.mpr fun m _ => .refl m)

theorem exchangeTags_eq_nil {ls : List Line} (h : exchangeTags ls = []) : ls = [] := by
  have halike := exchangeTags_alike ls
  rw [h] at halike
  cases halike
  rfl

/-- A game and the same one with the names exchanged in its tags. -/
structure Exchanged (game game' : List Char) : Prop where
  alike : Alike game game'
  tags : tagsOf game' = (tagsOf game).map exchangeEntry

theorem newline_notMem {s : List Char} {l : Line} (h : l ∈ s.splitOn '\n') : '\n' ∉ l := by
  induction s generalizing l with
  | nil =>
    rw [List.splitOn_nil, List.mem_singleton] at h
    subst h
    simp
  | cons c s ih =>
    rw [List.splitOn_cons_eq_if_modifyHead] at h
    split at h
    · rcases List.mem_cons.mp h with rfl | h
      · simp
      · exact ih h
    next hc =>
      have hne : s.splitOn '\n' ≠ [] := List.splitOn_ne_nil _ _
      obtain ⟨m, ms, hms⟩ := List.exists_cons_of_ne_nil hne
      rw [hms, List.modifyHead_cons] at h
      rcases List.mem_cons.mp h with rfl | h
      · intro hmem
        rcases List.mem_cons.mp hmem with rfl | hmem
        · exact hc rfl
        · exact ih (hms ▸ List.mem_cons_self) hmem
      · exact ih (hms ▸ List.mem_cons_of_mem m h)

theorem newline_mem_iff {s t : List Char} (h : Alike s t) : '\n' ∈ s ↔ '\n' ∈ t := by
  have hquoted : ∀ e : Engine, '\n' ∉ e.quoted := by
    intro e
    cases e <;> decide
  induction h with
  | nil => simp
  | same c _ ih => simp [ih]
  | named e e' _ ih => simp [hquoted, ih]

theorem clean_of_alike {ls ms : List Line} (h : List.Forall₂ Alike ls ms)
    (hls : ∀ l ∈ ls, '\n' ∉ l) : ∀ m ∈ ms, '\n' ∉ m := by
  induction h with
  | nil => simp
  | cons hl _ ih =>
    intro m hm
    rcases List.mem_cons.mp hm with rfl | hm
    · exact mt (newline_mem_iff hl).mpr (hls _ (by simp))
    · exact ih (fun l hl => hls l (by simp [hl])) m hm

theorem unlines_alike {ls ms : List Line} (h : List.Forall₂ Alike ls ms) :
    Alike (unlines ls) (unlines ms) := by
  induction h with
  | nil => exact .nil
  | cons hl hrest ih =>
    cases hrest with
    | nil => simpa [unlines] using hl
    | cons hm hrest =>
      unfold unlines at ih ⊢
      rw [List.intercalate_cons_cons, List.intercalate_cons_cons]
      exact (hl.append (.refl _)).append ih

theorem chomp_quoted (e : Engine) (s : List Char) : chomp (e.quoted ++ s) = e.quoted ++ chomp s := by
  cases hs : chomp s with
  | nil => cases e <;> simp [Engine.quoted, Engine.name, chomp, hs]
  | cons c cs => cases e <;> simp [Engine.quoted, Engine.name, chomp, hs]

theorem chomp_alike {s t : List Char} (h : Alike s t) : Alike (chomp s) (chomp t) := by
  induction h with
  | nil => exact .nil
  | same c _ ih =>
    simp only [chomp]
    generalize chomp _ = u at ih
    generalize chomp _ = v at ih
    cases ih with
    | nil => exact .refl _
    | same d huv => exact .same c (.same d huv)
    | named e e' huv => exact .same c (.named e e' huv)
  | named e e' _ ih =>
    rw [chomp_quoted, chomp_quoted]
    exact .named e e' ih

theorem readTags_append_nil (ls : List Line) (tags : Tags) :
    readTags (ls ++ [[]]) tags = readTags ls tags := by
  induction ls generalizing tags with
  | nil => rfl
  | cons l ls ih =>
    simp only [List.cons_append, readTags, ih]

/-- Of the last line, only its tag matters. -/
theorem readTags_last (ls : List Line) {l m : Line} (h : tagOf l = tagOf m) (tags : Tags) :
    readTags (ls ++ [l]) tags = readTags (ls ++ [m]) tags := by
  induction ls generalizing tags with
  | nil =>
    simp only [List.nil_append, readTags, tagOf_dropReturn, h]
    split
    · rfl
    · split
      · split
        · rfl
        · rfl
      · split
        · rfl
        · rfl
  | cons k ls ih => simp only [List.cons_append, readTags, ih]

theorem unlines_append_last (ls : List Line) (l : Line) (s : List Char) :
    unlines (ls ++ [l]) ++ s = unlines (ls ++ [l ++ s]) := by
  induction ls with
  | nil => simp [unlines]
  | cons k ls ih =>
    cases ls with
    | nil => simp [unlines]
    | cons m ms =>
      unfold unlines at ih ⊢
      simp only [List.cons_append, List.intercalate_cons_cons, List.append_assoc] at ih ⊢
      rw [ih]

theorem tagsOf_append_newline (s : List Char) : tagsOf (s ++ ['\n']) = tagsOf s := by
  unfold tagsOf
  rw [List.splitOn_append_cons_self, List.splitOn_nil, readTags_append_nil]

theorem tagsOf_append_return (s : List Char) : tagsOf (s ++ ['\r']) = tagsOf s := by
  rcases List.eq_nil_or_concat (s.splitOn '\n') with hnil | ⟨ls, l, hls⟩
  · exact absurd hnil (List.splitOn_ne_nil _ _)
  rw [List.concat_eq_append] at hls
  have hclean : ∀ m ∈ ls ++ [l ++ ['\r']], '\n' ∉ m := by
    intro m hm
    rcases List.mem_append.mp hm with hm | hm
    · exact newline_notMem (hls ▸ List.mem_append_left [l] hm)
    · have hl : '\n' ∉ l := newline_notMem (hls ▸ List.mem_append_right ls (by simp))
      rw [List.mem_singleton.mp hm]
      simp [hl]
  have hs : s = unlines (ls ++ [l]) := by
    rw [← hls]
    exact (List.intercalate_splitOn '\n').symm
  have hlong : (s ++ ['\r']).splitOn '\n' = ls ++ [l ++ ['\r']] := by
    rw [hs, unlines_append_last]
    exact List.splitOn_intercalate '\n' hclean (by simp)
  unfold tagsOf
  rw [hlong, hls]
  exact readTags_last ls (tagOf_append_return l) []

theorem chomp_spec (s : List Char) :
    ∃ t, s = chomp s ++ t ∧ ∀ c ∈ t, c = '\n' ∨ c = '\r' := by
  induction s with
  | nil => exact ⟨[], rfl, by simp⟩
  | cons c s ih =>
    obtain ⟨t, hs, ht⟩ := ih
    cases hchomp : chomp s with
    | nil =>
      rw [hchomp, List.nil_append] at hs
      subst hs
      simp only [chomp, hchomp]
      split
      next hbreak =>
        refine ⟨c :: s, rfl, fun d hd => ?_⟩
        rcases List.mem_cons.mp hd with rfl | hd
        · simpa using hbreak
        · exact ht d hd
      next => exact ⟨s, rfl, ht⟩
    | cons d ds =>
      simp only [chomp, hchomp]
      refine ⟨t, ?_, ht⟩
      rw [List.cons_append, ← hchomp, ← hs]

/-- What is cut from the end of a game holds no tag. -/
theorem tagsOf_chomp (s : List Char) : tagsOf (chomp s ++ ['\n']) = tagsOf s := by
  obtain ⟨t, hs, ht⟩ := chomp_spec s
  have hbreaks : ∀ u v : List Char, (∀ c ∈ v, c = '\n' ∨ c = '\r') → tagsOf (u ++ v) = tagsOf u := by
    intro u v hv
    induction v generalizing u with
    | nil => rw [List.append_nil]
    | cons c v ih =>
      rw [List.append_cons, ih _ fun d hd => hv d (by simp [hd])]
      rcases hv c (by simp) with rfl | rfl
      · exact tagsOf_append_newline u
      · exact tagsOf_append_return u
  conv_rhs => rw [hs]
  rw [hbreaks _ t ht, tagsOf_append_newline]

/-- The lines of a game, as a text of its own. -/
def gameText (game : List Line) : List Char := chomp (unlines game) ++ ['\n']

theorem tagsOf_gameText {game : List Line} (hne : game ≠ []) (h : ∀ l ∈ game, '\n' ∉ l) :
    tagsOf (gameText game) = readTags game [] := by
  unfold gameText
  rw [tagsOf_chomp]
  unfold tagsOf unlines
  rw [List.splitOn_intercalate '\n' h hne]

theorem exchanged_gameText {game : List Line} (hne : game ≠ []) (h : ∀ l ∈ game, '\n' ∉ l) :
    Exchanged (gameText game) (gameText (exchangeTags game)) := by
  have halike := exchangeTags_alike game
  refine ⟨(chomp_alike (unlines_alike halike)).append (.refl _), ?_⟩
  have hne' : exchangeTags game ≠ [] := mt exchangeTags_eq_nil hne
  have hclean := clean_of_alike halike h
  rw [tagsOf_gameText hne h, tagsOf_gameText hne' hclean]
  exact readTags_exchange game []

theorem opens_map_eq {ls ms : List Line} (h : List.Forall₂ Alike ls ms) :
    ls.map opens = ms.map opens := by
  induction h with
  | nil => rfl
  | cons hl _ ih => rw [List.map_cons, List.map_cons, ih, hl.opens_eq]

theorem opens_head {ls ms : List Line} (h : List.Forall₂ Alike ls ms) (hls : ls ≠ [])
    (hms : ms ≠ []) : opens (ls.head hls) = opens (ms.head hms) := by
  cases h with
  | nil => exact absurd rfl hls
  | cons hl _ => exact hl.opens_eq

/-- The lines of a game after the first open no game. -/
theorem isChain_alike {ls ms : List Line} (h : List.Forall₂ Alike ls ms)
    (hls : ls.IsChain fun _ l => (!opens l) = true) : ms.IsChain fun _ l => (!opens l) = true := by
  have hmap : (ls.map opens).IsChain fun _ b => (!b) = true := (List.isChain_map opens).mpr hls
  rw [opens_map_eq h] at hmap
  exact (List.isChain_map opens).mp hmap

/-- The games of the exchanged lines are the games, exchanged. -/
theorem splitBy_exchange (ls : List Line) :
    ((ls.splitBy fun _ l => !opens l).flatMap exchangeTags).splitBy (fun _ l => !opens l) =
      (ls.splitBy fun _ l => !opens l).map exchangeTags := by
  generalize hgames : ls.splitBy (fun _ l => !opens l) = games
  obtain ⟨-, hne, hchain, hnext⟩ := List.splitBy_eq_iff.mp hgames
  rw [List.flatMap_def]
  refine List.splitBy_flatten ?_ ?_ ?_
  · intro hnil
    obtain ⟨game, hgame, he⟩ := List.mem_map.mp hnil
    rw [exchangeTags_eq_nil he] at hgame
    exact hne hgame
  · intro m hm
    obtain ⟨game, hgame, rfl⟩ := List.mem_map.mp hm
    exact isChain_alike (exchangeTags_alike game) (hchain game hgame)
  · rw [List.isChain_map]
    refine hnext.imp ?_
    rintro a b ⟨ha, hb, hopen⟩
    refine ⟨mt exchangeTags_eq_nil ha, mt exchangeTags_eq_nil hb, ?_⟩
    rwa [← opens_head (exchangeTags_alike b) hb]

theorem flatMap_alike (games : List (List Line)) :
    List.Forall₂ Alike games.flatten (games.flatMap exchangeTags) := by
  induction games with
  | nil => exact .nil
  | cons game games ih =>
    rw [List.flatten_cons, List.flatMap_cons]
    exact List.rel_append (exchangeTags_alike game) ih

theorem exchangeGames_alike (body : List Char) : Alike body (exchangeGames body) := by
  have hlines := flatMap_alike ((body.splitOn '\n').splitBy fun _ l => !opens l)
  rw [List.flatten_splitBy] at hlines
  have htext := unlines_alike hlines
  unfold unlines at htext
  rwa [List.intercalate_splitOn] at htext

theorem exchangeEngines_alike (pgn : List Char) : Alike pgn (exchangeEngines pgn) := by
  induction pgn with
  | nil => exact .nil
  | cons c cs ih =>
    unfold exchangeEngines
    split
    · exact exchangeGames_alike (c :: cs)
    · exact .same c ih

theorem fromFirstGame_opens {s : List Char} (h : opens s) : fromFirstGame s = some s := by
  cases s with
  | nil => cases h
  | cons c cs => rw [fromFirstGame, if_pos h]

theorem fromFirstGame_exchange (pgn : List Char) :
    fromFirstGame (exchangeEngines pgn) = (fromFirstGame pgn).map exchangeGames := by
  induction pgn with
  | nil => rfl
  | cons c cs ih =>
    by_cases hopen : opens (c :: cs)
    · have hopen' : opens (exchangeGames (c :: cs)) := (exchangeGames_alike (c :: cs)).opens_eq ▸ hopen
      rw [exchangeEngines, if_pos hopen, fromFirstGame_opens hopen, fromFirstGame_opens hopen',
        Option.map_some]
    · have hopen' : ¬opens (c :: exchangeEngines cs) = true := by
        rwa [← (Alike.same c (exchangeEngines_alike cs)).opens_eq]
      rw [exchangeEngines, if_neg hopen, fromFirstGame, if_neg hopen', fromFirstGame, if_neg hopen,
        ih]

/-- Game by game, the exchange reaches the tags and nothing else. -/
theorem split_exchangeEngines (pgn : List Char) :
    List.Forall₂ Exchanged (splitPgnGames pgn) (splitPgnGames (exchangeEngines pgn)) := by
  unfold splitPgnGames
  rw [fromFirstGame_exchange]
  cases fromFirstGame pgn with
  | none => exact .nil
  | some body =>
    have hclean : ∀ l ∈ (body.splitOn '\n'), '\n' ∉ l := fun l hl => newline_notMem hl
    have hgames : ∀ game ∈ (body.splitOn '\n').splitBy (fun _ l => !opens l),
        game ≠ [] ∧ ∀ l ∈ game, '\n' ∉ l := by
      intro game hgame
      refine ⟨List.ne_nil_of_mem_splitBy hgame, fun l hl => hclean l ?_⟩
      have hflat := List.mem_flatten.mpr ⟨game, hgame, hl⟩
      rwa [List.flatten_splitBy] at hflat
    have hlines : (exchangeGames body).splitOn '\n' =
        ((body.splitOn '\n').splitBy fun _ l => !opens l).flatMap exchangeTags := by
      have halike := flatMap_alike ((body.splitOn '\n').splitBy fun _ l => !opens l)
      rw [List.flatten_splitBy] at halike
      refine List.splitOn_intercalate '\n' (clean_of_alike halike hclean) ?_
      intro hnil
      rw [hnil] at halike
      have hlen := halike.length_eq
      exact List.splitOn_ne_nil '\n' body (List.length_eq_zero_iff.mp hlen)
    simp only [Option.map_some, hlines, splitBy_exchange]
    generalize (body.splitOn '\n').splitBy (fun _ l => !opens l) = games at hgames ⊢
    rw [List.map_map]
    induction games with
    | nil => exact .nil
    | cons game games ih =>
      obtain ⟨hne, hgame⟩ := hgames game (by simp)
      exact .cons (exchanged_gameText hne hgame) (ih fun g hg => hgames g (by simp [hg]))

end Pgn

end CapiNet
