import CapiNet.Smoke

namespace CapiNet

/-- What `>>` reads: characters without a blank among them. -/
structure Field (w : String) : Prop where
  nonempty : w ≠ ""
  noBlank : ∀ c ∈ w.toList, isBlank c = false

/-- The words of a line: blanks, then a word that ends at a blank or with the line. -/
inductive Fields : List Char → List String → Prop
  | none (gap : List Char) : (∀ c ∈ gap, isBlank c = true) → Fields gap []
  | last (gap : List Char) (w : String) : (∀ c ∈ gap, isBlank c = true) → Field w →
      Fields (gap ++ w.toList) [w]
  | more (gap : List Char) (w : String) (c : Char) (rest : List Char) (ws : List String) :
      (∀ c ∈ gap, isBlank c = true) → Field w → isBlank c = true → Fields rest ws →
      Fields (gap ++ w.toList ++ c :: rest) (w :: ws)

theorem words_append_blank {c : Char} (hc : isBlank c = true) (front rest : List Char) :
    words (front ++ c :: rest) = words front ++ words rest := by
  unfold words
  rw [List.splitOnP_append_cons _ _ hc, List.filter_append, List.map_append]

theorem words_blank {gap : List Char} (h : ∀ c ∈ gap, isBlank c = true) : words gap = [] := by
  induction gap with
  | nil => simp [words]
  | cons c gap ih =>
    have hcons := words_append_blank (h c (by simp)) [] gap
    rw [List.nil_append] at hcons
    rw [hcons, ih fun d hd => h d (by simp [hd])]
    simp [words]

theorem words_gap {gap : List Char} (h : ∀ c ∈ gap, isBlank c = true) (rest : List Char) :
    words (gap ++ rest) = words rest := by
  induction gap with
  | nil => rfl
  | cons c gap ih =>
    have hcons := words_append_blank (h c (by simp)) [] (gap ++ rest)
    rw [List.nil_append] at hcons
    rw [List.cons_append, hcons, ih fun d hd => h d (by simp [hd])]
    simp [words]

theorem words_field {w : String} (h : Field w) : words w.toList = [w] := by
  have hne : w.toList ≠ [] := by simpa using h.nonempty
  unfold words
  rw [List.splitOnP_eq_singleton fun c hc => h.noBlank c hc]
  simp [h.nonempty]

/-- A line has only one reading. -/
theorem words_of_fields {line : List Char} {ws : List String} (h : Fields line ws) :
    words line = ws := by
  induction h with
  | none gap hgap => exact words_blank hgap
  | last gap w hgap hw => rw [words_gap hgap, words_field hw]
  | more gap w c rest ws hgap hw hc _ ih =>
    rw [words_append_blank hc, words_gap hgap, words_field hw, ih]
    rfl

theorem fields_blank {c : Char} {line : List Char} {ws : List String} (hc : isBlank c = true)
    (h : Fields line ws) : Fields (c :: line) ws := by
  have hgap : ∀ gap : List Char, (∀ d ∈ gap, isBlank d = true) → ∀ d ∈ c :: gap, isBlank d = true := by
    intro gap hgap d hd
    rcases List.mem_cons.mp hd with rfl | hd
    · exact hc
    · exact hgap d hd
  cases h with
  | none gap h => exact .none (c :: line) (hgap _ h)
  | last gap w h hw => exact .last (c :: gap) w (hgap _ h) hw
  | more gap w d rest ws h hw hd hrest => exact .more (c :: gap) w d rest ws (hgap _ h) hw hd hrest

theorem field_cons {c : Char} {w : List Char} (hc : isBlank c = false)
    (hw : ∀ d ∈ w, isBlank d = false) : Field (String.ofList (c :: w)) := by
  refine ⟨fun he => ?_, fun d hd => ?_⟩
  · have hnil := congrArg String.toList he
    simp at hnil
  · rw [String.toList_ofList] at hd
    rcases List.mem_cons.mp hd with rfl | hd
    · exact hc
    · exact hw d hd

/-- A character in front of a line begins a word or lengthens the first one. -/
theorem fields_letter {c : Char} {line : List Char} {ws : List String} (hc : isBlank c = false)
    (h : Fields line ws) : ∃ ws', Fields (c :: line) ws' := by
  have hone : Field (String.ofList [c]) := field_cons hc (by simp)
  have hnone : ∀ d ∈ ([] : List Char), isBlank d = true := by simp
  cases h with
  | none gap hgap =>
    cases line with
    | nil => exact ⟨_, by simpa using Fields.last [] (String.ofList [c]) hnone hone⟩
    | cons d rest =>
      have hrest := Fields.none rest fun e he => hgap e (by simp [he])
      have hmore := Fields.more [] (String.ofList [c]) d rest _ hnone hone
        (hgap d (by simp)) hrest
      exact ⟨_, by simpa using hmore⟩
  | last gap w hgap hw =>
    cases gap with
    | nil =>
      have hlong := field_cons hc hw.noBlank
      exact ⟨_, by simpa using Fields.last [] _ hnone hlong⟩
    | cons d gap =>
      have hrest := Fields.last gap w (fun e he => hgap e (by simp [he])) hw
      have hmore := Fields.more [] (String.ofList [c]) d _ _ hnone hone
        (hgap d (by simp)) hrest
      exact ⟨_, by simpa using hmore⟩
  | more gap w e rest ws hgap hw he hrest =>
    cases gap with
    | nil =>
      have hlong := field_cons hc hw.noBlank
      exact ⟨_, by simpa using Fields.more [] _ e rest ws hnone hlong he hrest⟩
    | cons d gap =>
      have hrest' := Fields.more gap w e rest ws (fun b hb => hgap b (by simp [hb])) hw he hrest
      have hmore := Fields.more [] (String.ofList [c]) d _ _ hnone hone
        (hgap d (by simp)) hrest'
      exact ⟨_, by simpa using hmore⟩

/-- Every line has a reading. -/
theorem fields_words (line : List Char) : Fields line (words line) := by
  have hex : ∃ ws, Fields line ws := by
    induction line with
    | nil => exact ⟨[], .none [] (by simp)⟩
    | cons c line ih =>
      obtain ⟨ws, hws⟩ := ih
      cases hc : isBlank c with
      | true => exact ⟨ws, fields_blank hc hws⟩
      | false => exact fields_letter hc hws
  obtain ⟨ws, hws⟩ := hex
  rw [words_of_fields hws]
  exact hws

theorem Fields.field {line : List Char} {ws : List String} (h : Fields line ws) :
    ∀ w ∈ ws, Field w := by
  induction h with
  | none => simp
  | last _ w _ hw => simpa using hw
  | more _ w _ _ ws _ hw _ _ ih =>
    intro v hv
    rcases List.mem_cons.mp hv with rfl | hv
    · exact hw
    · exact ih v hv

theorem field_of_mem_words {line : List Char} {w : String} (h : w ∈ words line) : Field w :=
  (fields_words line).field w h

/-- The counters of a line: its fifth and sixth words when both are numbers. -/
def lineCounters (rest : List String) : Option (String × String) :=
  match rest with
  | halfmove :: fullmove :: _ =>
    if isCounter halfmove && isCounter fullmove then some (halfmove, fullmove) else none
  | _ => none

def joinFields (ws : List String) : String := " ".intercalate ws

/-- The first two words of a position. -/
def Opens (board side : String) : Prop :=
  board.toList.head? ≠ some '#' ∧ (side = "w" ∨ side = "b") ∧
    (board.toList.all fun c => c == '/' || boardChars.contains c) = true ∧
    board.toList.count '/' = 7

theorem toList_joinFields (a b : String) (ws : List String) :
    (joinFields (a :: b :: ws)).toList = a.toList ++ ' ' :: (joinFields (b :: ws)).toList := by
  simp [joinFields, String.intercalate_cons_cons]

theorem words_joinFields {ws : List String} (hne : ws ≠ []) (h : ∀ w ∈ ws, Field w) :
    words (joinFields ws).toList = ws := by
  induction ws with
  | nil => exact absurd rfl hne
  | cons a ws ih =>
    cases ws with
    | nil =>
      have hone : joinFields [a] = a := by simp [joinFields]
      rw [hone, words_field (h a (by simp))]
    | cons b ws =>
      rw [toList_joinFields, words_append_blank (by decide), words_field (h a (by simp)),
        ih (by simp) fun w hw => h w (by simp [hw])]
      rfl

theorem joinFields_six (a b c d e f : String) :
    joinFields [a, b, c, d, e, f] =
      a ++ " " ++ b ++ " " ++ c ++ " " ++ d ++ " " ++ e ++ " " ++ f := by
  apply String.toList_injective
  simp [joinFields]

theorem joinFields_default (a b c d : String) :
    joinFields [a, b, c, d, "0", "1"] = a ++ " " ++ b ++ " " ++ c ++ " " ++ d ++ " 0 1" := by
  apply String.toList_injective
  simp [joinFields]

/-- The text of a position, with the counters of the line or the default ones. -/
def fenOf (board side castling ep : String) (counters : Option (String × String)) : String :=
  joinFields [board, side, castling, ep, (counters.getD ("0", "1")).1, (counters.getD ("0", "1")).2]

variable {line board side castling ep : String} {rest : List String}

theorem epdToFen_opens (hw : words line.toList = board :: side :: castling :: ep :: rest)
    (ho : Opens board side) :
    epdToFen line = some (fenOf board side castling ep (lineCounters rest)) := by
  obtain ⟨hfront, hside, hboard, hcount⟩ := ho
  unfold epdToFen
  rw [hw]
  dsimp only
  rw [if_neg hfront, if_neg (by tauto), if_neg (by rw [hboard]; decide), if_neg (not_not.mpr hcount)]
  unfold fenOf lineCounters
  rcases rest with _ | ⟨halfmove, _ | ⟨fullmove, rest⟩⟩
  · simp [joinFields_default]
  · simp [joinFields_default]
  · dsimp only
    split
    next => simp [joinFields_six]
    next => simp [joinFields_default]

theorem epdToFen_refused (hw : words line.toList = board :: side :: castling :: ep :: rest)
    (ho : ¬Opens board side) : epdToFen line = none := by
  unfold epdToFen
  rw [hw]
  dsimp only
  split_ifs with hfront hside hboard hcount
  · rfl
  · rfl
  · rfl
  · rfl
  · have hall := Bool.not_eq_false _ |>.mp (mt (Bool.not_eq_true' _).mpr hboard)
    refine absurd ⟨hfront, ?_, hall, not_not.mp hcount⟩ ho
    by_contra hno
    exact hside (not_or.mp hno)

/-- A line that is a position, and its text. -/
theorem epdToFen_some_iff {fen : String} :
    epdToFen line = some fen ↔ ∃ board side castling ep rest,
      words line.toList = board :: side :: castling :: ep :: rest ∧ Opens board side ∧
      fen = fenOf board side castling ep (lineCounters rest) := by
  constructor
  · intro h
    rcases hw : words line.toList with _ | ⟨board, _ | ⟨side, _ | ⟨castling, _ | ⟨ep, rest⟩⟩⟩⟩
    · simp [epdToFen, hw] at h
    · simp [epdToFen, hw] at h
    · simp [epdToFen, hw] at h
    · simp [epdToFen, hw] at h
    · by_cases ho : Opens board side
      · rw [epdToFen_opens hw ho] at h
        exact ⟨board, side, castling, ep, rest, rfl, ho, (Option.some.inj h).symm⟩
      · rw [epdToFen_refused hw ho] at h
        cases h
  · rintro ⟨board, side, castling, ep, rest, hw, ho, rfl⟩
    exact epdToFen_opens hw ho

theorem lineCounters_some {h f : String} (hc : lineCounters rest = some (h, f)) :
    isCounter h = true ∧ isCounter f = true := by
  rcases rest with _ | ⟨halfmove, _ | ⟨fullmove, rest⟩⟩
  · simp [lineCounters] at hc
  · simp [lineCounters] at hc
  · dsimp only [lineCounters] at hc
    split at hc
    next hboth =>
      cases hc
      obtain ⟨hh, hf⟩ := Bool.and_eq_true_iff.mp hboth
      exact ⟨hh, hf⟩
    next => cases hc

theorem lineCounters_numbers {h f : String} (hh : isCounter h = true) (hf : isCounter f = true) :
    lineCounters (h :: f :: rest) = some (h, f) := by
  simp [lineCounters, hh, hf]

theorem field_counter {w : String} (h : isCounter w = true) : Field w := by
  obtain ⟨hne, hdigits⟩ := Bool.and_eq_true_iff.mp h
  refine ⟨?_, fun c hc => ?_⟩
  · rintro rfl
    simp at hne
  · have hd := List.all_eq_true.mp hdigits c hc
    cases hblank : isBlank c with
    | false => rfl
    | true =>
      have hmem := List.contains_iff_mem.mp hblank
      have hall : [' ', '\t', '\n', '\x0b', '\x0c', '\r'].all (fun c => !c.isDigit) = true := by
        decide
      have hno := List.all_eq_true.mp hall c hmem
      simp [hd] at hno

/-- The counters a position gets are numbers. -/
theorem counters_numbers (rest : List String) :
    isCounter ((lineCounters rest).getD ("0", "1")).1 = true ∧
      isCounter ((lineCounters rest).getD ("0", "1")).2 = true := by
  cases hc : lineCounters rest with
  | none => exact ⟨by decide, by decide⟩
  | some counters =>
    exact lineCounters_some hc

/-- The words of a position are its six fields. -/
theorem words_fenOf (hw : words line.toList = board :: side :: castling :: ep :: rest) :
    (∀ w ∈ [board, side, castling, ep, ((lineCounters rest).getD ("0", "1")).1,
      ((lineCounters rest).getD ("0", "1")).2], Field w) ∧
    words (fenOf board side castling ep (lineCounters rest)).toList =
      [board, side, castling, ep, ((lineCounters rest).getD ("0", "1")).1,
        ((lineCounters rest).getD ("0", "1")).2] := by
  have hfields : ∀ w ∈ [board, side, castling, ep, ((lineCounters rest).getD ("0", "1")).1,
      ((lineCounters rest).getD ("0", "1")).2], Field w := by
    obtain ⟨hh, hf⟩ := counters_numbers rest
    intro w hmem
    have hline : w ∈ [board, side, castling, ep] → Field w := by
      intro h
      refine field_of_mem_words (hw ▸ ?_ : w ∈ words line.toList)
      simp only [List.mem_cons, List.not_mem_nil, or_false] at h ⊢
      tauto
    simp only [List.mem_cons, List.not_mem_nil, or_false] at hmem hline
    rcases hmem with h | h | h | h | rfl | rfl
    · exact hline (.inl h)
    · exact hline (.inr (.inl h))
    · exact hline (.inr (.inr (.inl h)))
    · exact hline (.inr (.inr (.inr h)))
    · exact field_counter hh
    · exact field_counter hf
  exact ⟨hfields, words_joinFields (by simp) hfields⟩

theorem epdToFen_fixed {fen : String} (h : epdToFen line = some fen) : epdToFen fen = some fen := by
  obtain ⟨board, side, castling, ep, rest, hw, ho, rfl⟩ := epdToFen_some_iff.mp h
  obtain ⟨hh, hf⟩ := counters_numbers rest
  refine epdToFen_some_iff.mpr ⟨board, side, castling, ep, _, (words_fenOf hw).2, ho, ?_⟩
  rw [lineCounters_numbers hh hf]
  rfl

theorem epdToFen_congr {line' : String}
    (hfour : (words line.toList).take 4 = (words line'.toList).take 4)
    (hcounters : lineCounters ((words line.toList).drop 4) =
      lineCounters ((words line'.toList).drop 4)) {fen : String} (h : epdToFen line = some fen) :
    epdToFen line' = some fen := by
  obtain ⟨board, side, castling, ep, rest, hw, ho, rfl⟩ := epdToFen_some_iff.mp h
  rw [hw] at hfour hcounters
  have hsplit := List.take_append_drop 4 (words line'.toList)
  rw [← hfour] at hsplit
  rw [List.drop_succ_cons, List.drop_succ_cons, List.drop_succ_cons, List.drop_succ_cons,
    List.drop_zero] at hcounters
  rw [hcounters]
  exact epdToFen_opens hsplit.symm ho

/-- A line is a position or nothing. A position is six fields, the first four those of the line;
it reads as itself, and nothing but four fields and two counters of the line decides it. -/
theorem book_line_normal_form (line : String) :
    (epdToFen line = none ∨ ∃ fen board side castling ep halfmove fullmove,
      epdToFen line = some fen ∧ fen = joinFields [board, side, castling, ep, halfmove, fullmove] ∧
      (∀ w ∈ [board, side, castling, ep, halfmove, fullmove], Field w) ∧
      (words line.toList).take 4 = [board, side, castling, ep] ∧ (side = "w" ∨ side = "b") ∧
      isCounter halfmove = true ∧ isCounter fullmove = true) ∧
    (∀ fen, epdToFen line = some fen → epdToFen fen = some fen) ∧
    ∀ line', (words line.toList).take 4 = (words line'.toList).take 4 →
      lineCounters ((words line.toList).drop 4) = lineCounters ((words line'.toList).drop 4) →
      epdToFen line = epdToFen line' := by
  refine ⟨?_, fun fen => epdToFen_fixed, fun line' hfour hcounters => ?_⟩
  · cases h : epdToFen line with
    | none => exact .inl rfl
    | some fen =>
      obtain ⟨board, side, castling, ep, rest, hw, ho, rfl⟩ := epdToFen_some_iff.mp h
      obtain ⟨hh, hf⟩ := counters_numbers rest
      exact .inr ⟨_, board, side, castling, ep, _, _, rfl, rfl, (words_fenOf hw).1, by rw [hw]; rfl,
        ho.2.1, hh, hf⟩
  · cases h : epdToFen line with
    | some fen => exact (epdToFen_congr hfour hcounters h).symm
    | none =>
      cases h' : epdToFen line' with
      | none => rfl
      | some fen =>
        rw [epdToFen_congr hfour.symm hcounters.symm h'] at h
        cases h

end CapiNet
