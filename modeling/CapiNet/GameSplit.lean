import CapiNet.PgnExchange
import CapiNet.PgnDownload

namespace CapiNet

open Relational

namespace Pgn

/-- Where a text first occurs from a place on. -/
def find (key s : List Char) (pos : Nat) : Option Nat :=
  ((s.drop pos).tails.findIdx? key.isPrefixOf).map (pos + ·)

/-- What ends a game. -/
def nextGame : List Char := '\n' :: eventTag

/-- Where the scan is, and the games behind it. -/
structure Scan where
  pos : Option Nat
  games : List (List Char)

def Scan.start (pgn : List Char) : Scan := ⟨find eventTag pgn 0, []⟩

/-- One round. The line break before the next game belongs to this one, and goes when its end is
trimmed. -/
def Scan.step (pgn : List Char) (s : Scan) : Scan :=
  match s.pos with
  | none => s
  | some pos =>
    let next := find nextGame pgn (pos + 1)
    let stop := match next with
      | none => pgn.length
      | some n => n + 1
    let g := (pgn.drop pos).take (stop - pos)
    ⟨next.map (· + 1), s.games ++ [chomp g ++ ['\n']]⟩

def scan (pgn : List Char) : Nat → Scan
  | 0 => .start pgn
  | rounds + 1 => (scan pgn rounds).step pgn

theorem find_none {key s : List Char} {pos : Nat} (h : find key s pos = none) :
    ¬key <:+: s.drop pos := by
  simp only [find, Option.map_eq_none_iff, List.findIdx?_eq_none_iff, List.mem_tails] at h
  intro hin
  obtain ⟨t, hpre, hsuf⟩ := List.infix_iff_prefix_suffix.mp hin
  have hmiss := h t hsuf
  rw [List.isPrefixOf_iff_prefix.mpr hpre] at hmiss
  cases hmiss

theorem find_some {key s : List Char} {pos n : Nat} (h : find key s pos = some n) :
    pos ≤ n ∧ key <+: s.drop n ∧ ∀ i, pos ≤ i → i < n → ¬key <+: s.drop i := by
  obtain ⟨k, hk, rfl⟩ := Option.map_eq_some_iff.mp h
  obtain ⟨hlt, hat, hbefore⟩ := List.findIdx?_eq_some_iff_getElem.mp hk
  rw [List.getElem_tails, List.drop_drop] at hat
  refine ⟨by omega, List.isPrefixOf_iff_prefix.mp hat, fun i hi hin hpre => ?_⟩
  have hmiss := hbefore (i - pos) (by omega)
  rw [List.getElem_tails, List.drop_drop, Nat.add_sub_cancel' hi] at hmiss
  exact hmiss (List.isPrefixOf_iff_prefix.mpr hpre)

theorem fromFirstGame_eq (s : List Char) : fromFirstGame s = (find eventTag s 0).map s.drop := by
  induction s with
  | nil => rfl
  | cons c s ih =>
    simp only [find, List.drop_zero, Nat.zero_add, Option.map_map] at ih ⊢
    rw [fromFirstGame, List.tails_cons, List.findIdx?_cons]
    by_cases h : opens (c :: s) = true
    · rw [if_pos h, if_pos (show eventTag.isPrefixOf (c :: s) = true from h)]
      rfl
    · rw [if_neg h, if_neg (show ¬eventTag.isPrefixOf (c :: s) = true from h), ih, Option.map_map]
      rfl

theorem isPrefixOf_takeWhile {key s : List Char} {p : Char → Bool} (h : ∀ c ∈ key, p c = true) :
    key.isPrefixOf (s.takeWhile p) = key.isPrefixOf s := by
  induction key generalizing s with
  | nil => simp
  | cons k key ih =>
    cases s with
    | nil => rfl
    | cons c s =>
      have hrest := ih (s := s) fun d hd => h d (by simp [hd])
      by_cases hc : p c = true
      · rw [List.takeWhile_cons_of_pos hc, List.isPrefixOf_cons_cons, List.isPrefixOf_cons_cons,
          hrest]
      · have hk : (k == c) = false := by
          rw [beq_eq_false_iff_ne]
          rintro rfl
          exact hc (h _ (by simp))
        rw [List.takeWhile_cons_of_neg hc, List.isPrefixOf_cons_cons, hk]
        rfl

theorem head?_splitOn (s : List Char) : (s.splitOn '\n').head? = some (s.takeWhile (· != '\n')) := by
  induction s with
  | nil => rfl
  | cons c s ih =>
    rw [List.splitOn_cons_eq_if_modifyHead]
    by_cases hc : c = '\n'
    · simp [hc]
    · obtain ⟨ls, hls⟩ := List.head?_eq_some_iff.mp ih
      rw [if_neg (by simpa using hc), hls]
      simp [hc]

/-- A text opens a game with its first line. -/
theorem opens_first {s : List Char} {l : Line} (h : (s.splitOn '\n').head? = some l) :
    opens l = opens s := by
  have hkey : ∀ c ∈ eventTag, (c != '\n') = true := by simp [eventTag]
  rw [head?_splitOn] at h
  cases h
  unfold opens
  exact isPrefixOf_takeWhile hkey

theorem opens_append_newline (s rest : List Char) : opens (s ++ '\n' :: rest) = opens s := by
  have hl := head?_splitOn s
  have hlong : ((s ++ '\n' :: rest).splitOn '\n').head? = some (s.takeWhile (· != '\n')) := by
    rw [List.splitOn_append_cons_self, List.head?_append, hl]
    rfl
  rw [← opens_first hl, ← opens_first hlong]

/-- Without a game that follows, no later line opens one. -/
theorem isChain_of_whole {s : List Char} (h : ¬nextGame <:+: s) :
    (s.splitOn '\n').IsChain fun _ l => (!opens l) = true := by
  induction s with
  | nil => exact List.isChain_singleton _
  | cons c s ih =>
    have hs : ¬nextGame <:+: s := fun hin => h (List.infix_cons hin)
    rw [List.splitOn_cons_eq_if_modifyHead]
    split
    next hc =>
      cases beq_iff_eq.mp hc
      refine List.isChain_cons.mpr ⟨fun l hl => ?_, ih hs⟩
      by_contra hopen
      rw [opens_first hl] at hopen
      simp only [Bool.not_eq_true', Bool.not_eq_false] at hopen
      have hpre : eventTag <+: s := List.isPrefixOf_iff_prefix.mp hopen
      exact h (List.IsPrefix.isInfix (List.cons_prefix_cons.mpr ⟨rfl, hpre⟩))
    next =>
      have hchain := ih hs
      cases hls : s.splitOn '\n' with
      | nil => exact List.isChain_nil
      | cons l ls =>
        rw [hls] at hchain
        exact List.isChain_cons.mpr (List.isChain_cons.mp hchain)

theorem split_one {game : List Char} (ho : opens game = true) (h : ¬nextGame <:+: game) :
    splitPgnGames game = [chomp game ++ ['\n']] := by
  rw [splitPgnGames, fromFirstGame_opens ho]
  dsimp only
  rw [List.splitBy_of_isChain (List.splitOn_ne_nil _ _) (isChain_of_whole h), List.map_singleton,
    unlines, List.intercalate_splitOn]

theorem opens_append {s t : List Char} (h : opens s = true) : opens (s ++ t) = true :=
  List.isPrefixOf_iff_prefix.mpr ((List.isPrefixOf_iff_prefix.mp h).trans (List.prefix_append s t))

theorem split_cons {game rest : List Char} (ho : opens game = true) (h : ¬nextGame <:+: game)
    (hrest : opens rest = true) :
    splitPgnGames (game ++ '\n' :: rest) = (chomp game ++ ['\n']) :: splitPgnGames rest := by
  obtain ⟨l, ls, hls⟩ := List.exists_cons_of_ne_nil (List.splitOn_ne_nil '\n' rest)
  have hl : opens l = true := by
    rw [opens_first (s := rest) (by rw [hls]; rfl)]
    exact hrest
  rw [splitPgnGames, fromFirstGame_opens (opens_append ho), splitPgnGames,
    fromFirstGame_opens hrest]
  dsimp only
  rw [List.splitOn_append_cons_self, hls, List.splitBy_append_cons ls fun _ _ => by simp [hl],
    List.splitBy_of_isChain (List.splitOn_ne_nil _ _) (isChain_of_whole h), List.map_append,
    List.map_singleton, unlines, List.intercalate_splitOn, List.singleton_append]

/-- Where the games of the scan and those of the rest of the text make up all games. -/
inductive Scanned (pgn : List Char) : Nat → Scan → Prop
  | inside {fuel : Nat} {before body : List Char} {games : List (List Char)}
    (text : pgn = before ++ body) (starts : opens body = true) (left : body.length ≤ fuel)
    (all : games ++ splitPgnGames body = splitPgnGames pgn) :
    Scanned pgn fuel ⟨some before.length, games⟩
  | finished {fuel : Nat} : Scanned pgn fuel ⟨none, splitPgnGames pgn⟩

theorem scanned_start (pgn : List Char) : Scanned pgn pgn.length (Scan.start pgn) := by
  unfold Scan.start
  have hfirst := fromFirstGame_eq pgn
  cases hpos : find eventTag pgn 0 with
  | none =>
    rw [hpos] at hfirst
    have hnone : splitPgnGames pgn = [] := by
      unfold splitPgnGames
      rw [hfirst]
      rfl
    have hdone : Scanned pgn pgn.length ⟨none, splitPgnGames pgn⟩ := .finished
    rwa [hnone] at hdone
  | some n =>
    rw [hpos, Option.map_some] at hfirst
    obtain ⟨-, hpre, -⟩ := find_some hpos
    have hopen : opens (pgn.drop n) = true := List.isPrefixOf_iff_prefix.mpr hpre
    have hlt : n ≤ pgn.length := by
      by_contra hout
      rw [List.drop_eq_nil_of_le (by omega)] at hopen
      cases hopen
    have hall : splitPgnGames (pgn.drop n) = splitPgnGames pgn := by
      unfold splitPgnGames
      rw [hfirst, fromFirstGame_opens hopen]
    have hin : Scanned pgn pgn.length ⟨some (pgn.take n).length, []⟩ :=
      .inside (List.take_append_drop n pgn).symm hopen (by simp) (by simpa using hall)
    rwa [List.length_take_of_le hlt] at hin

/-- A text from a game on is one game, or a game, a line break and the text from the next one. -/
theorem next_cases (before : List Char) {body : List Char} (hopen : opens body = true) :
    find nextGame (before ++ body) (before.length + 1) = none ∧ ¬nextGame <:+: body ∨
    ∃ game rest, body = game ++ '\n' :: rest ∧ opens game = true ∧ ¬nextGame <:+: game ∧
      opens rest = true ∧
      find nextGame (before ++ body) (before.length + 1) = some (before.length + game.length) := by
  have hdrop : ∀ k, (before ++ body).drop (before.length + k) = body.drop k := fun k => by
    rw [← List.drop_drop, List.drop_left]
  cases hnext : find nextGame (before ++ body) (before.length + 1) with
  | none =>
    have hmiss := find_none hnext
    rw [hdrop] at hmiss
    refine .inl ⟨rfl, fun hin => ?_⟩
    obtain ⟨tail, rfl⟩ := List.isPrefixOf_iff_prefix.mp hopen
    rcases List.infix_cons_iff.mp hin with hpre | htail
    · cases (List.cons_prefix_cons.mp hpre).1
    · exact hmiss htail
  | some n =>
    obtain ⟨hle, hpre, hfirst⟩ := find_some hnext
    obtain ⟨k, rfl⟩ : ∃ k, n = before.length + (k + 1) := ⟨n - before.length - 1, by omega⟩
    rw [hdrop] at hpre
    obtain ⟨rest, hrest⟩ := hpre
    have hk : k + 1 < body.length := by
      by_contra hout
      rw [List.drop_eq_nil_of_le (by omega)] at hrest
      cases hrest
    have hbody : body = body.take (k + 1) ++ '\n' :: (eventTag ++ rest) := by
      rw [← List.cons_append, ← nextGame, hrest, List.take_append_drop]
    refine .inr ⟨body.take (k + 1), eventTag ++ rest, hbody, ?_, ?_, ?_, ?_⟩
    · rwa [hbody, opens_append_newline] at hopen
    · rintro ⟨u, v, huv⟩
      have hshort := congrArg List.length huv
      simp only [List.length_append, List.length_take_of_le hk.le, nextGame, List.length_cons]
        at hshort
      refine hfirst (before.length + u.length) ?_ (by omega) ?_
      · have hu : u ≠ [] := by
          rintro rfl
          rw [hbody, opens_append_newline, ← huv] at hopen
          cases hopen
        have hpos := List.length_pos_iff.mpr hu
        omega
      · rw [hdrop, hbody, ← huv]
        simp
    · exact List.isPrefixOf_iff_prefix.mpr (List.prefix_append _ _)
    · rw [List.length_take_of_le hk.le]

theorem chomp_append_newline (s : List Char) : chomp (s ++ ['\n']) = chomp s := by
  induction s with
  | nil => rfl
  | cons c s ih =>
    rw [List.cons_append]
    simp only [chomp, ih]

theorem Scanned.step {pgn : List Char} {fuel : Nat} {s : Scan} (h : Scanned pgn fuel s) :
    Scanned pgn (fuel - 1) (s.step pgn) := by
  cases h with
  | finished => exact .finished
  | @inside before body games text starts left all =>
    subst text
    unfold Scan.step
    rcases next_cases before starts with ⟨hnext, hwhole⟩ |
      ⟨game, rest, rfl, hgame, hwhole, hrest, hnext⟩
    · have hcut : ((before ++ body).drop before.length).take
          ((before ++ body).length - before.length) = body := by
        simp
      have hall : games ++ [chomp body ++ ['\n']] = splitPgnGames (before ++ body) := by
        rw [← all, split_one starts hwhole]
      dsimp only
      rw [hnext]
      dsimp only
      rw [hcut, hall]
      exact .finished
    · have hcut : ((before ++ (game ++ '\n' :: rest)).drop before.length).take
          (before.length + game.length + 1 - before.length) = game ++ ['\n'] := by
        rw [List.drop_left, List.append_cons,
          List.take_left' (by rw [List.length_append, List.length_singleton]; omega)]
      have hall : games ++ [chomp game ++ ['\n']] ++ splitPgnGames rest =
          splitPgnGames (before ++ (game ++ '\n' :: rest)) := by
        rw [← all, split_cons hgame hwhole hrest, List.append_assoc, List.singleton_append]
      have hplace : before.length + game.length + 1 = (before ++ game ++ ['\n']).length := by
        simp [Nat.add_assoc]
      dsimp only
      rw [hnext]
      dsimp only
      rw [hcut, chomp_append_newline, Option.map_some, hplace]
      refine .inside (by simp) hrest ?_ hall
      simp only [List.length_append, List.length_cons] at left
      omega

theorem scanned (pgn : List Char) (rounds : Nat) :
    Scanned pgn (pgn.length - rounds) (scan pgn rounds) := by
  induction rounds with
  | zero => exact scanned_start pgn
  | succ rounds ih =>
    rw [← Nat.sub_sub]
    exact ih.step

/-- The scan ends, and has then cut the games. -/
theorem scan_eq (pgn : List Char) {rounds : Nat} (h : pgn.length ≤ rounds) :
    scan pgn rounds = ⟨none, splitPgnGames pgn⟩ := by
  have hscanned := scanned pgn rounds
  rw [Nat.sub_eq_zero_of_le h] at hscanned
  generalize scan pgn rounds = s at hscanned
  cases hscanned with
  | finished => rfl
  | inside text starts left all =>
    rw [List.eq_nil_of_length_eq_zero (Nat.le_zero.mp left)] at starts
    cases starts

/-- A text that is one game. -/
structure IsGame (game : List Char) : Prop where
  starts : opens game = true
  whole : ¬nextGame <:+: game
  ends : ∀ c ∈ game.getLast?, c ≠ '\n' ∧ c ≠ '\r'

/-- Line breaks of any kind. -/
def Breaks (s : List Char) : Prop := ∀ c ∈ s, c = '\n' ∨ c = '\r'

/-- Each game is followed by a newline and line breaks, of which the last before another game is a
newline. -/
inductive Concatenated : List (List Char) → List Char → Prop
  | nil : Concatenated [] []
  | cons {game breaks : List Char} {games : List (List Char)} {rest : List Char} :
    IsGame game → Breaks breaks → (games ≠ [] → ('\n' :: breaks).getLast? = some '\n') →
    Concatenated games rest → Concatenated (game :: games) (game ++ '\n' :: breaks ++ rest)

theorem chomp_eq_self {s : List Char} (h : ∀ c ∈ s.getLast?, c ≠ '\n' ∧ c ≠ '\r') : chomp s = s := by
  obtain ⟨t, hs, ht⟩ := chomp_spec s
  rcases List.eq_nil_or_concat t with rfl | ⟨t, c, rfl⟩
  · rw [List.append_nil] at hs
    exact hs.symm
  · have hlast : c ∈ s.getLast? := by
      rw [hs, List.concat_eq_append, ← List.append_assoc, List.getLast?_concat]
      rfl
    obtain ⟨hn, hr⟩ := h c hlast
    rcases ht c (by simp) with hc | hc
    · exact absurd hc hn
    · exact absurd hc hr

theorem chomp_breaks {s : List Char} (h : Breaks s) : chomp s = [] := by
  induction s with
  | nil => rfl
  | cons c s ih =>
    have hc : (c == '\n' || c == '\r') = true := by simpa using h c (by simp)
    simp only [chomp, ih fun d hd => h d (by simp [hd]), hc, if_true]

theorem chomp_append_breaks {s t : List Char} (h : Breaks t) : chomp (s ++ t) = chomp s := by
  induction s with
  | nil => exact chomp_breaks h
  | cons c s ih =>
    rw [List.cons_append]
    simp only [chomp, ih]

/-- The tag of a game ends in a space, so no game starts in the breaks. -/
theorem whole_append_breaks {s t : List Char} (hs : ¬nextGame <:+: s) (ht : Breaks t) :
    ¬nextGame <:+: s ++ t := by
  induction t using List.reverseRecOn with
  | nil => rwa [List.append_nil]
  | append_singleton t c ih =>
    rw [← List.append_assoc, List.infix_concat_iff]
    rintro (hend | hin)
    · obtain ⟨u, hu⟩ := hend
      have hlast := congrArg List.getLast? hu
      rw [List.getLast?_concat, List.getLast?_append_of_ne_nil _ (by simp [nextGame])] at hlast
      have hc : c = ' ' := (Option.some.inj hlast).symm
      subst hc
      rcases ht ' ' (by simp) with h | h <;> cases h
    · exact ih (fun d hd => ht d (by simp [hd])) hin

theorem Concatenated.split {games : List (List Char)} {text : List Char}
    (h : Concatenated games text) :
    (games ≠ [] → opens text = true) ∧ splitPgnGames text = games.map (· ++ ['\n']) := by
  induction h with
  | nil => exact ⟨fun h => absurd rfl h, rfl⟩
  | @cons game breaks games rest hgame hbreaks hsep hrest ih =>
    obtain ⟨hopen, hsplit⟩ := ih
    refine ⟨fun _ => by
      rw [List.append_assoc]
      exact opens_append hgame.starts, ?_⟩
    by_cases hlast : games = []
    · subst hlast
      cases hrest
      have hall : Breaks ('\n' :: breaks) := by
        intro c hc
        rcases List.mem_cons.mp hc with rfl | hc
        · exact .inl rfl
        · exact hbreaks c hc
      rw [List.append_nil, split_one (opens_append hgame.starts)
        (whole_append_breaks hgame.whole hall), chomp_append_breaks hall, chomp_eq_self hgame.ends]
      rfl
    · obtain ⟨front, hfront⟩ := List.getLast?_eq_some_iff.mp (hsep hlast)
      have hclean : Breaks front := by
        intro c hc
        have hmem : c ∈ '\n' :: breaks := by simp [hfront, hc]
        rcases List.mem_cons.mp hmem with rfl | hc
        · exact .inl rfl
        · exact hbreaks c hc
      rw [hfront, ← List.append_assoc, List.append_assoc, List.singleton_append,
        split_cons (opens_append hgame.starts) (whole_append_breaks hgame.whole hclean)
          (hopen hlast), chomp_append_breaks hclean, chomp_eq_self hgame.ends, hsplit, List.map_cons]

/-- A tag that starts before the first game would have to contain its bracket again. -/
theorem opens_before {before text : List Char} (ht : opens text = true) (hne : before ≠ [])
    (h : opens (before ++ text) = true) : opens before = true := by
  obtain ⟨tail, rfl⟩ := List.isPrefixOf_iff_prefix.mp ht
  have hpre : eventTag <+: before ++ (eventTag ++ tail) := List.isPrefixOf_iff_prefix.mp h
  by_cases hlen : eventTag.length ≤ before.length
  · exact List.isPrefixOf_iff_prefix.mpr
      (List.prefix_of_prefix_length_le hpre (List.prefix_append _ _) hlen)
  · have hpos := List.length_pos_iff.mpr hne
    have hat : eventTag[before.length]? = some '[' := by
      obtain ⟨u, hu⟩ := hpre
      have hleft : (eventTag ++ u)[before.length]? = eventTag[before.length]? :=
        List.getElem?_append_left (by omega)
      rw [← hleft, hu, List.getElem?_append_right le_rfl, Nat.sub_self]
      rfl
    have hnone : ∀ n, 0 < n → n < eventTag.length → eventTag[n]? ≠ some '[' := by
      intro n hn hlt
      simp only [eventTag, List.length_cons, List.length_nil] at hlt
      interval_cases n <;> decide
    exact absurd hat (hnone _ hpos (by omega))

theorem fromFirstGame_append {before text : List Char} (h : ¬eventTag <:+: before)
    (ht : opens text = true) : fromFirstGame (before ++ text) = some text := by
  induction before with
  | nil => exact fromFirstGame_opens ht
  | cons c before ih =>
    have hno : ¬opens (c :: before ++ text) = true := fun ho =>
      h (List.isPrefixOf_iff_prefix.mp (opens_before ht (List.cons_ne_nil c before) ho)).isInfix
    rw [List.cons_append] at hno ⊢
    rw [fromFirstGame, if_neg hno]
    exact ih fun hin => h (List.infix_cons hin)

theorem fromFirstGame_none {s : List Char} (h : ¬eventTag <:+: s) : fromFirstGame s = none := by
  induction s with
  | nil => rfl
  | cons c s ih =>
    have hno : ¬opens (c :: s) = true := fun ho => h (List.isPrefixOf_iff_prefix.mp ho).isInfix
    rw [fromFirstGame, if_neg hno]
    exact ih fun hin => h (List.infix_cons hin)

/-- Text before the first game is left out. -/
theorem split_concatenated {before text : List Char} {games : List (List Char)}
    (hbefore : ¬eventTag <:+: before) (h : Concatenated games text) :
    splitPgnGames (before ++ text) = games.map (· ++ ['\n']) := by
  obtain ⟨hopen, hsplit⟩ := h.split
  by_cases hgames : games = []
  · subst hgames
    cases h
    rw [List.append_nil, splitPgnGames, fromFirstGame_none hbefore]
    rfl
  · have ht := hopen hgames
    rw [← hsplit, splitPgnGames, fromFirstGame_append hbefore ht, splitPgnGames,
      fromFirstGame_opens ht]

theorem chomp_ends (s : List Char) : ∀ c ∈ (chomp s).getLast?, c ≠ '\n' ∧ c ≠ '\r' := by
  induction s with
  | nil => simp [chomp]
  | cons d s ih =>
    simp only [chomp]
    cases hs : chomp s with
    | nil =>
      dsimp only
      split
      next => simp
      next hd => simpa using hd
    | cons e u =>
      rw [hs] at ih
      dsimp only
      rwa [List.getLast?_cons_cons]

theorem chomp_cons {c : Char} (h : (c == '\n' || c == '\r') = false) (s : List Char) :
    chomp (c :: s) = c :: chomp s := by
  simp only [chomp, h]
  cases chomp s <;> rfl

theorem opens_chomp {game : List Char} (h : opens game = true) : opens (chomp game) = true := by
  obtain ⟨tail, rfl⟩ := List.isPrefixOf_iff_prefix.mp h
  have htag : chomp (eventTag ++ tail) = eventTag ++ chomp tail := by
    simp only [eventTag, List.cons_append, List.nil_append]
    repeat rw [chomp_cons (by decide)]
  rw [htag]
  exact List.isPrefixOf_iff_prefix.mpr (List.prefix_append _ _)

theorem isGame_chomp {game : List Char} (ho : opens game = true) (h : ¬nextGame <:+: game) :
    IsGame (chomp game) := by
  refine ⟨opens_chomp ho, fun hin => ?_, chomp_ends game⟩
  obtain ⟨t, ht, -⟩ := chomp_spec game
  exact h (hin.trans ⟨[], t, ht.symm⟩)

theorem mem_split_body {n : Nat} {body text : List Char} (hn : body.length ≤ n)
    (ho : opens body = true) (h : text ∈ splitPgnGames body) :
    ∃ game, IsGame game ∧ text = game ++ ['\n'] := by
  induction n generalizing body with
  | zero =>
    rw [List.eq_nil_of_length_eq_zero (Nat.le_zero.mp hn)] at ho
    cases ho
  | succ n ih =>
    rcases next_cases [] ho with ⟨-, hwhole⟩ | ⟨game, rest, rfl, hgame, hwhole, hrest, -⟩
    · rw [split_one ho hwhole] at h
      exact ⟨_, isGame_chomp ho hwhole, List.mem_singleton.mp h⟩
    · rw [split_cons hgame hwhole hrest] at h
      rw [List.length_append, List.length_cons] at hn
      rcases List.mem_cons.mp h with rfl | h
      · exact ⟨_, isGame_chomp hgame hwhole, rfl⟩
      · exact ih (by omega) hrest h

/-- A file is cut into games. -/
theorem mem_split {pgn text : List Char} (h : text ∈ splitPgnGames pgn) :
    ∃ game, IsGame game ∧ text = game ++ ['\n'] := by
  have hsplit := h
  rw [splitPgnGames] at hsplit
  cases hfirst : fromFirstGame pgn with
  | none =>
    rw [hfirst] at hsplit
    cases hsplit
  | some body =>
    have hopen : opens body = true := by
      rw [fromFirstGame_eq] at hfirst
      obtain ⟨n, hn, rfl⟩ := Option.map_eq_some_iff.mp hfirst
      exact List.isPrefixOf_iff_prefix.mpr (find_some hn).2.1
    rw [hfirst] at hsplit
    refine mem_split_body le_rfl hopen ?_
    rw [splitPgnGames, fromFirstGame_opens hopen]
    exact hsplit

/-- Games that end in one newline, each followed by another. -/
theorem concatenated_blank {games : List (List Char)} (h : ∀ game ∈ games, IsGame game) :
    Concatenated games (games.flatMap fun game => game ++ ['\n', '\n']) := by
  induction games with
  | nil => exact .nil
  | cons game games ih =>
    have hrest := ih fun g hg => h g (by simp [hg])
    exact .cons (h game (by simp)) (by simp [Breaks]) (fun _ => rfl) hrest

end Pgn

variable {F : Type}

/-- A text that came out of a file, of which a result takes two. -/
def Taken (text : String) : Prop :=
  ∃ pgn : List Char, text.toList ∈ (Pgn.splitPgnGames pgn).take 2

/-- The text a game was stored with. -/
def StoredAs (E : Env F) (g : StoredGame) (text : String) : Prop :=
  g.row.pgnGz = E.gzipCompress text

/-- Members one after the other decompress to their texts one after the other. -/
def GunzipsMembers (E : Env F) (gunzip : List UInt8 → Option String) : Prop :=
  ∀ texts : List String, gunzip (texts.flatMap E.gzipCompress) = some (String.join texts)

/-- The decompressed stream of stored games: each text with a newline after it. -/
theorem gunzip_stream {E : Env F} {gunzip : List UInt8 → Option String}
    (hgunzip : GunzipsMembers E gunzip) {games : List StoredGame} {texts : List String}
    (h : List.Forall₂ (StoredAs E) games texts) :
    gunzip (stream (E.gzipCompress "\n") games) =
      some (String.join (texts.flatMap fun text => [text, "\n"])) := by
  rw [← hgunzip]
  congr 1
  induction h with
  | nil => rfl
  | cons hg _ ih =>
    rw [stream, List.flatMap_cons, ← stream, ih, hg]
    simp

/-- What was taken from files is cut the same way again. -/
theorem split_taken {texts : List String} (h : ∀ text ∈ texts, Taken text) :
    Pgn.splitPgnGames (String.join (texts.flatMap fun text => [text, "\n"])).toList =
      texts.map String.toList := by
  have hgames : ∃ games : List (List Char), (∀ game ∈ games, Pgn.IsGame game) ∧
      texts.map String.toList = games.map (· ++ ['\n']) := by
    induction texts with
    | nil => exact ⟨[], by simp, rfl⟩
    | cons text texts ih =>
      obtain ⟨games, hall, hmap⟩ := ih fun t ht => h t (by simp [ht])
      obtain ⟨pgn, hpgn⟩ := h text (by simp)
      obtain ⟨game, hgame, htext⟩ := Pgn.mem_split (List.mem_of_mem_take hpgn)
      refine ⟨game :: games, fun g hg => ?_, by rw [List.map_cons, List.map_cons, htext, hmap]⟩
      rcases List.mem_cons.mp hg with rfl | hg
      · exact hgame
      · exact hall g hg
  obtain ⟨games, hall, hmap⟩ := hgames
  have hjoin : (String.join (texts.flatMap fun text => [text, "\n"])).toList =
      games.flatMap fun game => game ++ ['\n', '\n'] := by
    have hchars : (String.join (texts.flatMap fun text => [text, "\n"])).toList =
        (texts.map String.toList).flatMap (· ++ ['\n']) := by
      rw [String.toList_join, List.flatMap_assoc, List.flatMap_map]
      simp
    rw [hchars, hmap, List.flatMap_map]
    simp
  have hsplit := (Pgn.concatenated_blank hall).split.2
  rw [hjoin, hsplit, hmap]

/-- The scan ends on every text with the games cut. Games that stand one after the other come back,
whatever breaks stand between them and whatever stands before the first; so do the games of a file
when the download of valid games is decompressed and cut. -/
theorem split_undoes_concatenation (E : Env F) :
    (∀ (pgn : List Char) (rounds : Nat), pgn.length ≤ rounds →
      Pgn.scan pgn rounds = ⟨none, Pgn.splitPgnGames pgn⟩) ∧
    (∀ (before text : List Char) (games : List (List Char)), ¬Pgn.eventTag <:+: before →
      Pgn.Concatenated games text →
        Pgn.splitPgnGames (before ++ text) = games.map (· ++ ['\n'])) ∧
    ∀ gunzip, GunzipsMembers E gunzip →
      ∀ (start : GameTable) (testId : Int) (snapshots : Nat → GameTable) (texts : List String),
      (∀ j, Kept snapshots testId (announced start testId false) j) →
      List.Forall₂ (StoredAs E) (announced start testId false) texts →
      (∀ text ∈ texts, Taken text) →
      ∀ calls, (announced start testId false).length ≤ 200 * calls →
        (gunzip (servePgnGz E start testId false snapshots calls).written).map
          (fun text => Pgn.splitPgnGames text.toList) = some (texts.map String.toList) := by
  refine ⟨fun pgn rounds h => Pgn.scan_eq pgn h, fun before text games hb h =>
    Pgn.split_concatenated hb h, ?_⟩
  intro gunzip hgunzip start testId snapshots texts hkept hstored htaken calls hcalls
  rw [(download_kept hkept calls).2, List.take_of_length_le hcalls, gunzip_stream hgunzip hstored,
    Option.map_some, split_taken htaken]

/-- The members of a line break and of two short games. -/
def sampleMembers : List (String × List UInt8) :=
  [("\n", [31, 139, 8, 0, 0, 0, 0, 0, 2, 3, 227, 2, 0, 147, 6, 215, 50, 1, 0, 0, 0]),
   ("[Event \"a\"]\n", [31, 139, 8, 0, 0, 0, 0, 0, 2, 3, 139, 118, 45, 75, 205, 43, 81, 80, 74, 84,
      138, 229, 2, 0, 248, 75, 248, 74, 12, 0, 0, 0]),
   ("[Event \"b\"]\n", [31, 139, 8, 0, 0, 0, 0, 0, 2, 3, 139, 118, 45, 75, 205, 43, 81, 80, 74, 82,
      138, 229, 2, 0, 22, 228, 77, 88, 12, 0, 0, 0])]

/-- The characters in unary. -/
def unaryCode (s : List Char) : List UInt8 :=
  s.flatMap (fun c => List.replicate c.toNat 1 ++ [2]) ++ [3]

/-- Texts without a sample member have a code of their own, which no member starts with. -/
def sampleGzip (text : String) : List UInt8 :=
  (sampleMembers.lookup text).getD (0 :: unaryCode text.toList)

theorem unary_inj {m n : Nat} {x y : List UInt8}
    (h : List.replicate m 1 ++ 2 :: x = List.replicate n 1 ++ 2 :: y) : m = n ∧ x = y := by
  induction m generalizing n with
  | zero =>
    cases n with
    | zero => exact ⟨rfl, List.tail_eq_of_cons_eq h⟩
    | succ n => cases List.head_eq_of_cons_eq h
  | succ m ih =>
    cases n with
    | zero => cases List.head_eq_of_cons_eq h
    | succ n =>
      obtain ⟨hm, hx⟩ := ih (List.tail_eq_of_cons_eq h)
      exact ⟨by rw [hm], hx⟩

theorem unaryCode_inj {s t : List Char} {x y : List UInt8}
    (h : unaryCode s ++ x = unaryCode t ++ y) : s = t ∧ x = y := by
  have hcode : ∀ (c : Char) (u : List Char) (z : List UInt8),
      unaryCode (c :: u) ++ z = List.replicate c.toNat 1 ++ 2 :: (unaryCode u ++ z) := by
    intro c u z
    simp [unaryCode]
  have hend : ∀ (n : Nat) (u z : List UInt8), (3 : UInt8) :: z ≠ List.replicate n 1 ++ 2 :: u := by
    intro n u z hne
    cases n <;> cases List.head_eq_of_cons_eq hne
  induction s generalizing t with
  | nil =>
    cases t with
    | nil => exact ⟨rfl, List.tail_eq_of_cons_eq h⟩
    | cons d t =>
      rw [hcode] at h
      exact absurd h (hend _ _ _)
  | cons c s ih =>
    cases t with
    | nil =>
      rw [hcode] at h
      exact absurd h.symm (hend _ _ _)
    | cons d t =>
      rw [hcode, hcode] at h
      obtain ⟨hc, hrest⟩ := unary_inj h
      obtain ⟨hs, hx⟩ := ih hrest
      exact ⟨by rw [Char.toNat_inj.mp hc, hs], hx⟩

theorem sampleMembers_free : ∀ m ∈ sampleMembers, m.2.head? = some 31 ∧
    ∀ m' ∈ sampleMembers, m.2 <+: m'.2 → m = m' := by
  decide +kernel

theorem sampleGzip_inj {s t : String} {x y : List UInt8}
    (h : sampleGzip s ++ x = sampleGzip t ++ y) : s = t ∧ x = y := by
  have hmem : ∀ {u : String} {b : List UInt8}, sampleMembers.lookup u = some b →
      (u, b) ∈ sampleMembers := fun hu => by
    obtain ⟨l, r, heq, -⟩ := List.lookup_eq_some_iff.mp hu
    simp [heq]
  have hapart : ∀ {u : String} {b z w : List UInt8}, sampleMembers.lookup u = some b →
      b ++ z ≠ 0 :: w := fun {u b z w} hu hne => by
    have hhead := (sampleMembers_free _ (hmem hu)).1
    obtain ⟨b', rfl⟩ := List.head?_eq_some_iff.mp hhead
    cases List.head_eq_of_cons_eq hne
  unfold sampleGzip at h
  cases hs : sampleMembers.lookup s with
  | none =>
    cases ht : sampleMembers.lookup t with
    | none =>
      rw [hs, ht] at h
      obtain ⟨hst, hxy⟩ := unaryCode_inj (List.tail_eq_of_cons_eq h)
      exact ⟨String.toList_injective hst, hxy⟩
    | some b =>
      rw [hs, ht] at h
      exact absurd h.symm (hapart ht)
  | some a =>
    cases ht : sampleMembers.lookup t with
    | none =>
      rw [hs, ht] at h
      exact absurd h (hapart hs)
    | some b =>
      rw [hs, ht, Option.getD_some, Option.getD_some] at h
      have hfree : (s, a) = (t, b) := by
        rcases List.prefix_or_prefix_of_prefix (List.prefix_append a x)
          (h ▸ List.prefix_append b y) with hab | hba
        · exact (sampleMembers_free _ (hmem hs)).2 _ (hmem ht) hab
        · exact ((sampleMembers_free _ (hmem ht)).2 _ (hmem hs) hba).symm
      cases hfree
      exact ⟨rfl, List.append_cancel_left h⟩

theorem sampleGzip_members {texts texts' : List String}
    (h : texts.flatMap sampleGzip = texts'.flatMap sampleGzip) : texts = texts' := by
  have hne : ∀ text, sampleGzip text ≠ [] := by
    intro text hnil
    have hsame : sampleGzip text ++ sampleGzip "\n" = sampleGzip "\n" ++ [] := by simp [hnil]
    cases (sampleGzip_inj hsame).2
  induction texts generalizing texts' with
  | nil =>
    cases texts' with
    | nil => rfl
    | cons t texts' => exact absurd (List.append_eq_nil_iff.mp h.symm).1 (hne t)
  | cons s texts ih =>
    cases texts' with
    | nil => exact absurd (List.append_eq_nil_iff.mp h).1 (hne s)
    | cons t texts' =>
      obtain ⟨hst, hrest⟩ := sampleGzip_inj h
      rw [hst, ih hrest]

/-- What the members of some texts decompress to. -/
noncomputable def sampleGunzip (gz : List UInt8) : Option String :=
  open Classical in
  if h : ∃ texts : List String, texts.flatMap sampleGzip = gz then some (String.join h.choose)
  else none

noncomputable def sampleEnv : Env ℝ := { realEnv with gzipCompress := sampleGzip }

theorem sampleGunzip_members : GunzipsMembers sampleEnv sampleGunzip := by
  intro texts
  have hex : ∃ others : List String, others.flatMap sampleGzip = texts.flatMap sampleGzip :=
    ⟨texts, rfl⟩
  have hsame := sampleGzip_members hex.choose_spec
  change sampleGunzip (texts.flatMap sampleGzip) = _
  unfold sampleGunzip
  rw [dif_pos hex, hsame]

/-- Two games, as files hold them. -/
noncomputable def storedGames : GameTable :=
  (Table.empty.insert (fun id => playedGame id (sampleGzip "[Event \"a\"]\n")) fun _ => rfl).insert
    (fun id => playedGame id (sampleGzip "[Event \"b\"]\n")) fun _ => rfl

/-- Text and breaks between two games; then the download of the games. -/
theorem split_undoes_sample :
    Pgn.splitPgnGames "notes [Event \"a\"]\n\r\n[Event \"b\"]\n".toList =
      ["[Event \"a\"]\n".toList, "[Event \"b\"]\n".toList] ∧
    (sampleGunzip (servePgnGz sampleEnv storedGames 1 false (fun _ => storedGames) 1).written).map
      (fun text => Pgn.splitPgnGames text.toList) =
        some ["[Event \"a\"]\n".toList, "[Event \"b\"]\n".toList] := by
  obtain ⟨-, hsplit, hdownload⟩ := split_undoes_concatenation sampleEnv
  constructor
  · have hgame : ∀ game ∈ ["[Event \"a\"]".toList, "[Event \"b\"]".toList], Pgn.IsGame game := by
      have hends : ∀ game ∈ ["[Event \"a\"]".toList, "[Event \"b\"]".toList],
          Pgn.opens game = true ∧ ¬Pgn.nextGame <:+: game ∧ game.getLast? = some ']' := by
        decide +kernel
      intro game hmem
      obtain ⟨hstarts, hwhole, hlast⟩ := hends game hmem
      exact ⟨hstarts, hwhole, by simp [hlast]⟩
    have hgames : Pgn.Concatenated ["[Event \"a\"]".toList, "[Event \"b\"]".toList]
        "[Event \"a\"]\n\r\n[Event \"b\"]\n".toList :=
      @Pgn.Concatenated.cons _ ['\r', '\n'] _ _ (hgame _ (by simp)) (by simp [Pgn.Breaks])
        (fun _ => rfl)
        (@Pgn.Concatenated.cons _ [] _ _ (hgame _ (by simp)) (by simp [Pgn.Breaks]) (by simp) .nil)
    exact hsplit "notes ".toList _ _ (by decide +kernel) hgames
  · have hgames : announced storedGames 1 false =
        [playedGame 1 (sampleGzip "[Event \"a\"]\n"), playedGame 2 (sampleGzip "[Event \"b\"]\n")] :=
      rfl
    have hkept : ∀ j, Kept (fun _ => storedGames) 1 (announced storedGames 1 false) j := by
      intro j g hg
      rw [hgames] at hg
      rcases List.mem_cons.mp (List.mem_of_getElem? hg) with rfl | hg
      · rfl
      · cases List.mem_singleton.mp hg
        rfl
    refine hdownload sampleGunzip sampleGunzip_members storedGames 1 _
      ["[Event \"a\"]\n", "[Event \"b\"]\n"] hkept ?_ ?_ 1 (by rw [hgames]; decide)
    · rw [hgames]
      exact .cons rfl (.cons rfl .nil)
    · intro text ht
      refine ⟨text.toList, ?_⟩
      rcases List.mem_cons.mp ht with rfl | ht
      · decide +kernel
      · cases List.mem_singleton.mp ht
        decide +kernel

end CapiNet
