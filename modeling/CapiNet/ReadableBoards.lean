import CapiNet.BookLines

namespace CapiNet

/-- The squares a rank describes: a digit is a run of empty ones. -/
def squares (rank : List Char) : Nat :=
  (rank.map fun c => if c.isDigit then c.toNat - '0'.toNat else 1).sum

def WholeRank (rank : List Char) : Prop := rank ≠ [] ∧ squares rank = 8

/-- A piece placement. -/
def Placement (board : List Char) : Prop :=
  ∃ ranks : List (List Char), ranks.length = 8 ∧ board = ['/'].intercalate ranks ∧
    ∀ rank ∈ ranks, WholeRank rank ∧ ∀ c ∈ rank, c ∈ boardChars

/-- The first field of a position. -/
def ReadableBoard (fen : String) : Prop :=
  ∃ board rest, words fen.toList = board :: rest ∧ Placement board.toList

/-- A line with the letters of a board and seven slashes, in which a rank is not whole. -/
def Skewed (line : String) : Prop :=
  ∃ board side castling ep rest, words line.toList = board :: side :: castling :: ep :: rest ∧
    Opens board side ∧ ∃ rank ∈ board.toList.splitOn '/', ¬WholeRank rank

theorem length_splitOn (xs : List Char) : (xs.splitOn '/').length = xs.count '/' + 1 := by
  induction xs with
  | nil => rfl
  | cons c xs ih =>
    rw [List.splitOn_cons_eq_if_modifyHead]
    by_cases hc : c = '/'
    · subst hc
      simp [ih]
    · simp [hc, ih]

theorem mem_rank {xs rank : List Char} (h : rank ∈ xs.splitOn '/') {c : Char} (hc : c ∈ rank) :
    c ∈ xs ∧ c ≠ '/' := by
  induction xs generalizing rank with
  | nil =>
    rw [List.splitOn_nil, List.mem_singleton] at h
    subst h
    cases hc
  | cons d xs ih =>
    rw [List.splitOn_cons_eq_if_modifyHead] at h
    split at h
    next =>
      rcases List.mem_cons.mp h with rfl | h
      · cases hc
      · obtain ⟨hmem, hne⟩ := ih h hc
        exact ⟨List.mem_cons_of_mem _ hmem, hne⟩
    next hd =>
      cases hsplit : xs.splitOn '/' with
      | nil => exact absurd hsplit (List.splitOn_ne_nil _ _)
      | cons first ranks =>
        rw [hsplit, List.modifyHead_cons] at h
        rcases List.mem_cons.mp h with rfl | h
        · rcases List.mem_cons.mp hc with rfl | hc
          · exact ⟨by simp, by simpa using hd⟩
          · obtain ⟨hmem, hne⟩ := ih (hsplit ▸ List.mem_cons_self ..) hc
            exact ⟨List.mem_cons_of_mem _ hmem, hne⟩
        · obtain ⟨hmem, hne⟩ := ih (hsplit ▸ List.mem_cons_of_mem _ h) hc
          exact ⟨List.mem_cons_of_mem _ hmem, hne⟩

/-- A board that passes the checks is a placement when all its ranks are whole. -/
theorem placement_iff {board side : String} (h : Opens board side) :
    Placement board.toList ↔ ∀ rank ∈ board.toList.splitOn '/', WholeRank rank := by
  obtain ⟨-, -, hall, hcount⟩ := h
  constructor
  · rintro ⟨ranks, hlen, hboard, hranks⟩ rank hrank
    have hslash : ∀ r ∈ ranks, '/' ∉ r := by
      intro r hr hmem
      exact absurd ((hranks r hr).2 '/' hmem) (by decide)
    have hne : ranks ≠ [] := by
      rintro rfl
      cases hlen
    rw [hboard, List.splitOn_intercalate '/' hslash hne] at hrank
    exact (hranks rank hrank).1
  · intro hwhole
    refine ⟨board.toList.splitOn '/', by rw [length_splitOn, hcount],
      (List.intercalate_splitOn '/').symm, fun rank hrank => ⟨hwhole rank hrank, fun c hc => ?_⟩⟩
    obtain ⟨hmem, hne⟩ := mem_rank hrank hc
    have hletter := List.all_eq_true.mp hall c hmem
    simpa [hne] using hletter

theorem readable_iff (line : String) :
    (∀ fen, epdToFen line = some fen → ReadableBoard fen) ↔ ¬Skewed line := by
  constructor
  · rintro h ⟨board, side, castling, ep, rest, hw, ho, rank, hrank, hbad⟩
    obtain ⟨board', rest', hw', hplace⟩ := h _ (epdToFen_opens hw ho)
    rw [(words_fenOf hw).2] at hw'
    cases hw'
    exact hbad ((placement_iff ho).mp hplace rank hrank)
  · intro h fen hfen
    obtain ⟨board, side, castling, ep, rest, hw, ho, rfl⟩ := epdToFen_some_iff.mp hfen
    refine ⟨board, _, (words_fenOf hw).2, (placement_iff ho).mpr fun rank hrank => ?_⟩
    by_contra hbad
    exact h ⟨board, side, castling, ep, rest, hw, ho, rank, hrank, hbad⟩

theorem mem_sample_foldl {k : Nat} {fen : String} (fens : List String) (r : Reservoir)
    (h : fen ∈ (fens.foldl (Reservoir.add k) r).sample) : fen ∈ r.sample ∨ fen ∈ fens := by
  induction fens generalizing r with
  | nil => exact .inl h
  | cons f fens ih =>
    rw [List.foldl_cons] at h
    rcases ih _ h with h | h
    · unfold Reservoir.add at h
      split at h
      · rcases List.mem_append.mp h with h | h
        · exact .inl h
        · exact .inr (by simp [List.mem_singleton.mp h])
      · dsimp only at h
        split at h
        · rcases List.mem_or_eq_of_mem_set h with h | h
          · exact .inl h
          · exact .inr (by simp [h])
        · exact .inl h
    · exact .inr (by simp [h])

theorem mem_sampleBook {lines : List String} {k : Nat} {seed : UInt64} {fen : String}
    (h : fen ∈ sampleBook lines k seed) : ∃ line ∈ lines, epdToFen line = some fen := by
  rcases mem_sample_foldl _ _ h with h | h
  · cases h
  · exact List.mem_filterMap.mp h

/-- The positions of a line, of a book and of a sample have readable boards when no line is
skewed. -/
theorem boards_readable_iff (line : String) (lines : List String) (k : Nat) (seed : UInt64) :
    ((∀ fen, epdToFen line = some fen → ReadableBoard fen) ↔ ¬Skewed line) ∧
    ((∀ fen ∈ lines.filterMap epdToFen, ReadableBoard fen) ↔ ∀ line ∈ lines, ¬Skewed line) ∧
    ((∀ line ∈ lines, ¬Skewed line) → ∀ fen ∈ sampleBook lines k seed, ReadableBoard fen) := by
  refine ⟨readable_iff line, ⟨fun h line hline => ?_, fun h fen hfen => ?_⟩, fun h fen hfen => ?_⟩
  · exact (readable_iff line).mp fun fen hfen => h fen (List.mem_filterMap.mpr ⟨line, hline, hfen⟩)
  · obtain ⟨line, hline, hfen⟩ := List.mem_filterMap.mp hfen
    exact (readable_iff line).mpr (h line hline) fen hfen
  · obtain ⟨line, hline, hfen⟩ := mem_sampleBook hfen
    exact (readable_iff line).mpr (h line hline) fen hfen

/-- Eight ranks of one square each. -/
theorem short_ranks_accepted :
    epdToFen "1/1/1/1/1/1/1/1 w - -" = some "1/1/1/1/1/1/1/1 w - - 0 1" ∧
      ¬ReadableBoard "1/1/1/1/1/1/1/1 w - - 0 1" := by
  have hfen : epdToFen "1/1/1/1/1/1/1/1 w - -" = some "1/1/1/1/1/1/1/1 w - - 0 1" := by
    decide +kernel
  refine ⟨hfen, fun hread => ?_⟩
  have hwords : words "1/1/1/1/1/1/1/1 w - -".toList = ["1/1/1/1/1/1/1/1", "w", "-", "-"] := by
    decide +kernel
  have hopens : Opens "1/1/1/1/1/1/1/1" "w" :=
    ⟨by decide +kernel, .inl rfl, by decide +kernel, by decide +kernel⟩
  have hrank : ['1'] ∈ "1/1/1/1/1/1/1/1".toList.splitOn '/' := by decide +kernel
  have hskewed : Skewed "1/1/1/1/1/1/1/1 w - -" :=
    ⟨_, _, _, _, _, hwords, hopens, ['1'], hrank, fun h => absurd h.2 (by decide)⟩
  refine (readable_iff _).mp (fun fen h => ?_) hskewed
  rw [hfen] at h
  rw [← Option.some.inj h]
  exact hread

end CapiNet
