import CapiNet.GameSplit

namespace CapiNet

open Relational

variable {F : Type}

def StoredGame.chunk (g : StoredGame) : PgnChunk := ⟨g.id, g.row.pgnGz⟩

/-- The next games after an identity. -/
def pgnBatch (t : GameTable) (testId afterGameId : Int) (limit : Nat) : List PgnChunk :=
  ((t.ordered fun g => g.row.testId == testId && decide (afterGameId < g.id)).take limit).map
    StoredGame.chunk

/-- The stream between two calls of its provider. -/
structure TextStream where
  cursor : Int := 0
  written : String := ""
  finished : Bool := false
  aborted : Bool := false

/-- The loop over a batch. What was written before a game that does not decompress stays. -/
def TextStream.write (gzipDecompress : List UInt8 → Option String) :
    TextStream → List PgnChunk → TextStream
  | s, [] => s
  | s, g :: batch =>
    match gzipDecompress g.pgnGz with
    | none => { s with aborted := true }
    | some text =>
      { s with cursor := g.gameId, written := s.written ++ (text ++ "\n") }.write gzipDecompress batch

/-- One call of the provider. An empty batch ends the stream. -/
def TextStream.call (gzipDecompress : List UInt8 → Option String) (t : GameTable) (testId : Int)
    (s : TextStream) : TextStream :=
  if s.finished || s.aborted then s
  else
    let batch := pgnBatch t testId s.cursor 200
    if batch.isEmpty then { s with finished := true } else s.write gzipDecompress batch

/-- `GET /api/tests/{id}/pgn` after some calls; the games each call finds are given. -/
def servePgn (gzipDecompress : List UInt8 → Option String) (testId : Int)
    (snapshots : Nat → GameTable) : Nat → TextStream
  | 0 => {}
  | calls + 1 =>
    (servePgn gzipDecompress testId snapshots calls).call gzipDecompress (snapshots calls) testId

/-- Games as the server stores them: numbered from 1, their texts compressed. -/
structure StoredGames (E : Env F) where
  table : GameTable
  next_pos : 1 ≤ table.next
  numbered : ∀ g ∈ table.rows, 1 ≤ g.id
  compressed : ∀ g ∈ table.rows, ∃ text, StoredAs E g text

namespace StoredGames

variable {E : Env F}

def empty : StoredGames E :=
  ⟨Table.empty, le_rfl, by simp [Table.empty], by simp [Table.empty]⟩

/-- The insert of a row. -/
def add (s : StoredGames E) (row : GameRow) (h : ∃ text, row.pgnGz = E.gzipCompress text) :
    StoredGames E where
  table := s.table.insert (fun id => ⟨id, row⟩) fun _ => rfl
  next_pos := le_trans s.next_pos (lt_add_one _).le
  numbered := by
    intro g hg
    rcases Table.mem_insert.mp hg with hg | rfl
    · exact s.numbered g hg
    · exact s.next_pos
  compressed := by
    intro g hg
    rcases Table.mem_insert.mp hg with hg | rfl
    · exact s.compressed g hg
    · exact h

/-- A game of an accepted report. -/
def record (s : StoredGames E) (pairId testId : Int) (report : PairReport) (i : Fin 2) :
    StoredGames E :=
  s.add (gameRow E pairId testId report i) ⟨(report.games i).pgn, rfl⟩

/-- The identity of an insert that was rolled back is not handed out again. -/
def skip (s : StoredGames E) : StoredGames E where
  table := { s.table with
    next := s.table.next + 1
    below := fun g hg => lt_trans (s.table.below g hg) (lt_add_one _) }
  next_pos := le_trans s.next_pos (lt_add_one _).le
  numbered := s.numbered
  compressed := s.compressed

/-- The texts of some of the games. -/
theorem texts_of (s : StoredGames E) {games : List StoredGame}
    (h : ∀ g ∈ games, g ∈ s.table.rows) : ∃ texts, List.Forall₂ (StoredAs E) games texts := by
  induction games with
  | nil => exact ⟨[], .nil⟩
  | cons g games ih =>
    obtain ⟨text, hg⟩ := s.compressed g (h g (by simp))
    obtain ⟨texts, hgames⟩ := ih fun g' hg' => h g' (by simp [hg'])
    exact ⟨text :: texts, .cons hg hgames⟩

end StoredGames

theorem mem_announced_all {t : GameTable} {testId : Int} {g : StoredGame} :
    g ∈ announced t testId true ↔ g ∈ t.rows ∧ g.row.testId = testId := by
  simp [announced, Table.mem_ordered]

/-- A batch goes on in the list of all games behind the cursor. -/
theorem pgnBatch_eq (t : GameTable) (testId after : Int) (limit : Nat) :
    pgnBatch t testId after limit =
      (((announced t testId true).filter fun g => decide (after < g.id)).take limit).map
        StoredGame.chunk := by
  have hsame : (t.ordered fun g => g.row.testId == testId && decide (after < g.id)) =
      (announced t testId true).filter fun g => decide (after < g.id) := by
    refine (Table.pairwise_ordered t _).eq_of_mem_iff
      ((Table.pairwise_ordered t _).sublist List.filter_sublist) fun g => ?_
    simp only [Table.mem_ordered, List.mem_filter, mem_announced_all, Bool.and_eq_true, beq_iff_eq,
      and_assoc]
  rw [pgnBatch, hsame]

/-- The cursor when some games are read. -/
def cursorAfter (games : List StoredGame) : Int := (games.getLast?.map (·.id)).getD 0

theorem cursorAfter_append (read page : List StoredGame) :
    cursorAfter (read ++ page) = (page.getLast?.map (·.id)).getD (cursorAfter read) := by
  rcases List.eq_nil_or_concat page with rfl | ⟨front, last, rfl⟩
  · rw [List.append_nil]
    rfl
  · simp [cursorAfter]

/-- Behind the cursor stand the games that were not read. -/
theorem filter_after {read rest : List StoredGame}
    (h : (read ++ rest).Pairwise fun g g' => g.id < g'.id) (hpos : ∀ g ∈ rest, 1 ≤ g.id) :
    ((read ++ rest).filter fun g => decide (cursorAfter read < g.id)) = rest := by
  rcases List.eq_nil_or_concat read with rfl | ⟨front, last, rfl⟩
  · refine List.filter_eq_self.mpr fun g hg => ?_
    have hg : 0 < g.id := hpos g hg
    exact decide_eq_true hg
  · have hcursor : cursorAfter (front.concat last) = last.id := by simp [cursorAfter]
    obtain ⟨hread, -, hlater⟩ := List.pairwise_append.mp h
    have hmem : last ∈ front.concat last := by simp
    have hnone : ∀ g ∈ front.concat last, ¬last.id < g.id := by
      intro g hg
      rw [List.concat_eq_append] at hread hg
      rcases List.mem_append.mp hg with hg | hg
      · have hlt := (List.pairwise_append.mp hread).2.2 g hg last (by simp)
        omega
      · rw [List.mem_singleton.mp hg]
        omega
    rw [hcursor, List.filter_append,
      List.filter_eq_nil_iff.mpr fun g hg => by simpa using hnone g hg,
      List.filter_eq_self.mpr fun g hg => by simpa using hlater last hmem g hg, List.nil_append]

/-- The text of a list of games, each with a newline after it. -/
def joined (texts : List String) : String := String.join (texts.flatMap fun text => [text, "\n"])

theorem joined_append (texts texts' : List String) :
    joined (texts ++ texts') = joined texts ++ joined texts' := by
  rw [joined, List.flatMap_append, String.join_append]
  rfl

variable {E : Env F} {gzipDecompress gunzip : List UInt8 → Option String}

theorem write_games (hone : ∀ text, gzipDecompress (E.gzipCompress text) = some text)
    {games : List StoredGame} {texts : List String} (h : List.Forall₂ (StoredAs E) games texts)
    (s : TextStream) :
    s.write gzipDecompress (games.map StoredGame.chunk) =
      { s with
        cursor := (games.getLast?.map (·.id)).getD s.cursor
        written := s.written ++ joined texts } := by
  induction h generalizing s with
  | nil => simp [TextStream.write, joined]
  | @cons g text games texts hg _ ih =>
    have hlast : ((g :: games).getLast?.map (·.id)).getD s.cursor =
        (games.getLast?.map (·.id)).getD g.id := by
      cases games with
      | nil => rfl
      | cons g' games => simp [List.getLast?_cons]
    rw [List.map_cons, TextStream.write, StoredGame.chunk, hg, hone]
    dsimp only
    rw [ih, hlast]
    simp [joined, String.append_assoc]

/-- Where the stream is when all games but the rest are read. -/
theorem servePgn_eq (s : StoredGames E)
    (hone : ∀ text, gzipDecompress (E.gzipCompress text) = some text) {testId : Int}
    {texts : List String} (h : List.Forall₂ (StoredAs E) (announced s.table testId true) texts)
    (calls : Nat) :
    servePgn gzipDecompress testId (fun _ => s.table) calls =
      { cursor := cursorAfter ((announced s.table testId true).take (200 * calls))
        written := joined (texts.take (200 * calls))
        finished := decide ((announced s.table testId true).length + 200 ≤ 200 * calls)
        aborted := false } := by
  induction calls with
  | zero => simp [servePgn, cursorAfter, joined]
  | succ calls ih =>
    have hlen : texts.length = (announced s.table testId true).length := h.length_eq.symm
    have hpair : (announced s.table testId true).Pairwise fun g g' => g.id < g'.id :=
      Table.pairwise_ordered s.table _
    have hpos : ∀ g ∈ announced s.table testId true, 1 ≤ g.id :=
      fun g hg => s.numbered g (mem_announced_all.mp hg).1
    have hmore : 200 * (calls + 1) = 200 * calls + 200 := by omega
    have hbatch := pgnBatch_eq s.table testId
      (cursorAfter ((announced s.table testId true).take (200 * calls))) 200
    rw [servePgn, ih, TextStream.call, hmore]
    dsimp only
    rw [hbatch]
    generalize announced s.table testId true = games at h hlen hpair hpos
    have hrest : (games.filter fun g =>
        decide (cursorAfter (games.take (200 * calls)) < g.id)) = games.drop (200 * calls) := by
      have hafter : ((games.take (200 * calls) ++ games.drop (200 * calls)).filter fun g =>
          decide (cursorAfter (games.take (200 * calls)) < g.id)) = games.drop (200 * calls) :=
        filter_after (by rwa [List.take_append_drop]) fun g hg => hpos g (List.mem_of_mem_drop hg)
      rwa [List.take_append_drop] at hafter
    rw [hrest]
    by_cases hread : games.length ≤ 200 * calls
    · -- nothing is left: the stream ends, or has ended
      have hsame : ∀ k, games.length ≤ k → games.take k = games ∧ texts.take k = texts :=
        fun k hk => ⟨List.take_of_length_le hk, List.take_of_length_le (hlen ▸ hk)⟩
      obtain ⟨hgames, htexts⟩ := hsame _ hread
      obtain ⟨hgames', htexts'⟩ := hsame (200 * calls + 200) (by omega)
      rw [hgames, htexts, hgames', htexts', List.drop_eq_nil_of_le hread]
      have hdone : decide (games.length + 200 ≤ 200 * calls + 200) = true := by
        rw [decide_eq_true_eq]
        omega
      rw [hdone]
      split
      next hfin =>
        rw [Bool.or_false] at hfin
        rw [hfin]
      next => rfl
    · have hopen : decide (games.length + 200 ≤ 200 * calls) = false := by
        rw [decide_eq_false_iff_not]
        omega
      have hopen' : decide (games.length + 200 ≤ 200 * calls + 200) = false := by
        rw [decide_eq_false_iff_not]
        omega
      have hpage : List.Forall₂ (StoredAs E) ((games.drop (200 * calls)).take 200)
          ((texts.drop (200 * calls)).take 200) :=
        List.forall₂_take _ (List.forall₂_drop _ h)
      have hne : (((games.drop (200 * calls)).take 200).map StoredGame.chunk).isEmpty = false := by
        rw [List.isEmpty_eq_false_iff, ne_eq, List.map_eq_nil_iff, ← ne_eq,
          ← List.length_pos_iff, List.length_take, List.length_drop]
        omega
      rw [hopen, hopen', hne, List.take_add, List.take_add, cursorAfter_append, joined_append]
      exact write_games hone hpage _

/-- For any games of a test, the stream of texts ends after finitely many calls, and brings what the
download with all games decompresses to: each game once, by identity, with a newline after it. -/
theorem pgn_downloads_agree (E : Env F) (gzipDecompress gunzip : List UInt8 → Option String)
    (hone : ∀ text, gzipDecompress (E.gzipCompress text) = some text)
    (hgunzip : GunzipsMembers E gunzip) (s : StoredGames E) (testId : Int) :
    ∃ (games : List StoredGame) (texts : List String),
      (∀ g, g ∈ games ↔ g ∈ s.table.rows ∧ g.row.testId = testId) ∧
      games.Pairwise (fun g g' => g.id < g'.id) ∧
      List.Forall₂ (StoredAs E) games texts ∧
      (∀ calls, (servePgn gzipDecompress testId (fun _ => s.table) calls).aborted = false ∧
        ((servePgn gzipDecompress testId (fun _ => s.table) calls).finished = true ↔
          games.length + 200 ≤ 200 * calls) ∧
        ((servePgn gzipDecompress testId (fun _ => s.table) calls).finished = true →
          (servePgn gzipDecompress testId (fun _ => s.table) calls).written = joined texts)) ∧
      ∀ calls, games.length ≤ 200 * calls →
        gunzip (servePgnGz E s.table testId true (fun _ => s.table) calls).written =
          some (joined texts) := by
  obtain ⟨texts, htexts⟩ :
      ∃ texts, List.Forall₂ (StoredAs E) (announced s.table testId true) texts :=
    s.texts_of fun g hg => (mem_announced_all.mp hg).1
  have hkept : ∀ j, Kept (fun _ => s.table) testId (announced s.table testId true) j := by
    intro j g hg
    obtain ⟨hrow, htest⟩ := mem_announced_all.mp (List.mem_of_getElem? hg)
    exact storedPgn_eq_some.mpr ⟨g, hrow, rfl, htest, rfl⟩
  refine ⟨announced s.table testId true, texts, fun g => mem_announced_all,
    Table.pairwise_ordered s.table _, htexts, fun calls => ?_, fun calls hcalls => ?_⟩
  · rw [servePgn_eq s hone htexts calls]
    refine ⟨rfl, by simp, fun hfin => ?_⟩
    have hlen := htexts.length_eq
    rw [decide_eq_true_eq] at hfin
    dsimp only
    rw [List.take_of_length_le (by omega)]
  · rw [(download_kept hkept calls).2, List.take_of_length_le hcalls]
    exact gunzip_stream hgunzip htexts

noncomputable def sampleStore : StoredGames sampleEnv :=
  (StoredGames.empty.add (playedGame 1 (sampleGzip "[Event \"a\"]\n")).row ⟨_, rfl⟩).add
    (playedGame 2 (sampleGzip "[Event \"b\"]\n")).row ⟨_, rfl⟩

theorem pgn_downloads_agree_sample :
    (servePgn sampleGunzip 1 (fun _ => sampleStore.table) 2).finished = true ∧
      sampleGunzip (servePgnGz sampleEnv sampleStore.table 1 true (fun _ => sampleStore.table) 1).written =
        some (servePgn sampleGunzip 1 (fun _ => sampleStore.table) 2).written := by
  have hone : ∀ text, sampleGunzip (sampleEnv.gzipCompress text) = some text := by
    intro text
    have h := sampleGunzip_members [text]
    rwa [List.flatMap_singleton, String.join_cons, String.join_nil, String.append_empty] at h
  obtain ⟨games, texts, hmem, hpair, -, hstream, hgz⟩ := pgn_downloads_agree sampleEnv sampleGunzip
    sampleGunzip hone sampleGunzip_members sampleStore 1
  have hlen : games.length ≤ 2 := by
    have hnodup : games.Nodup := hpair.imp fun h he => by
      rw [he] at h
      exact lt_irrefl _ h
    exact (hnodup.subperm fun g hg => ((hmem g).mp hg).1).length_le
  have hdone := (hstream 2).2.1.mpr (by omega)
  exact ⟨hdone, (hgz 1 (by omega)).trans (congrArg some ((hstream 2).2.2 hdone).symm)⟩

end CapiNet
