import CapiNet.FrozenRows
import CapiNet.Ledger
import CapiNet.Library.Grouping
import CapiNet.TestEnds

namespace CapiNet

open Relational

variable {F : Type}

/-- The sum of two `bigint` columns that both have a value. -/
def bothSides (a b : GameRow → Option Int) (g : GameRow) : Except Failure (Option Int) :=
  match a g, b g with
  | some x, some y =>
    if -2 ^ 63 ≤ x + y ∧ x + y < 2 ^ 63 then .ok (some (x + y)) else .error .numericValueOutOfRange
  | _, _ => .ok none

/-- A game, with what both sides used. -/
structure PlayedGame where
  game : GameRow
  nodes : Option Int
  timeMs : Option Int

def GameRow.played (g : GameRow) : Except Failure PlayedGame := do
  let nodes ← bothSides (·.candidateNodes) (·.baselineNodes) g
  let timeMs ← bothSides (·.candidateTimeMs) (·.baselineTimeMs) g
  return ⟨g, nodes, timeMs⟩

/-- `sum(column)`: rows without a value are left out, and without any there is no sum. -/
def sumColumn (column : PlayedGame → Option Int) (games : List PlayedGame) : Option Int :=
  let values := games.filterMap column
  if values.isEmpty then none else some values.sum

/-- `sum(nodes)::float8 / NULLIF(sum(time), 0) * 1000`, exactly. -/
def nodesPerSecond (games : List PlayedGame) : Option ℚ := do
  let n ← sumColumn (·.nodes) games
  let ms ← sumColumn (·.timeMs) games
  if ms = 0 then none else some (n / ms * 1000)

/-- A row of the list, without the columns that describe the machine. -/
structure TestClient where
  clientId : Int
  name : String
  status : ClientStatus
  slots : Nat
  cpuFactor : Option Double
  pairsCompleted : Nat
  gamesInvalid : Nat
  pairsLeased : Nat
  nps : Option ℚ

namespace Db

/-- The games of a test. -/
def played (db : Db F) (testId : Int) : Except Failure (List PlayedGame) :=
  (db.games.filter (·.testId == testId)).mapM GameRow.played

/-- The pairs of a test that are out, for each client. -/
def leasedTo (db : Db F) (testId clientId : Int) : Option (List PairRow) :=
  groupOf (·.leasedTo) ((db.pairsOf testId).filter (·.status == .leased)) (some clientId)

/-- The row of a client, if it has played or plays. -/
def testClient (db : Db F) (testId : Int) (games : List PlayedGame) (c : ClientRow) :
    Option TestClient :=
  let played := groupOf (·.game.clientId) games c.id
  let leased := db.leasedTo testId c.id
  if played.isNone && leased.isNone then none
  else some {
    clientId := c.id, name := c.name, status := c.status, slots := c.slots, cpuFactor := c.cpuFactor
    pairsCompleted := played.elim 0 fun games => (games.map (·.game.pairId)).dedup.length
    gamesInvalid := played.elim 0 fun games => games.countP (!·.game.valid)
    pairsLeased := leased.elim 0 (·.length)
    nps := played.bind nodesPerSecond }

/-- `ORDER BY pairs DESC, name`. -/
def listClients (db : Db F) (testId : Int) (games : List PlayedGame) : List TestClient :=
  (db.clients.rows.filterMap (db.testClient testId games)).insertionSort fun a b =>
    b.pairsCompleted < a.pairsCompleted ∨ (a.pairsCompleted = b.pairsCompleted ∧ a.name ≤ b.name)

def testClients (db : Db F) (testId : Int) : Except Failure (List TestClient) := do
  let games ← db.played testId
  return db.listClients testId games

end Db

variable [LinearOrder F] {E : Env F}

/-- A pair that is out, or has its result, is with a client that is known. -/
theorem run_holder (E : Env F) (ops : List Op) {i : Int} {p : PairRow}
    (hp : (Server.run E ops).db.jobPairs.find i = some p)
    (hs : p.status = .leased ∨ p.status = .completed) :
    ∃ clientId, p.leasedTo = some clientId ∧ (Server.run E ops).db.Knows clientId := by
  induction ops using List.reverseRecOn generalizing p with
  | nil => cases hp
  | append_singleton ops op ih =>
    have hkept : ∀ clientId, (Server.run E ops).db.Knows clientId →
        (Server.run E (ops ++ [op])).db.Knows clientId := by
      intro clientId h
      rw [Server.run_snoc]
      exact Server.step_knows E _ op h
    have hmove := run_step_pair E ops op i
    rw [hp] at hmove
    generalize ho : (Server.run E ops).db.jobPairs.find i = o at hmove
    cases hmove with
    | same =>
      obtain ⟨clientId, hto, hknown⟩ := ih ho hs
      exact ⟨clientId, hto, hkept clientId hknown⟩
    | born _ hf => simp [hf.1] at hs
    | leased q t clientId slotsFree until_ hact hdel =>
      refine ⟨clientId, rfl, hkept clientId ?_⟩
      obtain ⟨r, hr, hcl⟩ := Server.step_claim E (Server.run E ops) op hact
      have hin : i ∈ r.pairs.map (·.pairId) := by
        unfold Server.delivered at hdel
        rw [hr] at hdel
        exact hdel
      generalize ((Server.run E ops).step E op).db = db' at hcl
      cases hcl with
      | answered _ _ hnil =>
        rw [hnil] at hin
        cases hin
      | leased t c picked _ _ _ hc =>
        obtain ⟨hfind, -⟩ := Option.filter_eq_some_iff.mp hc
        exact ⟨c, hfind⟩
    | completed q report ha hl =>
      obtain ⟨clientId, hto, hknown⟩ := ih ho (.inl (PairRow.leasedBy_iff.mp hl).1)
      exact ⟨clientId, hto, hkept clientId hknown⟩
    | released => simp [PairRow.release] at hs
    | expired q =>
      unfold PairRow.expire at hs
      dsimp only at hs
      split at hs
      next => simp at hs
      next => simp at hs

/-- A game is of a completed pair of its test, and its client is the one the pair was leased to. -/
theorem run_game (E : Env F) (ops : List Op) {g : GameRow} (hg : g ∈ (Server.run E ops).db.games) :
    ∃ p, (Server.run E ops).db.jobPairs.find g.pairId = some p ∧ p.status = .completed ∧
      p.testId = g.testId ∧ p.leasedTo = some g.clientId := by
  have hmem : g ∈ (Server.run E ops).db.gamesOf g.pairId := List.mem_filter.mpr ⟨hg, by simp⟩
  rcases run_recorded E ops g.pairId with ⟨hnil, -⟩ | ⟨p, pre, op, report, hp, hrec⟩
  · rw [hnil] at hmem
    cases hmem
  · rw [hrec.games, resultRows_eq] at hmem
    have hrow : g.testId = p.testId ∧ g.clientId = report.clientId := by
      rcases List.mem_cons.mp hmem with h | hmem
      · rw [h]
        exact ⟨rfl, rfl⟩
      · rw [List.mem_singleton.mp hmem]
        exact ⟨rfl, rfl⟩
    exact ⟨p, hp, hrec.completed, hrow.1.symm, by rw [hrow.2]; exact hrec.leasedTo⟩

/-- A completed pair has a game of the client it was leased to. -/
theorem run_completed (E : Env F) (ops : List Op) {i : Int} {p : PairRow}
    (hp : (Server.run E ops).db.jobPairs.find i = some p) (hs : p.status = .completed) :
    ∃ g ∈ (Server.run E ops).db.games, g.pairId = i ∧ g.testId = p.testId ∧
      p.leasedTo = some g.clientId := by
  rcases run_recorded E ops i with ⟨-, hopen⟩ | ⟨q, pre, op, report, hq, hrec⟩
  · exact absurd hs (hopen p hp)
  · cases Option.some.inj (hp.symm.trans hq)
    have hmem : gameRow E i p.testId report.toPairReport 0 ∈ (Server.run E ops).db.gamesOf i := by
      rw [hrec.games, resultRows_eq]
      exact List.mem_cons_self
    exact ⟨_, (List.mem_filter.mp hmem).1, rfl, rfl, hrec.leasedTo⟩

/-- The pairs a client has played are the completed ones it was leased. -/
theorem length_played (E : Env F) (ops : List Op) (testId clientId : Int) :
    ((((Server.run E ops).db.games.filter (·.testId == testId)).filter
      fun g => g.clientId = clientId).map (·.pairId)).dedup.length =
    ((Server.run E ops).db.pairsOf testId).countP fun p =>
      p.status == .completed && decide (p.leasedTo = some clientId) := by
  rw [List.countP_eq_length_filter, ← List.length_map PairRow.id]
  refine List.Perm.length_eq ((List.perm_ext_iff_of_nodup (List.nodup_dedup _) ?_).mpr fun i => ?_)
  · refine (Table.nodup (Server.run E ops).db.jobPairs).sublist ?_
    exact (List.filter_sublist.trans List.filter_sublist).map _
  · rw [List.mem_dedup]
    constructor
    · intro h
      obtain ⟨g, hg, rfl⟩ := List.mem_map.mp h
      obtain ⟨hg, hclient⟩ := List.mem_filter.mp hg
      obtain ⟨hg, htest⟩ := List.mem_filter.mp hg
      obtain ⟨p, hp, hs, hpt, hto⟩ := run_game E ops hg
      obtain ⟨hmem, hid⟩ := Table.find_some hp
      rw [decide_eq_true_eq] at hclient
      rw [beq_iff_eq] at htest
      refine List.mem_map.mpr ⟨p, List.mem_filter.mpr ⟨?_, ?_⟩, hid⟩
      · exact Db.mem_pairsOf.mpr ⟨hmem, hpt.trans htest⟩
      · simp [hs, hto, hclient]
    · intro h
      obtain ⟨p, hp, rfl⟩ := List.mem_map.mp h
      obtain ⟨hof, hcond⟩ := List.mem_filter.mp hp
      obtain ⟨hmem, htest⟩ := Db.mem_pairsOf.mp hof
      simp only [Bool.and_eq_true, beq_iff_eq, decide_eq_true_eq] at hcond
      obtain ⟨g, hg, hid, hgt, hto⟩ := run_completed E ops (Table.find_of_mem hmem) hcond.1
      have hclient : g.clientId = clientId := Option.some.inj (hto.symm.trans hcond.2)
      refine List.mem_map.mpr ⟨g, ?_, hid⟩
      simp [hg, hgt, htest, hclient]

/-- What both sides of a game used does not fit a `bigint`. -/
def GameRow.Overflows (g : GameRow) : Prop :=
  (∃ x y, g.candidateNodes = some x ∧ g.baselineNodes = some y ∧ ¬(-2 ^ 63 ≤ x + y ∧ x + y < 2 ^ 63)) ∨
    ∃ x y, g.candidateTimeMs = some x ∧ g.baselineTimeMs = some y ∧
      ¬(-2 ^ 63 ≤ x + y ∧ x + y < 2 ^ 63)

theorem bothSides_cases (a b : GameRow → Option Int) (g : GameRow) :
    ((∃ x y, a g = some x ∧ b g = some y ∧ ¬(-2 ^ 63 ≤ x + y ∧ x + y < 2 ^ 63)) ∧
      bothSides a b g = .error .numericValueOutOfRange) ∨
    ((¬∃ x y, a g = some x ∧ b g = some y ∧ ¬(-2 ^ 63 ≤ x + y ∧ x + y < 2 ^ 63)) ∧
      ∃ sum, bothSides a b g = .ok sum) := by
  unfold bothSides
  cases a g with
  | none => simp
  | some x =>
    cases b g with
    | none => simp
    | some y =>
      dsimp only
      split
      next hfits =>
        refine .inr ⟨?_, _, rfl⟩
        rintro ⟨x', y', hx, hy, hno⟩
        cases hx
        cases hy
        exact hno hfits
      next hno => exact .inl ⟨⟨x, y, rfl, rfl, hno⟩, rfl⟩

theorem GameRow.played_cases (g : GameRow) :
    (g.Overflows ∧ g.played = .error .numericValueOutOfRange) ∨
      (¬g.Overflows ∧ ∃ x, g.played = .ok x ∧ x.game = g) := by
  unfold GameRow.Overflows GameRow.played
  rcases bothSides_cases (·.candidateNodes) (·.baselineNodes) g with ⟨hover, hn⟩ | ⟨hnodes, n, hn⟩
  · exact .inl ⟨.inl hover, by rw [hn]; rfl⟩
  · rcases bothSides_cases (·.candidateTimeMs) (·.baselineTimeMs) g with ⟨hover, ht⟩ | ⟨htime, t, ht⟩
    · exact .inl ⟨.inr hover, by rw [hn, ht]; rfl⟩
    · exact .inr ⟨not_or.mpr ⟨hnodes, htime⟩, ⟨g, n, t⟩, by rw [hn, ht]; rfl, rfl⟩

/-- The games can be read unless the sum of two columns of one of them overflows. -/
theorem mapM_played (games : List GameRow) :
    ((∃ g ∈ games, g.Overflows) ∧ games.mapM GameRow.played = .error .numericValueOutOfRange) ∨
      ((¬∃ g ∈ games, g.Overflows) ∧
        ∃ l, games.mapM GameRow.played = .ok l ∧ l.map (·.game) = games) := by
  induction games with
  | nil => exact .inr ⟨by simp, [], rfl, rfl⟩
  | cons g games ih =>
    rw [List.mapM_cons]
    rcases g.played_cases with ⟨hover, hg⟩ | ⟨hfits, x, hg, hx⟩
    · exact .inl ⟨⟨g, List.mem_cons_self, hover⟩, by rw [hg]; rfl⟩
    · rw [hg]
      rcases ih with ⟨⟨g', hg', hover⟩, herr⟩ | ⟨hall, l, hl, hmap⟩
      · exact .inl ⟨⟨g', List.mem_cons_of_mem g hg', hover⟩, by rw [herr]; rfl⟩
      · refine .inr ⟨?_, x :: l, by rw [hl]; rfl, by rw [List.map_cons, hx, hmap]⟩
        rintro ⟨g', hg', hover⟩
        rcases List.mem_cons.mp hg' with rfl | hg'
        · exact hfits hover
        · exact hall ⟨g', hg', hover⟩

section Listed

omit [LinearOrder F]

variable {db : Db F} {testId : Int} {games : List PlayedGame}

/-- The sum of a column, client by client. -/
theorem sum_listClients (w : TestClient → Nat) :
    ((db.listClients testId games).map w).sum =
      (db.clients.rows.map fun c => (db.testClient testId games c).elim 0 w).sum := by
  unfold Db.listClients
  rw [((List.perm_insertionSort _ _).map w).sum_eq, sum_filterMap]

theorem filter_game (hgames : games.map (·.game) = db.games.filter (·.testId == testId))
    (clientId : Int) :
    (games.filter fun x => x.game.clientId = clientId).map (·.game) =
      (db.games.filter (·.testId == testId)).filter fun g => g.clientId = clientId := by
  rw [← hgames, List.filter_map]
  rfl

/-- A client that is not on the list has nothing in any column. -/
theorem testClient_elim (hgames : games.map (·.game) = db.games.filter (·.testId == testId))
    (c : ClientRow) :
    ((db.testClient testId games c).elim 0 (·.pairsCompleted) =
      (((db.games.filter (·.testId == testId)).filter fun g => g.clientId = c.id).map
        (·.pairId)).dedup.length) ∧
    ((db.testClient testId games c).elim 0 (·.gamesInvalid) =
      ((db.games.filter (·.testId == testId)).filter fun g => g.clientId = c.id).countP (!·.valid)) ∧
    ((db.testClient testId games c).elim 0 (·.pairsLeased) =
      (((db.pairsOf testId).filter (·.status == .leased)).filter
        fun p => p.leasedTo = some c.id).length) := by
  have hplayed := groupOf_elim (·.game.clientId) games c.id
  have hleased := groupOf_elim (·.leasedTo) ((db.pairsOf testId).filter (·.status == .leased))
    (some c.id)
  rw [← filter_game hgames, List.map_map, List.countP_map, ← hleased (·.length) rfl]
  change _ = (((games.filter fun x => x.game.clientId = c.id).map (·.game.pairId)).dedup).length ∧
    _ = (games.filter fun x => x.game.clientId = c.id).countP (!·.game.valid) ∧ _
  rw [← hplayed (fun games => (games.map (·.game.pairId)).dedup.length) rfl,
    ← hplayed (fun games => games.countP (!·.game.valid)) rfl]
  unfold Db.testClient Db.leasedTo
  dsimp only
  split
  next h =>
    rw [Bool.and_eq_true, Option.isNone_iff_eq_none, Option.isNone_iff_eq_none] at h
    rw [h.1, h.2]
    exact ⟨rfl, rfl, rfl⟩
  next => exact ⟨rfl, rfl, rfl⟩

theorem testClient_clientId {c : ClientRow} {row : TestClient}
    (h : db.testClient testId games c = some row) : row.clientId = c.id := by
  unfold Db.testClient at h
  dsimp only at h
  split at h
  next => cases h
  next => rw [← Option.some.inj h]

theorem mem_listClients (hgames : games.map (·.game) = db.games.filter (·.testId == testId))
    {i : Int} :
    i ∈ (db.listClients testId games).map (·.clientId) ↔ db.Knows i ∧
      ((∃ g ∈ db.games, g.testId = testId ∧ g.clientId = i) ∨
        ∃ p ∈ db.pairsOf testId, p.status = .leased ∧ p.leasedTo = some i) := by
  have hrow : ∀ c : ClientRow, (db.testClient testId games c).isSome = true ↔
      (∃ g ∈ db.games, g.testId = testId ∧ g.clientId = c.id) ∨
        ∃ p ∈ db.pairsOf testId, p.status = .leased ∧ p.leasedTo = some c.id := by
    intro c
    have hplayed : (groupOf (·.game.clientId) games c.id).isSome = true ↔
        ∃ g ∈ db.games.filter (·.testId == testId), g.clientId = c.id := by
      rw [← hgames, groupOf_isSome]
      simp only [List.mem_map, exists_exists_and_eq_and]
    have hleased : (groupOf (·.leasedTo) ((db.pairsOf testId).filter (·.status == .leased))
        (some c.id)).isSome = true ↔
        ∃ p ∈ (db.pairsOf testId).filter (·.status == .leased), p.leasedTo = some c.id :=
      groupOf_isSome
    simp only [List.mem_filter, beq_iff_eq, and_assoc] at hplayed hleased
    rw [← hplayed, ← hleased]
    unfold Db.testClient Db.leasedTo
    dsimp only
    cases groupOf (·.game.clientId) games c.id with
    | some => simp
    | none =>
      cases groupOf (·.leasedTo) ((db.pairsOf testId).filter (·.status == .leased)) (some c.id) with
      | some => simp
      | none => simp
  unfold Db.listClients
  rw [((List.perm_insertionSort _ _).map _).mem_iff]
  constructor
  · intro h
    obtain ⟨row, hmem, rfl⟩ := List.mem_map.mp h
    obtain ⟨c, hc, hsome⟩ := List.mem_filterMap.mp hmem
    rw [testClient_clientId hsome]
    exact ⟨⟨c, Table.find_of_mem hc⟩, (hrow c).mp (by rw [hsome]; rfl)⟩
  · rintro ⟨⟨c, hc⟩, hshows⟩
    obtain ⟨hmem, rfl⟩ := Table.find_some hc
    obtain ⟨row, hsome⟩ := Option.isSome_iff_exists.mp ((hrow c).mpr hshows)
    exact List.mem_map.mpr ⟨row, List.mem_filterMap.mpr ⟨c, hmem, hsome⟩, testClient_clientId hsome⟩

end Listed

/-- A list of the clients of a test adds up. -/
structure Db.AddsUp (db : Db F) (testId : Int) (clients : List TestClient) : Prop where
  once : (clients.map (·.clientId)).Nodup
  listed : ∀ i, i ∈ clients.map (·.clientId) ↔
    (∃ g ∈ db.games, g.testId = testId ∧ g.clientId = i) ∨
      ∃ p ∈ db.pairsOf testId, p.status = .leased ∧ p.leasedTo = some i
  completed : (clients.map (·.pairsCompleted)).sum = db.countStatus testId .completed
  invalid : (clients.map (·.gamesInvalid)).sum =
    db.games.countP fun g => g.testId == testId && !g.valid
  leased : (clients.map (·.pairsLeased)).sum = db.countStatus testId .leased

theorem run_listClients (E : Env F) (ops : List Op) (testId : Int) {games : List PlayedGame}
    (hgames : games.map (·.game) = (Server.run E ops).db.games.filter (·.testId == testId)) :
    (Server.run E ops).db.AddsUp testId ((Server.run E ops).db.listClients testId games) := by
  have hkeys := Table.nodup (Server.run E ops).db.clients
  have hopts : ((Server.run E ops).db.clients.rows.map fun c => some c.id).Nodup := by
    have hmap := hkeys.map (Option.some_injective _)
    rw [List.map_map] at hmap
    exact hmap
  have hholder : ∀ p ∈ (Server.run E ops).db.pairsOf testId, p.status = .leased ∨
      p.status = .completed → p.leasedTo ∈ (Server.run E ops).db.clients.rows.map fun c => some c.id := by
    intro p hp hs
    obtain ⟨clientId, hto, c, hc⟩ := run_holder E ops
      (Table.find_of_mem (Db.mem_pairsOf.mp hp).1) hs
    obtain ⟨hmem, rfl⟩ := Table.find_some hc
    rw [hto]
    exact List.mem_map_of_mem hmem
  have hplayer : ∀ g ∈ (Server.run E ops).db.games, (Server.run E ops).db.Knows g.clientId := by
    intro g hg
    obtain ⟨p, hp, hs, -, hto⟩ := run_game E ops hg
    obtain ⟨clientId, hto', hknown⟩ := run_holder E ops hp (.inr hs)
    cases Option.some.inj (hto.symm.trans hto')
    exact hknown
  refine ⟨?_, fun i => ?_, ?_, ?_, ?_⟩
  · unfold Db.listClients
    refine (((List.perm_insertionSort _ _).map _).nodup_iff).mpr ?_
    exact hkeys.sublist (map_filterMap_sublist (fun _ _ h => testClient_clientId h) _)
  · rw [mem_listClients hgames, and_iff_right_of_imp]
    rintro (⟨g, hg, -, rfl⟩ | ⟨p, hp, hs, hto⟩)
    · exact hplayer g hg
    · obtain ⟨clientId, hto', hknown⟩ := run_holder E ops
        (Table.find_of_mem (Db.mem_pairsOf.mp hp).1) (.inl hs)
      cases Option.some.inj (hto.symm.trans hto')
      exact hknown
  · rw [sum_listClients]
    simp only [(testClient_elim hgames _).1, length_played]
    have hsum := sum_countP_key hopts (·.leasedTo) (fun p : PairRow => p.status == .completed)
      (l := (Server.run E ops).db.pairsOf testId) fun p hp hs => hholder p hp (.inr (by simpa using hs))
    rw [List.map_map] at hsum
    exact hsum
  · rw [sum_listClients]
    simp only [(testClient_elim hgames _).2.1, List.countP_filter]
    have hsum := sum_countP_key hkeys (·.clientId)
      (fun g : GameRow => g.testId == testId && !g.valid) (l := (Server.run E ops).db.games)
      fun g hg _ => by
        obtain ⟨c, hc⟩ := hplayer g hg
        obtain ⟨hmem, hid⟩ := Table.find_some hc
        exact List.mem_map.mpr ⟨c, hmem, hid⟩
    rw [List.map_map] at hsum
    refine Eq.trans (congrArg _ (List.map_congr_left fun c _ => ?_)) hsum
    refine List.countP_congr fun g _ => ?_
    simp only [Bool.and_eq_true, decide_eq_true_eq]
    tauto
  · rw [sum_listClients]
    simp only [(testClient_elim hgames _).2.2, ← List.countP_eq_length_filter, List.countP_filter]
    have hsum := sum_countP_key hopts (·.leasedTo) (fun p : PairRow => p.status == .leased)
      (l := (Server.run E ops).db.pairsOf testId) fun p hp hs => hholder p hp (.inl (by simpa using hs))
    rw [List.map_map] at hsum
    refine Eq.trans (congrArg _ (List.map_congr_left fun c _ => ?_)) hsum
    refine List.countP_congr fun p _ => ?_
    simp only [Bool.and_eq_true, decide_eq_true_eq]
    tauto

/-- In every run the list names each client that has played or plays once, and its columns add up
to the completed pairs, the invalid games and the pairs that are out; there is no list only if the
nodes or the times of both sides of a game of the test do not add up to a `bigint`. -/
theorem clients_add_up (E : Env F) (ops : List Op) (testId : Int) :
    ((∃ g ∈ (Server.run E ops).db.games, g.testId = testId ∧ g.Overflows) ∧
      (Server.run E ops).db.testClients testId = .error .numericValueOutOfRange) ∨
    ((¬∃ g ∈ (Server.run E ops).db.games, g.testId = testId ∧ g.Overflows) ∧
      ∃ clients, (Server.run E ops).db.testClients testId = .ok clients ∧
        (Server.run E ops).db.AddsUp testId clients) := by
  have hof : (∃ g ∈ (Server.run E ops).db.games, g.testId = testId ∧ g.Overflows) ↔
      ∃ g ∈ (Server.run E ops).db.games.filter (·.testId == testId), g.Overflows := by
    simp only [List.mem_filter, beq_iff_eq, and_assoc]
  rw [hof]
  unfold Db.testClients Db.played
  rcases mapM_played ((Server.run E ops).db.games.filter (·.testId == testId)) with
    ⟨hover, herr⟩ | ⟨hfits, games, hok, hgames⟩
  · exact .inl ⟨hover, by rw [herr]; rfl⟩
  · exact .inr ⟨hfits, _, by rw [hok]; rfl, run_listClients E ops testId hgames⟩

end CapiNet
