import CapiNet.System

namespace CapiNet

open Relational

variable {F : Type}

/-- A game under its identity. Other transactions insert games in any order of identities. -/
structure StoredGame where
  id : Int
  row : GameRow

abbrev GameTable : Type := Table StoredGame (·.id)

structure PgnManifestEntry where
  gameId : Int
  gzBytes : Nat
  deriving DecidableEq

structure PgnChunk where
  gameId : Int
  pgnGz : List UInt8
  deriving DecidableEq

/-- The games of a download: the valid ones, or all. -/
def announced (t : GameTable) (testId : Int) (includeInvalid : Bool) : List StoredGame :=
  t.ordered fun g => g.row.testId == testId && (g.row.valid || includeInvalid)

def StoredGame.entry (g : StoredGame) : PgnManifestEntry := ⟨g.id, g.row.pgnGz.length⟩

def pgnManifest (t : GameTable) (testId : Int) (includeInvalid : Bool) : List PgnManifestEntry :=
  (announced t testId includeInvalid).map StoredGame.entry

def pgnRange (t : GameTable) (testId firstId lastId : Int) : List PgnChunk :=
  (t.ordered fun g => g.row.testId == testId && decide (firstId ≤ g.id ∧ g.id ≤ lastId)).map
    fun g => ⟨g.id, g.row.pgnGz⟩

/-- The announced length. -/
def contentLength (separator : List UInt8) (manifest : List PgnManifestEntry) : Nat :=
  (manifest.map (·.gzBytes)).sum + separator.length * manifest.length

/-- What one call of the provider leaves: its place in the manifest, what it wrote, and whether the
body goes on. -/
structure Provided where
  next : Nat
  written : List UInt8
  ok : Bool

/-- The loop over the manifest entries of a batch. The batch is kept from the cursor on, which
skips smaller identities and stays at a match. -/
def writeGames (separator : List UInt8) : Nat → List PgnManifestEntry → List PgnChunk → Provided
  | next, [], _ => ⟨next, [], true⟩
  | next, want :: wanted, batch =>
    match batch.dropWhile fun c => decide (c.gameId < want.gameId) with
    | [] => ⟨next, [], false⟩
    | c :: rest =>
      if c.gameId ≠ want.gameId ∨ c.pgnGz.length ≠ want.gzBytes then ⟨next, [], false⟩
      else
        let p := writeGames separator (next + 1) wanted (c :: rest)
        { p with written := c.pgnGz ++ separator ++ p.written }

/-- One call of the provider, on the games as they are stored then. -/
def provide (separator : List UInt8) (t : GameTable) (testId : Int)
    (manifest : List PgnManifestEntry) (next : Nat) : Provided :=
  if h : next < manifest.length then
    let stop := min (next + 200) manifest.length
    have hstop : stop - 1 < manifest.length := by omega
    let batch := pgnRange t testId manifest[next].gameId manifest[stop - 1].gameId
    writeGames separator next ((manifest.take stop).drop next) batch
  else ⟨next, [], true⟩

structure Download where
  next : Nat := 0
  written : List UInt8 := []
  aborted : Bool := false

/-- The server library calls the provider until the announced length is written or it refuses. -/
def Download.call (separator : List UInt8) (t : GameTable) (testId : Int)
    (manifest : List PgnManifestEntry) (d : Download) : Download :=
  if d.aborted ∨ contentLength separator manifest ≤ d.written.length then d
  else
    let p := provide separator t testId manifest d.next
    { next := p.next, written := d.written ++ p.written, aborted := !p.ok }

/-- A download after some calls; the games each call finds are given. -/
def download (E : Env F) (testId : Int) (manifest : List PgnManifestEntry)
    (snapshots : Nat → GameTable) : Nat → Download
  | 0 => {}
  | calls + 1 => (download E testId manifest snapshots calls).call (E.gzipCompress "\n")
      (snapshots calls) testId manifest

/-- `GET /api/tests/{id}/pgn.gz`: the manifest is read once, then the body is provided. -/
def servePgnGz (E : Env F) (start : GameTable) (testId : Int) (includeInvalid : Bool)
    (snapshots : Nat → GameTable) (calls : Nat) : Download :=
  download E testId (pgnManifest start testId includeInvalid) snapshots calls

/-- The compressed PGN of a game of the test. -/
def storedPgn (t : GameTable) (testId id : Int) : Option (List UInt8) :=
  ((t.find id).filter (·.row.testId == testId)).map (·.row.pgnGz)

/-- The game is there, with the announced size. -/
def fits (t : GameTable) (testId : Int) (e : PgnManifestEntry) : Bool :=
  (storedPgn t testId e.gameId).any fun gz => gz.length == e.gzBytes

/-- What is written for a game. -/
def member (separator : List UInt8) (t : GameTable) (testId : Int) (e : PgnManifestEntry) :
    List UInt8 :=
  (storedPgn t testId e.gameId).getD [] ++ separator

theorem storedPgn_eq_some {t : GameTable} {testId id : Int} {gz : List UInt8} :
    storedPgn t testId id = some gz ↔
      ∃ g ∈ t.rows, g.id = id ∧ g.row.testId = testId ∧ g.row.pgnGz = gz := by
  simp only [storedPgn, Option.map_eq_some_iff, Option.filter_eq_some_iff, Table.find_eq_some,
    beq_iff_eq, and_assoc]

theorem mem_pgnRange {t : GameTable} {testId lo hi : Int} {c : PgnChunk} :
    c ∈ pgnRange t testId lo hi ↔
      lo ≤ c.gameId ∧ c.gameId ≤ hi ∧ storedPgn t testId c.gameId = some c.pgnGz := by
  simp only [pgnRange, List.mem_map, Table.mem_ordered, storedPgn_eq_some, Bool.and_eq_true,
    beq_iff_eq, decide_eq_true_eq]
  constructor
  · rintro ⟨g, ⟨hg, htest, hlo, hhi⟩, rfl⟩
    exact ⟨hlo, hhi, g, hg, rfl, htest, rfl⟩
  · rintro ⟨hlo, hhi, g, hg, hid, htest, hgz⟩
    exact ⟨g, ⟨hg, htest, hid.symm ▸ hlo, hid.symm ▸ hhi⟩, by rw [hid, hgz]⟩

theorem pairwise_pgnRange (t : GameTable) (testId lo hi : Int) :
    (pgnRange t testId lo hi).Pairwise fun c d => c.gameId < d.gameId :=
  List.pairwise_map.mpr (Table.pairwise_ordered t _)

theorem pairwise_pgnManifest (t : GameTable) (testId : Int) (includeInvalid : Bool) :
    (pgnManifest t testId includeInvalid).Pairwise fun e f => e.gameId < f.gameId :=
  List.pairwise_map.mpr (Table.pairwise_ordered t _)

/-- The cursor skips no chunk that is still wanted. -/
theorem mem_dropWhile_below {batch : List PgnChunk} {id : Int} {c : PgnChunk}
    (h : id ≤ c.gameId) :
    (c ∈ batch.dropWhile fun c => decide (c.gameId < id)) ↔ c ∈ batch := by
  constructor
  · exact fun hm => (List.dropWhile_sublist _).subset hm
  · intro hm
    rw [← List.takeWhile_append_dropWhile (p := fun c => decide (c.gameId < id)) (l := batch)] at hm
    rcases List.mem_append.mp hm with hm | hm
    · have hlt : c.gameId < id := by simpa using List.mem_takeWhile_imp hm
      omega
    · exact hm

/-- The loop writes the wanted games up to the first that does not fit. -/
theorem writeGames_eq {separator : List UInt8} {t : GameTable} {testId : Int}
    {wanted : List PgnManifestEntry} {batch : List PgnChunk} (next : Nat)
    (hb : batch.Pairwise fun c d => c.gameId < d.gameId)
    (hw : wanted.Pairwise fun e f => e.gameId < f.gameId)
    (hm : ∀ e ∈ wanted, ∀ gz, ⟨e.gameId, gz⟩ ∈ batch ↔ storedPgn t testId e.gameId = some gz) :
    writeGames separator next wanted batch =
      ⟨next + (wanted.takeWhile (fits t testId)).length,
        (wanted.takeWhile (fits t testId)).flatMap (member separator t testId),
        decide ((wanted.takeWhile (fits t testId)).length = wanted.length)⟩ := by
  induction wanted generalizing batch next with
  | nil => simp [writeGames]
  | cons want wanted ih =>
    obtain ⟨hfirst, hrest⟩ := List.pairwise_cons.mp hw
    have hpair := hb.sublist
      (List.dropWhile_sublist fun c : PgnChunk => decide (c.gameId < want.gameId))
    have hwant : ∀ gz, (⟨want.gameId, gz⟩ ∈
        batch.dropWhile fun c => decide (c.gameId < want.gameId)) ↔
        storedPgn t testId want.gameId = some gz :=
      fun gz => (mem_dropWhile_below le_rfl).trans (hm want (by simp) gz)
    have hhead := List.head?_dropWhile_not (fun c : PgnChunk => decide (c.gameId < want.gameId)) batch
    have hlater : ∀ e ∈ wanted, ∀ gz, (⟨e.gameId, gz⟩ ∈
        batch.dropWhile fun c => decide (c.gameId < want.gameId)) ↔
        storedPgn t testId e.gameId = some gz :=
      fun e he gz => (mem_dropWhile_below (hfirst e he).le).trans (hm e (by simp [he]) gz)
    simp only [writeGames]
    generalize batch.dropWhile (fun c => decide (c.gameId < want.gameId)) = rest
      at hpair hwant hhead hlater
    have refused : fits t testId want = false → (⟨next, [], false⟩ : Provided) =
        ⟨next + ((want :: wanted).takeWhile (fits t testId)).length,
          ((want :: wanted).takeWhile (fits t testId)).flatMap (member separator t testId),
          decide (((want :: wanted).takeWhile (fits t testId)).length =
            (want :: wanted).length)⟩ := by
      intro hf
      simp [hf]
    cases rest with
    | nil =>
      refine refused ?_
      cases hs : storedPgn t testId want.gameId with
      | none => simp [fits, hs]
      | some gz => cases (hwant gz).mpr hs
    | cons c rest =>
      have hge : want.gameId ≤ c.gameId := by simpa using hhead
      dsimp only
      split
      next hbad =>
        refine refused ?_
        cases hs : storedPgn t testId want.gameId with
        | none => simp [fits, hs]
        | some gz =>
          -- the head of the batch is the wanted game, so its size is wrong
          have hc : c = ⟨want.gameId, gz⟩ := by
            rcases List.mem_cons.mp ((hwant gz).mpr hs) with h | h
            · exact h.symm
            · have hlt := (List.pairwise_cons.mp hpair).1 _ h
              dsimp only at hlt
              omega
          subst hc
          simpa [fits, hs] using hbad
      next hgood =>
        simp only [not_or, not_not] at hgood
        obtain ⟨hid, hsize⟩ := hgood
        have hs : storedPgn t testId want.gameId = some c.pgnGz :=
          (hwant c.pgnGz).mp (by rw [← hid]; simp)
        have hf : fits t testId want = true := by simp [fits, hs, hsize]
        rw [ih (next + 1) hpair hrest hlater]
        simp only [List.takeWhile_cons, hf, if_true, List.length_cons, List.flatMap_cons, member, hs,
          Option.getD_some, Nat.add_right_cancel_iff]
        congr 1
        omega

/-- A call of the provider goes through the next 200 games at most. -/
theorem provide_eq {separator : List UInt8} {t : GameTable} {testId : Int}
    {manifest : List PgnManifestEntry} (next : Nat)
    (hm : manifest.Pairwise fun e f => e.gameId < f.gameId) :
    provide separator t testId manifest next =
      ⟨next + (((manifest.drop next).take 200).takeWhile (fits t testId)).length,
        (((manifest.drop next).take 200).takeWhile (fits t testId)).flatMap
          (member separator t testId),
        decide ((((manifest.drop next).take 200).takeWhile (fits t testId)).length =
          ((manifest.drop next).take 200).length)⟩ := by
  unfold provide
  split
  next h =>
    have hbatch : (manifest.take (min (next + 200) manifest.length)).drop next =
        (manifest.drop next).take 200 := by
      rw [List.drop_take]
      refine List.ext_getElem? fun i => ?_
      simp only [List.getElem?_take, List.getElem?_drop]
      by_cases hi : next + i < manifest.length
      · have hiff : i < min (next + 200) manifest.length - next ↔ i < 200 := by omega
        simp only [hiff]
      · rw [List.getElem?_eq_none (by omega)]
        simp
    dsimp only
    rw [hbatch]
    refine writeGames_eq next (pairwise_pgnRange t testId _ _)
      ((hm.sublist (List.drop_sublist _ _)).sublist (List.take_sublist _ _)) fun e he gz => ?_
    rw [mem_pgnRange]
    constructor
    · exact fun h => h.2.2
    · intro hs
      obtain ⟨i, hi, rfl⟩ := List.mem_iff_getElem.mp he
      simp only [List.length_take, List.length_drop] at hi
      simp only [List.getElem_take, List.getElem_drop] at hs ⊢
      have hle : ∀ j k (hj : j < manifest.length) (hk : k < manifest.length), j ≤ k →
          manifest[j].gameId ≤ manifest[k].gameId := by
        intro j k hj hk hjk
        rcases Nat.eq_or_lt_of_le hjk with rfl | hlt
        · exact le_rfl
        · exact (List.pairwise_iff_getElem.mp hm j k hj hk hlt).le
      exact ⟨hle _ _ _ _ (by omega), hle _ _ _ _ (by omega), hs⟩
  next h =>
    rw [List.drop_eq_nil_of_le (by omega)]
    simp

/-- An entry at its place in the manifest fits when the call of its batch looks for it. -/
def fitsAt (snapshots : Nat → GameTable) (testId : Int) (e : PgnManifestEntry × Nat) : Bool :=
  fits (snapshots (e.2 / 200)) testId e.1

def memberAt (separator : List UInt8) (snapshots : Nat → GameTable) (testId : Int)
    (e : PgnManifestEntry × Nat) : List UInt8 :=
  member separator (snapshots (e.2 / 200)) testId e.1

/-- The entries before the first that does not fit at its batch. -/
def deliverable (snapshots : Nat → GameTable) (testId : Int) (manifest : List PgnManifestEntry) :
    List (PgnManifestEntry × Nat) :=
  manifest.zipIdx.takeWhile (fitsAt snapshots testId)

theorem takeWhile_drop {α : Type} (p : α → Bool) (l : List α) {k : Nat}
    (h : k ≤ (l.takeWhile p).length) : (l.drop k).takeWhile p = (l.takeWhile p).drop k := by
  induction k generalizing l with
  | zero => rfl
  | succ k ih =>
    cases l with
    | nil => rfl
    | cons x l =>
      by_cases hx : p x = true
      · simp only [List.takeWhile_cons, hx, if_true, List.length_cons] at h ⊢
        exact ih l (by omega)
      · simp [hx] at h

variable {E : Env F} {separator : List UInt8} {snapshots : Nat → GameTable} {testId : Int}
  {manifest : List PgnManifestEntry}

/-- What is written for entries that fit has the announced lengths. -/
theorem length_flatMap_memberAt {es : List (PgnManifestEntry × Nat)}
    (h : ∀ e ∈ es, fitsAt snapshots testId e = true) :
    (es.flatMap (memberAt separator snapshots testId)).length =
      (es.map fun e => e.1.gzBytes + separator.length).sum := by
  rw [List.length_flatMap]
  refine congrArg List.sum (List.map_congr_left fun e he => ?_)
  obtain ⟨gz, hs, hlen⟩ := (Option.any_eq_true _ _).mp (h e he)
  rw [memberAt, member, hs, Option.getD_some, List.length_append, beq_iff_eq.mp hlen]

theorem contentLength_eq (separator : List UInt8) (manifest : List PgnManifestEntry) :
    contentLength separator manifest =
      (manifest.zipIdx.map fun e => e.1.gzBytes + separator.length).sum := by
  have hfst : manifest.zipIdx.map (fun e => e.1.gzBytes + separator.length) =
      manifest.map fun e => e.gzBytes + separator.length := by
    have hmap := congrArg (List.map fun e : PgnManifestEntry => e.gzBytes + separator.length)
      (List.zipIdx_map_fst 0 manifest)
    rw [List.map_map] at hmap
    exact hmap
  rw [hfst, List.sum_map_add, List.map_const', List.sum_replicate, smul_eq_mul, contentLength,
    Nat.mul_comm]

theorem fitsAt_of_mem_deliverable {e : PgnManifestEntry × Nat}
    (h : e ∈ deliverable snapshots testId manifest) : fitsAt snapshots testId e = true :=
  List.mem_takeWhile_imp h

theorem length_deliverable_le :
    (deliverable snapshots testId manifest).length ≤ manifest.length := by
  have hle := (List.takeWhile_sublist (fitsAt snapshots testId) (l := manifest.zipIdx)).length_le
  rwa [List.length_zipIdx] at hle

/-- The announced length is what is written and what is left. -/
theorem contentLength_split (k : Nat) :
    contentLength separator manifest =
      (((deliverable snapshots testId manifest).take k).flatMap
        (memberAt separator snapshots testId)).length +
      ((manifest.zipIdx.drop (min k (deliverable snapshots testId manifest).length)).map
        fun e => e.1.gzBytes + separator.length).sum := by
  have htake : (deliverable snapshots testId manifest).take k =
      manifest.zipIdx.take (min k (deliverable snapshots testId manifest).length) := by
    have hpre : deliverable snapshots testId manifest =
        manifest.zipIdx.take (deliverable snapshots testId manifest).length :=
      List.prefix_iff_eq_take.mp (List.takeWhile_prefix _)
    conv_lhs => rw [hpre, List.take_take]
  rw [length_flatMap_memberAt fun e he => fitsAt_of_mem_deliverable (List.mem_of_mem_take he), htake,
    contentLength_eq, ← List.sum_append, ← List.map_append, List.take_append_drop]

/-- The next batch, from any place before the first entry that does not fit. -/
theorem batch_eq {calls : Nat} {k : Nat}
    (hk : k = min (deliverable snapshots testId manifest).length (200 * calls))
    (hplace : k = 200 * calls ∨ k = manifest.length) :
    ((manifest.drop k).take 200).takeWhile (fits (snapshots calls) testId) =
        (((deliverable snapshots testId manifest).drop k).take 200).map Prod.fst ∧
      (((manifest.drop k).take 200).takeWhile (fits (snapshots calls) testId)).flatMap
          (member separator (snapshots calls) testId) =
        (((deliverable snapshots testId manifest).drop k).take 200).flatMap
          (memberAt separator snapshots testId) := by
  have hfst : (manifest.drop k).take 200 = ((manifest.zipIdx.drop k).take 200).map Prod.fst := by
    rw [List.map_take, List.map_drop, List.zipIdx_map_fst]
  have hcall : ∀ e ∈ (manifest.zipIdx.drop k).take 200, e.2 / 200 = calls := by
    intro e he
    obtain ⟨i, hi, rfl⟩ := List.mem_iff_getElem.mp he
    simp only [List.length_take, List.length_drop, List.length_zipIdx] at hi
    simp only [List.getElem_take, List.getElem_drop, List.getElem_zipIdx]
    omega
  have hready : ((manifest.zipIdx.drop k).take 200).takeWhile (fitsAt snapshots testId) =
      ((deliverable snapshots testId manifest).drop k).take 200 := by
    rw [← List.take_takeWhile, takeWhile_drop _ _ (by rw [hk]; exact Nat.min_le_left _ _)]
    rfl
  have hsame : ((manifest.zipIdx.drop k).take 200).takeWhile
      (fits (snapshots calls) testId ∘ Prod.fst) =
      ((manifest.zipIdx.drop k).take 200).takeWhile (fitsAt snapshots testId) := by
    revert hcall
    generalize (manifest.zipIdx.drop k).take 200 = es
    intro hcall
    induction es with
    | nil => rfl
    | cons e es ih =>
      have hhead : fitsAt snapshots testId e = fits (snapshots calls) testId e.1 := by
        rw [fitsAt, hcall e (by simp)]
      rw [List.takeWhile_cons, List.takeWhile_cons, Function.comp_apply, hhead,
        ih fun e' he' => hcall e' (by simp [he'])]
  have hentries : ((manifest.drop k).take 200).takeWhile (fits (snapshots calls) testId) =
      (((deliverable snapshots testId manifest).drop k).take 200).map Prod.fst := by
    rw [hfst, List.takeWhile_map, hsame, hready]
  refine ⟨hentries, ?_⟩
  rw [hentries, List.flatMap_map]
  refine List.flatMap_congr fun e he => ?_
  rw [← hready] at he
  rw [memberAt, hcall e ((List.takeWhile_sublist _).subset he)]

/-- Where a download stands after some calls. -/
structure Reached (separator : List UInt8) (snapshots : Nat → GameTable) (testId : Int)
    (manifest : List PgnManifestEntry) (calls : Nat) (d : Download) : Prop where
  written : d.written = ((deliverable snapshots testId manifest).take (200 * calls)).flatMap
    (memberAt separator snapshots testId)
  aborted : d.aborted = true ↔
    (deliverable snapshots testId manifest).length < manifest.length ∧
      (deliverable snapshots testId manifest).length < 200 * calls
  next : d.aborted = true ∨ contentLength separator manifest ≤ d.written.length ∨
    d.next = min (deliverable snapshots testId manifest).length (200 * calls)

/-- A body of the announced length is complete: nothing of positive length is left. -/
theorem Reached.complete {calls : Nat} {d : Download}
    (h : Reached separator snapshots testId manifest calls d)
    (hsep : (deliverable snapshots testId manifest).length < manifest.length → separator ≠ [])
    (hlen : contentLength separator manifest ≤ d.written.length) :
    (deliverable snapshots testId manifest).length = manifest.length ∧
      ((deliverable snapshots testId manifest).drop (200 * calls)).flatMap
        (memberAt separator snapshots testId) = [] := by
  have hsplit : contentLength separator manifest = d.written.length +
      ((manifest.zipIdx.drop
        (min (200 * calls) (deliverable snapshots testId manifest).length)).map
          fun e => e.1.gzBytes + separator.length).sum := by
    rw [h.written]
    exact contentLength_split (200 * calls)
  have hzero : ((manifest.zipIdx.drop
      (min (200 * calls) (deliverable snapshots testId manifest).length)).map
        fun e => e.1.gzBytes + separator.length).sum = 0 := by omega
  rw [List.sum_eq_zero_iff] at hzero
  have hle : (deliverable snapshots testId manifest).length ≤ manifest.length :=
    length_deliverable_le
  have hall : (deliverable snapshots testId manifest).length = manifest.length := by
    by_contra hne
    have hlt : (deliverable snapshots testId manifest).length < manifest.length := by omega
    have hpos : 0 < separator.length := List.length_pos_iff.mpr (hsep hlt)
    have hsome : ∃ e, e ∈ manifest.zipIdx.drop
        (min (200 * calls) (deliverable snapshots testId manifest).length) := by
      refine List.exists_mem_of_length_pos ?_
      rw [List.length_drop, List.length_zipIdx]
      omega
    obtain ⟨e, he⟩ := hsome
    have := hzero _ (List.mem_map.mpr ⟨e, he, rfl⟩)
    omega
  refine ⟨hall, ?_⟩
  have hwhole : deliverable snapshots testId manifest = manifest.zipIdx :=
    (List.takeWhile_prefix _).eq_of_length (by rw [List.length_zipIdx]; exact hall)
  refine List.length_eq_zero_iff.mp ?_
  rw [length_flatMap_memberAt fun e he => fitsAt_of_mem_deliverable (List.mem_of_mem_drop he)]
  refine List.sum_eq_zero fun n hn => ?_
  obtain ⟨e, he, rfl⟩ := List.mem_map.mp hn
  refine hzero _ (List.mem_map.mpr ⟨e, ?_, rfl⟩)
  rw [← hwhole]
  by_cases hc : 200 * calls ≤ (deliverable snapshots testId manifest).length
  · rwa [Nat.min_eq_left hc]
  · rw [List.drop_eq_nil_of_le (by omega)] at he
    cases he

/-- One more call. -/
theorem Reached.call {calls : Nat} {d : Download}
    (h : Reached separator snapshots testId manifest calls d)
    (hm : manifest.Pairwise fun e f => e.gameId < f.gameId)
    (hsep : (deliverable snapshots testId manifest).length < manifest.length → separator ≠ []) :
    Reached separator snapshots testId manifest (calls + 1)
      (d.call separator (snapshots calls) testId manifest) := by
  have hle : (deliverable snapshots testId manifest).length ≤ manifest.length :=
    length_deliverable_le
  have htake : (deliverable snapshots testId manifest).take (200 * (calls + 1)) =
      (deliverable snapshots testId manifest).take (200 * calls) ++
        ((deliverable snapshots testId manifest).drop (200 * calls)).take 200 := by
    rw [Nat.mul_succ, List.take_add]
  unfold Download.call
  split
  next hstop =>
    by_cases hab : d.aborted = true
    · -- nothing more is asked for after a refusal
      obtain ⟨hlt, hpast⟩ := h.aborted.mp hab
      refine ⟨?_, ⟨fun _ => ⟨hlt, by omega⟩, fun _ => hab⟩, .inl hab⟩
      rw [h.written, List.take_of_length_le (by omega), List.take_of_length_le (by omega)]
    · have hlen := hstop.resolve_left hab
      obtain ⟨hall, hnil⟩ := h.complete hsep hlen
      refine ⟨?_, ⟨fun h => absurd h hab, fun h => by omega⟩, .inr (.inl hlen)⟩
      have hrest : (((deliverable snapshots testId manifest).drop (200 * calls)).take 200).flatMap
          (memberAt separator snapshots testId) = [] := by
        rw [List.flatMap_eq_nil_iff] at hnil ⊢
        exact fun e he => hnil e (List.mem_of_mem_take he)
      rw [htake, List.flatMap_append, hrest, List.append_nil]
      exact h.written
  next hgo =>
    simp only [not_or] at hgo
    obtain ⟨hab, hlen⟩ := hgo
    have hnext := (h.next.resolve_left hab).resolve_left hlen
    have hlive : ¬((deliverable snapshots testId manifest).length < manifest.length ∧
        (deliverable snapshots testId manifest).length < 200 * calls) :=
      fun hbad => hab (h.aborted.mpr hbad)
    obtain ⟨hentries, hbytes⟩ := batch_eq hnext (by omega)
    have hcount : (((manifest.drop d.next).take 200).takeWhile (fits (snapshots calls) testId)).length =
        min 200 ((deliverable snapshots testId manifest).length - d.next) := by
      rw [hentries, List.length_map, List.length_take, List.length_drop]
    dsimp only
    rw [provide_eq d.next hm]
    refine ⟨?_, ?_, .inr (.inr ?_)⟩
    · dsimp only
      rw [hbytes, h.written, htake, List.flatMap_append]
      by_cases hc : 200 * calls ≤ (deliverable snapshots testId manifest).length
      · rw [hnext, Nat.min_eq_right hc]
      · rw [List.drop_eq_nil_of_le (i := d.next) (by omega), List.drop_eq_nil_of_le (by omega)]
    · dsimp only
      rw [hcount, List.length_take, List.length_drop]
      simp only [Bool.not_eq_true', decide_eq_false_iff_not]
      omega
    · dsimp only
      rw [hcount]
      omega

theorem download_reached (hm : manifest.Pairwise fun e f => e.gameId < f.gameId)
    (hsep : (deliverable snapshots testId manifest).length < manifest.length →
      E.gzipCompress "\n" ≠ []) (calls : Nat) :
    Reached (E.gzipCompress "\n") snapshots testId manifest calls
      (download E testId manifest snapshots calls) := by
  induction calls with
  | zero => exact ⟨by simp [download], by simp [download], by simp [download]⟩
  | succ calls ih => exact ih.call hm hsep

/-- The game at a place of the download keeps its bytes until its batch is fetched. -/
def Kept (snapshots : Nat → GameTable) (testId : Int) (games : List StoredGame) (j : Nat) : Prop :=
  ∀ g, games[j]? = some g → storedPgn (snapshots (j / 200)) testId g.id = some g.row.pgnGz

/-- At its batch, the game at a place of the download is missing or has another size. -/
def Changed (snapshots : Nat → GameTable) (testId : Int) (games : List StoredGame) (j : Nat) :
    Prop :=
  ∃ g, games[j]? = some g ∧ ∀ gz, storedPgn (snapshots (j / 200)) testId g.id = some gz →
    gz.length ≠ g.row.pgnGz.length

/-- The stored members, each followed by the separator. -/
def stream (separator : List UInt8) (games : List StoredGame) : List UInt8 :=
  games.flatMap fun g => g.row.pgnGz ++ separator

/-- The same with the bytes each game has at its batch. -/
def streamAt (separator : List UInt8) (snapshots : Nat → GameTable) (testId : Int)
    (games : List (StoredGame × Nat)) : List UInt8 :=
  games.flatMap fun e => memberAt separator snapshots testId (e.1.entry, e.2)

theorem manifest_zipIdx (games : List StoredGame) :
    (games.map StoredGame.entry).zipIdx = games.zipIdx.map fun e => (e.1.entry, e.2) := by
  rw [List.zipIdx_map]
  rfl

theorem fitsAt_iff {games : List StoredGame} {j : Nat} {g : StoredGame}
    (hg : games[j]? = some g) :
    fitsAt snapshots testId (g.entry, j) = true ↔ ¬Changed snapshots testId games j := by
  have hchanged : Changed snapshots testId games j ↔
      ∀ gz, storedPgn (snapshots (j / 200)) testId g.id = some gz →
        gz.length ≠ g.row.pgnGz.length := by
    constructor
    · rintro ⟨g', hg', h⟩
      cases Option.some.inj (hg.symm.trans hg')
      exact h
    · exact fun h => ⟨g, hg, h⟩
  rw [hchanged]
  cases hs : storedPgn (snapshots (j / 200)) testId g.id with
  | none => simp [fitsAt, fits, StoredGame.entry, hs]
  | some gz => simp [fitsAt, fits, StoredGame.entry, hs]

theorem Kept.not_changed {games : List StoredGame} {j : Nat}
    (h : Kept snapshots testId games j) : ¬Changed snapshots testId games j := by
  rintro ⟨g, hg, hbad⟩
  exact hbad _ (h g hg) rfl

theorem streamAt_kept {games : List StoredGame} {k : Nat}
    (h : ∀ j < k, Kept snapshots testId games j) :
    streamAt separator snapshots testId (games.zipIdx.take k) = stream separator (games.take k) := by
  have hfst : games.take k = (games.zipIdx.take k).map Prod.fst := by
    rw [List.map_take, List.zipIdx_map_fst]
  rw [streamAt, stream, hfst, List.flatMap_map]
  refine List.flatMap_congr fun e he => ?_
  obtain ⟨i, hi, rfl⟩ := List.mem_iff_getElem.mp he
  simp only [List.length_take, List.length_zipIdx] at hi
  simp only [List.getElem_take, List.getElem_zipIdx, Nat.zero_add]
  have hs := h i (by omega) games[i] (List.getElem?_eq_getElem (by omega))
  rw [memberAt, member, StoredGame.entry, hs, Option.getD_some]

theorem getElem?_length_takeWhile {α : Type} {p : α → Bool} {l : List α}
    (h : (l.takeWhile p).length < l.length) :
    ∃ x, l[(l.takeWhile p).length]? = some x ∧ p x = false := by
  induction l with
  | nil => simp at h
  | cons x l ih =>
    by_cases hx : p x = true
    · simp only [List.takeWhile_cons, hx, if_true, List.length_cons, Nat.succ_lt_succ_iff] at h ⊢
      obtain ⟨y, hy, hpy⟩ := ih h
      exact ⟨y, by simpa using hy, hpy⟩
    · exact ⟨x, by simp [hx], by simpa using hx⟩

/-- The places before the first change are those that are delivered. -/
theorem length_deliverable_spec (games : List StoredGame) :
    (∀ j < (deliverable snapshots testId (games.map StoredGame.entry)).length,
      ¬Changed snapshots testId games j) ∧
    ((deliverable snapshots testId (games.map StoredGame.entry)).length < games.length →
      Changed snapshots testId games
        (deliverable snapshots testId (games.map StoredGame.entry)).length) := by
  have hget : ∀ j : Nat, (games.map StoredGame.entry).zipIdx[j]? =
      games[j]?.map fun g : StoredGame => (g.entry, j) := by
    intro j
    simp [List.getElem?_zipIdx, Option.map_map, Function.comp_def]
  constructor
  · intro j hj
    have hpre : (deliverable snapshots testId (games.map StoredGame.entry)) <+:
        (games.map StoredGame.entry).zipIdx := List.takeWhile_prefix _
    have hin := List.prefix_iff_getElem?.mp hpre j hj
    rw [hget] at hin
    obtain ⟨g, hg, he⟩ := Option.map_eq_some_iff.mp hin
    rw [← fitsAt_iff hg, he]
    exact fitsAt_of_mem_deliverable (List.getElem_mem hj)
  · intro hlt
    have hlen : (deliverable snapshots testId (games.map StoredGame.entry)).length <
        (games.map StoredGame.entry).zipIdx.length := by
      rw [List.length_zipIdx, List.length_map]
      exact hlt
    obtain ⟨e, he, hf⟩ := getElem?_length_takeWhile hlen
    rw [← deliverable, hget] at he
    obtain ⟨g, hg, rfl⟩ := Option.map_eq_some_iff.mp he
    by_contra hno
    rw [(fitsAt_iff hg).mpr hno] at hf
    cases hf

/-- What a download has written is the stream of its games up to the calls made, or up to the first
changed game. -/
theorem download_written (start : GameTable) (includeInvalid : Bool)
    (hsep : (∃ j, Changed snapshots testId (announced start testId includeInvalid) j) →
      E.gzipCompress "\n" ≠ []) :
    ∃ m, (∀ j < m, ¬Changed snapshots testId (announced start testId includeInvalid) j) ∧
      (m = (announced start testId includeInvalid).length ∨
        Changed snapshots testId (announced start testId includeInvalid) m) ∧
      ∀ calls,
        ((servePgnGz E start testId includeInvalid snapshots calls).aborted = true ↔
          m < (announced start testId includeInvalid).length ∧ m < 200 * calls) ∧
        (servePgnGz E start testId includeInvalid snapshots calls).written =
          streamAt (E.gzipCompress "\n") snapshots testId
            ((announced start testId includeInvalid).zipIdx.take (min m (200 * calls))) := by
  have hm : ((announced start testId includeInvalid).map StoredGame.entry).Pairwise
      fun e f => e.gameId < f.gameId := pairwise_pgnManifest start testId includeInvalid
  simp only [servePgnGz, pgnManifest]
  generalize announced start testId includeInvalid = games at hsep hm ⊢
  obtain ⟨hbefore, hat⟩ : _ ∧ ((deliverable snapshots testId (games.map StoredGame.entry)).length <
      games.length → _) := length_deliverable_spec games
  have hle : (deliverable snapshots testId (games.map StoredGame.entry)).length ≤ games.length := by
    have h : (deliverable snapshots testId (games.map StoredGame.entry)).length ≤
        (games.map StoredGame.entry).length := length_deliverable_le
    rwa [List.length_map] at h
  have hreached : ∀ calls, Reached (E.gzipCompress "\n") snapshots testId
      (games.map StoredGame.entry) calls
      (download E testId (games.map StoredGame.entry) snapshots calls) := by
    refine download_reached hm fun hlt => hsep ⟨_, hat ?_⟩
    rwa [List.length_map] at hlt
  have hpre : ∀ k, (deliverable snapshots testId (games.map StoredGame.entry)).take k =
      ((games.zipIdx.take (min (deliverable snapshots testId
        (games.map StoredGame.entry)).length k)).map fun e => (e.1.entry, e.2)) := by
    intro k
    have hfront : deliverable snapshots testId (games.map StoredGame.entry) =
        (games.map StoredGame.entry).zipIdx.take
          (deliverable snapshots testId (games.map StoredGame.entry)).length :=
      List.prefix_iff_eq_take.mp (List.takeWhile_prefix _)
    conv_lhs => rw [hfront, List.take_take, manifest_zipIdx, ← List.map_take, Nat.min_comm]
  refine ⟨_, hbefore, ?_, fun calls => ⟨?_, ?_⟩⟩
  · rcases Nat.lt_or_eq_of_le hle with hlt | heq
    · exact .inr (hat hlt)
    · exact .inl heq
  · rw [(hreached calls).aborted, List.length_map]
  · rw [(hreached calls).written, hpre, List.flatMap_map]
    rfl

/-- Games that keep their bytes are delivered in full, 200 a call. -/
theorem download_kept {start : GameTable} {includeInvalid : Bool}
    (hkept : ∀ j, Kept snapshots testId (announced start testId includeInvalid) j) (calls : Nat) :
    (servePgnGz E start testId includeInvalid snapshots calls).aborted = false ∧
      (servePgnGz E start testId includeInvalid snapshots calls).written =
        stream (E.gzipCompress "\n") ((announced start testId includeInvalid).take (200 * calls)) := by
  have hnone : ¬∃ j, Changed snapshots testId (announced start testId includeInvalid) j :=
    fun ⟨j, hj⟩ => (hkept j).not_changed hj
  obtain ⟨m, -, hend, hrun⟩ := download_written (E := E) start includeInvalid
    fun h => absurd h hnone
  obtain ⟨habort, hwritten⟩ := hrun calls
  have hm : m = (announced start testId includeInvalid).length :=
    hend.resolve_right fun h => hnone ⟨m, h⟩
  constructor
  · rw [Bool.eq_false_iff, ne_eq, habort]
    omega
  · rw [hwritten, streamAt_kept fun j _ => hkept j, hm, Nat.min_comm, ← List.take_take,
      List.take_length]

/-- If the announced games keep their bytes, no call refuses and every 200 games a call writes the
next part of the announced stream; otherwise the body ends before the first changed game. -/
theorem pgn_download_exact (E : Env F) (start : GameTable) (testId : Int) (includeInvalid : Bool)
    (snapshots : Nat → GameTable) :
    ((∀ j, Kept snapshots testId (announced start testId includeInvalid) j) → ∀ calls,
      (servePgnGz E start testId includeInvalid snapshots calls).aborted = false ∧
      (servePgnGz E start testId includeInvalid snapshots calls).written =
        stream (E.gzipCompress "\n")
          ((announced start testId includeInvalid).take (200 * calls)) ∧
      ((announced start testId includeInvalid).length ≤ 200 * calls →
        (servePgnGz E start testId includeInvalid snapshots calls).written =
            stream (E.gzipCompress "\n") (announced start testId includeInvalid) ∧
        (servePgnGz E start testId includeInvalid snapshots calls).written.length =
          contentLength (E.gzipCompress "\n") (pgnManifest start testId includeInvalid))) ∧
    (E.gzipCompress "\n" ≠ [] →
      ∀ j, Changed snapshots testId (announced start testId includeInvalid) j → ∃ m ≤ j,
        Changed snapshots testId (announced start testId includeInvalid) m ∧ ∀ calls,
        ((servePgnGz E start testId includeInvalid snapshots calls).aborted = true ↔
          m < 200 * calls) ∧
        (servePgnGz E start testId includeInvalid snapshots calls).written =
          streamAt (E.gzipCompress "\n") snapshots testId
            ((announced start testId includeInvalid).zipIdx.take (min m (200 * calls))) ∧
        ((∀ i < m, Kept snapshots testId (announced start testId includeInvalid) i) →
          (servePgnGz E start testId includeInvalid snapshots calls).written =
            stream (E.gzipCompress "\n")
              ((announced start testId includeInvalid).take (min m (200 * calls))))) := by
  constructor
  · intro hkept calls
    obtain ⟨hok, hstream⟩ := download_kept (E := E) hkept calls
    have hfull : (announced start testId includeInvalid).length ≤ 200 * calls →
        (servePgnGz E start testId includeInvalid snapshots calls).written =
          stream (E.gzipCompress "\n") (announced start testId includeInvalid) := by
      intro hlen
      rw [hstream, List.take_of_length_le hlen]
    refine ⟨hok, hstream, fun hlen => ⟨hfull hlen, ?_⟩⟩
    · rw [hfull hlen, stream, List.length_flatMap, contentLength, pgnManifest, List.map_map,
        List.length_map]
      simp only [List.length_append, List.sum_map_add, List.map_const', List.sum_replicate,
        smul_eq_mul, Nat.mul_comm, StoredGame.entry, Function.comp_def]
  · intro hsep j hj
    obtain ⟨m, hbefore, hend, hrun⟩ := download_written (E := E) start includeInvalid fun _ => hsep
    have hjlen : j < (announced start testId includeInvalid).length := by
      obtain ⟨g, hg, -⟩ := hj
      exact (List.getElem?_eq_some_iff.mp hg).1
    have hmj : m ≤ j := by
      by_contra hlt
      exact hbefore j (by omega) hj
    refine ⟨m, hmj, hend.resolve_left (by omega), fun calls => ?_⟩
    obtain ⟨habort, hwritten⟩ := hrun calls
    refine ⟨habort.trans ⟨fun h => h.2, fun h => ⟨by omega, h⟩⟩, hwritten, fun hkept => ?_⟩
    rw [hwritten, streamAt_kept fun i hi => hkept i (lt_of_lt_of_le hi (Nat.min_le_left _ _))]

/-- A valid game of the first test, with some bytes for its PGN. -/
noncomputable def playedGame (id : Int) (gz : List UInt8) : StoredGame :=
  ⟨id, { gameRow realEnv 1 1 (drawnReport 1).toPairReport ⟨0, Nat.zero_lt_two⟩ with valid := true, pgnGz := gz }⟩

@[simp] theorem playedGame_id (id : Int) (gz : List UInt8) : (playedGame id gz).id = id := rfl

/-- Games 1 and 3. -/
noncomputable def twoGames : GameTable :=
  ⟨[playedGame 1 [1], playedGame 3 [3, 3]], 4, by simp, by simp⟩

/-- Game 2 was inserted between them. -/
noncomputable def gapFilled : GameTable :=
  ⟨[playedGame 1 [1], playedGame 3 [3, 3], playedGame 2 [2]], 4, by simp, by simp⟩

/-- A game that comes between the announced ones is not delivered; when the second of three is
gone, the body is cut. -/
theorem download_past_inserted :
    ((servePgnGz realEnv twoGames 1 false (fun _ => gapFilled) 1).written =
        [1] ++ emptyGzip ++ [3, 3] ++ emptyGzip ∧
      (servePgnGz realEnv twoGames 1 false (fun _ => gapFilled) 1).aborted = false) ∧
    (servePgnGz realEnv gapFilled 1 false (fun _ => twoGames) 1).aborted = true := by
  have hgames : announced twoGames 1 false = [playedGame 1 [1], playedGame 3 [3, 3]] := rfl
  have hfilled : announced gapFilled 1 false =
      [playedGame 1 [1], playedGame 2 [2], playedGame 3 [3, 3]] := rfl
  have hkept : ∀ j, Kept (fun _ => gapFilled) 1 (announced twoGames 1 false) j := by
    intro j g hg
    rw [hgames] at hg
    rcases List.mem_cons.mp (List.mem_of_getElem? hg) with rfl | hg
    · rfl
    · cases List.mem_singleton.mp hg
      rfl
  obtain ⟨hok, -, hfull⟩ := (pgn_download_exact realEnv twoGames 1 false _).1 hkept 1
  have hchanged : Changed (fun _ => twoGames) 1 (announced gapFilled 1 false) 1 :=
    ⟨playedGame 2 [2], by rw [hfilled]; rfl, fun gz hgz => by cases hgz⟩
  obtain ⟨m, hm, -, hrun⟩ := (pgn_download_exact realEnv gapFilled 1 false _).2
    (by simp [realEnv, emptyGzip]) 1 hchanged
  refine ⟨⟨?_, hok⟩, (hrun 1).1.mpr (by omega)⟩
  rw [(hfull (by rw [hgames]; decide)).1, hgames]
  rfl

end CapiNet
