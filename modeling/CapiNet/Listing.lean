import CapiNet.LeaseLength
import CapiNet.SpecFaithful
import CapiNet.TestLifecycle
import Mathlib.Data.Prod.Lex

namespace CapiNet

open Txn Relational

structure TestSummary (F : Type) where
  id : Int
  name : String
  kind : TestKind
  status : TestStatus
  result : TestResult
  candidateRef : String
  candidateCommit : String
  baselineRef : String
  baselineCommit : String
  priority : Int
  totalPairs : Int
  pairsValid : Nat
  llr : Option F
  llrLower : Option F
  llrUpper : Option F
  elo : Option F
  createdAt : ℚ
  wins : Nat
  draws : Nat
  losses : Nat

/-- `t.status IN ('queued', 'validating')` -/
def TestStatus.waiting (s : TestStatus) : Bool := s == .queued || s == .validating

/-- `CASE t.status WHEN 'running' THEN 0 WHEN 'queued' THEN 1 WHEN 'validating' THEN 1 ELSE 2 END` -/
def TestStatus.place : TestStatus → Nat
  | .running => 0
  | .queued | .validating => 1
  | _ => 2

/-- The keys of `ORDER BY`; a key that is `NULL` comes last. -/
def listKey (t : TestRow) : Nat ×ₗ WithTop Int ×ₗ WithTop Int ×ₗ Int :=
  toLex (t.status.place,
    toLex (if t.status.waiting then (-t.priority : Int) else ⊤,
      toLex (if t.status.waiting then (t.id : Int) else ⊤, -t.id)))

def listedBefore (a b : TestRow) : Prop := listKey a ≤ listKey b

instance : DecidableRel listedBefore := fun a b => by unfold listedBefore; infer_instance

variable {F : Type}

def Db.summary (db : Db F) (t : TestRow) : TestSummary F :=
  let s := db.testStats t.id
  { id := t.id, name := t.name, kind := t.kind, status := t.status, result := t.result
    candidateRef := t.candidateRef, candidateCommit := t.candidateCommit
    baselineRef := t.baselineRef, baselineCommit := t.baselineCommit
    priority := t.priority, totalPairs := t.totalPairs
    pairsValid := s.elim 0 (·.pairsValid)
    llr := s.bind (·.llr), llrLower := s.bind (·.llrLower), llrUpper := s.bind (·.llrUpper)
    elo := s.bind (·.elo), createdAt := t.createdAt
    wins := s.elim 0 (·.gamesWins), draws := s.elim 0 (·.gamesDraws)
    losses := s.elim 0 (·.gamesLosses) }

/-- `-t.priority` is taken of the tests that wait, and is an `int4` like the priority. -/
def negatable (t : TestRow) : Bool :=
  !t.status.waiting || decide (-2 ^ 31 ≤ -t.priority ∧ -t.priority < 2 ^ 31)

/-- `none` when the query fails. -/
def listTests (db : Db F) (limit : Nat) : Option (List (TestSummary F)) :=
  if db.tests.rows.all negatable then
    some (((db.tests.rows.insertionSort listedBefore).take limit).map db.summary)
  else none

theorem listedBefore_total (a b : TestRow) : listedBefore a b ∨ listedBefore b a := le_total _ _

theorem listedBefore_trans {a b c : TestRow} (h : listedBefore a b) (h' : listedBefore b c) :
    listedBefore a c := le_trans h h'

instance : Std.Total listedBefore := ⟨listedBefore_total⟩

instance : IsTrans TestRow listedBefore := ⟨fun _ _ _ => listedBefore_trans⟩

theorem place_waiting {s : TestStatus} (h : s.waiting = true) : s.place = 1 := by
  cases s with
  | queued => rfl
  | validating => rfl
  | _ => cases h

theorem listedBefore_place {a b : TestRow} (h : listedBefore a b) :
    a.status.place ≤ b.status.place := by
  rcases Prod.Lex.le_iff.mp h with hlt | ⟨heq, -⟩
  · exact hlt.le
  · exact heq.le

/-- Among the tests that wait, the list goes by descending priority, then by identity. -/
theorem listedBefore_waiting {a b : TestRow} (ha : a.status.waiting = true)
    (hb : b.status.waiting = true) :
    listedBefore a b ↔ b.priority < a.priority ∨ (a.priority = b.priority ∧ a.id ≤ b.id) := by
  unfold listedBefore listKey
  rw [ha, hb, place_waiting ha, place_waiting hb]
  simp only [if_true, Prod.Lex.toLex_le_toLex, lt_irrefl, true_and, false_or, WithTop.coe_lt_coe,
    WithTop.coe_inj]
  omega

/-- Among the tests that are over, by descending identity. -/
theorem listedBefore_rest {a b : TestRow} (ha : a.status.place = 2) (hb : b.status.place = 2)
    (h : listedBefore a b) : b.id ≤ a.id := by
  have hwait : ∀ s : TestStatus, s.place = 2 → s.waiting = false := by
    intro s hs
    cases s <;> first | rfl | cases hs
  unfold listedBefore listKey at h
  rw [hwait _ ha, hwait _ hb, ha, hb] at h
  simpa [Prod.Lex.toLex_le_toLex] using h

/-- A list in the order of the places is made of the running tests, the waiting ones and the
rest. -/
theorem split_by_place {l : List TestRow} (h : l.Pairwise fun a b => a.status.place ≤ b.status.place) :
    l = l.filter (·.status.place == 0) ++ l.filter (·.status.place == 1) ++
      l.filter (·.status.place == 2) := by
  induction l with
  | nil => rfl
  | cons t l ih =>
    obtain ⟨hhead, htail⟩ := List.pairwise_cons.mp h
    have hl := ih htail
    have hempty : ∀ n, n < t.status.place → l.filter (·.status.place == n) = [] := by
      intro n hn
      rw [List.filter_eq_nil_iff]
      intro u hu
      have hle := hhead u hu
      simp only [beq_iff_eq]
      omega
    have hplace : t.status.place = 0 ∨ t.status.place = 1 ∨ t.status.place = 2 := by
      cases t.status <;> simp [TestStatus.place]
    rcases hplace with h0 | h1 | h2
    · simpa [h0] using hl
    · rw [hempty 0 (by omega)] at hl
      simpa [h1, hempty 0 (by omega)] using hl
    · rw [hempty 0 (by omega), hempty 1 (by omega)] at hl
      simpa [h2, hempty 0 (by omega), hempty 1 (by omega)] using hl

instance : Std.Total servedBefore := ⟨fun a b => by unfold servedBefore; grind⟩

instance : IsTrans TestRow servedBefore := ⟨fun a b c h h' => by unfold servedBefore at *; grind⟩

theorem servedBefore_antisymm {a b : TestRow} (h : servedBefore a b) (h' : servedBefore b a) :
    a.id = b.id := by
  unfold servedBefore at h h'
  grind

/-- The queued tests in the order of service. -/
def Db.queue (db : Db F) : List TestRow :=
  (db.tests.rows.filter (·.status == .queued)).insertionSort servedBefore

/-- Sorting rows of a table gives the only order that the keys allow. -/
theorem sorted_rows_eq {db : Db F} {l l' : List TestRow} (hrows : ∀ t ∈ l, t ∈ db.tests.rows)
    (hl : l.Pairwise servedBefore) (hp : l.Perm l') : l'.insertionSort servedBefore = l := by
  have hsort : (l'.insertionSort servedBefore).Pairwise servedBefore :=
    List.pairwise_insertionSort _ _
  refine List.Perm.eq_of_pairwise ?_ hsort hl ((List.perm_insertionSort _ l').trans hp.symm)
  intro a b ha hb hab hba
  have hmem : a ∈ l := hp.mem_iff.mpr ((List.mem_insertionSort _).mp ha)
  exact Table.eq_of_mem_of_key (hrows a hmem) (hrows b hb) (servedBefore_antisymm hab hba)

theorem mem_queue {db : Db F} {t : TestRow} :
    t ∈ db.queue ↔ t ∈ db.tests.rows ∧ t.status = .queued := by
  simp [Db.queue]

/-- The running test ends; `e` says what becomes of its row. -/
def Db.endRunning (db : Db F) (e : TestRow → TestRow) (he : ∀ t, (e t).id = t.id) : Db F :=
  { db with tests := db.tests.modify (·.status == .running) e he }

/-- The tests that `n` promotions start, each after the running test has ended. -/
def Db.promotions (e : TestRow → TestRow) (he : ∀ t, (e t).id = t.id) (now : ℚ) :
    Nat → Db F → List Int
  | 0, _ => []
  | n + 1, db =>
    match (promoteNextTest now).exec (fun _ => false) (db.endRunning e he) with
    | .ok (some id, db') => id :: Db.promotions e he now n db'
    | _ => []

/-- A test that runs no more. -/
def TestStatus.over (s : TestStatus) : Prop := s = .finished ∨ s = .stopped

section Promotions

variable {e : TestRow → TestRow} {he : ∀ t, (e t).id = t.id}

theorem endRunning_not_running {db : Db F} (hover : ∀ t, (e t).status.over) :
    ∀ t ∈ (db.endRunning e he).tests.rows, t.status ≠ .running := by
  intro t ht
  obtain ⟨r, -, rfl⟩ := (Table.mem_modify db.tests _ e he).mp ht
  split
  next => rcases hover r with h | h <;> simp [h]
  next hr => simpa using hr

theorem filter_queued_endRunning {db : Db F} (hover : ∀ t, (e t).status.over) :
    (db.endRunning e he).tests.rows.filter (·.status == .queued) =
      db.tests.rows.filter (·.status == .queued) := by
  unfold Db.endRunning
  dsimp only
  rw [Table.rows_modify]
  induction db.tests.rows with
  | nil => rfl
  | cons t ts ih =>
    rw [List.map_cons, List.filter_cons, List.filter_cons, ih]
    by_cases hr : t.status = .running
    · have hover' := hover t
      rcases hover' with h | h <;> simp [hr, h]
    · simp [hr]

/-- Promoting a test takes it, and only it, out of the queue. -/
theorem filter_queued_run {db : Db F} (id : Int) (now : ℚ) :
    (db.updateTest id (.run now) (TestRow.run_id now)).tests.rows.filter (·.status == .queued) =
      (db.tests.rows.filter (·.status == .queued)).filter (·.id != id) := by
  unfold Db.updateTest
  dsimp only
  rw [Table.rows_modify]
  induction db.tests.rows with
  | nil => rfl
  | cons t ts ih =>
    rw [List.map_cons, List.filter_cons, List.filter_cons, ih]
    by_cases hid : t.id = id
    · cases hq : t.status == .queued <;> simp [hid, TestRow.run]
    · cases hq : t.status == .queued <;> simp [hid, hq]

theorem promotionTarget_eq_head {db : Db F} (hrun : ∀ t ∈ db.tests.rows, t.status ≠ .running) :
    promotionTarget db = db.queue.head?.map (·.id) := by
  unfold promotionTarget
  rw [if_neg]
  · rfl
  · intro hany
    obtain ⟨t, ht, hs⟩ := List.any_eq_true.mp hany
    exact hrun t ht (by simpa using hs)

theorem exec_promoteNextTest {db : Db F} {now : ℚ}
    (hrun : ∀ t ∈ db.tests.rows, t.status ≠ .running) :
    (promoteNextTest now).exec (fun _ => false) db =
      .ok (match db.queue.head? with
        | none => (none, db)
        | some t => (some t.id, db.updateTest t.id (.run now) (TestRow.run_id now))) := by
  simp only [promoteNextTest, Script.acquire_bind, Script.select_bind, Script.exec,
    promotionTarget_eq_head hrun]
  cases db.queue.head? with
  | none => rfl
  | some t =>
    have hnone : db.tests.rows.any (fun u => u.id != t.id && u.status == .running) = false := by
      rw [Bool.eq_false_iff]
      intro hany
      obtain ⟨u, hu, hs⟩ := List.any_eq_true.mp hany
      simp only [Bool.and_eq_true, beq_iff_eq] at hs
      exact hrun u hu hs.2
    simp only [Option.map_some, Script.update_bind, Script.exec, hnone, Bool.false_eq_true,
      if_false]
    rfl

theorem queue_endRunning {db : Db F} (hover : ∀ t, (e t).status.over) :
    (db.endRunning e he).queue = db.queue := by
  unfold Db.queue
  rw [filter_queued_endRunning hover]

/-- The queue after its head is promoted. -/
theorem queue_run {db : Db F} {t : TestRow} {ts : List TestRow} (h : db.queue = t :: ts) (now : ℚ) :
    (db.updateTest t.id (.run now) (TestRow.run_id now)).queue = ts := by
  have hperm : (t :: ts).Perm (db.tests.rows.filter (·.status == .queued)) := by
    rw [← h]
    exact List.perm_insertionSort _ _
  have hsub : ∀ u ∈ t :: ts, u ∈ db.tests.rows := by
    intro u hu
    rw [← h] at hu
    exact (mem_queue.mp hu).1
  have hnodup : ((t :: ts).map (·.id)).Nodup := by
    refine (hperm.map (·.id)).nodup_iff.mpr ?_
    exact db.tests.nodup.sublist (List.filter_sublist.map _)
  have hsorted : (t :: ts).Pairwise servedBefore := by
    rw [← h]
    exact List.pairwise_insertionSort _ _
  have hne : ∀ u ∈ ts, u.id ≠ t.id := by
    intro u hu hid
    rw [List.map_cons, List.nodup_cons] at hnodup
    exact hnodup.1 (hid ▸ List.mem_map_of_mem hu)
  have hfilter : (t :: ts).filter (·.id != t.id) = ts := by
    rw [List.filter_cons_of_neg (by simp), List.filter_eq_self]
    intro u hu
    simpa using hne u hu
  have hrest := hperm.filter (·.id != t.id)
  rw [hfilter] at hrest
  unfold Db.queue
  rw [filter_queued_run]
  have htail : ∀ u ∈ ts, u ∈ db.tests.rows := fun u hu => hsub u (by simp [hu])
  exact sorted_rows_eq htail (List.pairwise_cons.mp hsorted).2 hrest

/-- Promotions, each after the running test has ended, start the queue in the order of service. -/
theorem promotions_eq (hover : ∀ t, (e t).status.over) (now : ℚ) (n : Nat) (db : Db F)
    (hn : db.queue.length ≤ n) : db.promotions e he now n = db.queue.map (·.id) := by
  induction n generalizing db with
  | zero =>
    rw [List.length_eq_zero_iff.mp (Nat.le_zero.mp hn)]
    rfl
  | succ n ih =>
    rw [Db.promotions, exec_promoteNextTest (endRunning_not_running hover), queue_endRunning hover]
    cases hq : db.queue with
    | nil => rfl
    | cons t ts =>
      have htail : ((db.endRunning e he).updateTest t.id (.run now) (TestRow.run_id now)).queue =
          ts := queue_run (by rw [queue_endRunning hover, hq]) now
      rw [hq, List.length_cons] at hn
      dsimp only [List.head?_cons]
      rw [ih _ (by rw [htail]; omega), htail]
      rfl

end Promotions

/-- The list of the tests is what it is meant to be: all tests, the running one first, then the
waiting ones, then the rest by descending identity, with the queued ones in the order in which
they will be promoted. -/
structure ListedWell (db : Db F) (ts : List (TestSummary F)) : Prop where
  all : (ts.map (·.id)).Perm (db.tests.rows.map (·.id))
  places : ts = ts.filter (·.status.place == 0) ++ ts.filter (·.status.place == 1) ++
    ts.filter (·.status.place == 2)
  single : (ts.filter (·.status == .running)).length ≤ 1
  rest : ((ts.filter (·.status.place == 2)).map (·.id)).Pairwise (· > ·)
  served : ∀ (e : TestRow → TestRow) (he : ∀ t, (e t).id = t.id) (now : ℚ) (n : Nat),
    (∀ t, (e t).status.over) → db.tests.rows.length ≤ n →
    (ts.filter (·.status == .queued)).map (·.id) = db.promotions e he now n

/-- Tests created later have greater identities. -/
def Db.CreatedInOrder (db : Db F) : Prop :=
  ∀ a ∈ db.tests.rows, ∀ b ∈ db.tests.rows, a.id ≤ b.id → a.createdAt ≤ b.createdAt

theorem filter_summaries (db : Db F) (l : List TestRow) (p : TestStatus → Bool) :
    (l.map db.summary).filter (fun s => p s.status) = (l.filter fun t => p t.status).map db.summary := by
  rw [List.filter_map]
  rfl

theorem ids_summaries (db : Db F) (l : List TestRow) :
    (l.map db.summary).map (·.id) = l.map (·.id) := by
  rw [List.map_map]
  rfl

/-- With creation times in the order of the identities, queued tests are listed as they are
served. -/
theorem served_iff_listed {db : Db F} (hcreated : db.CreatedInOrder) {a b : TestRow}
    (ha : a ∈ db.tests.rows) (hb : b ∈ db.tests.rows) (haq : a.status = .queued)
    (hbq : b.status = .queued) : servedBefore a b ↔ listedBefore a b := by
  rw [listedBefore_waiting (by rw [haq]; rfl) (by rw [hbq]; rfl)]
  unfold servedBefore
  rcases lt_trichotomy a.id b.id with hab | heq | hba
  · have hc := hcreated a ha b hb hab.le
    grind
  · cases Table.eq_of_mem_of_key ha hb heq
    grind
  · have hc := hcreated b hb a ha hba.le
    grind

theorem listedWell {db : Db F} (hcreated : db.CreatedInOrder)
    (hsingle : ∀ t ∈ db.tests.rows, ∀ u ∈ db.tests.rows, t.status = .running →
      u.status = .running → t = u) :
    ListedWell db ((db.tests.rows.insertionSort listedBefore).map db.summary) := by
  have hperm := List.perm_insertionSort listedBefore db.tests.rows
  have hsorted : (db.tests.rows.insertionSort listedBefore).Pairwise listedBefore :=
    List.pairwise_insertionSort _ _
  have hnodup : ((db.tests.rows.insertionSort listedBefore).map (·.id)).Nodup :=
    (hperm.map (·.id)).nodup_iff.mpr db.tests.nodup
  generalize db.tests.rows.insertionSort listedBefore = l at hperm hsorted hnodup
  refine ⟨?_, ?_, ?_, ?_, ?_⟩
  · rw [ids_summaries]
    exact hperm.map _
  · simp only [filter_summaries db l (·.place == 0), filter_summaries db l (·.place == 1),
      filter_summaries db l (·.place == 2)]
    rw [← List.map_append, ← List.map_append]
    exact congrArg _ (split_by_place (hsorted.imp listedBefore_place))
  · rw [filter_summaries db l (· == .running), List.length_map]
    have hone : ∀ t ∈ l.filter (·.status == .running), t ∈ db.tests.rows ∧ t.status = .running := by
      intro t ht
      obtain ⟨hl, hs⟩ := List.mem_filter.mp ht
      exact ⟨hperm.mem_iff.mp hl, by simpa using hs⟩
    have hids : ((l.filter (·.status == .running)).map (·.id)).Nodup :=
      hnodup.sublist (List.filter_sublist.map _)
    generalize l.filter (·.status == .running) = running at hone hids ⊢
    match running with
    | [] => simp
    | [_] => simp
    | t :: u :: _ =>
      have ht := hone t (by simp)
      have hu := hone u (by simp)
      have heq := hsingle t ht.1 u hu.1 ht.2 hu.2
      simp [heq] at hids
  · rw [filter_summaries db l (·.place == 2), ids_summaries, List.pairwise_map]
    have hboth := (hsorted.and (List.pairwise_map.mp hnodup)).filter (·.status.place == 2)
    refine hboth.imp_of_mem fun {a b} ha hb hab => ?_
    have hpa : a.status.place = 2 := by simpa using (List.mem_filter.mp ha).2
    have hpb : b.status.place = 2 := by simpa using (List.mem_filter.mp hb).2
    have hle := listedBefore_rest hpa hpb hab.1
    have hne := hab.2
    omega
  · intro e he now n hover hn
    have hlen : db.queue.length ≤ n := by
      refine le_trans ?_ hn
      rw [Db.queue, List.length_insertionSort]
      exact List.length_filter_le _ _
    have hqueue : db.queue = l.filter (·.status == .queued) := by
      refine sorted_rows_eq (fun t ht => hperm.mem_iff.mp (List.mem_filter.mp ht).1) ?_
        (hperm.filter _)
      refine (hsorted.filter (·.status == .queued)).imp_of_mem fun {a b} ha hb hab => ?_
      obtain ⟨hal, haq⟩ := List.mem_filter.mp ha
      obtain ⟨hbl, hbq⟩ := List.mem_filter.mp hb
      exact (served_iff_listed hcreated (hperm.mem_iff.mp hal) (hperm.mem_iff.mp hbl)
        (by simpa using haq) (by simpa using hbq)).mpr hab
    rw [filter_summaries db l (· == .queued), ids_summaries, promotions_eq hover now n db hlen,
      hqueue]

/-- Every priority of a run fits its column, if those that are set do. -/
theorem run_priorities [LinearOrder F] (E : Env F) (ops : List Op)
    (hset : ∀ op ∈ ops, ∀ id n, op.act = .call (.setPriority id n) → Json.IsInt32 n) :
    (Server.run E ops).db.TestsAll fun t => Json.IsInt32 t.priority := by
  refine run_testsAll ⟨fun _ _ h => h, fun _ _ _ h => h, fun _ _ h => h, fun _ _ _ h => h⟩ ?_ ops
    fun op hop id n hact _ _ => hset op hop id n hact
  intro body s now cc bc id hs
  rcases parsePriority_ok (parseTestSpec_iff.mp hs).priority with ⟨-, h0⟩ | ⟨n, -, hn⟩
  · have hrow : (testRow now s cc bc id).priority = 0 := h0
    rw [hrow]
    exact ⟨by norm_num, by norm_num⟩
  · have hrow : (testRow now s cc bc id).priority = Json.toInt32 (Json.toInt64 n) := hn
    rw [hrow]
    exact Json.toInt32_isInt32 _

/-- What a patch lets in fits the column. -/
theorem patchPriority_isInt32 {body : Json} {n : Int} (h : patchPriority body = .ok n) :
    Json.IsInt32 n := by
  unfold patchPriority at h
  split at h
  · cases h
  · obtain ⟨v, -, h⟩ := bind_eq_ok.mp h
    split at h
    · cases h
    next hr =>
      cases h
      unfold int32Min Json.int32Max at hr
      unfold Json.IsInt32
      omega

/-- The list of the tests of a run is made, and made well, exactly when no test that waits has the
smallest priority there is. -/
theorem listed_well_iff [LinearOrder F] (E : Env F) (ops : List Op) (limit : Nat)
    (hset : ∀ op ∈ ops, ∀ id n, op.act = .call (.setPriority id n) →
      ∃ body, patchPriority body = .ok n)
    (hcreated : (Server.run E ops).db.CreatedInOrder)
    (hlimit : (Server.run E ops).db.tests.rows.length ≤ limit) :
    (∃ ts, listTests (Server.run E ops).db limit = some ts ∧
      ListedWell (Server.run E ops).db ts) ↔
    ∀ t ∈ (Server.run E ops).db.tests.rows, t.status.waiting = true → t.priority ≠ -2 ^ 31 := by
  have hprio := run_priorities E ops fun op hop id n hact =>
    (hset op hop id n hact).elim fun _ h => patchPriority_isInt32 h
  have hsingle := (run_orderly E ops).lifecycle.single
  generalize (Server.run E ops).db = db at *
  have hneg : ∀ t ∈ db.tests.rows, (negatable t = true ↔
      (t.status.waiting = true → t.priority ≠ -2 ^ 31)) := by
    intro t ht
    have hint := hprio t ht
    unfold Json.IsInt32 at hint
    unfold negatable
    cases t.status.waiting with
    | false => simp
    | true =>
      simp only [Bool.not_true, Bool.false_or, decide_eq_true_eq, true_implies, ne_eq]
      omega
  have hall : db.tests.rows.all negatable = true ↔
      ∀ t ∈ db.tests.rows, t.status.waiting = true → t.priority ≠ -2 ^ 31 := by
    rw [List.all_eq_true]
    exact forall₂_congr hneg
  rw [← hall]
  have htake : (db.tests.rows.insertionSort listedBefore).take limit =
      db.tests.rows.insertionSort listedBefore :=
    List.take_of_length_le (by rw [List.length_insertionSort]; exact hlimit)
  constructor
  · rintro ⟨ts, hts, -⟩
    unfold listTests at hts
    split at hts
    next h => exact h
    next => cases hts
  · intro h
    refine ⟨_, by unfold listTests; rw [if_pos h, htake], listedWell hcreated hsingle⟩

/-- Two gauntlets, one with priority `n`. -/
def twoGauntlets (n : Int) : List Op :=
  opening 1 ++ [{ now := 1, act := .call (.create (withPriority n gauntletFields) "a" "b") }]

theorem twoGauntlets_priorities (n : Int) : ∀ op ∈ twoGauntlets n, ∀ id m,
    op.act = .call (.setPriority id m) → ∃ body, patchPriority body = .ok m := by
  intro op hop id m hact
  simp only [twoGauntlets, opening, List.mem_append, List.mem_cons, List.not_mem_nil, or_false]
    at hop
  rcases hop with (rfl | rfl | rfl | rfl) | rfl <;> cases hact

/-- The smoke worker finds one position for a test. -/
def examined : List Op :=
  [{ now := 3, act := .smokeStart },
   { now := 3
     act := .smokeFinish ⟨"", .ok true, .ok ["8/8/8/8/8/8/8/K1k5 w - -"]⟩ fun i => i }]

/-- A running gauntlet and two that are queued, the last of which gets priority 9. -/
def patchedQueue : List Op :=
  opening 1 ++
    [{ now := 1, act := .call (.create (withPriority 7 gauntletFields) "a" "b") },
     { now := 2, act := .call (.create (gauntletBody 1) "c" "d") }] ++
    examined ++ examined ++ [{ now := 4, act := .call (.setPriority 3 9) }]

theorem patchedQueue_priorities : ∀ op ∈ patchedQueue, ∀ id m,
    op.act = .call (.setPriority id m) → ∃ body, patchPriority body = .ok m := by
  intro op hop id m hact
  simp only [patchedQueue, opening, examined, List.mem_append, List.mem_cons, List.not_mem_nil,
    or_false] at hop
  rcases hop with ((((rfl | rfl | rfl | rfl) | rfl | rfl) | rfl | rfl) | rfl | rfl) | rfl <;>
    cases hact
  exact ⟨withPriority 9 [], by decide +kernel⟩

theorem listed_well_two :
    (listTests (Server.run realEnv patchedQueue).db 50).map (·.map (·.id)) = some [1, 3, 2] ∧
    ((∃ ts, listTests (Server.run realEnv patchedQueue).db 50 = some ts ∧
      ListedWell (Server.run realEnv patchedQueue).db ts) ↔
    ∀ t ∈ (Server.run realEnv patchedQueue).db.tests.rows, t.status.waiting = true →
      t.priority ≠ -2 ^ 31) :=
  ⟨by decide +kernel, listed_well_iff realEnv patchedQueue 50 patchedQueue_priorities
    (by unfold Db.CreatedInOrder; decide +kernel) (by decide +kernel)⟩

/-- A waiting test with the smallest priority makes the list fail. -/
theorem smallest_priority_not_listed :
    ¬∀ (E : Env ℝ) (ops : List Op) (limit : Nat),
      (∀ op ∈ ops, ∀ id n, op.act = .call (.setPriority id n) → ∃ body, patchPriority body = .ok n) →
      (Server.run E ops).db.CreatedInOrder →
      (Server.run E ops).db.tests.rows.length ≤ limit →
      ∃ ts, listTests (Server.run E ops).db limit = some ts ∧
        ListedWell (Server.run E ops).db ts := by
  intro hall
  obtain ⟨ts, hts, -⟩ := hall realEnv (twoGauntlets (-2 ^ 31)) 50 (twoGauntlets_priorities _)
    (by unfold Db.CreatedInOrder; decide +kernel) (by decide +kernel)
  have hnone : (listTests (Server.run realEnv (twoGauntlets (-2 ^ 31))).db 50).isNone = true := by
    decide +kernel
  rw [hts] at hnone
  cases hnone

end CapiNet
