import CapiNet.PermanentBan
import CapiNet.TestInvariant

namespace CapiNet

open Txn Relational

variable {F : Type}

/-- The columns of a test that are written once. -/
structure TestSetup where
  name : String
  kind : TestKind
  candidateRef : String
  candidateCommit : String
  baselineRef : String
  baselineCommit : String
  tcBaseMs : Int
  tcIncrementMs : Int
  hashMb : Int
  bookName : String
  totalPairs : Int
  sprtPreset : Option SprtPreset
  sprtElo0 : Option Double
  sprtElo1 : Option Double
  sprtAlpha : Option Double
  sprtBeta : Option Double
  submittedBy : Option String
  createdAt : ℚ

def TestRow.setup (t : TestRow) : TestSetup where
  name := t.name
  kind := t.kind
  candidateRef := t.candidateRef
  candidateCommit := t.candidateCommit
  baselineRef := t.baselineRef
  baselineCommit := t.baselineCommit
  tcBaseMs := t.tcBaseMs
  tcIncrementMs := t.tcIncrementMs
  hashMb := t.hashMb
  bookName := t.bookName
  totalPairs := t.totalPairs
  sprtPreset := t.sprtPreset
  sprtElo0 := t.sprtElo0
  sprtElo1 := t.sprtElo1
  sprtAlpha := t.sprtAlpha
  sprtBeta := t.sprtBeta
  submittedBy := t.submittedBy
  createdAt := t.createdAt

namespace Db

/-- A later state of a database: every row is still there, with what it froze. -/
structure Extends (s t : Db F) : Prop where
  tests : ∀ i u, s.tests.find i = some u → ∃ v, t.tests.find i = some v ∧ v.setup = u.setup
  pairs : ∀ i p, s.jobPairs.find i = some p →
    ∃ q, t.jobPairs.find i = some q ∧ q.testId = p.testId ∧ q.positionId = p.positionId
  positions : ∀ i op, s.positions.find i = some op → t.positions.find i = some op

namespace Extends

variable {s t u : Db F}

theorem of_same (ht : t.tests = s.tests) (hp : t.jobPairs = s.jobPairs)
    (hop : t.positions = s.positions) : s.Extends t :=
  ⟨fun i x hx => ⟨x, by rw [ht]; exact hx, rfl⟩, fun i p h => ⟨p, by rw [hp]; exact h, rfl, rfl⟩,
    fun i op h => by rw [hop]; exact h⟩

theorem refl (s : Db F) : s.Extends s := of_same rfl rfl rfl

theorem trans (h : s.Extends t) (h' : t.Extends u) : s.Extends u := by
  refine ⟨fun i x hx => ?_, fun i p hp => ?_, fun i op hop => h'.positions i op (h.positions i op hop)⟩
  · obtain ⟨y, hy, hxy⟩ := h.tests i x hx
    obtain ⟨z, hz, hyz⟩ := h'.tests i y hy
    exact ⟨z, hz, hyz.trans hxy⟩
  · obtain ⟨q, hq, htest, hpos⟩ := h.pairs i p hp
    obtain ⟨r, hr, htest', hpos'⟩ := h'.pairs i q hq
    exact ⟨r, hr, htest'.trans htest, hpos'.trans hpos⟩

theorem updateTest (s : Db F) (id : Int) (f : TestRow → TestRow) (hid : ∀ r, (f r).id = r.id)
    (hf : ∀ r, (f r).setup = r.setup) : s.Extends (s.updateTest id f hid) := by
  refine ⟨fun i x hx => ?_, fun i p hp => ⟨p, hp, rfl, rfl⟩, fun _ _ hop => hop⟩
  rcases s.find_updateTest_cases id f hid hx with ⟨-, h⟩ | ⟨-, h⟩
  · exact ⟨_, h, hf x⟩
  · exact ⟨_, h, rfl⟩

theorem updatePairs (s : Db F) (p : PairRow → Bool) (f : PairRow → PairRow)
    (hid : ∀ r, (f r).id = r.id)
    (hf : ∀ r, (f r).testId = r.testId ∧ (f r).positionId = r.positionId) :
    s.Extends (s.updatePairs p f hid) := by
  refine ⟨fun i x hx => ⟨x, hx, rfl⟩, fun i q hq => ?_, fun _ _ hop => hop⟩
  rw [Db.find_updatePairs, hq]
  refine ⟨_, rfl, ?_⟩
  dsimp only
  split
  · exact hf q
  · exact ⟨rfl, rfl⟩

theorem record (s : Db F) (id : Int) (stats : TestStats F) : s.Extends (s.record id stats) := by
  have hsame := SameQueue.record s id stats
  exact of_same (Db.tests_record s id stats) hsame.jobPairs hsame.positions

end Extends

end Db

/-- Rows are appended to a table behind those it has. -/
theorem find_of_append {α : Type} {key : α → Int} {s t : Table α key} {new : List α}
    (h : t.rows = s.rows ++ new) {i : Int} {r : α} (hr : s.find i = some r) : t.find i = some r := by
  obtain ⟨hmem, rfl⟩ := Table.find_some hr
  refine Table.find_of_mem ?_
  rw [h]
  exact List.mem_append_left _ hmem

theorem Promoted.extends {now : ℚ} {db db' : Db F} {r : Option Int} (h : Promoted now db r db') :
    db.Extends db' := by
  cases h with
  | nothing => exact .refl db
  | next => exact .updateTest db _ _ _ fun _ => rfl

theorem Enqueued.extends {db db' : Db F} {testId : Int} {fens : List String} {vlog : String}
    (h : Enqueued db testId fens vlog db') : db.Extends db' := by
  refine ⟨fun i x hx => ?_, fun i p hp => ?_, fun i op hop => ?_⟩
  · have hkept := Db.Extends.updateTest db testId (.judge .queued vlog) (TestRow.judge_id _ _)
      fun _ => rfl
    obtain ⟨y, hy, hset⟩ := hkept.tests i x hx
    exact ⟨y, by rw [h.tests]; exact hy, hset⟩
  · obtain ⟨new, hrows, -⟩ := h.pairs
    exact ⟨p, find_of_append hrows hp, rfl, rfl⟩
  · obtain ⟨new, hrows, -⟩ := h.positions
    exact find_of_append hrows hop

variable [LinearOrder F] {E : Env F}

theorem Refreshed.extends {N : Numerics F} {now : ℚ} {testId : Int} {db db' : Db F}
    (h : Refreshed N now testId db db') : db.Extends db' := by
  cases h with
  | missing => exact .refl db
  | kept => exact .record db _ _
  | finished t r result promoted _ _ _ _ _ hp =>
    exact ((Db.Extends.record db testId r.stats).trans
      (.updateTest _ testId (.finish now result) _ fun _ => rfl)).trans hp.extends

theorem RefreshedAll.extends {N : Numerics F} {now : ℚ} {ids : List Int} {db db' : Db F}
    (h : RefreshedAll N now ids db db') : db.Extends db' := by
  induction h with
  | nil db => exact .refl db
  | cons t ts db db' db'' hstep _ ih => exact hstep.extends.trans ih

/-- No transaction rewrites what is frozen. -/
theorem Effect.extends {now : ℚ} {skip : Lock → Bool} {db db' : Db F} {c : Call} {r : Reply}
    (h : Effect E now skip db c (.commit r) db') : db.Extends db' := by
  generalize hout : Finish.commit r = out at h
  cases h with
  | invalidSpec => cases hout
  | create _ _ _ s _ _ _ _ hi hfin =>
    cases hi
    exact ⟨fun i x hx => ⟨x, find_addTest hx, rfl⟩, fun i p hp => ⟨p, hp, rfl, rfl⟩, fun _ _ h => h⟩
  | smoke job x random _ _ _ hj hfin =>
    subst hfin
    cases hj with
    | late => cases hout
    | invalid => exact .updateTest db _ _ _ fun _ => rfl
    | queued t fens vlog promoted db₁ _ _ _ _ href hp =>
      exact ((enqueue_spec db job.testId fens random vlog).extends.trans href.extends).trans hp.extends
  | promote _ _ hp => exact hp.extends
  | stop testId _ _ _ hs hfin =>
    subst hfin
    cases hs with
    | refused => cases hout
    | waiting => exact .updateTest db _ _ _ fun _ => rfl
    | running _ _ _ _ _ hp =>
      exact (Db.Extends.updateTest db testId (.stop now) _ fun _ => rfl).trans hp.extends
  | setPriority _ _ _ _ _ hs hfin =>
    subst hfin
    cases hs with
    | refused => cases hout
    | updated => exact .updateTest db _ _ _ fun _ => rfl
  | register reg => unfold Db.upsertClient; split <;> exact .of_same rfl rfl rfl
  | heartbeat => exact .of_same rfl rfl rfl
  | ban => exact .of_same rfl rfl rfl
  | claim _ _ _ _ _ hs =>
    cases hs with
    | answered => exact .refl db
    | leased _ _ _ _ _ _ _ _ hdb =>
      subst hdb
      exact .updatePairs db _ _ _ fun _ => ⟨rfl, rfl⟩
  | submit _ report _ _ _ hs hfin =>
    subst hfin
    cases hs with
    | unknown => cases hout
    | refused => cases hout
    | accepted p g _ _ _ _ _ href =>
      have hdone := Db.Extends.updatePairs db (·.id == p.id) (.complete now) (PairRow.complete_id now)
        fun _ => ⟨rfl, rfl⟩
      have hgames : (db.updatePairs (·.id == p.id) (.complete now) (PairRow.complete_id now)).Extends
          (db.deliver E now p report.toPairReport) := .of_same rfl rfl rfl
      exact (hdone.trans hgames).trans href.extends
  | abandon _ _ _ _ _ hs =>
    cases hs with
    | refused => exact .refl db
    | released => exact .updatePairs db _ _ _ fun _ => ⟨rfl, rfl⟩
  | recover _ _ _ hs =>
    cases hs with
    | recovered expired _ _ _ hall =>
      exact (Db.Extends.updatePairs db _ (.expire E.cfg.maxAttempts) _ fun _ => ⟨rfl, rfl⟩).trans
        hall.extends

theorem Server.step_extends (E : Env F) (s : Server F) (op : Op) : s.db.Extends (s.step E op).db := by
  rcases s.step_db E op with hdb | ⟨c, r, -, -, heff⟩
  · rw [hdb]
    exact .refl s.db
  · exact heff.extends

/-- There is a client with this identity. -/
def Db.Knows (db : Db F) (clientId : Int) : Prop := ∃ c, db.clients.find clientId = some c

theorem Server.step_knows (E : Env F) (s : Server F) (op : Op) {clientId : Int}
    (h : s.db.Knows clientId) : (s.step E op).db.Knows clientId := by
  obtain ⟨c, hc⟩ := h
  have hmove := s.step_clients E op
  unfold Db.Knows
  generalize (s.step E op).db.clients = t at hmove
  cases hmove with
  | same => exact ⟨c, hc⟩
  | updated p f hid =>
    rw [Table.find_modify, hc]
    exact ⟨_, rfl⟩
  | joined reg => exact ⟨c, Table.find_insert_of_some hc⟩

end CapiNet
