import CapiNet.CreateRoute
import CapiNet.Failures
import CapiNet.FrozenRows

namespace CapiNet

open Txn Relational Routes

variable {F : Type}

/-- A request for a test: it waits for GitHub, has its row and is about to commit, has its test and
is about to wake the worker, has its answer, or ended with the server. -/
inductive Handler
  | resolving (body : Json) (spec : TestSpec)
  | inserted (row : TestRow) (answer : Response)
  | notifying (testId : Int) (answer : Response)
  | answered (answer : Response)
  | gone

/-- What a new start of the server leaves of a request. -/
def Handler.cut : Handler → Handler
  | .answered r => .answered r
  | _ => .gone

/-- What a handler answers, or is about to. -/
def Handler.answer : Handler → Option Response
  | .notifying _ r | .answered r => some r
  | _ => none

def Handler.working : Handler → Bool
  | .resolving _ _ | .inserted _ _ => true
  | _ => false

/-- The worker sleeps, is about to look for a test, or examines the one the server remembers. -/
inductive Worker
  | waiting | looking | examining
  deriving DecidableEq

/-- The server with its worker and all requests for tests since its first start. `errors` counts
what the worker has logged since the last start. -/
structure Site (F : Type) where
  server : Server F
  cache : BookCache
  handlers : List Handler
  pending : Bool
  worker : Worker
  errors : Nat

/-- A call of anything but the two writers of this module. -/
def Act.aside : Act → Bool
  | .call (.create _ _ _) => false
  | .call (.smoke _ _ _) => false
  | .call _ => true
  | _ => false

/-- `resolved` ends with the `INSERT`; the row shows from `commit` on. -/
inductive SiteEvent
  | request (body : Json) (shelf : Shelf)
  | resolved (k : Nat) (curl curl' : String → CurlOutput) (now : ℚ)
  | commit (k : Nat)
  | lost (k : Nat)
  | notify (k : Nat)
  | wake (timedOut : Bool)
  | look
  | examined (x : Examination) (random : Nat → ℚ) (now : ℚ) (skip : Lock → Bool)
  | workerFails
  | other (op : Op)
  | restart

def SiteEvent.asks : SiteEvent → Option (Json × Shelf)
  | .request body shelf => some (body, shelf)
  | _ => none

/-- The requests of a run, each with the shelf it saw. -/
def requestsOf (events : List SiteEvent) : List (Json × Shelf) := events.filterMap SiteEvent.asks

namespace Site

variable [LinearOrder F]

def start : Site F := ⟨.init, fun _ => none, [], true, .waiting, 0⟩

/-- The server ends and starts again on its database. -/
def restart (W : Site F) : Site F :=
  { W with
    cache := fun _ => none
    handlers := W.handlers.map .cut
    pending := true
    worker := .waiting
    errors := 0 }

def setHandler (W : Site F) (k : Nat) (h : Handler) : Site F :=
  { W with handlers := W.handlers.set k h }

def setDb (W : Site F) (db : Db F) : Site F := { W with server := { W.server with db } }

def step (E : Env F) (g : Github) (W : Site F) : SiteEvent → Site F
  | .request body shelf =>
    let (checked, cache) := checkSpec E.cfg.sprtPresets shelf W.cache body
    { W with
      cache
      handlers := W.handlers ++ [match checked with
        | .ok spec => .resolving body spec
        | .error answer => .answered answer] }
  | .resolved k curl curl' now =>
    match W.handlers[k]? with
    | some (.resolving _ spec) =>
      match resolveCommits g curl curl' spec with
      | .error answer => W.setHandler k (.answered answer)
      | .ok (candidate, baseline) =>
        match (insertTest now spec candidate baseline).exec (fun _ => false) W.server.db with
        | .ok (.commit id, _) =>
          (W.setDb W.server.db.drawTestId).setHandler k
            (.inserted (testRow now spec candidate baseline id)
              (createdResponse id spec candidate baseline))
        | _ => W.setHandler k (.answered (sendError 500 "internal_error" ""))
    | _ => W
  | .commit k =>
    match W.handlers[k]? with
    | some (.inserted row answer) =>
      (W.setDb (W.server.db.commitTest row)).setHandler k (.notifying row.id answer)
    | _ => W
  | .lost k =>
    match W.handlers[k]? with
    | some (.resolving _ _) | some (.inserted _ _) =>
      W.setHandler k (.answered (sendError 503 "database_unavailable" ""))
    | _ => W
  | .notify k =>
    match W.handlers[k]? with
    | some (.notifying _ answer) => { W with pending := true }.setHandler k (.answered answer)
    | _ => W
  | .wake timedOut =>
    if W.worker = .waiting ∧ (W.pending ∨ timedOut) then
      { W with pending := false, worker := .looking }
    else W
  | .look =>
    if W.worker = .looking then
      let server := W.server.step E { now := 0, act := .smokeStart }
      { W with server, worker := if server.job.isSome then .examining else .waiting }
    else W
  | .examined x random now skip =>
    if W.worker = .examining then
      let op : Op := { now, act := .smokeFinish x random, skip }
      match W.server.reply E op with
      | some (.ok _) => { W with server := W.server.step E op, worker := .looking }
      | _ => { W with server := W.server.step E op, worker := .waiting, errors := W.errors + 1 }
    else W
  | .workerFails =>
    if W.worker = .waiting then W else { W with worker := .waiting, errors := W.errors + 1 }
  | .other op => if op.act.aside then { W with server := W.server.step E op } else W
  | .restart => W.restart

def run (E : Env F) (g : Github) (events : List SiteEvent) : Site F :=
  events.foldl (step E g) start

theorem run_snoc (E : Env F) (g : Github) (events : List SiteEvent) (e : SiteEvent) :
    run E g (events ++ [e]) = (run E g events).step E g e := by
  simp [run]

theorem run_append (E : Env F) (g : Github) (before after : List SiteEvent) :
    run E g (before ++ after) = after.foldl (step E g) (run E g before) := by
  simp [run]

end Site

variable [LinearOrder F] {E : Env F}

omit [LinearOrder F] in
theorem insertTest_exec {now : ℚ} {s : TestSpec} {cc bc : String} {skip : Lock → Bool} {db : Db F}
    (hs : s.orderedBounds = true) (hne : cc ≠ bc) :
    (insertTest now s cc bc).exec skip db = .ok (.commit db.tests.next, db.addTest now s cc bc) := by
  rw [insertTest, if_neg (by simp [hne, hs])]
  rfl

/-- A step of a site: what becomes of its database, its cache and its handlers. -/
inductive Site.Moves (E : Env F) (g : Github) (W : Site F) (e : SiteEvent) : Site F → Prop
  | idle : Moves E g W e W
  | asks (body : Json) (shelf : Shelf) (new : Handler) : e = .request body shelf →
      new = (match (checkSpec E.cfg.sprtPresets shelf W.cache body).1 with
        | .ok spec => .resolving body spec
        | .error answer => .answered answer) →
      Moves E g W e { W with
        cache := (checkSpec E.cfg.sprtPresets shelf W.cache body).2
        handlers := W.handlers ++ [new] }
  | refused (k : Nat) (old : Handler) (r : Response) : W.handlers[k]? = some old →
      old.answer = none → r.status ≠ 201 → Moves E g W e (W.setHandler k (.answered r))
  | inserts (k : Nat) (body : Json) (spec : TestSpec) (cc bc : String) (now : ℚ) :
      W.handlers[k]? = some (.resolving body spec) → isFullSha cc = true → isFullSha bc = true →
      cc ≠ bc →
      Moves E g W e ((W.setDb W.server.db.drawTestId).setHandler k
        (.inserted (testRow now spec cc bc W.server.db.tests.next)
          (createdResponse W.server.db.tests.next spec cc bc)))
  | commits (k : Nat) (row : TestRow) (answer : Response) : e = .commit k →
      W.handlers[k]? = some (.inserted row answer) →
      Moves E g W e
        ((W.setDb (W.server.db.commitTest row)).setHandler k (.notifying row.id answer))
  | notifies (k : Nat) (testId : Int) (answer : Response) :
      W.handlers[k]? = some (.notifying testId answer) →
      Moves E g W e ({ W with pending := true }.setHandler k (.answered answer))
  | serves (V : Site F) (op : Op) : (∀ body cc bc, op.act ≠ .call (.create body cc bc)) →
      V.server = W.server.step E op → V.handlers = W.handlers → V.cache = W.cache →
      Moves E g W e V
  | turns (V : Site F) : V.server = W.server → V.handlers = W.handlers → V.cache = W.cache →
      Moves E g W e V
  | restarts : e = .restart → Moves E g W e W.restart

/-- The answer to the request that created a test. -/
def TestRow.announcement (t : TestRow) : Response :=
  ⟨201, .obj [("test_id", .int t.id), ("status", .str "validating"),
    ("candidate", .obj [("ref", .str t.candidateRef), ("commit", .str t.candidateCommit)]),
    ("baseline", .obj [("ref", .str t.baselineRef), ("commit", .str t.baselineCommit)])]⟩

theorem TestRow.announcement_congr {t u : TestRow} (hid : u.id = t.id) (hs : t.setup = u.setup) :
    u.announcement = t.announcement := by
  obtain ⟨-, -, hcr, hcc, hbr, hbc, -⟩ := TestSetup.mk.inj hs
  simp only [TestRow.announcement, hid, hcr, hcc, hbr, hbc]

theorem TestRow.announcement_id {t u : TestRow} (h : t.announcement = u.announcement) :
    t.id = u.id := by
  have hfind : ∀ v : TestRow, v.announcement.body.find "test_id" = some (.int v.id) := fun v => rfl
  have hboth := hfind t
  rw [h, hfind u] at hboth
  exact (Json.int.inj (Option.some.inj hboth)).symm

/-- What holds of the handlers at work: a specification was read from its body, and the test of an
uncommitted row is new, with an identity nobody else has. -/
structure Site.Sound (E : Env F) (W : Site F) : Prop where
  resolving : ∀ (k : Nat) body spec, W.handlers[k]? = some (.resolving body spec) →
    parseTestSpec body E.cfg.sprtPresets = .ok spec
  inserted : ∀ (k : Nat) row answer, W.handlers[k]? = some (.inserted row answer) →
    row.status = .validating ∧ 1 ≤ row.totalPairs ∧ answer = row.announcement
  drawn : ∀ (k : Nat) row answer, W.handlers[k]? = some (.inserted row answer) →
    row.id < W.server.db.tests.next ∧ W.server.db.tests.find row.id = none
  distinct : ∀ (k k' : Nat) row row' answer answer', W.handlers[k]? = some (.inserted row answer) →
    W.handlers[k']? = some (.inserted row' answer') → row.id = row'.id → k = k'

theorem getElem?_set_cases {α : Type} {l : List α} {k j : Nat} {a b : α}
    (h : (l.set k a)[j]? = some b) : (j = k ∧ b = a) ∨ (j ≠ k ∧ l[j]? = some b) := by
  rw [List.getElem?_set] at h
  split at h
  next hkj =>
    split at h
    · exact .inl ⟨hkj.symm, (Option.some.inj h).symm⟩
    · cases h
  next hkj => exact .inr ⟨fun hj => hkj hj.symm, h⟩

namespace Site

variable {g : Github} {W V : Site F}

theorem step_moves (h : W.Sound E) (g : Github) (e : SiteEvent) :
    W.Moves E g e (W.step E g e) := by
  cases e with
  | request body shelf => exact .asks body shelf _ rfl rfl
  | resolved k curl curl' now =>
    dsimp only [Site.step]
    split
    next body spec hk =>
      split
      next answer hrefused => exact .refused k _ answer hk rfl (resolveCommits_refuses hrefused)
      next cc bc hcommits =>
        obtain ⟨hcc, hbc, hne⟩ := resolveCommits_ok hcommits
        rw [insertTest_exec (accepted_sprtColumns (h.resolving k body spec hk)).2 hne]
        exact .inserts k body spec cc bc now hk hcc hbc hne
    next => exact .idle
  | commit k =>
    dsimp only [Site.step]
    split
    next row answer hk => exact .commits k row answer rfl hk
    next => exact .idle
  | lost k =>
    dsimp only [Site.step]
    split
    next hk => exact .refused k _ _ hk rfl (by simp [sendError])
    next hk => exact .refused k _ _ hk rfl (by simp [sendError])
    next => exact .idle
  | notify k =>
    dsimp only [Site.step]
    split
    next testId answer hk => exact .notifies k testId answer hk
    next => exact .idle
  | wake timedOut =>
    dsimp only [Site.step]
    split
    · exact .turns _ rfl rfl rfl
    · exact .idle
  | look =>
    dsimp only [Site.step]
    split
    · exact .serves _ { now := 0, act := .smokeStart } (by simp) rfl rfl rfl
    · exact .idle
  | examined x random now skip =>
    dsimp only [Site.step]
    split
    · split <;>
        exact .serves _ { now, act := .smokeFinish x random, skip } (by simp) rfl rfl rfl
    · exact .idle
  | workerFails =>
    dsimp only [Site.step]
    split
    · exact .idle
    · exact .turns _ rfl rfl rfl
  | other op =>
    dsimp only [Site.step]
    split
    next haside =>
      refine .serves _ op (fun body cc bc hact => ?_) rfl rfl rfl
      rw [hact] at haside
      cases haside
    next => exact .idle
  | restart => exact .restarts rfl

end Site

/-- The tests of a database and the counter of their identities, in other states. -/
structure Db.SameTests (db db' : Db F) : Prop where
  next : db'.tests.next = db.tests.next
  known : ∀ t ∈ db'.tests.rows, ∃ u ∈ db.tests.rows, u.id = t.id

section SameTests

variable {db db' db'' : Db F} {now : ℚ}

omit [LinearOrder F] in
theorem Db.SameTests.of_tests (h : db'.tests = db.tests) : db.SameTests db' :=
  ⟨by rw [h], fun t ht => ⟨t, h ▸ ht, rfl⟩⟩

omit [LinearOrder F] in
theorem Db.SameTests.trans (h : db.SameTests db') (h' : db'.SameTests db'') : db.SameTests db'' where
  next := h'.next.trans h.next
  known t ht := by
    obtain ⟨u, hu, hid⟩ := h'.known t ht
    obtain ⟨v, hv, hid'⟩ := h.known u hu
    exact ⟨v, hv, hid'.trans hid⟩

omit [LinearOrder F] in
theorem Db.SameTests.updateTest (db : Db F) (id : Int) (f : TestRow → TestRow)
    (hid : ∀ r, (f r).id = r.id) : db.SameTests (db.updateTest id f hid) where
  next := rfl
  known t ht := by
    obtain ⟨u, hu, hut, -⟩ := mem_updateTest ht
    exact ⟨u, hu, hut.symm⟩

omit [LinearOrder F] in
theorem Promoted.sameTests {o : Option Int} (h : Promoted now db o db') : db.SameTests db' := by
  cases h with
  | nothing => exact .of_tests rfl
  | next => exact .updateTest db _ _ _

theorem Refreshed.sameTests {N : Numerics F} {testId : Int} (h : Refreshed N now testId db db') :
    db.SameTests db' := by
  cases h with
  | missing => exact .of_tests rfl
  | kept t r => exact .of_tests (Db.tests_record _ _ _)
  | finished t r result promoted _ _ _ _ _ hp =>
    exact (Db.SameTests.of_tests (Db.tests_record db testId r.stats)).trans
      ((Db.SameTests.updateTest _ testId _ (TestRow.finish_id now result)).trans hp.sameTests)

theorem RefreshedAll.sameTests {N : Numerics F} {ids : List Int}
    (h : RefreshedAll N now ids db db') : db.SameTests db' := by
  induction h with
  | nil => exact .of_tests rfl
  | cons a ids db db₁ db' hstep _ ih => exact hstep.sameTests.trans ih

/-- Only a creation adds a test. -/
theorem Effect.sameTests {skip : Lock → Bool} {c : Call} {r : Reply}
    (heff : Effect E now skip db c (.commit r) db') (hc : ∀ body cc bc, c ≠ .create body cc bc) :
    db.SameTests db' := by
  generalize hout : Finish.commit r = out at heff
  cases heff with
  | invalidSpec body cc bc => exact absurd rfl (hc body cc bc)
  | create body cc bc => exact absurd rfl (hc body cc bc)
  | smoke job x random _ _ _ hj hfin =>
    subst hfin
    cases hj with
    | late => cases hout
    | invalid => exact .updateTest db _ _ _
    | queued t fens vlog promoted db₁ _ _ _ _ href hp =>
      have hq : db.SameTests (db.enqueue job.testId fens random vlog) :=
        (Db.SameTests.updateTest db job.testId _ (TestRow.judge_id .queued vlog)).trans
          (.of_tests (enqueue_spec db job.testId fens random vlog).tests)
      exact hq.trans (href.sameTests.trans hp.sameTests)
  | promote _ _ hp => exact hp.sameTests
  | stop _ _ _ _ hs hfin =>
    subst hfin
    cases hs with
    | refused => cases hout
    | waiting => exact .updateTest db _ _ _
    | running _ _ _ _ _ hp => exact (Db.SameTests.updateTest db _ _ _).trans hp.sameTests
  | setPriority id n _ _ _ hs hfin =>
    subst hfin
    cases hs with
    | refused => cases hout
    | updated => exact .updateTest db _ _ _
  | register reg =>
    refine .of_tests ?_
    unfold Db.upsertClient
    split <;> rfl
  | heartbeat => exact .of_tests rfl
  | ban => exact .of_tests rfl
  | claim _ _ _ _ _ hs =>
    cases hs with
    | leased _ _ _ _ _ _ _ _ hdb _ => exact .of_tests (by rw [hdb]; rfl)
    | answered => exact .of_tests rfl
  | submit _ report _ _ _ hs hfin =>
    subst hfin
    cases hs with
    | unknown => cases hout
    | refused => cases hout
    | accepted p g _ _ _ _ _ href =>
      have hdeliver : db.SameTests (db.deliver E now p report.toPairReport) := .of_tests rfl
      exact hdeliver.trans href.sameTests
  | abandon _ _ _ _ _ hs =>
    cases hs with
    | refused => exact .of_tests rfl
    | released => exact .of_tests rfl
  | recover _ _ _ hs =>
    cases hs with
    | recovered expired _ _ _ htests =>
      have hexpire : db.SameTests (db.expire E.cfg.maxAttempts expired) := .of_tests rfl
      exact hexpire.trans htests.sameTests

end SameTests

theorem TestStatus.Edge.not_validating {a : TestStatus} : ¬a.Edge .validating := nofun

theorem Server.step_sameTests (s : Server F) (op : Op)
    (hop : ∀ body cc bc, op.act ≠ .call (.create body cc bc)) : s.db.SameTests (s.step E op).db := by
  rcases s.step_db E op with hdb | ⟨c, r, hc, -, heff⟩
  · exact .of_tests (by rw [hdb])
  · refine heff.sameTests ?_
    rintro body cc bc rfl
    rcases callOf_eq_some hc with hact | ⟨_, _, _, -, -, heq⟩
    · exact hop body cc bc hact
    · cases heq

/-- A test after a step that creates none was there, unmoved or no longer validating. -/
theorem Server.Orderly.test_kept {s : Server F} (h : s.Orderly) (op : Op)
    (hop : ∀ body cc bc, op.act ≠ .call (.create body cc bc)) {t : TestRow}
    (ht : t ∈ (s.step E op).db.tests.rows) :
    ∃ u ∈ s.db.tests.rows, u.id = t.id ∧ t.setup = u.setup ∧
      (t.status = .validating → u.status = .validating) := by
  obtain ⟨u, hu, hid⟩ := (s.step_sameTests (E := E) op hop).known t ht
  have hfind := Table.find_of_mem hu
  obtain ⟨t', ht', -, -, hmove⟩ := h.move (E := E) op hfind
  obtain ⟨v, hv, hsetup⟩ := (s.step_extends E op).tests _ u hfind
  have hfindt : (s.step E op).db.tests.find u.id = some t := by
    rw [hid]
    exact Table.find_of_mem ht
  cases Option.some.inj (ht'.symm.trans hfindt)
  cases Option.some.inj (hv.symm.trans hfindt)
  refine ⟨u, hu, hid, hsetup, fun hval => ?_⟩
  rcases hmove with (hst | ⟨hedge, -, -⟩ | ⟨-, hfin, -⟩) | ⟨-, hpass⟩
  · exact hst ▸ hval
  · exact absurd (hval ▸ hedge) TestStatus.Edge.not_validating
  · rw [hval] at hfin
    cases hfin
  · exact hpass.validating

namespace Site

variable {g : Github} {W V : Site F} {e : SiteEvent}

/-- Where a test after a step comes from. -/
theorem Moves.test_origin (h : W.Moves E g e V) (hord : W.server.Orderly) {t : TestRow}
    (ht : t ∈ V.server.db.tests.rows) :
    (∃ u ∈ W.server.db.tests.rows, u.id = t.id ∧ t.setup = u.setup ∧
      (t.status = .validating → u.status = .validating)) ∨
    ∃ (k : Nat) (answer : Response), e = .commit k ∧ W.handlers[k]? = some (.inserted t answer) ∧
      V = (W.setDb (W.server.db.commitTest t)).setHandler k (.notifying t.id answer) := by
  cases h with
  | commits k row answer he hk =>
    rcases Table.mem_of_mem_place ht with hold | rfl
    · exact .inl ⟨t, hold, rfl, rfl, id⟩
    · exact .inr ⟨k, answer, he, hk, rfl⟩
  | serves V op hop hserver =>
    rw [hserver] at ht
    exact .inl (hord.test_kept op hop ht)
  | turns V hserver => exact .inl ⟨t, hserver ▸ ht, rfl, rfl, id⟩
  | _ => exact .inl ⟨t, ht, rfl, rfl, id⟩

/-- Tests stay, with what they are about. -/
theorem Moves.extends (h : W.Moves E g e V) {i : Int} {t : TestRow}
    (ht : W.server.db.tests.find i = some t) :
    ∃ u, V.server.db.tests.find i = some u ∧ u.setup = t.setup := by
  cases h with
  | commits => exact ⟨t, Table.find_place_of_some ht, rfl⟩
  | serves V op hop hserver =>
    rw [hserver]
    exact (W.server.step_extends E op).tests i t ht
  | turns V hserver => exact ⟨t, hserver ▸ ht, rfl⟩
  | _ => exact ⟨t, ht, rfl⟩

theorem Moves.next_le (h : W.Moves E g e V) :
    W.server.db.tests.next ≤ V.server.db.tests.next := by
  cases h with
  | inserts => exact Int.le_add_one le_rfl
  | commits => exact (Table.next_place _ _).ge
  | serves V op hop hserver =>
    rw [hserver]
    exact (W.server.step_sameTests op hop).next.ge
  | turns V hserver => rw [hserver]
  | _ => exact le_rfl

/-- A handler after a step: it was there as it is, or takes its turn. -/
theorem Moves.working (h : W.Moves E g e V) {k : Nat} {hd : Handler} (hk : V.handlers[k]? = some hd)
    (hw : hd.working = true) :
    W.handlers[k]? = some hd ∨
    (∃ body spec shelf, hd = .resolving body spec ∧ e = .request body shelf ∧
      (checkSpec E.cfg.sprtPresets shelf W.cache body).1 = .ok spec) ∨
    ∃ body spec cc bc now, W.handlers[k]? = some (.resolving body spec) ∧ isFullSha cc = true ∧
      isFullSha bc = true ∧ cc ≠ bc ∧
      hd = .inserted (testRow now spec cc bc W.server.db.tests.next)
        (createdResponse W.server.db.tests.next spec cc bc) ∧
      V.server.db = W.server.db.drawTestId ∧
      ∀ (j : Nat) hd', V.handlers[j]? = some hd' → j = k ∨ W.handlers[j]? = some hd' := by
  have settled : ∀ {j : Nat} {new : Handler}, new.working = false →
      (W.handlers.set j new)[k]? = some hd → W.handlers[k]? = some hd := by
    intro j new hnew hset
    rcases getElem?_set_cases hset with ⟨-, rfl⟩ | ⟨-, hold⟩
    · rw [hnew] at hw
      cases hw
    · exact hold
  cases h with
  | idle => exact .inl hk
  | asks body shelf new he hnew =>
    rw [List.getElem?_append] at hk
    split at hk
    · exact .inl hk
    · have hhd := List.mem_singleton.mp (List.mem_of_getElem? hk)
      rw [hnew] at hhd
      split at hhd
      next spec hchecked => exact .inr (.inl ⟨body, spec, shelf, hhd, he, hchecked⟩)
      next =>
        rw [hhd] at hw
        cases hw
  | refused j old r hj => exact .inl (settled rfl hk)
  | inserts j body spec cc bc now hj hcc hbc hne =>
    rcases getElem?_set_cases hk with ⟨rfl, rfl⟩ | ⟨-, hold⟩
    · refine .inr (.inr ⟨body, spec, cc, bc, now, hj, hcc, hbc, hne, rfl, rfl, fun i hd' hi => ?_⟩)
      rcases getElem?_set_cases hi with ⟨hik, -⟩ | ⟨-, hold⟩
      · exact .inl hik
      · exact .inr hold
    · exact .inl hold
  | commits j row answer he hj => exact .inl (settled rfl hk)
  | notifies j testId answer hj => exact .inl (settled rfl hk)
  | serves V op hop hserver hhandlers => exact .inl (hhandlers ▸ hk)
  | turns V hserver hhandlers => exact .inl (hhandlers ▸ hk)
  | restarts =>
    rw [restart, List.getElem?_map] at hk
    obtain ⟨old, -, rfl⟩ := Option.map_eq_some_iff.mp hk
    cases old <;> cases hw

end Site

namespace Site

variable {g : Github} {W V : Site F} {e : SiteEvent}

theorem Sound.step (h : W.Sound E) (hord : W.server.Orderly) (hm : W.Moves E g e V) : V.Sound E where
  resolving k body spec hk := by
    rcases hm.working hk rfl with hold | ⟨body', spec', shelf, hhd, -, hchecked⟩ |
      ⟨_, _, _, _, _, -, -, -, -, hhd, -⟩
    · exact h.resolving k body spec hold
    · cases hhd
      exact checkSpec_parsed hchecked
    · cases hhd
  inserted k row answer hk := by
    rcases hm.working hk rfl with hold | ⟨_, _, _, hhd, -⟩ |
      ⟨body, spec, cc, bc, now, hres, -, -, -, hhd, -⟩
    · exact h.inserted k row answer hold
    · cases hhd
    · cases hhd
      exact ⟨rfl, parseTestSpec_totalPairs (h.resolving k body spec hres), rfl⟩
  drawn k row answer hk := by
    rcases hm.working hk rfl with hold | ⟨_, _, _, hhd, -⟩ |
      ⟨body, spec, cc, bc, now, hres, -, -, -, hhd, hdb, -⟩
    · obtain ⟨hlt, hnone⟩ := h.drawn k row answer hold
      refine ⟨hlt.trans_le hm.next_le, Option.eq_none_iff_forall_ne_some.mpr fun t ht => ?_⟩
      obtain ⟨hmem, hid⟩ := Table.find_some ht
      rcases hm.test_origin hord hmem with ⟨u, hu, huid, -⟩ | ⟨j, answer', -, hj, hV⟩
      · have hfind := Table.find_of_mem hu
        rw [huid, hid, hnone] at hfind
        cases hfind
      · -- the row that was committed is another one, for its handler has moved on
        cases h.distinct k j row t answer answer' hold hj hid.symm
        rw [hV, setHandler] at hk
        rcases getElem?_set_cases hk with ⟨-, hhd⟩ | ⟨hne, -⟩
        · cases hhd
        · exact hne rfl
    · cases hhd
    · cases hhd
      rw [hdb]
      exact ⟨lt_add_one W.server.db.tests.next, Table.find_next W.server.db.tests⟩
  distinct k k' row row' answer answer' hk hk' hid := by
    have fresh : ∀ {j : Nat} {r : TestRow} {a : Response}, W.handlers[j]? = some (.inserted r a) →
        r.id ≠ W.server.db.tests.next := fun hj => (h.drawn _ _ _ hj).1.ne
    rcases hm.working hk rfl with hold | ⟨_, _, _, hhd, -⟩ |
      ⟨body, spec, cc, bc, now, -, -, -, -, hhd, -, hothers⟩
    · rcases hm.working hk' rfl with hold' | ⟨_, _, _, hhd, -⟩ |
        ⟨body, spec, cc, bc, now, -, -, -, -, hhd, -⟩
      · exact h.distinct k k' row row' answer answer' hold hold' hid
      · cases hhd
      · cases hhd
        exact absurd hid (fresh hold)
    · cases hhd
    · cases hhd
      rcases hothers k' _ hk' with hsame | hold'
      · exact hsame.symm
      · exact absurd hid.symm (fresh hold')

theorem Moves.orderly (hm : W.Moves E g e V) (h : W.Sound E) (hord : W.server.Orderly) :
    V.server.Orderly := by
  cases hm with
  | inserts => exact ⟨hord.lifecycle.drawTestId, hord.served, hord.job⟩
  | commits k row answer _ hk =>
    obtain ⟨hval, hdemands, -⟩ := h.inserted k row answer hk
    refine ⟨hord.lifecycle.commitTest hval hdemands, hord.served.commitTest hval, fun job hj => ?_⟩
    obtain ⟨t, ht, htotal⟩ := hord.job job hj
    exact ⟨t, Table.find_place_of_some ht, htotal⟩
  | serves V op hop hserver =>
    rw [hserver]
    exact hord.step op
  | turns V hserver =>
    rw [hserver]
    exact hord
  | _ => exact hord

theorem run_sound (E : Env F) (g : Github) (events : List SiteEvent) :
    (run E g events).server.Orderly ∧ (run E g events).Sound E := by
  induction events using List.reverseRecOn with
  | nil =>
    exact ⟨CapiNet.run_orderly E [], fun k _ _ hk => (by cases hk), fun k _ _ hk => (by cases hk),
      fun k _ _ hk => (by cases hk), fun k _ _ _ _ _ hk => (by cases hk)⟩
  | append_singleton events e ih =>
    rw [run_snoc]
    have hm := step_moves ih.2 g e
    exact ⟨hm.orderly ih.2 ih.1, ih.2.step ih.1 hm⟩

/-- One step of a run. -/
theorem run_moves (E : Env F) (g : Github) (events : List SiteEvent) (e : SiteEvent) :
    (run E g events).Moves E g e (run E g (events ++ [e])) := by
  rw [run_snoc]
  exact step_moves (run_sound E g events).2 g e

end Site

/-- The commits of a test are two, by their full names, and all else is what a request asked for
that saw a book with positions enough. -/
structure TestRow.Pinned (presets : SprtPresets) (requests : List (Json × Shelf)) (t : TestRow) :
    Prop where
  candidate : isFullSha t.candidateCommit = true
  baseline : isFullSha t.baselineCommit = true
  distinct : t.candidateCommit ≠ t.baselineCommit
  asked : ∃ spec, Requested presets requests spec ∧
    t.setup = (testRow t.createdAt spec t.candidateCommit t.baselineCommit t.id).setup

theorem TestRow.Pinned.congr {presets : SprtPresets} {requests : List (Json × Shelf)}
    {t u : TestRow} (h : u.Pinned presets requests) (hs : t.setup = u.setup) :
    t.Pinned presets requests := by
  have hcc : t.candidateCommit = u.candidateCommit := congrArg TestSetup.candidateCommit hs
  have hbc : t.baselineCommit = u.baselineCommit := congrArg TestSetup.baselineCommit hs
  have hcreated : t.createdAt = u.createdAt := congrArg TestSetup.createdAt hs
  obtain ⟨spec, hspec, hsetup⟩ := h.asked
  refine ⟨?_, ?_, ?_, spec, hspec, ?_⟩
  · rw [hcc]; exact h.candidate
  · rw [hbc]; exact h.baseline
  · rw [hcc, hbc]; exact h.distinct
  · rw [hs, hsetup, hcc, hbc, hcreated]
    rfl

/-- There is a test that this is the announcement of. -/
def Db.Announced (db : Db F) (r : Response) : Prop := ∃ t ∈ db.tests.rows, r = t.announcement

namespace Site

variable {g : Github} {W V : Site F} {e : SiteEvent} {presets : SprtPresets}
  {requests : List (Json × Shelf)}

/-- A success that is answered names a test, and no two handlers answer with the same one. -/
structure Answering (W : Site F) : Prop where
  announced : ∀ (k : Nat) h r, W.handlers[k]? = some h → h.answer = some r → r.status = 201 →
    W.server.db.Announced r
  apart : ∀ (k k' : Nat) h h' r, W.handlers[k]? = some h → W.handlers[k']? = some h' →
    h.answer = some r → h'.answer = some r → r.status = 201 → k = k'

/-- A success after a step was the answer before, or is that to a test just committed. -/
theorem Moves.answer (hm : W.Moves E g e V) {k : Nat} {hd : Handler} {r : Response}
    (hk : V.handlers[k]? = some hd) (hr : hd.answer = some r) (h201 : r.status = 201) :
    (∃ old, W.handlers[k]? = some old ∧ old.answer = some r) ∨
    ∃ row, e = .commit k ∧ W.handlers[k]? = some (.inserted row r) ∧
      V = (W.setDb (W.server.db.commitTest row)).setHandler k (.notifying row.id r) := by
  cases hm with
  | idle => exact .inl ⟨hd, hk, hr⟩
  | asks body shelf new he hnew =>
    rw [List.getElem?_append] at hk
    split at hk
    · exact .inl ⟨hd, hk, hr⟩
    · have hhd := List.mem_singleton.mp (List.mem_of_getElem? hk)
      rw [hnew] at hhd
      split at hhd
      next =>
        rw [hhd] at hr
        cases hr
      next answer hchecked =>
        rw [hhd] at hr
        cases hr
        exact absurd h201 (checkSpec_refuses hchecked)
  | refused j old r' hj hold hne =>
    rcases getElem?_set_cases hk with ⟨-, rfl⟩ | ⟨-, hk⟩
    · cases hr
      exact absurd h201 hne
    · exact .inl ⟨hd, hk, hr⟩
  | inserts j body spec cc bc now hj =>
    rcases getElem?_set_cases hk with ⟨-, rfl⟩ | ⟨-, hk⟩
    · cases hr
    · exact .inl ⟨hd, hk, hr⟩
  | commits j row answer he hj =>
    rcases getElem?_set_cases hk with ⟨rfl, rfl⟩ | ⟨-, hk⟩
    · cases hr
      exact .inr ⟨row, he, hj, rfl⟩
    · exact .inl ⟨hd, hk, hr⟩
  | notifies j testId answer hj =>
    rcases getElem?_set_cases hk with ⟨rfl, rfl⟩ | ⟨-, hk⟩
    · cases hr
      exact .inl ⟨_, hj, rfl⟩
    · exact .inl ⟨hd, hk, hr⟩
  | serves V op hop hserver hhandlers => exact .inl ⟨hd, hhandlers ▸ hk, hr⟩
  | turns V hserver hhandlers => exact .inl ⟨hd, hhandlers ▸ hk, hr⟩
  | restarts =>
    rw [restart, List.getElem?_map] at hk
    obtain ⟨old, hold, rfl⟩ := Option.map_eq_some_iff.mp hk
    refine .inl ⟨old, hold, ?_⟩
    cases old <;> first | exact hr | cases hr

theorem Answering.step (h : W.Answering) (hs : W.Sound E) (hm : W.Moves E g e V) :
    V.Answering where
  announced k hd r hk hr h201 := by
    rcases hm.answer hk hr h201 with ⟨old, hold, hr'⟩ | ⟨row, -, hins, hV⟩
    · obtain ⟨t, ht, hrt⟩ := h.announced k old r hold hr' h201
      obtain ⟨u, hu, hsetup⟩ := hm.extends (Table.find_of_mem ht)
      obtain ⟨hmem, hid⟩ := Table.find_some hu
      exact ⟨u, hmem, hrt.trans (TestRow.announcement_congr hid.symm hsetup)⟩
    · obtain ⟨-, -, hanswer⟩ := hs.inserted k row r hins
      obtain ⟨hlt, hnone⟩ := hs.drawn k row r hins
      refine ⟨row, ?_, hanswer⟩
      rw [hV]
      exact (Table.rows_place hlt hnone).symm ▸ List.mem_append_right _ (List.mem_singleton_self row)
  apart k k' hd hd' r hk hk' hr hr' h201 := by
    -- what is committed was not announced by anybody
    have fresh : ∀ {i j : Nat} {row : TestRow} {old : Handler},
        W.handlers[i]? = some (.inserted row r) → W.handlers[j]? = some old →
        old.answer ≠ some r := by
      intro i j row old hi hj hans
      obtain ⟨t, ht, hrt⟩ := h.announced j old r hj hans h201
      obtain ⟨-, -, hanswer⟩ := hs.inserted i row r hi
      have hid := TestRow.announcement_id (hrt.symm.trans hanswer)
      have hfind := Table.find_of_mem ht
      rw [hid, (hs.drawn i row r hi).2] at hfind
      cases hfind
    rcases hm.answer hk hr h201 with ⟨old, hold, hans⟩ | ⟨row, he, hins, -⟩
    · rcases hm.answer hk' hr' h201 with ⟨old', hold', hans'⟩ | ⟨row', -, hins', -⟩
      · exact h.apart k k' old old' r hold hold' hans hans' h201
      · exact absurd hans (fresh hins' hold)
    · rcases hm.answer hk' hr' h201 with ⟨old', hold', hans'⟩ | ⟨row', he', hins', -⟩
      · exact absurd hans' (fresh hins hold')
      · exact SiteEvent.commit.inj (he.symm.trans he')

theorem run_answering (E : Env F) (g : Github) (events : List SiteEvent) :
    (run E g events).Answering := by
  induction events using List.reverseRecOn with
  | nil => exact ⟨fun k _ _ hk => (by cases hk), fun k _ _ _ _ hk => (by cases hk)⟩
  | append_singleton events e ih => exact ih.step (run_sound E g events).2 (run_moves E g events e)

/-- The requests behind the handlers at work and the tests. -/
structure Created (presets : SprtPresets) (requests : List (Json × Shelf)) (W : Site F) : Prop where
  cache : W.cache.Of (requests.map (·.2))
  resolving : ∀ (k : Nat) body spec, W.handlers[k]? = some (.resolving body spec) →
    Requested presets requests spec
  inserted : ∀ (k : Nat) row answer, W.handlers[k]? = some (.inserted row answer) →
    row.Pinned presets requests
  tests : ∀ t ∈ W.server.db.tests.rows, t.Pinned presets requests

theorem Created.step (h : W.Created E.cfg.sprtPresets requests) (hord : W.server.Orderly)
    (hm : W.Moves E g e V) (hs : Stamped (requests.map (·.2)))
    (hmem : ∀ r, e.asks = some r → r ∈ requests) : V.Created E.cfg.sprtPresets requests where
  cache := by
    cases hm with
    | asks body shelf new he =>
      exact (checkSpec_of E.cfg.sprtPresets body hs h.cache
        (List.mem_map_of_mem (hmem (body, shelf) (by rw [he]; rfl)))).1
    | serves V op hop hserver hhandlers hcache => exact hcache ▸ h.cache
    | turns V hserver hhandlers hcache => exact hcache ▸ h.cache
    | restarts => exact nofun
    | _ => exact h.cache
  resolving k body spec hk := by
    rcases hm.working hk rfl with hold | ⟨body', spec', shelf, hhd, he, hchecked⟩ |
      ⟨_, _, _, _, _, -, -, -, -, hhd, -⟩
    · exact h.resolving k body spec hold
    · cases hhd
      have hasked := hmem (body, shelf) (by rw [he]; rfl)
      obtain ⟨-, hbook⟩ :=
        checkSpec_of E.cfg.sprtPresets body hs h.cache (List.mem_map_of_mem hasked)
      exact ⟨(body, shelf), hasked, checkSpec_parsed hchecked, hbook _ hchecked⟩
    · cases hhd
  inserted k row answer hk := by
    rcases hm.working hk rfl with hold | ⟨_, _, _, hhd, -⟩ |
      ⟨body, spec, cc, bc, now, hres, hcc, hbc, hne, hhd, -⟩
    · exact h.inserted k row answer hold
    · cases hhd
    · cases hhd
      exact ⟨hcc, hbc, hne, spec, h.resolving k body spec hres, rfl⟩
  tests t ht := by
    rcases hm.test_origin hord ht with ⟨u, hu, -, hsetup, -⟩ | ⟨k, answer, -, hk, -⟩
    · exact (h.tests u hu).congr hsetup
    · exact h.inserted k t answer hk

theorem run_created (E : Env F) (g : Github) (events : List SiteEvent)
    (hs : Stamped (requests.map (·.2))) (hmem : ∀ r ∈ requestsOf events, r ∈ requests) :
    (run E g events).Created E.cfg.sprtPresets requests := by
  induction events using List.reverseRecOn with
  | nil =>
    exact ⟨fun _ _ hc => (by cases hc), fun k _ _ hk => (by cases hk), fun k _ _ hk => (by cases hk),
      fun t ht => (by cases ht)⟩
  | append_singleton events e ih =>
    have hold := ih fun r h => hmem r (by simp_all [requestsOf])
    exact hold.step (run_sound E g events).1 (run_moves E g events e) hs fun r he =>
      hmem r (by simp [requestsOf, he])

/-- A test appears only as a handler takes it to its answer. -/
theorem Moves.new_test (hm : W.Moves E g e V) (h : W.Sound E) (hord : W.server.Orderly)
    {t : TestRow} (ht : t ∈ V.server.db.tests.rows)
    (hnew : ∀ u ∈ W.server.db.tests.rows, u.id ≠ t.id) :
    t.status = .validating ∧
      ∃ k : Nat, V.handlers[k]? = some (.notifying t.id t.announcement) := by
  rcases hm.test_origin hord ht with ⟨u, hu, hid, -⟩ | ⟨k, answer, -, hk, rfl⟩
  · exact absurd hid (hnew u hu)
  · obtain ⟨hval, -, rfl⟩ := h.inserted k t answer hk
    exact ⟨hval, k, by
      simp only [setHandler, setDb]
      exact List.getElem?_set_self (List.getElem?_eq_some_iff.mp hk).1⟩

/-- The handlers are those of all requests, in their order. -/
theorem length_handlers (E : Env F) (g : Github) (events : List SiteEvent) :
    (run E g events).handlers.length = (requestsOf events).length := by
  induction events using List.reverseRecOn with
  | nil => rfl
  | append_singleton events e ih =>
    have hasks : (requestsOf (events ++ [e])).length =
        (requestsOf events).length + e.asks.toList.length := by
      simp only [requestsOf, List.filterMap_append, List.length_append]
      cases e <;> rfl
    rw [run_snoc, hasks, ← ih]
    cases e with
    | request body shelf => simp [Site.step, SiteEvent.asks]
    | restart => simp [Site.step, restart, SiteEvent.asks]
    | resolved | commit | lost | notify =>
      dsimp only [Site.step]
      repeat' split
      all_goals simp [setHandler, setDb, SiteEvent.asks]
    | wake | look | examined | workerFails | other =>
      dsimp only [Site.step]
      repeat' split
      all_goals simp [SiteEvent.asks]

end Site

/-- What the worker remembers of a test. -/
def TestRow.job (t : TestRow) : SmokeJob :=
  ⟨t.id, t.candidateCommit, t.baselineCommit, t.bookName, t.totalPairs⟩

/-- Reading a book with positions enough, a worker whose builds pass gets all it needs. -/
theorem examine_enough {job : SmokeJob} {lines : List String} (h : job.totalPairs ≤ countPositions lines)
    {x : Examination} (hbuilt : x.built = .ok true) (hx : x.book = .ok lines) :
    ∃ fens, (job.examine x).2 = some fens ∧ fens.length = job.totalPairs.toNat := by
  have hlen : (sampleBook lines job.totalPairs.toNat (UInt64.ofInt job.testId)).length =
      job.totalPairs.toNat := by
    rw [length_sampleBook]
    unfold countPositions at h
    omega
  refine ⟨_, ?_, hlen⟩
  simp only [SmokeJob.examine, hbuilt, hx, hlen, lt_irrefl, if_false]

/-- However requests, examinations and everything else interleave, and whatever GitHub answers: a
test has two different commits by their full names; all else in it is what a request asked for whose
book then had as many positions, so that a worker that reads this book and whose builds pass gets
them all; a test appears only as its request comes to its answer, a success names a test with what
it froze, and of all requests of the run no two are answered with the same one. -/
theorem created_tests (E : Env F) (g : Github) (events : List SiteEvent)
    (hs : Stamped ((requestsOf events).map (·.2))) :
    (∀ t ∈ (Site.run E g events).server.db.tests.rows, isFullSha t.candidateCommit = true ∧
      isFullSha t.baselineCommit = true ∧ t.candidateCommit ≠ t.baselineCommit ∧
      ∃ r ∈ requestsOf events, ∃ spec book lines,
        parseTestSpec r.1 E.cfg.sprtPresets = .ok spec ∧
        t.setup = (testRow t.createdAt spec t.candidateCommit t.baselineCommit t.id).setup ∧
        r.2 t.bookName = some book ∧ book.lines = .ok lines ∧
        ∀ x : Examination, x.built = .ok true → x.book = .ok lines →
          ∃ fens, (t.job.examine x).2 = some fens ∧ fens.length = t.totalPairs.toNat) ∧
    (∀ e, ∀ t ∈ (Site.run E g (events ++ [e])).server.db.tests.rows,
      (∀ u ∈ (Site.run E g events).server.db.tests.rows, u.id ≠ t.id) →
      t.status = .validating ∧ ∃ k : Nat,
        (Site.run E g (events ++ [e])).handlers[k]? = some (.notifying t.id t.announcement)) ∧
    (Site.run E g events).handlers.length = (requestsOf events).length ∧
    (∀ (k : Nat) h r, (Site.run E g events).handlers[k]? = some h → h.answer = some r →
      r.status = 201 → (Site.run E g events).server.db.Announced r) ∧
    (∀ (k k' : Nat) h h' r, (Site.run E g events).handlers[k]? = some h →
      (Site.run E g events).handlers[k']? = some h' → h.answer = some r → h'.answer = some r →
      r.status = 201 → k = k') := by
  have h := Site.run_created E g events hs fun _ hmem => hmem
  have hanswers := Site.run_answering E g events
  refine ⟨fun t ht => ?_, fun e t ht hnew => ?_, Site.length_handlers E g events,
    hanswers.announced, hanswers.apart⟩
  · obtain ⟨hcc, hbc, hne, spec, ⟨r, hr, hspec, book, lines, hbook, hlines, henough⟩, hsetup⟩ :=
      h.tests t ht
    have hname : t.bookName = spec.bookName := congrArg TestSetup.bookName hsetup
    have htotal : t.totalPairs = spec.totalPairs := congrArg TestSetup.totalPairs hsetup
    refine ⟨hcc, hbc, hne, r, hr, spec, book, lines, hspec, hsetup, ?_, hlines, fun x hbuilt hx => ?_⟩
    · rw [hname]
      exact hbook
    · refine examine_enough ?_ hbuilt hx
      rw [TestRow.job, htotal]
      exact henough
  · obtain ⟨hord, hsound⟩ := Site.run_sound E g events
    exact (Site.run_moves E g events e).new_test hsound hord ht hnew

/-- GitHub, where a branch is answered with the commit that the last line of curl's output repeats. -/
def echoGithub : Github := { parse := fun body => some (.obj [("sha", .str (String.ofList body))]) }

def commitOf (digit : Char) : CurlOutput := ⟨0, List.replicate 40 digit ++ "\n200".toList⟩

/-- A book of so many positions, a second of age for each. -/
def bookOf (n : Nat) : BookFile := ⟨34 * n, n, .ok (List.replicate n "8/8/8/8/8/8/8/K1k5 w - -")⟩

def shelfOf (n : Nat) : Shelf := fun name => if name = "book.epd" then some (bookOf n) else none

/-- A gauntlet of one pair; then the book grows, and two gauntlets of two pairs are asked for, the
second from the cache, whose rows are committed the other way round. -/
def threeTests : List SiteEvent :=
  [.request (gauntletBody 1) (shelfOf 1),
    .resolved 0 (fun _ => commitOf 'a') (fun _ => commitOf 'b') 0, .commit 0, .notify 0,
    .request (gauntletBody 2) (shelfOf 2), .request (gauntletBody 2) (shelfOf 2),
    .resolved 1 (fun _ => commitOf 'a') (fun _ => commitOf 'b') 1,
    .resolved 2 (fun _ => commitOf 'c') (fun _ => commitOf 'd') 1, .commit 2, .commit 1]

theorem created_tests_three :
    (Site.run realEnv echoGithub threeTests).server.db.tests.rows.map (·.id) = [1, 3, 2] ∧
    ∀ t ∈ (Site.run realEnv echoGithub threeTests).server.db.tests.rows,
      isFullSha t.candidateCommit = true ∧ isFullSha t.baselineCommit = true ∧
        t.candidateCommit ≠ t.baselineCommit := by
  have hs : Stamped ((requestsOf threeTests).map (·.2)) := by
    have hshelf : ∀ shelf ∈ (requestsOf threeTests).map (·.2), ∃ n : Nat, shelf = shelfOf n := by
      intro shelf hmem
      rcases List.mem_cons.mp hmem with rfl | hmem
      · exact ⟨1, rfl⟩
      rcases List.mem_cons.mp hmem with rfl | hmem
      · exact ⟨2, rfl⟩
      · cases List.mem_singleton.mp hmem
        exact ⟨2, rfl⟩
    intro shelf hmem shelf' hmem' name book book' hbook hbook' hsize _
    obtain ⟨n, rfl⟩ := hshelf shelf hmem
    obtain ⟨m, rfl⟩ := hshelf shelf' hmem'
    unfold shelfOf at hbook hbook'
    split at hbook
    next hname =>
      rw [if_pos hname] at hbook'
      cases hbook
      cases hbook'
      have hnm : n = m := Nat.eq_of_mul_eq_mul_left (by omega : 0 < 34) hsize
      rw [hnm]
    next => cases hbook
  refine ⟨by decide +kernel, fun t ht => ?_⟩
  obtain ⟨hcc, hbc, hne, -⟩ := (created_tests realEnv echoGithub threeTests hs).1 t ht
  exact ⟨hcc, hbc, hne⟩

end CapiNet
