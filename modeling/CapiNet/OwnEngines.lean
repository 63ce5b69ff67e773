import CapiNet.NetworkStep
import CapiNet.AcceptedResult
import CapiNet.QueueStep
import CapiNet.TestEffect

namespace CapiNet

open Txn Relational

variable {F : Type}

/-- What a client knows of a pair is what its rows say. -/
def Db.Deals (db : Db F) (testId : Int) (pair : Api.ClaimedPair) : Prop :=
  ∃ t p op, db.tests.find testId = some t ∧ db.jobPairs.find pair.pairId = some p ∧
    p.testId = testId ∧ db.positions.find p.positionId = some op ∧ pair.positionSeq = op.seq ∧
      pair.fen = op.fen

theorem Db.Extends.deals {s t : Db F} (h : s.Extends t) {testId : Int} {pair : Api.ClaimedPair}
    (hd : s.Deals testId pair) : t.Deals testId pair := by
  obtain ⟨u, p, op, hu, hp, htest, hop, hseq, hfen⟩ := hd
  obtain ⟨v, hv, -⟩ := h.tests _ u hu
  obtain ⟨q, hq, hqtest, hqpos⟩ := h.pairs _ p hp
  refine ⟨v, q, op, hv, hq, hqtest.trans htest, ?_, hseq, hfen⟩
  rw [hqpos]
  exact h.positions _ op hop

theorem Db.deals_claimed {db : Db F} {picked : List Int} {t : TestRow}
    (ht : db.tests.find t.id = some t)
    (htest : ∀ i ∈ picked, ∀ p, db.jobPairs.find i = some p → p.testId = t.id) :
    ∀ q ∈ db.claimed picked, db.Deals t.id q.toApi := by
  intro q hq
  obtain ⟨p, hp, hq⟩ := List.mem_filterMap.mp hq
  obtain ⟨op, hop, rfl⟩ := Option.map_eq_some_iff.mp hq
  obtain ⟨hrow, hpick⟩ := List.mem_filter.mp hp
  have hfind : db.jobPairs.find p.id = some p := Table.find_of_mem hrow
  exact ⟨t, p, op, ht, hfind, htest p.id (by simpa using hpick) p hfind, hop, rfl, rfl⟩

theorem ensures_claimPairs_deals {skip : Lock → Bool} {cfg : ServerConfig} {now : ℚ}
    {clientId slotsFree : Int} {db : Db F} :
    Script.Ensures skip (claimPairs cfg now clientId slotsFree) db fun fin db' =>
      ∃ r : ClaimResult, fin = .commit r ∧ ∀ q ∈ r.pairs, db'.Deals r.testId q.toApi := by
  have hnone : ∀ db : Db F, Script.Ensures skip (diagnoseClaim clientId) db fun fin db' =>
      ∃ r : ClaimResult, fin = .commit r ∧ ∀ q ∈ r.pairs, db'.Deals r.testId q.toApi := by
    intro db
    refine ensures_diagnoseClaim.mono ?_
    rintro fin db' ⟨-, r, rfl, hr⟩
    exact ⟨r, rfl, by simp [hr]⟩
  simp only [claimPairs, Script.ensures_bind, Script.ensures_select]
  split
  next a c heq =>
    have ha : db.runningTest = some a := congrArg Prod.fst heq
    simp only [Script.ensures_bind, Script.ensures_pick, Script.ensures_update,
      Script.ensures_select]
    split
    next => exact hnone _
    next =>
      refine Script.ensures_pure.mpr ⟨_, rfl, Db.deals_claimed ?_ fun i hi p hp => ?_⟩
      · exact Table.find_of_mem (Db.runningTest_eq_some ha).1
      -- the pairs are picked among the pending ones of the running test
      · obtain ⟨q, hq, -, htest⟩ := Db.mem_pendingIds (Script.mem_unlocked hi).1
        rw [Db.find_updatePairs, hq] at hp
        cases Option.some.inj hp
        dsimp only
        split
        · exact htest
        · exact htest
  next => exact hnone _

variable [LinearOrder F]

/-- The answer to a claim, and what it tells. -/
theorem Server.reply_claim {E : Env F} {s : Server F} {op : Op} {clientId slotsFree : Int} {r : Reply}
    (hact : op.act = .call (.claim clientId slotsFree)) (hr : s.reply E op = some (.ok r)) :
    ∃ c : ClaimResult, r = .claim c ∧ ∀ q ∈ c.pairs, (s.step E op).db.Deals c.testId q.toApi := by
  have hcall : s.callOf op.act = some (.claim clientId slotsFree) := by rw [hact]; rfl
  have hdb : (s.step E op).db =
      ((Call.claim clientId slotsFree).atomically E op.now op.skip s.db).2 := by
    simp [Server.step, hcall]
  have hreply : ((Call.claim clientId slotsFree).atomically E op.now op.skip s.db).1 = .ok r := by
    simpa [Server.reply, hcall] using hr
  have hended : Script.Ended (fun fin db' => ∃ c : ClaimResult, fin = .commit (Reply.claim c) ∧
      ∀ q ∈ c.pairs, db'.Deals c.testId q.toApi) s.db
      ((Call.claim clientId slotsFree).atomically E op.now op.skip s.db).1
      ((Call.claim clientId slotsFree).atomically E op.now op.skip s.db).2 := by
    refine Script.Ensures.ended (Script.Ensures.map (ensures_claimPairs_deals.mono ?_))
    rintro fin db' ⟨c, rfl, hc⟩
    exact ⟨c, rfl, hc⟩
  rw [hdb]
  rw [hreply] at hended
  generalize ((Call.claim clientId slotsFree).atomically E op.now op.skip s.db).2 = db' at hended
  cases hended with
  | undone _ _ h =>
    obtain ⟨c, hc, -⟩ := h
    cases hc
  | committed _ _ h =>
    obtain ⟨c, hc, hd⟩ := h
    cases hc
    exact ⟨c, rfl, hd⟩

/-- The types of the columns: identities are `BIGINT`, places in a book `INTEGER`. -/
structure Db.Columns (db : Db F) : Prop where
  tests : ∀ i t, db.tests.find i = some t → Json.IsInt64 i
  pairs : ∀ i p, db.jobPairs.find i = some p → Json.IsInt64 i
  positions : ∀ i op, db.positions.find i = some op → Json.IsInt32 op.seq

omit [LinearOrder F] in
theorem Db.Extends.columns {s t : Db F} (h : s.Extends t) (ht : t.Columns) : s.Columns := by
  refine ⟨fun i u hu => ?_, fun i p hp => ?_, fun i op hop => ht.positions i op (h.positions i op hop)⟩
  · obtain ⟨v, hv, -⟩ := h.tests i u hu
    exact ht.tests i v hv
  · obtain ⟨q, hq, -⟩ := h.pairs i p hp
    exact ht.pairs i q hq

/-- What a specification is sure of. -/
structure TestRow.Narrow (t : TestRow) : Prop where
  tcBaseMs : Json.IsInt32 t.tcBaseMs
  tcIncrementMs : Json.IsInt32 t.tcIncrementMs
  hashMb : Json.IsInt32 t.hashMb

theorem parseHashMb_narrow {body : Json} {n : Int} (h : parseHashMb body = .ok n) :
    Json.IsInt32 n := by
  obtain ⟨hash, -, h⟩ := bind_eq_ok.mp h
  unfold Json.IsInt32
  cases hash with
  | none =>
    cases h
    omega
  | some m =>
    dsimp only at h
    split at h
    next => cases h
    next =>
      cases h
      omega

theorem run_narrow (E : Env F) (ops : List Op) : (Server.run E ops).db.TestsAll TestRow.Narrow := by
  refine run_testsAll ⟨fun _ _ h => ⟨h.1, h.2, h.3⟩, fun _ _ _ h => ⟨h.1, h.2, h.3⟩,
    fun _ _ h => ⟨h.1, h.2, h.3⟩, fun _ _ _ h => ⟨h.1, h.2, h.3⟩⟩ ?_ ops ?_
  · intro body s now cc bc id hs
    have hfrom := parseTestSpec_iff.mp hs
    obtain ⟨_, -, htc⟩ := hfrom.tc
    obtain ⟨⟨hb, hb'⟩, hi, hi'⟩ := parseTc_range htc
    dsimp only at hb hb' hi hi'
    refine ⟨?_, ?_, parseHashMb_narrow hfrom.hashMb⟩
    · exact ⟨by change _ ≤ s.tcBaseMs; omega, by change s.tcBaseMs < _; omega⟩
    · exact ⟨by change _ ≤ s.tcIncrementMs; omega, by change s.tcIncrementMs < _; omega⟩
  · intro op _ id n _ t h
    exact ⟨h.1, h.2, h.3⟩

omit [LinearOrder F] in
theorem TestRow.sendable {db : Db F} {t : TestRow} (ht : t ∈ db.tests.rows) (hcol : db.Columns)
    (hn : db.TestsAll TestRow.Narrow) : t.Sendable :=
  ⟨hcol.tests t.id t (Table.find_of_mem ht), (hn t ht).tcBaseMs, (hn t ht).tcIncrementMs,
    (hn t ht).hashMb⟩

variable {G : Surroundings F}

/-- The engines are those of a test of the database. -/
def Host.Serves (cfg : Routes.Config) (h : Host) (db : Db F) (e : EngineSet) : Prop :=
  ∃ t, db.tests.find e.testId = some t ∧ e = h.engineSet (t.toApi cfg)

theorem TestRow.toApi_eq {cfg : Routes.Config} {t u : TestRow} (hid : u.id = t.id)
    (h : u.setup = t.setup) : u.toApi cfg = t.toApi cfg := by
  unfold TestRow.setup at h
  simp only [TestSetup.mk.injEq] at h
  simp only [TestRow.toApi, hid, h]

omit [LinearOrder F] in
theorem Db.Extends.serves {cfg : Routes.Config} {h : Host} {s t : Db F} (hst : s.Extends t)
    {e : EngineSet} (he : h.Serves cfg s e) : h.Serves cfg t e := by
  obtain ⟨u, hu, rfl⟩ := he
  obtain ⟨v, hv, hset⟩ := hst.tests _ u hu
  have hid : v.id = u.id := (Table.find_some hv).2.trans (Table.find_some hu).2.symm
  exact ⟨v, hv, by rw [TestRow.toApi_eq hid hset]⟩

/-- What a slot holds is right for the database. -/
def Slot.Sound (G : Surroundings F) (db : Db F) (h : Host) (slot : SlotInfo) : Slot → Prop
  | .claim e => h.Serves G.routes db e
  | .play e pair => h.Serves G.routes db e ∧ db.Deals e.testId pair
  | .submit e pair body _ _ => h.Serves G.routes db e ∧ db.Deals e.testId pair ∧
      ∃ nonce, playedBody G.fastchess h slot e pair nonce = .ok body
  | _ => True

structure Client.Sound (G : Surroundings F) (db : Db F) (c : Client) : Prop where
  clientId : Json.IsInt64 c.host.clientId
  engines : ∀ e, c.shared.engines = some e → c.host.Serves G.routes db e
  building : ∀ t candidateBuilt, c.poller = .build t candidateBuilt →
    ∃ row, db.tests.find t.testId = some row ∧ t = row.toApi G.routes
  slots : ∀ s ∈ c.slots, s.2.Sound G db c.host s.1

omit [LinearOrder F] in
theorem Slot.Sound.extends {s t : Db F} (hst : s.Extends t) {h : Host} {slot : SlotInfo} {at_ : Slot}
    (hs : at_.Sound G s h slot) : at_.Sound G t h slot := by
  cases at_ with
  | claim e => exact hst.serves hs
  | play e pair => exact ⟨hst.serves hs.1, hst.deals hs.2⟩
  | submit e pair body deadline attempts => exact ⟨hst.serves hs.1, hst.deals hs.2.1, hs.2.2⟩
  | _ => trivial

omit [LinearOrder F] in
theorem Client.Sound.extends {s t : Db F} (hst : s.Extends t) {c : Client} (hc : c.Sound G s) :
    c.Sound G t := by
  refine ⟨hc.clientId, fun e he => hst.serves (hc.engines e he), fun t' b hb => ?_,
    fun x hx => (hc.slots x hx).extends hst⟩
  obtain ⟨u, hu, rfl⟩ := hc.building t' b hb
  obtain ⟨v, hv, hset⟩ := hst.tests _ u hu
  have hid : v.id = u.id := (Table.find_some hv).2.trans (Table.find_some hu).2.symm
  exact ⟨v, hv, (TestRow.toApi_eq hid hset).symm⟩

omit [LinearOrder F] in
/-- The running test arrives as it is. -/
theorem activeTest_told {w : Wire F} {inp : Input} {t : Api.ActiveTest}
    (hcol : w.server.db.Columns) (hn : w.server.db.TestsAll TestRow.Narrow)
    (h : Api.activeTest (askActiveTest G w inp) = .ok (some t)) :
    ∃ row, w.server.db.tests.find t.testId = some row ∧ t = row.toApi G.routes := by
  unfold askActiveTest at h
  split at h
  next => cases h
  next =>
    have hsend : ∀ row, w.server.db.runningTest = some row → row.Sendable := fun row hrow =>
      TestRow.sendable (Db.runningTest_eq_some hrow).1 hcol hn
    rw [Api.activeTest_response hsend] at h
    obtain ⟨row, hrow, rfl⟩ := Option.map_eq_some_iff.mp (Except.ok.inj h)
    exact ⟨row, Table.find_of_mem (Db.runningTest_eq_some hrow).1, rfl⟩

/-- A pair that arrives is one of the test that is named with it. -/
theorem claim_told {w : Wire F} {inp : Input} {clientId : Int} {r : Api.ClaimResult}
    {pair : Api.ClaimedPair}
    (hcol : (exchange G w inp (Routes.claimCall (Api.claimBody clientId 1))).1.server.db.Columns)
    (h : Api.claim (exchange G w inp (Routes.claimCall (Api.claimBody clientId 1))).2 = .ok r)
    (hp : pair ∈ r.pairs) :
    (exchange G w inp (Routes.claimCall (Api.claimBody clientId 1))).1.server.db.Deals r.testId
      pair := by
  have hheard := exchange_heard G w inp (Routes.claimCall (Api.claimBody clientId 1))
  have hcall : Routes.claimCall (Api.claimBody clientId 1) =
      .ok (.claim (Json.toInt64 clientId) 1) := rfl
  rw [hcall] at hheard h hcol ⊢
  generalize (exchange G w inp (.ok (.claim (Json.toInt64 clientId) 1))).1 = w' at hheard hcol ⊢
  generalize (exchange G w inp (.ok (.claim (Json.toInt64 clientId) 1))).2 = answer at hheard h
  cases hheard with
  | nothing => cases h
  | refused what hwhat => cases hwhat
  | failed => cases h
  | answered c reply hc hreply =>
    cases hc
    obtain ⟨told, rfl, hdeals⟩ := Server.reply_claim rfl hreply
    have hsend : ∀ q ∈ told.pairs, q.Sendable := by
      intro q hq
      obtain ⟨t, p, op, ht, hp, htest, hop, hseq, -⟩ := hdeals q hq
      refine ⟨hcol.pairs _ p hp, ?_⟩
      change Json.IsInt32 q.toApi.positionSeq
      rw [hseq]
      exact hcol.positions _ op hop
    obtain ⟨status, testId, pairs⟩ := told
    cases pairs with
    | nil =>
      cases status with
      | ok => cases h; cases hp
      | unknownClient => cases h
      | banned => cases h; cases hp
      | noActiveTest => cases h; cases hp
    | cons q qs =>
      obtain ⟨t, -, -, ht, -⟩ := hdeals q List.mem_cons_self
      change Api.claim (some (Routes.claimResponse _ _)) = _ at h
      rw [Api.claim_response (hcol.tests testId t ht) hsend] at h
      cases status with
      | ok =>
        cases h
        obtain ⟨x, hx, rfl⟩ := List.mem_map.mp hp
        exact hdeals x hx
      | unknownClient => cases h
      | banned => cases h; cases hp
      | noActiveTest => cases h; cases hp

theorem PollMove.sound {w w' : Wire F} {c c' : Client} {inp : Input}
    (h : PollMove G w c inp w' c') (hc : c.Sound G w'.server.db) (hcol : w'.server.db.Columns)
    (hn : w'.server.db.TestsAll TestRow.Narrow) : c'.Sound G w'.server.db := by
  obtain ⟨hid, heng, hbuild, hslots⟩ := hc
  cases h with
  | gone => exact ⟨hid, heng, hbuild, hslots⟩
  | noTest => exact ⟨hid, by simp, by simp, hslots⟩
  | newTest t _ ht =>
    refine ⟨hid, by simp, fun t' b hb => ?_, hslots⟩
    cases hb
    exact activeTest_told hcol hn ht
  | candidate t hat =>
    refine ⟨hid, heng, fun t' b hb => ?_, hslots⟩
    cases hb
    exact hbuild t false hat
  | ready t hat =>
    refine ⟨hid, fun e he => ?_, by simp, hslots⟩
    cases he
    obtain ⟨row, hrow, rfl⟩ := hbuild t true hat
    exact ⟨row, hrow, rfl⟩
  | _ => exact ⟨hid, heng, by simp, hslots⟩

theorem SlotMove.sound {w : Wire F} {h : Host} {sh sh' : ClientState} {slot : SlotInfo} {inp : Input}
    {at_ next : Slot} {w' : Wire F} (hm : SlotMove G w h sh slot inp at_ (w', sh', some next))
    (heng : ∀ e, sh.engines = some e → h.Serves G.routes w'.server.db e) (hs : at_.Sound G w'.server.db h slot)
    (hcol : w'.server.db.Columns) : next.Sound G w'.server.db h slot ∧ sh'.engines = sh.engines := by
  cases hm with
  | asks e _ he => exact ⟨heng e he, rfl⟩
  | dealt e r pair hr hp htest => exact ⟨⟨hs, htest ▸ claim_told hcol hr hp⟩, rfl⟩
  | played e pair body hbody => exact ⟨⟨hs.1, hs.2, _, hbody⟩, rfl⟩
  | again => exact ⟨hs, rfl⟩
  | insists => exact ⟨hs, rfl⟩
  | told _ _ _ _ _ _ hsh =>
    refine ⟨trivial, ?_⟩
    rcases hsh with rfl | rfl
    · unfold ClientState.done; dsimp only; split <;> rfl
    · unfold ClientState.done; dsimp only; split <;> rfl
  | _ => exact ⟨trivial, rfl⟩

theorem ClientMove.sound {w w' : Wire F} {c c' : Client} {k : Nat} {inp : Input}
    (h : ClientMove G w c k inp w' c') (hc : c.Sound G w'.server.db) (hcol : w'.server.db.Columns) :
    c'.Sound G w'.server.db := by
  cases h with
  | nobody => exact hc
  | went slot at_ next w' sh hk hm =>
    have hat := hc.slots _ (List.mem_of_getElem? hk)
    obtain ⟨hnext, heng⟩ := hm.sound hc.engines hat hcol
    refine ⟨hc.clientId, fun e he => hc.engines e (heng ▸ he), hc.building, fun x hx => ?_⟩
    rcases List.mem_or_eq_of_mem_set hx with hx | rfl
    · exact hc.slots x hx
    · exact hnext
  | died slot at_ w' sh hk hm =>
    have heng : sh = c.shared := by
      cases hm
      rfl
    subst heng
    refine ⟨hc.clientId, hc.engines, fun _ _ hb => Poller.noConfusion hb, fun x hx => ?_⟩
    obtain ⟨y, -, rfl⟩ := List.mem_map.mp hx
    trivial

theorem Api.registerClient_int64 {answer : Option Response} {id : Int}
    (h : Api.registerClient answer = .ok id) : Json.IsInt64 id := by
  have hwrap : ∀ n : Int, Json.IsInt64 (Json.toInt64 n) := by
    intro n
    unfold Json.IsInt64 Json.toInt64
    rw [Int.bmod_def]
    split <;> omega
  obtain ⟨r, -, h⟩ := bind_eq_ok.mp h
  split at h
  next => cases h
  next =>
    obtain ⟨v, -, h⟩ := bind_eq_ok.mp h
    cases v <;> cases h
    · exact hwrap _
    · exact hwrap _

def Client.slotInfos (c : Client) : List SlotInfo := c.slots.map (·.1)

/-- A report of a pair is what a client made of a run of the harness in one of its slots, with the
engines and the conditions of the test of the pair, from the position of the pair. -/
def Network.Played (G : Surroundings F) (W : Network F) (pairId testId : Int)
    (report : RoutedReport) : Prop :=
  ∃ c ∈ W.clients, ∃ slot ∈ c.slotInfos, ∃ t p op,
    W.server.db.tests.find testId = some t ∧ W.server.db.jobPairs.find pairId = some p ∧
    p.testId = testId ∧ W.server.db.positions.find p.positionId = some op ∧
    report.clientId = c.host.clientId ∧
    ∃ nonce body, playedBody G.fastchess c.host slot (c.host.engineSet (t.toApi G.routes))
        ⟨pairId, op.seq, op.fen⟩ nonce = .ok body ∧ resultReport body = .ok report

/-- The game is one of such a report. -/
def Network.PlayedGame (G : Surroundings F) (W : Network F) (g : GameRow) : Prop :=
  ∃ report, W.Played G g.pairId g.testId report ∧
    ∃ i : Fin 2, g = gameRow G.env g.pairId g.testId report.toPairReport i

/-- What a call brings, if it brings a result, was played. -/
def Network.Backed (G : Surroundings F) (W : Network F) (c : Call) : Prop :=
  ∀ i report, c = .submit i report → ∃ testId, W.Played G i testId report

theorem resultReport_clientId {clientId : Int} {pgn note : String} {slot : SlotInfo} {tc : EffectiveTc}
    {cpuFactor : Double} {body : Json} {report : RoutedReport} (hid : Json.IsInt64 clientId)
    (hbody : makeResultBody clientId pgn note slot tc cpuFactor = .ok body)
    (h : resultReport body = .ok report) : report.clientId = clientId := by
  rw [makeResultBody_eq] at hbody
  obtain ⟨parsed, -, hbody⟩ := bind_eq_ok.mp hbody
  cases hbody
  unfold bodyOf at h
  rw [resultReport_body] at h
  obtain ⟨a, -, h⟩ := bind_eq_ok.mp h
  obtain ⟨b, -, h⟩ := bind_eq_ok.mp h
  rw [← Json.toInt64_eq_self hid]
  unfold placeGames at h
  split at h
  next => cases h; rfl
  next =>
    split at h
    next => cases h; rfl
    next => cases h

omit [LinearOrder F] in
/-- What was played stays so while the clients only change what they do. -/
theorem Network.Played.mono {W W' : Network F} {pairId testId : Int} {report : RoutedReport}
    (h : W.Played G pairId testId report) (hdb : W.server.db.Extends W'.server.db)
    (hclients : ∀ c ∈ W.clients, ∃ c' ∈ W'.clients, c'.host = c.host ∧ c'.slotInfos = c.slotInfos) :
    W'.Played G pairId testId report := by
  obtain ⟨c, hc, slot, hslot, t, p, op, ht, hp, htest, hop, hid, nonce, body, hplay, hrep⟩ := h
  obtain ⟨c', hc', hhost, hslots⟩ := hclients c hc
  obtain ⟨u, hu, hset⟩ := hdb.tests _ t ht
  obtain ⟨q, hq, hqtest, hqpos⟩ := hdb.pairs _ p hp
  have huid : u.id = t.id := (Table.find_some hu).2.trans (Table.find_some ht).2.symm
  refine ⟨c', hc', slot, by rw [hslots]; exact hslot, u, q, op, hu, hq, hqtest.trans htest,
    by rw [hqpos]; exact hdb.positions _ op hop, by rw [hhost]; exact hid, nonce, body, ?_, hrep⟩
  rw [hhost, TestRow.toApi_eq huid hset]
  exact hplay

/-- The clients stay the same machines. -/
theorem NetworkMove.clients {W W' : Network F} (h : NetworkMove G W W') :
    ∀ c ∈ W.clients, ∃ c' ∈ W'.clients, c'.host = c.host ∧ c'.slotInfos = c.slotInfos := by
  have hset : ∀ (i : Nat) (c c' : Client) (w' : Wire F), W.clients[i]? = some c →
      c'.host = c.host → c'.slotInfos = c.slotInfos →
      ∀ x ∈ W.clients, ∃ x' ∈ (W.setClient i (w', c')).clients,
        x'.host = x.host ∧ x'.slotInfos = x.slotInfos := by
    intro i c c' w' hi hhost hslots x hx
    obtain ⟨k, hk⟩ := List.mem_iff_getElem?.mp hx
    by_cases hik : k = i
    · subst hik
      cases Option.some.inj (hi.symm.trans hk)
      obtain ⟨hlt, -⟩ := List.getElem?_eq_some_iff.mp hk
      exact ⟨c', List.mem_set hlt c', hhost, hslots⟩
    · refine ⟨x, List.mem_iff_getElem?.mpr ⟨k, ?_⟩, rfl, rfl⟩
      change (W.clients.set i c')[k]? = some x
      rw [List.getElem?_set_ne (Ne.symm hik)]
      exact hk
  cases h with
  | nothing => exact fun c hc => ⟨c, hc, rfl, rfl⟩
  | server => exact fun c hc => ⟨c, hc, rfl, rfl⟩
  | late => exact fun c hc => ⟨c, hc, rfl, rfl⟩
  | unjoined => exact fun c hc => ⟨c, hc, rfl, rfl⟩
  | joined => exact fun c hc => ⟨c, List.mem_append_left _ hc, rfl, rfl⟩
  | polled i c c' inp w' hi hm => refine hset i c c' w' hi ?_ ?_ <;> cases hm <;> rfl
  | slot i k c c' inp w' hi hm =>
    cases hm with
    | nobody => exact hset i c c _ hi rfl rfl
    | went slot at_ next _ sh hk =>
      refine hset i c _ w' hi rfl ?_
      unfold Client.slotInfos
      rw [List.map_set]
      refine List.ext_getElem? fun j => ?_
      by_cases hjk : k = j
      · subst hjk
        obtain ⟨hlt, hget⟩ := List.getElem?_eq_some_iff.mp hk
        simp [hlt, hget]
      · rw [List.getElem?_set_ne hjk]
    | died slot at_ _ sh hk =>
      refine hset i c _ w' hi rfl ?_
      simp [Client.slotInfos, Client.die]
  | signalled i c hi => exact hset i c _ _ hi rfl rfl
  | killed i c hi =>
    refine hset i c _ _ hi rfl ?_
    simp [Client.slotInfos, Client.die]

theorem NetworkMove.sound {W W' : Network F} (h : NetworkMove G W W')
    (hW : ∀ c ∈ W.clients, c.Sound G W.server.db) (hcol : W'.server.db.Columns)
    (hn : W'.server.db.TestsAll TestRow.Narrow) : ∀ c ∈ W'.clients, c.Sound G W'.server.db := by
  have hkept : ∀ c ∈ W.clients, c.Sound G W'.server.db := fun c hc =>
    (hW c hc).extends h.some_move.extends
  have hset : ∀ (i : Nat) (c c' : Client) (w' : Wire F), W.clients[i]? = some c →
      (c.Sound G w'.server.db → c'.Sound G w'.server.db) → (∀ c ∈ W.clients, c.Sound G w'.server.db) →
      ∀ x ∈ (W.setClient i (w', c')).clients, x.Sound G w'.server.db := by
    intro i c c' w' hi hc' hall x hx
    rcases List.mem_or_eq_of_mem_set hx with hx | rfl
    · exact hall x hx
    · exact hc' (hall c (List.mem_of_getElem? hi))
  cases h with
  | nothing => exact hkept
  | server => exact hkept
  | late => exact hkept
  | unjoined => exact hkept
  | joined w' answer id host slots _ hid =>
    intro c hc
    rcases List.mem_append.mp hc with hc | hc
    · exact hkept c hc
    · obtain rfl := List.mem_singleton.mp hc
      refine ⟨Api.registerClient_int64 hid, fun _ he => (by cases he),
        fun _ _ hb => Poller.noConfusion hb, fun x hx => ?_⟩
      obtain ⟨y, -, rfl⟩ := List.mem_map.mp hx
      trivial
  | polled i c c' inp w' hi hm => exact hset i c c' w' hi (fun hc => hm.sound hc hcol hn) hkept
  | slot i k c c' inp w' hi hm => exact hset i c c' w' hi (fun hc => hm.sound hc hcol) hkept
  | signalled i c hi => exact hset i c _ _ hi (fun hc => ⟨hc.1, hc.2, hc.3, hc.4⟩) hkept
  | killed i c hi =>
    refine hset i c _ _ hi (fun hc => ⟨hc.1, hc.2, fun _ _ hb => Poller.noConfusion hb,
      fun x hx => ?_⟩) hkept
    obtain ⟨y, -, rfl⟩ := List.mem_map.mp hx
    trivial

omit [LinearOrder F] in
/-- What a slot is about to send was played. -/
theorem Client.Sound.played {W : Network F} {c : Client} (hc : c ∈ W.clients)
    (hsound : c.Sound G W.server.db) {slot : SlotInfo} {e : EngineSet} {pair : Api.ClaimedPair}
    {body : Json} {deadline : ℚ} {attempts : Nat} {report : RoutedReport}
    (hin : (slot, Slot.submit e pair body deadline attempts) ∈ c.slots)
    (hrep : resultReport body = .ok report) : W.Played G pair.pairId e.testId report := by
  obtain ⟨⟨t, ht, he⟩, hdeals, nonce, hplay⟩ := hsound.slots _ hin
  obtain ⟨u, p, op, hu, hp, htest, hop, hseq, hfen⟩ := hdeals
  cases Option.some.inj (ht.symm.trans hu)
  have hid : report.clientId = c.host.clientId := resultReport_clientId hsound.clientId hplay hrep
  have hpair : pair = ⟨pair.pairId, op.seq, op.fen⟩ := by rw [← hseq, ← hfen]
  exact ⟨c, hc, slot, List.mem_map.mpr ⟨_, hin, rfl⟩, t, p, op, ht, hp, htest, hop, hid, nonce, body,
    by rw [← he, ← hpair]; exact hplay, hrep⟩

/-- The games a step of the server adds are those of the call it is. -/
theorem Server.step_newGame {E : Env F} {s : Server F} {op : Op} :
    ∀ g ∈ (s.step E op).db.games, g ∈ s.db.games ∨
      ∃ i report p, ∃ k : Fin 2, op.act = .call (.submit i report) ∧ s.db.jobPairs.find i = some p ∧
        g = gameRow E i p.testId report.toPairReport k := by
  intro g hg
  have hmove := s.step_games E op
  generalize (s.step E op).db.games = games at hmove hg
  cases hmove with
  | same => exact .inl hg
  | added i report p hacc hp =>
    rcases List.mem_append.mp hg with hg | hg
    · exact .inl hg
    · rcases List.mem_cons.mp hg with rfl | hg
      · exact .inr ⟨i, report, p, 0, hacc.1, hp, rfl⟩
      · obtain rfl := List.mem_singleton.mp hg
        exact .inr ⟨i, report, p, 1, hacc.1, hp, rfl⟩

/-- What is on its way was played, and so is what has arrived. -/
structure Network.Honest (G : Surroundings F) (W : Network F) : Prop where
  clients : ∀ c ∈ W.clients, c.Sound G W.server.db
  inFlight : ∀ c ∈ W.wire.inFlight, W.Backed G c
  games : ∀ g ∈ W.server.db.games, W.PlayedGame G g

theorem NetworkMove.honest {W W' : Network F} (h : NetworkMove G W W') (hW : W.Honest G)
    (hcol : W'.server.db.Columns) (hn : W'.server.db.TestsAll TestRow.Narrow) : W'.Honest G := by
  have hbacked : W.wire.Moved G (W.Backed G) W'.wire := by
    refine h.moved (fun c hc i report hne => absurd hne (hc i report)) ?_
    intro c hc slot e pair body deadline attempts report hin hrep i report' heq
    cases heq
    exact ⟨e.testId, (hW.clients c hc).played hc hin hrep⟩
  have hmono : ∀ i testId report, W.Played G i testId report → W'.Played G i testId report :=
    fun i testId report hp => hp.mono h.some_move.extends h.clients
  have hold : ∀ g ∈ W.server.db.games, W'.PlayedGame G g := by
    intro g hg
    obtain ⟨report, hplay, k, hk⟩ := hW.games g hg
    exact ⟨report, hmono _ _ _ hplay, k, hk⟩
  have hback : ∀ c, W.Backed G c → W'.Backed G c := by
    intro c hc i report heq
    obtain ⟨testId, hplay⟩ := hc i report heq
    exact ⟨testId, hmono i testId report hplay⟩
  have hgame : ∀ op : Op, (∀ i report, op.act = .call (.submit i report) →
      W.Backed G (.submit i report)) →
      ∀ g ∈ (W.server.step G.env op).db.games, W'.PlayedGame G g := by
    intro op hop g hg
    rcases Server.step_newGame g hg with hg | ⟨i, report, p, k, hact, hp, rfl⟩
    · exact hold g hg
    · obtain ⟨testId, hplay⟩ := hop i report hact i report rfl
      -- a pair is of one test
      obtain ⟨-, -, -, -, -, q, -, -, hq, hqtest, -⟩ := id hplay
      cases Option.some.inj (hp.symm.trans hq)
      refine ⟨report, ?_, k, rfl⟩
      change W'.Played G i p.testId report
      rw [hqtest]
      exact hmono i testId report hplay
  have hcall : ∀ c : Call, W.Backed G c → ∀ inp : Input,
      ∀ g ∈ (W.server.step G.env (inp.op c)).db.games, W'.PlayedGame G g := by
    intro c hc inp
    refine hgame _ fun i report hact => ?_
    cases Act.call.inj hact
    exact hc
  suffices hwire : (∀ c ∈ W'.wire.inFlight, W'.Backed G c) ∧
      ∀ g ∈ W'.wire.server.db.games, W'.PlayedGame G g from
    ⟨h.sound hW.clients hcol hn, hwire.1, hwire.2⟩
  generalize W'.wire = w' at hbacked
  cases hbacked with
  | nothing => exact ⟨fun c hc => hback c (hW.inFlight c hc), hold⟩
  | sent c _ hc hsent =>
    rcases hsent with rfl | ⟨inp, rfl⟩
    · refine ⟨fun d hd => ?_, hold⟩
      rcases List.mem_append.mp hd with hd | hd
      · exact hback d (hW.inFlight d hd)
      · obtain rfl := List.mem_singleton.mp hd
        exact hback d hc
    · exact ⟨fun d hd => hback d (hW.inFlight d hd), hcall c hc inp⟩
  | ran op hop =>
    refine ⟨fun d hd => hback d (hW.inFlight d hd), hgame op fun i report hact => ?_⟩
    rw [hact] at hop
    cases hop
  | late n c inp hc =>
    refine ⟨fun d hd => hback d (hW.inFlight d (List.mem_of_mem_eraseIdx hd)), hcall c ?_ inp⟩
    exact hW.inFlight c (List.mem_of_getElem? hc)

theorem run_honest (G : Surroundings F) (events : List NetworkEvent)
    (hcol : (Network.run G events).server.db.Columns) : (Network.run G events).Honest G := by
  have hrun : (∃ ops, (Network.run G events).server = Server.run G.env ops) ∧
      ((Network.run G events).server.db.Columns → (Network.run G events).Honest G) := by
    refine Network.run_induction (I := fun W => (∃ ops, W.server = Server.run G.env ops) ∧
      (W.server.db.Columns → W.Honest G)) ⟨⟨[], rfl⟩, fun _ => ⟨?_, ?_, ?_⟩⟩ ?_ events
    · exact fun c hc => absurd hc List.not_mem_nil
    · exact fun c hc => absurd hc List.not_mem_nil
    · exact fun g hg => absurd hg List.not_mem_nil
    · rintro W W' ⟨hreach, hW⟩ hm
      obtain ⟨ops, hops⟩ := hm.some_move.reached hreach
      refine ⟨⟨ops, hops⟩, fun hcol' => ?_⟩
      have hcol := hm.some_move.extends.columns hcol'
      exact hm.honest (hW hcol) hcol' (by rw [Network.server, hops]; exact run_narrow G.env ops)
  exact hrun.2 hcol

/-- Every game was played by a client with the engines and the conditions of the test of its pair,
from the position of its pair, and is what the client made of that. -/
theorem games_of_own_engines (G : Surroundings F) (events : List NetworkEvent)
    (hcol : (Network.run G events).server.db.Columns) :
    ∀ g ∈ (Network.run G events).server.db.games, (Network.run G events).PlayedGame G g :=
  (run_honest G events hcol).games

omit [LinearOrder F] in
theorem Db.Columns.of_rows {db : Db F} (ht : ∀ t ∈ db.tests.rows, -2 ^ 63 ≤ t.id ∧ t.id < 2 ^ 63)
    (hp : ∀ p ∈ db.jobPairs.rows, -2 ^ 63 ≤ p.id ∧ p.id < 2 ^ 63)
    (hop : ∀ op ∈ db.positions.rows, op.seq < 2 ^ 31) : db.Columns := by
  refine ⟨fun i t h => ?_, fun i p h => ?_, fun i op h => ⟨by omega, ?_⟩⟩
  · obtain ⟨hmem, rfl⟩ := Table.find_some h
    exact ht t hmem
  · obtain ⟨hmem, rfl⟩ := Table.find_some h
    exact hp p hmem
  · have := hop op (Table.find_some h).1
    omega

theorem games_of_own_engines_first :
    (Network.run quietSurroundings firstPair).server.db.games.length = 2 ∧
      ∀ g ∈ (Network.run quietSurroundings firstPair).server.db.games,
        (Network.run quietSurroundings firstPair).PlayedGame quietSurroundings g :=
  ⟨by decide +kernel, games_of_own_engines quietSurroundings firstPair
    (.of_rows (by decide +kernel) (by decide +kernel) (by decide +kernel))⟩

end CapiNet
