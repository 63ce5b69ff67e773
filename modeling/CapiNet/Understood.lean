import CapiNet.AcceptedResult
import CapiNet.OwnEngines
import CapiNet.PermanentBan

namespace CapiNet

open Txn Relational

variable {F : Type} [LinearOrder F]

/-- An answer is that of an execution that ends as the script ensures. -/
theorem Server.reply_ensured {E : Env F} {s : Server F} {op : Op} {c : Call} {r : Reply}
    (hc : s.callOf op.act = some c) (hr : s.reply E op = some (.ok r))
    {Q : Finish Reply → Db F → Prop} (hQ : Script.Ensures op.skip (c.program E op.now) s.db Q) :
    Q (.commit r) (s.step E op).db ∨ ∃ db', Q (.rollback r) db' := by
  have hdb : (s.step E op).db = (c.atomically E op.now op.skip s.db).2 := by
    simp [Server.step, hc]
  have hreply : (c.atomically E op.now op.skip s.db).1 = .ok r := by
    simpa [Server.reply, hc] using hr
  have hended : Script.Ended Q s.db (c.atomically E op.now op.skip s.db).1
      (c.atomically E op.now op.skip s.db).2 := hQ.ended
  rw [hdb]
  rw [hreply] at hended
  generalize (c.atomically E op.now op.skip s.db).2 = db' at hended
  cases hended with
  | undone _ db' h => exact .inr ⟨db', h⟩
  | committed _ _ h => exact .inl h

variable {E : Env F} {s : Server F} {op : Op}

/-- A client that registers is known by the name it is given. -/
theorem Server.reply_register {reg : ClientRegistration} {r : Reply}
    (hact : op.act = .call (.register reg)) (hr : s.reply E op = some (.ok r)) :
    ∃ c, r = .registered c ∧ (s.step E op).db.Knows c.clientId := by
  have hcall : s.callOf op.act = some (.register reg) := by rw [hact]; rfl
  have hends : Script.Ensures op.skip ((Call.register reg).program E op.now) s.db fun fin db' =>
      ∃ c, fin = .commit (.registered c) ∧ db'.Knows c.clientId := by
    refine Script.Ensures.map ?_
    simp only [registerClient, Script.ensures_bind, Script.ensures_update, Script.ensures_select]
    split
    next => simp
    next c hc =>
      exact Script.ensures_pure.mpr ⟨_, rfl, c, Table.find_of_mem (List.mem_of_find?_eq_some hc)⟩
  rcases Server.reply_ensured hcall hr hends with ⟨c, hc, hknows⟩ | ⟨_, c, hc, -⟩
  · cases hc
    exact ⟨c, rfl, hknows⟩
  · cases hc

theorem Server.reply_heartbeat {clientId : Int} {f : Option Double} {r : Reply}
    (hknown : s.db.Knows clientId) (hact : op.act = .call (.heartbeat clientId f))
    (hr : s.reply E op = some (.ok r)) : ∃ banned, r = .heartbeat (some banned) := by
  obtain ⟨c, hc⟩ := hknown
  have hcall : s.callOf op.act = some (.heartbeat clientId f) := by rw [hact]; rfl
  have hends : Script.Ensures op.skip ((Call.heartbeat clientId f).program E op.now) s.db
      fun fin _ => ∃ banned, fin = .commit (.heartbeat (some banned)) := by
    refine Script.Ensures.map ?_
    simp only [heartbeat, Script.ensures_bind, Script.ensures_update, Script.ensures_select,
      Script.ensures_pure, Table.find_modify, hc]
    exact ⟨_, rfl⟩
  rcases Server.reply_ensured hcall hr hends with ⟨banned, hb⟩ | ⟨_, banned, hb⟩
  · cases hb
    exact ⟨banned, rfl⟩
  · cases hb

theorem Server.reply_claim_known {clientId slotsFree : Int} {r : ClaimResult}
    (hknown : s.db.Knows clientId) (hact : op.act = .call (.claim clientId slotsFree))
    (hr : s.reply E op = some (.ok (.claim r))) :
    r.status ≠ .unknownClient ∧ (s.db.Columns → (s.step E op).db.Columns) := by
  obtain ⟨c, hc⟩ := hknown
  have hcall : s.callOf op.act = some (.claim clientId slotsFree) := by rw [hact]; rfl
  have hdiagnose : ∀ db : Db F, db.clients = s.db.clients → (s.db.Columns → db.Columns) →
      Script.Ensures op.skip (diagnoseClaim clientId) db fun fin db' =>
        ∃ r : ClaimResult, fin = .commit r ∧ r.status ≠ .unknownClient ∧
          (s.db.Columns → db'.Columns) := by
    intro db hclients hcol
    simp only [diagnoseClaim, Script.ensures_bind, Script.ensures_select, hclients, hc]
    split
    next => exact Script.ensures_pure.mpr ⟨_, rfl, by simp, hcol⟩
    next =>
      split
      next => exact Script.ensures_pure.mpr ⟨_, rfl, by simp, hcol⟩
      next => exact Script.ensures_pure.mpr ⟨_, rfl, by simp, hcol⟩
  have hends : Script.Ensures op.skip ((Call.claim clientId slotsFree).program E op.now) s.db
      fun fin db' => ∃ r : ClaimResult, fin = .commit (.claim r) ∧ r.status ≠ .unknownClient ∧
        (s.db.Columns → db'.Columns) := by
    refine Script.Ensures.map ?_
    simp only [claimPairs, Script.ensures_bind, Script.ensures_select]
    split
    next a client heq =>
      have hlease : ∀ (picked : List Int) (until_ : ℚ), s.db.Columns →
          (s.db.updatePairs (fun p => decide (p.id ∈ picked)) (.lease clientId op.now until_)
            (PairRow.lease_id clientId op.now until_)).Columns := by
        intro picked until_ hcol
        refine ⟨hcol.tests, fun i p hp => ?_, hcol.positions⟩
        rw [Db.find_updatePairs] at hp
        obtain ⟨q, hq, -⟩ := Option.map_eq_some_iff.mp hp
        exact hcol.pairs i q hq
      simp only [Script.ensures_bind, Script.ensures_pick, Script.ensures_update,
        Script.ensures_select]
      split
      next =>
        refine (hdiagnose (s.db.updatePairs _ _ _) rfl (hlease _ _)).mono ?_
        rintro fin db' ⟨r, rfl, h⟩
        exact ⟨r, rfl, h⟩
      next => exact Script.ensures_pure.mpr ⟨_, rfl, by simp, hlease _ _⟩
    next =>
      refine (hdiagnose _ rfl id).mono ?_
      rintro fin db' ⟨r, rfl, h⟩
      exact ⟨r, rfl, h⟩
  rcases Server.reply_ensured hcall hr hends with ⟨r, hr, h⟩ | ⟨_, r, hr, -⟩
  · cases hr
    exact h
  · cases hr

/-- A result of a known client for a pair that is there gets a verdict. -/
theorem Server.reply_submit_known {pairId : Int} {report : RoutedReport} {r : Reply}
    (hknown : s.db.Knows report.clientId)
    (hpair : ∃ p t, s.db.jobPairs.find pairId = some p ∧ s.db.tests.find p.testId = some t)
    (hact : op.act = .call (.submit pairId report)) (hr : s.reply E op = some (.ok r)) :
    ∃ told : SubmitResult, r = .submit told ∧ told.status ≠ .pairNotFound ∧
      told.status ≠ .unknownClient := by
  obtain ⟨c, hc⟩ := hknown
  obtain ⟨p, t, hp, ht⟩ := hpair
  have hguard : s.db.guard pairId report.clientId = some ⟨t.status, some c.status⟩ := by
    simp [Db.guard, hp, ht, hc]
  have hcall : s.callOf op.act = some (.submit pairId report) := by rw [hact]; rfl
  have hends : Script.Ensures op.skip ((Call.submit pairId report).program E op.now) s.db
      fun fin _ => ∃ told : SubmitResult, (fin = .commit (.submit told) ∨
        fin = .rollback (.submit told)) ∧ told.status ≠ .pairNotFound ∧
        told.status ≠ .unknownClient := by
    refine Script.Ensures.map (ensures_submitResult.mono ?_)
    intro fin db' h
    cases h with
    | unknown _ hnone =>
      rw [hguard] at hnone
      cases hnone
    | refused q g status _ _ hg hrefuse =>
      cases Option.some.inj (hguard.symm.trans hg)
      refine ⟨_, .inr rfl, ?_⟩
      have hsome : ¬some c.status = none := by simp
      unfold refusal at hrefuse
      dsimp only at hrefuse
      rw [if_neg hsome] at hrefuse
      split_ifs at hrefuse <;> cases hrefuse <;> exact ⟨by simp, by simp⟩
    | accepted => exact ⟨_, .inl rfl, by simp⟩
  rcases Server.reply_ensured hcall hr hends with ⟨told, h | h, hstatus⟩ |
    ⟨_, told, h | h, hstatus⟩
  · cases h
    exact ⟨told, rfl, hstatus⟩
  · cases h
  · cases h
  · cases h
    exact ⟨told, rfl, hstatus⟩

variable {G : Surroundings F}

theorem Wire.Moved.knows {may : Call → Prop} {w w' : Wire F} (h : w.Moved G may w')
    {clientId : Int} (hw : w.server.db.Knows clientId) : w'.server.db.Knows clientId := by
  rcases h.server with hs | ⟨op, hs⟩
  · rw [hs]
    exact hw
  · rw [hs]
    exact w.server.step_knows G.env op hw

theorem PollMove.host {w w' : Wire F} {c c' : Client} {inp : Input}
    (h : PollMove G w c inp w' c') : c'.host = c.host := by
  cases h <;> rfl

theorem ClientMove.host {w w' : Wire F} {c c' : Client} {k : Nat} {inp : Input}
    (h : ClientMove G w c k inp w' c') : c'.host = c.host := by
  cases h <;> rfl

/-- Every client has a row. -/
def Network.Registered (W : Network F) : Prop := ∀ c ∈ W.clients, W.server.db.Knows c.host.clientId

/-- The identities of clients are `BIGINT`s. -/
def Db.ClientIds (db : Db F) : Prop := ∀ i, db.Knows i → Json.IsInt64 i

omit [LinearOrder F] in
theorem Db.ClientIds.of_rows {db : Db F}
    (h : ∀ c ∈ db.clients.rows, -2 ^ 63 ≤ c.id ∧ c.id < 2 ^ 63) : db.ClientIds := by
  rintro i ⟨c, hc⟩
  obtain ⟨hmem, rfl⟩ := Table.find_some hc
  exact h c hmem

/-- The identity a client is given is one the server knows. -/
theorem join_knows {w : Wire F} {inp : Input} {reg : ClientRegistration} {id : Int}
    (hids : (exchange G w inp (.ok (.register reg))).1.server.db.ClientIds)
    (h : Api.registerClient (exchange G w inp (.ok (.register reg))).2 = .ok id) :
    (exchange G w inp (.ok (.register reg))).1.server.db.Knows id := by
  have hheard := exchange_heard G w inp (.ok (.register reg))
  generalize (exchange G w inp (.ok (.register reg))).1 = w' at hheard hids ⊢
  generalize (exchange G w inp (.ok (.register reg))).2 = answer at hheard h
  cases hheard with
  | nothing => cases h
  | refused what hwhat => cases hwhat
  | failed => cases h
  | answered c r hc hr =>
    cases hc
    obtain ⟨told, rfl, hknows⟩ := Server.reply_register rfl hr
    obtain ⟨clientId, banned⟩ := told
    have hid : Json.toInt64 clientId = clientId := Json.toInt64_eq_self (hids clientId hknows)
    cases banned with
    | true => cases h
    | false =>
      cases h
      change Db.Knows _ (Json.toInt64 clientId)
      rw [hid]
      exact hknows

theorem Network.Registered.step {W : Network F} (hW : W.Registered) (e : NetworkEvent)
    (hids : (W.step G e).server.db.ClientIds) : (W.step G e).Registered := by
  have hmove := W.step_move G e
  have hkept : ∀ c ∈ W.clients, (W.step G e).server.db.Knows c.host.clientId :=
    fun c hc => hmove.some_move.knows (hW c hc)
  have hset : ∀ (i : Nat) (c c' : Client) (clients : List Client), W.clients[i]? = some c →
      c'.host = c.host → clients = W.clients.set i c' →
      ∀ x ∈ clients, (W.step G e).server.db.Knows x.host.clientId := by
    rintro i c c' clients hi hhost rfl x hx
    rcases List.mem_or_eq_of_mem_set hx with hx | rfl
    · exact hkept x hx
    · rw [hhost]
      exact hkept c (List.mem_of_getElem? hi)
  unfold Network.Registered
  cases e with
  | server op =>
    have hsame : (W.step G (.server op)).clients = W.clients := by
      dsimp only [Network.step]
      split <;> rfl
    rw [hsame]
    exact hkept
  | late n inp =>
    have hsame : (W.step G (.late n inp)).clients = W.clients := by
      dsimp only [Network.step]
      split <;> rfl
    rw [hsame]
    exact hkept
  | join inp reg h slots =>
    dsimp only [Network.step] at hids hkept ⊢
    cases hid : Api.registerClient (exchange G W.wire inp (.ok (.register reg))).2 with
    | ok id =>
      rw [hid] at hids hkept
      intro c hc
      rcases List.mem_append.mp hc with hc | hc
      · exact hkept c hc
      · obtain rfl := List.mem_singleton.mp hc
        exact join_knows hids hid
    | error what =>
      rw [hid] at hkept
      exact hkept
  | poll i inp =>
    cases hi : W.clients[i]? with
    | none => simpa [Network.step, hi] using hkept
    | some c =>
      exact hset i c (c.poll G W.wire inp).2 _ hi (c.poll_move G W.wire inp).host
        (by simp [Network.step, hi, Network.setClient])
  | slot i k inp =>
    cases hi : W.clients[i]? with
    | none => simpa [Network.step, hi] using hkept
    | some c =>
      exact hset i c (c.slot G W.wire k inp).2 _ hi (c.slot_move G W.wire k inp).host
        (by simp [Network.step, hi, Network.setClient])
  | signal i =>
    cases hi : W.clients[i]? with
    | none => simpa [Network.step, hi] using hkept
    | some c =>
      exact hset i c { c with shared := c.shared.requestStop } _ hi rfl
        (by simp [Network.step, hi, Network.setClient])
  | kill i =>
    cases hi : W.clients[i]? with
    | none => simpa [Network.step, hi] using hkept
    | some c => exact hset i c c.die _ hi rfl (by simp [Network.step, hi, Network.setClient])

theorem run_registered (G : Surroundings F) (events : List NetworkEvent)
    (hids : (Network.run G events).server.db.ClientIds) : (Network.run G events).Registered := by
  induction events using List.reverseRecOn with
  | nil => exact fun c hc => absurd hc List.not_mem_nil
  | append_singleton events e ih =>
    have hrun : Network.run G (events ++ [e]) = (Network.run G events).step G e := by
      simp [Network.run]
    rw [hrun] at hids ⊢
    -- who is known stays known, so the identities were in range before
    refine (ih fun i hi => hids i ?_).step e hids
    exact ((Network.run G events).step_move G e).some_move.knows hi

/-- The route refuses the body of a result, and if the slot's own numbers are in range, for a number
in the file its pair left. -/
def RefusedResult (G : Surroundings F) (h : Host) (slot : SlotInfo) (e : EngineSet)
    (pair : Api.ClaimedPair) (body : Json) : Prop :=
  (∃ what, resultReport body = .error what) ∧
    ∃ nonce, playedBody G.fastchess h slot e pair nonce = .ok body ∧
      (SlotSettings h.clientId slot (e.effectiveTc h.cpuFactor) h.cpuFactor →
        ¬NumbersFit (G.fastchess (pairArgs h slot e pair) (pair.fen ++ "\n") nonce).pgn)

/-- None of the answers a client can get is a protocol error: to its heartbeat, to its question for
the running test, to its claim, and to a result it holds unless the route refuses its body. -/
structure Client.Understands (G : Surroundings F) (w : Wire F) (c : Client) (inp : Input) : Prop where
  heartbeat : 0 < c.host.cpuFactor.val → Api.heartbeat (exchange G w inp
    (Routes.heartbeatCall c.host.clientId (Api.heartbeatBody c.host.cpuFactor))).2 ≠ .error .protocol
  activeTest : Api.activeTest (askActiveTest G w inp) ≠ .error .protocol
  claim : Api.claim (exchange G w inp
    (Routes.claimCall (Api.claimBody c.host.clientId 1))).2 ≠ .error .protocol
  result : ∀ slot e pair body deadline attempts,
    (slot, Slot.submit e pair body deadline attempts) ∈ c.slots →
    Api.submit (exchange G w inp (Routes.resultCall pair.pairId body)).2 = .error .protocol →
    RefusedResult G c.host slot e pair body

variable {w : Wire F} {inp : Input}

theorem heartbeat_understood {clientId : Int} {cpuFactor : Double}
    (hknown : w.server.db.Knows clientId) (hf : 0 < cpuFactor.val) :
    Api.heartbeat (exchange G w inp
      (Routes.heartbeatCall clientId (Api.heartbeatBody cpuFactor))).2 ≠ .error .protocol := by
  have hcall : Routes.heartbeatCall clientId (Api.heartbeatBody cpuFactor) =
      .ok (.heartbeat clientId (some cpuFactor)) := by
    have hread : Routes.heartbeatCall clientId (Api.heartbeatBody cpuFactor) =
        if decide ¬0 < cpuFactor.val then .error "cpu_factor must be positive"
        else .ok (.heartbeat clientId (some cpuFactor)) := rfl
    rw [hread, if_neg (by simpa using hf)]
  have hheard := exchange_heard G w inp (Routes.heartbeatCall clientId (Api.heartbeatBody cpuFactor))
  rw [hcall] at hheard ⊢
  generalize (exchange G w inp (.ok (.heartbeat clientId (some cpuFactor)))).1 = w' at hheard
  generalize (exchange G w inp (.ok (.heartbeat clientId (some cpuFactor)))).2 = answer at hheard ⊢
  cases hheard with
  | nothing => exact nofun
  | refused what hwhat => cases hwhat
  | failed => exact nofun
  | answered c r hc hr =>
    cases hc
    obtain ⟨banned, rfl⟩ := Server.reply_heartbeat hknown rfl hr
    exact nofun

theorem claim_understood {clientId : Int} (hid : Json.IsInt64 clientId)
    (hknown : w.server.db.Knows clientId) (hcol : w.server.db.Columns) :
    Api.claim (exchange G w inp (Routes.claimCall (Api.claimBody clientId 1))).2 ≠
      .error .protocol := by
  have hcall : Routes.claimCall (Api.claimBody clientId 1) = .ok (.claim clientId 1) := by
    have hread : Routes.claimCall (Api.claimBody clientId 1) =
        .ok (.claim (Json.toInt64 clientId) 1) := rfl
    rw [hread, Json.toInt64_eq_self hid]
  have hheard := exchange_heard G w inp (Routes.claimCall (Api.claimBody clientId 1))
  rw [hcall] at hheard ⊢
  generalize (exchange G w inp (.ok (.claim clientId 1))).1 = w' at hheard
  generalize (exchange G w inp (.ok (.claim clientId 1))).2 = answer at hheard ⊢
  cases hheard with
  | nothing => exact nofun
  | refused what hwhat => cases hwhat
  | failed => exact nofun
  | answered c r hc hr =>
    cases hc
    obtain ⟨told, rfl, hdeals⟩ := Server.reply_claim rfl hr
    obtain ⟨hstatus, hkept⟩ := Server.reply_claim_known hknown rfl hr
    have hafter := hkept hcol
    have hsend : ∀ q ∈ told.pairs, q.Sendable := by
      intro q hq
      obtain ⟨t, p, op, ht, hp, htest, hop, hseq, -⟩ := hdeals q hq
      refine ⟨hafter.pairs _ p hp, ?_⟩
      change Json.IsInt32 q.toApi.positionSeq
      rw [hseq]
      exact hafter.positions _ op hop
    change Api.claim (some (Routes.claimResponse G.routes told)) ≠ _
    obtain ⟨status, testId, pairs⟩ := told
    cases status with
    | unknownClient => exact absurd rfl hstatus
    | banned => exact nofun
    | noActiveTest => exact nofun
    | ok =>
      cases pairs with
      | nil => exact nofun
      | cons q qs =>
        obtain ⟨t, -, -, ht, -⟩ := hdeals q List.mem_cons_self
        rw [Api.claim_response (hafter.tests testId t ht) hsend]
        exact nofun

theorem result_understood {pairId : Int} {body : Json} {report : RoutedReport}
    (hreport : resultReport body = .ok report) (hknown : w.server.db.Knows report.clientId)
    (hpair : ∃ p t, w.server.db.jobPairs.find pairId = some p ∧
      w.server.db.tests.find p.testId = some t) :
    Api.submit (exchange G w inp (Routes.resultCall pairId body)).2 ≠ .error .protocol := by
  have hcall : Routes.resultCall pairId body = .ok (.submit pairId report) := by
    rw [Routes.resultCall, hreport]
    rfl
  have hheard := exchange_heard G w inp (Routes.resultCall pairId body)
  rw [hcall] at hheard ⊢
  generalize (exchange G w inp (.ok (.submit pairId report))).1 = w' at hheard
  generalize (exchange G w inp (.ok (.submit pairId report))).2 = answer at hheard ⊢
  cases hheard with
  | nothing => exact nofun
  | refused what hwhat => cases hwhat
  | failed => exact nofun
  | answered c r hc hr =>
    cases hc
    obtain ⟨told, rfl, hthere, hclient⟩ := Server.reply_submit_known hknown hpair rfl hr
    change Api.submit (some (Routes.submitResponse told)) ≠ _
    rw [Api.submit_response]
    obtain ⟨status, valid⟩ := told
    cases status with
    | pairNotFound => exact absurd rfl hthere
    | unknownClient => exact absurd rfl hclient
    | _ => exact nofun

omit [LinearOrder F] in
theorem activeTest_understood (hcol : w.server.db.Columns)
    (hn : w.server.db.TestsAll TestRow.Narrow) :
    Api.activeTest (askActiveTest G w inp) ≠ .error .protocol := by
  unfold askActiveTest
  split
  next => exact nofun
  next =>
    rw [Api.activeTest_response fun row hrow =>
      TestRow.sendable (Db.runningTest_eq_some hrow).1 hcol hn]
    exact nofun

/-- In every run, whatever a client that has joined sends next, the answer that arrives, if one
does, is no protocol error. -/
theorem answers_understood (G : Surroundings F) (events : List NetworkEvent)
    (hcol : (Network.run G events).server.db.Columns)
    (hids : (Network.run G events).server.db.ClientIds) :
    ∀ c ∈ (Network.run G events).clients, ∀ inp,
      c.Understands G (Network.run G events).wire inp := by
  intro c hc inp
  have hsound := (run_honest G events hcol).clients c hc
  have hknown := run_registered G events hids c hc
  obtain ⟨ops, hops⟩ := Network.run_server G events
  refine ⟨heartbeat_understood hknown, ?_, claim_understood hsound.clientId hknown hcol, ?_⟩
  · refine activeTest_understood hcol ?_
    change (Network.run G events).server.db.TestsAll TestRow.Narrow
    rw [hops]
    exact run_narrow G.env ops
  · intro slot e pair body deadline attempts hin hprotocol
    obtain ⟨-, hdeals, nonce, hplay⟩ := hsound.slots _ hin
    obtain ⟨t, p, op, ht, hp, htest, -⟩ := hdeals
    cases hreport : resultReport body with
    | ok report =>
      have hid : report.clientId = c.host.clientId :=
        resultReport_clientId hsound.clientId hplay hreport
      exact absurd hprotocol
        (result_understood hreport (hid ▸ hknown) ⟨p, t, hp, htest ▸ ht⟩)
    | error what =>
      refine ⟨⟨what, hreport⟩, nonce, hplay, fun hslot hfit => ?_⟩
      obtain ⟨report, hreport'⟩ := report_of_fit hslot hfit hplay
      cases hreport.symm.trans hreport'

theorem answers_understood_first :
    (Network.run quietSurroundings (firstPair.take 12)).clients.length = 1 ∧
      ∀ c ∈ (Network.run quietSurroundings (firstPair.take 12)).clients, ∀ inp,
        c.Understands quietSurroundings
          (Network.run quietSurroundings (firstPair.take 12)).wire inp :=
  ⟨by decide +kernel, answers_understood quietSurroundings (firstPair.take 12)
    (.of_rows (by decide +kernel) (by decide +kernel) (by decide +kernel))
    (.of_rows (by decide +kernel))⟩

end CapiNet
