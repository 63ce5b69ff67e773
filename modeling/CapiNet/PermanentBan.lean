import CapiNet.ExactlyOnce
import CapiNet.LeaseExclusive

namespace CapiNet

open Txn Relational

variable {F : Type}

/-- How a call moves the clients: no statement takes a ban back or renames a row, and a new row
brings a new name. -/
inductive ClientsMove (t : Table ClientRow (·.id)) : Table ClientRow (·.id) → Prop
  | same : ClientsMove t t
  | updated (p : ClientRow → Bool) (f : ClientRow → ClientRow) (hid : ∀ r, (f r).id = r.id) :
      (∀ r, (f r).name = r.name) → (∀ r, r.status = .banned → (f r).status = .banned) →
      ClientsMove t (t.modify p f hid)
  | joined (reg : ClientRegistration) : (∀ r ∈ t.rows, r.name ≠ reg.name) →
      ClientsMove t (t.insert (.ofRegistration reg) (ClientRow.ofRegistration_id reg))

theorem ClientStatus.refreshed_banned {s : ClientStatus} (h : s = .banned) :
    s.refreshed = .banned := by
  rw [refreshed, if_pos h, h]

theorem clientsMove_upsert (db : Db F) (reg : ClientRegistration) :
    ClientsMove db.clients (db.upsertClient reg).clients := by
  unfold Db.upsertClient
  split
  next =>
    exact .updated _ _ (ClientRow.reregister_id reg) (fun _ => rfl)
      fun _ h => ClientStatus.refreshed_banned h
  next hnew =>
    refine .joined reg fun r hr hname => hnew ?_
    exact List.any_eq_true.mpr ⟨r, hr, by simp [hname]⟩

variable [LinearOrder F] {E : Env F}

theorem Effect.clients {now : ℚ} {skip : Lock → Bool} {db db' : Db F} {c : Call} {r : Reply}
    (h : Effect E now skip db c (.commit r) db') : ClientsMove db.clients db'.clients := by
  generalize hout : Finish.commit r = out at h
  cases h with
  | invalidSpec => cases hout
  | create _ _ _ _ _ _ _ _ hi => cases hi; exact .same
  | smoke job x random _ _ _ hj hfin =>
    subst hfin
    cases hj with
    | late => cases hout
    | invalid => exact .same
    | queued t fens vlog promoted db₁ _ _ _ _ href hp =>
      rw [(href.sameQueue.trans hp.sameQueue).clients]
      rw [(enqueue_spec db job.testId fens random vlog).clients]
      exact .same
  | promote _ _ hp => rw [hp.sameQueue.clients]; exact .same
  | stop _ _ _ _ hs hfin =>
    subst hfin
    cases hs with
    | refused => cases hout
    | waiting => exact .same
    | running _ _ _ _ _ hp => rw [hp.sameQueue.clients]; exact .same
  | setPriority _ _ _ _ _ hs hfin =>
    subst hfin
    cases hs with
    | refused => cases hout
    | updated => exact .same
  | register reg => exact clientsMove_upsert db reg
  | heartbeat clientId cpuFactor =>
    exact .updated _ _ (ClientRow.beat_id cpuFactor) (fun _ => rfl)
      fun _ h => ClientStatus.refreshed_banned h
  | ban clientId => exact .updated _ _ ClientRow.ban_id (fun _ => rfl) fun _ _ => rfl
  | claim _ _ _ _ _ hs =>
    cases hs with
    | leased _ _ _ _ _ _ _ _ hdb _ => subst hdb; exact .same
    | answered => exact .same
  | submit _ _ _ _ _ hs hfin =>
    subst hfin
    cases hs with
    | unknown => cases hout
    | refused => cases hout
    | accepted _ _ _ _ _ _ _ href => rw [href.sameQueue.clients]; exact .same
  | abandon _ _ _ _ _ hs =>
    cases hs with
    | refused => exact .same
    | released => exact .same
  | recover _ _ _ hs =>
    cases hs with
    | recovered _ _ _ _ hall => rw [hall.sameQueue.clients]; exact .same

/-- The client is banned under this name. -/
def Db.BansAs (db : Db F) (clientId : Int) (name : String) : Prop :=
  ∃ r, db.clients.find clientId = some r ∧ r.name = name ∧ r.status = .banned

/-- The unique key of `clients`. -/
def Db.NamesUnique (db : Db F) : Prop := (db.clients.rows.map (·.name)).Nodup

omit [LinearOrder F] in
theorem ClientsMove.names {t t' : Table ClientRow (·.id)} (h : ClientsMove t t')
    (hn : (t.rows.map (·.name)).Nodup) : (t'.rows.map (·.name)).Nodup := by
  cases h with
  | same => exact hn
  | updated p f hid hname =>
    have he : (t.modify p f hid).rows.map (·.name) = t.rows.map (·.name) := by
      rw [Table.rows_modify, List.map_map]
      refine List.map_congr_left fun r _ => ?_
      dsimp only [Function.comp]
      split
      · exact hname r
      · rfl
    rw [he]
    exact hn
  | joined reg hnew =>
    rw [Table.rows_insert, List.map_append, List.nodup_append]
    refine ⟨hn, by simp, ?_⟩
    intro a ha b hb
    obtain ⟨r, hr, rfl⟩ := List.mem_map.mp ha
    simp only [List.map_cons, List.map_nil, List.mem_singleton] at hb
    rw [hb]
    exact hnew r hr

omit [LinearOrder F] in
theorem ClientsMove.bans {t t' : Table ClientRow (·.id)} (h : ClientsMove t t') {clientId : Int}
    {r : ClientRow} (hr : t.find clientId = some r) (hb : r.status = .banned) :
    ∃ r', t'.find clientId = some r' ∧ r'.name = r.name ∧ r'.status = .banned := by
  cases h with
  | same => exact ⟨r, hr, rfl, hb⟩
  | updated p f hid hname hban =>
    refine ⟨if p r then f r else r, by rw [Table.find_modify, hr]; rfl, ?_, ?_⟩
    · split
      · exact hname r
      · rfl
    · split
      · exact hban r hb
      · exact hb
  | joined reg hnew => exact ⟨r, Table.find_insert_of_some hr, rfl, hb⟩

theorem run_namesUnique (E : Env F) (ops : List Op) : (Server.run E ops).db.NamesUnique :=
  Server.db_induction (I := Db.NamesUnique) (by simp [Db.NamesUnique, Db.empty])
    (fun _ _ _ _ _ _ hn h => h.clients.names hn) ops

theorem Server.step_clients (E : Env F) (s : Server F) (op : Op) :
    ClientsMove s.db.clients (s.step E op).db.clients := by
  rcases s.step_db E op with hdb | ⟨c, r, -, -, h⟩
  · rw [hdb]; exact .same
  · exact h.clients

theorem run_bansAs {ops : List Op} {clientId : Int} {name : String}
    (h : (Server.run E ops).db.BansAs clientId name) (more : List Op) :
    (Server.run E (ops ++ more)).db.BansAs clientId name := by
  induction more using List.reverseRecOn with
  | nil => simpa using h
  | append_singleton more op ih =>
    obtain ⟨r, hr, rfl, hb⟩ := ih
    rw [← List.append_assoc, Server.run_snoc]
    exact (Server.step_clients E _ op).bans hr hb

omit [LinearOrder F] in
theorem Db.BansAs.caller {db : Db F} {clientId : Int} {name : String}
    (h : db.BansAs clientId name) : db.caller clientId = none := by
  obtain ⟨r, hr, -, hb⟩ := h
  simp [Db.caller, hr, hb]

/-- A refused client is not the client of a result that passes. -/
theorem refusal_none_not_banned {p : PairRow} {g : Guard} {clientId : Int}
    (h : refusal p g clientId = none) : g.clientStatus ≠ some .banned := by
  unfold refusal at h
  dsimp only at h
  split_ifs at h with h1 h2
  exact h2

theorem Server.Accepts.not_banned {s : Server F} {op : Op} {i : Int} {report : RoutedReport}
    (h : s.Accepts E op i report) (name : String) : ¬s.db.BansAs report.clientId name := by
  rintro ⟨r, hr, -, hb⟩
  obtain ⟨hact, v, hreply⟩ := h
  have hcall : s.callOf op.act = some (.submit i report) := by rw [hact]; rfl
  rcases Server.reply_ok hcall hreply with ⟨db', heff⟩ | heff
  · exact heff.rollback_answer.2.1 v rfl
  · generalize hout : Finish.commit (Reply.submit ⟨.accepted, v⟩) = out at heff
    generalize hcc : Call.submit i report = c at heff
    generalize (s.step E op).db = db' at heff
    cases heff with
    | submit _ _ _ _ _ hs hfin =>
      cases hcc
      subst hfin
      cases hs with
      | unknown => cases hout
      | refused => cases hout
      | accepted p g _ _ hg hnone _ _ =>
        obtain ⟨_, t, -, -, rfl⟩ := Db.guard_eq_some hg
        refine refusal_none_not_banned hnone ?_
        simp [hr, hb]
    | _ => cases hcc

/-- A banned client gets no pair: a row that is leased to it was leased to it before. -/
theorem banned_not_leased {ops : List Op} {op : Op} {clientId i : Int} {name : String}
    (hban : (Server.run E ops).db.BansAs clientId name) {p : PairRow}
    (hp : (Server.run E (ops ++ [op])).db.jobPairs.find i = some p) (hs : p.status = .leased)
    (hl : p.leasedTo = some clientId) : (Server.run E ops).db.jobPairs.find i = some p := by
  have hmove := run_step_pair E ops op i
  rw [hp] at hmove
  generalize ho : (Server.run E ops).db.jobPairs.find i = o at hmove
  generalize ho' : some p = o' at hmove
  cases hmove with
  | same => rfl
  | born q hf =>
    cases ho'
    simp [hf.1] at hs
  | leased q t cl slotsFree until_ hact hd =>
    cases ho'
    cases Option.some.inj hl
    obtain ⟨r, hr, hcl⟩ := Server.step_claim E (Server.run E ops) op hact
    generalize (Server.step E (Server.run E ops) op).db = db' at hcl
    cases hcl with
    | leased _ c _ _ _ _ hcaller =>
      rw [hban.caller] at hcaller
      cases hcaller
    | answered _ _ hnil =>
      simp [Server.delivered, hr, hnil] at hd
  | completed => cases ho'; simp [PairRow.complete] at hs
  | released => cases ho'; simp [PairRow.release] at hs
  | expired q => cases ho'; exact absurd hs (q.status_expire _)

theorem banned_adds_no_game {s : Server F} {op : Op} {clientId : Int} {name : String}
    (hban : s.db.BansAs clientId name) :
    (s.step E op).db.games.filter (·.clientId == clientId) =
      s.db.games.filter (·.clientId == clientId) := by
  have hmove := Server.step_games E s op
  generalize (s.step E op).db.games = games at hmove
  cases hmove with
  | same => rfl
  | added i report p ha =>
    have hne : report.clientId ≠ clientId := by
      rintro rfl
      exact ha.not_banned name hban
    simp [List.filter_append, gameRow, hne]

omit [LinearOrder F] in
theorem Db.BansAs.find_name {db : Db F} {clientId : Int} {name : String} (hn : db.NamesUnique)
    (h : db.BansAs clientId name) :
    ∃ r, db.clients.rows.find? (·.name == name) = some r ∧ r.id = clientId ∧
      r.status = .banned := by
  obtain ⟨r, hr, hname, hb⟩ := h
  obtain ⟨hmem, hid⟩ := Table.find_some hr
  obtain ⟨q, hq⟩ : ∃ q, db.clients.rows.find? (·.name == name) = some q := by
    rw [← Option.isSome_iff_exists, List.find?_isSome]
    exact ⟨r, hmem, by simp [hname]⟩
  have hqname : q.name = name := by simpa using List.find?_some hq
  have heq : q = r :=
    List.inj_on_of_nodup_map hn (List.mem_of_find?_eq_some hq) hmem (hqname.trans hname.symm)
  exact ⟨q, hq, heq ▸ hid, heq ▸ hb⟩

theorem banned_registration {s : Server F} {op : Op} {reg : ClientRegistration} {clientId : Int}
    (hact : op.act = .call (.register reg)) (hn : (s.db.upsertClient reg).NamesUnique)
    (hban : (s.db.upsertClient reg).BansAs clientId reg.name) :
    s.reply E op = some (.ok (.registered ⟨clientId, true⟩)) := by
  obtain ⟨r, hr, hid, hb⟩ := hban.find_name hn
  have hexec : (registerClient reg).exec op.skip s.db =
      .ok (.commit ⟨clientId, true⟩, s.db.upsertClient reg) := by
    simp only [registerClient, Script.update_bind, Script.select_bind, Script.exec, hr, hid, hb]
    rfl
  have hatom : (Call.register reg).atomically E op.now op.skip s.db =
      (.ok (.registered ⟨clientId, true⟩), s.db.upsertClient reg) :=
    Script.atomically_map_commit hexec
  have hcall : s.callOf op.act = some (.register reg) := by rw [hact]; rfl
  simp [Server.reply, hcall, hatom]

theorem banned_heartbeat {s : Server F} {op : Op} {clientId : Int} {cpuFactor : Option Double}
    {name : String} (hact : op.act = .call (.heartbeat clientId cpuFactor))
    (hban : s.db.BansAs clientId name) :
    s.reply E op = some (.ok (.heartbeat (some true))) := by
  obtain ⟨r, hr, -, hb⟩ := hban
  have hrow := (Table.find_some hr).2
  obtain ⟨db', hexec⟩ : ∃ db', (heartbeat clientId cpuFactor).exec op.skip s.db =
      .ok (.commit (some true), db') := by
    refine ⟨{ s.db with
      clients := s.db.clients.modify (·.id == clientId) (.beat cpuFactor)
        (ClientRow.beat_id cpuFactor) }, ?_⟩
    simp only [heartbeat, Script.update_bind, Script.select_bind, Script.exec, Table.find_modify,
      hr, hrow, beq_self_eq_true, if_true, Option.map_some, ClientRow.beat,
      ClientStatus.refreshed_banned hb]
    rfl
  have hatom : (Call.heartbeat clientId cpuFactor).atomically E op.now op.skip s.db =
      (.ok (.heartbeat (some true)), db') := Script.atomically_map_commit hexec
  have hcall : s.callOf op.act = some (.heartbeat clientId cpuFactor) := by rw [hact]; rfl
  simp [Server.reply, hcall, hatom]

/-- Once a client is banned, it is banned after every further run; the step after that run leases
it no pair and adds no game of its, and tells it of the ban when it registers or beats. -/
theorem ban_is_permanent (E : Env F) (ops more : List Op) (op : Op) (clientId : Int) (r : ClientRow)
    (hr : (Server.run E ops).db.clients.find clientId = some r) (hb : r.status = .banned) :
    (∃ r', (Server.run E (ops ++ more)).db.clients.find clientId = some r' ∧ r'.name = r.name ∧
      r'.status = .banned) ∧
    (∀ i p, (Server.run E ((ops ++ more) ++ [op])).db.jobPairs.find i = some p →
      p.status = .leased → p.leasedTo = some clientId →
      (Server.run E (ops ++ more)).db.jobPairs.find i = some p) ∧
    (Server.run E ((ops ++ more) ++ [op])).db.games.filter (·.clientId == clientId) =
      (Server.run E (ops ++ more)).db.games.filter (·.clientId == clientId) ∧
    (∀ reg, op.act = .call (.register reg) → reg.name = r.name →
      (Server.run E (ops ++ more)).reply E op = some (.ok (.registered ⟨clientId, true⟩))) ∧
    (∀ cpuFactor, op.act = .call (.heartbeat clientId cpuFactor) →
      (Server.run E (ops ++ more)).reply E op = some (.ok (.heartbeat (some true)))) := by
  have hban : (Server.run E (ops ++ more)).db.BansAs clientId r.name :=
    run_bansAs ⟨r, hr, rfl, hb⟩ more
  refine ⟨hban, fun i p hp hs hl => banned_not_leased hban hp hs hl, ?_, ?_, ?_⟩
  · rw [Server.run_snoc]
    exact banned_adds_no_game hban
  · intro reg hact hname
    have hmove := clientsMove_upsert (Server.run E (ops ++ more)).db reg
    obtain ⟨q, hq, hqname, hqb⟩ := hban
    obtain ⟨q', hq', hname', hqb'⟩ := hmove.bans hq hqb
    exact banned_registration hact (hmove.names (run_namesUnique E (ops ++ more)))
      ⟨q', hq', by rw [hname', hqname, hname], hqb'⟩
  · intro cpuFactor hact
    exact banned_heartbeat hact hban

/-- A client that registers, is banned, and comes back under its name. -/
theorem ban_outlives_registration :
    ∃ r, (Server.run realEnv (opening 1 ++ [{ now := 1, act := .call (.ban 1) }])).db.clients.find 1 =
        some r ∧ r.status = .banned ∧
      (Server.run realEnv ((opening 1 ++ [{ now := 1, act := .call (.ban 1) }]) ++ [])).reply realEnv
        { now := 2, act := .call (.register ⟨"client", 4⟩) } =
        some (.ok (.registered ⟨1, true⟩)) := by
  have hc : ((Server.run realEnv (opening 1 ++
      [{ now := 1, act := .call (.ban 1) }])).db.clients.find 1).any
      (fun r => r.name == "client" && r.status == .banned) = true := by decide +kernel
  obtain ⟨r, hr, hp⟩ := (Option.any_eq_true _ _).mp hc
  simp only [Bool.and_eq_true, beq_iff_eq] at hp
  exact ⟨r, hr, hp.2, (ban_is_permanent realEnv _ [] _ 1 r hr hp.2).2.2.2.1 ⟨"client", 4⟩ rfl
    hp.1.symm⟩

end CapiNet
