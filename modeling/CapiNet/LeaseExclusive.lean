import CapiNet.PairInvariant

namespace CapiNet

open Txn Relational

variable {F : Type} [LinearOrder F] {E : Env F}

/-- The step takes the pair from the client that holds it: it is abandoned, or its lease has
expired. -/
def Server.EndsLease (E : Env F) (s : Server F) (op : Op) (i : Int) : Prop :=
  (∃ clientId, s.Releases E op i clientId) ∨
  (op.act = .call .recover ∧ ∃ p p', s.db.jobPairs.find i = some p ∧ p.status = .leased ∧
    (s.step E op).db.jobPairs.find i = some p' ∧ p'.status ≠ .leased)

/-- A pair that is not pending is not delivered. -/
theorem PairMove.not_delivered {s : Server F} {op : Op} {i : Int} {p : PairRow}
    {o : Option PairRow} (h : PairMove E s op i (some p) o) (hs : p.status ≠ .pending) :
    i ∉ s.delivered E op := by
  cases h with
  | same _ hd => exact hd
  | leased _ _ _ _ _ _ _ hp => exact absurd hp hs
  | completed _ _ ha => exact ha.not_delivered
  | released _ _ hr => exact hr.not_delivered
  | expired _ _ _ hd => exact hd

/-- Before a pair that is not pending can be delivered, its lease has to end. -/
theorem lease_ends_before_delivery {ops mid : List Op} {op : Op} {i : Int} {p : PairRow}
    (hp : (Server.run E ops).db.jobPairs.find i = some p) (hs : p.status ≠ .pending)
    (hd : i ∈ (Server.run E (ops ++ mid)).delivered E op) :
    ∃ mid₁ o mid₂, mid = mid₁ ++ o :: mid₂ ∧ (Server.run E (ops ++ mid₁)).EndsLease E o i ∧
      Server.claimCount E i (Server.run E ops) mid₁ = 0 := by
  induction mid generalizing ops p with
  | nil =>
    rw [List.append_nil] at hd
    have hmove := run_step_pair E ops op i
    rw [hp] at hmove
    exact absurd hd (hmove.not_delivered hs)
  | cons o mid ih =>
    have hmove := run_step_pair E ops o i
    have hsplit : ops ++ o :: mid = (ops ++ [o]) ++ mid := by simp
    rw [hsplit] at hd
    have hzero : (Server.run E ops).deliveries E o i = 0 := by
      rw [hp] at hmove
      exact if_neg (hmove.not_delivered hs)
    -- the lease ends with this step, or the row still is not pending after it
    have later : ∀ q, (Server.run E (ops ++ [o])).db.jobPairs.find i = some q →
        q.status ≠ .pending → ∃ mid₁ o' mid₂, o :: mid = mid₁ ++ o' :: mid₂ ∧
          (Server.run E (ops ++ mid₁)).EndsLease E o' i ∧
          Server.claimCount E i (Server.run E ops) mid₁ = 0 := by
      intro q hq hqs
      obtain ⟨mid₁, o', mid₂, rfl, hend, hcount⟩ := ih hq hqs hd
      refine ⟨o :: mid₁, o', mid₂, rfl, by simpa using hend, ?_⟩
      rw [Server.run_snoc] at hcount
      rw [Server.claimCount, hzero, hcount]
    have now : (Server.run E ops).EndsLease E o i → ∃ mid₁ o' mid₂, o :: mid = mid₁ ++ o' :: mid₂ ∧
        (Server.run E (ops ++ mid₁)).EndsLease E o' i ∧
        Server.claimCount E i (Server.run E ops) mid₁ = 0 :=
      fun hend => ⟨[], o, mid, rfl, by simpa using hend, rfl⟩
    rw [hp] at hmove
    generalize hq : (Server.run E (ops ++ [o])).db.jobPairs.find i = o' at hmove
    cases hmove with
    | same => exact later p hq hs
    | leased _ _ _ _ _ _ _ hpend => exact absurd hpend hs
    | completed _ _ _ _ => exact later _ hq (by simp [PairRow.complete])
    | released _ clientId hr _ => exact now (.inl ⟨clientId, hr⟩)
    | expired _ hact hl _ =>
      refine now (.inr ⟨hact, p, p.expire E.cfg.maxAttempts, hp, hl, ?_, p.status_expire _⟩)
      rw [← Server.run_snoc]
      exact hq

/-- A step that delivers a pair leaves it leased. -/
theorem leased_of_delivered {ops : List Op} {op : Op} {i : Int}
    (hd : i ∈ (Server.run E ops).delivered E op) :
    ∃ p, (Server.run E (ops ++ [op])).db.jobPairs.find i = some p ∧ p.status = .leased := by
  have hmove := run_step_pair E ops op i
  generalize (Server.run E ops).db.jobPairs.find i = o at hmove
  generalize (Server.run E (ops ++ [op])).db.jobPairs.find i = o' at hmove
  cases hmove with
  | same _ hn => exact absurd hd hn
  | born _ _ hn => exact absurd hd hn
  | leased p => exact ⟨_, rfl, rfl⟩
  | completed _ _ ha => exact absurd hd ha.not_delivered
  | released _ _ hr => exact absurd hd hr.not_delivered
  | expired _ _ _ hn => exact absurd hd hn

/-- The calls that serve the queue. -/
def Act.serves : Act → Prop
  | .call (.claim _ _) | .call (.submit _ _) | .call (.abandon _ _) | .call .recover => True
  | _ => False

def Db.countStatus (db : Db F) (testId : Int) (status : JobStatus) : Nat :=
  (db.pairsOf testId).countP (·.status == status)

/-- All pairs of a test, by status. -/
def Db.total (db : Db F) (testId : Int) : Nat :=
  db.countStatus testId .pending + db.countStatus testId .leased +
    db.countStatus testId .completed + db.countStatus testId .discarded

omit [LinearOrder F] in
theorem Db.total_eq_length (db : Db F) (testId : Int) :
    db.total testId = (db.pairsOf testId).length := by
  unfold Db.total Db.countStatus
  induction db.pairsOf testId with
  | nil => rfl
  | cons p ps ih =>
    simp only [List.countP_cons, List.length_cons]
    cases p.status <;> simp <;> omega

omit [LinearOrder F] in
theorem Db.length_pairsOf (db : Db F) (testId : Int) :
    (db.pairsOf testId).length = (db.shapes.filter fun s => s.2.1 == testId).length := by
  rw [Db.shapes, List.filter_map, List.length_map]
  rfl

theorem Server.step_total {s : Server F} {op : Op} (h : op.act.serves) (testId : Int) :
    (s.step E op).db.total testId = s.db.total testId := by
  rw [Db.total_eq_length, Db.total_eq_length]
  rcases s.step_db E op with hdb | ⟨c, r, hc, -, heff⟩
  · rw [hdb]
  · have hshapes := (heff.shapes (by simp) ?_).1
    · rw [Db.length_pairsOf, Db.length_pairsOf, hshapes]
    · rintro job x random rfl
      rcases callOf_eq_some hc with ha | ⟨_, _, _, ha, -, -⟩
      · rw [ha] at h; exact h
      · rw [ha] at h; exact h

/-- Whatever happens later, a completed or discarded row stays as it is. -/
theorem run_terminal {ops : List Op} {i : Int} {p : PairRow}
    (hp : (Server.run E ops).db.jobPairs.find i = some p)
    (hs : p.status = .completed ∨ p.status = .discarded) (more : List Op) :
    (Server.run E (ops ++ more)).db.jobPairs.find i = some p := by
  induction more using List.reverseRecOn with
  | nil => simpa using hp
  | append_singleton more op ih =>
    rw [← List.append_assoc]
    have hmove := run_step_pair E (ops ++ more) op i
    rw [ih] at hmove
    exact hmove.terminal hs

theorem run_total {ops : List Op} (testId : Int) (more : List Op) (h : ∀ op ∈ more, op.act.serves) :
    (Server.run E (ops ++ more)).db.total testId = (Server.run E ops).db.total testId := by
  induction more using List.reverseRecOn with
  | nil => simp
  | append_singleton more op ih =>
    rw [← List.append_assoc, Server.run_snoc, Server.step_total (h op (by simp))]
    exact ih fun o ho => h o (by simp [ho])

omit [LinearOrder F] in
/-- A claim always answers. -/
theorem exec_claimPairs (skip : Lock → Bool) (cfg : ServerConfig) (now : ℚ)
    (clientId slotsFree : Int) (db : Db F) :
    ∃ r, (claimPairs cfg now clientId slotsFree).exec skip db = .ok r := by
  have hdiag : ∀ db : Db F, ∃ r, (diagnoseClaim clientId).exec skip db = .ok r := by
    intro db
    simp only [diagnoseClaim, Script.exec_bind, Script.exec_select, Except.bind]
    split
    next => exact ⟨_, rfl⟩
    next => split <;> [exact ⟨_, rfl⟩; (split <;> exact ⟨_, rfl⟩)]
  simp only [claimPairs, Script.exec_bind, Script.exec_select, Except.bind]
  split
  next =>
    simp only [Script.exec_bind, Script.exec_pick, Script.exec_update, Script.exec_select,
      Except.bind]
    split
    next => exact hdiag _
    next => exact ⟨_, rfl⟩
  next => exact hdiag db

theorem Server.step_claim (E : Env F) (s : Server F) (op : Op) {clientId slotsFree : Int}
    (h : op.act = .call (.claim clientId slotsFree)) :
    ∃ r, s.reply E op = some (.ok (.claim r)) ∧
      Claimed op.skip E.cfg op.now clientId slotsFree s.db (.commit r) (s.step E op).db := by
  obtain ⟨⟨fin, db'⟩, he⟩ := exec_claimPairs op.skip E.cfg op.now clientId slotsFree s.db
  have hclaimed := ensures_claimPairs fin db' he
  obtain ⟨r, rfl⟩ : ∃ r, fin = .commit r := by
    cases hclaimed with
    | leased _ _ _ _ r => exact ⟨r, rfl⟩
    | answered r => exact ⟨r, rfl⟩
  have hatom : (Call.claim clientId slotsFree).atomically E op.now op.skip s.db =
      (.ok (.claim r), db') := Script.atomically_map_commit he
  have hcall : s.callOf op.act = some (.claim clientId slotsFree) := by rw [h]; rfl
  refine ⟨r, by simp [Server.reply, hcall, hatom], ?_⟩
  simpa [Server.step, hcall, hatom] using hclaimed

omit [LinearOrder F] in
theorem Db.nodup_pendingIds (db : Db F) (testId : Int) : (db.pendingIds testId).Nodup := by
  unfold Db.pendingIds
  have hperm := ((db.pairsOf testId).filter (·.status == .pending)).perm_insertionSort
    fun p q => p.dispatchOrder ≤ q.dispatchOrder
  refine (hperm.map (·.id)).nodup_iff.mpr ?_
  exact db.jobPairs.nodup.sublist ((List.filter_sublist.trans List.filter_sublist).map _)

omit [LinearOrder F] in
theorem Db.length_pendingIds (db : Db F) (testId : Int) :
    (db.pendingIds testId).length = db.countStatus testId .pending := by
  simp [Db.pendingIds, Db.countStatus, List.countP_eq_length_filter]

/-- What a claim delivers: the picked pairs, in some order. -/
theorem delivered_perm {ops : List Op} {op : Op} {clientId slotsFree : Int} {c : ClientRow}
    (hact : op.act = .call (.claim clientId slotsFree))
    (hc : (Server.run E ops).db.caller clientId = some c) :
    ((Server.run E ops).db.runningTest = none ∧ (Server.run E ops).delivered E op = []) ∨
    ∃ t, (Server.run E ops).db.runningTest = some t ∧
      ((Server.run E ops).delivered E op).Perm
        (Script.unlocked (fun i => op.skip (.pair i)) (some (min slotsFree.toNat c.slots))
          ((Server.run E ops).db.pendingIds t.id)) := by
  obtain ⟨r, hr, hcl⟩ := Server.step_claim E (Server.run E ops) op hact
  have hdel : (Server.run E ops).delivered E op = r.pairs.map (·.pairId) := by
    simp [Server.delivered, hr]
  have hpos : (Server.step E (Server.run E ops) op).db.Positioned := by
    rw [← Server.run_snoc]
    exact run_positioned E (ops ++ [op])
  rw [hdel]
  generalize (Server.step E (Server.run E ops) op).db = db' at hcl hpos
  cases hcl with
  | answered _ hnone hnil =>
    refine .inl ⟨hnone.resolve_right (by simp [hc]), by simp [hnil]⟩
  | leased t c' picked _ _ ht hc' hpick hdb hpairs =>
    cases Option.some.inj (hc.symm.trans hc')
    refine .inr ⟨t, ht, ?_⟩
    rw [← hpick]
    have hsub : picked.Sublist ((Server.run E ops).db.pendingIds t.id) := by
      rw [hpick]
      exact Script.unlocked_sublist _ _ _
    refine (List.perm_ext_iff_of_nodup ?_ (((Server.run E ops).db.nodup_pendingIds t.id).sublist
      hsub)).mpr fun i => ?_
    · rw [hpairs, Db.map_claimed picked hpos]
      exact (Table.nodup _).sublist (List.filter_sublist.map _)
    · rw [hpairs, Db.mem_claimed hpos, and_iff_left_iff_imp]
      intro hi
      obtain ⟨p, hp, -, -⟩ := Db.mem_pendingIds (hsub.subset hi)
      rw [hdb, Db.leaseTo, Db.find_updatePairs, hp]
      exact ⟨_, rfl⟩

/-- What a claim may deliver to a client: pairs of the running test, as many as fit, the first ones
in dispatch order when none is locked elsewhere. -/
structure ClaimGives (E : Env F) (s : Server F) (op : Op) (room : Nat) : Prop where
  running : ∀ i ∈ s.delivered E op, ∃ p t, s.db.jobPairs.find i = some p ∧
    s.db.runningTest = some t ∧ p.testId = t.id
  bounded : (s.delivered E op).length ≤ room
  exact : ∀ t, s.db.runningTest = some t → (∀ i, op.skip (.pair i) = false) →
    (s.delivered E op).Perm ((s.db.pendingIds t.id).take room) ∧
    (s.delivered E op).length = min room (s.db.countStatus t.id .pending)

theorem claim_gives {ops : List Op} {op : Op} {clientId slotsFree : Int} {c : ClientRow}
    (hact : op.act = .call (.claim clientId slotsFree))
    (hc : (Server.run E ops).db.caller clientId = some c) :
    ClaimGives E (Server.run E ops) op (min slotsFree.toNat c.slots) := by
  rcases delivered_perm hact hc with ⟨hnone, hnil⟩ | ⟨t, ht, hperm⟩
  · refine ⟨by simp [hnil], by simp [hnil], ?_⟩
    intro t ht
    simp [hnone] at ht
  · refine ⟨?_, ?_, ?_⟩
    · intro i hi
      have hcand := (Script.mem_unlocked (hperm.subset hi)).1
      obtain ⟨p, hp, -, htest⟩ := Db.mem_pendingIds hcand
      exact ⟨p, t, hp, ht, htest⟩
    · rw [hperm.length_eq]
      exact Script.length_unlocked_le _ _ _
    · intro t' ht' hskip
      cases Option.some.inj (ht.symm.trans ht')
      have hall : Script.unlocked (fun i => op.skip (.pair i))
          (some (min slotsFree.toNat c.slots)) ((Server.run E ops).db.pendingIds t.id) =
          ((Server.run E ops).db.pendingIds t.id).take (min slotsFree.toNat c.slots) := by
        simp [Script.unlocked, hskip]
      rw [hall] at hperm
      refine ⟨hperm, ?_⟩
      rw [hperm.length_eq, List.length_take, Db.length_pendingIds]

/-- Rows agree with their status and count their claims; two claims of a pair have the end of a
lease between them; terminal pairs stay and none is lost; a claim gives what it can. -/
theorem leases_exclusive_pairs_conserved (E : Env F) (ops : List Op) :
    (∀ p ∈ (Server.run E ops).db.jobPairs.rows,
      p.Coherent ∧ p.attempts = Server.claimCount E p.id .init ops) ∧
    (∀ pre op₁ mid op₂ i, i ∈ (Server.run E pre).delivered E op₁ →
      i ∈ (Server.run E ((pre ++ [op₁]) ++ mid)).delivered E op₂ →
      ∃ mid₁ o mid₂, mid = mid₁ ++ o :: mid₂ ∧
        (Server.run E ((pre ++ [op₁]) ++ mid₁)).EndsLease E o i ∧
        Server.claimCount E i (Server.run E (pre ++ [op₁])) mid₁ = 0) ∧
    (∀ more,
      (∀ p ∈ (Server.run E ops).db.jobPairs.rows, p.status = .completed ∨ p.status = .discarded →
        p ∈ (Server.run E (ops ++ more)).db.jobPairs.rows) ∧
      ((∀ op ∈ more, op.act.serves) → ∀ testId,
        (Server.run E (ops ++ more)).db.total testId = (Server.run E ops).db.total testId)) ∧
    (∀ op clientId slotsFree c, op.act = .call (.claim clientId slotsFree) →
      (Server.run E ops).db.caller clientId = some c →
      ClaimGives E (Server.run E ops) op (min slotsFree.toNat c.slots)) := by
  refine ⟨?_, ?_, ?_, ?_⟩
  · intro p hp
    have hf := Table.find_of_mem hp
    have hcount := run_attempts E ops p.id
    rw [hf] at hcount
    exact ⟨run_coherent E ops hf, hcount⟩
  · intro pre op₁ mid op₂ i h₁ h₂
    obtain ⟨p, hp, hl⟩ := leased_of_delivered h₁
    exact lease_ends_before_delivery hp (by simp [hl]) h₂
  · intro more
    refine ⟨?_, fun h testId => run_total testId more h⟩
    intro p hp hs
    exact (Table.find_some (run_terminal (Table.find_of_mem hp) hs more)).1
  · intro op clientId slotsFree c hact hc
    exact claim_gives hact hc

end CapiNet
