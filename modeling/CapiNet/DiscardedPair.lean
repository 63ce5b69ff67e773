import CapiNet.RevokedLease

namespace CapiNet

open Txn Relational

variable {F : Type} [LinearOrder F] {E : Env F}

def Db.isLeased (db : Db F) (i : Int) : Bool := (db.jobPairs.find i).any (·.status == .leased)

/-- The step is a recovery, and takes the pair from its client. -/
def Server.expires (E : Env F) (s : Server F) (op : Op) (i : Int) : Bool :=
  match op.act with
  | .call .recover => s.db.isLeased i && !(s.step E op).db.isLeased i
  | _ => false

/-- The step is an abandonment that gives the pair back. -/
def Server.givesBack (E : Env F) (s : Server F) (op : Op) (i : Int) : Bool :=
  match op.act, s.reply E op with
  | .call (.abandon j _), some (.ok (.abandon true)) => j == i
  | _, _ => false

/-- How many steps of a run are of a kind. -/
def Server.count (E : Env F) (kind : Server F → Op → Bool) : Server F → List Op → Nat
  | _, [] => 0
  | s, op :: ops => (kind s op).toNat + count E kind (s.step E op) ops

theorem Server.count_snoc (kind : Server F → Op → Bool) (s : Server F) (ops : List Op) (op : Op) :
    Server.count E kind s (ops ++ [op]) =
      Server.count E kind s ops + (kind (Server.runFrom E s ops) op).toNat := by
  induction ops generalizing s with
  | nil => simp [Server.count]
  | cons o ops ih =>
    simp only [List.cons_append, Server.count, ih, Server.runFrom_cons]
    omega

/-- The leases of a pair that ended by expiry in a run. -/
def Server.expiries (E : Env F) (i : Int) (ops : List Op) : Nat :=
  Server.count E (fun s op => s.expires E op i) .init ops

/-- The leases of a pair that were given back in a run. -/
def Server.returns (E : Env F) (i : Int) (ops : List Op) : Nat :=
  Server.count E (fun s op => s.givesBack E op i) .init ops

theorem Server.expiries_snoc (i : Int) (ops : List Op) (op : Op) :
    Server.expiries E i (ops ++ [op]) =
      Server.expiries E i ops + ((Server.run E ops).expires E op i).toNat :=
  Server.count_snoc _ _ ops op

theorem Server.returns_snoc (i : Int) (ops : List Op) (op : Op) :
    Server.returns E i (ops ++ [op]) =
      Server.returns E i ops + ((Server.run E ops).givesBack E op i).toNat :=
  Server.count_snoc _ _ ops op

theorem Server.givesBack_iff {s : Server F} {op : Op} {i : Int} :
    s.givesBack E op i = true ↔ ∃ clientId, s.Releases E op i clientId := by
  constructor
  · intro h
    unfold Server.givesBack at h
    split at h
    next j clientId hact hr =>
      have hj : j = i := by simpa using h
      exact ⟨clientId, hj ▸ hact, hr⟩
    next => cases h
  · rintro ⟨clientId, hact, hr⟩
    simp [Server.givesBack, hact, hr]

theorem Server.expires_eq_false {s : Server F} {op : Op} {i : Int} (h : op.act ≠ .call .recover) :
    s.expires E op i = false := by
  unfold Server.expires
  split
  next hact => exact absurd hact h
  next => rfl

/-- Only a pair that is out is given back. -/
theorem Server.Releases.holder {s : Server F} {op : Op} {i clientId : Int}
    (h : s.Releases E op i clientId) :
    ∃ p, s.db.jobPairs.find i = some p ∧ p.leasedBy clientId = true := by
  obtain ⟨hact, hreply⟩ := h
  have hcall : s.callOf op.act = some (.abandon i clientId) := by rw [hact]; rfl
  rcases Server.reply_ok hcall hreply with ⟨db', heff⟩ | heff
  · exact absurd rfl heff.rollback_answer.2.2
  · rcases heff.abandon_commit with ⟨hr, -⟩ | hheld
    · cases hr
    · exact hheld

/-- A lease that has begun and not ended: the pair is out, or its result came back. -/
def PairRow.held (p : PairRow) : Nat :=
  if p.status = .leased ∨ p.status = .completed then 1 else 0

theorem PairRow.held_expire (p : PairRow) (maxAttempts : Int) : (p.expire maxAttempts).held = 0 := by
  unfold PairRow.held PairRow.expire
  dsimp only
  split <;> simp

/-- An attempt begins with a delivery, and is over when the lease expires or is given back. -/
theorem PairMove.attempt {s : Server F} {op : Op} {i : Int} {o o' : Option PairRow}
    (h : PairMove E s op i o o') (ho : s.db.jobPairs.find i = o)
    (ho' : (s.step E op).db.jobPairs.find i = o') :
    o'.elim 0 (·.attempts) + o.elim 0 (·.held) =
      o.elim 0 (·.attempts) + o'.elim 0 (·.held) +
        ((s.expires E op i).toNat + (s.givesBack E op i).toNat) := by
  have kept : (∀ clientId, ¬s.Releases E op i clientId) → s.givesBack E op i = false := by
    intro hno
    rw [Bool.eq_false_iff]
    rintro hyes
    obtain ⟨clientId, hr⟩ := Server.givesBack_iff.mp hyes
    exact hno clientId hr
  have elsewhere : ∀ c, op.act = .call c → c ≠ .recover → s.expires E op i = false := by
    intro c hact hne
    refine Server.expires_eq_false fun h => hne ?_
    rw [hact] at h
    injection h
  cases h with
  | same _ _ _ hno =>
    have hexp : s.expires E op i = false := by
      unfold Server.expires Db.isLeased
      split
      next => rw [ho, ho']; cases Option.any (fun p : PairRow => p.status == .leased) o <;> rfl
      next => rfl
    simp [kept hno, hexp]
  | born p hf hd =>
    have hexp : s.expires E op i = false := by
      unfold Server.expires Db.isLeased
      split
      next => rw [ho]; rfl
      next => rfl
    have hback : s.givesBack E op i = false := by
      refine kept fun clientId hr => ?_
      obtain ⟨q, hq, -⟩ := hr.holder
      rw [ho] at hq
      cases hq
    simp [hf.1, hf.2.1, PairRow.held, hexp, hback]
  | leased p t clientId slotsFree until_ hact hd hpend =>
    have hexp := elsewhere _ hact (by simp)
    have hback : s.givesBack E op i = false := by simp [Server.givesBack, hact]
    simp [PairRow.lease, PairRow.held, hpend, hexp, hback]
  | completed p report ha hl =>
    have hexp := elsewhere _ ha.1 (by simp)
    have hback : s.givesBack E op i = false := by simp [Server.givesBack, ha.1]
    simp [PairRow.complete, PairRow.held, (PairRow.leasedBy_iff.mp hl).1, hexp, hback]
  | released p clientId hr hl =>
    have hexp := elsewhere _ hr.1 (by simp)
    have hback : s.givesBack E op i = true := Server.givesBack_iff.mpr ⟨clientId, hr⟩
    simp [PairRow.release, PairRow.held, (PairRow.leasedBy_iff.mp hl).1, hexp, hback]
  | expired p hact hl =>
    have hne := p.status_expire E.cfg.maxAttempts
    have hexp : s.expires E op i = true := by
      simp [Server.expires, hact, Db.isLeased, ho, ho', hl, hne]
    have hback : s.givesBack E op i = false := by simp [Server.givesBack, hact]
    have hheld := p.held_expire E.cfg.maxAttempts
    have hout : p.held = 1 := by simp [PairRow.held, hl]
    have hatt : (p.expire E.cfg.maxAttempts).attempts = p.attempts := rfl
    simp only [Option.elim_some, hheld, hatt, hout, hexp, hback, Bool.toNat_true, Bool.toNat_false]

/-- The attempts of a pair are its ended leases and the one that has not ended. -/
theorem run_attempts_ended (E : Env F) (ops : List Op) (i : Int) :
    ((Server.run E ops).db.jobPairs.find i).elim 0 (·.attempts) =
      Server.expiries E i ops + Server.returns E i ops +
        ((Server.run E ops).db.jobPairs.find i).elim 0 (·.held) := by
  induction ops using List.reverseRecOn with
  | nil => rfl
  | append_singleton ops op ih =>
    have hstep := (run_step_pair E ops op i).attempt rfl (by rw [Server.run_snoc])
    rw [Server.expiries_snoc, Server.returns_snoc]
    omega

/-- A pair is discarded by the expiry that finds `max_attempts` of its leases ended, whether they
expired or were given back, and by nothing else. -/
theorem discarded_iff_leases_used_up (E : Env F) (ops : List Op) (op : Op) (i : Int) (p p' : PairRow)
    (hp : (Server.run E ops).db.jobPairs.find i = some p)
    (hp' : (Server.run E (ops ++ [op])).db.jobPairs.find i = some p')
    (hs : p.status ≠ .discarded) :
    p'.status = .discarded ↔ (Server.run E ops).expires E op i = true ∧
      E.cfg.maxAttempts ≤ Server.expiries E i (ops ++ [op]) + Server.returns E i (ops ++ [op]) := by
  have hended := run_attempts_ended E (ops ++ [op]) i
  have hmove := run_step_pair E ops op i
  rw [hp'] at hended
  have hafter : ((Server.run E ops).step E op).db.jobPairs.find i = some p' := by
    rw [← Server.run_snoc]
    exact hp'
  have hexp : (Server.run E ops).expires E op i = true → op.act = .call .recover ∧
      p.status = .leased ∧ p'.status ≠ .leased := by
    intro h
    unfold Server.expires Db.isLeased at h
    split at h
    next hact => simpa [hact, hp, hafter] using h
    next => cases h
  rw [hp, hp'] at hmove
  generalize ho : some p = o at hmove
  generalize ho' : some p' = o' at hmove
  constructor
  · intro hd
    cases hmove with
    | same =>
      cases ho
      cases ho'
      exact absurd hd hs
    | born => cases ho
    | leased => cases ho'; simp [PairRow.lease] at hd
    | completed => cases ho'; simp [PairRow.complete] at hd
    | released => cases ho'; simp [PairRow.release] at hd
    | expired q hact hl =>
      cases ho
      cases ho'
      have hmax : E.cfg.maxAttempts ≤ p.attempts := by
        by_contra hlt
        simp [PairRow.expire, hlt] at hd
      have hatt : (p.expire E.cfg.maxAttempts).attempts = p.attempts := rfl
      have hheld := p.held_expire E.cfg.maxAttempts
      simp only [Option.elim_some, hatt, hheld] at hended
      refine ⟨?_, by omega⟩
      simp [Server.expires, hact, Db.isLeased, hp, hafter, hl, hd]
  · rintro ⟨hyes, hmax⟩
    obtain ⟨hact, hl, hl'⟩ := hexp hyes
    cases hmove with
    | same =>
      cases ho
      cases ho'
      exact absurd hl hl'
    | born => cases ho
    | leased _ _ _ _ _ hact' => cases hact.symm.trans hact'
    | completed _ _ ha => cases hact.symm.trans ha.1
    | released _ _ hr => cases hact.symm.trans hr.1
    | expired q =>
      cases ho
      cases ho'
      have hatt : (p.expire E.cfg.maxAttempts).attempts = p.attempts := rfl
      have hheld := p.held_expire E.cfg.maxAttempts
      simp only [Option.elim_some, hatt, hheld] at hended
      have hle : E.cfg.maxAttempts ≤ p.attempts := by omega
      simp [PairRow.expire, hle]

/-- The default server, with two attempts for a pair. -/
noncomputable def twoAttempts : Env ℝ := { realEnv with cfg := { maxAttempts := 2 } }

/-- The only pair is claimed, given back, and claimed again. -/
def returnedOnce : List Op :=
  opening 1 ++
    [{ now := 1, act := .call (.claim 1 1) }, { now := 2, act := .call (.abandon 1 1) },
     { now := 3, act := .call (.claim 1 1) }]

def recoverLate : Op := { now := 10000, act := .call .recover }

/-- The pair is out when its lease expires, and the expiry discards it. -/
theorem returnedOnce_discards :
    ∃ p p', (Server.run twoAttempts returnedOnce).db.jobPairs.find 1 = some p ∧
      (Server.run twoAttempts (returnedOnce ++ [recoverLate])).db.jobPairs.find 1 = some p' ∧
      p.status ≠ .discarded ∧ p'.status = .discarded := by
  have hb : ((Server.run twoAttempts returnedOnce).db.jobPairs.find 1).any
      (·.status != .discarded) = true := by decide +kernel
  have ha : ((Server.run twoAttempts (returnedOnce ++ [recoverLate])).db.jobPairs.find 1).any
      (·.status == .discarded) = true := by decide +kernel
  obtain ⟨p, hp, hs⟩ := (Option.any_eq_true _ _).mp hb
  obtain ⟨p', hp', hs'⟩ := (Option.any_eq_true _ _).mp ha
  exact ⟨p, p', hp, hp', by simpa using hs, by simpa using hs'⟩

theorem returnedOnce_used_up :
    ∃ p', (Server.run twoAttempts (returnedOnce ++ [recoverLate])).db.jobPairs.find 1 = some p' ∧
      (p'.status = .discarded ↔
        (Server.run twoAttempts returnedOnce).expires twoAttempts recoverLate 1 = true ∧
        twoAttempts.cfg.maxAttempts ≤
          Server.expiries twoAttempts 1 (returnedOnce ++ [recoverLate]) +
            Server.returns twoAttempts 1 (returnedOnce ++ [recoverLate])) := by
  obtain ⟨p, p', hp, hp', hs, -⟩ := returnedOnce_discards
  exact ⟨p', hp', discarded_iff_leases_used_up twoAttempts returnedOnce recoverLate 1 p p' hp hp' hs⟩

/-- With two attempts, a pair that was given back once is discarded at its first expiry. -/
theorem returned_pair_discarded :
    ¬∀ (E : Env ℝ) (ops : List Op) (op : Op) (i : Int) (p p' : PairRow),
      1 ≤ E.cfg.maxAttempts → op.act = .call .recover →
      (Server.run E ops).db.jobPairs.find i = some p →
      (Server.run E (ops ++ [op])).db.jobPairs.find i = some p' → p.status ≠ .discarded →
      p'.status = .discarded → E.cfg.maxAttempts ≤ Server.expiries E i (ops ++ [op]) := by
  intro hall
  obtain ⟨p, p', hp, hp', hs, hd⟩ := returnedOnce_discards
  have hclaim := hall twoAttempts returnedOnce recoverLate 1 p p' (by decide) rfl hp hp' hs hd
  have hone : Server.expiries twoAttempts 1 (returnedOnce ++ [recoverLate]) = 1 := by
    decide +kernel
  rw [hone] at hclaim
  exact absurd hclaim (by decide)

end CapiNet
