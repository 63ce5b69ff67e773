import CapiNet.ExactlyOnce
import CapiNet.LeaseExclusive

namespace CapiNet

open Txn Relational

variable {F : Type} [LinearOrder F] {E : Env F}

/-- The step is a claim by this client. -/
def Op.claimsFor (op : Op) (clientId : Int) : Prop :=
  ∃ slotsFree, op.act = .call (.claim clientId slotsFree)

/-- The step submits a result of the pair for this client, or abandons it. -/
def Op.returns (op : Op) (i clientId : Int) : Prop :=
  (∃ report : RoutedReport, op.act = .call (.submit i report) ∧ report.clientId = clientId) ∨
    op.act = .call (.abandon i clientId)

/-- The pair is not leased to the client. -/
def NotHeld (s : Server F) (i clientId : Int) : Prop :=
  ∀ p, s.db.jobPairs.find i = some p → p.leasedBy clientId = false

/-- The pair is leased to the client. -/
def Holds (s : Server F) (i clientId : Int) : Prop :=
  ∃ p, s.db.jobPairs.find i = some p ∧ p.leasedBy clientId = true

omit [LinearOrder F] in
theorem notHeld_iff {s : Server F} {i clientId : Int} :
    NotHeld s i clientId ↔ ¬Holds s i clientId := by
  simp [NotHeld, Holds]

theorem NotHeld.step {ops : List Op} {op : Op} {i clientId : Int}
    (h : NotHeld (Server.run E ops) i clientId)
    (hc : op.claimsFor clientId → i ∉ (Server.run E ops).delivered E op) :
    NotHeld (Server.run E (ops ++ [op])) i clientId := by
  intro p hp
  have hmove := run_step_pair E ops op i
  rw [hp] at hmove
  generalize ho : (Server.run E ops).db.jobPairs.find i = o at hmove
  cases hmove with
  | same => exact h p ho
  | born _ hf => simp [PairRow.leasedBy, hf.1]
  | leased q t c slotsFree until_ hact hd =>
    have hne : c ≠ clientId := by
      rintro rfl
      exact hc ⟨slotsFree, hact⟩ hd
    simpa [PairRow.leasedBy, PairRow.lease] using hne
  | completed => simp [PairRow.leasedBy, PairRow.complete]
  | released => simp [PairRow.leasedBy, PairRow.release]
  | expired q =>
    have hs := q.status_expire E.cfg.maxAttempts
    simp [PairRow.leasedBy, hs]

/-- A committed abandonment releases a pair the client holds, or changes nothing. -/
theorem Effect.abandon_commit {now : ℚ} {skip : Lock → Bool} {db db' : Db F} {i clientId : Int}
    {r : Reply} (h : Effect E now skip db (.abandon i clientId) (.commit r) db') :
    (r = .abandon false ∧ db' = db) ∨
      ∃ p, db.jobPairs.find i = some p ∧ p.leasedBy clientId = true := by
  generalize hout : Finish.commit r = out at h
  generalize hcall : Call.abandon i clientId = c at h
  cases h with
  | abandon _ _ _ _ _ hs hfin =>
    cases hcall
    subst hfin
    cases hs with
    | refused => cases hout; exact .inl ⟨rfl, rfl⟩
    | released p hp hl => exact .inr ⟨p, hp, hl⟩
  | _ => cases hcall

/-- A client that holds a pair it did not hold before got it by a claim, and held it since. -/
theorem Holds.claimed {ops more : List Op} {i clientId : Int}
    (hstart : NotHeld (Server.run E ops) i clientId)
    (hend : Holds (Server.run E (ops ++ more)) i clientId) :
    ∃ a o b, more = a ++ o :: b ∧ o.claimsFor clientId ∧
      i ∈ (Server.run E (ops ++ a)).delivered E o ∧
      ∀ b₁ b₂, b = b₁ ++ b₂ → Holds (Server.run E (ops ++ a ++ o :: b₁)) i clientId := by
  induction more using List.reverseRecOn with
  | nil => exact absurd hend (notHeld_iff.mp (by simpa using hstart))
  | append_singleton more op ih =>
    by_cases hclaim : op.claimsFor clientId ∧ i ∈ (Server.run E (ops ++ more)).delivered E op
    · refine ⟨more, op, [], rfl, hclaim.1, hclaim.2, fun b₁ b₂ hb => ?_⟩
      obtain ⟨rfl, -⟩ := List.append_eq_nil_iff.mp hb.symm
      simpa using hend
    · have hbefore : Holds (Server.run E (ops ++ more)) i clientId := by
        by_contra hno
        rw [← List.append_assoc] at hend
        refine absurd hend (notHeld_iff.mp (NotHeld.step (notHeld_iff.mpr hno) fun hc hd => ?_))
        exact hclaim ⟨hc, hd⟩
      obtain ⟨a, o, b, rfl, hc, hd, hb⟩ := ih hbefore
      refine ⟨a, o, b ++ [op], by simp, hc, hd, fun b₁ b₂ heq => ?_⟩
      rcases List.append_eq_append_iff.mp heq with ⟨c, rfl, hop⟩ | ⟨c, hb₁, -⟩
      · cases c with
        | nil => simpa using hb b [] (by simp)
        | cons x c =>
          obtain ⟨rfl, hnil⟩ := List.cons_eq_cons.mp hop
          obtain ⟨rfl, -⟩ := List.append_eq_nil_iff.mp hnil.symm
          simpa using hend
      · exact hb b₁ c hb₁

end CapiNet
