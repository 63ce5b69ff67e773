import CapiNet.QueueStep

namespace CapiNet

open Txn Relational

variable {F : Type}

/-- The lease columns a status calls for. -/
def PairRow.Coherent (p : PairRow) : Prop :=
  match p.status with
  | .pending => p.leasedTo = none ∧ p.leasedAt = none ∧ p.leaseExpiresAt = none
  | .leased => p.leasedTo.isSome ∧ p.leasedAt.isSome ∧ p.leaseExpiresAt.isSome
  | .completed =>
    p.leasedTo.isSome ∧ p.leasedAt.isSome ∧ p.leaseExpiresAt.isSome ∧ p.completedAt.isSome
  | .discarded => p.discardedReason.isSome

namespace PairRow

theorem Fresh.coherent {p : PairRow} (h : p.Fresh) : p.Coherent := by
  obtain ⟨hs, -, ht, ha, he, -, -⟩ := h
  rw [Coherent, hs]
  exact ⟨ht, ha, he⟩

theorem coherent_lease (p : PairRow) (clientId : Int) (now until_ : ℚ) :
    (p.lease clientId now until_).Coherent := ⟨rfl, rfl, rfl⟩

theorem leasedBy_iff {p : PairRow} {clientId : Int} :
    p.leasedBy clientId = true ↔ p.status = .leased ∧ p.leasedTo = some clientId := by
  simp [leasedBy]

theorem Coherent.complete {p : PairRow} (h : p.Coherent) (hs : p.status = .leased) (now : ℚ) :
    (p.complete now).Coherent := by
  rw [Coherent, hs] at h
  exact ⟨h.1, h.2.1, h.2.2, rfl⟩

theorem coherent_release (p : PairRow) : p.release.Coherent := ⟨rfl, rfl, rfl⟩

theorem coherent_expire (p : PairRow) (maxAttempts : Int) : (p.expire maxAttempts).Coherent := by
  unfold Coherent expire
  by_cases h : maxAttempts ≤ p.attempts
  · simp [h]
  · simp [h]

theorem status_expire (p : PairRow) (maxAttempts : Int) :
    (p.expire maxAttempts).status ≠ .leased := by
  unfold expire
  dsimp only
  split <;> simp

end PairRow

theorem Db.Positioned.of_shapes {db db' : Db F} (h : db.Positioned) (hs : db'.shapes = db.shapes)
    (hp : db'.positions = db.positions) : db'.Positioned := by
  intro p hmem
  have hshape : p.shape ∈ db.shapes := by
    rw [← hs]
    exact List.mem_map_of_mem hmem
  obtain ⟨q, hq, heq⟩ := List.mem_map.mp hshape
  obtain ⟨op, hop⟩ := h q hq
  have hid : q.positionId = p.positionId := congrArg (·.2.2) heq
  exact ⟨op, by rw [hp, ← hid]; exact hop⟩

theorem Enqueued.positioned {db db' : Db F} {testId : Int} {fens : List String} {vlog : String}
    (h : Enqueued db testId fens vlog db') (hpos : db.Positioned) : db'.Positioned := by
  obtain ⟨ops, hops, -, -⟩ := h.positions
  obtain ⟨new, hnew, -, hall⟩ := h.pairs
  intro p hp
  rw [hnew] at hp
  rcases List.mem_append.mp hp with hp | hp
  · obtain ⟨op, hop⟩ := hpos p hp
    obtain ⟨hmem, hid⟩ := Table.find_some hop
    exact ⟨op, Table.find_eq_some.mpr ⟨by rw [hops]; exact List.mem_append_left _ hmem, hid⟩⟩
  · obtain ⟨-, -, op, hop, hid⟩ := hall p hp
    exact ⟨op, by rw [hid]; exact Table.find_of_mem hop⟩

variable [LinearOrder F] {E : Env F}

theorem Effect.positioned {now : ℚ} {skip : Lock → Bool} {db db' : Db F} {c : Call} {r : Reply}
    (h : Effect E now skip db c (.commit r) db') (hpos : db.Positioned) : db'.Positioned := by
  by_cases hsmoke : ∃ job x random, c = .smoke job x random
  · obtain ⟨job, x, random, rfl⟩ := hsmoke
    rcases h.smoke_commit with ⟨t, vlog, -, -, rfl⟩ | ⟨t, fens, vlog, promoted, db₁, -, -, -, href, hp⟩
    · exact hpos
    · have hsame := href.sameQueue.trans hp.sameQueue
      exact ((enqueue_spec db job.testId fens random vlog).positioned hpos).of_shapes hsame.shapes
        hsame.positions
  · obtain ⟨hs, hp⟩ := h.shapes (by simp) fun job x random hc => hsmoke ⟨job, x, random, hc⟩
    exact hpos.of_shapes hs hp

/-- An invariant of the database: kept by every effect that commits. -/
theorem Server.db_induction {I : Db F → Prop} (init : I .empty)
    (step : ∀ now skip c r db db', I db → Effect E now skip db c (.commit r) db' → I db')
    (ops : List Op) : I (Server.run E ops).db := by
  refine Server.run_induction (I := fun s => I s.db) init (fun s op hs => ?_) ops
  rcases s.step_db E op with hdb | ⟨c, r, -, -, h⟩
  · rw [hdb]; exact hs
  · exact step _ _ c r _ _ hs h

theorem run_positioned (E : Env F) (ops : List Op) : (Server.run E ops).db.Positioned :=
  Server.db_induction (I := Db.Positioned) (by simp [Db.Positioned, Db.empty])
    (fun _ _ _ _ _ _ hpos h => h.positioned hpos) ops

/-- How a step of a run moves a pair. -/
theorem run_step_pair (E : Env F) (ops : List Op) (op : Op) (i : Int) :
    PairMove E (Server.run E ops) op i ((Server.run E ops).db.jobPairs.find i)
      ((Server.run E (ops ++ [op])).db.jobPairs.find i) := by
  rw [Server.run_snoc]
  exact Server.step_pair E _ op (run_positioned E ops) i

theorem PairMove.coherent {s : Server F} {op : Op} {i : Int} {o : Option PairRow} {p' : PairRow}
    (h : PairMove E s op i o (some p')) (ho : ∀ p, o = some p → p.Coherent) : p'.Coherent := by
  cases h with
  | same => exact ho p' rfl
  | born _ hf => exact hf.coherent
  | leased p => exact p.coherent_lease _ _ _
  | completed p report _ hl => exact (ho p rfl).complete (PairRow.leasedBy_iff.mp hl).1 _
  | released p => exact p.coherent_release
  | expired p => exact p.coherent_expire _

/-- A move keeps a terminal row as it is. -/
theorem PairMove.terminal {s : Server F} {op : Op} {i : Int} {p : PairRow} {o : Option PairRow}
    (h : PairMove E s op i (some p) o) (hs : p.status = .completed ∨ p.status = .discarded) :
    o = some p := by
  cases h with
  | same => rfl
  | leased _ _ _ _ _ _ _ hp => simp [hp] at hs
  | completed _ _ _ hl => simp [(PairRow.leasedBy_iff.mp hl).1] at hs
  | released _ _ _ hl => simp [(PairRow.leasedBy_iff.mp hl).1] at hs
  | expired _ _ hl => simp [hl] at hs

/-- One for a step that delivers the pair. -/
def Server.deliveries (E : Env F) (s : Server F) (op : Op) (i : Int) : Nat :=
  if i ∈ s.delivered E op then 1 else 0

theorem PairMove.attempts {s : Server F} {op : Op} {i : Int} {o : Option PairRow} {p' : PairRow}
    (h : PairMove E s op i o (some p')) :
    p'.attempts = o.elim 0 (·.attempts) + s.deliveries E op i := by
  unfold Server.deliveries
  cases h with
  | same _ hd => simp [hd]
  | born _ hf hd => simp [hd, hf.2.1]
  | leased p _ _ _ _ _ hd => simp [hd, PairRow.lease]
  | completed p report ha => simp [ha.not_delivered, PairRow.complete]
  | released p _ hr => simp [hr.not_delivered, PairRow.release]
  | expired p _ _ hd => simp [hd, PairRow.expire]

/-- Induction over a run, for one pair: a property of its row that every move keeps. -/
theorem run_pairs {I : List Op → Option PairRow → Prop} (i : Int) (init : I [] none)
    (step : ∀ ops op o o', I ops o → PairMove E (Server.run E ops) op i o o' → I (ops ++ [op]) o')
    (ops : List Op) : I ops ((Server.run E ops).db.jobPairs.find i) := by
  induction ops using List.reverseRecOn with
  | nil => exact init
  | append_singleton ops op ih => exact step ops op _ _ ih (run_step_pair E ops op i)

theorem run_coherent (E : Env F) (ops : List Op) {i : Int} {p : PairRow}
    (h : (Server.run E ops).db.jobPairs.find i = some p) : p.Coherent := by
  have hall : ∀ p, (Server.run E ops).db.jobPairs.find i = some p → p.Coherent := by
    refine run_pairs (E := E) (I := fun _ o => ∀ p, o = some p → p.Coherent) i (by simp) ?_ ops
    rintro ops op o o' ho hmove p rfl
    exact hmove.coherent ho
  exact hall p h

/-- How many steps of a run delivered a pair. -/
def Server.claimCount (E : Env F) (i : Int) : Server F → List Op → Nat
  | _, [] => 0
  | s, op :: ops => s.deliveries E op i + claimCount E i (s.step E op) ops

theorem Server.claimCount_snoc (i : Int) (s : Server F) (ops : List Op) (op : Op) :
    Server.claimCount E i s (ops ++ [op]) =
      Server.claimCount E i s ops + (Server.runFrom E s ops).deliveries E op i := by
  induction ops generalizing s with
  | nil => simp [Server.claimCount]
  | cons o ops ih =>
    simp only [List.cons_append, Server.claimCount, ih, Server.runFrom_cons]
    omega

theorem run_attempts (E : Env F) (ops : List Op) (i : Int) :
    (((Server.run E ops).db.jobPairs.find i).elim 0 (·.attempts)) =
      Server.claimCount E i .init ops := by
  refine run_pairs (E := E) (I := fun ops o => o.elim 0 (·.attempts) =
    Server.claimCount E i .init ops) i rfl ?_ ops
  intro ops op o o' ho hmove
  rw [Server.claimCount_snoc, ← ho]
  cases o' with
  | some p' => exact hmove.attempts
  | none =>
    cases hmove with
    | same _ hd =>
      have hz : (Server.run E ops).deliveries E op i = 0 := if_neg hd
      change 0 = 0 + (Server.run E ops).deliveries E op i
      omega

end CapiNet
