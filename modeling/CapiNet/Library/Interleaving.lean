import CapiNet.Library.Transaction

namespace Txn

variable {χ σ κ ε ρ : Type}

/-- What a lock request locks. Statements may ask for one lock in different ways. -/
class Lockable (κ : Type) where
  target : κ → κ

open Lockable (target)

/-- An open transaction is what it has left to do, its writes and its locks. -/
inductive Phase (σ κ ε ρ : Type) : Type
  | running (rest : Script σ κ ε (Finish ρ)) (writes : σ → σ) (held : List κ)
  | ended (result : Option (Finish ρ))

structure Session (χ σ κ ε ρ : Type) : Type where
  call : χ
  phase : Phase σ κ ε ρ

/-- Transactions under READ COMMITTED. A statement sees what is committed when it starts and, on
top, the writes of its own transaction; a lock is kept until the transaction ends; the writes reach
the database at the commit, or never. -/
structure World (χ σ κ ε ρ : Type) : Type where
  db : σ
  sessions : List (Session χ σ κ ε ρ)

inductive Event (χ : Type) : Type
  | start (c : χ)
  | advance (i : Nat)
  | kill (i : Nat)

def Session.held (s : Session χ σ κ ε ρ) : List κ :=
  match s.phase with
  | .running _ _ held => held
  | .ended _ => []

namespace World

variable [DecidableEq κ]

/-- Some other open transaction holds the lock. -/
def lockedFor (W : World χ σ κ ε ρ) (i : Nat) (key : κ) : Bool :=
  W.sessions.zipIdx.any fun e => e.2 != i && decide (key ∈ e.1.held)

theorem lockedFor_eq_false {W : World χ σ κ ε ρ} {i : Nat} {key : κ} :
    W.lockedFor i key = false ↔
      ∀ j s, W.sessions[j]? = some s → j ≠ i → key ∉ s.held := by
  simp only [lockedFor, List.any_eq_false, Bool.and_eq_true, bne_iff_ne, decide_eq_true_eq,
    not_and, Prod.forall, List.mem_zipIdx_iff_getElem?]
  constructor
  · intro h j s hj hne
    exact h s j hj hne
  · intro h s j hj hne
    exact h j s hj hne

def setPhase (W : World χ σ κ ε ρ) (i : Nat) (c : χ) (p : Phase σ κ ε ρ) : World χ σ κ ε ρ :=
  { W with sessions := W.sessions.set i ⟨c, p⟩ }

/-- One event; `none` when the transaction is over or its next lock is held by another. -/
def next [Lockable κ] (program : χ → Script σ κ ε (Finish ρ)) (W : World χ σ κ ε ρ) :
    Event χ → Option (World χ σ κ ε ρ)
  | .start c => some { W with sessions := W.sessions ++ [⟨c, .running (program c) id []⟩] }
  | .kill i =>
    match W.sessions[i]? with
    | some ⟨c, .running _ _ _⟩ => some (W.setPhase i c (.ended none))
    | _ => none
  | .advance i =>
    match W.sessions[i]? with
    | some ⟨c, .running rest w held⟩ =>
      match rest with
      | .pure (.commit r) => some { W.setPhase i c (.ended (some (.commit r))) with db := w W.db }
      | .pure (.rollback r) => some (W.setPhase i c (.ended (some (.rollback r))))
      | .raise _ => some (W.setPhase i c (.ended none))
      | .query k => some (W.setPhase i c (.running (k (w W.db)) w held))
      | .write f n => some (W.setPhase i c (.running n (f ∘ w) held))
      | .lock key n =>
        if W.lockedFor i (target key) then none
        else some (W.setPhase i c (.running n w (target key :: held)))
      | .skipLocked cands key limit k =>
        let got := Script.unlocked (fun j => W.lockedFor i (key j)) limit (cands (w W.db))
        some (W.setPhase i c (.running (k got) w (got.map key ++ held)))
    | _ => none

/-- The next step of a session is a lock request, if it is one, that is allowed. -/
def granted (allow : χ → List κ → κ → σ → Bool) (W : World χ σ κ ε ρ) : Event χ → Bool
  | .advance i =>
    match W.sessions[i]? with
    | some ⟨c, .running (.lock key _) _ held⟩ => allow c held key W.db
    | _ => true
  | _ => true

/-- Run a schedule in which every lock request is allowed. -/
def runs [Lockable κ] (program : χ → Script σ κ ε (Finish ρ)) (allow : χ → List κ → κ → σ → Bool) :
    World χ σ κ ε ρ → List (Event χ) → Option (World χ σ κ ε ρ)
  | W, [] => some W
  | W, e :: es =>
    if W.granted allow e then (next program W e).bind (runs program allow · es) else none

end World

/-- Which calls a run may make, and in which states a call may be granted a lock. -/
structure Discipline (χ σ κ : Type) where
  calls : χ → Prop
  locks : χ → List κ → κ → σ → Prop

/-- Any lock may be granted. -/
def Discipline.only (calls : χ → Prop) : Discipline χ σ κ := ⟨calls, fun _ _ _ _ => True⟩

def Permitted (D : Discipline χ σ κ) (W : World χ σ κ ε ρ) : Event χ → Prop
  | .start c => D.calls c
  | .kill _ => True
  | .advance i => ∀ c key n w held,
      W.sessions[i]? = some ⟨c, .running (.lock key n) w held⟩ → D.locks c held key W.db

inductive Run [DecidableEq κ] [Lockable κ] (program : χ → Script σ κ ε (Finish ρ)) (D : Discipline χ σ κ)
    (W : World χ σ κ ε ρ) : World χ σ κ ε ρ → Prop
  | refl : Run program D W W
  | step {V V' e} : Run program D W V → Permitted D V e → V.next program e = some V' →
      Run program D W V'

variable [DecidableEq κ] [Lockable κ] {program : χ → Script σ κ ε (Finish ρ)} {D : Discipline χ σ κ}

theorem Run.trans {U V W : World χ σ κ ε ρ} (h : Run program D U V) (h' : Run program D V W) :
    Run program D U W := by
  induction h' with
  | refl => exact h
  | step _ hp hn ih => exact .step ih hp hn

/-- A schedule that goes through is a run. -/
theorem Run.of_runs {allow : χ → List κ → κ → σ → Bool} {es : List (Event χ)}
    {W V : World χ σ κ ε ρ} (hc : ∀ c, .start c ∈ es → D.calls c)
    (ha : ∀ c held key s, allow c held key s = true → D.locks c held key s)
    (h : W.runs program allow es = some V) : Run program D W V := by
  induction es generalizing W with
  | nil => cases Option.some.inj h; exact .refl
  | cons e es ih =>
    simp only [World.runs] at h
    split at h
    next hg =>
      obtain ⟨U, hU, hV⟩ := Option.bind_eq_some_iff.mp h
      have hp : Permitted D W e := by
        cases e with
        | start c => exact hc c (by simp)
        | kill i => trivial
        | advance i =>
          intro c key n w held hi
          simp only [World.granted, hi] at hg
          exact ha c held key W.db hg
      exact (Run.step .refl hp hU).trans (ih (fun c hm => hc c (by simp [hm])) hV)
    next => cases h

/-- The ways a transaction can move, and what each does to the database and to its own phase. -/
theorem advance_cases {W V : World χ σ κ ε ρ} {i : Nat} (h : W.next program (.advance i) = some V) :
    ∃ c rest w held, W.sessions[i]? = some ⟨c, .running rest w held⟩ ∧
      ((∃ r, rest = .pure (.commit r) ∧
          V = { W.setPhase i c (.ended (some (.commit r))) with db := w W.db }) ∨
       (∃ r, rest = .pure (.rollback r) ∧ V = W.setPhase i c (.ended (some (.rollback r)))) ∨
       (∃ e, rest = .raise e ∧ V = W.setPhase i c (.ended none)) ∨
       (∃ k, rest = .query k ∧ V = W.setPhase i c (.running (k (w W.db)) w held)) ∨
       (∃ f n, rest = .write f n ∧ V = W.setPhase i c (.running n (f ∘ w) held)) ∨
       (∃ key n, rest = .lock key n ∧ W.lockedFor i (target key) = false ∧
          V = W.setPhase i c (.running n w (target key :: held))) ∨
       (∃ cands key limit k got, rest = .skipLocked cands key limit k ∧
          got = Script.unlocked (fun j => W.lockedFor i (key j)) limit (cands (w W.db)) ∧
          V = W.setPhase i c (.running (k got) w (got.map key ++ held)))) := by
  simp only [World.next] at h
  split at h
  next c rest w held hi =>
    refine ⟨c, rest, w, held, hi, ?_⟩
    split at h
    next r => exact .inl ⟨r, rfl, (Option.some.inj h).symm⟩
    next r => exact .inr (.inl ⟨r, rfl, (Option.some.inj h).symm⟩)
    next e => exact .inr (.inr (.inl ⟨e, rfl, (Option.some.inj h).symm⟩))
    next k => exact .inr (.inr (.inr (.inl ⟨k, rfl, (Option.some.inj h).symm⟩)))
    next f n => exact .inr (.inr (.inr (.inr (.inl ⟨f, n, rfl, (Option.some.inj h).symm⟩))))
    next key n =>
      split at h
      next => cases h
      next hl =>
        exact .inr (.inr (.inr (.inr (.inr (.inl
          ⟨key, n, rfl, by simpa using hl, (Option.some.inj h).symm⟩)))))
    next cands key limit k =>
      exact .inr (.inr (.inr (.inr (.inr (.inr
        ⟨cands, key, limit, k, _, rfl, rfl, (Option.some.inj h).symm⟩)))))
  next => cases h

end Txn
