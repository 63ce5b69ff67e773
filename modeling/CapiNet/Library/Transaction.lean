import Mathlib.Data.List.Basic

namespace Txn

/-- `σ` is the database, `κ` the lockable things, `ε` the errors a statement can raise. -/
inductive Script (σ κ ε α : Type) : Type
  | pure (a : α)
  | raise (e : ε)
  | query (k : σ → Script σ κ ε α)
  | write (w : σ → σ) (next : Script σ κ ε α)
  | lock (key : κ) (next : Script σ κ ε α)
  | skipLocked (cands : σ → List Int) (key : Int → κ) (limit : Option Nat)
      (k : List Int → Script σ κ ε α)

/-- How a script that does not raise leaves its transaction. -/
inductive Finish (ρ : Type) : Type
  | commit (r : ρ)
  | rollback (r : ρ)

def Finish.map {ρ ρ' : Type} (f : ρ → ρ') : Finish ρ → Finish ρ'
  | .commit r => .commit (f r)
  | .rollback r => .rollback (f r)

namespace Script

variable {σ κ ε α β γ : Type}

def bind : Script σ κ ε α → (α → Script σ κ ε β) → Script σ κ ε β
  | .pure a, f => f a
  | .raise e, _ => .raise e
  | .query k, f => .query fun s => (k s).bind f
  | .write w n, f => .write w (n.bind f)
  | .lock key n, f => .lock key (n.bind f)
  | .skipLocked c key l k, f => .skipLocked c key l fun got => (k got).bind f

instance : Monad (Script σ κ ε) where
  pure := .pure
  bind := .bind

/-- A statement that reads `f` of what it sees. -/
def select (f : σ → β) : Script σ κ ε β := .query fun s => .pure (f s)

/-- A statement that changes what it sees. -/
def update (w : σ → σ) : Script σ κ ε Unit := .write w (.pure ())

/-- Wait for a lock; it is kept until the transaction ends. -/
def acquire (key : κ) : Script σ κ ε Unit := .lock key (.pure ())

/-- `FOR UPDATE SKIP LOCKED LIMIT`: lock and return the first candidates no other transaction
has locked. -/
def pick (cands : σ → List Int) (key : Int → κ) (limit : Option Nat) :
    Script σ κ ε (List Int) := .skipLocked cands key limit .pure

/-- Run the script of every element, in order. -/
def forEach {ι : Type} (f : ι → Script σ κ ε Unit) : List ι → Script σ κ ε Unit
  | [] => .pure ()
  | x :: xs => (f x).bind fun _ => forEach f xs

/-- Continue with a computed value, or raise its error. -/
def ofExcept : Except ε β → Script σ κ ε β
  | .ok b => .pure b
  | .error e => .raise e

@[simp] theorem pure_bind (a : α) (f : α → Script σ κ ε β) :
    ((Pure.pure a : Script σ κ ε α) >>= f) = f a := rfl

@[simp] theorem raise_bind (e : ε) (f : α → Script σ κ ε β) :
    ((.raise e : Script σ κ ε α) >>= f) = .raise e := rfl

@[simp] theorem query_bind (k : σ → Script σ κ ε α) (f : α → Script σ κ ε β) :
    (Script.query k >>= f) = .query fun s => k s >>= f := rfl

@[simp] theorem write_bind (w : σ → σ) (n : Script σ κ ε α) (f : α → Script σ κ ε β) :
    (Script.write w n >>= f) = .write w (n >>= f) := rfl

@[simp] theorem lock_bind (key : κ) (n : Script σ κ ε α) (f : α → Script σ κ ε β) :
    (Script.lock key n >>= f) = .lock key (n >>= f) := rfl

@[simp] theorem skipLocked_bind (c : σ → List Int) (key : Int → κ) (l : Option Nat)
    (k : List Int → Script σ κ ε α) (f : α → Script σ κ ε β) :
    (Script.skipLocked c key l k >>= f) = .skipLocked c key l fun got => k got >>= f := rfl

@[simp] theorem select_bind (g : σ → α) (f : α → Script σ κ ε β) :
    (select g >>= f) = .query fun s => f (g s) := rfl

@[simp] theorem update_bind (w : σ → σ) (f : Unit → Script σ κ ε β) :
    (update w >>= f) = .write w (f ()) := rfl

@[simp] theorem acquire_bind (key : κ) (f : Unit → Script σ κ ε β) :
    (acquire key >>= f) = .lock key (f ()) := rfl

@[simp] theorem pick_bind (c : σ → List Int) (key : Int → κ) (l : Option Nat)
    (f : List Int → Script σ κ ε β) : (pick c key l >>= f) = .skipLocked c key l f := rfl

theorem bind_assoc (p : Script σ κ ε α) (f : α → Script σ κ ε β) (g : β → Script σ κ ε γ) :
    (p >>= f) >>= g = p >>= fun a => f a >>= g := by
  induction p with
  | pure a => rfl
  | raise e => rfl
  | query k ih => exact congrArg Script.query (funext fun s => ih s)
  | write w n ih => exact congrArg (Script.write w) ih
  | lock key n ih => exact congrArg (Script.lock key) ih
  | skipLocked c key l k ih => exact congrArg (Script.skipLocked c key l) (funext fun got => ih got)

theorem bind_pure (p : Script σ κ ε α) : p.bind Script.pure = p := by
  induction p with
  | pure a => rfl
  | raise e => rfl
  | query k ih => exact congrArg Script.query (funext fun s => ih s)
  | write w n ih => exact congrArg (Script.write w) ih
  | lock key n ih => exact congrArg (Script.lock key) ih
  | skipLocked c key l k ih => exact congrArg (Script.skipLocked c key l) (funext fun got => ih got)

instance : LawfulMonad (Script σ κ ε) :=
  LawfulMonad.mk' _ (fun p => bind_pure p) (fun _ _ => rfl) bind_assoc

/-- The candidates a `SKIP LOCKED` statement gets. -/
def unlocked (skip : Int → Bool) (limit : Option Nat) (cands : List Int) : List Int :=
  let free := cands.filter fun i => !skip i
  match limit with
  | none => free
  | some n => free.take n

theorem unlocked_sublist (skip : Int → Bool) (limit : Option Nat) (cands : List Int) :
    (unlocked skip limit cands).Sublist cands := by
  unfold unlocked
  cases limit with
  | none => exact List.filter_sublist
  | some n => exact (List.take_sublist n _).trans List.filter_sublist

theorem length_unlocked_le (skip : Int → Bool) (n : Nat) (cands : List Int) :
    (unlocked skip (some n) cands).length ≤ n := by
  simp only [unlocked, List.length_take]
  exact Nat.min_le_left _ _

theorem mem_unlocked {skip : Int → Bool} {limit : Option Nat} {cands : List Int} {i : Int}
    (h : i ∈ unlocked skip limit cands) : i ∈ cands ∧ skip i = false := by
  have hm : i ∈ cands.filter fun i => !skip i := by
    unfold unlocked at h
    cases limit with
    | none => exact h
    | some n => exact List.mem_of_mem_take h
  simpa using List.mem_filter.mp hm

/-- Execution alone: every statement sees the state the previous one left. `skip` says which
rows are locked elsewhere, the one thing such an execution learns of other transactions. -/
def exec (skip : κ → Bool) : Script σ κ ε α → σ → Except ε (α × σ)
  | .pure a, s => .ok (a, s)
  | .raise e, _ => .error e
  | .query k, s => (k s).exec skip s
  | .write w n, s => n.exec skip (w s)
  | .lock _ n, s => n.exec skip s
  | .skipLocked c key l k, s => (k (unlocked (fun i => skip (key i)) l (c s))).exec skip s

/-- A transaction executed alone: an error or a rollback leaves the state as it was. -/
def atomically (skip : κ → Bool) (p : Script σ κ ε (Finish α)) (s : σ) : Except ε α × σ :=
  match p.exec skip s with
  | .error e => (.error e, s)
  | .ok (.commit r, s') => (.ok r, s')
  | .ok (.rollback r, _) => (.ok r, s)

/-- Every execution of `p` from `s` that does not raise ends in `Q`. -/
def Ensures (skip : κ → Bool) (p : Script σ κ ε α) (s : σ) (Q : α → σ → Prop) : Prop :=
  ∀ a s', p.exec skip s = .ok (a, s') → Q a s'

variable {skip : κ → Bool} {s : σ}

theorem exec_bind (p : Script σ κ ε α) (f : α → Script σ κ ε β) :
    (p >>= f).exec skip s = (p.exec skip s).bind fun r => (f r.1).exec skip r.2 := by
  induction p generalizing s with
  | pure a => rfl
  | raise e => rfl
  | query k ih => exact ih s
  | write w n ih => exact ih
  | lock key n ih => exact ih
  | skipLocked c key l k ih => exact ih _

@[simp] theorem exec_pure (a : α) :
    (Pure.pure a : Script σ κ ε α).exec skip s = .ok (a, s) := rfl

@[simp] theorem exec_select (f : σ → α) :
    (select f : Script σ κ ε α).exec skip s = .ok (f s, s) := rfl

@[simp] theorem exec_update (w : σ → σ) :
    (update w : Script σ κ ε Unit).exec skip s = .ok ((), w s) := rfl

@[simp] theorem exec_pick (c : σ → List Int) (key : Int → κ) (l : Option Nat) :
    (pick c key l : Script σ κ ε (List Int)).exec skip s =
      .ok (unlocked (fun i => skip (key i)) l (c s), s) := rfl

@[simp] theorem ensures_pure {a : α} {Q : α → σ → Prop} :
    Ensures (κ := κ) (ε := ε) skip (Pure.pure a) s Q ↔ Q a s := by
  constructor
  · intro h; exact h a s rfl
  · rintro h a' s' he
    cases he
    exact h

@[simp] theorem ensures_pure' {a : α} {Q : α → σ → Prop} :
    Ensures (κ := κ) (ε := ε) skip (Script.pure a) s Q ↔ Q a s := ensures_pure

@[simp] theorem ensures_raise {e : ε} {Q : α → σ → Prop} :
    Ensures (κ := κ) skip (.raise e) s Q ↔ True := by
  refine iff_true_intro ?_
  intro a s' he
  cases he

@[simp] theorem ensures_query {k : σ → Script σ κ ε α} {Q : α → σ → Prop} :
    Ensures skip (.query k) s Q ↔ Ensures skip (k s) s Q := Iff.rfl

@[simp] theorem ensures_write {w : σ → σ} {n : Script σ κ ε α} {Q : α → σ → Prop} :
    Ensures skip (.write w n) s Q ↔ Ensures skip n (w s) Q := Iff.rfl

@[simp] theorem ensures_lock {key : κ} {n : Script σ κ ε α} {Q : α → σ → Prop} :
    Ensures skip (.lock key n) s Q ↔ Ensures skip n s Q := Iff.rfl

@[simp] theorem ensures_skipLocked {c : σ → List Int} {key : Int → κ} {l : Option Nat}
    {k : List Int → Script σ κ ε α} {Q : α → σ → Prop} :
    Ensures skip (.skipLocked c key l k) s Q ↔
      Ensures skip (k (unlocked (fun i => skip (key i)) l (c s))) s Q := Iff.rfl

@[simp] theorem ensures_select {f : σ → α} {Q : α → σ → Prop} :
    Ensures (κ := κ) (ε := ε) skip (select f) s Q ↔ Q (f s) s := by simp [select]

@[simp] theorem ensures_update {w : σ → σ} {Q : Unit → σ → Prop} :
    Ensures (κ := κ) (ε := ε) skip (update w) s Q ↔ Q () (w s) := by simp [update]

@[simp] theorem ensures_acquire {key : κ} {Q : Unit → σ → Prop} :
    Ensures (ε := ε) skip (acquire key) s Q ↔ Q () s := by simp [acquire]

@[simp] theorem ensures_pick {c : σ → List Int} {key : Int → κ} {l : Option Nat}
    {Q : List Int → σ → Prop} :
    Ensures (ε := ε) skip (pick c key l) s Q ↔ Q (unlocked (fun i => skip (key i)) l (c s)) s := by
  simp [pick]

@[simp] theorem ensures_bind {p : Script σ κ ε α} {f : α → Script σ κ ε β} {Q : β → σ → Prop} :
    Ensures skip (p >>= f) s Q ↔ Ensures skip p s fun a s' => Ensures skip (f a) s' Q := by
  constructor
  · intro h a s' hp b s'' hf
    refine h b s'' ?_
    rw [exec_bind, hp]
    exact hf
  · intro h b s'' he
    rw [exec_bind] at he
    cases hp : p.exec skip s with
    | error e => rw [hp] at he; cases he
    | ok r => rw [hp] at he; exact h r.1 r.2 hp b s'' he

theorem Ensures.mono {p : Script σ κ ε α} {Q Q' : α → σ → Prop} (h : Ensures skip p s Q)
    (hq : ∀ a s', Q a s' → Q' a s') : Ensures skip p s Q' :=
  fun a s' he => hq a s' (h a s' he)

theorem ensures_ofExcept {r : Except ε α} {Q : α → σ → Prop} :
    Ensures (κ := κ) skip (ofExcept r) s Q ↔ ∀ a, r = .ok a → Q a s := by
  cases r with
  | error e => simp [ofExcept]
  | ok a => simp [ofExcept]

theorem exec_map {β : Type} (f : α → β) (p : Script σ κ ε α) :
    (f <$> p).exec skip s = (p.exec skip s).map fun r => (f r.1, r.2) := by
  rw [← bind_pure_comp, exec_bind]
  cases p.exec skip s with
  | error e => rfl
  | ok r => rfl

/-- Reshaping the answer of a script does not change how it ends. -/
theorem atomically_map_commit {β : Type} {f : α → β} {p : Script σ κ ε (Finish α)} {a : α} {s' : σ}
    (h : p.exec skip s = .ok (.commit a, s')) :
    atomically skip (Finish.map f <$> p) s = (.ok (f a), s') := by
  rw [atomically, exec_map, h]
  rfl

/-- The ways an atomic transaction can end. -/
inductive Ended (Q : Finish α → σ → Prop) (s : σ) : Except ε α → σ → Prop
  | raised (e : ε) : Ended Q s (.error e) s
  | undone (r : α) (s' : σ) : Q (.rollback r) s' → Ended Q s (.ok r) s
  | committed (r : α) (s' : σ) : Q (.commit r) s' → Ended Q s (.ok r) s'

/-- Only a commit moves the state, to where the execution ends. -/
theorem Ensures.ended {p : Script σ κ ε (Finish α)} {Q : Finish α → σ → Prop}
    (h : Ensures skip p s Q) : Ended Q s (atomically skip p s).1 (atomically skip p s).2 := by
  unfold atomically
  cases he : p.exec skip s with
  | error e => exact .raised e
  | ok r =>
    obtain ⟨fin, s'⟩ := r
    cases fin with
    | commit r => exact .committed r s' (h _ _ he)
    | rollback r => exact .undone r s' (h _ _ he)

theorem Ensures.map {β : Type} {f : α → β} {p : Script σ κ ε α} {Q : β → σ → Prop}
    (h : Ensures skip p s fun a s' => Q (f a) s') : Ensures skip (f <$> p) s Q := by
  rw [← bind_pure_comp]
  exact ensures_bind.mpr (h.mono fun a s' hq => ensures_pure.mpr hq)

end Script

end Txn
