import CapiNet.Library.Transaction

namespace Txn.Script

variable {σ κ ε α β ι : Type} {skip : κ → Bool} {s : σ} {Q : ε → Prop}

/-- Every error of an execution of `p` from `s` is one of `Q`. -/
def Raises (skip : κ → Bool) (p : Script σ κ ε α) (s : σ) (Q : ε → Prop) : Prop :=
  ∀ e, p.exec skip s = .error e → Q e

theorem Raises.mono {p : Script σ κ ε α} {Q' : ε → Prop} (h : Raises skip p s Q)
    (hq : ∀ e, Q e → Q' e) : Raises skip p s Q' :=
  fun e he => hq e (h e he)

@[simp] theorem raises_pure {a : α} : Raises (κ := κ) skip (Pure.pure a) s Q := by
  intro e he
  cases he

@[simp] theorem raises_raise {e : ε} :
    Raises (κ := κ) skip (.raise e : Script σ κ ε α) s Q ↔ Q e := by
  constructor
  · exact fun h => h e rfl
  · intro h e' he
    cases he
    exact h

@[simp] theorem raises_select {f : σ → α} : Raises (κ := κ) skip (select f) s Q := by
  intro e he
  cases he

@[simp] theorem raises_update {w : σ → σ} : Raises (κ := κ) skip (update w) s Q := by
  intro e he
  cases he

@[simp] theorem raises_acquire {key : κ} : Raises skip (acquire key) s Q := by
  intro e he
  cases he

@[simp] theorem raises_pick {c : σ → List Int} {key : Int → κ} {l : Option Nat} :
    Raises skip (pick c key l) s Q := by
  intro e he
  cases he

/-- A script in two parts raises in the first, or in the second from where the first ends. -/
@[simp] theorem raises_bind {p : Script σ κ ε α} {f : α → Script σ κ ε β} :
    Raises skip (p >>= f) s Q ↔
      Raises skip p s Q ∧ Ensures skip p s fun a s' => Raises skip (f a) s' Q := by
  constructor
  · intro h
    refine ⟨fun e he => h e ?_, fun a s' ha e he => h e ?_⟩
    · rw [exec_bind, he]
      rfl
    · rw [exec_bind, ha]
      exact he
  · rintro ⟨hp, hf⟩ e he
    rw [exec_bind] at he
    cases hr : p.exec skip s with
    | error e' =>
      rw [hr] at he
      cases he
      exact hp _ hr
    | ok r =>
      rw [hr] at he
      exact hf r.1 r.2 hr e he

theorem Raises.map {f : α → β} {p : Script σ κ ε α} (h : Raises skip p s Q) :
    Raises skip (f <$> p) s Q := by
  rw [← bind_pure_comp]
  exact raises_bind.mpr ⟨h, fun _ _ _ => raises_pure⟩

theorem raises_ofExcept {r : Except ε α} :
    Raises (κ := κ) skip (ofExcept r) s Q ↔ ∀ e, r = .error e → Q e := by
  cases r with
  | error e => simp [ofExcept]
  | ok a => exact iff_of_true raises_pure fun _ he => by cases he

/-- An invariant under which no element of the list raises anything else. -/
theorem raises_forEach {I : σ → Prop} {f : ι → Script σ κ ε Unit} {xs : List ι}
    (hf : ∀ x ∈ xs, ∀ s, I s → Raises skip (f x) s Q ∧ Ensures skip (f x) s fun _ s' => I s')
    (hs : I s) : Raises skip (forEach f xs) s Q := by
  induction xs generalizing s with
  | nil => exact raises_pure
  | cons x xs ih =>
    obtain ⟨hraise, hkeep⟩ := hf x List.mem_cons_self s hs
    refine raises_bind.mpr ⟨hraise, hkeep.mono fun _ s' hs' => ?_⟩
    exact ih (fun y hy => hf y (List.mem_cons_of_mem x hy)) hs'

/-- The error of a transaction is one its script raises. -/
theorem Raises.atomically {p : Script σ κ ε (Finish α)} {e : ε} (h : Raises skip p s Q)
    (he : (p.atomically skip s).1 = .error e) : Q e := by
  refine h e ?_
  unfold Script.atomically at he
  cases hexec : p.exec skip s with
  | error e' =>
    rw [hexec] at he
    cases he
    rfl
  | ok r =>
    obtain ⟨fin, s'⟩ := r
    rw [hexec] at he
    cases fin <;> cases he

end Txn.Script
