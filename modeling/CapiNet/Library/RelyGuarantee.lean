import CapiNet.Library.Interleaving

namespace Txn

open Lockable (target)

/-- Every lock protects a region: whoever changes the region at a commit holds the lock then. A
transaction that holds the lock may count on its region. -/
structure Protocol (σ κ : Type) where
  inv : σ → Prop
  steady : σ → σ → Prop
  region : κ → σ → σ → Prop
  steady_refl : ∀ s, steady s s
  steady_trans : ∀ {s t u}, steady s t → steady t u → steady s u
  region_refl : ∀ key s, region key s s
  region_trans : ∀ {key s t u}, region key s t → region key t u → region key s u

variable {χ σ κ ε ρ α β : Type}

/-- What the holder of some locks may count on while others commit. -/
def Protocol.Rely (P : Protocol σ κ) (held : List κ) (s t : σ) : Prop :=
  P.inv t ∧ P.steady s t ∧ ∀ key ∈ held, P.region key s t

/-- What a commit under some locks may do. -/
def Protocol.Guar (P : Protocol σ κ) (held : List κ) (s t : σ) : Prop :=
  P.inv t ∧ P.steady s t ∧ ∀ key, key ∉ held → P.region key s t

theorem Protocol.Rely.refl {P : Protocol σ κ} {held : List κ} {s : σ} (h : P.inv s) :
    P.Rely held s s :=
  ⟨h, P.steady_refl s, fun key _ => P.region_refl key s⟩

theorem Protocol.Rely.trans {P : Protocol σ κ} {held : List κ} {s t u : σ}
    (h : P.Rely held s t) (h' : P.Rely held t u) : P.Rely held s u :=
  ⟨h'.1, P.steady_trans h.2.1 h'.2.1,
    fun key hk => P.region_trans (h.2.2 key hk) (h'.2.2 key hk)⟩

theorem Protocol.Rely.mono {P : Protocol σ κ} {held held' : List κ} {s t : σ}
    (h : P.Rely held s t) (hs : ∀ key ∈ held', key ∈ held) : P.Rely held' s t :=
  ⟨h.1, h.2.1, fun key hk => h.2.2 key (hs key hk)⟩

theorem Protocol.Rely.tail {P : Protocol σ κ} {key : κ} {held : List κ} {s t : σ}
    (h : P.Rely (key :: held) s t) : P.Rely held s t :=
  h.mono fun _ hk => List.mem_cons_of_mem _ hk

/-- The guarantee of one transaction is what every other relies on. -/
theorem Protocol.Guar.rely {P : Protocol σ κ} {held held' : List κ} {s t : σ}
    (h : P.Guar held s t) (hd : ∀ key ∈ held', key ∉ held) : P.Rely held' s t :=
  ⟨h.1, h.2.1, fun key hk => h.2.2 key (hd key hk)⟩

namespace Script

variable [Lockable κ] (P : Protocol σ κ) (may : List κ → κ → σ → Prop)

/-- The weakest condition, on the locks held, the writes so far and the committed state, under
which every execution of a script among others ends in `Q`. -/
def wp : Script σ κ ε α → (α → List κ → (σ → σ) → σ → Prop) → List κ → (σ → σ) → σ → Prop
  | .pure a, Q => fun held w s => Q a held w s
  | .raise _, _ => fun _ _ _ => True
  | .query k, Q => fun held w s => ∀ t, P.Rely held s t → (k (w t)).wp Q held w t
  | .write f n, Q => fun held w s => n.wp Q held (f ∘ w) s
  | .lock key n, Q => fun held w s =>
      ∀ t, P.Rely held s t → may held key t → n.wp Q (target key :: held) w t
  | .skipLocked c key limit k, Q => fun held w s =>
      ∀ t got, P.Rely held s t → got.Sublist (c (w t)) → (∀ n, limit = some n → got.length ≤ n) →
        (k got).wp Q (got.map key ++ held) w t

variable {P may} {held : List κ} {w : σ → σ} {s : σ}

@[simp] theorem wp_pure {a : α} {Q : α → List κ → (σ → σ) → σ → Prop} :
    wp P may (Pure.pure a : Script σ κ ε α) Q held w s ↔ Q a held w s := Iff.rfl

@[simp] theorem wp_pure' {a : α} {Q : α → List κ → (σ → σ) → σ → Prop} :
    wp P may (.pure a : Script σ κ ε α) Q held w s ↔ Q a held w s := Iff.rfl

@[simp] theorem wp_raise {e : ε} {Q : α → List κ → (σ → σ) → σ → Prop} :
    wp P may (.raise e : Script σ κ ε α) Q held w s ↔ True := Iff.rfl

@[simp] theorem wp_query {k : σ → Script σ κ ε α} {Q : α → List κ → (σ → σ) → σ → Prop} :
    wp P may (.query k) Q held w s ↔ ∀ t, P.Rely held s t → wp P may (k (w t)) Q held w t := Iff.rfl

@[simp] theorem wp_write {f : σ → σ} {n : Script σ κ ε α} {Q : α → List κ → (σ → σ) → σ → Prop} :
    wp P may (.write f n) Q held w s ↔ wp P may n Q held (f ∘ w) s := Iff.rfl

@[simp] theorem wp_lock {key : κ} {n : Script σ κ ε α} {Q : α → List κ → (σ → σ) → σ → Prop} :
    wp P may (.lock key n) Q held w s ↔
      ∀ t, P.Rely held s t → may held key t → wp P may n Q (target key :: held) w t := Iff.rfl

@[simp] theorem wp_skipLocked {c : σ → List Int} {key : Int → κ} {limit : Option Nat}
    {k : List Int → Script σ κ ε α} {Q : α → List κ → (σ → σ) → σ → Prop} :
    wp P may (.skipLocked c key limit k) Q held w s ↔
      ∀ t got, P.Rely held s t → got.Sublist (c (w t)) →
        (∀ n, limit = some n → got.length ≤ n) →
        wp P may (k got) Q (got.map key ++ held) w t := Iff.rfl

theorem wp_bind {p : Script σ κ ε α} {f : α → Script σ κ ε β}
    {Q : β → List κ → (σ → σ) → σ → Prop} :
    wp P may (p >>= f) Q held w s ↔
      wp P may p (fun a held w s => wp P may (f a) Q held w s) held w s := by
  induction p generalizing held w s with
  | pure a => rfl
  | raise e => rfl
  | query k ih => exact forall₂_congr fun t _ => ih (w t)
  | write g n ih => exact ih
  | lock key n ih => exact forall₃_congr fun t _ _ => ih
  | skipLocked c key limit k ih => exact forall₄_congr fun t got _ _ => forall_congr' fun _ => ih got

theorem wp_map {p : Script σ κ ε α} {f : α → β} {Q : β → List κ → (σ → σ) → σ → Prop} :
    wp P may (f <$> p) Q held w s ↔ wp P may p (fun a held w s => Q (f a) held w s) held w s := by
  rw [← bind_pure_comp, wp_bind]
  rfl

theorem wp_mono {p : Script σ κ ε α} {Q Q' : α → List κ → (σ → σ) → σ → Prop}
    (hq : ∀ a held w s, Q a held w s → Q' a held w s) (h : wp P may p Q held w s) :
    wp P may p Q' held w s := by
  induction p generalizing held w s with
  | pure a => exact hq _ _ _ _ h
  | raise e => trivial
  | query k ih => exact fun t ht => ih (w t) (h t ht)
  | write g n ih => exact ih h
  | lock key n ih => exact fun t ht hm => ih (h t ht hm)
  | skipLocked c key limit k ih => exact fun t got ht hg hl => ih got (h t got ht hg hl)

theorem wp_ofExcept {r : Except ε α} {Q : α → List κ → (σ → σ) → σ → Prop} :
    wp P may (ofExcept r : Script σ κ ε α) Q held w s ↔ ∀ a, r = .ok a → Q a held w s := by
  cases r with
  | error e => simp [ofExcept]
  | ok a => simp [ofExcept]

/-- Loop rule: an assertion every round keeps holds after the loop. -/
theorem wp_forEach {ι : Type} {f : ι → Script σ κ ε Unit} {I : List κ → (σ → σ) → σ → Prop}
    {xs : List ι}
    (hf : ∀ x ∈ xs, ∀ held w s, I held w s → wp P may (f x) (fun _ held w s => I held w s) held w s)
    (h : I held w s) : wp P may (forEach f xs) (fun _ held w s => I held w s) held w s := by
  induction xs generalizing held w s with
  | nil => exact h
  | cons x xs ih =>
    refine wp_bind.mpr (wp_mono (fun _ held w s hi => ?_) (hf x (by simp) held w s h))
    exact ih (fun y hy => hf y (by simp [hy])) hi

end Script

/-- What a call has to leave at its commit, whatever the others did since it last looked. -/
def CommitsTo (P : Protocol σ κ) (post : ρ → σ → Prop) (fin : Finish ρ) (held : List κ)
    (w : σ → σ) (s : σ) : Prop :=
  ∀ r, fin = .commit r → ∀ t, P.Rely held s t → P.Guar held t (w t) ∧ post r (w t)

/-- Judged alone, every call keeps to the protocol. -/
def Keeps [Lockable κ] (P : Protocol σ κ) (D : Discipline χ σ κ) (program : χ → Script σ κ ε (Finish ρ))
    (post : χ → ρ → σ → Prop) : Prop :=
  ∀ c, D.calls c → ∀ s, P.inv s →
    (program c).wp P (D.locks c) (CommitsTo P (post c)) [] id s

section Soundness

variable [Lockable κ] {P : Protocol σ κ} {D : Discipline χ σ κ} {program : χ → Script σ κ ε (Finish ρ)}
  {post : χ → ρ → σ → Prop}

def SessionSound (P : Protocol σ κ) (D : Discipline χ σ κ) (post : χ → ρ → σ → Prop) (s : σ)
    (S : Session χ σ κ ε ρ) : Prop :=
  match S.phase with
  | .running rest w held => ∃ t, P.Rely held t s ∧
      rest.wp P (D.locks S.call) (CommitsTo P (post S.call)) held w t
  | .ended (some (.commit r)) => post S.call r s
  | .ended _ => True

/-- The invariant of a run: the committed state is sound, no lock is held twice and every open
transaction still keeps to the protocol. -/
structure Sound (P : Protocol σ κ) (D : Discipline χ σ κ) (post : χ → ρ → σ → Prop)
    (W : World χ σ κ ε ρ) : Prop where
  inv : P.inv W.db
  exclusive : ∀ (i j : Nat) (S T : Session χ σ κ ε ρ), i ≠ j → W.sessions[i]? = some S →
    W.sessions[j]? = some T → ∀ key ∈ S.held, key ∉ T.held
  sessions : ∀ S ∈ W.sessions, SessionSound P D post W.db S

theorem SessionSound.rely {S : Session χ σ κ ε ρ} {s t : σ}
    (hpost : ∀ c r s t, post c r s → P.steady s t → post c r t)
    (h : SessionSound P D post s S) (ht : P.Rely S.held s t) : SessionSound P D post t S := by
  obtain ⟨c, phase⟩ := S
  cases phase with
  | running rest w held =>
    obtain ⟨u, hu, hw⟩ := h
    exact ⟨u, hu.trans ht, hw⟩
  | ended result =>
    match result, h with
    | none, _ => trivial
    | some (.rollback _), _ => trivial
    | some (.commit r), h => exact hpost c r s t h ht.2.1

omit [Lockable κ] in
/-- Sessions other than the one that moved are found where they were. -/
theorem getElem?_setPhase_ne {W : World χ σ κ ε ρ} {i j : Nat} {c : χ} {p : Phase σ κ ε ρ}
    (h : i ≠ j) : (W.setPhase i c p).sessions[j]? = W.sessions[j]? := by
  simp [World.setPhase, List.getElem?_set_ne h]

omit [Lockable κ] in
theorem getElem?_setPhase {W : World χ σ κ ε ρ} {i j : Nat} {c : χ} {p : Phase σ κ ε ρ}
    {S : Session χ σ κ ε ρ} (h : (W.setPhase i c p).sessions[j]? = some S) :
    (i = j ∧ S = ⟨c, p⟩) ∨ (i ≠ j ∧ W.sessions[j]? = some S) := by
  by_cases hij : i = j
  · subst hij
    refine .inl ⟨rfl, ?_⟩
    simp only [World.setPhase, List.getElem?_set_self'] at h
    obtain ⟨_, _, he⟩ := Option.map_eq_some_iff.mp h
    exact he.symm
  · rw [getElem?_setPhase_ne hij] at h
    exact .inr ⟨hij, h⟩

/-- A move of session `i` that keeps the database keeps soundness, if its new phase is sound and
its new locks are free. -/
theorem Sound.setPhase {W : World χ σ κ ε ρ} {i : Nat} {c : χ} {p : Phase σ κ ε ρ}
    (h : Sound P D post W)
    (hfree : ∀ key ∈ (⟨c, p⟩ : Session χ σ κ ε ρ).held,
      ∀ j S, W.sessions[j]? = some S → j ≠ i → key ∉ S.held)
    (hp : SessionSound P D post W.db ⟨c, p⟩) : Sound P D post (W.setPhase i c p) := by
  refine ⟨h.inv, ?_, ?_⟩
  · intro a b S T hab hS hT key hk
    rcases getElem?_setPhase hS with ⟨ha, rfl⟩ | ⟨ha, hS'⟩
    · rcases getElem?_setPhase hT with ⟨hb, rfl⟩ | ⟨hb, hT'⟩
      · exact absurd (ha.symm.trans hb) hab
      · exact hfree key hk b T hT' (Ne.symm hb)
    · rcases getElem?_setPhase hT with ⟨hb, rfl⟩ | ⟨hb, hT'⟩
      · exact fun hk' => hfree key hk' a S hS' (Ne.symm ha) hk
      · exact h.exclusive a b S T hab hS' hT' key hk
  · intro S hS
    obtain ⟨j, hj⟩ := List.mem_iff_getElem?.mp hS
    rcases getElem?_setPhase hj with ⟨-, rfl⟩ | ⟨-, hj'⟩
    · exact hp
    · exact h.sessions S (List.mem_of_getElem? hj')

theorem Sound.own_free {W : World χ σ κ ε ρ} {i : Nat} {S : Session χ σ κ ε ρ}
    (h : Sound P D post W) (hi : W.sessions[i]? = some S) :
    ∀ key ∈ S.held, ∀ j T, W.sessions[j]? = some T → j ≠ i → key ∉ T.held :=
  fun key hk j T hj hne => h.exclusive i j S T (Ne.symm hne) hi hj key hk

/-- A commit keeps soundness: the others rely on what the committing transaction guarantees. -/
theorem Sound.commit {W : World χ σ κ ε ρ} {i : Nat} {c : χ} {rest : Script σ κ ε (Finish ρ)}
    {w : σ → σ} {held : List κ} {r : ρ} (h : Sound P D post W)
    (hpost : ∀ c r s t, post c r s → P.steady s t → post c r t)
    (hi : W.sessions[i]? = some ⟨c, .running rest w held⟩)
    (hg : P.Guar held W.db (w W.db)) (hr : post c r (w W.db)) :
    Sound P D post { W.setPhase i c (.ended (some (.commit r))) with db := w W.db } := by
  refine ⟨hg.1, ?_, ?_⟩
  · intro a b S T hab hS hT key hkey
    rcases getElem?_setPhase hS with ⟨-, rfl⟩ | ⟨-, hS'⟩
    · simp [Session.held] at hkey
    · rcases getElem?_setPhase hT with ⟨-, rfl⟩ | ⟨-, hT'⟩
      · simp [Session.held]
      · exact h.exclusive a b S T hab hS' hT' key hkey
  · intro S hS
    obtain ⟨j, hj⟩ := List.mem_iff_getElem?.mp hS
    rcases getElem?_setPhase hj with ⟨-, rfl⟩ | ⟨hij, hj'⟩
    · exact hr
    · refine (h.sessions S (List.mem_of_getElem? hj')).rely hpost (hg.rely ?_)
      intro key hkey
      exact h.exclusive j i S _ (Ne.symm hij) hj' hi key hkey

/-- A transaction begins without locks and keeps soundness if its script keeps to the protocol. -/
theorem Sound.begin {W : World χ σ κ ε ρ} {c : χ} {p : Script σ κ ε (Finish ρ)}
    (h : Sound P D post W) (hc : p.wp P (D.locks c) (CommitsTo P (post c)) [] id W.db) :
    Sound P D post { W with sessions := W.sessions ++ [⟨c, .running p id []⟩] } := by
  have hsplit : ∀ {j : Nat} {S : Session χ σ κ ε ρ},
      (W.sessions ++ [⟨c, .running p id []⟩])[j]? = some S →
      W.sessions[j]? = some S ∨ S.held = [] := by
    intro j S hj
    rw [List.getElem?_append] at hj
    split at hj
    · exact .inl hj
    · cases List.mem_singleton.mp (List.mem_of_getElem? hj)
      exact .inr rfl
  refine ⟨h.inv, ?_, ?_⟩
  · intro i j S T hij hS hT key hkey
    rcases hsplit hS with hS | hS
    · rcases hsplit hT with hT | hT
      · exact h.exclusive i j S T hij hS hT key hkey
      · simp [hT]
    · simp [hS] at hkey
  · intro S hS
    rcases List.mem_append.mp hS with hS | hS
    · exact h.sessions S hS
    · cases List.mem_singleton.mp hS
      exact ⟨W.db, .refl h.inv, hc⟩

theorem Sound.start {s : σ} (h : P.inv s) :
    Sound P D post (⟨s, []⟩ : World χ σ κ ε ρ) :=
  ⟨h, by simp, by simp⟩

variable [DecidableEq κ]

/-- One event of a run keeps soundness, and what it does to the database no commit undoes. -/
theorem Sound.next {W V : World χ σ κ ε ρ} {e : Event χ} (hk : Keeps P D program post)
    (hpost : ∀ c r s t, post c r s → P.steady s t → post c r t) (h : Sound P D post W)
    (hp : Permitted D W e) (hn : W.next program e = some V) :
    Sound P D post V ∧ P.steady W.db V.db := by
  cases e with
  | start c =>
    cases Option.some.inj hn
    exact ⟨h.begin (hk c hp W.db h.inv), P.steady_refl _⟩
  | kill i =>
    simp only [World.next] at hn
    split at hn
    next c _ _ _ hi =>
      cases Option.some.inj hn
      exact ⟨h.setPhase (by simp [Session.held]) trivial, P.steady_refl _⟩
    next => cases hn
  | advance i =>
    obtain ⟨c, rest, w, held, hi, hcase⟩ := advance_cases hn
    have hown := h.own_free hi
    obtain ⟨t, ht, hw⟩ := h.sessions _ (List.mem_of_getElem? hi)
    rcases hcase with ⟨r, rfl, rfl⟩ | ⟨r, rfl, rfl⟩ | ⟨e, rfl, rfl⟩ | ⟨k, rfl, rfl⟩ |
      ⟨f, n, rfl, rfl⟩ | ⟨key, n, rfl, hl, rfl⟩ | ⟨cands, key, limit, k, got, rfl, hg, rfl⟩
    · obtain ⟨hguar, hr⟩ := hw r rfl W.db ht
      exact ⟨h.commit hpost hi hguar hr, hguar.2.1⟩
    · exact ⟨h.setPhase (by simp [Session.held]) trivial, P.steady_refl _⟩
    · exact ⟨h.setPhase (by simp [Session.held]) trivial, P.steady_refl _⟩
    · exact ⟨h.setPhase hown ⟨W.db, .refl h.inv, hw W.db ht⟩, P.steady_refl _⟩
    · exact ⟨h.setPhase hown ⟨t, ht, hw⟩, P.steady_refl _⟩
    · have hm : D.locks c held key W.db := hp c key n w held hi
      refine ⟨h.setPhase ?_ ⟨W.db, .refl h.inv, hw W.db ht hm⟩, P.steady_refl _⟩
      intro key' hk' j S hj hne
      rcases List.mem_cons.mp hk' with rfl | hk'
      · exact World.lockedFor_eq_false.mp hl j S hj hne
      · exact hown key' hk' j S hj hne
    · subst hg
      refine ⟨h.setPhase ?_ ⟨W.db, .refl h.inv, hw W.db _ ht (Script.unlocked_sublist _ _ _) ?_⟩,
        P.steady_refl _⟩
      · intro key' hk' j S hj hne
        rcases List.mem_append.mp hk' with hk' | hk'
        · obtain ⟨m, hm, rfl⟩ := List.mem_map.mp hk'
          exact World.lockedFor_eq_false.mp (Script.mem_unlocked hm).2 j S hj hne
        · exact hown key' hk' j S hj hne
      · rintro n rfl
        exact Script.length_unlocked_le _ _ _

/-- Soundness: scripts that keep to the protocol one by one keep it in every interleaving. -/
theorem Run.sound {W V : World χ σ κ ε ρ} (hk : Keeps P D program post)
    (hpost : ∀ c r s t, post c r s → P.steady s t → post c r t) (h : Sound P D post W)
    (hr : Run program D W V) : Sound P D post V ∧ P.steady W.db V.db := by
  induction hr with
  | refl => exact ⟨h, P.steady_refl _⟩
  | step _ hp hn ih =>
    obtain ⟨hs, ht⟩ := ih.1.next hk hpost hp hn
    exact ⟨hs, P.steady_trans ih.2 ht⟩

end Soundness

/-- What a transaction does at its commit, whatever the others did before. -/
def Does (P : Protocol σ κ) (R : ρ → σ → σ → Prop) (fin : Finish ρ) (held : List κ) (w : σ → σ)
    (s : σ) : Prop :=
  ∀ r, fin = .commit r → ∀ t, P.Rely held s t → R r t (w t)

def SessionDoes [Lockable κ] (P : Protocol σ κ) (D : Discipline χ σ κ) (R : χ → ρ → σ → σ → Prop)
    (s : σ) (S : Session χ σ κ ε ρ) : Prop :=
  ∀ rest w held, S.phase = .running rest w held → ∃ t, P.Rely held t s ∧
    rest.wp P (D.locks S.call) (Does P (R S.call)) held w t

section Commits

variable [DecidableEq κ] [Lockable κ] {P : Protocol σ κ} {D : Discipline χ σ κ}
  {program : χ → Script σ κ ε (Finish ρ)} {post : χ → ρ → σ → Prop} {R : χ → ρ → σ → σ → Prop}

omit [DecidableEq κ] in
theorem SessionDoes.rely {S : Session χ σ κ ε ρ} {s t : σ} (h : SessionDoes P D R s S)
    (ht : P.Rely S.held s t) : SessionDoes P D R t S := by
  intro rest w held hS
  obtain ⟨u, hu, hw⟩ := h rest w held hS
  have hheld : S.held = held := by rw [Session.held, hS]
  exact ⟨u, hu.trans (hheld ▸ ht), hw⟩

omit [DecidableEq κ] in
/-- The session that moves is followed by its own script, the others as before. -/
theorem forall_setPhase {W : World χ σ κ ε ρ} {i : Nat} {c : χ} {p : Phase σ κ ε ρ} {s : σ}
    (hp : SessionDoes P D R s ⟨c, p⟩)
    (h : ∀ j S, j ≠ i → W.sessions[j]? = some S → SessionDoes P D R s S) :
    ∀ S ∈ (W.setPhase i c p).sessions, SessionDoes P D R s S := by
  intro S hS
  obtain ⟨j, hj⟩ := List.mem_iff_getElem?.mp hS
  rcases getElem?_setPhase hj with ⟨-, rfl⟩ | ⟨hne, hj'⟩
  · exact hp
  · exact h j S (Ne.symm hne) hj'

omit [DecidableEq κ] [Lockable κ] in
theorem mem_setPhase {W : World χ σ κ ε ρ} {i : Nat} {c c' : χ} {p p' : Phase σ κ ε ρ}
    (hi : W.sessions[i]? = some ⟨c, p⟩) : ⟨c', p'⟩ ∈ (W.setPhase i c' p').sessions := by
  obtain ⟨hlt, -⟩ := List.getElem?_eq_some_iff.mp hi
  exact List.mem_iff_getElem?.mpr ⟨i, by simp [World.setPhase, List.getElem?_set_self hlt]⟩

/-- One event of a run: nothing is committed, or a transaction does what its script ensures. -/
theorem Sound.next_does {W V : World χ σ κ ε ρ} {e : Event χ} (h : Sound P D post W)
    (hR : ∀ c, D.calls c → ∀ s, P.inv s →
      (program c).wp P (D.locks c) (Does P (R c)) [] id s)
    (hd : ∀ S ∈ W.sessions, SessionDoes P D R W.db S) (hp : Permitted D W e)
    (hn : W.next program e = some V) :
    (∀ S ∈ V.sessions, SessionDoes P D R V.db S) ∧
      (V.db = W.db ∨ ∃ c r, ⟨c, .ended (some (.commit r))⟩ ∈ V.sessions ∧ R c r W.db V.db) := by
  have ended : ∀ {s : σ} {c : χ} {o : Option (Finish ρ)},
      SessionDoes (ε := ε) P D R s ⟨c, .ended o⟩ := by
    rintro s c o rest w held ⟨⟩
  have kept : ∀ {i : Nat} (j : Nat) (S : Session χ σ κ ε ρ), j ≠ i → W.sessions[j]? = some S →
      SessionDoes P D R W.db S := fun j S _ hj => hd S (List.mem_of_getElem? hj)
  have going : ∀ {i : Nat} {c : χ} {rest : Script σ κ ε (Finish ρ)} {w : σ → σ} {held : List κ},
      rest.wp P (D.locks c) (Does P (R c)) held w W.db →
      ∀ S ∈ (W.setPhase i c (.running rest w held)).sessions, SessionDoes P D R W.db S := by
    intro i c rest w held hw
    refine forall_setPhase ?_ kept
    rintro _ _ _ ⟨⟩
    exact ⟨W.db, .refl h.inv, hw⟩
  cases e with
  | start c =>
    cases Option.some.inj hn
    refine ⟨fun S hS => ?_, .inl rfl⟩
    rcases List.mem_append.mp hS with hS | hS
    · exact hd S hS
    · cases List.mem_singleton.mp hS
      rintro _ _ _ ⟨⟩
      exact ⟨W.db, .refl h.inv, hR c hp W.db h.inv⟩
  | kill i =>
    simp only [World.next] at hn
    split at hn
    next =>
      cases Option.some.inj hn
      exact ⟨forall_setPhase ended kept, .inl rfl⟩
    next => cases hn
  | advance i =>
    obtain ⟨c, rest, w, held, hi, hcase⟩ := advance_cases hn
    obtain ⟨t, ht, hw⟩ := hd _ (List.mem_of_getElem? hi) rest w held rfl
    rcases hcase with ⟨r, rfl, rfl⟩ | ⟨r, rfl, rfl⟩ | ⟨e, rfl, rfl⟩ | ⟨k, rfl, rfl⟩ |
      ⟨f, n, rfl, rfl⟩ | ⟨key, n, rfl, hl, rfl⟩ | ⟨cands, key, limit, k, got, rfl, hg, rfl⟩
    · obtain ⟨u, hu, hc⟩ := h.sessions _ (List.mem_of_getElem? hi)
      obtain ⟨hguar, -⟩ := hc r rfl W.db hu
      refine ⟨forall_setPhase ended fun j S hne hj => ?_, .inr ⟨c, r, mem_setPhase hi, ?_⟩⟩
      · refine (kept j S hne hj).rely (hguar.rely fun key hk => ?_)
        exact h.exclusive j i S _ hne hj hi key hk
      · exact hw r rfl W.db ht
    · exact ⟨forall_setPhase ended kept, .inl rfl⟩
    · exact ⟨forall_setPhase ended kept, .inl rfl⟩
    · exact ⟨going (hw W.db ht), .inl rfl⟩
    · refine ⟨forall_setPhase ?_ kept, .inl rfl⟩
      rintro _ _ _ ⟨⟩
      exact ⟨t, ht, hw⟩
    · exact ⟨going (hw W.db ht (hp c key n w held hi)), .inl rfl⟩
    · subst hg
      refine ⟨going (hw W.db _ ht (Script.unlocked_sublist _ _ _) ?_), .inl rfl⟩
      rintro n rfl
      exact Script.length_unlocked_le _ _ _

/-- An answer stays where it is. -/
theorem answer_kept {W V : World χ σ κ ε ρ} {e : Event χ} (hn : W.next program e = some V) {c : χ}
    {o : Option (Finish ρ)} (h : ⟨c, .ended o⟩ ∈ W.sessions) : ⟨c, .ended o⟩ ∈ V.sessions := by
  obtain ⟨j, hj⟩ := List.mem_iff_getElem?.mp h
  have stays : ∀ {i : Nat} {c' : χ} {p : Phase σ κ ε ρ} {rest w held},
      W.sessions[i]? = some ⟨c', .running rest w held⟩ →
      ⟨c, .ended o⟩ ∈ (W.setPhase i c' p).sessions := by
    intro i c' p rest w held hi
    have hne : i ≠ j := by
      rintro rfl
      cases Option.some.inj (hi.symm.trans hj)
    exact List.mem_of_getElem? ((getElem?_setPhase_ne hne).trans hj)
  cases e with
  | start c =>
    cases Option.some.inj hn
    exact List.mem_append_left _ h
  | kill i =>
    simp only [World.next] at hn
    split at hn
    next hi => cases Option.some.inj hn; exact stays hi
    next => cases hn
  | advance i =>
    obtain ⟨c', rest, w, held, hi, hcase⟩ := advance_cases hn
    rcases hcase with ⟨r, -, rfl⟩ | ⟨r, -, rfl⟩ | ⟨e, -, rfl⟩ | ⟨k, -, rfl⟩ |
      ⟨f, n, -, rfl⟩ | ⟨key, n, -, -, rfl⟩ | ⟨cands, key, limit, k, got, -, -, rfl⟩ <;>
      exact stays hi

/-- A fact that only marked commits bring about comes with a marked answer. -/
theorem Run.marked {s : σ} {V : World χ σ κ ε ρ} {fact : σ → Prop} {mark : χ → ρ → Prop}
    (hk : Keeps P D program post) (hpost : ∀ c r s t, post c r s → P.steady s t → post c r t)
    (hR : ∀ c, D.calls c → ∀ s, P.inv s → (program c).wp P (D.locks c)
      (Does P fun r s t => fact t → fact s ∨ mark c r) [] id s)
    (hs : P.inv s) (hn : ¬fact s) (hr : Run program D ⟨s, []⟩ V) (hf : fact V.db) :
    ∃ c r, ⟨c, .ended (some (.commit r))⟩ ∈ V.sessions ∧ mark c r := by
  have hall : (∀ S ∈ V.sessions,
      SessionDoes P D (fun c r s t => fact t → fact s ∨ mark c r) V.db S) ∧
      (fact V.db → ∃ c r, ⟨c, .ended (some (.commit r))⟩ ∈ V.sessions ∧ mark c r) := by
    clear hf
    induction hr with
    | refl => exact ⟨by simp, fun hf => absurd hf hn⟩
    | @step U U' e hrun hp hnext ih =>
      obtain ⟨hdoes, hold⟩ := ih
      have hsound := (Run.sound hk hpost (Sound.start hs) hrun).1
      obtain ⟨hdoes', hdb⟩ := hsound.next_does hR hdoes hp hnext
      refine ⟨hdoes', fun hf => ?_⟩
      have before : fact U.db →
          ∃ c r, ⟨c, .ended (some (.commit r))⟩ ∈ U'.sessions ∧ mark c r := fun hf => by
        obtain ⟨c, r, hmem, hm⟩ := hold hf
        exact ⟨c, r, answer_kept hnext hmem, hm⟩
      rcases hdb with hdb | ⟨c, r, hmem, hstep⟩
      · exact before (hdb ▸ hf)
      · rcases hstep hf with hf' | hm
        · exact before hf'
        · exact ⟨c, r, hmem, hm⟩
  exact hall.2 hf

end Commits

end Txn
