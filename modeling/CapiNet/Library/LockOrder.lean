import CapiNet.Library.RelyGuarantee
import Mathlib.Logic.Hydra
import Mathlib.Tactic.Abel

namespace Txn

open Lockable (target)

variable {χ σ κ ε ρ α β : Type}

namespace Script

section Asks

variable [Lockable κ] (P : Protocol σ κ) (may ask : List κ → κ → σ → Prop)

/-- Among others, every lock request of a script is made under `ask`. -/
def asks : Script σ κ ε α → List κ → (σ → σ) → σ → Prop
  | .pure _ => fun _ _ _ => True
  | .raise _ => fun _ _ _ => True
  | .query k => fun held w s => ∀ t, P.Rely held s t → (k (w t)).asks held w t
  | .write f n => fun held w s => n.asks held (f ∘ w) s
  | .lock key n => fun held w s => ∀ t, P.Rely held s t →
      ask held key t ∧ (may held key t → n.asks (target key :: held) w t)
  | .skipLocked c key limit k => fun held w s =>
      ∀ t got, P.Rely held s t → got.Sublist (c (w t)) → (∀ n, limit = some n → got.length ≤ n) →
        (k got).asks (got.map key ++ held) w t

variable {P may ask} {held : List κ} {w : σ → σ} {s : σ}

@[simp] theorem asks_pure {a : α} :
    asks P may ask (Pure.pure a : Script σ κ ε α) held w s ↔ True := Iff.rfl

@[simp] theorem asks_raise {e : ε} :
    asks P may ask (.raise e : Script σ κ ε α) held w s ↔ True := Iff.rfl

@[simp] theorem asks_query {k : σ → Script σ κ ε α} :
    asks P may ask (.query k) held w s ↔
      ∀ t, P.Rely held s t → asks P may ask (k (w t)) held w t := Iff.rfl

@[simp] theorem asks_write {f : σ → σ} {n : Script σ κ ε α} :
    asks P may ask (.write f n) held w s ↔ asks P may ask n held (f ∘ w) s := Iff.rfl

@[simp] theorem asks_lock {key : κ} {n : Script σ κ ε α} :
    asks P may ask (.lock key n) held w s ↔ ∀ t, P.Rely held s t →
      ask held key t ∧ (may held key t → asks P may ask n (target key :: held) w t) := Iff.rfl

@[simp] theorem asks_skipLocked {c : σ → List Int} {key : Int → κ} {limit : Option Nat}
    {k : List Int → Script σ κ ε α} :
    asks P may ask (.skipLocked c key limit k) held w s ↔
      ∀ t got, P.Rely held s t → got.Sublist (c (w t)) →
        (∀ n, limit = some n → got.length ≤ n) →
        asks P may ask (k got) (got.map key ++ held) w t := Iff.rfl

/-- The requests of a sequence are those of its first part, and those of the second wherever the
first may end. -/
theorem asks_bind {p : Script σ κ ε α} {f : α → Script σ κ ε β} :
    asks P may ask (p >>= f) held w s ↔ asks P may ask p held w s ∧
      wp P may p (fun a held w s => asks P may ask (f a) held w s) held w s := by
  induction p generalizing held w s with
  | pure a => exact ⟨fun h => ⟨trivial, h⟩, fun h => h.2⟩
  | raise e => exact ⟨fun _ => ⟨trivial, trivial⟩, fun _ => trivial⟩
  | query k ih =>
    constructor
    · exact fun h => ⟨fun t ht => ((ih (w t)).mp (h t ht)).1, fun t ht => ((ih (w t)).mp (h t ht)).2⟩
    · exact fun h t ht => (ih (w t)).mpr ⟨h.1 t ht, h.2 t ht⟩
  | write g n ih => exact ih
  | lock key n ih =>
    constructor
    · intro h
      refine ⟨fun t ht => ⟨(h t ht).1, fun hm => (ih.mp ((h t ht).2 hm)).1⟩, fun t ht hm => ?_⟩
      exact (ih.mp ((h t ht).2 hm)).2
    · exact fun h t ht => ⟨(h.1 t ht).1, fun hm => ih.mpr ⟨(h.1 t ht).2 hm, h.2 t ht hm⟩⟩
  | skipLocked c key limit k ih =>
    constructor
    · intro h
      exact ⟨fun t got ht hg hl => ((ih got).mp (h t got ht hg hl)).1,
        fun t got ht hg hl => ((ih got).mp (h t got ht hg hl)).2⟩
    · exact fun h t got ht hg hl => (ih got).mpr ⟨h.1 t got ht hg hl, h.2 t got ht hg hl⟩

theorem wp_of_all {p : Script σ κ ε α} {Q : α → List κ → (σ → σ) → σ → Prop}
    (hq : ∀ a held w s, Q a held w s) : wp P may p Q held w s := by
  induction p generalizing held w s with
  | pure a => exact hq a held w s
  | raise e => trivial
  | query k ih => exact fun t _ => ih (w t)
  | write g n ih => exact ih
  | lock key n ih => exact fun t _ _ => ih
  | skipLocked c key limit k ih => exact fun t got _ _ _ => ih got

theorem asks_map {p : Script σ κ ε α} {f : α → β} :
    asks P may ask (f <$> p) held w s ↔ asks P may ask p held w s := by
  rw [← bind_pure_comp, asks_bind]
  exact and_iff_left (wp_of_all fun _ _ _ _ => trivial)

theorem asks_ofExcept {r : Except ε α} :
    asks P may ask (ofExcept r : Script σ κ ε α) held w s := by
  cases r with
  | error e => trivial
  | ok a => trivial

/-- Loop rule: every round asks as it should where the invariant of the loop holds. -/
theorem asks_forEach {ι : Type} {f : ι → Script σ κ ε Unit}
    {I : List ι → List κ → (σ → σ) → σ → Prop} {xs : List ι}
    (hf : ∀ x rest held w s, I (x :: rest) held w s → asks P may ask (f x) held w s ∧
      wp P may (f x) (fun _ held w s => I rest held w s) held w s)
    (h : I xs held w s) : asks P may ask (forEach f xs) held w s ∧
      wp P may (forEach f xs) (fun _ held w s => I [] held w s) held w s := by
  induction xs generalizing held w s with
  | nil => exact ⟨trivial, h⟩
  | cons x xs ih =>
    obtain ⟨hx, hw⟩ := hf x xs held w s h
    exact ⟨asks_bind.mpr ⟨hx, wp_mono (fun _ _ _ _ hi => (ih hi).1) hw⟩,
      wp_bind.mpr (wp_mono (fun _ _ _ _ hi => (ih hi).2) hw)⟩

end Asks

/-- What one statement leaves of a script. -/
inductive Leaves : Script σ κ ε α → Script σ κ ε α → Prop
  | query (k : σ → Script σ κ ε α) (s : σ) : Leaves (k s) (.query k)
  | write (f : σ → σ) (n : Script σ κ ε α) : Leaves n (.write f n)
  | lock (key : κ) (n : Script σ κ ε α) : Leaves n (.lock key n)
  | skipLocked (c : σ → List Int) (key : Int → κ) (limit : Option Nat)
      (k : List Int → Script σ κ ε α) (got : List Int) : Leaves (k got) (.skipLocked c key limit k)

theorem leaves_wf : WellFounded (Leaves : Script σ κ ε α → Script σ κ ε α → Prop) := by
  refine ⟨fun p => ?_⟩
  induction p with
  | pure a => exact ⟨_, fun q hq => by cases hq⟩
  | raise e => exact ⟨_, fun q hq => by cases hq⟩
  | query k ih => exact ⟨_, fun q hq => by cases hq with | query _ s => exact ih s⟩
  | write f n ih => exact ⟨_, fun q hq => by cases hq; exact ih⟩
  | lock key n ih => exact ⟨_, fun q hq => by cases hq; exact ih⟩
  | skipLocked c key limit k ih =>
    exact ⟨_, fun q hq => by cases hq with | skipLocked _ _ _ _ got => exact ih got⟩

end Script

section Runs

variable [Lockable κ] {P : Protocol σ κ} {D : Discipline χ σ κ}
  {program : χ → Script σ κ ε (Finish ρ)} {post : χ → ρ → σ → Prop}
  {ask : List κ → κ → σ → Prop}

/-- What an open transaction has left to do asks for locks as it should. -/
def SessionAsks (P : Protocol σ κ) (D : Discipline χ σ κ) (ask : List κ → κ → σ → Prop) (s : σ)
    (S : Session χ σ κ ε ρ) : Prop :=
  ∀ rest w held, S.phase = .running rest w held → ∃ t, P.Rely held t s ∧
    rest.asks P (D.locks S.call) ask held w t

theorem SessionAsks.rely {S : Session χ σ κ ε ρ} {s t : σ} (h : SessionAsks P D ask s S)
    (ht : P.Rely S.held s t) : SessionAsks P D ask t S := by
  intro rest w held hS
  obtain ⟨u, hu, hw⟩ := h rest w held hS
  have hheld : S.held = held := by rw [Session.held, hS]
  exact ⟨u, hu.trans (hheld ▸ ht), hw⟩

variable [DecidableEq κ]

/-- One event of a run keeps the remaining requests as they should be. -/
theorem Sound.next_asks {W V : World χ σ κ ε ρ} {e : Event χ} (h : Sound P D post W)
    (hA : ∀ c, D.calls c → ∀ s, P.inv s → (program c).asks P (D.locks c) ask [] id s)
    (hall : ∀ S ∈ W.sessions, SessionAsks P D ask W.db S) (hp : Permitted D W e)
    (hn : W.next program e = some V) : ∀ S ∈ V.sessions, SessionAsks P D ask V.db S := by
  have ended : ∀ {s : σ} {c : χ} {o : Option (Finish ρ)},
      SessionAsks (ε := ε) P D ask s ⟨c, .ended o⟩ := by
    rintro s c o rest w held ⟨⟩
  have moved : ∀ {i : Nat} {c : χ} {p : Phase σ κ ε ρ}, SessionAsks P D ask W.db ⟨c, p⟩ →
      ∀ S ∈ (W.setPhase i c p).sessions, SessionAsks P D ask W.db S := by
    intro i c p hp S hS
    obtain ⟨j, hj⟩ := List.mem_iff_getElem?.mp hS
    rcases getElem?_setPhase hj with ⟨-, rfl⟩ | ⟨-, hj'⟩
    · exact hp
    · exact hall S (List.mem_of_getElem? hj')
  have going : ∀ {c : χ} {rest : Script σ κ ε (Finish ρ)} {w : σ → σ} {held : List κ},
      rest.asks P (D.locks c) ask held w W.db →
      SessionAsks P D ask W.db (⟨c, .running rest w held⟩ : Session χ σ κ ε ρ) := by
    rintro c rest w held hw _ _ _ ⟨⟩
    exact ⟨W.db, .refl h.inv, hw⟩
  cases e with
  | start c =>
    cases Option.some.inj hn
    intro S hS
    rcases List.mem_append.mp hS with hS | hS
    · exact hall S hS
    · cases List.mem_singleton.mp hS
      exact going (hA c hp W.db h.inv)
  | kill i =>
    simp only [World.next] at hn
    split at hn
    next => cases Option.some.inj hn; exact moved ended
    next => cases hn
  | advance i =>
    obtain ⟨c, rest, w, held, hi, hcase⟩ := advance_cases hn
    obtain ⟨t, ht, hw⟩ := hall _ (List.mem_of_getElem? hi) rest w held rfl
    rcases hcase with ⟨r, rfl, rfl⟩ | ⟨r, rfl, rfl⟩ | ⟨e, rfl, rfl⟩ | ⟨k, rfl, rfl⟩ |
      ⟨f, n, rfl, rfl⟩ | ⟨key, n, rfl, hl, rfl⟩ | ⟨cands, key, limit, k, got, rfl, hg, rfl⟩
    · -- the others rely on what the commit guarantees
      obtain ⟨u, hu, hc⟩ := h.sessions _ (List.mem_of_getElem? hi)
      obtain ⟨hguar, -⟩ := hc r rfl W.db hu
      intro S hS
      obtain ⟨j, hj⟩ := List.mem_iff_getElem?.mp hS
      rcases getElem?_setPhase hj with ⟨-, rfl⟩ | ⟨hne, hj'⟩
      · exact ended
      · refine (hall S (List.mem_of_getElem? hj')).rely (hguar.rely fun key hk => ?_)
        exact h.exclusive j i S _ (Ne.symm hne) hj' hi key hk
    · exact moved ended
    · exact moved ended
    · exact moved (going (hw W.db ht))
    · refine moved ?_
      rintro _ _ _ ⟨⟩
      exact ⟨t, ht, hw⟩
    · exact moved (going ((hw W.db ht).2 (hp c key n w held hi)))
    · subst hg
      refine moved (going (hw W.db _ ht (Script.unlocked_sublist _ _ _) ?_))
      rintro n rfl
      exact Script.length_unlocked_le _ _ _

/-- In every interleaving, each transaction that waits for a lock asked for it as it should. -/
theorem Run.asks {s : σ} {W : World χ σ κ ε ρ} (hk : Keeps P D program post)
    (hpost : ∀ c r s t, post c r s → P.steady s t → post c r t)
    (hA : ∀ c, D.calls c → ∀ s, P.inv s → (program c).asks P (D.locks c) ask [] id s)
    (hs : P.inv s) (hr : Run program D ⟨s, []⟩ W) {i : Nat} {c : χ} {key : κ}
    {n : Script σ κ ε (Finish ρ)} {w : σ → σ} {held : List κ}
    (hi : W.sessions[i]? = some ⟨c, .running (.lock key n) w held⟩) : ask held key W.db := by
  have hall : ∀ S ∈ W.sessions, SessionAsks P D ask W.db S := by
    clear hi
    induction hr with
    | refl => simp
    | step hrun hp hn ih => exact (Run.sound hk hpost (Sound.start hs) hrun).1.next_asks hA ih hp hn
  obtain ⟨t, ht, hw⟩ := hall _ (List.mem_of_getElem? hi) _ _ _ rfl
  exact (hw W.db ht).1

/-- The script of a session that is still open. -/
def Session.rest (S : Session χ σ κ ε ρ) : Option (Script σ κ ε (Finish ρ)) :=
  match S.phase with
  | .running rest _ _ => some rest
  | .ended _ => none

/-- An open transaction that cannot take its next step waits for a lock another one holds. -/
theorem waits_of_blocked {W : World χ σ κ ε ρ} {i : Nat} {c : χ}
    {rest : Script σ κ ε (Finish ρ)} {w : σ → σ} {held : List κ}
    (hi : W.sessions[i]? = some ⟨c, .running rest w held⟩)
    (hn : W.next program (.advance i) = none) :
    ∃ key n, rest = .lock key n ∧ ∃ j S, j ≠ i ∧ W.sessions[j]? = some S ∧ target key ∈ S.held := by
  simp only [World.next, hi] at hn
  cases rest with
  | pure fin => cases fin <;> cases hn
  | raise e => cases hn
  | query k => cases hn
  | write f n => cases hn
  | skipLocked cands key limit k => cases hn
  | lock key n =>
    dsimp only at hn
    split at hn
    next hl =>
      refine ⟨key, n, rfl, ?_⟩
      by_contra hno
      have hfree : W.lockedFor i (target key) = false :=
        World.lockedFor_eq_false.mpr fun j S hj hne hkey => hno ⟨j, S, hne, hj, hkey⟩
      rw [hfree] at hl
      cases hl
    next => cases hn

/-- Some open transaction can take its next step. -/
def World.Live (program : χ → Script σ κ ε (Finish ρ)) (W : World χ σ κ ε ρ) : Prop :=
  ∃ i, (W.next program (.advance i)).isSome

/-- What the open transactions have left to do. -/
def World.work (W : World χ σ κ ε ρ) : Multiset (Script σ κ ε (Finish ρ)) :=
  (W.sessions.filterMap Session.rest : List (Script σ κ ε (Finish ρ)))

omit [Lockable κ] [DecidableEq κ] in
theorem work_split {W : World χ σ κ ε ρ} {a b : List (Session χ σ κ ε ρ)} {S : Session χ σ κ ε ρ}
    (h : W.sessions = a ++ S :: b) :
    W.work = (a.filterMap Session.rest : List (Script σ κ ε (Finish ρ))) +
      (S.rest.toList + b.filterMap Session.rest : Multiset (Script σ κ ε (Finish ρ))) := by
  rw [World.work, h, List.filterMap_append, ← Multiset.coe_add, Multiset.coe_add]
  congr 2
  rw [List.filterMap_cons]
  cases S.rest <;> rfl

/-- A step of an open transaction leaves less to do in all. -/
theorem World.next_work {W V : World χ σ κ ε ρ} {i : Nat}
    (hn : W.next program (.advance i) = some V) :
    Relation.CutExpand Script.Leaves V.work W.work := by
  obtain ⟨c, rest, w, held, hi, hcase⟩ := advance_cases hn
  obtain ⟨a, b, hW, hlen⟩ : ∃ a b, W.sessions = a ++ ⟨c, .running rest w held⟩ :: b ∧ a.length = i := by
    obtain ⟨hlt, hget⟩ := List.getElem?_eq_some_iff.mp hi
    refine ⟨W.sessions.take i, W.sessions.drop (i + 1), ?_, List.length_take_of_le hlt.le⟩
    rw [← hget, List.getElem_cons_drop, List.take_append_drop]
  have replaced : ∀ p : Phase σ κ ε ρ, (W.setPhase i c p).sessions = a ++ ⟨c, p⟩ :: b := by
    intro p
    simp [World.setPhase, hW, ← hlen]
  have ended : ∀ {U : World χ σ κ ε ρ} {o : Option (Finish ρ)},
      U.sessions = a ++ ⟨c, .ended o⟩ :: b → Relation.CutExpand Script.Leaves U.work W.work := by
    intro U o hU
    refine ⟨0, rest, by simp, ?_⟩
    rw [work_split hU, work_split hW]
    simp only [Session.rest, Option.toList_none, Option.toList_some, Multiset.coe_nil,
      Multiset.coe_singleton]
    abel
  have left : ∀ {U : World χ σ κ ε ρ} {rest' : Script σ κ ε (Finish ρ)} {w' : σ → σ}
      {held' : List κ}, Script.Leaves rest' rest →
      U.sessions = a ++ ⟨c, .running rest' w' held'⟩ :: b →
      Relation.CutExpand Script.Leaves U.work W.work := by
    intro U rest' w' held' hl hU
    refine ⟨{rest'}, rest, by simpa using hl, ?_⟩
    rw [work_split hU, work_split hW]
    simp only [Session.rest, Option.toList_some, Multiset.coe_singleton]
    abel
  rcases hcase with ⟨r, rfl, rfl⟩ | ⟨r, rfl, rfl⟩ | ⟨e, rfl, rfl⟩ | ⟨k, rfl, rfl⟩ |
    ⟨f, n, rfl, rfl⟩ | ⟨key, n, rfl, -, rfl⟩ | ⟨cands, key, limit, k, got, rfl, -, rfl⟩
  · exact ended (replaced _)
  · exact ended (replaced _)
  · exact ended (replaced _)
  · exact left (.query k _) (replaced _)
  · exact left (.write f n) (replaced _)
  · exact left (.lock key n) (replaced _)
  · exact left (.skipLocked cands key limit k got) (replaced _)

/-- No transaction is open any more. -/
def World.Quiet (W : World χ σ κ ε ρ) : Prop := ∀ S ∈ W.sessions, S.rest = none

/-- Where some open transaction can always move, all can be brought to their ends, each by its own
statements. -/
theorem Run.drains {U W : World χ σ κ ε ρ}
    (hlive : ∀ V, Run program D U V → ¬V.Quiet → V.Live program)
    (hfree : ∀ V i, Run program D U V → Permitted D V (.advance i)) (hr : Run program D U W) :
    ∃ V, ∃ is : List Nat, W.runs program (fun _ _ _ _ => true) (is.map .advance) = some V ∧
      Run program D W V ∧ V.Quiet := by
  have hwf : WellFounded fun V W : World χ σ κ ε ρ => Relation.CutExpand Script.Leaves V.work W.work :=
    InvImage.wf World.work Script.leaves_wf.cutExpand
  induction W using hwf.induction with
  | _ W ih =>
    by_cases hq : W.Quiet
    · exact ⟨W, [], rfl, .refl, hq⟩
    · obtain ⟨i, hi⟩ := hlive W hr hq
      obtain ⟨W', hW'⟩ := Option.isSome_iff_exists.mp hi
      obtain ⟨V, is, hruns, hV, hquiet⟩ := ih W' (World.next_work hW') (.step hr (hfree W i hr) hW')
      refine ⟨V, i :: is, ?_, (Run.step .refl (hfree W i hr) hW').trans hV, hquiet⟩
      have hgranted : W.granted (fun _ _ _ _ => true) (.advance i) = true := by
        simp only [World.granted]
        split <;> rfl
      rw [List.map_cons, World.runs, if_pos hgranted, hW']
      exact hruns

end Runs

end Txn
