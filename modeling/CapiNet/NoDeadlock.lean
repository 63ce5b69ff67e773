import CapiNet.LockRequests
import CapiNet.NoLostUpdate
import Mathlib.Data.Set.Finite.Lattice

namespace CapiNet

open Txn Relational

variable {F : Type}

/-- The next step of an open transaction is a request for a lock. -/
def Asks (W : WorkerWorld F) (i : Nat) (held : List Lock) (key : Lock) : Prop :=
  ∃ c n w, W.sessions[i]? = some ⟨c, .running (.lock key n) w held⟩

/-- Every open transaction waits for another one. What it holds and asks for is as it should be. -/
structure Stuck (W : WorkerWorld F) : Prop where
  timed : W.db.Timed
  asked : ∀ {i held key}, Asks W i held key → Justified held key W.db
  waits : ∀ {i held key}, Asks W i held key → ∃ j held' key', j ≠ i ∧ Asks W j held' key' ∧
    Lockable.target key ∈ held'
  exclusive : ∀ {i j held held' key key'}, Asks W i held key → Asks W j held' key' → i ≠ j →
    ∀ k ∈ held, k ∉ held'

/-- A transaction with a test or the promotion in its hands asks for a test. -/
def Climbs (W : WorkerWorld F) (i : Nat) (held : List Lock) (j : Int) : Prop :=
  Asks W i held (.test j) ∧ ((∃ k, .test k ∈ held) ∨ .promotion ∈ held)

/-- The test a session waits for, if it waits for one. -/
def requested {ε ρ χ : Type} (S : Session χ (Db F) Lock ε ρ) : Option Int :=
  match S.phase with
  | .running (.lock (.test j) _) _ _ => some j
  | _ => none

namespace Stuck

variable {W : WorkerWorld F} {i : Nat} {held : List Lock} {key : Lock} {j x : Int}

theorem not_own (h : Stuck W) (hi : Asks W i held key) : Lockable.target key ∉ held := by
  intro hown
  obtain ⟨j, held', key', hne, hj, hkey⟩ := h.waits hi
  exact h.exclusive hi hj (Ne.symm hne) _ hown hkey

/-- Nobody who holds something waits for a pair. -/
theorem not_pair (h : Stuck W) {p : Int} {k : Lock} (hk : k ∈ held) : ¬Asks W i held (.pair p) := by
  intro hi
  rcases h.asked hi with rfl | hown
  · cases hk
  · exact h.not_own hi hown

/-- The holder of the promotion does not wait for the test it has picked. -/
theorem not_promoted (h : Stuck W) : ¬Asks W i held (.promoted x) := by
  intro hi
  obtain ⟨hp, hfree⟩ := h.asked hi
  obtain ⟨hst, hval⟩ := hfree.resolve_left (h.not_own hi)
  obtain ⟨j, held', key', hne, hj, hx⟩ := h.waits hi
  have hp' : .promotion ∉ held' := h.exclusive hi hj (Ne.symm hne) _ hp
  cases key' with
  | pair p => exact h.not_pair hx hj
  | promoted y => exact hp' (h.asked hj).1
  | test y =>
    rcases h.asked hj with hown | ⟨hnone, -⟩ | ⟨-, hbelow, -⟩
    · exact h.not_own hj hown
    · exact hnone x hx
    · rcases hbelow x hx with ⟨hst', -⟩ | ⟨hp'', -⟩
      · exact hst hst'
      · exact hp' hp''
  | promotion =>
    rcases h.asked hj with hown | hall
    · exact h.not_own hj hown
    · rcases hall x hx with hval' | ⟨hst', -⟩
      · exact hval hval'
      · exact hst hst'

/-- The holder of the promotion waits for a test, with the running one in its hands. -/
theorem leader (h : Stuck W) (hi : Asks W i held key) (hp : .promotion ∈ held) :
    (∃ j, key = .test j) ∧ ∃ r, .test r ∈ held ∧ W.db.RunningAt r := by
  cases key with
  | pair p => exact absurd hi (h.not_pair hp)
  | promoted y => exact absurd hi h.not_promoted
  | promotion => exact absurd hp (h.not_own hi)
  | test y =>
    rcases h.asked hi with hown | ⟨-, hno⟩ | ⟨-, -, hlead⟩
    · exact absurd hown (h.not_own hi)
    · exact absurd hp hno
    · exact ⟨⟨y, rfl⟩, hlead hp⟩

/-- The running test is in the hands of the holder of the promotion. -/
theorem not_behind (h : Stuck W) (hi : Asks W i held .promotion) {r : Int} (hr : .test r ∈ held)
    (hrun : W.db.RunningAt r) : False := by
  obtain ⟨j, held', key', hne, hj, hp⟩ := h.waits hi
  obtain ⟨-, r', hr', hrun'⟩ := h.leader hj hp
  obtain rfl := h.timed.single r r' hrun hrun'
  exact h.exclusive hi hj (Ne.symm hne) _ hr hr'

/-- The holder of a test another one climbs to waits for a later test. -/
theorem ascends (h : Stuck W) (hi : Climbs W i held j) : ∃ i' held' j', Climbs W i' held' j' ∧ j < j' := by
  obtain ⟨hask, hsome⟩ := hi
  have hstarted : W.db.Started j := by
    rcases h.asked hask with hown | ⟨hnone, hno⟩ | ⟨hst, -⟩
    · exact absurd hown (h.not_own hask)
    · rcases hsome with ⟨k, hk⟩ | hp
      · exact absurd hk (hnone k)
      · exact absurd hp hno
    · exact hst
  obtain ⟨i', held', key', -, hi', hj⟩ := h.waits hask
  cases key' with
  | pair p => exact absurd hi' (h.not_pair hj)
  | promoted y => exact absurd hi' h.not_promoted
  | promotion =>
    rcases h.asked hi' with hown | hall
    · exact absurd hown (h.not_own hi')
    · rcases hall j hj with ⟨u, hu, hval⟩ | ⟨-, r, hr, hrun⟩
      · obtain ⟨v, hv, hst⟩ := hstarted
        cases Option.some.inj (hu.symm.trans hv)
        rw [h.timed.waiting j u hu (.inl hval)] at hst
        cases hst
      · exact (h.not_behind hi' hr hrun).elim
  | test j' =>
    refine ⟨i', held', j', ⟨hi', .inl ⟨j, hj⟩⟩, ?_⟩
    rcases h.asked hi' with hown | ⟨hnone, -⟩ | ⟨-, hbelow, -⟩
    · exact absurd hown (h.not_own hi')
    · exact absurd hj (hnone j)
    · rcases hbelow j hj with ⟨-, hlt⟩ | ⟨-, hst⟩
      · exact hlt
      · exact absurd hstarted hst

theorem not_climbs (h : Stuck W) : ¬Climbs W i held j := by
  intro hi
  have hfin : {j : Int | ∃ i held, Climbs W i held j}.Finite := by
    refine (W.sessions.filterMap requested).finite_toSet.subset ?_
    rintro y ⟨k, held, ⟨c, n, w, hk⟩, -⟩
    exact List.mem_filterMap.mpr ⟨_, List.mem_of_getElem? hk, rfl⟩
  obtain ⟨top, ⟨k, held', htop⟩, hmax⟩ := Set.exists_max_image _ id hfin ⟨j, i, held, hi⟩
  obtain ⟨k', held'', y, hy, hlt⟩ := h.ascends htop
  exact absurd (hmax y ⟨k', held'', hy⟩) (not_le.mpr hlt)

theorem not_promotion (h : Stuck W) : ¬Asks W i held .promotion := by
  intro hi
  obtain ⟨j, held', key', -, hj, hp⟩ := h.waits hi
  obtain ⟨⟨y, rfl⟩, -⟩ := h.leader hj hp
  exact h.not_climbs ⟨hj, .inr hp⟩

theorem not_test (h : Stuck W) : ¬Asks W i held (.test j) := by
  intro hi
  obtain ⟨i', held', key', -, hi', hj⟩ := h.waits hi
  cases key' with
  | pair p => exact h.not_pair hj hi'
  | promoted y => exact h.not_promoted hi'
  | promotion => exact h.not_promotion hi'
  | test y => exact h.not_climbs ⟨hi', .inl ⟨j, hj⟩⟩

/-- No transaction asks for anything: none is open. -/
theorem not_asks (h : Stuck W) : ¬Asks W i held key := by
  intro hi
  cases key with
  | promoted y => exact h.not_promoted hi
  | promotion => exact h.not_promotion hi
  | test y => exact h.not_test hi
  | pair p =>
    obtain ⟨i', held', key', -, hi', hp⟩ := h.waits hi
    cases key' with
    | pair p' => exact h.not_pair hp hi'
    | promoted y => exact h.not_promoted hi'
    | promotion => exact h.not_promotion hi'
    | test y => exact h.not_test hi'

end Stuck

variable [LinearOrder F] {E : Env F} {W : WorkerWorld F}

theorem stuck_of_not_live (hW : Run (Activity.program E) (.only Activity.regular) newServer W)
    (hlive : ¬W.Live (Activity.program E)) : Stuck W := by
  have hkeep := keeps_testStarts E
  have hsound := (Run.sound hkeep (fun _ _ _ _ _ _ => trivial) (Sound.start timed_empty) hW).1
  have blocked : ∀ i, W.next (Activity.program E) (.advance i) = none := by
    intro i
    by_contra hi
    exact hlive ⟨i, Option.isSome_iff_ne_none.mpr hi⟩
  refine ⟨hsound.inv, ?_, ?_, ?_⟩
  · rintro i held key ⟨c, n, w, hi⟩
    exact Run.asks hkeep (fun _ _ _ _ _ _ => trivial) (fun c hc s _ => (orderly_activity hc).1)
      timed_empty hW hi
  · rintro i held key ⟨c, n, w, hi⟩
    obtain ⟨key', n', heq, j, S, hne, hj, hS⟩ := waits_of_blocked hi (blocked i)
    cases heq
    obtain ⟨c', phase⟩ := S
    cases phase with
    | ended r => cases hS
    | running rest w' held' =>
      obtain ⟨key', n', rfl, -⟩ := waits_of_blocked hj (blocked j)
      exact ⟨j, held', key', hne, ⟨c', n', w', hj⟩, hS⟩
  · rintro i j held held' key key' ⟨c, n, w, hi⟩ ⟨c', n', w', hj⟩ hne
    exact hsound.exclusive i j _ _ hne hi hj

theorem live_of_not_quiet (hW : Run (Activity.program E) (.only Activity.regular) newServer W)
    (hopen : ¬W.Quiet) : W.Live (Activity.program E) := by
  by_contra hlive
  refine hopen fun S hS => ?_
  obtain ⟨i, hi⟩ := List.mem_iff_getElem?.mp hS
  obtain ⟨c, phase⟩ := S
  cases phase with
  | ended r => rfl
  | running rest w held =>
    have hnone : W.next (Activity.program E) (.advance i) = none := by
      by_contra hsome
      exact hlive ⟨i, Option.isSome_iff_ne_none.mpr hsome⟩
    obtain ⟨key, n, rfl, -⟩ := waits_of_blocked hi hnone
    exact absurd ⟨c, n, w, hi⟩ (stuck_of_not_live hW hlive).not_asks

/-- However the requests and the workers interleave, some open transaction can always take its next
step; and all can be brought to their ends, each by its own statements. -/
theorem no_deadlock (E : Env F) (W : WorkerWorld F)
    (hW : Run (Activity.program E) (.only Activity.regular) newServer W) :
    (¬W.Quiet → W.Live (Activity.program E)) ∧
    ∃ V, ∃ is : List Nat, W.runs (Activity.program E) (fun _ _ _ _ => true) (is.map .advance) = some V ∧
      V.Quiet := by
  refine ⟨live_of_not_quiet hW, ?_⟩
  obtain ⟨V, is, hruns, -, hquiet⟩ := Run.drains (fun V hV => live_of_not_quiet hV)
    (fun _ _ _ _ _ _ _ _ _ => trivial) hW
  exact ⟨V, is, hruns, hquiet⟩

/-- A result waits for the row of its test, which another result has locked. -/
def oneWaits : List (Event Activity) :=
  .start (.request ⟨.submit 1 (drawnReport 1), 1⟩) :: List.replicate 11 (.advance 4) ++
    .start (.request ⟨.submit 2 (drawnReport 1), 1⟩) :: List.replicate 11 (.advance 5) ++
      List.replicate 2 (.advance 4)

theorem no_deadlock_waiting : ∃ W : WorkerWorld ℝ,
    W.next (Activity.program realEnv) (.advance 5) = none ∧ W.Live (Activity.program realEnv) ∧
    ∃ V, ∃ is : List Nat, W.runs (Activity.program realEnv) (fun _ _ _ _ => true)
      (is.map .advance) = some V ∧ V.Quiet := by
  have hrun : ((newServer : WorkerWorld ℝ).runs (Activity.program realEnv) (fun _ _ _ _ => true)
      (bothClaimed ++ oneWaits)).any (fun W => (W.next (Activity.program realEnv) (.advance 5)).isNone &&
        W.sessions.any fun S => S.rest.isSome) = true := by
    decide +kernel
  obtain ⟨W, hW, hw⟩ := (Option.any_eq_true _ _).mp hrun
  obtain ⟨hnone, hopen⟩ := (Bool.and_eq_true _ _).mp hw
  obtain ⟨S, hS, hrest⟩ := List.any_eq_true.mp hopen
  have hregular : ∀ a, .start a ∈ bothClaimed ++ oneWaits → a.regular := by
    simp [bothClaimed, oneWaits, Activity.regular]
  obtain ⟨hlive, hdrain⟩ := no_deadlock realEnv W
    (Run.of_runs hregular (fun _ _ _ _ _ => trivial) hW)
  refine ⟨W, Option.isNone_iff_eq_none.mp hnone, hlive fun hquiet => ?_, hdrain⟩
  rw [hquiet S hS] at hrest
  cases hrest

end CapiNet
