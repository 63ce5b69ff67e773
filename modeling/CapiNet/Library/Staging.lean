import Mathlib.Logic.Function.Basic
import Mathlib.Data.List.Induction

namespace CapiNet.Staging

/-- What is in a directory: a product in its place, and what commands have left. -/
structure Dir (D P : Type) where
  product : Option P
  work : D

/-- The directories by their names. -/
abbrev Disk (N D P : Type) := N → Option (Dir D P)

/-- Where the product of a key stands and where it is made. -/
structure Layout (K N : Type) where
  final : K → N
  scratch : K → N
  final_injective : Function.Injective final
  apart : ∀ k k', final k ≠ scratch k'

/-- How a product is made: how an empty scratch directory is prepared, the commands that run there,
and what is taken from it at the end. A probed product is tried out before it is used. -/
structure Recipe (D P : Type) where
  empty : D
  prepare : D → D
  commands : List (D → D)
  take : D → Option (P × D)
  probed : Bool

/-- Where a build is. -/
inductive Phase
  | look | discard | clear | prepare
  | run (n : Nat)
  | place | sweep | probe
  | done (found : Bool)

structure Builder (K D P : Type) where
  key : K
  recipe : Recipe D P
  phase : Phase

/-- How a step goes: whether its command succeeds, what a failed one leaves in the scratch directory,
and whether the product answers the probe. -/
structure Input (D P : Type) where
  ok : Bool := true
  left : Option (Dir D P) := none
  answers : Bool := true

structure State (K N D P : Type) where
  disk : Disk N D P
  builder : Option (Builder K D P)

/-- A process begins a build, makes a step, or is gone in the middle of one. Then the scratch
directory is left as it may be, and a product that was being removed may still be there. -/
inductive Event (K D P : Type)
  | start (key : K) (recipe : Recipe D P)
  | step (inp : Input D P)
  | crash (left : Option (Dir D P)) (kept : Bool)

variable {K N D P : Type}

namespace Recipe

/-- What the scratch directory holds after some of the commands. -/
def after (r : Recipe D P) (n : Nat) : D :=
  (r.commands.take n).foldl (fun d c => c d) (r.prepare r.empty)

/-- What all of it gives. -/
def product (r : Recipe D P) : Option P := (r.take (r.after r.commands.length)).map (·.1)

@[simp] theorem after_zero (r : Recipe D P) : r.after 0 = r.prepare r.empty := rfl

theorem after_succ (r : Recipe D P) {n : Nat} {c : D → D} (h : r.commands[n]? = some c) :
    r.after (n + 1) = c (r.after n) := by
  obtain ⟨hlt, rfl⟩ := List.getElem?_eq_some_iff.mp h
  simp only [after, List.take_add_one, List.getElem?_eq_getElem hlt, Option.toList_some,
    List.foldl_append, List.foldl_cons, List.foldl_nil]

end Recipe

namespace Disk

variable [DecidableEq N]

def put (disk : Disk N D P) (name : N) (dir : Option (Dir D P)) : Disk N D P :=
  Function.update disk name dir

@[simp] theorem put_self (disk : Disk N D P) (name : N) (dir : Option (Dir D P)) :
    disk.put name dir name = dir := Function.update_self ..

theorem put_ne (disk : Disk N D P) {name other : N} (dir : Option (Dir D P)) (h : other ≠ name) :
    disk.put name dir other = disk other := Function.update_of_ne h ..

end Disk

/-- The product of a key, if it is there. -/
def State.product (L : Layout K N) (s : State K N D P) (k : K) : Option P :=
  (s.disk (L.final k)).bind (·.product)

variable [DecidableEq N]

/-- One step of a build. -/
def Builder.step (L : Layout K N) (disk : Disk N D P) (b : Builder K D P) (inp : Input D P) :
    Disk N D P × Phase :=
  match b.phase with
  | .look =>
    match (disk (L.final b.key)).bind (·.product) with
    | some _ => (disk, if b.recipe.probed && !inp.answers then .discard else .done true)
    | none => (disk, .clear)
  | .discard => (disk.put (L.final b.key) none, .clear)
  | .clear => (disk.put (L.scratch b.key) none, .prepare)
  | .prepare =>
    let dir := (disk (L.scratch b.key)).getD ⟨none, b.recipe.empty⟩
    (disk.put (L.scratch b.key) (some { dir with work := b.recipe.prepare dir.work }), .run 0)
  | .run n =>
    match b.recipe.commands[n]?, disk (L.scratch b.key) with
    | some c, some dir =>
      if inp.ok then (disk.put (L.scratch b.key) (some { dir with work := c dir.work }), .run (n + 1))
      else (disk.put (L.scratch b.key) inp.left, .done false)
    | some _, none => (disk, .done false)
    | none, _ => (disk, .place)
  | .place =>
    match disk (L.scratch b.key) with
    | none => (disk, .done false)
    | some dir =>
      match b.recipe.take dir.work with
      | none => (disk, .done false)
      | some (p, rest) =>
        let old := (disk (L.final b.key)).elim b.recipe.empty (·.work)
        ((disk.put (L.scratch b.key) (some { dir with work := rest })).put (L.final b.key)
          (some ⟨some p, old⟩), .sweep)
  | .sweep => (disk.put (L.scratch b.key) none, if b.recipe.probed then .probe else .done true)
  | .probe => (disk, .done inp.answers)
  | .done found => (disk, .done found)

/-- What is left of a build that is cut off. A rename happens or does not. -/
def Builder.cut (L : Layout K N) (disk : Disk N D P) (b : Builder K D P) (left : Option (Dir D P))
    (kept : Bool) : Disk N D P :=
  match b.phase with
  | .discard => if kept then disk else disk.put (L.final b.key) none
  | .clear => disk.put (L.scratch b.key) left
  | .prepare => disk.put (L.scratch b.key) left
  | .run _ => disk.put (L.scratch b.key) left
  | .sweep => disk.put (L.scratch b.key) left
  | _ => disk

namespace State

def init : State K N D P := ⟨fun _ => none, none⟩

def step (L : Layout K N) (s : State K N D P) : Event K D P → State K N D P
  | .start k r => { s with builder := some ⟨k, r, .look⟩ }
  | .step inp =>
    match s.builder with
    | none => s
    | some b =>
      let (disk, phase) := b.step L s.disk inp
      ⟨disk, some { b with phase := phase }⟩
  | .crash left kept =>
    match s.builder with
    | none => s
    | some b => ⟨b.cut L s.disk left kept, none⟩

def run (L : Layout K N) (events : List (Event K D P)) : State K N D P :=
  events.foldl (step L) init

theorem run_snoc (L : Layout K N) (events : List (Event K D P)) (e : Event K D P) :
    run L (events ++ [e]) = (run L events).step L e := by simp [run]

end State

/-- What a build relies on in each of its phases. -/
def Builder.Knows (L : Layout K N) (disk : Disk N D P) (b : Builder K D P) : Prop :=
  match b.phase with
  | .prepare => disk (L.scratch b.key) = none
  | .run n => n ≤ b.recipe.commands.length ∧
      ∃ dir, disk (L.scratch b.key) = some dir ∧ dir.work = b.recipe.after n
  | .place => ∃ dir, disk (L.scratch b.key) = some dir ∧
      dir.work = b.recipe.after b.recipe.commands.length
  | .sweep => ((disk (L.final b.key)).bind (·.product)).isSome
  | .probe => ((disk (L.final b.key)).bind (·.product)).isSome
  | .done true => ((disk (L.final b.key)).bind (·.product)).isSome
  | _ => True

/-- The products of a disk, all made by recipes that were begun for their keys. -/
def Disk.Complete (L : Layout K N) (begun : K → Recipe D P → Prop) (disk : Disk N D P) : Prop :=
  ∀ k p, (disk (L.final k)).bind (·.product) = some p → ∃ r, begun k r ∧ r.product = some p

section Disk

variable {L : Layout K N} {begun : K → Recipe D P → Prop} {disk : Disk N D P}

theorem Disk.Complete.put_scratch (h : disk.Complete L begun) (k : K) (dir : Option (Dir D P)) :
    (disk.put (L.scratch k) dir).Complete L begun := by
  intro k' p hp
  rw [Disk.put_ne disk dir (L.apart k' k)] at hp
  exact h k' p hp

theorem Disk.Complete.remove (h : disk.Complete L begun) (k : K) :
    (disk.put (L.final k) none).Complete L begun := by
  intro k' p hp
  by_cases hk : L.final k' = L.final k
  · rw [hk, Disk.put_self] at hp
    cases hp
  · rw [Disk.put_ne disk none hk] at hp
    exact h k' p hp

theorem Disk.Complete.place (h : disk.Complete L begun) {k : K} {r : Recipe D P} {p : P}
    (hr : begun k r) (hp : r.product = some p) (work : D) :
    (disk.put (L.final k) (some ⟨some p, work⟩)).Complete L begun := by
  intro k' p' hp'
  by_cases hk : L.final k' = L.final k
  · obtain rfl := L.final_injective hk
    rw [Disk.put_self] at hp'
    cases hp'
    exact ⟨r, hr, hp⟩
  · rw [Disk.put_ne disk _ hk] at hp'
    exact h k' p' hp'

/-- A step keeps every product complete, and takes the build to where it knows enough. -/
theorem Builder.step_knows {b : Builder K D P} (hdisk : disk.Complete L begun)
    (hb : begun b.key b.recipe) (h : b.Knows L disk) (inp : Input D P) :
    (b.step L disk inp).1.Complete L begun ∧
      Builder.Knows L (b.step L disk inp).1 { b with phase := (b.step L disk inp).2 } := by
  obtain ⟨k, r, phase⟩ := b
  cases phase with
  | look =>
    dsimp only [Builder.step]
    split
    next p hp =>
      split
      next => exact ⟨hdisk, trivial⟩
      next => exact ⟨hdisk, by simp [Builder.Knows, hp]⟩
    next => exact ⟨hdisk, trivial⟩
  | discard => exact ⟨hdisk.remove k, trivial⟩
  | clear => exact ⟨hdisk.put_scratch k none, Disk.put_self ..⟩
  | prepare =>
    refine ⟨hdisk.put_scratch k _, Nat.zero_le _, _, Disk.put_self .., ?_⟩
    -- nothing of an earlier build is left
    have hclear : disk (L.scratch k) = none := h
    simp only [hclear, Option.getD_none, Recipe.after_zero]
  | run n =>
    obtain ⟨hn, dir, hdir, hwork⟩ := h
    dsimp only at hn hdir hwork
    dsimp only [Builder.step]
    rw [hdir]
    split
    next c dir' hc heq =>
      cases heq
      split
      next =>
        obtain ⟨hlt, -⟩ := List.getElem?_eq_some_iff.mp hc
        refine ⟨hdisk.put_scratch k _, hlt, _, Disk.put_self .., ?_⟩
        dsimp only
        rw [hwork, r.after_succ hc]
      next => exact ⟨hdisk.put_scratch k _, trivial⟩
    next heq => cases heq
    next hc =>
      have hall : n = r.commands.length := Nat.le_antisymm hn (List.getElem?_eq_none_iff.mp hc)
      exact ⟨hdisk, dir, hdir, hall ▸ hwork⟩
  | place =>
    obtain ⟨dir, hdir, hwork⟩ := h
    dsimp only at hdir hwork
    dsimp only [Builder.step]
    rw [hdir]
    dsimp only
    split
    next => exact ⟨hdisk, trivial⟩
    next p rest htake =>
      have hp : r.product = some p := by
        rw [Recipe.product, ← hwork, htake]
        rfl
      refine ⟨(hdisk.put_scratch k _).place hb hp _, ?_⟩
      simp [Builder.Knows]
  | sweep =>
    have hkept : (disk.put (L.scratch k) none) (L.final k) = disk (L.final k) :=
      Disk.put_ne disk none (L.apart k k)
    refine ⟨hdisk.put_scratch k none, ?_⟩
    dsimp only [Builder.step]
    split
    next =>
      change (((disk.put (L.scratch k) none) (L.final k)).bind (·.product)).isSome
      rw [hkept]
      exact h
    next =>
      change (((disk.put (L.scratch k) none) (L.final k)).bind (·.product)).isSome
      rw [hkept]
      exact h
  | probe =>
    refine ⟨hdisk, ?_⟩
    dsimp only [Builder.step]
    cases inp.answers with
    | false => trivial
    | true => exact h
  | done found => exact ⟨hdisk, h⟩

theorem Builder.cut_complete {b : Builder K D P} (hdisk : disk.Complete L begun)
    (left : Option (Dir D P)) (kept : Bool) : (b.cut L disk left kept).Complete L begun := by
  obtain ⟨k, r, phase⟩ := b
  cases phase with
  | discard =>
    cases kept with
    | true => exact hdisk
    | false => exact hdisk.remove k
  | clear => exact hdisk.put_scratch k left
  | prepare => exact hdisk.put_scratch k left
  | run n => exact hdisk.put_scratch k left
  | sweep => exact hdisk.put_scratch k left
  | _ => exact hdisk

end Disk

/-- The products are complete, and the build in progress knows what it relies on. -/
structure State.Sound (L : Layout K N) (begun : K → Recipe D P → Prop) (s : State K N D P) : Prop where
  complete : s.disk.Complete L begun
  builder : ∀ b, s.builder = some b → begun b.key b.recipe ∧ b.Knows L s.disk

omit [DecidableEq N] in
theorem State.Sound.mono {L : Layout K N} {begun begun' : K → Recipe D P → Prop} {s : State K N D P}
    (h : s.Sound L begun) (hb : ∀ k r, begun k r → begun' k r) : s.Sound L begun' := by
  refine ⟨fun k p hp => ?_, fun b hs => ⟨hb _ _ (h.builder b hs).1, (h.builder b hs).2⟩⟩
  obtain ⟨r, hr, hrp⟩ := h.complete k p hp
  exact ⟨r, hb k r hr, hrp⟩

theorem State.step_sound {L : Layout K N} {begun : K → Recipe D P → Prop} {s : State K N D P}
    (h : s.Sound L begun) (e : Event K D P) (he : ∀ k r, e = .start k r → begun k r) :
    (s.step L e).Sound L begun := by
  cases e with
  | start k r =>
    refine ⟨h.complete, fun b hb => ?_⟩
    cases hb
    exact ⟨he k r rfl, trivial⟩
  | step inp =>
    dsimp only [State.step]
    split
    next => exact h
    next b hb =>
      obtain ⟨hbegun, hknows⟩ := h.builder b hb
      obtain ⟨hdisk, hknows'⟩ := Builder.step_knows h.complete hbegun hknows inp
      refine ⟨hdisk, fun b' hb' => ?_⟩
      cases hb'
      exact ⟨hbegun, hknows'⟩
  | crash left kept =>
    dsimp only [State.step]
    split
    next => exact h
    next b hb => exact ⟨Builder.cut_complete h.complete left kept, fun _ hb' => (by cases hb')⟩

theorem State.run_sound (L : Layout K N) (events : List (Event K D P)) :
    (State.run L events).Sound L fun k r => .start k r ∈ events := by
  induction events using List.reverseRecOn with
  | nil => exact ⟨fun _ _ hp => (by cases hp), fun _ hb => (by cases hb)⟩
  | append_singleton events e ih =>
    rw [State.run_snoc]
    refine State.step_sound (ih.mono fun k r h => List.mem_append_left _ h) e fun k r he => ?_
    simp [he]

/-- Whatever fails and wherever a build is cut off, the product of a key is what a recipe that was
begun for the key makes when nothing goes wrong. -/
theorem State.run_complete (L : Layout K N) (events : List (Event K D P)) {k : K} {p : P}
    (h : (State.run L events).product L k = some p) :
    ∃ r, .start k r ∈ events ∧ r.product = some p :=
  (State.run_sound L events).complete k p h

/-- A build that has found or made its product has it in its place. -/
theorem State.run_found (L : Layout K N) (events : List (Event K D P)) {b : Builder K D P}
    (hb : (State.run L events).builder = some b) (hdone : b.phase = .done true) :
    ∃ p, (State.run L events).product L b.key = some p := by
  have hknows := ((State.run_sound L events).builder b hb).2
  unfold Builder.Knows at hknows
  rw [hdone] at hknows
  exact Option.isSome_iff_exists.mp hknows

/-- The steps a build has left when nothing goes wrong; none where something has gone wrong. -/
def Builder.rest (b : Builder K D P) : Option Nat :=
  match b.phase with
  | .look => some (b.recipe.commands.length + 7)
  | .discard => none
  | .clear => some (b.recipe.commands.length + 6)
  | .prepare => some (b.recipe.commands.length + 5)
  | .run n => some (b.recipe.commands.length - n + 4)
  | .place => some 3
  | .sweep => some 2
  | .probe => some 1
  | .done true => some 0
  | .done false => none

theorem Builder.step_rest {L : Layout K N} {disk : Disk N D P} {b : Builder K D P} {p : P} {n : Nat}
    (hp : b.recipe.product = some p) (h : b.Knows L disk) (hrest : b.rest = some n) :
    ∃ m, Builder.rest { b with phase := (b.step L disk {}).2 } = some m ∧ m ≤ n - 1 := by
  obtain ⟨k, r, phase⟩ := b
  cases phase with
  | look =>
    cases hrest
    dsimp only [Builder.step]
    split
    next => exact ⟨0, by simp [Builder.rest], by omega⟩
    next => exact ⟨r.commands.length + 6, rfl, by omega⟩
  | discard => cases hrest
  | clear =>
    cases hrest
    exact ⟨r.commands.length + 5, rfl, by dsimp only; omega⟩
  | prepare =>
    cases hrest
    exact ⟨r.commands.length + 4, rfl, by dsimp only; omega⟩
  | run i =>
    cases hrest
    obtain ⟨hi, dir, hdir, -⟩ := h
    dsimp only at hi hdir
    dsimp only [Builder.step]
    rw [hdir]
    split
    next c dir' hc heq =>
      obtain ⟨hlt, -⟩ := List.getElem?_eq_some_iff.mp hc
      refine ⟨_, rfl, ?_⟩
      dsimp only
      omega
    next heq => cases heq
    next => exact ⟨_, rfl, by omega⟩
  | place =>
    cases hrest
    obtain ⟨dir, hdir, hwork⟩ := h
    dsimp only at hdir hwork
    dsimp only [Builder.step]
    rw [hdir]
    dsimp only
    split
    next htake =>
      rw [Recipe.product, ← hwork, htake] at hp
      cases hp
    next => exact ⟨_, rfl, by omega⟩
  | sweep =>
    cases hrest
    dsimp only [Builder.step]
    split
    next => exact ⟨_, rfl, by omega⟩
    next => exact ⟨_, rfl, by omega⟩
  | probe =>
    cases hrest
    exact ⟨_, rfl, by omega⟩
  | done found =>
    cases found with
    | true =>
      cases hrest
      exact ⟨_, rfl, by omega⟩
    | false => cases hrest

/-- Whatever was cut off before, a build in which nothing goes wrong makes its product. -/
theorem State.build_ends (L : Layout K N) (events : List (Event K D P)) {k : K} {r : Recipe D P}
    {p : P} (hp : r.product = some p) :
    (State.run L (events ++ .start k r :: List.replicate (r.commands.length + 7) (.step {}))).builder =
      some ⟨k, r, .done true⟩ := by
  have hsteps : ∀ (n : Nat) (s : State K N D P) (b : Builder K D P) (m : Nat),
      s.builder = some b → b.key = k → b.recipe = r → s.Sound L (fun _ _ => True) →
      b.rest = some m → m ≤ n →
      ((List.replicate n (Event.step {})).foldl (State.step L) s).builder = some ⟨k, r, .done true⟩ := by
    intro n
    induction n with
    | zero =>
      rintro s ⟨k', r', phase⟩ m hb rfl rfl - hrest hm
      obtain rfl : m = 0 := by omega
      rw [List.replicate_zero, List.foldl_nil, hb]
      cases phase with
      | done found => cases found <;> simp [Builder.rest] at hrest ⊢
      | _ => simp [Builder.rest] at hrest
    | succ n ih =>
      rintro s b m hb rfl rfl hs hrest hm
      obtain ⟨-, hknows⟩ := hs.builder b hb
      obtain ⟨m', hrest', hm'⟩ := Builder.step_rest hp hknows hrest
      rw [List.replicate_succ, List.foldl_cons]
      have hs' : (s.step L (.step {})).Sound L fun _ _ => True :=
        State.step_sound hs _ fun _ _ _ => trivial
      refine ih _ { b with phase := (b.step L s.disk {}).2 } m' ?_ rfl rfl hs' hrest' (by omega)
      simp only [State.step, hb]
  have hsound : (State.run L (events ++ [.start k r])).Sound L fun _ _ => True :=
    (State.run_sound L _).mono fun _ _ _ => trivial
  have hrun := hsteps (r.commands.length + 7) (State.run L (events ++ [.start k r])) ⟨k, r, .look⟩ _
    (by rw [State.run_snoc]; rfl) rfl rfl hsound rfl (Nat.le_refl _)
  rw [← hrun]
  simp [State.run]

end CapiNet.Staging
