import CapiNet.Library.Monitor
import Mathlib.Data.List.Perm.Basic

namespace CapiNet

/-- Where a thread is; `outside` of `acquire` it may hold leases. -/
inductive PoolThread
  | outside
  | waiting
  | notified
  | connecting
  deriving DecidableEq

structure PoolLease where
  thread : Nat
  connection : Nat

structure ConnectionPool where
  size : Nat
  created : Nat
  idle : List Nat
  leases : List PoolLease
  threads : List PoolThread
  /-- How many connections have been opened so far; the next one gets this number. -/
  opened : Nat
  /-- The connections that are no longer open. -/
  broken : List Nat

/-- A critical section, or something that happens between two of them. -/
inductive PoolAction
  | acquire (t : Nat)
  /-- A blocked thread looks again, notified or not. -/
  | wake (t : Nat)
  | connected (t : Nat)
  | failed (t : Nat) (woken : Option Nat)
  | release (k : Nat) (woken : Option Nat)
  | breaks (connection : Nat)

namespace ConnectionPool

def new (size threads : Nat) : ConnectionPool :=
  ⟨size, 0, [], [], List.replicate threads .outside, 0, []⟩

def setThread (p : ConnectionPool) (t : Nat) (phase : PoolThread) : ConnectionPool :=
  { p with threads := p.threads.set t phase }

/-- `acquire` under the lock: the last idle connection, else a place to make one, else waiting. -/
def enter (p : ConnectionPool) (t : Nat) : ConnectionPool :=
  match p.idle.getLast? with
  | some c => { p.setThread t .outside with idle := p.idle.dropLast, leases := ⟨t, c⟩ :: p.leases }
  | none =>
    if p.created < p.size then { p.setThread t .connecting with created := p.created + 1 }
    else p.setThread t .waiting

/-- `notify_one` unblocks one of the waiting threads, if there is one; which is not said. -/
def notifyOne (p : ConnectionPool) : Option Nat → Option ConnectionPool
  | some w => if p.threads[w]? = some .waiting then some (p.setThread w .notified) else none
  | none => if .waiting ∈ p.threads then none else some p

/-- The new connection, of a number no other has. -/
def connect (p : ConnectionPool) (t : Nat) : ConnectionPool :=
  { p.setThread t .outside with leases := ⟨t, p.opened⟩ :: p.leases, opened := p.opened + 1 }

def giveUpPlace (p : ConnectionPool) : ConnectionPool := { p with created := p.created - 1 }

/-- `release` before it notifies. -/
def giveBack (p : ConnectionPool) (k : Nat) (l : PoolLease) : ConnectionPool :=
  if l.connection ∈ p.broken then
    { p with leases := p.leases.eraseIdx k, created := p.created - 1 }
  else { p with leases := p.leases.eraseIdx k, idle := p.idle ++ [l.connection] }

def step (p : ConnectionPool) : PoolAction → Option ConnectionPool
  | .acquire t => if p.threads[t]? = some .outside then some (p.enter t) else none
  | .wake t =>
    if p.threads[t]? = some .waiting ∨ p.threads[t]? = some .notified then some (p.enter t)
    else none
  | .connected t => if p.threads[t]? = some .connecting then some (p.connect t) else none
  | .failed t woken =>
    if p.threads[t]? = some .connecting then (p.setThread t .outside).giveUpPlace.notifyOne woken
    else none
  | .release k woken =>
    match p.leases[k]? with
    | some l =>
      -- the lease ends where its thread is, which is not in `acquire` then
      if p.threads[l.thread]? = some .outside then (p.giveBack k l).notifyOne woken else none
    | none => none
  | .breaks c => some { p with broken := c :: p.broken }

def run (p : ConnectionPool) : List PoolAction → Option ConnectionPool
  | [] => some p
  | a :: rest =>
    match p.step a with
    | some p' => p'.run rest
    | none => none

def held (p : ConnectionPool) : List Nat := p.leases.map PoolLease.connection

structure Sound (p : ConnectionPool) : Prop where
  accounted : p.created = p.idle.length + p.leases.length + p.threads.count .connecting
  bounded : p.created ≤ p.size
  distinct : (p.idle ++ p.held).Nodup
  numbered : ∀ c ∈ p.idle ++ p.held, c < p.opened

/-- The pool as a monitor: a free unit is an idle connection or a place for one. -/
def monitor (p : ConnectionPool) : Monitor.State :=
  ⟨p.idle.length + (p.size - p.created), p.threads.count .waiting, p.threads.count .notified⟩

theorem count_set {threads : List PoolThread} {t : Nat} {old : PoolThread}
    (h : threads[t]? = some old) (new x : PoolThread) :
    (threads.set t new).count x + (if old = x then 1 else 0) =
      threads.count x + (if new = x then 1 else 0) := by
  obtain ⟨hlt, hold⟩ := List.getElem?_eq_some_iff.mp h
  rw [List.count_set hlt, hold]
  simp only [beq_iff_eq]
  by_cases heq : old = x
  · have hpos : 0 < threads.count x := List.count_pos_iff.mpr (List.mem_of_getElem? (heq ▸ h))
    rw [if_pos heq]
    omega
  · rw [if_neg heq]
    omega

section Operations

variable {p : ConnectionPool} {t : Nat} {old : PoolThread}

theorem new_sound (size threads : Nat) : (new size threads).Sound := by
  refine ⟨?_, Nat.zero_le _, List.nodup_nil, fun c hc => absurd hc (by simp [new, held])⟩
  show 0 = 0 + 0 + (List.replicate threads PoolThread.outside).count .connecting
  rw [List.count_replicate]
  rfl

theorem enter_cases (p : ConnectionPool) (t : Nat) :
    (∃ front c, p.idle = front ++ [c] ∧
      p.enter t = { p.setThread t .outside with idle := front, leases := ⟨t, c⟩ :: p.leases }) ∨
    (p.idle = [] ∧ p.created < p.size ∧
      p.enter t = { p.setThread t .connecting with created := p.created + 1 }) ∨
    (p.idle = [] ∧ p.size ≤ p.created ∧ p.enter t = p.setThread t .waiting) := by
  unfold enter
  cases hlast : p.idle.getLast? with
  | some c =>
    refine .inl ⟨p.idle.dropLast, c, ?_, rfl⟩
    exact (List.dropLast_append_getLast? c hlast).symm
  | none =>
    have hidle := List.getLast?_eq_none_iff.mp hlast
    by_cases hroom : p.created < p.size
    · exact .inr (.inl ⟨hidle, hroom, if_pos hroom⟩)
    · exact .inr (.inr ⟨hidle, Nat.not_lt.mp hroom, if_neg hroom⟩)

theorem Sound.enter (hs : p.Sound) (h : p.threads[t]? = some old) (hold : old ≠ .connecting) :
    (p.enter t).Sound := by
  have haccounted := hs.accounted
  have hbounded := hs.bounded
  have hdistinct := hs.distinct
  have hnumbered := hs.numbered
  rcases enter_cases p t with ⟨front, c, hidle, heq⟩ | ⟨hidle, hroom, heq⟩ | ⟨hidle, hroom, heq⟩
  · have hcount := count_set h .outside .connecting
    rw [if_neg hold, if_neg (by decide)] at hcount
    rw [hidle, List.length_append] at haccounted
    rw [hidle, List.append_assoc] at hdistinct hnumbered
    rw [heq]
    refine ⟨?_, hbounded, hdistinct, hnumbered⟩
    show p.created = front.length + (p.leases.length + 1) +
      (p.threads.set t .outside).count .connecting
    simp only [List.length_singleton] at haccounted
    omega
  · have hcount := count_set h .connecting .connecting
    rw [if_neg hold, if_pos rfl] at hcount
    rw [heq]
    refine ⟨?_, hroom, hdistinct, hnumbered⟩
    show p.created + 1 = p.idle.length + p.leases.length +
      (p.threads.set t .connecting).count .connecting
    omega
  · have hcount := count_set h .waiting .connecting
    rw [if_neg hold, if_neg (by decide)] at hcount
    rw [heq]
    refine ⟨?_, hbounded, hdistinct, hnumbered⟩
    show p.created = p.idle.length + p.leases.length +
      (p.threads.set t .waiting).count .connecting
    omega

theorem took_move {p' : ConnectionPool} {new : PoolThread} (h : p.threads[t]? = some old)
    (hold : old ≠ .connecting) (hnew : new = .outside ∨ new = .connecting)
    (hthreads : p'.threads = p.threads.set t new) (hfree : p'.monitor.free + 1 = p.monitor.free) :
    Monitor.Move p.monitor p'.monitor := by
  have hwaiting := count_set h new .waiting
  have hnotified := count_set h new .notified
  have hne : new ≠ .waiting ∧ new ≠ .notified := by
    rcases hnew with rfl | rfl
    · exact ⟨by decide, by decide⟩
    · exact ⟨by decide, by decide⟩
  rw [← hthreads, if_neg hne.1] at hwaiting
  rw [← hthreads, if_neg hne.2] at hnotified
  cases old with
  | outside => exact .take hfree hwaiting hnotified
  | waiting => exact .spurious hfree hwaiting hnotified
  | notified => exact .resume hfree hwaiting hnotified
  | connecting => exact absurd rfl hold

theorem blocked_move (h : p.threads[t]? = some old) (hold : old ≠ .connecting)
    (hfree : p.monitor.free = 0) : Monitor.Move p.monitor (p.setThread t .waiting).monitor := by
  have hwaiting := count_set h .waiting .waiting
  have hnotified := count_set h .waiting .notified
  rw [if_pos rfl] at hwaiting
  rw [if_neg (by decide : PoolThread.waiting ≠ .notified)] at hnotified
  cases old with
  | outside => exact .block hfree hfree hwaiting hnotified
  | waiting => exact .stay rfl (Nat.add_right_cancel hwaiting) hnotified
  | notified => exact .blockAgain hfree hfree hwaiting hnotified
  | connecting => exact absurd rfl hold

theorem enter_move (h : p.threads[t]? = some old) (hold : old ≠ .connecting) :
    Monitor.Move p.monitor (p.enter t).monitor := by
  rcases enter_cases p t with ⟨front, c, hidle, heq⟩ | ⟨hidle, hroom, heq⟩ | ⟨hidle, hroom, heq⟩
  · rw [heq]
    apply took_move h hold (.inl rfl) rfl
    show front.length + (p.size - p.created) + 1 = p.idle.length + (p.size - p.created)
    rw [hidle, List.length_append, List.length_singleton]
    omega
  · rw [heq]
    apply took_move h hold (.inr rfl) rfl
    show p.idle.length + (p.size - (p.created + 1)) + 1 = p.idle.length + (p.size - p.created)
    omega
  · rw [heq]
    apply blocked_move h hold
    show p.idle.length + (p.size - p.created) = 0
    rw [hidle, List.length_nil]
    omega

theorem notifyOne_cases {p' : ConnectionPool} {woken : Option Nat}
    (h : p.notifyOne woken = some p') :
    (∃ w, p.threads[w]? = some .waiting ∧ p' = p.setThread w .notified) ∨
    (.waiting ∉ p.threads ∧ p' = p) := by
  cases woken with
  | some w =>
    rw [notifyOne] at h
    split at h
    next hw => exact .inl ⟨w, hw, (Option.some.inj h).symm⟩
    next => exact absurd h (by simp)
  | none =>
    rw [notifyOne] at h
    split at h
    next => exact absurd h (by simp)
    next hnone => exact .inr ⟨hnone, (Option.some.inj h).symm⟩

theorem Sound.notifyOne {p' : ConnectionPool} {woken : Option Nat} (hs : p.Sound)
    (h : p.notifyOne woken = some p') : p'.Sound := by
  rcases notifyOne_cases h with ⟨w, hw, rfl⟩ | ⟨-, rfl⟩
  · have hcount := count_set hw .notified .connecting
    rw [if_neg (by decide), if_neg (by decide)] at hcount
    refine ⟨?_, hs.bounded, hs.distinct, hs.numbered⟩
    have haccounted := hs.accounted
    show p.created = p.idle.length + p.leases.length +
      (p.threads.set w .notified).count .connecting
    omega
  · exact hs

/-- Giving a unit back and notifying. -/
theorem give_move {q p' : ConnectionPool} {woken : Option Nat}
    (hfree : q.monitor.free = p.monitor.free + 1) (hwaiting : q.monitor.waiting = p.monitor.waiting)
    (hnotified : q.monitor.notified = p.monitor.notified) (h : q.notifyOne woken = some p') :
    Monitor.Move p.monitor p'.monitor := by
  rcases notifyOne_cases h with ⟨w, hw, rfl⟩ | ⟨hnone, rfl⟩
  · have hwaiting' := count_set hw .notified .waiting
    have hnotified' := count_set hw .notified .notified
    rw [if_pos rfl, if_neg (by decide)] at hwaiting'
    rw [if_neg (by decide), if_pos rfl] at hnotified'
    exact .giveNotify hfree (hwaiting'.trans hwaiting) (hnotified'.trans (by rw [← hnotified]; rfl))
  · have hzero : p'.monitor.waiting = 0 := List.count_eq_zero.mpr hnone
    exact .give (hwaiting ▸ hzero) hfree hzero hnotified

theorem connect_sound (hs : p.Sound) (h : p.threads[t]? = some .connecting) :
    (p.connect t).Sound := by
  have haccounted := hs.accounted
  have hcount := count_set h .outside .connecting
  rw [if_pos rfl, if_neg (by decide)] at hcount
  refine ⟨?_, hs.bounded, ?_, ?_⟩
  · show p.created = p.idle.length + (p.leases.length + 1) +
      (p.threads.set t .outside).count .connecting
    omega
  · show (p.idle ++ p.opened :: p.held).Nodup
    rw [List.perm_middle.nodup_iff, List.nodup_cons]
    exact ⟨fun hmem => absurd (hs.numbered _ hmem) (Nat.lt_irrefl _), hs.distinct⟩
  · intro c hc
    change c ∈ p.idle ++ p.opened :: p.held at hc
    show c < p.opened + 1
    rcases List.mem_cons.mp (List.perm_middle.mem_iff.mp hc) with heq | hmem
    · omega
    · have hlt := hs.numbered c hmem
      omega

theorem connect_move (h : p.threads[t]? = some .connecting) :
    Monitor.Move p.monitor (p.connect t).monitor := by
  have hwaiting := count_set h .outside .waiting
  have hnotified := count_set h .outside .notified
  exact .stay rfl hwaiting hnotified

theorem failed_sound (hs : p.Sound) (h : p.threads[t]? = some .connecting) :
    (p.setThread t .outside).giveUpPlace.Sound := by
  have haccounted := hs.accounted
  have hbounded := hs.bounded
  have hcount := count_set h .outside .connecting
  rw [if_pos rfl, if_neg (by decide)] at hcount
  refine ⟨?_, ?_, hs.distinct, hs.numbered⟩
  · show p.created - 1 = p.idle.length + p.leases.length +
      (p.threads.set t .outside).count .connecting
    omega
  · show p.created - 1 ≤ p.size
    omega

theorem failed_move {p' : ConnectionPool} {woken : Option Nat} (hs : p.Sound)
    (h : p.threads[t]? = some .connecting)
    (hn : (p.setThread t .outside).giveUpPlace.notifyOne woken = some p') :
    Monitor.Move p.monitor p'.monitor := by
  have haccounted := hs.accounted
  have hbounded := hs.bounded
  have hpos : 0 < p.threads.count .connecting := List.count_pos_iff.mpr (List.mem_of_getElem? h)
  have hwaiting := count_set h .outside .waiting
  have hnotified := count_set h .outside .notified
  rw [if_neg (by decide), if_neg (by decide)] at hwaiting hnotified
  refine give_move ?_ ?_ ?_ hn
  · show p.idle.length + (p.size - (p.created - 1)) = p.idle.length + (p.size - p.created) + 1
    omega
  · exact hwaiting
  · exact hnotified

section Return

variable {k : Nat} {l : PoolLease}

/-- The connection of the lease and those of the others. -/
theorem held_perm (h : p.leases[k]? = some l) :
    (l.connection :: (p.leases.eraseIdx k).map PoolLease.connection).Perm p.held := by
  obtain ⟨hlt, rfl⟩ := List.getElem?_eq_some_iff.mp h
  exact (List.getElem_cons_eraseIdx_perm hlt).map PoolLease.connection

theorem giveBack_sound (hs : p.Sound) (h : p.leases[k]? = some l) : (p.giveBack k l).Sound := by
  have haccounted := hs.accounted
  have hbounded := hs.bounded
  have hlt := (List.getElem?_eq_some_iff.mp h).1
  have hperm := held_perm h
  unfold giveBack
  split
  next =>
    have hsub : (p.idle ++ (p.leases.eraseIdx k).map PoolLease.connection).Sublist
        (p.idle ++ p.held) :=
      (List.Sublist.refl _).append ((List.eraseIdx_sublist _ _).map _)
    refine ⟨?_, ?_, hs.distinct.sublist hsub, fun c hc => hs.numbered c (hsub.subset hc)⟩
    · show p.created - 1 = p.idle.length + (p.leases.eraseIdx k).length +
        p.threads.count .connecting
      rw [List.length_eraseIdx_of_lt hlt]
      omega
    · show p.created - 1 ≤ p.size
      omega
  next =>
    have hall : ((p.idle ++ [l.connection]) ++
        (p.leases.eraseIdx k).map PoolLease.connection).Perm (p.idle ++ p.held) := by
      rw [List.append_assoc]
      exact hperm.append_left p.idle
    refine ⟨?_, hbounded, hall.nodup_iff.mpr hs.distinct, fun c hc => ?_⟩
    · show p.created = (p.idle ++ [l.connection]).length + (p.leases.eraseIdx k).length +
        p.threads.count .connecting
      rw [List.length_eraseIdx_of_lt hlt, List.length_append, List.length_singleton]
      omega
    · exact hs.numbered c (hall.mem_iff.mp hc)

theorem release_move {p' : ConnectionPool} {woken : Option Nat} (hs : p.Sound)
    (h : p.leases[k]? = some l) (hn : (p.giveBack k l).notifyOne woken = some p') :
    Monitor.Move p.monitor p'.monitor := by
  have haccounted := hs.accounted
  have hbounded := hs.bounded
  have hlt := (List.getElem?_eq_some_iff.mp h).1
  unfold giveBack at hn
  split at hn
  next =>
    refine give_move ?_ ?_ ?_ hn
    · show p.idle.length + (p.size - (p.created - 1)) = p.idle.length + (p.size - p.created) + 1
      omega
    · rfl
    · rfl
  next =>
    refine give_move ?_ ?_ ?_ hn
    · show (p.idle ++ [l.connection]).length + (p.size - p.created) =
        p.idle.length + (p.size - p.created) + 1
      rw [List.length_append, List.length_singleton]
      omega
    · rfl
    · rfl

end Return

/-- All that a step can do to the pool. -/
theorem step_cases {p' : ConnectionPool} {a : PoolAction} (h : p.step a = some p') :
    (∃ t old, p.threads[t]? = some old ∧ old ≠ .connecting ∧ p' = p.enter t) ∨
    (∃ t, p.threads[t]? = some .connecting ∧ p' = p.connect t) ∨
    (∃ t woken, p.threads[t]? = some .connecting ∧
      (p.setThread t .outside).giveUpPlace.notifyOne woken = some p') ∨
    (∃ k l woken, p.leases[k]? = some l ∧ p.threads[l.thread]? = some .outside ∧
      (p.giveBack k l).notifyOne woken = some p') ∨
    ∃ c, p' = { p with broken := c :: p.broken } := by
  cases a with
  | acquire t =>
    rw [step] at h
    split at h
    next ht => exact .inl ⟨t, .outside, ht, by decide, (Option.some.inj h).symm⟩
    next => exact absurd h (by simp)
  | wake t =>
    rw [step] at h
    split at h
    next ht =>
      rcases ht with ht | ht
      · exact .inl ⟨t, .waiting, ht, by decide, (Option.some.inj h).symm⟩
      · exact .inl ⟨t, .notified, ht, by decide, (Option.some.inj h).symm⟩
    next => exact absurd h (by simp)
  | connected t =>
    rw [step] at h
    split at h
    next ht => exact .inr (.inl ⟨t, ht, (Option.some.inj h).symm⟩)
    next => exact absurd h (by simp)
  | failed t woken =>
    rw [step] at h
    split at h
    next ht => exact .inr (.inr (.inl ⟨t, woken, ht, h⟩))
    next => exact absurd h (by simp)
  | release k woken =>
    rw [step] at h
    split at h
    next l hl =>
      split at h
      next ht => exact .inr (.inr (.inr (.inl ⟨k, l, woken, hl, ht, h⟩)))
      next => exact absurd h (by simp)
    next => exact absurd h (by simp)
  | breaks c => exact .inr (.inr (.inr (.inr ⟨c, (Option.some.inj h).symm⟩)))

/-- A step keeps the counts and is a move of the monitor. -/
theorem step_kept {p' : ConnectionPool} {a : PoolAction} (hs : p.Sound) (h : p.step a = some p') :
    p'.Sound ∧ Monitor.Move p.monitor p'.monitor := by
  obtain ⟨t, old, ht, hold, rfl⟩ | ⟨t, ht, rfl⟩ | ⟨t, woken, ht, hn⟩ | ⟨k, l, woken, hl, -, hn⟩ |
    ⟨c, rfl⟩ := step_cases h
  · exact ⟨hs.enter ht hold, enter_move ht hold⟩
  · exact ⟨connect_sound hs ht, connect_move ht⟩
  · exact ⟨(failed_sound hs ht).notifyOne hn, failed_move hs ht hn⟩
  · exact ⟨(giveBack_sound hs hl).notifyOne hn, release_move hs hl hn⟩
  · exact ⟨⟨hs.accounted, hs.bounded, hs.distinct, hs.numbered⟩, .stay rfl rfl rfl⟩

theorem enter_size (p : ConnectionPool) (t : Nat) : (p.enter t).size = p.size := by
  rcases enter_cases p t with ⟨front, c, -, heq⟩ | ⟨-, -, heq⟩ | ⟨-, -, heq⟩
  · rw [heq]
    rfl
  · rw [heq]
    rfl
  · rw [heq]
    rfl

theorem notifyOne_size {p' : ConnectionPool} {woken : Option Nat}
    (h : p.notifyOne woken = some p') : p'.size = p.size := by
  rcases notifyOne_cases h with ⟨w, -, rfl⟩ | ⟨-, rfl⟩
  · rfl
  · rfl

theorem giveBack_size (p : ConnectionPool) (k : Nat) (l : PoolLease) :
    (p.giveBack k l).size = p.size := by
  unfold giveBack
  split
  · rfl
  · rfl

theorem step_size {p' : ConnectionPool} {a : PoolAction} (h : p.step a = some p') :
    p'.size = p.size := by
  obtain ⟨t, -, -, -, rfl⟩ | ⟨t, -, rfl⟩ | ⟨t, woken, -, hn⟩ | ⟨k, l, woken, -, -, hn⟩ |
    ⟨c, rfl⟩ := step_cases h
  · exact enter_size p t
  · rfl
  · have hsize := notifyOne_size hn
    exact hsize
  · exact (notifyOne_size hn).trans (giveBack_size p k l)
  · rfl

theorem run_kept {p' : ConnectionPool} {actions : List PoolAction} (hs : p.Sound)
    (ha : Monitor.Awake p.monitor) (h : p.run actions = some p') :
    p'.Sound ∧ Monitor.Awake p'.monitor ∧ p'.size = p.size := by
  induction actions generalizing p with
  | nil =>
    obtain rfl := Option.some.inj h
    exact ⟨hs, ha, rfl⟩
  | cons a rest ih =>
    rw [run] at h
    split at h
    next q hq =>
      obtain ⟨hsound, hmove⟩ := step_kept hs hq
      obtain ⟨hsound', hawake', hsize⟩ := ih hsound (hmove.awake ha) h
      exact ⟨hsound', hawake', hsize.trans (step_size hq)⟩
    next => exact absurd h (by simp)

end Operations

/-- A thread waits for what is there, and nobody is about to tell it. -/
def LostWakeUp (p : ConnectionPool) : Prop :=
  .waiting ∈ p.threads ∧ (p.idle ≠ [] ∨ p.created < p.size) ∧ .notified ∉ p.threads

theorem not_lost {p : ConnectionPool} (h : Monitor.Awake p.monitor) : ¬p.LostWakeUp := by
  intro ⟨hwaiting, hfree, hnotified⟩
  have hpos : 0 < p.monitor.free := by
    show 0 < p.idle.length + (p.size - p.created)
    rcases hfree with hidle | hroom
    · have hlength := List.length_pos_iff.mpr hidle
      omega
    · omega
  exact hnotified (List.count_pos_iff.mp (h.notified_pos (List.count_pos_iff.mpr hwaiting) hpos))

/-- In every run, of any number of threads: each place is an idle connection, one that is leased or
an attempt to make one, and they do not exceed the size; no two leases hold one connection; and no
wake-up is lost. -/
theorem pool_exact {size threads : Nat} {actions : List PoolAction} {p : ConnectionPool}
    (h : (new size threads).run actions = some p) :
    p.created = p.idle.length + p.leases.length + p.threads.count .connecting ∧
    p.created ≤ size ∧ p.held.Nodup ∧ ¬p.LostWakeUp := by
  have hawake : Monitor.Awake (new size threads).monitor := by
    left
    show (List.replicate threads PoolThread.outside).count .waiting = 0
    rw [List.count_replicate]
    rfl
  obtain ⟨hsound, hawake', hsize⟩ := run_kept (new_sound size threads) hawake h
  have hbounded := hsound.bounded
  rw [hsize] at hbounded
  exact ⟨hsound.accounted, hbounded, (List.nodup_append.mp hsound.distinct).2.1, not_lost hawake'⟩

/-- One place and two threads. The attempt of the first fails and notifies the second; the first
is faster on its next try, and the second waits until the connection comes back. -/
theorem pool_exact_contended : ∃ p, (new 1 2).run [.acquire 0, .acquire 1, .failed 0 (some 1),
      .acquire 0, .wake 1, .connected 0, .release 0 (some 1), .wake 1] = some p ∧
    p.created = p.idle.length + p.leases.length + p.threads.count .connecting ∧ p.created ≤ 1 ∧
    p.held.Nodup ∧ ¬p.LostWakeUp := by
  refine ⟨_, rfl, ?_⟩
  exact @pool_exact 1 2 [.acquire 0, .acquire 1, .failed 0 (some 1), .acquire 0, .wake 1,
    .connected 0, .release 0 (some 1), .wake 1] _ rfl

end ConnectionPool

end CapiNet
