namespace Monitor

/-- A lock with a condition variable, around units of some resource. -/
structure State where
  /-- Units nobody has taken. -/
  free : Nat
  /-- Threads that are blocked and have not been notified. -/
  waiting : Nat
  /-- Threads that have been notified and are still to run. -/
  notified : Nat

/-- What a critical section does to the counts. -/
inductive Move (s s' : State) : Prop
  | stay (hfree : s'.free = s.free) (hwaiting : s'.waiting = s.waiting)
      (hnotified : s'.notified = s.notified)
  | take (hfree : s'.free + 1 = s.free) (hwaiting : s'.waiting = s.waiting)
      (hnotified : s'.notified = s.notified)
  | block (hfree : s.free = 0) (hfree' : s'.free = 0) (hwaiting : s'.waiting = s.waiting + 1)
      (hnotified : s'.notified = s.notified)
  | resume (hfree : s'.free + 1 = s.free) (hwaiting : s'.waiting = s.waiting)
      (hnotified : s'.notified + 1 = s.notified)
  /-- A newcomer was faster. -/
  | blockAgain (hfree : s.free = 0) (hfree' : s'.free = 0)
      (hwaiting : s'.waiting = s.waiting + 1) (hnotified : s'.notified + 1 = s.notified)
  /-- A waiting thread wakes up without having been notified. -/
  | spurious (hfree : s'.free + 1 = s.free) (hwaiting : s'.waiting + 1 = s.waiting)
      (hnotified : s'.notified = s.notified)
  | give (hnone : s.waiting = 0) (hfree : s'.free = s.free + 1) (hwaiting : s'.waiting = 0)
      (hnotified : s'.notified = s.notified)
  | giveNotify (hfree : s'.free = s.free + 1) (hwaiting : s'.waiting + 1 = s.waiting)
      (hnotified : s'.notified = s.notified + 1)

/-- Every free unit some thread waits for has a notified thread to take it. -/
def Awake (s : State) : Prop := s.waiting = 0 ∨ s.free ≤ s.notified

theorem Move.awake {s s' : State} (h : Move s s') (hs : Awake s) : Awake s' := by
  unfold Awake at hs ⊢
  cases h with
  | stay hfree hwaiting hnotified => omega
  | take hfree hwaiting hnotified => omega
  | block hfree hfree' hwaiting hnotified => omega
  | resume hfree hwaiting hnotified => omega
  | blockAgain hfree hfree' hwaiting hnotified => omega
  | spurious hfree hwaiting hnotified => omega
  | give hnone hfree hwaiting hnotified => omega
  | giveNotify hfree hwaiting hnotified => omega

theorem Awake.notified_pos {s : State} (h : Awake s) (hwaiting : 0 < s.waiting)
    (hfree : 0 < s.free) : 0 < s.notified := by
  unfold Awake at h
  omega

end Monitor
