import CapiNet.NetworkStep

namespace CapiNet

variable {F : Type} [LinearOrder F] {G : Surroundings F}

/-- The steps the polling thread has left when the client stops. -/
def Poller.left : Poller → Nat
  | .exited => 0
  | .head => 1
  | .build _ true => 2
  | .build _ false => 3
  | .activeTest => 4
  | .heartbeat => 5

/-- The steps the thread of a slot has left when the client stops. A result is sent four times at
most. -/
def Slot.left : Slot → Nat
  | .exited => 0
  | .head => 1
  | .giveBack _ => 1
  | .giveBackStale _ => 2
  | .submit _ _ _ _ attempts => 2 + (3 - attempts)
  | .play _ _ => 6
  | .claim _ => 7

theorem Poller.left_le (p : Poller) : p.left ≤ 7 := by
  cases p with
  | build _ b => cases b <;> simp [Poller.left]
  | _ => simp [Poller.left]

theorem Slot.left_le (at_ : Slot) : at_.left ≤ 7 := by
  cases at_ with
  | submit _ _ _ _ attempts =>
    simp only [Slot.left]
    omega
  | _ => simp [Slot.left]

@[simp] theorem Poller.left_eq_zero {p : Poller} : p.left = 0 ↔ p = .exited := by
  cases p with
  | build _ b => cases b <;> simp [Poller.left]
  | _ => simp [Poller.left]

@[simp] theorem Slot.left_eq_zero {at_ : Slot} : at_.left = 0 ↔ at_ = .exited := by
  cases at_ <;> simp [Slot.left]

/-- A thread of a client: the polling one, or that of a slot. -/
def Client.left (c : Client) : Option Nat → Nat
  | none => c.poller.left
  | some k => (c.slots[k]?).elim 0 (·.2.left)

def Client.exited (c : Client) : Option Nat → Prop
  | none => c.poller = .exited
  | some k => ∀ s, c.slots[k]? = some s → s.2 = .exited

theorem Client.exited_iff {c : Client} {thread : Option Nat} : c.exited thread ↔ c.left thread = 0 := by
  cases thread with
  | none => exact Poller.left_eq_zero.symm
  | some k =>
    simp only [Client.exited, Client.left]
    cases c.slots[k]? <;> simp

theorem Client.left_le (c : Client) (thread : Option Nat) : c.left thread ≤ 7 := by
  cases thread with
  | none => exact c.poller.left_le
  | some k =>
    simp only [Client.left]
    cases c.slots[k]? with
    | none => simp
    | some s => exact s.2.left_le

@[simp] theorem ClientState.ban_stop (sh : ClientState) : sh.ban.stop = true := rfl

theorem ClientState.done_stop {sh : ClientState} (h : Host) (hstop : sh.stop = true) :
    (sh.done h).stop = true := by
  unfold ClientState.done
  dsimp only
  split
  · rfl
  · exact hstop

theorem PollMove.left {w w' : Wire F} {c c' : Client} {inp : Input} (h : PollMove G w c inp w' c')
    (hstop : c.shared.stop = true) :
    c'.shared.stop = true ∧ c'.poller.left ≤ c.poller.left - 1 ∧ c'.slots = c.slots := by
  cases h with
  | exits hat => simp [hat, hstop, Poller.left]
  | starts _ hgo => exact absurd (hgo.symm.trans hstop) Bool.false_ne_true
  | unheard _ hat => simp [hat, hstop, Poller.left]
  | barred _ hat => simp [hat, Poller.left]
  | beaten _ hat => simp [hat, hstop, Poller.left]
  | nothingNew hat => simp [hat, hstop, Poller.left]
  | noTest hat => simp [hat, hstop, Poller.left]
  | newTest t hat => simp [hat, hstop, Poller.left]
  | unbuilt t b hat => cases b <;> simp [hat, hstop, Poller.left]
  | candidate t hat => simp [hat, hstop, Poller.left]
  | ready t hat => simp [hat, hstop, Poller.left]
  | gone hat => simp [hat, hstop, Poller.left]

theorem SlotMove.left {w w' : Wire F} {h : Host} {sh sh' : ClientState} {slot : SlotInfo} {inp : Input}
    {at_ next : Slot} (hm : SlotMove G w h sh slot inp at_ (w', sh', some next))
    (hstop : sh.stop = true) : sh'.stop = true ∧ next.left ≤ at_.left - 1 := by
  cases hm with
  | waits hgo => exact absurd (hgo.symm.trans hstop) Bool.false_ne_true
  | asks e hgo => exact absurd (hgo.symm.trans hstop) Bool.false_ne_true
  | again e pair body deadline attempts _ hgo =>
    exact absurd (hgo.symm.trans hstop) Bool.false_ne_true
  | barred => simp [Slot.left]
  | told e pair body deadline attempts _ hsh =>
    refine ⟨?_, by simp only [Slot.left]; omega⟩
    rcases hsh with rfl | rfl
    · exact sh.done_stop h hstop
    · exact sh.ban.done_stop h rfl
  | insists e pair body deadline attempts _ _ hmore =>
    refine ⟨hstop, ?_⟩
    simp only [Slot.left]
    omega
  | _ => exact ⟨hstop, by simp [Slot.left]⟩

theorem Client.die_left (c : Client) (thread : Option Nat) : c.die.left thread = 0 := by
  rw [← Client.exited_iff]
  cases thread with
  | none => rfl
  | some k =>
    intro s hs
    obtain ⟨x, -, rfl⟩ := List.mem_map.mp (List.mem_of_getElem? hs)
    rfl

theorem ClientMove.left {w w' : Wire F} {c c' : Client} {k : Nat} {inp : Input}
    (h : ClientMove G w c k inp w' c') (hstop : c.shared.stop = true) :
    c'.shared.stop = true ∧ c'.left (some k) ≤ c.left (some k) - 1 ∧
      ∀ thread, c'.left thread ≤ c.left thread := by
  cases h with
  | nobody hk => exact ⟨hstop, by simp [Client.left, hk], fun _ => le_refl _⟩
  | went slot at_ next _ sh hk hm =>
    obtain ⟨hstop', hless⟩ := hm.left hstop
    obtain ⟨hlt, hget⟩ := List.getElem?_eq_some_iff.mp hk
    refine ⟨hstop', by simpa [Client.left, hget, hlt] using hless, fun thread => ?_⟩
    cases thread with
    | none => exact le_refl _
    | some j =>
      by_cases hj : k = j
      · subst hj
        have hle : next.left ≤ at_.left := by omega
        simpa [Client.left, hget, hlt] using hle
      · simp [Client.left, List.getElem?_set_ne hj]
  | died slot at_ _ sh hk hm =>
    refine ⟨?_, by rw [Client.die_left]; omega, fun thread => by rw [Client.die_left]; omega⟩
    cases hm
    exact hstop

/-- The thread whose step an event is. -/
def NetworkEvent.thread : NetworkEvent → Option (Nat × Option Nat)
  | .poll i _ => some (i, none)
  | .slot i k _ => some (i, some k)
  | _ => none

/-- A run from anywhere. -/
def Network.runFrom (G : Surroundings F) (W : Network F) (events : List NetworkEvent) : Network F :=
  events.foldl (Network.step G) W

@[simp] theorem Network.runFrom_cons (W : Network F) (e : NetworkEvent) (events : List NetworkEvent) :
    Network.runFrom G W (e :: events) = Network.runFrom G (W.step G e) events := rfl

omit [LinearOrder F] in
/-- The other clients are left alone. -/
theorem Network.setClient_ne {W : Network F} {i j : Nat} {c : Client} {moved : Wire F × Client}
    (hij : j ≠ i) (hc : W.clients[i]? = some c) : (W.setClient j moved).clients[i]? = some c := by
  change (W.clients.set j moved.2)[i]? = some c
  rw [List.getElem?_set_ne hij]
  exact hc

omit [LinearOrder F] in
theorem Network.setClient_eq {W : Network F} {i : Nat} {c : Client} {moved : Wire F × Client}
    (hc : W.clients[i]? = some c) : (W.setClient i moved).clients[i]? = some moved.2 := by
  obtain ⟨hlt, -⟩ := List.getElem?_eq_some_iff.mp hc
  exact List.getElem?_set_self hlt

/-- What an event does to client `i`. -/
inductive OwnStep (G : Surroundings F) (w : Wire F) (i : Nat) (c : Client) :
    NetworkEvent → Client → Prop
  | other (e : NetworkEvent) (he : ∀ thread, e.thread ≠ some (i, thread)) : OwnStep G w i c e c
  | polled (inp : Input) (w' : Wire F) (c' : Client) (h : PollMove G w c inp w' c') :
      OwnStep G w i c (.poll i inp) c'
  | moved (k : Nat) (inp : Input) (w' : Wire F) (c' : Client) (h : ClientMove G w c k inp w' c') :
      OwnStep G w i c (.slot i k inp) c'
  | signalled : OwnStep G w i c (.signal i) { c with shared := c.shared.requestStop }
  | killed : OwnStep G w i c (.kill i) c.die

theorem Network.step_own {W : Network F} {i : Nat} {c : Client} (hc : W.clients[i]? = some c)
    (e : NetworkEvent) :
    ∃ c', (W.step G e).clients[i]? = some c' ∧ OwnStep G W.wire i c e c' := by
  cases e with
  | server op =>
    refine ⟨c, ?_, .other _ (by simp [NetworkEvent.thread])⟩
    dsimp only [Network.step]
    split <;> exact hc
  | late n inp =>
    refine ⟨c, ?_, .other _ (by simp [NetworkEvent.thread])⟩
    dsimp only [Network.step]
    split <;> exact hc
  | join inp reg h slots =>
    refine ⟨c, ?_, .other _ (by simp [NetworkEvent.thread])⟩
    dsimp only [Network.step]
    split
    next =>
      obtain ⟨hlt, -⟩ := List.getElem?_eq_some_iff.mp hc
      exact (List.getElem?_append_left hlt).trans hc
    next => exact hc
  | poll j inp =>
    by_cases hj : j = i
    · subst hj
      refine ⟨_, ?_, .polled inp _ _ (c.poll_move G W.wire inp)⟩
      simp only [Network.step, hc]
      exact Network.setClient_eq hc
    · refine ⟨c, ?_, .other _ (by simp [NetworkEvent.thread, hj])⟩
      dsimp only [Network.step]
      split
      next => exact Network.setClient_ne hj hc
      next => exact hc
  | slot j k inp =>
    by_cases hj : j = i
    · subst hj
      refine ⟨_, ?_, .moved k inp _ _ (c.slot_move G W.wire k inp)⟩
      simp only [Network.step, hc]
      exact Network.setClient_eq hc
    · refine ⟨c, ?_, .other _ (by simp [NetworkEvent.thread, hj])⟩
      dsimp only [Network.step]
      split
      next => exact Network.setClient_ne hj hc
      next => exact hc
  | signal j =>
    by_cases hj : j = i
    · subst hj
      refine ⟨_, ?_, .signalled⟩
      simp only [Network.step, hc]
      exact Network.setClient_eq hc
    · refine ⟨c, ?_, .other _ (by simp [NetworkEvent.thread])⟩
      dsimp only [Network.step]
      split
      next => exact Network.setClient_ne hj hc
      next => exact hc
  | kill j =>
    by_cases hj : j = i
    · subst hj
      refine ⟨_, ?_, .killed⟩
      simp only [Network.step, hc]
      exact Network.setClient_eq hc
    · refine ⟨c, ?_, .other _ (by simp [NetworkEvent.thread])⟩
      dsimp only [Network.step]
      split
      next => exact Network.setClient_ne hj hc
      next => exact hc

/-- A step of the network is one less for the thread whose step it is, once its client stops. -/
theorem OwnStep.left {w : Wire F} {i : Nat} {c c' : Client} {e : NetworkEvent}
    (h : OwnStep G w i c e c') (hstop : c.shared.stop = true) :
    c'.shared.stop = true ∧ (∀ thread, c'.left thread ≤ c.left thread) ∧
      ∀ thread, e.thread = some (i, thread) → c'.left thread ≤ c.left thread - 1 := by
  cases h with
  | other e he => exact ⟨hstop, fun _ => le_refl _, fun thread ht => absurd ht (he thread)⟩
  | polled inp w' c' h =>
    obtain ⟨hstop', hless, hslots⟩ := h.left hstop
    refine ⟨hstop', fun thread => ?_, fun thread ht => ?_⟩
    · cases thread with
      | none => exact le_trans hless (Nat.sub_le _ _)
      | some k => simp only [Client.left, hslots, le_refl]
    · cases ht
      exact hless
  | moved k inp w' c' h =>
    obtain ⟨hstop', hless, hall⟩ := h.left hstop
    refine ⟨hstop', hall, fun thread ht => ?_⟩
    cases ht
    exact hless
  | signalled =>
    refine ⟨rfl, fun thread => ?_, by simp [NetworkEvent.thread]⟩
    cases thread <;> exact le_refl _
  | killed =>
    refine ⟨hstop, fun thread => ?_, by simp [NetworkEvent.thread]⟩
    rw [Client.die_left]
    exact Nat.zero_le _

theorem Network.run_left {W : Network F} {i : Nat} {c : Client} (hc : W.clients[i]? = some c)
    (hstop : c.shared.stop = true) (events : List NetworkEvent) :
    ∃ c', (Network.runFrom G W events).clients[i]? = some c' ∧ c'.shared.stop = true ∧
      ∀ thread, c'.left thread ≤
        c.left thread - events.countP fun e => e.thread == some (i, thread) := by
  induction events generalizing W c with
  | nil => exact ⟨c, hc, hstop, fun _ => le_refl _⟩
  | cons e events ih =>
    obtain ⟨c₁, hc₁, hown⟩ := Network.step_own (G := G) hc e
    obtain ⟨hstop₁, hall, hone⟩ := hown.left hstop
    obtain ⟨c', hc', hstop', hrest⟩ := ih hc₁ hstop₁
    refine ⟨c', hc', hstop', fun thread => ?_⟩
    have hthread := hrest thread
    rw [List.countP_cons]
    by_cases he : e.thread = some (i, thread)
    · have := hone thread he
      simp only [he, beq_self_eq_true, if_true]
      omega
    · have := hall thread
      simp only [beq_eq_false_iff_ne.mpr he, Bool.false_eq_true, if_false]
      omega

/-- Where slot `k` of client `i` is. -/
def Network.slotAt (W : Network F) (i k : Nat) : Option Slot :=
  (W.clients[i]?.bind (·.slots[k]?)).map (·.2)

/-- How many steps of a kind slot `k` of client `i` takes in a run. -/
def Network.stepsOf (G : Surroundings F) (kind : Slot → Bool) (i k : Nat) :
    Network F → List NetworkEvent → Nat
  | _, [] => 0
  | W, e :: events =>
    (e.thread == some (i, some k) && (W.slotAt i k).any kind).toNat +
      stepsOf G kind i k (W.step G e) events

def Slot.claims : Slot → Bool
  | .claim _ => true
  | _ => false

def Slot.sends : Slot → Bool
  | .submit _ _ _ _ _ => true
  | _ => false

/-- The results a slot has left to send when the client stops. -/
def Slot.sendsLeft : Slot → Nat
  | .claim _ => 4
  | .play _ _ => 4
  | .submit _ _ _ _ attempts => 1 + (3 - attempts)
  | _ => 0

/-- Once the client stops, a slot takes no more steps of a kind than it has left. -/
structure Spends (G : Surroundings F) (kind : Slot → Bool) (left : Slot → Nat) : Prop where
  enough : ∀ at_, (kind at_).toNat ≤ left at_
  exited : left .exited = 0
  step : ∀ {w w' : Wire F} {h : Host} {sh sh' : ClientState} {slot : SlotInfo} {inp : Input}
    {at_ next : Slot}, SlotMove G w h sh slot inp at_ (w', sh', some next) → sh.stop = true →
    left next + (kind at_).toNat ≤ left at_

theorem claims_spends : Spends G Slot.claims fun at_ => at_.claims.toNat where
  enough _ := le_refl _
  exited := rfl
  step hm hstop := by
    cases hm with
    | asks e hgo => exact absurd (hgo.symm.trans hstop) Bool.false_ne_true
    | _ => simp [Slot.claims]

theorem sends_spends : Spends G Slot.sends Slot.sendsLeft where
  enough at_ := by
    cases at_ <;> simp [Slot.sends, Slot.sendsLeft]
  exited := rfl
  step hm hstop := by
    cases hm with
    | asks e hgo => exact absurd (hgo.symm.trans hstop) Bool.false_ne_true
    | again e pair body deadline attempts _ hgo =>
      exact absurd (hgo.symm.trans hstop) Bool.false_ne_true
    | insists e pair body deadline attempts _ _ hmore =>
      simp only [Slot.sends, Slot.sendsLeft, Bool.toNat_true]
      omega
    | _ => simp [Slot.sends, Slot.sendsLeft]

/-- What a slot has left; nothing if there is no such slot. -/
def Client.slotLeft (left : Slot → Nat) (c : Client) (k : Nat) : Nat :=
  (c.slots[k]?).elim 0 (left ·.2)

theorem Spends.die {kind : Slot → Bool} {left : Slot → Nat} (hs : Spends G kind left) (c : Client)
    (k : Nat) : c.die.slotLeft left k = 0 := by
  unfold Client.slotLeft Client.die
  dsimp only
  rw [List.getElem?_map]
  cases c.slots[k]? with
  | none => rfl
  | some s => exact hs.exited

theorem Spends.own {kind : Slot → Bool} {left : Slot → Nat} (hs : Spends G kind left)
    {W : Network F} {i : Nat} {c c' : Client} {e : NetworkEvent} (hc : W.clients[i]? = some c)
    (hstop : c.shared.stop = true) (h : OwnStep G W.wire i c e c') (k : Nat) :
    c'.slotLeft left k + (e.thread == some (i, some k) && (W.slotAt i k).any kind).toNat ≤
      c.slotLeft left k := by
  have hat : W.slotAt i k = (c.slots[k]?).map (·.2) := by
    simp [Network.slotAt, hc]
  cases h with
  | other e he => simp [he (some k)]
  | polled inp w' c' h =>
    obtain ⟨-, -, hslots⟩ := h.left hstop
    simp [Client.slotLeft, hslots, NetworkEvent.thread]
  | moved j inp w' c' h =>
    by_cases hj : j = k
    · subst hj
      rw [hat]
      cases h with
      | nobody hk => simp [Client.slotLeft, hk]
      | went slot at_ next _ sh hk hm =>
        obtain ⟨hlt, hget⟩ := List.getElem?_eq_some_iff.mp hk
        simpa [Client.slotLeft, NetworkEvent.thread, hget, hlt] using hs.step hm hstop
      | died slot at_ _ sh hk hm =>
        rw [hs.die]
        simpa [Client.slotLeft, NetworkEvent.thread, hk] using hs.enough at_
    · have hother : (NetworkEvent.slot i j inp).thread ≠ some (i, some k) := by
        simp [NetworkEvent.thread, hj]
      simp only [beq_eq_false_iff_ne.mpr hother, Bool.false_and, Bool.toNat_false, Nat.add_zero]
      cases h with
      | nobody => exact le_refl _
      | went slot at_ next _ sh hk hm => simp [Client.slotLeft, List.getElem?_set_ne hj]
      | died slot at_ _ sh hk hm =>
        rw [hs.die]
        exact Nat.zero_le _
  | signalled => simp [Client.slotLeft, NetworkEvent.thread]
  | killed =>
    rw [hs.die]
    simp [NetworkEvent.thread]

theorem Spends.run {kind : Slot → Bool} {left : Slot → Nat} (hs : Spends G kind left)
    {W : Network F} {i : Nat} {c : Client} (hc : W.clients[i]? = some c)
    (hstop : c.shared.stop = true) (events : List NetworkEvent) (k : Nat) :
    Network.stepsOf G kind i k W events ≤ c.slotLeft left k := by
  induction events generalizing W c with
  | nil => exact Nat.zero_le _
  | cons e events ih =>
    obtain ⟨c', hc', hown⟩ := Network.step_own (G := G) hc e
    have hrest := ih hc' (hown.left hstop).1
    have hfirst := hs.own hc hstop hown k
    simp only [Network.stepsOf]
    omega

/-- Once a client is told to stop, none of its threads takes more than seven further steps before it
comes to its end, whatever else happens; a slot claims at most once more and sends a result at most
four times. -/
theorem stop_ends_threads (W : Network F) {i : Nat} {c : Client} (hc : W.clients[i]? = some c)
    (hstop : c.shared.stop = true) (events : List NetworkEvent) :
    (∃ c', (Network.runFrom G W events).clients[i]? = some c' ∧ c'.shared.stop = true ∧
      ∀ thread, 7 ≤ (events.countP fun e => e.thread == some (i, thread)) → c'.exited thread) ∧
      ∀ k, Network.stepsOf G Slot.claims i k W events ≤ 1 ∧
        Network.stepsOf G Slot.sends i k W events ≤ 4 := by
  constructor
  · obtain ⟨c', hc', hstop', hleft⟩ := Network.run_left (G := G) hc hstop events
    refine ⟨c', hc', hstop', fun thread hcount => Client.exited_iff.mpr ?_⟩
    have := hleft thread
    have := c.left_le thread
    omega
  · intro k
    have hclaims := claims_spends.run (G := G) hc hstop events k
    have hsends := sends_spends.run (G := G) hc hstop events k
    unfold Client.slotLeft at hclaims hsends
    cases hk : c.slots[k]? with
    | none =>
      simp only [hk, Option.elim_none] at hclaims hsends
      omega
    | some s =>
      simp only [hk, Option.elim_some] at hclaims hsends
      have hone := s.2.claims.toNat_le
      have hfour : s.2.sendsLeft ≤ 4 := by
        cases s.2 <;> simp only [Slot.sendsLeft] <;> omega
      omega

/-- A client that is told to stop while it plays. -/
theorem stop_ends_threads_playing :
    ∃ c, (Network.runFrom quietSurroundings
        (Network.run quietSurroundings (firstPair.take 12 ++ [.signal 0]))
        (List.replicate 7 (.poll 0 { now := 2 }) ++
          List.replicate 7 (.slot 0 0 { now := 2, interrupted := true }))).clients[0]? = some c ∧
      c.exited none ∧ c.exited (some 0) ∧
      Network.stepsOf quietSurroundings Slot.sends 0 0
        (Network.run quietSurroundings (firstPair.take 12 ++ [.signal 0]))
        (List.replicate 7 (.poll 0 { now := 2 }) ++
          List.replicate 7 (.slot 0 0 { now := 2, interrupted := true })) ≤ 4 := by
  have hany : ((Network.run quietSurroundings (firstPair.take 12 ++ [.signal 0])).clients[0]?).any
      (·.shared.stop) = true := by decide +kernel
  obtain ⟨c, hc, hstop⟩ := (Option.any_eq_true _ _).mp hany
  obtain ⟨⟨c', hc', -, hexited⟩, hspent⟩ := stop_ends_threads (G := quietSurroundings) _ hc hstop
    (List.replicate 7 (.poll 0 { now := 2 }) ++
      List.replicate 7 (.slot 0 0 { now := 2, interrupted := true }))
  exact ⟨c', hc', hexited none (by decide), hexited (some 0) (by decide), (hspent 0).2⟩

/-- A slot on its way from a claim to the end of its pair. -/
def Slot.busy : Slot → Bool
  | .claim _ => true
  | .play _ _ => true
  | .submit _ _ _ _ _ => true
  | _ => false

def Client.busy (c : Client) : Nat := c.slots.countP (·.2.busy)

/-- A client that is to stop after some pairs goes on only below their number, and what its slots
are busy with is all that it may add. -/
structure Client.Counted (c : Client) : Prop where
  running : c.shared.stop = false → c.shared.pairsDone < c.host.maxPairs
  stopping : c.shared.pairsDone + c.busy + 1 ≤ c.host.maxPairs + c.slots.length

/-- While the client runs, any slot may be busy. -/
theorem Client.Counted.of_running {c : Client} (h : c.shared.pairsDone < c.host.maxPairs) :
    c.Counted := by
  have hle : c.busy ≤ c.slots.length := List.countP_le_length
  exact ⟨fun _ => h, by omega⟩

theorem Client.Counted.die {c : Client} (h : c.Counted) : c.die.Counted := by
  refine ⟨h.running, ?_⟩
  have hidle : c.die.busy = 0 := by
    simp [Client.busy, Client.die, List.countP_map, Function.comp_def, Slot.busy]
  have hlen : c.die.slots.length = c.slots.length := List.length_map _
  have hshared : c.die.shared = c.shared := rfl
  have hhost : c.die.host = c.host := rfl
  have := h.stopping
  rw [hidle, hlen, hshared, hhost]
  omega

theorem SlotMove.counted {w w' : Wire F} {h : Host} {sh sh' : ClientState} {slot : SlotInfo}
    {inp : Input} {at_ next : Slot} (hm : SlotMove G w h sh slot inp at_ (w', sh', some next)) :
    sh' = sh ∧ (sh.stop = true → next.busy = true → at_.busy = true) ∨
      sh' = sh.ban ∧ next.busy = false ∨
      at_.busy = true ∧ next.busy = false ∧ (sh' = sh.done h ∨ sh' = sh.ban.done h) := by
  cases hm with
  | asks e hgo => exact .inl ⟨rfl, fun hstop => absurd (hgo.symm.trans hstop) Bool.false_ne_true⟩
  | barred => exact .inr (.inl ⟨rfl, rfl⟩)
  | told e pair body deadline attempts _ hsh => exact .inr (.inr ⟨rfl, rfl, hsh⟩)
  | _ => exact .inl ⟨rfl, fun _ hb => by first | exact hb | rfl⟩

theorem ClientState.done_cases (sh : ClientState) {h : Host} (hpos : 0 < h.maxPairs) :
    (sh.done h).pairsDone = sh.pairsDone + 1 ∧
      ((sh.done h).stop = false → sh.pairsDone + 1 < h.maxPairs) := by
  unfold ClientState.done
  dsimp only
  split
  next => exact ⟨rfl, fun hgo => Bool.noConfusion hgo⟩
  next hless => exact ⟨rfl, fun _ => by omega⟩

/-- The slots of a client after one of them has moved. -/
theorem Client.busy_set {c : Client} {k : Nat} {slot : SlotInfo} {at_ : Slot}
    (hk : c.slots[k]? = some (slot, at_)) (next : Slot) :
    (c.slots.set k (slot, next)).countP (·.2.busy) + at_.busy.toNat = c.busy + next.busy.toNat := by
  obtain ⟨hlt, hget⟩ := List.getElem?_eq_some_iff.mp hk
  have hin : at_.busy = true → 0 < c.busy := fun hb =>
    List.countP_pos_iff.mpr ⟨_, List.mem_of_getElem? hk, hb⟩
  have hnext : (if next.busy then 1 else 0) = next.busy.toNat := by cases next.busy <;> rfl
  rw [List.countP_set hlt, hget, hnext]
  unfold Client.busy at hin ⊢
  cases hb : at_.busy with
  | false => simp
  | true =>
    have := hin hb
    simp only [if_true, Bool.toNat_true]
    omega

theorem ClientMove.counted {w w' : Wire F} {c c' : Client} {k : Nat} {inp : Input}
    (h : ClientMove G w c k inp w' c') (hpos : 0 < c.host.maxPairs) (hc : c.Counted) :
    c'.Counted := by
  cases h with
  | nobody => exact hc
  | went slot at_ next _ sh hk hm =>
    have hbusy := Client.busy_set hk next
    have hlen : (c.slots.set k (slot, next)).length = c.slots.length := List.length_set
    rcases hm.counted with ⟨rfl, hkept⟩ | ⟨rfl, hidle⟩ | ⟨hwas, hidle, hdone⟩
    · cases hgo : c.shared.stop with
      | false => exact .of_running (hc.running hgo)
      | true =>
        refine ⟨fun hgo' => absurd (hgo'.symm.trans hgo) Bool.false_ne_true, ?_⟩
        have hle : (c.slots.set k (slot, next)).countP (·.2.busy) ≤ c.busy := by
          cases hn : next.busy with
          | false => simp only [hn, Bool.toNat_false] at hbusy; omega
          | true => simp only [hn, hkept hgo hn] at hbusy; omega
        change c.shared.pairsDone + (c.slots.set k (slot, next)).countP (·.2.busy) + 1 ≤
          c.host.maxPairs + (c.slots.set k (slot, next)).length
        have := hc.stopping
        omega
    · refine ⟨fun hgo => Bool.noConfusion hgo, ?_⟩
      change c.shared.pairsDone + (c.slots.set k (slot, next)).countP (·.2.busy) + 1 ≤
        c.host.maxPairs + (c.slots.set k (slot, next)).length
      simp only [hidle, Bool.toNat_false] at hbusy
      have := hc.stopping
      omega
    · have hpairs : sh.pairsDone = c.shared.pairsDone + 1 ∧
          (sh.stop = false → c.shared.pairsDone + 1 < c.host.maxPairs) := by
        rcases hdone with rfl | rfl
        · exact c.shared.done_cases hpos
        · exact c.shared.ban.done_cases hpos
      refine ⟨fun hgo => hpairs.1 ▸ hpairs.2 hgo, ?_⟩
      change sh.pairsDone + (c.slots.set k (slot, next)).countP (·.2.busy) + 1 ≤
        c.host.maxPairs + (c.slots.set k (slot, next)).length
      simp only [hwas, hidle, Bool.toNat_true, Bool.toNat_false] at hbusy
      have := hc.stopping
      omega
  | died slot at_ _ sh hk hm =>
    have hsh : sh = c.shared := by
      cases hm
      rfl
    subst hsh
    exact hc.die

theorem PollMove.counted {w w' : Wire F} {c c' : Client} {inp : Input} (h : PollMove G w c inp w' c')
    (hc : c.Counted) : c'.Counted := by
  cases h with
  | barred => exact ⟨fun hgo => Bool.noConfusion hgo, hc.stopping⟩
  | _ => exact ⟨hc.running, hc.stopping⟩

theorem Client.start_counted {h : Host} (hpos : 0 < h.maxPairs) (slots : List SlotInfo) :
    (Client.start h slots).Counted := .of_running hpos

/-- A client that is to stop after some pairs ends no more of them than that and one less than it
has slots. -/
theorem pairs_within_limit (G : Surroundings F) (events : List NetworkEvent) :
    ∀ c ∈ (Network.run G events).clients, 0 < c.host.maxPairs →
      c.shared.pairsDone < c.host.maxPairs + c.slots.length := by
  have hrun : ∀ c ∈ (Network.run G events).clients, 0 < c.host.maxPairs → c.Counted := by
    refine Network.run_induction (I := fun W => ∀ c ∈ W.clients, 0 < c.host.maxPairs → c.Counted)
      (fun c hc => absurd hc List.not_mem_nil) (fun W W' hW hm => ?_) events
    have hset : ∀ (i : Nat) (c c' : Client) (w' : Wire F), W.clients[i]? = some c →
        c'.host = c.host → (0 < c.host.maxPairs → c.Counted → c'.Counted) →
        ∀ x ∈ (W.setClient i (w', c')).clients, 0 < x.host.maxPairs → x.Counted := by
      intro i c c' w' hi hhost hc' x hx hpos
      rcases List.mem_or_eq_of_mem_set hx with hx | rfl
      · exact hW x hx hpos
      · rw [hhost] at hpos
        exact hc' hpos (hW c (List.mem_of_getElem? hi) hpos)
    cases hm with
    | joined w' answer id h slots =>
      intro c hc hpos
      rcases List.mem_append.mp hc with hc | hc
      · exact hW c hc hpos
      · obtain rfl := List.mem_singleton.mp hc
        exact Client.start_counted hpos slots
    | polled i c c' inp w' hi hm =>
      exact hset i c c' w' hi (by cases hm <;> rfl) fun _ hc => hm.counted hc
    | slot i k c c' inp w' hi hm =>
      exact hset i c c' w' hi (by cases hm <;> rfl) fun hpos hc => hm.counted hpos hc
    | signalled i c hi =>
      exact hset i c _ _ hi rfl fun _ hc => ⟨fun hgo => Bool.noConfusion hgo, hc.stopping⟩
    | killed i c hi => exact hset i c _ _ hi rfl fun _ hc => hc.die
    | _ => exact hW
  intro c hc hpos
  have := (hrun c hc hpos).stopping
  omega

theorem pairs_within_limit_one :
    ∃ c ∈ (Network.run quietSurroundings firstPair).clients,
      c.shared.pairsDone = 1 ∧ c.shared.pairsDone < c.host.maxPairs + c.slots.length := by
  obtain ⟨c, hc, hdone, hpos⟩ : ∃ c ∈ (Network.run quietSurroundings firstPair).clients,
      c.shared.pairsDone = 1 ∧ 0 < c.host.maxPairs := by decide +kernel
  exact ⟨c, hc, hdone, pairs_within_limit quietSurroundings firstPair c hc hpos⟩

end CapiNet
