import CapiNet.ClientLoop
import CapiNet.FrozenRows
import CapiNet.TestRows

namespace CapiNet

open Txn

variable {F : Type} [LinearOrder F] {G : Surroundings F}

/-- The step of the server a call is when it arrives. -/
def Input.op (inp : Input) (c : Call) : Op := { now := inp.now, act := .call c, skip := inp.skip }

/-- A call is on its way, or has arrived. -/
def Wire.Sent (G : Surroundings F) (w : Wire F) (c : Call) (w' : Wire F) : Prop :=
  w' = { w with inFlight := w.inFlight ++ [c] } ∨
    ∃ inp : Input, w' = { w with server := w.server.step G.env (inp.op c) }

theorem exchange_sent (G : Surroundings F) (w : Wire F) (inp : Input) (call : Except String Call) :
    (exchange G w inp call).1 = w ∨ ∃ c, call = .ok c ∧ w.Sent G c (exchange G w inp call).1 := by
  unfold exchange
  split
  next => exact .inl rfl
  next c _ => exact .inr ⟨c, rfl, .inl rfl⟩
  next => exact .inl rfl
  next c _ => exact .inr ⟨c, rfl, .inr ⟨inp, rfl⟩⟩

/-- What a client gets to see of an exchange. -/
inductive Heard (G : Surroundings F) (w : Wire F) (inp : Input) (call : Except String Call) :
    Wire F → Option Response → Prop
  | nothing (w' : Wire F) : Heard G w inp call w' none
  | refused (what : String) : call = .error what →
      Heard G w inp call w (some (Routes.sendError 400 "bad_request" what))
  | failed (w' : Wire F) : Heard G w inp call w' (some (Routes.sendError 500 "internal_error" ""))
  | answered (c : Call) (r : Reply) : call = .ok c →
      w.server.reply G.env (inp.op c) = some (.ok r) →
      Heard G w inp call { w with server := w.server.step G.env (inp.op c) }
        (some (respond G.routes r))

theorem exchange_heard (G : Surroundings F) (w : Wire F) (inp : Input) (call : Except String Call) :
    Heard G w inp call (exchange G w inp call).1 (exchange G w inp call).2 := by
  unfold exchange
  split
  next => exact .nothing w
  next => exact .nothing _
  next what _ => exact .refused what rfl
  next c _ =>
    dsimp only
    split
    next r hr => exact .answered c r rfl hr
    next => exact .failed _

namespace Routes

theorem heartbeatCall_ok {clientId : Int} {body : Json} {c : Call}
    (h : heartbeatCall clientId body = .ok c) : ∃ f, c = .heartbeat clientId f := by
  obtain ⟨j, -, h⟩ := bind_eq_ok.mp h
  obtain ⟨f, -, h⟩ := bind_eq_ok.mp h
  split at h
  next => cases h
  next =>
    cases h
    exact ⟨f, rfl⟩

theorem claimCall_ok {body : Json} {c : Call} (h : claimCall body = .ok c) :
    ∃ clientId slotsFree, c = .claim clientId slotsFree := by
  obtain ⟨j, -, h⟩ := bind_eq_ok.mp h
  obtain ⟨clientId, -, h⟩ := bind_eq_ok.mp h
  obtain ⟨slotsFree, -, h⟩ := bind_eq_ok.mp h
  cases h
  exact ⟨clientId, slotsFree, rfl⟩

theorem abandonCall_ok {pairId : Int} {body : Json} {c : Call} (h : abandonCall pairId body = .ok c) :
    ∃ clientId, c = .abandon pairId clientId := by
  obtain ⟨j, -, h⟩ := bind_eq_ok.mp h
  obtain ⟨clientId, -, h⟩ := bind_eq_ok.mp h
  cases h
  exact ⟨clientId, rfl⟩

theorem resultCall_ok {pairId : Int} {body : Json} {c : Call} (h : resultCall pairId body = .ok c) :
    ∃ report, resultReport body = .ok report ∧ c = .submit pairId report := by
  unfold resultCall at h
  cases hr : resultReport body with
  | error what =>
    rw [hr] at h
    cases h
  | ok report =>
    rw [hr] at h
    cases h
    exact ⟨report, rfl, rfl⟩

end Routes

/-- The wire after a step of somebody, who may send some of the calls. -/
inductive Wire.Moved (G : Surroundings F) (may : Call → Prop) (w : Wire F) : Wire F → Prop
  | nothing : Wire.Moved G may w w
  | sent (c : Call) (w' : Wire F) : may c → w.Sent G c w' → Wire.Moved G may w w'
  | ran (op : Op) : op.act.ofClient = false →
      Wire.Moved G may w { w with server := w.server.step G.env op }
  | late (n : Nat) (c : Call) (inp : Input) : w.inFlight[n]? = some c →
      Wire.Moved G may w ⟨w.server.step G.env (inp.op c), w.inFlight.eraseIdx n⟩

/-- The wire after a step that sends no result. -/
inductive Wire.Aside (G : Surroundings F) (w : Wire F) : Wire F → Prop
  | nothing : Wire.Aside G w w
  | sent (c : Call) (w' : Wire F) : (∀ i report, c ≠ .submit i report) → w.Sent G c w' →
      Wire.Aside G w w'

theorem Wire.Aside.moved {may : Call → Prop} {w w' : Wire F} (h : w.Aside G w')
    (hmay : ∀ c, (∀ i report, c ≠ .submit i report) → may c) : w.Moved G may w' := by
  cases h with
  | nothing => exact .nothing
  | sent c _ hc h => exact .sent c w' (hmay c hc) h

theorem exchange_aside (G : Surroundings F) (w : Wire F) (inp : Input) {call : Except String Call}
    (hc : ∀ c, call = .ok c → ∀ i report, c ≠ .submit i report) :
    w.Aside G (exchange G w inp call).1 := by
  rcases exchange_sent G w inp call with h | ⟨c, hcall, h⟩
  · rw [h]
    exact .nothing
  · exact .sent c _ (hc c hcall) h

theorem heartbeat_aside (G : Surroundings F) (w : Wire F) (inp : Input) (clientId : Int)
    (body : Json) : w.Aside G (exchange G w inp (Routes.heartbeatCall clientId body)).1 := by
  refine exchange_aside G w inp fun c hc i report hne => ?_
  obtain ⟨f, rfl⟩ := Routes.heartbeatCall_ok hc
  cases hne

theorem claim_aside (G : Surroundings F) (w : Wire F) (inp : Input) (body : Json) :
    w.Aside G (exchange G w inp (Routes.claimCall body)).1 := by
  refine exchange_aside G w inp fun c hc i report hne => ?_
  obtain ⟨clientId, slotsFree, rfl⟩ := Routes.claimCall_ok hc
  cases hne

theorem abandon_aside (G : Surroundings F) (w : Wire F) (inp : Input) (pairId : Int) (body : Json) :
    w.Aside G (exchange G w inp (Routes.abandonCall pairId body)).1 := by
  refine exchange_aside G w inp fun c hc i report hne => ?_
  obtain ⟨clientId, rfl⟩ := Routes.abandonCall_ok hc
  cases hne

/-- The moves of the polling thread. -/
inductive PollMove (G : Surroundings F) (w : Wire F) (c : Client) (inp : Input) :
    Wire F → Client → Prop
  | exits : c.poller = .head → c.shared.stop = true →
      PollMove G w c inp w { c with poller := .exited }
  | starts : c.poller = .head → c.shared.stop = false →
      PollMove G w c inp w { c with poller := .heartbeat }
  | unheard (w' : Wire F) : c.poller = .heartbeat → w.Aside G w' →
      PollMove G w c inp w' { c with poller := .head }
  | barred (w' : Wire F) : c.poller = .heartbeat → w.Aside G w' →
      PollMove G w c inp w' { c with poller := .head, shared := c.shared.ban }
  | beaten (w' : Wire F) : c.poller = .heartbeat → w.Aside G w' →
      PollMove G w c inp w' { c with poller := .activeTest }
  | nothingNew : c.poller = .activeTest → PollMove G w c inp w { c with poller := .head }
  | noTest : c.poller = .activeTest →
      PollMove G w c inp w { c with poller := .head, shared := { c.shared with engines := none } }
  | newTest (t : Api.ActiveTest) : c.poller = .activeTest →
      Api.activeTest (askActiveTest G w inp) = .ok (some t) →
      PollMove G w c inp w
        { c with poller := .build t false, shared := { c.shared with engines := none } }
  | unbuilt (t : Api.ActiveTest) (candidateBuilt : Bool) : c.poller = .build t candidateBuilt →
      PollMove G w c inp w
        { c with poller := .head, shared := { c.shared with failedTest := some t.testId } }
  | candidate (t : Api.ActiveTest) : c.poller = .build t false →
      PollMove G w c inp w { c with poller := .build t true }
  | ready (t : Api.ActiveTest) : c.poller = .build t true →
      PollMove G w c inp w { c with
        poller := .head, shared := { c.shared with engines := some (c.host.engineSet t) } }
  | gone : c.poller = .exited → PollMove G w c inp w c

theorem Client.poll_move (G : Surroundings F) (w : Wire F) (c : Client) (inp : Input) :
    PollMove G w c inp (c.poll G w inp).1 (c.poll G w inp).2 := by
  unfold Client.poll
  split
  next hat =>
    cases hstop : c.shared.stop with
    | true => exact .exits hat hstop
    | false => exact .starts hat hstop
  next hat =>
    have hs := heartbeat_aside G w inp c.host.clientId (Api.heartbeatBody c.host.cpuFactor)
    dsimp only
    split
    next => exact .unheard _ hat hs
    next => exact .barred _ hat hs
    next => exact .beaten _ hat hs
  next hat =>
    split
    next => exact .nothingNew hat
    next => exact .noTest hat
    next t ht =>
      split
      next => exact .nothingNew hat
      next => exact .newTest t hat ht
  next t candidateBuilt hat =>
    split
    next => exact .unbuilt t candidateBuilt hat
    next =>
      cases candidateBuilt with
      | false => exact .candidate t hat
      | true => exact .ready t hat
  next hat => exact .gone hat

/-- The moves of the thread of a slot. -/
inductive SlotMove (G : Surroundings F) (w : Wire F) (h : Host) (sh : ClientState)
    (slot : SlotInfo) (inp : Input) : Slot → SlotStep F → Prop
  | exits : sh.stop = true → SlotMove G w h sh slot inp .head (w, sh, some .exited)
  | waits : sh.stop = false → sh.engines = none →
      SlotMove G w h sh slot inp .head (w, sh, some .head)
  | asks (e : EngineSet) : sh.stop = false → sh.engines = some e →
      SlotMove G w h sh slot inp .head (w, sh, some (.claim e))
  | unclaimed (e : EngineSet) (w' : Wire F) : w.Aside G w' →
      SlotMove G w h sh slot inp (.claim e) (w', sh, some .head)
  | barred (e : EngineSet) (w' : Wire F) : w.Aside G w' →
      SlotMove G w h sh slot inp (.claim e) (w', sh.ban, some .exited)
  | stale (e : EngineSet) (w' : Wire F) (pairId : Int) : w.Aside G w' →
      SlotMove G w h sh slot inp (.claim e) (w', sh, some (.giveBackStale pairId))
  | dealt (e : EngineSet) (r : Api.ClaimResult) (pair : Api.ClaimedPair) :
      Api.claim (exchange G w inp (Routes.claimCall (Api.claimBody h.clientId 1))).2 = .ok r →
      pair ∈ r.pairs → r.testId = e.testId →
      SlotMove G w h sh slot inp (.claim e)
        ((exchange G w inp (Routes.claimCall (Api.claimBody h.clientId 1))).1, sh,
          some (.play e pair))
  | returned (pairId : Int) (w' : Wire F) : w.Aside G w' →
      SlotMove G w h sh slot inp (.giveBackStale pairId) (w', sh, some .head)
  | interrupted (e : EngineSet) (pair : Api.ClaimedPair) : sh.stop = true →
      SlotMove G w h sh slot inp (.play e pair) (w, sh, some (.giveBack pair.pairId))
  | dies (e : EngineSet) (pair : Api.ClaimedPair) :
      SlotMove G w h sh slot inp (.play e pair) (w, sh, none)
  | played (e : EngineSet) (pair : Api.ClaimedPair) (body : Json) :
      playedBody G.fastchess h slot e pair inp.nonce = .ok body →
      SlotMove G w h sh slot inp (.play e pair)
        (w, sh, some (.submit e pair body (submitDeadline inp.now) 0))
  | gaveBack (pairId : Int) (w' : Wire F) : w.Aside G w' →
      SlotMove G w h sh slot inp (.giveBack pairId) (w', sh, some .exited)
  | told (e : EngineSet) (pair : Api.ClaimedPair) (body : Json) (deadline : ℚ) (attempts : Nat)
      (sh' : ClientState) : sh' = sh.done h ∨ sh' = sh.ban.done h →
      SlotMove G w h sh slot inp (.submit e pair body deadline attempts)
        ((exchange G w inp (Routes.resultCall pair.pairId body)).1, sh', some .head)
  | again (e : EngineSet) (pair : Api.ClaimedPair) (body : Json) (deadline : ℚ) (attempts : Nat) :
      inp.now ≤ deadline → sh.stop = false →
      SlotMove G w h sh slot inp (.submit e pair body deadline attempts)
        ((exchange G w inp (Routes.resultCall pair.pairId body)).1, sh,
          some (.submit e pair body deadline attempts))
  | insists (e : EngineSet) (pair : Api.ClaimedPair) (body : Json) (deadline : ℚ) (attempts : Nat) :
      inp.now ≤ deadline → sh.stop = true → attempts < 3 →
      SlotMove G w h sh slot inp (.submit e pair body deadline attempts)
        ((exchange G w inp (Routes.resultCall pair.pairId body)).1, sh,
          some (.submit e pair body deadline (attempts + 1)))
  | gone : SlotMove G w h sh slot inp .exited (w, sh, some .exited)

theorem slotStep_move (G : Surroundings F) (w : Wire F) (h : Host) (sh : ClientState)
    (slot : SlotInfo) (inp : Input) (at_ : Slot) :
    SlotMove G w h sh slot inp at_ (slotStep G w h sh slot inp at_) := by
  cases at_ with
  | head =>
    dsimp only [slotStep]
    cases hstop : sh.stop with
    | true => exact .exits hstop
    | false =>
      rw [if_neg Bool.false_ne_true]
      split
      next he => exact .waits hstop he
      next e he => exact .asks e hstop he
  | claim e =>
    have hs := claim_aside G w inp (Api.claimBody h.clientId 1)
    dsimp only [slotStep]
    split
    next => exact .unclaimed e _ hs
    next r hr =>
      split
      next => exact .barred e _ hs
      next => exact .unclaimed e _ hs
      next => exact .unclaimed e _ hs
      next pair pairs _ hpairs =>
        split
        next => exact .stale e _ pair.pairId hs
        next heq => exact .dealt e r pair hr (by rw [hpairs]; exact List.mem_cons_self) (not_not.mp heq)
  | giveBackStale pairId => exact .returned pairId _ (abandon_aside G w inp pairId _)
  | play e pair =>
    dsimp only [slotStep]
    split
    next hint =>
      simp only [Bool.and_eq_true] at hint
      exact .interrupted e pair hint.2
    next =>
      split
      next => exact .dies e pair
      next body hbody => exact .played e pair body hbody
  | giveBack pairId => exact .gaveBack pairId _ (abandon_aside G w inp pairId _)
  | submit e pair body deadline attempts =>
    dsimp only [slotStep]
    split
    next => exact .told e pair body deadline attempts _ (.inr rfl)
    next => exact .told e pair body deadline attempts _ (.inl rfl)
    next => exact .told e pair body deadline attempts _ (.inl rfl)
    next =>
      split
      next => exact .told e pair body deadline attempts _ (.inl rfl)
      next hlate =>
        cases hstop : sh.stop with
        | false => exact .again e pair body deadline attempts (not_lt.mp hlate) hstop
        | true =>
          rw [if_neg (by simp)]
          split
          next => exact .told e pair body deadline attempts _ (.inl rfl)
          next hmore => exact .insists e pair body deadline attempts (not_lt.mp hlate) hstop (by omega)
  | exited => exact .gone

theorem PollMove.aside {w w' : Wire F} {c c' : Client} {inp : Input}
    (h : PollMove G w c inp w' c') : w.Aside G w' := by
  cases h with
  | unheard _ _ hs => exact hs
  | barred _ _ hs => exact hs
  | beaten _ _ hs => exact hs
  | _ => exact .nothing

/-- A slot is aside, but for the sending of a result. -/
theorem SlotMove.aside {w : Wire F} {h : Host} {sh : ClientState} {slot : SlotInfo} {inp : Input}
    {at_ : Slot} {r : SlotStep F} (hm : SlotMove G w h sh slot inp at_ r) :
    w.Aside G r.1 ∨ ∃ e pair body deadline attempts,
      at_ = .submit e pair body deadline attempts ∧
        r.1 = (exchange G w inp (Routes.resultCall pair.pairId body)).1 := by
  cases hm with
  | unclaimed _ _ hs => exact .inl hs
  | barred _ _ hs => exact .inl hs
  | stale _ _ _ hs => exact .inl hs
  | returned _ _ hs => exact .inl hs
  | gaveBack _ _ hs => exact .inl hs
  | dealt => exact .inl (claim_aside G w inp _)
  | told => exact .inr ⟨_, _, _, _, _, rfl, rfl⟩
  | again => exact .inr ⟨_, _, _, _, _, rfl, rfl⟩
  | insists => exact .inr ⟨_, _, _, _, _, rfl, rfl⟩
  | _ => exact .inl .nothing

/-- What a step of slot `k` comes to, for the whole client. -/
inductive ClientMove (G : Surroundings F) (w : Wire F) (c : Client) (k : Nat) (inp : Input) :
    Wire F → Client → Prop
  | nobody : c.slots[k]? = none → ClientMove G w c k inp w c
  | went (slot : SlotInfo) (at_ next : Slot) (w' : Wire F) (sh : ClientState) :
      c.slots[k]? = some (slot, at_) → SlotMove G w c.host c.shared slot inp at_ (w', sh, some next) →
      ClientMove G w c k inp w' { c with shared := sh, slots := c.slots.set k (slot, next) }
  | died (slot : SlotInfo) (at_ : Slot) (w' : Wire F) (sh : ClientState) :
      c.slots[k]? = some (slot, at_) → SlotMove G w c.host c.shared slot inp at_ (w', sh, none) →
      ClientMove G w c k inp w' { c with shared := sh }.die

theorem Client.slot_move (G : Surroundings F) (w : Wire F) (c : Client) (k : Nat) (inp : Input) :
    ClientMove G w c k inp (c.slot G w k inp).1 (c.slot G w k inp).2 := by
  unfold Client.slot
  split
  next hk => exact .nobody hk
  next slot at_ hk =>
    have hm := slotStep_move G w c.host c.shared slot inp at_
    split
    next w' sh next_ heq => exact .went slot at_ next_ w' sh hk (heq ▸ hm)
    next w' sh heq => exact .died slot at_ w' sh hk (heq ▸ hm)

/-- A client is aside, but for a slot that sends its result. -/
theorem ClientMove.aside {w w' : Wire F} {c c' : Client} {k : Nat} {inp : Input}
    (h : ClientMove G w c k inp w' c') :
    w.Aside G w' ∨ ∃ slot e pair body deadline attempts,
      (slot, Slot.submit e pair body deadline attempts) ∈ c.slots ∧
        w' = (exchange G w inp (Routes.resultCall pair.pairId body)).1 := by
  cases h with
  | nobody => exact .inl .nothing
  | went slot at_ next _ sh hk hm =>
    rcases hm.aside with ha | ⟨e, pair, body, deadline, attempts, rfl, hs⟩
    · exact .inl ha
    · exact .inr ⟨slot, e, pair, body, deadline, attempts, List.mem_of_getElem? hk, hs⟩
  | died slot at_ _ sh hk hm =>
    rcases hm.aside with ha | ⟨e, pair, body, deadline, attempts, rfl, hs⟩
    · exact .inl ha
    · exact .inr ⟨slot, e, pair, body, deadline, attempts, List.mem_of_getElem? hk, hs⟩

/-- Where a step of the network takes it. -/
inductive NetworkMove (G : Surroundings F) (W : Network F) : Network F → Prop
  | nothing : NetworkMove G W W
  | server (op : Op) : op.act.ofClient = false →
      NetworkMove G W { W with wire.server := W.server.step G.env op }
  | late (n : Nat) (c : Call) (inp : Input) : W.wire.inFlight[n]? = some c →
      NetworkMove G W
        { W with wire := ⟨W.server.step G.env (inp.op c), W.wire.inFlight.eraseIdx n⟩ }
  | unjoined (w' : Wire F) : W.wire.Aside G w' → NetworkMove G W { W with wire := w' }
  | joined (w' : Wire F) (answer : Option Response) (id : Int) (h : Host) (slots : List SlotInfo) :
      W.wire.Aside G w' → Api.registerClient answer = .ok id →
      NetworkMove G W ⟨w', W.clients ++ [.start { h with clientId := id } slots]⟩
  | polled (i : Nat) (c c' : Client) (inp : Input) (w' : Wire F) : W.clients[i]? = some c →
      PollMove G W.wire c inp w' c' → NetworkMove G W (W.setClient i (w', c'))
  | slot (i k : Nat) (c c' : Client) (inp : Input) (w' : Wire F) : W.clients[i]? = some c →
      ClientMove G W.wire c k inp w' c' → NetworkMove G W (W.setClient i (w', c'))
  | signalled (i : Nat) (c : Client) : W.clients[i]? = some c →
      NetworkMove G W (W.setClient i (W.wire, { c with shared := c.shared.requestStop }))
  | killed (i : Nat) (c : Client) : W.clients[i]? = some c →
      NetworkMove G W (W.setClient i (W.wire, c.die))

namespace Network

theorem step_move (G : Surroundings F) (W : Network F) (e : NetworkEvent) :
    NetworkMove G W (W.step G e) := by
  cases e with
  | server op =>
    dsimp only [step]
    split
    next => exact .nothing
    next hne => exact .server op (Bool.eq_false_iff.mpr hne)
  | late n inp =>
    dsimp only [step]
    split
    next c hc => exact .late n c inp hc
    next => exact .nothing
  | join inp reg h slots =>
    have hs : W.wire.Aside G (exchange G W.wire inp (.ok (.register reg))).1 := by
      refine exchange_aside G W.wire inp fun c hc i report hne => ?_
      cases hc
      cases hne
    dsimp only [step]
    split
    next id hid => exact .joined _ _ id h slots hs hid
    next => exact .unjoined _ hs
  | poll i inp =>
    dsimp only [step]
    split
    next c hc => exact .polled i c _ inp _ hc (c.poll_move G W.wire inp)
    next => exact .nothing
  | slot i k inp =>
    dsimp only [step]
    split
    next c hc => exact .slot i k c _ inp _ hc (c.slot_move G W.wire k inp)
    next => exact .nothing
  | signal i =>
    dsimp only [step]
    split
    next c hc => exact .signalled i c hc
    next => exact .nothing
  | kill i =>
    dsimp only [step]
    split
    next c hc => exact .killed i c hc
    next => exact .nothing

/-- What holds of an empty network and is kept by every move holds after every run. -/
theorem run_induction {I : Network F → Prop} (init : I .init)
    (move : ∀ W W', I W → NetworkMove G W W' → I W') (events : List NetworkEvent) :
    I (run G events) := by
  induction events using List.reverseRecOn with
  | nil => exact init
  | append_singleton events e ih =>
    have hrun : run G (events ++ [e]) = (run G events).step G e := by simp [run]
    rw [hrun]
    exact move _ _ ih ((run G events).step_move G e)

end Network

/-- What the clients send are results they hold, or no results. -/
theorem NetworkMove.moved {may : Call → Prop} {W W' : Network F} (h : NetworkMove G W W')
    (hmay : ∀ c, (∀ i report, c ≠ .submit i report) → may c)
    (hsub : ∀ c ∈ W.clients, ∀ slot e pair body deadline attempts report,
      (slot, Slot.submit e pair body deadline attempts) ∈ c.slots →
      resultReport body = .ok report → may (.submit pair.pairId report)) :
    W.wire.Moved G may W'.wire := by
  cases h with
  | server op hop => exact .ran op hop
  | late n c inp hc => exact .late n c inp hc
  | unjoined _ hs => exact hs.moved hmay
  | joined _ _ _ _ _ hs => exact hs.moved hmay
  | polled _ _ _ _ _ _ hm => exact hm.aside.moved hmay
  | slot i k c c' inp w' hi hm =>
    rcases hm.aside with ha | ⟨slot, e, pair, body, deadline, attempts, hin, rfl⟩
    · exact ha.moved hmay
    rcases exchange_sent G W.wire inp (Routes.resultCall pair.pairId body) with
      hsame | ⟨call, hcall, hsent⟩
    · change W.wire.Moved G may (exchange G W.wire inp _).1
      rw [hsame]
      exact .nothing
    · obtain ⟨report, hrep, rfl⟩ := Routes.resultCall_ok hcall
      exact .sent _ _ (hsub c (List.mem_of_getElem? hi) slot e pair body deadline attempts report hin
        hrep) hsent
  | _ => exact .nothing

theorem NetworkMove.some_move {W W' : Network F} (h : NetworkMove G W W') :
    W.wire.Moved G (fun _ => True) W'.wire :=
  h.moved (fun _ _ => trivial) fun _ _ _ _ _ _ _ _ _ _ _ => trivial

variable {may : Call → Prop}

/-- A move is at most one step of the server. -/
theorem Wire.Moved.server {w w' : Wire F} (h : w.Moved G may w') :
    w'.server = w.server ∨ ∃ op, w'.server = w.server.step G.env op := by
  cases h with
  | nothing => exact .inl rfl
  | sent c _ _ hs =>
    rcases hs with rfl | ⟨inp, rfl⟩
    · exact .inl rfl
    · exact .inr ⟨_, rfl⟩
  | ran op => exact .inr ⟨op, rfl⟩
  | late n c inp => exact .inr ⟨_, rfl⟩

theorem Wire.Moved.reached {w w' : Wire F} (h : w.Moved G may w')
    (hw : ∃ ops, w.server = Server.run G.env ops) : ∃ ops, w'.server = Server.run G.env ops := by
  obtain ⟨ops, hops⟩ := hw
  rcases h.server with hs | ⟨op, hs⟩
  · exact ⟨ops, hs.trans hops⟩
  · exact ⟨ops ++ [op], by rw [hs, hops, Server.run_snoc]⟩

/-- The server of a network has gone through a run of its own. -/
theorem Network.run_server (G : Surroundings F) (events : List NetworkEvent) :
    ∃ ops, (Network.run G events).server = Server.run G.env ops :=
  Network.run_induction (I := fun W => ∃ ops, W.server = Server.run G.env ops) ⟨[], rfl⟩
    (fun _ _ hW hm => hm.some_move.reached hW) events

theorem Wire.Moved.extends {w w' : Wire F} (h : w.Moved G may w') :
    w.server.db.Extends w'.server.db := by
  rcases h.server with hs | ⟨op, hs⟩
  · rw [hs]
    exact .refl _
  · rw [hs]
    exact w.server.step_extends G.env op

end CapiNet
