import CapiNet.ApiAnswers

namespace CapiNet

/-- The engines of a test and its conditions. -/
structure EngineSet where
  testId : Int
  candidate : String
  baseline : String
  tcBaseMs : Int
  tcIncrementMs : Int
  hashMb : Int
  threads : Int
  adjudication : Adjudication

/-- What a client process is started with. -/
structure Host where
  clientId : Int
  workDir : String
  archTarget : String
  fastchess : String
  cpuFactor : Double
  maxPairs : Nat

namespace Host

/-- Where `build_engine` leaves the engine of a commit. -/
def enginePath (h : Host) (sha : String) : String :=
  h.workDir ++ "/builds/" ++ sha ++ "-" ++ h.archTarget ++ "/capizero"

/-- What the preparation of a test sets up. -/
def engineSet (h : Host) (t : Api.ActiveTest) : EngineSet where
  testId := t.testId
  candidate := h.enginePath t.candidateCommit
  baseline := h.enginePath t.baselineCommit
  tcBaseMs := t.tcBaseMs
  tcIncrementMs := t.tcIncrementMs
  hashMb := t.hashMb
  threads := t.threads
  adjudication := t.adjudication

def slotDir (h : Host) (slot : SlotInfo) : String := h.workDir ++ "/slots/" ++ toString slot.index

end Host

def EngineSet.effectiveTc (e : EngineSet) (cpuFactor : Double) : EffectiveTc :=
  CapiNet.effectiveTc ⟨e.tcBaseMs, e.tcIncrementMs⟩ cpuFactor

def adjudicationArgs (a : Adjudication) : List String :=
  (a.draw.elim [] fun d => ["-draw", "movenumber=" ++ toString d.movenumber,
    "movecount=" ++ toString d.movecount, "score=" ++ toString d.scoreCp]) ++
  a.resign.elim [] fun r => ["-resign", "movecount=" ++ toString r.movecount,
    "score=" ++ toString r.scoreCp, "twosided=" ++ if r.twosided then "true" else "false"]

def fastchessArgs (fastchess : String) (e : EngineSet) (tc : EffectiveTc) (epd pgn event : String) :
    List String :=
  [fastchess,
    "-engine", "cmd=" ++ e.candidate, "name=candidate", "args=uci",
    "-engine", "cmd=" ++ e.baseline, "name=baseline", "args=uci",
    "-each", "tc=" ++ fastchessTc tc, "option.Hash=" ++ toString e.hashMb,
    "option.Threads=" ++ toString e.threads,
    "-openings", "file=" ++ epd, "format=epd", "order=sequential",
    "-rounds", "1", "-games", "2", "-repeat", "-concurrency", "1",
    "-pgnout", "file=" ++ pgn, "notation=san", "append=false", "nodes=true", "nps=true",
    "-event", event, "-ratinginterval", "0"] ++ adjudicationArgs e.adjudication

/-- The command line of a pair in a slot. -/
def pairArgs (h : Host) (slot : SlotInfo) (e : EngineSet) (pair : Api.ClaimedPair) : List String :=
  fastchessArgs h.fastchess e (e.effectiveTc h.cpuFactor) (h.slotDir slot ++ "/pair.epd")
    (h.slotDir slot ++ "/pair.pgn")
    ("capi_net test " ++ toString e.testId ++ " pair " ++ toString pair.pairId)

/-- What is left of a run of the harness. -/
structure PlayOutcome where
  timedOut : Bool
  exitCode : Int
  output : String
  pgn : String

/-- Back over the text until a line break is the last one wanted. -/
def tailLoop (maxLines : Nat) : List Char → Nat → List Char
  | [], _ => []
  | c :: cs, lines =>
    if c = '\n' then
      if lines + 1 = maxLines then [] else c :: tailLoop maxLines cs (lines + 1)
    else c :: tailLoop maxLines cs lines

/-- The last lines of a text, without the line breaks at its end. -/
def tailLines (text : List Char) (maxLines : Nat) : List Char :=
  (tailLoop maxLines (text.reverse.dropWhile (· == '\n')) 0).reverse

def PlayOutcome.note (out : PlayOutcome) : String :=
  let what :=
    if out.timedOut then "fastchess excedeu o tempo limite e foi encerrado."
    else if out.exitCode ≠ 0 then "fastchess saiu com código " ++ toString out.exitCode ++ "."
    else ""
  if what = "" then "" else what ++ " Saída: " ++ String.ofList (tailLines out.output.toList 10)

/-- The harness: what a command line makes of a file of openings. Two runs may differ. -/
abbrev Harness := List String → String → Nat → PlayOutcome

/-- What becomes of a pair that is played to its end. -/
def playedBody (fastchess : Harness) (h : Host) (slot : SlotInfo) (e : EngineSet)
    (pair : Api.ClaimedPair) (nonce : Nat) : Except Escape Json :=
  let out := fastchess (pairArgs h slot e pair) (pair.fen ++ "\n") nonce
  makeResultBody h.clientId out.pgn out.note slot (e.effectiveTc h.cpuFactor) h.cpuFactor

/-- Where the polling thread is. -/
inductive Poller
  | head
  | heartbeat
  | activeTest
  | build (t : Api.ActiveTest) (candidateBuilt : Bool)
  | exited

/-- Where the thread of a slot is, with what it holds. -/
inductive Slot
  | head
  | claim (e : EngineSet)
  | giveBackStale (pairId : Int)
  | play (e : EngineSet) (pair : Api.ClaimedPair)
  | giveBack (pairId : Int)
  | submit (e : EngineSet) (pair : Api.ClaimedPair) (body : Json) (deadline : ℚ)
      (attemptsAfterStop : Nat)
  | exited

/-- What the threads share. -/
structure ClientState where
  engines : Option EngineSet := none
  failedTest : Option Int := none
  stop : Bool := false
  banned : Bool := false
  pairsDone : Nat := 0

def ClientState.requestStop (sh : ClientState) : ClientState := { sh with stop := true }

def ClientState.ban (sh : ClientState) : ClientState := { sh with banned := true, stop := true }

structure Client where
  host : Host
  shared : ClientState
  poller : Poller
  slots : List (SlotInfo × Slot)

def Client.start (h : Host) (slots : List SlotInfo) : Client :=
  ⟨h, {}, .head, slots.map fun slot => (slot, .head)⟩

/-- The process is gone: killed, or by an exception that nothing catches. -/
def Client.die (c : Client) : Client :=
  { c with poller := .exited, slots := c.slots.map fun s => (s.1, .exited) }

/-- What a step of a thread meets: the time, the network, and what the programs it calls do. -/
structure Input where
  now : ℚ
  skip : Lock → Bool := fun _ => false
  timedOut : Bool := false
  built : Bool := true
  interrupted : Bool := false
  nonce : Nat := 0

variable {F : Type} [LinearOrder F]

/-- What the programs around the system do. -/
structure Surroundings (F : Type) where
  env : Env F
  routes : Routes.Config
  fastchess : Harness

def respond (cfg : Routes.Config) : Reply → Response
  | .registered c => Routes.registerResponse c
  | .heartbeat banned => Routes.heartbeatResponse banned
  | .claim r => Routes.claimResponse cfg r
  | .submit r => Routes.submitResponse r
  | .abandon released => Routes.abandonResponse released
  | _ => Routes.sendError 500 "internal_error" ""

/-- The server, and the calls whose clients did not wait for the answer. They may still arrive. -/
structure Wire (F : Type) where
  server : Server F
  inFlight : List Call

/-- One request of a client, and the answer if it arrives in time. -/
def exchange (G : Surroundings F) (w : Wire F) (inp : Input) (call : Except String Call) :
    Wire F × Option Response :=
  match inp.timedOut, call with
  | true, .error _ => (w, none)
  | true, .ok c => ({ w with inFlight := w.inFlight ++ [c] }, none)
  | false, .error what => (w, some (Routes.sendError 400 "bad_request" what))
  | false, .ok c =>
    let op : Op := { now := inp.now, act := .call c, skip := inp.skip }
    let answer := match w.server.reply G.env op with
      | some (.ok r) => respond G.routes r
      | _ => Routes.sendError 500 "internal_error" ""
    ({ w with server := w.server.step G.env op }, some answer)

/-- `GET /api/active_test` only reads. -/
def askActiveTest (G : Surroundings F) (w : Wire F) (inp : Input) : Option Response :=
  if inp.timedOut then none
  else some (Routes.activeTestResponse G.routes w.server.db.runningTest)

/-- One step of the polling thread. -/
def Client.poll (G : Surroundings F) (w : Wire F) (c : Client) (inp : Input) : Wire F × Client :=
  match c.poller with
  | .head => (w, { c with poller := if c.shared.stop then .exited else .heartbeat })
  | .heartbeat =>
    let (w, answer) := exchange G w inp
      (Routes.heartbeatCall c.host.clientId (Api.heartbeatBody c.host.cpuFactor))
    match Api.heartbeat answer with
    | .error _ => (w, { c with poller := .head })
    | .ok true => (w, { c with poller := .head, shared := c.shared.ban })
    | .ok false => (w, { c with poller := .activeTest })
  | .activeTest =>
    match Api.activeTest (askActiveTest G w inp) with
    | .error _ => (w, { c with poller := .head })
    | .ok none => (w, { c with poller := .head, shared := { c.shared with engines := none } })
    | .ok (some t) =>
      if c.shared.engines.any (·.testId == t.testId) ∨ c.shared.failedTest = some t.testId then
        (w, { c with poller := .head })
      else (w, { c with poller := .build t false, shared := { c.shared with engines := none } })
  | .build t candidateBuilt =>
    if !inp.built then
      (w, { c with poller := .head, shared := { c.shared with failedTest := some t.testId } })
    else if !candidateBuilt then (w, { c with poller := .build t true })
    else (w, { c with
      poller := .head, shared := { c.shared with engines := some (c.host.engineSet t) } })
  | .exited => (w, c)

/-- The end of a round: the pair is counted, and the client stops after enough of them. -/
def ClientState.done (sh : ClientState) (h : Host) : ClientState :=
  let sh := { sh with pairsDone := sh.pairsDone + 1 }
  if 0 < h.maxPairs ∧ h.maxPairs ≤ sh.pairsDone then sh.requestStop else sh

/-- A result is worth sending for 15 minutes. -/
def submitDeadline (now : ℚ) : ℚ := now + 15 * 60

/-- What one step of a slot comes to: the wire, the shared state, and where the slot is then.
Without one, the process dies. -/
abbrev SlotStep (F : Type) := Wire F × ClientState × Option Slot

/-- One step of the thread of a slot. -/
def slotStep (G : Surroundings F) (w : Wire F) (h : Host) (sh : ClientState) (slot : SlotInfo)
    (inp : Input) : Slot → SlotStep F
  | .head =>
    if sh.stop then (w, sh, some .exited)
    else match sh.engines with
      | none => (w, sh, some .head)
      | some e => (w, sh, some (.claim e))
  | .claim e =>
    let (w, answer) := exchange G w inp (Routes.claimCall (Api.claimBody h.clientId 1))
    match Api.claim answer with
    | .error _ => (w, sh, some .head)
    | .ok r => match r.status, r.pairs with
      | .banned, _ => (w, sh.ban, some .exited)
      | .noActiveTest, _ => (w, sh, some .head)
      | .ok, [] => (w, sh, some .head)
      | .ok, pair :: _ =>
        -- the test has changed since the engines were read
        if r.testId ≠ e.testId then (w, sh, some (.giveBackStale pair.pairId))
        else (w, sh, some (.play e pair))
  | .giveBackStale pairId =>
    let (w, _) := exchange G w inp (Routes.abandonCall pairId (Api.abandonBody h.clientId))
    (w, sh, some .head)
  | .play e pair =>
    if inp.interrupted && sh.stop then (w, sh, some (.giveBack pair.pairId))
    else match playedBody G.fastchess h slot e pair inp.nonce with
      | .error _ => (w, sh, none)
      | .ok body => (w, sh, some (.submit e pair body (submitDeadline inp.now) 0))
  | .giveBack pairId =>
    let (w, _) := exchange G w inp (Routes.abandonCall pairId (Api.abandonBody h.clientId))
    (w, sh, some .exited)
  | .submit e pair body deadline attempts =>
    let (w, answer) := exchange G w inp (Routes.resultCall pair.pairId body)
    match Api.submit answer with
    | .ok .clientBanned => (w, sh.ban.done h, some .head)
    | .ok _ => (w, sh.done h, some .head)
    | .error .protocol => (w, sh.done h, some .head)
    | .error .transient =>
      if deadline < inp.now then (w, sh.done h, some .head)
      else if !sh.stop then (w, sh, some (.submit e pair body deadline attempts))
      else if 3 < attempts + 1 then (w, sh.done h, some .head)
      else (w, sh, some (.submit e pair body deadline (attempts + 1)))
  | .exited => (w, sh, some .exited)

/-- One step of slot `k`. -/
def Client.slot (G : Surroundings F) (w : Wire F) (c : Client) (k : Nat) (inp : Input) :
    Wire F × Client :=
  match c.slots[k]? with
  | none => (w, c)
  | some (slot, at_) =>
    match slotStep G w c.host c.shared slot inp at_ with
    | (w, sh, some next) => (w, { c with shared := sh, slots := c.slots.set k (slot, next) })
    | (w, sh, none) => (w, { c with shared := sh }.die)

/-- The server with what is on its way to it, and the clients that ever joined. -/
structure Network (F : Type) where
  wire : Wire F
  clients : List Client

/-- What only clients ask for. -/
def Call.ofClient : Call → Bool
  | .claim _ _ => true
  | .submit _ _ => true
  | .abandon _ _ => true
  | _ => false

def Act.ofClient : Act → Bool
  | .call c => c.ofClient
  | _ => false

/-- What happens next: something at the server, a call arrives late, a process joins, or one of a
client's threads moves; a client is told to stop, or killed. -/
inductive NetworkEvent
  | server (op : Op)
  | late (n : Nat) (inp : Input)
  | join (inp : Input) (reg : ClientRegistration) (h : Host) (slots : List SlotInfo)
  | poll (i : Nat) (inp : Input)
  | slot (i k : Nat) (inp : Input)
  | signal (i : Nat)
  | kill (i : Nat)

namespace Network

def init : Network F := ⟨⟨.init, []⟩, []⟩

def server (W : Network F) : Server F := W.wire.server

def setClient (W : Network F) (i : Nat) (moved : Wire F × Client) : Network F :=
  ⟨moved.1, W.clients.set i moved.2⟩

def step (G : Surroundings F) (W : Network F) : NetworkEvent → Network F
  | .server op =>
    if op.act.ofClient then W else { W with wire.server := W.server.step G.env op }
  | .late n inp =>
    match W.wire.inFlight[n]? with
    | some c =>
      let op : Op := { now := inp.now, act := .call c, skip := inp.skip }
      { W with wire := ⟨W.server.step G.env op, W.wire.inFlight.eraseIdx n⟩ }
    | none => W
  | .join inp reg h slots =>
    let (w, answer) := exchange G W.wire inp (.ok (.register reg))
    match Api.registerClient answer with
    | .ok id => ⟨w, W.clients ++ [.start { h with clientId := id } slots]⟩
    | .error _ => { W with wire := w }
  | .poll i inp =>
    match W.clients[i]? with
    | some c => W.setClient i (c.poll G W.wire inp)
    | none => W
  | .slot i k inp =>
    match W.clients[i]? with
    | some c => W.setClient i (c.slot G W.wire k inp)
    | none => W
  | .signal i =>
    match W.clients[i]? with
    | some c => W.setClient i (W.wire, { c with shared := c.shared.requestStop })
    | none => W
  | .kill i =>
    match W.clients[i]? with
    | some c => W.setClient i (W.wire, c.die)
    | none => W

def run (G : Surroundings F) (events : List NetworkEvent) : Network F :=
  events.foldl (step G) init

end Network

/-- A harness that leaves no file, for a server over the reals. -/
noncomputable def quietSurroundings : Surroundings ℝ :=
  ⟨realEnv, { timestamp := fun _ => "" }, fun _ _ _ => ⟨false, 0, "", ""⟩⟩

/-- A gauntlet of one pair is opened; a client that is to play one joins, prepares its engines and
plays it. -/
def firstPair : List NetworkEvent :=
  [.server { now := 0, act := .call (.create (gauntletBody 1) "a" "b") },
   .server { now := 0, act := .smokeStart },
   .server { now := 0
             act := .smokeFinish ⟨"", .ok true, .ok ["8/8/8/8/8/8/8/K1k5 w - -"]⟩ fun i => i },
   .join { now := 0 } ⟨"client", 2⟩ ⟨0, "/work", "x86-64", "fastchess", .ofInt 1, 1⟩ [⟨0, none⟩]] ++
  List.replicate 5 (.poll 0 { now := 0 }) ++ List.replicate 4 (.slot 0 0 { now := 1 })

end CapiNet
