import Mathlib.Algebra.Ring.Nat
import Mathlib.Data.List.DropRight

namespace CapiNet

/-- The options the reading loop looks at. -/
structure ProcessOptions where
  stdinData : List UInt8 := []
  timeoutMs : Int := 0
  maxOutput : ℕ := 1048576
  cancellable : Bool := false

structure ProcessResult where
  exitCode : Int := -1
  timedOut : Bool := false
  cancelled : Bool := false
  output : List UInt8 := []

/-- The size of the buffer given to `read`. -/
def readSize : ℕ := 8192

/-- What a `read` that does not fail or end returns. -/
structure Chunk where
  bytes : List UInt8
  nonempty : bytes ≠ []
  fits : bytes.length ≤ readSize

/-- What comes of a writable or closed standard input of the child. -/
inductive StdinEvent
  | wrote (n : ℕ)
  | blocked
  | refused
  | hangup

/-- What comes of a readable output of the child. -/
inductive OutputEvent
  | chunk (c : Chunk)
  | closed
  | interrupted
  | failed

inductive PollEvent
  | interrupted
  | failed
  | ready (stdin : Option StdinEvent) (out : Option OutputEvent)

/-- What one round of the loop sees: the flag, the time to the deadline and the answer of `poll`. -/
structure Round where
  cancelFlag : Bool
  leftMs : Int
  poll : PollEvent

structure LoopState where
  result : ProcessResult := {}
  written : ℕ := 0
  stdinOpen : Bool
  running : Bool := true

/-- Products of `size_t` wrap around. -/
def twice (maxOutput : ℕ) : ℕ := 2 * maxOutput % 2 ^ 64

def keepTail (maxOutput : ℕ) (output : List UInt8) : List UInt8 :=
  output.drop (output.length - maxOutput)

/-- Appends what was read; cuts only beyond twice the limit. -/
def absorb (maxOutput : ℕ) (output : List UInt8) (c : Chunk) : List UInt8 :=
  if twice maxOutput < (output ++ c.bytes).length then keepTail maxOutput (output ++ c.bytes)
  else output ++ c.bytes

def feedStdin (opts : ProcessOptions) (e : StdinEvent) (s : LoopState) : LoopState :=
  let written := match e with
    | .wrote n => s.written + n
    | .blocked => s.written
    | .refused => opts.stdinData.length
    | .hangup => opts.stdinData.length
  { s with written := written, stdinOpen := decide (written < opts.stdinData.length) }

/-- The standard input is polled only while it is open. -/
def pollStdin (opts : ProcessOptions) (stdin : Option StdinEvent) (s : LoopState) : LoopState :=
  match stdin with
  | some e => if s.stdinOpen then feedStdin opts e s else s
  | none => s

def readOutput (opts : ProcessOptions) (e : OutputEvent) (s : LoopState) : LoopState :=
  match e with
  | .chunk c => { s with result := { s.result with output := absorb opts.maxOutput s.result.output c } }
  | .closed => { s with running := false }
  | .interrupted => s
  | .failed => { s with running := false }

def Round.cancels (opts : ProcessOptions) (r : Round) : Bool := opts.cancellable && r.cancelFlag

def Round.expires (opts : ProcessOptions) (r : Round) : Bool :=
  decide (0 < opts.timeoutMs) && decide (r.leftMs ≤ 0)

def round (opts : ProcessOptions) (r : Round) (s : LoopState) : LoopState :=
  if r.cancels opts then { s with result := { s.result with cancelled := true }, running := false }
  else if r.expires opts then
    { s with result := { s.result with timedOut := true }, running := false }
  else match r.poll with
    | .interrupted => s
    | .failed => { s with running := false }
    | .ready stdin out =>
      let fed := pollStdin opts stdin s
      match out with
      | some e => readOutput opts e fed
      | none => fed

/-- The state after the rounds, if the loop runs for so long. -/
def runRounds (opts : ProcessOptions) : List Round → LoopState → Option LoopState
  | [], s => some s
  | r :: rest, s => if s.running then runRounds opts rest (round opts r s) else none

def LoopState.start (opts : ProcessOptions) : LoopState :=
  { stdinOpen := !opts.stdinData.isEmpty }

/-- The result once the loop is left; `exit` is the child's code unless a signal ended it. -/
def runProcess (opts : ProcessOptions) (rounds : List Round) (exit : Option Int) :
    Option ProcessResult :=
  match runRounds opts rounds (.start opts) with
  | none => none
  | some s =>
    if s.running then none
    else
      let output := s.result.output
      some { s.result with
        exitCode := exit.getD s.result.exitCode
        output := if opts.maxOutput < output.length then keepTail opts.maxOutput output else output }

def OutputEvent.bytes : OutputEvent → List UInt8
  | .chunk c => c.bytes
  | .closed => []
  | .interrupted => []
  | .failed => []

/-- What a round reads from the child. -/
def Round.bytes (opts : ProcessOptions) (r : Round) : List UInt8 :=
  if r.cancels opts || r.expires opts then []
  else match r.poll with
    | .interrupted => []
    | .failed => []
    | .ready _ out => out.elim [] OutputEvent.bytes

def bytesRead (opts : ProcessOptions) (rounds : List Round) : List UInt8 :=
  rounds.flatMap (Round.bytes opts)

/-- The buffer is an end of what was read that holds what the result needs. -/
structure TailKept (maxOutput : ℕ) (read output : List UInt8) : Prop where
  suffix : output <:+ read
  least : min read.length maxOutput ≤ output.length

section Buffer

variable {maxOutput : ℕ} {read output : List UInt8}

theorem TailKept.nil (maxOutput : ℕ) : TailKept maxOutput [] [] := ⟨List.suffix_rfl, by simp⟩

theorem length_keepTail (maxOutput : ℕ) (output : List UInt8) :
    (keepTail maxOutput output).length = min output.length maxOutput := by
  rw [keepTail, List.length_drop]
  omega

theorem TailKept.append (h : TailKept maxOutput read output) (bytes : List UInt8) :
    TailKept maxOutput (read ++ bytes) (output ++ bytes) := by
  obtain ⟨front, rfl⟩ := h.suffix
  have hleast := h.least
  refine ⟨⟨front, (List.append_assoc front output bytes).symm⟩, ?_⟩
  rw [List.length_append] at hleast ⊢
  simp only [List.length_append]
  omega

theorem TailKept.keepTail (h : TailKept maxOutput read output) :
    TailKept maxOutput read (keepTail maxOutput output) := by
  have hleast := h.least
  refine ⟨(List.drop_suffix _ _).trans h.suffix, ?_⟩
  rw [length_keepTail]
  omega

/-- Two ends of one list with the same length are equal. -/
theorem TailKept.eq_rtake (h : TailKept maxOutput read output) (hle : output.length ≤ maxOutput) :
    output = read.rtake maxOutput := by
  obtain ⟨front, rfl⟩ := h.suffix
  have hleast := h.least
  rw [List.length_append] at hleast
  rw [List.rtake, List.length_append]
  by_cases hlen : front.length + output.length ≤ maxOutput
  · have hfront : front = [] := List.eq_nil_of_length_eq_zero (by omega)
    subst front
    rw [show [].length + output.length - maxOutput = 0 by simp; omega]
    rfl
  · rw [show front.length + output.length - maxOutput = front.length by omega]
    exact (List.drop_left).symm

theorem TailKept.absorb (h : TailKept maxOutput read output) (c : Chunk) :
    TailKept maxOutput (read ++ c.bytes) (absorb maxOutput output c) := by
  unfold CapiNet.absorb
  split
  · exact (h.append c.bytes).keepTail
  · exact h.append c.bytes

theorem twice_eq (hmax : maxOutput < 2 ^ 62) : twice maxOutput = 2 * maxOutput :=
  Nat.mod_eq_of_lt (by omega)

theorem length_absorb (hmax : maxOutput < 2 ^ 62) (output : List UInt8) (c : Chunk) :
    (absorb maxOutput output c).length ≤ 2 * maxOutput := by
  unfold absorb
  rw [twice_eq hmax]
  split
  · rw [length_keepTail]
    omega
  · omega

end Buffer

section Loop

variable {opts : ProcessOptions} {read : List UInt8} {s s' : LoopState}

/-- What holds between two rounds. -/
structure Buffered (opts : ProcessOptions) (read : List UInt8) (s : LoopState) : Prop where
  kept : TailKept opts.maxOutput read s.result.output
  bound : s.result.output.length ≤ 2 * opts.maxOutput

theorem Buffered.start (opts : ProcessOptions) : Buffered opts [] (.start opts) :=
  ⟨.nil opts.maxOutput, Nat.zero_le _⟩

/-- Only the output matters. -/
theorem Buffered.of_output (h : Buffered opts read s) (he : s'.result.output = s.result.output) :
    Buffered opts read s' := by
  refine ⟨?_, ?_⟩
  · rw [he]
    exact h.kept
  · rw [he]
    exact h.bound

/-- Feeding the child leaves its output alone. -/
theorem pollStdin_output (stdin : Option StdinEvent) (s : LoopState) :
    (pollStdin opts stdin s).result.output = s.result.output := by
  unfold pollStdin
  cases stdin with
  | none => rfl
  | some e =>
    show (if s.stdinOpen then feedStdin opts e s else s).result.output = s.result.output
    split
    · rfl
    · rfl

theorem Buffered.readOutput (hmax : opts.maxOutput < 2 ^ 62) (h : Buffered opts read s)
    (e : OutputEvent) :
    Buffered opts (read ++ e.bytes) (readOutput opts e s) := by
  cases e with
  | chunk c => exact ⟨h.kept.absorb c, length_absorb hmax s.result.output c⟩
  | closed =>
    rw [OutputEvent.bytes, List.append_nil]
    exact h.of_output rfl
  | interrupted =>
    rw [OutputEvent.bytes, List.append_nil]
    exact h
  | failed =>
    rw [OutputEvent.bytes, List.append_nil]
    exact h.of_output rfl

theorem Buffered.round (hmax : opts.maxOutput < 2 ^ 62) (h : Buffered opts read s) (r : Round) :
    Buffered opts (read ++ r.bytes opts) (round opts r s) := by
  unfold Round.bytes CapiNet.round
  by_cases hcancel : r.cancels opts
  · simp only [hcancel, Bool.true_or, ↓reduceIte, List.append_nil]
    exact h.of_output rfl
  by_cases hexpire : r.expires opts
  · simp only [hcancel, hexpire, Bool.or_true, Bool.false_eq_true, ↓reduceIte, List.append_nil]
    exact h.of_output rfl
  simp only [hcancel, hexpire, Bool.or_self, Bool.false_eq_true, ↓reduceIte]
  cases r.poll with
  | interrupted =>
    rw [List.append_nil]
    exact h
  | failed =>
    rw [List.append_nil]
    exact h.of_output rfl
  | ready stdin out =>
    have hfed : Buffered opts read (pollStdin opts stdin s) := h.of_output (pollStdin_output stdin s)
    cases out with
    | none =>
      show Buffered opts (read ++ []) (pollStdin opts stdin s)
      rw [List.append_nil]
      exact hfed
    | some e => exact hfed.readOutput hmax e

/-- The loop keeps the buffer an end of what was read. -/
theorem Buffered.runRounds (hmax : opts.maxOutput < 2 ^ 62) {rounds : List Round}
    (h : Buffered opts read s) (hrun : runRounds opts rounds s = some s') :
    Buffered opts (read ++ bytesRead opts rounds) s' := by
  induction rounds generalizing read s with
  | nil =>
    obtain rfl := Option.some.inj hrun
    rw [bytesRead, List.flatMap_nil, List.append_nil]
    exact h
  | cons r rest ih =>
    rw [CapiNet.runRounds] at hrun
    split at hrun
    next =>
      have hrest := ih (h.round hmax r) hrun
      rwa [List.append_assoc] at hrest
    next => exact absurd hrun (by simp)

end Loop

theorem runProcess_cases {opts : ProcessOptions} {rounds : List Round} {exit : Option Int}
    {result : ProcessResult} (h : runProcess opts rounds exit = some result) :
    ∃ s, runRounds opts rounds (.start opts) = some s ∧ s.running = false ∧
      result.output = if opts.maxOutput < s.result.output.length
        then keepTail opts.maxOutput s.result.output else s.result.output := by
  unfold runProcess at h
  cases hrun : runRounds opts rounds (.start opts) with
  | none =>
    rw [hrun] at h
    exact absurd h (by simp)
  | some s =>
    simp only [hrun] at h
    cases hrunning : s.running with
    | true =>
      rw [hrunning] at h
      exact absurd h (by simp)
    | false =>
      rw [hrunning] at h
      exact ⟨s, rfl, hrunning, by rw [← Option.some.inj h]⟩

theorem runProcess_output {opts : ProcessOptions} (hmax : opts.maxOutput < 2 ^ 62)
    {rounds : List Round} {exit : Option Int} {result : ProcessResult}
    (h : runProcess opts rounds exit = some result) :
    result.output = (bytesRead opts rounds).rtake opts.maxOutput := by
  obtain ⟨s, hrun, -, houtput⟩ := runProcess_cases h
  have hbuffered := (Buffered.start opts).runRounds hmax hrun
  rw [List.nil_append] at hbuffered
  rw [houtput]
  split
  next hlarge =>
    apply hbuffered.kept.keepTail.eq_rtake
    rw [length_keepTail]
    omega
  next hsmall => exact hbuffered.kept.eq_rtake (Nat.not_lt.mp hsmall)

/-- A round that only reads. -/
def Round.reads (c : Chunk) : Round := ⟨false, 1, .ready none (some (.chunk c))⟩

/-- A round that finds the output closed. -/
def Round.closes : Round := ⟨false, 1, .ready none (some .closed)⟩

theorem bytes_reads (opts : ProcessOptions) (c : Chunk) : (Round.reads c).bytes opts = c.bytes := by
  simp [Round.bytes, OutputEvent.bytes, Round.reads, Round.cancels, Round.expires]

theorem bytesRead_reads (opts : ProcessOptions) (chunks : List Chunk) :
    bytesRead opts (chunks.map Round.reads ++ [.closes]) = chunks.flatMap Chunk.bytes := by
  have hcloses : Round.closes.bytes opts = [] := by
    simp [Round.bytes, OutputEvent.bytes, Round.closes, Round.cancels, Round.expires]
  simp only [bytesRead, List.flatMap_append, List.flatMap_map, bytes_reads, List.flatMap_singleton,
    hcloses, List.append_nil]

/-- The loop ends when the output closes, whatever was read before. -/
theorem runRounds_reads (opts : ProcessOptions) (chunks : List Chunk) {s : LoopState}
    (hs : s.running = true) :
    ∃ s', runRounds opts (chunks.map Round.reads ++ [.closes]) s = some s' ∧
      s'.running = false := by
  induction chunks generalizing s with
  | nil =>
    have hclose : round opts .closes s = { s with running := false } := by
      simp [round, Round.closes, Round.cancels, Round.expires, pollStdin, readOutput]
    refine ⟨{ s with running := false }, ?_, rfl⟩
    simp only [List.map_nil, List.nil_append, runRounds, hs, ↓reduceIte, hclose]
  | cons c chunks ih =>
    have hread : (round opts (.reads c) s).running = true := by
      simp [round, Round.reads, Round.cancels, Round.expires, pollStdin, readOutput, hs]
    obtain ⟨s', hrun, hdone⟩ := ih hread
    refine ⟨s', ?_, hdone⟩
    rw [List.map_cons, List.cons_append, runRounds, if_pos hs]
    exact hrun

theorem runProcess_reads (opts : ProcessOptions) (chunks : List Chunk) (exit : Option Int) :
    ∃ result, runProcess opts (chunks.map Round.reads ++ [.closes]) exit = some result := by
  obtain ⟨s, hrun, hdone⟩ := runRounds_reads opts chunks (s := .start opts) rfl
  rw [runProcess, hrun]
  simp only [hdone, Bool.false_eq_true, ↓reduceIte]
  exact ⟨_, rfl⟩

/-- Between two rounds, and before the next bytes are cut, the buffer is an end of what was read
with all the result needs and no more than twice the limit and a read; the result is the exact end;
and reading any chunks to the close of the output gives a result. -/
theorem output_is_exact_tail (opts : ProcessOptions) (hmax : opts.maxOutput < 2 ^ 62)
    (exit : Option Int) :
    (∀ rounds s, runRounds opts rounds (.start opts) = some s →
      (TailKept opts.maxOutput (bytesRead opts rounds) s.result.output ∧
        s.result.output.length ≤ 2 * opts.maxOutput) ∧
      ∀ c : Chunk, TailKept opts.maxOutput (bytesRead opts rounds ++ c.bytes)
          (s.result.output ++ c.bytes) ∧
        (s.result.output ++ c.bytes).length ≤ 2 * opts.maxOutput + 8192) ∧
    (∀ rounds result, runProcess opts rounds exit = some result →
      result.output = (bytesRead opts rounds).rtake opts.maxOutput) ∧
    ∀ chunks : List Chunk, ∃ result,
      runProcess opts (chunks.map Round.reads ++ [.closes]) exit = some result ∧
        result.output = (chunks.flatMap Chunk.bytes).rtake opts.maxOutput := by
  refine ⟨?_, fun rounds result => runProcess_output hmax, ?_⟩
  · intro rounds s hrun
    have hbuffered := (Buffered.start opts).runRounds hmax hrun
    rw [List.nil_append] at hbuffered
    refine ⟨⟨hbuffered.kept, hbuffered.bound⟩, fun c => ⟨hbuffered.kept.append c.bytes, ?_⟩⟩
    have hfits := c.fits
    have hbound := hbuffered.bound
    rw [List.length_append]
    unfold readSize at hfits
    omega
  · intro chunks
    obtain ⟨result, hresult⟩ := runProcess_reads opts chunks exit
    refine ⟨result, hresult, ?_⟩
    rw [runProcess_output hmax hresult, bytesRead_reads]

/-- Two chunks, the second of which overflows a limit of two bytes. -/
theorem output_is_exact_tail_of_three : ∃ result,
    runProcess { maxOutput := 2 } [.reads ⟨[1, 2], by decide, by decide⟩,
      .reads ⟨[3, 4, 5], by decide, by decide⟩, .closes] (some 0) = some result ∧
      result.output = [4, 5] :=
  (output_is_exact_tail { maxOutput := 2 } (by decide) (some 0)).2.2
    [⟨[1, 2], by decide, by decide⟩, ⟨[3, 4, 5], by decide, by decide⟩]

end CapiNet
