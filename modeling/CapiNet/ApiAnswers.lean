import CapiNet.Api

namespace CapiNet

open Routes

/-- The integers of a `BIGINT`. -/
def Json.IsInt64 (n : Int) : Prop := -2 ^ 63 ≤ n ∧ n < 2 ^ 63

theorem Json.toInt64_eq_self {n : Int} (h : IsInt64 n) : toInt64 n = n := toInt64_of_range h.1 h.2

/-- What a client is told of a pair. -/
def ClaimedPair.toApi (p : ClaimedPair) : Api.ClaimedPair := ⟨p.pairId, p.positionSeq, p.fen⟩

/-- What a client is told of a test. -/
def TestRow.toApi (cfg : Config) (t : TestRow) : Api.ActiveTest where
  testId := t.id
  kind := t.kind.text
  candidateCommit := t.candidateCommit
  baselineCommit := t.baselineCommit
  candidateTarballUrl := tarballUrl cfg t.candidateCommit
  baselineTarballUrl := tarballUrl cfg t.baselineCommit
  tcBaseMs := t.tcBaseMs
  tcIncrementMs := t.tcIncrementMs
  hashMb := t.hashMb
  threads := defaultThreads
  adjudication := defaultAdjudication

/-- The answers to a claim a client tells apart. An unknown client is none of them. -/
def ClaimResult.toApi (r : ClaimResult) : Except Api.Error Api.ClaimResult :=
  match r.status with
  | .ok => .ok { testId := r.testId, pairs := r.pairs.map ClaimedPair.toApi }
  | .noActiveTest => .ok { status := .noActiveTest }
  | .banned => .ok { status := .banned }
  | .unknownClient => .error .protocol

def SubmitStatus.toApi : SubmitStatus → Except Api.Error Api.SubmitStatus
  | .accepted => .ok .accepted
  | .alreadyCompleted => .ok .alreadyCompleted
  | .leaseLost => .ok .leaseLost
  | .testFinished => .ok .testFinished
  | .clientBanned => .ok .clientBanned
  | .pairNotFound => .error .protocol
  | .unknownClient => .error .protocol

/-- The columns of a test that cross the API fit their types. -/
structure TestRow.Sendable (t : TestRow) : Prop where
  id : Json.IsInt64 t.id
  tcBaseMs : Json.IsInt32 t.tcBaseMs
  tcIncrementMs : Json.IsInt32 t.tcIncrementMs
  hashMb : Json.IsInt32 t.hashMb

def ClaimedPair.Sendable (p : ClaimedPair) : Prop :=
  Json.IsInt64 p.pairId ∧ Json.IsInt32 p.positionSeq

namespace Api

theorem mapM_claimedPair {cfg : Config} {ps : List CapiNet.ClaimedPair} (h : ∀ p ∈ ps, p.Sendable) :
    (ps.map (claimedPairJson cfg)).mapM claimedPair = .ok (ps.map ClaimedPair.toApi) := by
  induction ps with
  | nil => rfl
  | cons p ps ih =>
    obtain ⟨hid, hseq⟩ := h p (by simp)
    have hp : claimedPair (claimedPairJson cfg p) = .ok p.toApi := by
      have hread : claimedPair (claimedPairJson cfg p) =
          .ok ⟨Json.toInt64 p.pairId, Json.toInt32 p.positionSeq, p.fen⟩ := rfl
      rw [hread, Json.toInt64_eq_self hid, Json.toInt32_eq_self.mpr hseq]
      rfl
    rw [List.map_cons, List.mapM_cons, hp, ih fun q hq => h q (by simp [hq])]
    rfl

theorem claim_response {cfg : Config} {r : CapiNet.ClaimResult} (hid : Json.IsInt64 r.testId)
    (hp : ∀ p ∈ r.pairs, p.Sendable) : claim (some (claimResponse cfg r)) = r.toApi := by
  obtain ⟨status, testId, pairs⟩ := r
  cases status with
  | ok =>
    have hread : claim (some (claimResponse cfg ⟨.ok, testId, pairs⟩)) =
        ((pairs.map (claimedPairJson cfg)).mapM claimedPair).bind fun ps =>
          .ok { testId := Json.toInt64 testId, pairs := ps } := rfl
    rw [hread, mapM_claimedPair hp, Json.toInt64_eq_self hid]
    rfl
  | _ => rfl

theorem submit_response (r : SubmitResult) : submit (some (submitResponse r)) = r.status.toApi := by
  obtain ⟨status, valid⟩ := r
  cases status <;> rfl

theorem activeTest_response {cfg : Config} {r : Option TestRow} (h : ∀ t, r = some t → t.Sendable) :
    activeTest (some (activeTestResponse cfg r)) = .ok (r.map (TestRow.toApi cfg)) := by
  cases r with
  | none => rfl
  | some t =>
    obtain ⟨hid, hbase, hinc, hhash⟩ := h t rfl
    have hread : activeTest (some (activeTestResponse cfg (some t))) = .ok (some
        { TestRow.toApi cfg t with
          testId := Json.toInt64 t.id, tcBaseMs := Json.toInt32 t.tcBaseMs
          tcIncrementMs := Json.toInt32 t.tcIncrementMs, hashMb := Json.toInt32 t.hashMb }) := rfl
    rw [hread, Json.toInt64_eq_self hid, Json.toInt32_eq_self.mpr hbase,
      Json.toInt32_eq_self.mpr hinc, Json.toInt32_eq_self.mpr hhash]
    rfl

end Api

end CapiNet
