import CapiNet.Json
import Mathlib.Data.List.Dedup

namespace CapiNet

/-- The part of a machine's description that the admission reads. -/
structure Topology where
  nproc : Int
  heterogeneous : Bool
  pinningAvailable : Bool
  qosHintAvailable : Bool
  fastCores : List Int
  description : String

inductive PinningMode
  | pinned | homogeneousUnpinned | qosHint
  deriving DecidableEq

structure Admission where
  pinningMode : PinningMode
  cores : List Int
  coreTopology : String
  deriving DecidableEq

def kQosHintReservedCores : Int := 2

namespace Topology

/-- The number of fast cores as an `int`. -/
def fastCount (t : Topology) : Int := Json.toInt32 t.fastCores.length

/-- The most slots of the degraded mode. -/
def maxSlots (t : Topology) : Int := max 1 (t.fastCount - kQosHintReservedCores)

end Topology

def defaultSlots (t : Topology) : Int :=
  let slots := max 1 (t.nproc.tdiv 4)
  if t.heterogeneous && !t.pinningAvailable && t.qosHintAvailable then min slots t.maxSlots
  else slots

def listed (cores : List Int) : String := ",".intercalate (cores.map toString)

def noAffinity : String := "cores= exige afinidade de CPU, indisponível neste SO"

/-- The cores of a machine that can pin: the requested ones, or the last fast ones. -/
def pinnedCores (t : Topology) (slots : Int) : Option (List Int) → Except String (List Int)
  | some cores =>
    match cores.find? fun c => !t.fastCores.contains c with
    | some c =>
      .error ("núcleo " ++ toString c ++
        " não é um núcleo físico da classe mais rápida (disponíveis: " ++ listed t.fastCores ++ ")")
    | none =>
      if Json.toInt32 cores.length ≠ slots ∨ cores.dedup.length ≠ cores.length then
        .error ("cores= deve listar exatamente " ++ toString slots ++
          " núcleos distintos (um por slot)")
      else .ok cores
  | none =>
    if t.fastCount < slots then
      .error ("slots (" ++ toString slots ++ ") excede os " ++ toString t.fastCores.length ++
        " núcleos rápidos disponíveis (" ++ t.description ++ ")")
    else .ok (t.fastCores.drop (t.fastCores.length - slots.toNat))

def decideAdmission (t : Topology) (slots : Int) (requestedCores : Option (List Int)) :
    Except String Admission :=
  if slots < 1 then .error "slots deve ser >= 1"
  else if !t.pinningAvailable then
    if t.heterogeneous then
      if !t.qosHintAvailable then
        .error ("núcleos heterogêneos (" ++ t.description ++
          ") e o SO não permite fixar processos em núcleos: partidas migrariam entre núcleos " ++
          "rápidos e lentos no meio do jogo (plano §3.3). Este host não pode ser client.")
      else if requestedCores.isSome then .error noAffinity
      else if t.maxSlots < slots then
        .error ("modo degradado qos_hint: no máximo " ++ toString t.maxSlots ++ " slots em " ++
          t.description ++ " (núcleos rápidos − " ++ toString kQosHintReservedCores ++
          ", para o escalonador não precisar usar os núcleos lentos)")
      else
        .ok ⟨.qosHint, [], t.description ++ ", qos_hint (sem afinidade; " ++ toString slots ++
          " de no máx. " ++ toString t.maxSlots ++ " slots)"⟩
    else if requestedCores.isSome then .error noAffinity
    else if t.fastCount < slots then
      .error ("slots (" ++ toString slots ++ ") excede os " ++ toString t.fastCores.length ++
        " núcleos físicos")
    else .ok ⟨.homogeneousUnpinned, [], t.description ++ ", sem afinidade"⟩
  else do
    let cores ← pinnedCores t slots requestedCores
    return ⟨.pinned, cores, t.description ++ ", pinado em " ++ listed cores⟩

/-- The machine runs in the degraded mode, or not at all. -/
def Topology.unpinnable (t : Topology) : Bool := t.heterogeneous && !t.pinningAvailable

/-- Without requested cores, what is admitted is a number of slots within the limit of the mode. -/
theorem decideAdmission_isOk (t : Topology) (slots : Int) :
    (decideAdmission t slots none).isOk = true ↔ 1 ≤ slots ∧
      if t.unpinnable then t.qosHintAvailable = true ∧ slots ≤ t.maxSlots
      else slots ≤ t.fastCount := by
  unfold decideAdmission pinnedCores Topology.unpinnable
  by_cases hs : slots < 1
  · simp only [hs, if_true]
    simp [Except.isOk, Except.toBool]
    omega
  · have hone : 1 ≤ slots := by omega
    simp only [hs, if_false]
    cases t.pinningAvailable with
    | false =>
      cases t.heterogeneous with
      | false =>
        by_cases hf : t.fastCount < slots
        · simp [hf, Except.isOk, Except.toBool]
        · simp [hf, hone, Except.isOk, Except.toBool]; omega
      | true =>
        cases t.qosHintAvailable with
        | false => simp [Except.isOk, Except.toBool]
        | true =>
          by_cases hm : t.maxSlots < slots
          · simp [hm, Except.isOk, Except.toBool]
          · simp [hm, hone, Except.isOk, Except.toBool]; omega
    | true =>
      by_cases hf : t.fastCount < slots
      · simp [hf, Except.isOk, Except.toBool, bind, Except.bind]
      · simp [hf, hone, Except.isOk, Except.toBool, bind, Except.bind, pure, Except.pure]; omega

theorem toInt32_natCast (n : Nat) : Json.toInt32 n ≤ n ∧ Json.toInt32 n < 2 ^ 31 := by
  unfold Json.toInt32
  rw [Int.bmod_def]
  split <;> omega

/-- A pinned machine gets fast cores, one for each slot, and no core twice. -/
theorem pinnedCores_ok {t : Topology} {slots : Int} {requestedCores : Option (List Int)}
    {cores : List Int} (hs : 1 ≤ slots) (h : pinnedCores t slots requestedCores = .ok cores) :
    cores ⊆ t.fastCores ∧ Json.toInt32 cores.length = slots ∧
      (t.fastCores.Nodup → cores.Nodup) := by
  cases requestedCores with
  | some req =>
    simp only [pinnedCores] at h
    split at h
    · cases h
    next hfast =>
      split at h
      · cases h
      next hok =>
        cases h
        simp only [not_or, not_not, ne_eq] at hok
        refine ⟨fun c hc => ?_, hok.1, fun _ => ?_⟩
        · simpa using List.find?_eq_none.mp hfast c hc
        · have hded : cores.dedup = cores := (List.dedup_sublist cores).eq_of_length hok.2
          exact List.dedup_eq_self.mp hded
  | none =>
    simp only [pinnedCores] at h
    split at h
    · cases h
    next hle =>
      cases h
      obtain ⟨hcount, hint⟩ := toInt32_natCast t.fastCores.length
      have hfast : slots ≤ Json.toInt32 t.fastCores.length := not_lt.mp hle
      have hlen : (t.fastCores.drop (t.fastCores.length - slots.toNat)).length = slots.toNat := by
        rw [List.length_drop]
        omega
      refine ⟨List.drop_subset _ _, ?_, fun hn => hn.sublist (List.drop_sublist _ _)⟩
      rw [hlen, Int.toNat_of_nonneg (by omega)]
      exact Json.toInt32_of_range (by omega) (by omega)

/-- The cores of an admission are fast, distinct and one for each slot, or none without pinning. -/
theorem admitted_cores {t : Topology} {slots : Int} {requestedCores : Option (List Int)}
    {a : Admission} (h : decideAdmission t slots requestedCores = .ok a) :
    if t.pinningAvailable then a.cores ⊆ t.fastCores ∧ Json.toInt32 a.cores.length = slots ∧
      (t.fastCores.Nodup → a.cores.Nodup)
    else a.cores = [] := by
  unfold decideAdmission at h
  split at h
  · cases h
  next hs =>
    cases hp : t.pinningAvailable with
    | true =>
      simp only [hp, Bool.not_true, Bool.false_eq_true, if_false] at h
      cases hc : pinnedCores t slots requestedCores with
      | error e => rw [hc] at h; cases h
      | ok cores =>
        rw [hc] at h
        cases h
        exact pinnedCores_ok (by omega) hc
    | false =>
      simp only [hp, Bool.not_false, if_true] at h
      split_ifs at h <;> cases h <;> rfl

/-- On a machine that takes one slot, the default is admitted exactly when the machine is in the
degraded mode or a quarter of its processors is within its fast cores. -/
theorem default_slots_admitted_iff (t : Topology) (h : (decideAdmission t 1 none).isOk = true) :
    (decideAdmission t (defaultSlots t) none).isOk = true ↔
      t.unpinnable = true ∨ t.nproc.tdiv 4 ≤ t.fastCount := by
  rw [decideAdmission_isOk] at h ⊢
  obtain ⟨-, h⟩ := h
  unfold defaultSlots
  cases hu : t.unpinnable with
  | true =>
    rw [hu, if_pos rfl] at h
    have hmode : (t.heterogeneous && !t.pinningAvailable && t.qosHintAvailable) = true := by
      rw [← Topology.unpinnable, hu, h.1]
      rfl
    simp only [hmode, if_true, true_or, iff_true]
    exact ⟨le_min (le_max_left _ _) h.2, h.1, min_le_right _ _⟩
  | false =>
    rw [hu] at h
    have hmode : (t.heterogeneous && !t.pinningAvailable && t.qosHintAvailable) = false := by
      rw [← Topology.unpinnable, hu]
      rfl
    simp only [hmode, Bool.false_eq_true, if_false, false_or] at h ⊢
    omega

/-- Two fast cores among sixteen, on a system that pins. -/
def twoFastCores : Topology :=
  { nproc := 16, heterogeneous := true, pinningAvailable := true, qosHintAvailable := false
    fastCores := [0, 1], description := "2P+14E" }

theorem default_slots_admitted_iff_twoFastCores :
    (decideAdmission twoFastCores (defaultSlots twoFastCores) none).isOk = true ↔
      twoFastCores.unpinnable = true ∨ twoFastCores.nproc.tdiv 4 ≤ twoFastCores.fastCount :=
  default_slots_admitted_iff twoFastCores (by decide)

/-- Four slots by default on a machine with two fast cores. -/
theorem default_slots_not_admitted :
    ¬∀ t : Topology, (decideAdmission t 1 none).isOk = true →
      (decideAdmission t (defaultSlots t) none).isOk = true := by
  intro hall
  have hok := hall twoFastCores (by decide)
  exact absurd hok (by decide)

end CapiNet
