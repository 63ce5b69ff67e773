import CapiNet.Topology
import CapiNet.Runner
import CapiNet.SpecFaithful

namespace CapiNet

/-- The slots of a client: `main` reads the core of each one. Without a value the read is past the
end. -/
def slotInfos (adm : Admission) (slots : Int) : Option (List SlotInfo) :=
  (List.range slots.toNat).mapM fun (i : Nat) =>
    if adm.cores.isEmpty then some ⟨(i : Int), none⟩
    else (adm.cores[i]?).map fun core => ⟨(i : Int), some core⟩

namespace Topology

/-- A request the machine can serve. -/
def Serves (t : Topology) (slots : Int) (requestedCores : Option (List Int)) : Prop :=
  1 ≤ slots ∧
    if t.pinningAvailable then
      match requestedCores with
      | some cores => cores.length = slots ∧ cores.Nodup ∧ cores ⊆ t.fastCores
      | none => slots ≤ t.fastCores.length
    else requestedCores = none ∧
      if t.heterogeneous then
        t.qosHintAvailable = true ∧ slots ≤ max 1 (t.fastCores.length - kQosHintReservedCores)
      else slots ≤ t.fastCores.length

/-- The requested cores, or the last fast ones. -/
def Chosen (t : Topology) (requestedCores : Option (List Int)) (cores : List Int) : Prop :=
  match requestedCores with
  | some requested => cores = requested
  | none => cores <:+ t.fastCores

/-- The cores an admission hands out: one for each slot on a machine that can pin. -/
def Assigned (t : Topology) (slots : Int) (requestedCores : Option (List Int)) (cores : List Int) :
    Prop :=
  if t.pinningAvailable then
    cores.length = slots ∧ cores.Nodup ∧ cores ⊆ t.fastCores ∧ t.Chosen requestedCores cores
  else cores = []

structure Contract (t : Topology) : Prop where
  sound : ∀ slots requestedCores a, decideAdmission t slots requestedCores = .ok a →
    t.Serves slots requestedCores ∧ t.Assigned slots requestedCores a.cores
  complete : ∀ slots requestedCores, t.Serves slots requestedCores →
    (decideAdmission t slots requestedCores).isOk = true
  monotone : ∀ n m, (decideAdmission t n none).isOk = true → 1 ≤ m → m ≤ n →
    (decideAdmission t m none).isOk = true
  inRange : ∀ slots requestedCores a, decideAdmission t slots requestedCores = .ok a →
    (slotInfos a slots).isSome = true

/-- The cores are `int`s. -/
def IntCores (t : Topology) : Prop := ∀ c ∈ t.fastCores, Json.IsInt32 c

variable {t : Topology} {slots : Int} {requestedCores : Option (List Int)}

theorem length_le_of_int {cores : List Int} (hn : cores.Nodup) (hi : ∀ c ∈ cores, Json.IsInt32 c) :
    cores.length ≤ 2 ^ 32 := by
  have hsub : cores.toFinset ⊆ Finset.Ico (-2 ^ 31 : Int) (2 ^ 31) := by
    intro c hc
    exact Finset.mem_Ico.mpr (hi c (List.mem_toFinset.mp hc))
  have hcard := Finset.card_le_card hsub
  rw [List.toFinset_card_of_nodup hn, Int.card_Ico] at hcard
  omega

theorem toInt32_length {n : Nat} (hn : n ≤ 2 ^ 32) :
    (n < 2 ^ 31 ∧ Json.toInt32 n = n) ∨ (2 ^ 31 ≤ n ∧ Json.toInt32 n ≤ 0) := by
  unfold Json.toInt32
  rw [Int.bmod_def]
  split <;> omega

/-- A positive number that the size of a list of distinct cores narrows to is that size. -/
theorem length_of_toInt32 {cores : List Int} (hn : cores.Nodup)
    (hi : ∀ c ∈ cores, Json.IsInt32 c) (hs : 1 ≤ slots) (h : Json.toInt32 cores.length = slots) :
    cores.length = slots := by
  rcases toInt32_length (length_le_of_int hn hi) with ⟨-, he⟩ | ⟨-, hneg⟩ <;> omega

/-- The cores a machine that can pin accepts. -/
theorem pinnedCores_isOk (requested : List Int) :
    (pinnedCores t slots (some requested)).isOk = true ↔
      Json.toInt32 requested.length = slots ∧ requested.Nodup ∧ requested ⊆ t.fastCores := by
  simp only [pinnedCores]
  split
  next c hc =>
    have hmem := List.mem_of_find?_eq_some hc
    have hno : c ∉ t.fastCores := by simpa using List.find?_some hc
    exact iff_of_false (by simp [Except.isOk, Except.toBool]) fun h => hno (h.2.2 hmem)
  next hfast =>
    have hsub : requested ⊆ t.fastCores := by
      intro c hc
      simpa using List.find?_eq_none.mp hfast c hc
    split
    next hbad =>
      refine iff_of_false (by simp [Except.isOk, Except.toBool]) fun h => ?_
      rcases hbad with hlen | hdup
      · exact hlen h.1
      · exact hdup (by rw [h.2.1.dedup])
    next hok =>
      simp only [not_or, not_not, ne_eq] at hok
      have hded : requested.dedup = requested :=
        (List.dedup_sublist requested).eq_of_length hok.2
      exact iff_of_true rfl ⟨hok.1, List.dedup_eq_self.mp hded, hsub⟩

theorem pinnedCores_choice {cores : List Int} (h : pinnedCores t slots requestedCores = .ok cores) :
    t.Chosen requestedCores cores := by
  cases requestedCores with
  | some requested =>
    simp only [pinnedCores, Chosen] at h ⊢
    split at h
    · cases h
    · split at h
      · cases h
      · exact (Except.ok.inj h).symm
  | none =>
    simp only [pinnedCores, Chosen] at h ⊢
    split at h
    · cases h
    · rw [← Except.ok.inj h]
      exact List.drop_suffix _ _

theorem admitted_slots {a : Admission} (h : decideAdmission t slots requestedCores = .ok a) :
    1 ≤ slots := by
  unfold decideAdmission at h
  split at h
  · cases h
  · omega

theorem admitted_pinned {a : Admission} (hp : t.pinningAvailable = true)
    (h : decideAdmission t slots requestedCores = .ok a) :
    pinnedCores t slots requestedCores = .ok a.cores := by
  unfold decideAdmission at h
  split at h
  · cases h
  · simp only [hp, Bool.not_true, Bool.false_eq_true, if_false] at h
    obtain ⟨cores, hcores, ha⟩ := bind_eq_ok.mp h
    cases ha
    exact hcores

theorem admitted_unpinned {a : Admission} (hp : t.pinningAvailable = false)
    (h : decideAdmission t slots requestedCores = .ok a) :
    requestedCores = none ∧
      if t.heterogeneous then t.qosHintAvailable = true ∧ slots ≤ t.maxSlots
      else slots ≤ t.fastCount := by
  have hnone : requestedCores = none := by
    unfold decideAdmission at h
    simp only [hp, Bool.not_false, if_true] at h
    split_ifs at h <;> simp_all
  subst hnone
  have hok : (decideAdmission t slots none).isOk = true := by
    rw [h]
    rfl
  have hmode := ((decideAdmission_isOk t slots).mp hok).2
  simpa [Topology.unpinnable, hp] using hmode

/-- What is admitted can be served, and gets the cores of its request. -/
theorem sound (hn : t.fastCores.Nodup) (hi : t.IntCores) {a : Admission}
    (h : decideAdmission t slots requestedCores = .ok a) :
    t.Serves slots requestedCores ∧ t.Assigned slots requestedCores a.cores := by
  have hs := admitted_slots h
  have hcores := admitted_cores h
  cases hp : t.pinningAvailable with
  | true =>
    rw [hp, if_pos rfl] at hcores
    obtain ⟨hsub, hlen, hnodup⟩ := hcores
    have hdistinct := hnodup hn
    have hlen : a.cores.length = slots :=
      length_of_toInt32 hdistinct (fun c hc => hi c (hsub hc)) hs hlen
    have hchoice := pinnedCores_choice (admitted_pinned hp h)
    refine ⟨⟨hs, ?_⟩, ?_⟩
    · rw [if_pos hp]
      cases requestedCores with
      | some requested =>
        rw [← hchoice]
        exact ⟨hlen, hdistinct, hsub⟩
      | none =>
        have hle := (List.IsSuffix.length_le hchoice)
        change slots ≤ t.fastCores.length
        omega
    · unfold Assigned
      rw [if_pos hp]
      exact ⟨hlen, hdistinct, hsub, hchoice⟩
  | false =>
    rw [hp] at hcores
    obtain ⟨hnone, hmode⟩ := admitted_unpinned hp h
    obtain ⟨hcount, -⟩ := toInt32_natCast t.fastCores.length
    refine ⟨⟨hs, ?_⟩, ?_⟩
    · rw [hp]
      refine ⟨hnone, ?_⟩
      cases hh : t.heterogeneous with
      | true =>
        rw [hh, if_pos rfl] at hmode
        refine ⟨hmode.1, ?_⟩
        have hmax := hmode.2
        unfold maxSlots fastCount at hmax
        omega
      | false =>
        rw [hh] at hmode
        exact le_trans hmode hcount
    · unfold Assigned
      rw [hp]
      exact hcores

theorem monotone {n m : Int} (h : (decideAdmission t n none).isOk = true) (hm : 1 ≤ m)
    (hle : m ≤ n) : (decideAdmission t m none).isOk = true := by
  obtain ⟨-, hmode⟩ := (decideAdmission_isOk t n).mp h
  refine (decideAdmission_isOk t m).mpr ⟨hm, ?_⟩
  split
  next hu =>
    rw [if_pos hu] at hmode
    exact ⟨hmode.1, hle.trans hmode.2⟩
  next hu =>
    rw [if_neg hu] at hmode
    exact hle.trans hmode

theorem mapM_isSome {α β : Type} {f : α → Option β} {xs : List α}
    (h : ∀ x ∈ xs, (f x).isSome = true) : (xs.mapM f).isSome = true := by
  induction xs with
  | nil => rfl
  | cons x xs ih =>
    obtain ⟨y, hy⟩ := Option.isSome_iff_exists.mp (h x (by simp))
    obtain ⟨ys, hys⟩ := Option.isSome_iff_exists.mp (ih fun z hz => h z (by simp [hz]))
    simp [List.mapM_cons, hy, hys]

/-- No read of `adm.cores` is past its end. -/
theorem slotInfos_isSome {a : Admission} (h : a.cores = [] ∨ a.cores.length = slots) :
    (slotInfos a slots).isSome = true := by
  refine mapM_isSome fun i hi => ?_
  rcases h with hempty | hlen
  · simp [hempty]
  · have hlt : i < a.cores.length := by
      have hi' := List.mem_range.mp hi
      omega
    split
    · rfl
    · simp [hlt]

/-- A machine whose fast cores are counted right accepts every request it can serve. -/
theorem complete (hlen : t.fastCores.length < 2 ^ 31) (h : t.Serves slots requestedCores) :
    (decideAdmission t slots requestedCores).isOk = true := by
  obtain ⟨hs, hmode⟩ := h
  have hcount : t.fastCount = t.fastCores.length := Json.toInt32_of_range (by omega) (by omega)
  cases hp : t.pinningAvailable with
  | false =>
    rw [hp] at hmode
    obtain ⟨rfl, hmode⟩ := hmode
    refine (decideAdmission_isOk t slots).mpr ⟨hs, ?_⟩
    cases hh : t.heterogeneous with
    | true =>
      rw [hh, if_pos rfl] at hmode
      simpa [unpinnable, hh, hp, maxSlots, hcount] using hmode
    | false =>
      rw [hh] at hmode
      simpa [unpinnable, hh, hcount] using hmode
  | true =>
    rw [if_pos hp] at hmode
    cases requestedCores with
    | none =>
      refine (decideAdmission_isOk t slots).mpr ⟨hs, ?_⟩
      simpa [unpinnable, hp, hcount] using hmode
    | some cores =>
      obtain ⟨hcores, hnodup, hsub⟩ := hmode
      have hle : cores.length ≤ t.fastCores.length :=
        (List.subperm_of_subset hnodup hsub).length_le
      have hint : Json.toInt32 cores.length = slots := by
        rw [Json.toInt32_of_range (by omega) (by omega), hcores]
      have hok : (pinnedCores t slots (some cores)).isOk = true :=
        (pinnedCores_isOk cores).mpr ⟨hint, hnodup, hsub⟩
      have hone : ¬slots < 1 := by omega
      cases hc : pinnedCores t slots (some cores) with
      | error e =>
        rw [hc] at hok
        cases hok
      | ok given => simp [decideAdmission, hone, hp, hc, Except.isOk, Except.toBool, bind, Except.bind,
          pure, Except.pure]

/-- The machine offers no mode at all. -/
def Refusing (t : Topology) : Prop :=
  t.pinningAvailable = false ∧ t.heterogeneous = true ∧ t.qosHintAvailable = false

/-- With more fast cores than an `int` counts, two slots are refused. -/
theorem miscounted (hn : t.fastCores.Nodup) (hi : t.IntCores) (hlen : 2 ^ 31 ≤ t.fastCores.length)
    (hmode : ¬t.Refusing) :
    t.Serves 2 none ∧ (decideAdmission t 2 none).isOk = false := by
  have hcount : t.fastCount ≤ 0 := by
    rcases toInt32_length (length_le_of_int hn hi) with ⟨hlt, -⟩ | ⟨-, hle⟩
    · omega
    · exact hle
  have hmax : t.maxSlots = 1 := by
    unfold maxSlots kQosHintReservedCores
    omega
  have hrefused : ¬(decideAdmission t 2 none).isOk = true := by
    intro hok
    obtain ⟨-, hok⟩ := (decideAdmission_isOk t 2).mp hok
    split at hok <;> omega
  refine ⟨⟨by omega, ?_⟩, by simpa using hrefused⟩
  cases hp : t.pinningAvailable with
  | true =>
    change (2 : Int) ≤ t.fastCores.length
    omega
  | false =>
    refine ⟨rfl, ?_⟩
    cases hh : t.heterogeneous with
    | true =>
      have hqos : t.qosHintAvailable = true := by
        by_contra hq
        exact hmode ⟨hp, hh, by simpa using hq⟩
      refine ⟨hqos, ?_⟩
      unfold kQosHintReservedCores
      omega
    | false =>
      change (2 : Int) ≤ t.fastCores.length
      omega

/-- Beyond the range of an `int` the contract would only be kept where nothing is admitted. -/
theorem contract_iff (t : Topology) (hn : t.fastCores.Nodup) (hi : t.IntCores) :
    t.Contract ↔ t.fastCores.length < 2 ^ 31 ∨ t.Refusing := by
  constructor
  · intro h
    by_contra hno
    rw [not_or, not_lt] at hno
    obtain ⟨hserves, hrefused⟩ := miscounted hn hi hno.1 hno.2
    have hok := h.complete 2 none hserves
    rw [hrefused] at hok
    cases hok
  · intro h
    refine ⟨fun slots req a ha => sound hn hi ha, fun slots req hserves => ?_,
      fun n m => monotone, fun slots req a ha => ?_⟩
    · rcases h with hlen | ⟨hp, hh, hq⟩
      · exact complete hlen hserves
      · obtain ⟨-, hmode⟩ := hserves
        simp [hp, hh, hq] at hmode
    · obtain ⟨-, hassigned⟩ := sound hn hi ha
      unfold Assigned at hassigned
      split at hassigned
      · exact slotInfos_isSome (.inr hassigned.1)
      · exact slotInfos_isSome (.inl hassigned)

theorem contract_of_int (t : Topology) (hn : t.fastCores.Nodup) (hi : t.IntCores)
    (hlen : t.fastCores.length < 2 ^ 31) : t.Contract :=
  (contract_iff t hn hi).mpr (.inl hlen)

theorem contract_of_int_twoFastCores : twoFastCores.Contract := by
  refine contract_of_int twoFastCores (by decide) (fun c hc => ?_) (by decide)
  simp only [twoFastCores, List.mem_cons, List.not_mem_nil, or_false] at hc
  unfold Json.IsInt32
  omega

end Topology

end CapiNet
