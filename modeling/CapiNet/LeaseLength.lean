import CapiNet.LeaseExclusive
import CapiNet.Runner
import CapiNet.SprtRegion
import CapiNet.TestRows

namespace CapiNet

open Relational

theorem toInt32_le {n : Int} (h : 0 ≤ n) : Json.toInt32 n ≤ n := by
  unfold Json.toInt32
  rw [Int.bmod_def]
  split <;> omega

theorem roundAway_le {q : ℚ} (h : 0 ≤ q) : (roundAway q : ℚ) ≤ q + 1 / 2 := by
  rw [roundAway, if_pos h]
  exact Int.floor_le _

theorem roundAway_nonneg {q : ℚ} (h : 0 ≤ q) : 0 ≤ roundAway q := by
  rw [roundAway, if_pos h]
  exact Int.floor_nonneg.mpr (by linarith)

/-- A duration is rounded, or too long for the range. -/
theorem llround_cases (q : ℚ) :
    (llround q = roundAway q ∧ roundAway q < 2 ^ 63) ∨ llround q = -2 ^ 63 := by
  dsimp only [llround]
  split
  next h => exact .inl ⟨rfl, h.2⟩
  next => exact .inr rfl

theorem toInt32_out_of_range : Json.toInt32 (-2 ^ 63) = 0 := by decide

/-- Narrowing takes a rounded duration nowhere but down. -/
theorem toInt32_llround_le {q : ℚ} (h : 0 ≤ q) : (Json.toInt32 (llround q) : ℚ) ≤ q + 1 / 2 := by
  rcases llround_cases q with ⟨hround, -⟩ | hout
  · have hnarrow : (Json.toInt32 (roundAway q) : ℚ) ≤ roundAway q := by
      exact_mod_cast toInt32_le (roundAway_nonneg h)
    rw [hround]
    exact hnarrow.trans (roundAway_le h)
  · rw [hout, toInt32_out_of_range]
    push_cast
    linarith

theorem strtod_nonneg {cs : List Char} {v : ℚ} (h : strtod cs = some v) : 0 ≤ v := by
  dsimp only [strtod] at h
  split at h
  · split at h
    · cases h
    · cases h; positivity
  · split at h
    · cases h; positivity
    · cases h

theorem parseSeconds_nonneg {s : List Char} {tc : String} {v : ℚ}
    (h : parseSeconds s tc = .ok v) : 0 ≤ v := by
  unfold parseSeconds at h
  split at h
  · cases h
  · split at h
    · cases h
    · split at h
      · cases h
      next v' hv =>
        split at h
        · cases h
        · cases h; exact strtod_nonneg hv

/-- An increment past every range comes back as no increment at all. -/
theorem toInt32_llround_range {q : ℚ} {b : Int} (hq : 0 ≤ q) (hb : 0 ≤ b) (hb' : b < 2 ^ 31)
    (h : llround q ≤ b) : 0 ≤ Json.toInt32 (llround q) ∧ Json.toInt32 (llround q) ≤ b := by
  have hround := roundAway_nonneg hq
  rcases llround_cases q with ⟨he, -⟩ | hout
  · rw [he] at h ⊢
    rw [Json.toInt32_of_range (by omega) (by omega)]
    exact ⟨hround, h⟩
  · rw [hout, toInt32_out_of_range]
    omega

/-- The tail of `parseTc`, from the two numbers of seconds. -/
theorem tc_range {base inc : ℚ} {s : String} {tc : TimeControl} (hi : 0 ≤ inc)
    (h : (if llround (base * 1000) ≤ 0 then .error ("tc base must be positive: " ++ s)
      else if 24 * 3600 * 1000 < llround (base * 1000) ∨ 3600 * 1000 < llround (inc * 1000) then
        .error ("tc out of range: " ++ s)
      else .ok ⟨Json.toInt32 (llround (base * 1000)), Json.toInt32 (llround (inc * 1000))⟩ :
      Except String TimeControl) = .ok tc) :
    (0 < tc.baseMs ∧ tc.baseMs ≤ 86400000) ∧ (0 ≤ tc.incrementMs ∧ tc.incrementMs ≤ 3600000) := by
  split at h
  · cases h
  next hpos =>
    split at h
    · cases h
    next hrange =>
      cases h
      have hbase : Json.toInt32 (llround (base * 1000)) = llround (base * 1000) :=
        Json.toInt32_of_range (by omega) (by omega)
      have hinc := toInt32_llround_range (q := inc * 1000) (b := 3600000) (by positivity)
        (by norm_num) (by norm_num) (by omega)
      dsimp only
      rw [hbase]
      exact ⟨by omega, hinc⟩

/-- Inversion of `parseTc`: both durations are in range. -/
theorem parseTc_range {s : String} {tc : TimeControl} (h : parseTc s = .ok tc) :
    (0 < tc.baseMs ∧ tc.baseMs ≤ 86400000) ∧ (0 ≤ tc.incrementMs ∧ tc.incrementMs ≤ 3600000) := by
  obtain ⟨base, -, h⟩ := bind_eq_ok.mp h
  dsimp only at h
  split at h
  · exact tc_range (le_refl 0) h
  · obtain ⟨inc, hinc, h⟩ := bind_eq_ok.mp h
    exact tc_range (parseSeconds_nonneg hinc) h

/-- `max(600 s, 24 (base + 60 inc))` against `4 (base + 200 inc) + 240 s`, with the rounding. -/
theorem lease_margin {ttl x y b i : ℚ} (httl : 600 ≤ ttl) (hx : 0 ≤ x)
    (hb : b ≤ x + 1 / 2) (hi : i ≤ y + 1 / 2) :
    4 * (b + 200 * i) + 120000 + 120000 < max ttl (6 * (4 * (x + 60 * y)) / 1000) * 1000 := by
  rcases le_total 600000 (6 * (4 * (x + 60 * y))) with h | h
  · have hlong := le_max_right ttl (6 * (4 * (x + 60 * y)) / 1000)
    linarith
  · have hshort := le_max_left ttl (6 * (4 * (x + 60 * y)) / 1000)
    linarith

/-- In every accepted time control the lease of a claim leaves the client more than two minutes
after it has given up the game, and its length does not overflow. -/
theorem lease_outlasts_game (cfg : ServerConfig) (s : String) (tc : TimeControl) (t : TestRow)
    (c : ClientRow) (f : Double) (httl : 600 ≤ cfg.leaseTtlMin) (htc : parseTc s = .ok tc)
    (ht : t.tcBaseMs = tc.baseMs ∧ t.tcIncrementMs = tc.incrementMs)
    (hc : c.cpuFactor = some f) (hf : 0 < f.val) :
    fastchessTimeoutMs (effectiveTc tc f) + 120000 < leaseSeconds cfg t c * 1000 ∧
      (0 ≤ 60 * t.tcIncrementMs ∧ 60 * t.tcIncrementMs ≤ Json.int32Max) ∧
      (0 ≤ t.tcBaseMs + 60 * t.tcIncrementMs ∧
        t.tcBaseMs + 60 * t.tcIncrementMs ≤ Json.int32Max) := by
  obtain ⟨⟨hbase, hbase'⟩, hinc, hinc'⟩ := parseTc_range htc
  have hx : 0 ≤ tc.baseMs * f.val := mul_nonneg (by exact_mod_cast hbase.le) hf.le
  have hy : 0 ≤ tc.incrementMs * f.val := mul_nonneg (by exact_mod_cast hinc) hf.le
  have hmargin := lease_margin httl hx (toInt32_llround_le hx) (toInt32_llround_le hy)
  have hlease : 6 * (4 * ((t.tcBaseMs : ℚ) + 60 * t.tcIncrementMs)) * f.val / 1000 =
      6 * (4 * (tc.baseMs * f.val + 60 * (tc.incrementMs * f.val))) / 1000 := by
    rw [ht.1, ht.2]
    ring
  refine ⟨?_, ?_, ?_⟩
  · unfold fastchessTimeoutMs effectiveTc leaseSeconds
    simp only [hc, Option.elim_some, hlease]
    push_cast
    exact hmargin
  · unfold Json.int32Max
    omega
  · unfold Json.int32Max
    omega

/-- Ten seconds and one more for each move, on a machine with the speed of the reference. -/
theorem lease_outlasts_short_game :
    ∃ spec, parseTestSpec (gauntletBody 1) {} = .ok spec ∧
      fastchessTimeoutMs (effectiveTc ⟨10000, 1000⟩ (.ofInt 1)) + 120000 <
        leaseSeconds {} (testRow 0 spec "a" "b" 1) ⟨1, "client", 1, some (.ofInt 1), .active⟩ *
          1000 := by
  have hc : (parseTestSpec (gauntletBody 1) {}).toOption.any
      (fun s => s.tcBaseMs == 10000 && s.tcIncrementMs == 1000) = true := by decide +kernel
  obtain ⟨spec, hs, hp⟩ := accepted_of_check hc
  simp only [Bool.and_eq_true, beq_iff_eq] at hp
  exact ⟨spec, hs, (lease_outlasts_game {} "10+1" ⟨10000, 1000⟩ (testRow 0 spec "a" "b" 1) _
    (.ofInt 1) (by norm_num) (by decide +kernel) hp rfl (by decide +kernel)).1⟩

/-- The time control of a test is one that `parse_tc` accepts. -/
def TestRow.AcceptedTc (t : TestRow) : Prop :=
  ∃ s, parseTc s = .ok ⟨t.tcBaseMs, t.tcIncrementMs⟩

theorem run_acceptedTc {F : Type} [LinearOrder F] (E : Env F) (ops : List Op) :
    (Server.run E ops).db.TestsAll TestRow.AcceptedTc := by
  refine run_testsAll ⟨fun _ _ h => h, fun _ _ _ h => h, fun _ _ h => h, fun _ _ _ h => h⟩ ?_ ops
    fun _ _ _ _ _ _ h => h
  intro body s now cc bc id hs
  obtain ⟨tc, -, htc⟩ := (parseTestSpec_iff.mp hs).tc
  exact ⟨tc, htc⟩

/-- A pair that a claim delivers in a run is leased to its client for longer than the game. -/
theorem delivered_lease_outlasts_game {F : Type} [LinearOrder F] (E : Env F)
    (httl : 600 ≤ E.cfg.leaseTtlMin) (ops : List Op) (op : Op) {clientId slotsFree i : Int}
    (hact : op.act = .call (.claim clientId slotsFree))
    (hd : i ∈ (Server.run E ops).delivered E op) :
    ∃ t c p e, (Server.run E ops).db.runningTest = some t ∧
      (Server.run E ops).db.clients.find clientId = some c ∧
      (Server.run E (ops ++ [op])).db.jobPairs.find i = some p ∧ p.leaseExpiresAt = some e ∧
      ∀ f, c.cpuFactor = some f → 0 < f.val →
        fastchessTimeoutMs (effectiveTc ⟨t.tcBaseMs, t.tcIncrementMs⟩ f) + 120000 <
          (e - op.now) * 1000 := by
  have hpos := run_positioned E (ops ++ [op])
  have htcs := run_acceptedTc E ops
  obtain ⟨r, hr, hcl⟩ := Server.step_claim E (Server.run E ops) op hact
  have hdel : (Server.run E ops).delivered E op = r.pairs.map (·.pairId) := by
    simp [Server.delivered, hr]
  rw [Server.run_snoc] at hpos ⊢
  rw [hdel] at hd
  generalize (Server.step E (Server.run E ops) op).db = db' at hcl hpos ⊢
  cases hcl with
  | answered _ _ hnil => simp [hnil] at hd
  | leased t c picked _ _ ht hc hpick hdb hpairs =>
    rw [hpairs, Db.mem_claimed hpos] at hd
    obtain ⟨hmem, p, hp⟩ := hd
    have hclient : (Server.run E ops).db.clients.find clientId = some c :=
      (Option.filter_eq_some_iff.mp hc).1
    have hrow : t ∈ (Server.run E ops).db.tests.rows := List.mem_of_find?_eq_some ht
    rw [hdb, Db.leaseTo, Db.find_updatePairs] at hp
    obtain ⟨q, hq, rfl⟩ := Option.map_eq_some_iff.mp hp
    have hid := (Table.find_some hq).2
    refine ⟨t, c, _, op.now + leaseSeconds E.cfg t c, ht, hclient,
      by rw [hdb, Db.leaseTo, Db.find_updatePairs, hq]; rfl, by simp [hid, hmem, PairRow.lease], ?_⟩
    intro f hf hpos'
    obtain ⟨s, hs⟩ := htcs t hrow
    rw [add_sub_cancel_left]
    exact (lease_outlasts_game E.cfg s _ t c f httl hs ⟨rfl, rfl⟩ hf hpos').1

end CapiNet
