import Mathlib.Data.Finset.Card
import Mathlib.Data.Finset.Prod
import Mathlib.Algebra.BigOperators.Group.Finset.Sigma
import Mathlib.Algebra.BigOperators.Ring.Finset
import Mathlib.Data.Nat.Factorial.Basic
import Mathlib.Data.List.Nodup
import Mathlib.Order.Interval.Finset.Nat
import Mathlib.Algebra.Group.Action.Defs

namespace AlgorithmR

open Finset

/-- The positions in the reservoir after the choices for the items past the first `k`. -/
def contents (k : Nat) (cs : List Nat) : List Nat :=
  cs.zipIdx.foldl (fun s c => if c.1 < k then s.set c.1 (k + c.2) else s) (List.range k)

/-- The sequences of `m` choices: the one for item `i` is at most `i`. -/
def choices (k : Nat) : Nat → Finset (List Nat)
  | 0 => {[]}
  | m + 1 => (choices k m ×ˢ range (k + m + 1)).image fun p => p.1 ++ [p.2]

variable {k m : Nat} {cs : List Nat}

theorem contents_nil : contents k [] = List.range k := rfl

theorem contents_snoc (cs : List Nat) (j : Nat) : contents k (cs ++ [j]) =
    if j < k then (contents k cs).set j (k + cs.length) else contents k cs := by
  unfold contents
  rw [List.zipIdx_append, List.foldl_append]
  simp

theorem length_contents (cs : List Nat) : (contents k cs).length = k := by
  induction cs using List.reverseRecOn with
  | nil => exact List.length_range
  | append_singleton cs j ih =>
    rw [contents_snoc]
    split
    · rw [List.length_set, ih]
    · exact ih

theorem mem_set_iff {l : List Nat} (hl : l.Nodup) {j n x : Nat} (hj : j < l.length) :
    x ∈ l.set j n ↔ x = n ∨ x ∈ l ∧ x ≠ l[j] := by
  constructor
  · intro hx
    obtain ⟨i, hi, rfl⟩ := List.getElem_of_mem hx
    rw [List.length_set] at hi
    rw [List.getElem_set]
    split
    next => exact .inl rfl
    next hne =>
      refine .inr ⟨List.getElem_mem hi, fun he => hne ?_⟩
      exact ((List.Nodup.getElem_inj_iff hl).mp he).symm
  · rintro (rfl | ⟨hx, hne⟩)
    · exact List.mem_set hj _
    · obtain ⟨i, hi, rfl⟩ := List.getElem_of_mem hx
      have hij : j ≠ i := fun he => hne (by simp [he])
      have hset : (l.set j n)[i]? = some l[i] := by
        rw [List.getElem?_set_ne hij, List.getElem?_eq_getElem hi]
      exact List.mem_of_getElem? hset

theorem contents_lt (cs : List Nat) : ∀ x ∈ contents k cs, x < k + cs.length := by
  induction cs using List.reverseRecOn with
  | nil =>
    intro x hx
    simpa [contents_nil] using hx
  | append_singleton cs j ih =>
    intro x hx
    rw [contents_snoc] at hx
    rw [List.length_append, List.length_singleton]
    split at hx
    · rcases List.mem_or_eq_of_mem_set hx with hx | rfl
      · have hlt := ih x hx
        omega
      · omega
    · have hlt := ih x hx
      omega

theorem nodup_contents (cs : List Nat) : (contents k cs).Nodup := by
  induction cs using List.reverseRecOn with
  | nil => exact List.nodup_range
  | append_singleton cs j ih =>
    rw [contents_snoc]
    split
    · refine ih.set fun hmem => ?_
      have hlt := contents_lt cs _ hmem
      omega
    · exact ih

theorem mem_choices : cs ∈ choices k m ↔ cs.length = m ∧ ∀ i (h : i < cs.length), cs[i] ≤ k + i := by
  induction m generalizing cs with
  | zero => simp +contextual [choices, List.length_eq_zero_iff]
  | succ m ih =>
    constructor
    · intro h
      obtain ⟨⟨ds, j⟩, hp, rfl⟩ := Finset.mem_image.mp h
      obtain ⟨hds, hj⟩ := Finset.mem_product.mp hp
      obtain ⟨hlen, hle⟩ := ih.mp hds
      rw [Finset.mem_range] at hj
      dsimp only at hlen hle hj ⊢
      refine ⟨by simp [hlen], fun i hi => ?_⟩
      rw [List.getElem_append]
      split
      next hlt => exact hle i hlt
      next hge =>
        rw [List.length_append, List.length_singleton] at hi
        simp only [List.getElem_singleton]
        omega
    · rintro ⟨hlen, hle⟩
      have hne : cs ≠ [] := by
        rintro rfl
        simp at hlen
      have hlast := hle m (by omega)
      refine Finset.mem_image.mpr ⟨(cs.dropLast, cs.getLast hne), ?_, List.dropLast_append_getLast hne⟩
      refine Finset.mem_product.mpr ⟨ih.mpr ⟨by simp [hlen], fun i hi => ?_⟩, ?_⟩
      · rw [List.getElem_dropLast]
        exact hle i _
      · have hidx : cs.getLast hne = cs[m] := by
          rw [List.getLast_eq_getElem]
          congr 1
          omega
        rw [Finset.mem_range, hidx]
        omega

/-- The last choice is counted for each sequence of the others. -/
theorem card_choices_succ (P : List Nat → Prop) [DecidablePred P] :
    ((choices k (m + 1)).filter P).card =
      ∑ cs ∈ choices k m, ((range (k + m + 1)).filter fun j => P (cs ++ [j])).card := by
  have hinj : Function.Injective fun p : List Nat × Nat => p.1 ++ [p.2] := by
    rintro ⟨cs, i⟩ ⟨ds, j⟩ h
    obtain ⟨hcs, hij⟩ := List.append_inj' h rfl
    simp only [List.cons.injEq, and_true] at hij
    exact Prod.ext hcs hij
  rw [choices, Finset.filter_image, Finset.card_image_of_injective _ hinj, Finset.card_filter,
    Finset.sum_product]
  exact Finset.sum_congr rfl fun cs _ => (Finset.card_filter _ _).symm

/-- The sequences that leave a given set in the reservoir. -/
def leaving (k m : Nat) (S : Finset Nat) : Finset (List Nat) :=
  (choices k m).filter fun cs => (contents k cs).toFinset = S

theorem toFinset_set {l : List Nat} (hl : l.Nodup) {j n : Nat} (hj : j < l.length) :
    (l.set j n).toFinset = insert n (l.toFinset.erase l[j]) := by
  ext x
  rw [List.mem_toFinset, mem_set_iff hl hj, Finset.mem_insert, Finset.mem_erase, List.mem_toFinset]
  tauto

/-- An item that is kept took the place of exactly one other. -/
theorem card_replaced {l : List Nat} (hl : l.Nodup) {n : Nat} (hlt : ∀ x ∈ l, x < n)
    {S : Finset Nat} (hn : n ∈ S) (hk : l.length = k) (hkn : k ≤ n) :
    ((range (n + 1)).filter fun j => (if j < k then l.set j n else l).toFinset = S).card =
      ((range n \ S.erase n).filter fun x => l.toFinset = insert x (S.erase n)).card := by
  have hnl : n ∉ l := fun h => absurd (hlt n h) (by omega)
  have hfresh : ∀ x, n ∉ l.toFinset.erase x := fun x h =>
    hnl (List.mem_toFinset.mp (Finset.mem_of_mem_erase h))
  have hplace : ∀ j ∈ (range (n + 1)).filter fun j =>
      (if j < k then l.set j n else l).toFinset = S,
      ∃ h : j < l.length, S.erase n = l.toFinset.erase l[j] := by
    intro j hj
    obtain ⟨-, hS⟩ := Finset.mem_filter.mp hj
    by_cases hjk : j < k
    · have hjl : j < l.length := by omega
      rw [if_pos hjk, toFinset_set hl hjl] at hS
      exact ⟨hjl, by rw [← hS, Finset.erase_insert (hfresh _)]⟩
    · rw [if_neg hjk] at hS
      exact absurd (List.mem_toFinset.mp (hS ▸ hn)) hnl
  refine Finset.card_bij (fun j _ => l.getD j 0) ?_ ?_ ?_
  · intro j hj
    obtain ⟨hjl, herase⟩ := hplace j hj
    have hget : l.getD j 0 = l[j] := by simp [List.getD, hjl]
    have hmem : l[j] ∈ l := List.getElem_mem hjl
    rw [hget, herase]
    refine Finset.mem_filter.mpr ⟨Finset.mem_sdiff.mpr ⟨?_, Finset.notMem_erase _ _⟩, ?_⟩
    · exact Finset.mem_range.mpr (hlt _ hmem)
    · rw [Finset.insert_erase (List.mem_toFinset.mpr hmem)]
  · intro i hi j hj he
    obtain ⟨hil, -⟩ := hplace i hi
    obtain ⟨hjl, -⟩ := hplace j hj
    have hsame : l[i] = l[j] := by simpa [List.getD, hil, hjl] using he
    exact (List.Nodup.getElem_inj_iff hl).mp hsame
  · intro x hx
    obtain ⟨hx, hS⟩ := Finset.mem_filter.mp hx
    have hmem : x ∈ l := by
      rw [← List.mem_toFinset, hS]
      exact Finset.mem_insert_self _ _
    obtain ⟨j, hj, rfl⟩ := List.getElem_of_mem hmem
    refine ⟨j, Finset.mem_filter.mpr ⟨Finset.mem_range.mpr (by omega), ?_⟩, by simp [List.getD, hj]⟩
    rw [if_pos (by omega), toFinset_set hl hj, hS,
      Finset.erase_insert (Finset.mem_sdiff.mp hx).2, Finset.insert_erase hn]

/-- An item that is not kept chose no place. -/
theorem card_passed {l : List Nat} {n : Nat} {S : Finset Nat} (hn : n ∉ S) (hk : l.length = k) :
    ((range (n + 1)).filter fun j => (if j < k then l.set j n else l).toFinset = S).card =
      if l.toFinset = S then n + 1 - k else 0 := by
  have hpassed : ∀ j, (if j < k then l.set j n else l).toFinset = S ↔ l.toFinset = S ∧ k ≤ j := by
    intro j
    by_cases hj : j < k
    · rw [if_pos hj]
      refine iff_of_false (fun hS => hn ?_) fun h => by omega
      rw [← hS, List.mem_toFinset]
      exact List.mem_set (by omega) _
    · rw [if_neg hj]
      exact ⟨fun h => ⟨h, by omega⟩, fun h => h.1⟩
  simp only [hpassed]
  split
  next hS =>
    have hrange : (range (n + 1)).filter (fun j => l.toFinset = S ∧ k ≤ j) = Finset.Ico k (n + 1) := by
      ext j
      simp only [Finset.mem_filter, Finset.mem_range, Finset.mem_Ico, hS, true_and]
      omega
    rw [hrange, Nat.card_Ico]
  next hS => simp [hS]

theorem leaving_zero {S : Finset Nat} (hS : S ⊆ range k) (hc : S.card = k) :
    (leaving k 0 S).card = 1 := by
  have hall : S = range k := Finset.eq_of_subset_of_card_le hS (by rw [hc, Finset.card_range])
  have hfilter : leaving k 0 S = {[]} := by
    ext cs
    simp only [leaving, choices, Finset.mem_filter, Finset.mem_singleton, and_iff_left_iff_imp]
    rintro rfl
    ext x
    rw [contents_nil, hall, List.mem_toFinset, List.mem_range, Finset.mem_range]
  rw [hfilter, Finset.card_singleton]

/-- Every set of `k` of the `k + m` items is left by the same number of sequences of choices. -/
theorem card_leaving {S : Finset Nat} (hS : S ⊆ range (k + m)) (hc : S.card = k) :
    (leaving k m S).card = m.factorial := by
  induction m generalizing S with
  | zero => exact leaving_zero hS hc
  | succ m ih =>
    have hlen : ∀ cs ∈ choices k m, cs.length = m := fun cs hcs => (mem_choices.mp hcs).1
    have hstep : (leaving k (m + 1) S).card = ∑ cs ∈ choices k m, ((range (k + m + 1)).filter
        fun j => (if j < k then (contents k cs).set j (k + m) else contents k cs).toFinset = S).card := by
      rw [leaving, card_choices_succ]
      refine Finset.sum_congr rfl fun cs hcs => ?_
      simp only [contents_snoc, hlen cs hcs]
    rw [hstep, Nat.factorial_succ]
    by_cases hn : k + m ∈ S
    · -- the new item replaced one of the `m + 1` items that are not in `S`
      have hkept : ∀ cs ∈ choices k m, ((range (k + m + 1)).filter fun j =>
          (if j < k then (contents k cs).set j (k + m) else contents k cs).toFinset = S).card =
          ∑ x ∈ range (k + m) \ S.erase (k + m),
            if (contents k cs).toFinset = insert x (S.erase (k + m)) then 1 else 0 := by
        intro cs hcs
        have hlt : ∀ x ∈ contents k cs, x < k + m := by
          intro x hx
          have hx := contents_lt cs x hx
          rwa [hlen cs hcs] at hx
        rw [card_replaced (nodup_contents cs) hlt hn (length_contents cs) (by omega),
          Finset.card_filter]
      rw [Finset.sum_congr rfl hkept, Finset.sum_comm]
      have hsub : S.erase (k + m) ⊆ range (k + m) := by
        intro x hx
        obtain ⟨hne, hx⟩ := Finset.mem_erase.mp hx
        have hlt := Finset.mem_range.mp (hS hx)
        rw [Finset.mem_range]
        omega
      have heach : ∀ x ∈ range (k + m) \ S.erase (k + m),
          (∑ cs ∈ choices k m,
            if (contents k cs).toFinset = insert x (S.erase (k + m)) then 1 else 0) =
          m.factorial := by
        intro x hx
        obtain ⟨hxr, hxS⟩ := Finset.mem_sdiff.mp hx
        have hpos : 0 < S.card := Finset.card_pos.mpr ⟨_, hn⟩
        rw [← Finset.card_filter]
        refine ih (Finset.insert_subset hxr hsub) ?_
        rw [Finset.card_insert_of_notMem hxS, Finset.card_erase_of_mem hn]
        omega
      rw [Finset.sum_congr rfl heach, Finset.sum_const, smul_eq_mul,
        Finset.card_sdiff_of_subset hsub, Finset.card_erase_of_mem hn, Finset.card_range]
      have hpos : 0 < S.card := Finset.card_pos.mpr ⟨_, hn⟩
      congr 1
      omega
    · -- the new item took one of its `m + 1` other choices
      have hsub : S ⊆ range (k + m) := by
        intro x hx
        have hlt := Finset.mem_range.mp (hS hx)
        have hne : x ≠ k + m := fun he => hn (he ▸ hx)
        rw [Finset.mem_range]
        omega
      have hpassed : ∀ cs ∈ choices k m, ((range (k + m + 1)).filter fun j =>
          (if j < k then (contents k cs).set j (k + m) else contents k cs).toFinset = S).card =
          if (contents k cs).toFinset = S then m + 1 else 0 := by
        intro cs _
        rw [card_passed hn (length_contents cs)]
        congr 1
        omega
      rw [Finset.sum_congr rfl hpassed, ← Finset.sum_filter, Finset.sum_const, smul_eq_mul, mul_comm]
      exact congrArg _ (ih hsub hc)

end AlgorithmR
