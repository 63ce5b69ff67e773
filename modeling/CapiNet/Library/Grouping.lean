import Mathlib

namespace Relational

variable {α β : Type} [DecidableEq β]

/-- The rows of each key. -/
def groups (key : α → β) (l : List α) : List (β × List α) :=
  (l.map key).dedup.map fun k => (k, l.filter fun x => key x = k)

/-- The group a row with this key joins. -/
def groupOf (key : α → β) (l : List α) (k : β) : Option (List α) :=
  ((groups key l).find? fun g => g.1 = k).map (·.2)

theorem groupOf_eq (key : α → β) (l : List α) (k : β) :
    groupOf key l k = if k ∈ l.map key then some (l.filter fun x => key x = k) else none := by
  have hfind : ∀ ks : List β, ((ks.map fun k => (k, l.filter fun x => key x = k)).find?
      fun g => g.1 = k).map (·.2) =
        if k ∈ ks then some (l.filter fun x => key x = k) else none := by
    intro ks
    induction ks with
    | nil => rfl
    | cons j ks ih =>
      rw [List.map_cons, List.find?_cons]
      by_cases hj : j = k
      · simp [hj]
      · have hne : ¬k = j := fun h => hj h.symm
        simp only [hj, decide_false, ih, List.mem_cons, hne, false_or]
  rw [groupOf, groups, hfind]
  simp only [List.mem_dedup]

theorem groupOf_isSome {key : α → β} {l : List α} {k : β} :
    (groupOf key l k).isSome = true ↔ ∃ x ∈ l, key x = k := by
  rw [groupOf_eq]
  split
  next h => exact iff_of_true rfl (List.mem_map.mp h)
  next h => exact iff_of_false (by simp) fun hx => h (List.mem_map.mpr hx)

/-- A row without a group counts for nothing. -/
theorem groupOf_elim (key : α → β) (l : List α) (k : β) (w : List α → Nat) (hw : w [] = 0) :
    (groupOf key l k).elim 0 w = w (l.filter fun x => key x = k) := by
  rw [groupOf_eq]
  split
  next => rfl
  next hk =>
    have hnil : (l.filter fun x => key x = k) = [] := by
      refine List.filter_eq_nil_iff.mpr fun x hx he => hk ?_
      exact List.mem_map.mpr ⟨x, hx, by simpa using he⟩
    rw [hnil, hw]
    rfl

theorem sum_boole_key (keys : List β) (j : β) :
    (keys.map fun k => if j = k then 1 else 0).sum = keys.count j := by
  induction keys with
  | nil => rfl
  | cons k ks ih =>
    rw [List.map_cons, List.sum_cons, ih, List.count_cons]
    by_cases hj : j = k
    · simp [hj, Nat.add_comm]
    · have hne : ¬k = j := fun h => hj h.symm
      simp [hj, hne]

/-- Rows that have their key in a list without repetition are counted key by key. -/
theorem sum_countP_key {keys : List β} (hkeys : keys.Nodup) (key : α → β) (p : α → Bool)
    {l : List α} (h : ∀ x ∈ l, p x = true → key x ∈ keys) :
    (keys.map fun k => l.countP fun x => p x && decide (key x = k)).sum = l.countP p := by
  induction l with
  | nil => simp
  | cons x l ih =>
    have hsplit : ∀ k, ((x :: l).countP fun y => p y && decide (key y = k)) =
        (l.countP fun y => p y && decide (key y = k)) + if p x = true ∧ key x = k then 1 else 0 := by
      intro k
      rw [List.countP_cons]
      simp
    simp only [hsplit, List.sum_map_add, ih fun y hy => h y (List.mem_cons_of_mem x hy),
      List.countP_cons]
    congr 1
    by_cases hp : p x = true
    · have hone : keys.count (key x) = 1 :=
        List.count_eq_one_of_mem hkeys (h x List.mem_cons_self hp)
      simp only [hp, true_and, if_true, sum_boole_key, hone]
    · simp [hp]

omit [DecidableEq β] in
/-- Rows that stay keep their keys in order. -/
theorem map_filterMap_sublist {γ : Type} {f : α → Option γ} {key : α → β} {key' : γ → β}
    (h : ∀ a c, f a = some c → key' c = key a) (l : List α) :
    ((l.filterMap f).map key').Sublist (l.map key) := by
  induction l with
  | nil => exact .slnil
  | cons a l ih =>
    rw [List.filterMap_cons, List.map_cons]
    cases ha : f a with
    | none => exact ih.cons _
    | some c =>
      rw [List.map_cons, h a c ha]
      exact ih.cons_cons _

/-- A sum over the rows that stay. -/
theorem sum_filterMap {γ : Type} (f : α → Option γ) (w : γ → Nat) (l : List α) :
    ((l.filterMap f).map w).sum = (l.map fun x => (f x).elim 0 w).sum := by
  induction l with
  | nil => rfl
  | cons x l ih =>
    cases hx : f x with
    | none => simp [hx, ih]
    | some y => simp [hx, ih]

end Relational
