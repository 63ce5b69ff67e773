import Mathlib.Data.List.Nodup
import Mathlib.Data.List.Basic
import Mathlib.Data.List.Sort

namespace Relational

/-- The identities are drawn from a counter and no statement rewrites them. -/
structure Table (α : Type) (key : α → Int) where
  rows : List α
  next : Int
  below : ∀ r ∈ rows, key r < next
  nodup : (rows.map key).Nodup

namespace Table

variable {α : Type} {key : α → Int}

def empty : Table α key := ⟨[], 1, by simp, by simp⟩

/-- The row with a given identity. -/
def find (t : Table α key) (i : Int) : Option α := t.rows.find? fun r => key r == i

/-- `UPDATE .. SET f WHERE p`; `f` leaves the identity column alone. -/
def modify (t : Table α key) (p : α → Bool) (f : α → α) (h : ∀ r, key (f r) = key r) :
    Table α key where
  rows := t.rows.map fun r => if p r then f r else r
  next := t.next
  below := by
    intro r hr
    obtain ⟨s, hs, rfl⟩ := List.mem_map.mp hr
    split
    · rw [h]; exact t.below s hs
    · exact t.below s hs
  nodup := by
    have he : (t.rows.map fun r => if p r then f r else r).map key = t.rows.map key := by
      rw [List.map_map]
      apply List.map_congr_left
      intro r _
      simp only [Function.comp]
      split
      · exact h r
      · rfl
    rw [he]
    exact t.nodup

/-- The counter hands out an identity, whatever becomes of its row. -/
def draw (t : Table α key) : Table α key where
  rows := t.rows
  next := t.next + 1
  below r hr := by
    have hlt := t.below r hr
    omega
  nodup := t.nodup

/-- A row comes with an identity that was drawn for it. -/
def place (t : Table α key) (r : α) : Table α key :=
  if h : key r < t.next ∧ (t.find (key r)).isNone then
    { rows := t.rows ++ [r]
      next := t.next
      below := by
        intro s hs
        rcases List.mem_append.mp hs with hs | hs
        · exact t.below s hs
        · rw [List.mem_singleton.mp hs]
          exact h.1
      nodup := by
        rw [List.map_append, List.map_singleton]
        refine List.nodup_append.mpr ⟨t.nodup, by simp, ?_⟩
        rintro a ha b hb rfl
        obtain ⟨s, hs, rfl⟩ := List.mem_map.mp ha
        rw [List.mem_singleton] at hb
        have hnone := List.find?_eq_none.mp (Option.isNone_iff_eq_none.mp h.2) s hs
        exact hnone (by simp [hb]) }
  else t

/-- `INSERT`: the row is built from the identity the counter hands out. -/
def insert (t : Table α key) (mk : Int → α) (h : ∀ i, key (mk i) = i) : Table α key where
  rows := t.rows ++ [mk t.next]
  next := t.next + 1
  below := by
    intro r hr
    rcases List.mem_append.mp hr with hr | hr
    · have hlt := t.below r hr; omega
    · rw [List.mem_singleton.mp hr, h]; omega
  nodup := by
    rw [List.map_append, List.map_singleton, h]
    refine List.nodup_append.mpr ⟨t.nodup, by simp, ?_⟩
    intro a ha b hb hab
    obtain ⟨r, hr, rfl⟩ := List.mem_map.mp ha
    have hlt := t.below r hr
    simp only [List.mem_singleton] at hb
    omega

@[ext] theorem ext {s t : Table α key} (hr : s.rows = t.rows) (hn : s.next = t.next) : s = t := by
  cases s; cases t; cases hr; cases hn; rfl

@[simp] theorem rows_empty : (empty : Table α key).rows = [] := rfl

@[simp] theorem find_empty (i : Int) : (empty : Table α key).find i = none := rfl

@[simp] theorem rows_modify (t : Table α key) (p : α → Bool) (f : α → α)
    (h : ∀ r, key (f r) = key r) :
    (t.modify p f h).rows = t.rows.map fun r => if p r then f r else r := rfl

@[simp] theorem rows_insert (t : Table α key) (mk : Int → α) (h : ∀ i, key (mk i) = i) :
    (t.insert mk h).rows = t.rows ++ [mk t.next] := rfl

@[simp] theorem next_modify (t : Table α key) (p : α → Bool) (f : α → α)
    (h : ∀ r, key (f r) = key r) : (t.modify p f h).next = t.next := rfl

theorem find_some {t : Table α key} {i : Int} {r : α} (h : t.find i = some r) :
    r ∈ t.rows ∧ key r = i := by
  refine ⟨List.mem_of_find?_eq_some h, ?_⟩
  simpa using List.find?_some h

theorem eq_of_mem_of_key {t : Table α key} {r s : α} (hr : r ∈ t.rows) (hs : s ∈ t.rows)
    (h : key r = key s) : r = s :=
  List.inj_on_of_nodup_map t.nodup hr hs h

theorem find_of_mem {t : Table α key} {r : α} (h : r ∈ t.rows) : t.find (key r) = some r := by
  obtain ⟨s, hs⟩ : ∃ s, t.find (key r) = some s := by
    rw [← Option.isSome_iff_exists]
    exact List.find?_isSome.mpr ⟨r, h, by simp⟩
  obtain ⟨hm, hk⟩ := find_some hs
  rw [hs, eq_of_mem_of_key hm h hk]

theorem find_eq_some {t : Table α key} {i : Int} {r : α} :
    t.find i = some r ↔ r ∈ t.rows ∧ key r = i := by
  constructor
  · exact find_some
  · rintro ⟨hr, rfl⟩
    exact find_of_mem hr

@[simp] theorem find_modify (t : Table α key) (p : α → Bool) (f : α → α)
    (h : ∀ r, key (f r) = key r) (i : Int) :
    (t.modify p f h).find i = (t.find i).map fun r => if p r then f r else r := by
  have hk : ∀ r, (key (if p r then f r else r) == i) = (key r == i) := by
    intro r
    split
    · rw [h]
    · rfl
  simp only [find, rows_modify, List.find?_map]
  congr 1
  exact congrArg (fun q => t.rows.find? q) (funext hk)

theorem find_next (t : Table α key) : t.find t.next = none := by
  refine List.find?_eq_none.mpr fun r hr => ?_
  have hlt := t.below r hr
  simp only [beq_iff_eq]
  omega

theorem find_insert (t : Table α key) (mk : Int → α) (h : ∀ i, key (mk i) = i) (i : Int) :
    (t.insert mk h).find i = if i = t.next then some (mk i) else t.find i := by
  simp only [find, rows_insert, List.find?_append, List.find?_singleton, h]
  by_cases hi : i = t.next
  · subst hi
    have hn := find_next t
    rw [find] at hn
    simp [hn]
  · simp [hi, Ne.symm hi]

/-- Insertion leaves the rows that are already there where they are. -/
theorem find_insert_of_some {t : Table α key} {mk : Int → α} {h : ∀ i, key (mk i) = i} {i : Int}
    {r : α} (hr : t.find i = some r) : (t.insert mk h).find i = some r := by
  have hne : i ≠ t.next := by
    intro hi
    rw [hi, find_next] at hr
    cases hr
  rw [find_insert, if_neg hne, hr]

theorem mem_modify (t : Table α key) (p : α → Bool) (f : α → α) (h : ∀ r, key (f r) = key r)
    {r : α} : r ∈ (t.modify p f h).rows ↔ ∃ s ∈ t.rows, r = if p s then f s else s := by
  simp only [rows_modify, List.mem_map]
  constructor
  · rintro ⟨s, hs, rfl⟩; exact ⟨s, hs, rfl⟩
  · rintro ⟨s, hs, rfl⟩; exact ⟨s, hs, rfl⟩

/-- `SELECT .. WHERE p ORDER BY key`. -/
def ordered (t : Table α key) (p : α → Bool) : List α :=
  (t.rows.filter p).insertionSort fun r s => key r ≤ key s

theorem mem_ordered {t : Table α key} {p : α → Bool} {r : α} :
    r ∈ t.ordered p ↔ r ∈ t.rows ∧ p r = true := by
  rw [ordered, List.mem_insertionSort, List.mem_filter]

/-- The identities ascend. -/
theorem pairwise_ordered (t : Table α key) (p : α → Bool) :
    (t.ordered p).Pairwise fun r s => key r < key s := by
  have hperm : (t.ordered p).Perm (t.rows.filter p) := List.perm_insertionSort _ _
  have hsorted : (t.ordered p).Pairwise fun r s => key r ≤ key s := by
    have : Std.Total fun r s : α => key r ≤ key s := ⟨fun r s => le_total (key r) (key s)⟩
    have : IsTrans α fun r s => key r ≤ key s := ⟨fun _ _ _ => le_trans⟩
    exact List.pairwise_insertionSort _ _
  have hnodup : ((t.ordered p).map key).Nodup :=
    ((hperm.map key).nodup_iff).mpr (t.nodup.sublist (List.filter_sublist.map key))
  have hne : (t.ordered p).Pairwise fun r s => key r ≠ key s := List.pairwise_map.mp hnodup
  exact (hsorted.and hne).imp fun h => lt_of_le_of_ne h.1 h.2

@[simp] theorem rows_draw (t : Table α key) : t.draw.rows = t.rows := rfl

@[simp] theorem next_draw (t : Table α key) : t.draw.next = t.next + 1 := rfl

@[simp] theorem find_draw (t : Table α key) (i : Int) : t.draw.find i = t.find i := rfl

theorem rows_place {t : Table α key} {r : α} (hlt : key r < t.next) (hnew : t.find (key r) = none) :
    (t.place r).rows = t.rows ++ [r] := by
  rw [place, dif_pos ⟨hlt, by rw [hnew]; rfl⟩]

@[simp] theorem next_place (t : Table α key) (r : α) : (t.place r).next = t.next := by
  unfold place
  split <;> rfl

theorem mem_of_mem_place {t : Table α key} {r s : α} (h : s ∈ (t.place r).rows) :
    s ∈ t.rows ∨ s = r := by
  unfold place at h
  split at h
  · simpa using h
  · exact .inl h

theorem mem_place_of_mem {t : Table α key} {r s : α} (h : s ∈ t.rows) : s ∈ (t.place r).rows := by
  unfold place
  split
  · exact List.mem_append_left _ h
  · exact h

theorem find_place_of_some {t : Table α key} {r s : α} {i : Int} (h : t.find i = some s) :
    (t.place r).find i = some s := by
  obtain ⟨hmem, rfl⟩ := find_some h
  exact find_of_mem (mem_place_of_mem hmem)

/-- To insert a row is to draw its identity and to place it. -/
theorem place_draw (t : Table α key) (mk : Int → α) (h : ∀ i, key (mk i) = i) :
    t.draw.place (mk t.next) = t.insert mk h := by
  have hlt : key (mk t.next) < t.draw.next := by
    rw [h, next_draw]
    omega
  have hnew : t.draw.find (key (mk t.next)) = none := by
    rw [h]
    exact find_next t
  ext1
  · exact rows_place hlt hnew
  · exact next_place _ _

theorem mem_insert {t : Table α key} {mk : Int → α} {h : ∀ i, key (mk i) = i} {r : α} :
    r ∈ (t.insert mk h).rows ↔ r ∈ t.rows ∨ r = mk t.next := by
  simp

end Table

end Relational
