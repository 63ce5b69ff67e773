import CapiNet.Smoke
import CapiNet.Library.AlgorithmR

namespace CapiNet

open AlgorithmR

/-- The values the generator gives. -/
def SplitMix64.draw (g : SplitMix64) (i : Nat) : UInt64 := ((fun g => g.next.2)^[i] g).next.1

/-- `rng.next() % (seen + 1)` at the position with a given index. -/
def bookChoice (seed : UInt64) (k i : Nat) : Nat :=
  ((SplitMix64.mk seed).draw (i - k) % UInt64.ofNat (i + 1)).toNat

/-- The loop of `sampleBook` with the choices given. -/
def sampleChosen (k : Nat) (fens : List String) (js : Nat → Nat) : List String :=
  fens.zipIdx.foldl (fun s f =>
    if s.length < k then s ++ [f.1] else if js f.2 < k then s.set (js f.2) f.1 else s) []

theorem sampleChosen_snoc (k : Nat) (fens : List String) (fen : String) (js : Nat → Nat) :
    sampleChosen k (fens ++ [fen]) js =
      if (sampleChosen k fens js).length < k then sampleChosen k fens js ++ [fen]
      else if js fens.length < k then (sampleChosen k fens js).set (js fens.length) fen
      else sampleChosen k fens js := by
  unfold sampleChosen
  rw [List.zipIdx_append, List.foldl_append]
  simp

theorem length_sampleChosen (k : Nat) (fens : List String) (js : Nat → Nat) :
    (sampleChosen k fens js).length = min k fens.length := by
  induction fens using List.reverseRecOn with
  | nil => simp [sampleChosen]
  | append_singleton fens fen ih =>
    rw [sampleChosen_snoc, List.length_append, List.length_singleton]
    split
    next hlt =>
      rw [List.length_append, List.length_singleton]
      omega
    next hge =>
      split
      · rw [List.length_set]
        omega
      · omega

theorem sampleChosen_short {k : Nat} {fens : List String} (h : fens.length ≤ k) (js : Nat → Nat) :
    sampleChosen k fens js = fens := by
  induction fens using List.reverseRecOn with
  | nil => rfl
  | append_singleton fens fen ih =>
    rw [List.length_append, List.length_singleton] at h
    rw [sampleChosen_snoc, ih (by omega), if_pos (by omega)]

/-- The positions in the reservoir are those of Algorithm R. -/
theorem sampleChosen_long {k : Nat} {fens : List String} (h : k ≤ fens.length) (js : Nat → Nat) :
    sampleChosen k fens js =
      (contents k ((List.range (fens.length - k)).map fun i => js (k + i))).map
        fun i => fens.getD i "" := by
  induction fens using List.reverseRecOn with
  | nil =>
    obtain rfl : k = 0 := by simpa using h
    rfl
  | append_singleton fens fen ih =>
    rw [List.length_append, List.length_singleton] at h ⊢
    rcases Nat.lt_or_ge fens.length k with hlt | hge
    · have hk : k = fens.length + 1 := by omega
      have hnone : fens.length + 1 - k = 0 := by omega
      rw [sampleChosen_short (by simp; omega), hnone, List.range_zero, List.map_nil, contents_nil]
      refine List.ext_getElem (by simp [hk]) fun i hi _ => ?_
      simp [List.getD, List.getElem?_eq_getElem hi]
    · have hsucc : fens.length + 1 - k = (fens.length - k) + 1 := by omega
      have hlast : k + (fens.length - k) = fens.length := by omega
      rw [sampleChosen_snoc, if_neg (by rw [length_sampleChosen]; omega), ih hge, hsucc,
        List.range_succ, List.map_append, List.map_singleton, contents_snoc, hlast, List.length_map,
        List.length_range, hlast]
      have hold : ∀ i ∈ contents k ((List.range (fens.length - k)).map fun i => js (k + i)),
          (fens ++ [fen]).getD i "" = fens.getD i "" := by
        intro i hi
        have hlt := contents_lt _ i hi
        rw [List.length_map, List.length_range, hlast] at hlt
        simp [List.getD, List.getElem?_append_left hlt]
      have hmap := List.map_congr_left hold
      split
      · rw [List.map_set, hmap]
        simp [List.getD]
      · rw [hmap]

/-- The loop of `sampleBook`: what was seen, how far the generator is, and the sample. -/
theorem reservoir_foldl (k : Nat) (seed : UInt64) (fens : List String) :
    (fens.foldl (Reservoir.add k) ⟨[], ⟨seed⟩, 0⟩).seen = UInt64.ofNat fens.length ∧
    (fens.foldl (Reservoir.add k) ⟨[], ⟨seed⟩, 0⟩).rng =
      (fun g : SplitMix64 => g.next.2)^[fens.length - k] ⟨seed⟩ ∧
    (fens.foldl (Reservoir.add k) ⟨[], ⟨seed⟩, 0⟩).sample =
      sampleChosen k fens (bookChoice seed k) := by
  induction fens using List.reverseRecOn with
  | nil => exact ⟨rfl, by simp, rfl⟩
  | append_singleton fens fen ih =>
    obtain ⟨hseen, hrng, hsample⟩ := ih
    have hcount : UInt64.ofNat fens.length + 1 = UInt64.ofNat (fens.length + 1) := by
      rw [UInt64.ofNat_add]
      rfl
    have hlen := length_sampleChosen k fens (bookChoice seed k)
    rw [List.foldl_append, List.foldl_cons, List.foldl_nil, List.length_append,
      List.length_singleton, sampleChosen_snoc, Reservoir.add, hsample]
    rcases Nat.lt_or_ge fens.length k with hlt | hge
    · have hnone : fens.length + 1 - k = fens.length - k := by omega
      rw [if_pos (by omega), if_pos (by omega), hnone]
      exact ⟨by rw [← hcount, ← hseen], hrng, rfl⟩
    · have hsucc : fens.length + 1 - k = fens.length - k + 1 := by omega
      rw [if_neg (by omega), if_neg (by omega), hsucc, Function.iterate_succ_apply', ← hrng]
      have hchoice : (((fens.foldl (Reservoir.add k) ⟨[], ⟨seed⟩, 0⟩).rng.next.1 %
          ((fens.foldl (Reservoir.add k) ⟨[], ⟨seed⟩, 0⟩).seen + 1)).toNat) =
          bookChoice seed k fens.length := by
        rw [hrng, hseen, hcount]
        rfl
      refine ⟨by rw [← hcount, ← hseen], rfl, ?_⟩
      dsimp only
      rw [hchoice]

theorem sampleBook_eq (lines : List String) (k : Nat) (seed : UInt64) :
    sampleBook lines k seed = sampleChosen k (lines.filterMap epdToFen) (bookChoice seed k) :=
  (reservoir_foldl k seed _).2.2

/-- The choice is one of `0, .., i`. -/
theorem bookChoice_eq {seed : UInt64} {k i : Nat} (h : i + 1 < 2 ^ 64) :
    bookChoice seed k i = ((SplitMix64.mk seed).draw (i - k)).toNat % (i + 1) := by
  rw [bookChoice, UInt64.toNat_mod, UInt64.toNat_ofNat_of_lt' h]

theorem epdToFen_empty : epdToFen "" = none := by decide

/-- A book has no more positions than characters. -/
theorem positions_le_size (lines : List String) :
    (lines.filterMap epdToFen).length ≤ (lines.map String.length).sum := by
  induction lines with
  | nil => rfl
  | cons line lines ih =>
    rw [List.map_cons, List.sum_cons, List.filterMap_cons]
    cases hfen : epdToFen line with
    | none => simpa using Nat.le_add_left_of_le ih
    | some fen =>
      have hne : line.length ≠ 0 := by
        intro hzero
        rw [String.length_eq_zero_iff.mp hzero, epdToFen_empty] at hfen
        cases hfen
      simp only [List.length_cons]
      omega

/-- The valid lines of a book with their places in the file. -/
def bookLines (lines : List String) : List (String × Nat) :=
  lines.zipIdx.filterMap fun l => (epdToFen l.1).map fun fen => (fen, l.2)

theorem map_fst_bookLines (lines : List String) :
    (bookLines lines).map Prod.fst = lines.filterMap epdToFen := by
  have hline : ∀ l : String × Nat,
      ((epdToFen l.1).map fun fen => (fen, l.2)).map Prod.fst = epdToFen l.1 := by
    intro l
    cases epdToFen l.1 <;> rfl
  have hcomp : (epdToFen ∘ Prod.fst : String × Nat → Option String) = fun l => epdToFen l.1 := rfl
  rw [bookLines, List.map_filterMap]
  simp only [hline]
  rw [← hcomp, ← List.filterMap_map, List.zipIdx_map_fst]

theorem mem_bookLines {lines : List String} {fen : String} {p : Nat}
    (h : (fen, p) ∈ bookLines lines) : ∃ line, lines[p]? = some line ∧ epdToFen line = some fen := by
  obtain ⟨⟨line, q⟩, hmem, hfen⟩ := List.mem_filterMap.mp h
  obtain ⟨fen', hfen', he⟩ := Option.map_eq_some_iff.mp hfen
  cases he
  exact ⟨line, List.mem_zipIdx_iff_getElem?.mp hmem, hfen'⟩

theorem sublist_lines (l : List (String × Nat)) :
    ((l.filterMap fun l => (epdToFen l.1).map fun fen => (fen, l.2)).map Prod.snd).Sublist
      (l.map Prod.snd) := by
  induction l with
  | nil => exact List.Sublist.slnil
  | cons line l ih =>
    rw [List.filterMap_cons]
    cases epdToFen line.1 with
    | none => exact ih.cons _
    | some fen => exact ih.cons_cons _

theorem nodup_bookLines (lines : List String) : ((bookLines lines).map Prod.snd).Nodup :=
  (List.nodup_zipIdx_map_snd lines).sublist (sublist_lines _)

/-- A sample taken from distinct positions comes from distinct lines. -/
theorem sampled_lines (lines : List String) {places : List Nat} (hn : places.Nodup)
    (hlt : ∀ i ∈ places, i < (lines.filterMap epdToFen).length) :
    ∃ numbers : List Nat, numbers.Nodup ∧
      List.Forall₂ (fun p fen => ∃ line, lines[p]? = some line ∧ epdToFen line = some fen) numbers
        (places.map fun i => (lines.filterMap epdToFen).getD i "") := by
  have hfst := map_fst_bookLines lines
  have hlen : (bookLines lines).length = (lines.filterMap epdToFen).length := by
    rw [← hfst, List.length_map]
  have hlen' : ((bookLines lines).map Prod.snd).length = (lines.filterMap epdToFen).length := by
    rw [List.length_map, hlen]
  refine ⟨places.map fun i => ((bookLines lines).map Prod.snd).getD i 0, ?_, ?_⟩
  · refine hn.map_on fun i hi j hj he => ?_
    have hil := hlt i hi
    have hjl := hlt j hj
    rw [← hlen'] at hil hjl
    rw [List.getD_eq_getElem _ _ hil, List.getD_eq_getElem _ _ hjl] at he
    exact (List.Nodup.getElem_inj_iff (nodup_bookLines lines)).mp he
  · rw [List.forall₂_map_left_iff, List.forall₂_map_right_iff, List.forall₂_same]
    intro i hi
    have hil := hlt i hi
    have hbl : i < (bookLines lines).length := by omega
    have hfen : (lines.filterMap epdToFen).getD i "" = (bookLines lines)[i].1 := by
      rw [List.getD_eq_getElem _ _ hil]
      simp only [← hfst, List.getElem_map]
    have hnum : ((bookLines lines).map Prod.snd).getD i 0 = (bookLines lines)[i].2 := by
      rw [List.getD_eq_getElem _ _ (by omega), List.getElem_map]
    rw [hfen, hnum]
    exact mem_bookLines (List.getElem_mem hbl)

/-- The generator's choices are a sequence of Algorithm R. -/
theorem bookChoices_mem {seed : UInt64} {k n : Nat} (hn : n < 2 ^ 64) :
    (List.range (n - k)).map (fun i => bookChoice seed k (k + i)) ∈ choices k (n - k) := by
  refine mem_choices.mpr ⟨by simp, fun i hi => ?_⟩
  rw [List.length_map, List.length_range] at hi
  have hmod := Nat.mod_lt ((SplitMix64.mk seed).draw (k + i - k)).toNat (Nat.succ_pos (k + i))
  rw [List.getElem_map, List.getElem_range, bookChoice_eq (by omega)]
  exact Nat.le_of_lt_succ hmod

theorem sampleChosen_list {k : Nat} {fens : List String} {cs : List Nat} (h : k ≤ fens.length)
    (hcs : cs ∈ choices k (fens.length - k)) :
    sampleChosen k fens (fun i => cs.getD (i - k) 0) =
      (contents k cs).map fun i => fens.getD i "" := by
  have hlen := (mem_choices.mp hcs).1
  have hlist : (List.range (fens.length - k)).map (fun i => cs.getD (k + i - k) 0) = cs := by
    refine List.ext_getElem (by simp [hlen]) fun i hi hi' => ?_
    rw [List.getElem_map, List.getElem_range, Nat.add_sub_cancel_left, List.getD_eq_getElem _ _ hi']
  rw [sampleChosen_long h, hlist]

/-- The sample of a book: its size, its lines, the choices that make it, and that every set of `k`
positions is drawn by equally many sequences of choices. The size of a file fits 64 bits. -/
theorem sample_book_uniform (lines : List String) (k : Nat) (seed : UInt64)
    (hsize : (lines.map String.length).sum < 2 ^ 64) :
    (sampleBook lines k seed).length = min k (lines.filterMap epdToFen).length ∧
    (∃ numbers : List Nat, numbers.Nodup ∧
      List.Forall₂ (fun p fen => ∃ line, lines[p]? = some line ∧ epdToFen line = some fen) numbers
        (sampleBook lines k seed)) ∧
    ((lines.filterMap epdToFen).length ≤ k →
      sampleBook lines k seed = lines.filterMap epdToFen) ∧
    (∀ i < (lines.filterMap epdToFen).length,
      ((((lines.filterMap epdToFen).take i).foldl (Reservoir.add k) ⟨[], ⟨seed⟩, 0⟩).seen + 1).toNat =
        i + 1) ∧
    (k ≤ (lines.filterMap epdToFen).length →
      ∃ cs ∈ choices k ((lines.filterMap epdToFen).length - k),
        (∀ i (h : i < cs.length), cs[i] = ((SplitMix64.mk seed).draw i).toNat % (k + i + 1)) ∧
        sampleBook lines k seed =
          sampleChosen k (lines.filterMap epdToFen) fun i => cs.getD (i - k) 0) ∧
    (k ≤ (lines.filterMap epdToFen).length →
      ∀ cs ∈ choices k ((lines.filterMap epdToFen).length - k),
        sampleChosen k (lines.filterMap epdToFen) (fun i => cs.getD (i - k) 0) =
          (contents k cs).map fun i => (lines.filterMap epdToFen).getD i "") ∧
    ∀ S ⊆ Finset.range (lines.filterMap epdToFen).length, S.card = k →
      ((choices k ((lines.filterMap epdToFen).length - k)).filter fun cs =>
        (contents k cs).toFinset = S).card = ((lines.filterMap epdToFen).length - k).factorial := by
  have hfit : (lines.filterMap epdToFen).length < 2 ^ 64 :=
    lt_of_le_of_lt (positions_le_size lines) hsize
  generalize hfens : lines.filterMap epdToFen = fens at hfit ⊢
  have hbook : sampleBook lines k seed = sampleChosen k fens (bookChoice seed k) := by
    rw [sampleBook_eq, hfens]
  have hlong : k ≤ fens.length → sampleBook lines k seed =
      (contents k ((List.range (fens.length - k)).map fun i => bookChoice seed k (k + i))).map
        fun i => fens.getD i "" := fun h => hbook.trans (sampleChosen_long h _)
  refine ⟨?_, ?_, ?_, ?_, ?_, ?_, ?_⟩
  · rw [hbook, length_sampleChosen]
  · rcases Nat.le_total fens.length k with hshort | hk
    · have hall : fens = (List.range fens.length).map fun i => fens.getD i "" := by
        refine List.ext_getElem (by simp) fun i hi _ => ?_
        rw [List.getElem_map, List.getElem_range, List.getD_eq_getElem _ _ hi]
      have hplaces := sampled_lines lines (List.nodup_range (n := fens.length))
        (by rw [hfens]; exact fun i hi => List.mem_range.mp hi)
      rw [hfens, ← hall] at hplaces
      rw [hbook, sampleChosen_short hshort]
      exact hplaces
    · have hplaces := sampled_lines lines (nodup_contents
        (k := k) ((List.range (fens.length - k)).map fun i => bookChoice seed k (k + i)))
        (by
          intro i hi
          have hlt := contents_lt _ i hi
          rw [List.length_map, List.length_range] at hlt
          rw [hfens]
          omega)
      rw [hfens] at hplaces
      rw [hlong hk]
      exact hplaces
  · exact fun h => hbook.trans (sampleChosen_short h _)
  · intro i hi
    obtain ⟨hseen, -, -⟩ := reservoir_foldl k seed (fens.take i)
    have hcount : UInt64.ofNat i + 1 = UInt64.ofNat (i + 1) := by
      rw [UInt64.ofNat_add]
      rfl
    rw [hseen, List.length_take, Nat.min_eq_left (by omega), hcount,
      UInt64.toNat_ofNat_of_lt' (by omega : i + 1 < 2 ^ 64)]
  · intro hk
    have hmem : (List.range (fens.length - k)).map (fun i => bookChoice seed k (k + i)) ∈
        choices k (fens.length - k) := bookChoices_mem hfit
    refine ⟨_, hmem, fun i hi => ?_, ?_⟩
    · rw [List.length_map, List.length_range] at hi
      rw [List.getElem_map, List.getElem_range, bookChoice_eq (by omega), Nat.add_sub_cancel_left]
    · rw [sampleChosen_list hk hmem, hlong hk]
  · exact fun hk cs hcs => sampleChosen_list hk hcs
  · intro S hS hcard
    have hk : k ≤ fens.length := by
      have hle := Finset.card_le_card hS
      rw [hcard, Finset.card_range] at hle
      exact hle
    refine card_leaving ?_ hcard
    rwa [Nat.add_sub_cancel' hk]

/-- Three positions and a comment. -/
def smallBook : List String :=
  ["# openings", "8/8/8/8/8/8/8/K6k w - -", "8/8/8/8/8/8/K7/7k w - -", "8/8/8/8/8/K7/8/7k w - - 3 9"]

theorem sample_book_uniform_small :
    (sampleBook smallBook 2 1).length = 2 ∧
      ∀ S ⊆ Finset.range 3, S.card = 2 →
        ((choices 2 1).filter fun cs => (contents 2 cs).toFinset = S).card = 1 := by
  have hcount : (smallBook.filterMap epdToFen).length = 3 := by decide +kernel
  obtain ⟨hlen, -, -, -, -, -, huniform⟩ := sample_book_uniform smallBook 2 1 (by decide +kernel)
  rw [hcount] at hlen huniform
  exact ⟨hlen, huniform⟩

end CapiNet
