import CapiNet.AdmissionContract
import CapiNet.CommentSearch
import CapiNet.PgnLimits
import Mathlib.Data.List.Sort

namespace CapiNet

/-- A `std::set` of the integers. -/
def sortedSet (xs : List Int) : List Int := xs.dedup.insertionSort (· ≤ ·)

/-- One part of a list of processors; a part that is none is left out. -/
def cpuPart (part : List Char) : List Int :=
  match part.dropWhile (· != '-') with
  | [] => (stoi part).toList
  | _ :: last =>
    match stoi (part.takeWhile (· != '-')), stoi last with
    | some a, some b => (List.range (b + 1 - a).toNat).map fun (i : Nat) => a + i
    | _, _ => []

def parseCpuList (text : List Char) : List Int :=
  sortedSet (((text.splitOn ',').filter (!·.isEmpty)).flatMap cpuPart)

/-- What the kernel shows of a host. -/
structure Sysfs where
  file : String → Option String
  processorsOnline : Int
  affinity : Bool

namespace Sysfs

def cpuRoot : String := "/sys/devices/system/cpu"

/-- A file without the white space at its end; one that cannot be read is empty. -/
def readFile (s : Sysfs) (path : String) : List Char :=
  (((s.file path).getD "").toList.reverse.dropWhile fun c =>
    c == '\n' || c == '\r' || c == ' ').reverse

def online (s : Sysfs) : List Int :=
  match parseCpuList (s.readFile (cpuRoot ++ "/online")) with
  | [] => (List.range s.processorsOnline.toNat).map fun (i : Nat) => (i : Int)
  | cpus => cpus

def intelP (s : Sysfs) : List Int := parseCpuList (s.readFile "/sys/devices/cpu_core/cpus")

def intelE (s : Sysfs) : List Int := parseCpuList (s.readFile "/sys/devices/cpu_atom/cpus")

/-- `std::stol`, nothing where it throws. -/
def stol (cs : List Char) : Option Int :=
  (strtol cs).filter fun n => decide (-2 ^ 63 ≤ n) && decide (n < 2 ^ 63)

/-- The class of a processor, the larger the faster. -/
def klass (s : Sysfs) (cpu : Int) : Option Int :=
  let capacity := s.readFile (cpuRoot ++ "/cpu" ++ toString cpu ++ "/cpu_capacity")
  if !s.intelE.isEmpty then some (if s.intelP.contains cpu then 1 else 0)
  else if !capacity.isEmpty then stol capacity
  else some 1

def coreId (s : Sysfs) (cpu : Int) : List Char :=
  s.readFile (cpuRoot ++ "/cpu" ++ toString cpu ++ "/topology/core_id")

/-- The package of a processor and its core in there. -/
def coreKey (s : Sysfs) (cpu : Int) : List Char × List Char :=
  (s.readFile (cpuRoot ++ "/cpu" ++ toString cpu ++ "/topology/physical_package_id"), s.coreId cpu)

/-- The first processor of each core of a class. -/
def fastCores (s : Sysfs) (best : Int) :
    List (Int × Int) → List (List Char × List Char) → List Int
  | [], _ => []
  | (cpu, k) :: rest, seen =>
    if k ≠ best then fastCores s best rest seen
    else if (s.coreId cpu).isEmpty then cpu :: fastCores s best rest seen
    -- another thread of a core that is there already
    else if s.coreKey cpu ∈ seen then fastCores s best rest seen
    else cpu :: fastCores s best rest (s.coreKey cpu :: seen)

end Sysfs

/-- The letter of a class, by its place. -/
def classLetter : Nat → String
  | 0 => "P"
  | 1 => "E"
  | _ => "L"

/-- How many processors there are of each class, from the fastest on. -/
def describeClasses (classes : List Int) : String :=
  "+".intercalate (((sortedSet classes).reverse.zipIdx).map fun k =>
    toString (classes.count k.1) ++ classLetter k.2)

/-- `detect_linux`; nothing where a capacity is no number. -/
def detectLinux (s : Sysfs) : Option Topology :=
  (s.online.mapM fun cpu => (s.klass cpu).map fun k => (cpu, k)).map fun classed =>
    let classes := classed.map (·.2)
    let best := classes.foldl max 0
    let heterogeneous := decide (1 < (sortedSet classes).length)
    let fast := s.fastCores best classed []
    let nproc := Json.toInt32 s.online.length
    { nproc, heterogeneous
      pinningAvailable := s.affinity
      qosHintAvailable := false
      fastCores := fast
      description :=
        if heterogeneous then describeClasses classes
        else toString fast.length ++ " núcleos homogêneos" ++
          if Json.toInt32 fast.length ≠ nproc then " (" ++ toString nproc ++ " lógicos, SMT)" else "" }

/-- A run of processors in a list of the kernel. -/
structure CpuRun where
  first : Nat
  last : Nat
  le : first ≤ last
  int : last < 2 ^ 31 - 1

/-- A run of one is that one. -/
def CpuRun.text (r : CpuRun) : List Char :=
  if r.first = r.last then Nat.toDigits 10 r.first
  else Nat.toDigits 10 r.first ++ '-' :: Nat.toDigits 10 r.last

def CpuRun.Has (r : CpuRun) (cpu : Int) : Prop := r.first ≤ cpu ∧ cpu ≤ r.last

def runsText (runs : List CpuRun) : List Char := [','].intercalate (runs.map CpuRun.text)

theorem mem_sortedSet {xs : List Int} {x : Int} : x ∈ sortedSet xs ↔ x ∈ xs := by
  rw [sortedSet, List.mem_insertionSort, List.mem_dedup]

theorem sortedSet_ascending (xs : List Int) : (sortedSet xs).Pairwise (· < ·) := by
  have hle : (sortedSet xs).Pairwise (· ≤ ·) := List.pairwise_insertionSort _ _
  have hne : (sortedSet xs).Nodup :=
    (List.perm_insertionSort _ _).nodup_iff.mpr (List.nodup_dedup xs)
  exact hle.imp₂ (fun _ _ hab hn => lt_of_le_of_ne hab hn) hne

theorem digit_ne_dash {c : Char} (h : c.isDigit = true) : c ≠ '-' ∧ c ≠ '+' ∧ c ≠ ',' := by
  refine ⟨?_, ?_, ?_⟩ <;> rintro rfl <;> exact absurd h (by decide)

theorem strtol_toDigits (n : Nat) : strtol (Nat.toDigits 10 n) = some n := by
  have hd := isDigit_toDigits n
  have hvalue := digitsValue_toDigits n
  have hne : Nat.toDigits 10 n ≠ [] := Nat.toDigits_ne_nil
  cases hcs : Nat.toDigits 10 n with
  | nil => exact absurd hcs hne
  | cons c cs =>
    rw [hcs] at hd hvalue
    have hc : c.isDigit = true := hd c (by simp)
    have htake : (c :: cs).takeWhile Char.isDigit = c :: cs := List.takeWhile_eq_self_iff.mpr hd
    have hspace : (c :: cs).dropWhile isSpace = c :: cs :=
      List.dropWhile_cons_of_neg (by simp [(Pgn.digit_clean hc).1])
    obtain ⟨hdash, hplus, -⟩ := digit_ne_dash hc
    simp only [strtol, hspace, List.head?_cons]
    simp [hdash, hplus, htake, hvalue]

theorem stoi_toDigits {n : Nat} (h : n < 2 ^ 31) : stoi (Nat.toDigits 10 n) = some (n : Int) := by
  unfold stoi
  rw [strtol_toDigits]
  simp [Json.int32Max]
  omega

namespace CpuRun

theorem not_comma (r : CpuRun) : ',' ∉ r.text := by
  have hdigits : ∀ n, ',' ∉ Nat.toDigits 10 n :=
    fun n h => (digit_ne_dash (isDigit_toDigits n _ h)).2.2 rfl
  unfold text
  split
  · exact hdigits _
  · simp [hdigits]

theorem text_ne_nil (r : CpuRun) : r.text ≠ [] := by
  unfold text
  split
  · exact Nat.toDigits_ne_nil
  · simp

/-- A part of the list is read as its run. -/
theorem mem_cpuPart (r : CpuRun) (x : Int) : x ∈ cpuPart r.text ↔ r.Has x := by
  have hle := r.le
  have hint := r.int
  have hdash : ∀ n, ∀ c ∈ Nat.toDigits 10 n, (c != '-') = true :=
    fun n c hc => by simpa using (digit_ne_dash (isDigit_toDigits n c hc)).1
  unfold text Has
  split
  next heq =>
    have hdrop : (Nat.toDigits 10 r.first).dropWhile (· != '-') = [] :=
      List.dropWhile_eq_nil_iff.mpr (hdash _)
    simp only [cpuPart, hdrop, stoi_toDigits (by omega : r.first < 2 ^ 31), Option.toList_some,
      List.mem_singleton]
    omega
  next hne =>
    have hdrop : (Nat.toDigits 10 r.first ++ '-' :: Nat.toDigits 10 r.last).dropWhile (· != '-') =
        '-' :: Nat.toDigits 10 r.last := by
      rw [List.dropWhile_append_of_pos (hdash _)]
      simp
    have htake : (Nat.toDigits 10 r.first ++ '-' :: Nat.toDigits 10 r.last).takeWhile (· != '-') =
        Nat.toDigits 10 r.first := by
      rw [List.takeWhile_append_of_pos (hdash _)]
      simp
    simp only [cpuPart, hdrop, htake, stoi_toDigits (by omega : r.first < 2 ^ 31),
      stoi_toDigits (by omega : r.last < 2 ^ 31), List.mem_map, List.mem_range]
    constructor
    · rintro ⟨i, hi, rfl⟩
      omega
    · intro h
      exact ⟨(x - r.first).toNat, by omega, by omega⟩

end CpuRun

/-- The list of some runs is read as the processors of the runs. -/
theorem mem_parseCpuList (runs : List CpuRun) (x : Int) :
    x ∈ parseCpuList (runsText runs) ↔ ∃ r ∈ runs, r.Has x := by
  unfold parseCpuList runsText
  rw [mem_sortedSet]
  rcases runs.eq_nil_or_concat with rfl | ⟨init, last, hruns⟩
  · simp
  · have hsplit : ([','].intercalate (runs.map CpuRun.text)).splitOn ',' = runs.map CpuRun.text := by
      refine List.splitOn_intercalate ',' (fun l hl => ?_) (by simp [hruns])
      obtain ⟨r, -, rfl⟩ := List.mem_map.mp hl
      exact r.not_comma
    have hkeep : (runs.map CpuRun.text).filter (!·.isEmpty) = runs.map CpuRun.text := by
      refine List.filter_eq_self.mpr fun l hl => ?_
      obtain ⟨r, -, rfl⟩ := List.mem_map.mp hl
      simpa using r.text_ne_nil
    rw [hsplit, hkeep]
    simp only [List.mem_flatMap, List.mem_map, exists_exists_and_eq_and, CpuRun.mem_cpuPart]

theorem CpuRun.last_digit (r : CpuRun) : ∃ cs c, r.text = cs ++ [c] ∧ c.isDigit = true := by
  have hdigits : ∀ n, ∃ cs c, Nat.toDigits 10 n = cs ++ [c] ∧ c.isDigit = true := by
    intro n
    rcases (Nat.toDigits 10 n).eq_nil_or_concat' with hnil | ⟨cs, c, hcs⟩
    · exact absurd hnil Nat.toDigits_ne_nil
    · exact ⟨cs, c, hcs, isDigit_toDigits n c (by simp [hcs])⟩
  unfold text
  split
  · exact hdigits _
  · obtain ⟨cs, c, hcs, hc⟩ := hdigits r.last
    exact ⟨Nat.toDigits 10 r.first ++ '-' :: cs, c, by simp [hcs], hc⟩

theorem runsText_end (runs : List CpuRun) :
    runs = [] ∨ ∃ cs c, runsText runs = cs ++ [c] ∧ c.isDigit = true := by
  induction runs with
  | nil => exact .inl rfl
  | cons r rest ih =>
    refine .inr ?_
    rcases ih with rfl | ⟨cs, c, hcs, hc⟩
    · obtain ⟨cs, c, hcs, hc⟩ := r.last_digit
      exact ⟨cs, c, by simpa [runsText] using hcs, hc⟩
    · have hne : rest.map CpuRun.text ≠ [] := by
        intro hnil
        simp [runsText, hnil] at hcs
      refine ⟨r.text ++ ([','] ++ cs), c, ?_, hc⟩
      rw [runsText, List.map_cons, List.intercalate_cons_of_ne_nil hne]
      simpa [runsText] using hcs

namespace Sysfs

variable {s : Sysfs}

/-- A list is read without the line break the kernel puts after it. -/
theorem readFile_runs {path : String} {runs : List CpuRun}
    (h : s.file path = some (String.ofList (runsText runs ++ ['\n']))) :
    s.readFile path = runsText runs := by
  unfold readFile
  rw [h, Option.getD_some, String.toList_ofList]
  rcases runsText_end runs with rfl | ⟨cs, c, hcs, hc⟩
  · rfl
  · have hkeep : ¬(c = '\n' ∨ c = '\r' ∨ c = ' ') := by
      rintro (rfl | rfl | rfl) <;> exact absurd hc (by decide)
    simp only [not_or] at hkeep
    simp [hcs, hkeep]

theorem online_ascending (s : Sysfs) : s.online.Pairwise (· < ·) := by
  unfold online
  have hsorted := sortedSet_ascending
  split
  · exact List.Pairwise.map _ (fun _ _ h => by exact_mod_cast h) List.pairwise_lt_range
  · exact hsorted _

/-- The processors online are those the kernel lists. -/
theorem online_of_listing {runs : List CpuRun} (hruns : runs ≠ [])
    (h : s.file (cpuRoot ++ "/online") = some (String.ofList (runsText runs ++ ['\n']))) (cpu : Int) :
    cpu ∈ s.online ↔ ∃ r ∈ runs, r.Has cpu := by
  rw [← mem_parseCpuList]
  unfold online
  rw [readFile_runs h]
  split
  next hnil =>
    obtain ⟨r, rest, rfl⟩ := List.exists_cons_of_ne_nil hruns
    have hin : (r.first : Int) ∈ parseCpuList (runsText (r :: rest)) :=
      (mem_parseCpuList _ _).mpr ⟨r, by simp, le_rfl, by exact_mod_cast r.le⟩
    rw [hnil] at hin
    exact absurd hin (by simp)
  · rfl

/-- Two processors that are threads of one core. -/
def SameCore (s : Sysfs) (c d : Int) : Prop := s.coreId c ≠ [] ∧ s.coreKey c = s.coreKey d

/-- Two processors that share nothing. -/
def Apart (s : Sysfs) (c d : Int) : Prop := c ≠ d ∧ ¬s.SameCore c d

/-- No processor online is of a larger class. -/
def Fastest (s : Sysfs) (cpu : Int) : Prop :=
  cpu ∈ s.online ∧ ∃ k, 0 ≤ k ∧ s.klass cpu = some k ∧
    ∀ other ∈ s.online, ∀ j, s.klass other = some j → j ≤ k

theorem SameCore.symm {c d : Int} (h : s.SameCore c d) : s.SameCore d c := by
  obtain ⟨hid, hkey⟩ := h
  have hcore : s.coreId c = s.coreId d := congrArg Prod.snd hkey
  exact ⟨hcore ▸ hid, hkey.symm⟩

theorem SameCore.trans {c d e : Int} (h : s.SameCore c d) (h' : s.SameCore d e) :
    s.SameCore c e :=
  ⟨h.1, h.2.trans h'.2⟩

instance : Std.Symm s.Apart :=
  ⟨fun _ _ h => ⟨h.1.symm, fun hsame => h.2 hsame.symm⟩⟩

variable {best : Int} {classed : List (Int × Int)} {seen : List (List Char × List Char)}

theorem fastCores_sublist : (s.fastCores best classed seen).Sublist (classed.map (·.1)) := by
  induction classed generalizing seen with
  | nil => exact List.Sublist.refl _
  | cons p rest ih =>
    obtain ⟨cpu, k⟩ := p
    unfold fastCores
    split_ifs
    · exact ih.cons _
    · exact ih.cons_cons _
    · exact ih.cons _
    · exact ih.cons_cons _

theorem mem_fastCores {c : Int} (h : c ∈ s.fastCores best classed seen) :
    (c, best) ∈ classed ∧ (s.coreId c ≠ [] → s.coreKey c ∉ seen) := by
  induction classed generalizing seen with
  | nil => cases h
  | cons p rest ih =>
    obtain ⟨cpu, k⟩ := p
    unfold fastCores at h
    split_ifs at h with hk hid hseen
    · obtain ⟨hin, hnew⟩ := ih h
      exact ⟨by simp [hin], hnew⟩
    · rcases List.mem_cons.mp h with rfl | h
      · exact ⟨by simp [not_not.mp hk], fun hne => absurd (List.isEmpty_iff.mp hid) hne⟩
      · obtain ⟨hin, hnew⟩ := ih h
        exact ⟨by simp [hin], hnew⟩
    · obtain ⟨hin, hnew⟩ := ih h
      exact ⟨by simp [hin], hnew⟩
    · rcases List.mem_cons.mp h with rfl | h
      · exact ⟨by simp [not_not.mp hk], fun _ => hseen⟩
      · obtain ⟨hin, hnew⟩ := ih h
        exact ⟨by simp [hin], fun hne hold => hnew hne (List.mem_cons_of_mem _ hold)⟩

/-- No core is there twice. -/
theorem fastCores_apart : (s.fastCores best classed seen).Pairwise fun c d => ¬s.SameCore c d := by
  induction classed generalizing seen with
  | nil => exact List.Pairwise.nil
  | cons p rest ih =>
    obtain ⟨cpu, k⟩ := p
    unfold fastCores
    split_ifs with hk hid hseen
    · exact ih
    · exact List.pairwise_cons.mpr ⟨fun d _ hsame => hsame.1 (List.isEmpty_iff.mp hid), ih⟩
    · exact ih
    · refine List.pairwise_cons.mpr ⟨fun d hd hsame => ?_, ih⟩
      exact (mem_fastCores hd).2 hsame.symm.1 (by simp [hsame.2])

/-- Each processor of the class is a thread of a core that is there, or was seen. -/
theorem fastCores_cover {c : Int} (h : (c, best) ∈ classed) :
    (∃ d ∈ s.fastCores best classed seen, c = d ∨ s.SameCore c d) ∨
      (s.coreId c ≠ [] ∧ s.coreKey c ∈ seen) := by
  induction classed generalizing seen with
  | nil => cases h
  | cons p rest ih =>
    obtain ⟨cpu, k⟩ := p
    unfold fastCores
    split_ifs with hk hid hseen
    · rcases List.mem_cons.mp h with hhead | hrest
      · exact absurd (Prod.mk.inj hhead).2.symm hk
      · exact ih hrest
    · rcases List.mem_cons.mp h with hhead | hrest
      · exact .inl ⟨cpu, by simp, .inl (Prod.mk.inj hhead).1⟩
      · exact (ih hrest).imp (fun ⟨d, hd, hcd⟩ => ⟨d, by simp [hd], hcd⟩) id
    · rcases List.mem_cons.mp h with hhead | hrest
      · obtain rfl := (Prod.mk.inj hhead).1
        exact .inr ⟨by simpa using hid, hseen⟩
      · exact ih hrest
    · rcases List.mem_cons.mp h with hhead | hrest
      · exact .inl ⟨cpu, by simp, .inl (Prod.mk.inj hhead).1⟩
      · rcases @ih (s.coreKey cpu :: seen) hrest with ⟨d, hd, hcd⟩ | ⟨hne, hold⟩
        · exact .inl ⟨d, by simp [hd], hcd⟩
        · rcases List.mem_cons.mp hold with hkey | hold
          · exact .inl ⟨cpu, by simp, .inr ⟨hne, hkey⟩⟩
          · exact .inr ⟨hne, hold⟩

theorem mapM_some_iff {α β : Type} {f : α → Option β} {xs : List α} {ys : List β} :
    xs.mapM f = some ys ↔ List.Forall₂ (fun x y => f x = some y) xs ys := by
  induction xs generalizing ys with
  | nil =>
    rw [List.mapM_nil]
    constructor
    · intro h
      cases h
      exact .nil
    · intro h
      cases h
      rfl
  | cons x xs ih =>
    rw [List.mapM_cons, List.forall₂_cons_left_iff]
    simp only [Option.bind_eq_bind, Option.bind_eq_some_iff, Option.pure_def, Option.some.injEq, ih]
    constructor
    · rintro ⟨y, hy, rest, hrest, rfl⟩
      exact ⟨y, rest, hy, hrest, rfl⟩
    · rintro ⟨y, rest, hy, hrest, rfl⟩
      exact ⟨y, hy, rest, hrest, rfl⟩

theorem foldl_max_le_iff {classes : List Int} {init b : Int} :
    classes.foldl max init ≤ b ↔ init ≤ b ∧ ∀ k ∈ classes, k ≤ b := by
  induction classes generalizing init with
  | nil => simp
  | cons c rest ih =>
    rw [List.foldl_cons, ih, max_le_iff, List.forall_mem_cons, and_assoc]

/-- The fast cores of a topology are the cores of the fastest processors, each by one of its
threads. -/
structure Detected (s : Sysfs) (t : Topology) : Prop where
  pinning : t.pinningAvailable = s.affinity
  online : t.fastCores.Sublist s.online
  fastest : ∀ c ∈ t.fastCores, s.Fastest c
  apart : t.fastCores.Pairwise fun c d => ¬s.SameCore c d
  cover : ∀ c, s.Fastest c → ∃ d ∈ t.fastCores, c = d ∨ s.SameCore c d

/-- The processors with their classes. -/
theorem classed_iff {cpus : List Int}
    (h : cpus.mapM (fun cpu => (s.klass cpu).map fun k => (cpu, k)) = some classed) :
    classed.map (·.1) = cpus ∧ ∀ c k, (c, k) ∈ classed ↔ c ∈ cpus ∧ s.klass c = some k := by
  induction mapM_some_iff.mp h with
  | nil => simp
  | @cons cpu p cpus rest hp hrest ih =>
    obtain ⟨j, hj, rfl⟩ := Option.map_eq_some_iff.mp hp
    obtain ⟨hcpus, hmem⟩ := ih (mapM_some_iff.mpr hrest)
    refine ⟨by rw [List.map_cons, hcpus], fun c k => ?_⟩
    rw [List.mem_cons, List.mem_cons, hmem, Prod.mk.injEq]
    constructor
    · rintro (⟨rfl, rfl⟩ | ⟨hc, hk⟩)
      · exact ⟨.inl rfl, hj⟩
      · exact ⟨.inr hc, hk⟩
    · rintro ⟨rfl | hc, hk⟩
      · exact .inl ⟨rfl, Option.some.inj (hk.symm.trans hj)⟩
      · exact .inr ⟨hc, hk⟩

theorem detected {t : Topology} (h : detectLinux s = some t) : s.Detected t := by
  obtain ⟨classed, hclassed, rfl⟩ := Option.map_eq_some_iff.mp h
  obtain ⟨honline, hmem⟩ := classed_iff hclassed
  obtain ⟨hpos, hbest⟩ := foldl_max_le_iff.mp (le_refl ((classed.map (·.2)).foldl max 0))
  have hmax : ∀ c ∈ s.online, ∀ j, s.klass c = some j → j ≤ (classed.map (·.2)).foldl max 0 :=
    fun c hc j hj => hbest j (List.mem_map.mpr ⟨(c, j), (hmem c j).mpr ⟨hc, hj⟩, rfl⟩)
  refine ⟨rfl, honline ▸ fastCores_sublist, fun c hc => ?_, fastCores_apart, fun c hc => ?_⟩
  · obtain ⟨hin, hk⟩ := (hmem c _).mp (mem_fastCores hc).1
    exact ⟨hin, _, hpos, hk, hmax⟩
  · obtain ⟨hin, k, hk0, hk, hle⟩ := hc
    -- the class of the fastest processor is the largest there is
    have hkbest : k = (classed.map (·.2)).foldl max 0 := by
      refine le_antisymm (hmax c hin k hk) (foldl_max_le_iff.mpr ⟨hk0, fun j hj => ?_⟩)
      obtain ⟨⟨d, j⟩, hd, rfl⟩ := List.mem_map.mp hj
      obtain ⟨hdin, hdk⟩ := (hmem d j).mp hd
      exact hle d hdin j hdk
    refine (fastCores_cover ((hmem c _).mpr ⟨hin, hkbest ▸ hk⟩)).resolve_right fun hseen => ?_
    exact absurd hseen.2 (by simp)

theorem cpuPart_int {part : List Char} {cpu : Int} (h : cpu ∈ cpuPart part) :
    Json.IsInt32 cpu := by
  unfold cpuPart at h
  unfold Json.IsInt32
  split at h
  · obtain ⟨hlow, hhigh⟩ := Pgn.stoi_range (Option.mem_toList.mp h)
    unfold Json.int32Max at hhigh
    omega
  · split at h
    next a b ha hb =>
      obtain ⟨i, hi, rfl⟩ := List.mem_map.mp h
      have hlow := (Pgn.stoi_range ha).1
      have hhigh := (Pgn.stoi_range hb).2
      have hlt := List.mem_range.mp hi
      unfold Json.int32Max at hhigh
      omega
    · cases h

theorem online_int (hlen : s.online.length < 2 ^ 31) : ∀ c ∈ s.online, Json.IsInt32 c := by
  intro c hc
  unfold online at hlen hc
  split at hc
  next hnil =>
    rw [hnil] at hlen
    obtain ⟨i, hi, rfl⟩ := List.mem_map.mp hc
    have hlt := List.mem_range.mp hi
    simp only [List.length_map, List.length_range] at hlen
    unfold Json.IsInt32
    omega
  · unfold parseCpuList at hc
    obtain ⟨part, -, hpart⟩ := List.mem_flatMap.mp (mem_sortedSet.mp hc)
    exact cpuPart_int hpart

namespace Detected

variable {t : Topology}

theorem nodup (h : s.Detected t) : t.fastCores.Nodup :=
  (s.online_ascending.imp fun hlt => ne_of_lt hlt).sublist h.online

theorem pairwise_apart (h : s.Detected t) : t.fastCores.Pairwise s.Apart :=
  h.nodup.imp₂ (fun _ _ hne hcore => ⟨hne, hcore⟩) h.apart

/-- Fast processors that share no core are at most as many as the fast cores. -/
theorem length_le (h : s.Detected t) {cpus : List Int} (hfast : ∀ c ∈ cpus, s.Fastest c)
    (hapart : cpus.Pairwise s.Apart) : cpus.length ≤ t.fastCores.length := by
  have hnodup : cpus.Nodup := hapart.imp fun hab => hab.1
  -- each processor stands for the thread of its core that is there
  choose! core hcore hon using fun c (hc : c ∈ cpus) => h.cover c (hfast c hc)
  have hsub : cpus.toFinset.image core ⊆ t.fastCores.toFinset := by
    intro d hd
    obtain ⟨c, hc, rfl⟩ := Finset.mem_image.mp hd
    exact List.mem_toFinset.mpr (hcore c (List.mem_toFinset.mp hc))
  have hinj : Set.InjOn core cpus.toFinset := by
    intro c hc d hd hcd
    have hc := List.mem_toFinset.mp hc
    have hd := List.mem_toFinset.mp hd
    by_contra hne
    refine (hapart.forall hc hd hne).2 ?_
    have hond := hon d hd
    rw [← hcd] at hond
    rcases hon c hc with hself | hsame
    · rw [← hself] at hond
      exact (hond.resolve_left fun heq => hne heq.symm).symm
    · rcases hond with hself | hsame'
      · exact hself ▸ hsame
      · exact hsame.trans hsame'.symm
  have hcard := Finset.card_le_card hsub
  rw [Finset.card_image_of_injOn hinj, List.toFinset_card_of_nodup hnodup,
    List.toFinset_card_of_nodup h.nodup] at hcard
  exact hcard

theorem intCores (h : s.Detected t) (hlen : s.online.length < 2 ^ 31) : t.IntCores :=
  fun c hc => online_int hlen c (h.online.subset hc)

end Detected

end Sysfs

/-- Two fast cores of two threads, and two slow ones. -/
def hybridHost : Sysfs where
  file path :=
    [("/sys/devices/system/cpu/online", "0-5\n"), ("/sys/devices/cpu_core/cpus", "0-3\n"),
      ("/sys/devices/cpu_atom/cpus", "4-5\n"),
      ("/sys/devices/system/cpu/cpu0/topology/core_id", "0\n"),
      ("/sys/devices/system/cpu/cpu1/topology/core_id", "0\n"),
      ("/sys/devices/system/cpu/cpu2/topology/core_id", "4\n"),
      ("/sys/devices/system/cpu/cpu3/topology/core_id", "4\n"),
      ("/sys/devices/system/cpu/cpu4/topology/core_id", "8\n"),
      ("/sys/devices/system/cpu/cpu5/topology/core_id", "9\n")].lookup path
  processorsOnline := 6
  affinity := true

theorem online_of_listing_hybrid :
    (3 : Int) ∈ hybridHost.online ↔ ∃ r ∈ [(⟨0, 5, by omega, by omega⟩ : CpuRun)], r.Has 3 :=
  Sysfs.online_of_listing (by simp) (by decide +kernel) 3

def hybridTopology : Topology :=
  { nproc := 6, heterogeneous := true, pinningAvailable := true, qosHintAvailable := false
    fastCores := [0, 2], description := "4P+2E" }

deriving instance DecidableEq for Topology

theorem hybrid_detected : detectLinux hybridHost = some hybridTopology := by decide +kernel

theorem hybrid_counted : hybridHost.online.length < 2 ^ 31 := by decide +kernel

theorem slotInfos_pinned {a : Admission} {slots : Int} (hs : 1 ≤ slots)
    (hlen : a.cores.length = slots) :
    ∃ infos, slotInfos a slots = some infos ∧ infos.map (·.core) = a.cores.map some := by
  obtain ⟨infos, hinfos⟩ := Option.isSome_iff_exists.mp (Topology.slotInfos_isSome (.inr hlen))
  have hinfos' := hinfos
  have hne : a.cores.isEmpty = false := by
    cases hcores : a.cores with
    | nil =>
      rw [hcores] at hlen
      simp at hlen
      omega
    | cons c cs => rfl
  unfold slotInfos at hinfos
  simp only [hne, Bool.false_eq_true, if_false] at hinfos
  obtain ⟨hcount, hget⟩ := List.forall₂_iff_get.mp (Sysfs.mapM_some_iff.mp hinfos)
  rw [List.length_range] at hcount
  refine ⟨infos, hinfos', List.ext_getElem (by simp; omega) fun i hi hi' => ?_⟩
  rw [List.length_map] at hi hi'
  have hcore := hget i (by simp; omega) hi
  simp only [List.get_eq_getElem, List.getElem_range, List.getElem?_eq_getElem hi',
    Option.map_some, Option.some.injEq] at hcore
  rw [List.getElem_map, List.getElem_map, ← hcore]

/-- Each slot of an admitted client is given a processor of the largest class, and no two slots are
given threads of one core. -/
theorem slots_apart {s : Sysfs} {t : Topology} {slots : Int} {requestedCores : Option (List Int)}
    {a : Admission} (hint : s.online.length < 2 ^ 31) (hpin : s.affinity = true)
    (ht : detectLinux s = some t) (ha : decideAdmission t slots requestedCores = .ok a) :
    ∃ (infos : List SlotInfo) (cpus : List Int), slotInfos a slots = some infos ∧ infos.map (·.core) = cpus.map some ∧
      cpus.length = slots ∧ (∀ c ∈ cpus, s.Fastest c) ∧ cpus.Pairwise s.Apart := by
  have hd := Sysfs.detected ht
  have hp : t.pinningAvailable = true := hd.pinning.trans hpin
  obtain ⟨-, hassigned⟩ := Topology.sound hd.nodup (hd.intCores hint) ha
  unfold Topology.Assigned at hassigned
  rw [if_pos hp] at hassigned
  obtain ⟨hlen, hnodup, hsub, -⟩ := hassigned
  obtain ⟨infos, hinfos, hcores⟩ := slotInfos_pinned (Topology.admitted_slots ha) hlen
  refine ⟨infos, a.cores, hinfos, hcores, hlen, fun c hc => hd.fastest c (hsub hc), ?_⟩
  exact hnodup.imp_of_mem fun {c d} hc hcd hne =>
    hd.pairwise_apart.forall (hsub hc) (hsub hcd) hne

theorem slots_apart_hybrid : ∃ (infos : List SlotInfo) (cpus : List Int),
    slotInfos ⟨.pinned, [0, 2], "4P+2E, pinado em 0,2"⟩ 2 = some infos ∧
      infos.map (·.core) = cpus.map some ∧ cpus.length = (2 : Int) ∧
      (∀ c ∈ cpus, hybridHost.Fastest c) ∧ cpus.Pairwise hybridHost.Apart :=
  slots_apart hybrid_counted rfl hybrid_detected
    (by decide +kernel : decideAdmission hybridTopology 2 none = _)

/-- By default a client that can pin offers any number of slots for which there are that many
cores of the largest class, and no other. -/
theorem slots_offered_iff {s : Sysfs} {t : Topology} {slots : Int}
    (hint : s.online.length < 2 ^ 31) (hpin : s.affinity = true) (ht : detectLinux s = some t) :
    (decideAdmission t slots none).isOk = true ↔ 1 ≤ slots ∧
      ∃ cpus : List Int, cpus.length = slots ∧ (∀ c ∈ cpus, s.Fastest c) ∧
        cpus.Pairwise s.Apart := by
  have hd := Sysfs.detected ht
  have hp : t.pinningAvailable = true := hd.pinning.trans hpin
  have hlt : t.fastCores.length < 2 ^ 31 := lt_of_le_of_lt hd.online.length_le hint
  constructor
  · intro hok
    cases ha : decideAdmission t slots none with
    | error e =>
      rw [ha] at hok
      cases hok
    | ok a =>
      obtain ⟨-, cpus, -, -, hlen, hfast, hapart⟩ := slots_apart hint hpin ht ha
      exact ⟨Topology.admitted_slots ha, cpus, hlen, hfast, hapart⟩
  · rintro ⟨hs, cpus, hlen, hfast, hapart⟩
    refine Topology.complete hlt ⟨hs, ?_⟩
    have hle := hd.length_le hfast hapart
    rw [if_pos hp]
    change slots ≤ t.fastCores.length
    omega

theorem slots_offered_iff_hybrid :
    (decideAdmission hybridTopology 3 none).isOk = true ↔ 1 ≤ (3 : Int) ∧
      ∃ cpus : List Int, cpus.length = (3 : Int) ∧ (∀ c ∈ cpus, hybridHost.Fastest c) ∧
        cpus.Pairwise hybridHost.Apart :=
  slots_offered_iff hybrid_counted rfl hybrid_detected

end CapiNet
