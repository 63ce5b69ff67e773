import CapiNet.Library.Staging
import CapiNet.ClientLoop

namespace CapiNet

open Staging

/-- What the compiler and the processor say of a host. -/
inductive Cpu
  | x86 (bmi2 avx2 : Bool)
  | aarch64
  | other

inductive ArchTarget
  | x86Bmi2 | x86Avx2 | x86 | armv8 | unknown
  deriving DecidableEq

def ArchTarget.text : ArchTarget → String
  | .x86Bmi2 => "x86-64-bmi2"
  | .x86Avx2 => "x86-64-avx2"
  | .x86 => "x86-64"
  | .armv8 => "armv8"
  | .unknown => "unknown"

namespace Cpu

def hostHasBmi2 : Cpu → Bool
  | .x86 bmi2 _ => bmi2
  | _ => false

def hostArchTarget : Cpu → ArchTarget
  | .x86 bmi2 avx2 => if bmi2 then .x86Bmi2 else if avx2 then .x86Avx2 else .x86
  | .aarch64 => .armv8
  | .other => .unknown

end Cpu

/-- Something in a source tree; what it holds is left open. -/
structure TreeEntry (C : Type) where
  content : C
  regular : Bool
  ownerExec : Bool
  deriving DecidableEq

/-- What lies at the top of an unpacked tree. -/
abbrev Tree (C : Type) := List (String × TreeEntry C)

/-- What is in a scratch directory: a tarball, and the tree under `src`. -/
structure Scratch (C : Type) where
  tarball : Option C := none
  src : Option (Tree C) := none

/-- The programs a build runs, when they succeed. -/
structure Tools (C : Type) where
  download : String → C
  unpack : C → Tree C → Tree C
  make : List String → Tree C → Tree C

namespace Scratch

variable {C : Type}

def createDirectories (d : Scratch C) : Scratch C := { d with src := some (d.src.getD []) }

def curl (tools : Tools C) (url : String) (d : Scratch C) : Scratch C :=
  { d with tarball := some (tools.download url) }

def tar (tools : Tools C) (d : Scratch C) : Scratch C :=
  { d with src := d.tarball.elim d.src fun t => d.src.map (tools.unpack t) }

def make (tools : Tools C) (args : List String) (d : Scratch C) : Scratch C :=
  { d with src := d.src.map (tools.make args) }

/-- A name is taken out of `src`. -/
def takeOut (name : String) (d : Scratch C) : Scratch C :=
  { d with src := d.src.map fun tree => tree.filter (·.1 ≠ name) }

end Scratch

/-- A name of a build that is not that of a scratch directory. -/
abbrev CacheKey := { name : String // ∀ s, name ≠ s ++ ".tmp" }

/-- Builds in `builds`. -/
def builds : Layout CacheKey String where
  final k := k.val
  scratch k := k.val ++ ".tmp"
  final_injective := Subtype.val_injective
  apart k k' := k.property k'.val

structure BuildOptions where
  tarballUrl : String
  makeArgs : List String

def makeArguments (cpu : Cpu) (extra : List String) : List String :=
  let pextGiven := extra.any (·.startsWith "PEXT=")
  ["build", "NAME=capizero"] ++
    (if !pextGiven && !cpu.hostHasBmi2 then ["PEXT=false"] else []) ++ extra

/-- The engine in a tree: what the name asks for, or the only thing that can be it. -/
def findBuilt {C : Type} (tree : Tree C) : Option (String × TreeEntry C) :=
  match tree.lookup "capizero" with
  | some e => some ("capizero", e)
  | none =>
    match tree.filter fun e => e.2.regular && e.1.startsWith "capizero" && e.2.ownerExec with
    | [e] => some e
    | _ => none

def takeBuilt {C : Type} (d : Scratch C) : Option (TreeEntry C × Scratch C) :=
  (d.src.bind findBuilt).map fun e => (e.2, d.takeOut e.1)

/-- `build_engine`, in a directory for builds. -/
def buildEngine {C : Type} (tools : Tools C) (cpu : Cpu) (opts : BuildOptions) :
    Recipe (Scratch C) (TreeEntry C) where
  empty := {}
  prepare := Scratch.createDirectories
  commands := [.curl tools opts.tarballUrl, .tar tools, .make tools (makeArguments cpu opts.makeArgs)]
  take := takeBuilt
  probed := false

def kFastchessTag : String := "v1.8.2-alpha"

def fastchessTarballUrl (tag : String) : String :=
  "https://codeload.github.com/Disservin/fastchess/tar.gz/refs/tags/" ++ tag

/-- Tools in `tools`: the one there is, by its version. -/
def toolsLayout : Layout Unit String where
  final _ := "fastchess-" ++ kFastchessTag
  scratch _ := "fastchess-" ++ kFastchessTag ++ ".tmp"
  final_injective := fun _ _ _ => rfl
  apart _ _ := by decide

def takeFastchess {C : Type} (d : Scratch C) : Option (TreeEntry C × Scratch C) :=
  (d.src.bind (·.lookup "fastchess")).map fun e => (e, d.takeOut "fastchess")

/-- `ensure_fastchess`, where no binary is configured. -/
def ensureFastchess {C : Type} (tools : Tools C) (hardwareConcurrency : Nat) :
    Recipe (Scratch C) (TreeEntry C) where
  empty := {}
  prepare := Scratch.createDirectories
  commands := [.curl tools (fastchessTarballUrl kFastchessTag), .tar tools,
    .make tools ["-j" ++ toString (min 2 (max 1 (hardwareConcurrency / 2)))]]
  take := takeFastchess
  probed := true

theorem toList_ne_tmp {name : String} {c : Char} (hc : name.toList.getLast? = some c) (hne : c ≠ 'p') :
    ∀ s, name ≠ s ++ ".tmp" := by
  rintro s rfl
  rw [String.toList_append] at hc
  have hlast : (s.toList ++ ".tmp".toList).getLast? = some 'p' := by
    rw [List.getLast?_append]
    rfl
  exact hne (Option.some.inj (hc.symm.trans hlast))

/-- The builds of a client: by commit and architecture. -/
def cacheKey (sha : String) (arch : ArchTarget) : CacheKey where
  val := sha ++ "-" ++ arch.text
  property := by
    have hlast : ∀ c, arch.text.toList.getLast? = some c →
        (sha ++ "-" ++ arch.text).toList.getLast? = some c := by
      intro c hc
      rw [String.toList_append, List.getLast?_append, hc]
      rfl
    cases arch with
    | x86Bmi2 => exact toList_ne_tmp (hlast '2' (by decide)) (by decide)
    | x86Avx2 => exact toList_ne_tmp (hlast '2' (by decide)) (by decide)
    | x86 => exact toList_ne_tmp (hlast '4' (by decide)) (by decide)
    | armv8 => exact toList_ne_tmp (hlast '8' (by decide)) (by decide)
    | unknown => exact toList_ne_tmp (hlast 'n' (by decide)) (by decide)

theorem cacheKey_injective (arch : ArchTarget) : Function.Injective fun sha => cacheKey sha arch := by
  intro sha sha' h
  have hname : sha ++ "-" ++ arch.text = sha' ++ "-" ++ arch.text := congrArg Subtype.val h
  have hlist := congrArg String.toList hname
  simp only [String.toList_append, List.append_assoc, List.append_cancel_right_eq] at hlist
  exact String.toList_inj.mp hlist

/-- A commit by its full name. -/
def isFullSha (s : String) : Bool :=
  s.length == 40 && s.toList.all fun c => ('0' ≤ c && c ≤ '9') || ('a' ≤ c && c ≤ 'f')

abbrev FullSha := { s : String // isFullSha s = true }

/-- The builds of the server: by commit. -/
def FullSha.key (sha : FullSha) : CacheKey where
  val := sha.val
  property := by
    obtain ⟨s, hs⟩ := sha
    simp only [isFullSha, Bool.and_eq_true, beq_iff_eq] at hs
    cases hlast : s.toList.getLast? with
    | none =>
      have hnil := List.getLast?_eq_none_iff.mp hlast
      have hlen : s.toList.length = 40 := by rw [String.length_toList]; exact hs.1
      rw [hnil] at hlen
      cases hlen
    | some c =>
      refine toList_ne_tmp hlast ?_
      rintro rfl
      exact absurd (List.all_eq_true.mp hs.2 _ (List.mem_of_getLast? hlast)) (by decide)

theorem FullSha.key_injective : Function.Injective FullSha.key := by
  intro sha sha' h
  have hname : sha.key.val = sha'.key.val := congrArg Subtype.val h
  exact Subtype.ext hname

section Cached

variable {C : Type} (tools : Tools C) (cpu : Cpu) (makeArgs : List String)

/-- What a build of a tarball gives when nothing goes wrong. -/
def Tools.engineOf (url : String) : Option (TreeEntry C) :=
  (findBuilt (tools.make (makeArguments cpu makeArgs) (tools.unpack (tools.download url) []))).map
    (·.2)

theorem product_buildEngine (url : String) :
    (buildEngine tools cpu ⟨url, makeArgs⟩).product = tools.engineOf cpu makeArgs url := by
  simp only [Recipe.product, Recipe.after, buildEngine, takeBuilt, Tools.engineOf,
    List.take_length, List.foldl_cons, List.foldl_nil, Scratch.createDirectories, Scratch.curl,
    Scratch.tar, Scratch.make, Option.getD_none, Option.elim_some, Option.map_some,
    Option.bind_some, Option.map_map]
  rfl

/-- What happens to the builds of a host: the engine of a commit is asked for, and the build goes on
or is cut off. -/
inductive BuildEvent (K C : Type)
  | prepare (commit : K)
  | step (inp : Staging.Input (Scratch C) (TreeEntry C))
  | crash (left : Option (Dir (Scratch C) (TreeEntry C))) (kept : Bool)

variable {K : Type} (key : K → CacheKey) (url : K → String)

def BuildEvent.toEvent : BuildEvent K C → Event CacheKey (Scratch C) (TreeEntry C)
  | .prepare commit => .start (key commit) (buildEngine tools cpu ⟨url commit, makeArgs⟩)
  | .step inp => .step inp
  | .crash left kept => .crash left kept

/-- The builds of a host after some events. -/
def buildsAfter (events : List (BuildEvent K C)) : State CacheKey String (Scratch C) (TreeEntry C) :=
  State.run builds (events.map (BuildEvent.toEvent tools cpu makeArgs key url))

/-- What is found under the key of a commit is the engine of that commit, and a build of it in which
nothing goes wrong leaves it there, whatever was cut off before. -/
theorem cached_engine (hkey : Function.Injective key) (events : List (BuildEvent K C)) (commit : K)
    (e : TreeEntry C) :
    ((buildsAfter tools cpu makeArgs key url events).product builds (key commit) = some e →
      tools.engineOf cpu makeArgs (url commit) = some e) ∧
    (tools.engineOf cpu makeArgs (url commit) = some e →
      (buildsAfter tools cpu makeArgs key url
        (events ++ .prepare commit :: List.replicate 10 (.step {}))).product builds (key commit) =
          some e) := by
  have hsound : ∀ (events : List (BuildEvent K C)) (e : TreeEntry C),
      (buildsAfter tools cpu makeArgs key url events).product builds (key commit) = some e →
      tools.engineOf cpu makeArgs (url commit) = some e := by
    intro events e he
    obtain ⟨r, hr, hp⟩ := State.run_complete builds _ he
    obtain ⟨ev, -, hev⟩ := List.mem_map.mp hr
    cases ev with
    | prepare commit' =>
      injection hev with hk hrec
      obtain rfl := hkey hk
      rw [← product_buildEngine, hrec]
      exact hp
    | step => cases hev
    | crash => cases hev
  refine ⟨hsound events e, fun he => ?_⟩
  have hends := State.build_ends builds (events.map (BuildEvent.toEvent tools cpu makeArgs key url))
    (k := key commit) ((product_buildEngine tools cpu makeArgs (url commit)).trans he)
  have hrun : (buildsAfter tools cpu makeArgs key url
      (events ++ .prepare commit :: List.replicate 10 (.step {}))).builder =
        some ⟨key commit, buildEngine tools cpu ⟨url commit, makeArgs⟩, .done true⟩ := by
    rw [← hends, buildsAfter, List.map_append, List.map_cons, List.map_replicate]
    rfl
  obtain ⟨e', he'⟩ := State.run_found builds _ hrun rfl
  have := hsound _ e' he'
  rw [he] at this
  cases this
  exact he'

end Cached

/-- The engine a client plays for a commit is the one of that commit. -/
theorem engine_of_commit {C : Type} (tools : Tools C) (cpu : Cpu) (makeArgs : List String)
    (cfg : Routes.Config) (events : List (BuildEvent String C)) (sha : String) (e : TreeEntry C) :
    ((buildsAfter tools cpu makeArgs (cacheKey · cpu.hostArchTarget) (Routes.tarballUrl cfg)
        events).product builds (cacheKey sha cpu.hostArchTarget) = some e →
      tools.engineOf cpu makeArgs (Routes.tarballUrl cfg sha) = some e) ∧
    (tools.engineOf cpu makeArgs (Routes.tarballUrl cfg sha) = some e →
      (buildsAfter tools cpu makeArgs (cacheKey · cpu.hostArchTarget) (Routes.tarballUrl cfg)
        (events ++ .prepare sha :: List.replicate 10 (.step {}))).product builds
          (cacheKey sha cpu.hostArchTarget) = some e) :=
  cached_engine tools cpu makeArgs _ _ (cacheKey_injective _) events sha e

/-- The key of a build is the directory its engine is run from. -/
theorem Host.enginePath_eq (h : Host) (sha : String) {arch : ArchTarget}
    (harch : h.archTarget = arch.text) :
    h.enginePath sha = h.workDir ++ "/builds/" ++ (cacheKey sha arch).val ++ "/capizero" := by
  simp only [Host.enginePath, harch, cacheKey, String.append_assoc]

/-- The engine the server examines for a commit is the one of that commit. -/
theorem examined_engine {C : Type} (tools : Tools C) (cpu : Cpu) (makeArgs : List String)
    (cfg : Routes.Config) (events : List (BuildEvent FullSha C)) (sha : FullSha) (e : TreeEntry C)
    (he : (buildsAfter tools cpu makeArgs FullSha.key (fun sha => Routes.tarballUrl cfg sha.val)
      events).product builds sha.key = some e) :
    tools.engineOf cpu makeArgs (Routes.tarballUrl cfg sha.val) = some e :=
  (cached_engine tools cpu makeArgs _ _ FullSha.key_injective events sha e).1 he

/-- The harness a client has built is that of the fixed version. -/
theorem fastchess_of_tag {C : Type} (tools : Tools C) (cores : Nat)
    (events : List (Event Unit (Scratch C) (TreeEntry C)))
    (hevents : ∀ r, .start () r ∈ events → r = ensureFastchess tools cores) {e : TreeEntry C}
    (he : (State.run toolsLayout events).product toolsLayout () = some e) :
    (ensureFastchess tools cores).product = some e := by
  obtain ⟨r, hr, hp⟩ := State.run_complete toolsLayout events he
  rw [← hevents r hr]
  exact hp

/-- Tarballs that are their own addresses, and trees that remember what they were made of. -/
def plainTools : Tools String where
  download url := url
  unpack tarball tree := ("src", ⟨tarball, false, false⟩) :: tree
  make _ tree := ("capizero", ⟨String.join (tree.map (·.2.content)), true, true⟩) :: tree

/-- The first build loses its tarball half read. -/
def lostTarball : List (BuildEvent String String) :=
  .prepare "a" :: List.replicate 4 (.step {}) ++
    [.crash (some ⟨none, { tarball := some "half" }⟩) false]

theorem engine_of_commit_lostTarball :
    (buildsAfter plainTools .aarch64 [] (cacheKey · .armv8)
      (Routes.tarballUrl { timestamp := fun _ => "" })
        (lostTarball ++ .prepare "a" :: List.replicate 10 (.step {}))).product builds
          (cacheKey "a" .armv8) =
      some ⟨"https://codeload.github.com/fatorius/capizero/tar.gz/a", true, true⟩ :=
  (engine_of_commit plainTools .aarch64 [] { timestamp := fun _ => "" } lostTarball "a" _).2 (by decide)

end CapiNet
