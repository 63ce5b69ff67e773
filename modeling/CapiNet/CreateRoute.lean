import CapiNet.ClientLoop
import CapiNet.EngineBuild

namespace CapiNet

open Routes

/-- Where GitHub is, who asks it, and how its answers are parsed. -/
structure Github where
  api : String := "https://api.github.com"
  repo : String := "fatorius/capizero"
  token : String := ""
  parse : List Char → Option Json

structure GithubError where
  what : String
  notFound : Bool

/-- What a run of curl came to. -/
structure CurlOutput where
  exitCode : Int
  output : List Char

/-- The line of curl's configuration that depends on what is asked. -/
def urlLine (g : Github) (ref : String) : String :=
  "url = \"" ++ g.api ++ "/repos/" ++ g.repo ++ "/commits/" ++ ref ++ "\""

def optionLines (g : Github) : List String :=
  ["header = \"Accept: application/vnd.github+json\"",
    "header = \"X-GitHub-Api-Version: 2022-11-28\"", "header = \"User-Agent: capi_net\""] ++
  (if g.token = "" then [] else ["header = \"Authorization: Bearer " ++ g.token ++ "\""]) ++
  ["silent", "show-error", "location", "max-time = 20", "write-out = \"\\n%\x7bhttp_code\x7d\""]

/-- What curl reads from its standard input. -/
def curlConfig (g : Github) (ref : String) : String :=
  String.join ((urlLine g ref :: optionLines g).map (· ++ "\n"))

/-- The output before its last line break, and what `write-out` put behind it. -/
def cutStatus (output : List Char) : List Char × List Char :=
  if '\n' ∈ output then
    ((output.reverse.dropWhile (· != '\n')).tail.reverse,
      (output.reverse.takeWhile (· != '\n')).reverse)
  else (output, [])

def resolveRef (g : Github) (curl : String → CurlOutput) (ref : String) :
    Except GithubError String :=
  let r := curl (curlConfig g ref)
  if r.exitCode ≠ 0 then
    .error ⟨"GitHub API unreachable: " ++ String.ofList (tailLines r.output 3), false⟩
  else
    let (body, code) := cutStatus r.output
    if code = ['4', '0', '4'] ∨ code = ['4', '2', '2'] then
      .error ⟨"ref not found in " ++ g.repo ++ ": " ++ ref, true⟩
    else if code ≠ ['2', '0', '0'] then
      .error ⟨"GitHub API returned HTTP " ++ String.ofList code ++ " for ref " ++ ref, false⟩
    else
      match (g.parse body).bind (·.find "sha") with
      | some (.str sha) =>
        if isFullSha sha then .ok sha
        else .error ⟨"unexpected GitHub API response for ref " ++ ref, false⟩
      | _ => .error ⟨"unexpected GitHub API response for ref " ++ ref, false⟩

theorem resolveRef_full {g : Github} {curl : String → CurlOutput} {ref sha : String}
    (h : resolveRef g curl ref = .ok sha) : isFullSha sha = true := by
  dsimp only [resolveRef] at h
  split at h
  · cases h
  split at h
  · cases h
  split at h
  · cases h
  split at h
  · split at h
    next hsha =>
      cases h
      exact hsha
    next => cases h
  · cases h

/-- A file of the books directory. Its lines are read only when they are counted or sampled. -/
structure BookFile where
  size : Nat
  mtime : ℚ
  lines : Except String (List String)

/-- The regular files of the books directory. -/
abbrev Shelf := String → Option BookFile

/-- What is remembered of a book. -/
structure CountedBook where
  size : Nat
  mtime : ℚ
  positions : Nat

abbrev BookCache := String → Option CountedBook

def countPositions (lines : List String) : Nat := (lines.filterMap epdToFen).length

/-- The positions of a book: those remembered if the file looks the same, else they are counted. -/
def countBookPositions (cache : BookCache) (name : String) (book : BookFile) :
    Except String (Nat × BookCache) :=
  match (cache name).filter fun c => c.size == book.size && c.mtime == book.mtime with
  | some c => .ok (c.positions, cache)
  | none => do
    let n := countPositions (← book.lines)
    return (n, Function.update cache name (some ⟨book.size, book.mtime, n⟩))

/-- The checks of a specification up to asking GitHub, and what is remembered of books then. -/
def checkSpec (presets : SprtPresets) (shelf : Shelf) (cache : BookCache) (body : Json) :
    Except Response TestSpec × BookCache :=
  match parseBody body with
  | .error what => (.error (sendError 400 "bad_request" what), cache)
  | .ok body =>
    match parseTestSpec body presets with
    | .error what => (.error (sendError 400 "invalid_spec" what), cache)
    | .ok spec =>
      match shelf spec.bookName with
      | none => (.error (sendError 400 "invalid_spec" ("book not found: " ++ spec.bookName)), cache)
      | some book =>
        match countBookPositions cache spec.bookName book with
        | .error _ => (.error (sendError 500 "internal_error" ""), cache)
        | .ok (available, cache) =>
          if (available : Int) < spec.totalPairs then
            (.error (sendError 400 "invalid_spec" ("total_pairs (" ++ toString spec.totalPairs ++
              ") exceeds the " ++ toString available ++ " positions in " ++ spec.bookName)), cache)
          else (.ok spec, cache)

/-- Both commits of a specification; curl runs once for each. -/
def resolveCommits (g : Github) (curl curl' : String → CurlOutput) (spec : TestSpec) :
    Except Response (String × String) :=
  match (do
    let candidate ← resolveRef g curl spec.candidateRef
    let baseline ← resolveRef g curl' spec.baselineRef
    return (candidate, baseline) : Except GithubError (String × String)) with
  | .error e =>
    if e.notFound then .error (sendError 400 "ref_not_found" e.what)
    else .error (sendError 502 "github_unavailable" e.what)
  | .ok (candidate, baseline) =>
    if candidate = baseline then
      .error (sendError 400 "invalid_spec"
        ("candidate and baseline resolve to the same commit " ++ candidate))
    else .ok (candidate, baseline)

def createdResponse (testId : Int) (spec : TestSpec) (candidate baseline : String) : Response :=
  ⟨201, .obj [("test_id", .int testId), ("status", .str "validating"),
    ("candidate", .obj [("ref", .str spec.candidateRef), ("commit", .str candidate)]),
    ("baseline", .obj [("ref", .str spec.baselineRef), ("commit", .str baseline)])]⟩

theorem resolveCommits_ok {g : Github} {curl curl' : String → CurlOutput} {spec : TestSpec}
    {candidate baseline : String} (h : resolveCommits g curl curl' spec = .ok (candidate, baseline)) :
    isFullSha candidate = true ∧ isFullSha baseline = true ∧ candidate ≠ baseline := by
  unfold resolveCommits at h
  split at h
  next => split at h <;> cases h
  next c b hboth =>
    obtain ⟨_, hc, hrest⟩ := bind_eq_ok.mp hboth
    obtain ⟨_, hb, hpair⟩ := bind_eq_ok.mp hrest
    cases hpair
    split at h
    next => cases h
    next hne =>
      cases h
      exact ⟨resolveRef_full hc, resolveRef_full hb, hne⟩

theorem resolveCommits_refuses {g : Github} {curl curl' : String → CurlOutput} {spec : TestSpec}
    {r : Response} (h : resolveCommits g curl curl' spec = .error r) : r.status ≠ 201 := by
  unfold resolveCommits at h
  split at h
  next =>
    split at h <;> cases h <;> simp [sendError]
  next =>
    split at h <;> cases h
    simp [sendError]

/-- The shelf holds a book of this name with at least so many positions. -/
def HasBook (shelf : Shelf) (name : String) (n : Int) : Prop :=
  ∃ book lines, shelf name = some book ∧ book.lines = .ok lines ∧ n ≤ countPositions lines

/-- A request asked for this, and the shelf it saw had positions enough. -/
def Requested (presets : SprtPresets) (requests : List (Json × Shelf)) (spec : TestSpec) : Prop :=
  ∃ r ∈ requests, parseTestSpec r.1 presets = .ok spec ∧
    HasBook r.2 spec.bookName spec.totalPairs

/-- A file that changes shows another size or another time. -/
def Stamped (shelves : List Shelf) : Prop :=
  ∀ shelf ∈ shelves, ∀ shelf' ∈ shelves, ∀ name book book', shelf name = some book →
    shelf' name = some book' → book.size = book'.size → book.mtime = book'.mtime →
    book.lines = book'.lines

/-- What is remembered of a book was true of it on one of the shelves. -/
def BookCache.Of (shelves : List Shelf) (cache : BookCache) : Prop :=
  ∀ name c, cache name = some c → ∃ shelf ∈ shelves, ∃ book lines, shelf name = some book ∧
    book.lines = .ok lines ∧ book.size = c.size ∧ book.mtime = c.mtime ∧
    c.positions = countPositions lines

variable {shelves : List Shelf} {cache cache' : BookCache} {shelf : Shelf} {name : String}
  {book : BookFile} {n : Nat}

/-- The number returned is the number of positions the book has now. -/
theorem countBookPositions_of (hs : Stamped shelves) (hc : cache.Of shelves)
    (hmem : shelf ∈ shelves) (hbook : shelf name = some book)
    (h : countBookPositions cache name book = .ok (n, cache')) :
    (∃ lines, book.lines = .ok lines ∧ n = countPositions lines) ∧ cache'.Of shelves := by
  unfold countBookPositions at h
  split at h
  next c hhit =>
    cases h
    obtain ⟨hname, hsame⟩ := Option.filter_eq_some_iff.mp hhit
    simp only [Bool.and_eq_true, beq_iff_eq] at hsame
    obtain ⟨old, hold, book', lines, hbook', hlines, hsize, hmtime, hn⟩ := hc name c hname
    have heq := hs shelf hmem old hold name book book' hbook hbook' (hsame.1.symm.trans hsize.symm)
      (hsame.2.symm.trans hmtime.symm)
    exact ⟨⟨lines, heq.trans hlines, hn⟩, hc⟩
  next =>
    obtain ⟨lines, hlines, hpair⟩ := bind_eq_ok.mp h
    cases hpair
    refine ⟨⟨lines, hlines, rfl⟩, fun other c hother => ?_⟩
    by_cases hname : other = name
    · subst hname
      rw [Function.update_self] at hother
      cases hother
      exact ⟨shelf, hmem, book, lines, hbook, hlines, rfl, rfl, rfl⟩
    · rw [Function.update_of_ne hname] at hother
      exact hc other c hother

theorem checkSpec_refuses {presets : SprtPresets} {body : Json} {r : Response}
    (h : (checkSpec presets shelf cache body).1 = .error r) : r.status ≠ 201 := by
  unfold checkSpec at h
  split at h
  · cases h
    simp [sendError]
  split at h
  · cases h
    simp [sendError]
  split at h
  · cases h
    simp [sendError]
  split at h
  · cases h
    simp [sendError]
  split at h
  · cases h
    simp [sendError]
  · cases h

theorem checkSpec_parsed {presets : SprtPresets} {body : Json} {spec : TestSpec}
    (h : (checkSpec presets shelf cache body).1 = .ok spec) :
    parseTestSpec body presets = .ok spec := by
  unfold checkSpec at h
  split at h
  next => cases h
  next obj hobj =>
    have hbody : obj = body := by
      unfold parseBody at hobj
      split at hobj <;> cases hobj
      rfl
    subst hbody
    split at h
    next => cases h
    next spec' hspec =>
      split at h
      next => cases h
      next =>
        split at h
        next => cases h
        next =>
          split at h
          next => cases h
          next =>
            cases h
            exact hspec

/-- A specification that passes the checks asks for no more positions than its book has. -/
theorem checkSpec_of (presets : SprtPresets) (body : Json) (hs : Stamped shelves)
    (hc : cache.Of shelves) (hmem : shelf ∈ shelves) :
    (checkSpec presets shelf cache body).2.Of shelves ∧
    ∀ spec, (checkSpec presets shelf cache body).1 = .ok spec →
      HasBook shelf spec.bookName spec.totalPairs := by
  have refused : ∀ (r : Response) spec, (.error r : Except Response TestSpec) = .ok spec →
      HasBook shelf spec.bookName spec.totalPairs := by
    intro r spec h
    cases h
  unfold checkSpec
  split
  next => exact ⟨hc, refused _⟩
  next =>
    split
    next => exact ⟨hc, refused _⟩
    next spec =>
      split
      next => exact ⟨hc, refused _⟩
      next book hbook =>
        split
        next => exact ⟨hc, refused _⟩
        next available cache' hcount =>
          obtain ⟨⟨lines, hlines, rfl⟩, hcache⟩ := countBookPositions_of hs hc hmem hbook hcount
          split
          next => exact ⟨hcache, refused _⟩
          next henough =>
            refine ⟨hcache, fun spec' heq => ?_⟩
            cases heq
            exact ⟨book, lines, hbook, hlines, by omega⟩

end CapiNet
