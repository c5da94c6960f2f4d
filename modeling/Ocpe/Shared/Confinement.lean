import Ocpe.Lib.FileTree
import Ocpe.Lib.JsonText
import Ocpe.Shared.ProblemList

/-!
# Where a problem id leads

The problem loader pastes the id into paths.  Over a tree of directories and files:

* `listable_iff`: when `list_problems` returns.
* `confined_of_plain`: an id that is a name leads to the problem's own directory.
* `confined_iff`: an id that `get_problem` takes is one that `list_problems` lists, and
  everything that is opened for it is in its own directory, exactly when it is a name
  that does not begin with a dot, and `list_problems` returns.

An id with `..` in it leads elsewhere: `reads_elsewhere`.
-/

namespace Ocpe

open Lib

/-- The files of a process, with its current directory. -/
structure Disk where
  root : Tree
  cwd : List Bytes

def Disk.place (disk : Disk) (path : Bytes) : Option (List Bytes) :=
  disk.root.resolve disk.cwd path

def Disk.node (disk : Disk) (path : Bytes) : Option Tree :=
  (disk.place path).bind disk.root.at?

/-- What the system calls answer.  A directory can be opened for reading, and nothing
comes out of it. -/
def Disk.files (disk : Disk) : FileSys where
  read path :=
    match disk.node path with
    | some (.file content true) => some content
    | some (.dir _) => some []
    | _ => none
  isReg path :=
    match disk.node path with
    | some (.file ..) => some true
    | some (.dir _) => some false
    | none => none
  entries path :=
    match disk.node path with
    | some (.dir entries) => some (bytes "." :: bytes ".." :: Tree.names entries)
    | _ => none

section Answers

variable {disk : Disk} {path : Bytes}

theorem Disk.read_eq : disk.files.read path =
    match disk.node path with
    | some (.file content true) => some content
    | some (.dir _) => some []
    | _ => none := rfl

theorem Disk.isReg_eq : disk.files.isReg path =
    match disk.node path with
    | some (.file ..) => some true
    | some (.dir _) => some false
    | none => none := rfl

theorem Disk.entries_eq : disk.files.entries path =
    match disk.node path with
    | some (.dir entries) => some (bytes "." :: bytes ".." :: Tree.names entries)
    | _ => none := rfl

end Answers

section Opened

variable (files : FileSys) (problemsDir : Bytes)

/-- The paths that `n` more rounds of `load_test_cases` open. -/
def openedByRounds (testsDir : Bytes) : Nat → Nat → List Bytes
  | 0, _ => []
  | n + 1, i =>
    if (files.stat (inPath testsDir i)).isNone then []
    else
      inPath testsDir i :: outPath testsDir i ::
        match files.ifstream (inPath testsDir i), files.ifstream (outPath testsDir i) with
        | some _, some _ => openedByRounds testsDir n (i + 1)
        | _, _ => []

def openedPaths (problemId : Bytes) : List Bytes :=
  (problemsDir ++ "/" ++ problemId ++ "/meta.json") ::
    openedByRounds files (testsDirOf problemsDir problemId) 10000 0

theorem mem_openedByRounds {testsDir : Bytes} {n i : Nat} {path : Bytes}
    (h : path ∈ openedByRounds files testsDir n i) :
    ∃ j, path = inPath testsDir j ∨ path = outPath testsDir j := by
  induction n generalizing i with
  | zero => cases h
  | succ n ih =>
    rw [openedByRounds] at h
    split at h
    · cases h
    · rcases List.mem_cons.mp h with rfl | h
      · exact ⟨i, .inl rfl⟩
      rcases List.mem_cons.mp h with rfl | h
      · exact ⟨i, .inr rfl⟩
      split at h
      · exact ih h
      · cases h

end Opened

/-! ### When `list_problems` returns -/

section Listable

variable {F : JsonFormat} {files : FileSys} {problemsDir : Bytes}

/-- Every entry that has a `meta.json` has one that is a problem, and few enough tests
to count them. -/
def Listable (F : JsonFormat) (files : FileSys) (problemsDir : Bytes) : Prop :=
  ∀ names, files.entries (cstr problemsDir) = some names → ∀ name ∈ names, name.head? ≠ some 46 →
    files.stat (problemsDir ++ "/" ++ name ++ "/meta.json") = some true →
    ∀ text, files.ifstream (problemsDir ++ "/" ++ name ++ "/meta.json") = some text →
      (∃ info, problemInfoFromJson F text = .ok info) ∧
        ∃ count, countInputs files (testsDirOf problemsDir name) = .ok count

theorem problemOfEntry_isOk_iff {name : Bytes} :
    (∃ p, problemOfEntry files problemsDir F name = .ok p) ↔
      (name.head? ≠ some 46 →
        files.stat (problemsDir ++ "/" ++ name ++ "/meta.json") = some true →
        ∀ text, files.ifstream (problemsDir ++ "/" ++ name ++ "/meta.json") = some text →
          (∃ info, problemInfoFromJson F text = .ok info) ∧
            ∃ count, countInputs files (testsDirOf problemsDir name) = .ok count) := by
  have hdir : problemsDir ++ bytes "/" ++ name ++ bytes "/tests" = testsDirOf problemsDir name := rfl
  unfold problemOfEntry
  split
  · next hdot => exact iff_of_true ⟨_, rfl⟩ fun h => absurd hdot h
  next hdot =>
  dsimp only
  split
  · next hstat => exact iff_of_true ⟨_, rfl⟩ fun _ h => absurd h hstat
  next hstat =>
  have hreg : files.stat (problemsDir ++ bytes "/" ++ name ++ bytes "/meta.json") = some true := by
    simpa using hstat
  split
  · next hnone => exact iff_of_true ⟨_, rfl⟩ fun _ _ text h => by rw [hnone] at h; cases h
  next text htext =>
  rw [hdir]
  constructor
  · rintro ⟨p, hp⟩ - - text' htext'
    cases htext.symm.trans htext'
    obtain ⟨info, hinfo, hp⟩ := bind_eq_ok.mp hp
    obtain ⟨count, hcount, -⟩ := bind_eq_ok.mp hp
    exact ⟨⟨info, mapError_eq_ok.mp hinfo⟩, count, hcount⟩
  · intro h
    obtain ⟨⟨info, hinfo⟩, count, hcount⟩ := h hdot hreg text htext
    rw [hinfo, hcount]
    exact ⟨_, rfl⟩

theorem problemOfEntry_of {name text : Bytes} {info : ProblemInfo} {count : Nat}
    (hdot : name.head? ≠ some 46)
    (hstat : files.stat (problemsDir ++ "/" ++ name ++ "/meta.json") = some true)
    (htext : files.ifstream (problemsDir ++ "/" ++ name ++ "/meta.json") = some text)
    (hinfo : problemInfoFromJson F text = .ok info)
    (hcount : countInputs files (testsDirOf problemsDir name) = .ok count) :
    problemOfEntry files problemsDir F name =
      .ok (some { info with id := name, testCaseCount := Int32.ofNat count }) := by
  have hdir : problemsDir ++ bytes "/" ++ name ++ bytes "/tests" = testsDirOf problemsDir name := rfl
  rw [problemOfEntry, if_neg hdot]
  dsimp only
  rw [if_neg (by rw [hstat]; exact fun h => h rfl), htext]
  dsimp only
  rw [hinfo, hdir, hcount]
  rfl

theorem problemsOfEntries_isOk_iff {names : List Bytes} :
    (∃ problems, problemsOfEntries files problemsDir F names = .ok problems) ↔
      ∀ name ∈ names, ∃ p, problemOfEntry files problemsDir F name = .ok p := by
  induction names with
  | nil => exact iff_of_true ⟨_, rfl⟩ (by simp)
  | cons name names ih =>
    rw [List.forall_mem_cons, ← ih, problemsOfEntries]
    constructor
    · rintro ⟨problems, h⟩
      obtain ⟨p, hp, h⟩ := bind_eq_ok.mp h
      obtain ⟨rest, hrest, -⟩ := bind_eq_ok.mp h
      exact ⟨⟨p, hp⟩, rest, hrest⟩
    · rintro ⟨⟨p, hp⟩, rest, hrest⟩
      rw [hp, hrest]
      exact ⟨_, rfl⟩

theorem listable_iff :
    (∃ problems, listProblems files problemsDir F = .ok problems) ↔
      Listable F files problemsDir := by
  unfold listProblems Listable
  cases hentries : files.entries (cstr problemsDir) with
  | none => exact iff_of_true ⟨_, rfl⟩ fun names h => nomatch h
  | some names =>
    dsimp only
    rw [problemsOfEntries_isOk_iff]
    simp only [problemOfEntry_isOk_iff, Option.some.injEq, forall_eq']

end Listable

/-! ### Where the paths of an id lead -/

section Paths

variable {disk : Disk} {F : JsonFormat} {problemsDir problemId : Bytes}

/-- The id is the name of an entry that `list_problems` looks at. -/
def ProblemName (problemId : Bytes) : Prop :=
  PlainName problemId ∧ NulFree problemId ∧ problemId.head? ≠ some 46

instance (problemId : Bytes) : Decidable (ProblemName problemId) :=
  inferInstanceAs (Decidable (_ ∧ _ ∧ _))

def Confined (disk : Disk) (problemsDir problemId : Bytes) : Prop :=
  ∃ place, disk.place problemsDir = some place ∧
    ∀ path ∈ openedPaths disk.files problemsDir problemId,
      ∀ l, disk.place (cstr path) = some l → (place ++ [problemId]) <+: l

def Listed (F : JsonFormat) (files : FileSys) (problemsDir problemId : Bytes) : Prop :=
  ∃ problems, listProblems files problemsDir F = .ok problems ∧ ∃ q ∈ problems, q.id = problemId

theorem splitOn_below (hid : PlainName problemId) (rest : Bytes) :
    (problemId ++ 47 :: rest).splitOn 47 = problemId :: rest.splitOn 47 :=
  List.splitOn_append_cons_self_of_not_mem hid.2.2.2 rest

/-- A path below the directory of a problem, seen from the problems directory. -/
theorem place_below (hdir : problemsDir ≠ []) (hid : PlainName problemId) (rest : Bytes) :
    disk.place (problemsDir ++ 47 :: (problemId ++ 47 :: rest)) =
      (disk.place problemsDir).bind fun l => disk.root.walk l (problemId :: rest.splitOn 47) := by
  rw [Disk.place, Tree.resolve_append hdir, splitOn_below hid]
  rfl

theorem ne_of_mem_decimal {i : Nat} {b : UInt8} (h : b ∈ decimal i) : b ≠ 47 ∧ b ≠ 0 := by
  have hpos : ¬ (i : Int) < 0 := by omega
  rw [decimal, if_neg hpos] at h
  have hb := (ascii_toDigits_le _ b h).1
  constructor
  · rintro rfl
    exact absurd hb (by decide)
  · rintro rfl
    exact absurd hb (by decide)

/-- The name of a test file is one component, and a name. -/
theorem plainName_test {i : Nat} {ext : Bytes} (h47 : (47 : UInt8) ∉ ext) (hlen : 2 < ext.length) :
    PlainName (decimal i ++ ext) := by
  have hlong : 2 < (decimal i ++ ext).length := by
    rw [List.length_append]
    omega
  refine ⟨?_, ?_, ?_, ?_⟩
  · intro h
    rw [h] at hlong
    cases hlong
  · intro h
    rw [h] at hlong
    exact absurd hlong (by decide)
  · intro h
    rw [h] at hlong
    exact absurd hlong (by decide)
  · intro h
    rcases List.mem_append.mp h with h | h
    · exact (ne_of_mem_decimal h).1 rfl
    · exact h47 h

/-- What is opened for an id, below the directory of the problem: names without a NUL. -/
theorem below_of_mem_openedPaths {path : Bytes}
    (h : path ∈ openedPaths disk.files problemsDir problemId) :
    ∃ rest, path = problemsDir ++ 47 :: (problemId ++ 47 :: rest) ∧ NulFree rest ∧
      ∀ c ∈ rest.splitOn 47, PlainName c := by
  have htest : ∀ ext : Bytes, (47 : UInt8) ∉ ext → NulFree ext → 2 < ext.length → ∀ j : Nat,
      path = testsDirOf problemsDir problemId ++ bytes "/" ++ decimal j ++ ext →
      ∃ rest, path = problemsDir ++ 47 :: (problemId ++ 47 :: rest) ∧ NulFree rest ∧
        ∀ c ∈ rest.splitOn 47, PlainName c := by
    intro ext h47 hnul hlen j hpath
    have hname : PlainName (decimal j ++ ext) := plainName_test h47 hlen
    refine ⟨bytes "tests" ++ 47 :: (decimal j ++ ext), ?_, ?_, ?_⟩
    · rw [hpath, testsDirOf]
      simp only [List.append_assoc]
      rfl
    · have hfree : NulFree (decimal j) := fun h => (ne_of_mem_decimal h).2 rfl
      exact nulFree_append.mpr ⟨by decide, nulFree_append (s := [47]).mpr
        ⟨by decide, nulFree_append.mpr ⟨hfree, hnul⟩⟩⟩
    · rw [List.splitOn_append_cons_self_of_not_mem (by decide),
        List.splitOn_eq_singleton hname.2.2.2]
      intro c hc
      rcases List.mem_cons.mp hc with rfl | hc
      · decide
      · rw [List.mem_singleton.mp hc]
        exact hname
  rcases List.mem_cons.mp h with rfl | h
  · refine ⟨bytes "meta.json", ?_, by decide, by decide⟩
    simp only [List.append_assoc]
    rfl
  · obtain ⟨j, rfl | rfl⟩ := mem_openedByRounds _ h
    · exact htest ".in" (by decide) (by decide) (by decide) j rfl
    · exact htest ".out" (by decide) (by decide) (by decide) j rfl

/-- **A name leads to the problem's own directory.** -/
theorem confined_of_plain {place : List Bytes} (hne : problemsDir ≠ []) (hdir : NulFree problemsDir)
    (hid : PlainName problemId) (hfree : NulFree problemId)
    (hplace : disk.place problemsDir = some place) : Confined disk problemsDir problemId := by
  refine ⟨place, hplace, fun path hpath l hl => ?_⟩
  obtain ⟨rest, rfl, hrest, hplain⟩ := below_of_mem_openedPaths hpath
  have hnul : NulFree (problemsDir ++ 47 :: (problemId ++ 47 :: rest)) :=
    nulFree_append.mpr ⟨hdir, nulFree_append (s := [47]).mpr ⟨by decide, nulFree_append.mpr
      ⟨hfree, nulFree_append (s := [47]).mpr ⟨by decide, hrest⟩⟩⟩⟩
  rw [cstr_eq_self hnul, place_below hne hid, hplace] at hl
  have hbelow := Tree.walk_names (List.forall_mem_cons.mpr ⟨hid, hplain⟩) hl
  exact ⟨rest.splitOn 47, by rw [hbelow, List.append_assoc]; rfl⟩

theorem place_of_read {path text : Bytes} (h : disk.files.read path = some text) :
    ∃ place node, disk.place path = some place ∧ disk.root.at? place = some node := by
  have hnode : ∃ node, disk.node path = some node := by
    rw [Disk.read_eq] at h
    cases hnode : disk.node path with
    | none =>
      rw [hnode] at h
      cases h
    | some node => exact ⟨node, rfl⟩
  obtain ⟨node, hnode⟩ := hnode
  obtain ⟨place, hplace, hat⟩ := Option.bind_eq_some_iff.mp hnode
  exact ⟨place, node, hplace, hat⟩

theorem getProblem_ok {p : ProblemInfo} {files : FileSys}
    (h : getProblem files problemsDir F problemId = .ok (some p)) :
    ∃ text info, files.ifstream (problemsDir ++ "/" ++ problemId ++ "/meta.json") = some text ∧
      problemInfoFromJson F text = .ok info := by
  unfold getProblem at h
  split at h
  · cases h
  next text htext =>
  obtain ⟨info, hinfo, -⟩ := bind_eq_ok.mp h
  exact ⟨text, info, htext, hinfo⟩

theorem entry_of_getProblem {p : ProblemInfo} (hempty : F.parse [] = none)
    (hne : problemsDir ≠ []) (hdir : NulFree problemsDir) (hid : PlainName problemId)
    (hfree : NulFree problemId)
    (h : getProblem disk.files problemsDir F problemId = .ok (some p)) :
    ∃ place entries, disk.place problemsDir = some place ∧
      disk.root.at? place = some (.dir entries) ∧ problemId ∈ Tree.names entries ∧
      disk.files.stat (problemsDir ++ "/" ++ problemId ++ "/meta.json") = some true := by
  obtain ⟨text, info, htext, hinfo⟩ := getProblem_ok h
  have hpath : problemsDir ++ bytes "/" ++ problemId ++ bytes "/meta.json" =
      problemsDir ++ 47 :: (problemId ++ 47 :: bytes "meta.json") := by
    simp only [List.append_assoc]
    rfl
  have hnul : NulFree (problemsDir ++ bytes "/" ++ problemId ++ bytes "/meta.json") :=
    nulFree_append.mpr ⟨nulFree_append.mpr ⟨nulFree_append.mpr ⟨hdir, by decide⟩, hfree⟩, by decide⟩
  rw [FileSys.ifstream, cstr_eq_self hnul] at htext
  obtain ⟨l, node, hl, hat⟩ := place_of_read htext
  have hbelow := hl
  rw [hpath, place_below hne hid] at hbelow
  obtain ⟨place, hplace, hwalk⟩ := Option.bind_eq_some_iff.mp hbelow
  obtain ⟨⟨entries, hentries, hchild⟩, -⟩ := Tree.walk_name hid hwalk
  refine ⟨place, entries, hplace, hentries, Tree.mem_names_of_child hchild, ?_⟩
  have hnode : disk.node (problemsDir ++ bytes "/" ++ problemId ++ bytes "/meta.json") =
      some node := by
    rw [Disk.node, hl]
    exact hat
  rw [Disk.read_eq, hnode] at htext
  rw [FileSys.stat, cstr_eq_self hnul, Disk.isReg_eq, hnode]
  cases node with
  | file content readable => rfl
  | dir entries =>
    -- what comes out of a directory is not JSON
    cases htext
    rw [problemInfoFromJson, JsonFormat.parseText, hempty] at hinfo
    cases hinfo

/-- **An id that is a name is listed**, when `list_problems` returns. -/
theorem listed_of_name {p : ProblemInfo} (hempty : F.parse [] = none) (hne : problemsDir ≠ [])
    (hdir : NulFree problemsDir) (hid : ProblemName problemId)
    (hlistable : Listable F disk.files problemsDir)
    (h : getProblem disk.files problemsDir F problemId = .ok (some p)) :
    Listed F disk.files problemsDir problemId := by
  obtain ⟨hplain, hfree, hdot⟩ := hid
  obtain ⟨text, info, htext, hinfo⟩ := getProblem_ok h
  obtain ⟨place, entries, hplace, hat, hmem, hstat⟩ :=
    entry_of_getProblem hempty hne hdir hplain hfree h
  have hnames : disk.files.entries (cstr problemsDir) =
      some (bytes "." :: bytes ".." :: Tree.names entries) := by
    have hnode : disk.node problemsDir = some (.dir entries) := by
      rw [Disk.node, hplace]
      exact hat
    rw [cstr_eq_self hdir, Disk.entries_eq, hnode]
  have hname : problemId ∈ bytes "." :: bytes ".." :: Tree.names entries :=
    List.mem_cons_of_mem _ (List.mem_cons_of_mem _ hmem)
  obtain ⟨problems, hproblems⟩ := listable_iff.mpr hlistable
  obtain ⟨-, count, hcount⟩ := hlistable _ hnames problemId hname hdot hstat text htext
  refine ⟨problems, hproblems, { info with id := problemId, testCaseCount := Int32.ofNat count },
    ?_, rfl⟩
  refine (mem_listProblems hproblems).mpr ⟨_, hnames, problemId, hname, ?_⟩
  exact problemOfEntry_of hdot hstat htext hinfo hcount

theorem name_of_listed (hdir : NulFree problemsDir)
    (h : Listed F disk.files problemsDir problemId) :
    problemsDir ≠ [] ∧ ProblemName problemId ∧ Listable F disk.files problemsDir := by
  obtain ⟨problems, hproblems, q, hq, rfl⟩ := h
  obtain ⟨names, hnames, name, hname, hentry⟩ := (mem_listProblems hproblems).mp hq
  obtain ⟨text, info, count, hdot, -, -, -, -, rfl⟩ := problemOfEntry_ok hentry
  rw [cstr_eq_self hdir, Disk.entries_eq] at hnames
  refine ⟨?_, ?_, listable_iff.mp ⟨problems, hproblems⟩⟩
  · rintro rfl
    cases hnames
  split at hnames
  · next entries hnode =>
    cases hnames
    rcases List.mem_cons.mp hname with rfl | hname
    · exact absurd rfl hdot
    rcases List.mem_cons.mp hname with rfl | hname
    · exact absurd rfl hdot
    · obtain ⟨hplain, hfree⟩ := Tree.plain_of_mem_names hname
      exact ⟨hplain, hfree, hdot⟩
  · cases hnames

/-- **When an id is one problem and nothing else**: an id that `get_problem` takes is one
that `list_problems` lists, and all that is opened for it is in its own directory, exactly
when the problems directory has a name, the id is a name that does not begin with a dot,
and `list_problems` returns. -/
theorem confined_iff {p : ProblemInfo} (hempty : F.parse [] = none) (hdir : NulFree problemsDir)
    (h : getProblem disk.files problemsDir F problemId = .ok (some p)) :
    (Listed F disk.files problemsDir problemId ∧ Confined disk problemsDir problemId) ↔
      problemsDir ≠ [] ∧ ProblemName problemId ∧ Listable F disk.files problemsDir := by
  constructor
  · rintro ⟨hlisted, -⟩
    exact name_of_listed hdir hlisted
  · rintro ⟨hne, hid, hlistable⟩
    obtain ⟨place, entries, hplace, -⟩ := entry_of_getProblem hempty hne hdir hid.1 hid.2.1 h
    exact ⟨listed_of_name hempty hne hdir hid hlistable h,
      confined_of_plain hne hdir hid.1 hid.2.1 hplace⟩

end Paths

/-! ### An id that leads elsewhere -/

def fileName (s : String) (h : PlainName s ∧ NulFree (bytes s)) : FileName := ⟨s, h.1, h.2⟩

/-- A problem `a` in the problems directory `p`, and another file `meta.json` beside it. -/
def besideDisk : Disk where
  root := .dir
    [(fileName "p" (by decide), .dir
      [(fileName "a" (by decide), .dir [(fileName "meta.json" (by decide), .file "\x7b\x7d" true)])]),
    (fileName "x" (by decide), .dir [(fileName "meta.json" (by decide), .file "\x7b\x7d" true)])]
  cwd := []

/-- **A file outside the problems directory is judged as a problem**, for an id that goes
up. -/
theorem reads_elsewhere :
    (∃ p, getProblem besideDisk.files "p" jsonText "../x" = .ok (some p)) ∧
      ¬ Listed jsonText besideDisk.files "p" "../x" ∧ ¬ Confined besideDisk "p" "../x" := by
  refine ⟨⟨{ id := "../x" }, rfl⟩, ?_, ?_⟩
  · intro h
    obtain ⟨-, hid, -⟩ := name_of_listed (by decide) h
    exact absurd hid (by decide)
  · rintro ⟨place, hplace, hall⟩
    have hp : besideDisk.place "p" = some [bytes "p"] := rfl
    rw [hp] at hplace
    cases hplace
    have hl : besideDisk.place (cstr (bytes "p" ++ "/" ++ bytes "../x" ++ "/meta.json")) =
        some [bytes "x", bytes "meta.json"] := rfl
    exact absurd (hall _ List.mem_cons_self _ hl) (by decide)

theorem confined_iff_a :
    Listed jsonText besideDisk.files "p" "a" ∧ Confined besideDisk "p" "a" := by
  have hget : getProblem besideDisk.files "p" jsonText "a" = .ok (some { id := "a" }) := rfl
  refine (confined_iff rfl (by decide) hget).mpr ⟨by decide, by decide, ?_⟩
  intro names hnames name hname hdot hstat text htext
  have hentries : besideDisk.files.entries (cstr "p") =
      some [bytes ".", bytes "..", bytes "a"] := rfl
  cases hentries.symm.trans hnames
  simp only [List.mem_cons, List.not_mem_nil, or_false] at hname
  rcases hname with rfl | rfl | rfl
  · exact absurd rfl hdot
  · exact absurd rfl hdot
  · have hread : besideDisk.files.ifstream (bytes "p" ++ "/" ++ bytes "a" ++ "/meta.json") =
        some (bytes "\x7b\x7d") := rfl
    cases hread.symm.trans htext
    refine ⟨⟨{}, rfl⟩, 0, countInputs_eq_ok_iff.mpr ⟨by omega, by decide, fun j hj => ?_⟩⟩
    cases hj

end Ocpe
