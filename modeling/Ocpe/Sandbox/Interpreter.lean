import Ocpe.Lib.ExecPath
import Ocpe.Sandbox.Compiler

/-!
# Which program is started

`compile_source` starts its command with `execvp`, and `Sandbox::run` the program, or the
interpreter of it, with `execv`.  For C and C++ that is the executable that the compiler
has left.  For Python both calls are given `python3`, but only the first one looks it up
in `PATH`.

* `finds_of_success`: what compiles was found by `execvp` and exits with 0.
* `starts_iff`: what has compiled is started, by the same interpreter, exactly when it is
  no Python or the `python3` of `PATH` is the one of the working directory.
-/

namespace Ocpe

open Lib

/-- The command of `compile_source`. -/
def compileArgv (language sourcePath outputPath : Bytes) : List Bytes :=
  if normalizeLanguage language = "python" then pythonArgv sourcePath
  else if normalizeLanguage language = "cpp" then cppArgv sourcePath outputPath
  else cArgv sourcePath outputPath

/-- What the child of `Sandbox::run` gives to `execv`: the path and the arguments. -/
def Sandbox.execArgs (runnablePath interpreter : Bytes) : Bytes × List Bytes :=
  if interpreter = [] then (cstr runnablePath, [cstr runnablePath])
  else (cstr interpreter, [cstr interpreter, cstr runnablePath])

/-- The machine a submission is compiled and run on. -/
structure Host (N : Type) where
  /-- `PATH` -/
  path : Option Bytes
  cwd : N
  files : FileGraph N
  piped : Bool
  forked : Bool
  /-- how a program goes with these arguments, and the files as the child of `Sandbox::run`
  finds them then -/
  program : N → List Bytes → CompileRun × FileGraph N

namespace Host

variable {N : Type} (h : Host N)

/-- The program that `execvp` finds for the command. -/
def finds (argv : List Bytes) : Option N :=
  h.files.execvp h.cwd h.path (cstr (argv.headD []))

def command (argv : List Bytes) : CompileRun × FileGraph N :=
  if !h.piped then (.pipeFailed, h.files)
  else if !h.forked then (.forkFailed, h.files)
  else
    match h.finds argv with
    | none => (.exited (127 * 256) [], h.files)
    | some n => h.program n (argv.map cstr)

def exec (argv : List Bytes) : CompileRun := (h.command argv).1

def leaves (argv : List Bytes) : FileGraph N := (h.command argv).2

/-- The child of `Sandbox::run` finds what it is to execute, and for an interpreted language
this is the interpreter of the compile. -/
def Starts (language sourcePath outputPath : Bytes) : Prop :=
  let argv := compileArgv language sourcePath outputPath
  let result := compileSource h.exec language sourcePath outputPath
  ∃ n, (h.leaves argv).execv h.cwd (Sandbox.execArgs result.runnablePath result.interpreter).1 =
      some n ∧
    (result.interpreter ≠ [] → h.finds argv = some n)

/-- A compiler of C or C++ that exits with 0 has left an executable under the name that
`-o` gives, also for the user that the child runs as. -/
def LeavesOutput (sourcePath outputPath : Bytes) : Prop :=
  ∀ argv ∈ [cppArgv sourcePath outputPath, cArgv sourcePath outputPath], ∀ n status output files,
    h.finds argv = some n → h.program n (argv.map cstr) = (.exited status output, files) →
      wifexited status = true → wexitstatus status = 0 →
        (files.execv h.cwd (cstr outputPath)).isSome = true

/-- The first directory of `PATH` with an executable `python3` has the one that the working
directory has under that name, also after the compile. -/
def PythonAtHand (sourcePath : Bytes) : Prop :=
  ∃ pre dir post n, FileGraph.pathDirs h.path = pre ++ dir :: post ∧
    h.files.inDir h.cwd dir "python3" = some n ∧
    (∀ d ∈ pre, h.files.inDir h.cwd d "python3" = none) ∧
    (h.leaves (pythonArgv sourcePath)).entry h.cwd "python3" = some n ∧
    (h.leaves (pythonArgv sourcePath)).executable n = true

variable {h}

theorem success_compileResult_iff {runnablePath interpreter : Bytes} {r : CompileRun} :
    (compileResult runnablePath interpreter (runCompileProcess r)).success = true ↔
      ∃ status output, r = .exited status output ∧ wifexited status = true ∧
        wexitstatus status = 0 := by
  cases r with
  | pipeFailed => simp [compileResult, runCompileProcess]
  | forkFailed => simp [compileResult, runCompileProcess]
  | timedOut output => simp [compileResult, runCompileProcess]
  | exited status output =>
    have hstatus : ¬ ((status : Int) = -1 ∨ (status : Int) = -2) := by omega
    have hsuccess : (compileResult runnablePath interpreter
        (runCompileProcess (.exited status output))).success =
          decide (wifexited status = true ∧ wexitstatus status = 0) :=
      if_neg (t := false) hstatus
    rw [hsuccess, decide_eq_true_eq]
    constructor
    · intro hend
      exact ⟨status, output, rfl, hend⟩
    · rintro ⟨_, _, hr, hend⟩
      cases hr
      exact hend

theorem compileSource_eq (exec : List Bytes → CompileRun) (language sourcePath outputPath : Bytes) :
    compileSource exec language sourcePath outputPath =
      compileResult
        (if normalizeLanguage language = "python" then sourcePath else outputPath)
        (if normalizeLanguage language = "python" then bytes "python3" else [])
        (runCompileProcess (exec (compileArgv language sourcePath outputPath))) := by
  unfold compileSource compileArgv validatePythonSyntax
  by_cases hpython : normalizeLanguage language = "python"
  · simp only [if_pos hpython]
  · simp only [if_neg hpython]

/-- **What compiles** was found by `execvp` and exits with 0. -/
theorem finds_of_success {language sourcePath outputPath : Bytes}
    (hsuccess : (compileSource h.exec language sourcePath outputPath).success = true) :
    ∃ n status output, h.finds (compileArgv language sourcePath outputPath) = some n ∧
      h.program n ((compileArgv language sourcePath outputPath).map cstr) =
        (.exited status output, h.leaves (compileArgv language sourcePath outputPath)) ∧
      wifexited status = true ∧ wexitstatus status = 0 := by
  rw [compileSource_eq, success_compileResult_iff] at hsuccess
  obtain ⟨status, output, hexec, hexited, hzero⟩ := hsuccess
  rcases hpiped : h.piped with _ | _
  · simp only [exec, command, hpiped] at hexec
    cases hexec
  rcases hforked : h.forked with _ | _
  · simp only [exec, command, hpiped, hforked] at hexec
    cases hexec
  cases hfinds : h.finds (compileArgv language sourcePath outputPath) with
  | none =>
    simp only [exec, command, hpiped, hforked, hfinds] at hexec
    cases hexec
    exact absurd hzero (by decide)
  | some n =>
    have hcommand : h.command (compileArgv language sourcePath outputPath) =
        h.program n ((compileArgv language sourcePath outputPath).map cstr) := by
      simp only [command, hpiped, hforked, hfinds]
      rfl
    exact ⟨n, status, output, rfl, by rw [leaves, ← hexec, exec, hcommand], hexited, hzero⟩

theorem searched_python : FileGraph.SearchedName (bytes "python3") := by decide

/-- What has compiled as C or C++ is started. -/
theorem starts_compiled {language sourcePath outputPath : Bytes}
    (hlang : normalizeLanguage language ≠ "python") (hleaves : h.LeavesOutput sourcePath outputPath)
    (hsuccess : (compileSource h.exec language sourcePath outputPath).success = true) :
    h.Starts language sourcePath outputPath := by
  obtain ⟨n, status, output, hfinds, hprogram, hexited, hzero⟩ := finds_of_success hsuccess
  have hargv : compileArgv language sourcePath outputPath ∈
      [cppArgv sourcePath outputPath, cArgv sourcePath outputPath] := by
    rw [compileArgv, if_neg hlang]
    split <;> simp
  obtain ⟨m, hm⟩ := Option.isSome_iff_exists.mp
    (hleaves _ hargv n status output _ hfinds hprogram hexited hzero)
  refine ⟨m, ?_, fun hinterp => ?_⟩
  · rw [compileSource_eq, if_neg hlang, if_neg hlang]
    exact hm
  · rw [compileSource_eq, if_neg hlang, if_neg hlang] at hinterp
    exact absurd rfl hinterp

/-- What has compiled as Python is started as it was compiled exactly when the working
directory has that interpreter. -/
theorem starts_python_iff {language sourcePath outputPath : Bytes}
    (hlang : normalizeLanguage language = "python") :
    h.Starts language sourcePath outputPath ↔ h.PythonAtHand sourcePath := by
  have hargv : compileArgv language sourcePath outputPath = pythonArgv sourcePath := if_pos hlang
  have hfinds : ∀ n, h.finds (pythonArgv sourcePath) = some n ↔
      ∃ pre dir post, FileGraph.pathDirs h.path = pre ++ dir :: post ∧
        h.files.inDir h.cwd dir "python3" = some n ∧
        ∀ d ∈ pre, h.files.inDir h.cwd d "python3" = none :=
    fun n => FileGraph.execvp_eq_some_iff h.path searched_python
  have hexecv : ∀ n, (h.leaves (pythonArgv sourcePath)).execv h.cwd "python3" = some n ↔
      (h.leaves (pythonArgv sourcePath)).entry h.cwd "python3" = some n ∧
        (h.leaves (pythonArgv sourcePath)).executable n = true := by
    intro n
    rw [FileGraph.execv_name searched_python, Option.filter_eq_some_iff]
  unfold Starts PythonAtHand
  rw [hargv, compileSource_eq, if_pos hlang, if_pos hlang]
  constructor
  · intro ⟨n, hstarts, hsame⟩
    obtain ⟨pre, dir, post, hdirs, hdir, hpre⟩ := (hfinds n).mp (hsame (List.cons_ne_nil _ _))
    exact ⟨pre, dir, post, n, hdirs, hdir, hpre, (hexecv n).mp hstarts⟩
  · intro ⟨pre, dir, post, n, hdirs, hdir, hpre, hhand⟩
    exact ⟨n, (hexecv n).mpr hhand, fun _ => (hfinds n).mpr ⟨pre, dir, post, hdirs, hdir, hpre⟩⟩

/-- **When a program that has compiled is started.** -/
theorem starts_iff (h : Host N) (language sourcePath outputPath : Bytes)
    (hleaves : h.LeavesOutput sourcePath outputPath)
    (hsuccess : (compileSource h.exec language sourcePath outputPath).success = true) :
    h.Starts language sourcePath outputPath ↔
      (normalizeLanguage language = "python" → h.PythonAtHand sourcePath) := by
  by_cases hlang : normalizeLanguage language = "python"
  · rw [starts_python_iff hlang]
    exact ⟨fun hhand _ => hhand, fun himp => himp hlang⟩
  · exact ⟨fun _ hpython => absurd hpython hlang, fun _ => starts_compiled hlang hleaves hsuccess⟩

/-! ### The image of the worker -/

/-- `/` is 0, `/usr` 1, `/usr/bin` 2 and `/app` 3, with `python3` 4, the compilers 5 and what
these leave 6. -/
def imageEntry (compiled : Bool) (d : Nat) (c : Bytes) : Option Nat :=
  if c = [] ∧ d < 4 then some d
  else if d = 0 ∧ c = "usr" then some 1
  else if d = 0 ∧ c = "app" then some 3
  else if d = 1 ∧ c = "bin" then some 2
  else if d = 2 ∧ c = "python3" then some 4
  else if d = 2 ∧ (c = "gcc" ∨ c = "g++") then some 5
  else if d = 3 ∧ c = "main" ∧ compiled then some 6
  else none

def imageFiles (compiled : Bool) : FileGraph Nat where
  root := 0
  entry := imageEntry compiled
  executable n := 4 ≤ n

/-- The worker in `/app`, with the interpreter and the compilers in `/usr/bin`. -/
def image : Host Nat where
  path := some "/usr/local/bin:/usr/bin"
  cwd := 3
  files := imageFiles false
  piped := true
  forked := true
  program n _ := (.exited 0 [], imageFiles (n = 5))

/-- The same worker, started in `/usr/bin`. -/
def imageInBin : Host Nat := { image with cwd := 2 }

theorem leavesOutput_image : image.LeavesOutput "main.c" "main" := by
  intro argv hargv n status output files hfinds hprogram _ _
  have hfive : image.finds argv = some 5 := by
    rcases List.mem_pair.mp hargv with rfl | rfl <;> decide
  obtain rfl : n = 5 := Option.some.inj (hfinds.symm.trans hfive)
  cases hprogram
  decide

theorem leavesOutput_imageInBin : imageInBin.LeavesOutput "/app/main.py" "/app/main" := by
  intro argv hargv n status output files hfinds hprogram _ _
  have hfive : imageInBin.finds argv = some 5 := by
    rcases List.mem_pair.mp hargv with rfl | rfl <;> decide
  obtain rfl : n = 5 := Option.some.inj (hfinds.symm.trans hfive)
  cases hprogram
  decide

/-- In `/usr/bin` both calls find the one `python3`. -/
theorem starts_iff_compiled :
    image.Starts "c" "main.c" "main" ∧
      imageInBin.Starts "python" "/app/main.py" "/app/main" := by
  constructor
  · exact (starts_iff image "c" "main.c" "main" leavesOutput_image (by decide)).mpr
      fun hpython => absurd hpython (by decide)
  · refine (starts_iff imageInBin "python" "/app/main.py" "/app/main" leavesOutput_imageInBin
      (by decide)).mpr fun _ => ?_
    exact ⟨["/usr/local/bin"], "/usr/bin", [], 4, by decide, by decide, by decide, by decide,
      by decide⟩

/-- A Python program compiles in the image and is not started. -/
theorem not_started :
    (compileSource image.exec "python" "main.py" "main").success = true ∧
      ¬ image.Starts "python" "main.py" "main" := by
  refine ⟨by decide, ?_⟩
  intro ⟨n, hstarts, _⟩
  have hnone : (image.leaves (compileArgv "python" "main.py" "main")).execv image.cwd "python3" =
      none := by decide
  exact absurd (hstarts.symm.trans hnone) (Option.some_ne_none n)

end Host

end Ocpe
