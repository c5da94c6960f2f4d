import Ocpe.Lib.WaitStatus
import Ocpe.Sandbox.Language

/-!
# Compiling

`sandbox/src/compiler.cpp`.  `compile_source` picks a command by language, runs it
and reads the wait status.  How the command itself goes is the argument `exec`;
`runCompileProcess` turns that into the number and the output
`run_compile_process` returns, where `-1` and `-2` stand for the two failures
that leave no status.
-/

namespace Ocpe

open Lib

structure CompileResult where
  success : Bool := false
  runnablePath : Bytes := []
  interpreter : Bytes := []
  output : Bytes := []
  deriving DecidableEq, Repr

/-- How running a compile command can go, when it comes to an end, with what it printed. -/
inductive CompileRun where
  | pipeFailed
  | forkFailed
  | timedOut (output : Bytes)
  | exited (status : Nat) (output : Bytes)
  deriving DecidableEq, Repr

def runCompileProcess : CompileRun → Int × Bytes
  | .pipeFailed => (-1, "Failed to create compile pipe")
  | .forkFailed => (-1, "fork() failed for compilation")
  | .timedOut output => (-2, bytes "Compilation timed out\n" ++ output)
  | .exited status output => (status, output)

/-- The last lines of `compile_source` and of `validate_python_syntax`. -/
def compileResult (runnablePath interpreter : Bytes) (r : Int × Bytes) : CompileResult where
  success := if r.1 = -1 ∨ r.1 = -2 then false
    else wifexited r.1.toNat ∧ wexitstatus r.1.toNat = 0
  runnablePath := runnablePath
  interpreter := interpreter
  output := r.2

def pythonArgv (sourcePath : Bytes) : List Bytes := ["python3", "-m", "py_compile", sourcePath]

def cppArgv (sourcePath outputPath : Bytes) : List Bytes :=
  ["g++", "-O2", "-std=c++17", "-Wall", sourcePath, "-o", outputPath]

def cArgv (sourcePath outputPath : Bytes) : List Bytes :=
  ["gcc", "-O2", "-std=c11", "-Wall", sourcePath, "-o", outputPath, "-lm"]

section

variable (exec : List Bytes → CompileRun)

def validatePythonSyntax (sourcePath : Bytes) : CompileResult :=
  compileResult sourcePath "python3" (runCompileProcess (exec (pythonArgv sourcePath)))

def compileSource (language sourcePath outputPath : Bytes) : CompileResult :=
  let lang := normalizeLanguage language
  if lang = "python" then validatePythonSyntax exec sourcePath
  else
    let argv :=
      if lang = "cpp" then cppArgv sourcePath outputPath else cArgv sourcePath outputPath
    compileResult outputPath [] (runCompileProcess (exec argv))

end

end Ocpe
