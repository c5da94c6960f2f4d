import Ocpe.Shared.JsonUtils

/-!
# The problem loader

`shared/src/problem_loader.cpp`: a problem is a directory with a `meta.json` and
numbered test files.  The file system is taken as what `open`, `stat` and
`readdir` answer for a path; a path goes to it as a C string.

`load_test_cases` stops at the first number whose `.in` or `.out` file cannot be
read, and at 10000 in any case: `length_loadTestCases`.  `list_problems` has a loop of
its own, which stops at the first number without an `.in` file.
-/

namespace Ocpe

open Lib

structure FileSys where
  /-- The contents of the file, when it can be opened for reading. -/
  read : Bytes → Option Bytes
  /-- Whether the path is a regular file, when `stat` succeeds. -/
  isReg : Bytes → Option Bool
  /-- The names in a directory, in the order of `readdir`. -/
  entries : Bytes → Option (List Bytes)

/-- The file system with these files, each readable, and no directory listing. -/
def FileSys.ofFiles (l : List (Bytes × Bytes)) : FileSys where
  read path := (l.find? fun f => f.1 = path).map Prod.snd
  isReg path := (l.find? fun f => f.1 = path).map fun _ => true
  entries _ := none

def FileSys.ifstream (files : FileSys) (path : Bytes) : Option Bytes := files.read (cstr path)

def FileSys.stat (files : FileSys) (path : Bytes) : Option Bool := files.isReg (cstr path)

section Loader

variable (files : FileSys) (problemsDir : Bytes)

/-- `n` more rounds of the loop of `load_test_cases`, from number `i` on. -/
def loadTestCasesFrom (testsDir : Bytes) : Nat → Nat → List (Bytes × Bytes)
  | 0, _ => []
  | n + 1, i =>
    let inPath := testsDir ++ "/" ++ decimal i ++ ".in"
    let outPath := testsDir ++ "/" ++ decimal i ++ ".out"
    if (files.stat inPath).isNone then []
    else
      match files.ifstream inPath, files.ifstream outPath with
      | some input, some expected => (input, expected) :: loadTestCasesFrom testsDir n (i + 1)
      | _, _ => []

def loadTestCases (problemId : Bytes) : List (Bytes × Bytes) :=
  loadTestCasesFrom files (problemsDir ++ "/" ++ problemId ++ "/tests") 10000 0

variable (F : JsonFormat)

def getProblem (problemId : Bytes) : Except JsonError (Option ProblemInfo) :=
  match files.ifstream (problemsDir ++ "/" ++ problemId ++ "/meta.json") with
  | none => .ok none
  | some text => do
    let p ← problemInfoFromJson F text
    let tests := loadTestCases files problemsDir problemId
    return some { p with id := problemId, testCaseCount := Int32.ofNat tests.length }

/-- How `list_problems` can fail: with an exception of the JSON library, or with an
`int` that overflows. -/
inductive ListFault
  | json (e : JsonError)
  | overflow
  deriving DecidableEq, Repr

/-- `n` more rounds of the loop of `list_problems` over the `.in` files; after the last
one `++count` overflows. -/
def countInputsFrom (testsDir : Bytes) : Nat → Nat → Except ListFault Nat
  | 0, _ => .error .overflow
  | n + 1, count =>
    if (files.stat (testsDir ++ "/" ++ decimal count ++ ".in")).isNone then .ok count
    else countInputsFrom testsDir n (count + 1)

/-- `count` starts at 0, and an `int` goes up to `2 ^ 31 - 1`. -/
def countInputs (testsDir : Bytes) : Except ListFault Nat :=
  countInputsFrom files testsDir 2147483648 0

/-- One round of the loop of `list_problems`. -/
def problemOfEntry (name : Bytes) : Except ListFault (Option ProblemInfo) :=
  if name.head? = some 46 then .ok none
  else
    let path := problemsDir ++ "/" ++ name ++ "/meta.json"
    if files.stat path ≠ some true then .ok none
    else
      match files.ifstream path with
      | none => .ok none
      | some text => do
        let p ← (problemInfoFromJson F text).mapError ListFault.json
        let count ← countInputs files (problemsDir ++ "/" ++ name ++ "/tests")
        return some { p with id := name, testCaseCount := Int32.ofNat count }

def problemsOfEntries : List Bytes → Except ListFault (List ProblemInfo)
  | [] => .ok []
  | name :: names => do
    let p ← problemOfEntry files problemsDir F name
    let problems ← problemsOfEntries names
    return p.toList ++ problems

def listProblems : Except ListFault (List ProblemInfo) :=
  match files.entries (cstr problemsDir) with
  | none => .ok []
  | some names => problemsOfEntries files problemsDir F names

end Loader

theorem length_loadTestCasesFrom (files : FileSys) (testsDir : Bytes) (n i : Nat) :
    (loadTestCasesFrom files testsDir n i).length ≤ n := by
  induction n generalizing i with
  | zero => simp [loadTestCasesFrom]
  | succ n ih =>
    simp only [loadTestCasesFrom]
    split
    · simp
    · split
      · simpa using ih (i + 1)
      · simp

theorem length_loadTestCases (files : FileSys) (problemsDir problemId : Bytes) :
    (loadTestCases files problemsDir problemId).length ≤ 10000 :=
  length_loadTestCasesFrom ..

/-- **A hexadecimal string of fixed length**, as the generators of ids, salts and
tokens produce. -/
structure HexString (n : Nat) where
  text : Bytes
  length_text : text.length = n
  hex : ∀ b ∈ text, b ∈ bytes "0123456789abcdef"

/-- One digit over and over. -/
def HexString.replicate (n : Nat) (c : UInt8) (hc : c ∈ bytes "0123456789abcdef") :
    HexString n where
  text := List.replicate n c
  length_text := List.length_replicate
  hex _ hb := List.eq_of_mem_replicate hb ▸ hc

theorem one_isHex : (49 : UInt8) ∈ bytes "0123456789abcdef" := by decide

theorem HexString.nulFree {n : Nat} (s : HexString n) : NulFree s.text := fun h => by
  have := s.hex 0 h
  revert this
  decide

theorem HexString.validUtf8 {n : Nat} (s : HexString n) : ValidUtf8 s.text := by
  have h : (bytes "0123456789abcdef").all (· ≤ 0x7F) = true := by decide
  exact validUtf8_of_ascii fun b hb => of_decide_eq_true (List.all_eq_true.mp h b (s.hex b hb))

end Ocpe
